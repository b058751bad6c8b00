import HetSim.Emulation.SleepWake
import HetSim.Replay.Actions

/-!
# Sleep and wake in the replay

The emulation counts by the PE that an entry names, the replay takes the engine at that position
and looks at whether it ticks. As long as every WAKE hits the engine it names and none comes before
its SLEEP, every WAKE finds its target asleep, and the SLEEP and WAKE entries in the order of the
replay are a run of the emulation in which the same engines wait.
-/

namespace HetSim.Replay
open Checked List World

variable {cfg : Config} {w w' : World} {loc loc' : TREId → Loc} {i j t : TREId}

def Obs.wakesUp (j : TREId) : Obs → Bool
  | .woke _ d _ => d = j
  | _ => false

def sleeps (j : TREId) (log : List Obs) : ℕ := log.countP (· = .slept j)
def wakes (j : TREId) (log : List Obs) : ℕ := log.countP (Obs.wakesUp j)

/-- Each WAKE hits the engine it names, after a SLEEP of it that no other WAKE belongs to. -/
def Matched (log : List Obs) : Prop :=
  ∀ l₁ i d t l₂, log = l₁ ++ .woke i d t :: l₂ → t = d ∧ wakes d l₁ < sleeps d l₁

variable {l os : List Obs} {o : Obs} {numPe : ℕ} {s : List Emulation.PE}

theorem Matched.of_append {l' : List Obs} (h : Matched (l ++ l')) : Matched l := by
  intro l₁ i d t l₂ hl
  apply h l₁ i d t (l₂ ++ l')
  rw [hl]
  simp

def Obs.isSleepWake : Obs → Bool
  | .slept _ | .woke _ _ _ => true
  | _ => false

section Frame

variable {l os : List Obs} (h : ∀ o ∈ os, o.isSleepWake = false)
include h

theorem sleeps_append (j : TREId) : sleeps j (l ++ os) = sleeps j l := by
  have hz : os.countP (· = .slept j) = 0 := by
    rw [countP_eq_zero]
    intro o ho he
    rw [of_decide_eq_true he] at ho
    exact nomatch h _ ho
  rw [sleeps, countP_append, hz]
  rfl

theorem wakes_append (j : TREId) : wakes j (l ++ os) = wakes j l := by
  have hz : os.countP (Obs.wakesUp j) = 0 := by
    rw [countP_eq_zero]
    intro o ho he
    have hq := h o ho
    cases o <;> first | cases he | cases hq
  rw [wakes, countP_append, hz]
  rfl

theorem sleeping_append (j : TREId) : sleeping j (l ++ os) = sleeping j l := by
  induction os using List.reverseRecOn with
  | nil => simp
  | append_singleton os o ih =>
    rw [← append_assoc, sleeping_concat, ih fun o' ho' => h o' (mem_append_left _ ho')]
    have hq := h o (by simp)
    cases o <;> first | rfl | cases hq

theorem calm_append (hc : Calm j l) : Calm j (l ++ os) := by
  induction os using List.reverseRecOn with
  | nil => simpa using hc
  | append_singleton os o ih =>
    rw [← append_assoc]
    refine (ih fun o' ho' => h o' (mem_append_left _ ho')).concat fun i d he => ?_
    exact nomatch he ▸ h o (by simp)

end Frame

def Obs.emuCalls : Obs → List Emulation.Call
  | .slept i => [.sleep i.toNat]
  | .woke _ d _ => [.wake d.toNat, .resume d.toNat]
  | _ => []

def emuCalls (log : List Obs) : List Emulation.Call := log.flatMap Obs.emuCalls

theorem emuCalls_append (h : ∀ o ∈ os, o.isSleepWake = false) :
    emuCalls (l ++ os) = emuCalls l := by
  have hnil : os.flatMap Obs.emuCalls = [] := by
    rw [flatMap_eq_nil_iff]
    intro o ho
    have hq := h o ho
    cases o <;> first | rfl | cases hq
  rw [emuCalls, flatMap_append, hnil, append_nil]
  rfl

structure Emulated (numPe : ℕ) (w : World) (s : List Emulation.PE) : Prop where
  run : Runs.run Emulation.step (Emulation.init numPe) (emuCalls w.log) = .ok s
  pe : ∀ j ∈ w.allTREs, ∃ p, s[j.toNat]? = some p ∧ p.sleeps = sleeps j w.log ∧
    p.wakes = wakes j w.log ∧ p.waiting = sleeping j w.log

structure SleepInv (w : World) : Prop where
  calm : ∀ j, Calm j w.log
  law : ∀ j, sleeps j w.log = wakes j w.log + (sleeping j w.log).toNat
  acts : ∀ j l₁ o l₂, w.log = l₁ ++ o :: l₂ → o.actor = some j → sleeps j l₁ ≤ wakes j l₁
  emulated : ∀ numPe, (∀ j ∈ w.allTREs, j.toNat < numPe) → ∃ s, Emulated numPe w s

theorem append_eq_split {l₁ l₂ : List Obs} (h : l ++ os = l₁ ++ o :: l₂) :
    (∃ as, l = l₁ ++ o :: as) ∨ ∃ as, l₁ = l ++ as ∧ os = as ++ o :: l₂ := by
  rcases append_eq_append_iff.mp h with ⟨as, rfl, hos⟩ | ⟨as, hl, hos⟩
  · exact .inr ⟨as, rfl, hos⟩
  · cases as with
    | nil => exact .inr ⟨[], by simpa using hl.symm, by simpa using hos.symm⟩
    | cons b as =>
      rw [cons_append, List.cons.injEq] at hos
      exact .inl ⟨as, by rw [hl, hos.1]⟩

theorem SleepInv.passed (hi : SleepInv w) (hs : Sound cfg w j (loc j))
    (hd : (loc j).detached = true) : sleeping j w.log = false ∧ sleeps j w.log = wakes j w.log := by
  have hsl : sleeping j w.log = false := by
    rw [Bool.eq_false_iff]
    intro hc
    rw [hs.registered.asleep.mp hc] at hd
    cases hd
  have hlaw := hi.law j
  rw [hsl] at hlaw
  exact ⟨hsl, hlaw⟩

theorem SleepInv.acts_append (hi : SleepInv w) (h : Move w loc w' loc')
    (hs : ∀ j, Sound cfg w j (loc j)) (os : List Obs) (hlog : w'.log = w.log ++ os)
    (hq : ∀ as o l, os = as ++ o :: l → ∀ o' ∈ as, o'.isSleepWake = false) :
    ∀ j l₁ o l₂, w'.log = l₁ ++ o :: l₂ → o.actor = some j → sleeps j l₁ ≤ wakes j l₁ := by
  intro j l₁ o l₂ hl ho
  obtain ⟨os', hlog', hact⟩ := h.actors
  obtain rfl : os = os' := append_cancel_left (hlog.symm.trans hlog')
  rcases append_eq_split (hlog.symm.trans hl) with ⟨as, hw⟩ | ⟨as, rfl, hos⟩
  · exact hi.acts j l₁ o as hw ho
  · have hmem : o ∈ os := by
      rw [hos]
      simp
    have hp := hi.passed (hs j) (hact j (hs j).placed o hmem ho)
    rw [sleeps_append (hq as o l₂ hos), wakes_append (hq as o l₂ hos)]
    exact hp.2.le

theorem SleepInv.frame (hi : SleepInv w) (h : Move w loc w' loc') (hs : ∀ j, Sound cfg w j (loc j))
    (os : List Obs) (hlog : w'.log = w.log ++ os) (hos : ∀ o ∈ os, o.isSleepWake = false) :
    SleepInv w' := by
  refine ⟨fun j => ?_, fun j => ?_, ?_, fun numPe hn => ?_⟩
  · rw [hlog]
    exact calm_append hos (hi.calm j)
  · rw [hlog, sleeps_append hos, wakes_append hos, sleeping_append hos]
    exact hi.law j
  · refine hi.acts_append h hs os hlog fun os₁ o os₂ he o' ho' => hos o' ?_
    rw [he]
    exact mem_append_left _ ho'
  · rw [h.allTREs_eq] at hn
    obtain ⟨s, hrun, hpe⟩ := hi.emulated numPe hn
    refine ⟨s, ?_, ?_⟩
    · rw [hlog, emuCalls_append hos]
      exact hrun
    · rw [hlog, h.allTREs_eq]
      intro j hj
      rw [sleeps_append hos, wakes_append hos, sleeping_append hos]
      exact hpe j hj

theorem sleeps_concat (j : TREId) (l : List Obs) (o : Obs) :
    sleeps j (l ++ [o]) = sleeps j l + if o = .slept j then 1 else 0 := by
  simp [sleeps, countP_append, countP_cons]

theorem wakes_concat (j : TREId) (l : List Obs) (o : Obs) :
    wakes j (l ++ [o]) = wakes j l + (o.wakesUp j).toNat := by
  cases h : o.wakesUp j <;> simp [wakes, countP_append, h]

theorem Emulated.next {p q : Emulation.PE}
    (h : Emulated numPe w s) (hp : s[t.toNat]? = some p)
    (hrun : Runs.run Emulation.step s o.emuCalls = .ok (s.set t.toNat q))
    (hlog : w'.log = w.log ++ [o]) (hall : w'.allTREs = w.allTREs)
    (hq : q.sleeps = sleeps t w'.log ∧ q.wakes = wakes t w'.log ∧ q.waiting = sleeping t w'.log)
    (hne : ∀ j, j ≠ t → sleeps j w'.log = sleeps j w.log ∧ wakes j w'.log = wakes j w.log ∧
      sleeping j w'.log = sleeping j w.log) : Emulated numPe w' (s.set t.toNat q) where
  run := by
    have hcalls : emuCalls w'.log = emuCalls w.log ++ o.emuCalls := by simp [emuCalls, hlog]
    rw [hcalls, Runs.run_append, h.run, ok_bind, hrun]
  pe := by
    intro j hj
    by_cases hjt : j = t
    · subst hjt
      exact ⟨q, List.getElem?_set_self (List.getElem?_eq_some_iff.mp hp).1, hq⟩
    · obtain ⟨h₁, h₂, h₃⟩ := hne j hjt
      rw [h₁, h₂, h₃, List.getElem?_set_ne fun e => hjt (UInt32.toNat_inj.mp e.symm)]
      exact h.pe j (hall ▸ hj)

theorem Emulated.sleep (h : Emulated numPe w s)
    (hj : j ∈ w.allTREs) (hsl : sleeping j w.log = false) (he : sleeps j w.log = wakes j w.log) :
    ∃ s', Emulated numPe (w.emit (.slept j)) s' := by
  obtain ⟨p, hp, h₁, h₂, h₃⟩ := h.pe j hj
  have hlaw := Emulation.Reachable.lawful s ⟨_, h.run⟩ p (mem_of_getElem? hp)
  have hrun : Runs.run Emulation.step s (Obs.slept j).emuCalls = .ok (s.set j.toNat p.sleep) := by
    simp only [Obs.emuCalls, Runs.run_cons, Emulation.step_sleep hp (h₃.trans hsl), ok_bind,
      Runs.run_nil]
  have hcalls :=
    Emulation.PE.test_calls { p with sleepCntr := p.sleepCntr + 1, sleeps := p.sleeps + 1 }
  refine ⟨_, h.next hp hrun (emit_log ..) rfl ⟨?_, ?_, ?_⟩ fun k hk => ⟨?_, ?_, ?_⟩⟩
  · rw [emit_log, sleeps_concat, if_pos rfl, ← h₁]
    exact hcalls.1
  · rw [emit_log, wakes_concat, ← h₂]
    exact hcalls.2
  · rw [emit_log, sleeping_concat, hlaw.sleep_waits (by rw [h₁, h₂, he])]
    simp [Obs.sleeps]
  · simp [sleeps_concat, hk.symm]
  · simp [wakes_concat, Obs.wakesUp]
  · simp [sleeping_concat, Obs.sleeps, hk.symm]

theorem Emulated.wake (h : Emulated numPe w s)
    (ht : t ∈ w.allTREs) (hsl : sleeping t w.log = true)
    (he : sleeps t w.log = wakes t w.log + 1) (hlog : w'.log = w.log ++ [.woke i t t])
    (hall : w'.allTREs = w.allTREs) : ∃ s', Emulated numPe w' s' := by
  obtain ⟨p, hp, h₁, h₂, h₃⟩ := h.pe t ht
  have hlaw := Emulation.Reachable.lawful s ⟨_, h.run⟩ p (mem_of_getElem? hp)
  have hcalls := Emulation.PE.test_calls p.wake
  have hrun : Runs.run Emulation.step s (Obs.woke i t t).emuCalls =
      .ok (s.set t.toNat p.wake.test) := Emulation.run_wake hp (h₃.trans hsl)
  refine ⟨_, h.next hp hrun hlog hall ⟨?_, ?_, ?_⟩ fun k hk => ⟨?_, ?_, ?_⟩⟩
  · rw [hlog, sleeps_concat, if_neg nofun, ← h₁]
    exact hcalls.1
  · rw [hlog, wakes_concat, ← h₂, hcalls.2]
    simp [Obs.wakesUp, Emulation.PE.wake]
  · rw [hlog, sleeping_concat, hlaw.wake_returns (by rw [h₁, h₂, he])]
    simp [Obs.sleeps]
  · simp [hlog, sleeps_concat]
  · simp [hlog, wakes_concat, Obs.wakesUp, hk.symm]
  · simp [hlog, sleeping_concat, Obs.sleeps, hk.symm]

theorem SleepInv.asleep (hi : SleepInv w) (h : wakes t w.log < sleeps t w.log) :
    sleeping t w.log = true ∧ sleeps t w.log = wakes t w.log + 1 := by
  have hlaw := hi.law t
  cases hsl : sleeping t w.log with
  | false =>
    rw [hsl] at hlaw
    simp at hlaw
    omega
  | true =>
    rw [hsl] at hlaw
    exact ⟨rfl, hlaw⟩

theorem SleepInv.slept (hi : SleepInv w) (hs : ∀ j, Sound cfg w j (loc j))
    (hℓ : loc i = .holding .sleep) : SleepInv (w.emit (.slept i)) := by
  have hm : Move w loc _ _ := Move.sleep i hℓ
  have hpass := hi.passed (hs i) (by rw [hℓ]; rfl)
  refine ⟨fun j => ?_, fun j => ?_, ?_, fun numPe hn => ?_⟩
  · exact (hi.calm j).concat fun _ _ => nofun
  · have hlaw := hi.law j
    rw [emit_log, sleeps_concat, wakes_concat, sleeping_concat]
    by_cases hj : i = j
    · subst hj
      simp [Obs.wakesUp, Obs.sleeps, hpass.2]
    · simpa [Obs.wakesUp, Obs.sleeps, hj] using hlaw
  · refine hi.acts_append hm hs [.slept i] rfl fun as o l hl => ?_
    cases as with
    | nil => simp
    | cons a as => simp at hl
  · obtain ⟨s, hemu⟩ := hi.emulated numPe hn
    have hmem : i ∈ w.allTREs := (hs i).registered.present.mpr (by simp [hℓ])
    exact hemu.sleep hmem hpass.1 hpass.2

theorem SleepInv.woke (hi : SleepInv w) (hs : ∀ j, Sound cfg w j (loc j))
    (hm : Move w loc w' loc') (hlog : w'.log = w.log ++ [.woke i t t]) (ht : t ∈ w.allTREs)
    (hlt : wakes t w.log < sleeps t w.log) : SleepInv w' := by
  obtain ⟨hsl, heq⟩ := hi.asleep hlt
  refine ⟨fun j => ?_, fun j => ?_, ?_, fun numPe hn => ?_⟩
  · rw [hlog]
    intro l₁ k e l₂ hl
    rcases append_eq_split hl with ⟨as, hw⟩ | ⟨as, rfl, hos⟩
    · exact hi.calm j l₁ k e as hw
    · cases as with
      | nil =>
        simp only [nil_append, List.cons.injEq, Obs.woke.injEq] at hos
        rw [← hos.1.2.2, append_nil]
        exact hsl
      | cons a as => simp at hos
  · have hlaw := hi.law j
    rw [hlog, sleeps_concat, wakes_concat, sleeping_concat]
    by_cases hj : t = j
    · subst hj
      simp [Obs.wakesUp, Obs.sleeps, heq]
    · simpa [Obs.wakesUp, Obs.sleeps, hj] using hlaw
  · refine hi.acts_append hm hs _ hlog fun as o l hl => ?_
    cases as with
    | nil => simp
    | cons a as => simp at hl
  · rw [hm.allTREs_eq] at hn
    obtain ⟨s, hemu⟩ := hi.emulated numPe hn
    exact hemu.wake ht hsl heq hlog hm.allTREs_eq

theorem Move.sleepInv (h : Move w loc w' loc') (hs : ∀ j, Sound cfg w j (loc j))
    (hi : SleepInv w) (hmatch : Matched w'.log) : SleepInv w' := by
  have hm := id h
  cases h with
  | sleep k hℓ => exact hi.slept hs hℓ
  | @wake k t hℓ hd hx hne ht htt =>
    obtain ⟨rfl, hlt⟩ := hmatch w.log _ _ t [] rfl
    exact hi.woke hs hm rfl (mem_of_getElem? hx) hlt
  | engine k os hown hos he =>
    refine hi.frame hm hs os rfl fun o ho => ?_
    have hp := hos o ho
    cases o <;> first | rfl | cases hp
  | halt k n exit hx hℓ hb hr =>
    refine hi.frame hm hs _ rfl fun o ho => ?_
    rcases hx with rfl | rfl <;> simp at ho
    · rw [ho]
      rfl
    · rcases ho with rfl | rfl <;> rfl
  | releaseBatch k hℓ hb hn hk ht =>
    refine hi.frame hm hs _ (append_assoc _ _ _) fun o ho => ?_
    rcases mem_cons.mp ho with rfl | ho
    · rfl
    · rw [mem_singleton.mp ho]
      rfl
  | queueWait k side =>
    refine hi.frame hm hs _ rfl fun o ho => ?_
    rw [mem_singleton.mp ho]
    cases side <;> rfl
  | queueDone k side hℓ hq hz hsl ht =>
    refine hi.frame hm hs _ (by rw [set_log, emit_log, setQueue_log, wakeSlot_log])
      fun o ho => ?_
    rw [mem_singleton.mp ho]
    cases side <;> rfl
  | _ =>
    refine hi.frame hm hs _ rfl fun o ho => ?_
    rw [mem_singleton.mp ho]
    rfl

theorem boot_sleepInv (cfg : Config) : SleepInv (boot cfg) := by
  have hlog := (boot_fresh cfg).log
  refine ⟨fun j => ?_, fun j => ?_, ?_, fun numPe hn => ⟨Emulation.init numPe, ?_, fun j hj => ?_⟩⟩
  · exact .of_forall_ne (by simp [hlog])
  · simp [hlog, sleeps, wakes, sleeping]
  · intro j l₁ o l₂ hl
    simp [hlog] at hl
  · simp [hlog, emuCalls]
  · refine ⟨⟨0, false, 0, 0, 0⟩, ?_, ?_⟩
    · simp [Emulation.init, hn j hj]
    · simp [hlog, sleeps, wakes, sleeping]

theorem Reachable.sleepInv (hw : Reachable cfg w) (hm : Matched w.log) :
    ∃ loc, Settled loc ∧ Sane cfg w loc ∧ SleepInv w := by
  obtain ⟨loc, hset, hsane, hi⟩ :=
    Reachable.with_sane (P := fun w _ => Matched w.log → SleepInv w) (fun _ => boot_sleepInv cfg)
      (fun w loc w' loc' hs hi hmove hmatch => by
        obtain ⟨os, hlog⟩ := hmove.log_append
        have hinv := hi (hlog ▸ hmatch).of_append
        exact hmove.sleepInv (fun j => hs j (hinv.calm j)) hinv hmatch) w hw
  exact ⟨loc, hset, hsane, hi hm⟩

structure World.Asleep (w : World) (j : TREId) : Prop where
  present : j ∈ w.allTREs
  running : Obs.halted j ∉ w.log
  idle : Idle (w.tre j)
  unblocked : (w.tre j).blocked = false
  mutex : ∀ a, j ∉ w.waitingOn a
  barrier : ∀ a, j ∉ w.arrivedAt a
  queue : ∀ x, w.slot x ≠ some j

theorem Sound.asleep_iff {ℓ : Loc} (hs : Sound cfg w j ℓ) (htr : ℓ.transient = false) :
    w.Asleep j ↔ sleeping j w.log = true := by
  obtain ⟨hp, hr, -, -, -, -, -, -⟩ := hs
  rw [hr.asleep]
  constructor
  · intro h
    cases ℓ with
    | absent => exact absurd rfl (hr.present.mp h.present)
    | halted => exact absurd (hr.halted.mpr rfl) h.running
    | tick => exact absurd (hp.tick.mpr rfl) (by simp [h.idle.tick])
    | prim p => exact absurd ((hp.prim p).mpr rfl) (by simp [h.idle.prim])
    | retry => exact absurd h.idle.retry (hp.retry.mpr rfl)
    | blocked => exact absurd (hp.parked rfl) (by simp [h.unblocked])
    | mutex a => exact absurd (count_pos_iff.mp (by simp [hr.mutex a])) (h.mutex a)
    | barrier a => exact absurd (count_pos_iff.mp (by simp [hr.barrier a])) (h.barrier a)
    | queue side other =>
      have hslot := (hr.slot side _).mpr ⟨other, rfl, rfl⟩
      cases side with
      | push => exact absurd hslot (h.queue ((j, other), true))
      | pop => exact absurd hslot (h.queue ((other, j), false))
    | asleep => rfl
    | awake | holding | ready => cases htr
  · rintro rfl
    refine ⟨hr.present.mpr nofun, fun h => (nomatch hr.halted.mp h), hp.idle rfl,
      hp.not_blocked (by simp), fun a h => (nomatch hr.of_mem_waitingOn h),
      fun a h => (nomatch hr.of_mem_arrivedAt h), ?_⟩
    rintro ⟨k, b⟩ h
    obtain ⟨other, hℓ, -⟩ := (hr.slot (if b then .push else .pop) k).mp (by cases b <;> exact h)
    cases hℓ

theorem Executes.wakes_up {e : Event} {s : TRE} (env : Env)
    (hx : Executes w i .wake e os s) (hs : Sane cfg w loc) (hc : ∀ j, Calm j w.log)
    (hsl : sleeping t w.log = true) (hd : s.data ≠ 0)
    (ht : w.allTREs[s.data.toNat]? = some t) :
    ∃ w', step w (.fire i e, env) = .ok w' ∧ (w'.tre t).scheduled .tick = true ∧
      w'.log = w.log ++ os ++ [.woke i s.data t] := by
  have hos : ∀ o ∈ os, o.isSleepWake = false := by cases hx <;> simp [Obs.isSleepWake]
  have hv := hx.sane hs t (hx.calm (hc t))
  have hloc : Function.update loc i (.holding .wake) t = .asleep :=
    hv.registered.asleep.mp ((sleeping_append hos t).trans hsl)
  have hne : t ≠ i := by
    rintro rfl
    rw [Function.update_self] at hloc
    cases hloc
  have hsi : (w.starting i os s).tre i = s := by simp [starting]
  have hst : (w.starting i os s).tre t = w.tre t := by simp [starting, hne]
  have htick : s.scheduled .tick = false := by
    have hpl := (hx.sound hs (hc i)).placed
    rw [hsi] at hpl
    exact (hpl.idle rfl).tick
  have htt : (w.tre t).scheduled .tick = false := by
    have hpl := hv.placed
    rw [hloc, hst] at hpl
    exact (hpl.idle rfl).tick
  set v := ((w.starting i os s).set t (w.tre t).ticking).emit (.woke i s.data t) with hv'
  have hvi : v.tre i = s := by simp [hv', Ne.symm hne, hsi]
  refine ⟨v.set i (clearData (v.tre i).ticking), ?_, ?_, ?_⟩
  · rw [hx.step_eq]
    have hall : (w.starting i os s).allTREs[s.data.toNat]? = some t := ht
    simp only [runPrim, wake, hsi, require, if_pos hd, hall, demand, ok_bind, hst, htt, if_true,
      schedule, Bool.false_eq_true, if_false]
    exact proceed_eq_ok.mpr ⟨by rw [← TRE.ticking, ← hv', hvi]; exact htick, rfl⟩
  · simp [hne, hv', TRE.ticking]
  · simp [hv', starting]

structure SleepSafe (w : World) : Prop where
  passed : ∀ j ∈ w.allTREs, ∀ k, 1 ≤ k → k ≤ sleeps j w.log →
    ((k < sleeps j w.log ∨ ¬ w.Asleep j) ↔ k ≤ wakes j w.log)
  acts : ∀ j l₁ o l₂, w.log = l₁ ++ o :: l₂ → o.actor = some j → sleeps j l₁ ≤ wakes j l₁
  emulated : ∀ numPe, (∀ j ∈ w.allTREs, j.toNat < numPe) → ∃ s,
    Runs.run Emulation.step (Emulation.init numPe) (emuCalls w.log) = .ok s ∧
    ∀ j ∈ w.allTREs, ∃ p, s[j.toNat]? = some p ∧ p.sleeps = sleeps j w.log ∧
      p.wakes = wakes j w.log ∧ (p.waiting = true ↔ w.Asleep j)
  wake : ∀ i e os s env, Executes w i .wake e os s → s.data ≠ 0 →
    w.allTREs[s.data.toNat]? = some s.data → wakes s.data w.log < sleeps s.data w.log →
    w.Asleep s.data ∧ ∃ w', step w (.fire i e, env) = .ok w' ∧
      (w'.tre s.data).scheduled .tick = true ∧ Matched w'.log ∧
      wakes s.data w'.log = sleeps s.data w'.log

theorem Matched.concat (h : Matched l)
    (ho : ∀ i d t, o = .woke i d t → t = d ∧ wakes d l < sleeps d l) : Matched (l ++ [o]) := by
  intro l₁ i d t l₂ hl
  rcases append_eq_split hl with ⟨as, hw⟩ | ⟨as, rfl, hos⟩
  · exact h l₁ i d t as hw
  · cases as with
    | nil =>
      rw [nil_append, List.cons.injEq] at hos
      rw [append_nil]
      exact ho i d t hos.1
    | cons a as => simp at hos

theorem sleep_wake_replay (hw : Reachable cfg w) (hm : Matched w.log) :
    (∀ numPe s, Emulation.Reachable numPe s → ∀ p ∈ s, p.returned ≤ p.wakes ∧
      (p.sleeps < p.wakes → p.sleep.waiting = false)) ∧ SleepSafe w := by
  refine ⟨fun numPe s hs p hp => ?_, ?_⟩
  · have hlaw := Emulation.Reachable.lawful s hs p hp
    exact ⟨hlaw.returns, hlaw.sleep_returns⟩
  obtain ⟨loc, hset, hsane, hi⟩ := hw.sleepInv hm
  have hasleep : ∀ j, w.Asleep j ↔ sleeping j w.log = true := fun j =>
    (hsane j (hi.calm j)).asleep_iff (hset j)
  refine ⟨fun j _ k hk hk' => ?_, hi.acts, fun numPe hn => ?_, fun i e os s env hx hd ht hlt => ?_⟩
  · have hlaw := hi.law j
    rw [hasleep]
    cases hsl : sleeping j w.log <;> rw [hsl] at hlaw <;> simp at hlaw ⊢ <;> omega
  · obtain ⟨s, hrun, hpe⟩ := hi.emulated numPe hn
    refine ⟨s, hrun, fun j hj => ?_⟩
    obtain ⟨p, hp, h₁, h₂, h₃⟩ := hpe j hj
    exact ⟨p, hp, h₁, h₂, by rw [h₃, hasleep]⟩
  · obtain ⟨hsl, heq⟩ := hi.asleep hlt
    obtain ⟨w', hstep, htick, hlog⟩ := hx.wakes_up env hsane hi.calm hsl hd ht
    have hos : ∀ o ∈ os, o.isSleepWake = false := by cases hx <;> simp [Obs.isSleepWake]
    refine ⟨(hasleep _).mpr hsl, w', hstep, htick, ?_, ?_⟩
    · rw [hlog]
      refine Matched.concat ?_ fun k d u ho => ?_
      · cases hx with
        | fire => simpa using hm
        | read => exact hm.concat fun _ _ _ => nofun
      · cases ho
        rw [sleeps_append hos, wakes_append hos]
        exact ⟨rfl, hlt⟩
    · rw [hlog, wakes_concat, sleeps_concat, sleeps_append hos, wakes_append hos, heq]
      simp [Obs.wakesUp]

theorem sleep_wake_replay_pair :
    ∃ w, Reachable (pair 1 ["WAKE", "1", "0", "EOF"] ["SLEEP", "0", "EOF"]) w ∧ Matched w.log ∧
      wakes 1 w.log = 1 ∧
      (∀ numPe s, Emulation.Reachable numPe s → ∀ p ∈ s, p.returned ≤ p.wakes ∧
        (p.sleeps < p.wakes → p.sleep.waiting = false)) ∧ SleepSafe w := by
  have hrun : Runs.Ends step (boot (pair 1 ["WAKE", "1", "0", "EOF"] ["SLEEP", "0", "EOF"]))
      [(.fire 1 .tick, {}), (.fire 0 .tick, {})]
      (fun w => w.log = [.ticked 1, .slept 1, .ticked 0, .woke 0 1 1]) := by decide +kernel
  obtain ⟨w, hw, hlog⟩ := hrun.reachable
  have hm : Matched w.log := by
    have h₀ : Matched [] := fun l₁ i d t l₂ h => by simp at h
    have h₁ := h₀.concat (o := .ticked 1) fun _ _ _ => nofun
    have h₂ := h₁.concat (o := .slept 1) fun _ _ _ => nofun
    have h₃ := h₂.concat (o := .ticked 0) fun _ _ _ => nofun
    have h₄ := h₃.concat (o := .woke 0 1 1) fun i d t ho => by
      cases ho
      decide
    rw [hlog]
    exact h₄
  exact ⟨w, hw, hm, by rw [hlog]; decide, sleep_wake_replay hw hm⟩

/-- The emulation remembers a WAKE that comes before its SLEEP, the replay stops. -/
theorem early_wake_stops :
    Runs.Ends Emulation.step (Emulation.init 2) [.wake 1, .sleep 1]
      (fun s => s[1]?.map Emulation.PE.returned = some 1) ∧
    Runs.Stops step (boot (pair 1 ["WAKE", "1", "0", "EOF"] ["SLEEP", "0", "EOF"]))
      [(.fire 0 .tick, {})] .alreadyAwake := by decide +kernel

end HetSim.Replay
