import HetSim.Replay.Accesses

/-!
# No engine is lost, and none is woken twice

In a system whose traces have neither SLEEP nor WAKE, every engine is calm. Each that has not
halted is suspended in exactly one way, and whoever may let it tick again finds the event free to
be scheduled.
-/

namespace HetSim.Replay
open Checked List World

variable {cfg : Config} {w w' : World} {loc loc' : TREId → Loc} {i j : TREId} {ℓ : Loc}

def Config.Quiet (cfg : Config) : Prop :=
  ∀ p ∈ cfg.engines, ∀ trace ∈ p.trace, "SLEEP" ∉ trace ∧ "WAKE" ∉ trace

instance (cfg : Config) : Decidable cfg.Quiet :=
  inferInstanceAs (Decidable (∀ p ∈ cfg.engines, ∀ trace ∈ p.trace, _ ∧ _))

theorem Config.Quiet.boot (h : cfg.Quiet) (j : TREId) :
    "SLEEP" ∉ ((boot cfg).tre j).trace ∧ "WAKE" ∉ ((boot cfg).tre j).trace := by
  rcases (boot_fresh cfg).engine j with ⟨-, hs⟩ | ⟨-, p, hp, trace, -, htr, hs⟩
  · rw [hs]
    exact ⟨not_mem_nil, not_mem_nil⟩
  · rw [hs]
    exact h p hp trace htr

theorem primOf_sleep {word : String} (h : primOf word = some .sleep) : word = "SLEEP" := by
  unfold primOf at h
  split at h <;> simp_all

theorem primOf_wake {word : String} (h : primOf word = some .wake) : word = "WAKE" := by
  unfold primOf at h
  split at h <;> simp_all

theorem Sound.word_of_prim {p : Prim} (hs : Sound cfg w j ℓ) (hℓ : ℓ = .holding p ∨ ℓ = .prim p) :
    ∃ word ∈ ((boot cfg).tre j).trace, primOf word = some p := by
  have hp : (w.tre j).pending ℓ = true := by rcases hℓ with rfl | rfl <;> rfl
  obtain ⟨e, he, hm⟩ := hs.parsed.mem_entries hp
  have hh : Holds (w.tre j) p e := by rcases hℓ with rfl | rfl <;> exact hm
  obtain ⟨c, rfl⟩ := hh
  rw [← hs.trace]
  exact prim_mem_entries he

theorem exists_realised {hist : List Effect} {done : List Entry} {eff : Effect}
    (h : List.Forall₂ Realises hist done) (he : eff ∈ hist) : ∃ e ∈ done, Realises eff e := by
  obtain ⟨n, hn, rfl⟩ := getElem_of_mem he
  have hn' : n < done.length := h.length_eq ▸ hn
  exact ⟨done[n], getElem_mem hn', h.get hn hn'⟩

theorem Sound.word_of_effect {p : Prim} {pa : Option Addr} {da : Option UInt32}
    (hs : Sound cfg w j ℓ) (h : .prim p pa da ∈ effects j w.log) :
    ∃ word ∈ ((boot cfg).tre j).trace, primOf word = some p := by
  obtain ⟨done, hd, hr⟩ := hs.ordered.order
  obtain ⟨e, he, hre⟩ := exists_realised hr h
  rw [← hs.trace]
  cases e with
  | prim q qa qd c =>
    obtain ⟨rfl, -, -⟩ := hre
    exact prim_mem_entries (hd ▸ mem_append_left _ he)
  | access | stall => exact hre.elim

theorem sleeping_concat (j : TREId) (log : List Obs) (o : Obs) :
    sleeping j (log ++ [o]) = o.sleeps j (sleeping j log) := by
  simp [sleeping]

theorem slept_of_sleeping {log : List Obs} (h : sleeping j log = true) : Obs.slept j ∈ log := by
  induction log using List.reverseRecOn with
  | nil => cases h
  | append_singleton log o ih =>
    rw [sleeping_concat] at h
    cases o with
    | slept k =>
      by_cases hk : k = j
      · simp [hk]
      · exact mem_append_left _ (ih (by simpa [Obs.sleeps, hk] using h))
    | woke k d t =>
      by_cases ht : t = j
      · simp [Obs.sleeps, ht] at h
      · exact mem_append_left _ (ih (by simpa [Obs.sleeps, ht] using h))
    | _ => exact mem_append_left _ (ih h)

theorem Sound.not_asleep (hs : Sound cfg w j ℓ) (hq : cfg.Quiet) : ℓ ≠ .asleep := by
  intro hℓ
  have hl := slept_of_sleeping (hs.registered.asleep.mpr hℓ)
  have he : .prim .sleep none none ∈ effects j w.log :=
    mem_filterMap.mpr ⟨_, hl, by simp [Obs.effect, Obs.by?]⟩
  obtain ⟨word, hw, hp⟩ := hs.word_of_effect he
  rw [primOf_sleep hp] at hw
  exact (hq.boot j).1 hw

theorem Sound.not_wake (hs : Sound cfg w j ℓ) (hq : cfg.Quiet) :
    ℓ ≠ .holding .wake ∧ ℓ ≠ .prim .wake ∧ ℓ ≠ .prim .sleep := by
  refine ⟨fun hℓ => ?_, fun hℓ => ?_, fun hℓ => ?_⟩
  · obtain ⟨word, hw, hp⟩ := hs.word_of_prim (.inl hℓ)
    rw [primOf_wake hp] at hw
    exact (hq.boot j).2 hw
  · obtain ⟨word, hw, hp⟩ := hs.word_of_prim (.inr hℓ)
    rw [primOf_wake hp] at hw
    exact (hq.boot j).2 hw
  · obtain ⟨word, hw, hp⟩ := hs.word_of_prim (.inr hℓ)
    rw [primOf_sleep hp] at hw
    exact (hq.boot j).1 hw

theorem Move.woke_mem {d : UInt32} {t : TREId} (h : Move w loc w' loc')
    (hm : Obs.woke i d t ∈ w'.log) : Obs.woke i d t ∈ w.log ∨ loc i = .holding .wake := by
  cases h with
  | engine k os h hos he =>
    rcases mem_append.mp hm with hm | hm
    · exact .inl hm
    · exact absurd (hos _ hm) nofun
  | halt k n exit hx hℓ hb h => rcases hx with rfl | rfl <;> simp_all
  | wake k hℓ hd hx hne ht htt =>
    rcases mem_append.mp hm with hm | hm
    · exact .inl hm
    · rw [mem_singleton] at hm
      cases hm
      exact .inr hℓ
  | releaseBatch k hℓ hb hn hi ht => exact .inl (by simpa [setAll] using hm)
  | queueWait k side | queueDone k side => cases side <;> simp_all [Obs.queued, Obs.served]
  | _ => simp_all

structure Peaceful (cfg : Config) (w : World) (loc : TREId → Loc) : Prop where
  sane : Sane cfg w loc
  woke : ∀ i d t, Obs.woke i d t ∉ w.log

namespace Peaceful

theorem sound (h : Peaceful cfg w loc) (j : TREId) : Sound cfg w j (loc j) :=
  h.sane j (.of_forall_ne fun i d => h.woke i d j)

theorem move (h : Peaceful cfg w loc) (hq : cfg.Quiet) (hm : Move w loc w' loc') :
    Peaceful cfg w' loc' where
  sane := hm.sane h.sane
  woke i d t hmem := by
    rcases hm.woke_mem hmem with hold | hℓ
    · exact h.woke i d t hold
    · exact ((h.sound i).not_wake hq).1 hℓ

theorem own {s : TRE} (h : Peaceful cfg w loc) (hq : cfg.Quiet)
    (hm : OwnMove (loc i) (w.tre i) none ℓ s) :
    Peaceful cfg (w.set i s) (Function.update loc i ℓ) := by
  have hmove := Move.engine i [] hm (by simp) rfl
  simp only [append_nil] at hmove
  exact h.move hq hmove

end Peaceful

theorem Reachable.with_sound {P : World → (TREId → Loc) → Prop} (hq : cfg.Quiet)
    (start : P (boot cfg) (bootLoc cfg))
    (keep : ∀ w loc w' loc', (∀ j, Sound cfg w j (loc j)) → P w loc → Move w loc w' loc' →
      P w' loc') :
    ∀ w, Reachable cfg w → ∃ loc, Settled loc ∧ Peaceful cfg w loc ∧ P w loc := by
  intro w hw
  obtain ⟨loc, hset, -, hp, hP⟩ :=
    Reachable.with_sane (P := fun w loc => Peaceful cfg w loc ∧ P w loc)
      ⟨⟨boot_sane cfg, by simp [(boot_fresh cfg).log]⟩, start⟩
      (fun w loc w' loc' _ h hm => ⟨h.1.move hq hm, keep w loc w' loc' h.1.sound h.2 hm⟩) w hw
  exact ⟨loc, hset, hp, hP⟩

inductive Suspension
  | tick | prim | retry | memory | mutex | barrier | queue
  deriving DecidableEq

def World.slot (w : World) (x : (TREId × TREId) × Bool) : Option TREId :=
  if x.2 then w.pushSlot x.1 else w.popSlot x.1

def World.Suspended (w : World) (i : TREId) : Suspension → Prop
  | .tick => (w.tre i).scheduled .tick = true
  | .prim => ∃ p, p ≠ .sleep ∧ p ≠ .wake ∧ ∀ q, (w.tre i).scheduled (.prim q) = true ↔ q = p
  | .retry => (w.tre i).retryPkt ≠ none
  | .memory => (w.tre i).blocked = true ∧ (w.tre i).scheduled .tick = false ∧
      (w.tre i).outstandingAddrs ≠ []
  | .mutex => ∃ a, ∀ b, (w.waitingOn b).count i = if b = a then 1 else 0
  | .barrier => ∃ a, ∀ b, (w.arrivedAt b).count i = if b = a then 1 else 0
  | .queue => ∃! x, w.slot x = some i

def Loc.suspension : Loc → Option Suspension
  | .tick => some .tick
  | .prim _ => some .prim
  | .retry => some .retry
  | .blocked => some .memory
  | .mutex _ => some .mutex
  | .barrier _ => some .barrier
  | .queue .. => some .queue
  | _ => none

theorem Sound.suspended_iff (hs : Sound cfg w i ℓ) (hq : cfg.Quiet) (htr : ℓ.transient = false)
    (hmax : 1 ≤ (w.tre i).maxNumOutstandingAddrs) (c : Suspension) :
    w.Suspended i c ↔ ℓ.suspension = some c := by
  obtain ⟨hp, hr, hb, -, -, -, -, -⟩ := id hs
  cases c with
  | tick =>
    refine hp.tick.trans ?_
    cases ℓ <;> simp [Loc.suspension]
  | prim =>
    have hloc : ℓ.suspension = some .prim ↔ ∃ p, ℓ = .prim p := by cases ℓ <;> simp [Loc.suspension]
    rw [hloc]
    constructor
    · rintro ⟨p, -, -, h⟩
      exact ⟨p, (hp.prim p).mp ((h p).mpr rfl)⟩
    · rintro ⟨p, rfl⟩
      obtain ⟨-, hwake, hsleep⟩ := hs.not_wake hq
      refine ⟨p, fun e => hsleep (by rw [e]), fun e => hwake (by rw [e]), fun q => ?_⟩
      rw [hp.prim q]
      exact ⟨fun e => by cases e; rfl, fun e => by rw [e]⟩
  | retry =>
    refine hp.retry.trans ?_
    cases ℓ <;> simp [Loc.suspension]
  | memory =>
    have hloc : ℓ.suspension = some .memory ↔ ℓ = .blocked := by cases ℓ <;> simp [Loc.suspension]
    rw [hloc]
    constructor
    · rintro ⟨hbl, ht, -⟩
      rcases hp.blocked hbl with rfl | rfl | rfl
      · rw [hp.tick.mpr rfl] at ht
        cases ht
      · rfl
      · cases htr
    · rintro rfl
      refine ⟨hp.parked rfl, ?_, hb.parked hmax rfl⟩
      rw [Bool.eq_false_iff]
      exact fun ht => nomatch hp.tick.mp ht
  | mutex =>
    have hloc :
        ℓ.suspension = some .mutex ↔ ∃ a, ℓ = .mutex a := by cases ℓ <;> simp [Loc.suspension]
    rw [hloc]
    constructor
    · rintro ⟨a, h⟩
      exact ⟨a, hr.of_mem_waitingOn (count_pos_iff.mp (by simp [h a]))⟩
    · rintro ⟨a, rfl⟩
      refine ⟨a, fun b => ?_⟩
      rw [hr.mutex b]
      simp [eq_comm]
  | barrier =>
    have hloc : ℓ.suspension = some .barrier ↔ ∃ a, ℓ = .barrier a := by
      cases ℓ <;> simp [Loc.suspension]
    rw [hloc]
    constructor
    · rintro ⟨a, h⟩
      exact ⟨a, hr.of_mem_arrivedAt (count_pos_iff.mp (by simp [h a]))⟩
    · rintro ⟨a, rfl⟩
      refine ⟨a, fun b => ?_⟩
      rw [hr.barrier b]
      simp [eq_comm]
  | queue =>
    have hslot : ∀ x, w.slot x = some i ↔ ∃ other, ℓ = .queue (if x.2 then .push else .pop) other ∧
        x.1 = queueKey i other (if x.2 then .push else .pop) := by
      rintro ⟨k, b⟩
      cases b with
      | true => exact hr.slot .push k
      | false => exact hr.slot .pop k
    have hloc : ℓ.suspension = some .queue ↔ ∃ side other, ℓ = .queue side other := by
      cases ℓ <;> simp [Loc.suspension]
    rw [hloc]
    constructor
    · rintro ⟨x, hx, -⟩
      obtain ⟨other, h, -⟩ := (hslot x).mp hx
      exact ⟨_, other, h⟩
    · rintro ⟨side, other, rfl⟩
      refine ⟨(queueKey i other side, decide (side = .push)), (hslot _).mpr ⟨other, ?_⟩, ?_⟩
      · cases side <;> exact ⟨rfl, rfl⟩
      · rintro ⟨k, b⟩ hx
        obtain ⟨other', h, hk⟩ := (hslot _).mp hx
        cases b <;> cases h <;> simp_all

theorem clear_of_sound {P : Fault → Prop} {p : Prim} (hs : ∀ j, Sound cfg w j (loc j))
    (hi : loc i = .holding p) : Clear P w i := by
  have htick : ∀ j, loc j ≠ .tick → Startable P w j .tick := fun j hj ht =>
    absurd ((hs j).placed.tick.mp ht) hj
  have hprim : ∀ j q, loc j ≠ .prim q → Startable P w j (.prim q) := fun j q hj ht =>
    absurd (((hs j).placed.prim q).mp ht) hj
  refine ⟨htick i (by simp [hi]), ?_, ?_, ?_, ?_⟩
  · intro m hm t ht
    rw [← waitingOn_eq hm] at ht
    have hℓ := (hs t).registered.of_mem_waitingOn ht
    refine ⟨htick t (by simp [hℓ]), ?_⟩
    rintro rfl
    exact absurd (hi.symm.trans hℓ) nofun
  · intro b hb
    have hloc : ∀ t ∈ b.arrived, loc t = .barrier (w.tre i).paddr := by
      intro t ht
      rw [← arrivedAt_eq hb] at ht
      exact (hs t).registered.of_mem_arrivedAt ht
    refine ⟨.inl ?_, fun t ht => htick t (by simp [hloc t ht])⟩
    rw [nodup_append_comm, singleton_append, nodup_cons, nodup_iff_count_le_one]
    refine ⟨fun hmem => absurd (hi.symm.trans (hloc i hmem)) nofun, fun t => ?_⟩
    rw [← arrivedAt_eq hb, (hs t).registered.barrier]
    split_ifs <;> simp
  · intro q hq t ht
    obtain ⟨other, hℓ, -⟩ := ((hs t).registered.slot _ _).mp ((waiter_eq hq .pop).trans ht)
    exact hprim t .pop (by simp [hℓ])
  · intro q hq t ht
    obtain ⟨other, hℓ, -⟩ := ((hs t).registered.slot _ _).mp ((waiter_eq hq .push).trans ht)
    exact hprim t .push (by simp [hℓ])

theorem Peaceful.raises (h : Peaceful cfg w loc) (hq : cfg.Quiet) (x : Ev × Env) :
    Raises (step w x) (fun f => ∀ e, f ≠ .alreadyScheduled e) := by
  have hP : ∀ f : Fault, f.isInternal = false → ∀ e, f ≠ .alreadyScheduled e := by
    rintro f hf e rfl
    cases hf
  -- a primitive, in the world its engine starts it in
  have hrun : ∀ {v : World} {loc : TREId → Loc} {i : TREId} {p : Prim}, Peaceful cfg v loc →
      loc i = .holding p → Raises (runPrim v i x.2 p) (fun f => ∀ e, f ≠ .alreadyScheduled e) := by
    intro v loc i p hv hi
    refine runPrim_raises hP (clear_of_sound hv.sound hi) ?_
    rintro rfl
    exact absurd hi ((hv.sound i).not_wake hq).1
  obtain ⟨ev, env⟩ := x
  cases ev with
  | fire i e =>
    refine .bind (.require fun _ _ => nofun) fun _ he => ?_
    rw [require_eq_ok] at he
    cases e with
    | tick =>
      have h₁ := h.move hq (.fireTick i he)
      have htick : ((w.tre i).setFlag .tick false).scheduled .tick = false := by simp
      refine tick_raises hP ?_ (fun _ _ => nofun) fun hnb => ?_
      · simp [Startable]
      refine tickNext_raises hP hnb ?_ (fun _ _ _ => nofun) (fun _ _ _ _ _ _ _ _ => nofun)
        fun p pa da c rest hread => ?_
      · simp [Startable]
      have h₂ := h₁.own (i := i) hq (by
        rw [Function.update_self]
        exact OwnMove.readPrim hnb hread)
      refine .ite (fun _ => hrun h₂ (by simp)) fun _ => schedule_raises fun hs => ?_
      have hpl := ((h₂.sound i).placed.prim p).mp hs
      simp at hpl
    | noRequest | noResponse => exact .error fun _ => nofun
    | prim p => exact hrun (h.own hq (.firePrim p he)) (by simp)
  | recvTimingResp i k =>
    refine .bind (.demand fun _ _ => nofun) fun pkt _ => ?_
    exact completeRequest_raises hP fun _ _ => nofun
  | recvReqRetry i =>
    refine recvRetry_raises hP fun hr ht => ?_
    have hℓ := (h.sound i).placed.retry.mp hr
    exact absurd (((h.sound i).placed.tick.mp ht).symm.trans hℓ) nofun

theorem Sound.suspension_isSome (hs : Sound cfg w i ℓ) (hq : cfg.Quiet) (htr : ℓ.transient = false)
    (hi : i ∈ w.allTREs) (hh : Obs.halted i ∉ w.log) : ∃ c, ℓ.suspension = some c := by
  have hasleep := hs.not_asleep hq
  have hpres := hs.registered.present.mp hi
  have hhalt : ℓ ≠ .halted := fun e => hh (hs.registered.halted.mpr e)
  cases ℓ <;> simp_all [Loc.suspension, Loc.transient]

theorem Move.allTREs_eq (h : Move w loc w' loc') : w'.allTREs = w.allTREs := by
  cases h with
  | queueDone i side hℓ hq hz hs ht =>
    cases hslot : TREQueue.slot _ side.other <;> rfl
  | _ => rfl

theorem no_lost_wakeup (hmax : ∀ p ∈ cfg.engines, 1 ≤ p.maxNumOutstandingAddrs) (hq : cfg.Quiet)
    (hw : Reachable cfg w) :
    (∀ i ∈ w.allTREs, (Obs.halted i ∉ w.log → ∃! c, w.Suspended i c) ∧
      (Obs.halted i ∈ w.log → ∀ c, ¬ w.Suspended i c)) ∧
    ∀ x e, step w x ≠ .error (.alreadyScheduled e) := by
  obtain ⟨loc, hset, hpeace, hall⟩ :=
    Reachable.with_sound (P := fun w _ => w.allTREs = (boot cfg).allTREs) hq rfl
      (fun _ _ _ _ _ h hm => hm.allTREs_eq.trans h) w hw
  refine ⟨fun i hi => ?_, fun x e he => hpeace.raises hq x _ he e rfl⟩
  have hs := hpeace.sound i
  have hlim : 1 ≤ (w.tre i).maxNumOutstandingAddrs := by
    rw [hs.limit]
    rcases (boot_fresh cfg).engine i with ⟨hb, -⟩ | ⟨-, p, hp, trace, -, -, hb⟩
    · exact absurd (hall ▸ hi) hb
    · rw [hb]
      exact hmax p hp
  have hiff := hs.suspended_iff hq (hset i) hlim
  constructor
  · intro hh
    obtain ⟨c, hc⟩ := hs.suspension_isSome hq (hset i) hi hh
    refine ⟨c, (hiff c).mpr hc, fun d hd => ?_⟩
    exact Option.some.inj (((hiff d).mp hd).symm.trans hc)
  · intro hh c hc
    rw [hiff, hs.registered.halted.mp hh] at hc
    cases hc

def lockerTrace : List String := ["MTXINIT", "0x8", "0", "MTXLOCK", "0x8", "0", "EOF"]

theorem no_lost_wakeup_lock :
    ∃ w, Reachable (pair 1 lockerTrace ["MTXLOCK", "0x8", "0", "EOF"]) w ∧ w.waitingOn 8 = [1] ∧
      (∀ i ∈ w.allTREs, (Obs.halted i ∉ w.log → ∃! c, w.Suspended i c) ∧
        (Obs.halted i ∈ w.log → ∀ c, ¬ w.Suspended i c)) ∧
      ∀ x e, step w x ≠ .error (.alreadyScheduled e) := by
  have hrun : Runs.Ends step (boot (pair 1 lockerTrace ["MTXLOCK", "0x8", "0", "EOF"]))
      [(.fire 0 .tick, {}), (.fire 0 .tick, {}), (.fire 1 .tick, {})]
      (fun w => w.waitingOn 8 = [1]) := by decide +kernel
  obtain ⟨w, hw, hwait⟩ := hrun.reachable
  exact ⟨w, hw, hwait, no_lost_wakeup (by decide) (by decide) hw⟩

end HetSim.Replay
