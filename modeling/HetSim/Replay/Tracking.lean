import HetSim.Replay.Registration

/-!
# Moves seen from one engine

`Move.registered` and `Move.tracks` follow one calm engine through a move of the system: its
registration is kept, and what happens to it is a move of its own or nothing. So an invariant of
a single engine has to be checked against `EngineMove` only.
-/

namespace HetSim.Replay

open List Function World Obs Registered TREQueue
open Channels (Side)

variable {w w' : World} {loc loc' : TREId → Loc} {i j t : TREId}

def Tracks (w : World) (loc : TREId → Loc) (w' : World) (loc' : TREId → Loc) (j : TREId) : Prop :=
  (w'.tre j = w.tre j ∧ loc' j = loc j ∧ effects j w'.log = effects j w.log) ∨
  ∃ e, EngineMove (loc j) (w.tre j) e (loc' j) (w'.tre j) ∧
    effects j w'.log = effects j w.log ++ e.toList

@[simp] theorem effects_singleton (j : TREId) (o : Obs) : effects j [o] = (effect j o).toList := by
  cases ho : effect j o <;> simp [effects, ho]

variable {o : Obs} {e : Effect}

theorem Obs.effect_self (h : o.by? = some (i, e)) : o.effect i = some e := by
  simp [effect, h]

theorem Obs.effect_of_ne (h : o.by? = some (i, e)) (hj : j ≠ i) : o.effect j = none := by
  simp [effect, h, Ne.symm hj]

theorem Tracks.mover {s : TRE} {ℓ : Loc}
    (hm : EngineMove (loc i) (w.tre i) (some e) ℓ s) (ho : o.by? = some (i, e))
    (ht : w'.tre j = update w.tre i s j) (hlog : w'.log = w.log ++ [o])
    (hloc : loc' j = update loc i ℓ j) : Tracks w loc w' loc' j := by
  by_cases hj : j = i
  · subst hj
    right
    refine ⟨some e, ?_, ?_⟩
    · simpa [ht, hloc] using hm
    · rw [hlog, effects_append, effects_singleton, effect_self ho]
  · left
    refine ⟨by simp [ht, hj], by simp [hloc, hj], ?_⟩
    rw [hlog, effects_append, effects_singleton, effect_of_ne ho hj]
    simp

theorem Tracks.pair {s x : TRE} {ℓ ℓ' : Loc} (hne : i ≠ t)
    (hm : EngineMove (loc i) (w.tre i) (some e) ℓ s) (ho : o.by? = some (i, e))
    (hm' : j = t → EngineMove (loc t) (w.tre t) none ℓ' x)
    (ht : w'.tre = update (update w.tre t x) i s) (hlog : w'.log = w.log ++ [o]) :
    Tracks w loc w' (update (update loc t ℓ') i ℓ) j := by
  by_cases hj : j = t
  · subst hj
    refine .inr ⟨none, by simpa [ht, hne.symm] using hm' rfl, ?_⟩
    rw [hlog, effects_append, effects_singleton, effect_of_ne ho hne.symm]
  · exact .mover hm ho (by simp [ht, update_apply, hj]) hlog (by simp [update_apply, hj])

theorem Tracks.silent {s : TRE} {ℓ : Loc}
    (hm : EngineMove (loc i) (w.tre i) none ℓ s) (ho : o.by? = none)
    (ht : w'.tre = update w.tre i s) (hlog : w'.log = w.log ++ [o]) :
    Tracks w loc w' (update loc i ℓ) j := by
  have hlog' : effects j w'.log = effects j w.log := by
    rw [hlog, effects_append, effects_singleton, effect, ho]
    simp
  by_cases hj : j = i
  · subst hj
    exact .inr ⟨none, by simpa [ht] using hm, by simpa using hlog'⟩
  · exact .inl ⟨by simp [ht, hj], by simp [hj], hlog'⟩

theorem effects_append_private {os : List Obs} (h : ∀ o ∈ os, o.isPrivate i = true) (hj : j ≠ i) :
    effects j os = [] := by
  rw [effects, filterMap_eq_nil_iff]
  intro o ho
  have hp := h o ho
  cases o <;> simp only [Obs.isPrivate, decide_eq_true_eq,
    Bool.false_eq_true] at hp <;> subst hp <;>
    simp [Obs.effect, Obs.by?, Ne.symm hj]

section Kinds

variable {m : TREMutex} {b : TREBarrier} {q : TREQueue} {a : Addr} {k : TREId × TREId} {side : Side}
  {owner : Option TREId} {idx : ℕ} {d : UInt32} {p : Prim} (hr : Registered w j (loc j))
include hr

theorem registered_halted {n : ℕ} {exit : List Obs} (hx : exit = [] ∨ exit = [.exitSimLoop i])
    (hℓ : loc i = .awake) : Registered { w with numIdleTREs := n, log := w.log ++ halted i :: exit }
      j (update loc i .halted j) := by
  have hv : Registered (w.emit (.halted i)) j (update loc i .halted j) := by
    refine hr.step (fun _ hr => ((hℓ ▸ hr).free rfl).halt) fun hj => .emit (fun _ => rfl) ?_
    simpa using Ne.symm hj
  -- the optional `exitSimLoop` concerns no engine
  refine hv.unmoved ⟨fun _ => rfl, fun _ => rfl, fun _ _ => .rfl, ?_, ?_, .rfl⟩
  · rcases hx with rfl | rfl <;> simp [sleeping, sleeps]
  · rcases hx with rfl | rfl <;> simp

theorem registered_finished {s : TRE} (hu : Unmoved w w' j) (ho : ∀ b, Obs.sleeps j b o = b)
    (hne : o ≠ .halted j) (hℓ : loc i = .holding p) :
    Registered ((w'.emit o).set i s) j (update loc i .tick j) :=
  hr.update ((hu.trans (.emit ho hne)).trans (.set _ i s)) (fun _ => by rw [hℓ]; rfl) rfl

theorem registered_handoff (hm : w.mutexMap a = some m) (hidx : m.waiting[idx]? = some t) :
    Registered (w.setMutex a ⟨owner, m.waiting.eraseIdx idx⟩) j (update loc t .tick j) := by
  rw [← waitingOn_eq hm] at hidx
  refine hr.step (fun _ hr => ?_) fun hjt => .setMutex ?_
  · rw [hr.of_mem_waitingOn (mem_of_getElem? hidx)] at hr
    exact hr.handoff hidx (by rw [waitingOn_eq hm])
  · rw [count_eraseIdx hidx, if_neg (Ne.symm hjt), waitingOn_eq hm, Nat.add_zero]

theorem registered_released (hb : w.barrierMap a = some b) (hℓ : (loc i).detached = true) :
    Registered (w.setBarrier a { b with arrived := [] }) j
      (if j ∈ b.arrived ++ [i] then .tick else loc j) := by
  by_cases hmem : j ∈ b.arrived
  · rw [if_pos (mem_append_left _ hmem)]
    rw [hr.of_mem_arrivedAt (a := a) (by rwa [arrivedAt_eq hb])] at hr
    exact hr.release rfl
  · have hu := hr.unmoved (.setBarrier (a := a) (b := { b with arrived := [] }) (by
      simp [arrivedAt_eq hb, count_eq_zero.mpr hmem]))
    by_cases hj : j = i
    · subst hj
      rw [if_pos (by simp)]
      exact (hu.free hℓ).registered rfl
    · rw [if_neg (by simp [hmem, hj])]
      exact hu

theorem registered_woke (hc : Calm j (w.log ++ [.woke i d t])) :
    Registered (w.emit (.woke i d t)) j (update loc t .tick j) := by
  refine hr.step (fun hjt hr => ?_) fun hjt => .emit (fun b => ?_) (by simp)
  · subst hjt
    rw [hr.asleep.mp (Calm.last hc)] at hr
    exact hr.woke
  · simp [sleeps, Ne.symm hjt]

theorem registered_served (hq : w.queues k = some q) :
    Registered ((wakeSlot w (q.slot side.other) p).setQueue k (q.serve side)) j
      (wakeLoc loc (q.slot side.other) p j) := by
  have hw (side') : (wakeSlot w (q.slot side.other) p).waiter side' k = q.slot side' := by
    rw [wakeSlot_waiter, waiter_eq hq]
  have hr' := hr.unmoved (.wakeSlot w (q.slot side.other) p)
  rw [wakeLoc_apply]
  split_ifs with hj
  · obtain ⟨other, hℓ, rfl⟩ := (hr'.slot _ k).mp ((hw _).trans hj)
    rw [hℓ] at hr'
    exact hr'.requeue (by simp [serve_slot]) (by simp [serve_slot, hw, side.other_ne.symm])
  · refine hr'.unmoved (.setQueue fun side' => ?_)
    by_cases hs : side = side'
    · rw [← hs, serve_slot, update_of_ne side.other_ne.symm, hw]
    · rw [Side.eq_other hs, serve_slot, update_self, hw]
      exact iff_of_false nofun hj

end Kinds

theorem Move.registered (h : Move w loc w' loc') (hp : Placed (w.tre j) (loc j))
    (hr : Registered w j (loc j)) (hc : Calm j w'.log) : Registered w' j (loc' j) := by
  cases h with
  | @engine i e ℓ s os h hos he =>
    have hu : Unmoved w ({ w with log := w.log ++ os }.set i s) j :=
      (Unmoved.log_append hos).trans (.set _ i s)
    refine hr.step (fun hj hr => ?_) fun _ => hu
    subst hj
    rcases h.detached hp with ⟨hℓ, hℓ'⟩ | rfl
    · exact ((hr.unmoved hu).free hℓ).registered hℓ'
    · exact hr.unmoved hu
  | fireTick i ht =>
    refine hr.update ((Unmoved.emit (fun _ => rfl) (by simp)).trans (.set _ i _)) (fun hj => ?_) rfl
    subst hj
    rw [hp.tick.mp ht]
    rfl
  | halt i n exit hx hℓ hb hr' => exact (registered_halted hr hx hℓ).unmoved (.set _ i _)
  | initMutex i hℓ ha hm ht =>
    exact registered_finished hr (.setMutex (by simp [waitingOn, hm])) (fun _ => rfl) (by simp) hℓ
  | lockGrant i hℓ hm ho ht =>
    exact registered_finished hr (.setMutex (by rw [waitingOn_eq hm])) (fun _ => rfl) (by simp) hℓ
  | lockQueue i hℓ hm ho hne =>
    refine unmoved ?_ ((Unmoved.emit (fun _ => rfl) (by simp)).trans (.set _ i _))
    refine hr.step (fun _ hr => ((hℓ ▸ hr).free rfl).queueUp (by rw [waitingOn_eq hm]))
      fun hj => .setMutex ?_
    simp [waitingOn_eq hm, Ne.symm hj]
  | unlockFree i hℓ hm ho hw ht =>
    exact registered_finished hr (.setMutex (by rw [waitingOn_eq hm, hw])) (fun _ => rfl)
      (by simp) hℓ
  | @unlockHandoff i m t idx hℓ hm ho hidx hne ht htt =>
    exact (registered_handoff hr hm hidx).update
      (((Unmoved.emit (fun _ => rfl) (by simp)).trans (.set _ t _)).trans (.set _ i _))
      (fun _ => by rw [update_of_ne hne, hℓ]; rfl) rfl
  | initBarrier i hℓ hn hb ht =>
    exact registered_finished hr (.setBarrier (by simp [arrivedAt, hb])) (fun _ => rfl) (by simp) hℓ
  | arrive i hℓ hb hn =>
    refine unmoved ?_ ((Unmoved.emit (fun _ => rfl) (by simp)).trans (.set _ i _))
    refine hr.step (fun _ hr => ((hℓ ▸ hr).free rfl).arrive (by rw [arrivedAt_eq hb]))
      fun hj => .setBarrier ?_
    simp [arrivedAt_eq hb, Ne.symm hj]
  | @releaseBatch i b hℓ hb hn hi ht =>
    have hstart : Unmoved w ((w.emit (.arrived i (w.tre i).paddr)).emit
        (.released (w.tre i).paddr (b.arrived ++ [i]))) j :=
      (Unmoved.emit (fun _ => rfl) (by simp)).trans (.emit (fun _ => rfl) (by simp))
    have hv := registered_released (i := i) (a := (w.tre i).paddr) (hr.unmoved hstart) hb
      (by rw [hℓ]; rfl)
    exact hv.unmoved ⟨fun _ => rfl, fun _ => rfl, fun _ _ => .rfl, rfl, .rfl, .rfl⟩
  | sleep i hℓ =>
    refine hr.step (fun _ hr => ((hℓ ▸ hr).free rfl).sleep) fun hj => .emit (fun b => ?_) (by simp)
    simp [sleeps, Ne.symm hj]
  | @wake i t hℓ hd hx hne ht htt =>
    exact (registered_woke hr hc).update ((Unmoved.set _ t _).trans (.set _ i _))
      (fun _ => by rw [update_of_ne hne, hℓ]; rfl) rfl
  | @queueWait i side q hℓ hq hz =>
    refine unmoved ?_ (.emit (fun _ => by cases side <;> rfl) (by cases side <;> simp [queued]))
    refine hr.step (fun _ hr => ((hℓ ▸ hr).free rfl).wait (by simp [park_slot])
      (by simp [park_slot, side.other_ne, waiter_eq hq])) fun hj => .setQueue fun side' => ?_
    by_cases hs : side = side'
    · rw [← hs, park_slot, update_self, hr.slot]
      cases side <;> simp [queueKey, Ne.symm hj]
    · rw [park_slot, update_of_ne (Ne.symm hs), waiter_eq hq]
  | @queueDone i side q hℓ hq hz hs ht =>
    refine (registered_served hr hq).update ((Unmoved.emit (fun _ => by cases side <;> rfl)
      (by cases side <;> simp [served])).trans (.set _ i _)) (fun hj => ?_) rfl
    subst hj
    rw [wakeLoc_apply, hℓ]
    split_ifs <;> rfl

theorem tracks_released {b : TREBarrier} (hr : Registered w j (loc j))
    (hℓ : loc i = .holding .waitAtBarrier) (hb : w.barrierMap (w.tre i).paddr = some b)
    (ht : ∀ k ∈ b.arrived ++ [i], (w.tre k).scheduled .tick = false)
    (htre : w'.tre = update (w.setAll (b.arrived ++ [i])).tre i (clearPaddr (w.tre i).ticking))
    (hlog : w'.log = (w.log ++ [.arrived i (w.tre i).paddr]) ++
      [.released (w.tre i).paddr (b.arrived ++ [i])]) :
    Tracks w loc w' (fun j => if j ∈ b.arrived ++ [i] then .tick else loc j) j := by
  have heff : effects j w'.log =
      effects j w.log ++ (effect j (.arrived i (w.tre i).paddr)).toList := by
    rw [hlog, effects_append, effects_append, effects_singleton, effects_singleton]
    exact append_nil _
  by_cases hj : j = i
  · subst hj
    rw [effect_self rfl] at heff
    have hm :=
      EngineMove.finish (s := w.tre j) .waitAtBarrier (ht j (by simp)) clearPaddr (.inl rfl)
    exact .inr ⟨_, by simpa [htre, hℓ, TRE.primEffect, TRE.operands] using hm, heff⟩
  · rw [effect_of_ne rfl hj] at heff
    by_cases hmem : j ∈ b.arrived
    · have hℓj := hr.of_mem_arrivedAt (a := (w.tre i).paddr) (by rw [arrivedAt_eq hb]; exact hmem)
      have hm := EngineMove.resume (.inr (.inl ⟨_, hℓj⟩)) (ht j (mem_append_left _ hmem))
      exact .inr ⟨none, by simpa [htre, setAll, hj, hmem] using hm, heff⟩
    · exact .inl ⟨by simp [htre, setAll, hj, hmem], by simp [hj, hmem], heff.trans (append_nil _)⟩

theorem Move.tracks (h : Move w loc w' loc') (hr : Registered w j (loc j)) (hc : Calm j w'.log) :
    Tracks w loc w' loc' j := by
  cases h with
  | @engine i e ℓ s os h hos he =>
    by_cases hj : j = i
    · subst hj
      exact .inr ⟨e, by simpa using EngineMove.own h, by simp [he]⟩
    · exact .inl ⟨by simp [hj], by simp [hj], by simp [effects_append_private hos hj]⟩
  | fireTick i ht => exact .silent (.fireTick ht) rfl rfl rfl
  | halt i n exit hx hℓ hb hr' =>
    have hlog : effects j (w.log ++ Obs.halted i :: exit) = effects j w.log := by
      rcases hx with rfl | rfl <;> simp [effects, Obs.effect, Obs.by?]
    by_cases hj : j = i
    · subst hj
      refine .inr ⟨none, ?_, by simpa using hlog⟩
      rw [hℓ]
      simpa using EngineMove.halt hb hr'
    · exact .inl ⟨by simp [hj], by simp [hj], hlog⟩
  | initMutex i hℓ ha hm ht =>
    exact .mover (hℓ ▸ .finish .initMutex ht clearPaddr (.inl rfl)) rfl rfl rfl rfl
  | lockGrant i hℓ hm ho ht =>
    exact .mover (hℓ ▸ .finish .lockMutex ht clearPaddr (.inl rfl)) rfl rfl rfl rfl
  | lockQueue i hℓ hm ho hne => exact .mover (hℓ ▸ .queueUp _) rfl rfl rfl rfl
  | unlockFree i hℓ hm ho hw ht =>
    exact .mover (hℓ ▸ .finish .unlockMutex ht clearPaddr (.inl rfl)) rfl rfl rfl rfl
  | @unlockHandoff i m t idx hℓ hm ho hidx hne ht htt =>
    refine .pair hne (hℓ ▸ .finish .unlockMutex ht clearPaddr (.inl rfl)) rfl (fun hj => ?_) rfl rfl
    subst hj
    exact .resume (.inl ⟨_, hr.of_mem_waitingOn (a := (w.tre i).paddr)
      (by rw [waitingOn_eq hm]; exact mem_of_getElem? hidx)⟩) htt
  | initBarrier i hℓ hn hb ht =>
    exact .mover (hℓ ▸ .finish .initBarrier ht _ (.inr (.inr rfl))) rfl rfl rfl rfl
  | arrive i hℓ hb hn => exact .mover (hℓ ▸ .arrive _) rfl rfl rfl rfl
  | @releaseBatch i b hℓ hb hn hi ht =>
    exact tracks_released hr hℓ hb ht rfl rfl
  | sleep i hℓ =>
    have hm : EngineMove (loc i) (w.tre i) _ _ (w.tre i) := hℓ ▸ EngineMove.sleep
    exact .mover hm rfl (by simp) rfl rfl
  | @wake i t hℓ hd hx hne ht htt =>
    refine .pair hne (hℓ ▸ .finish .wake ht clearData (.inr (.inl rfl))) rfl (fun hj => ?_) rfl rfl
    subst hj
    exact .resume (.inr (.inr (hr.asleep.mp (Calm.last hc)))) htt
  | queueWait i side hℓ hq hz =>
    have hm : EngineMove (loc i) (w.tre i) none (.queue side (w.tre i).data) (w.tre i) :=
      hℓ ▸ .queueWait side
    exact .silent hm (by cases side <;> rfl) (by simp) rfl
  | @queueDone i side q hℓ hq hz hs ht =>
    have hm := EngineMove.finish (queuePrim side) ht clearData (.inr (.inl rfl))
    rw [← hℓ] at hm
    have ho (woken) : (Obs.served i (w.tre i).data woken side).by? =
        some (i, (w.tre i).primEffect (queuePrim side)) := by cases side <;> rfl
    by_cases hslot : q.slot side.other = some j
    · obtain ⟨other, hℓj, -⟩ := (hr.slot _ _).mp ((waiter_eq hq _).trans hslot)
      have hj : j ≠ i := by
        rintro rfl
        cases hℓ.symm.trans hℓj
      refine .inr ⟨none, ?_, by simp [effect_of_ne (ho _) hj]⟩
      simpa [hj, wakeSlot_tre, wakeLoc_apply, hslot, hℓj] using EngineMove.requeue (hs j hslot)
    · refine .mover hm (ho (q.slot side.other)) ?_ (by simp)
        (by simp [update_apply, wakeLoc_apply, hslot])
      by_cases hj : j = i
      · subst hj
        simp [wakeSlot_tre, hslot]
      · simp [hj, wakeSlot_tre, hslot]

end HetSim.Replay
