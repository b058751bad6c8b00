import HetSim.Replay.Moves

/-!
# Decomposition of the handlers into moves

For each handler, what a fault-free call does. Nothing is assumed about the world.
-/

namespace HetSim.Replay
open Checked List Function World Loc TRE
open Channels (Side)

variable {w w' : World} {loc : TREId → Loc} {i : TREId} {env : Env}

theorem Handled.done {loc' : TREId → Loc} (h : Move w loc w' loc')
    (hi : (loc' i).transient = false)
    (hj : ∀ j, j ≠ i → (loc' j).transient = true → (loc j).transient = true) :
    Handled i w loc w' := by
  refine ⟨loc', .single h, fun j hj' => ?_⟩
  have hne : j ≠ i := by
    rintro rfl
    rw [hi] at hj'
    cases hj'
  exact ⟨hne, hj j hne hj'⟩

theorem Handled.after {w₁ : World} {loc₁ : TREId → Loc} (h : Move w loc w₁ loc₁)
    (hj : ∀ j, j ≠ i → (loc₁ j).transient = true → (loc j).transient = true)
    (h' : Handled i w₁ loc₁ w') : Handled i w loc w' := by
  obtain ⟨loc', hm, ht⟩ := h'
  refine ⟨loc', .head h hm, fun j hj' => ?_⟩
  obtain ⟨hne, h1⟩ := ht j hj'
  exact ⟨hne, hj j hne h1⟩

variable {ℓ : Loc} {slot : Option TREId} {p : Prim}

theorem transient_update (j : TREId) (hne : j ≠ i)
    (h : (update loc i ℓ j).transient = true) : (loc j).transient = true := by
  rwa [update_of_ne hne] at h

/-- The handler ends with one move of its own engine. -/
theorem Handled.own (h : Move w loc w' (update loc i ℓ)) (hℓ : ℓ.transient = false) :
    Handled i w loc w' :=
  .done h (by rwa [update_self]) fun j => transient_update j

theorem transient_update₂ {t : TREId} {ℓ' : Loc} (j : TREId) (hne : j ≠ i)
    (hℓ' : ℓ'.transient = false)
    (h : (update (update loc t ℓ') i ℓ j).transient = true) :
    (loc j).transient = true := by
  rw [update_of_ne hne] at h
  by_cases hjt : j = t
  · subst hjt
    simp [hℓ'] at h
  · rwa [update_of_ne hjt] at h

theorem proceed_eq_ok {clear : TRE → TRE} :
    proceed w i clear = .ok w' ↔
      (w.tre i).scheduled .tick = false ∧ w' = w.set i (clear (w.tre i).ticking) := by
  simp only [proceed, bind_eq_ok, schedule_eq_ok, pure_eq_ok]
  constructor
  · rintro ⟨v, ⟨ht, rfl⟩, rfl⟩
    exact ⟨ht, by simp [ticking]⟩
  · rintro ⟨ht, rfl⟩
    exact ⟨_, ⟨ht, rfl⟩, by simp [ticking]⟩

theorem rewind_eq_ok :
    rewind w i = .ok w' ↔
      (w.tre i).scheduled .tick = false ∧ w' = w.set i (w.tre i).rewound.ticking := by
  simp [rewind, rewound, ticking]

theorem rewind_moves {o : Obs} (h : rewind (w.emit o) i = .ok w') (ho : ∀ x ∈ [o], x.isPrivate i)
    (he : effects i [o] = []) (hℓ : loc i = .holding p)
    (hp : p = .lockMutex ∨ p = .waitAtBarrier) : Handled i w loc w' := by
  rw [rewind_eq_ok] at h
  obtain ⟨ht, rfl⟩ := h
  have hm : OwnMove (loc i) (w.tre i) none .tick (w.tre i).rewound.ticking := hℓ ▸ .rewind hp ht
  exact .own (.engine i [o] hm ho he) rfl

theorem initMutex_moves (h : initMutex w i = .ok w') (hℓ : loc i = .holding .initMutex) :
    Handled i w loc w' := by
  simp only [initMutex, bind_eq_ok, require_eq_ok, proceed_eq_ok] at h
  obtain ⟨-, ha, -, hm, ht, rfl⟩ := h
  exact .own (.initMutex i hℓ ha hm ht) rfl

theorem lockMutex_moves (h : lockMutex w i = .ok w') (hℓ : loc i = .holding .lockMutex) :
    Handled i w loc w' := by
  simp only [lockMutex, bind_eq_ok, require_eq_ok] at h
  obtain ⟨-, ha, h⟩ := h
  split at h
  · exact rewind_moves h (by simp [Obs.isPrivate]) rfl hℓ (.inl rfl)
  · next m hm =>
    split at h
    · next ho =>
      rw [proceed_eq_ok] at h
      obtain ⟨ht, rfl⟩ := h
      exact .own (.lockGrant i hℓ hm ho ht) rfl
    · next o ho =>
      simp only [bind_eq_ok, require_eq_ok, pure_eq_ok] at h
      obtain ⟨-, hne, rfl⟩ := h
      exact .own (.lockQueue i hℓ hm ho hne) rfl

theorem unlockMutex_moves (h : unlockMutex w i env = .ok w')
    (hℓ : loc i = .holding .unlockMutex) : Handled i w loc w' := by
  simp only [unlockMutex, bind_eq_ok, require_eq_ok, demand_eq_ok] at h
  obtain ⟨-, ha, m, hm, -, ho, h⟩ := h
  split at h
  · next hw =>
    rw [proceed_eq_ok] at h
    obtain ⟨ht, rfl⟩ := h
    have hnil : m.waiting = [] := by
      by_contra hne
      have hpos : 0 < m.waiting.length := length_pos_of_ne_nil hne
      rw [List.getElem?_eq_none_iff] at hw
      exact absurd (Nat.mod_lt env.rand hpos) (not_lt.mpr hw)
    exact .own (.unlockFree i hℓ hm ho hnil ht) rfl
  · next t hw =>
    simp only [bind_eq_ok, schedule_eq_ok, proceed_eq_ok] at h
    obtain ⟨v, ⟨htt, rfl⟩, ht, rfl⟩ := h
    have hne : i ≠ t := by
      rintro rfl
      simp at ht
    simp only [emit_tre, setMutex_tre, set_tre, ne_eq, hne, not_false_eq_true,
      update_of_ne] at ht
    have hmove := Move.unlockHandoff i _ hℓ hm ho hw hne ht htt
    refine .done (by simpa [hne, ticking] using hmove) (by simp [transient]) ?_
    exact fun j hj => transient_update₂ j hj rfl

theorem initBarrier_moves (h : initBarrier w i = .ok w') (hℓ : loc i = .holding .initBarrier) :
    Handled i w loc w' := by
  simp only [initBarrier, bind_eq_ok, require_eq_ok, proceed_eq_ok] at h
  obtain ⟨-, -, -, hn, -, hb, ht, rfl⟩ := h
  exact .own (.initBarrier i hℓ hn hb ht) rfl

/-- Releasing a batch succeeds only when it names no engine twice and none of
its engines is scheduled to tick. -/
theorem releaseAll_eq_ok {batch : List TREId} :
    releaseAll w batch = .ok w' ↔
      batch.Nodup ∧ (∀ j ∈ batch, (w.tre j).scheduled .tick = false) ∧ w' = w.setAll batch := by
  induction batch generalizing w with
  | nil =>
    have hnil : w.setAll [] = w := by simp [setAll]
    rw [hnil]
    constructor
    · intro h
      cases h
      simp
    · rintro ⟨-, -, rfl⟩
      rfl
  | cons t batch ih =>
    have hcons :
        releaseAll w (t :: batch) = w.schedule t .tick >>= fun v => releaseAll v batch := rfl
    have hset (htb : t ∉ batch) : (w.set t ((w.tre t).setFlag .tick true)).setAll batch =
        w.setAll (t :: batch) := by
      simp only [World.setAll, World.set, World.mk.injEq, and_self, and_true]
      funext j
      by_cases hjt : j = t
      · subst hjt
        simp [htb, ticking]
      · simp [hjt]
    rw [hcons]
    simp only [bind_eq_ok, schedule_eq_ok, ih]
    constructor
    · rintro ⟨v, ⟨ht, rfl⟩, hnd, hall, rfl⟩
      have htb : t ∉ batch := by
        intro hmem
        have := hall t hmem
        simp at this
      refine ⟨nodup_cons.mpr ⟨htb, hnd⟩, ?_, ?_⟩
      · intro j hj
        rcases mem_cons.mp hj with rfl | hj
        · exact ht
        · have hjt : j ≠ t := fun e => htb (e ▸ hj)
          simpa [hjt] using hall j hj
      · exact hset htb
    · rintro ⟨hnd, hall, rfl⟩
      rw [nodup_cons] at hnd
      obtain ⟨htb, hnd⟩ := hnd
      refine ⟨_, ⟨hall t mem_cons_self, rfl⟩, hnd, ?_, ?_⟩
      · intro j hj
        have hjt : j ≠ t := fun e => htb (e ▸ hj)
        simpa [hjt] using hall j (mem_cons_of_mem _ hj)
      · exact (hset htb).symm

theorem waitAtBarrier_moves (h : waitAtBarrier w i = .ok w')
    (hℓ : loc i = .holding .waitAtBarrier) : Handled i w loc w' := by
  simp only [waitAtBarrier, bind_eq_ok, require_eq_ok] at h
  obtain ⟨-, -, h⟩ := h
  split at h
  · exact rewind_moves h (by simp [Obs.isPrivate]) rfl hℓ (.inr rfl)
  · next b hb =>
    split_ifs at h with hn
    · simp only [bind_eq_ok, releaseAll_eq_ok, pure_eq_ok] at h
      obtain ⟨v, ⟨hnd, ht, rfl⟩, rfl⟩ := h
      have hi : i ∉ b.arrived := by
        intro hmem
        have := nodup_append.mp hnd
        exact this.2.2 i hmem i mem_cons_self rfl
      have hmove := Move.releaseBatch i hℓ hb (by simpa using hn) hi (by simpa using ht)
      refine @Handled.done w _ loc i (fun j => if j ∈ b.arrived ++ [i] then .tick
        else loc j) ?_ ?_ ?_
      · convert hmove using 1
        simp [World.setAll, World.set, World.emit, World.setBarrier]
      · simp [Loc.transient]
      · intro j hj htr
        split_ifs at htr with hmem
        · cases htr
        · exact htr
    · simp only [pure_eq_ok] at h
      subst h
      have hn' : b.arrived.length + 1 ≠ b.count.toNat := by simpa using hn
      exact .own (.arrive i hℓ hb hn') rfl

theorem sleep_moves (h : sleep w i = .ok w') (hℓ : loc i = .holding .sleep) :
    Handled i w loc w' := by
  cases h
  exact .own (.sleep i hℓ) rfl

theorem wake_moves (h : wake w i = .ok w') (hℓ : loc i = .holding .wake) : Handled i w loc w' := by
  simp only [wake, bind_eq_ok, require_eq_ok, demand_eq_ok, schedule_eq_ok,
    proceed_eq_ok] at h
  obtain ⟨-, hd, t, hx, -, -, v, ⟨htt, rfl⟩, ht, rfl⟩ := h
  have hne : i ≠ t := by
    rintro rfl
    simp at ht
  simp only [emit_tre, set_tre, ne_eq, hne, not_false_eq_true,
    update_of_ne] at ht
  have hmove := Move.wake i hℓ hd hx hne ht htt
  refine .done (by simpa [hne, ticking] using hmove) (by simp [transient]) ?_
  exact fun j hj => transient_update₂ j hj rfl

theorem release_eq_ok :
    release w slot p = .ok w' ↔
      (∀ t ∈ slot, (w.tre t).scheduled (.prim p) = false) ∧ w' = wakeSlot w slot p := by
  cases slot with
  | none => simp [release, wakeSlot, eq_comm (a := w)]
  | some t => simp [release, wakeSlot]

theorem wakeSlot_tick (slot : Option TREId) (p : Prim) (j : TREId) :
    ((wakeSlot w slot p).tre j).scheduled .tick = (w.tre j).scheduled .tick := by
  cases slot with
  | none => rfl
  | some t =>
    by_cases hjt : j = t
    · subst hjt
      simp [wakeSlot]
    · simp [wakeSlot, hjt]

theorem transient_wakeLoc (j : TREId) (hne : j ≠ i)
    (h : (update (wakeLoc loc slot p) i .tick j).transient = true) :
    (loc j).transient = true := by
  cases slot with
  | none => exact transient_update j hne h
  | some t => exact transient_update₂ j hne rfl h

theorem queue_moves (side : Side) (h : runPrim w i env (queuePrim side) = .ok w')
    (hℓ : loc i = .holding (queuePrim side)) : Handled i w loc w' := by
  cases side <;>
  · simp only [queuePrim, runPrim, push, pop, bind_eq_ok, demand_eq_ok] at h
    obtain ⟨q, hq, h⟩ := h
    split_ifs at h with hf
    · cases h
      exact .own (.queueWait i _ hℓ hq hf) rfl
    · simp only [bind_eq_ok, release_eq_ok, proceed_eq_ok] at h
      obtain ⟨v, ⟨hs, rfl⟩, ht, rfl⟩ := h
      rw [emit_tre, setQueue_tre, wakeSlot_tick] at ht
      exact .done (.queueDone i _ hℓ hq hf hs ht) (by simp [transient])
        (fun j => transient_wakeLoc j)

theorem stats_moves (h : stats w i p = .ok w') (hℓ : loc i = .holding p)
    (hp : p = .dumpStats ∨ p = .resetStats ∨ p = .dumpResetStats) : Handled i w loc w' := by
  simp only [stats, schedule_eq_ok] at h
  obtain ⟨ht, rfl⟩ := h
  have hne : p ≠ .sleep := by rcases hp with rfl | rfl | rfl <;> decide
  have hops : (w.tre i).operands p = (none, none) := by rcases hp with rfl | rfl | rfl <;> rfl
  have hm : OwnMove (loc i) (w.tre i) (some ((w.tre i).primEffect p)) .tick (w.tre i).ticking :=
    hℓ ▸ .stats p hne ht
  refine .own (.engine i [.stats i p] hm (by simp [Obs.isPrivate]) ?_) rfl
  simp [effects, Obs.effect, Obs.by?, primEffect, hops]

theorem runPrim_moves (h : runPrim w i env p = .ok w') (hℓ : loc i = .holding p) :
    Handled i w loc w' := by
  cases p with
  | initMutex => exact initMutex_moves h hℓ
  | lockMutex => exact lockMutex_moves h hℓ
  | unlockMutex => exact unlockMutex_moves h hℓ
  | initBarrier => exact initBarrier_moves h hℓ
  | waitAtBarrier => exact waitAtBarrier_moves h hℓ
  | sleep => exact sleep_moves h hℓ
  | wake => exact wake_moves h hℓ
  | push => exact queue_moves .push h hℓ
  | pop => exact queue_moves .pop h hℓ
  | dumpStats => exact stats_moves h hℓ (.inl rfl)
  | resetStats => exact stats_moves h hℓ (.inr (.inl rfl))
  | dumpResetStats => exact stats_moves h hℓ (.inr (.inr rfl))

theorem completeRequest_eq_ok {pkt : Packet} (h : completeRequest w i env pkt = .ok w') :
    (addrInFlight pkt.paddr true (w.tre i).outstandingAddrs).1 = true ∧
    ((addrInFlight pkt.paddr true (w.tre i).outstandingAddrs).2 ≠ [] →
      (w.tre i).scheduled .noResponse = true) ∧
    w' = (w.emit (.completed i pkt)).set i
      (if (w.tre i).scheduled .tick = false ∧ (w.tre i).blocked = true
        then ((w.tre i).received pkt).ticking else (w.tre i).received pkt) := by
  simp only [completeRequest, bind_eq_ok, require_eq_ok] at h
  obtain ⟨-, hf, -, -, -, -, v, hv, h⟩ := h
  refine ⟨hf, ?_⟩
  set l := (addrInFlight pkt.paddr true (w.tre i).outstandingAddrs).2 with hl
  -- the engine with its vector shortened and, when it was parked, a tick scheduled
  set s := if (w.tre i).scheduled .tick = false ∧ (w.tre i).blocked = true
    then { w.tre i with outstandingAddrs := l }.ticking
    else { w.tre i with outstandingAddrs := l } with hs
  have hv' : v = (w.emit (.completed i pkt)).set i s := by
    rw [scheduleIf_eq_ok] at hv
    rw [hs, hv.2]
    by_cases hc : (w.tre i).scheduled .tick = false ∧ (w.tre i).blocked = true
    · simp [hc, ticking]
    · simp [hc]
  have hsl : s.outstandingAddrs = l := by
    rw [hs]
    split_ifs <;> rfl
  have hsn : s.scheduled .noResponse = (w.tre i).scheduled .noResponse := by
    rw [hs]
    split_ifs <;> simp [ticking]
  have hrec : (if (w.tre i).scheduled .tick = false ∧ (w.tre i).blocked = true
      then ((w.tre i).received pkt).ticking else (w.tre i).received pkt) =
      s.setFlag .noResponse (l ≠ []) := by
    rw [hs]
    split_ifs
    · exact setFlag_comm _ (by decide) _ _
    · rfl
  rw [hrec]
  subst hv'
  simp only [set_tre, update_self, hsl] at h
  split_ifs at h with hne
  · simp only [reschedule_eq_ok, set_tre, update_self, hsn] at h
    refine ⟨fun _ => h.1, ?_⟩
    rw [h.2, setFlag_of_eq]
    rw [hsn, h.1]
    simp [hne]
  · simp only [pure_eq_ok, World.set_set] at h
    refine ⟨fun hc => absurd hc hne, ?_⟩
    rw [← h]
    simp [hne]

end HetSim.Replay
