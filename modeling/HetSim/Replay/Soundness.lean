import HetSim.Replay.Tracking
import HetSim.Replay.ProgramOrder

/-!
# Every run keeps the invariants

`Sound` collects what holds of one calm engine, and `Reachable.sound` carries it over every run.
An invariant of the shared objects is added by `Reachable.with_sane`, move by move.
-/

namespace HetSim.Replay
open World

variable {cfg : Config} {w w' : World} {loc loc' : TREId → Loc} {i j : TREId}

def started (p : Params) (trace : List String) : TRE :=
  ((blankTRE p.id p.maxNumOutstandingAddrs trace).setFlag .tick true).setFlag .noRequest true

structure Fresh (engines : List Params) (w : World) : Prop where
  engine : ∀ j, (j ∉ w.allTREs ∧ w.tre j = blankTRE j 0 []) ∨
    (j ∈ w.allTREs ∧ ∃ p ∈ engines, ∃ trace, p.id = j ∧ p.trace = some trace ∧
      w.tre j = started p trace)
  mutex : ∀ a, w.mutexMap a = none
  barrier : ∀ a, w.barrierMap a = none
  queue : ∀ k q, w.queues k = some q →
    q.q = [] ∧ q.waitingToPush = none ∧ q.waitingToPop = none ∧ 1 ≤ q.size
  log : w.log = []

theorem construct_fresh {engines : List Params} {conns : List (TREId × TREId)} {p : Params}
    (h : Fresh engines w) (hp : p ∈ engines) : Fresh engines (construct conns w p) := by
  unfold construct
  split
  · exact h
  · next trace htr =>
    refine ⟨fun j => ?_, ?_, ?_, ?_, ?_⟩
    · by_cases hj : j = p.id
      · subst hj
        refine .inr ⟨?_, p, hp, trace, rfl, htr, ?_⟩
        · simp only
          split_ifs <;> simp [initQueues]
        · simp only
          split_ifs <;> simp [initQueues, started]
      · have hold := h.engine j
        simp only
        split_ifs <;> simpa [initQueues, hj] using hold
    · simp only
      split_ifs <;> simpa [initQueues] using h.mutex
    · simp only
      split_ifs <;> simpa [initQueues] using h.barrier
    · simp only
      split_ifs with hfirst
      · intro k q hq
        simp only [initQueues, set_queues] at hq
        split_ifs at hq
        · cases hq
          exact ⟨rfl, rfl, rfl, Nat.one_le_iff_ne_zero.mpr hfirst.2⟩
        · exact h.queue k q hq
      · exact h.queue
    · simp only
      split_ifs <;> simpa [initQueues] using h.log

theorem boot_fresh (cfg : Config) : Fresh cfg.engines (boot cfg) := by
  have key : ∀ (l : List Params) (w : World), (∀ p ∈ l, p ∈ cfg.engines) → Fresh cfg.engines w →
      Fresh cfg.engines (l.foldl (construct cfg.connections) w) := by
    intro l
    induction l with
    | nil => exact fun w _ hw => hw
    | cons p l ih =>
      intro w hl hw
      exact ih _ (fun q hq => hl q (List.mem_cons_of_mem _ hq))
        (construct_fresh hw (hl p List.mem_cons_self))
  apply key _ _ (fun p hp => hp)
  exact ⟨fun j => .inl ⟨by simp [emptyWorld], rfl⟩, fun _ => rfl, fun _ => rfl, nofun, rfl⟩

def bootLoc (cfg : Config) (j : TREId) : Loc := if j ∈ (boot cfg).allTREs then .tick else .absent

structure Sound (cfg : Config) (w : World) (j : TREId) (ℓ : Loc) : Prop where
  placed : Placed (w.tre j) ℓ
  registered : Registered w j ℓ
  booked : Booked (w.tre j) ℓ
  parsed : Parsed (w.tre j) ℓ
  ordered : Ordered (effects j w.log) (w.tre j) ℓ
  deps : (w.tre j).blocked = false → (w.tre j).blockedPkt.deps = ∅
  trace : (w.tre j).trace = ((boot cfg).tre j).trace
  limit : (w.tre j).maxNumOutstandingAddrs = ((boot cfg).tre j).maxNumOutstandingAddrs

def Sane (cfg : Config) (w : World) (loc : TREId → Loc) : Prop :=
  ∀ j, Calm j w.log → Sound cfg w j (loc j)

structure Untouched (s : TRE) (ℓ : Loc) : Prop where
  loc : ℓ = .tick ∨ ℓ = .absent
  tick : s.scheduled .tick = true ↔ ℓ = .tick
  prim : ∀ p, s.scheduled (.prim p) = false
  noResponse : s.scheduled .noResponse = false
  retry : s.retryPkt = none
  addrs : s.outstandingAddrs = []
  inFlight : s.inFlight = []
  blocked : s.blocked = false
  deps : s.blockedPkt.deps = ∅
  start : s.traceFh = s.trace

namespace Untouched

variable {s : TRE} {ℓ : Loc}

theorem placed (h : Untouched s ℓ) : Placed s ℓ := by
  obtain ⟨hℓ, ht, hp, -, hr, -, -, hb, -, -⟩ := h
  refine ⟨ht, fun p => ?_, ?_, ?_, ?_⟩
  all_goals rcases hℓ with rfl | rfl <;> simp [hp, hr, hb]

theorem booked (h : Untouched s ℓ) : Booked s ℓ := by
  obtain ⟨hℓ, -, -, hn, hr, ha, hi, hb, -, -⟩ := h
  refine ⟨by simp [TRE.outstanding, ha, hi, hr], by simp [hn, ha], by simp [ha], ?_,
    by simp [hb], ?_⟩
  all_goals rcases hℓ with rfl | rfl <;> simp

theorem not_pending (h : Untouched s ℓ) : s.pending ℓ = false ∧ ℓ ≠ .halted := by
  have hb := h.blocked
  rcases h.loc with rfl | rfl
  · exact ⟨hb, by simp⟩
  · exact ⟨rfl, by simp⟩

theorem parsed (h : Untouched s ℓ) : Parsed s ℓ := by
  obtain ⟨hp, hℓ⟩ := h.not_pending
  refine ⟨fun hc => absurd (hc.symm.trans hp) nofun, ?_⟩
  rw [TRE.todo_of_not_pending hp hℓ, h.start]

theorem ordered (h : Untouched s ℓ) : Ordered [] s ℓ := by
  obtain ⟨hp, hℓ⟩ := h.not_pending
  have ho : s.outstanding = [] := by simp [TRE.outstanding, h.inFlight, h.retry]
  refine ⟨⟨[], ?_, .nil⟩, fun _ => ⟨⟨?_, ?_, ?_, ?_, ?_⟩, (by simp)⟩⟩
  · rw [TRE.todo_of_not_pending hp hℓ, h.start]
    rfl
  all_goals simp [OnlyLast, h.addrs, ho]

end Untouched

theorem boot_untouched (cfg : Config) (j : TREId) :
    Untouched ((boot cfg).tre j) (bootLoc cfg j) := by
  rcases (boot_fresh cfg).engine j with ⟨hj, hs⟩ | ⟨hj, p, -, trace, rfl, -, hs⟩
  · rw [hs, bootLoc, if_neg hj]
    exact ⟨.inr rfl, by simp [blankTRE], fun _ => rfl, rfl, rfl, rfl, rfl, rfl, rfl, rfl⟩
  · rw [hs, bootLoc, if_pos hj]
    exact ⟨.inl rfl, by simp [started], by simp [started, blankTRE],
      by simp [started, blankTRE], rfl, rfl, rfl, rfl, rfl, rfl⟩

theorem boot_registered (cfg : Config) (j : TREId) : Registered (boot cfg) j (bootLoc cfg j) := by
  obtain ⟨-, hm, hb, hq, hl⟩ := boot_fresh cfg
  have hslot : ∀ side k, (boot cfg).waiter side k = none := by
    intro side k
    cases h : (boot cfg).queues k with
    | none => simp [waiter, h]
    | some q =>
      rw [waiter_eq h]
      cases side with
      | push => exact (hq k q h).2.1
      | pop => exact (hq k q h).2.2.1
  by_cases hj : j ∈ (boot cfg).allTREs
  · rw [bootLoc, if_pos hj]
    refine Free.registered ⟨?_, ?_, ?_, ?_, ?_, hj⟩ rfl
    · simp [waitingOn, hm]
    · simp [arrivedAt, hb]
    · simp [hslot]
    · rw [hl]
      rfl
    · simp [hl]
  · rw [bootLoc, if_neg hj]
    refine ⟨?_, ?_, ?_, ?_, ?_, by simp [hj]⟩
    · simp [waitingOn, hm]
    · simp [arrivedAt, hb]
    · simp [hslot]
    · simp [hl, sleeping]
    · simp [hl]

theorem boot_sane (cfg : Config) : Sane cfg (boot cfg) (bootLoc cfg) := by
  intro j _
  have hu := boot_untouched cfg j
  refine ⟨hu.placed, boot_registered cfg j, hu.booked, hu.parsed, ?_, fun _ => hu.deps, rfl, rfl⟩
  rw [(boot_fresh cfg).log]
  exact hu.ordered

theorem Move.log_append (h : Move w loc w' loc') : ∃ os, w'.log = w.log ++ os := by
  cases h with
  | engine i os h hos he => exact ⟨os, rfl⟩
  | releaseBatch i hℓ hb hn hi ht => exact ⟨_, List.append_assoc _ _ _⟩
  | queueDone i side hℓ hq hz hs ht =>
    rw [set_log, emit_log, setQueue_log, wakeSlot_log]
    exact ⟨_, rfl⟩
  | _ => exact ⟨_, rfl⟩

variable {s s' : TRE} {ℓ ℓ' : Loc} {e : Option Effect} {P : World → (TREId → Loc) → Prop}

theorem EngineMove.limit_eq
    (h : EngineMove ℓ s e ℓ' s') : s'.maxNumOutstandingAddrs = s.maxNumOutstandingAddrs := by
  cases h with
  | own h => cases h <;> rfl
  | finish p hs clear hclear => rcases hclear with rfl | rfl | rfl <;> rfl
  | _ => rfl

theorem EngineMove.deps_empty
    (h : EngineMove ℓ s e ℓ' s') (hd : s.blocked = false → s.blockedPkt.deps = ∅) :
    s'.blocked = false → s'.blockedPkt.deps = ∅ := by
  cases h with
  | own h =>
    cases h with
    | parkAccess | parkStall => nofun
    | unblock => exact fun _ => rfl
    | _ => exact hd
  | finish p hs clear hclear => rcases hclear with rfl | rfl | rfl <;> exact hd
  | _ => exact hd

theorem Move.sane (h : Move w loc w' loc') (hs : Sane cfg w loc) : Sane cfg w' loc' := by
  intro j hc
  obtain ⟨os, hos⟩ := h.log_append
  have hj := hs j (by rw [hos] at hc; exact hc.of_append)
  have hr := h.registered hj.placed hj.registered hc
  rcases h.tracks hj.registered hc with ⟨ht, hℓ, he⟩ | ⟨e, hm, he⟩
  · refine ⟨?_, hr, ?_, ?_, ?_, ?_, ?_, ?_⟩
    · rw [ht, hℓ]
      exact hj.placed
    · rw [ht, hℓ]
      exact hj.booked
    · rw [ht, hℓ]
      exact hj.parsed
    · rw [ht, hℓ, he]
      exact hj.ordered
    · rw [ht]
      exact hj.deps
    · rw [ht]
      exact hj.trace
    · rw [ht]
      exact hj.limit
  · refine ⟨hm.placed hj.placed, hr, hm.booked hj.placed hj.booked,
      hm.parsed hj.placed hj.parsed, ?_, hm.deps_empty hj.deps, hm.trace_eq.trans hj.trace,
      hm.limit_eq.trans hj.limit⟩
    rw [he]
    exact hm.ordered hj.placed hj.booked hj.parsed hj.ordered

theorem Moves.invariant {p q : World × (TREId → Loc)}
    (keep : ∀ w loc w' loc', P w loc → Move w loc w' loc' → P w' loc') (h : Moves p q)
    (hp : P p.1 p.2) : P q.1 q.2 := by
  induction h with
  | refl => exact hp
  | tail _ hm ih => exact keep _ _ _ _ ih hm

def Settled (loc : TREId → Loc) : Prop := ∀ j, (loc j).transient = false

theorem bootLoc_settled (cfg : Config) : Settled (bootLoc cfg) := by
  intro j
  unfold bootLoc
  split_ifs <;> rfl

theorem Reachable.with_sane (start : P (boot cfg) (bootLoc cfg))
    (keep : ∀ w loc w' loc', Sane cfg w loc → P w loc → Move w loc w' loc' → P w' loc') :
    ∀ w, Reachable cfg w → ∃ loc, Settled loc ∧ Sane cfg w loc ∧ P w loc := by
  apply Runs.Reachable.invariant
  · exact ⟨bootLoc cfg, bootLoc_settled cfg, boot_sane cfg, start⟩
  · rintro w x w' - ⟨loc, hset, hsane, hP⟩ hstep
    obtain ⟨loc', hmoves, ht⟩ : Stepped w loc w' := step_moves hstep
    have hall : Sane cfg w' loc' ∧ P w' loc' := by
      apply Moves.invariant (P := fun w loc => Sane cfg w loc ∧ P w loc) ?_ hmoves ⟨hsane, hP⟩
      exact fun w loc w' loc' h hm => ⟨hm.sane h.1, keep w loc w' loc' h.1 h.2 hm⟩
    refine ⟨loc', fun j => ?_, hall.1, hall.2⟩
    by_contra hc
    rw [Bool.not_eq_false] at hc
    exact absurd (ht j hc) (by simp [hset j])

end HetSim.Replay
