import HetSim.Replay.TickMoves

/-!
# Where an engine is

`Placed s ℓ`: the flags of an engine agree with its location: at most one of its events, its
refused packet or its parked access can let it tick again. `Idle s`: none of its events and no
refused packet can. Every move of an engine keeps its placement.
-/

namespace HetSim.Replay

variable {s s' : TRE} {ℓ ℓ' : Loc} {e : Option Effect}

structure Idle (s : TRE) : Prop where
  tick : s.scheduled .tick = false
  prim : ∀ p, s.scheduled (.prim p) = false
  retry : s.retryPkt = none

structure Placed (s : TRE) (ℓ : Loc) : Prop where
  tick : s.scheduled .tick = true ↔ ℓ = .tick
  prim : ∀ p, s.scheduled (.prim p) = true ↔ ℓ = .prim p
  retry : s.retryPkt ≠ none ↔ ℓ = .retry
  blocked : s.blocked = true → ℓ = .tick ∨ ℓ = .blocked ∨ ℓ = .awake
  parked : ℓ = .blocked → s.blocked = true

def Loc.idle : Loc → Bool
  | .tick | .prim _ | .retry => false
  | _ => true

namespace Idle

theorem setFlag_other (h : Idle s) {ev : Event} {b : Bool} (ht : ev ≠ .tick)
    (hp : ∀ p, ev ≠ .prim p) : Idle (s.setFlag ev b) := by
  refine ⟨?_, fun p => ?_, h.retry⟩
  · rw [TRE.setFlag_scheduled, Function.update_of_ne ht.symm]
    exact h.tick
  · rw [TRE.setFlag_scheduled, Function.update_of_ne (hp p).symm]
    exact h.prim p

theorem noResponse (h : Idle s) (b : Bool) : Idle (s.setFlag .noResponse b) :=
  h.setFlag_other (by simp) (by simp)

theorem withAddrs (h : Idle s) (l : List (Addr × Bool)) : Idle { s with outstandingAddrs := l } :=
  ⟨h.tick, h.prim, h.retry⟩

theorem sent (h : Idle s) (r : Req) : Idle (s.sent r) := (h.withAddrs _).noResponse true

theorem received (h : Idle s) (pkt : Packet) : Idle (s.received pkt) := (h.withAddrs _).noResponse _

theorem placed (h : Idle s) (hℓ : ℓ.idle = true)
    (hb : s.blocked = true → ℓ = .blocked ∨ ℓ = .awake) (hp : ℓ = .blocked → s.blocked = true) :
    Placed s ℓ := by
  refine ⟨?_, fun p => ?_, ?_, fun hs => .inr (hb hs), hp⟩
  · rw [h.tick]
    constructor <;> rintro ⟨⟩
    cases hℓ
  · rw [h.prim p]
    constructor <;> rintro ⟨⟩
    cases hℓ
  · rw [h.retry]
    constructor
    · intro hc
      exact absurd rfl hc
    · rintro rfl
      cases hℓ

theorem ticking (h : Idle s) : Placed s.ticking .tick := by
  refine ⟨by simp [TRE.ticking], fun p => ?_, ?_, fun _ => .inl rfl, nofun⟩
  · simp [TRE.ticking, h.prim p]
  · have hr : s.ticking.retryPkt = none := h.retry
    simp [hr]

theorem scheduled (h : Idle s) (hb : s.blocked = false) (p : Prim) :
    Placed (s.setFlag (.prim p) true) (.prim p) := by
  have hr : (s.setFlag (.prim p) true).retryPkt = none := h.retry
  have hb' : (s.setFlag (.prim p) true).blocked = false := hb
  refine ⟨by simp [h.tick], fun q => ?_, by simp [hr], by simp [hb'], nofun⟩
  by_cases hq : q = p
  · simp [hq]
  · simp [hq, h.prim q, Ne.symm hq]

theorem refused (h : Idle s) (hb : s.blocked = false) (pkt : Packet) :
    Placed { s with retryPkt := some pkt } .retry := by
  refine ⟨by simp [h.tick], fun p => by simp [h.prim p], by simp, ?_, nofun⟩
  intro hc
  exact absurd (hc.symm.trans hb) nofun

end Idle

namespace Placed

theorem retry_none (h : Placed s ℓ) (hℓ : ℓ ≠ .retry) : s.retryPkt = none := by
  by_contra hc
  exact hℓ (h.retry.mp hc)

theorem idle (h : Placed s ℓ) (hℓ : ℓ.idle = true) : Idle s := by
  refine ⟨?_, fun p => ?_, ?_⟩
  · rw [← Bool.not_eq_true, h.tick]
    rintro rfl
    cases hℓ
  · rw [← Bool.not_eq_true, h.prim]
    rintro rfl
    cases hℓ
  · apply h.retry_none
    rintro rfl
    cases hℓ

theorem not_blocked (h : Placed s ℓ) (hℓ : ℓ ∉ [.tick, .blocked, .awake]) : s.blocked = false := by
  rw [← Bool.not_eq_true]
  intro hb
  exact hℓ (by simpa using h.blocked hb)

theorem fired_tick (h : Placed s .tick) : Idle (s.setFlag .tick false) := by
  refine ⟨by simp, fun p => ?_, ?_⟩
  · have := h.prim p
    simpa using this
  · exact h.retry_none (by simp)

theorem fired_prim {p : Prim} (h : Placed s (.prim p)) : Idle (s.setFlag (.prim p) false) := by
  refine ⟨?_, fun q => ?_, ?_⟩
  · have := h.tick
    simpa using this
  · by_cases hq : q = p
    · simp [hq]
    · have := h.prim q
      simpa [hq, Ne.symm hq] using this
  · exact h.retry_none (by simp)

theorem retried {pkt : Packet} (h : Placed s .retry) :
    Idle { s with retryPkt := none, inFlight := s.inFlight ++ [pkt] } := by
  refine ⟨?_, fun p => ?_, rfl⟩
  · have := h.tick
    simpa using this
  · have := h.prim p
    simpa using this

theorem setFlag_other (h : Placed s ℓ) {ev : Event} {b : Bool} (ht : ev ≠ .tick)
    (hp : ∀ p, ev ≠ .prim p) : Placed (s.setFlag ev b) ℓ := by
  refine ⟨?_, fun p => ?_, h.retry, h.blocked, h.parked⟩
  · rw [TRE.setFlag_scheduled, Function.update_of_ne ht.symm]
    exact h.tick
  · rw [TRE.setFlag_scheduled, Function.update_of_ne (hp p).symm]
    exact h.prim p

theorem received (h : Placed s ℓ) (pkt : Packet) : Placed (s.received pkt) ℓ := by
  let l := (addrInFlight pkt.paddr true s.outstandingAddrs).2
  have hl : Placed { s with outstandingAddrs := l } ℓ :=
    ⟨h.tick, h.prim, h.retry, h.blocked, h.parked⟩
  exact hl.setFlag_other (by simp) (by simp)

end Placed

theorem OwnMove.placed (h : OwnMove ℓ s e ℓ' s') (hp : Placed s ℓ) : Placed s' ℓ' := by
  cases h with
  | firePrim p hs =>
    obtain rfl := (hp.prim p).mp hs
    have hb := hp.not_blocked (by simp)
    refine hp.fired_prim.placed rfl (fun hc => ?_) nofun
    exact absurd (hc.symm.trans hb) nofun
  | stayBlocked hb hd => exact (hp.idle rfl).placed rfl (fun _ => .inl rfl) (fun _ => hb)
  | unblock hb hd =>
    have hi := hp.idle rfl
    exact Idle.placed ⟨hi.tick, hi.prim, hi.retry⟩ rfl nofun nofun
  | parkAccess hb he hz =>
    have hi := hp.idle rfl
    exact Idle.placed ⟨hi.tick, hi.prim, hi.retry⟩ rfl (fun _ => .inl rfl) (fun _ => rfl)
  | readyAccess hb he hf hz =>
    have hi := hp.idle rfl
    refine Idle.placed ⟨hi.tick, hi.prim, hi.retry⟩ rfl (fun hc => ?_) nofun
    exact absurd (hc.symm.trans hb) nofun
  | parkStall hb he hz =>
    have hi := hp.idle rfl
    exact Idle.placed ⟨hi.tick, hi.prim, hi.retry⟩ rfl (fun _ => .inl rfl) (fun _ => rfl)
  | readyStall hb he hz =>
    have hi := hp.idle rfl
    refine Idle.placed ⟨hi.tick, hi.prim, hi.retry⟩ rfl (fun hc => ?_) nofun
    exact absurd (hc.symm.trans hb) nofun
  | readPrim hb he =>
    have hi := hp.idle rfl
    refine Idle.placed ⟨hi.tick, hi.prim, hi.retry⟩ rfl (fun hc => ?_) nofun
    exact absurd (hc.symm.trans hb) nofun
  | delay p hs => exact (hp.idle rfl).scheduled (hp.not_blocked (by simp)) p
  | startStall hc hs => exact (hp.idle rfl).ticking
  | @sendAccepted _ r cmd hc hs =>
    have hi := (hp.idle rfl).sent r
    have ht : Idle { s.sent r with inFlight := s.inFlight ++ [s.packet r cmd] } :=
      ⟨hi.tick, hi.prim, hi.retry⟩
    exact ht.ticking.setFlag_other (by simp) (by simp)
  | sendRefused hc =>
    exact ((hp.idle rfl).sent _).refused (hp.not_blocked (by simp)) _
  | sendAtomic hc hs =>
    exact (((hp.idle rfl).sent _).received _).ticking.setFlag_other (by simp) (by simp)
  | stats p hne hs => exact (hp.idle rfl).ticking
  | rewind hq hs =>
    have hi := hp.idle rfl
    exact Idle.ticking ⟨hi.tick, hi.prim, hi.retry⟩
  | @response _ _ _ pkt hk hf hn ht =>
    have hr := hp.received pkt
    exact ⟨hr.tick, hr.prim, hr.retry, hr.blocked, hr.parked⟩
  | @responseTick _ _ k pkt hk hf hn ht hb =>
    have hℓ : ℓ.idle = true := by
      rcases hp.blocked hb with rfl | rfl | rfl
      · exact absurd (hp.tick.mpr rfl) (by simp [ht])
      · rfl
      · rfl
    have hi := (hp.idle hℓ).received pkt
    have hi' : Idle { s.received pkt with inFlight := s.inFlight.eraseIdx k } :=
      ⟨hi.tick, hi.prim, hi.retry⟩
    exact hi'.ticking
  | retried hq hb ht =>
    obtain rfl := hp.retry.mp (by simp [hq])
    exact hp.retried.ticking.setFlag_other (by simp) (by simp)
  | retriedBlocked hq hb =>
    obtain rfl := hp.retry.mp (by simp [hq])
    exact absurd hb (by simp [hp.not_blocked (by simp)])

theorem EngineMove.placed (h : EngineMove ℓ s e ℓ' s') (hp : Placed s ℓ) : Placed s' ℓ' := by
  cases h with
  | own h => exact h.placed hp
  | fireTick hs =>
    obtain rfl := hp.tick.mp hs
    exact hp.fired_tick.placed rfl (fun _ => .inr rfl) nofun
  | halt hb hr =>
    have hi := hp.idle rfl
    refine Idle.placed ⟨hi.tick, hi.prim, hi.retry⟩ rfl (fun hc => ?_) nofun
    exact absurd (hc.symm.trans hb) nofun
  | finish p hs clear hclear =>
    have hi := (hp.idle rfl).ticking
    rcases hclear with rfl | rfl | rfl
    all_goals exact ⟨hi.tick, hi.prim, hi.retry, hi.blocked, hi.parked⟩
  | queueUp a | arrive a =>
    have hi := hp.idle rfl
    have hb := hp.not_blocked (by simp)
    refine Idle.placed ⟨hi.tick, hi.prim, hi.retry⟩ rfl (fun hc => ?_) nofun
    exact absurd (hc.symm.trans hb) nofun
  | sleep | queueWait =>
    have hb := hp.not_blocked (by simp)
    refine (hp.idle rfl).placed rfl (fun hc => ?_) nofun
    exact absurd (hc.symm.trans hb) nofun
  | resume hℓ hs =>
    refine (hp.idle ?_).ticking
    rcases hℓ with ⟨a, rfl⟩ | ⟨a, rfl⟩ | rfl <;> rfl
  | requeue hs => exact (hp.idle rfl).scheduled (hp.not_blocked (by simp)) _

end HetSim.Replay
