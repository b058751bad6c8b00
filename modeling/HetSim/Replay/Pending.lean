import HetSim.Replay.InFlight

/-!
# The entry an engine is working on

Between reading an entry and carrying it out an engine can be parked, delayed or suspended. `todo`
is the part of the trace that is not carried out yet, and `Parsed` says that what the engine
keeps in its fields is the first entry of it.
-/

namespace HetSim.Replay
open Checked TRE

variable {s s' : TRE} {ℓ ℓ' : Loc} {e : Option Effect}

def TRE.pending (s : TRE) : Loc → Bool
  | .ready _ | .holding _ | .prim _ | .queue .. | .blocked => true
  | .tick | .awake => s.blocked
  | _ => false

def TRE.todo (s : TRE) (ℓ : Loc) : List String :=
  if s.pending ℓ then s.lastTokEntryPos else if ℓ = .halted then [] else s.traceFh

/-- The fields of an engine hold the access or stall it parked. A dependency that
is still in flight is one of those it waits for. -/
def Parks (s : TRE) : Entry → Prop
  | .access cmd unc blk _ a deps =>
    cmd ≠ .stall ∧ s.blockedPkt.cmd = cmd ∧ s.blockedPkt.uncacheable = unc ∧
      s.blockedPkt.blking = blk ∧ s.blockedPkt.addr = a ∧
      ∀ d ∈ deps, s.inFlightAddr d = true → d ∈ s.blockedPkt.deps
  | .stall _ n deps =>
    s.blockedPkt.cmd = .stall ∧ s.blockedPkt.data = n ∧
      ∀ d ∈ deps, s.inFlightAddr d = true → d ∈ s.blockedPkt.deps
  | .prim .. => False

def Readies (s : TRE) (r : Req) : Entry → Prop
  | .access cmd unc blk _ a deps =>
    cmd ≠ .stall ∧ r.cmd = cmd ∧ r.uncacheable = unc ∧ r.blking = blk ∧ s.paddr = a ∧
      ∀ d ∈ deps, s.inFlightAddr d = false
  | .stall _ n deps => r.cmd = .stall ∧ s.data = n ∧ ∀ d ∈ deps, s.inFlightAddr d = false
  | .prim .. => False

def Holds (s : TRE) (p : Prim) (e : Entry) : Prop :=
  ∃ c, e = .prim p (s.operands p).1 (s.operands p).2 c

def Matches (s : TRE) (ℓ : Loc) (e : Entry) : Prop :=
  match ℓ with
  | .ready r => Readies s r e
  | .holding p | .prim p => Holds s p e
  | .queue side other => s.data = other ∧ Holds s (queuePrim side) e
  | _ => Parks s e

structure Parsed (s : TRE) (ℓ : Loc) : Prop where
  entry : s.pending ℓ = true →
    ∃ e, readEntry s.lastTokEntryPos = .ok (e, s.traceFh) ∧ Matches s ℓ e
  reached : entries (s.todo ℓ) <:+ entries s.trace

theorem operands_of_readOperands {p : Prim} {ts : List String}
    {ops : Option Addr × Option UInt32 × List String} (h : readOperands p ts = .ok ops) :
    { s with paddr := ops.1.getD s.paddr, data := ops.2.1.getD s.data }.operands p =
      (ops.1, ops.2.1) := by
  cases p <;> simp only [readOperands, bind_eq_ok, pure_eq_ok, Except.ok.injEq] at h
  case initBarrier =>
    obtain ⟨a, -, n, -, rfl⟩ := h
    rfl
  case sleep | dumpStats | resetStats | dumpResetStats =>
    subst h
    rfl
  all_goals
    obtain ⟨a, -, rfl⟩ := h
    rfl

namespace Parsed

theorem mem_entries (h : Parsed s ℓ) (hp : s.pending ℓ = true) :
    ∃ e ∈ entries s.trace, Matches s ℓ e := by
  obtain ⟨e, he, hm⟩ := h.entry hp
  refine ⟨e, h.reached.subset ?_, hm⟩
  rw [todo, if_pos hp, entries_of_ok he]
  exact List.mem_cons_self

theorem keep (h : Parsed s ℓ) (hp : s.pending ℓ = true) (hp' : s'.pending ℓ' = true)
    (ht : s'.trace = s.trace) (hf : s'.traceFh = s.traceFh)
    (hl : s'.lastTokEntryPos = s.lastTokEntryPos)
    (hm : ∀ e, Matches s ℓ e → Matches s' ℓ' e) : Parsed s' ℓ' where
  entry _ := by
    obtain ⟨e, he, hme⟩ := h.entry hp
    exact ⟨e, by rw [hl, hf]; exact he, hm e hme⟩
  reached := by
    have hr := h.reached
    rw [todo, if_pos hp] at hr
    rw [todo, if_pos hp', hl, ht]
    exact hr

theorem done (h : Parsed s ℓ) (hp : s.pending ℓ = true) (hp' : s'.pending ℓ' = false)
    (hℓ : ℓ' ≠ .halted) (ht : s'.trace = s.trace) (hf : s'.traceFh = s.traceFh) : Parsed s' ℓ' where
  entry hc := absurd (hc.symm.trans hp') nofun
  reached := by
    obtain ⟨e, he, -⟩ := h.entry hp
    have hr := h.reached
    rw [todo, if_pos hp, entries_of_ok he] at hr
    rw [todo, hp', if_neg (by simp), if_neg hℓ, hf, ht]
    exact (List.suffix_cons e _).trans hr

theorem idle (h : Parsed s ℓ) (hp : s.pending ℓ = false) (hp' : s'.pending ℓ' = false)
    (hℓ : ℓ ≠ .halted) (hℓ' : ℓ' ≠ .halted) (ht : s'.trace = s.trace)
    (hf : s'.traceFh = s.traceFh) :
    Parsed s' ℓ' where
  entry hc := absurd (hc.symm.trans hp') nofun
  reached := by
    have hr := h.reached
    rw [todo, hp, if_neg (by simp), if_neg hℓ] at hr
    rw [todo, hp', if_neg (by simp), if_neg hℓ', hf, ht]
    exact hr

theorem read {rest : List String} {e : Entry} (h : Parsed s .awake) (hb : s.blocked = false)
    (he : readEntry s.traceFh = .ok (e, rest)) (hp' : s'.pending ℓ' = true)
    (ht : s'.trace = s.trace) (hf : s'.traceFh = rest) (hl : s'.lastTokEntryPos = s.traceFh)
    (hm : Matches s' ℓ' e) :
    Parsed s' ℓ' where
  entry _ := ⟨e, by rw [hl, hf]; exact he, hm⟩
  reached := by
    have hr := h.reached
    have hn : s.pending .awake = false := hb
    rw [todo, hn, if_neg (by simp), if_neg (by simp)] at hr
    rw [todo, if_pos hp', hl, ht]
    exact hr

end Parsed

theorem Parks.mono {e : Entry} (h : Parks s e) (hb : s'.blockedPkt = s.blockedPkt)
    (hi : ∀ d, s'.inFlightAddr d = true → s.inFlightAddr d = true) : Parks s' e := by
  cases e with
  | access cmd unc blk pc a deps =>
    obtain ⟨h1, h2, h3, h4, h5, h6⟩ := h
    rw [← hb] at h2 h3 h4 h5 h6
    exact ⟨h1, h2, h3, h4, h5, fun d hd hf => h6 d hd (hi d hf)⟩
  | stall blk n deps =>
    obtain ⟨h1, h2, h3⟩ := h
    rw [← hb] at h1 h2 h3
    exact ⟨h1, h2, fun d hd hf => h3 d hd (hi d hf)⟩
  | prim p pa da c => exact h

theorem Readies.mono {e : Entry} {r : Req} (h : Readies s r e) (hp : s'.paddr = s.paddr)
    (hd : s'.data = s.data) (hi : ∀ d, s'.inFlightAddr d = true → s.inFlightAddr d = true) :
    Readies s' r e := by
  have hn : ∀ d, s.inFlightAddr d = false → s'.inFlightAddr d = false := by
    intro d hf
    rw [← Bool.not_eq_true] at hf ⊢
    exact fun hc => hf (hi d hc)
  cases e with
  | access cmd unc blk pc a deps =>
    obtain ⟨h1, h2, h3, h4, h5, h6⟩ := h
    exact ⟨h1, h2, h3, h4, hp.trans h5, fun d hd => hn d (h6 d hd)⟩
  | stall blk n deps =>
    obtain ⟨h1, h2, h3⟩ := h
    exact ⟨h1, hd.trans h2, fun d hd => hn d (h3 d hd)⟩
  | prim p pa da c => exact h

theorem Holds.mono {e : Entry} {p : Prim} (h : Holds s p e) (hp : s'.paddr = s.paddr)
    (hd : s'.data = s.data) : Holds s' p e := by
  have ho : s'.operands p = s.operands p := by cases p <;> simp [operands, hp, hd]
  rw [Holds, ho]
  exact h

theorem Matches.received {e : Entry} (h : Matches s ℓ e) (pkt : Packet) (k : ℕ) :
    Matches { s.received pkt with inFlight := s.inFlight.eraseIdx k } ℓ e := by
  have hi : ∀ d, { s.received pkt with inFlight := s.inFlight.eraseIdx k }.inFlightAddr d = true →
      s.inFlightAddr d = true := fun d hd => inFlightAddr_received hd
  cases ℓ with
  | ready r => exact Readies.mono h rfl rfl hi
  | holding p => exact Holds.mono h rfl rfl
  | prim p => exact Holds.mono h rfl rfl
  | queue side other => exact ⟨h.1, Holds.mono h.2 rfl rfl⟩
  | _ => exact Parks.mono h rfl hi

theorem TRE.mem_waits {d : Addr} {deps : List Addr} (hd : d ∈ deps) (hi : s.inFlightAddr d = true) :
    d ∈ s.waits deps := by
  rw [waits, Finset.mem_union, List.mem_toFinset, List.mem_filter]
  exact .inl ⟨hd, hi⟩

theorem TRE.not_inFlight_of_hazard {deps : List Addr} (h : s.hazard deps = false) :
    ∀ d ∈ deps, s.inFlightAddr d = false := by
  simp only [hazard, Bool.or_eq_false_iff, List.any_eq_false, Bool.not_eq_true] at h
  exact h.2

theorem OwnMove.parsed (h : OwnMove ℓ s e ℓ' s') (hp : Placed s ℓ) (hq : Parsed s ℓ) :
    Parsed s' ℓ' := by
  cases h with
  | firePrim p hs =>
    obtain rfl := (hp.prim p).mp hs
    exact hq.keep rfl rfl rfl rfl rfl (fun e he => he.mono rfl rfl)
  | stayBlocked hb hd => exact hq.keep hb rfl rfl rfl rfl (fun e he => he)
  | unblock hb hd =>
    refine hq.keep hb rfl rfl rfl rfl (fun e he => ?_)
    have hn : ∀ d, (s.inFlightAddr d = true → d ∈ s.blockedPkt.deps) → s.inFlightAddr d =
        false := by
      intro d hd'
      by_contra hc
      rw [Bool.not_eq_false] at hc
      exact absurd hc (by simp [hd d (hd' hc)])
    cases e with
    | access cmd unc blk pc a deps =>
      obtain ⟨h1, h2, h3, h4, h5, h6⟩ := he
      exact ⟨h1, h2, h3, h4, h5, fun d hd' => hn d (h6 d hd')⟩
    | stall blk n deps =>
      obtain ⟨h1, h2, h3⟩ := he
      exact ⟨h1, h2, fun d hd' => hn d (h3 d hd')⟩
    | prim p pa da c => exact he
  | parkAccess hb he hz =>
    refine hq.read hb he rfl rfl rfl rfl ?_
    exact ⟨readEntry_access he, rfl, rfl, rfl, rfl, fun d hd hi => mem_waits hd hi⟩
  | readyAccess hb he hf hz =>
    refine hq.read hb he rfl rfl rfl rfl ?_
    exact ⟨readEntry_access he, rfl, rfl, rfl, rfl, not_inFlight_of_hazard hz⟩
  | parkStall hb he hz =>
    refine hq.read hb he rfl rfl rfl rfl ?_
    exact ⟨rfl, rfl, fun d hd hi => mem_waits hd hi⟩
  | readyStall hb he hz =>
    refine hq.read hb he rfl rfl rfl rfl ?_
    exact ⟨rfl, rfl, not_inFlight_of_hazard hz⟩
  | @readPrim _ p pa da c rest hb he =>
    refine hq.read hb he rfl rfl rfl rfl ?_
    obtain ⟨word, ts, ops, -, -, ho, rfl, rfl⟩ := readEntry_prim he
    have hops := operands_of_readOperands (s := s.advance rest) ho
    exact ⟨c, congrArg (fun o : Option Addr × Option UInt32 => Entry.prim p o.1 o.2 c) hops.symm⟩
  | delay p hs => exact hq.keep rfl rfl rfl rfl rfl (fun e he => he.mono rfl rfl)
  | startStall hc hs =>
    exact hq.done rfl (hp.not_blocked (by simp)) (by simp) rfl rfl
  | sendAccepted hc hs =>
    exact hq.done rfl (hp.not_blocked (by simp)) (by simp) rfl rfl
  | sendRefused hc => exact hq.done rfl rfl (by simp) rfl rfl
  | sendAtomic hc hs =>
    exact hq.done rfl (hp.not_blocked (by simp)) (by simp) rfl rfl
  | stats p hne hs =>
    exact hq.done rfl (hp.not_blocked (by simp)) (by simp) rfl rfl
  | @rewind _ p hr hs =>
    have hnb := hp.not_blocked (by simp)
    have hn : s.rewound.ticking.pending .tick = false := hnb
    refine ⟨fun hc => absurd (hc.symm.trans hn) nofun, ?_⟩
    rw [todo, hn]
    exact hq.reached
  | response hk hf hn ht =>
    by_cases hpe : s.pending ℓ = true
    · exact hq.keep hpe hpe rfl rfl rfl (fun e he => he.received _ _)
    · rw [Bool.not_eq_true] at hpe
      refine ⟨fun hc => absurd (hc.symm.trans hpe) nofun, ?_⟩
      exact hq.reached
  | @responseTick _ _ k pkt hk hf hn ht hb =>
    have hpe : s.pending ℓ = true := by
      rcases hp.blocked hb with rfl | rfl | rfl
      · exact hb
      · rfl
      · exact hb
    refine hq.keep hpe hb rfl rfl rfl (fun e he => ?_)
    have hm := he.received pkt k
    rcases hp.blocked hb with rfl | rfl | rfl
    all_goals exact Parks.mono hm rfl (fun d hd => hd)
  | retried hr hb ht =>
    obtain rfl := hp.retry.mp (by simp [hr])
    exact hq.idle rfl hb (by simp) (by simp) rfl rfl
  | retriedBlocked hr hb =>
    obtain rfl := hp.retry.mp (by simp [hr])
    exact absurd hb (by simp [hp.not_blocked (by simp)])

theorem EngineMove.parsed (h : EngineMove ℓ s e ℓ' s') (hp : Placed s ℓ) (hq : Parsed s ℓ) :
    Parsed s' ℓ' := by
  cases h with
  | own h => exact h.parsed hp hq
  | fireTick hs =>
    obtain rfl := hp.tick.mp hs
    by_cases hb : s.blocked = true
    · exact hq.keep hb hb rfl rfl rfl (fun e he => Parks.mono he rfl (fun d hd => hd))
    · rw [Bool.not_eq_true] at hb
      exact hq.idle hb hb (by simp) (by simp) rfl rfl
  | halt hb hr => exact ⟨nofun, List.nil_suffix⟩
  | finish p hs clear hclear =>
    have hnb := hp.not_blocked (by simp)
    rcases hclear with rfl | rfl | rfl
    all_goals exact hq.done rfl hnb (by simp) rfl rfl
  | queueUp a | arrive a | sleep => exact hq.done rfl rfl (by simp) rfl rfl
  | queueWait => exact hq.keep rfl rfl rfl rfl rfl (fun e he => ⟨rfl, he⟩)
  | resume hℓ hs =>
    rcases hℓ with ⟨a, rfl⟩ | ⟨a, rfl⟩ | rfl
    all_goals
      have hnb := hp.not_blocked (by simp)
      exact hq.idle rfl hnb (by simp) (by simp) rfl rfl
  | requeue hs => exact hq.keep rfl rfl rfl rfl rfl (fun e he => he.2.mono rfl rfl)

end HetSim.Replay
