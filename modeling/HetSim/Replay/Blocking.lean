import HetSim.Replay.Pending

/-!
# Blocking accesses

A blocking access is found by its bit in `outstandingAddrs`, and the search answers `invalidPaddr`
when there is none, so `CleanTrace` rules out a blocking access to that address. Then at most the
last entry carries the bit, and no response to another request takes it away too early.
-/

namespace HetSim.Replay

open List

variable {s s' : TRE} {ℓ ℓ' : Loc} {e : Option Effect} {l : List (Addr × Bool)}

def Entry.blocksInvalid : Entry → Bool
  | .access _ _ blk _ a _ => blk && a = invalidPaddr
  | _ => false

def CleanTrace (trace : List String) : Prop := ∀ e ∈ entries trace, e.blocksInvalid = false

instance (trace : List String) : Decidable (CleanTrace trace) :=
  inferInstanceAs (Decidable (∀ e ∈ entries trace, e.blocksInvalid = false))

def OnlyLast (l : List (Addr × Bool)) : Prop := ∀ e ∈ l.dropLast, e.2 = false

namespace OnlyLast

theorem concat (h : ∀ e ∈ l, e.2 = false) (x : Addr × Bool) : OnlyLast (l ++ [x]) := by
  rw [OnlyLast, dropLast_concat]
  exact h

variable {x : Addr × Bool} {r : Req}

theorem eq_nil (h : OnlyLast (x :: l)) (hx : x.2 = true) : l = [] := by
  cases l with
  | nil => rfl
  | cons y l =>
    have := h x (by simp)
    exact absurd (hx.symm.trans this) nofun

theorem tail (h : OnlyLast (x :: l)) : OnlyLast l := by
  cases l with
  | nil => exact nofun
  | cons y l => exact fun e he => h e (by simp [he])

theorem cons (h : OnlyLast l) (hx : l ≠ [] → x.2 = false) : OnlyLast (x :: l) := by
  cases l with
  | nil => exact nofun
  | cons y l =>
    intro e he
    rw [dropLast_cons_of_ne_nil (by simp), mem_cons] at he
    rcases he with rfl | he
    · exact hx (by simp)
    · exact h e he

theorem unique {y : Addr × Bool} (h : OnlyLast l) (hx : x ∈ l) (hy : y ∈ l) (hx' : x.2 = true)
    (hy' : y.2 = true) : x = y := by
  induction l with
  | nil => cases hx
  | cons z l ih =>
    rcases mem_cons.mp hx with rfl | hxl
    · obtain rfl := h.eq_nil hx'
      exact (mem_singleton.mp hy).symm
    · rcases mem_cons.mp hy with rfl | hyl
      · obtain rfl := h.eq_nil hy'
        cases hxl
      · exact ih h.tail hxl hyl

theorem erase (h : OnlyLast l) (a : Addr) : OnlyLast (addrInFlight a true l).2 := by
  induction l with
  | nil => exact h
  | cons x l ih =>
    by_cases hx : x.1 = a
    · simp only [addrInFlight, if_pos hx, if_true]
      exact h.tail
    · simp only [addrInFlight, if_neg hx]
      refine (ih h.tail).cons (fun hne => ?_)
      rw [← Bool.not_eq_true]
      intro hb
      rw [h.eq_nil hb] at hne
      exact hne rfl

theorem mem_erase {a b : Addr} (h : OnlyLast l) (ha : (a, true) ∈ l)
    (hm : a ∈ (addrInFlight b true l).2.map Prod.fst) : (a, true) ∈ (addrInFlight b true l).2 := by
  induction l with
  | nil => cases ha
  | cons x l ih =>
    by_cases hx : x.1 = b
    · simp only [addrInFlight, if_pos hx, if_true] at hm ⊢
      rcases mem_cons.mp ha with rfl | ha
      · rw [h.eq_nil rfl] at hm
        cases hm
      · exact ha
    · simp only [addrInFlight, if_neg hx, map_cons, mem_cons] at hm ⊢
      rcases mem_cons.mp ha with rfl | ha
      · exact .inl rfl
      · right
        by_cases hab : a = b
        · subst hab
          rcases hm with rfl | hm
          · exact absurd rfl hx
          · exact ih h.tail ha hm
        · rw [addrInFlight_erase]
          exact (mem_eraseP_of_neg (by simpa using hab)).mpr ha

end OnlyLast

structure Exclusive (s : TRE) (ℓ : Loc) : Prop where
  last : OnlyLast s.outstandingAddrs
  valid : ∀ e ∈ s.outstandingAddrs, e.2 = true → e.1 ≠ invalidPaddr
  marked : ∀ p ∈ s.outstanding, p.blking = true → (p.paddr, true) ∈ s.outstandingAddrs
  parked : s.blocked = true → ∀ e ∈ s.outstandingAddrs, e.2 = true → e.1 ∈ s.blockedPkt.deps
  ready : ∀ r, ℓ = .ready r → ∀ e ∈ s.outstandingAddrs, e.2 = false

namespace Exclusive

theorem find (h : Exclusive s ℓ) (hx : x ∈ s.outstandingAddrs) (hb : x.2 = true) :
    s.blkingAccAddrInFlight = x.1 := by
  have hs : (s.outstandingAddrs.find? (·.2)).isSome = true := by
    rw [List.find?_isSome]
    exact ⟨x, hx, hb⟩
  obtain ⟨y, hy⟩ := Option.isSome_iff_exists.mp hs
  have hxy := h.last.unique (List.mem_of_find?_eq_some hy) hx (List.find?_some hy) hb
  rw [TRE.blkingAccAddrInFlight, hy, hxy]

theorem none_of_hazard {deps : List Addr} (h : Exclusive s ℓ) (hz : s.hazard deps = false) :
    ∀ e ∈ s.outstandingAddrs, e.2 = false := by
  intro x hx
  rw [← Bool.not_eq_true]
  intro hb
  simp only [TRE.hazard, Bool.or_eq_false_iff, decide_eq_false_iff_not, not_not] at hz
  exact h.valid x hx hb ((h.find hx hb).symm.trans hz.1)

theorem mem_waits (h : Exclusive s ℓ) (deps : List Addr) :
    ∀ e ∈ s.outstandingAddrs, e.2 = true → e.1 ∈ s.waits deps := by
  intro x hx hb
  have hf := h.find hx hb
  have hv := h.valid x hx hb
  rw [TRE.waits, hf, if_neg hv]
  simp

theorem outstanding_ready (h : Exclusive s (.ready r)) : ∀ p ∈ s.outstanding, p.blking = false := by
  intro p hp
  rw [← Bool.not_eq_true]
  intro hb
  exact absurd (h.ready r rfl _ (h.marked p hp hb)) nofun

theorem keep (h : Exclusive s ℓ) (ha : s'.outstandingAddrs = s.outstandingAddrs)
    (ho : s'.outstanding = s.outstanding)
    (hb : s'.blocked = true → ∀ e ∈ s.outstandingAddrs, e.2 = true → e.1 ∈ s'.blockedPkt.deps)
    (hr : ∀ r, ℓ' = .ready r → ∀ e ∈ s.outstandingAddrs, e.2 = false) : Exclusive s' ℓ' where
  last := ha ▸ h.last
  valid := ha ▸ h.valid
  marked := by
    rw [ha, ho]
    exact h.marked
  parked := ha ▸ hb
  ready := ha ▸ hr

theorem send (pkt : Packet) (h : Exclusive s (.ready r))
    (hpkt : pkt.paddr = s.paddr ∧ pkt.blking = r.blking)
    (hv : r.blking = true → s.paddr ≠ invalidPaddr)
    (ha : s'.outstandingAddrs = (s.sent r).outstandingAddrs)
    (ho : s'.outstanding.Perm (pkt :: s.outstanding)) (hb : s'.blocked = false)
    (hℓ : ∀ r, ℓ' ≠ .ready r) : Exclusive s' ℓ' := by
  have ha' : s'.outstandingAddrs = s.outstandingAddrs ++ [(s.paddr, r.blking)] := ha
  have hold := h.ready r rfl
  refine ⟨?_, ?_, ?_, fun hc => absurd (hc.symm.trans hb) nofun, fun r hr => absurd hr (hℓ r)⟩
  · rw [ha']
    exact OnlyLast.concat hold _
  · intro x hx hx'
    rw [ha', mem_append, mem_singleton] at hx
    rcases hx with hx | rfl
    · exact absurd (hx'.symm.trans (hold x hx)) nofun
    · exact hv hx'
  · intro p hp hpb
    rw [ha']
    rcases mem_cons.mp (ho.subset hp) with rfl | hp
    · apply mem_append_right
      rw [hpkt.1, ← hpkt.2, hpb]
      exact mem_singleton_self _
    · exact absurd (hpb.symm.trans (h.outstanding_ready p hp)) nofun

theorem receive {pkt : Packet} (h : Exclusive s ℓ) (hbk : Booked s' ℓ')
    (ha : s'.outstandingAddrs = (s.received pkt).outstandingAddrs)
    (ho : s.outstanding.Perm (pkt :: s'.outstanding)) (hb : s'.blocked = s.blocked)
    (hd : s'.blockedPkt = s.blockedPkt) (hℓ : ∀ r, ℓ' = .ready r → ℓ = .ready r) :
    Exclusive s' ℓ' := by
  have ha' : s'.outstandingAddrs = (addrInFlight pkt.paddr true s.outstandingAddrs).2 := ha
  have hsub : ∀ x ∈ s'.outstandingAddrs, x ∈ s.outstandingAddrs := by
    rw [ha', addrInFlight_erase]
    exact fun x hx => mem_of_mem_eraseP hx
  refine ⟨?_, fun x hx => h.valid x (hsub x hx), ?_, ?_, ?_⟩
  · rw [ha']
    exact h.last.erase _
  · intro p hp hpb
    have hold := h.marked p (ho.symm.subset (mem_cons_of_mem _ hp)) hpb
    have hmem : p.paddr ∈ s'.outstandingAddrs.map Prod.fst :=
      hbk.addrs.symm.subset (mem_map_of_mem hp)
    rw [ha'] at hmem ⊢
    exact h.last.mem_erase hold hmem
  · intro hbl x hx
    rw [hd]
    exact h.parked (hb ▸ hbl) x (hsub x hx)
  · intro r hr x hx
    exact h.ready r (hℓ r hr) x (hsub x hx)

end Exclusive

theorem Parsed.valid_of_ready {cmd : MemCmd} (h : Parsed s (.ready r))
    (hc : CleanTrace s.trace) (hm : memCmd r.cmd = .ok cmd) :
    r.blking = true → s.paddr ≠ invalidPaddr := by
  obtain ⟨ent, hmem, hr⟩ := h.mem_entries rfl
  have hcl := hc ent hmem
  cases ent with
  | access c unc blk pc a deps =>
    obtain ⟨-, -, -, hb, ha, -⟩ := hr
    intro hbl hinv
    rw [hb] at hbl
    rw [ha] at hinv
    simp [Entry.blocksInvalid, hbl, hinv] at hcl
  | stall blk n deps => exact absurd hr.1 (memCmd_ne_stall hm)
  | prim p pa da c => exact absurd hr id

theorem OwnMove.exclusive (h : OwnMove ℓ s e ℓ' s') (hc : CleanTrace s.trace) (hp : Placed s ℓ)
    (hb : Booked s ℓ) (hq : Parsed s ℓ) (hx : Exclusive s ℓ) : Exclusive s' ℓ' := by
  have hbk := h.booked hp hb
  cases h with
  | firePrim p hs => exact hx.keep rfl rfl hx.parked (by simp)
  | stayBlocked hbl hd => exact hx.keep rfl rfl hx.parked (by simp)
  | unblock hbl hd =>
    refine hx.keep rfl rfl (by simp [TRE.unblock]) (fun _ _ x hx' => ?_)
    rw [← Bool.not_eq_true]
    intro hxb
    have hn := hd x.1 (hx.parked hbl x hx' hxb)
    rw [← Bool.not_eq_true, TRE.inFlightAddr_iff] at hn
    exact hn (mem_map_of_mem hx')
  | parkAccess hbl he hz => exact hx.keep rfl rfl (fun _ => hx.mem_waits _) (by simp)
  | readyAccess hbl he hf hz =>
    refine hx.keep rfl rfl (fun hc => ?_) (fun _ _ => hx.none_of_hazard hz)
    exact Bool.noConfusion (hc.symm.trans hbl)
  | parkStall hbl he hz => exact hx.keep rfl rfl (fun _ => hx.mem_waits _) (by simp)
  | readyStall hbl he hz =>
    refine hx.keep rfl rfl (fun hc => ?_) (fun _ _ => hx.none_of_hazard hz)
    exact Bool.noConfusion (hc.symm.trans hbl)
  | readPrim hbl he =>
    refine hx.keep rfl rfl (fun hc => ?_) (by simp)
    exact Bool.noConfusion (hc.symm.trans hbl)
  | delay p hs => exact hx.keep rfl rfl hx.parked (by simp)
  | startStall hcmd hs => exact hx.keep rfl rfl hx.parked (by simp)
  | @sendAccepted _ r cmd hcmd hs =>
    have hr : s.retryPkt = none := (hp.idle rfl).retry
    refine hx.send (s.packet r cmd) ⟨rfl, rfl⟩ (hq.valid_of_ready hc hcmd) rfl ?_
      (hp.not_blocked (by simp)) (by simp)
    simp [TRE.outstanding, TRE.ticking, TRE.setFlag, TRE.sent, hr]
  | @sendRefused _ r cmd hcmd =>
    have hr : s.retryPkt = none := (hp.idle rfl).retry
    refine hx.send (s.packet r cmd) ⟨rfl, rfl⟩ (hq.valid_of_ready hc hcmd) rfl ?_
      (hp.not_blocked (by simp)) (by simp)
    simp [TRE.outstanding, TRE.setFlag, TRE.sent, hr]
  | @sendAtomic _ r cmd hcmd hs =>
    have hr : s.retryPkt = none := (hp.idle rfl).retry
    have hnb := hp.not_blocked (by simp)
    let v : TRE := { s.sent r with inFlight := s.inFlight ++ [s.packet r cmd] }
    have hv : Exclusive v .tick := by
      refine hx.send (s.packet r cmd) ⟨rfl, rfl⟩ (hq.valid_of_ready hc hcmd) rfl ?_ hnb (by simp)
      simp [v, TRE.outstanding, TRE.setFlag, TRE.sent, hr]
    refine hv.receive hbk rfl ?_ rfl rfl (by simp)
    simp [v, TRE.outstanding, TRE.setFlag, TRE.sent, TRE.received, TRE.ticking, hr]
  | stats p hne hs => exact hx.keep rfl rfl hx.parked (by simp)
  | rewind hr hs => exact hx.keep rfl rfl hx.parked (by simp)
  | response hk hf hn ht => exact hx.receive hbk rfl (eraseIdx_perm hk) rfl rfl (fun r hr => hr)
  | responseTick hk hf hn ht hbl => exact hx.receive hbk rfl (eraseIdx_perm hk) rfl rfl (by simp)
  | retried hr hbl ht =>
    refine hx.keep rfl ?_ (fun hc => ?_) (by simp)
    · simp [TRE.outstanding, TRE.ticking, TRE.setFlag, hr]
    · exact Bool.noConfusion (hc.symm.trans hbl)
  | retriedBlocked hr hbl =>
    refine hx.keep rfl ?_ hx.parked (by simp)
    simp [TRE.outstanding, TRE.setFlag, hr]

theorem EngineMove.exclusive (h : EngineMove ℓ s e ℓ' s') (hc : CleanTrace s.trace)
    (hp : Placed s ℓ) (hb : Booked s ℓ) (hq : Parsed s ℓ) (hx : Exclusive s ℓ) :
    Exclusive s' ℓ' := by
  cases h with
  | own h => exact h.exclusive hc hp hb hq hx
  | finish p hs clear hclear =>
    rcases hclear with rfl | rfl | rfl
    all_goals exact hx.keep rfl rfl hx.parked nofun
  | _ => exact hx.keep rfl rfl hx.parked nofun

end HetSim.Replay
