import HetSim.Replay.Placement

/-!
# The requests in flight

A response erases the first entry of `outstandingAddrs` with its address. `Booked` ties that
vector to the packets created and not completed, whatever the order in which they return, and to
the limit, which is tested when an access is read.
-/

namespace HetSim.Replay
open TRE List

variable {s s' : TRE} {ℓ ℓ' : Loc} {e : Option Effect}

theorem addrInFlight_fst (a : Addr) (b : Bool) (l : List (Addr × Bool)) :
    (addrInFlight a b l).1 = l.any (fun e => e.1 = a) := by
  induction l with
  | nil => rfl
  | cons e l ih =>
    by_cases he : e.1 = a
    · simp [addrInFlight, he]
    · simp [addrInFlight, he, ih]

theorem addrInFlight_erase (a : Addr) (l : List (Addr × Bool)) :
    (addrInFlight a true l).2 = l.eraseP (fun e => e.1 = a) := by
  induction l with
  | nil => rfl
  | cons e l ih =>
    by_cases he : e.1 = a
    · simp [addrInFlight, he]
    · simp [addrInFlight, he, ih]

variable {a : Addr} {l : List (Addr × Bool)} {pkt : Packet}

theorem addrInFlight_perm (h : (addrInFlight a true l).1 = true) :
    (l.map Prod.fst).Perm (a :: (addrInFlight a true l).2.map Prod.fst) := by
  induction l with
  | nil => cases h
  | cons e l ih =>
    by_cases he : e.1 = a
    · simp [addrInFlight, he]
    · simp only [addrInFlight, if_neg he] at h ⊢
      simp only [List.map_cons]
      exact ((ih h).cons e.1).trans (.swap a e.1 _)

theorem addrInFlight_length
    (h : (addrInFlight a true l).1 = true) : (addrInFlight a true l).2.length + 1 = l.length := by
  have := (addrInFlight_perm h).length_eq
  simp only [length_map, length_cons] at this
  omega

theorem TRE.inFlightAddr_iff (s : TRE) (a : Addr) :
    s.inFlightAddr a = true ↔ a ∈ s.outstandingAddrs.map Prod.fst := by
  rw [inFlightAddr, addrInFlight_fst, List.any_eq_true]
  simp

theorem TRE.inFlightAddr_received
    (h : (s.received pkt).inFlightAddr a = true) : s.inFlightAddr a = true := by
  rw [inFlightAddr_iff] at h ⊢
  have hsub : (s.received pkt).outstandingAddrs.Sublist s.outstandingAddrs := by
    change (addrInFlight pkt.paddr true s.outstandingAddrs).2.Sublist _
    rw [addrInFlight_erase]
    exact eraseP_sublist
  exact (hsub.map Prod.fst).subset h

theorem TRE.exists_of_inFlightAddr (h : s.inFlightAddr a = true) : s.outstandingAddrs ≠ [] := by
  rw [inFlightAddr_iff] at h
  rintro hn
  simp [hn] at h

theorem TRE.exists_of_hazard {deps : List Addr} (h : s.hazard deps = true) :
    s.outstandingAddrs ≠ [] := by
  simp only [hazard, Bool.or_eq_true, decide_eq_true_eq, List.any_eq_true] at h
  rcases h with h | ⟨a, -, ha⟩
  · rintro hn
    simp [blkingAccAddrInFlight, hn] at h
  · exact exists_of_inFlightAddr ha

structure Booked (s : TRE) (ℓ : Loc) : Prop where
  addrs : (s.outstandingAddrs.map Prod.fst).Perm (s.outstanding.map Packet.paddr)
  watched : s.scheduled .noResponse = true ↔ s.outstandingAddrs ≠ []
  room : 1 ≤ s.maxNumOutstandingAddrs → s.outstandingAddrs.length ≤ s.maxNumOutstandingAddrs
  access : 1 ≤ s.maxNumOutstandingAddrs → ∀ r, ℓ = .ready r → r.cmd ≠ .stall →
    s.outstandingAddrs.length < s.maxNumOutstandingAddrs
  resumed : 1 ≤ s.maxNumOutstandingAddrs → s.blocked = true → ℓ ≠ .blocked →
    s.outstandingAddrs.length < s.maxNumOutstandingAddrs
  parked : 1 ≤ s.maxNumOutstandingAddrs → ℓ = .blocked → s.outstandingAddrs ≠ []

namespace Booked

theorem keep (h : Booked s ℓ) (ha : s'.outstandingAddrs = s.outstandingAddrs)
    (ho : s'.outstanding = s.outstanding)
    (hm : s'.maxNumOutstandingAddrs = s.maxNumOutstandingAddrs)
    (hn : s'.scheduled .noResponse = s.scheduled .noResponse)
    (hr : 1 ≤ s.maxNumOutstandingAddrs → ∀ r, ℓ' = .ready r → r.cmd ≠ .stall →
      s.outstandingAddrs.length < s.maxNumOutstandingAddrs)
    (hb : s'.blocked = true → ℓ' ≠ .blocked → s.blocked = true ∧ ℓ ≠ .blocked)
    (hp : 1 ≤ s.maxNumOutstandingAddrs → ℓ' = .blocked → s.outstandingAddrs ≠ []) :
    Booked s' ℓ' where
  addrs := by
    rw [ha, ho]
    exact h.addrs
  watched := by
    rw [hn, ha]
    exact h.watched
  room hm' := by
    rw [ha, hm] at *
    exact h.room hm'
  access hm' r hr' hc := by
    rw [ha, hm] at *
    exact hr hm' r hr' hc
  resumed hm' hb' hℓ := by
    rw [ha, hm] at *
    obtain ⟨h₁, h₂⟩ := hb hb' hℓ
    exact h.resumed hm' h₁ h₂
  parked hm' hℓ := by
    rw [ha]
    exact hp (hm ▸ hm') hℓ

theorem idle (h : Booked s ℓ) (ha : s'.outstandingAddrs = s.outstandingAddrs)
    (ho : s'.outstanding = s.outstanding)
    (hm : s'.maxNumOutstandingAddrs = s.maxNumOutstandingAddrs)
    (hn : s'.scheduled .noResponse = s.scheduled .noResponse) (hb : s'.blocked = false)
    (hr : ∀ r, ℓ' ≠ .ready r) (hp : ℓ' ≠ .blocked) : Booked s' ℓ' := by
  refine h.keep ha ho hm hn (fun _ r hℓ => absurd hℓ (hr r)) (fun hc => ?_) fun _ hℓ => absurd hℓ hp
  rw [hb] at hc
  cases hc

theorem send {r : Req} (pkt : Packet) (h : Booked s (.ready r)) (hc : r.cmd ≠ .stall)
    (hpkt : pkt.paddr = s.paddr) (ha : s'.outstandingAddrs = (s.sent r).outstandingAddrs)
    (ho : s'.outstanding.Perm (pkt :: s.outstanding))
    (hm : s'.maxNumOutstandingAddrs = s.maxNumOutstandingAddrs)
    (hn : s'.scheduled .noResponse = true) (hb : s'.blocked = false) (hℓ : ∀ r, ℓ' ≠ .ready r)
    (hℓ' : ℓ' ≠ .blocked) : Booked s' ℓ' where
  addrs := by
    rw [ha]
    refine List.Perm.trans ?_ (ho.map Packet.paddr).symm
    simp only [sent, setFlag, map_append, List.map_cons, map_nil]
    rw [hpkt]
    exact (perm_append_singleton _ _).trans (h.addrs.cons _)
  watched := by
    rw [hn, ha]
    simp [sent, setFlag]
  room hm' := by
    have hlt := h.access (hm ▸ hm') r rfl hc
    rw [ha, hm]
    simp only [sent, setFlag, length_append, length_singleton]
    omega
  access _ r hr _ := absurd hr (hℓ r)
  resumed _ hb' _ := absurd (hb'.symm.trans hb) (by simp)
  parked _ hp := absurd hp hℓ'

theorem receive (h : Booked s ℓ) (pkt : Packet)
    (hf : (addrInFlight pkt.paddr true s.outstandingAddrs).1 = true)
    (ha : s'.outstandingAddrs = (s.received pkt).outstandingAddrs)
    (ho : s.outstanding.Perm (pkt :: s'.outstanding))
    (hm : s'.maxNumOutstandingAddrs = s.maxNumOutstandingAddrs)
    (hn : s'.scheduled .noResponse = (s.received pkt).scheduled .noResponse) (hℓ : ℓ' ≠ .blocked) :
    Booked s' ℓ' := by
  have hlen := addrInFlight_length hf
  have ha' : s'.outstandingAddrs = (addrInFlight pkt.paddr true s.outstandingAddrs).2 := ha
  have hlt : 1 ≤ s.maxNumOutstandingAddrs →
      s'.outstandingAddrs.length < s.maxNumOutstandingAddrs := by
    intro hm'
    have := h.room hm'
    rw [ha']
    omega
  refine ⟨?_, ?_, ?_, ?_, ?_, fun _ hp => absurd hp hℓ⟩
  · have hp := (addrInFlight_perm hf).symm.trans (h.addrs.trans (ho.map Packet.paddr))
    rw [ha']
    exact hp.cons_inv
  · rw [hn, ha, received_noResponse]
    simp
  · intro hm'
    rw [hm] at hm' ⊢
    exact (hlt hm').le
  · intro hm' _ _ _
    rw [hm] at hm' ⊢
    exact hlt hm'
  · intro hm' _ _
    rw [hm] at hm' ⊢
    exact hlt hm'

end Booked

theorem TRE.full_eq_false :
    s.full = false ↔ s.outstandingAddrs.length < s.maxNumOutstandingAddrs := by
  simp [full]

theorem memCmd_ne_stall {c : TRECmd} {m : MemCmd} (h : memCmd c = .ok m) : c ≠ .stall := by
  rintro rfl
  cases h

theorem eraseIdx_perm {k : ℕ} (h : s.inFlight[k]? = some pkt) :
    s.outstanding.Perm (pkt :: (s.inFlight.eraseIdx k ++ s.retryPkt.toList)) := by
  obtain ⟨hlt, rfl⟩ := List.getElem?_eq_some_iff.mp h
  exact (getElem_cons_eraseIdx_perm hlt).symm.append_right _

theorem OwnMove.booked (h : OwnMove ℓ s e ℓ' s') (hp : Placed s ℓ) (hb : Booked s ℓ) :
    Booked s' ℓ' := by
  cases h with
  | firePrim p hs =>
    obtain rfl := (hp.prim p).mp hs
    have hnb := hp.not_blocked (by simp)
    exact hb.idle rfl rfl rfl (by simp) hnb (by simp) (by simp)
  | stayBlocked hbl hd =>
    obtain ⟨a, -, ha⟩ := hd
    exact hb.keep rfl rfl rfl rfl (by simp) (fun _ hc => absurd rfl hc)
      (fun _ _ => exists_of_inFlightAddr ha)
  | unblock hbl hd =>
    exact hb.keep rfl rfl rfl rfl (fun hm _ _ _ => hb.resumed hm hbl (by simp))
      (by simp [TRE.unblock]) (by simp)
  | parkAccess hbl he hz =>
    refine hb.keep rfl rfl rfl rfl (by simp) (fun _ hc => absurd rfl hc) (fun hm _ => ?_)
    rcases hz with hz | hz
    · intro hn
      simp only [full, hn, length_nil, ge_iff_le, decide_eq_true_eq] at hz
      omega
    · exact exists_of_hazard hz
  | readyAccess hbl he hf hz =>
    refine hb.keep rfl rfl rfl rfl (fun _ _ _ _ => full_eq_false.mp hf) (fun hc => ?_) (by simp)
    exact Bool.noConfusion (hc.symm.trans hbl)
  | parkStall hbl he hz =>
    exact hb.keep rfl rfl rfl rfl (by simp) (fun _ hc => absurd rfl hc)
      (fun _ _ => exists_of_hazard hz)
  | readyStall hbl he hz =>
    refine hb.keep rfl rfl rfl rfl ?_ (fun hc => ?_) (by simp)
    · rintro hm r ⟨⟩ hc
      exact absurd rfl hc
    · exact Bool.noConfusion (hc.symm.trans hbl)
  | readPrim hbl he =>
    exact hb.idle rfl rfl rfl rfl hbl (by simp) (by simp)
  | delay p hs =>
    have hnb := hp.not_blocked (by simp)
    exact hb.idle rfl rfl rfl (by simp) hnb (by simp) (by simp)
  | startStall hc hs =>
    have hnb := hp.not_blocked (by simp)
    exact hb.idle rfl rfl rfl (by simp [ticking]) hnb (by simp) (by simp)
  | @sendAccepted _ r cmd hc hs =>
    refine hb.send (s.packet r cmd) (memCmd_ne_stall hc) rfl rfl ?_ rfl
      (by simp [ticking, sent]) (hp.not_blocked (by simp)) (by simp) (by simp)
    have hr : s.retryPkt = none := (hp.idle rfl).retry
    simp [outstanding, ticking, setFlag, sent, hr]
  | @sendRefused _ r cmd hc =>
    refine hb.send (s.packet r cmd) (memCmd_ne_stall hc) rfl rfl ?_ rfl (by simp [sent])
      (hp.not_blocked (by simp)) (by simp) (by simp)
    have hr : s.retryPkt = none := (hp.idle rfl).retry
    simp [outstanding, setFlag, sent, hr]
  | @sendAtomic _ r cmd hc hs =>
    -- the packet is created, and completed before anything else happens
    have hr : s.retryPkt = none := (hp.idle rfl).retry
    have hnb := hp.not_blocked (by simp)
    let v : TRE := { s.sent r with inFlight := s.inFlight ++ [s.packet r cmd] }
    have hv : Booked v .tick := by
      refine hb.send (s.packet r cmd) (memCmd_ne_stall hc) rfl rfl ?_ rfl
        (by simp [v, sent]) hnb
        (by simp) (by simp)
      simp [v, outstanding, setFlag, sent, hr]
    refine hv.receive (s.packet r cmd) ?_ rfl ?_ rfl (by simp [v, ticking]; rfl) (by simp)
    · rw [addrInFlight_fst]
      simp [v, sent, setFlag, packet]
    · simp [v, outstanding, setFlag, sent, received, ticking, hr]
  | stats p hne hs =>
    have hnb := hp.not_blocked (by simp)
    exact hb.idle rfl rfl rfl (by simp [ticking]) hnb (by simp) (by simp)
  | rewind hq hs =>
    have hnb := hp.not_blocked (by simp)
    exact hb.idle rfl rfl rfl (by simp [ticking, rewound]) hnb (by simp) (by simp)
  | response hk hf hn ht =>
    refine hb.receive _ hf rfl (eraseIdx_perm hk) rfl rfl ?_
    rintro rfl
    exact ht ⟨(hp.idle rfl).tick, hp.parked rfl⟩
  | responseTick hk hf hn ht hbl =>
    exact hb.receive _ hf rfl (eraseIdx_perm hk) rfl (by simp [ticking]) (by simp)
  | retried hq hbl ht =>
    obtain rfl := hp.retry.mp (by simp [hq])
    refine hb.idle rfl ?_ rfl (by simp [ticking]) hbl (by simp) (by simp)
    simp [outstanding, ticking, setFlag, hq]
  | retriedBlocked hq hbl =>
    obtain rfl := hp.retry.mp (by simp [hq])
    exact absurd hbl (by simp [hp.not_blocked (by simp)])

theorem EngineMove.booked (h : EngineMove ℓ s e ℓ' s') (hp : Placed s ℓ) (hb : Booked s ℓ) :
    Booked s' ℓ' := by
  cases h with
  | own h => exact h.booked hp hb
  | fireTick hs =>
    obtain rfl := hp.tick.mp hs
    exact hb.keep rfl rfl rfl (by simp) (by simp) (fun hc _ => ⟨hc, (by simp)⟩) (by simp)
  | halt hbl hr =>
    exact hb.idle rfl rfl rfl rfl hbl (by simp) (by simp)
  | finish p hs clear hclear =>
    have hnb := hp.not_blocked (by simp)
    have ht : Booked s.ticking .tick := by
      exact hb.idle rfl rfl rfl (by simp [ticking]) hnb (by simp) (by simp)
    rcases hclear with rfl | rfl | rfl
    all_goals exact ht.keep rfl rfl rfl rfl (by simp) (fun hc hℓ => ⟨hc, hℓ⟩) (by simp)
  | queueUp a | arrive a | sleep | queueWait =>
    have hnb := hp.not_blocked (by simp)
    exact hb.idle rfl rfl rfl rfl hnb (by simp) (by simp)
  | resume hℓ hs =>
    have hnb : s.blocked = false := by
      rcases hℓ with ⟨a, rfl⟩ | ⟨a, rfl⟩ | rfl
      all_goals exact hp.not_blocked (by simp)
    exact hb.idle rfl rfl rfl (by simp [ticking]) hnb (by simp) (by simp)
  | requeue hs =>
    have hnb := hp.not_blocked (by simp)
    exact hb.idle rfl rfl rfl (by simp) hnb (by simp) (by simp)

end HetSim.Replay
