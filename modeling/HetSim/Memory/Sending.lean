import HetSim.Memory.PacketQueue

/-!
# Packets are sent once, in order and not early

The packets sent, then those that wait, are all that arrived, in an order that depends on
`forceOrder`. Between two events the send event or a retry will send the first that waits.
-/

namespace HetSim.Memory
open Checked Runs List

theorem pairwise_insert {α : Type*} {R : α → α → Prop} {d : α} {l l' : List α}
    (h : (l ++ l').Pairwise R) (hl : ∀ a ∈ l, R a d) (hl' : ∀ b ∈ l', R d b) :
    (l ++ d :: l').Pairwise R := by
  obtain ⟨hp, hp', hcross⟩ := pairwise_append.mp h
  refine pairwise_append.mpr ⟨hp, pairwise_cons.mpr ⟨hl', hp'⟩, fun a ha b hb => ?_⟩
  rcases mem_cons.mp hb with rfl | hb
  · exact hl a ha
  · exact hcross a ha b hb

def DeferredPacket.Before (a b : DeferredPacket) : Prop :=
  a.tick < b.tick ∨ a.tick = b.tick ∧ a.arrival < b.arrival

def DeferredPacket.InOrder (a b : DeferredPacket) : Prop :=
  a.pkt.matchAddr b.pkt = true → a.arrival < b.arrival

namespace PacketQueue

variable {p : PacketQueueParams} {q t : PacketQueue}

def Behind (forceOrder : Bool) (dp d : DeferredPacket) : Prop :=
  (forceOrder = true ∧ d.pkt.matchAddr dp.pkt = true) ∨ d.tick ≤ dp.tick

variable {dp d : DeferredPacket} {pkt : Packet} {when : ℕ}

variable {forceOrder : Bool} {l ds : List DeferredPacket} {queued : List (Packet × ℕ)}
  {sendTiming : SendResult}

theorem emplace_some
    (h : emplace forceOrder dp l = some ds) : ∃ back d front, l = back ++ d :: front ∧
      ds = back ++ dp :: d :: front ∧ Behind forceOrder dp d ∧
        ∀ b ∈ back, ¬ Behind forceOrder dp b := by
  induction l generalizing ds with
  | nil => exact nomatch h
  | cons c l ih =>
    have hiff : ((forceOrder && c.pkt.matchAddr dp.pkt) || decide (c.tick ≤ dp.tick)) = true ↔
        Behind forceOrder dp c := by
      simp [Behind]
    rw [emplace] at h
    split_ifs at h with hc
    · obtain rfl := Option.some.inj h
      exact ⟨[], c, l, rfl, rfl, hiff.mp hc, by simp⟩
    · obtain ⟨ds', hds, rfl⟩ := Option.map_eq_some_iff.mp h
      obtain ⟨back, d, front, rfl, rfl, hd, hback⟩ := ih hds
      refine ⟨c :: back, d, front, rfl, rfl, hd, fun b hb => ?_⟩
      rcases mem_cons.mp hb with rfl | hb
      · exact fun hbehind => hc (hiff.mpr hbehind)
      · exact hback b hb

theorem emplace_none
    (h : emplace forceOrder dp l = none) (hd : d ∈ l) : ¬ Behind forceOrder dp d := by
  induction l with
  | nil => exact absurd hd not_mem_nil
  | cons c l ih =>
    rw [emplace] at h
    split_ifs at h with hc
    rcases mem_cons.mp hd with rfl | hd
    · intro hbehind
      exact hc (by simpa [Behind] using hbehind)
    · exact ih (Option.map_eq_none_iff.mp h) hd

def packets (q : PacketQueue) : List DeferredPacket := q.sent.map Prod.fst ++ q.transmitList

structure Ordered (p : PacketQueueParams) (q : PacketQueue) : Prop where
  perm : q.packets.Perm q.arrived
  arrival : q.arrived.map DeferredPacket.arrival = List.range q.arrived.length
  early : ∀ x ∈ q.sent, x.1.tick ≤ x.2 ∧ x.2 ≤ q.curTick
  below : ∀ d ∈ q.transmitList, d.tick < MaxTick
  tick : p.forceOrder = false → q.packets.Pairwise DeferredPacket.Before
  addr : p.forceOrder = true → q.packets.Pairwise DeferredPacket.InOrder

theorem Ordered.arrival_lt (h : Ordered p q) (hd : d ∈ q.packets) :
    d.arrival < q.arrived.length := by
  have hmem := mem_map_of_mem (f := DeferredPacket.arrival) (h.perm.mem_iff.mp hd)
  rw [h.arrival] at hmem
  exact mem_range.mp hmem

theorem Ordered.insert (h : Ordered p q) {front back : List DeferredPacket}
    (hlist : q.transmitList = front ++ back) (harrival : dp.arrival = q.arrived.length)
    (hnow : q.curTick ≤ dp.tick) (hbelow : dp.tick < MaxTick)
    (hfront : p.forceOrder = false → ∀ d ∈ front, d.tick ≤ dp.tick)
    (hback : ∀ d ∈ back, ¬ Behind p.forceOrder dp d)
    (htlist : t.transmitList = front ++ dp :: back) (harrived : t.arrived = q.arrived ++ [dp])
    (hsent : t.sent = q.sent) (hcur : t.curTick = q.curTick) : Ordered p t := by
  have hold : q.packets = (q.sent.map Prod.fst ++ front) ++ back := by
    rw [packets, hlist, append_assoc]
  have hnew : t.packets = (q.sent.map Prod.fst ++ front) ++ dp :: back := by
    rw [packets, htlist, hsent, append_assoc]
  have hmem : ∀ d ∈ q.sent.map Prod.fst ++ front, d.arrival < dp.arrival := by
    intro d hd
    rw [harrival]
    exact h.arrival_lt (hold ▸ mem_append_left _ hd)
  exact {
    perm := by
      have hperm := h.perm
      rw [hold] at hperm
      rw [hnew, harrived]
      exact perm_middle.trans ((hperm.cons dp).trans (perm_append_singleton _ _).symm)
    arrival := by
      rw [harrived, map_append, h.arrival, length_append, length_singleton,
        range_succ, map_singleton, harrival]
    early := by
      rw [hsent, hcur]
      exact h.early
    below := by
      intro d hd
      rw [htlist] at hd
      rcases mem_append.mp hd with hd | hd
      · exact h.below d (hlist ▸ mem_append_left _ hd)
      · rcases mem_cons.mp hd with rfl | hd
        · exact hbelow
        · exact h.below d (hlist ▸ mem_append_right _ hd)
    tick := by
      intro hforce
      rw [hnew]
      refine pairwise_insert (hold ▸ h.tick hforce) (fun d hd => ?_) (fun d hd => ?_)
      · have hle : d.tick ≤ dp.tick := by
          rcases mem_append.mp hd with hs | hf
          · obtain ⟨x, hx, rfl⟩ := mem_map.mp hs
            have := h.early x hx
            omega
          · exact hfront hforce d hf
        have hlt := hmem d hd
        simp only [DeferredPacket.Before]
        omega
      · have hnot := hback d hd
        simp only [Behind, not_or] at hnot
        simp only [DeferredPacket.Before]
        omega
    addr := by
      intro hforce
      rw [hnew]
      refine pairwise_insert (hold ▸ h.addr hforce) (fun d hd _ => hmem d hd)
        (fun d hd hmatch => ?_)
      refine absurd (Or.inl ⟨hforce, ?_⟩) (hback d hd)
      simp only [Packet.matchAddr, decide_eq_true_eq] at hmatch ⊢
      exact ⟨hmatch.1.symm, hmatch.2.symm⟩ }

/-! ## The send event -/

structure Armed (q : PacketQueue) : Prop where
  event : ∀ w ∈ q.sendEvent, q.curTick ≤ w ∧ ∃ d ∈ q.transmitList.head?, d.tick ≤ w
  waiting : q.waitingOnRetry = true →
    q.sendEvent = none ∧ ∃ d ∈ q.transmitList.head?, d.tick ≤ q.curTick

theorem schedSendEvent_arms (q : PacketQueue) (when : ℕ) (hwaiting : q.waitingOnRetry = false)
    (hwhen : when ≠ MaxTick) (hevent : ∀ w ∈ q.sendEvent, q.curTick ≤ w ∧ when ≤ w) : ∃ w,
      q.schedSendEvent when = .ok { q with sendEvent := some w } ∧ q.curTick ≤ w ∧ when ≤ w := by
  rw [schedSendEvent, if_neg (by rw [hwaiting]; exact Bool.false_ne_true), if_pos hwhen]
  have hat : q.scheduleAt (max when (q.curTick + 1)) =
      .ok { q with sendEvent := some (max when (q.curTick + 1)) } := by
    rw [scheduleAt, require, if_pos (by omega)]
    rfl
  cases hq : q.sendEvent with
  | none => exact ⟨_, hat, by omega, le_max_left _ _⟩
  | some w =>
    dsimp only
    by_cases hlt : max when (q.curTick + 1) < w
    · rw [if_pos hlt]
      exact ⟨_, hat, by omega, le_max_left _ _⟩
    · rw [if_neg hlt]
      refine ⟨w, ?_, hevent w hq⟩
      rw [← hq]
      rfl

structure Queued (p : PacketQueueParams) (q t : PacketQueue) : Prop where
  ordered : Ordered p t
  armed : Armed t
  nonempty : t.transmitList ≠ []
  event : q.transmitList = [] ∨ q.sendEvent ≠ none → t.waitingOnRetry = true ∨ t.sendEvent ≠ none
  waitingOnRetry : t.waitingOnRetry = q.waitingOnRetry
  curTick : t.curTick = q.curTick
  drainState : t.drainState = q.drainState

theorem emplaced (hord : Ordered p q)
    (harm : Armed q) (hnow : q.curTick ≤ when) (hbelow : when < MaxTick)
    (h : emplace p.forceOrder ⟨when, pkt, q.arrived.length⟩ q.transmitList.reverse = some ds) :
    Queued p q { q with
      arrived := q.arrived ++ [⟨when, pkt, q.arrived.length⟩], transmitList := ds.reverse } := by
  obtain ⟨back, d, front, hlist, rfl, hd, hback⟩ := emplace_some h
  have hlist : q.transmitList = (front.reverse ++ [d]) ++ back.reverse := by
    rw [← reverse_reverse q.transmitList, hlist]
    simp
  have hnew : (back ++ ⟨when, pkt, q.arrived.length⟩ :: d :: front).reverse =
      (front.reverse ++ [d]) ++ ⟨when, pkt, q.arrived.length⟩ :: back.reverse := by
    simp
  rw [hnew]
  have hhead : ((front.reverse ++ [d]) ++ ⟨when, pkt, q.arrived.length⟩ :: back.reverse).head? =
      q.transmitList.head? := by
    rw [hlist]
    cases front.reverse <;> rfl
  refine ⟨?_, ?_, by simp, ?_, rfl, rfl, rfl⟩
  · refine hord.insert hlist rfl hnow hbelow (fun hforce x hx => ?_) ?_ rfl rfl rfl rfl
    · -- Without `forceOrder` the packets before `d` have no later tick than `d`.
      have htick : d.tick ≤ when := by
        rcases hd with hd | hd
        · exact absurd hd.1 (by rw [hforce]; exact Bool.false_ne_true)
        · exact hd
      rcases mem_append.mp hx with hx | hx
      · have hpairwise := hord.tick hforce
        rw [packets, hlist, append_assoc, pairwise_append] at hpairwise
        have hbefore := (pairwise_append.mp hpairwise.2.1).2.2 x hx d (by simp)
        simp only [DeferredPacket.Before] at hbefore
        dsimp only
        omega
      · rw [mem_singleton.mp hx]
        exact htick
    · exact fun x hx => hback x (mem_reverse.mp hx)
  · constructor
    · dsimp only
      rw [hhead]
      exact harm.event
    · dsimp only
      rw [hhead]
      exact harm.waiting
  · rintro (hempty | hevent)
    · rw [hlist] at hempty
      exact absurd hempty (by simp)
    · exact .inr hevent

theorem emplaced_front (hord : Ordered p q) (harm : Armed q)
    (hnow : q.curTick ≤ when) (hbelow : when < MaxTick)
    (h : emplace p.forceOrder ⟨when, pkt, q.arrived.length⟩ q.transmitList.reverse = none) :
    ∃ t, schedSendEvent { q with
        arrived := q.arrived ++ [⟨when, pkt, q.arrived.length⟩]
        transmitList := ⟨when, pkt, q.arrived.length⟩ :: q.transmitList } when = .ok t ∧
      Queued p q t := by
  have hbehind : ∀ d ∈ q.transmitList, ¬ Behind p.forceOrder ⟨when, pkt, q.arrived.length⟩ d :=
    fun d hd => emplace_none h (mem_reverse.mpr hd)
  have hlater : ∀ d ∈ q.transmitList.head?, when < d.tick := by
    intro d hd
    have hnot := hbehind d (mem_of_mem_head? hd)
    simp only [Behind, not_or] at hnot
    omega
  have hwaiting : q.waitingOnRetry = false := by
    rw [Bool.eq_false_iff]
    intro hwaiting
    obtain ⟨-, d, hd, htick⟩ := harm.waiting hwaiting
    have := hlater d hd
    omega
  obtain ⟨w, hok, hnow', hle⟩ := schedSendEvent_arms { q with
    arrived := q.arrived ++ [⟨when, pkt, q.arrived.length⟩]
    transmitList := ⟨when, pkt, q.arrived.length⟩ :: q.transmitList } when hwaiting
    hbelow.ne fun w hw => by
      obtain ⟨hcur, d, hd, htick⟩ := harm.event w hw
      have := hlater d hd
      exact ⟨hcur, by omega⟩
  refine ⟨_, hok, ?_, ?_, cons_ne_nil _ _, fun _ => .inr (Option.some_ne_none w), rfl, rfl, rfl⟩
  · exact hord.insert (nil_append _).symm rfl hnow hbelow
      (fun _ d hd => absurd hd not_mem_nil) hbehind rfl rfl rfl rfl
  · constructor
    · intro w' hw
      obtain rfl : w = w' := Option.some.inj hw
      exact ⟨hnow', _, rfl, hle⟩
    · exact fun htrue => absurd (hwaiting.symm.trans htrue) Bool.false_ne_true

theorem schedSendTiming_queued (hord : Ordered p q) (harm : Armed q)
    (hbelow : when < MaxTick) (h : q.schedSendTiming p pkt when = .ok t) : Queued p q t := by
  simp only [schedSendTiming, bind_eq_ok, require_eq_ok] at h
  obtain ⟨-, hnow, -, -, -, -, h⟩ := h
  cases hemplace : emplace p.forceOrder ⟨when, pkt, q.arrived.length⟩ q.transmitList.reverse with
  | some ds =>
    rw [hemplace] at h
    obtain rfl := pure_eq_ok.mp h
    exact emplaced hord harm hnow hbelow hemplace
  | none =>
    rw [hemplace] at h
    obtain ⟨t', ht', hqueued⟩ := emplaced_front hord harm hnow hbelow hemplace
    rw [ht'] at h
    cases h
    exact hqueued

def Outside : QueueFault → Prop
  | .inPast | .expressSnoop | .grownTooLong | .notWaiting | .noSuchEvent => True
  | _ => False

theorem schedSendTiming_raises (hord : Ordered p q) (harm : Armed q)
    (hbelow : when < MaxTick) : Raises (q.schedSendTiming p pkt when) Outside := by
  refine .bind (.require fun _ => trivial) fun _ hnow => ?_
  refine .bind (.require fun _ => trivial) fun _ _ => ?_
  refine .bind (.require fun _ => trivial) fun _ _ => ?_
  rw [require_eq_ok] at hnow
  dsimp only
  cases hemplace : emplace p.forceOrder ⟨when, pkt, q.arrived.length⟩ q.transmitList.reverse with
  | some ds => exact .pure _
  | none =>
    obtain ⟨t', ht', -⟩ := emplaced_front hord harm hnow hbelow hemplace
    dsimp only
    rw [ht']
    exact .ok t'

/-! ## Between events -/

structure Sound (p : PacketQueueParams) (q : PacketQueue) : Prop where
  ordered : Ordered p q
  armed : Armed q
  live : q.transmitList ≠ [] → q.waitingOnRetry = true ∨ q.sendEvent ≠ none
  draining : q.drainState = .draining → q.transmitList ≠ []

structure Sending (p : PacketQueueParams) (q : PacketQueue) : Prop where
  ordered : Ordered p q
  armed : Armed q
  waitingOnRetry : q.waitingOnRetry = false

theorem Sending.schedAll (h : Sending p q)
    (hbelow : ∀ x ∈ queued, x.2 < MaxTick) (hrun : q.schedAll p queued = .ok t) : Sending p t := by
  refine Meets.invariant (C := fun _ x => x.2 < MaxTick) ?_ h (meets_of_forall hbelow) hrun
  intro q x t hq hx ht
  have hqueued := schedSendTiming_queued hq.ordered hq.armed hx ht
  exact ⟨hqueued.ordered, hqueued.armed, hqueued.waitingOnRetry.trans hq.waitingOnRetry⟩

theorem Sending.schedAll_raises (h : Sending p q)
    (hbelow : ∀ x ∈ queued, x.2 < MaxTick) : Raises (q.schedAll p queued) Outside := by
  refine Meets.raises (C := fun _ x => x.2 < MaxTick) (P := Sending p) ?_ ?_ h
    (meets_of_forall hbelow)
  · intro q x t hq hx ht
    have hqueued := schedSendTiming_queued hq.ordered hq.armed hx ht
    exact ⟨hqueued.ordered, hqueued.armed, hqueued.waitingOnRetry.trans hq.waitingOnRetry⟩
  · intro q x hq hx
    exact schedSendTiming_raises hq.ordered hq.armed hx

theorem Sending.finish (h : Sending p q) :
    ∃ t, q.schedSendEvent q.deferredPacketReadyTime = .ok t ∧ Sound p t := by
  cases hlist : q.transmitList with
  | nil =>
    have hevent : q.sendEvent = none := by
      rw [Option.eq_none_iff_forall_not_mem]
      intro w hw
      obtain ⟨-, d, hd, -⟩ := h.armed.event w hw
      rw [hlist] at hd
      exact nomatch hd
    have htime : q.deferredPacketReadyTime = MaxTick := by
      rw [deferredPacketReadyTime, hlist]
      rfl
    rw [htime, schedSendEvent, if_neg (by rw [h.waitingOnRetry]; exact Bool.false_ne_true),
      if_neg (not_not.mpr rfl)]
    by_cases hdrain : q.drainState = .draining
    · rw [if_pos ⟨hdrain, hlist, hevent⟩]
      exact ⟨_, rfl, ⟨h.ordered.perm, h.ordered.arrival, h.ordered.early, h.ordered.below,
        h.ordered.tick, h.ordered.addr⟩, ⟨h.armed.event, h.armed.waiting⟩,
        fun hne => absurd hlist hne, nofun⟩
    · rw [if_neg fun hand => hdrain hand.1]
      exact ⟨q, rfl, h.ordered, h.armed, fun hne => absurd hlist hne, fun heq => absurd heq hdrain⟩
  | cons d ds =>
    have hhead : q.transmitList.head? = some d := by rw [hlist]; rfl
    have htime : q.deferredPacketReadyTime = d.tick := by
      rw [deferredPacketReadyTime, hhead]
      rfl
    have hbelow : d.tick < MaxTick := h.ordered.below d (mem_of_mem_head? hhead)
    obtain ⟨w, hok, hnow, hle⟩ := schedSendEvent_arms q d.tick h.waitingOnRetry hbelow.ne
      fun w hw => by
        obtain ⟨hcur, d', hd', htick⟩ := h.armed.event w hw
        obtain rfl : d = d' := Option.some.inj (hhead.symm.trans hd')
        exact ⟨hcur, htick⟩
    rw [htime]
    refine ⟨_, hok, ⟨h.ordered.perm, h.ordered.arrival, h.ordered.early, h.ordered.below,
      h.ordered.tick, h.ordered.addr⟩, ⟨fun w' hw => ?_, fun htrue => ?_⟩,
      fun _ => .inr (Option.some_ne_none w), fun _ hnil => ?_⟩
    · obtain rfl : w = w' := Option.some.inj hw
      exact ⟨hnow, d, hhead, hle⟩
    · exact absurd (h.waitingOnRetry.symm.trans htrue) Bool.false_ne_true
    · rw [hlist] at hnil
      exact cons_ne_nil _ _ hnil

theorem Ordered.send (h : Ordered p q) (hd : d ∈ q.transmitList.head?)
    (htick : d.tick ≤ q.curTick) : Ordered p { q with
      transmitList := q.transmitList.tail
      sent := q.sent ++ [(d, q.curTick)] } := by
  have hlist : q.transmitList = d :: q.transmitList.tail := (List.cons_head?_tail hd).symm
  have hpackets : (q.sent ++ [(d, q.curTick)]).map Prod.fst ++ q.transmitList.tail = q.packets := by
    rw [map_append, append_assoc, map_singleton, singleton_append, ← hlist]
    rfl
  exact {
    perm := by
      rw [packets, hpackets]
      exact h.perm
    arrival := h.arrival
    early := by
      intro x hx
      rcases mem_append.mp hx with hx | hx
      · exact h.early x hx
      · rw [mem_singleton.mp hx]
        exact ⟨htick, le_rfl⟩
    below := fun x hx => h.below x (mem_of_mem_tail hx)
    tick := by
      rw [packets, hpackets]
      exact h.tick
    addr := by
      rw [packets, hpackets]
      exact h.addr }

def SendResult.Below : SendResult → Prop
  | .accepted queued => ∀ x ∈ queued, x.2 < MaxTick
  | .refused => True

def Below : QueueEvent → Prop
  | .schedSendTiming _ when => when < MaxTick
  | .processSendEvent sendTiming | .retry sendTiming => SendResult.Below sendTiming
  | _ => True

instance : ∀ r, Decidable (SendResult.Below r)
  | .accepted queued => inferInstanceAs (Decidable (∀ x ∈ queued, x.2 < MaxTick))
  | .refused => isTrue trivial

instance : ∀ e, Decidable (Below e)
  | .schedSendTiming _ when => inferInstanceAs (Decidable (when < MaxTick))
  | .processSendEvent r | .retry r => inferInstanceAs (Decidable (SendResult.Below r))
  | .advance _ | .drain | .drainResume => isTrue trivial

theorem send_sound (hord : Ordered p q)
    (hevent : q.sendEvent = none) (hwaiting : q.waitingOnRetry = false)
    (hd : d ∈ q.transmitList.head?) (htick : d.tick ≤ q.curTick)
    (hbelow : SendResult.Below sendTiming) : Raises (q.send p d sendTiming) Outside ∧
      ∀ t, q.send p d sendTiming = .ok t → Sound p t := by
  cases sendTiming with
  | refused =>
    refine ⟨.pure _, fun t ht => ?_⟩
    obtain rfl := pure_eq_ok.mp ht
    refine ⟨⟨hord.perm, hord.arrival, hord.early, hord.below, hord.tick, hord.addr⟩,
      ⟨fun w hw => ?_, fun _ => ⟨hevent, d, hd, htick⟩⟩, fun _ => .inl rfl, fun _ hnil => ?_⟩
    · exact absurd (hevent.symm.trans hw) nofun
    · have hnil : q.transmitList = [] := hnil
      rw [hnil] at hd
      exact nomatch hd
  | accepted queued =>
    have hsending : Sending p { q with
        transmitList := q.transmitList.tail, sent := q.sent ++ [(d, q.curTick)] } :=
      ⟨hord.send hd htick, ⟨fun w hw => absurd (hevent.symm.trans hw) nofun,
        fun htrue => absurd (hwaiting.symm.trans htrue) Bool.false_ne_true⟩, hwaiting⟩
    constructor
    · refine .bind (hsending.schedAll_raises hbelow) fun r hr => ?_
      obtain ⟨t, ht, -⟩ := (hsending.schedAll hbelow hr).finish
      rw [ht]
      exact .ok t
    · intro t ht
      obtain ⟨r, hr, ht⟩ := bind_eq_ok.mp ht
      obtain ⟨t', ht', hsound⟩ := (hsending.schedAll hbelow hr).finish
      rw [ht'] at ht
      cases ht
      exact hsound

theorem sendDeferredPacket_sound (hord : Ordered p q)
    (hevent : q.sendEvent = none) (hwaiting : q.waitingOnRetry = false)
    (hready : ∃ d ∈ q.transmitList.head?, d.tick ≤ q.curTick)
    (hbelow : SendResult.Below sendTiming) :
    Raises (q.sendDeferredPacket p sendTiming) Outside ∧
      ∀ t, q.sendDeferredPacket p sendTiming = .ok t → Sound p t := by
  obtain ⟨d, hd, htick⟩ := hready
  have hdemand : demand q.transmitList.head? QueueFault.notReady = .ok d := demand_eq_ok.mpr hd
  have hstart : q.sendDeferredPacket p sendTiming = q.send p d sendTiming := by
    rw [sendDeferredPacket, require, if_pos (by rw [hwaiting]; rfl), ok_bind, hdemand, ok_bind,
      require, if_pos htick, ok_bind]
  rw [hstart]
  exact send_sound hord hevent hwaiting hd htick hbelow

theorem step_sound {e : QueueEvent} (h : Sound p q) (hbelow : Below e) :
    Raises (q.step p e) Outside ∧ ∀ t, q.step p e = .ok t → Sound p t := by
  cases e with
  | advance tick =>
    refine ⟨.bind (.require fun _ => trivial) fun _ _ => .pure _, fun t ht => ?_⟩
    simp only [step, bind_eq_ok, require_eq_ok, pure_eq_ok, exists_const] at ht
    obtain ⟨⟨hle, -, hwhen⟩, rfl⟩ := ht
    refine ⟨⟨h.ordered.perm, h.ordered.arrival, fun x hx => ?_, h.ordered.below, h.ordered.tick,
      h.ordered.addr⟩, ⟨fun w hw => ⟨hwhen w hw, (h.armed.event w hw).2⟩, fun hwaiting => ?_⟩,
      h.live, h.draining⟩
    · obtain ⟨hearly, hpast⟩ := h.ordered.early x hx
      exact ⟨hearly, hpast.trans hle⟩
    · obtain ⟨hevent, d, hd, htick⟩ := h.armed.waiting hwaiting
      exact ⟨hevent, d, hd, htick.trans hle⟩
  | schedSendTiming pkt when =>
    refine ⟨schedSendTiming_raises h.ordered h.armed hbelow, fun t ht => ?_⟩
    have hqueued := schedSendTiming_queued h.ordered h.armed hbelow ht
    refine ⟨hqueued.ordered, hqueued.armed, fun _ => ?_, fun _ => hqueued.nonempty⟩
    by_cases hempty : q.transmitList = []
    · exact hqueued.event (.inl hempty)
    · rcases h.live hempty with hwaiting | hevent
      · exact .inl (hqueued.waitingOnRetry.trans hwaiting)
      · exact hqueued.event (.inr hevent)
  | processSendEvent sendTiming =>
    by_cases hevent : q.sendEvent = some q.curTick
    · obtain ⟨-, hready⟩ := h.armed.event _ hevent
      have hwaiting : q.waitingOnRetry = false := by
        rw [Bool.eq_false_iff]
        intro hwaiting
        cases (h.armed.waiting hwaiting).1.symm.trans hevent
      have hstart : q.step p (.processSendEvent sendTiming) =
          sendDeferredPacket p { q with sendEvent := none } sendTiming := by
        rw [step, require, if_pos hevent, ok_bind, processSendEvent, require,
          if_pos (by rw [hwaiting]; rfl), ok_bind]
      rw [hstart]
      exact sendDeferredPacket_sound ⟨h.ordered.perm, h.ordered.arrival, h.ordered.early,
        h.ordered.below, h.ordered.tick, h.ordered.addr⟩ rfl hwaiting hready hbelow
    · have hstart : q.step p (.processSendEvent sendTiming) = .error .noSuchEvent := by
        rw [step, require, if_neg hevent]
        rfl
      rw [hstart]
      exact ⟨.error trivial, (by simp)⟩
  | retry sendTiming =>
    by_cases hwaiting : q.waitingOnRetry = true
    · obtain ⟨hevent, hready⟩ := h.armed.waiting hwaiting
      have hstart : q.step p (.retry sendTiming) =
          sendDeferredPacket p { q with waitingOnRetry := false } sendTiming := by
        rw [step, retry, require, if_pos hwaiting, ok_bind]
      rw [hstart]
      exact sendDeferredPacket_sound ⟨h.ordered.perm, h.ordered.arrival, h.ordered.early,
        h.ordered.below, h.ordered.tick, h.ordered.addr⟩ hevent rfl hready hbelow
    · have hstart : q.step p (.retry sendTiming) = .error .notWaiting := by
        rw [step, retry, require, if_neg hwaiting]
        rfl
      rw [hstart]
      exact ⟨.error trivial, (by simp)⟩
  | drain =>
    refine ⟨.pure _, fun t ht => ?_⟩
    obtain rfl := pure_eq_ok.mp ht
    refine ⟨⟨h.ordered.perm, h.ordered.arrival, h.ordered.early, h.ordered.below, h.ordered.tick,
      h.ordered.addr⟩, ⟨h.armed.event, h.armed.waiting⟩, h.live, fun hdraining hnil => ?_⟩
    have hnil : q.transmitList = [] := hnil
    simp only [drain, hnil, if_true] at hdraining
    cases hdraining
  | drainResume =>
    refine ⟨.pure _, fun t ht => ?_⟩
    obtain rfl := pure_eq_ok.mp ht
    exact ⟨⟨h.ordered.perm, h.ordered.arrival, h.ordered.early, h.ordered.below, h.ordered.tick,
      h.ordered.addr⟩, ⟨h.armed.event, h.armed.waiting⟩, h.live, (by simp)⟩

theorem sound_init : Sound p init where
  ordered := ⟨.refl _, rfl, by simp [init], by simp [init], fun _ => .nil, fun _ => .nil⟩
  armed := ⟨by simp [init], by simp [init]⟩
  live h := absurd rfl h
  draining := by simp [init]

end PacketQueue

open PacketQueue

/-- Between events a packet waits exactly if the send event is scheduled or a retry is expected,
never both; no assert fails; every packet is sent once and not before its tick, in the order of
the ticks or, with `forceOrder`, of arrival for each address. -/
theorem packetQueue_sends {p : PacketQueueParams} {q : PacketQueue} {es : List QueueEvent}
    (h : run (step p) .init es = .ok q) (hbelow : ∀ e ∈ es, Below e) :
    (q.transmitList ≠ [] ↔ q.waitingOnRetry = true ∨ q.sendEvent ≠ none) ∧
    ¬(q.waitingOnRetry = true ∧ q.sendEvent ≠ none) ∧
    (∀ e, Below e → Raises (q.step p e) Outside) ∧
    (q.packets.Perm q.arrived ∧
      q.arrived.map DeferredPacket.arrival = List.range q.arrived.length) ∧
    (∀ x ∈ q.sent, x.1.tick ≤ x.2) ∧
    (p.forceOrder = false → q.packets.Pairwise DeferredPacket.Before) ∧
    (p.forceOrder = true → q.packets.Pairwise DeferredPacket.InOrder) := by
  have hs : Sound p q := Meets.invariant (C := fun _ => Below)
    (fun hs he ht => (step_sound hs he).2 _ ht) sound_init (meets_of_forall hbelow) h
  refine ⟨⟨hs.live, ?_⟩, fun hboth => hboth.2 (hs.armed.waiting hboth.1).1,
    fun e he => (step_sound hs he).1, ⟨hs.ordered.perm, hs.ordered.arrival⟩,
    fun x hx => (hs.ordered.early x hx).1, hs.ordered.tick, hs.ordered.addr⟩
  rintro (hwaiting | hevent) hnil
  · obtain ⟨-, d, hd, -⟩ := hs.armed.waiting hwaiting
    rw [hnil] at hd
    exact nomatch hd
  · obtain ⟨w, hw⟩ := Option.ne_none_iff_exists'.mp hevent
    obtain ⟨-, d, hd, -⟩ := hs.armed.event w hw
    rw [hnil] at hd
    exact nomatch hd

def readAt (addr : Address.Addr) : Packet where
  id := 0
  cmd := .readReq
  req := { paddr := addr }
  addr := addr
  size := 8
  isSecure := false
  isRequest := rfl

def threePackets : List QueueEvent :=
  [.schedSendTiming (readAt 64) 7, .schedSendTiming (readAt 0) 5, .advance 5,
    .processSendEvent .refused, .advance 6, .retry (.accepted [(readAt 128, 6)]), .advance 7,
    .processSendEvent (.accepted [])]

theorem packetQueue_sends_three : ∃ q, run (step ⟨false, false⟩) .init threePackets = .ok q ∧
    q.sent.map (fun x => (x.1.tick, x.2)) = [(5, 6), (6, 7)] ∧ q.sendEvent = some 8 ∧
    q.transmitList ≠ [] := by
  have hends : Ends (step ⟨false, false⟩) .init threePackets fun q =>
      q.sent.map (fun x => (x.1.tick, x.2)) = [(5, 6), (6, 7)] ∧ q.sendEvent = some 8 := by
    decide +kernel
  obtain ⟨q, hq, hsent, hevent⟩ := hends
  have hbelow : ∀ e ∈ threePackets, Below e := by decide +kernel
  exact ⟨q, hq, hsent, hevent, (packetQueue_sends hq hbelow).1.mpr (.inr (by simp [hevent]))⟩

theorem packetQueue_stuck : Ends (step ⟨false, false⟩) .init [.schedSendTiming (readAt 0) MaxTick]
    fun q => q.transmitList ≠ [] ∧ q.waitingOnRetry = false ∧ q.sendEvent = none := by
  decide +kernel

end HetSim.Memory
