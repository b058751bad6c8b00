import HetSim.Ruby.MessageBuffer

/-!
# Capacity and order of the message buffer

The size that the search for slots goes by is never smaller than the number of messages, so
granted slots are free. A message leaves the heap before all behind it in the order of times and
counters, in an ordered buffer the order of the enqueues.
-/

namespace HetSim.Ruby
open Checked Runs List Message MessageBuffer Prod

variable {p : BufferParams} {b b' : MessageBuffer} {t n delta randomTime addr : ℕ}

namespace Message

variable {l r first : Message} {rest : List Message}

theorem gt_eq_false : l.gt r = false ↔
    toLex (l.lastEnqueueTime, l.msgCounter) ≤ toLex (r.lastEnqueueTime, r.msgCounter) := by
  rw [Prod.Lex.toLex_le_toLex, gt]
  split_ifs with h
  · simp [h]
  · simp only [decide_eq_false_iff_not, not_lt]
    omega

theorem gt_of_ne (hle : l.gt r = false) (hne : l.msgCounter ≠ r.msgCounter) : r.gt l = true := by
  by_contra h
  have hge := gt_eq_false.mp (Bool.eq_false_iff.mpr h)
  have heq := le_antisymm (gt_eq_false.mp hle) hge
  exact hne (congrArg (fun x => (ofLex x).2) heq)

@[simp] theorem updateDelayedTicks_lastEnqueueTime (m : Message) :
    (m.updateDelayedTicks t).lastEnqueueTime = m.lastEnqueueTime := rfl

@[simp] theorem updateDelayedTicks_msgCounter (m : Message) :
    (m.updateDelayedTicks t).msgCounter = m.msgCounter := rfl

end Message

namespace MessageBuffer

/-! ## The heap and the stall map -/

def Ordered (heap : List Message) : Prop := heap.Pairwise fun l r => l.gt r = false

theorem pushHeap_perm (m : Message) (heap : List Message) : (pushHeap m heap).Perm (m :: heap) :=
  perm_orderedInsert _ m heap

theorem Ordered.pushHeap (m : Message) {heap : List Message} (h : Ordered heap) :
    Ordered (pushHeap m heap) := by
  unfold Ordered at *
  have : IsTrans Message fun l r => (!l.gt r) = true := by
    refine ⟨fun l m r => ?_⟩
    simpa only [Bool.not_eq_true', gt_eq_false] using le_trans
  have : Std.Total fun l r : Message => (!l.gt r) = true := by
    refine ⟨fun l r => ?_⟩
    simpa only [Bool.not_eq_true', gt_eq_false] using le_total _ _
  simp only [← Bool.not_eq_true'] at *
  exact List.Pairwise.orderedInsert m heap h

theorem pushStalled_perm (addr : ℕ) (m : Message) (l : List (ℕ × List Message)) :
    ((pushStalled addr m l).flatMap snd).Perm (m :: l.flatMap snd) := by
  induction l with
  | nil => exact .refl _
  | cons x l ih =>
    obtain ⟨a, lt⟩ := x
    unfold pushStalled
    split_ifs
    · simp
    · exact .refl _
    · calc lt ++ (pushStalled addr m l).flatMap snd
        _ |>.Perm (lt ++ m :: l.flatMap snd) := ih.append_left lt
        _ |>.Perm (m :: (lt ++ l.flatMap snd)) := perm_middle

variable {lt : List Message} {m : Message} {e : BufferEvent} {es : List (ℕ × BufferEvent)}

theorem eraseP_perm {l : List (ℕ × List Message)} (h : l.lookup addr = some lt) :
    (l.flatMap snd).Perm (lt ++ (l.eraseP (·.1 = addr)).flatMap snd) := by
  induction l with
  | nil => exact nomatch h
  | cons x l ih =>
    obtain ⟨a, lt'⟩ := x
    by_cases ha : a = addr
    · obtain rfl : lt' = lt := by simpa [List.lookup, ha] using h
      rw [eraseP_cons_of_pos (by simpa using ha)]
      exact .refl _
    · have hne : (addr == a) = false := beq_false_of_ne (Ne.symm ha)
      rw [eraseP_cons_of_neg (by simpa using ha)]
      have hl := ih (by simpa [List.lookup, hne] using h)
      calc lt' ++ l.flatMap snd
        _ |>.Perm (lt' ++ (lt ++ (l.eraseP (·.1 = addr)).flatMap snd)) := hl.append_left lt'
        _ |>.Perm (lt ++ (lt' ++ (l.eraseP (·.1 = addr)).flatMap snd)) := by
          simpa only [append_assoc] using perm_append_comm.append_right _

/-! ## What the calls do -/

theorem le_arrivalTime : b.lastArrivalTime ≤ (b.arrivalTime p t delta randomTime).1 := by
  unfold arrivalTime
  split_ifs
  · exact le_rfl
  · exact le_max_left _ _
  · exact le_rfl

theorem enqueue_eq_ok {message : Message} (h : b.enqueue p message t delta randomTime = .ok b') :
    ∃ m, m.msgCounter = b.msgCounter + 1 ∧
      m.lastEnqueueTime = ((b.countEnqueue t).arrivalTime p t delta randomTime).2 ∧
      (p.strictFifo → b.lastArrivalTime ≤ m.lastEnqueueTime) ∧
      b' = { b.countEnqueue t with
        lastArrivalTime := if p.warmupEnabled then
            ((b.countEnqueue t).arrivalTime p t delta randomTime).1
          else m.lastEnqueueTime
        prioHeap := pushHeap m b.prioHeap } := by
  simp only [enqueue, bind_eq_ok, require_eq_ok, pure_eq_ok, exists_const] at h
  obtain ⟨-, -, hfifo, -, rfl⟩ := h
  exact ⟨_, rfl, rfl, fun hp => le_arrivalTime.trans (hfifo hp), rfl⟩

theorem dequeue_eq_ok (h : b.dequeue t = .ok (m, b')) :
    ∃ first rest, b.prioHeap = first :: rest ∧ m = first.updateDelayedTicks t ∧
      b' = { b.countPop t with prioHeap := rest } := by
  simp only [dequeue, bind_eq_ok, require_eq_ok, demand_eq_ok, pure_eq_ok, exists_const] at h
  obtain ⟨-, first, hfirst, rfl, rfl⟩ := h
  obtain ⟨rest, hrest⟩ := List.head?_eq_some_iff.mp hfirst
  exact ⟨first, rest, hrest, rfl, by simp [countPop, hrest]⟩

def Returned (b b' : MessageBuffer) : Prop :=
  ∃ moved heap map,
    b' = { b with
      prioHeap := heap
      stallMsgMap := map
      stallMapSize := b.stallMapSize - (moved : List Message).length } ∧
    heap.Perm (moved ++ b.prioHeap) ∧ b.stalled.Perm (moved ++ map.flatMap snd) ∧
    (Ordered b.prioHeap → Ordered heap)

theorem reanalyzeList_eq_ok (h : b.reanalyzeList t lt = .ok b') :
    ∃ heap, b' = { b with prioHeap := heap } ∧ heap.Perm (lt ++ b.prioHeap) ∧
      (Ordered b.prioHeap → Ordered heap) := by
  unfold reanalyzeList at h
  induction lt generalizing b with
  | nil =>
    obtain rfl : b = b' := by simpa using h
    exact ⟨b.prioHeap, rfl, .refl _, id⟩
  | cons m lt ih =>
    simp only [run_cons, bind_eq_ok, require_eq_ok, pure_eq_ok, exists_const] at h
    obtain ⟨_, ⟨-, rfl⟩, h⟩ := h
    obtain ⟨heap, rfl, hperm, hord⟩ := ih h
    refine ⟨heap, rfl, ?_, fun ho => hord (ho.pushHeap m)⟩
    calc heap
      _ |>.Perm (lt ++ pushHeap m b.prioHeap) := hperm
      _ |>.Perm (lt ++ m :: b.prioHeap) := (pushHeap_perm m _).append_left lt
      _ |>.Perm (m :: (lt ++ b.prioHeap)) := perm_middle

theorem reanalyze_eq_ok (h : b.reanalyze t lt = .ok b') :
    ∃ heap, b' = { b with prioHeap := heap, stallMapSize := b.stallMapSize - lt.length } ∧
      heap.Perm (lt ++ b.prioHeap) ∧ (Ordered b.prioHeap → Ordered heap) := by
  simp only [reanalyze, bind_eq_ok, require_eq_ok, exists_const] at h
  exact reanalyzeList_eq_ok h.2

theorem reanalyzeMessages_returned (h : b.reanalyzeMessages addr t = .ok b') : Returned b b' := by
  simp only [reanalyzeMessages, bind_eq_ok, demand_eq_ok, pure_eq_ok] at h
  obtain ⟨lt, hlt, _, hb, rfl⟩ := h
  obtain ⟨heap, rfl, hperm, hord⟩ := reanalyze_eq_ok hb
  exact ⟨lt, heap, _, rfl, hperm, eraseP_perm hlt, hord⟩

theorem reanalyzeAll_eq_ok {map : List (ℕ × List Message)}
    (h : run (fun b (x : ℕ × List Message) => b.reanalyze t x.2) b map = .ok b') :
    ∃ heap, b' = { b with
        prioHeap := heap
        stallMapSize := b.stallMapSize - (map.flatMap snd).length } ∧
      heap.Perm (map.flatMap snd ++ b.prioHeap) ∧ (Ordered b.prioHeap → Ordered heap) := by
  induction map generalizing b with
  | nil =>
    obtain rfl : b = b' := by simpa using h
    exact ⟨b.prioHeap, by simp, .refl _, id⟩
  | cons x map ih =>
    rw [run_cons, bind_eq_ok] at h
    obtain ⟨_, hx, h⟩ := h
    obtain ⟨heap, rfl, hperm, hord⟩ := reanalyze_eq_ok hx
    obtain ⟨heap', rfl, hperm', hord'⟩ := ih h
    refine ⟨heap', ?_, ?_, hord' ∘ hord⟩
    · simp only [flatMap_cons, length_append, Nat.cast_add, sub_sub]
    · calc heap'
        _ |>.Perm (map.flatMap snd ++ heap) := hperm'
        _ |>.Perm (map.flatMap snd ++ (x.2 ++ b.prioHeap)) := hperm.append_left _
        _ |>.Perm ((x :: map).flatMap snd ++ b.prioHeap) := by
          simpa only [flatMap_cons, append_assoc] using
            perm_append_comm.append_right b.prioHeap

theorem reanalyzeAllMessages_returned (h : b.reanalyzeAllMessages t = .ok b') : Returned b b' := by
  simp only [reanalyzeAllMessages, bind_eq_ok, pure_eq_ok] at h
  obtain ⟨_, hb, rfl⟩ := h
  obtain ⟨heap, rfl, hperm, hord⟩ := reanalyzeAll_eq_ok hb
  exact ⟨b.stalled, heap, [], rfl, hperm, by simp, hord⟩

inductive Effect (p : BufferParams) (b : MessageBuffer) (t : ℕ) :
    BufferEvent → MessageBuffer → Prop
  | granted (n : ℕ) : Effect p b t (.areNSlotsAvailable n)
      { b with granted := if b.areNSlotsAvailable p n t then n else 0 }
  | enqueued {message m : Message} {delta randomTime last : ℕ} (hgranted : 0 < b.granted)
      (hnow : b.now = t) (hcounter : m.msgCounter = b.msgCounter + 1)
      (hfifo : p.strictFifo → b.lastArrivalTime ≤ m.lastEnqueueTime)
      (hlast : p.warmupEnabled = false → last = m.lastEnqueueTime) :
      Effect p b t (.enqueue message delta randomTime)
        { b.countEnqueue t with
          lastArrivalTime := last
          prioHeap := pushHeap m b.prioHeap
          granted := b.granted - 1 }
  | dequeued {first rest} (hheap : b.prioHeap = first :: rest) : Effect p b t .dequeue
      { b.countPop t with
        prioHeap := rest
        granted := 0
        dequeued := b.dequeued ++ [first.updateDelayedTicks t] }
  | recycled {latency : ℕ} {first rest} (hheap : b.prioHeap = first :: rest) :
      Effect p b t (.recycle latency)
        { b with
          prioHeap := pushHeap { first with lastEnqueueTime := t + latency } rest
          granted := 0 }
  | stalled {addr : ℕ} {first rest} (hheap : b.prioHeap = first :: rest) :
      Effect p b t (.stallMessage addr)
        { b.countPop t with
          prioHeap := rest
          stallMsgMap := pushStalled addr (first.updateDelayedTicks t) b.stallMsgMap
          stallMapSize := b.stallMapSize + 1
          granted := 0 }
  | returned {e b₁} (hreturned : Returned b b₁) (he : ∀ latency, e ≠ .recycle latency) :
      Effect p b t e { b₁ with granted := 0 }

theorem apply_effect (h : b.apply p t e = .ok b') : Effect p b t e b' := by
  cases e with
  | areNSlotsAvailable n =>
    obtain rfl := pure_eq_ok.mp h
    exact .granted n
  | enqueue message delta randomTime =>
    simp only [apply, bind_eq_ok, require_eq_ok, pure_eq_ok, exists_const] at h
    obtain ⟨⟨hgranted, hnow⟩, b₁, hb₁, rfl⟩ := h
    obtain ⟨m, hcounter, -, hfifo, rfl⟩ := enqueue_eq_ok hb₁
    exact .enqueued hgranted hnow hcounter hfifo fun hwarm => by simp [hwarm]
  | dequeue =>
    simp only [apply, bind_eq_ok, pure_eq_ok, Prod.exists] at h
    obtain ⟨m, b₁, hb₁, rfl⟩ := h
    obtain ⟨first, rest, hheap, rfl, rfl⟩ := dequeue_eq_ok hb₁
    exact .dequeued hheap
  | recycle latency =>
    simp only [apply, recycle, bind_eq_ok, require_eq_ok, demand_eq_ok, pure_eq_ok,
      exists_const] at h
    obtain ⟨_, ⟨-, first, hfirst, rfl⟩, rfl⟩ := h
    obtain ⟨rest, hrest⟩ := List.head?_eq_some_iff.mp hfirst
    rw [hrest, tail_cons]
    exact .recycled hrest
  | stallMessage addr =>
    simp only [apply, stallMessage, bind_eq_ok, require_eq_ok, pure_eq_ok, exists_const,
      Prod.exists] at h
    obtain ⟨_, ⟨-, -, m, b₁, hb₁, rfl⟩, rfl⟩ := h
    obtain ⟨first, rest, hheap, rfl, rfl⟩ := dequeue_eq_ok hb₁
    exact .stalled hheap
  | reanalyzeMessages addr =>
    simp only [apply, bind_eq_ok, pure_eq_ok] at h
    obtain ⟨b₁, hb₁, rfl⟩ := h
    exact .returned (reanalyzeMessages_returned hb₁) (by simp)
  | reanalyzeAllMessages =>
    simp only [apply, bind_eq_ok, pure_eq_ok] at h
    obtain ⟨b₁, hb₁, rfl⟩ := h
    exact .returned (reanalyzeAllMessages_returned hb₁) (by simp)

theorem step_effect (h : b.step p (t, e) = .ok b') :
    b.now ≤ t ∧ ∃ b₁, Effect p b t e b₁ ∧ b' = { b₁ with now := t } := by
  simp only [step, bind_eq_ok, require_eq_ok, pure_eq_ok, exists_const] at h
  obtain ⟨hnow, b₁, hb₁, rfl⟩ := h
  exact ⟨hnow, b₁, apply_effect hb₁, rfl⟩

/-! ## Where the messages are -/

def messages (b : MessageBuffer) : List Message := b.prioHeap ++ b.stalled ++ b.dequeued

structure Placed (b : MessageBuffer) : Prop where
  counted : b.stallMapSize = b.stalled.length
  placed : (b.messages.map Message.msgCounter).Perm (List.range' 1 b.msgCounter)
  ordered : Ordered b.prioHeap

theorem placed_init : Placed init := ⟨rfl, .refl _, .nil⟩

theorem Returned.messages_perm (h : Returned b b') : b'.messages.Perm b.messages := by
  obtain ⟨moved, heap, map, rfl, hheap, hstalled, -⟩ := h
  refine List.Perm.append_right b.dequeued ?_
  calc heap ++ map.flatMap snd
    _ |>.Perm (moved ++ b.prioHeap ++ map.flatMap snd) := hheap.append_right _
    _ |>.Perm (b.prioHeap ++ (moved ++ map.flatMap snd)) := by
      simpa only [append_assoc] using perm_append_comm.append_right _
    _ |>.Perm (b.prioHeap ++ b.stalled) := hstalled.symm.append_left _

theorem Placed.effect (h : Placed b) (he : Effect p b t e b') : Placed b' := by
  obtain ⟨hcounted, hplaced, hordered⟩ := h
  cases he with
  | granted n => exact ⟨hcounted, hplaced, hordered⟩
  | @enqueued message m delta randomTime last hgranted hnow hcounter hfifo hlast =>
    refine ⟨hcounted, ?_, hordered.pushHeap m⟩
    have hperm : (pushHeap m b.prioHeap ++ b.stalled ++ b.dequeued).Perm (m :: b.messages) :=
      ((pushHeap_perm m _).append_right _).append_right _
    calc (pushHeap m b.prioHeap ++ b.stalled ++ b.dequeued).map Message.msgCounter
      _ |>.Perm (m.msgCounter :: b.messages.map Message.msgCounter) := hperm.map _
      _ |>.Perm (m.msgCounter :: List.range' 1 b.msgCounter) := hplaced.cons _
      _ |>.Perm (List.range' 1 (b.msgCounter + 1)) := by
        rw [List.range'_concat, hcounter, one_mul, add_comm 1]
        exact (perm_append_singleton _ _).symm
  | @dequeued first rest hheap =>
    rw [hheap] at hordered
    refine ⟨hcounted, ?_, hordered.of_cons⟩
    have hperm : (rest ++ b.stalled ++ (b.dequeued ++ [first.updateDelayedTicks t])).Perm
        (first.updateDelayedTicks t :: (rest ++ b.stalled ++ b.dequeued)) := by
      rw [← append_assoc]
      exact perm_append_singleton _ _
    refine (hperm.map Message.msgCounter).trans (.trans (.of_eq ?_) hplaced)
    simp [messages, hheap]
  | @recycled latency first rest hheap =>
    rw [hheap] at hordered
    refine ⟨hcounted, ?_, Ordered.pushHeap _ hordered.of_cons⟩
    have hperm := ((pushHeap_perm { first with lastEnqueueTime := t + latency } rest).append_right
      b.stalled).append_right b.dequeued
    refine (hperm.map Message.msgCounter).trans (.trans (.of_eq ?_) hplaced)
    simp [messages, hheap]
  | @stalled addr first rest hheap =>
    rw [hheap] at hordered
    have hpush := pushStalled_perm addr (first.updateDelayedTicks t) b.stallMsgMap
    refine ⟨?_, ?_, hordered.of_cons⟩
    · show b.stallMapSize + 1 = ((pushStalled _ _ _).flatMap snd).length
      rw [hpush.length_eq, hcounted]
      rfl
    · have hperm := ((hpush.append_left rest).trans perm_middle).append_right b.dequeued
      refine (hperm.map Message.msgCounter).trans (.trans (.of_eq ?_) hplaced)
      simp [messages, hheap, MessageBuffer.stalled]
  | returned hreturned _ =>
    have hperm := hreturned.messages_perm
    obtain ⟨moved, heap, map, rfl, hheap, hstalled, hord⟩ := hreturned
    refine ⟨?_, (hperm.map _).trans hplaced, hord hordered⟩
    have hlength := hstalled.length_eq
    rw [length_append] at hlength
    show b.stallMapSize - moved.length = ((map.flatMap snd).length : ℤ)
    omega

/-! ## Free slots -/

def size (b : MessageBuffer) : ℕ := b.prioHeap.length + b.stalled.length

def arrivals (b : MessageBuffer) (t : ℕ) : ℕ :=
  if b.timeLastTimeEnqueue < t then 0 else b.msgsThisCycle

def visibleSize (b : MessageBuffer) (t : ℕ) : ℕ :=
  if b.timeLastTimePop < t then b.size
  else b.sizeAtCycleStart + b.stalledAtCycleStart + b.arrivals t

structure Fits (p : BufferParams) (b : MessageBuffer) (t : ℕ) : Prop where
  pop_le : b.timeLastTimePop ≤ t
  enqueue_le : b.timeLastTimeEnqueue ≤ t
  size_le : b.size ≤ p.maxSize
  size_le_visibleSize : b.size ≤ b.visibleSize t
  arrivals_le : b.arrivals t ≤ p.maxSize
  arrivals_le_size : b.timeLastTimePop < t → b.arrivals t ≤ b.size
  start_le : t ≤ b.timeLastTimePop → b.sizeAtCycleStart + b.stalledAtCycleStart ≤ p.maxSize

namespace Fits

theorem later (h : Fits p b t) {u : ℕ} (htu : t ≤ u) : Fits p b u := by
  rcases htu.eq_or_lt with rfl | htu
  · exact h
  have hpop : b.timeLastTimePop < u := h.pop_le.trans_lt htu
  have harr : b.arrivals u = 0 := if_pos (h.enqueue_le.trans_lt htu)
  exact ⟨hpop.le, h.enqueue_le.trans htu.le, h.size_le, by rw [visibleSize, if_pos hpop],
    by omega, by omega, by omega⟩

theorem visibleSize_le (h : Fits p b t) : b.visibleSize t ≤ 2 * p.maxSize := by
  have h₁ := h.size_le
  have h₂ := h.arrivals_le
  have h₃ := h.start_le
  unfold visibleSize
  split_ifs <;> omega

theorem arrivals_le_visibleSize (h : Fits p b t) : b.arrivals t ≤ b.visibleSize t := by
  have h₁ := h.arrivals_le_size
  unfold visibleSize
  split_ifs <;> omega

theorem currentSize_eq (h : Fits p b t) (hcounted : b.stallMapSize = b.stalled.length)
    (hmax : 2 * p.maxSize < 2 ^ 32) :
    (b.currentSize t).1 + (b.currentSize t).2 = b.visibleSize t := by
  have hsize := h.size_le
  have harr := h.arrivals_le
  have hstart := h.start_le
  unfold currentSize visibleSize arrivals size at *
  by_cases hpop : b.timeLastTimePop < t
  · rw [if_pos hpop, if_pos hpop, hcounted, Int.toNat_natCast]
    show _ % _ + _ % _ = _
    rw [Nat.mod_eq_of_lt (by omega), Nat.mod_eq_of_lt (by omega)]
  · rw [if_neg hpop, if_neg hpop]
    split_ifs at * with henq
    · rfl
    · show _ % _ + _ = _
      rw [Nat.mod_eq_of_lt (by omega)]
      omega

theorem of_areNSlotsAvailable (h : Fits p b t) (hcounted : b.stallMapSize = b.stalled.length)
    (hpos : 0 < p.maxSize) (hn : n + 2 * p.maxSize < 2 ^ 32)
    (havail : b.areNSlotsAvailable p n t = true) : b.visibleSize t + n ≤ p.maxSize := by
  have hle := h.visibleSize_le
  rw [areNSlotsAvailable, if_neg hpos.ne', decide_eq_true_eq,
    h.currentSize_eq hcounted (by omega), Nat.mod_eq_of_lt (by omega)] at havail
  exact havail

theorem congr (h : Fits p b t) (hsize : b'.size = b.size)
    (hpop : b'.timeLastTimePop = b.timeLastTimePop)
    (henq : b'.timeLastTimeEnqueue = b.timeLastTimeEnqueue)
    (hstart : b'.sizeAtCycleStart = b.sizeAtCycleStart)
    (hstalled : b'.stalledAtCycleStart = b.stalledAtCycleStart)
    (hmsgs : b'.msgsThisCycle = b.msgsThisCycle) : Fits p b' t := by
  have harr : b'.arrivals t = b.arrivals t := by rw [arrivals, arrivals, henq, hmsgs]
  have hvis : b'.visibleSize t = b.visibleSize t := by
    rw [visibleSize, visibleSize, hsize, hpop, hstart, hstalled, harr]
  obtain ⟨h₁, h₂, h₃, h₄, h₅, h₆, h₇⟩ := h
  exact ⟨by omega, by omega, by omega, by omega, by omega, by omega, by omega⟩

theorem pop (h : Fits p b t) (hcounted : b.stallMapSize = b.stalled.length)
    (hsize : b'.size ≤ b.size)
    (hpop : b'.timeLastTimePop = (b.countPop t).timeLastTimePop)
    (henq : b'.timeLastTimeEnqueue = b.timeLastTimeEnqueue)
    (hstart : b'.sizeAtCycleStart = (b.countPop t).sizeAtCycleStart)
    (hstalled : b'.stalledAtCycleStart = (b.countPop t).stalledAtCycleStart)
    (hmsgs : b'.msgsThisCycle = b.msgsThisCycle) : Fits p b' t := by
  have harr : b'.arrivals t = b.arrivals t := by rw [arrivals, arrivals, henq, hmsgs]
  have hpop_eq : b'.timeLastTimePop = t := hpop.trans (max_eq_right h.pop_le)
  have hvis : b'.visibleSize t = b'.sizeAtCycleStart + b'.stalledAtCycleStart + b.arrivals t := by
    rw [visibleSize, if_neg hpop_eq.not_lt, harr]
  have hlt := p.maxSize_lt
  obtain ⟨h₁, h₂, h₃, h₄, h₅, h₆, h₇⟩ := h
  have hsum : b.size ≤ b'.sizeAtCycleStart + b'.stalledAtCycleStart + b.arrivals t ∧
      b'.sizeAtCycleStart + b'.stalledAtCycleStart ≤ p.maxSize := by
    rw [hstart, hstalled]
    simp only [countPop, hcounted, Int.toNat_natCast]
    by_cases hbefore : b.timeLastTimePop < t
    · unfold size at *
      rw [if_pos hbefore, if_pos hbefore, Nat.mod_eq_of_lt (by omega), Nat.mod_eq_of_lt (by omega)]
      omega
    · rw [visibleSize, if_neg hbefore] at h₄
      rw [if_neg hbefore, if_neg hbefore]
      omega
  exact ⟨by omega, by omega, by omega, by omega, by omega, by omega, by omega⟩

theorem enqueue {last granted : ℕ} (h : Fits p b t)
    (hfree : b.visibleSize t + 1 ≤ p.maxSize)
    (hb : b' = { b.countEnqueue t with
      lastArrivalTime := last, prioHeap := pushHeap m b.prioHeap, granted := granted }) :
    Fits p b' t ∧ b'.visibleSize t = b.visibleSize t + 1 := by
  have hlt := p.maxSize_lt
  have hle := h.arrivals_le_visibleSize
  obtain ⟨h₁, h₂, h₃, h₄, h₅, h₆, h₇⟩ := h
  have hsize : b'.size = b.size + 1 := by
    subst hb
    have hlength := (pushHeap_perm m b.prioHeap).length_eq
    rw [length_cons] at hlength
    simp only [size, stalled, countEnqueue]
    omega
  have henq : b'.timeLastTimeEnqueue = t := by
    subst hb
    exact max_eq_right h₂
  have harr : b'.arrivals t = b.arrivals t + 1 := by
    rw [arrivals, if_neg henq.not_lt]
    subst hb
    exact Nat.mod_eq_of_lt (by unfold arrivals at hle; omega)
  have hpop : b'.timeLastTimePop = b.timeLastTimePop := by rw [hb]; rfl
  have hstart : b'.sizeAtCycleStart = b.sizeAtCycleStart := by rw [hb]; rfl
  have hstalled : b'.stalledAtCycleStart = b.stalledAtCycleStart := by rw [hb]; rfl
  have hvis : b'.visibleSize t = b.visibleSize t + 1 := by
    rw [visibleSize, visibleSize, hsize, hpop, hstart, hstalled, harr]
    split_ifs <;> omega
  exact ⟨⟨by omega, by omega, by omega, by omega, by omega, by omega, by omega⟩, hvis⟩

end Fits

/-- A search for slots asks for so few that the sum does not wrap. -/
def Moderate (p : BufferParams) : BufferEvent → Prop
  | .areNSlotsAvailable n => n + 2 * p.maxSize < 2 ^ 32
  | _ => True

instance (e : BufferEvent) : Decidable (Moderate p e) := by
  unfold Moderate
  cases e <;> infer_instance

structure Granted (p : BufferParams) (b : MessageBuffer) : Prop where
  fits : Fits p b b.now
  free : b.granted = 0 ∨ b.visibleSize b.now + b.granted ≤ p.maxSize

theorem granted_init : Granted p init :=
  ⟨⟨le_rfl, le_rfl, Nat.zero_le _, le_rfl, Nat.zero_le _, nofun, fun _ => Nat.zero_le _⟩, .inl rfl⟩

theorem Granted.effect (h : Granted p b) (hplaced : Placed b)
    (hpos : 0 < p.maxSize) (hnow : b.now ≤ t) (hmod : Moderate p e) (he : Effect p b t e b') :
    Fits p b' t ∧ (b'.granted = 0 ∨ b'.visibleSize t + b'.granted ≤ p.maxSize) := by
  have hfits := h.fits.later hnow
  cases he with
  | granted n =>
    refine ⟨hfits.congr rfl rfl rfl rfl rfl rfl, ?_⟩
    by_cases havail : b.areNSlotsAvailable p n t = true
    · right
      show b.visibleSize t + (if _ then n else 0) ≤ p.maxSize
      rw [if_pos havail]
      exact hfits.of_areNSlotsAvailable hplaced.counted hpos hmod havail
    · exact .inl (if_neg havail)
  | @enqueued message m delta randomTime last hgranted hnow _ _ _ =>
    have hfree := h.free.resolve_left hgranted.ne'
    rw [hnow] at hfree
    obtain ⟨hfits', hvis⟩ := hfits.enqueue (by omega) rfl
    refine ⟨hfits', .inr ?_⟩
    rw [hvis]
    show _ + (b.granted - 1) ≤ _
    omega
  | @dequeued first rest hheap =>
    refine ⟨hfits.pop hplaced.counted ?_ rfl rfl rfl rfl rfl, .inl rfl⟩
    simp only [size, hheap, length_cons, stalled, countPop]
    omega
  | @recycled latency first rest hheap =>
    refine ⟨hfits.congr ?_ rfl rfl rfl rfl rfl, .inl rfl⟩
    have hlength := (pushHeap_perm { first with lastEnqueueTime := t + latency } rest).length_eq
    simp only [size, hheap, hlength, length_cons, stalled]
  | @stalled addr first rest hheap =>
    refine ⟨hfits.pop hplaced.counted ?_ rfl rfl rfl rfl rfl, .inl rfl⟩
    have hlength := (pushStalled_perm addr (first.updateDelayedTicks t) b.stallMsgMap).length_eq
    simp only [size, hheap, hlength, length_cons, stalled]
    omega
  | returned hreturned _ =>
    obtain ⟨moved, heap, map, rfl, hheap, hstalled, hord⟩ := hreturned
    refine ⟨hfits.congr ?_ rfl rfl rfl rfl rfl, .inl rfl⟩
    have h₁ := hheap.length_eq
    have h₂ := hstalled.length_eq
    rw [length_append] at h₁ h₂
    show heap.length + (map.flatMap snd).length = b.prioHeap.length + b.stalled.length
    omega

/-! ## The order of an ordered buffer -/

structure InTime (b : MessageBuffer) : Prop where
  le_lastArrivalTime : ∀ m ∈ b.prioHeap ++ b.stalled, m.lastEnqueueTime ≤ b.lastArrivalTime
  le_of_lt : ∀ m ∈ b.prioHeap ++ b.stalled, ∀ m' ∈ b.prioHeap ++ b.stalled,
    m.msgCounter < m'.msgCounter → m.lastEnqueueTime ≤ m'.lastEnqueueTime

theorem inTime_init : InTime init := ⟨by simp [init, stalled],
  by simp [init, stalled]⟩

theorem InTime.of_exists (h : InTime b) (hlast : b'.lastArrivalTime = b.lastArrivalTime)
    (hmem : ∀ m ∈ b'.prioHeap ++ b'.stalled, ∃ m₀ ∈ b.prioHeap ++ b.stalled,
      m₀.msgCounter = m.msgCounter ∧ m₀.lastEnqueueTime = m.lastEnqueueTime) : InTime b' := by
  refine ⟨fun m hm => ?_, fun m hm m' hm' hlt => ?_⟩
  · obtain ⟨m₀, hm₀, -, htime⟩ := hmem m hm
    rw [hlast, ← htime]
    exact h.le_lastArrivalTime m₀ hm₀
  · obtain ⟨m₀, hm₀, hcounter, htime⟩ := hmem m hm
    obtain ⟨m₀', hm₀', hcounter', htime'⟩ := hmem m' hm'
    rw [← htime, ← htime']
    exact h.le_of_lt m₀ hm₀ m₀' hm₀' (by omega)

theorem Placed.counter_le (h : Placed b) (hm : m ∈ b.prioHeap ++ b.stalled) :
    m.msgCounter ≤ b.msgCounter := by
  have hmem : m.msgCounter ∈ b.messages.map Message.msgCounter :=
    mem_map_of_mem (mem_append_left _ hm)
  have hrange := mem_range'_1.mp (h.placed.mem_iff.mp hmem)
  omega

theorem InTime.effect (h : InTime b) (hplaced : Placed b)
    (hstrict : p.strictFifo = true) (hwarm : p.warmupEnabled = false)
    (hrecycle : ∀ latency, e ≠ .recycle latency) (he : Effect p b t e b') : InTime b' := by
  cases he with
  | granted n => exact ⟨h.le_lastArrivalTime, h.le_of_lt⟩
  | @enqueued message m delta randomTime last _ _ hcounter hfifo hlast =>
    obtain rfl := hlast hwarm
    have hle := hfifo hstrict
    have hmem : ∀ x ∈ pushHeap m b.prioHeap ++ b.stalled, x = m ∨ x ∈ b.prioHeap ++ b.stalled :=
      fun x hx => mem_cons.mp (((pushHeap_perm m _).append_right _).mem_iff.mp hx)
    refine ⟨fun x hx => ?_, fun x hx y hy hlt => ?_⟩
    · rcases hmem x hx with rfl | hx
      · exact le_rfl
      · exact (h.le_lastArrivalTime x hx).trans hle
    · rcases hmem x hx, hmem y hy with ⟨rfl | hx', rfl | hy'⟩
      · exact le_rfl
      · have := hplaced.counter_le hy'
        omega
      · exact (h.le_lastArrivalTime x hx').trans hle
      · exact h.le_of_lt x hx' y hy' hlt
  | @dequeued first rest hheap =>
    refine h.of_exists rfl fun m hm => ⟨m, ?_, rfl, rfl⟩
    rw [hheap]
    exact mem_cons_of_mem _ hm
  | recycled hheap => exact absurd rfl (hrecycle _)
  | @stalled addr first rest hheap =>
    refine h.of_exists rfl fun m hm => ?_
    have hperm := ((pushStalled_perm addr (first.updateDelayedTicks t) b.stallMsgMap).append_left
      rest).trans perm_middle
    rw [hheap]
    rcases mem_cons.mp (hperm.mem_iff.mp hm) with rfl | hm
    · exact ⟨first, mem_cons_self, rfl, rfl⟩
    · exact ⟨m, mem_cons_of_mem _ hm, rfl, rfl⟩
  | returned hreturned _ =>
    obtain ⟨moved, heap, map, rfl, hheap, hstalled, hord⟩ := hreturned
    refine h.of_exists rfl fun m hm => ⟨m, ?_, rfl, rfl⟩
    have hheap := hheap.mem_iff (a := m)
    have hstalled := hstalled.mem_iff (a := m)
    simp only [mem_append, stalled] at *
    tauto

/-! ## Runs -/

def LeavesFirst (before : Message → Message → Prop) (b : MessageBuffer) : Prop :=
  ∀ t m b', b.dequeue t = .ok (m, b') →
    (b.prioHeap.map Message.msgCounter).Perm (m.msgCounter :: b'.prioHeap.map Message.msgCounter) ∧
      ∀ m' ∈ b'.prioHeap, before m m'

theorem Placed.nodup (h : Placed b) : (b.prioHeap.map Message.msgCounter).Nodup := by
  have hnodup := h.placed.nodup_iff.mpr nodup_range'
  rw [messages, append_assoc, map_append] at hnodup
  exact hnodup.of_append_left

theorem Placed.counter_ne (h : Placed b)
    (hheap : b.prioHeap = first :: rest) (hm : m ∈ rest) : first.msgCounter ≠ m.msgCounter := by
  have hnodup := h.nodup
  rw [hheap, map_cons, nodup_cons] at hnodup
  exact fun heq => hnodup.1 (heq ▸ mem_map_of_mem hm)

theorem Placed.gt_first (h : Placed b)
    (hheap : b.prioHeap = first :: rest) (hm : m ∈ rest) : m.gt first = true := by
  have hordered := h.ordered
  rw [hheap] at hordered
  exact gt_of_ne (rel_of_pairwise_cons hordered hm) (h.counter_ne hheap hm)

theorem Placed.leavesFirst (h : Placed b) : LeavesFirst (fun m m' => m'.gt m = true) b := by
  intro t m b' hb'
  obtain ⟨first, rest, hheap, rfl, rfl⟩ := dequeue_eq_ok hb'
  refine ⟨.of_eq (by simp [hheap]), fun m' hm' => ?_⟩
  show m'.gt first = true
  exact h.gt_first hheap hm'

theorem InTime.leavesFirst (h : InTime b) (hplaced : Placed b) :
    LeavesFirst (fun m m' => m.msgCounter < m'.msgCounter) b := by
  intro t m b' hb'
  obtain ⟨first, rest, hheap, rfl, rfl⟩ := dequeue_eq_ok hb'
  refine ⟨.of_eq (by simp [hheap]), fun m' hm' => ?_⟩
  rcases lt_or_gt_of_ne (hplaced.counter_ne hheap hm') with hlt | hgt
  · exact hlt
  · -- A message with a smaller counter is not later, so it would have been first.
    have htime := h.le_of_lt m' (by simp [hheap, hm']) first (by simp [hheap]) hgt
    have hbefore := hplaced.gt_first hheap hm'
    unfold gt at hbefore
    split_ifs at hbefore <;> simp only [decide_eq_true_eq] at hbefore <;> omega

theorem run_placed (h : run (step p) init es = .ok b) : Placed b := by
  refine run_keeps (fun hplaced he => ?_) placed_init h
  obtain ⟨-, b₁, heffect, rfl⟩ := step_effect he
  obtain ⟨h₁, h₂, h₃⟩ := hplaced.effect heffect
  exact ⟨h₁, h₂, h₃⟩

theorem run_size_le (hpos : 0 < p.maxSize)
    (hmod : ∀ e ∈ es, Moderate p e.2) (h : run (step p) init es = .ok b) : b.size ≤ p.maxSize := by
  have hinv : Placed b ∧ Granted p b := by
    refine Meets.invariant (P := fun b => Placed b ∧ Granted p b) (fun hs hmod he => ?_)
      ⟨placed_init, granted_init⟩ (meets_of_forall hmod) h
    obtain ⟨hnow, b₁, heffect, rfl⟩ := step_effect he
    obtain ⟨h₁, h₂, h₃⟩ := hs.1.effect heffect
    obtain ⟨hfits, hfree⟩ := hs.2.effect hs.1 hpos hnow hmod heffect
    exact ⟨⟨h₁, h₂, h₃⟩, hfits.congr rfl rfl rfl rfl rfl rfl, hfree⟩
  exact hinv.2.fits.size_le

theorem run_inTime (hstrict : p.strictFifo = true)
    (hwarm : p.warmupEnabled = false) (hrecycle : ∀ e ∈ es, ∀ latency, e.2 ≠ .recycle latency)
    (h : run (step p) init es = .ok b) : InTime b := by
  have hinv : Placed b ∧ InTime b := by
    refine Meets.invariant (P := fun b => Placed b ∧ InTime b) (fun hs hrecycle he => ?_)
      ⟨placed_init, inTime_init⟩ (meets_of_forall hrecycle) h
    obtain ⟨-, b₁, heffect, rfl⟩ := step_effect he
    obtain ⟨h₁, h₂, h₃⟩ := hs.1.effect heffect
    obtain ⟨h₄, h₅⟩ := hs.2.effect hs.1 hstrict hwarm hrecycle heffect
    exact ⟨⟨h₁, h₂, h₃⟩, ⟨h₄, h₅⟩⟩
  exact hinv.2

/-- Outside a warm-up, and as long as no search for slots asks for so many that the sum
wraps. -/
theorem messageBuffer_bounded_inOrder {p : BufferParams} {es : List (ℕ × BufferEvent)}
    {b : MessageBuffer} (hpos : 0 < p.maxSize) (h : run (step p) init es = .ok b) :
    ((∀ e ∈ es, Moderate p e.2) → b.prioHeap.length + b.stallMapSize ≤ p.maxSize) ∧
      b.stallMapSize = (b.stallMsgMap.map fun x => x.2.length).sum ∧
      ((b.prioHeap ++ b.stalled ++ b.dequeued).map Message.msgCounter).Perm
        (List.range' 1 b.msgCounter) ∧
      LeavesFirst (fun m m' => m'.gt m = true) b ∧
      (p.strictFifo = true → p.warmupEnabled = false →
        (∀ e ∈ es, ∀ latency, e.2 ≠ .recycle latency) →
        LeavesFirst (fun m m' => m.msgCounter < m'.msgCounter) b) := by
  have hplaced := run_placed h
  refine ⟨fun hmod => ?_, ?_, hplaced.placed, hplaced.leavesFirst, fun hstrict hwarm hrecycle => ?_⟩
  · rw [hplaced.counted]
    exact_mod_cast run_size_le hpos hmod h
  · rw [hplaced.counted, MessageBuffer.stalled, length_flatMap]
  · exact (run_inTime hstrict hwarm hrecycle h).leavesFirst hplaced

def orderedParams (maxSize : ℕ) (h : maxSize < 2 ^ 32) (warmupEnabled : Bool) : BufferParams where
  maxSize := maxSize
  maxSize_lt := h
  strictFifo := true
  randomization := false
  systemRandomization := false
  warmupEnabled := warmupEnabled
  blockSizeBits := 6

def fresh : Message := ⟨0, 0, 0⟩

def stalledRun : List (ℕ × BufferEvent) :=
  [(0, .areNSlotsAvailable 2), (0, .enqueue fresh 5 1), (0, .enqueue fresh 5 1),
    (5, .stallMessage 64), (6, .reanalyzeMessages 64)]

theorem messageBuffer_bounded_inOrder_two :
    Ends (step (orderedParams 2 (by decide) false)) init stalledRun fun b =>
      b.prioHeap.map Message.msgCounter = [1, 2] ∧ b.prioHeap.length + b.stallMapSize ≤ 2 ∧
        LeavesFirst (fun m m' => m.msgCounter < m'.msgCounter) b := by
  have hrun := eq_ok_get (x := run (step (orderedParams 2 (by decide) false)) init stalledRun)
    (by decide +kernel)
  have hsound := messageBuffer_bounded_inOrder (by decide) hrun
  exact ⟨_, hrun, by decide +kernel, hsound.1 (by decide +kernel),
    hsound.2.2.2.2 rfl rfl (by simp [stalledRun])⟩

/-- In a warm-up the second of two messages leaves first. Elsewhere a search for `2 ^ 32 - 1`
slots finds them in a full buffer. -/
theorem messageBuffer_outOfOrder :
    Ends (step (orderedParams 2 (by decide) true)) init
        [(0, .areNSlotsAvailable 2), (0, .enqueue fresh 10 1), (0, .enqueue fresh 5 1),
          (5, .dequeue)]
        (fun b => b.dequeued.map Message.msgCounter = [2] ∧
          b.prioHeap.map Message.msgCounter = [1]) ∧
      Ends (step (orderedParams 1 (by decide) false)) init
        [(0, .areNSlotsAvailable 1), (0, .enqueue fresh 5 1),
          (1, .areNSlotsAvailable (2 ^ 32 - 1)), (1, .enqueue fresh 5 1)]
        (fun b => b.prioHeap.length = 2) := by
  decide +kernel

end MessageBuffer

end HetSim.Ruby
