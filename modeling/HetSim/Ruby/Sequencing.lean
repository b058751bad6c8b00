import HetSim.Ruby.Sequencer

/-!
# Requests of a line are completed in order

One invariant serves between the events and inside a callback, where one line is open: its
request is answered and not yet replaced. While a hit callback runs, its request is still at the
front of its list and no longer counted.
-/

namespace HetSim.RubySequencer
open Checked List Function Command Reply Sequencer

variable {c : Params} {s : Sequencer} {cur : Option ℕ} {done : List Reply} {k : ℕ}

/-- No part of a locked access, with its bytes in one line. -/
@[mk_iff] structure Packet.Simple (c : Params) (pkt : Packet) : Prop where
  unlocked : pkt.cmd.isLockedRMW = false
  inLine : c.getOffset pkt.addr + pkt.data.length ≤ c.blockSizeBytes

structure Plain (c : Params) (r : SequencerRequest) : Prop extends r.pkt.Simple c where
  types : requestTypes c r.pkt.cmd = .ok (r.type, r.secondType)

def lineOf (c : Params) (r : SequencerRequest) : ℕ := c.makeLineAddress r.pkt.addr

section Types

theorem requestTypes_total (c : Params) {cmd : Command} (h : cmd.isLockedRMW = false) :
    ∃ t, requestTypes c cmd = .ok t ∧ t.1 ≠ .Locked_RMW_Read ∧ t.1 ≠ .Locked_RMW_Write ∧
      (isReadType t.1 = true ↔ t.2 = .LD ∨ t.2 = .IFETCH) := by
  cases cmd with
  | read fetch check =>
    cases fetch <;> cases check <;> cases hx : c.isX86 <;>
      simp [requestTypes, isLLSC, isLockedRMW, isWrite, isRead,
        isInstFetch, storeCheck, hx, pure, Except.pure, isReadType]
  | write => exact ⟨(.ST, .ST), rfl, by decide, by decide, by decide⟩
  | swap => exact ⟨(.ST, .ST), rfl, by decide, by decide, by decide⟩
  | loadLocked => exact ⟨(.Load_Linked, .LD), rfl, by decide, by decide, by decide⟩
  | storeCond =>
    cases ht : c.threeLevel <;>
      simp [requestTypes, isLLSC, isWrite, ht, pure, Except.pure, isReadType]
  | lockedRead => exact nomatch h
  | lockedWrite => exact nomatch h
  | flush => exact ⟨(.FLUSH, .FLUSH), rfl, by decide, by decide, by decide⟩

variable {r : SequencerRequest} {a : ℕ} {t : Sequencer} {q : Bool} {ts : List RubyRequestType}

theorem Plain.secondType (h : Plain c r) :
    isReadType r.type = true ↔ r.secondType = .LD ∨ r.secondType = .IFETCH := by
  obtain ⟨t, ht, -, -, hread⟩ := requestTypes_total c h.unlocked
  rw [h.types] at ht
  cases Except.ok.inj ht
  exact hread

end Types

section Data

def Reply.apply (c : Params) (b : DataBlock) (r : Reply) : DataBlock :=
  match r.req.pkt.cmd with
  | .write | .swap | .lockedWrite => b.write r.req.pkt.data (c.getOffset r.req.pkt.addr)
  | .storeCond =>
    if r.extraData = some true then b.write r.req.pkt.data (c.getOffset r.req.pkt.addr) else b
  | _ => b

def Reply.isLoad (r : Reply) : Bool :=
  match r.req.pkt.cmd with
  | .read _ _ | .loadLocked => true
  | _ => false

structure Replays (c : Params) (b : DataBlock) (rs : List Reply) (b' : DataBlock) : Prop where
  final : b' = rs.foldl (Reply.apply c) b
  load : ∀ pre r post, rs = pre ++ r :: post → r.isLoad = true →
    r.data = (pre.foldl (Reply.apply c) b).bytes (c.getOffset r.req.pkt.addr) r.req.pkt.data.length
  reports : ∀ r ∈ rs, r.req.pkt.cmd = .storeCond → r.extraData.isSome = true

variable {b b' : DataBlock} {rs : List Reply}

theorem Replays.nil : Replays c b [] b := ⟨rfl, by simp, by simp⟩

theorem Replays.concat (h : Replays c b rs b') {r : Reply} {b'' : DataBlock}
    (hfinal : b'' = r.apply c b')
    (hload : r.isLoad = true →
      r.data = b'.bytes (c.getOffset r.req.pkt.addr) r.req.pkt.data.length)
    (hreports : r.req.pkt.cmd = .storeCond → r.extraData.isSome = true) :
    Replays c b (rs ++ [r]) b'' where
  final := by rw [foldl_append, ← h.final, hfinal]; rfl
  load pre x post hx hxload := by
    rcases eq_nil_or_concat post with rfl | ⟨post', y, rfl⟩
    · obtain ⟨rfl, hrx⟩ := append_inj' hx rfl
      obtain rfl : r = x := head_eq_of_cons_eq hrx
      rw [← h.final]
      exact hload hxload
    · have hsplit : rs ++ [r] = (pre ++ x :: post') ++ [y] := by rw [hx]; simp
      exact h.load pre x post' (append_inj' hsplit rfl).1 hxload
  reports x hx hcond := by
    rcases mem_append.mp hx with hx | hx
    · exact h.reports x hx hcond
    · rw [mem_singleton.mp hx] at hcond ⊢
      exact hreports hcond

theorem getData_ok {offset len : ℕ} (h : offset + len ≤ c.blockSizeBytes) :
    b.getData c offset len = .ok (b.bytes offset len) := by
  rw [DataBlock.getData, require, if_pos h]
  rfl

theorem setData_ok {offset : ℕ} {data : List UInt8} (h : offset + data.length ≤ c.blockSizeBytes) :
    b.setData c data offset = .ok (b.write data offset) := by
  rw [DataBlock.setData, require, if_pos h]
  rfl

theorem hitData_spec (hr : Plain c r) (success : Bool) (b : DataBlock) :
    ∃ data b', hitData c r b success = .ok (data, b') ∧
      b' = apply c b ⟨r, data, if r.type = .Store_Conditional then some success else none⟩ ∧
      (isLoad ⟨r, data, none⟩ = true →
        data = b.bytes (c.getOffset r.pkt.addr) r.pkt.data.length) ∧
      (r.pkt.cmd = .storeCond → r.type = .Store_Conditional) := by
  have htypes := hr.types
  have hget := getData_ok (b := b) hr.inLine
  have hset := setData_ok (b := b) hr.inLine
  obtain ⟨⟨addr, cmd, data⟩, t, t'⟩ := r
  dsimp only at hget hset htypes
  cases cmd with
  | read fetch check =>
    have ht : t = .LD ∨ t = .IFETCH ∨ t = .RMW_Read := by
      cases fetch <;> cases check <;> cases hx : c.isX86 <;> simp_all [requestTypes, isLLSC,
        isLockedRMW, isWrite, isRead, isInstFetch, storeCheck, pure, Except.pure]
    rcases ht with rfl | rfl | rfl <;> simp [hitData, hget, isFlush, apply]
  | write | swap =>
    cases htypes
    simp [hitData, hget, hset, isFlush, isSwap, apply, isLoad]
  | loadLocked =>
    cases htypes
    simp [hitData, hget, isFlush, apply]
  | storeCond =>
    cases htypes
    cases success <;> simp [hitData, hset, isFlush, isSwap, apply, isLoad]
  | lockedRead | lockedWrite => exact nomatch hr.unlocked
  | flush => simp [hitData, isFlush, apply, isLoad]

end Data

def frontType (s : Sequencer) (a : ℕ) : List RubyRequestType :=
  ((s.list a).head?.map SequencerRequest.secondType).toList

theorem frontType_nil (h : s.list a = []) : frontType s a = [] := by rw [frontType, h]; rfl

theorem frontType_cons {l : List SequencerRequest}
    (h : s.list a = r :: l) : frontType s a = [r.secondType] := by rw [frontType, h]; rfl

theorem frontType_congr (h : t.list a = s.list a) :
    frontType t a = frontType s a := by rw [frontType, h]; rfl

/-- The invariant with the line `cur` open, `done` its replies so far, and `k` requests that
are in their list and no longer counted. -/
structure Inv (c : Params) (cur : Option ℕ) (done : List Reply) (k : ℕ) (s : Sequencer) : Prop where
  plain : ∀ a, ∀ r ∈ s.list a, Plain c r ∧ lineOf c r = a
  entry : ∀ a, (s.requestTable a).isSome = true ↔ s.list a ≠ [] ∨ cur = some a
  issued : ∀ a, s.issued a = if cur = some a then [] else frontType s a
  replied : ∀ r ∈ done, cur = some (lineOf c r.req)
  fifo : ∀ a, s.accepted.filter (fun r => lineOf c r = a) =
    s.completed.filter (fun r => lineOf c r = a) ++
      (if cur = some a then done.map Reply.req else []) ++ s.list a
  count : s.outstandingCount = s.accepted.length - s.completed.length - done.length - k
  bound : s.outstandingCount ≤ c.maxOutstandingRequests
  free : ∀ a, s.blocked a = false
  answered : ∀ x ∈ s.answers, Replays c x.before x.replies x.after ∧
    ∀ r ∈ x.replies, lineOf c r.req = x.address

namespace Inv

theorem setMonitor (h : Inv c cur done k s) (m : ℕ → Option Bool) :
    Inv c cur done k { s with monitor := m } :=
  ⟨h.plain, h.entry, h.issued, h.replied, h.fifo, h.count, h.bound, h.free, h.answered⟩

theorem markRemoved (h : Inv c cur done k s) : Inv c cur done (k + 1) (markRemoved s) where
  plain := h.plain
  entry := h.entry
  issued := h.issued
  replied := h.replied
  fifo := h.fifo
  count := by
    have hcount := h.count
    show s.outstandingCount - 1 = _
    push_cast
    change _ = (s.accepted.length : ℤ) - s.completed.length - done.length - (k + 1)
    omega
  bound := by
    have hbound := h.bound
    show s.outstandingCount - 1 ≤ _
    omega
  free := h.free
  answered := h.answered

end Inv

section Requests

variable {pkt : Packet} {req : SequencerRequest}

theorem list_update {a line : ℕ} {l : List SequencerRequest} {t : Sequencer}
    (h : t.requestTable = update s.requestTable line (some l)) :
    t.list a = if a = line then l else s.list a := by
  rw [list, h, update_apply]
  split_ifs <;> rfl

theorem accept_inv (h : Inv c cur done k s) (hreq : Plain c req)
    (hcur : ∀ a, cur = some a → s.list a ≠ [])
    (hroom : s.outstandingCount < c.maxOutstandingRequests) (ht : t = { s with
      requestTable :=
        update s.requestTable (lineOf c req) (some (s.list (lineOf c req) ++ [req]))
      outstandingCount := s.outstandingCount + 1
      accepted := s.accepted ++ [req]
      issued := if s.list (lineOf c req) = [] then
          update s.issued (lineOf c req) (s.issued (lineOf c req) ++ [req.secondType])
        else s.issued }) : Inv c cur done k t := by
  have hlist : ∀ a, t.list a =
      if a = lineOf c req then s.list (lineOf c req) ++ [req] else s.list a :=
    fun a => list_update (by rw [ht])
  refine ⟨fun a r hr => ?_, fun a => ?_, fun a => ?_, h.replied, fun a => ?_, ?_, ?_, ?_, ?_⟩
  · rw [hlist] at hr
    split_ifs at hr with ha
    · rcases mem_append.mp hr with hr | hr
      · obtain ⟨hp, hl⟩ := h.plain _ r hr
        exact ⟨hp, hl.trans ha.symm⟩
      · rw [mem_singleton.mp hr]
        exact ⟨hreq, ha.symm⟩
    · exact h.plain a r hr
  · by_cases ha : a = lineOf c req
    · have hsome : (t.requestTable a).isSome = true := by
        rw [ht, ha]
        simp
      rw [hlist, if_pos ha]
      exact iff_of_true hsome (.inl (by simp))
    · have hsame : t.requestTable a = s.requestTable a := by
        rw [ht]
        exact update_of_ne ha ..
      rw [hlist, if_neg ha, hsame]
      exact h.entry a
  · by_cases ha : a = lineOf c req
    · rw [ha]
      have hat := hlist (lineOf c req)
      rw [if_pos rfl] at hat
      by_cases hopen : cur = some (lineOf c req)
      · have hne := hcur _ hopen
        have hissued : t.issued (lineOf c req) = s.issued (lineOf c req) := by
          rw [ht]
          simp only [if_neg hne]
        rw [hissued, h.issued, if_pos hopen, if_pos hopen]
      · rw [if_neg hopen]
        by_cases hnil : s.list (lineOf c req) = []
        · have hissued : t.issued (lineOf c req) = s.issued (lineOf c req) ++ [req.secondType] := by
            rw [ht]
            simp only [if_pos hnil, update_self]
          rw [hnil] at hat
          rw [hissued, h.issued, if_neg hopen, frontType_nil hnil, frontType_cons hat]
          rfl
        · have hissued : t.issued (lineOf c req) = s.issued (lineOf c req) := by
            rw [ht]
            simp only [if_neg hnil]
          obtain ⟨x, l, hl⟩ := exists_cons_of_ne_nil hnil
          rw [hl] at hat
          rw [hissued, h.issued, if_neg hopen, frontType_cons hl, frontType_cons hat]
    · have hissued : t.issued a = s.issued a := by
        rw [ht]
        show (if _ then _ else _ : ℕ → List RubyRequestType) a = _
        split_ifs
        · exact update_of_ne ha ..
        · rfl
      have hat := hlist a
      rw [if_neg ha] at hat
      rw [hissued, frontType_congr hat]
      exact h.issued a
  · have hfifo := h.fifo a
    have hcompleted : t.completed = s.completed := by rw [ht]; rfl
    have haccepted : t.accepted = s.accepted ++ [req] := by rw [ht]
    rw [hcompleted, haccepted, filter_append, hfifo, hlist]
    by_cases ha : a = lineOf c req
    · rw [if_pos ha, ← ha, append_assoc, append_assoc, append_assoc]
      simp [ha]
    · rw [if_neg ha]
      simp [Ne.symm ha]
  · have hcount := h.count
    have hcompleted : t.completed = s.completed := by rw [ht]; rfl
    rw [hcompleted, ht]
    simp only [length_append, length_singleton]
    push_cast
    omega
  · rw [ht]
    show s.outstandingCount + 1 ≤ _
    omega
  · rw [ht]
    exact h.free
  · rw [ht]
    exact h.answered

theorem makeRequest_inv (h : Inv c cur done k s) (hpkt : pkt.Simple c)
    (hcur : ∀ a, cur = some a → s.list a ≠ []) :
    ∃ r, makeRequest c s pkt = .ok r ∧ Inv c cur done k r.2 ∧
      ∀ a, ∃ new, r.2.list a = s.list a ++ new ∧ new.length ≤ 1 := by
  rw [makeRequest]
  by_cases hfull : (c.maxOutstandingRequests : ℤ) ≤ s.outstandingCount
  · rw [if_pos hfull]
    exact ⟨_, rfl, h, fun a => ⟨[], (append_nil _).symm, by simp⟩⟩
  · obtain ⟨types, htypes, -, -, -⟩ := requestTypes_total c hpkt.unlocked
    have hreq : Plain c ⟨pkt, types.1, types.2⟩ := ⟨hpkt, htypes⟩
    have hlist : ∀ {t : Sequencer}, t.requestTable = update s.requestTable
        (c.makeLineAddress pkt.addr) (some (s.list (c.makeLineAddress pkt.addr) ++
          [⟨pkt, types.1, types.2⟩])) → ∀ a, ∃ new, t.list a = s.list a ++ new ∧
            new.length ≤ 1 := by
      intro t ht a
      rw [list_update ht]
      split_ifs with ha
      · exact ⟨[⟨pkt, types.1, types.2⟩], by rw [ha], le_rfl⟩
      · exact ⟨[], (append_nil _).symm, by simp⟩
    rw [if_neg hfull, htypes, ok_bind, h.free]
    simp only [Bool.false_and, Bool.false_eq_true, if_false]
    by_cases hnil : s.list (c.makeLineAddress pkt.addr) = []
    · have hready : (insertRequest c s ⟨pkt, types.1, types.2⟩).1 ≠ .Aliased := by
        have hget : (s.requestTable (c.makeLineAddress pkt.addr)).getD [] = [] := hnil
        simp [insertRequest, hget]
      rw [if_pos hready]
      refine ⟨_, rfl, accept_inv h hreq hcur (not_le.mp hfull) ?_, hlist rfl⟩
      have hnil' : s.list (lineOf c ⟨pkt, types.1, types.2⟩) = [] := hnil
      rw [if_pos hnil']
      rfl
    · have haliased : ¬ (insertRequest c s ⟨pkt, types.1, types.2⟩).1 ≠ .Aliased := by
        obtain ⟨x, l, hl⟩ := exists_cons_of_ne_nil hnil
        have hget : (s.requestTable (c.makeLineAddress pkt.addr)).getD [] = x :: l := hl
        simp [insertRequest, hget]
      rw [if_neg haliased]
      refine ⟨_, rfl, accept_inv h hreq hcur (not_le.mp hfull) ?_, hlist rfl⟩
      have hne : s.list (lineOf c ⟨pkt, types.1, types.2⟩) ≠ [] := hnil
      rw [if_neg hne]
      rfl

/-- `rest` is still to be made; what was made of the `n` requests is behind those of the line. -/
def Left (c : Params) (a : ℕ) (done : List Reply) (k : ℕ) (s : Sequencer) (n : ℕ)
    (rest : List Packet) (t : Sequencer) : Prop :=
  (∀ pkt ∈ rest, pkt.Simple c) ∧ Inv c (some a) done k t ∧
    ∃ new, t.list a = s.list a ++ new ∧ new.length + rest.length ≤ n

theorem makeRequests_inv {pkts : List Packet} (h : Inv c (some a) done k s)
    (hpkts : ∀ pkt ∈ pkts, pkt.Simple c) (hne : s.list a ≠ []) :
    ∃ t, makeRequests c s pkts = .ok t ∧ Inv c (some a) done k t ∧
      ∃ new, t.list a = s.list a ++ new ∧ new.length ≤ pkts.length := by
  have hkeep : ∀ {t pkt rest}, Left c a done k s pkts.length (pkt :: rest) t →
      ∃ t', Prod.snd <$> makeRequest c t pkt = .ok t' ∧ Left c a done k s pkts.length rest t' := by
    rintro t pkt rest ⟨hcmd, hinv, new, hnew, hlen⟩
    have hopen : ∀ a', some a = some a' → t.list a' ≠ [] := by
      intro a' ha'
      rw [← Option.some.inj ha', hnew]
      exact append_ne_nil_of_left_ne_nil hne _
    obtain ⟨r, hr, hinv', hgrow⟩ := makeRequest_inv hinv (hcmd pkt mem_cons_self) hopen
    obtain ⟨new', hnew', hlen'⟩ := hgrow a
    refine ⟨r.2, by rw [hr]; rfl, fun x hx => hcmd x (mem_cons_of_mem _ hx), hinv',
      new ++ new', by rw [hnew', hnew, append_assoc], ?_⟩
    rw [length_append]
    rw [length_cons] at hlen
    omega
  obtain ⟨t, ht, -, hinv, new, hnew, hlen⟩ := Runs.run_consumes hkeep
    (show Left c a done k s pkts.length pkts s from ⟨hpkts, h, [], (append_nil _).symm, by simp⟩)
  exact ⟨t, ht, hinv, new, hnew, by simpa using hlen⟩

end Requests

section Rounds

variable {a n : ℕ} {b : DataBlock} {x : Round} {req : SequencerRequest}
  {rest : List SequencerRequest}

theorem list_popFront (s : Sequencer) (a : ℕ) : (popFront s a).list a = (s.list a).tail := by
  rw [list, list, popFront]
  simp only [update_self]
  cases s.requestTable a <;> rfl

theorem list_popFront_of_ne {a' : ℕ} (h : a' ≠ a) : (popFront s a).list a' = s.list a' := by
  rw [list, popFront]
  simp only [update_of_ne h]
  rfl

theorem Inv.popFront (h : Inv c (some a) done 1 s) (hlist : s.list a = req :: rest) {r : Reply}
    (hr : r.req = req) : Inv c (some a) (done ++ [r]) 0 (popFront s a) where
  plain a' x hx := by
    by_cases ha : a' = a
    · rw [ha, list_popFront] at hx
      rw [ha]
      exact h.plain a x (mem_of_mem_tail hx)
    · rw [list_popFront_of_ne ha] at hx
      exact h.plain a' x hx
  entry a' := by
    by_cases ha : a' = a
    · have hsome := (h.entry a).mpr (.inr rfl)
      have hmap : ((RubySequencer.popFront s a).requestTable a').isSome = true := by
        rw [ha, RubySequencer.popFront]
        simpa using hsome
      exact iff_of_true hmap (.inr (by rw [ha]))
    · have hsame : (RubySequencer.popFront s a).requestTable a' = s.requestTable a' :=
        update_of_ne ha ..
      rw [hsame, list_popFront_of_ne ha]
      exact h.entry a'
  issued a' := by
    show s.issued a' = _
    rw [h.issued]
    by_cases ha : some a = some a'
    · rw [if_pos ha, if_pos ha]
    · have hne : a' ≠ a := fun he => ha (by rw [he])
      rw [if_neg ha, if_neg ha, frontType_congr (list_popFront_of_ne hne)]
  replied x hx := by
    rcases mem_append.mp hx with hx | hx
    · exact h.replied x hx
    · rw [mem_singleton.mp hx, hr, (h.plain a req (by rw [hlist]; exact mem_cons_self)).2]
  fifo a' := by
    show s.accepted.filter _ = s.completed.filter _ ++ _ ++ _
    rw [h.fifo]
    by_cases ha : some a = some a'
    · obtain rfl := Option.some.inj ha
      rw [if_pos ha, if_pos ha, list_popFront, hlist, map_append, map_singleton, hr]
      simp
    · rw [if_neg ha, if_neg ha, list_popFront_of_ne fun he => ha (by rw [he])]
  count := by
    have hcount := h.count
    show s.outstandingCount = (s.accepted.length : ℤ) - s.completed.length - _ - _
    rw [length_append, length_singleton]
    push_cast at hcount ⊢
    omega
  bound := h.bound
  free := h.free
  answered := h.answered

/-- A callback for the line `a` is under way, with `k` requests removed and not yet answered. -/
structure Serving (c : Params) (a : ℕ) (b : DataBlock) (k : ℕ) (x : Round) : Prop where
  inv : Inv c (some a) x.replies k x.seq
  simple : ∀ pkts ∈ x.nested, ∀ pkt ∈ pkts, pkt.Simple c
  replays : Replays c b x.replies x.block

/-- A round answered the first request of the line. Its hit callback may have added others. -/
def Answered (a : ℕ) (rest : List SequencerRequest) (x y : Round) : Prop :=
  y.nested = x.nested.tail ∧
    ∃ new, y.seq.list a = rest ++ new ∧ new.length ≤ (x.nested.headD []).length

theorem hitCallback_inv (h : Serving c a b 1 x) (hlist : x.seq.list a = req :: rest)
    (success : Bool) {extra : Option Bool}
    (hextra : extra = if req.type = .Store_Conditional then some success else none) :
    ∃ y, hitCallback c x req success extra = .ok y ∧
      Serving c a b 0 { y with seq := popFront y.seq a } ∧
      Answered a rest x { y with seq := popFront y.seq a } := by
  obtain ⟨hplain, -⟩ := h.inv.plain a req (by rw [hlist]; exact mem_cons_self)
  obtain ⟨data, block, hhit, hblock, hload, hcond⟩ := hitData_spec hplain success x.block
  have hhead : ∀ pkt ∈ x.nested.headD [], pkt.Simple c := by
    cases hx : x.nested with
    | nil => simp
    | cons pkts more => exact h.simple pkts (by rw [hx]; exact mem_cons_self)
  have hrun : ∃ t, makeRequests c (if req.type = .Load_Linked then
      llscLoadLinked x.seq (c.makeLineAddress req.pkt.addr) else x.seq) (x.nested.headD []) =
        .ok t ∧
      Inv c (some a) x.replies 1 t ∧
      ∃ new, t.list a = x.seq.list a ++ new ∧ new.length ≤ (x.nested.headD []).length := by
    -- a load linked changes the monitor only
    split_ifs
    · exact makeRequests_inv (h.inv.setMonitor _) hhead
        (show x.seq.list a ≠ [] by rw [hlist]; simp)
    · exact makeRequests_inv h.inv hhead (by rw [hlist]; simp)
  obtain ⟨t, ht, hinv, new, hnew, hlen⟩ := hrun
  rw [hlist] at hnew
  refine ⟨⟨t, block, x.replies ++ [⟨req, data, extra⟩], x.nested.tail⟩, ?_,
    ⟨hinv.popFront hnew rfl, fun pkts hp => h.simple pkts (mem_of_mem_tail hp), ?_⟩, rfl, new, ?_,
    hlen⟩
  · rw [hitCallback, hhit, ok_bind, ht]
    rfl
  · refine h.replays.concat ?_ hload ?_
    · rw [hextra]
      exact hblock
    · intro hsc
      show extra.isSome = true
      rw [hextra, if_pos (hcond hsc)]
      rfl
  · show (RubySequencer.popFront t a).list a = _
    rw [list_popFront, hnew]
    rfl

theorem reads_report_nothing {t : RubyRequestType} (h : isReadType t = true) :
    (none : Option Bool) = if t = .Store_Conditional then some true else none := by
  rw [if_neg]
  rintro rfl
  exact absurd h (by decide)

theorem Serving.read (h : Serving c a b 0 x) (hlist : x.seq.list a = req :: rest)
    (hread : isReadType req.type = true) :
    ∃ y, hitCallback c { x with seq := markRemoved x.seq } req true none = .ok y ∧
      Serving c a b 0 { y with seq := popFront y.seq a } ∧
      Answered a rest x { y with seq := popFront y.seq a } :=
  hitCallback_inv (x := { x with seq := markRemoved x.seq })
    ⟨h.inv.markRemoved, h.simple, h.replays⟩ hlist true (reads_report_nothing hread)

end Rounds

section Callbacks

variable {a : ℕ} {b : DataBlock} {nested : List (List Packet)}

end Callbacks

/-- No locked accesses and none across lines, also from inside hit callbacks; a callback answers a
request that was passed on, a read callback one of type `LD` or `IFETCH` and a write callback
any other. -/
def Proper (c : Params) (s : Sequencer) : Event → Prop
  | .makeRequest pkt => pkt.Simple c
  | .readCallback a _ nested =>
    (∃ t ∈ (s.issued a).head?, t = .LD ∨ t = .IFETCH) ∧
      ∀ pkts ∈ nested, ∀ pkt ∈ pkts, pkt.Simple c
  | .writeCallback a _ nested =>
    (∃ t ∈ (s.issued a).head?, ¬ (t = .LD ∨ t = .IFETCH)) ∧
      ∀ pkts ∈ nested, ∀ pkt ∈ pkts, pkt.Simple c
  | .cacheChange _ _ => True

instance (pkt : Packet) : Decidable (pkt.Simple c) := decidable_of_iff _ (pkt.simple_iff c).symm

instance (s : Sequencer) (e : Event) : Decidable (Proper c s e) := by
  cases e <;> unfold Proper <;> infer_instance

end HetSim.RubySequencer
