import HetSim.Mshr.Delivery

/-!
# The flags of the target lists

The flags of a list are updated as targets are added, computed again, or set by hand. They agree
as long as no write with special flags becomes the first of a list and no move would change them:
`updateWriteFlags` treats a first write by itself only in an empty list, and `promoteIf` does not
compute the flags of the list it moves targets to.
-/

namespace HetSim.Mshr
open Address Checked Memory Runs List TargetList MSHR Packet

namespace TargetList

def flags (l : TargetList) : Bool × Bool × Bool × Bool × Bool × List Bool :=
  (l.needsWritable, l.hasUpgrade, l.allocOnFill, l.hasFromCache, l.canMergeWrites, l.writesBitmap)

def rebuilt (l : TargetList) : TargetList :=
  l.list.foldl (fun acc t =>
    acc.add t.pkt t.readyTime t.order t.source t.markedPending t.allocOnFill)
    (init {} l.blkAddr l.blkSize)

def update (l : TargetList) (t : Target) : TargetList := l.updateFlags t.pkt t.source t.allocOnFill

def marked (l : TargetList) (t : Target) : TargetList :=
  { l with
    needsWritable := l.needsWritable || t.pkt.needsWritable
    hasUpgrade := l.hasUpgrade || t.pkt.isUpgrade || t.pkt.cmd = .storeCondReq
    allocOnFill := l.allocOnFill || t.allocOnFill
    hasFromCache := l.hasFromCache || t.pkt.fromCache }

def Covers (l : TargetList) (t : Target) : Prop := l.update t = l

instance (l : TargetList) (t : Target) : Decidable (l.Covers t) := by
  unfold Covers
  infer_instance

end TargetList

def specialWrite (pkt : Packet) : Bool := pkt.isWrite && TargetList.noMergeFlags pkt.req

def Target.special (t : Target) : Bool := t.source = .fromCPU && specialWrite t.pkt

inductive Action
  | allocate (blkAddr : Addr) (blkSize : ℕ) (pkt : Packet) (whenReady : Tick) (order : ℕ)
      (allocOnFill : Bool)
  | markInService (pendingModifiedResp : Bool)
  | markPending
  | deallocate
  | does (op : Op)
  deriving DecidableEq

namespace MSHR

def step (m : MSHR) : Action → Except Fault MSHR
  | .allocate blkAddr blkSize pkt whenReady order allocOnFill => do
    require (m.getNumTargets = 0) .targetsLeft
    m.allocate blkAddr blkSize pkt whenReady order allocOnFill
  | .markInService pendingModifiedResp => m.markInService pendingModifiedResp
  | .markPending => m.markPending
  | .deallocate => m.deallocate
  | .does op => do return (← m.apply op).1

/-- No special write becomes the first of a list, and the targets that are promoted for a
response are covered by the flags of the list they are moved to. -/
def FlagSafe (m : MSHR) : Action → Prop
  | .allocate _ _ pkt _ _ _ => ¬ specialWrite pkt
  | .does (.allocateTarget pkt _ _ _) =>
    m.deferredTargets.list = [] → m.defers pkt = true → ¬ specialWrite pkt
  | .does (.extractServiceableTargets cmd) => cmd = .readRespWithInvalidate →
    ¬ ((m.targets.list.drop 1).find? (·.source = .fromCPU)).any Target.special
  | .does (.promoteDeferredTargets _) =>
    ¬ (m.deferredTargets.list.drop m.promotable).head?.any Target.special
  | .does .promoteReadable => ¬ m.postInvalidate →
    ¬ (m.deferredTargets.list.dropWhile readable).head?.any Target.special ∧
      ∀ t ∈ m.deferredTargets.list.takeWhile readable, m.targets.Covers t
  | .does .promoteWritable =>
    m.deferredTargets.needsWritable → ¬ m.postInvalidate → ¬ m.postDowngrade →
    ¬ (m.deferredTargets.list.dropWhile writable).head?.any Target.special ∧
      (m.deferredTargets.list.takeWhile writable).any (·.pkt.needsWritable) ∧
      ∀ t ∈ m.deferredTargets.list.takeWhile writable,
        TargetList.Covers { m.targets with needsWritable := true } t
  | .does .popTarget => False
  | _ => True

end MSHR

variable {l : TargetList} {pkt : Packet} {source : Source} {b : Bool} {t : Target}
  {ts : List Target}

section Update

theorem updateWriteFlags_withList (h : ts.isEmpty = l.list.isEmpty ∨ ¬ specialWrite pkt) :
    updateWriteFlags { l with list := ts } pkt =
      { l.updateWriteFlags pkt with list := ts } := by
  have hwhole : isWholeLineWrite { l with list := ts } = l.isWholeLineWrite := rfl
  by_cases hwrite : pkt.isWrite = true
  · have hfirst : (ts.isEmpty || !noMergeFlags pkt.req) =
        (l.list.isEmpty || !noMergeFlags pkt.req) := by
      rcases h with h | h
      · rw [h]
      · have hcompat : noMergeFlags pkt.req = false := by
          simpa [specialWrite, hwrite] using h
        simp [hcompat]
    simp only [updateWriteFlags, hwhole, hfirst]
    split_ifs <;> rfl
  · simp only [updateWriteFlags, hwhole, Bool.eq_false_iff.mpr hwrite, Bool.not_false,
      if_true]
    split_ifs <;> rfl

/-- Which flags a target changes depends on the list only by its being empty, and not even
that when the target is not a special write. -/
theorem update_withList (h : ts.isEmpty = l.list.isEmpty ∨ ¬ t.special) :
    update { l with list := ts } t = { l.update t with list := ts } := by
  simp only [update, updateFlags]
  split_ifs with hsnoop hprefetch
  · refine updateWriteFlags_withList (l := l.marked t) (h.imp_right fun hplain => ?_)
    have hcpu : t.source = .fromCPU := by
      cases hs : t.source with
      | fromCPU => rfl
      | fromSnoop => exact absurd hs hsnoop
      | fromPrefetcher => exact absurd hs hprefetch
    simpa [Target.special, hcpu] using hplain
  · rfl
  · rfl

theorem update_list : (l.update t).list = l.list := updateFlags_list

variable {us : List Target} {pred : Target → Bool}

theorem foldl_update_withList (ts : List Target) (h : us.isEmpty = l.list.isEmpty) :
    ts.foldl update { l with list := us } =
      { ts.foldl update l with list := us } := by
  induction ts generalizing l with
  | nil => rfl
  | cons t ts ih =>
    rw [foldl_cons, foldl_cons, update_withList (Or.inl h), ih (by rw [update_list, h])]

theorem update_size : (l.update t).blkAddr = l.blkAddr ∧ (l.update t).blkSize = l.blkSize ∧
    (l.update t).writesBitmap.length = l.writesBitmap.length := by
  simp only [update, updateFlags, updateWriteFlags]
  split_ifs <;> simp

theorem foldl_update_size (ts : List Target) : (ts.foldl update l).blkAddr = l.blkAddr ∧
    (ts.foldl update l).blkSize = l.blkSize ∧
    (ts.foldl update l).writesBitmap.length = l.writesBitmap.length := by
  induction ts generalizing l with
  | nil => exact ⟨rfl, rfl, rfl⟩
  | cons t ts ih =>
    obtain ⟨haddr, hsize, hlength⟩ := update_size (l := l) (t := t)
    obtain ⟨haddr', hsize', hlength'⟩ := ih (l := l.update t)
    exact ⟨haddr'.trans haddr, hsize'.trans hsize, hlength'.trans hlength⟩

end Update

section Consistent

structure Consistent (l : TargetList) : Prop where
  size : l.writesBitmap.length = l.blkSize
  populated : l.populateFlags = l
  first : ¬ l.list.head?.any Target.special

theorem populateFlags_eq : l.populateFlags = l.list.foldl update l.resetFlags := rfl

theorem consistent_populateFlags (hsize : l.writesBitmap.length = l.blkSize)
    (hfirst : ¬ l.list.head?.any Target.special) : Consistent l.populateFlags := by
  obtain ⟨haddr, hblk, hlength⟩ := foldl_update_size l.list (l := l.resetFlags)
  have hbits : (l.resetFlags.writesBitmap).length = l.writesBitmap.length := length_map ..
  refine ⟨?_, ?_, ?_⟩
  · rw [populateFlags_eq, hlength, hbits, hblk]
    exact hsize
  · -- after the reset nothing is left of the flags from before
    have hreset : l.populateFlags.resetFlags = l.resetFlags := by
      have hfalse : l.populateFlags.writesBitmap.map (fun _ => false) =
          l.writesBitmap.map fun _ => false := by
        rw [map_const', map_const', populateFlags_eq, hlength, hbits]
      simp only [resetFlags, hfalse, populateFlags_list]
      rw [populateFlags_eq, haddr, hblk]
      rfl
    rw [populateFlags_eq, hreset, populateFlags_list]
    rfl
  · rw [populateFlags_list]
    exact hfirst

variable {blkAddr : Addr} {blkSize order : ℕ} {readyTime : Tick} {markPending : Bool} {op : Op}

theorem init_eq (h : l.list = []) : l.init blkAddr blkSize = init {} blkAddr blkSize := by
  have hbits : (l.writesBitmap.take blkSize ++
      List.replicate (blkSize - l.writesBitmap.length) false).map (fun _ => false) =
      List.replicate blkSize false := by
    rw [map_const', length_append, length_take, length_replicate]
    congr 1
    omega
  have hempty : ([] : List Bool).take blkSize ++ List.replicate (blkSize - 0) false =
      List.replicate blkSize false := by simp
  simp only [init, resetFlags, hbits, h, length_nil, hempty,
    map_replicate]

theorem consistent_init : Consistent (init {} blkAddr blkSize) := by
  refine ⟨?_, ?_, ?_⟩
  · simp [init, resetFlags]
  · simp [populateFlags, init, resetFlags]
  · simp [init, resetFlags]

theorem Consistent.concat (h : Consistent l) (ht : l.list = [] → ¬ t.special) :
    Consistent { l.update t with list := l.list ++ [t] } := by
  obtain ⟨haddr, hblk, hlength⟩ := update_size (l := l) (t := t)
  have hfirst : ¬ (l.list ++ [t]).head?.any Target.special := by
    cases hlist : l.list with
    | nil => exact ht hlist
    | cons u us =>
      have := h.first
      rw [hlist] at this
      exact this
  refine ⟨?_, ?_, hfirst⟩
  · dsimp only
    rw [hlength, hblk]
    exact h.size
  · have hreset : resetFlags { l.update t with list := l.list ++ [t] } =
        { l.resetFlags with list := l.list ++ [t] } := by
      have hfalse : (l.update t).writesBitmap.map (fun _ => false) =
          l.writesBitmap.map fun _ => false := by
        rw [map_const', map_const', hlength]
      simp only [resetFlags, hfalse, haddr, hblk]
    rw [populateFlags_eq, hreset]
    dsimp only
    rw [foldl_append, foldl_cons, foldl_nil]
    cases hlist : l.list with
    | nil =>
      have hsame : l.resetFlags = l := by
        have hpop := h.populated
        rwa [populateFlags_eq, hlist, foldl_nil] at hpop
      rw [foldl_nil, hsame, update_withList (Or.inr (ht hlist))]
    | cons u us =>
      have hpop := h.populated
      rw [populateFlags_eq] at hpop
      have hempty : (l.list ++ [t]).isEmpty = l.resetFlags.list.isEmpty := by
        rw [resetFlags_list, hlist]
        rfl
      have hfold := foldl_update_withList l.list hempty
      rw [hpop, hlist] at hfold
      rw [hfold, update_withList (Or.inl (by rw [hlist]; rfl))]

theorem Consistent.add (h : Consistent l)
    (ht : l.list = [] → source = .fromCPU → ¬ specialWrite pkt) :
    Consistent (l.add pkt readyTime order source markPending b) := by
  have hconcat :=
    h.concat (t := ⟨readyTime, order, pkt, source, markPending && pkt.sentByMshr, b⟩) (by
    intro hnil
    simp only [Target.special, Bool.and_eq_true, decide_eq_true_eq, not_and]
    exact ht hnil)
  have hlist : l.add pkt readyTime order source markPending b =
      { l.update ⟨readyTime, order, pkt, source, markPending && pkt.sentByMshr, b⟩ with
        list := l.list ++ [⟨readyTime, order, pkt, source, markPending && pkt.sentByMshr,
          b⟩] } := by
    simp only [TargetList.add, TargetList.updateFlags_list]
    rfl
  rw [hlist]
  exact hconcat

theorem Consistent.reset (h : Consistent l) (hnil : l.list = []) : Consistent l.resetFlags := by
  have hpop := h.populated
  rw [populateFlags_eq, hnil, foldl_nil] at hpop
  rw [hpop]
  exact h

end Consistent

section Replace

theorem replaceUpgrade_attributes (pkt : Packet) : (replaceUpgrade pkt).isWrite = pkt.isWrite ∧
    (replaceUpgrade pkt).needsWritable = pkt.needsWritable ∧
    (replaceUpgrade pkt).fromCache = pkt.fromCache ∧ (replaceUpgrade pkt).isUpgrade = false ∧
    (replaceUpgrade pkt).cmd ≠ .storeCondReq ∧ (replaceUpgrade pkt).req = pkt.req ∧
    (replaceUpgrade pkt).addr = pkt.addr ∧ (replaceUpgrade pkt).size = pkt.size := by
  rw [replaceUpgrade]
  split_ifs with h₁ h₂ h₃
  · simp only [Packet.isWrite, Packet.needsWritable, Packet.fromCache, Packet.isUpgrade, h₁]
    decide
  · simp only [Packet.isWrite, Packet.needsWritable, Packet.fromCache, Packet.isUpgrade, h₂]
    decide
  · simp only [Packet.isWrite, Packet.needsWritable, Packet.fromCache, Packet.isUpgrade, h₃]
    decide
  · refine ⟨rfl, rfl, rfl, ?_, h₃, rfl, rfl, rfl⟩
    have hrequest := pkt.isRequest
    rw [Packet.isUpgrade]
    -- the only other command with the attribute is a response
    revert h₁ h₂ hrequest
    cases pkt.cmd <;> decide

def replaced (t : Target) : Target := { t with pkt := replaceUpgrade t.pkt }

theorem replaced_special : (replaced t).special = t.special := by
  obtain ⟨hwrite, -, -, -, -, hreq, -, -⟩ := replaceUpgrade_attributes t.pkt
  simp only [Target.special, replaced, specialWrite, hwrite, hreq]
  rfl

theorem update_replaced : update { l with hasUpgrade := false } (replaced t) =
    { l.update t with hasUpgrade := false } := by
  obtain ⟨hwrite, hneeds, hcache, hupgrade, hsc, hreq, haddr, hsize⟩ :=
    replaceUpgrade_attributes t.pkt
  have hoffset : (replaceUpgrade t.pkt).getOffset l.blkSize = t.pkt.getOffset l.blkSize := by
    rw [getOffset, getOffset, haddr]
  simp only [update, updateFlags, updateWriteFlags, replaced, hwrite,
    hneeds, hcache, hupgrade, hsc, decide_false, hreq, hsize, hoffset, isWholeLineWrite,
    Bool.or_false]
  split_ifs <;> rfl

theorem foldl_update_replaced (ts : List Target) :
    (ts.map replaced).foldl update { l with hasUpgrade := false } =
    { ts.foldl update l with hasUpgrade := false } := by
  induction ts generalizing l with
  | nil => rfl
  | cons t ts ih => rw [map_cons, foldl_cons, update_replaced, ih, foldl_cons]

theorem Consistent.replaceUpgrades (h : Consistent l) : Consistent l.replaceUpgrades := by
  rw [TargetList.replaceUpgrades]
  split_ifs
  · exact h
  · have hpop := h.populated
    rw [populateFlags_eq] at hpop
    refine ⟨h.size, ?_, ?_⟩
    · have hreset : TargetList.resetFlags
          { l with list := l.list.map replaced, hasUpgrade := false } =
          { l.resetFlags with list := l.list.map replaced } := rfl
      have hfold := foldl_update_replaced l.list
        (l := { l.resetFlags with list := l.list.map replaced })
      rw [foldl_update_withList _ (by simp [TargetList.resetFlags]), hpop] at hfold
      rw [populateFlags_eq]
      exact hfold
    · have hfirst := h.first
      cases hlist : l.list with
      | nil => simp
      | cons u us =>
        rw [hlist] at hfirst
        have hsame := replaced_special (t := u)
        simp only [List.head?_cons, Option.any_some] at hfirst
        simp only [map_cons, List.head?_cons, Option.any_some]
        rw [← hsame] at hfirst
        exact hfirst

end Replace

section Move

variable {us : List Target}

theorem update_needsWritable : (l.update t).needsWritable =
    (l.needsWritable || (decide (t.source ≠ .fromSnoop) && t.pkt.needsWritable)) := by
  simp only [update, updateFlags, updateWriteFlags]
  split_ifs with hsnoop <;> simp [hsnoop]

theorem update_withNeedsWritable : update { l with needsWritable := true } t =
    { l.update t with needsWritable := true } := by
  simp only [update, updateFlags, updateWriteFlags,
    isWholeLineWrite, Bool.true_or]
  split_ifs <;> rfl

theorem TargetList.Covers.withNeedsWritable (h : l.Covers t) :
    TargetList.Covers { l with needsWritable := true } t := by
  rw [TargetList.Covers, update_withNeedsWritable, h]

theorem update_withList_closed (h : l.isWholeLineWrite = true ∨ l.canMergeWrites = false) :
    update { l with list := us } t = { l.update t with list := us } := by
  have hclosed (k : TargetList) (hk : k.isWholeLineWrite = true ∨ k.canMergeWrites = false) :
      k.updateWriteFlags t.pkt = k := by
    rw [updateWriteFlags]
    rcases hk with hk | hk
    · rw [if_pos hk]
    · rw [hk]
      simp
  simp only [update, updateFlags]
  split_ifs
  · have hleft := hclosed (marked { l with list := us } t) h
    have hright := hclosed (l.marked t) h
    exact hleft.trans (congrArg (fun k : TargetList => { k with list := us }) hright).symm
  · rfl
  · rfl

theorem TargetList.Covers.closed (h : l.Covers t) (hspecial : t.special) :
    l.isWholeLineWrite = true ∨ l.canMergeWrites = false := by
  simp only [Target.special, specialWrite, Bool.and_eq_true, decide_eq_true_eq] at hspecial
  obtain ⟨hcpu, hwrite, hflags⟩ := hspecial
  by_contra hopen
  obtain ⟨hwhole, hmerge⟩ := not_or.mp hopen
  have hmerge := Bool.eq_true_of_not_eq_false hmerge
  have hclosed : (l.update t).canMergeWrites = false := by
    have hwhole' : (l.marked t).isWholeLineWrite = false := Bool.eq_false_iff.mpr hwhole
    have hmerge' : (l.marked t).canMergeWrites = true := hmerge
    have hupdate : l.update t = (l.marked t).updateWriteFlags t.pkt := by
      simp only [update, updateFlags, hcpu]
      rfl
    rw [hupdate, updateWriteFlags]
    simp [hwrite, hflags, hmerge', hwhole']
  rw [h, hmerge] at hclosed
  cases hclosed

theorem TargetList.Covers.withList (h : l.Covers t) :
    TargetList.Covers { l with list := us } t := by
  by_cases hspecial : t.special
  · rw [TargetList.Covers, update_withList_closed (h.closed hspecial), h]
  · rw [TargetList.Covers, update_withList (Or.inr hspecial), h]

theorem TargetList.Covers.update_eq (h : TargetList.Covers { l with needsWritable := true } t) :
    l.update t = { l with
      needsWritable :=
        l.needsWritable || (decide (t.source ≠ .fromSnoop) && t.pkt.needsWritable) } := by
  rw [TargetList.Covers, update_withNeedsWritable] at h
  have hset :=
    congrArg (fun k : TargetList => { k with needsWritable := (l.update t).needsWritable }) h
  rw [update_needsWritable] at hset
  have heta : l.update t = { l.update t with needsWritable :=
      l.needsWritable || (decide (t.source ≠ .fromSnoop) && t.pkt.needsWritable) } := by
    rw [← update_needsWritable]
  rw [heta]
  exact hset

theorem Consistent.move (h : Consistent l) (hfirst : l.list = [] → ¬ ts.head?.any Target.special)
    (hcovers : ∀ t ∈ ts, TargetList.Covers { l with needsWritable := true } t) :
    Consistent { l with
      list := l.list ++ ts
      needsWritable := l.needsWritable ||
        ts.any fun t => decide (t.source ≠ .fromSnoop) && t.pkt.needsWritable } := by
  induction ts generalizing l with
  | nil => simpa using h
  | cons t ts ih =>
    rw [forall_mem_cons] at hcovers
    have hconcat := h.concat hfirst
    rw [hcovers.1.update_eq] at hconcat
    have hmove := ih hconcat (by simp) fun u hu => (hcovers.2 u hu).withList
    simpa [any_cons, Bool.or_assoc] using hmove

end Move

section Operations

variable {m m' : MSHR} {order : ℕ} {readyTime curTick : Tick} {allocOnFill : Bool} {pkt' : Packet}

def FlagsOk (m : MSHR) : Prop := Consistent m.targets ∧ Consistent m.deferredTargets

def unmarked (t : Target) : Target := { t with markedPending := false }

theorem clearDownstreamPending_list (n : ℕ) : (l.clearDownstreamPending n).list =
    (l.list.take n).map unmarked ++ l.list.drop n := rfl

theorem update_unmarked : l.update (unmarked t) = l.update t := rfl

theorem unmarked_special : (unmarked t).special = t.special := rfl

theorem Consistent.unmark (h : Consistent l) (n : ℕ) : Consistent (l.clearDownstreamPending n) := by
  have hpop := h.populated
  rw [populateFlags_eq] at hpop
  refine ⟨h.size, ?_, ?_⟩
  · have hreset : (l.clearDownstreamPending n).resetFlags =
        { l.resetFlags with list := (l.clearDownstreamPending n).list } := rfl
    have hempty : (l.clearDownstreamPending n).list.isEmpty = l.resetFlags.list.isEmpty := by
      rw [clearDownstreamPending_list, resetFlags_list]
      cases l.list with
      | nil => simp
      | cons u us => cases n <;> simp
    rw [populateFlags_eq, hreset, foldl_update_withList _ hempty]
    simp only [clearDownstreamPending_list, foldl_append, foldl_map, update_unmarked]
    rw [← foldl_append, take_append_drop, hpop]
    rfl
  · have hfirst := h.first
    rw [clearDownstreamPending_list]
    cases hlist : l.list with
    | nil => simp
    | cons u us =>
      rw [hlist] at hfirst
      cases n with
      | zero => simpa using hfirst
      | succ n =>
        simp only [take_succ_cons, map_cons, cons_append, List.head?_cons,
          Option.any_some, unmarked_special] at hfirst ⊢
        exact hfirst

theorem promoteRun_spec {n : ℕ} (h : promoteRun pred ts = .ok n) :
    ts.take n = ts.takeWhile pred ∧ ts.drop n = ts.dropWhile pred ∧
      ∀ t ∈ ts.takeWhile pred, t.source = .fromCPU := by
  induction ts generalizing n with
  | nil => simp
  | cons t ts ih =>
    simp only [promoteRun, bind_eq_ok, require_eq_ok] at h
    obtain ⟨⟨⟩, hsource, h⟩ := h
    split_ifs at h with hpred
    · simp only [bind_eq_ok, pure_eq_ok] at h
      obtain ⟨k, hk, rfl⟩ := h
      obtain ⟨htake, hdrop, hall⟩ := ih hk
      rw [takeWhile_cons_of_pos hpred, dropWhile_cons_of_pos hpred, take_succ_cons,
        drop_succ_cons, htake, hdrop, forall_mem_cons]
      exact ⟨rfl, rfl, hsource, hall⟩
    · cases h
      rw [takeWhile_cons_of_neg hpred, dropWhile_cons_of_neg hpred]
      simp

theorem promoteIf_flags (h : m.promoteIf pred = .ok m')
    (hdeferred : Consistent m.deferredTargets)
    (hleft : ¬ (m.deferredTargets.list.dropWhile pred).head?.any Target.special) :
    Consistent m'.deferredTargets ∧
      m'.targets = { m.targets with
        list := m.targets.list ++ (m.deferredTargets.list.takeWhile pred).map unmarked } ∧
      ∀ t ∈ m.deferredTargets.list.takeWhile pred, t.source = .fromCPU := by
  simp only [promoteIf, bind_eq_ok] at h
  obtain ⟨⟨⟩, -, n, hn, h⟩ := h
  cases h
  obtain ⟨htake, hdrop, hsource⟩ := promoteRun_spec hn
  have hmoved : (m.deferredTargets.clearDownstreamPending n).list.take n =
      (m.deferredTargets.list.takeWhile pred).map unmarked := by
    rw [clearDownstreamPending_list, ← htake, take_append, take_of_length_le (by simp),
      length_map, length_take]
    rcases Nat.le_total n m.deferredTargets.list.length with hle | hle
    · simp [Nat.min_eq_left hle]
    · simp [drop_of_length_le hle]
  have hrest : (m.deferredTargets.clearDownstreamPending n).list.drop n =
      m.deferredTargets.list.dropWhile pred := by
    have happend := take_append_drop n (m.deferredTargets.clearDownstreamPending n).list
    rw [hmoved] at happend
    refine append_cancel_left (happend.trans ?_)
    rw [clearDownstreamPending_list, htake, hdrop]
  refine ⟨?_, ?_, hsource⟩
  · refine consistent_populateFlags hdeferred.size ?_
    dsimp only [splice]
    rw [hrest]
    exact hleft
  · dsimp only [splice]
    rw [hmoved]

theorem head?_append_special (h : ¬ ts.head?.any Target.special)
    (hnil : ts = [] → ¬ us.head?.any Target.special) :
    ¬ (ts ++ us).head?.any Target.special := by
  cases ts with
  | nil => exact hnil rfl
  | cons t ts => exact h

theorem allocate_flags {blkAddr : Addr} {blkSize : ℕ} (hnone : m.getNumTargets = 0)
    (h : m.allocate blkAddr blkSize pkt readyTime order b = .ok m')
    (hplain : ¬ specialWrite pkt) : FlagsOk m' := by
  obtain ⟨htargets, hdeferred⟩ : m.targets.list = [] ∧ m.deferredTargets.list = [] := by
    simpa [getNumTargets] using hnone
  simp only [allocate, bind_eq_ok] at h
  obtain ⟨front, -, ⟨⟩, -, h⟩ := h
  cases h
  refine ⟨?_, ?_⟩
  · dsimp only
    rw [init_eq htargets]
    exact consistent_init.add fun _ _ => hplain
  · dsimp only
    rw [init_eq hdeferred]
    exact consistent_init

theorem Consistent.replaced {l' : TargetList} (h : Consistent l)
    (hl : l' = l ∨ l' = l.replaceUpgrades) : Consistent l' := by
  rcases hl with rfl | rfl
  · exact h
  · exact h.replaceUpgrades

/-- The targets moved are covered by the flags of the list they are moved to, which only its
`needsWritable` may be new to. -/
theorem promoteIf_moves {needed : Bool} (hok : FlagsOk m)
    (h : promoteIf { m with targets := { m.targets with needsWritable := needed } } pred = .ok m')
    (hleft : ¬ (m.deferredTargets.list.dropWhile pred).head?.any Target.special)
    (hcovers : ∀ t ∈ m.deferredTargets.list.takeWhile pred,
      TargetList.Covers { m.targets with needsWritable := true } t)
    (hneeded : needed = (m.targets.needsWritable ||
      (m.deferredTargets.list.takeWhile pred).any (·.pkt.needsWritable))) : FlagsOk m' := by
  obtain ⟨hdeferred, htargets, hsource⟩ := promoteIf_flags h hok.2 hleft
  refine ⟨?_, hdeferred⟩
  have hfirst :
      ¬ ((m.deferredTargets.list.takeWhile pred).map unmarked).head?.any Target.special := by
    have hhead := hok.2.first
    cases hlist : m.deferredTargets.list with
    | nil => simp
    | cons t ts =>
      rw [hlist] at hhead
      cases hpred : pred t with
      | true => simpa [hpred, unmarked_special] using hhead
      | false => simp [hpred]
  have hmove := hok.1.move (fun _ => hfirst) (by
    intro t ht
    obtain ⟨u, hu, rfl⟩ := mem_map.mp ht
    exact hcovers u hu)
  have hany : (((m.deferredTargets.list.takeWhile pred).map unmarked).any fun t =>
      decide (t.source ≠ .fromSnoop) && t.pkt.needsWritable) =
      (m.deferredTargets.list.takeWhile pred).any (·.pkt.needsWritable) := by
    rw [any_map, Bool.eq_iff_iff, any_eq_true, any_eq_true]
    refine exists_congr fun t => and_congr_right fun ht => ?_
    have hcpu := hsource t ht
    simp [unmarked, hcpu]
  rw [hany, ← hneeded] at hmove
  rw [htargets]
  exact hmove

theorem Promotion.flags (hop : Promotion m op pred b)
    (hok : FlagsOk m) (hsafe : m.FlagSafe (.does op))
    (h : MSHR.promoteIf { m with targets := { m.targets with needsWritable := b } } pred = .ok m') :
    FlagsOk m' := by
  cases hop with
  | readable hpost =>
    obtain ⟨hleft, hcovers⟩ := hsafe hpost
    refine promoteIf_moves hok h hleft (fun t ht => (hcovers t ht).withNeedsWritable) ?_
    have hnone :
        (m.deferredTargets.list.takeWhile MSHR.readable).any (·.pkt.needsWritable) = false := by
      rw [any_eq_false]
      intro t ht
      have hreadable := mem_takeWhile_imp ht
      simp only [MSHR.readable, Bool.and_eq_true, Bool.not_eq_true'] at hreadable
      rw [hreadable.2]
      exact Bool.false_ne_true
    rw [hnone, Bool.or_false]
  | writable hneeds hpost hdown =>
    obtain ⟨hleft, hany, hcovers⟩ := hsafe hneeds hpost hdown
    refine promoteIf_moves hok h hleft hcovers ?_
    rw [hany, Bool.or_true]

theorem Applied.flags {out : List Target} (h : Applied m op m' out) (hok : FlagsOk m)
    (hsafe : m.FlagSafe (.does op)) : FlagsOk m' := by
  cases h with
  | @deferred pkt pkt' readyTime order allocOnFill hpkt hdefers =>
    have hspecial : specialWrite pkt' = specialWrite pkt := by
      obtain ⟨hwrite, -, -, -, -, hreq, -, -⟩ := replaceUpgrade_attributes pkt
      rcases hpkt with rfl | rfl
      · rfl
      · rw [specialWrite, hwrite, hreq]
        rfl
    exact ⟨hok.1, hok.2.add fun hnil _ => hspecial ▸ hsafe hnil (hdefers hnil)⟩
  | added htargets hdeferred => exact ⟨hok.1.add fun hnil => absurd hnil htargets, hok.2⟩
  | snooped htargets hdeferred hsaves => exact ⟨hok.1.replaced htargets, hok.2.replaced hdeferred⟩
  | saved hid hdeferred hsaves => exact ⟨hok.1.add fun _ => nofun, hok.2.replaced hdeferred⟩
  | @extracted first rest hlist hfirst hsource =>
    have hplain := hsafe rfl
    rw [hlist] at hplain
    refine ⟨consistent_populateFlags hok.1.size ?_, hok.2⟩
    dsimp only
    rw [List.head?_filter]
    exact hplain
  | drained =>
    refine ⟨?_, hok.2⟩
    dsimp only
    rw [consistent_init.populated]
    exact consistent_init
  | idle => exact hok
  | spliced =>
    refine ⟨consistent_populateFlags hok.1.size ?_, consistent_populateFlags hok.2.size hsafe⟩
    refine head?_append_special hok.1.first fun _ => ?_
    have hfirst := hok.2.first
    cases hlist : m.deferredTargets.list with
    | nil => simp
    | cons t ts =>
      rw [hlist] at hfirst
      cases m.promotable with
      | zero => simp
      | succ n => exact hfirst
  | promoted hop hpromote => exact hop.flags hok hsafe hpromote
  | popped => exact hsafe.elim
  | pending | forward => exact hok
  | cleared => exact ⟨hok.1.unmark _, hok.2⟩

theorem step_flags {a : Action} (hok : FlagsOk m) (hsafe : m.FlagSafe a)
    (h : m.step a = .ok m') : FlagsOk m' := by
  cases a with
  | allocate blkAddr blkSize pkt whenReady order allocOnFill =>
    simp only [MSHR.step, bind_eq_ok, require_eq_ok] at h
    obtain ⟨⟨⟩, hnone, h⟩ := h
    exact allocate_flags hnone h hsafe
  | markInService pendingModifiedResp =>
    simp only [MSHR.step, MSHR.markInService, bind_eq_ok] at h
    obtain ⟨⟨⟩, -, h⟩ := h
    cases h
    refine ⟨?_, hok.2⟩
    dsimp only
    split_ifs
    · exact hok.1.unmark _
    · exact hok.1
  | markPending =>
    simp only [MSHR.step, MSHR.markPending, bind_eq_ok] at h
    obtain ⟨⟨⟩, -, h⟩ := h
    cases h
    exact hok
  | deallocate =>
    simp only [MSHR.step, MSHR.deallocate, bind_eq_ok, require_eq_ok] at h
    obtain ⟨⟨⟩, hnil, ⟨⟩, -, h⟩ := h
    cases h
    exact ⟨hok.1.reset (List.isEmpty_iff.mp hnil), hok.2⟩
  | does op =>
    simp only [MSHR.step, bind_eq_ok] at h
    obtain ⟨⟨m₁, out⟩, hop, h⟩ := h
    cases h
    exact (apply_applied hop).flags hok hsafe

end Operations

section Rebuild

theorem add_flags {readyTime : Tick} {order : ℕ} {markPending : Bool} :
    l.add pkt readyTime order source markPending b =
      { l.update ⟨readyTime, order, pkt, source, markPending, b⟩ with
        list := l.list ++
          [⟨readyTime, order, pkt, source, markPending && pkt.sentByMshr, b⟩] } := by
  simp only [add, updateFlags_list]
  rfl

/-- Adding the targets one by one updates the flags as they are updated for a list that
is full already: only a special write would notice that the list is empty. -/
theorem foldl_add_flags (hus : us.isEmpty = (l.list ++ ts).isEmpty)
    (hfirst : l.list = [] → ¬ ts.head?.any Target.special) :
    (ts.foldl (fun acc t =>
        acc.add t.pkt t.readyTime t.order t.source t.markedPending t.allocOnFill) l).flags =
      (ts.foldl update { l with list := us }).flags := by
  induction ts generalizing l with
  | nil => rfl
  | cons t ts ih =>
    have hupdate : update { l with list := us } t = { l.update t with list := us } := by
      cases hlist : l.list with
      | nil => exact update_withList (Or.inr (hfirst hlist))
      | cons u rest =>
        rw [hlist] at hus
        exact update_withList (Or.inl (by rw [hlist]; exact hus))
    rw [foldl_cons, foldl_cons, hupdate]
    refine (ih ?_ ?_).trans ?_
    · rw [hus, add_list, append_assoc]
      cases l.list <;> rfl
    · simp
    · rw [add_flags]

theorem Consistent.rebuilt_flags (h : Consistent l) : l.rebuilt.flags = l.flags := by
  have hinit : { init {} l.blkAddr l.blkSize with list := l.list } = l.resetFlags := by
    have hbits : l.writesBitmap.map (fun _ => false) = List.replicate l.blkSize false := by
      rw [map_const', h.size]
    simp only [resetFlags, hbits]
    simp [init, resetFlags]
  have hpop := h.populated
  rw [populateFlags_eq] at hpop
  have hfold := foldl_add_flags (l := init {} l.blkAddr l.blkSize) rfl fun _ => h.first
  exact hfold.trans (congrArg flags ((congrArg (l.list.foldl update) hinit).trans hpop))

end Rebuild

section Agreement

def FlagsAgree (l : TargetList) : Prop :=
  l.flags = l.rebuilt.flags ∧ l.isWholeLineWrite = l.rebuilt.isWholeLineWrite ∧ l.populateFlags = l

instance (l : TargetList) : Decidable (FlagsAgree l) := by
  unfold FlagsAgree
  infer_instance

theorem Consistent.agree (h : Consistent l) : FlagsAgree l := by
  have hflags := h.rebuilt_flags
  refine ⟨hflags.symm, ?_, h.populated⟩
  have hbits : l.rebuilt.writesBitmap = l.writesBitmap := by
    simp only [flags, Prod.mk.injEq] at hflags
    exact hflags.2.2.2.2.2
  rw [isWholeLineWrite, isWholeLineWrite, hbits]

theorem flagsOk_empty : FlagsOk {} := by
  have hempty : Consistent {} := ⟨rfl, rfl, Bool.false_ne_true⟩
  exact ⟨hempty, hempty⟩

theorem flags_agree {actions : List Action} {m : MSHR}
    (hmeets : Meets MSHR.step MSHR.FlagSafe {} actions) (hrun : run MSHR.step {} actions = .ok m) :
    FlagsAgree m.targets ∧ FlagsAgree m.deferredTargets := by
  have hok : FlagsOk m :=
    hmeets.invariant (fun hok hsafe hstep => step_flags hok hsafe hstep) flagsOk_empty hrun
  exact ⟨hok.1.agree, hok.2.agree⟩

instance (m : MSHR) (a : Action) : Decidable (m.FlagSafe a) := by
  unfold MSHR.FlagSafe
  split <;> infer_instance

/-- The last write is special, but it follows others in its list. -/
def writeThenRead : List Action :=
  [.allocate 64 64 aRead 0 0 true, .markInService false, .does (.allocateTarget aWrite 0 1 true),
    .does (.allocateTarget aRead 0 2 true), .does .promoteReadable,
    .does (.extractServiceableTargets .readResp), .does (.promoteDeferredTargets 5), .markPending,
    .does (.allocateTarget { aWrite with req := { paddr := 68, privileged := true } } 5 3 true)]

theorem flags_agree_writeThenRead : ∃ m : MSHR, run MSHR.step {} writeThenRead = .ok m ∧
    m.targets.list.length = 3 ∧ m.targets.needsWritable = true ∧
    FlagsAgree m.targets ∧ FlagsAgree m.deferredTargets := by
  have hends : Ends MSHR.step {} writeThenRead
      (fun m => m.targets.list.length = 3 ∧ m.targets.needsWritable = true) := by
    decide +kernel
  obtain ⟨m, hrun, hlength, hneeds⟩ := hends
  have hmeets : Meets MSHR.step MSHR.FlagSafe {} writeThenRead := by decide +kernel
  exact ⟨m, hrun, hlength, hneeds, flags_agree hmeets hrun⟩

/-- A secure write of a whole block, and a read that is promoted behind a clean request
that does not allocate: computing the flags again changes them. -/
theorem flags_disagree :
    Ends MSHR.step {}
      [.allocate 64 4 { aWrite with req := { paddr := 64, secure := true }, addr := 64 } 0 0 true]
      (fun m => m.targets.isWholeLineWrite = true ∧
        m.targets.populateFlags.isWholeLineWrite = false) ∧
    Ends MSHR.step {}
      [.allocate 64 64 { aRead with
          cmd := .cleanSharedReq, isRequest := rfl,
            req := { paddr := 64, clean := true } } 0 0 false,
        .markInService false, .does (.allocateTarget aRead 0 1 true), .does .promoteReadable]
      (fun m => m.targets.list.length = 2 ∧ m.targets.allocOnFill = false ∧
        m.targets.rebuilt.allocOnFill = true ∧ ¬ FlagsAgree m.targets) := by
  refine ⟨?_, ?_⟩
  · decide +kernel
  · decide +kernel

end Agreement

end HetSim.Mshr
