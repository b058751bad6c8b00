import HetSim.Library.Positions
import HetSim.Library.Runs
import HetSim.Tags.FALRU

/-!
# The list and the boundaries of fully associative tags

The invariant gives every block a position. The links lead to the neighbouring positions, the last
position of a tracked cache is its boundary, and a block carries the bit of a cache when its
position is within the size of that cache.
-/

namespace HetSim.Tags
open Address Checked Runs Positions Function BitVec List FALRUBlk

namespace FALRU

variable {p : FALRUParams} {s t : FALRU p} {blk b : Fin p.numBlocks} {i : Fin p.numTrackedCaches}
  {pos pos' : Fin p.numBlocks ≃ Fin p.numBlocks}

def prevs (s : FALRU p) (b : Fin p.numBlocks) : Option (Fin p.numBlocks) := (s.blks b).prev

def nexts (s : FALRU p) (b : Fin p.numBlocks) : Option (Fin p.numBlocks) := (s.blks b).next

def masks (s : FALRU p) (b : Fin p.numBlocks) : BitVec 32 := (s.blks b).inCachesMask

def cacheBlks (s : FALRU p) (b : Fin p.numBlocks) : CacheBlk := (s.blks b).toCacheBlk

section Views

variable {v : Option (Fin p.numBlocks)} {m : BitVec 32} {c : CacheBlk}

theorem view_kept {γ : Type} (view : FALRUBlk p.numBlocks → γ) {x : FALRUBlk p.numBlocks}
    (h : view x = view (s.blks blk)) : view ∘ update s.blks blk x = view ∘ s.blks := by
  rw [comp_update, h]
  exact update_eq_self ..

@[simp] theorem setPrev_prevs : (s.setPrev blk v).prevs = update s.prevs blk v :=
  comp_update prev ..

@[simp] theorem setPrev_nexts : (s.setPrev blk v).nexts = s.nexts :=
  view_kept next rfl

@[simp] theorem setPrev_masks : (s.setPrev blk v).masks = s.masks :=
  view_kept inCachesMask rfl

@[simp] theorem setPrev_cacheBlks : (s.setPrev blk v).cacheBlks = s.cacheBlks :=
  view_kept toCacheBlk rfl

@[simp] theorem setNext_prevs : (s.setNext blk v).prevs = s.prevs :=
  view_kept prev rfl

@[simp] theorem setNext_nexts : (s.setNext blk v).nexts = update s.nexts blk v :=
  comp_update next ..

@[simp] theorem setNext_masks : (s.setNext blk v).masks = s.masks :=
  view_kept inCachesMask rfl

@[simp] theorem setNext_cacheBlks : (s.setNext blk v).cacheBlks = s.cacheBlks :=
  view_kept toCacheBlk rfl

@[simp] theorem setMask_prevs : (s.setMask blk m).prevs = s.prevs :=
  view_kept prev rfl

@[simp] theorem setMask_nexts : (s.setMask blk m).nexts = s.nexts :=
  view_kept next rfl

@[simp] theorem setMask_masks : (s.setMask blk m).masks = update s.masks blk m :=
  comp_update inCachesMask ..

@[simp] theorem setMask_cacheBlks : (s.setMask blk m).cacheBlks = s.cacheBlks :=
  view_kept toCacheBlk rfl

@[simp] theorem setBlk_prevs : (s.setBlk blk c).prevs = s.prevs :=
  view_kept prev rfl

@[simp] theorem setBlk_nexts : (s.setBlk blk c).nexts = s.nexts :=
  view_kept next rfl

@[simp] theorem setBlk_masks : (s.setBlk blk c).masks = s.masks :=
  view_kept inCachesMask rfl

@[simp] theorem setBlk_cacheBlks : (s.setBlk blk c).cacheBlks = update s.cacheBlks blk c :=
  comp_update toCacheBlk ..

end Views

structure SameLists (s t : FALRU p) : Prop where
  prevs : t.prevs = s.prevs
  nexts : t.nexts = s.nexts
  cacheBlks : t.cacheBlks = s.cacheBlks
  head : t.head = s.head
  tail : t.tail = s.tail
  tagHash : t.tagHash = s.tagHash

theorem SameLists.refl (s : FALRU p) : SameLists s s := ⟨rfl, rfl, rfl, rfl, rfl, rfl⟩

theorem SameLists.trans {r : FALRU p} (hrs : SameLists r s) (hst : SameLists s t) : SameLists r t :=
  ⟨hst.prevs.trans hrs.prevs, hst.nexts.trans hrs.nexts, hst.cacheBlks.trans hrs.cacheBlks,
    hst.head.trans hrs.head, hst.tail.trans hrs.tail, hst.tagHash.trans hrs.tagHash⟩

theorem SameLists.setMask (h : SameLists s t) {m : BitVec 32} : SameLists s (t.setMask b m) :=
  ⟨setMask_prevs.trans h.prevs, setMask_nexts.trans h.nexts, setMask_cacheBlks.trans h.cacheBlks,
    h.head, h.tail, h.tagHash⟩

theorem SameLists.setBoundary (h : SameLists s t) {v : Option (Fin p.numBlocks)} :
    SameLists s (t.setBoundary i v) :=
  ⟨h.prevs, h.nexts, h.cacheBlks, h.head, h.tail, h.tagHash⟩

end FALRU

def FALRUParams.trackedBlocks (p : FALRUParams) (i : ℕ) : ℕ :=
  p.minTrackedCacheSize / p.blockSize * 2 ^ i

structure FALRUParams.Sized (p : FALRUParams) : Prop where
  few : p.numTrackedCaches ≤ 32
  two_le : ∀ i < p.numTrackedCaches, 2 ≤ p.trackedBlocks i
  lt : ∀ i < p.numTrackedCaches, p.trackedBlocks i < p.numBlocks
  top : 0 < p.numTrackedCaches → p.trackedBlocks p.numTrackedCaches = p.numBlocks
  start : 0 < p.numTrackedCaches → p.minTrackedSize = p.trackedBlocks 0 * p.blkSize
  blkSize_pos : 0 < p.blkSize
  fits : p.numBlocks * p.blkSize < 2 ^ 32

theorem shiftLeft_and_ne_zero {m : BitVec 32} {i : ℕ} (hi : i < 32) :
    1#32 <<< i &&& m ≠ 0 ↔ m.getLsbD i = true := by
  rw [← twoPow_eq, twoPow_and]
  split_ifs with h
  · refine iff_of_true (fun hzero => ?_) h
    have hbit := congrArg (·.getLsbD i) hzero
    simp [hi] at hbit
  · exact iff_of_false (fun hne => hne rfl) h

theorem getLsbD_and_not_shiftLeft {m : BitVec 32} {i j : ℕ} (hi : i < 32) :
    (m &&& ~~~(1#32 <<< i)).getLsbD j = (m.getLsbD j && !decide (i = j)) := by
  rw [← twoPow_eq, getLsbD_and, getLsbD_not, getLsbD_twoPow]
  by_cases hj : j < 32
  · simp [hi, hj]
  · rw [getLsbD_of_ge m j (by omega)]
    rfl

theorem getLsbD_or_shiftLeft {m : BitVec 32} {i j : ℕ} (hi : i < 32) :
    (m ||| 1#32 <<< i).getLsbD j = (m.getLsbD j || decide (i = j)) := by
  rw [← twoPow_eq, getLsbD_or, getLsbD_twoPow, decide_eq_true hi, Bool.true_and]

theorem FALRUParams.getLsbD_inAllCachesMask (p : FALRUParams)
    (h : p.numTrackedCaches ≤ 32) {j : ℕ} :
    p.inAllCachesMask.getLsbD j = decide (j < p.numTrackedCaches) := by
  rw [FALRUParams.inAllCachesMask, getLsbD_setWidth, getLsbD_mask]
  rw [← Bool.decide_and, decide_eq_decide]
  omega

namespace FALRU

variable {p : FALRUParams} {s t : FALRU p} {blk b : Fin p.numBlocks} {i : Fin p.numTrackedCaches}
  {pos pos' : Fin p.numBlocks ≃ Fin p.numBlocks}

/-- The boundaries and the bits of the caches, for positions that may differ from cache to
cache while a block moves, and for the blocks whose mask stays as it is. -/
structure Bounds (s : FALRU p) (place : Fin p.numTrackedCaches → Fin p.numBlocks ≃ Fin p.numBlocks)
    (stays : Fin p.numBlocks → Prop) : Prop where
  boundary : ∀ i, ∃ b, s.boundaries i = some b ∧ (place i b : ℕ) + 1 = p.trackedBlocks i
  inCaches : ∀ (i : Fin p.numTrackedCaches) (b), stays b →
    (s.masks b).getLsbD i = decide ((place i b : ℕ) < p.trackedBlocks i)
  others : ∀ b j, p.numTrackedCaches ≤ j → (s.masks b).getLsbD j = false

structure Tracked (s : FALRU p) (pos : Fin p.numBlocks ≃ Fin p.numBlocks) : Prop where
  head : (pos s.head : ℕ) = 0
  tail : (pos s.tail : ℕ) + 1 = p.numBlocks
  links : Links pos s.prevs s.nexts
  bounds : Bounds s (fun _ => pos) (fun _ => True)

theorem exists_prev (hlinks : Links pos s.prevs s.nexts) (hpos : 0 < (pos b : ℕ)) :
    ∃ c, (s.blks b).prev = some c ∧ (pos c : ℕ) + 1 = pos b := by
  have hc : (pos (pos.symm ⟨pos b - 1, by omega⟩) : ℕ) + 1 = pos b := by
    rw [Equiv.apply_symm_apply]
    exact Nat.sub_add_cancel hpos
  exact ⟨_, (hlinks.prev_iff b _).mpr hc.symm, hc⟩

theorem exists_next (hlinks : Links pos s.prevs s.nexts) (hpos : (pos b : ℕ) + 1 < p.numBlocks) :
    ∃ c, (s.blks b).next = some c ∧ (pos c : ℕ) = pos b + 1 := by
  have hc : (pos (pos.symm ⟨pos b + 1, hpos⟩) : ℕ) = pos b + 1 := by
    rw [Equiv.apply_symm_apply]
  exact ⟨_, (hlinks.next_iff b _).mpr hc, hc⟩

theorem Bounds.change {place : Fin p.numTrackedCaches → Fin p.numBlocks ≃ Fin p.numBlocks}
    {stays : Fin p.numBlocks → Prop} (h : Bounds s place stays)
    (hb : t.boundaries = update s.boundaries i (some b))
    (hpos : (pos' b : ℕ) + 1 = p.trackedBlocks i)
    (hin : ∀ x, stays x → (t.masks x).getLsbD i = decide ((pos' x : ℕ) < p.trackedBlocks i))
    (hout : ∀ x j, j ≠ i.val → (t.masks x).getLsbD j = (s.masks x).getLsbD j) :
    Bounds t (update place i pos') stays := by
  constructor
  · intro j
    rw [hb]
    by_cases hj : j = i
    · subst hj
      exact ⟨b, update_self .., by rw [update_self, hpos]⟩
    · rw [update_of_ne hj, update_of_ne hj]
      exact h.boundary j
  · intro j x hx
    by_cases hj : j = i
    · subst hj
      rw [hin x hx, update_self]
    · rw [hout x j (fun hij => hj (Fin.ext hij)), update_of_ne hj]
      exact h.inCaches j x hx
  · intro x j hj
    rw [hout x j (fun hij => by omega)]
    exact h.others x j hj

section Boundaries

variable {place : Fin p.numTrackedCaches → Fin p.numBlocks ≃ Fin p.numBlocks}
  {updateCachesMask : BitVec 32}

/-- The boundary of one cache moves, and with it one block into the cache or out of it. -/
theorem Bounds.cross {c : Fin p.numBlocks} {m : BitVec 32} (h : Bounds s place (· ≠ blk))
    (hplace : place i = pos) (hb : t.boundaries = update s.boundaries i (some b))
    (hmasks : t.masks = update s.masks c m) (hpos : (pos' b : ℕ) + 1 = p.trackedBlocks i)
    (hbit : m.getLsbD i = decide ((pos' c : ℕ) < p.trackedBlocks i))
    (hkept : ∀ j, j ≠ i.val → m.getLsbD j = (s.masks c).getLsbD j)
    (hrest : ∀ x, x ≠ blk → (pos x : ℕ) ≠ pos c →
      ((pos x : ℕ) < p.trackedBlocks i ↔ (pos' x : ℕ) < p.trackedBlocks i)) :
    Bounds t (update place i pos') (· ≠ blk) := by
  apply h.change hb hpos
  · intro x hx
    by_cases hxc : x = c
    · subst hxc
      rw [hmasks, update_self, hbit]
    · rw [hmasks, update_of_ne hxc, h.inCaches i x hx, hplace, decide_eq_decide]
      exact hrest x hx (position_ne pos hxc)
  · intro x j hj
    by_cases hxc : x = c
    · subst hxc
      rw [hmasks, update_self, hkept j hj]
    · rw [hmasks, update_of_ne hxc]

theorem boundaryToHead_spec (hz : p.Sized) (hlinks : Links pos s.prevs s.nexts)
    (hblk : 0 < (pos blk : ℕ)) (hbounds : Bounds s place (· ≠ blk)) (hplace : place i = pos)
    (hmask : updateCachesMask.getLsbD i = decide (p.trackedBlocks i ≤ pos blk)) :
    ∃ t, boundaryToHead blk updateCachesMask s i = .ok t ∧ SameLists s t ∧
      Bounds t (update place i (toFront pos blk)) (· ≠ blk) := by
  have hi : i.val < 32 := i.isLt.trans_le hz.few
  have htwo := hz.two_le i i.isLt
  obtain ⟨b, hb, hpos⟩ := hbounds.boundary i
  have hin := hbounds.inCaches i
  rw [hplace] at hpos hin
  have hsame := SameLists.refl s
  by_cases hout : p.trackedBlocks i ≤ pos blk
  · -- The last block of the cache drops out of it.
    obtain ⟨c, hc, hcpos⟩ := exists_prev hlinks (show 0 < (pos b : ℕ) by omega)
    have hbit : 1#32 <<< i.val &&& updateCachesMask ≠ 0 := by
      rw [shiftLeft_and_ne_zero hi, hmask]
      exact decide_eq_true hout
    have hrun : boundaryToHead blk updateCachesMask s i =
        .ok ((s.setMask b ((s.blks b).inCachesMask &&& ~~~(1#32 <<< i.val))).setBoundary i
          (some c)) := by
      have hset (m : BitVec 32) : ((s.setMask b m).blks b).prev = some c :=
        (congrFun setMask_prevs b).trans hc
      rw [boundaryToHead, if_pos hbit, hb, ← hset ((s.blks b).inCachesMask &&& ~~~(1#32 <<< i.val))]
      rfl
    refine ⟨_, hrun, hsame.setMask.setBoundary, ?_⟩
    have hcblk : c ≠ blk := by
      rintro rfl
      omega
    have hbblk : b ≠ blk := by
      rintro rfl
      omega
    refine hbounds.cross hplace rfl setMask_masks ?_ ?_ (fun j hj => ?_) fun x hx hne => ?_
    · rw [coe_toFront, if_neg hcblk, if_pos (by omega)]
      omega
    · rw [getLsbD_and_not_shiftLeft hi, coe_toFront, if_neg hbblk, if_pos (by omega), hpos]
      simp
    · rw [getLsbD_and_not_shiftLeft hi, decide_eq_false (Ne.symm hj)]
      exact Bool.and_true _
    · rw [coe_toFront, if_neg hx]
      split_ifs <;> omega
  · have hin' : ∀ x, x ≠ blk → (s.masks x).getLsbD i =
        decide ((toFront pos blk x : ℕ) < p.trackedBlocks i) := by
      intro x hx
      rw [hin x hx, coe_toFront, if_neg hx, decide_eq_decide]
      split_ifs <;> omega
    have hbit : ¬ (1#32 <<< i.val &&& updateCachesMask ≠ 0) := by
      rw [shiftLeft_and_ne_zero hi, hmask]
      simpa using hout
    by_cases hbb : b = blk
    · subst hbb
      obtain ⟨c, hc, hcpos⟩ := exists_prev hlinks hblk
      refine ⟨_, by rw [boundaryToHead, if_neg hbit, if_pos hb]; rfl, hsame.setBoundary, ?_⟩
      apply hbounds.change (show _ = update s.boundaries i (some c) by rw [← hc]; rfl)
      · have hcb : c ≠ b := by
          rintro rfl
          omega
        rw [coe_toFront, if_neg hcb, if_pos (by omega)]
        omega
      · exact hin'
      · exact fun x j hj => rfl
    · have hne := position_ne pos hbb
      refine ⟨s, ?_, hsame, ?_⟩
      · rw [boundaryToHead, if_neg hbit, if_neg]
        · rfl
        · rw [hb]
          exact fun heq => hbb (Option.some.inj heq)
      · apply hbounds.change (show _ = update s.boundaries i (some b) by
          rw [← hb, update_eq_self])
        · rw [coe_toFront, if_neg hbb, if_neg (by omega)]
          exact hpos
        · exact hin'
        · exact fun x j hj => rfl

theorem boundaryToTail_spec (hz : p.Sized) (hlinks : Links pos s.prevs s.nexts)
    (hbounds : Bounds s place (· ≠ blk)) (hplace : place i = pos)
    (hmask : updateCachesMask.getLsbD i = decide ((pos blk : ℕ) < p.trackedBlocks i)) :
    ∃ t, boundaryToTail blk updateCachesMask s i = .ok t ∧ SameLists s t ∧
      Bounds t (update place i (toBack pos blk)) (· ≠ blk) := by
  have hi : i.val < 32 := i.isLt.trans_le hz.few
  have hlt := hz.lt i i.isLt
  obtain ⟨b, hb, hpos⟩ := hbounds.boundary i
  have hin := hbounds.inCaches i
  rw [hplace] at hpos hin
  have hsame := SameLists.refl s
  by_cases hinside : (pos blk : ℕ) < p.trackedBlocks i
  · -- The first block outside the cache gets into it.
    obtain ⟨c, hc, hcpos⟩ := exists_next hlinks (show (pos b : ℕ) + 1 < p.numBlocks by omega)
    have hcblk : c ≠ blk := by
      rintro rfl
      omega
    have hbit : 1#32 <<< i.val &&& updateCachesMask ≠ 0 := by
      rw [shiftLeft_and_ne_zero hi, hmask]
      exact decide_eq_true hinside
    have hrun : boundaryToTail blk updateCachesMask s i =
        .ok ((s.setBoundary i (some c)).setMask c
          ((s.blks c).inCachesMask ||| 1#32 <<< i.val)) := by
      rw [boundaryToTail, if_pos hbit, hb]
      change (do
        let boundary ← demand (if (s.blks b).next = some blk then (s.blks blk).next
          else (s.blks b).next) Fault.nullPointer
        _) = _
      rw [hc, if_neg (fun heq => hcblk (Option.some.inj heq))]
      rfl
    refine ⟨_, hrun, hsame.setBoundary.setMask, ?_⟩
    refine hbounds.cross hplace rfl setMask_masks ?_ ?_ (fun j hj => ?_) fun x hx hne => ?_
    · rw [coe_toBack, if_neg hcblk, if_pos (by omega)]
      omega
    · rw [getLsbD_or_shiftLeft hi, decide_eq_true rfl, Bool.or_true, coe_toBack, if_neg hcblk,
        if_pos (by omega), eq_comm]
      exact decide_eq_true (by omega)
    · rw [getLsbD_or_shiftLeft hi, decide_eq_false (Ne.symm hj)]
      exact Bool.or_false _
    · have hblk := position_ne pos hx
      rw [coe_toBack, if_neg hx]
      split_ifs <;> omega
  · have hbit : ¬ (1#32 <<< i.val &&& updateCachesMask ≠ 0) := by
      rw [shiftLeft_and_ne_zero hi, hmask]
      simpa using hinside
    refine ⟨s, by rw [boundaryToTail, if_neg hbit]; rfl, hsame, ?_⟩
    apply hbounds.change (show _ = update s.boundaries i (some b) by
      rw [← hb, update_eq_self])
    · have hbb : b ≠ blk := by
        rintro rfl
        omega
      rw [coe_toBack, if_neg hbb, if_neg (by omega)]
      exact hpos
    · intro x hx
      have hne := position_ne pos hx
      rw [hin x hx, coe_toBack, if_neg hx, decide_eq_decide]
      split_ifs <;> omega
    · exact fun x j hj => rfl

/-- The boundaries of the caches that are left in the list have not moved yet. -/
def Moving (pos pos' : Fin p.numBlocks ≃ Fin p.numBlocks) (blk : Fin p.numBlocks) (s : FALRU p)
    (l : List (Fin p.numTrackedCaches)) (r : FALRU p) : Prop :=
  l.Nodup ∧ SameLists s r ∧ Bounds r (fun i => if i ∈ l then pos else pos') (· ≠ blk)

theorem boundaries_loop {body : FALRU p → Fin p.numTrackedCaches → Except Fault (FALRU p)}
    (hbody : ∀ {r : FALRU p} {i place}, Links pos r.prevs r.nexts → Bounds r place (· ≠ blk) →
      place i = pos → ∃ t, body r i = .ok t ∧ SameLists r t ∧
        Bounds t (update place i pos') (· ≠ blk))
    (hlinks : Links pos s.prevs s.nexts) (hbounds : Bounds s (fun _ => pos) (· ≠ blk)) :
    ∃ t, (List.finRange p.numTrackedCaches).foldlM body s = .ok t ∧ SameLists s t ∧
      Bounds t (fun _ => pos') (· ≠ blk) := by
  have hstart : Moving pos pos' blk s (List.finRange p.numTrackedCaches) s := by
    refine ⟨nodup_finRange _, .refl s, ?_⟩
    simpa only [mem_finRange, if_true] using hbounds
  have hkeep {r : FALRU p} {i l} (h : Moving pos pos' blk s (i :: l) r) :
      ∃ t, body r i = .ok t ∧ Moving pos pos' blk s l t := by
    obtain ⟨hnodup, hsame, hbounds⟩ := h
    obtain ⟨hi, hnodup⟩ := nodup_cons.mp hnodup
    rw [← hsame.prevs, ← hsame.nexts] at hlinks
    obtain ⟨t, ht, hrt, hbounds⟩ := hbody hlinks hbounds (if_pos mem_cons_self)
    refine ⟨t, ht, hnodup, hsame.trans hrt, ?_⟩
    convert hbounds using 1
    funext j
    by_cases hj : j = i
    · subst hj
      rw [if_neg hi, update_self]
    · rw [update_of_ne hj]
      simp only [mem_cons, hj, false_or]
  obtain ⟨t, ht, -, hsame, hbounds⟩ := run_consumes hkeep hstart
  refine ⟨t, ht, hsame, ?_⟩
  simpa only [not_mem_nil, if_false] using hbounds

end Boundaries

theorem Bounds.settle (h : Bounds s (fun _ => pos) (· ≠ blk)) {m : BitVec 32}
    (hin : ∀ i : Fin p.numTrackedCaches, m.getLsbD i = decide ((pos blk : ℕ) < p.trackedBlocks i))
    (hout : ∀ j, p.numTrackedCaches ≤ j → m.getLsbD j = false) :
    Bounds (s.setMask blk m) (fun _ => pos) (fun _ => True) := by
  constructor
  · exact h.boundary
  · intro i b _
    rw [setMask_masks]
    by_cases hb : b = blk
    · subst hb
      rw [update_self, hin]
    · rw [update_of_ne hb]
      exact h.inCaches i b hb
  · intro b j hj
    rw [setMask_masks]
    by_cases hb : b = blk
    · subst hb
      rw [update_self, hout j hj]
    · rw [update_of_ne hb]
      exact h.others b j hj

theorem Bounds.weaken (h : Bounds s (fun _ => pos) (fun _ => True)) :
    Bounds s (fun _ => pos) (· ≠ blk) :=
  ⟨h.boundary, fun i b _ => h.inCaches i b trivial, h.others⟩

theorem moveBlockToHead_spec (hz : p.Sized) (h : Tracked s pos) (hblk : 0 < (pos blk : ℕ)) :
    ∃ t, s.moveBlockToHead blk = .ok t ∧ SameLists s t ∧
      Bounds t (fun _ => toFront pos blk) (fun _ => True) := by
  have hmask (i : Fin p.numTrackedCaches) :
      (p.inAllCachesMask ^^^ (s.blks blk).inCachesMask).getLsbD i
      = decide (p.trackedBlocks i ≤ pos blk) := by
    have hbit : (s.blks blk).inCachesMask.getLsbD i = _ := h.bounds.inCaches i blk trivial
    rw [getLsbD_xor, p.getLsbD_inAllCachesMask hz.few, hbit, decide_eq_true i.isLt,
      Bool.true_xor, ← decide_not, decide_eq_decide]
    exact Nat.not_lt
  obtain ⟨t, ht, hsame, hbounds⟩ := boundaries_loop (fun hlinks hbounds hplace =>
    boundaryToHead_spec hz hlinks hblk hbounds hplace (hmask _)) h.links h.bounds.weaken
  refine ⟨_, by rw [moveBlockToHead, ht]; rfl, hsame.setMask, hbounds.settle ?_ ?_⟩
  · intro i
    have htwo := hz.two_le i i.isLt
    rw [p.getLsbD_inAllCachesMask hz.few, coe_toFront, if_pos rfl, decide_eq_true i.isLt, eq_comm]
    exact decide_eq_true (by omega)
  · intro j hj
    rw [p.getLsbD_inAllCachesMask hz.few]
    exact decide_eq_false (by omega)

theorem moveBlockToTail_spec (hz : p.Sized) (h : Tracked s pos) (blk : Fin p.numBlocks) :
    ∃ t, s.moveBlockToTail blk = .ok t ∧ SameLists s t ∧
      Bounds t (fun _ => toBack pos blk) (fun _ => True) := by
  obtain ⟨t, ht, hsame, hbounds⟩ := boundaries_loop (fun hlinks hbounds hplace =>
    boundaryToTail_spec hz hlinks hbounds hplace (h.bounds.inCaches _ blk trivial)) h.links
    h.bounds.weaken
  refine ⟨_, by rw [moveBlockToTail]; exact congrArg (· >>= _) ht, hsame.setMask,
    hbounds.settle ?_ ?_⟩
  · intro i
    have hlt := hz.lt i i.isLt
    rw [coe_toBack, if_pos rfl, decide_eq_false (by omega)]
    exact getLsbD_zero
  · intro j hj
    exact getLsbD_zero

structure Unlinked (s t : FALRU p) (blk : Fin p.numBlocks) : Prop where
  prevs : ∀ b, t.prevs b = if s.nexts blk = some b then s.prevs blk else s.prevs b
  nexts : ∀ b, t.nexts b = if s.prevs blk = some b then s.nexts blk else s.nexts b
  masks : t.masks = s.masks
  cacheBlks : t.cacheBlks = s.cacheBlks
  boundaries : t.boundaries = s.boundaries
  tagHash : t.tagHash = s.tagHash

theorem unlink_spec {before after : Fin p.numBlocks} (hprev : s.prevs blk = some before)
    (hnext : s.nexts blk = some after) (hne : before ≠ blk) :
    ∃ t, s.unlink blk = .ok t ∧ Unlinked s t blk ∧ t.head = s.head ∧ t.tail = s.tail := by
  have hprev' (v : Option (Fin p.numBlocks)) : ((s.setNext before v).blks blk).prev = some before :=
    (congrFun setNext_prevs blk).trans hprev
  have hnext' (v : Option (Fin p.numBlocks)) :
      ((s.setNext before v).blks blk).next = some after := by
    refine (congrFun setNext_nexts blk).trans ?_
    rw [update_of_ne hne.symm, hnext]
  have hprev₀ : (s.blks blk).prev = some before := hprev
  have hnext₀ : (s.blks blk).next = some after := hnext
  refine ⟨(s.setNext before (some after)).setPrev after (some before), ?_,
    ⟨?_, ?_, ?_, ?_, rfl, rfl⟩, rfl, rfl⟩
  · rw [unlink, hprev₀, hnext₀]
    simp only [demand, ok_bind, hnext', hprev']
    rfl
  · intro b
    rw [setPrev_prevs, setNext_prevs, hprev, hnext, update_apply]
    simp only [Option.some.injEq, eq_comm]
  · intro b
    rw [setPrev_nexts, setNext_nexts, hprev, hnext, update_apply]
    simp only [Option.some.injEq, eq_comm]
  · rw [setPrev_masks, setNext_masks]
  · rw [setPrev_cacheBlks, setNext_cacheBlks]

theorem leaveTail_spec {before : Fin p.numBlocks} (hprev : s.prevs blk = some before)
    (hnext : s.nexts blk = none) :
    ∃ t, s.leaveTail blk = .ok t ∧ Unlinked s t blk ∧ t.head = s.head ∧ t.tail = before := by
  have hprev₀ : (s.blks blk).prev = some before := hprev
  have hnext₀ : (s.blks blk).next = none := hnext
  refine ⟨{ s with tail := before }.setNext before none, ?_,
    ⟨?_, ?_, setNext_masks, setNext_cacheBlks, rfl, rfl⟩, rfl, rfl⟩
  · rw [leaveTail, hprev₀, hnext₀]
    rfl
  · intro b
    rw [setNext_prevs, hnext, if_neg nofun]
    rfl
  · intro b
    rw [setNext_nexts, hprev, hnext, update_apply]
    simp only [Option.some.injEq, eq_comm]
    rfl

theorem leaveHead_spec {after : Fin p.numBlocks} (hprev : s.prevs blk = none)
    (hnext : s.nexts blk = some after) :
    ∃ t, s.leaveHead blk = .ok t ∧ Unlinked s t blk ∧ t.head = after ∧ t.tail = s.tail := by
  have hprev₀ : (s.blks blk).prev = none := hprev
  have hnext₀ : (s.blks blk).next = some after := hnext
  refine ⟨{ s with head := after }.setPrev after none, ?_,
    ⟨?_, ?_, setPrev_masks, setPrev_cacheBlks, rfl, rfl⟩, rfl, rfl⟩
  · rw [leaveHead, hprev₀, hnext₀]
    rfl
  · intro b
    rw [setPrev_prevs, hprev, hnext, update_apply]
    simp only [Option.some.injEq, eq_comm]
    rfl
  · intro b
    rw [setPrev_nexts, hprev, if_neg nofun]
    rfl

theorem Bounds.of_eq {place : Fin p.numTrackedCaches → Fin p.numBlocks ≃ Fin p.numBlocks}
    {stays : Fin p.numBlocks → Prop} (h : Bounds s place stays) (hmasks : t.masks = s.masks)
    (hboundaries : t.boundaries = s.boundaries) : Bounds t place stays := by
  constructor
  · rw [hboundaries]
    exact h.boundary
  · rw [hmasks]
    exact h.inCaches
  · rw [hmasks]
    exact h.others

theorem pushHead_spec (hlinks : Links pos s.prevs s.nexts) (hunlinked : Unlinked s t blk)
    (hbounds : Bounds s (fun _ => toFront pos blk) (fun _ => True)) (hhead : (pos t.head : ℕ) = 0)
    (hne : blk ≠ t.head) (htail : (toFront pos blk t.tail : ℕ) + 1 = p.numBlocks) :
    Tracked (t.pushHead blk) (toFront pos blk) := by
  have hprevs : (t.pushHead blk).prevs =
      update (update t.prevs blk none) t.head (some blk) := by
    change (((t.setNext blk _).setPrev blk none).setPrev t.head (some blk)).prevs = _
    rw [setPrev_prevs, setPrev_prevs, setNext_prevs]
  have hnexts : (t.pushHead blk).nexts = update t.nexts blk (some t.head) := by
    change (((t.setNext blk _).setPrev blk none).setPrev t.head (some blk)).nexts = _
    rw [setPrev_nexts, setPrev_nexts, setNext_nexts]
  have hmasks : (t.pushHead blk).masks = s.masks := by
    change (((t.setNext blk _).setPrev blk none).setPrev t.head (some blk)).masks = _
    rw [setPrev_masks, setPrev_masks, setNext_masks, hunlinked.masks]
  constructor
  · change (toFront pos blk blk : ℕ) = 0
    rw [coe_toFront, if_pos rfl]
  · exact htail
  · apply hlinks.front hhead hne
    · intro b
      rw [hnexts, update_apply, hunlinked.nexts]
    · intro b
      rw [hprevs, update_apply, update_apply, hunlinked.prevs]
  · exact hbounds.of_eq hmasks hunlinked.boundaries

theorem pushTail_spec (hlinks : Links pos s.prevs s.nexts) (hunlinked : Unlinked s t blk)
    (hbounds : Bounds s (fun _ => toBack pos blk) (fun _ => True))
    (htail : (pos t.tail : ℕ) + 1 = p.numBlocks) (hne : blk ≠ t.tail)
    (hhead : (toBack pos blk t.head : ℕ) = 0) : Tracked (t.pushTail blk) (toBack pos blk) := by
  have hnexts : (t.pushTail blk).nexts =
      update (update t.nexts blk none) t.tail (some blk) := by
    change (((t.setPrev blk _).setNext blk none).setNext t.tail (some blk)).nexts = _
    rw [setNext_nexts, setNext_nexts, setPrev_nexts]
  have hprevs : (t.pushTail blk).prevs = update t.prevs blk (some t.tail) := by
    change (((t.setPrev blk _).setNext blk none).setNext t.tail (some blk)).prevs = _
    rw [setNext_prevs, setNext_prevs, setPrev_prevs]
  have hmasks : (t.pushTail blk).masks = s.masks := by
    change (((t.setPrev blk _).setNext blk none).setNext t.tail (some blk)).masks = _
    rw [setNext_masks, setNext_masks, setPrev_masks, hunlinked.masks]
  constructor
  · exact hhead
  · change (toBack pos blk blk : ℕ) + 1 = p.numBlocks
    rw [coe_toBack, if_pos rfl]
    omega
  · apply hlinks.back htail hne
    · intro b
      rw [hprevs, update_apply, hunlinked.prevs]
    · intro b
      rw [hnexts, update_apply, update_apply, hunlinked.nexts]
  · exact hbounds.of_eq hmasks hunlinked.boundaries

theorem pushHead_cacheBlks : (s.pushHead blk).cacheBlks = s.cacheBlks := by
  change (((s.setNext blk _).setPrev blk none).setPrev s.head (some blk)).cacheBlks = _
  rw [setPrev_cacheBlks, setPrev_cacheBlks, setNext_cacheBlks]

theorem pushTail_cacheBlks : (s.pushTail blk).cacheBlks = s.cacheBlks := by
  change (((s.setPrev blk _).setNext blk none).setNext s.tail (some blk)).cacheBlks = _
  rw [setNext_cacheBlks, setNext_cacheBlks, setPrev_cacheBlks]

theorem detachFromTail_spec (hlinks : Links pos s.prevs s.nexts) (hfirst : 0 < (pos blk : ℕ))
    (htail : (pos s.tail : ℕ) + 1 = p.numBlocks) :
    ∃ t, (if blk = s.tail then s.leaveTail blk else s.unlink blk) = .ok t ∧ Unlinked s t blk ∧
      t.head = s.head ∧ (toFront pos blk t.tail : ℕ) + 1 = p.numBlocks := by
  obtain ⟨before, hprev, hbefore⟩ := exists_prev hlinks hfirst
  have hne : before ≠ blk := by
    rintro rfl
    omega
  by_cases hlast : blk = s.tail
  · rw [if_pos hlast]
    have hnext : s.nexts blk = none := by
      rw [Option.eq_none_iff_forall_ne_some]
      intro c hc
      have hnext := (hlinks.next_iff blk c).mp hc
      rw [← hlast] at htail
      omega
    obtain ⟨t, ht, hunlinked, hhead, rfl⟩ := leaveTail_spec hprev hnext
    refine ⟨t, ht, hunlinked, hhead, ?_⟩
    rw [coe_toFront, if_neg hne, if_pos (by omega), hbefore, hlast, htail]
  · rw [if_neg hlast]
    have hlt := position_ne pos hlast
    obtain ⟨after, hnext, -⟩ := exists_next hlinks (show (pos blk : ℕ) + 1 < p.numBlocks by omega)
    obtain ⟨t, ht, hunlinked, hhead, htail₂⟩ := unlink_spec hprev hnext hne
    refine ⟨t, ht, hunlinked, hhead, ?_⟩
    rw [htail₂, coe_toFront, if_neg (Ne.symm hlast), if_neg (by omega), htail]

theorem detachFromHead_spec (hlinks : Links pos s.prevs s.nexts)
    (hlast : (pos blk : ℕ) + 1 < p.numBlocks) (hhead : (pos s.head : ℕ) = 0) :
    ∃ t, (if blk = s.head then s.leaveHead blk else s.unlink blk) = .ok t ∧ Unlinked s t blk ∧
      t.tail = s.tail ∧ (toBack pos blk t.head : ℕ) = 0 := by
  obtain ⟨after, hnext, hafter⟩ := exists_next hlinks hlast
  by_cases hfirst : blk = s.head
  · rw [if_pos hfirst]
    have hprev : s.prevs blk = none := by
      rw [Option.eq_none_iff_forall_ne_some]
      intro c hc
      have hprev := (hlinks.prev_iff blk c).mp hc
      rw [← hfirst] at hhead
      omega
    obtain ⟨t, ht, hunlinked, rfl, htail⟩ := leaveHead_spec hprev hnext
    refine ⟨t, ht, hunlinked, htail, ?_⟩
    have hne : t.head ≠ blk := by
      intro heq
      rw [heq] at hafter
      omega
    rw [← hfirst] at hhead
    rw [coe_toBack, if_neg hne, if_pos (by omega), hafter, hhead]
  · rw [if_neg hfirst]
    have hlt := position_ne pos hfirst
    obtain ⟨before, hprev, hbefore⟩ := exists_prev hlinks (show 0 < (pos blk : ℕ) by omega)
    have hne : before ≠ blk := by
      rintro rfl
      omega
    obtain ⟨t, ht, hunlinked, hhead₂, htail⟩ := unlink_spec hprev hnext hne
    refine ⟨t, ht, hunlinked, htail, ?_⟩
    rw [hhead₂, coe_toBack, if_neg (Ne.symm hfirst), if_neg (by omega), hhead]

theorem moveToHead_spec (hz : p.Sized) (h : Tracked s pos) (blk : Fin p.numBlocks) :
    ∃ t, s.moveToHead blk = .ok t ∧ Tracked t (toFront pos blk) ∧ t.cacheBlks = s.cacheBlks ∧
      t.tagHash = s.tagHash := by
  by_cases hblk : blk = s.head
  · subst hblk
    refine ⟨s, by rw [moveToHead, if_neg (fun hne => hne rfl)]; rfl, ?_, rfl, rfl⟩
    rwa [toFront_first h.head]
  · have hpos := position_ne pos hblk
    rw [h.head] at hpos
    have hfirst : 0 < (pos blk : ℕ) := Nat.pos_of_ne_zero hpos
    obtain ⟨s₁, hs₁, hsame, hbounds⟩ := moveBlockToHead_spec hz h hfirst
    have hlinks := h.links
    rw [← hsame.prevs, ← hsame.nexts] at hlinks
    obtain ⟨s₂, hs₂, hunlinked, hhead, htail⟩ :=
      detachFromTail_spec hlinks hfirst (hsame.tail ▸ h.tail)
    rw [hsame.head] at hhead
    have hmove : s.moveToHead blk = .ok (s₂.pushHead blk) := by
      rw [moveToHead, if_pos hblk, hs₁, ok_bind, hs₂]
      rfl
    refine ⟨_, hmove, ?_, ?_, ?_⟩
    · rw [← hhead] at hblk
      exact pushHead_spec hlinks hunlinked hbounds (hhead ▸ h.head) hblk htail
    · rw [pushHead_cacheBlks, hunlinked.cacheBlks, hsame.cacheBlks]
    · exact hunlinked.tagHash.trans hsame.tagHash

theorem moveToTail_spec (hz : p.Sized) (h : Tracked s pos) (blk : Fin p.numBlocks) :
    ∃ t, s.moveToTail blk = .ok t ∧ Tracked t (toBack pos blk) ∧ t.cacheBlks = s.cacheBlks ∧
      t.tagHash = s.tagHash := by
  by_cases hblk : blk = s.tail
  · subst hblk
    refine ⟨s, by rw [moveToTail, if_neg (fun hne => hne rfl)]; rfl, ?_, rfl, rfl⟩
    rwa [toBack_last h.tail]
  · have hpos := position_ne pos hblk
    have htail := h.tail
    have hlast : (pos blk : ℕ) + 1 < p.numBlocks := by omega
    obtain ⟨s₁, hs₁, hsame, hbounds⟩ := moveBlockToTail_spec hz h blk
    have hlinks := h.links
    rw [← hsame.prevs, ← hsame.nexts] at hlinks
    obtain ⟨s₂, hs₂, hunlinked, htail₂, hhead⟩ :=
      detachFromHead_spec hlinks hlast (hsame.head ▸ h.head)
    rw [hsame.tail] at htail₂
    have hmove : s.moveToTail blk = .ok (s₂.pushTail blk) := by
      rw [moveToTail, if_pos hblk, hs₁, ok_bind, hs₂]
      rfl
    refine ⟨_, hmove, ?_, ?_, ?_⟩
    · rw [← htail₂] at hblk
      exact pushTail_spec hlinks hunlinked hbounds (htail₂ ▸ h.tail) hblk hhead
    · rw [pushTail_cacheBlks, hunlinked.cacheBlks, hsame.cacheBlks]
    · exact hunlinked.tagHash.trans hsame.tagHash

end FALRU

end HetSim.Tags
