import HetSim.Tags.Tracking

/-!
# Fully associative tags stay consistent

Every operation moves one block to an end of the list. The hash table follows the tags of the
valid blocks as long as a block is only inserted after a miss.
-/

namespace HetSim.Tags
open Address Checked Runs Positions Function Nat

namespace FALRUParams

variable {p : FALRUParams} {k m : ℕ}

theorem trackedBlocks_succ (p : FALRUParams) (i : ℕ) :
    p.trackedBlocks (i + 1) = p.trackedBlocks i * 2 := by
  rw [trackedBlocks, trackedBlocks, pow_succ, mul_assoc]

theorem trackedBlocks_mono (p : FALRUParams) : Monotone p.trackedBlocks := by
  apply monotone_nat_of_le_succ
  intro i
  rw [p.trackedBlocks_succ]
  omega

theorem sized (hsize : p.size = 2 ^ m) (hmin : p.minTrackedCacheSize = 2 ^ k * p.blockSize)
    (hk : 1 ≤ k) (hblocks : 1 < p.numBlocks)
    (hlog : p.minTrackedSize < p.maxSize → 0 < p.minTrackedSize)
    (hfew : p.numTrackedCaches ≤ 32) (hblk : Cache.isPowerOf2 p.blkSize)
    (hmax : Cache.isPowerOf2 p.maxSize) : p.Sized := by
  have hm : m < 32 := by
    by_contra hle
    have hzero : p.maxSize = 0 := by
      rw [maxSize, hsize]
      exact mod_eq_zero_of_dvd (pow_dvd_pow 2 (by omega))
    rw [hzero] at hmax
    exact absurd hmax (by decide)
  have hsize_lt : p.size < 2 ^ 32 := hsize ▸ Nat.pow_lt_pow_right one_lt_two hm
  have hmax_eq : p.maxSize = 2 ^ m := by rw [maxSize, mod_eq_of_lt hsize_lt, hsize]
  have hnum : p.numBlocks = p.size / p.blockSize :=
    mod_eq_of_lt ((Nat.div_le_self _ _).trans_lt hsize_lt)
  have hblock_lt : p.blockSize < 2 ^ 32 := by
    by_contra hle
    rw [hnum, div_eq_of_lt (by omega)] at hblocks
    omega
  have hblk_eq : p.blkSize = p.blockSize := mod_eq_of_lt hblock_lt
  obtain ⟨c, hc⟩ : ∃ c, p.blockSize = 2 ^ c := ⟨_, hblk_eq ▸ Cache.isPowerOf2_eq hblk⟩
  have hcm : c < m := by
    by_contra hle
    have hlt : p.size / p.blockSize < 2 := by
      apply Nat.div_lt_of_lt_mul
      rw [hsize, hc, ← pow_succ]
      exact Nat.pow_lt_pow_right one_lt_two (by omega)
    omega
  have hblocks_eq : p.numBlocks = 2 ^ (m - c) := by
    rw [hnum, hsize, hc, Nat.pow_div hcm.le two_pos]
  have hmin_eq : p.minTrackedCacheSize = 2 ^ (k + c) := by rw [hmin, hc, pow_add]
  have hkc : k + c < 32 := by
    by_contra hle
    have hzero : p.minTrackedSize = 0 := by
      rw [minTrackedSize, hmin_eq]
      exact mod_eq_zero_of_dvd (pow_dvd_pow 2 (by omega))
    have hpos := hlog (by rw [hzero, hmax_eq]; exact Nat.two_pow_pos m)
    omega
  have hstart : p.minTrackedSize = 2 ^ (k + c) := by
    rw [minTrackedSize, hmin_eq, mod_eq_of_lt (Nat.pow_lt_pow_right one_lt_two hkc)]
  have htracked (i : ℕ) : p.trackedBlocks i = 2 ^ (k + i) := by
    rw [trackedBlocks, hmin, Nat.mul_div_cancel _ (hc ▸ Nat.two_pow_pos c), pow_add]
  have hcaches : p.numTrackedCaches = m - (k + c) := by
    rw [numTrackedCaches, hstart, hmax_eq, log2_two_pow, log2_two_pow]
    simp only [Nat.pow_lt_pow_iff_right one_lt_two]
    split_ifs <;> omega
  constructor
  · exact hfew
  · intro i _
    rw [htracked]
    exact Nat.le_self_pow (by omega) 2
  · intro i hi
    rw [htracked, hblocks_eq]
    exact Nat.pow_lt_pow_right one_lt_two (by omega)
  · intro hpos
    rw [htracked, hblocks_eq]
    congr 1
    omega
  · intro _
    rw [hstart, htracked, hblk_eq, hc, Nat.add_zero, pow_add]
  · rw [hblk_eq, hc]
    exact Nat.two_pow_pos c
  · rw [hblocks_eq, hblk_eq, hc, ← pow_add]
    exact Nat.pow_lt_pow_right one_lt_two (by omega)

end FALRUParams

namespace FALRU

variable {p : FALRUParams} {s t : FALRU p} {blk b : Fin p.numBlocks} {i : Fin p.numTrackedCaches}
  {pos : Fin p.numBlocks ≃ Fin p.numBlocks}

structure Visited (s : FALRU p) (q j : ℕ) (inCachesMask : BitVec 32) : Prop where
  few : j ≤ p.numTrackedCaches
  ended : ∀ i < p.numTrackedCaches, i < j ↔ p.trackedBlocks i ≤ q
  mask : ∀ i, inCachesMask.getLsbD i = decide (j ≤ i ∧ i < p.numTrackedCaches)
  boundary : ∀ i : Fin p.numTrackedCaches, i.val < j →
    ∃ b, s.boundaries i = some b ∧ b.val + 1 = p.trackedBlocks i
  inCaches : ∀ b i, b.val < q → (s.masks b).getLsbD i =
    decide (b.val < p.trackedBlocks i ∧ i < p.numTrackedCaches)

variable {fuel q j : ℕ} {inCachesMask : BitVec 32}

theorem Visited.setMask (h : Visited s q j inCachesMask)
    (hb : b.val = q) (b' : Fin p.numBlocks) (i : ℕ) (hb' : b'.val < q + 1) :
    ((s.setMask b inCachesMask).masks b').getLsbD i =
      decide (b'.val < p.trackedBlocks i ∧ i < p.numTrackedCaches) := by
  rw [setMask_masks]
  by_cases heq : b' = b
  · subst heq
    rw [update_self, h.mask, decide_eq_decide, hb]
    by_cases hi : i < p.numTrackedCaches
    · have hended := h.ended i hi
      omega
    · exact iff_of_false (fun hand => hi hand.2) (fun hand => hi hand.2)
  · rw [update_of_ne heq]
    apply h.inCaches
    have hne : b'.val ≠ b.val := fun hval => heq (Fin.ext hval)
    omega

/-- The cache `j` ends at the block that is visited. -/
theorem Visited.ends (hz : p.Sized) (h : Visited s q j inCachesMask) (hq : q < p.numBlocks)
    (hj : j < p.numTrackedCaches) (hend : q + 1 = p.trackedBlocks j) :
    Visited ((s.setMask ⟨q, hq⟩ inCachesMask).setBoundary ⟨j, hj⟩ (some ⟨q, hq⟩)) (q + 1) (j + 1)
      (inCachesMask &&& ~~~(1#32 <<< j)) := by
  refine ⟨hj, fun i hi => ?_, fun i => ?_, fun i hi => ?_, h.setMask rfl⟩
  · have hended := h.ended i hi
    rcases lt_trichotomy i j with hij | rfl | hij
    · omega
    · omega
    · have hmono : p.trackedBlocks (j + 1) ≤ p.trackedBlocks i := p.trackedBlocks_mono hij
      have hsucc := p.trackedBlocks_succ j
      omega
  · rw [getLsbD_and_not_shiftLeft (hj.trans_le hz.few), h.mask, ← decide_not,
      ← Bool.decide_and, decide_eq_decide]
    omega
  · by_cases hij : i = ⟨j, hj⟩
    · subst hij
      exact ⟨⟨q, hq⟩, update_self .., hend⟩
    · have hne : i.val ≠ j := fun hval => hij (Fin.ext hval)
      obtain ⟨b, hb, hpos⟩ := h.boundary i (by omega)
      exact ⟨b, (update_of_ne hij _ _).trans hb, hpos⟩

theorem Visited.passes (h : Visited s q j inCachesMask) (hq : q < p.numBlocks)
    (hne : j < p.numTrackedCaches → q + 1 ≠ p.trackedBlocks j) :
    Visited (s.setMask ⟨q, hq⟩ inCachesMask) (q + 1) j inCachesMask := by
  refine ⟨h.few, fun i hi => ?_, h.mask, h.boundary, h.setMask rfl⟩
  have hended := h.ended i hi
  by_cases hij : i < j
  · omega
  · have hj : j < p.numTrackedCaches := by omega
    have hnot := h.ended j hj
    have hne := hne hj
    have hmono := p.trackedBlocks_mono (show j ≤ i by omega)
    omega

theorem Visited.bounds (hz : p.Sized) (hq : p.numBlocks ≤ q) (h : Visited s q j inCachesMask) :
    Bounds s (fun _ => Equiv.refl _) (fun _ => True) := by
  refine ⟨fun i => ?_, fun i b _ => ?_, fun b i hi => ?_⟩
  · have hlt := hz.lt i i.isLt
    exact h.boundary i ((h.ended i i.isLt).mpr (by omega))
  · rw [h.inCaches b i (by omega), decide_eq_decide]
    exact and_iff_left i.isLt
  · rw [h.inCaches b i (by omega)]
    exact decide_eq_false (by omega)

/-- The loop of `CacheTracking::init` ends with the boundaries and masks of blocks that lie
in the order of their addresses. -/
theorem trackFrom_spec (hz : p.Sized) (hk : 0 < p.numTrackedCaches)
    (hfuel : fuel + q = p.numBlocks)
    (hnext : ∀ b, s.nexts b = if h : b.val + 1 < p.numBlocks then some ⟨b.val + 1, h⟩ else none)
    (htail : s.tail.val + 1 = p.numBlocks) (h : Visited s q j inCachesMask) :
    ∃ t, s.trackFrom fuel (if hq : q < p.numBlocks then some ⟨q, hq⟩ else none) (q * p.blkSize)
        (p.trackedBlocks j * p.blkSize) inCachesMask j = .ok t ∧ SameLists s t ∧
      Bounds t (fun _ => Equiv.refl _) (fun _ => True) := by
  induction fuel generalizing s q j inCachesMask with
  | zero =>
    have hq : ¬ q < p.numBlocks := by omega
    exact ⟨s, by rw [dif_neg hq]; rfl, .refl s, h.bounds hz (by omega)⟩
  | succ fuel ih =>
    have hq : q < p.numBlocks := by omega
    rw [dif_pos hq]
    have hmul : (q + 1) * p.blkSize ≤ p.numBlocks * p.blkSize := Nat.mul_le_mul_right _ hq
    have hcurr : (q * p.blkSize + p.blkSize) % 2 ^ 32 = (q + 1) * p.blkSize := by
      rw [← Nat.succ_mul]
      exact mod_eq_of_lt (hmul.trans_lt hz.fits)
    have hnext' (b : Fin p.numBlocks) : (s.setMask ⟨q, hq⟩ inCachesMask).nexts b =
        if h : b.val + 1 < p.numBlocks then some ⟨b.val + 1, h⟩ else none :=
      (congrFun setMask_nexts b).trans (hnext b)
    have hstep : ((s.setMask ⟨q, hq⟩ inCachesMask).blks ⟨q, hq⟩).next =
        if h : q + 1 < p.numBlocks then some ⟨q + 1, h⟩ else none := hnext' ⟨q, hq⟩
    have hsame : SameLists s (s.setMask ⟨q, hq⟩ inCachesMask) := (SameLists.refl s).setMask
    have heq : (q + 1) * p.blkSize = p.trackedBlocks j * p.blkSize ↔ q + 1 = p.trackedBlocks j :=
      Nat.mul_left_inj hz.blkSize_pos.ne'
    rw [trackFrom]
    simp only [hcurr, hstep, heq]
    by_cases hend : q + 1 = p.trackedBlocks j ∧ ⟨q, hq⟩ ≠ (s.setMask ⟨q, hq⟩ inCachesMask).tail
    · rw [if_pos hend]
      have hlast : q ≠ s.tail.val := fun hval => hend.2 (Fin.ext hval)
      have hj : j < p.numTrackedCaches := by
        by_contra hge
        have htop := hz.top hk
        obtain rfl : j = p.numTrackedCaches := le_antisymm h.few (by omega)
        omega
      have hle : p.trackedBlocks (j + 1) ≤ p.numBlocks := hz.top hk ▸ p.trackedBlocks_mono hj
      have hdouble : p.trackedBlocks j * p.blkSize * 2 % 2 ^ 32 =
          p.trackedBlocks (j + 1) * p.blkSize := by
        rw [p.trackedBlocks_succ, mul_right_comm]
        apply mod_eq_of_lt
        rw [← p.trackedBlocks_succ]
        exact (Nat.mul_le_mul_right _ hle).trans_lt hz.fits
      rw [dif_pos hj, hdouble]
      have hvisited := h.ends hz hq hj hend.1
      obtain ⟨t, ht, hsame', hbounds⟩ :=
        ih (show fuel + (q + 1) = _ by omega) (by exact hnext') (by exact htail) hvisited
      exact ⟨t, ht, hsame.setBoundary.trans hsame', hbounds⟩
    · rw [if_neg hend]
      have hpass (hj : j < p.numTrackedCaches) (heq' : q + 1 = p.trackedBlocks j) : False := by
        refine hend ⟨heq', fun hlast => ?_⟩
        have hval : q = s.tail.val := congrArg Fin.val hlast
        have hlt := hz.lt j hj
        omega
      obtain ⟨t, ht, hsame', hbounds⟩ :=
        ih (show fuel + (q + 1) = _ by omega) hnext' htail (h.passes hq hpass)
      exact ⟨t, ht, hsame.trans hsame', hbounds⟩

theorem create_ok {s₀ : FALRU p} (h : create p = .ok s₀) : 1 < p.numBlocks ∧
    (p.minTrackedSize < p.maxSize → 0 < p.minTrackedSize) ∧ p.numTrackedCaches ≤ 32 ∧
    Cache.isPowerOf2 p.blkSize ∧ Cache.isPowerOf2 p.maxSize := by
  rw [create] at h
  split_ifs at h with hblocks
  simp only [bind_eq_ok, require_eq_ok] at h
  obtain ⟨⟨⟩, hlog, ⟨⟩, hfew, ⟨⟩, hblk, ⟨⟩, hmax, -⟩ := h
  exact ⟨hblocks, hlog, hfew, hblk, hmax⟩

theorem create_tracked (hz : p.Sized) (hblocks : 1 < p.numBlocks)
    (hlog : p.minTrackedSize < p.maxSize → 0 < p.minTrackedSize)
    (hblk : Cache.isPowerOf2 p.blkSize) (hmax : Cache.isPowerOf2 p.maxSize) :
    ∃ s₀, create p = .ok s₀ ∧ Tracked s₀ (Equiv.refl _) ∧ s₀.cacheBlks = (fun _ => {}) ∧
      s₀.tagHash = fun _ => none := by
  have htrack : ∃ t, (initial p hblocks).track = .ok t ∧ SameLists (initial p hblocks) t ∧
      Bounds t (fun _ => Equiv.refl _) (fun _ => True) := by
    rw [track]
    by_cases hk : p.numTrackedCaches = 0
    · rw [if_neg (fun hne => hne hk)]
      refine ⟨_, by rw [trackFrom.eq_def]; rfl, .refl _, ?_, ?_, ?_⟩
      · intro i
        exact absurd i.isLt (by omega)
      · intro i
        exact absurd i.isLt (by omega)
      · intro b j hj
        exact BitVec.getLsbD_zero
    · rw [if_pos hk]
      have hvisited : Visited (initial p hblocks) 0 0 p.inAllCachesMask := by
        constructor
        · exact Nat.zero_le _
        · intro i hi
          have htwo := hz.two_le i hi
          omega
        · intro i
          rw [p.getLsbD_inAllCachesMask hz.few, decide_eq_decide]
          omega
        · exact fun i hi => absurd hi (Nat.not_lt_zero _)
        · exact fun b i hb => absurd hb (Nat.not_lt_zero _)
      have hloop := trackFrom_spec hz (Nat.pos_of_ne_zero hk) (Nat.add_zero _) (fun b => rfl)
        (show p.numBlocks - 1 + 1 = p.numBlocks by omega) hvisited
      rw [dif_pos (show 0 < p.numBlocks by omega), Nat.zero_mul,
        ← hz.start (Nat.pos_of_ne_zero hk)] at hloop
      exact hloop
  obtain ⟨t, ht, hsame, hbounds⟩ := htrack
  refine ⟨t, ?_, ⟨?_, ?_, ?_, hbounds⟩, hsame.cacheBlks, hsame.tagHash⟩
  · rw [create, dif_pos hblocks, require, if_pos hlog, require, if_pos hz.few, require, if_pos hblk,
      require, if_pos hmax]
    exact ht
  · rw [hsame.head]
    rfl
  · rw [hsame.tail]
    exact Nat.sub_add_cancel (by omega)
  · rw [hsame.prevs, hsame.nexts]
    constructor
    · intro x y
      change (if h : x.val + 1 < p.numBlocks then some (⟨x.val + 1, h⟩ : Fin p.numBlocks) else none)
        = some y ↔ y.val = x.val + 1
      split_ifs with hx
      · rw [Option.some.injEq, Fin.ext_iff]
        exact eq_comm
      · exact iff_of_false (by simp) (by omega)
    · intro x y
      change (if 0 < x.val then some (⟨x.val - 1, _⟩ : Fin p.numBlocks) else none) = some y ↔
        x.val = y.val + 1
      split_ifs with hx
      · rw [Option.some.injEq, Fin.ext_iff]
        change x.val - 1 = y.val ↔ _
        omega
      · exact iff_of_false (by simp) (by omega)

theorem Tracked.of_eq (h : Tracked s pos) (hhead : t.head = s.head) (htail : t.tail = s.tail)
    (hprevs : t.prevs = s.prevs) (hnexts : t.nexts = s.nexts) (hmasks : t.masks = s.masks)
    (hboundaries : t.boundaries = s.boundaries) : Tracked t pos := by
  constructor
  · rw [hhead]
    exact h.head
  · rw [htail]
    exact h.tail
  · rw [hprevs, hnexts]
    exact h.links
  · exact h.bounds.of_eq hmasks hboundaries

theorem Tracked.setBlk (h : Tracked s pos) (blk : Fin p.numBlocks) (c : CacheBlk) :
    Tracked (s.setBlk blk c) pos :=
  h.of_eq rfl rfl setBlk_prevs setBlk_nexts setBlk_masks rfl

theorem Tracked.tail_mask (hz : p.Sized) (h : Tracked s pos) : s.masks s.tail = 0 := by
  apply BitVec.eq_of_getLsbD_eq
  intro j _
  refine Eq.trans ?_ BitVec.getLsbD_zero.symm
  by_cases hj : j < p.numTrackedCaches
  · have hlt := hz.lt j hj
    have htail := h.tail
    have hbit := h.bounds.inCaches ⟨j, hj⟩ s.tail trivial
    rw [hbit]
    exact decide_eq_false (by dsimp only; omega)
  · exact h.bounds.others s.tail j (by omega)

theorem touch_tracked (hz : p.Sized) (h : Tracked s pos) (blk : Option (Fin p.numBlocks)) :
    ∃ m t, s.touch blk = .ok (m, t) ∧ (∃ pos', Tracked t pos') ∧ t.cacheBlks = s.cacheBlks ∧
      t.tagHash = s.tagHash := by
  cases blk with
  | none => exact ⟨0, s, rfl, ⟨pos, h⟩, rfl, rfl⟩
  | some blk =>
    rw [touch]
    by_cases hvalid : (s.blks blk).isValid = true
    · obtain ⟨t, ht, htracked, hblks, hhash⟩ := moveToHead_spec hz h blk
      exact ⟨_, t, by rw [if_pos hvalid, ht]; rfl, ⟨_, htracked⟩, hblks, hhash⟩
    · exact ⟨0, s, by rw [if_neg hvalid]; rfl, ⟨pos, h⟩, rfl, rfl⟩

/-- The hash table leads from a tag to the valid block that has it, and a block that is not
valid has no status. -/
structure Hashed (s : FALRU p) : Prop where
  iff : ∀ key b, s.tagHash key = some b ↔
    (s.cacheBlks b).isValid = true ∧ ((s.cacheBlks b).tag, (s.cacheBlks b).isSecure) = key
  clear : ∀ b, (s.cacheBlks b).isValid = false → (s.cacheBlks b).status = {}

theorem Hashed.of_eq (h : Hashed s) (hblks : t.cacheBlks = s.cacheBlks)
    (hhash : t.tagHash = s.tagHash) : Hashed t := by
  constructor
  · rw [hblks, hhash]
    exact h.iff
  · rw [hblks]
    exact h.clear

variable {addr : Addr} {isSecure : Bool} {c : FALRUCall p}

theorem findBlock_ok (h : Hashed s) :
    s.findBlock addr isSecure = .ok (s.tagHash (p.blkAlign addr, isSecure)) := by
  rw [findBlock]
  cases hhash : s.tagHash (p.blkAlign addr, isSecure) with
  | none => rfl
  | some b =>
    obtain ⟨hvalid, hkey⟩ := (h.iff _ b).mp hhash
    have htag : (s.blks b).tag = p.blkAlign addr := congrArg Prod.fst hkey
    have hsecure : (s.blks b).isSecure = isSecure := congrArg Prod.snd hkey
    dsimp only
    rw [if_pos (show (s.blks b).isValid = true from hvalid), require, if_pos htag, require,
      if_pos hsecure]
    rfl

theorem recordAccess_tracked (h : Tracked s pos) (b : Option (Fin p.numBlocks)) :
    Tracked (s.recordAccess b) pos := h.of_eq rfl rfl rfl rfl rfl rfl

theorem accessBlock_ok {b : Option (Fin p.numBlocks)}
    (hz : p.Sized) (h : Tracked s pos) (hfind : s.findBlock addr isSecure = .ok b) :
    ∃ r t, s.accessBlock addr isSecure = .ok (r, t) ∧ (∃ pos', Tracked t pos') ∧
      t.cacheBlks = s.cacheBlks ∧ t.tagHash = s.tagHash := by
  obtain ⟨m, t, ht, ⟨pos', htracked⟩, hblks, hhash⟩ := touch_tracked hz h b
  refine ⟨_, t.recordAccess b, by rw [accessBlock, hfind, ok_bind, ht]; rfl,
    ⟨pos', recordAccess_tracked htracked b⟩, hblks, hhash⟩

theorem insertBlock_ok (hz : p.Sized) (h : Tracked s pos)
    (hmask : s.masks blk = 0) (hclear : (s.cacheBlks blk).status = {}) :
    ∃ t, s.insertBlock blk addr isSecure = .ok t ∧ Tracked t (toFront pos blk) ∧
      t.cacheBlks = Function.update s.cacheBlks blk
        ⟨p.blkAlign addr, { valid := true, secure := isSecure }⟩ ∧
      t.tagHash = Function.update s.tagHash (p.blkAlign addr, isSecure) (some blk) := by
  have hinsert : (s.blks blk).insert (p.blkAlign addr) isSecure =
      .ok ⟨p.blkAlign addr, { valid := true, secure := isSecure }⟩ := CacheBlk.insert_ok.mpr
        ⟨hclear, rfl⟩
  have hinvalid : (s.blks blk).isValid = false := congrArg Status.valid hclear
  obtain ⟨t, ht, htracked, hblks, hhash⟩ := moveToHead_spec hz (h.setBlk blk
    ⟨p.blkAlign addr, { valid := true, secure := isSecure }⟩) blk
  have hblk :
      (t.blks blk).toCacheBlk = ⟨p.blkAlign addr, { valid := true, secure := isSecure }⟩ := by
    have hblk := congrFun hblks blk
    rwa [setBlk_cacheBlks, update_self] at hblk
  refine ⟨{ t with tagHash := Function.update s.tagHash (p.blkAlign addr, isSecure) (some blk) },
    ?_, htracked.of_eq rfl rfl rfl rfl rfl rfl, hblks.trans setBlk_cacheBlks, rfl⟩
  rw [insertBlock, require, if_pos (show (s.blks blk).inCachesMask = 0 from hmask),
    ok_bind, require, if_pos hinvalid, ok_bind, hinsert, ok_bind, ht, ok_bind, hblk, hhash]
  rfl

theorem invalidate_ok (hz : p.Sized) (h : Tracked s pos) (hvalid : (s.cacheBlks blk).isValid = true)
    (hhash : s.tagHash ((s.cacheBlks blk).tag, (s.cacheBlks blk).isSecure) ≠ none) :
    ∃ t, s.invalidate blk = .ok t ∧ Tracked t (toBack pos blk) ∧
      t.cacheBlks = Function.update s.cacheBlks blk {} ∧
      t.tagHash = Function.update s.tagHash
        ((s.cacheBlks blk).tag, (s.cacheBlks blk).isSecure) none := by
  let s₁ : FALRU p := { s with
    tagHash := Function.update s.tagHash ((s.blks blk).tag, (s.blks blk).isSecure) none }
  have htracked₁ : Tracked s₁ pos := h.of_eq rfl rfl rfl rfl rfl rfl
  obtain ⟨t, ht, htracked, hblks, hhash₁⟩ := moveToTail_spec hz (htracked₁.setBlk blk {}) blk
  refine ⟨t, ?_, htracked, hblks.trans setBlk_cacheBlks, hhash₁⟩
  rw [invalidate, require,
    if_pos (show s.tagHash ((s.blks blk).tag, (s.blks blk).isSecure) ≠ none from hhash), ok_bind]
  dsimp only
  rw [require, if_pos (show (s.blks blk).isValid = true from hvalid), ok_bind]
  exact ht

theorem Hashed.insert (h : Hashed s)
    (hmiss : s.tagHash (p.blkAlign addr, isSecure) = none)
    (hinvalid : (s.cacheBlks blk).isValid = false)
    (hblks : t.cacheBlks = Function.update s.cacheBlks blk
      ⟨p.blkAlign addr, { valid := true, secure := isSecure }⟩)
    (hhash : t.tagHash = Function.update s.tagHash (p.blkAlign addr, isSecure) (some blk)) :
    Hashed t := by
  constructor
  · intro key b
    rw [hblks, hhash]
    have hiff := h.iff key b
    by_cases hb : b = blk
    · subst hb
      rw [update_self]
      by_cases hkey : key = (p.blkAlign addr, isSecure)
      · subst hkey
        rw [update_self]
        exact iff_of_true rfl ⟨rfl, rfl⟩
      · rw [update_of_ne hkey, hiff, hinvalid]
        exact iff_of_false (fun hand => nomatch hand.1) (fun hand => hkey hand.2.symm)
    · rw [update_of_ne hb]
      by_cases hkey : key = (p.blkAlign addr, isSecure)
      · subst hkey
        rw [update_self, ← hiff, hmiss]
        exact iff_of_false (fun heq => hb (Option.some.inj heq).symm) nofun
      · rw [update_of_ne hkey]
        exact hiff
  · intro b hb
    rw [hblks] at hb ⊢
    by_cases heq : b = blk
    · subst heq
      rw [update_self] at hb
      exact nomatch hb
    · rw [update_of_ne heq] at hb ⊢
      exact h.clear b hb

theorem Hashed.invalidate (h : Hashed s) (hvalid : (s.cacheBlks blk).isValid = true)
    (hblks : t.cacheBlks = Function.update s.cacheBlks blk {})
    (hhash : t.tagHash = Function.update s.tagHash
      ((s.cacheBlks blk).tag, (s.cacheBlks blk).isSecure) none) : Hashed t := by
  have hblk := (h.iff _ blk).mpr ⟨hvalid, rfl⟩
  constructor
  · intro key b
    rw [hblks, hhash]
    have hiff := h.iff key b
    by_cases hb : b = blk
    · subst hb
      rw [update_self]
      refine iff_of_false ?_ (fun hand => nomatch hand.1)
      by_cases hkey : key = ((s.cacheBlks b).tag, (s.cacheBlks b).isSecure)
      · subst hkey
        rw [update_self]
        exact nofun
      · rw [update_of_ne hkey, hiff]
        exact fun hand => hkey hand.2.symm
    · rw [update_of_ne hb]
      by_cases hkey : key = ((s.cacheBlks blk).tag, (s.cacheBlks blk).isSecure)
      · subst hkey
        rw [update_self, ← hiff, hblk]
        exact iff_of_false nofun (fun heq => hb (Option.some.inj heq).symm)
      · rw [update_of_ne hkey]
        exact hiff
  · intro b hb
    rw [hblks] at hb ⊢
    by_cases heq : b = blk
    · subst heq
      rw [update_self]
    · rw [update_of_ne heq] at hb ⊢
      exact h.clear b hb

def AfterMiss (s : FALRU p) : FALRUCall p → Prop
  | .insertBlock addr isSecure => s.findBlock addr isSecure = .ok none
  | _ => True

instance (s : FALRU p) : ∀ c, Decidable (s.AfterMiss c)
  | .accessBlock _ _ => isTrue trivial
  | .insertBlock addr isSecure => inferInstanceAs (Decidable (s.findBlock addr isSecure = .ok none))
  | .invalidate _ => isTrue trivial

theorem call_kept (hz : p.Sized) (h : Tracked s pos) (hc : s.call c = .ok t) :
    (∃ pos', Tracked t pos') ∧ (Hashed s → AfterMiss s c → Hashed t) := by
  cases c with
  | accessBlock addr isSecure =>
    simp only [call, bind_eq_ok, pure_eq_ok] at hc
    obtain ⟨⟨r, t'⟩, haccess, rfl⟩ := hc
    have hfind := haccess
    simp only [accessBlock, bind_eq_ok] at hfind
    obtain ⟨b, hfind, -⟩ := hfind
    obtain ⟨r', t'', ht, htracked, hblks, hhash⟩ := accessBlock_ok hz h hfind
    rw [haccess] at ht
    cases ht
    exact ⟨htracked, fun hhashed _ => hhashed.of_eq hblks hhash⟩
  | insertBlock addr isSecure =>
    have hinsert := hc
    simp only [call, insertBlock, bind_eq_ok, require_eq_ok] at hinsert
    obtain ⟨⟨⟩, hmask, ⟨⟩, hinvalid, b, hb, -⟩ := hinsert
    obtain ⟨t', ht, htracked, hblks, hhash⟩ :=
      insertBlock_ok hz h hmask (CacheBlk.insert_ok.mp hb).1
    rw [show s.insertBlock s.findVictim addr isSecure = .ok t from hc] at ht
    cases ht
    refine ⟨⟨_, htracked⟩, fun hhashed hmiss => ?_⟩
    rw [AfterMiss, findBlock_ok hhashed, Except.ok.injEq] at hmiss
    exact hhashed.insert hmiss hinvalid hblks hhash
  | invalidate blk =>
    have hinvalidate := hc
    simp only [call, invalidate, bind_eq_ok, require_eq_ok] at hinvalidate
    obtain ⟨⟨⟩, hhash, ⟨⟩, hvalid, -⟩ := hinvalidate
    obtain ⟨t', ht, htracked, hblks, hhash⟩ := invalidate_ok hz h hvalid hhash
    rw [show s.invalidate blk = .ok t from hc] at ht
    cases ht
    exact ⟨⟨_, htracked⟩, fun hhashed _ => hhashed.invalidate hvalid hblks hhash⟩

/-- In consistent tags a call after a miss returns, unless it inserts into a valid block or
invalidates one that is not. -/
theorem call_total (hz : p.Sized) (h : Tracked s pos) (hhashed : Hashed s)
    (hc : match c with
      | .accessBlock _ _ => True
      | .insertBlock _ _ => (s.blks s.tail).isValid = false
      | .invalidate blk => (s.blks blk).isValid = true) : ∃ t, s.call c = .ok t := by
  cases c with
  | accessBlock addr isSecure =>
    obtain ⟨r, t, ht, -⟩ := accessBlock_ok hz h (findBlock_ok hhashed)
    exact ⟨t, by rw [call, ht]; rfl⟩
  | insertBlock addr isSecure =>
    obtain ⟨t, ht, -⟩ := insertBlock_ok hz h (h.tail_mask hz) (hhashed.clear s.tail hc)
    exact ⟨t, ht⟩
  | invalidate blk =>
    obtain ⟨t, ht, -⟩ :=
      invalidate_ok hz h hc (by rw [(hhashed.iff _ blk).mpr ⟨hc, rfl⟩]; exact nofun)
    exact ⟨t, ht⟩

end FALRU

/-- All blocks are on the list, the boundaries and the masks are those of the positions, and a block
that is inserted is in no tracked cache. When blocks are inserted after a miss, the hash table
leads to the valid blocks, and no call fails on a block in the right state. -/
theorem falru_consistent {p : FALRUParams} {k m : ℕ} {s₀ s : FALRU p} {calls : List (FALRUCall p)}
    (hsize : p.size = 2 ^ m) (hmin : p.minTrackedCacheSize = 2 ^ k * p.blockSize) (hk : 1 ≤ k)
    (hcreate : FALRU.create p = .ok s₀) (h : run FALRU.call s₀ calls = .ok s) :
    (∃ pos : Fin p.numBlocks ≃ Fin p.numBlocks,
      (pos s.head : ℕ) = 0 ∧ (pos s.tail : ℕ) + 1 = p.numBlocks ∧
      (∀ b c, (s.blks b).next = some c ↔ (pos c : ℕ) = pos b + 1) ∧
      (∀ b c, (s.blks b).prev = some c ↔ (pos b : ℕ) = pos c + 1) ∧
      ∀ i : Fin p.numTrackedCaches,
        (∃ b, s.boundaries i = some b ∧ (pos b : ℕ) + 1 = p.trackedBlocks i) ∧
        ∀ b, (s.blks b).inCachesMask.getLsbD i = decide ((pos b : ℕ) < p.trackedBlocks i)) ∧
    (s.blks s.findVictim).inCachesMask = 0 ∧
    (Meets FALRU.call FALRU.AfterMiss s₀ calls →
      (∀ key b, s.tagHash key = some b ↔
        (s.blks b).isValid = true ∧ ((s.blks b).tag, (s.blks b).isSecure) = key) ∧
      (∀ addr isSecure, ∃ t, s.call (.accessBlock addr isSecure) = .ok t) ∧
      ((s.blks s.tail).isValid = false →
        ∀ addr isSecure, ∃ t, s.call (.insertBlock addr isSecure) = .ok t) ∧
      ∀ b, (s.blks b).isValid = true → ∃ t, s.call (.invalidate b) = .ok t) := by
  obtain ⟨hblocks, hlog, hfew, hblk, hmax⟩ := FALRU.create_ok hcreate
  have hz := FALRUParams.sized hsize hmin hk hblocks hlog hfew hblk hmax
  obtain ⟨s₁, hs₁, htracked₀, hblks₀, hhash₀⟩ := FALRU.create_tracked hz hblocks hlog hblk hmax
  obtain rfl : s₀ = s₁ := Except.ok.inj (hcreate.symm.trans hs₁)
  obtain ⟨pos, htracked⟩ : ∃ pos, s.Tracked pos := by
    apply run_keeps (P := fun s => ∃ pos, s.Tracked pos) _ ⟨_, htracked₀⟩ h
    intro s c t hs hc
    obtain ⟨pos, hs⟩ := hs
    exact (FALRU.call_kept hz hs hc).1
  refine ⟨⟨pos, htracked.head, htracked.tail, htracked.links.next_iff, htracked.links.prev_iff, ?_⟩,
    htracked.tail_mask hz, ?_⟩
  · intro i
    exact ⟨htracked.bounds.boundary i, fun b => htracked.bounds.inCaches i b trivial⟩
  · intro hmeets
    have hhashed₀ : s₀.Hashed := by
      constructor
      · intro key b
        rw [hblks₀, hhash₀]
        exact iff_of_false nofun (fun hand => nomatch hand.1)
      · intro b _
        rw [hblks₀]
    have hhashed : s.Hashed := by
      refine (Meets.invariant (P := fun s => (∃ pos, s.Tracked pos) ∧ s.Hashed) ?_
        ⟨⟨_, htracked₀⟩, hhashed₀⟩ hmeets h).2
      intro s c t hs hmiss hc
      obtain ⟨⟨pos, hs⟩, hhashed⟩ := hs
      obtain ⟨hs', hhashed'⟩ := FALRU.call_kept hz hs hc
      exact ⟨hs', hhashed' hhashed hmiss⟩
    refine ⟨hhashed.iff, fun addr isSecure => ?_, fun hinvalid addr isSecure => ?_,
      fun b hvalid => ?_⟩
    · exact FALRU.call_total hz htracked hhashed trivial
    · exact FALRU.call_total hz htracked hhashed hinvalid
    · exact FALRU.call_total hz htracked hhashed hvalid

def fourBlocks : FALRUParams := ⟨256, 64, 128, 2⟩

def fourTags : FALRU fourBlocks := (FALRU.create fourBlocks).toOption.get (by decide +kernel)

def fourCalls : List (FALRUCall fourBlocks) :=
  [.insertBlock 0 false, .insertBlock 64 true, .insertBlock 128 false, .accessBlock 7 false,
    .invalidate ⟨3, by decide⟩]

theorem falru_consistent_four : ∃ s, run FALRU.call fourTags fourCalls = .ok s ∧
    s.boundaries ⟨0, by decide⟩ = some ⟨2, by decide⟩ ∧ s.tagHash (64, true) = some ⟨2, by decide⟩ ∧
    (s.blks ⟨2, by decide⟩).isValid = true := by
  have hends : Ends FALRU.call fourTags fourCalls (fun s =>
      s.boundaries ⟨0, by decide⟩ = some ⟨2, by decide⟩ ∧
        s.tagHash (64, true) = some ⟨2, by decide⟩) := by
    decide +kernel
  have hmeets : Meets FALRU.call FALRU.AfterMiss fourTags fourCalls := by decide +kernel
  obtain ⟨s, hs, hboundary, hhash⟩ := hends
  have hconsistent := falru_consistent (k := 1) (m := 8) rfl rfl le_rfl
    (eq_ok_get (by decide +kernel)) hs
  have hvalid := ((hconsistent.2.2 hmeets).1 _ _).mp hhash
  exact ⟨s, hs, hboundary, hhash, hvalid.1⟩

/-- A block that is inserted although its tag is present takes the place of the other one in the
hash table; that one stays valid. -/
theorem falru_inserted_twice :
    Ends FALRU.call fourTags [.insertBlock 0 false, .insertBlock 0 false] (fun s =>
      (s.blks ⟨3, by decide⟩).isValid = true ∧ (s.blks ⟨3, by decide⟩).tag = 0 ∧
        (s.blks ⟨3, by decide⟩).isSecure = false ∧ s.tagHash (0, false) = some ⟨2, by decide⟩) := by
  decide +kernel

end HetSim.Tags
