import HetSim.Cache.Indexing
import HetSim.Library.Feedback
import Mathlib.Data.Set.Card

/-!
# The skewed policy recovers addresses

`hash` is a feedback shift register on the bits of a set index and `dehash` its inverse, so
`deskewing` inverts each skewing function, whatever the tag bits are.
-/

namespace HetSim.Cache
open Address Checked Feedback BaseIndexingPolicy SkewedAssociative BitVec

variable {val a b x y : Addr} {first last j k N way : ℕ} {p : SkewedAssociative}

theorem getLsbD_bits (hle : last ≤ first) : (bits val first last).getLsbD j =
    (decide (j < first - last + 1) && val.getLsbD (last + j)) := by
  simp only [bits, getLsbD_and, getLsbD_ushiftRight, getLsbD_mask]
  by_cases hj : j < 64
  · rw [Bool.and_comm]
    congr 1
    rw [decide_eq_decide]
    omega
  · rw [getLsbD_of_ge _ _ (by omega : 64 ≤ last + j), Bool.and_false, Bool.false_and]

theorem fits_bits {m : ℕ} (hm : first - last ≤ m) (hle : last ≤ first) :
    Fits m (bits val first last) := by
  intro j hj
  rw [getLsbD_bits hle, decide_eq_false (by omega), Bool.false_and]

theorem getLsbD_mbits_zero : (mbits val first 0).getLsbD j =
    (decide (j ≤ first) && val.getLsbD j) := by
  simp only [mbits, getLsbD_and, getLsbD_not, getLsbD_mask]
  by_cases hj : j < 64
  · have hlow : (decide (j < 64 ∧ (j : ℤ) < first + 1) && (decide (j < 64) &&
        !decide (j < 64 ∧ (j : ℤ) < (0 : ℕ)))) = decide (j ≤ first) := by
      simp only [hj, true_and, decide_true, Nat.cast_zero, Int.natCast_nonneg,
        not_lt_of_ge, decide_false, Bool.not_false, Bool.and_true, decide_eq_decide]
      omega
    rw [hlow, Bool.and_comm]
  · rw [getLsbD_of_ge _ _ (by omega : 64 ≤ j), Bool.and_false, Bool.false_and]

theorem getLsbD_clear {s : ℕ} (hk : k < 64) :
    (a &&& ~~~mask s).getLsbD k = (decide (s ≤ k) && a.getLsbD k) := by
  rw [getLsbD_and, getLsbD_not, getLsbD_mask, Bool.and_comm, decide_eq_true hk,
    Bool.true_and, ← decide_not]
  congr 1
  rw [decide_eq_decide]
  omega

structure Geometry (N : ℕ) (p : SkewedAssociative) : Prop where
  two_le : 2 ≤ N
  width : 2 * N + p.setShift ≤ 64
  numSets : p.numSets = 2 ^ N
  setMask : p.setMask = BitVec.ofNat 32 (2 ^ N - 1)
  tagShift : p.tagShift = p.setShift + N
  msbShift : p.msbShift = N - 1

def SkewedAssociative.position (p : SkewedAssociative) (tag : Addr) (i : ℕ) : Addr :=
  tag <<< p.tagShift ||| BitVec.ofNat 64 i <<< p.setShift

variable {size entrySize assoc i : ℕ} {tag : Addr}

theorem init_eq {base : BaseIndexingPolicy}
    (h : BaseIndexingPolicy.init size entrySize assoc = .ok base) :
    base.numSets = 2 ^ Nat.log2 base.numSets ∧
      base.setMask = BitVec.ofNat 32 (base.numSets - 1) ∧
      base.tagShift = base.setShift + Nat.log2 base.numSets ∧
      base.setShift = Nat.log2 entrySize ∧ base.numSets < 2 ^ 32 := by
  simp only [BaseIndexingPolicy.init, floorLog2, bind_eq_ok, require_eq_ok, pure_eq_ok] at h
  obtain ⟨⟨⟩, -, setShift, ⟨⟨⟩, -, rfl⟩, setBits, ⟨⟨⟩, -, rfl⟩, ⟨⟩, hpower, ⟨⟩, -, rfl⟩ := h
  exact ⟨isPowerOf2_eq hpower, rfl, rfl, rfl, Nat.mod_lt _ (Nat.two_pow_pos 32)⟩

theorem geometry_of_init (h : SkewedAssociative.init size entrySize assoc = .ok p) :
    Geometry (Nat.log2 p.numSets) p := by
  simp only [SkewedAssociative.init, floorLog2, bind_eq_ok, require_eq_ok, pure_eq_ok] at h
  obtain ⟨base, hbase, setBits, ⟨⟨⟩, -, rfl⟩, ⟨⟩, hwidth, ⟨⟩, hsets, rfl⟩ := h
  obtain ⟨hnum, hmask, htag, -⟩ := init_eq hbase
  have htwo : 2 ≤ Nat.log2 base.numSets := by
    by_contra hlt
    have := Nat.pow_le_pow_right two_pos (show Nat.log2 base.numSets ≤ 1 by omega)
    omega
  exact ⟨htwo, by dsimp only; omega, hnum, hmask.trans (congrArg _ (by rw [← hnum])), htag, rfl⟩

namespace Geometry

variable (h : Geometry N p)
include h

theorem getLsbD_setMask : (p.setMask.setWidth 64).getLsbD j = decide (j < N) := by
  have := h.width
  rw [h.setMask, getLsbD_setWidth, getLsbD_ofNat, Nat.testBit_two_pow_sub_one]
  by_cases hj : j < N
  · simp [hj, show j < 64 by omega, show j < 32 by omega]
  · simp [hj]

/-! ## The register -/

theorem register : Register p.msbShift p.hash := by
  have hN := h.two_le
  have hm := h.msbShift
  have hw := h.width
  constructor
  · intro x j hj
    by_cases hlt : j < 64
    · rw [SkewedAssociative.hash, getLsbD_insertBits hlt, if_neg (by omega),
        getLsbD_ushiftRight, Nat.add_comm]
    · rw [getLsbD_of_ge _ _ (by omega), getLsbD_of_ge _ _ (by omega)]
  · intro x
    rw [SkewedAssociative.hash, getLsbD_insertBits (by omega), if_pos ⟨le_rfl, le_rfl⟩,
      Nat.sub_self, getLsbD_xor, getLsbD_bits le_rfl, getLsbD_bits le_rfl]
    simp

theorem getLsbD_dehash (hj : j < 64) : (p.dehash x).getLsbD j =
    if j = 0 then x.getLsbD (p.msbShift - 1) ^^ x.getLsbD p.msbShift
    else decide (j ≤ p.msbShift) && x.getLsbD (j - 1) := by
  have hN := h.two_le
  have hm := h.msbShift
  rw [dehash, getLsbD_insertBits hj]
  split_ifs with hin hzero hzero
  · subst hzero
    rw [getLsbD_xor, getLsbD_bits le_rfl, getLsbD_bits le_rfl]
    simp
  · omega
  · omega
  · rw [getLsbD_shiftLeft, getLsbD_mbits_zero]
    simp only [hj, decide_true, Bool.true_and, show ¬ j < 1 by omega, decide_false, Bool.not_false]
    congr 1
    rw [decide_eq_decide]
    omega

theorem fits_dehash : Fits p.msbShift (p.dehash x) := by
  intro j hj
  by_cases hlt : j < 64
  · rw [h.getLsbD_dehash hlt, if_neg (by omega), decide_eq_false (by omega), Bool.false_and]
  · exact getLsbD_of_ge _ _ (by omega)

theorem dehash_hash (hx : Fits p.msbShift x) : p.dehash (p.hash x) = x := by
  have hN := h.two_le
  have hm := h.msbShift
  have hw := h.width
  apply h.fits_dehash.ext hx
  intro j hj
  rw [h.getLsbD_dehash (by omega)]
  split_ifs with hzero
  · rw [h.register.top, h.register.down _ _ (by omega), hzero, Nat.sub_add_cancel (by omega),
      ← Bool.xor_assoc, Bool.xor_self, Bool.false_xor]
  · rw [h.register.down _ _ (by omega), Nat.sub_add_cancel (by omega), decide_eq_true hj,
      Bool.true_and]

theorem hash_dehash (hx : Fits p.msbShift x) : p.hash (p.dehash x) = x := by
  have hN := h.two_le
  have hm := h.msbShift
  have hw := h.width
  apply (h.register.fits h.fits_dehash).ext hx
  intro j hj
  by_cases htop : j = p.msbShift
  · rw [htop, h.register.top, h.getLsbD_dehash (by omega), h.getLsbD_dehash (by omega),
      if_neg (by omega), if_pos rfl, decide_eq_true le_rfl, Bool.true_and, ← Bool.xor_assoc,
      Bool.xor_self, Bool.false_xor]
  · rw [h.register.down _ _ htop, h.getLsbD_dehash (by omega), if_neg (by omega),
      decide_eq_true (by omega), Bool.true_and, Nat.add_sub_cancel]

theorem dehash_iterate (hx : Fits p.msbShift x) : p.dehash^[k] (p.hash^[k] x) = x := by
  induction k with
  | zero => rfl
  | succ k ih =>
    rw [Function.iterate_succ_apply, Function.iterate_succ_apply',
      h.dehash_hash (h.register.fits_iterate hx), ih]

/-! ## The skewing functions -/

theorem fits_skewing (hx : Fits p.msbShift x) (hy : Fits p.msbShift y)
    (i : Fin NUM_SKEWING_FUNCTIONS) : Fits p.msbShift (p.skewing x y i) := by
  have hhash : ∀ {z}, Fits p.msbShift z → Fits p.msbShift (p.hash z) := h.register.fits
  match i with
  | 0 => exact ((hhash hx).xor (hhash hy)).xor hy
  | 1 => exact ((hhash hx).xor (hhash hy)).xor hx
  | 2 => exact ((hhash hx).xor h.fits_dehash).xor hy
  | 3 => exact ((hhash hx).xor h.fits_dehash).xor hx
  | 4 => exact (h.fits_dehash.xor (hhash hy)).xor hy
  | 5 => exact (h.fits_dehash.xor (hhash hy)).xor hx
  | 6 => exact (h.fits_dehash.xor h.fits_dehash).xor hy
  | 7 => exact (h.fits_dehash.xor h.fits_dehash).xor hx

theorem deskewing_skewing (hx : Fits p.msbShift x) (i : Fin 8) :
    p.deskewing (p.skewing x y i) y i = x := by
  have hr := h.register
  -- The tag bits cancel, and leave the set bits hashed, or added to their hash.
  have hsum : ∀ u c z : Addr, u ^^^ c ^^^ z ^^^ c = u ^^^ z := by
    intro u c z
    rw [BitVec.xor_assoc (u ^^^ c), BitVec.xor_comm z, ← BitVec.xor_assoc, BitVec.xor_assoc u,
      BitVec.xor_self, BitVec.xor_zero]
  have hplain : ∀ u c z : Addr, u ^^^ c ^^^ z ^^^ c ^^^ z = u := by
    intro u c z
    rw [hsum, BitVec.xor_assoc, BitVec.xor_self, BitVec.xor_zero]
  match i with
  | 0 => exact (congrArg p.dehash (hplain _ _ _)).trans (h.dehash_hash hx)
  | 1 => exact (congrArg p.hash^[p.msbShift] (hsum _ _ _)).trans (hr.iterate_undoes hx)
  | 2 => exact (congrArg p.dehash (hplain _ _ _)).trans (h.dehash_hash hx)
  | 3 => exact (congrArg p.hash^[p.msbShift] (hsum _ _ _)).trans (hr.iterate_undoes hx)
  | 4 => exact (congrArg p.hash (hplain _ _ _)).trans (h.hash_dehash hx)
  | 5 =>
    exact (congrArg p.hash^[p.msbShift + 1] (hsum _ _ _)).trans
      (hr.iterate_undoes_inverse hx (h.hash_dehash hx))
  | 6 => exact (congrArg p.hash (hplain _ _ _)).trans (h.hash_dehash hx)
  | 7 =>
    exact (congrArg p.hash^[p.msbShift + 1] (hsum _ _ _)).trans
      (hr.iterate_undoes_inverse hx (h.hash_dehash hx))

theorem fits_skew (b : Addr) (way : ℕ) : Fits p.msbShift (p.skew b way) := by
  apply h.register.fits_iterate
  apply h.fits_skewing
  · exact fits_bits (by omega) (by omega)
  · exact fits_bits (by omega) (by omega)

theorem deskew_skew (hlow : bits a p.msbShift 0 = p.skew b way)
    (hhigh : bits a (2 * (p.msbShift + 1) - 1) (p.msbShift + 1) =
      bits b (2 * (p.msbShift + 1) - 1) (p.msbShift + 1)) :
    p.deskew a way = bits b p.msbShift 0 := by
  have hb : Fits p.msbShift (bits b p.msbShift 0) := fits_bits (by omega) (by omega)
  have hy : Fits p.msbShift (bits b (2 * (p.msbShift + 1) - 1) (p.msbShift + 1)) :=
    fits_bits (by omega) (by omega)
  have hunpile : (if NUM_SKEWING_FUNCTIONS ≤ way then
      p.dehash^[way / NUM_SKEWING_FUNCTIONS] (p.skew b way) else p.skew b way) =
      p.skewing (bits b p.msbShift 0) (bits b (2 * (p.msbShift + 1) - 1) (p.msbShift + 1))
        (Fin.ofNat _ way) := by
    split_ifs with hway
    · exact h.dehash_iterate (h.fits_skewing hb hy _)
    · rw [skew, Nat.div_eq_of_lt (by omega)]
      rfl
  rw [deskew, hlow, hhigh, hunpile]
  exact h.deskewing_skewing hb _

/-! ## Addresses -/

theorem deskew_replaced (b : Addr) (way : ℕ) :
    p.deskew (b >>> N <<< N ||| p.skew b way) way = bits b p.msbShift 0 := by
  have hm := h.msbShift
  have hN := h.two_le
  have hw := h.width
  have hfits := h.fits_skew b way
  apply h.deskew_skew
  · apply (fits_bits (by omega) (by omega)).ext hfits
    intro j hj
    rw [getLsbD_bits (by omega), getLsbD_or, getLsbD_shiftLeft]
    simp [show j < p.msbShift + 1 by omega, show j < N by omega]
  · apply (fits_bits (by omega) (by omega) : Fits p.msbShift _).ext
      (fits_bits (by omega) (by omega))
    intro j hj
    rw [getLsbD_bits (by omega), getLsbD_bits (by omega), getLsbD_or, hfits _ (by omega),
      getLsbD_shiftLeft, getLsbD_ushiftRight]
    simp [show p.msbShift + 1 + j < 64 by omega, show ¬ p.msbShift + 1 + j < N by omega,
      show N + (p.msbShift + 1 + j - N) = p.msbShift + 1 + j by omega]

theorem setMask_and (hx : Fits p.msbShift x) : x &&& p.setMask.setWidth 64 = x := by
  have hm := h.msbShift
  have hN := h.two_le
  apply eq_of_getLsbD_eq
  intro j _
  rw [getLsbD_and, h.getLsbD_setMask]
  by_cases hj : j < N
  · rw [decide_eq_true hj, Bool.and_true]
  · rw [hx j (by omega), Bool.false_and]

theorem extractSet_eq (a : Addr) (way : ℕ) :
    (p.extractSet a way).setWidth 64 = p.skew (a >>> p.setShift) way := by
  have hm := h.msbShift
  have hw := h.width
  have hfits := h.fits_skew (a >>> p.setShift) way
  rw [extractSet, h.setMask_and hfits]
  apply eq_of_getLsbD_eq
  intro j hj
  rw [getLsbD_setWidth, getLsbD_setWidth, decide_eq_true hj, Bool.true_and]
  by_cases hlt : j < 32
  · rw [decide_eq_true hlt, Bool.true_and]
  · rw [hfits j (by omega), Bool.and_false]

theorem regenerateAddr_extractSet (a : Addr) (way : ℕ) :
    p.regenerateAddr (p.extractTag a) ⟨p.extractSet a way, way⟩ = a &&& ~~~mask p.setShift := by
  have hm := h.msbShift
  have hw := h.width
  have hN := h.two_le
  have hfits := h.fits_skew (a >>> p.setShift) way
  have hdeskew :
      p.deskew ((p.extractTag a <<< (p.msbShift + 1)) ||| (p.extractSet a way).setWidth 64)
      way = bits (a >>> p.setShift) p.msbShift 0 := by
    rw [← h.deskew_replaced _ way, h.extractSet_eq, extractTag, h.tagShift,
      BitVec.shiftRight_add, show p.msbShift + 1 = N by omega]
  apply eq_of_getLsbD_eq
  intro k hk
  rw [regenerateAddr, hdeskew, h.setMask_and (fits_bits (by omega) (by omega)),
    getLsbD_or, getLsbD_shiftLeft, getLsbD_shiftLeft, getLsbD_clear hk,
    getLsbD_bits (by omega), extractTag, getLsbD_ushiftRight, getLsbD_ushiftRight, h.tagShift]
  -- The tag, the set bits, and the block offset.
  by_cases htag : p.setShift + N ≤ k
  · simp only [hk, decide_true, Bool.true_and, show ¬ k < p.setShift + N by omega, decide_false,
      Bool.not_false, show p.setShift + N + (k - (p.setShift + N)) = k by omega,
      show ¬ (k - p.setShift < p.msbShift - 0 + 1) by omega, Bool.false_and, Bool.and_false,
      Bool.or_false, show p.setShift ≤ k by omega]
  · by_cases hset : p.setShift ≤ k
    · simp only [hk, decide_true, Bool.true_and, show k < p.setShift + N by omega, Bool.not_true,
        Bool.false_and, Bool.false_or, show ¬ k < p.setShift by omega, decide_false,
        Bool.not_false, show k - p.setShift < p.msbShift - 0 + 1 by omega,
        show p.setShift + (0 + (k - p.setShift)) = k by omega, hset]
    · simp only [hk, decide_true, Bool.true_and, show k < p.setShift + N by omega,
        show k < p.setShift by omega, Bool.not_true, Bool.false_and, Bool.or_false, hset,
        decide_false]

theorem getLsbD_position (hi : i < 2 ^ N) (hk : k < 64) :
    (p.position tag i).getLsbD k =
      if p.tagShift ≤ k then tag.getLsbD (k - p.tagShift)
      else decide (p.setShift ≤ k) && i.testBit (k - p.setShift) := by
  rw [position, getLsbD_or, getLsbD_shiftLeft,
    getLsbD_shiftLeft, getLsbD_ofNat]
  split_ifs with htag
  · have hhigh : i.testBit (k - p.setShift) = false := by
      apply Nat.testBit_lt_two_pow
      apply hi.trans_le
      apply Nat.pow_le_pow_right two_pos
      have := h.tagShift
      omega
    simp [hk, htag, hhigh]
  · by_cases hset : p.setShift ≤ k
    · simp [hk, show k < p.tagShift by omega, hset, show k - p.setShift < 64 by omega]
    · simp [show k < p.tagShift by omega, hset, show k < p.setShift by omega]

theorem extractTag_position {j : ℕ} (hi : i < 2 ^ N) (hj : j < 2 ^ N) :
    p.extractTag (p.position tag i) = p.extractTag (p.position tag j) := by
  apply eq_of_getLsbD_eq
  intro k _
  simp only [extractTag, getLsbD_ushiftRight]
  by_cases hk : p.tagShift + k < 64
  · rw [h.getLsbD_position hi hk, h.getLsbD_position hj hk, if_pos (by omega), if_pos (by omega)]
  · rw [getLsbD_of_ge _ _ (by omega), getLsbD_of_ge _ _ (by omega)]

theorem extractSet_lt (a : Addr) (way : ℕ) : (p.extractSet a way).toNat < 2 ^ N := by
  have hm := h.msbShift
  have hN := h.two_le
  have hfits := h.fits_skew (a >>> p.setShift) way
  rw [← h.extractSet_eq] at hfits
  apply Nat.lt_pow_two_of_testBit
  intro k hk
  have hbit := hfits k (by omega)
  rw [getLsbD_setWidth] at hbit
  by_cases hlt : k < 64
  · rwa [decide_eq_true hlt, Bool.true_and] at hbit
  · exact getLsbD_of_ge _ _ (by omega)

theorem injOn_extractSet (tag : Addr) (way : ℕ) :
    Set.InjOn (fun i => (p.extractSet (p.position tag i) way).toNat) (Set.Iio p.numSets) := by
  have hw := h.width
  rw [h.numSets]
  intro i hi j hj hset
  have hi : i < 2 ^ N := hi
  have hj : j < 2 ^ N := hj
  -- The tag and the set determine the address.
  have haddr :
      p.position tag i &&& ~~~mask p.setShift = p.position tag j &&& ~~~mask p.setShift := by
    rw [← h.regenerateAddr_extractSet _ way, ← h.regenerateAddr_extractSet _ way,
      h.extractTag_position hi hj, eq_of_toNat_eq hset]
  apply Nat.eq_of_testBit_eq
  intro k
  by_cases hk : k < N
  · have hbit := congrArg (fun x : Addr => x.getLsbD (p.setShift + k)) haddr
    have htag := h.tagShift
    simp only [getLsbD_clear (show p.setShift + k < 64 by omega),
      h.getLsbD_position hi (show p.setShift + k < 64 by omega),
      h.getLsbD_position hj (show p.setShift + k < 64 by omega),
      if_neg (show ¬ p.tagShift ≤ p.setShift + k by omega), Nat.le_add_right, decide_true,
      Bool.true_and, Nat.add_sub_cancel_left] at hbit
    exact hbit
  · have hle : 2 ^ N ≤ 2 ^ k := Nat.pow_le_pow_right two_pos (by omega)
    rw [Nat.testBit_lt_two_pow (hi.trans_le hle), Nat.testBit_lt_two_pow (hj.trans_le hle)]

theorem bijOn_extractSet (tag : Addr) (way : ℕ) :
    Set.BijOn (fun i => (p.extractSet (p.position tag i) way).toNat)
      (Set.Iio p.numSets) (Set.Iio p.numSets) := by
  apply ((Set.finite_Iio p.numSets).injOn_iff_bijOn_of_mapsTo _).mp (h.injOn_extractSet tag way)
  intro i _
  rw [h.numSets]
  exact h.extractSet_lt _ _

end Geometry

theorem skewed_recovers (h : Geometry N p) (way : ℕ) :
    (∀ a, p.regenerateAddr (p.extractTag a) ⟨p.extractSet a way, way⟩ =
        a &&& ~~~mask p.setShift) ∧
      (∀ tag, Set.BijOn (fun i => (p.extractSet (p.position tag i) way).toNat)
        (Set.Iio p.numSets) (Set.Iio p.numSets)) ∧
      ∀ b : Addr, p.deskew (b >>> N <<< N ||| p.skew b way) way = bits b p.msbShift 0 := by
  constructor
  · intro a
    exact h.regenerateAddr_extractSet a way
  · exact ⟨fun tag => h.bijOn_extractSet tag way, fun b => h.deskew_replaced b way⟩

theorem skewed_recovers_ten : ∃ p, SkewedAssociative.init 65536 64 16 = .ok p ∧
    p.regenerateAddr (p.extractTag 0x123456789abcdef) ⟨p.extractSet 0x123456789abcdef 9, 9⟩ =
      0x123456789abcdc0 := by
  have hinit : SkewedAssociative.init 65536 64 16 = .ok ⟨⟨16, 64, 6, 63, 12⟩, 5⟩ := by
    decide +kernel
  refine ⟨_, hinit, ((skewed_recovers (geometry_of_init hinit) 9).1 _).trans ?_⟩
  decide +kernel

end HetSim.Cache
