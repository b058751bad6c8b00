import HetSim.Cache.Skewing

/-!
# What the set-associative policy recovers

The set index is shifted back to its place as a value of 32 bits, so the bits of an address
between bit 32 and the tag are lost.
-/

namespace HetSim.Cache
open Address Checked BitVec

structure Fields (N : ℕ) (p : BaseIndexingPolicy) : Prop where
  numSets : p.numSets = 2 ^ N
  sets : N < 32
  offset : p.setShift < 32
  setMask : p.setMask = BitVec.ofNat 32 (2 ^ N - 1)
  tagShift : p.tagShift = p.setShift + N

theorem fields_of_init {size entrySize assoc : ℕ} {p : BaseIndexingPolicy}
    (h : BaseIndexingPolicy.init size entrySize assoc = .ok p) (hpower : isPowerOf2 entrySize) :
    Fields (Nat.log2 p.numSets) p ∧ entrySize = 2 ^ p.setShift := by
  obtain ⟨hnum, hmask, htag, -, hlt⟩ := init_eq h
  have hentry := isPowerOf2_eq hpower
  simp only [BaseIndexingPolicy.init, floorLog2, bind_eq_ok, require_eq_ok, pure_eq_ok] at h
  obtain ⟨⟨⟩, hsize, setShift, ⟨⟨⟩, -, rfl⟩, setBits, ⟨⟨⟩, -, rfl⟩, ⟨⟩, -, ⟨⟩, -, rfl⟩ := h
  refine ⟨⟨hnum, ?_, ?_, ?_, htag⟩, hentry⟩
  · rw [hnum] at hlt
    exact (Nat.pow_lt_pow_iff_right (by decide)).mp hlt
  · -- a larger entry size would make the size of a set a multiple of `2 ^ 32`
    by_contra hge
    refine hsize (Nat.mod_eq_zero_of_dvd (Dvd.dvd.mul_right ?_ assoc))
    rw [hentry]
    exact Nat.pow_dvd_pow 2 (not_lt.mp hge)
  · rw [hmask, ← hnum]

variable {N k : ℕ} {p : SetAssociative} {a : Addr} {e : ReplaceableEntry}

namespace Fields

variable (h : Fields N p.toBaseIndexingPolicy)
include h

theorem getLsbD_extractSet :
    (p.extractSet a).getLsbD k = (decide (k < N) && a.getLsbD (p.setShift + k)) := by
  have hN := h.sets
  rw [SetAssociative.extractSet, h.setMask, getLsbD_setWidth, getLsbD_and,
    getLsbD_ushiftRight, getLsbD_setWidth, getLsbD_ofNat,
    Nat.testBit_two_pow_sub_one]
  by_cases hk : k < N
  · simp [hk, show k < 32 by omega, show k < 64 by omega]
  · simp [hk]

theorem getLsbD_regenerateAddr (he : e.set = p.extractSet a) (hk : k < 64) :
    (p.regenerateAddr (p.extractTag a) e).getLsbD k =
      (decide (p.setShift ≤ k ∧ (k < p.tagShift → k < 32)) && a.getLsbD k) := by
  have htag := h.tagShift
  rw [SetAssociative.regenerateAddr, BaseIndexingPolicy.extractTag, getLsbD_or,
    getLsbD_shiftLeft, getLsbD_ushiftRight, getLsbD_setWidth,
    getLsbD_shiftLeft, he, h.getLsbD_extractSet]
  by_cases hlow : k < p.setShift
  · simp [hlow, show k < p.tagShift by omega, show ¬ p.setShift ≤ k by omega]
  · rw [show p.setShift + (k - p.setShift) = k by omega]
    by_cases hmid : k < p.tagShift
    · by_cases h32 : k < 32
      · simp [hk, hlow, hmid, h32, show p.setShift ≤ k by omega, show k - p.setShift < N by omega]
      · simp [hmid, h32]
    · rw [show p.tagShift + (k - p.tagShift) = k by omega]
      simp [hk, hmid, show p.setShift ≤ k by omega, show ¬ k - p.setShift < N by omega]

end Fields

theorem mod_two_pow_lt_iff {x m n : ℕ} :
    x % 2 ^ n < 2 ^ m ↔ ∀ k, m ≤ k → k < n → x.testBit k = false := by
  constructor
  · intro hlt k hm hn
    have hbit := Nat.testBit_lt_two_pow (hlt.trans_le (Nat.pow_le_pow_right two_pos hm))
    rw [Nat.testBit_mod_two_pow, decide_eq_true hn, Bool.true_and] at hbit
    exact hbit
  · intro hbits
    refine Nat.lt_pow_two_of_testBit _ fun k hk => ?_
    rw [Nat.testBit_mod_two_pow]
    by_cases hn : k < n
    · rw [hbits k hk hn, Bool.and_false]
    · rw [decide_eq_false hn, Bool.false_and]

theorem setAssociative_recovers_iff {size entrySize assoc : ℕ} {base : BaseIndexingPolicy}
    (h : BaseIndexingPolicy.init size entrySize assoc = .ok base) (hpower : isPowerOf2 entrySize)
    (a : Addr) (e : ReplaceableEntry) (he : e.set = (SetAssociative.mk base).extractSet a) :
    (SetAssociative.mk base).regenerateAddr (base.extractTag a) e =
        a &&& ~~~mask (Nat.log2 entrySize) ↔
      a.toNat % (entrySize * base.numSets) < 2 ^ 32 := by
  obtain ⟨hfields, hentry⟩ := fields_of_init h hpower
  have hshift : Nat.log2 entrySize = base.setShift := by rw [hentry, Nat.log2_two_pow]
  have hplace : entrySize * base.numSets = 2 ^ base.tagShift := by
    rw [hentry, hfields.tagShift, pow_add, ← hfields.numSets]
  have hoffset := hfields.offset
  have htag := hfields.tagShift
  rw [hshift, hplace, mod_two_pow_lt_iff]
  constructor
  · intro heq k hge hlt
    by_cases hk : k < 64
    · have hbit := congrArg (BitVec.getLsbD · k) heq
      simp only [Fields.getLsbD_regenerateAddr (p := ⟨base⟩) hfields he hk,
        getLsbD_clear hk] at hbit
      rw [decide_eq_false (by omega), decide_eq_true (by omega), Bool.false_and,
        Bool.true_and] at hbit
      exact hbit.symm
    · exact getLsbD_of_ge a k (by omega)
  · intro hbits
    refine eq_of_getLsbD_eq fun k hk => ?_
    rw [Fields.getLsbD_regenerateAddr (p := ⟨base⟩) hfields he hk, getLsbD_clear hk]
    by_cases hlost : 32 ≤ k ∧ k < base.tagShift
    · have hzero : a.getLsbD k = false := hbits k hlost.1 hlost.2
      rw [hzero, Bool.and_false, Bool.and_false]
    · congr 1
      rw [decide_eq_decide]
      dsimp only
      omega

def largeCache : BaseIndexingPolicy := ⟨1, 2 ^ 27, 6, BitVec.ofNat 32 (2 ^ 27 - 1), 33⟩

theorem setAssociative_recovers_iff_largeCache :
    BaseIndexingPolicy.init (2 ^ 33) 64 1 = .ok largeCache ∧
    (SetAssociative.mk largeCache).regenerateAddr (largeCache.extractTag 0x200000040)
        ⟨(SetAssociative.mk largeCache).extractSet 0x200000040, 0⟩ =
      0x200000040 &&& ~~~mask (Nat.log2 64) :=
  ⟨by decide +kernel, (setAssociative_recovers_iff
    (show BaseIndexingPolicy.init (2 ^ 33) 64 1 = .ok largeCache by decide +kernel)
    (by decide) _ _ rfl).mpr (by decide +kernel)⟩

theorem regenerateAddr_loses_bit32 :
    BaseIndexingPolicy.init (2 ^ 33) 64 1 = .ok largeCache ∧
    (SetAssociative.mk largeCache).regenerateAddr (largeCache.extractTag 0x100000000)
        ⟨(SetAssociative.mk largeCache).extractSet 0x100000000, 0⟩ = 0 ∧
    (0x100000000 : Addr) &&& ~~~mask (Nat.log2 64) = 0x100000000 := by
  decide +kernel

end HetSim.Cache
