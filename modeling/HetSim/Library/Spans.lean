import Mathlib

/-!
# Spans of memory

A span is a first address and a length; the address of its last element may wrap around. A span
of one list is copied over a span of another, and its places are marked in a map of bits.
-/

namespace HetSim.Spans

open List BitVec

section Last
variable {w : ℕ}

def last (a : BitVec w) (n : ℕ) : BitVec w := a + BitVec.ofNat w n - 1

theorem toNat_last {a : BitVec w} {n : ℕ} (hpos : 0 < a.toNat + n) (hle : a.toNat + n ≤ 2 ^ w) :
    (last a n).toNat = a.toNat + n - 1 := by
  have hsucc : BitVec.ofNat w (a.toNat + n - 1) + 1 = a + BitVec.ofNat w n := by
    have hadd : BitVec.ofNat w (a.toNat + n - 1) + BitVec.ofNat w 1 =
        BitVec.ofNat w (a.toNat + n) := by
      rw [← ofNat_add, Nat.sub_add_cancel hpos]
    rw [ofNat_add, ofNat_toNat, setWidth_eq] at hadd
    exact hadd
  have hlast : last a n = BitVec.ofNat w (a.toNat + n - 1) := by
    apply add_right_cancel (b := 1)
    rw [hsucc]
    exact BitVec.sub_add_cancel _ _
  rw [hlast, toNat_ofNat, Nat.mod_eq_of_lt (by omega)]

theorem toNat_succ_sub {lo hi : BitVec w} (hle : lo.toNat ≤ hi.toNat + 1)
    (hlt : hi.toNat + 1 - lo.toNat < 2 ^ w) : (hi + 1 - lo).toNat = hi.toNat + 1 - lo.toNat := by
  have hsum : BitVec.ofNat w (hi.toNat + 1 - lo.toNat) + lo = hi + 1 := by
    have hadd : BitVec.ofNat w (hi.toNat + 1 - lo.toNat) + BitVec.ofNat w lo.toNat =
        BitVec.ofNat w (hi.toNat + 1) := by
      rw [← ofNat_add, Nat.sub_add_cancel hle]
    rw [ofNat_add, ofNat_toNat, setWidth_eq, ofNat_toNat,
      setWidth_eq] at hadd
    exact hadd
  rw [← hsum, BitVec.add_sub_cancel, toNat_ofNat, Nat.mod_eq_of_lt hlt]

end Last

section Copy
variable {α : Type*} {dst src : List α} {i j n k : ℕ}

def copy (dst : List α) (i : ℕ) (src : List α) (j n : ℕ) : List α :=
  dst.take i ++ (src.drop j).take n ++ dst.drop (i + n)

theorem length_copy (hdst : i + n ≤ dst.length) (hsrc : j + n ≤ src.length) :
    (copy dst i src j n).length = dst.length := by
  simp only [copy, length_append, length_take, length_drop]
  omega

theorem getElem?_copy (hdst : i + n ≤ dst.length) (hsrc : j + n ≤ src.length) :
    (copy dst i src j n)[k]? = if i ≤ k ∧ k < i + n then src[j + (k - i)]? else dst[k]? := by
  have hfirst : (dst.take i).length = i := by simp; omega
  have hsecond : ((src.drop j).take n).length = n := by simp; omega
  rw [copy, List.append_assoc]
  rcases Nat.lt_or_ge k i with hlt | hge
  · rw [List.getElem?_append_left (by omega), List.getElem?_take_of_lt hlt, if_neg (by omega)]
  · rw [List.getElem?_append_right (by omega), hfirst]
    rcases Nat.lt_or_ge k (i + n) with hlt | hge'
    · rw [List.getElem?_append_left (by omega), List.getElem?_take_of_lt (by omega),
        List.getElem?_drop, if_pos ⟨hge, hlt⟩]
    · rw [List.getElem?_append_right (by omega), List.getElem?_drop, if_neg (by omega), hsecond]
      congr 1
      omega

end Copy

section Mark
variable {bs : List Bool} {i n k : ℕ}

def mark (bs : List Bool) (i n : ℕ) : List Bool :=
  bs.mapIdx fun k b => b || decide (i ≤ k ∧ k < i + n)

@[simp] theorem length_mark : (mark bs i n).length = bs.length := length_mapIdx

theorem getElem?_mark : (mark bs i n)[k]? = bs[k]?.map (· || decide (i ≤ k ∧ k < i + n)) := by
  rw [mark, List.getElem?_mapIdx]

theorem all_mark : ((bs.take i).all id && ((mark bs i n).drop (i + n)).all id) =
    (mark bs i n).all id := by
  rw [Bool.eq_iff_iff, Bool.and_eq_true]
  simp only [all_eq_true, forall_mem_iff_getElem, id, getElem_take,
    getElem_drop, length_take, length_drop, mark, getElem_mapIdx,
    length_mapIdx, Bool.or_eq_true, decide_eq_true_eq]
  refine ⟨fun h k hk => ?_, fun h => ⟨fun k hk => ?_, fun k hk => h _ (by omega)⟩⟩
  · rcases Nat.lt_or_ge k i with hlt | hge
    · exact .inl (h.1 k (by omega))
    · rcases Nat.lt_or_ge k (i + n) with hlt | hge'
      · exact .inr ⟨hge, hlt⟩
      · have hbehind := h.2 (k - (i + n)) (by omega)
        simpa [Nat.add_sub_cancel' hge'] using hbehind
  · rcases h k (by omega) with hbit | hspan
    · exact hbit
    · omega

end Mark

end HetSim.Spans
