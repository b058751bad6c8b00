import HetSim.Address.Range

/-!
# The selector and the bits that are removed

For masks with pairwise distinct lowest bits, `removeIntlvBits` squeezes the lowest bits
out, and the selector sees each of them.
-/

namespace HetSim.Address
open Squeeze

variable {r : AddrRange} {a a' m : Addr} {masks : List Addr} {i j k s : ℕ}

structure Distinct (masks : List Addr) : Prop where
  ne_zero : ∀ m ∈ masks, m ≠ 0
  nodup : (masks.map ctz64).Nodup

def lsbs (masks : List Addr) : Finset ℕ := (masks.map ctz64).toFinset

theorem mem_lsbs : k ∈ lsbs masks ↔ ∃ m ∈ masks, ctz64 m = k := by simp [lsbs]

theorem Distinct.card_lsbs (h : Distinct masks) : (lsbs masks).card = masks.length := by
  rw [lsbs, List.toFinset_card_of_nodup h.nodup, List.length_map]

theorem Distinct.lsbs_lt (h : Distinct masks) : ∀ l ∈ lsbs masks, l < 64 := by
  intro l hl
  obtain ⟨m, hm, rfl⟩ := mem_lsbs.mp hl
  exact ctz64_lt (h.ne_zero m hm)

/-! ## Removing bits -/

theorem getLsbD_removeBit {intlvBit : ℕ} (h : i ≤ intlvBit) (hbit : intlvBit < 64) :
    (removeBit i a intlvBit).getLsbD j =
      if j < intlvBit - i then a.getLsbD j else a.getLsbD (j + 1) := by
  rw [removeBit]
  by_cases hj : j < 64
  · by_cases hpos : 0 < intlvBit
    · rw [if_pos hpos, getLsbD_insertBits hj, BitVec.getLsbD_ushiftRight, Nat.sub_zero,
        add_comm 1 j]
      refine if_congr ?_ rfl rfl
      omega
    · rw [if_neg hpos, BitVec.getLsbD_ushiftRight, if_neg (by omega), add_comm 1 j]
  · rw [if_neg (show ¬ j < intlvBit - i by omega), BitVec.getLsbD_of_ge _ _ (by omega),
      BitVec.getLsbD_of_ge _ _ (by omega)]

theorem removeBits_squeezed {x : Addr} (ls : List ℕ) (L : Finset ℕ) (h : Squeezed L x a)
    (hcard : L.card = i) (hsorted : ls.Pairwise (· < ·)) (hL : ∀ l ∈ ls, ∀ l' ∈ L, l' < l)
    (hls : ∀ l ∈ ls, l < 64) : Squeezed (L ∪ ls.toFinset) x (removeBits i a ls) := by
  induction ls generalizing i a L with
  | nil => simpa [removeBits] using h
  | cons l ls ih =>
    obtain ⟨hlt, hsorted⟩ := List.pairwise_cons.mp hsorted
    have hl : ∀ l' ∈ L, l' < l := hL l (by simp)
    have hle : i ≤ l := by
      have := rank_add_card hl
      omega
    have hone := h.insert (hls l (by simp)) hl fun j => by
      rw [hcard]
      exact getLsbD_removeBit hle (hls l (by simp))
    have hcard' : (insert l L).card = i + 1 := by
      rw [Finset.card_insert_of_notMem fun hmem => lt_irrefl l (hl l hmem), hcard]
    have hrest := ih (insert l L) hone hcard' hsorted
      (fun m hm l' hl' => by
        rcases Finset.mem_insert.mp hl' with rfl | hl'
        · exact hlt m hm
        · exact hL m (by simp [hm]) l' hl')
      (fun m hm => hls m (by simp [hm]))
    rw [List.toFinset_cons, Finset.union_insert, ← Finset.insert_union]
    exact hrest

theorem mem_masksLsb : k ∈ masksLsb masks ↔ k ∈ lsbs masks := by simp [masksLsb, lsbs]

theorem Distinct.sorted (h : Distinct masks) : (masksLsb masks).Pairwise (· < ·) := by
  have hle : (masksLsb masks).Pairwise (· ≤ ·) := List.pairwise_insertionSort _ _
  have hne : (masksLsb masks).Nodup := (List.perm_insertionSort _ _).nodup_iff.mpr h.nodup
  exact (hle.and hne).imp fun h => lt_of_le_of_ne h.1 h.2

theorem removeIntlvBits_squeezed (h : Distinct r.masks) (a : Addr) :
    Squeezed (lsbs r.masks) a (r.removeIntlvBits a) := by
  have hset : ∅ ∪ (masksLsb r.masks).toFinset = lsbs r.masks := by
    ext k
    rw [Finset.empty_union, List.mem_toFinset, mem_masksLsb]
  rw [← hset]
  exact removeBits_squeezed _ ∅ Squeezed.refl rfl h.sorted (by simp)
    fun l hl => h.lsbs_lt l (mem_masksLsb.mp hl)

/-! ## The selector -/

def parity (a m : Addr) : Bool := popCount (a &&& m) % 2 = 1

theorem testBit_selFrom : (selFrom a i s masks).testBit j =
    (s.testBit j || (decide (i ≤ j) && (masks[j - i]?.any (parity a)))) := by
  induction masks generalizing i s with
  | nil => simp [selFrom]
  | cons m masks ih =>
    rw [selFrom, ih, Nat.testBit_or, Nat.testBit_shiftLeft]
    rcases lt_trichotomy i j with hlt | rfl | hgt
    · have hbit : (popCount (a &&& m) % 2).testBit (j - i) = false :=
        Nat.testBit_lt_two_pow ((Nat.mod_lt _ two_pos).trans_le
          (Nat.pow_le_pow_right two_pos (show 1 ≤ j - i by omega)))
      rw [hbit, show j - i = (j - (i + 1)) + 1 by omega, List.getElem?_cons_succ]
      simp [hlt, hlt.le]
    · rw [Nat.sub_self, List.getElem?_cons_zero, Nat.testBit_zero]
      simp [parity]
    · simp [hgt.not_ge, show ¬ i + 1 ≤ j by omega]

theorem testBit_sel : (r.sel a).testBit j = r.masks[j]?.any (parity a) := by
  rw [AddrRange.sel, testBit_selFrom]
  simp

theorem sel_lt : r.sel a < 2 ^ r.masks.length := by
  refine Nat.lt_pow_two_of_testBit _ fun j hj => ?_
  rw [testBit_sel, List.getElem?_eq_none hj, Option.any_none]

theorem parity_ne (hm : m ≠ 0) (hlow : a.getLsbD (ctz64 m) = false)
    (hlow' : a'.getLsbD (ctz64 m) = true)
    (habove : ∀ j, ctz64 m < j → a.getLsbD j = a'.getLsbD j) : parity a m ≠ parity a' m := by
  have hsucc : popCount (a' &&& m) = popCount (a &&& m) + 1 := by
    refine popCount_succ (ctz64_lt hm) ?_ ?_ fun j _ hj => ?_
    · rw [BitVec.getLsbD_and, hlow, Bool.false_and]
    · rw [BitVec.getLsbD_and, hlow', getLsbD_ctz64 hm, Bool.true_and]
    · rw [BitVec.getLsbD_and, BitVec.getLsbD_and]
      rcases lt_or_gt_of_ne hj with hlt | hgt
      · rw [getLsbD_of_lt_ctz64 hlt, Bool.and_false, Bool.and_false]
      · rw [habove j hgt]
  rw [parity, parity, hsucc, ne_eq, decide_eq_decide]
  omega

theorem sel_sees (h : Distinct r.masks) : Sees r.sel (lsbs r.masks) := by
  intro x x' k hk hx hx' habove heq
  obtain ⟨m, hm, rfl⟩ := mem_lsbs.mp hk
  obtain ⟨i, hi, rfl⟩ := List.mem_iff_getElem.mp hm
  have hbit := congrArg (Nat.testBit · i) heq
  simp only [testBit_sel, List.getElem?_eq_getElem hi, Option.any_some] at hbit
  exact parity_ne (h.ne_zero _ hm) hx hx' habove hbit

theorem exists_address (h : Distinct r.masks) (hs : s < 2 ^ r.masks.length) {c : Addr}
    (hc : c.toNat < 2 ^ (64 - r.masks.length)) : ∃ a, r.sel a = s ∧ r.removeIntlvBits a = c := by
  let sel : Addr → Fin (2 ^ r.masks.length) := fun a => ⟨r.sel a, sel_lt⟩
  have hsees : Sees sel (lsbs r.masks) := fun x x' k hk hx hx' habove heq =>
    sel_sees h x x' k hk hx hx' habove (Fin.mk.inj heq)
  obtain ⟨a, hsel, ha⟩ := exists_of_sel h.lsbs_lt hsees (removeIntlvBits_squeezed h)
    (by rw [Fintype.card_fin, h.card_lsbs]) ⟨s, hs⟩ (y := c) (by rwa [h.card_lsbs])
  exact ⟨a, Fin.mk.inj hsel, ha⟩

theorem eq_of_sel (h : Distinct r.masks) (hsel : r.sel a = r.sel a')
    (hrem : r.removeIntlvBits a = r.removeIntlvBits a') : a = a' :=
  eq_of_sel_eq h.lsbs_lt (sel_sees h) (removeIntlvBits_squeezed h a)
    (hrem ▸ removeIntlvBits_squeezed h a') hsel

end HetSim.Address
