import Mathlib

/-!
# Squeezing bits out of a word

`Squeezed L x y`: `y` is the word `x` without the bits at the positions `L`. If a selector sees
the highest bit in `L` at which two words differ, the selector and the squeezed word determine
the word, and for one value of the selector squeezing keeps the order.
-/

namespace HetSim.Squeeze
open Nat

variable {w : ℕ} {L : Finset ℕ} {j k l H : ℕ} {x x' y y' z : BitVec w}

def rank (L : Finset ℕ) (k : ℕ) : ℕ := Nat.count (· ∉ L) k

theorem rank_add_card (h : ∀ l ∈ L, l < k) : rank L k + L.card = k := by
  have hsub : L ⊆ Finset.range k := fun l hl => Finset.mem_range.mpr (h l hl)
  have hfilter : (Finset.range k).filter (· ∉ L) = Finset.range k \ L := by
    ext l
    simp
  have hle := Finset.card_le_card hsub
  rw [rank, count_eq_card_filter_range, hfilter, Finset.card_sdiff_of_subset hsub]
  rw [Finset.card_range] at hle ⊢
  omega

theorem rank_lt (hk : k ∉ L) (h : k < l) : rank L k < rank L l := count_strict_mono hk h

theorem lt_of_rank_lt (h : rank L k < rank L l) : k < l := (count_monotone _).reflect_lt h

theorem exists_rank (h : j < rank L H) : ∃ k < H, k ∉ L ∧ rank L k = j := by
  induction H with
  | zero => exact absurd h (Nat.not_lt_zero j)
  | succ H ih =>
    rw [rank, count_succ] at h
    by_cases hj : j < rank L H
    · obtain ⟨k, hk, hkL, hrank⟩ := ih hj
      exact ⟨k, by omega, hkL, hrank⟩
    · have hHL : H ∉ L := by
        intro hH
        rw [if_neg (by simpa using hH)] at h
        exact hj h
      rw [if_pos hHL] at h
      exact ⟨H, by omega, hHL, by rw [rank] at hj ⊢; omega⟩

theorem rank_insert_of_le (h : k ≤ l) : rank (insert l L) k = rank L k := by
  rw [rank, rank, count_eq_card_filter_range, count_eq_card_filter_range]
  congr 1
  refine Finset.filter_congr fun m hm => ?_
  rw [Finset.mem_range] at hm
  rw [Finset.mem_insert, not_or]
  exact ⟨fun h => h.2, fun h => ⟨by omega, h⟩⟩

theorem rank_insert_of_lt (hl : l ∉ L) (h : l < k) : rank (insert l L) k + 1 = rank L k := by
  induction k with
  | zero => omega
  | succ k ih =>
    rw [rank, rank, count_succ, count_succ]
    change rank (insert l L) k + _ + 1 = rank L k + _
    by_cases hk : k = l
    · subst hk
      rw [rank_insert_of_le le_rfl]
      simp [hl]
    · have hrest := ih (by omega)
      by_cases hkL : k ∈ L
      · simpa [hk, hkL] using hrest
      · simpa [hk, hkL] using hrest

@[simp] theorem rank_empty : rank ∅ k = k := by
  have h := rank_add_card (L := ∅) (k := k) (by simp)
  rwa [Finset.card_empty, add_zero] at h

structure Squeezed (L : Finset ℕ) (x y : BitVec w) : Prop where
  bit : ∀ k < w, k ∉ L → y.getLsbD (rank L k) = x.getLsbD k
  high : ∀ j, w - L.card ≤ j → y.getLsbD j = false

theorem Squeezed.refl : Squeezed ∅ x x where
  bit k _ _ := by rw [rank_empty]
  high j hj := BitVec.getLsbD_of_ge _ _ (by simpa using hj)

theorem Squeezed.insert (h : Squeezed L x y) (hw : l < w) (hl : ∀ l' ∈ L, l' < l)
    (hz : ∀ j, z.getLsbD j = if j < l - L.card then y.getLsbD j else y.getLsbD (j + 1)) :
    Squeezed (insert l L) x z := by
  have hlL : l ∉ L := fun hmem => lt_irrefl l (hl l hmem)
  have hrank := rank_add_card hl
  constructor
  · intro k hk hkL
    rw [Finset.mem_insert, not_or] at hkL
    rw [hz]
    rcases lt_or_gt_of_ne hkL.1 with hlt | hgt
    · have hbelow := rank_lt hkL.2 hlt
      rw [rank_insert_of_le hlt.le, if_pos (by omega)]
      exact h.bit k hk hkL.2
    · have hone := rank_insert_of_lt hlL hgt
      have habove := rank_lt hlL hgt
      rw [if_neg (by omega), hone]
      exact h.bit k hk hkL.2
  · intro j hj
    rw [Finset.card_insert_of_notMem hlL] at hj
    rw [hz, if_neg (by omega)]
    exact h.high _ (by omega)

theorem rank_width (hL : ∀ l ∈ L, l < w) : rank L w = w - L.card := by
  have h := rank_add_card hL
  omega

theorem Squeezed.unique (hL : ∀ l ∈ L, l < w) (h : Squeezed L x y) (h' : Squeezed L x y') :
    y = y' := by
  refine BitVec.eq_of_getLsbD_eq fun j _ => ?_
  by_cases hj : j < w - L.card
  · rw [← rank_width hL] at hj
    obtain ⟨k, hk, hkL, rfl⟩ := exists_rank hj
    rw [h.bit k hk hkL, h'.bit k hk hkL]
  · rw [h.high j (by omega), h'.high j (by omega)]

theorem Squeezed.lt_two_pow (h : Squeezed L x y) : y.toNat < 2 ^ (w - L.card) :=
  lt_pow_two_of_testBit _ fun j hj => h.high j hj

theorem Squeezed.lt (hL : ∀ l ∈ L, l < w) (h : Squeezed L x y) (h' : Squeezed L x' y')
    (hk : k < w) (hkL : k ∉ L) (hx : x.getLsbD k = false) (hx' : x'.getLsbD k = true)
    (habove : ∀ j, k < j → x.getLsbD j = x'.getLsbD j) : y.toNat < y'.toNat := by
  refine lt_of_testBit (rank L k) ?_ ?_ fun j hj => ?_
  · exact (h.bit k hk hkL).trans hx
  · exact (h'.bit k hk hkL).trans hx'
  · change y.getLsbD j = y'.getLsbD j
    by_cases hjw : j < w - L.card
    · rw [← rank_width hL] at hjw
      obtain ⟨m, hm, hmL, rfl⟩ := exists_rank hjw
      rw [h.bit m hm hmL, h'.bit m hm hmL]
      exact habove m (lt_of_rank_lt hj)
    · rw [h.high j (by omega), h'.high j (by omega)]

theorem Squeezed.eq_of_twoPow (h : Squeezed L x (BitVec.twoPow w (rank L l))) (hl : l < w)
    (hlL : l ∉ L) (hk : k < w) (hkL : k ∉ L) : x.getLsbD k = true ↔ k = l := by
  have hw : rank L l < w := (count_le _).trans_lt hl
  rw [← h.bit k hk hkL, BitVec.getLsbD_twoPow, Bool.and_eq_true, decide_eq_true_eq,
    decide_eq_true_eq]
  constructor
  · rintro ⟨-, hsame⟩
    rcases lt_trichotomy k l with hlt | heq | hgt
    · exact absurd hsame (rank_lt hkL hlt).ne'
    · exact heq
    · exact absurd hsame (rank_lt hlL hgt).ne
  · rintro rfl
    exact ⟨hw, rfl⟩

theorem Squeezed.div (h : Squeezed L x y) (hH : ∀ l ∈ L, l < H) :
    y.toNat / 2 ^ (H - L.card) = x.toNat / 2 ^ H := by
  refine eq_of_testBit_eq fun j => ?_
  rw [testBit_div_two_pow, testBit_div_two_pow]
  change y.getLsbD _ = x.getLsbD _
  have hcard := rank_add_card hH
  have hk : rank L (j + H) + L.card = j + H :=
    rank_add_card fun l hl => (hH l hl).trans_le (Nat.le_add_left H j)
  by_cases hw : j + H < w
  · have hkL : j + H ∉ L := fun hmem => by
      have := hH _ hmem
      omega
    rw [← h.bit (j + H) hw hkL]
    congr 1
    omega
  · rw [BitVec.getLsbD_of_ge x _ (by omega), h.high _ (by omega)]

theorem Squeezed.dvd (h : Squeezed L x y) (hH : ∀ l ∈ L, l < H) (hHw : H ≤ w)
    (hx : 2 ^ H ∣ x.toNat) : 2 ^ (H - L.card) ∣ y.toNat := by
  have hcard := rank_add_card hH
  refine dvd_of_mod_eq_zero (eq_of_testBit_eq fun j => ?_)
  rw [testBit_mod_two_pow, zero_testBit]
  by_cases hj : j < H - L.card
  · obtain ⟨k, hk, hkL, rfl⟩ := exists_rank (L := L) (H := H) (j := j) (by omega)
    have hzero : x.toNat.testBit k = false := by
      have hmod := congrArg (Nat.testBit · k) (mod_eq_zero_of_dvd hx)
      simpa [testBit_mod_two_pow, hk] using hmod
    have hbit : y.toNat.testBit (rank L k) = x.toNat.testBit k := h.bit k (by omega) hkL
    rw [hbit, hzero, Bool.and_false]
  · rw [decide_eq_false hj, Bool.false_and]

/-! ## Selectors -/

theorem exists_top (h : x ≠ x') :
    ∃ k < w, x.getLsbD k ≠ x'.getLsbD k ∧ ∀ j, k < j → x.getLsbD j = x'.getLsbD j := by
  have hxor : (x ^^^ x').toNat ≠ 0 := by
    intro hzero
    exact h (BitVec.xor_eq_zero_iff.mp (BitVec.eq_of_toNat_eq hzero))
  obtain ⟨k, hk, habove⟩ := exists_most_significant_bit hxor
  change (x ^^^ x').getLsbD k = true at hk
  refine ⟨k, BitVec.lt_of_getLsbD hk, ?_, fun j hj => ?_⟩
  · simpa using hk
  · have hj' : (x ^^^ x').getLsbD j = false := habove j hj
    simpa using hj'

variable {σ : Type*} {sel : BitVec w → σ}

def Sees (sel : BitVec w → σ) (L : Finset ℕ) : Prop :=
  ∀ x x' k, k ∈ L → x.getLsbD k = false → x'.getLsbD k = true →
    (∀ j, k < j → x.getLsbD j = x'.getLsbD j) → sel x ≠ sel x'

theorem lt_of_sel_eq (hL : ∀ l ∈ L, l < w) (hsel : Sees sel L) (h : Squeezed L x y)
    (h' : Squeezed L x' y') (heq : sel x = sel x') (hlt : x.toNat < x'.toNat) :
    y.toNat < y'.toNat := by
  obtain ⟨k, hk, hne, habove⟩ := exists_top (fun h : x = x' => lt_irrefl _ (h ▸ hlt))
  cases hx : x.getLsbD k with
  | false =>
    have hx' : x'.getLsbD k = true := by
      rw [hx] at hne
      simpa using hne.symm
    have hkL : k ∉ L := fun hmem => hsel x x' k hmem hx hx' habove heq
    exact Squeezed.lt hL h h' hk hkL hx hx' habove
  | true =>
    have hx' : x'.getLsbD k = false := by
      rw [hx] at hne
      simpa using hne.symm
    have hgt := lt_of_testBit k hx' hx fun j hj => (habove j hj).symm
    omega

theorem eq_of_sel_eq (hL : ∀ l ∈ L, l < w) (hsel : Sees sel L) (h : Squeezed L x y)
    (h' : Squeezed L x' y) (heq : sel x = sel x') : x = x' := by
  rcases lt_trichotomy x.toNat x'.toNat with hlt | hsame | hgt
  · exact absurd (lt_of_sel_eq hL hsel h h' heq hlt) (lt_irrefl _)
  · exact BitVec.eq_of_toNat_eq hsame
  · exact absurd (lt_of_sel_eq hL hsel h' h heq.symm hgt) (lt_irrefl _)

theorem exists_of_sel [Fintype σ] {drop : BitVec w → BitVec w} (hL : ∀ l ∈ L, l < w)
    (hsel : Sees sel L) (hdrop : ∀ x, Squeezed L x (drop x)) (hcard : Fintype.card σ = 2 ^ L.card)
    (s : σ) (hy : y.toNat < 2 ^ (w - L.card)) : ∃ x, sel x = s ∧ drop x = y := by
  let f : BitVec w → σ × Fin (2 ^ (w - L.card)) := fun x =>
    (sel x, ⟨(drop x).toNat, (hdrop x).lt_two_pow⟩)
  have hinj : Function.Injective f := by
    intro x x' hf
    have hsame : sel x = sel x' := congrArg Prod.fst hf
    have hdrops : drop x = drop x' := BitVec.eq_of_toNat_eq (Fin.mk.inj (congrArg Prod.snd hf))
    exact eq_of_sel_eq hL hsel (hdrop x) (hdrops ▸ hdrop x') hsame
  have hle : L.card ≤ w := by
    have := rank_add_card hL
    omega
  have hbij : Function.Bijective f := by
    refine (Fintype.bijective_iff_injective_and_card f).mpr ⟨hinj, ?_⟩
    rw [Fintype.card_congr BitVec.equivFin.toEquiv, Fintype.card_prod, hcard, Fintype.card_fin,
      Fintype.card_fin, ← pow_add, Nat.add_sub_cancel' hle]
  obtain ⟨x, hx⟩ := hbij.2 (s, ⟨y.toNat, hy⟩)
  exact ⟨x, congrArg Prod.fst hx, BitVec.eq_of_toNat_eq (Fin.mk.inj (congrArg Prod.snd hx))⟩

end HetSim.Squeeze
