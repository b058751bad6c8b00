import HetSim.Address.Selector

/-!
# Interleaved channels partition memory

In a range between multiples of `2 ^ H`, above the lowest bits of all masks, an address is in
the range iff its channel-local address is in the range of the channel.
-/

namespace HetSim.Address
open Squeeze AddrRange

variable {r : AddrRange} {a a' : Addr} {H : ℕ}

theorem removeIntlvBits_of_empty (hnone : ¬ r.interleaved) : r.removeIntlvBits a = a := by
  have hmasks : r.masks = [] := by simpa [interleaved] using hnone
  rw [removeIntlvBits, hmasks]
  rfl

structure Aligned (H : ℕ) (r : AddrRange) : Prop where
  distinct : Distinct r.masks
  lsb_lt : ∀ m ∈ r.masks, ctz64 m < H
  lt : r.start.toNat < r.end_.toNat
  start : 2 ^ H ∣ r.start.toNat
  end_ : 2 ^ H ∣ r.end_.toNat

namespace Aligned

def bound (H : ℕ) (r : AddrRange) (b : Addr) : ℕ := b.toNat / 2 ^ H * 2 ^ (H - r.masks.length)

variable (h : Aligned H r)
include h

theorem lsbs_lt : ∀ l ∈ lsbs r.masks, l < H := by
  intro l hl
  obtain ⟨m, hm, rfl⟩ := mem_lsbs.mp hl
  exact h.lsb_lt m hm

theorem length_le : r.masks.length ≤ H := by
  have := rank_add_card h.lsbs_lt
  rw [h.distinct.card_lsbs] at this
  omega

theorem width : H < 64 := by
  have hle : 2 ^ H ≤ r.end_.toNat := Nat.le_of_dvd (Nat.zero_lt_of_lt h.lt) h.end_
  exact (Nat.pow_lt_pow_iff_right one_lt_two).mp (hle.trans_lt r.end_.isLt)

theorem div (a : Addr) :
    (r.removeIntlvBits a).toNat / 2 ^ (H - r.masks.length) = a.toNat / 2 ^ H := by
  rw [← h.distinct.card_lsbs]
  exact (removeIntlvBits_squeezed h.distinct a).div h.lsbs_lt

theorem bound_le_iff {b : Addr} (hb : 2 ^ H ∣ b.toNat) :
    bound H r b ≤ (r.removeIntlvBits a).toNat ↔ b.toNat ≤ a.toNat := by
  rw [bound, ← Nat.le_div_iff_mul_le (Nat.two_pow_pos _), h.div,
    Nat.le_div_iff_mul_le (Nat.two_pow_pos _), Nat.div_mul_cancel hb]

theorem removeIntlvBits_start : (r.removeIntlvBits r.start).toNat = bound H r r.start := by
  have hdvd := (removeIntlvBits_squeezed h.distinct r.start).dvd h.lsbs_lt h.width.le h.start
  rw [h.distinct.card_lsbs] at hdvd
  rw [bound, ← h.div, Nat.div_mul_cancel hdvd]

theorem extent_iff : r.start ≤ a ∧ a < r.end_ ↔
    bound H r r.start ≤ (r.removeIntlvBits a).toNat ∧
      (r.removeIntlvBits a).toNat < bound H r r.end_ := by
  rw [h.bound_le_iff h.start, ← not_le, h.bound_le_iff h.end_, not_le]
  rfl

theorem size_toNat : r.size.toNat = bound H r r.end_ - bound H r r.start := by
  obtain ⟨s, hs⟩ := h.start
  obtain ⟨e, he⟩ := h.end_
  have hpow : 2 ^ H = 2 ^ (H - r.masks.length) * 2 ^ r.masks.length := by
    rw [← pow_add, Nat.sub_add_cancel h.length_le]
  have hbounds : bound H r r.end_ - bound H r r.start = (e - s) * 2 ^ (H - r.masks.length) := by
    rw [bound, bound, hs, he, Nat.mul_div_cancel_left _ (Nat.two_pow_pos _),
      Nat.mul_div_cancel_left _ (Nat.two_pow_pos _), Nat.sub_mul]
  rw [hbounds, size, BitVec.toNat_ushiftRight, BitVec.toNat_sub_of_le h.lt.le,
    Nat.shiftRight_eq_div_pow, hs, he, ← Nat.mul_sub, hpow, mul_right_comm,
    Nat.mul_div_cancel _ (Nat.two_pow_pos _), mul_comm]

theorem getOffset_toNat (ha : r.start ≤ a ∧ a < r.end_) :
    (r.getOffset a).toNat = (r.removeIntlvBits a).toNat - bound H r r.start := by
  have hle : r.removeIntlvBits r.start ≤ r.removeIntlvBits a := by
    rw [BitVec.le_def, h.removeIntlvBits_start]
    exact (h.extent_iff.mp ha).1
  have heq : r.getOffset a = r.removeIntlvBits a - r.removeIntlvBits r.start := by
    rw [getOffset, if_pos ha]
    split_ifs with hmasks
    · rfl
    · rw [removeIntlvBits_of_empty hmasks, removeIntlvBits_of_empty hmasks]
  rw [heq, BitVec.toNat_sub_of_le hle, h.removeIntlvBits_start]

theorem getOffset_lt (ha : r.contains a) (ha' : r.contains a') (hlt : a < a') :
    r.getOffset a < r.getOffset a' := by
  simp only [contains, decide_eq_true_eq] at ha ha'
  obtain ⟨hstart, hend, hsel⟩ := ha
  obtain ⟨hstart', hend', hsel'⟩ := ha'
  have hrem := lt_of_sel_eq h.distinct.lsbs_lt (sel_sees h.distinct)
    (removeIntlvBits_squeezed h.distinct a) (removeIntlvBits_squeezed h.distinct a')
    (hsel.trans hsel'.symm) hlt
  have hle := (h.extent_iff.mp ⟨hstart, hend⟩).1
  rw [BitVec.lt_def, h.getOffset_toNat ⟨hstart, hend⟩, h.getOffset_toNat ⟨hstart', hend'⟩]
  omega

theorem getOffset_injOn : Set.InjOn r.getOffset {a | r.contains a} := by
  intro a ha a' ha' heq
  rcases lt_trichotomy a.toNat a'.toNat with hlt | hsame | hgt
  · have := h.getOffset_lt ha ha' hlt
    rw [heq, BitVec.lt_def] at this
    exact absurd this (lt_irrefl _)
  · exact BitVec.eq_of_toNat_eq hsame
  · have := h.getOffset_lt ha' ha hgt
    rw [heq, BitVec.lt_def] at this
    exact absurd this (lt_irrefl _)

theorem bound_end_le : bound H r r.end_ ≤ 2 ^ (64 - r.masks.length) := by
  have hwidth := h.width
  have hlength := h.length_le
  have hdiv : r.end_.toNat / 2 ^ H ≤ 2 ^ (64 - H) := by
    refine Nat.div_le_of_le_mul ?_
    rw [← pow_add, Nat.add_sub_cancel' hwidth.le]
    exact r.end_.isLt.le
  calc bound H r r.end_ ≤ 2 ^ (64 - H) * 2 ^ (H - r.masks.length) := Nat.mul_le_mul_right _ hdiv
    _ = 2 ^ (64 - r.masks.length) := by
      rw [← pow_add]
      congr 1
      omega

theorem getOffset_bijOn (hmatch : r.intlvMatch.toNat < 2 ^ r.masks.length) :
    Set.BijOn r.getOffset {a | r.contains a} {o | o < r.size} := by
  refine ⟨fun a ha => ?_, h.getOffset_injOn, fun o ho => ?_⟩
  · change r.contains a at ha
    simp only [contains, decide_eq_true_eq] at ha
    have hin : r.start ≤ a ∧ a < r.end_ := ⟨ha.1, ha.2.1⟩
    have hrem := h.extent_iff.mp hin
    change (r.getOffset a).toNat < r.size.toNat
    rw [h.getOffset_toNat hin, h.size_toNat]
    omega
  · -- The channel-local address of the offset, together with the match, is an address.
    change o.toNat < r.size.toNat at ho
    rw [h.size_toNat] at ho
    have hend := h.bound_end_le
    have hpow : 2 ^ (64 - r.masks.length) ≤ 2 ^ 64 := Nat.pow_le_pow_right two_pos (Nat.sub_le _ _)
    have hc : (BitVec.ofNat 64 (bound H r r.start + o.toNat)).toNat =
        bound H r r.start + o.toNat := by
      rw [BitVec.toNat_ofNat, Nat.mod_eq_of_lt (by omega)]
    obtain ⟨a, hsel, hrem⟩ := exists_address h.distinct hmatch
      (c := BitVec.ofNat 64 (bound H r r.start + o.toNat)) (by omega)
    have hin : r.start ≤ a ∧ a < r.end_ := by
      rw [h.extent_iff, hrem, hc]
      omega
    refine ⟨a, ?_, BitVec.eq_of_toNat_eq ?_⟩
    · simpa [contains] using ⟨hin.1, hin.2, hsel⟩
    · rw [h.getOffset_toNat hin, hrem, hc, Nat.add_sub_cancel_left]

end Aligned

def sibling (start end_ : Addr) (masks : List Addr) (i : ℕ) : AddrRange :=
  ⟨start, end_, masks, BitVec.ofNat 8 i⟩

theorem channels_partition (masks : List Addr) (hn : masks.length ≤ 8)
    (hmasks : ∀ m ∈ masks, m ≠ 0) (hlsbs : (masks.map ctz64).Nodup) (h : ℕ)
    (hh : ∀ m ∈ masks, ctz64 m ≤ h) (start end_ : Addr) (hlt : start < end_)
    (hstart : 2 ^ (h + 1) ∣ start.toNat) (hend : 2 ^ (h + 1) ∣ end_.toNat) :
    let channel := sibling start end_ masks
    (∀ a, start ≤ a → a < end_ → ∃! i, i < 2 ^ masks.length ∧ (channel i).contains a) ∧
    (∀ i a, (channel i).contains a → start ≤ a ∧ a < end_) ∧
    (∀ i < 2 ^ masks.length,
      (∀ a a', (channel i).contains a → (channel i).contains a' → a < a' →
        (channel i).getOffset a < (channel i).getOffset a') ∧
      Set.BijOn (channel i).getOffset {a | (channel i).contains a} {o | o < (channel i).size}) ∧
    ∀ i < 2 ^ masks.length, ∀ i' < 2 ^ masks.length, ∀ a a', (channel i).contains a →
      (channel i').contains a' → (i, (channel i).getOffset a) = (i', (channel i').getOffset a') →
      a = a' := by
  intro channel
  have haligned : ∀ i, Aligned (h + 1) (sibling start end_ masks i) := fun i =>
    ⟨⟨hmasks, hlsbs⟩, fun m hm => Nat.lt_succ_of_le (hh m hm), hlt, hstart, hend⟩
  have hmatch : ∀ i < 2 ^ masks.length, (BitVec.ofNat 8 i).toNat = i := fun i hi => by
    rw [BitVec.toNat_ofNat]
    exact Nat.mod_eq_of_lt (hi.trans_le (Nat.pow_le_pow_right two_pos hn))
  refine ⟨fun a hstart hend => ?_, fun i a ha => ?_, fun i hi => ⟨fun a a' => ?_, ?_⟩,
    fun i hi i' hi' a a' ha ha' heq => ?_⟩
  · have hsel := sel_lt (r := sibling start end_ masks 0) (a := a)
    refine ⟨_, ⟨hsel, ?_⟩, fun i hi => ?_⟩
    · simpa [AddrRange.contains] using ⟨hstart, hend, (hmatch _ hsel).symm⟩
    · have hi' := hi.2
      simp only [AddrRange.contains, decide_eq_true_eq] at hi'
      exact ((hmatch i hi.1).symm.trans hi'.2.2.symm)
  · simp only [AddrRange.contains, decide_eq_true_eq] at ha
    exact ⟨ha.1, ha.2.1⟩
  · exact (haligned i).getOffset_lt
  · exact (haligned i).getOffset_bijOn (by rw [sibling, hmatch i hi]; exact hi)
  · obtain ⟨rfl, hoff⟩ := Prod.mk.inj heq
    exact (haligned i).getOffset_injOn ha ha' hoff

theorem channels_partition_hashed :
    let channel := sibling 4 12 [0b101, 0b110]
    (∃! i, i < 2 ^ 2 ∧ (channel i).contains 7) ∧
      Set.BijOn (channel 3).getOffset {a | (channel 3).contains a} {o | o < (channel 3).size} := by
  have h := channels_partition [0b101, 0b110] (by decide) (by simp) (by decide +kernel) 1
    (List.forall_mem_cons.mpr ⟨by decide +kernel,
      List.forall_mem_singleton.mpr (by decide +kernel)⟩)
    4 12 (by decide) (by decide) (by decide)
  exact ⟨h.1 7 (by decide) (by decide), (h.2.2.1 3 (by decide)).2⟩

end HetSim.Address
