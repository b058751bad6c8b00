import HetSim.Address.Insertion

/-!
# Adding interleaving bits undoes removing them

It does for at most two masks whose lowest bits an `int` can hold.
-/

namespace HetSim.Address
open Squeeze Checked List

variable {r : AddrRange} {a a' c m : Addr} {masks : List Addr} {i j k l : ℕ}

structure Built (r : AddrRange) : Prop where
  separate : Separate r.masks
  match_lt : r.intlvMatch.toNat < 2 ^ r.masks.length

def RoundTrips (r : AddrRange) : Prop :=
  (∀ a, r.contains a → r.addIntlvBits (r.removeIntlvBits a) = .ok a) ∧
  ∀ c : Addr, c.toNat < 2 ^ (64 - r.masks.length) →
    ∃ a, r.addIntlvBits c = .ok a ∧ r.removeIntlvBits a = c ∧ r.sel a = r.intlvMatch.toNat

theorem roundTrips_of_add (h : Built r)
    (hadd : ∀ c : Addr, c.toNat < 2 ^ (64 - r.masks.length) →
      ∃ a, r.addIntlvBits c = .ok a ∧ r.removeIntlvBits a = c ∧ r.sel a = r.intlvMatch.toNat) :
    RoundTrips r := by
  refine ⟨fun a ha => ?_, hadd⟩
  have hd := h.separate.distinct
  simp only [AddrRange.contains, decide_eq_true_eq] at ha
  have hlt := (removeIntlvBits_squeezed hd a).lt_two_pow
  rw [hd.card_lsbs] at hlt
  obtain ⟨a', hadd', hrem, hsel⟩ := hadd (r.removeIntlvBits a) hlt
  rw [hadd', eq_of_sel hd (hsel.trans ha.2.2.symm) hrem]

theorem masksLsb_toFinset : (masksLsb masks).toFinset = lsbs masks := by
  ext k
  rw [mem_toFinset, mem_masksLsb]

theorem masksLsb_length : (masksLsb masks).length = masks.length := by
  rw [masksLsb, length_insertionSort, length_map]

theorem roundTrips_of_fits (h : Built r) (htwo : r.masks.length ≤ 2)
    (hfits : ∀ m ∈ r.masks, Fits m) :
    RoundTrips r := by
  refine roundTrips_of_add h fun c hc => ?_
  have hd := h.separate.distinct
  obtain ⟨a, hset, hkeep, hbits⟩ := setBits_spec r.intlvMatch 0
    (addBits 0 c (masksLsb r.masks)) h.separate fun m hm => (hfits m hm).lt
  have hsqueezed : Squeezed (lsbs r.masks) a c := by
    refine ⟨fun k hk hkl => ?_, fun j hj => ?_⟩
    · rw [hkeep k hk hkl, getLsbD_addBits_of_le_two (masksLsb_length.trans_le htwo) hd.sorted hk
        (fun hmem => hkl (mem_masksLsb.mp hmem)), masksLsb_toFinset]
    · rw [hd.card_lsbs] at hj
      exact Nat.testBit_lt_two_pow (hc.trans_le (Nat.pow_le_pow_right two_pos hj))
  refine ⟨a, hset, (removeIntlvBits_squeezed hd a).unique hd.lsbs_lt hsqueezed, ?_⟩
  refine Nat.eq_of_testBit_eq fun j => ?_
  rw [testBit_sel]
  by_cases hj : j < r.masks.length
  · have hmem : r.masks[j] ∈ r.masks := getElem_mem hj
    rw [List.getElem?_eq_getElem hj, Option.any_some,
      (hfits _ hmem).parity_eq (h.separate.ne_zero _ hmem), hbits j hj, zero_add, Bool.xor_assoc,
      Bool.xor_self, Bool.xor_false]
    rfl
  · rw [List.getElem?_eq_none (by omega), Option.any_none]
    exact (Nat.testBit_lt_two_pow (h.match_lt.trans_le
      (Nat.pow_le_pow_right two_pos (by omega)))).symm

theorem RoundTrips.lsb_lt (h : RoundTrips r) : ∀ m ∈ r.masks, ctz64 m < 32 := by
  obtain ⟨a, hadd, -, -⟩ := h.2 0 (Nat.two_pow_pos _)
  exact lsb_lt_of_setBits hadd

theorem RoundTrips.exists_add (h : RoundTrips r) (hb : Built r)
    (hc : c.toNat < 2 ^ (64 - r.masks.length)) :
    ∃ a, Squeezed (lsbs r.masks) a c ∧ r.sel a = r.intlvMatch.toNat ∧
      (∀ k < 64, k ∉ lsbs r.masks → a.getLsbD k = (addBits 0 c (masksLsb r.masks)).getLsbD k) ∧
      ∀ j (hj : j < r.masks.length), a.getLsbD (ctz64 r.masks[j]) =
        (r.intlvMatch.getLsbD j ^^ parity a (kept r.masks[j])) := by
  obtain ⟨a, hadd, hrem, hsel⟩ := h.2 c hc
  obtain ⟨a', hset, hkeep, hbits⟩ := setBits_spec r.intlvMatch 0
    (addBits 0 c (masksLsb r.masks)) hb.separate h.lsb_lt
  obtain rfl : a = a' := Except.ok.inj (hadd.symm.trans hset)
  refine ⟨a, hrem ▸ removeIntlvBits_squeezed hb.separate.distinct a, hsel, hkeep, fun j hj => ?_⟩
  rw [hbits j hj, zero_add]

theorem RoundTrips.length_le (h : RoundTrips r) (hb : Built r) : r.masks.length ≤ 2 := by
  by_contra hthree
  have hd := hb.separate.distinct
  have hlen : (masksLsb r.masks).length = r.masks.length := masksLsb_length
  obtain ⟨ls, l, hls⟩ := eq_nil_or_concat (masksLsb r.masks) |>.resolve_left fun hnil => by
    rw [hnil, length_nil] at hlen
    omega
  rw [concat_eq_append] at hls
  have hsorted := hd.sorted
  rw [hls] at hsorted hlen
  rw [length_append, length_singleton] at hlen
  have hbelow : ∀ l' ∈ lsbs r.masks, l' < l + 1 := by
    intro l' hl'
    rw [← mem_masksLsb, hls, mem_append, mem_singleton] at hl'
    rcases hl' with hl' | rfl
    · exact Nat.lt_succ_of_lt ((pairwise_append.mp hsorted).2.2 l' hl' l (by simp))
    · exact Nat.lt_succ_self _
  have hrank := rank_add_card hbelow
  rw [hd.card_lsbs] at hrank
  have hl : l < 32 := by
    obtain ⟨m, hm, rfl⟩ := mem_lsbs.mp (mem_masksLsb.mp (hls ▸ mem_concat_self))
    exact h.lsb_lt m hm
  obtain ⟨a, hsq, -, hkeep, -⟩ :=
    h.exists_add hb (c := BitVec.twoPow 64 (rank (lsbs r.masks) (l + 1)))
    (by
      rw [BitVec.toNat_twoPow_of_lt (by omega)]
      exact Nat.pow_lt_pow_right one_lt_two (by omega))
  have habove : l + 1 ∉ lsbs r.masks := fun hmem => lt_irrefl _ (hbelow _ hmem)
  obtain ⟨s, hs, hbit⟩ := exists_getLsbD_above (a :=
    BitVec.twoPow 64 (rank (lsbs r.masks) (l + 1))) ls
    hsorted (by omega) (by omega) (by omega)
  have hone := hsq.bit (l + 1) (by omega) habove
  rw [hkeep _ (by omega) habove, hls, hbit, BitVec.getLsbD_twoPow, BitVec.getLsbD_twoPow] at hone
  simp at hone
  omega

theorem parity_zero : parity a 0 = false := by
  rw [parity, show a &&& 0 = (0 : Addr) from BitVec.and_zero]
  decide +kernel

theorem parity_twoPow : parity a (BitVec.twoPow 64 31) = a.getLsbD 31 := by
  have hctz : ctz64 (BitVec.twoPow 64 31) = 31 := ctz64_twoPow (by omega)
  rw [Fits.parity_eq (Or.inr rfl) (by decide), kept_eq_zero hctz, parity_zero, Bool.xor_false, hctz]

theorem exists_getLsbD_ne (hm : m ≠ 0) (hlsb : ctz64 m = 31) (hne : m ≠ BitVec.twoPow 64 31) :
    ∃ b < 64, m.getLsbD b = true ∧ b ≠ 31 := by
  by_contra hnone
  push Not at hnone
  refine hne (BitVec.eq_of_getLsbD_eq fun k hk => ?_)
  rw [BitVec.getLsbD_twoPow]
  cases hbit : m.getLsbD k with
  | false =>
    have hk31 : k ≠ 31 := by
      rintro rfl
      rw [← hlsb, getLsbD_ctz64 hm] at hbit
      contradiction
    simp [hk31.symm]
  | true => simp [hnone k hk hbit]

theorem parity_of_one {b : ℕ} (hm : m ≠ 0) (hlsb : ctz64 m = 31) (hb : b < 64)
    (hbm : m.getLsbD b = true) (hb31 : b ≠ 31) (hab : a.getLsbD b = true)
    (ha : ∀ k < 64, m.getLsbD k = true → a.getLsbD k = true → k = b ∨ k = 31) :
    parity a m = !a.getLsbD 31 := by
  have hpop : popCount (a &&& m) = popCount (a &&& BitVec.twoPow 64 31) + 1 := by
    refine popCount_succ hb ?_ ?_ fun k hk hkb => ?_
    · rw [BitVec.getLsbD_and, BitVec.getLsbD_twoPow]
      simp [hb31.symm]
    · rw [BitVec.getLsbD_and, hbm, hab, Bool.true_and]
    · rw [BitVec.getLsbD_and, BitVec.getLsbD_and, BitVec.getLsbD_twoPow]
      by_cases hk31 : k = 31
      · have hbit := getLsbD_ctz64 hm
        rw [hlsb] at hbit
        rw [hk31, hbit]
        rfl
      · have hzero : (a.getLsbD k && m.getLsbD k) = false := by
          by_contra hboth
          rw [Bool.not_eq_false, Bool.and_eq_true] at hboth
          rcases ha k hk hboth.2 hboth.1 with h | h
          · exact hkb h
          · exact hk31 h
        rw [hzero]
        simp [Ne.symm hk31]
  rw [← parity_twoPow, parity, parity, hpop, ← decide_not, decide_eq_decide]
  omega

theorem RoundTrips.fits (h : RoundTrips r) (hb : Built r) : ∀ m ∈ r.masks, Fits m := by
  intro m hm
  by_contra hfits
  rw [Fits, not_or] at hfits
  have hd := hb.separate.distinct
  have hm0 := hb.separate.ne_zero m hm
  have hlsb : ctz64 m = 31 := by
    have := h.lsb_lt m hm
    omega
  obtain ⟨b, hb64, hbm, hb31⟩ := exists_getLsbD_ne hm0 hlsb hfits.2
  have hother : ∀ k, m.getLsbD k = true → k ≠ 31 → k ∉ lsbs r.masks := by
    intro k hbit hk31 hmem
    rw [hb.separate.getLsbD_lsb hm hmem (hlsb ▸ hk31)] at hbit
    contradiction
  have hbL := hother b hbm hb31
  have hrank : rank (lsbs r.masks) b < 64 - r.masks.length := by
    have := rank_lt hbL hb64
    rwa [rank_width hd.lsbs_lt, hd.card_lsbs] at this
  obtain ⟨a, hsq, hsel, -, hbits⟩ :=
    h.exists_add hb (c := BitVec.twoPow 64 (rank (lsbs r.masks) b)) (by
      rw [BitVec.toNat_twoPow_of_lt (by omega)]
      exact Nat.pow_lt_pow_right one_lt_two hrank)
  have hone : parity a m = !a.getLsbD 31 := by
    refine parity_of_one hm0 hlsb hb64 hbm hb31 ((hsq.eq_of_twoPow hb64 hbL hb64 hbL).mpr rfl) ?_
    intro k hk hbit hak
    by_cases hk31 : k = 31
    · exact Or.inr hk31
    · exact Or.inl ((hsq.eq_of_twoPow hb64 hbL hk (hother k hbit hk31)).mp hak)
  obtain ⟨j, hj, rfl⟩ := mem_iff_getElem.mp hm
  have hparity : parity a r.masks[j] = r.intlvMatch.getLsbD j := by
    have hbit := congrArg (Nat.testBit · j) hsel
    simp only [testBit_sel, List.getElem?_eq_getElem hj, Option.any_some] at hbit
    exact hbit
  have hlow := hbits j hj
  rw [kept_eq_zero hlsb, parity_zero, Bool.xor_false, hlsb, ← hparity, hone] at hlow
  simp at hlow

/-! ## The legacy constructor -/

section Legacy

variable {intlvHighBit xorHighBit intlvBits intlvMatch : BitVec 8} {start end_ : Addr}

def legacyLow (intlvHighBit xorHighBit : BitVec 8) : ℕ :=
  if xorHighBit = 0 then intlvHighBit.toNat else min intlvHighBit.toNat xorHighBit.toNat

theorem toNat_sub_of_lt_64 {b : BitVec 8} (hi : i < 64) (h : (b - BitVec.ofNat 8 i).toNat < 64) :
    i ≤ b.toNat ∧ (b - BitVec.ofNat 8 i).toNat = b.toNat - i := by
  have := b.isLt
  rw [BitVec.toNat_sub, BitVec.toNat_ofNat] at h ⊢
  omega

theorem getLsbD_legacyMask (hi : i < 64) (h : legacyMask intlvHighBit xorHighBit i = .ok m) :
    i ≤ legacyLow intlvHighBit xorHighBit ∧ ∀ k, m.getLsbD k = true ↔
      k + i = intlvHighBit.toNat ∨ xorHighBit ≠ 0 ∧ k + i = xorHighBit.toNat := by
  by_cases hxor : xorHighBit = 0
  · simp only [legacyMask, hxor, ne_eq, not_true_eq_false, if_false, bind_eq_ok, require_eq_ok,
      pure_eq_ok] at h
    obtain ⟨-, hbit, rfl⟩ := h
    obtain ⟨hle, hsub⟩ := toNat_sub_of_lt_64 hi hbit
    refine ⟨by rwa [legacyLow, if_pos hxor], fun k => ?_⟩
    rw [hsub] at hbit ⊢
    simp only [BitVec.getLsbD_twoPow, Bool.and_eq_true, decide_eq_true_eq, hxor, ne_eq,
      not_true_eq_false, false_and, or_false]
    omega
  · simp only [legacyMask, hxor, ne_eq, not_false_eq_true, if_true, bind_eq_ok, require_eq_ok,
      pure_eq_ok] at h
    obtain ⟨-, hbit, -, hbit', rfl⟩ := h
    obtain ⟨hle, hsub⟩ := toNat_sub_of_lt_64 hi hbit
    obtain ⟨hle', hsub'⟩ := toNat_sub_of_lt_64 hi hbit'
    refine ⟨by rw [legacyLow, if_neg hxor]; omega, fun k => ?_⟩
    rw [hsub] at hbit ⊢
    rw [hsub'] at hbit' ⊢
    simp only [BitVec.getLsbD_or, BitVec.getLsbD_twoPow, Bool.or_eq_true, Bool.and_eq_true,
      decide_eq_true_eq, ne_eq, hxor, not_false_eq_true, true_and]
    omega

theorem ctz64_legacyMask (hi : i < 64) (h : legacyMask intlvHighBit xorHighBit i = .ok m) :
    m.getLsbD (legacyLow intlvHighBit xorHighBit - i) = true ∧
      ctz64 m = legacyLow intlvHighBit xorHighBit - i := by
  obtain ⟨hle, hbits⟩ := getLsbD_legacyMask hi h
  have hbit : m.getLsbD (legacyLow intlvHighBit xorHighBit - i) = true := by
    rw [hbits]
    rw [legacyLow] at hle ⊢
    split_ifs at hle ⊢ with hxor
    · exact Or.inl (by omega)
    · rcases le_total intlvHighBit.toNat xorHighBit.toNat with hmin | hmin
      · exact Or.inl (by omega)
      · exact Or.inr ⟨hxor, by omega⟩
  refine ⟨hbit, ctz64_eq hbit fun k hk => Bool.eq_false_iff.mpr fun hk' => ?_⟩
  rw [hbits] at hk'
  rw [legacyLow] at hk
  split_ifs at hk with hxor
  · rcases hk' with hk' | hk'
    · omega
    · exact hk'.1 hxor
  · omega

theorem legacyLow_apart
    (h : legacyXorCheck intlvHighBit xorHighBit intlvBits = .ok ()) (hbits : intlvBits ≠ 0)
    (hle : j ≤ legacyLow intlvHighBit xorHighBit) (hi : i < intlvBits.toNat)
    (hj : j < intlvBits.toNat) (hne : i ≠ j) :
    ¬ (legacyLow intlvHighBit xorHighBit - j + i = intlvHighBit.toNat ∨
      xorHighBit ≠ 0 ∧ legacyLow intlvHighBit xorHighBit - j + i = xorHighBit.toNat) := by
  rw [legacyLow] at hle ⊢
  by_cases hxor : xorHighBit = 0
  · rw [if_pos hxor] at hle ⊢
    rintro (hbit | hbit)
    · omega
    · exact hbit.1 hxor
  · rw [if_neg hxor] at hle ⊢
    rw [legacyXorCheck, if_pos ⟨hbits, hxor⟩] at h
    split_ifs at h with heq hlt
    · have hfar := require_eq_ok.mp h
      omega
    · have hfar := require_eq_ok.mp h
      omega

theorem legacy_built (hbits : intlvBits ≠ 0)
    (h : AddrRange.legacy start end_ intlvHighBit xorHighBit intlvBits intlvMatch = .ok r) :
    Built r := by
  simp only [AddrRange.legacy, legacyMatchCheck, hbits, ne_eq, not_false_eq_true, if_true,
    bind_eq_ok, require_eq_ok, pure_eq_ok] at h
  obtain ⟨-, ⟨-, hwidth, hmatch⟩, ⟨⟩, hxor, ms, hms, rfl⟩ := h
  have hforall := mapM_eq_ok hms
  have hlen : ms.length = intlvBits.toNat := by
    rw [← hforall.length_eq, length_range]
  have hmask : ∀ i (hi : i < ms.length), legacyMask intlvHighBit xorHighBit i = .ok ms[i] := by
    intro i hi
    simpa using hforall.get (by simpa [hlen] using hi) hi
  have hapart : ∀ i (hi : i < ms.length) j (hj : j < ms.length), i ≠ j →
      ms[i].getLsbD (ctz64 ms[j]) = false := by
    intro i hi j hj hne
    obtain ⟨-, hbit⟩ := getLsbD_legacyMask (by omega) (hmask i hi)
    obtain ⟨hle, -⟩ := getLsbD_legacyMask (by omega) (hmask j hj)
    rw [(ctz64_legacyMask (by omega) (hmask j hj)).2, Bool.eq_false_iff, ne_eq, hbit]
    exact legacyLow_apart hxor hbits hle (by omega) (by omega) hne
  refine ⟨⟨fun m hm => ?_, ?_⟩, ?_⟩
  · obtain ⟨i, hi, rfl⟩ := mem_iff_getElem.mp (mem_reverse.mp hm)
    intro hzero
    have hbit := (ctz64_legacyMask (by omega) (hmask i hi)).1
    rw [hzero] at hbit
    simp at hbit
  · refine pairwise_reverse.mpr (pairwise_iff_getElem.mpr fun i j hi hj hij => ?_)
    exact ⟨hapart j hj i hi hij.ne', hapart i hi j hj hij.ne⟩
  · simpa [hlen] using hmatch

end Legacy

inductive Covered : AddrRange → Prop
  | legacy {start end_ : Addr} {intlvHighBit xorHighBit intlvBits intlvMatch : BitVec 8}
      {r : AddrRange} (hbits : intlvBits ≠ 0)
      (h : AddrRange.legacy start end_ intlvHighBit xorHighBit intlvBits intlvMatch = .ok r) :
      Covered r
  | ofMasks {start end_ : Addr} {masks : List Addr} {intlvMatch : BitVec 8} {r : AddrRange}
      (hlen : masks.length ≤ 8) (hmasks : Separate masks)
      (hplain : masks = [] → intlvMatch = 0)
      (h : AddrRange.ofMasks start end_ masks intlvMatch = .ok r) : Covered r

theorem Covered.built (h : Covered r) : Built r := by
  cases h with
  | legacy hbits h => exact legacy_built hbits h
  | @ofMasks start end_ masks intlvMatch r hlen hmasks hplain h =>
    rw [AddrRange.ofMasks] at h
    split_ifs at h with hnil
    · simp only [bind_eq_ok, require_eq_ok, pure_eq_ok] at h
      obtain ⟨-, -, -, hmatch, rfl⟩ := h
      exact ⟨hmasks, hmatch⟩
    · obtain rfl := pure_eq_ok.mp h
      rw [ne_eq, not_not] at hnil
      exact ⟨hmasks, by simp [hnil, hplain hnil]⟩

/-- The round trips hold exactly for at most two masks whose lowest bits an `int` holds. -/
theorem roundTrips_iff (h : Covered r) :
    RoundTrips r ↔ r.masks.length ≤ 2 ∧ ∀ m ∈ r.masks, ctz64 m < 31 ∨ m = BitVec.twoPow 64 31 :=
  ⟨fun hr => ⟨hr.length_le h.built, hr.fits h.built⟩,
    fun hr => roundTrips_of_fits h.built hr.1 hr.2⟩

theorem roundTrips_two_channels :
    ∃ r, AddrRange.legacy 0 1024 9 0 2 3 = .ok r ∧ RoundTrips r := by
  refine ⟨⟨0, 1024, [256, 512], 3⟩, by decide +kernel, ?_⟩
  refine (roundTrips_iff (@Covered.legacy 0 1024 9 0 2 3 _ (by decide) (by decide +kernel))).mpr
    ⟨by decide, ?_⟩
  exact forall_mem_cons.mpr ⟨by decide +kernel, forall_mem_singleton.mpr (by decide +kernel)⟩

theorem eight_comes_back_as_zero :
    ∃ r, AddrRange.legacy 0 16 2 0 3 0 = .ok r ∧ r.contains 8 ∧ r.removeIntlvBits 8 = 1 ∧
      r.addIntlvBits 1 = .ok 0 :=
  ⟨⟨0, 16, [1, 2, 4], 0⟩, by decide +kernel⟩

end HetSim.Address
