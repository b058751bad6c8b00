import HetSim.Process.Parts

/-!
# The loops over the pages of a range

A range that is page-aligned and does not wrap is left after as many rounds as it has pages.
The table then has lost the entries of the range, or has them at their new place.
-/

namespace HetSim.Process
open Checked Function PageTable

variable {p : PageSize} {t : PageTable} {a b start new : ℕ}

theorem numPages_bytes (p : PageSize) : numPages p p.bytes = 1 := by
  have hpos := p.bytes_pos
  have hsum : p.bytes + p.bytes - 1 = (p.bytes - 1) + p.bytes := by omega
  rw [numPages, hsum, Nat.add_div_right _ hpos, Nat.div_eq_of_lt (by omega)]

theorem isUnmapped_page (ha : p.bytes ∣ a) (hb : a < 2 ^ 64) :
    t.isUnmapped p a p.bytes = .ok (t a).isNone := by
  simp [isUnmapped, numPages_bytes, require, Nat.mod_eq_zero_of_dvd ha, wrap_of_lt hb]

theorem unmap_page (ha : p.bytes ∣ a) (hb : a < 2 ^ 64) :
    unmapMapped p t a = .ok (update t a none) := by
  rw [unmapMapped, isUnmapped_page ha hb, ok_bind]
  cases hta : t a with
  | none =>
    rw [update_eq_self_iff.mpr hta.symm]
    rfl
  | some e =>
    simp [unmap, unmapPage, numPages_bytes, require,
      Nat.mod_eq_zero_of_dvd ha, wrap_of_lt hb, hta]

theorem remap_page (ha : p.bytes ∣ a) (hab : a < 2 ^ 64) (hb : p.bytes ∣ b) (hbb : b < 2 ^ 64)
    (htb : t b = none) :
    remapMapped p t a b = .ok (update (update t b (t a)) a none) := by
  rw [remapMapped, isUnmapped_page ha hab, ok_bind]
  cases hta : t a with
  | none =>
    have hsame : update t b none = t := update_eq_self_iff.mpr htb.symm
    rw [hsame, update_eq_self_iff.mpr hta.symm]
    rfl
  | some e =>
    simp [remap, remapPage, numPages_bytes, require, demand,
      Nat.mod_eq_zero_of_dvd ha, Nat.mod_eq_zero_of_dvd hb, wrap_of_lt hab,
      wrap_of_lt hbb, hta, htb]

theorem page_cases {k : ℕ} (ha : p.bytes ∣ a) (hb : p.bytes ∣ b) :
    (b ≤ a ∧ a < b + (k + 1) * p.bytes) ↔
      a = b ∨ (b + p.bytes ≤ a ∧ a < b + p.bytes + k * p.bytes) := by
  obtain ⟨i, rfl⟩ := ha
  obtain ⟨j, rfl⟩ := hb
  have hpos := p.bytes_pos
  have hle : ∀ m n, p.bytes * m ≤ p.bytes * n ↔ m ≤ n := fun m n =>
    Nat.mul_le_mul_left_iff hpos
  have hlt : ∀ m n, p.bytes * m < p.bytes * n ↔ m < n := fun m n => Nat.mul_lt_mul_left hpos
  have h₁ : p.bytes * j + (k + 1) * p.bytes = p.bytes * (j + (k + 1)) := by ring
  have h₂ : p.bytes * j + p.bytes = p.bytes * (j + 1) := by ring
  have h₃ : p.bytes * (j + 1) + k * p.bytes = p.bytes * (j + 1 + k) := by ring
  have h₄ : p.bytes * i = p.bytes * j ↔ i = j := Nat.mul_right_inj hpos.ne'
  rw [h₁, h₂, h₃, hle, hlt, hle, hlt, h₄]
  omega

theorem roundDown_mem {end_ : ℕ} (hs : p.bytes ∣ start) (he : p.bytes ∣ end_) :
    (start ≤ roundDown p a ∧ roundDown p a < end_) ↔ (start ≤ a ∧ a < end_) :=
  ⟨fun h => ⟨h.1.trans (roundDown_le p a), roundDown_lt he h.2⟩,
    fun h => ⟨le_roundDown hs h.1, (roundDown_le p a).trans_lt h.2⟩⟩

section Rounds

variable {k n : ℕ}

theorem sub_bytes (hbound : start + (k + 1) * p.bytes < 2 ^ 64) :
    sub ((k + 1) * p.bytes) p.bytes = k * p.bytes := by
  have hmul : (k + 1) * p.bytes = k * p.bytes + p.bytes := by ring
  rw [sub_of_le (by omega) (by omega), hmul, Nat.add_sub_cancel]

theorem unmapPages_spec (hs : p.bytes ∣ start) (hbound : start + (k + 1) * p.bytes < 2 ^ 64)
    (hn : k < n) : ∃ t', unmapPages p n t start ((k + 1) * p.bytes) = .ok t' ∧
      ∀ a, p.bytes ∣ a →
        t' a = if start ≤ a ∧ a < start + (k + 1) * p.bytes then none else t a := by
  induction k generalizing n t start with
  | zero =>
    obtain ⟨n, rfl⟩ := Nat.exists_eq_succ_of_ne_zero (by omega : n ≠ 0)
    have hstop : ¬ 0 < sub ((0 + 1) * p.bytes) p.bytes := by
      rw [sub_bytes hbound]
      simp
    refine ⟨update t start none, ?_, fun a ha => ?_⟩
    · rw [unmapPages, unmap_page hs (by omega), ok_bind,
        if_neg hstop]
      rfl
    · rw [update_apply]
      simp only [page_cases ha hs]
      congr 1
      simp
  | succ k ih =>
    obtain ⟨n, rfl⟩ := Nat.exists_eq_succ_of_ne_zero (by omega : n ≠ 0)
    have hmul : (k + 1 + 1) * p.bytes = (k + 1) * p.bytes + p.bytes := by ring
    have hpos := p.bytes_pos
    have hmore : 0 < (k + 1) * p.bytes := Nat.mul_pos (by omega) hpos
    obtain ⟨t', ht', hspec⟩ := ih (t := update t start none) (n := n)
      (hs.add (dvd_refl p.bytes)) (by omega) (by omega)
    refine ⟨t', ?_, fun a ha => ?_⟩
    · rw [unmapPages, unmap_page hs (by omega), ok_bind,
        sub_bytes hbound, if_pos hmore, wrap_of_lt (by omega)]
      exact ht'
    · rw [hspec a ha, update_apply]
      simp only [page_cases ha hs (k := k + 1)]
      split_ifs <;> tauto

theorem remapPages_spec (hs : p.bytes ∣ start) (hbound : start + (k + 1) * p.bytes < 2 ^ 64)
    (hnew : p.bytes ∣ new) (hnewBound : new + (k + 1) * p.bytes < 2 ^ 64)
    (hapart : start + (k + 1) * p.bytes ≤ new ∨ new + (k + 1) * p.bytes ≤ start)
    (hfree : ∀ a, p.bytes ∣ a → new ≤ a → a < new + (k + 1) * p.bytes → t a = none) (hn : k < n) :
    ∃ t', remapPages p n t start new ((k + 1) * p.bytes) = .ok t' ∧
      ∀ a, p.bytes ∣ a →
        t' a = if start ≤ a ∧ a < start + (k + 1) * p.bytes then none
          else if new ≤ a ∧ a < new + (k + 1) * p.bytes then t (a - new + start) else t a := by
  have hpos := p.bytes_pos
  induction k generalizing n t start new with
  | zero =>
    obtain ⟨n, rfl⟩ := Nat.exists_eq_succ_of_ne_zero (by omega : n ≠ 0)
    have hstop : ¬ 0 < sub ((0 + 1) * p.bytes) p.bytes := by
      rw [sub_bytes hbound]
      simp
    refine ⟨update (update t new (t start)) start none, ?_, fun a ha => ?_⟩
    · rw [remapPages, remap_page hs (by omega) hnew (by omega) (hfree new hnew le_rfl (by omega)),
        ok_bind, if_neg hstop]
      rfl
    · rw [update_apply, update_apply]
      simp only [page_cases ha hs, page_cases ha hnew]
      have h₁ : ¬ (start + p.bytes ≤ a ∧ a < start + p.bytes + 0 * p.bytes) := by omega
      have h₂ : ¬ (new + p.bytes ≤ a ∧ a < new + p.bytes + 0 * p.bytes) := by omega
      simp only [h₁, h₂, or_false]
      by_cases han : a = new
      · rw [if_pos han, if_pos han, han, Nat.sub_self, Nat.zero_add]
      · rw [if_neg han, if_neg han]
  | succ k ih =>
    obtain ⟨n, rfl⟩ := Nat.exists_eq_succ_of_ne_zero (by omega : n ≠ 0)
    have hmul : (k + 1 + 1) * p.bytes = (k + 1) * p.bytes + p.bytes := by ring
    have hmore : 0 < (k + 1) * p.bytes := Nat.mul_pos (by omega) hpos
    have hne : start ≠ new := by omega
    obtain ⟨t', ht', hspec⟩ := ih (t := update (update t new (t start)) start none)
      (n := n) (hs.add (dvd_refl p.bytes)) (by omega) (hnew.add (dvd_refl p.bytes)) (by omega)
      (by omega)
      (fun a ha hla hau => by
        rw [update_of_ne (by omega), update_of_ne (by omega)]
        exact hfree a ha (by omega) (by omega))
      (by omega)
    refine ⟨t', ?_, fun a ha => ?_⟩
    · rw [remapPages, remap_page hs (by omega) hnew (by omega)
        (hfree new hnew le_rfl (by omega)), ok_bind, sub_bytes hbound, if_pos hmore,
        wrap_of_lt (by omega), wrap_of_lt (by omega)]
      exact ht'
    · rw [hspec a ha]
      simp only [page_cases ha hs (k := k + 1), page_cases ha hnew (k := k + 1)]
      by_cases has : a = start
      · have hout : ¬ (new + p.bytes ≤ a ∧ a < new + p.bytes + (k + 1) * p.bytes) := by omega
        rw [if_neg hout, has, update_self]
        simp
      by_cases han : a = new
      · have h₁ : ¬ (start + p.bytes ≤ a ∧ a < start + p.bytes + (k + 1) * p.bytes) := by omega
        have h₂ : ¬ (new + p.bytes ≤ a ∧ a < new + p.bytes + (k + 1) * p.bytes) := by omega
        rw [if_neg h₁, if_neg h₂, update_of_ne has, han, update_self,
          if_neg (by omega), if_pos (by omega), Nat.sub_self, Nat.zero_add]
      -- the other pages were not touched in the first round
      have hold : update (update t new (t start)) start none a = t a := by
        rw [update_of_ne has, update_of_ne han]
      by_cases hin : new + p.bytes ≤ a ∧ a < new + p.bytes + (k + 1) * p.bytes
      · have hsource : update (update t new (t start)) start none
            (a - (new + p.bytes) + (start + p.bytes)) = t (a - new + start) := by
          have haddr : a - (new + p.bytes) + (start + p.bytes) = a - new + start := by omega
          rw [haddr, update_of_ne (by omega), update_of_ne (by omega)]
        simp only [has, han, hin, hsource, false_or, if_true, and_self]
      · simp only [has, han, hin, hold, false_or, if_false]

theorem lookup_unmapped {t' : PageTable} {end_ : ℕ} (hs : p.bytes ∣ start) (he : p.bytes ∣ end_)
    (h : ∀ a, p.bytes ∣ a → t' a = if start ≤ a ∧ a < end_ then none else t a) (a : ℕ) :
    t'.lookup p a = if start ≤ a ∧ a < end_ then none else t.lookup p a := by
  rw [lookup, h _ (dvd_roundDown p a)]
  exact if_congr (roundDown_mem hs he) rfl rfl

theorem lookup_remapped {t' : PageTable} {end_ newEnd : ℕ} (hs : p.bytes ∣ start)
    (he : p.bytes ∣ end_) (hnew : p.bytes ∣ new) (hnewEnd : p.bytes ∣ newEnd)
    (h : ∀ a, p.bytes ∣ a → t' a = if start ≤ a ∧ a < end_ then none
      else if new ≤ a ∧ a < newEnd then t (a - new + start) else t a) (a : ℕ) :
    t'.lookup p a = if start ≤ a ∧ a < end_ then none
      else if new ≤ a ∧ a < newEnd then t.lookup p (a - new + start) else t.lookup p a := by
  rw [lookup, h _ (dvd_roundDown p a)]
  refine if_congr (roundDown_mem hs he) rfl ?_
  by_cases hin : new ≤ a ∧ a < newEnd
  · rw [if_pos ((roundDown_mem hnew hnewEnd).mpr hin), if_pos hin, lookup,
      roundDown_add_dvd hs, roundDown_sub_dvd hnew hin.1]
  · rw [if_neg (mt (roundDown_mem hnew hnewEnd).mp hin), if_neg hin]
    rfl

end Rounds

end HetSim.Process
