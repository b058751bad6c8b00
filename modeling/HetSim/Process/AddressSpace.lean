import HetSim.Process.Regions
import HetSim.Process.Syscalls

/-!
# The address space stays consistent

The areas are disjoint and every page of the table lies in one of them. All calls keep this but
`mremap` where it moves a region that grows, or puts a region where another one is.
-/

namespace HetSim.Process
open Checked MemState Nat

variable {B : Type} {p : PageSize} {s t : MemState B} {start length : ℕ}

structure Consistent (p : PageSize) (s : MemState B) : Prop where
  regular : Regular p s.vmaList
  pages : ∀ a, (s.pTable.lookup p a).isSome → ∃ v ∈ s.vmaList, v.Has a
  mmapEnd : p.bytes ∣ s.mmapEnd

def Benign (f : Fault) : Prop := f = .sanityCheck ∨ f = .endless

variable {a b : ℕ}

theorem dvd_wrap (h : p.bytes ∣ a) : p.bytes ∣ wrap a := by
  rw [wrap]
  exact (dvd_mod_iff p.bytes_dvd).mpr h

theorem dvd_sub (ha : p.bytes ∣ a) (hb : p.bytes ∣ b) : p.bytes ∣ sub a b := by
  rw [sub]
  exact (dvd_mod_iff p.bytes_dvd).mpr (Nat.dvd_sub (ha.add p.bytes_dvd) hb)

theorem wrap_lt (a : ℕ) : wrap a < 2 ^ 64 := mod_lt _ (by positivity)

theorem dvd_roundUp (a : ℕ) : p.bytes ∣ roundUp p a := dvd_roundDown p _

theorem add_bytes_le (ha : p.bytes ∣ a) (hb : p.bytes ∣ b) (h : a < b) : a + p.bytes ≤ b := by
  obtain ⟨i, rfl⟩ := ha
  obtain ⟨j, rfl⟩ := hb
  have hij : i + 1 ≤ j := Nat.lt_of_mul_lt_mul_left h
  have := Nat.mul_le_mul_left p.bytes hij
  rwa [Nat.mul_add, Nat.mul_one] at this

theorem roundUp_of_dvd (ha : p.bytes ∣ a) (h : a < 2 ^ 64) : roundUp p a = a := by
  have hpos := p.bytes_pos
  have hle := add_bytes_le ha p.bytes_dvd h
  have hlow := le_roundDown ha (Nat.le_add_right a (p.bytes - 1))
  have hhigh := roundDown_le p (a + (p.bytes - 1))
  rw [roundUp, wrap_of_lt (by omega)]
  by_contra hne
  have := add_bytes_le ha (dvd_roundDown p (a + (p.bytes - 1))) (by omega)
  omega

theorem roundUp_spec (hpos : 0 < a) (h : a + p.bytes ≤ 2 ^ 64) :
    0 < roundUp p a ∧ roundUp p a < a + p.bytes := by
  have hb := p.bytes_pos
  rw [roundUp, wrap_of_lt (by omega)]
  have hlow := lt_roundDown_add p (a + (p.bytes - 1))
  have hhigh := roundDown_le p (a + (p.bytes - 1))
  exact ⟨by omega, by omega⟩

section Unmapped

variable (h : Consistent p s)

variable {n oldLength newLength : ℕ} {provided : Option ℕ}

include h in
theorem checkPages_ok {m end_ : ℕ} (hend : p.bytes ∣ end_) (hbound : end_ < 2 ^ 64)
    (hfree : ∀ v ∈ s.vmaList, ¬ v.intersects start end_ = true) (ha : start ≤ a)
    (hm : end_ ≤ a + m * p.bytes) (hn : m < n) : checkPages p s.pTable n a end_ = .ok () := by
  induction n generalizing m a with
  | zero => omega
  | succ n ih =>
    rw [checkPages]
    split_ifs with hlt hpage
    · -- the area of the page would meet the range
      obtain ⟨v, hv, hhas⟩ := h.pages a hpage
      exact absurd (intersects_iff.mpr ⟨hhas.1.trans_lt hlt, ha.trans_lt hhas.2⟩) (hfree v hv)
    · have hroom := add_bytes_le hend p.bytes_dvd hbound
      obtain ⟨m, rfl⟩ := exists_eq_succ_of_ne_zero (by rintro rfl; omega : m ≠ 0)
      have hmul : (m + 1) * p.bytes = m * p.bytes + p.bytes := by ring
      rw [wrap_of_lt (by omega)]
      exact ih (m := m) (by omega) (by simp only [succ_eq_add_one] at hm; omega) (by omega)
    · rfl

include h in
theorem isUnmapped_eq (hend : p.bytes ∣ wrap (start + length)) :
    s.isUnmapped p start length =
      .ok (!s.vmaList.any fun v => v.intersects start (wrap (start + length))) := by
  rw [isUnmapped]
  split_ifs with hany
  · rw [hany]
    rfl
  · have hfree : ∀ v ∈ s.vmaList, ¬ v.intersects start (wrap (start + length)) = true := by
      simpa using hany
    have hall : allPages p * p.bytes = 2 ^ 64 := Nat.div_mul_cancel p.bytes_dvd
    have hwrap := wrap_lt (start + length)
    rw [checkPages_ok h hend hwrap hfree le_rfl (m := allPages p) (by omega) (by omega),
      Bool.eq_false_iff.mpr hany]
    rfl

theorem not_any {l : List (VMA B)} :
    (!l.any fun v => v.intersects a b) = true ↔ ∀ v ∈ l, ¬ v.intersects a b = true := by
  simp

include h in
theorem mapRegion_results (hend : p.bytes ∣ wrap (start + length))
    (hfree : ∀ v ∈ s.vmaList, ¬ v.intersects start (wrap (start + length)) = true) :
    Results (s.mapRegion p start length) (fun t => Consistent p t ∧ t.mmapEnd = s.mmapEnd)
      Benign := by
  rw [mapRegion, isUnmapped_eq h hend, ok_bind, not_any.mpr hfree]
  cases hv : VMA.sanityCheck p (⟨start, wrap (start + length), none, 0, 0⟩ : VMA B) with
  | error f =>
    refine .error (.inl ?_)
    simp only [VMA.sanityCheck, bind_eq_error, require_eq_error, pure_ne_error, and_false,
      exists_const, or_false] at hv
    grind
  | ok v =>
    obtain ⟨rfl, hwf⟩ := wf_of_sanityCheck hv (wrap_lt _)
    refine .ok ⟨⟨⟨?_, ?_⟩, ?_, h.mmapEnd⟩, rfl⟩
    · refine List.pairwise_append.mpr ⟨h.regular.apart, List.pairwise_singleton _ _, ?_⟩
      intro w hw u hu a hwa hua
      rw [List.mem_singleton.mp hu] at hua
      exact hfree w hw (intersects_iff.mpr ⟨hwa.1.trans_lt hua.2, hua.1.trans_lt hwa.2⟩)
    · intro w hw
      rcases List.mem_append.mp hw with hw | hw
      · exact h.regular.wf w hw
      · exact List.mem_singleton.mp hw ▸ hwf
    · intro a ha
      obtain ⟨w, hw, hwa⟩ := h.pages a ha
      exact ⟨w, List.mem_append_left _ hw, hwa⟩

include h in
theorem unmapRegion_consistent (hstart : p.bytes ∣ start) (hlen : p.bytes ∣ length)
    (hpos : 0 < length) (hwrap : start + length < 2 ^ 64) :
    ∃ t, unmapRegion p s start length = .ok t ∧ Consistent p t ∧ t.mmapEnd = s.mmapEnd ∧
      ∀ v ∈ t.vmaList, ¬ v.intersects start (start + length) = true := by
  obtain ⟨t, ht, hreg, hback, pt, hpt, htable⟩ :=
    unmapRegion_spec h.regular hstart hlen hpos hwrap
  have hout : ∀ a, (∃ v ∈ t.vmaList, v.Has a) ↔
      (∃ v ∈ s.vmaList, v.Has a) ∧ ¬ (start ≤ a ∧ a < start + length) := by
    intro a
    constructor
    · rintro ⟨v, hv, ha⟩
      obtain ⟨⟨w, hw, hwa, -⟩, hnot⟩ := (hback a _).mp ⟨v, hv, ha, rfl⟩
      exact ⟨⟨w, hw, hwa⟩, hnot⟩
    · rintro ⟨⟨v, hv, ha⟩, hnot⟩
      obtain ⟨w, hw, hwa, -⟩ := (hback a _).mpr ⟨⟨v, hv, ha, rfl⟩, hnot⟩
      exact ⟨w, hw, hwa⟩
  have hend : t.mmapEnd = s.mmapEnd := by rw [hpt]
  have htab : t.pTable = pt := by rw [hpt]
  have hlook := lookup_unmapped hstart (hstart.add hlen) htable
  refine ⟨t, ht, ⟨hreg, fun a ha => ?_, hend ▸ h.mmapEnd⟩, hend, fun v hv hi => ?_⟩
  · rw [htab, hlook] at ha
    split_ifs at ha with hin
    · exact nomatch ha
    · exact (hout a).mpr ⟨h.pages a ha, hin⟩
  · rw [intersects_iff] at hi
    have hlt := (hreg.wf v hv).lt
    exact ((hout (max v.start start)).mp ⟨v, hv, le_max_left _ _, max_lt hlt hi.2⟩).2
      ⟨le_max_right _ _, max_lt hi.1 (by omega)⟩

include h in
theorem remapRegion_consistent {new : ℕ} (hstart : p.bytes ∣ start) (hlen : p.bytes ∣ length)
    (hpos : 0 < length) (hwrap : start + length < 2 ^ 64) (hnew : p.bytes ∣ new)
    (hnewWrap : new + length < 2 ^ 64) (hapart : start + length ≤ new ∨ new + length ≤ start)
    (hfree : ∀ v ∈ s.vmaList, ¬ v.intersects new (new + length) = true) :
    ∃ t, remapRegion p s start new length = .ok t ∧ Consistent p t ∧ t.mmapEnd = s.mmapEnd := by
  have hareas : ∀ a, new ≤ a → a < new + length → ∀ v ∈ s.vmaList, ¬ v.Has a :=
    fun a hla hau v hv ha => hfree v hv (intersects_iff.mpr ⟨ha.1.trans_lt hau, hla.trans_lt ha.2⟩)
  have hpages : ∀ a, p.bytes ∣ a → new ≤ a → a < new + length → s.pTable a = none := by
    intro a hdvd hla hau
    by_contra hsome
    obtain ⟨v, hv, ha⟩ := h.pages a (by
      rw [PageTable.lookup, roundDown_of_dvd hdvd]
      exact Option.isSome_iff_ne_none.mpr hsome)
    exact hareas a hla hau v hv ha
  obtain ⟨t, ht, hreg, hback, pt, hpt, htable⟩ := remapRegion_spec h.regular hstart hlen hpos hwrap
    hnew hnewWrap hapart hareas hpages
  have hend : t.mmapEnd = s.mmapEnd := by rw [hpt]
  have htab : t.pTable = pt := by rw [hpt]
  have hlook := lookup_remapped hstart (hstart.add hlen) hnew (hnew.add hlen) htable
  refine ⟨t, ht, ⟨hreg, fun a ha => ?_, hend ▸ h.mmapEnd⟩, hend⟩
  rw [htab, hlook] at ha
  split_ifs at ha with hin hin'
  · cases ha
  · -- the page was moved, and so was the area of it
    obtain ⟨v, hv, hva⟩ := h.pages _ ha
    obtain ⟨w, hw, hwa, -⟩ :=
      (hback a _).mpr (.inr ⟨a - new + start, ⟨by omega, by omega⟩, by omega, v, hv, hva, rfl⟩)
    exact ⟨w, hw, hwa⟩
  · obtain ⟨v, hv, hva⟩ := h.pages _ ha
    obtain ⟨w, hw, hwa, -⟩ := (hback a _).mpr (.inl ⟨⟨v, hv, hva, rfl⟩, hin⟩)
    exact ⟨w, hw, hwa⟩

theorem map_page {t : PageTable} (paddr : ℕ) (ha : p.bytes ∣ a) (hb : a < 2 ^ 64)
    (hfree : t a = none) :
    t.map p a paddr p.bytes 0 = .ok (Function.update t a (some ⟨paddr, 0⟩)) := by
  simp [PageTable.map, PageTable.mapPage, numPages_bytes, require, mod_eq_zero_of_dvd ha,
    wrap_of_lt hb, hfree]

end Unmapped

section Calls

variable {growsDown : Bool} (h : Consistent p s)

/-- Ranges end inside the address space, lengths are positive, the lengths of `mremap` are
page-aligned, and a page fault is on a page of an area that is not in the table yet. -/
def Valid (p : PageSize) (s : MemState B) : Call → Prop
  | .mmap start length _ flags => flags.mapFixed = true → start + length + p.bytes ≤ 2 ^ 64
  | .munmap start length => start + length + p.bytes ≤ 2 ^ 64
  | .mremap start oldLength newLength provided _ =>
    p.bytes ∣ start ∧ p.bytes ∣ provided.getD 0 ∧ p.bytes ∣ oldLength ∧ p.bytes ∣ newLength ∧
      0 < oldLength ∧ 0 < newLength ∧ newLength < 2 ^ 64 ∧ start + oldLength < 2 ^ 64
  | .brk _ => True
  | .pageFault vaddr => (∃ v ∈ s.vmaList, v.Has vaddr) ∧ s.pTable.lookup p vaddr = none

/-- A region that grows stays where it is, with no area behind it, or the call is refused. A
region that is moved goes to a range without areas, apart from its own. -/
def Gentle (s : MemState B) : Call → Prop
  | .mremap start oldLength newLength provided mayMove =>
    if oldLength < newLength then
      if start + oldLength = s.mmapEnd ∧ provided.getD start = start then
        ∀ v ∈ s.vmaList, ¬ v.intersects s.mmapEnd (wrap (s.mmapEnd + (newLength - oldLength))) =
          true
      else provided = none ∧ mayMove = false
    else
      provided.getD start ≠ start →
        provided.getD start + newLength < 2 ^ 64 ∧
        (start + newLength ≤ provided.getD start ∨ provided.getD start + newLength ≤ start) ∧
        ∀ v ∈ s.vmaList,
          ¬ v.intersects (provided.getD start) (provided.getD start + newLength) = true
  | _ => True

instance (v : VMA B) (a : ℕ) : Decidable (v.Has a) := inferInstanceAs (Decidable (_ ∧ _))

instance (s : MemState B) (e : Call) : Decidable (Valid p s e) := by
  cases e <;> unfold Valid <;> infer_instance

instance (s : MemState B) (e : Call) : Decidable (Gentle s e) := by
  cases e <;> unfold Gentle <;> infer_instance

include h in
theorem findFree_results (ha : p.bytes ∣ a) (hlen : p.bytes ∣ length) :
    Results (s.findFree p growsDown length n a) (fun b => p.bytes ∣ b ∧
      ∀ v ∈ s.vmaList, ¬ v.intersects b (wrap (b + length)) = true) Benign := by
  induction n generalizing a with
  | zero => exact .error (.inr rfl)
  | succ n ih =>
    have hnext : p.bytes ∣ if growsDown then sub a p.bytes else wrap (a + p.bytes) := by
      split_ifs
      · exact dvd_sub ha (dvd_refl _)
      · exact dvd_wrap (ha.add (dvd_refl _))
    rw [findFree, isUnmapped_eq h (dvd_wrap (ha.add hlen)), ok_bind]
    dsimp only
    cases hfree : !s.vmaList.any fun v => v.intersects a (wrap (a + length)) with
    | true => exact .pure ⟨ha, not_any.mp hfree⟩
    | false => exact ih hnext

theorem Consistent.setMmapEnd (h : Consistent p s) (ha : p.bytes ∣ a) :
    Consistent p { s with mmapEnd := a } := ⟨h.regular, h.pages, ha⟩

include h in
theorem extendMmap_results (hlen : p.bytes ∣ length) :
    Results (s.extendMmap p growsDown length) (fun r => Consistent p r.2 ∧ p.bytes ∣ r.1 ∧
      ∀ v ∈ r.2.vmaList, ¬ v.intersects r.1 (wrap (r.1 + length)) = true) Benign := by
  have hfrom : p.bytes ∣ if growsDown then sub s.mmapEnd length else s.mmapEnd := by
    split_ifs
    · exact dvd_sub h.mmapEnd hlen
    · exact h.mmapEnd
  refine (findFree_results h hfrom hlen).bind fun a ha => .pure ⟨h.setMmapEnd ?_, ha⟩
  split_ifs
  · exact ha.1
  · exact dvd_wrap (ha.1.add hlen)

include h in
theorem mmapFunc_results {offset : ℕ} {flags : MmapFlags}
    (hv : Valid p s (.mmap start length offset flags)) :
    Results (mmapFunc p growsDown s start length offset flags) (fun r => Consistent p r.2)
      Benign := by
  rw [mmapFunc]
  dsimp only
  split_ifs with hinval hfixed
  · exact .pure h
  · push Not at hinval
    have hstart : p.bytes ∣ start := dvd_of_mod_eq_zero hinval.1
    have hpos : 0 < length := Nat.pos_of_ne_zero hinval.2.2.2.2
    have hroom := hv hfixed
    obtain ⟨hup, hup'⟩ := roundUp_spec (p := p) hpos (by omega)
    have hend := add_bytes_le (hstart.add (dvd_roundUp (p := p) length))
      (p.bytes_dvd.add (dvd_refl p.bytes)) (by omega)
    obtain ⟨t, ht, hc, -, hout⟩ :=
      unmapRegion_consistent h hstart (dvd_roundUp length) hup (by omega)
    rw [ht, ok_bind]
    refine (mapRegion_results hc (dvd_wrap (hstart.add (dvd_roundUp length))) ?_).bind
      fun t ht => .pure ht.1
    rwa [wrap_of_lt (by omega)]
  · push Not at hinval
    have hstart : p.bytes ∣ start := dvd_of_mod_eq_zero hinval.1
    have hdvd : p.bytes ∣ wrap (start + roundUp p length) :=
      dvd_wrap (hstart.add (dvd_roundUp length))
    have hhint : hintFree p s start (roundUp p length) = .ok (start ≠ 0 &&
        !s.vmaList.any fun v => v.intersects start (wrap (start + roundUp p length))) := by
      rw [hintFree]
      split_ifs with h0
      · rw [isUnmapped_eq h hdvd]
        simp [h0]
      · simp [h0]
    rw [hhint, ok_bind]
    split_ifs with hfree
    · rw [Bool.and_eq_true, not_any] at hfree
      exact (mapRegion_results h hdvd hfree.2).bind fun t ht => .pure ht.1
    · refine (extendMmap_results h (dvd_roundUp length)).bind fun r hr => ?_
      exact (mapRegion_results hr.1 (dvd_wrap (hr.2.1.add (dvd_roundUp length))) hr.2.2).bind
        fun t ht => .pure ht.1

include h in
theorem munmapFunc_results (hv : Valid p s (.munmap start length)) :
    Results (munmapFunc p s start length) (fun r => Consistent p r.2) Benign := by
  rw [munmapFunc]
  split_ifs with hinval
  · exact .pure h
  · push Not at hinval
    have hstart : p.bytes ∣ start := dvd_of_mod_eq_zero hinval.1
    have hroom : start + length + p.bytes ≤ 2 ^ 64 := hv
    obtain ⟨hup, hup'⟩ := roundUp_spec (p := p) (Nat.pos_of_ne_zero hinval.2) (by omega)
    obtain ⟨t, ht, hc, -⟩ := unmapRegion_consistent h hstart (dvd_roundUp length) hup (by omega)
    rw [ht]
    exact .ok hc

include h in
theorem mremapShrink_results
    (hstart : p.bytes ∣ start) (htarget : p.bytes ∣ provided.getD start)
    (hold : p.bytes ∣ oldLength) (hnew : p.bytes ∣ newLength)
    (hnPos : 0 < newLength) (hend : start + oldLength < 2 ^ 64) (hle : newLength ≤ oldLength)
    (hfree : provided.getD start ≠ start →
      provided.getD start + newLength < 2 ^ 64 ∧
      (start + newLength ≤ provided.getD start ∨ provided.getD start + newLength ≤ start) ∧
      ∀ v ∈ s.vmaList,
        ¬ v.intersects (provided.getD start) (provided.getD start + newLength) = true) :
    Results (mremapShrink p s start oldLength newLength provided) (fun r => Consistent p r.2)
      Benign := by
  have hmove : ∃ t, (if provided.getD start ≠ start then
      remapRegion p s start (provided.getD start) newLength else pure s) = .ok t ∧
      Consistent p t := by
    split_ifs with hne
    · obtain ⟨hwrap, hapart, hareas⟩ := hfree hne
      obtain ⟨t, ht, hc, -⟩ := remapRegion_consistent h hstart hnew hnPos (by omega) htarget hwrap
        hapart hareas
      exact ⟨t, ht, hc⟩
    · exact ⟨s, rfl, h⟩
  obtain ⟨t, ht, hc⟩ := hmove
  have hcut : ∃ u, (if newLength ≠ oldLength then
      unmapRegion p t (wrap (start + newLength)) (oldLength - newLength) else pure t) = .ok u ∧
      Consistent p u := by
    split_ifs with hne
    · rw [wrap_of_lt (by omega)]
      obtain ⟨u, hu, hcu, -⟩ := unmapRegion_consistent hc (hstart.add hnew) (Nat.dvd_sub hold hnew)
        (by omega) (by omega)
      exact ⟨u, hu, hcu⟩
    · exact ⟨t, rfl, hc⟩
  obtain ⟨u, hu, hcu⟩ := hcut
  rw [mremapShrink, ht, ok_bind, hu]
  exact .ok hcu

include h in
theorem mremapFunc_results {mayMove : Bool}
    (hv : Valid p s (.mremap start oldLength newLength provided mayMove))
    (hg : Gentle s (.mremap start oldLength newLength provided mayMove)) :
    Results (mremapFunc p growsDown s start oldLength newLength provided mayMove)
      (fun r => Consistent p r.2) Benign := by
  obtain ⟨hstart, hprov, hold, hnew, -, hnPos, hnLt, hend⟩ := hv
  have haligned : ¬ (start % p.bytes ≠ 0 ∨ provided.getD 0 % p.bytes ≠ 0) := by
    simp [mod_eq_zero_of_dvd hstart, mod_eq_zero_of_dvd hprov]
  rw [mremapFunc, if_neg haligned, roundUp_of_dvd hnew hnLt, wrap_of_lt hend]
  dsimp only
  rw [Gentle] at hg
  split_ifs with hgrow hplace hrefuse
  · -- the region grows where it is
    rw [if_pos hgrow, if_pos hplace] at hg
    have hdiff := Nat.dvd_sub hnew hold
    refine (mapRegion_results h (dvd_wrap (h.mmapEnd.add hdiff)) hg).bind fun t ht => .pure ?_
    exact ht.1.setMmapEnd (dvd_wrap (ht.1.mmapEnd.add hdiff))
  · exact .pure h
  · rw [if_pos hgrow, if_neg hplace] at hg
    exact absurd hg hrefuse
  · rw [if_neg hgrow] at hg
    refine mremapShrink_results h hstart ?_ hold hnew hnPos hend (by omega) hg
    cases provided with
    | none => exact hstart
    | some a => exact hprov

include h in
theorem brkFunc_results {newBrk : ℕ} :
    Results (brkFunc p s newBrk) (fun r => Consistent p r.2) Benign := by
  rw [brkFunc]
  split_ifs
  · exact .pure h
  · refine Results.bind (Q := Consistent p) ?_ fun t ht => .pure ht
    rw [updateBrkRegion]
    dsimp only
    split_ifs with hless hmore
    · exact .pure ⟨h.regular, h.pages, h.mmapEnd⟩
    · have hend : wrap (s.endBrkPoint + (roundUp p newBrk - s.endBrkPoint)) = roundUp p newBrk := by
        rw [Nat.add_sub_cancel' hmore.le]
        exact wrap_of_lt ((roundDown_le p _).trans_lt (wrap_lt _))
      have hdvd : p.bytes ∣ wrap (s.endBrkPoint + (roundUp p newBrk - s.endBrkPoint)) := by
        rw [hend]
        exact dvd_roundUp newBrk
      rw [isUnmapped_eq h hdvd, ok_bind]
      split_ifs with hfree
      · exact (mapRegion_results h hdvd (not_any.mp hfree)).bind fun t ht =>
          .pure ⟨ht.1.regular, ht.1.pages, ht.1.mmapEnd⟩
      · exact .pure h
    · exact .pure ⟨h.regular, h.pages, h.mmapEnd⟩

include h in
theorem fixupFault_results {vaddr : ℕ} (hv : Valid p s (.pageFault vaddr)) :
    Results (s.fixupFault p vaddr) (fun r => Consistent p r.2) Benign := by
  obtain ⟨⟨v, hmem, hhas⟩, hfree⟩ := hv
  have hwf := h.regular.wf v hmem
  have hpage : v.Has (roundDown p vaddr) :=
    (roundDown_mem hwf.start_dvd hwf.end_dvd).mpr hhas
  have hbound := hwf.bound
  obtain ⟨w, hw⟩ : ∃ w, s.vmaList.find? (fun v => v.contains vaddr) = some w :=
    Option.isSome_iff_exists.mp (List.find?_isSome.mpr ⟨v, hmem, contains_iff.mpr hhas⟩)
  have hmap := map_page (s.pagePtr * p.bytes) (dvd_roundDown p vaddr)
    (hpage.2.trans hbound) hfree
  rw [fixupFault, hw]
  dsimp only
  rw [allocateMem, if_neg (by decide), hmap]
  refine .ok ⟨h.regular, fun a ha => ?_, h.mmapEnd⟩
  by_cases hsame : roundDown p a = roundDown p vaddr
  · have hsome := (roundDown_mem hwf.start_dvd hwf.end_dvd).mp (hsame ▸ hpage)
    exact ⟨v, hmem, hsome⟩
  · refine h.pages a ?_
    dsimp only at ha
    rwa [PageTable.lookup, Function.update_of_ne hsame] at ha

include h in
theorem step_results {e : Call} (hv : Valid p s e) (hg : Gentle s e) :
    Results (step p growsDown s e) (Consistent p) Benign := by
  cases e with
  | mmap start length offset flags => exact (mmapFunc_results h hv).map fun _ hr => hr
  | munmap start length => exact (munmapFunc_results h hv).map fun _ hr => hr
  | mremap start oldLength newLength provided mayMove =>
    exact (mremapFunc_results h hv hg).map fun _ hr => hr
  | brk newBrk => exact (brkFunc_results h).map fun _ hr => hr
  | pageFault vaddr => exact (fixupFault_results h hv).map fun _ hr => hr

end Calls

theorem address_space_consistent (p : PageSize) (growsDown : Bool) (s : MemState B)
    (hareas : Regular p s.vmaList)
    (hpages : ∀ a, (s.pTable.lookup p a).isSome → ∃ v ∈ s.vmaList, v.Has a)
    (hend : p.bytes ∣ s.mmapEnd) (es : List Call)
    (hes : Runs.Meets (step p growsDown) (fun s e => Valid p s e ∧ Gentle s e) s es) :
    (∀ t, Runs.run (step p growsDown) s es = .ok t →
      t.vmaList.Pairwise Apart ∧
      ∀ a, (t.pTable.lookup p a).isSome → ∃ v ∈ t.vmaList, v.Has a) ∧
    ∀ f, Runs.run (step p growsDown) s es = .error f →
      (∀ a, f ≠ .withoutVMA a) ∧ f ≠ .notUnmapped := by
  obtain ⟨hok, herr⟩ := hes.results (P := Consistent p) (fun h hc => step_results h hc.1 hc.2)
    ⟨hareas, hpages, hend⟩
  constructor
  · intro t ht
    have hc := hok t ht
    exact ⟨hc.regular.apart, hc.pages⟩
  · intro f hf
    rcases herr f hf with rfl | rfl
    · exact ⟨nofun, nofun⟩
    · exact ⟨nofun, nofun⟩

def emptyProcess : MemState Unit where
  brkPoint := 0x4000
  endBrkPoint := 0x4000
  mmapEnd := 0x10000
  stackBase := 0
  stackMin := 0
  maxStackSize := 0
  vmaList := []
  pTable := fun _ => none
  pagePtr := 0

def anonymous (mapFixed : Bool) : MmapFlags := ⟨true, false, mapFixed⟩

def fourKiB : PageSize := ⟨12, by decide⟩

def gentleCalls : List Call :=
  [.mmap 0 0x2000 0 (anonymous false), .pageFault 0x10004, .munmap 0x10000 0x1000,
    .mmap 0x10000 0x1000 0 (anonymous true), .mremap 0x10000 0x2000 0x3000 none false,
    .mremap 0x10000 0x3000 0x1000 (some 0x40000) true, .brk 0x4800, .pageFault 0x40ff0]

theorem address_space_consistent_gentleCalls :
    Runs.Ends (step fourKiB false) emptyProcess gentleCalls (fun t => t.vmaList.length = 2) ∧
    (∀ t, Runs.run (step fourKiB false) emptyProcess gentleCalls = .ok t →
      t.vmaList.Pairwise Apart ∧
      ∀ a, (t.pTable.lookup fourKiB a).isSome → ∃ v ∈ t.vmaList, v.Has a) ∧
    ∀ f, Runs.run (step fourKiB false) emptyProcess gentleCalls = .error f →
      (∀ a, f ≠ .withoutVMA a) ∧ f ≠ .notUnmapped :=
  ⟨by decide +kernel, address_space_consistent fourKiB false emptyProcess ⟨.nil, nofun⟩ nofun
    (by decide) gentleCalls (by decide +kernel)⟩

/-- A region that grows is moved with its old length: the page behind it is in the table and in no
area, and the next `mmap` of it panics. One that grows in place runs into the next area. -/
theorem mremap_breaks_address_space :
    Runs.Stops (step fourKiB false) emptyProcess
      [.mmap 0 0x1000 0 (anonymous false), .mmap 0 0x1000 0 (anonymous false),
        .mremap 0x10000 0x1000 0x2000 none true, .mmap 0x13000 0x1000 0 (anonymous false)]
      (.withoutVMA 0x13000) ∧
    Runs.Stops (step fourKiB false) emptyProcess
      [.mmap 0 0x1000 0 (anonymous false), .mmap 0x11000 0x1000 0 (anonymous true),
        .mremap 0x10000 0x1000 0x2000 none true] .notUnmapped := by
  decide +kernel

end HetSim.Process
