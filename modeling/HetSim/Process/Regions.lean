import HetSim.Process.Pages

/-!
# Unmapping and remapping as set operations

Unmapping takes the addresses of the range out of the areas and of the page table, remapping
moves them. The pieces a loop makes of an area are stretches that are kept, dropped or moved.
-/

namespace HetSim.Process
open Checked List VMA HetSim.Process.Part

variable {B : Type} {p : PageSize} {v w : VMA B} {l : List (VMA B)} {start end_ new : ℕ}

structure Span (p : PageSize) (start end_ : ℕ) : Prop where
  lt : start < end_
  start_dvd : p.bytes ∣ start
  end_dvd : p.bytes ∣ end_
  bound : end_ < 2 ^ 64

section Tests

theorem isStrictSuperset_iff :
    v.isStrictSuperset start end_ = true ↔ v.start < start ∧ end_ < v.end_ := by
  simp [isStrictSuperset]

theorem isSubset_iff : v.isSubset start end_ = true ↔ start ≤ v.start ∧ v.end_ ≤ end_ := by
  simp [isSubset]

theorem intersects_iff : v.intersects start end_ = true ↔ v.start < end_ ∧ start < v.end_ := by
  simp [intersects]

theorem Apart.not_intersects (h : Apart v w) (hw : w.WF p) (hlt : start < end_)
    (hs : v.start ≤ start) (he : end_ ≤ v.end_) : ¬ w.intersects start end_ = true := by
  intro hi
  rw [intersects_iff] at hi
  have hwlt := hw.lt
  refine h (max w.start start) ⟨?_, ?_⟩ ⟨le_max_left _ _, ?_⟩
  · exact hs.trans (le_max_right _ _)
  · exact max_lt (by omega) (by omega)
  · exact max_lt hwlt hi.2

end Tests

def unmapAt (start end_ a : ℕ) : Option ℕ := if start ≤ a ∧ a < end_ then none else some a

def remapAt (start end_ new a : ℕ) : Option ℕ :=
  some (if start ≤ a ∧ a < end_ then a - start + new else a)

def unmapPieces (start end_ : ℕ) (v : VMA B) : List (VMA B) :=
  if v.isStrictSuperset start end_ then [v.cutLeft end_, v.cutRight start]
  else if v.isSubset start end_ then []
  else if v.intersects start end_ then
    [if v.start < start then v.cutRight start else v.cutLeft end_]
  else [v]

def remapPieces (start end_ new : ℕ) (v : VMA B) : List (VMA B) :=
  if v.isStrictSuperset start end_ then
    [((v.cutLeft start).cutRight end_).moved new, v.cutRight start, v.cutLeft end_]
  else if v.isSubset start end_ then [v.moved (v.start - start + new)]
  else if v.intersects start end_ then
    if v.start < start then [(v.cutLeft start).moved new, v.cutRight start]
    else [(v.cutRight end_).moved (v.start - start + new), v.cutLeft end_]
  else [v]

section Pieces

variable (h : v.WF p) (hr : Span p start end_)

variable {f : ℕ → Option ℕ} {ws ws' : List (VMA B)} {a a' b lo mid hi : ℕ}

/-- An operation that keeps the addresses outside the range and is one to one on the areas. -/
structure Rearranges (start end_ : ℕ) (l : List (VMA B)) (f : ℕ → Option ℕ) : Prop where
  kept : ∀ a, ¬ (start ≤ a ∧ a < end_) → f a = some a
  inj : ∀ v ∈ l, ∀ w ∈ l, ∀ a a' b, v.Has a → w.Has a' → f a = some b → f a' = some b → a = a'

namespace Rearranges

variable (hf : Rearranges start end_ l f) (hv : v ∈ l)

include hf in
theorem part (hw : Part p v lo hi lo w) (hout : hi ≤ start ∨ end_ ≤ lo) :
    Carries p f v lo hi [w] :=
  .part hw fun a hlo hhi => by rw [hf.kept a (by omega), Nat.sub_add_cancel hlo]

include hf hv in
theorem append (h : Carries p f v lo mid ws) (h' : Carries p f v mid hi ws') (hv₁ : v.start ≤ lo)
    (hlo : lo ≤ mid) (hhi : mid ≤ hi) (hv₂ : hi ≤ v.end_) : Carries p f v lo hi (ws ++ ws') :=
  h.append h' hlo hhi fun a a' b hla hau hla' hau' ha ha' => by
    have := hf.inj v hv v hv a a' b ⟨by omega, by omega⟩ ⟨by omega, by omega⟩ ha ha'
    omega

include hf hv h hr

theorem cutRight (hc : Carries p f v start hi ws) (hs : v.start < start) (hhi : start ≤ hi)
    (he : hi ≤ v.end_) : Carries p f v v.start hi (v.cutRight start :: ws) :=
  hf.append hv (hf.part (.cutRight h hr.start_dvd hs (hhi.trans he)) (.inl le_rfl)) hc le_rfl
    hs.le hhi he

theorem cutLeft (hc : Carries p f v lo end_ ws) (hs : v.start ≤ lo) (hlo : lo ≤ end_)
    (he : end_ < v.end_) : Carries p f v lo v.end_ (v.cutLeft end_ :: ws) :=
  (hf.append hv hc (hf.part (.cutLeft h hr.end_dvd (hs.trans hlo) he) (.inr le_rfl)) hs hlo he.le
    le_rfl).perm (perm_append_singleton _ _).symm

end Rearranges

theorem unmapAt_rearranges : Rearranges start end_ l (unmapAt start end_) where
  kept a ha := if_neg ha
  inj v _ w _ a a' b _ _ hb hb' := by
    unfold unmapAt at hb hb'
    split_ifs at hb hb'
    rw [← Option.some.inj hb] at hb'
    exact (Option.some.inj hb').symm

include h hr in
theorem unmapPieces_carries (hv : v ∈ l) :
    Carries p (unmapAt start end_) v v.start v.end_ (unmapPieces start end_ v) := by
  have hlt := hr.lt
  have hf : Rearranges start end_ l (unmapAt start end_) := unmapAt_rearranges
  have hdrop : ∀ {lo hi : ℕ}, start ≤ lo → hi ≤ end_ → Carries p (unmapAt start end_) v lo hi [] :=
    fun hlo hhi => .drop fun a ha hau => by rw [unmapAt, if_pos (by omega)]
  rw [unmapPieces]
  split_ifs with hsup hsub hint hside
  · -- the range is inside the area: kept, dropped, kept
    rw [isStrictSuperset_iff] at hsup
    exact hf.cutLeft h hr hv (hf.cutRight h hr hv (hdrop le_rfl le_rfl) hsup.1 hlt.le hsup.2.le)
      le_rfl (by omega) hsup.2
  · rw [isSubset_iff] at hsub
    exact hdrop hsub.1 hsub.2
  · rw [isStrictSuperset_iff] at hsup
    rw [intersects_iff] at hint
    exact hf.cutRight h hr hv (hdrop le_rfl (by omega)) hside hint.2.le le_rfl
  · rw [isSubset_iff] at hsub
    rw [intersects_iff] at hint
    exact hf.cutLeft h hr hv (hdrop (by omega) le_rfl) le_rfl hint.1.le (by omega)
  · rw [intersects_iff] at hint
    exact hf.part (self h) (by have := h.lt; omega)

include h hr in
theorem Part.middle (hs : v.start ≤ start) (he : end_ ≤ v.end_) :
    Part p v start end_ start ((v.cutLeft start).cutRight end_) := by
  have hcut := cutLeft h hr.start_dvd hs (hr.lt.trans_le he)
  have hmid := hcut.trans (.cutRight hcut.wf hr.end_dvd (by rw [hcut.start_eq]; exact hr.lt)
    (by rw [hcut.end_eq]; omega))
  rwa [hcut.start_eq] at hmid

variable (hnew : Span p new (new + (end_ - start)))
  (hfree : ∀ v ∈ l, ∀ a, v.Has a → ¬ (new ≤ a ∧ a < new + (end_ - start)))

include hfree in
theorem remapAt_rearranges : Rearranges start end_ l (remapAt start end_ new) where
  kept a ha := by rw [remapAt, if_neg ha]
  inj v hv w hw a a' b ha ha' hb hb' := by
    have hout := hfree v hv a ha
    have hout' := hfree w hw a' ha'
    have heq := Option.some.inj (hb.trans hb'.symm)
    split_ifs at heq <;> omega

include hr hnew

theorem Part.shift (hw : Part p v lo hi lo w) (hlo : start ≤ lo) (hhi : hi ≤ end_) :
    Part p v lo hi (lo - start + new) (w.moved (lo - start + new)) := by
  have hb := hnew.bound
  have hlt := hw.lt
  have hdvd : p.bytes ∣ lo := hw.start_eq ▸ hw.wf.start_dvd
  have hmoved := hw.trans (.moved hw.wf ((Nat.dvd_sub hdvd hr.start_dvd).add hnew.start_dvd)
    (by rw [hw.start_eq, hw.end_eq]; omega))
  rwa [hw.start_eq, hw.end_eq, Nat.add_sub_cancel' hlt.le] at hmoved

theorem Part.shift_start (hw : Part p v start hi start w) (hhi : hi ≤ end_) :
    Part p v start hi new (w.moved new) := by
  have hshift := hw.shift hr hnew le_rfl hhi
  rwa [Nat.sub_self, Nat.zero_add] at hshift

omit hr hnew in
theorem Part.moved_remapAt (hw : Part p v lo hi b w) (hb : b = lo - start + new)
    (hlo : start ≤ lo) (hhi : hi ≤ end_) : Carries p (remapAt start end_ new) v lo hi [w] :=
  .part hw fun a hla hau => by
    rw [remapAt, if_pos (by omega)]
    congr 1
    omega

include h hfree in
theorem remapPieces_carries (hv : v ∈ l) :
    Carries p (remapAt start end_ new) v v.start v.end_ (remapPieces start end_ new v) := by
  have hlt := hr.lt
  have hf := remapAt_rearranges hfree
  rw [remapPieces]
  split_ifs with hsup hsub hint hside
  · -- the range is inside the area: kept, moved, kept
    rw [isStrictSuperset_iff] at hsup
    have hmove : Carries p (remapAt start end_ new) v start end_ [_] :=
      ((middle h hr hsup.1.le hsup.2.le).shift_start hr hnew le_rfl).moved_remapAt (by omega)
        le_rfl le_rfl
    exact (hf.cutLeft h hr hv (hf.cutRight h hr hv hmove hsup.1 hlt.le hsup.2.le) le_rfl (by omega)
      hsup.2).perm (reverse_perm [_, _, _])
  · rw [isSubset_iff] at hsub
    exact ((self h).shift hr hnew hsub.1 hsub.2).moved_remapAt rfl hsub.1 hsub.2
  · -- the area ends inside the range
    rw [isStrictSuperset_iff] at hsup
    rw [intersects_iff] at hint
    have hmove : Carries p (remapAt start end_ new) v start v.end_ [_] :=
      ((cutLeft h hr.start_dvd hside.le hint.2).shift_start hr hnew (by omega)).moved_remapAt
        (by omega) le_rfl (by omega)
    exact (hf.cutRight h hr hv hmove hside hint.2.le le_rfl).perm (.swap _ _ _)
  · -- the area starts inside the range
    rw [isSubset_iff] at hsub
    rw [intersects_iff] at hint
    have hmove := ((cutRight h hr.end_dvd hint.1 (by omega)).shift hr hnew (by omega)
      le_rfl).moved_remapAt rfl (by omega) le_rfl
    exact (hf.cutLeft h hr hv hmove le_rfl hint.1.le (by omega)).perm (.swap _ _ _)
  · rw [intersects_iff] at hint
    exact hf.part (self h) (by have := h.lt; omega)

end Pieces

section Loops

variable (hl : Regular p l) (hr : Span p start end_)

theorem Regular.tail (h : Regular p (v :: l)) : Regular p l :=
  ⟨(pairwise_cons.mp h.apart).2, fun w hw => h.wf w (mem_cons_of_mem _ hw)⟩

theorem Regular.shrink (h : Regular p (v :: l)) (hw : Part p v lo hi lo w) :
    Regular p (l ++ [w]) := by
  refine Regular.perm ⟨pairwise_cons.mpr ⟨?_, h.tail.apart⟩, ?_⟩
    (perm_append_singleton w l)
  · intro u hu a ha
    have hlow := hw.low
    have hhigh := hw.high
    rw [hw.has] at ha
    exact (pairwise_cons.mp h.apart).1 u hu a ⟨by omega, by omega⟩
  · intro u hu
    rcases mem_cons.mp hu with rfl | hu
    · exact hw.wf
    · exact h.tail.wf u hu

theorem not_within (h : v.WF p) (hlt : start < end_) (hi : ¬ v.intersects start end_ = true) :
    ¬ v.isStrictSuperset start end_ = true ∧ ¬ v.isSubset start end_ = true := by
  have hvlt := h.lt
  rw [intersects_iff] at hi
  rw [isStrictSuperset_iff, isSubset_iff]
  omega

theorem unmapPieces_of_not_intersects (h : v.WF p) (hlt : start < end_)
    (hi : ¬ v.intersects start end_ = true) : unmapPieces start end_ v = [v] := by
  obtain ⟨hsup, hsub⟩ := not_within h hlt hi
  rw [unmapPieces, if_neg hsup, if_neg hsub, if_neg hi]

theorem remapPieces_of_not_intersects (h : v.WF p) (hlt : start < end_)
    (hi : ¬ v.intersects start end_ = true) : remapPieces start end_ new v = [v] := by
  obtain ⟨hsup, hsub⟩ := not_within h hlt hi
  rw [remapPieces, if_neg hsup, if_neg hsub, if_neg hi]

theorem Regular.not_intersects (h : Regular p (v :: l)) (hlt : start < end_)
    (hs : v.start ≤ start) (he : end_ ≤ v.end_) (hw : w ∈ l) : ¬ w.intersects start end_ = true :=
  ((pairwise_cons.mp h.apart).1 w hw).not_intersects (h.tail.wf w hw) hlt hs he

theorem flatMap_eq_self {pieces : VMA B → List (VMA B)} (h : ∀ w ∈ l, pieces w = [w]) :
    l.flatMap pieces = l := by
  rw [flatMap_congr h]
  simp

include hr in
theorem unmapVMAs_perm (hl : Regular p l) :
    ∃ l', unmapVMAs p start end_ l = .ok l' ∧ l'.Perm (l.flatMap (unmapPieces start end_)) := by
  have hlt := hr.lt
  induction l with
  | nil => exact ⟨[], rfl, .nil⟩
  | cons v l ih =>
    have hv := hl.wf v mem_cons_self
    obtain ⟨l', hl', hperm⟩ := ih hl.tail
    rw [unmapVMAs, flatMap_cons, unmapPieces]
    split_ifs with hsup hsub hint hside
    · rw [isStrictSuperset_iff] at hsup
      have hleft := cutRight hv hr.start_dvd hsup.1 (by omega)
      have hright := cutLeft hv hr.end_dvd (by omega) hsup.2
      rw [sliceRegionRight, sanityCheck_of_wf hleft.wf, sliceRegionLeft,
        sanityCheck_of_wf hright.wf]
      refine ⟨_, rfl, ?_⟩
      rw [flatMap_eq_self fun w hw => unmapPieces_of_not_intersects (hl.tail.wf w hw) hlt
        (hl.not_intersects hlt hsup.1.le hsup.2.le hw)]
      exact .cons _ (perm_append_singleton _ _)
    · exact ⟨l', hl', hperm⟩
    · rw [isStrictSuperset_iff] at hsup
      rw [intersects_iff] at hint
      have hleft := cutRight hv hr.start_dvd hside hint.2.le
      rw [sliceRegionRight, sanityCheck_of_wf hleft.wf, hl']
      exact ⟨_, rfl, hperm.cons _⟩
    · rw [isSubset_iff] at hsub
      rw [intersects_iff] at hint
      have hright := cutLeft hv hr.end_dvd hint.1.le (by omega)
      rw [sliceRegionLeft, sanityCheck_of_wf hright.wf, hl']
      exact ⟨_, rfl, hperm.cons _⟩
    · rw [hl']
      exact ⟨_, rfl, hperm.cons _⟩

/-- The rounds that the loop of `remapRegion` takes: one for each area, and one more for each
that leaves a clone. -/
def rounds (start end_ : ℕ) (l : List (VMA B)) : ℕ :=
  l.length + l.countP fun v => v.intersects start end_

theorem rounds_append (hi : ¬ w.intersects start end_ = true) :
    rounds start end_ (l ++ [w]) = rounds start end_ l + 1 := by
  simp only [rounds, length_append, length_singleton, countP_append,
    countP_singleton, if_neg hi]
  omega

theorem rounds_cons : rounds start end_ (v :: l) =
    rounds start end_ l + 1 + if v.intersects start end_ then 1 else 0 := by
  simp only [rounds, length_cons, countP_cons]
  omega

/-- The clone that an area leaves outside the range goes to the end of the list, where a later
round keeps it. -/
theorem remapVMAs_clone {n : ℕ}
    (ih : ∀ {l : List (VMA B)}, Regular p l → rounds start end_ l < n →
      ∃ l', remapVMAs p start end_ new n l = .ok l' ∧
        l'.Perm (l.flatMap (remapPieces start end_ new)))
    (hl : Regular p (v :: l)) (hn : rounds start end_ (v :: l) < n + 1)
    (hint : v.intersects start end_ = true) (hlt : start < end_) (hw : Part p v lo hi lo w)
    (hside : hi ≤ start ∨ end_ ≤ lo) :
    ∃ l', remapVMAs p start end_ new n (l ++ [w]) = .ok l' ∧
      l'.Perm (w :: l.flatMap (remapPieces start end_ new)) := by
  have hout : ¬ w.intersects start end_ = true := by
    have := hw.lt
    rw [intersects_iff, hw.start_eq, hw.end_eq]
    omega
  obtain ⟨l', hl', hperm⟩ := ih (hl.shrink hw) (by
    rw [rounds_append hout]
    rw [rounds_cons, if_pos hint] at hn
    omega)
  refine ⟨l', hl', hperm.trans ?_⟩
  rw [flatMap_append, flatMap_singleton, remapPieces_of_not_intersects hw.wf hlt hout]
  exact perm_append_singleton _ _

include hr in
theorem remapVMAs_perm (hnew : Span p new (new + (end_ - start))) {n : ℕ} (hl : Regular p l)
    (hn : rounds start end_ l < n) :
    ∃ l', remapVMAs p start end_ new n l = .ok l' ∧
      l'.Perm (l.flatMap (remapPieces start end_ new)) := by
  have hlt := hr.lt
  have hbound := hnew.bound
  induction n generalizing l with
  | zero => omega
  | succ n ih =>
    cases l with
    | nil => exact ⟨[], rfl, .nil⟩
    | cons v l =>
      have hv := hl.wf v mem_cons_self
      have hvlt := hv.lt
      have hrest : rounds start end_ l < n := by
        rw [rounds_cons] at hn
        omega
      rw [remapVMAs, flatMap_cons, remapPieces]
      split_ifs with hsup hsub hint hside
      · rw [isStrictSuperset_iff] at hsup
        have hleft := cutRight hv hr.start_dvd hsup.1 (by omega)
        have hright := cutLeft hv hr.end_dvd (by omega) hsup.2
        have hcut := cutLeft hv hr.start_dvd hsup.1.le (by omega)
        have hmid := middle hv hr hsup.1.le hsup.2.le
        have hmoved := hmid.shift_start hr hnew le_rfl
        simp only [sliceRegionRight, sliceRegionLeft, remap,
          sanityCheck_of_wf hleft.wf, sanityCheck_of_wf hright.wf, sanityCheck_of_wf hcut.wf,
          ok_bind, sanityCheck_of_wf hmid.wf, sanityCheck_of_wf hmoved.wf]
        refine ⟨_, rfl, ?_⟩
        rw [flatMap_eq_self fun w hw => remapPieces_of_not_intersects (hl.tail.wf w hw) hlt
          (hl.not_intersects hlt hsup.1.le hsup.2.le hw)]
        exact .cons _ perm_append_comm
      · rw [isSubset_iff] at hsub
        obtain ⟨l', hl', hperm⟩ := ih hl.tail hrest
        have hmoved := (self hv).shift hr hnew hsub.1 hsub.2
        have hvb := hv.bound
        rw [sub_of_le hsub.1 (by omega), wrap_of_lt (by omega), remap,
          sanityCheck_of_wf hmoved.wf, hl']
        exact ⟨_, rfl, hperm.cons _⟩
      · rw [isStrictSuperset_iff] at hsup
        obtain ⟨-, hend⟩ := intersects_iff.mp hint
        have hleft := cutRight hv hr.start_dvd hside hend.le
        have hcut := cutLeft hv hr.start_dvd hside.le hend
        have hmoved := hcut.shift_start hr hnew (by omega)
        obtain ⟨l', hl', hperm⟩ := remapVMAs_clone ih hl hn hint hlt hleft (.inl le_rfl)
        simp only [sliceRegionRight, sliceRegionLeft, remap,
          sanityCheck_of_wf hleft.wf, sanityCheck_of_wf hcut.wf, ok_bind,
          sanityCheck_of_wf hmoved.wf, hl']
        exact ⟨_, rfl, hperm.cons _⟩
      · rw [isSubset_iff] at hsub
        obtain ⟨hbegin, -⟩ := intersects_iff.mp hint
        have hright := cutLeft hv hr.end_dvd hbegin.le (by omega)
        have hcut := cutRight hv hr.end_dvd hbegin (by omega)
        have hmoved := hcut.shift hr hnew (by omega) le_rfl
        obtain ⟨l', hl', hperm⟩ := remapVMAs_clone ih hl hn hint hlt hright (.inr le_rfl)
        have hvb := hv.bound
        have haddr : sub (wrap (new + (v.cutRight end_).start)) start = v.start - start + new := by
          rw [hcut.start_eq]
          exact sub_wrap (by omega) (by omega) (by omega)
        have hremap : (v.cutRight end_).remap p (sub (wrap (new + (v.cutRight end_).start)) start) =
            .ok ((v.cutRight end_).moved (v.start - start + new)) := by
          rw [haddr, remap, sanityCheck_of_wf hmoved.wf]
        rw [sliceRegionLeft, sanityCheck_of_wf hright.wf, ok_bind, sliceRegionRight,
          sanityCheck_of_wf hcut.wf, ok_bind, hremap, ok_bind, hl', ok_bind]
        exact ⟨_, rfl, hperm.cons _⟩
      · obtain ⟨l', hl', hperm⟩ := ih hl.tail hrest
        rw [hl']
        exact ⟨_, rfl, hperm.cons _⟩

end Loops

section Regions

variable {s : MemState B} {length : ℕ}

theorem pages_of_span (hlen : p.bytes ∣ length) (hpos : 0 < length)
    (hwrap : start + length < 2 ^ 64) :
    ∃ k, length = (k + 1) * p.bytes ∧ k < allPages p := by
  obtain ⟨m, rfl⟩ := hlen
  obtain ⟨k, rfl⟩ := Nat.exists_eq_succ_of_ne_zero (Nat.pos_of_mul_pos_left hpos).ne'
  refine ⟨k, mul_comm _ _, (Nat.le_div_iff_mul_le p.bytes_pos).mpr ?_⟩
  rw [mul_comm]
  omega

theorem unmapRegion_spec (hs : Regular p s.vmaList) (hstart : p.bytes ∣ start)
    (hlen : p.bytes ∣ length) (hpos : 0 < length) (hwrap : start + length < 2 ^ 64) :
    ∃ t, unmapRegion p s start length = .ok t ∧ Regular p t.vmaList ∧
      (∀ a x, Backed p t.vmaList a x ↔
        Backed p s.vmaList a x ∧ ¬ (start ≤ a ∧ a < start + length)) ∧
      ∃ pt, t = { s with vmaList := t.vmaList, pTable := pt } ∧ ∀ a, p.bytes ∣ a →
        pt a = if start ≤ a ∧ a < start + length then none else s.pTable a := by
  have hr : Span p start (start + length) := ⟨by omega, hstart, hstart.add hlen, hwrap⟩
  obtain ⟨l', hl', hperm⟩ := unmapVMAs_perm hr hs
  have hc : ∀ v ∈ s.vmaList, Carries p (unmapAt start (start + length)) v v.start v.end_
      (unmapPieces start (start + length) v) :=
    fun v hv => unmapPieces_carries (hs.wf v hv) hr hv
  have hf : Rearranges start (start + length) s.vmaList (unmapAt start (start + length)) :=
    unmapAt_rearranges
  obtain ⟨k, rfl, hk⟩ := pages_of_span hlen hpos hwrap
  obtain ⟨pt, hpt, htable⟩ := unmapPages_spec (t := s.pTable) hstart hwrap hk
  refine ⟨{ s with vmaList := l', pTable := pt }, ?_, (hs.carried hc hf.inj).perm hperm, ?_, pt,
    rfl, htable⟩
  · rw [unmapRegion, wrap_of_lt hwrap, hl', ok_bind, hpt]
    rfl
  · intro a x
    rw [Backed.perm hperm, backed_carried hc hf.inj]
    constructor
    · rintro ⟨a', ha', hx⟩
      rw [unmapAt] at ha'
      split_ifs at ha' with hin
      rw [← Option.some.inj ha']
      exact ⟨hx, hin⟩
    · rintro ⟨hx, hout⟩
      exact ⟨a, by rw [unmapAt, if_neg hout], hx⟩

theorem remapRegion_spec (hs : Regular p s.vmaList) (hstart : p.bytes ∣ start)
    (hlen : p.bytes ∣ length) (hpos : 0 < length) (hwrap : start + length < 2 ^ 64)
    (hnew : p.bytes ∣ new) (hnewWrap : new + length < 2 ^ 64)
    (hapart : start + length ≤ new ∨ new + length ≤ start)
    (hfree : ∀ a, new ≤ a → a < new + length → ∀ v ∈ s.vmaList, ¬ v.Has a)
    (hpages : ∀ a, p.bytes ∣ a → new ≤ a → a < new + length → s.pTable a = none) :
    ∃ t, remapRegion p s start new length = .ok t ∧ Regular p t.vmaList ∧
      (∀ a x, Backed p t.vmaList a x ↔
        (Backed p s.vmaList a x ∧ ¬ (start ≤ a ∧ a < start + length)) ∨
        ∃ b, (start ≤ b ∧ b < start + length) ∧ a = b - start + new ∧ Backed p s.vmaList b x) ∧
      ∃ pt, t = { s with vmaList := t.vmaList, pTable := pt } ∧ ∀ a, p.bytes ∣ a →
        pt a = if start ≤ a ∧ a < start + length then none
          else if new ≤ a ∧ a < new + length then s.pTable (a - new + start) else s.pTable a := by
  have hr : Span p start (start + length) := ⟨by omega, hstart, hstart.add hlen, hwrap⟩
  have hdiff : new + (start + length - start) = new + length := by omega
  have hr' : Span p new (new + (start + length - start)) := by
    rw [hdiff]
    exact ⟨by omega, hnew, hnew.add hlen, hnewWrap⟩
  have hrounds : rounds start (start + length) s.vmaList < 2 * s.vmaList.length + 1 := by
    have := countP_le_length (p := fun v : VMA B => v.intersects start (start + length))
      (l := s.vmaList)
    rw [rounds]
    omega
  obtain ⟨l', hl', hperm⟩ := remapVMAs_perm hr hr' hs hrounds
  have hout : ∀ v ∈ s.vmaList, ∀ a, v.Has a →
      ¬ (new ≤ a ∧ a < new + (start + length - start)) := by
    rintro v hv a ha ⟨hla, hau⟩
    exact hfree a hla (by omega) v hv ha
  have hc : ∀ v ∈ s.vmaList, Carries p (remapAt start (start + length) new) v v.start v.end_
      (remapPieces start (start + length) new v) :=
    fun v hv => remapPieces_carries (hs.wf v hv) hr hr' hout hv
  have hinj := (remapAt_rearranges hout).inj
  obtain ⟨k, rfl, hk⟩ := pages_of_span hlen hpos hwrap
  obtain ⟨pt, hpt, htable⟩ := remapPages_spec hstart hwrap hnew hnewWrap hapart hpages hk
  refine ⟨{ s with vmaList := l', pTable := pt }, ?_, (hs.carried hc hinj).perm hperm, ?_, pt, rfl,
    htable⟩
  · rw [remapRegion, wrap_of_lt hwrap, hl', ok_bind, hpt]
    rfl
  · intro a x
    rw [Backed.perm hperm, backed_carried hc hinj]
    constructor
    · rintro ⟨b, hb, hx⟩
      rw [remapAt, Option.some.injEq] at hb
      split_ifs at hb with hin
      · exact .inr ⟨b, hin, hb.symm, hx⟩
      · rw [← hb]
        exact .inl ⟨hx, hin⟩
    · rintro (⟨hx, hin⟩ | ⟨b, hin, rfl, hx⟩)
      · exact ⟨a, by rw [remapAt, if_neg hin], hx⟩
      · exact ⟨b, by rw [remapAt, if_pos hin], hx⟩

theorem regions_are_sets (p : PageSize) (s : MemState B) (start length : ℕ)
    (hs : Regular p s.vmaList) (hstart : p.bytes ∣ start) (hlen : p.bytes ∣ length)
    (hpos : 0 < length) (hwrap : start + length < 2 ^ 64) :
    (∃ t, unmapRegion p s start length = .ok t ∧ Regular p t.vmaList ∧
      (∀ a x, Backed p t.vmaList a x ↔
        Backed p s.vmaList a x ∧ ¬ (start ≤ a ∧ a < start + length)) ∧
      ∀ a, t.pTable.lookup p a =
        if start ≤ a ∧ a < start + length then none else s.pTable.lookup p a) ∧
    ∀ new, p.bytes ∣ new → new + length < 2 ^ 64 →
      (start + length ≤ new ∨ new + length ≤ start) →
      (∀ a, new ≤ a → a < new + length →
        (∀ v ∈ s.vmaList, ¬ v.Has a) ∧ s.pTable.lookup p a = none) →
      ∃ t, remapRegion p s start new length = .ok t ∧ Regular p t.vmaList ∧
        (∀ a x, Backed p t.vmaList a x ↔
          (Backed p s.vmaList a x ∧ ¬ (start ≤ a ∧ a < start + length)) ∨
          ∃ b, (start ≤ b ∧ b < start + length) ∧ a = b - start + new ∧ Backed p s.vmaList b x) ∧
        ∀ a, t.pTable.lookup p a =
          if start ≤ a ∧ a < start + length then none
          else if new ≤ a ∧ a < new + length then s.pTable.lookup p (a - new + start)
          else s.pTable.lookup p a := by
  constructor
  · obtain ⟨t, ht, hreg, hback, pt, hpt, htable⟩ :=
      unmapRegion_spec hs hstart hlen hpos hwrap
    rw [hpt] at ht hreg hback
    exact ⟨_, ht, hreg, hback, lookup_unmapped hstart (hstart.add hlen) htable⟩
  · intro new hnew hnewWrap hapart hfree
    have hpages : ∀ a, p.bytes ∣ a → new ≤ a → a < new + length → s.pTable a = none := by
      intro a ha hla hau
      rw [← (hfree a hla hau).2, PageTable.lookup, roundDown_of_dvd ha]
    obtain ⟨t, ht, hreg, hback, pt, hpt, htable⟩ := remapRegion_spec hs hstart hlen hpos hwrap hnew
      hnewWrap hapart (fun a hla hau => (hfree a hla hau).1) hpages
    rw [hpt] at ht hreg hback
    exact ⟨_, ht, hreg, hback,
      lookup_remapped hstart (hstart.add hlen) hnew (hnew.add hlen) htable⟩

def twoAreas : MemState Unit where
  brkPoint := 0
  endBrkPoint := 0
  mmapEnd := 0x100000
  stackBase := 0
  stackMin := 0
  maxStackSize := 0
  vmaList := [⟨0x1000, 0x5000, some (), 0x70000, 10000⟩, ⟨0x8000, 0x9000, none, 0, 0⟩]
  pTable := fun a => if a = 0x2000 then some ⟨0x4000, 0⟩ else none
  pagePtr := 5

theorem regions_are_sets_twoAreas :
    (∃ t, unmapRegion ⟨12, by decide⟩ twoAreas 0x2000 0x1000 = .ok t ∧
      ∀ a x, Backed ⟨12, by decide⟩ t.vmaList a x ↔
        Backed ⟨12, by decide⟩ twoAreas.vmaList a x ∧ ¬ (0x2000 ≤ a ∧ a < 0x2000 + 0x1000)) ∧
    ∃ t, remapRegion ⟨12, by decide⟩ twoAreas 0x2000 0x20000 0x1000 = .ok t ∧
      Regular ⟨12, by decide⟩ t.vmaList := by
  have hs : Regular ⟨12, by decide⟩ twoAreas.vmaList := by
    refine ⟨pairwise_pair.mpr fun a ha hb => ?_, ?_⟩
    · exact absurd (ha.2.trans_le (by decide)) (not_lt.mpr hb.1)
    · intro v hv
      rcases mem_pair.mp hv with rfl | rfl
      · exact ⟨by decide, by decide, by decide, by decide⟩
      · exact ⟨by decide, by decide, by decide, by decide⟩
  obtain ⟨⟨t, ht, -, hback, -⟩, hremap⟩ :=
    regions_are_sets ⟨12, by decide⟩ twoAreas 0x2000 0x1000 hs
    (by decide) (by decide) (by decide) (by decide)
  obtain ⟨t', ht', hreg, -⟩ := hremap 0x20000 (by decide) (by decide) (.inl (by decide)) (by
    intro a hla hau
    refine ⟨fun v hv hva => ?_, ?_⟩
    · have hend : v.end_ ≤ 0x20000 := by
        rcases mem_pair.mp hv with rfl | rfl <;> decide
      exact absurd (hva.2.trans_le hend) (not_lt.mpr hla)
    · have hpage : roundDown ⟨12, by decide⟩ a ≠ 0x2000 := by
        have := le_roundDown (p := ⟨12, by decide⟩) (b := 0x20000) (by decide) hla
        omega
      exact if_neg hpage)
  exact ⟨⟨t, ht, hback⟩, t', ht', hreg⟩

/-- A range that ends inside a page fails an assert. The end of a range up to the last address wraps
to zero: the first page of the address space, in no area before, then belongs to one. -/
theorem unmapRegion_needs_whole_pages :
    unmapRegion ⟨12, by decide⟩ twoAreas 0x1000 1 = .error .sanityCheck ∧
    ∃ t, unmapRegion ⟨12, by decide⟩ twoAreas 0xfffffffffffff000 0x1000 = .ok t ∧
      t.vmaList.any (·.contains 0) = true ∧ twoAreas.vmaList.any (·.contains 0) = false :=
  ⟨rfl, _, rfl, by decide, by decide⟩

end Regions

end HetSim.Process
