import Mathlib

/-!
# Sorted stacks

A list of elements, the most recent first, arranged into stacks: one for every key that occurs, in
increasing order, with the most recent on top. A stack is a pair of its top and what is below.
-/

namespace HetSim.Stacks

open List

universe u v
variable {α : Type u} {κ : Type v} [LinearOrder κ] {key key' : α → κ}
  {l : List α} {bins pre post : List (α × List α)} {a : α} {x : α × List α}

structure Arranged (key : α → κ) (l : List α) (bins : List (α × List α)) : Prop where
  sorted : bins.Pairwise (fun x y => key x.1 < key y.1)
  stack : ∀ x ∈ bins, x.1 :: x.2 = l.filter (fun a => key a = key x.1)
  cover : ∀ a ∈ l, ∃ x ∈ bins, key x.1 = key a

def elems (bins : List (α × List α)) : List α := bins.flatMap (fun x => x.1 :: x.2)

def tops (bins : List (α × List α)) : List α := bins.map Prod.fst

theorem tops_append : tops (pre ++ post) = tops pre ++ tops post := map_append

theorem tops_sublist (bins : List (α × List α)) : (tops bins).Sublist (elems bins) := by
  induction bins with
  | nil => exact .slnil
  | cons x bins ih =>
    have hcons : elems (x :: bins) = x.1 :: (x.2 ++ elems bins) := by simp [elems]
    rw [hcons]
    exact (ih.trans (sublist_append_right x.2 _)).cons_cons x.1

theorem mem_elems (hx : x ∈ bins) (ha : a ∈ x.1 :: x.2) : a ∈ elems bins :=
  mem_flatMap.mpr ⟨x, hx, ha⟩

theorem not_mem_around {y : α × List α} (hnd : (elems (pre ++ y :: post)).Nodup)
    (ha : a ∈ y.1 :: y.2) (hx : x ∈ pre ++ post) : a ∉ x.1 :: x.2 := by
  have helems : elems (pre ++ y :: post) = elems pre ++ ((y.1 :: y.2) ++ elems post) := by
    simp [elems]
  rw [helems] at hnd
  obtain ⟨-, hright, hleft⟩ := nodup_append.mp hnd
  intro hax
  rcases mem_append.mp hx with hx | hx
  · exact hleft a (mem_elems hx hax) a (mem_append_left _ ha) rfl
  · exact (nodup_append.mp hright).2.2 a ha a (mem_elems hx hax) rfl

def stackOf : List α → List (α × List α)
  | [] => []
  | t :: b => [(t, b)]

namespace Arranged

theorem key_eq (h : Arranged key l bins) (hx : x ∈ bins) (ha : a ∈ x.1 :: x.2) :
    key a = key x.1 := by
  rw [h.stack x hx, mem_filter, decide_eq_true_iff] at ha
  exact ha.2

theorem mem_iff (h : Arranged key l bins) : a ∈ elems bins ↔ a ∈ l := by
  constructor
  · intro ha
    obtain ⟨x, hx, hax⟩ := mem_flatMap.mp ha
    rw [h.stack x hx] at hax
    exact mem_of_mem_filter hax
  · intro ha
    obtain ⟨x, hx, hkey⟩ := h.cover a ha
    refine mem_flatMap.mpr ⟨x, hx, ?_⟩
    rw [h.stack x hx, mem_filter, decide_eq_true_iff]
    exact ⟨ha, hkey.symm⟩

theorem nodup (h : Arranged key l bins) (hl : l.Nodup) : (elems bins).Nodup := by
  rw [elems, nodup_flatMap]
  refine ⟨fun x hx => ?_, ?_⟩
  · rw [h.stack x hx]
    exact hl.filter _
  · refine h.sorted.imp_of_mem fun {x y} hx hy hlt a hax hay => ?_
    exact hlt.ne ((h.key_eq hx hax).symm.trans (h.key_eq hy hay))

theorem length_le [Fintype α] (h : Arranged key l bins) (hl : l.Nodup) :
    bins.length ≤ Fintype.card α := by
  calc bins.length = (tops bins).length := by simp [tops]
    _ ≤ (elems bins).length := (tops_sublist bins).length_le
    _ ≤ Fintype.card α := (h.nodup hl).length_le_card

theorem congr (h : Arranged key l bins) (hkey : ∀ a ∈ l, key' a = key a) :
    Arranged key' l bins := by
  have htop : ∀ x ∈ bins, key' x.1 = key x.1 := fun x hx =>
    hkey x.1 (h.mem_iff.mp (mem_elems hx (mem_cons_self ..)))
  refine ⟨?_, fun x hx => ?_, fun a ha => ?_⟩
  · refine h.sorted.imp_of_mem fun hx hy hlt => ?_
    rw [htop _ hx, htop _ hy]
    exact hlt
  · rw [h.stack x hx]
    refine filter_congr fun a ha => ?_
    rw [hkey a ha, htop x hx]
  · obtain ⟨x, hx, hxa⟩ := h.cover a ha
    exact ⟨x, hx, by rw [htop x hx, hxa, hkey a ha]⟩

theorem filter_eq_nil (h : Arranged key l (pre ++ post)) (hpre : ∀ x ∈ pre, key x.1 < key a)
    (hpost : ∀ x ∈ post, key a < key x.1) : l.filter (fun b => key b = key a) = [] := by
  refine filter_eq_nil_iff.mpr fun b hb hkey => ?_
  rw [decide_eq_true_iff] at hkey
  obtain ⟨x, hx, hxb⟩ := h.cover b hb
  rcases mem_append.mp hx with hx | hx
  · exact (hpre x hx).ne (hxb.trans hkey)
  · exact (hpost x hx).ne' (hxb.trans hkey)

theorem replace (k : κ) (l' : List α) (mid : List (α × List α))
    (h : Arranged key l (pre ++ mid ++ post)) (hpre : ∀ x ∈ pre, key x.1 < k)
    (hmid : ∀ x ∈ mid, key x.1 = k) (hpost : ∀ x ∈ post, k < key x.1)
    (hl : ∀ k', k' ≠ k → l'.filter (fun a => key a = k') = l.filter (fun a => key a = k')) :
    Arranged key l' (pre ++ stackOf (l'.filter (fun a => key a = k)) ++ post) := by
  have hstack : ∀ x ∈ stackOf (l'.filter (fun a => key a = k)),
      x.1 :: x.2 = l'.filter (fun a => key a = k) ∧ key x.1 = k := by
    intro x hx
    cases hf : l'.filter (fun a => key a = k) with
    | nil => simp [hf, stackOf] at hx
    | cons t b =>
      obtain rfl : x = (t, b) := by simpa [hf, stackOf] using hx
      have ht : t ∈ l'.filter (fun a => key a = k) := by simp [hf]
      exact ⟨rfl, by simpa using (mem_filter.mp ht).2⟩
  obtain ⟨hsleft, hspost, hcross⟩ := pairwise_append.mp h.sorted
  refine ⟨?_, fun x hx => ?_, fun a ha => ?_⟩
  · refine pairwise_append.mpr ⟨pairwise_append.mpr
      ⟨(pairwise_append.mp hsleft).1, ?_, fun x hx y hy => ?_⟩, hspost, fun x hx y hy => ?_⟩
    · cases l'.filter (fun a => key a = k) with
      | nil => exact .nil
      | cons t b => exact pairwise_singleton _ _
    · rw [(hstack y hy).2]
      exact hpre x hx
    · rcases mem_append.mp hx with hx | hx
      · exact hcross x (mem_append_left mid hx) y hy
      · rw [(hstack x hx).2]
        exact hpost y hy
  · rcases mem_append.mp hx with hx | hx
    · rcases mem_append.mp hx with hx | hx
      · rw [hl _ (hpre x hx).ne, h.stack x (by simp [hx])]
      · rw [(hstack x hx).1, (hstack x hx).2]
    · rw [hl _ (hpost x hx).ne', h.stack x (by simp [hx])]
  · rcases eq_or_ne (key a) k with hk | hk
    · have hmem : a ∈ l'.filter (fun a => key a = k) := by simp [ha, hk]
      cases hf : l'.filter (fun a => key a = k) with
      | nil => simp [hf] at hmem
      | cons t b =>
        refine ⟨(t, b), by simp [stackOf], ?_⟩
        rw [(hstack (t, b) (by simp [hf, stackOf])).2, hk]
    · have hmem : a ∈ l := by
        have ha' : a ∈ l'.filter (fun b => key b = key a) := by simp [ha]
        rw [hl _ hk] at ha'
        exact mem_of_mem_filter ha'
      obtain ⟨x, hx, hxa⟩ := h.cover a hmem
      simp only [mem_append] at hx
      rcases hx with (hx | hx) | hx
      · exact ⟨x, by simp [hx], hxa⟩
      · exact absurd ((hmid x hx).symm.trans hxa).symm hk
      · exact ⟨x, by simp [hx], hxa⟩

theorem push_new (h : Arranged key l (pre ++ post)) (hpre : ∀ x ∈ pre, key x.1 < key a)
    (hpost : ∀ x ∈ post, key a < key x.1) : Arranged key (a :: l) (pre ++ (a, []) :: post) := by
  have hrep : Arranged key (a :: l) _ := replace (key a) (a :: l) []
    (by simpa using h) hpre (by simp) hpost fun k' hk => filter_cons_of_neg (by simpa using hk.symm)
  rw [filter_cons_of_pos (by simp), h.filter_eq_nil hpre hpost] at hrep
  simpa [stackOf] using hrep

variable {t : α} {b : List α}

theorem around (h : Arranged key l (pre ++ (t, b) :: post)) :
    (∀ x ∈ pre, key x.1 < key t) ∧ ∀ x ∈ post, key t < key x.1 := by
  obtain ⟨-, hpost, hcross⟩ := pairwise_append.mp h.sorted
  exact ⟨fun x hx => hcross x hx (t, b) (mem_cons_self ..), (pairwise_cons.mp hpost).1⟩

theorem push_on (h : Arranged key l (pre ++ (t, b) :: post)) (hkey : key t = key a) :
    Arranged key (a :: l) (pre ++ (a, t :: b) :: post) := by
  obtain ⟨hpre, hpost⟩ := h.around
  have hstack := h.stack (t, b) (by simp)
  have hrep : Arranged key (a :: l) _ := replace (key t) (a :: l) [(t, b)]
    (by simpa using h) hpre (by simp) hpost
    fun k' hk => filter_cons_of_neg (by simpa [← hkey] using hk.symm)
  rw [filter_cons_of_pos (by simp [hkey]), ← hstack] at hrep
  simpa [stackOf] using hrep

theorem erase [DecidableEq α] (h : Arranged key l (pre ++ (t, b) :: post)) (hkey : key t = key a)
    (hl : l.Nodup) : Arranged key (l.erase a) (pre ++ stackOf ((t :: b).erase a) ++ post) := by
  obtain ⟨hpre, hpost⟩ := h.around
  have hstack := h.stack (t, b) (by simp)
  have hfilter (k : κ) : (l.erase a).filter (fun a => key a = k) =
      (l.filter (fun a => key a = k)).erase a := by
    rw [hl.erase_eq_filter, (hl.filter _).erase_eq_filter, filter_filter, filter_filter]
    exact filter_congr fun x _ => Bool.and_comm _ _
  have hrep : Arranged key (l.erase a) _ := replace (key t) (l.erase a) [(t, b)]
    (by simpa using h) hpre (by simp) hpost fun k' hk => by
      rw [hfilter, erase_of_not_mem]
      simp [← hkey, hk.symm]
  rwa [hfilter, ← hstack] at hrep

end Arranged

end HetSim.Stacks
