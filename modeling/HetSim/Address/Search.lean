import HetSim.Address.RangeMap

/-!
# Searching the tree

What `findTree` returns for a condition with a value `P` on every entry: it looks at the first
entry behind `upper_bound`, and at those in front of it as long as they merge.
-/

namespace HetSim.Address
open Checked List

variable {V : Type} {r r' r'' : AddrRange} {n x : Node V} {tree pre post l : List (Node V)}
  {cond : AddrRange → Except Fault Bool} {P : AddrRange → Bool}

theorem lt_iff : r.lt r' ↔ r.start.toNat < r'.start.toNat ∨
    r.start.toNat = r'.start.toNat ∧ r.intlvMatch.toNat < r'.intlvMatch.toNat := by
  rw [AddrRange.lt]
  split_ifs with h
  · have hne : r.start.toNat ≠ r'.start.toNat := fun heq => h (BitVec.eq_of_toNat_eq heq)
    simp only [BitVec.lt_def, decide_eq_true_eq]
    omega
  · rw [ne_eq, not_not] at h
    simp only [h, BitVec.lt_def, decide_eq_true_eq, lt_irrefl, true_and, false_or]

theorem lt_trans' (h : r.lt r') (h' : r'.lt r'') : r.lt r'' := by
  rw [lt_iff] at h h' ⊢
  omega

theorem mergesWith_iff :
    r.mergesWith r' ↔ r'.start = r.start ∧ r'.end_ = r.end_ ∧ r'.masks = r.masks := by
  rw [AddrRange.mergesWith, decide_eq_true_eq]

theorem mergesWith_symm (h : r.mergesWith r') : r'.mergesWith r := by
  rw [mergesWith_iff] at h ⊢
  exact ⟨h.1.symm, h.2.1.symm, h.2.2.symm⟩

theorem mergesWith_trans (h : r.mergesWith r') (h' : r'.mergesWith r'') : r.mergesWith r'' := by
  rw [mergesWith_iff] at h h' ⊢
  exact ⟨h'.1.trans h.1, h'.2.1.trans h.2.1, h'.2.2.trans h.2.2⟩

def Sorted (tree : List (Node V)) : Prop := tree.Pairwise fun n n' => n.range.lt n'.range

theorem before_append_after (r : AddrRange) (tree : List (Node V)) :
    before r tree ++ after r tree = tree := takeWhile_append_dropWhile

theorem mem_before (h : n ∈ before r tree) : n ∈ tree ∧ ¬ r.lt n.range := by
  refine ⟨(takeWhile_sublist _).subset h, ?_⟩
  simpa using mem_takeWhile_imp h

theorem mem_after (hs : Sorted tree) (h : n ∈ after r tree) : n ∈ tree ∧ r.lt n.range := by
  refine ⟨(dropWhile_suffix _).subset h, ?_⟩
  induction tree with
  | nil => exact absurd h not_mem_nil
  | cons y tree ih =>
    obtain ⟨hy, hs⟩ := pairwise_cons.mp hs
    rw [after, dropWhile_cons] at h
    split_ifs at h with hlt
    · exact ih hs h
    · have hry : r.lt y.range := by simpa using hlt
      rcases mem_cons.mp h with rfl | hmem
      · exact hry
      · exact lt_trans' hry (hy n hmem)

theorem mem_before_or_after (r : AddrRange) (h : n ∈ tree) :
    n ∈ before r tree ∨ n ∈ after r tree := by
  rwa [← mem_append, before_append_after]

theorem pairwise_split {R : AddrRange → AddrRange → Prop} (r : AddrRange)
    (h : tree.Pairwise fun n n' => R n.range n'.range) :
    (before r tree).Pairwise (fun n n' => R n.range n'.range) ∧
      (after r tree).Pairwise (fun n n' => R n.range n'.range) ∧
      ∀ n ∈ before r tree, ∀ n' ∈ after r tree, R n.range n'.range := by
  rwa [← pairwise_append, before_append_after]

/-! ## Inserting in the order -/

theorem insertAt_perm : (before r tree ++ x :: after r tree).Perm (x :: tree) := by
  conv_rhs => rw [← before_append_after r tree]
  exact perm_middle

theorem mem_insertAt : n ∈ before r tree ++ x :: after r tree ↔ n = x ∨ n ∈ tree := by
  rw [insertAt_perm.mem_iff, mem_cons]

theorem pairwise_insertAt {R : AddrRange → AddrRange → Prop}
    (h : tree.Pairwise fun n n' => R n.range n'.range)
    (hbefore : ∀ n ∈ before r tree, R n.range x.range)
    (hafter : ∀ n ∈ after r tree, R x.range n.range) :
    (before r tree ++ x :: after r tree).Pairwise fun n n' => R n.range n'.range := by
  obtain ⟨hpre, hpost, hacross⟩ := pairwise_split r h
  refine pairwise_append.mpr ⟨hpre, pairwise_cons.mpr ⟨hafter, hpost⟩, ?_⟩
  intro n hn n' hn'
  rcases mem_cons.mp hn' with rfl | hn'
  · exact hbefore n hn
  · exact hacross n hn n' hn'

theorem nodup_insertAt (h : (tree.map Node.id).Nodup) (hx : ∀ n ∈ tree, n.id < x.id) :
    ((before r tree ++ x :: after r tree).map Node.id).Nodup := by
  rw [(insertAt_perm.map Node.id).nodup_iff, map_cons, nodup_cons]
  refine ⟨fun hmem => ?_, h⟩
  obtain ⟨n, hn, hid⟩ := mem_map.mp hmem
  exact absurd hid (hx n hn).ne

theorem insertTree_eq {m : AddrRangeMap V} {d : V}
    (h : ∀ n ∈ m.tree, r.lt n.range ∨ n.range.lt r) : m.insertTree r d =
      (⟨before r m.tree ++ ⟨m.fresh, r, d⟩ :: after r m.tree, m.cache, m.fresh + 1⟩, m.fresh) := by
  have hkey : m.tree.find? (fun n => !r.lt n.range && !n.range.lt r) = none := by
    refine List.find?_eq_none.mpr fun n hn => ?_
    rcases h n hn with hlt | hlt <;> simp [hlt]
  rw [AddrRangeMap.insertTree, hkey]

/-! ## The search -/

section Search

theorem walk_none (hcond : ∀ n ∈ l, cond n.range = .ok (P n.range))
    (hP : ∀ n ∈ l, P n.range = false) :
    walk cond l = .ok none := by
  induction l with
  | nil => rfl
  | cons i l ih =>
    have hi : cond i.range = .ok false := by
      rw [hcond i (by simp), hP i (by simp)]
    have hrest := ih (fun n hn => hcond n (by simp [hn])) (fun n hn => hP n (by simp [hn]))
    cases l with
    | nil =>
      rw [walk, hi]
      rfl
    | cons next l =>
      rw [walk, hi, ok_bind, if_neg Bool.false_ne_true, hrest]
      split_ifs <;> rfl

theorem walk_found (hcond : ∀ x ∈ pre ++ [n], cond x.range = .ok (P x.range)) (hn : P n.range)
    (hpre : ∀ x ∈ pre, P x.range = false ∧ n.range.mergesWith x.range) :
    walk cond (pre ++ n :: post) = .ok (some n.id) := by
  induction pre with
  | nil =>
    have hcn : cond n.range = .ok true := by
      rw [hcond n (by simp), hn]
    cases post with
    | nil =>
      rw [nil_append, walk, hcn]
      rfl
    | cons next post =>
      rw [nil_append, walk, hcn]
      rfl
  | cons i pre ih =>
    have hi : cond i.range = .ok false := by
      rw [hcond i (by simp), (hpre i (by simp)).1]
    have hrest := ih (fun x hx => hcond x (by simp at hx ⊢; tauto))
      (fun x hx => hpre x (by simp [hx]))
    -- The entry behind `i` is `n`, or merges with `n` as well.
    have hmerges : ∀ x ∈ (pre ++ n :: post).head?, x.range.mergesWith i.range := by
      intro x hx
      cases pre with
      | nil =>
        obtain rfl : n = x := by simpa using hx
        exact (hpre i (by simp)).2
      | cons y pre =>
        obtain rfl : y = x := by simpa using hx
        exact mergesWith_trans (mergesWith_symm (hpre y (by simp)).2) (hpre i (by simp)).2
    cases hl : pre ++ n :: post with
    | nil => simp at hl
    | cons next rest =>
      rw [hl] at hrest hmerges
      rw [cons_append, hl, walk, hi, ok_bind, if_neg Bool.false_ne_true,
        if_pos (hmerges next (by simp)), hrest]

variable (hcond : ∀ n ∈ tree, cond n.range = .ok (P n.range))
include hcond

theorem hcond_before : ∀ n ∈ (before r tree).reverse, cond n.range = .ok (P n.range) :=
  fun n hn => hcond n (mem_before (mem_reverse.mp hn)).1

theorem findTree_eq : findTree cond r tree =
    if ∃ n ∈ (after r tree).head?, P n.range then .ok ((after r tree).head?.map Node.id)
    else walk cond (before r tree).reverse := by
  rw [findTree]
  cases hafter : after r tree with
  | nil => simp
  | cons next l =>
    have hmem : next ∈ tree := (dropWhile_suffix _).subset (hafter ▸ mem_cons_self)
    dsimp only
    rw [hcond next hmem, ok_bind]
    cases hP : P next.range with
    | false => simp [hP]
    | true => simp [hP]

theorem findTree_none (hP : ∀ n ∈ tree, P n.range = false) : findTree cond r tree = .ok none := by
  rw [findTree_eq hcond, if_neg]
  · exact walk_none (hcond_before hcond) fun n hn => hP n (mem_before (mem_reverse.mp hn)).1
  · rintro ⟨n, hn, hPn⟩
    have hmem : n ∈ tree := (dropWhile_suffix _).subset (mem_of_mem_head? hn)
    rw [hP n hmem] at hPn
    exact Bool.false_ne_true hPn

theorem findTree_after (hafter : after r tree = n :: post) (hn : P n.range) :
    findTree cond r tree = .ok (some n.id) := by
  rw [findTree_eq hcond, hafter, if_pos ⟨n, rfl, hn⟩]
  rfl

theorem findTree_before (hafter : ∀ x ∈ (after r tree).head?, P x.range = false)
    (hbefore : before r tree = pre ++ n :: post) (hn : P n.range)
    (hpost : ∀ x ∈ post, P x.range = false ∧ n.range.mergesWith x.range) :
    findTree cond r tree = .ok (some n.id) := by
  have hwalk : walk cond (before r tree).reverse = .ok (some n.id) := by
    have hrev : (before r tree).reverse = post.reverse ++ n :: pre.reverse := by
      rw [hbefore]
      simp
    have hc := hcond_before (r := r) hcond
    rw [hrev] at hc ⊢
    refine walk_found (fun x hx => hc x ?_) hn fun x hx => hpost x (mem_reverse.mp hx)
    rw [append_cons]
    exact mem_append_left _ hx
  rw [findTree_eq hcond, if_neg, hwalk]
  rintro ⟨x, hx, hPx⟩
  rw [hafter x hx] at hPx
  exact Bool.false_ne_true hPx

end Search

end HetSim.Address
