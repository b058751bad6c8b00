import HetSim.Library.Halving
import HetSim.Memory.StackDist

/-!
# The tree of partial sums

Every node holds the number of live leaves under each child, and is deleted only when all leaves
under it have been added and removed. While a leaf changes, the sums above it are stale from some
layer on.
-/

namespace HetSim.StackDist
open Checked Halving Node HetSim.StackDist.Tree StackDistCalc StackDist Function Nat Bool

namespace Tree

theorem set_apply (t : Tree) (l j l' j' : ℕ) (node : Option Node) :
    t.set l j node l' j' = if l' = l ∧ j' = j then node else t l' j' := by
  simp only [set, update_apply]
  by_cases hl : l' = l
  · subst hl
    simp [update_apply]
  · simp [hl]

@[simp] theorem set_self (t : Tree) (l j : ℕ) (node : Option Node) : t.set l j node l j = node := by
  simp [set_apply]

variable {t : Tree} {l j i : ℕ} {node : Node}

theorem set_of_ne {l' j' : ℕ} {node : Option Node} (h : ¬ (l' = l ∧ j' = j)) :
    t.set l j node l' j' = t l' j' := by
  simp [set_apply, h]

@[simp] theorem set_layer {node : Option Node} :
    t.set (l + 1) j node 0 i = t 0 i := set_of_ne (by omega)

@[simp] theorem set_leaf {node : Option Node} :
    t.set 0 i node (l + 1) j = t (l + 1) j := set_of_ne (by omega)

@[simp] theorem get_eq_ok :
    t.get (l, j) = .ok node ↔ t l j = some node := demand_eq_ok

end Tree

section Invariant
variable (depth n : ℕ) (S : List ℕ) (stale : ℕ → ℕ → Prop)

structure NodeOk (l j : ℕ) (node : Node) : Prop where
  sumLeft : ¬ stale l (2 * j) → node.sumLeft = below S l (2 * j)
  sumRight : ¬ stale l (2 * j + 1) → node.sumRight = below S l (2 * j + 1)
  discardLeft : node.discardLeft = true → Spent n S l (2 * j)
  discardRight : node.discardRight = true → Spent n S l (2 * j + 1)
  nodeIndex : node.nodeIndex = j
  parent : node.parent = if l + 1 = depth then none else some (l + 2, j / 2)
  isLeftNode : node.isLeftNode = (j % 2 == 0)

structure Linked (nextIndex : ℕ → ℕ) (t : Tree) : Prop where
  node : ∀ {l j node}, t (l + 1) j = some node →
    l < depth ∧ j < nextIndex (l + 1) ∧ NodeOk depth n S stale l j node
  present : ∀ {l j}, l < depth → j < nextIndex (l + 1) → ¬ Spent n S (l + 1) j →
    ∃ node, t (l + 1) j = some node
  root : ∃ node, t depth 0 = some node
  leaf : ∀ {i leaf}, t 0 i = some leaf →
    leaf.parent = some (1, i / 2) ∧ leaf.isLeftNode = (i % 2 == 0)

end Invariant

variable {depth n : ℕ} {S : List ℕ} {stale : ℕ → ℕ → Prop} {nextIndex : ℕ → ℕ} {t : Tree}

def pending (x l k c : ℕ) : Prop := l ≤ k ∧ c = x / 2 ^ k

def fresh (_ _ : ℕ) : Prop := False

section Update
variable {x l j : ℕ}

theorem NodeOk.mono {stale' : ℕ → ℕ → Prop} (h : NodeOk depth n S stale l j node)
    (hl : stale l (2 * j) → stale' l (2 * j)) (hr : stale l (2 * j + 1) → stale' l (2 * j + 1)) :
    NodeOk depth n S stale' l j node :=
  { h with
    sumLeft := fun hs => h.sumLeft (mt hl hs)
    sumRight := fun hs => h.sumRight (mt hr hs) }

theorem NodeOk.update {discard : Bool}
    (h : NodeOk depth n S (pending x l) l (x / 2 ^ (l + 1)) node)
    (hdiscard : discard = true → Spent n S l (x / 2 ^ l)) :
    NodeOk depth n S (pending x (l + 1)) l (x / 2 ^ (l + 1))
      (node.update (x / 2 ^ l % 2 == 0) (below S l (x / 2 ^ l)) discard) := by
  have hj := div_pow_succ x l
  rcases mod_two_eq_zero_or_one (x / 2 ^ l) with hm | hm
  · have hc : x / 2 ^ l = 2 * (x / 2 ^ (l + 1)) := by omega
    refine ⟨?_, ?_, ?_, ?_, h.nodeIndex, h.parent, h.isLeftNode⟩
    · intro _
      simp [Node.update, hm, ← hc]
    · intro _
      have hs := h.sumRight (by rintro ⟨-, hs⟩; omega)
      simpa [Node.update, hm] using hs
    · intro hd
      simp only [Node.update, hm, or_eq_true, and_eq_true] at hd
      rcases hd with hd | ⟨⟨hd, -⟩, -⟩
      · exact h.discardLeft hd
      · rw [← hc]
        exact hdiscard hd
    · intro hd
      simp only [Node.update, hm, or_eq_true, and_eq_true] at hd
      rcases hd with hd | ⟨-, hd⟩
      · exact h.discardRight hd
      · exact absurd hd (by decide)
  · have hc : x / 2 ^ l = 2 * (x / 2 ^ (l + 1)) + 1 := by omega
    refine ⟨?_, ?_, ?_, ?_, h.nodeIndex, h.parent, h.isLeftNode⟩
    · intro _
      have hs := h.sumLeft (by rintro ⟨-, hs⟩; omega)
      simpa [Node.update, hm] using hs
    · intro _
      simp [Node.update, hm, ← hc]
    · intro hd
      simp only [Node.update, hm, or_eq_true, and_eq_true] at hd
      rcases hd with hd | ⟨-, hd⟩
      · exact h.discardLeft hd
      · exact absurd hd (by decide)
    · intro hd
      simp only [Node.update, hm, or_eq_true, and_eq_true] at hd
      rcases hd with hd | ⟨⟨hd, -⟩, -⟩
      · exact h.discardRight hd
      · rw [← hc]
        exact hdiscard hd

theorem NodeOk.passes {d : ℕ} (h : NodeOk depth n S stale l (x / 2 ^ (l + 1)) node)
    (hs : ¬ stale l (2 * (x / 2 ^ (l + 1)) + 1)) :
    (if x / 2 ^ l % 2 == 0 then d + node.sumRight else d) + above S
      (l + 1) x = d + above S l x := by
  rw [above_succ (l := l)]
  rcases mod_two_eq_zero_or_one (x / 2 ^ l) with hm | hm
  · have hc : x / 2 ^ l + 1 = 2 * (x / 2 ^ (l + 1)) + 1 := by rw [div_pow_succ]; omega
    rw [h.sumRight hs, ← hc]
    simp [hm, add_assoc]
  · simp [hm]

theorem Linked.update {o : Option Node} (h : Linked depth n S (pending x l) nextIndex t)
    (hl : l < depth) (hj : x / 2 ^ (l + 1) < nextIndex (l + 1))
    (hok : ∀ node, o = some node → NodeOk depth n S (pending x (l + 1)) l (x / 2 ^ (l + 1)) node)
    (hnew : o = none → Spent n S (l + 1) (x / 2 ^ (l + 1)) ∧ l + 1 ≠ depth) :
    Linked depth n S (pending x (l + 1)) nextIndex (t.set (l + 1) (x / 2 ^ (l + 1)) o) where
  node := by
    intro k j node hnode
    by_cases hkj : k + 1 = l + 1 ∧ j = x / 2 ^ (l + 1)
    · obtain ⟨hk, rfl⟩ := hkj
      obtain rfl : k = l := by omega
      rw [set_self] at hnode
      exact ⟨hl, hj, hok node hnode⟩
    · rw [set_of_ne hkj] at hnode
      obtain ⟨hk, hlt, hnode⟩ := h.node hnode
      refine ⟨hk, hlt, hnode.mono ?_ ?_⟩
      · rintro ⟨hle, hc⟩
        refine ⟨?_, hc⟩
        by_contra hlt
        obtain rfl : k = l := by omega
        exact hkj ⟨rfl, by rw [div_pow_succ]; omega⟩
      · rintro ⟨hle, hc⟩
        refine ⟨?_, hc⟩
        by_contra hlt
        obtain rfl : k = l := by omega
        exact hkj ⟨rfl, by rw [div_pow_succ]; omega⟩
  present := by
    intro k j hk hlt hspent
    by_cases hkj : k + 1 = l + 1 ∧ j = x / 2 ^ (l + 1)
    · obtain ⟨hkl, rfl⟩ := hkj
      obtain rfl : k = l := by omega
      cases o with
      | some node => exact ⟨node, set_self ..⟩
      | none => exact absurd (hnew rfl).1 hspent
    · rw [set_of_ne hkj]
      exact h.present hk hlt hspent
  root := by
    by_cases hkj : depth = l + 1 ∧ 0 = x / 2 ^ (l + 1)
    · cases o with
      | some node => exact ⟨node, by rw [hkj.1, hkj.2, set_self]⟩
      | none => exact absurd hkj.1.symm (hnew rfl).2
    · rw [set_of_ne hkj]
      exact h.root
  leaf := by
    intro i leaf hleaf
    rw [set_layer] at hleaf
    exact h.leaf hleaf

theorem Linked.finish (h : Linked depth n S (pending x depth) nextIndex t) :
    Linked depth n S fresh nextIndex t :=
  { h with
    node := by
      intro l j node hnode
      obtain ⟨hl, hj, hok⟩ := h.node hnode
      exact ⟨hl, hj, hok.mono (fun hp => absurd hp.1 (by omega)) fun hp => absurd hp.1 (by omega)⟩ }

theorem updateSum_spec (fuel dist : ℕ) (discard : Bool) (hfuel : depth ≤ l + fuel) (hl : l < depth)
    (h : Linked depth n S (pending x l) nextIndex t)
    (hpath : ∀ k, l ≤ k → k < depth → ∃ node, t (k + 1) (x / 2 ^ (k + 1)) = some node)
    (hdiscard : discard = true → Spent n S l (x / 2 ^ l)) (hS : ∀ i ∈ S, i < 2 ^ depth) :
    ∃ t', updateSum fuel t (l + 1, x / 2 ^ (l + 1)) (x / 2 ^ l % 2 == 0) (below S l (x / 2 ^ l)) l
        dist discard = .ok (dist + above S l x, t') ∧
      Linked depth n S fresh nextIndex t' ∧ ∀ i, t' 0 i = t 0 i := by
  induction fuel generalizing t l dist discard with
  | zero => exact absurd hfuel (by omega)
  | succ fuel ih =>
    obtain ⟨old, hold⟩ := hpath l le_rfl hl
    obtain ⟨-, hj, hok⟩ := h.node hold
    have hnode := hok.update hdiscard
    generalize hn : old.update (x / 2 ^ l % 2 == 0) (below S l (x / 2 ^ l)) discard = node at hnode
    have hdist := hnode.passes (d := dist) (by rintro ⟨hle, -⟩; omega)
    have hget : t.get (l + 1, x / 2 ^ (l + 1)) = .ok old := get_eq_ok.mpr hold
    simp only [updateSum, hget, hn, ok_bind]
    generalize hdel : (node.discardLeft && node.discardRight && discard && node.parent.isSome &&
      below S l (x / 2 ^ l) == 0) = delete
    have hspent : delete = true → Spent n S (l + 1) (x / 2 ^ (l + 1)) ∧ l + 1 ≠ depth := by
      rintro rfl
      simp only [and_eq_true] at hdel
      obtain ⟨⟨⟨⟨hdl, hdr⟩, -⟩, hp⟩, -⟩ := hdel
      refine ⟨spent_succ (hnode.discardLeft hdl) (hnode.discardRight hdr), fun hd => ?_⟩
      rw [hnode.parent, if_pos hd] at hp
      exact absurd hp (by decide)
    have htree : (if delete = true then
        (t.set (l + 1) (x / 2 ^ (l + 1)) none).set (l + 1) node.nodeIndex none
        else t.set (l + 1) (x / 2 ^ (l + 1)) (some node)) =
        t.set (l + 1) (x / 2 ^ (l + 1)) (if delete = true then none else some node) := by
      cases delete with
      | false => rfl
      | true =>
        rw [hnode.nodeIndex]
        simp only [if_true]
        funext k j
        rw [set_apply]
        split_ifs with hkj
        · rw [hkj.1, hkj.2, set_self]
        · rfl
    rw [htree]
    have hlinked := h.update (o := if delete = true then none else some node) hl hj
      (by rintro _ hs; cases delete <;> simp_all) (by intro hs; cases delete <;> simp_all)
    by_cases hd : l + 1 = depth
    · have hparent := hnode.parent
      rw [if_pos hd] at hparent
      rw [hparent]
      have hzero : above S (l + 1) x = 0 := above_eq_zero (by rwa [hd])
      refine ⟨_, by simp only [← hdist, hzero, add_zero]; rfl, ?_, fun i => set_layer⟩
      rw [hd] at hlinked ⊢
      exact hlinked.finish
    · have hparent := hnode.parent
      rw [if_neg hd, ← div_pow_succ] at hparent
      simp only [hparent]
      have hsums : node.sumLeft + node.sumRight = below S (l + 1) (x / 2 ^ (l + 1)) := by
        rw [below_succ, hnode.sumLeft (by rintro ⟨hle, -⟩; omega),
          hnode.sumRight (by rintro ⟨hle, -⟩; omega)]
      obtain ⟨t', ht', hlinked', hleaf⟩ := ih _ _ (l := l + 1) (by omega) (by omega) hlinked
        (fun k hk hkd => by
          rw [set_of_ne (by omega)]
          exact hpath k (by omega) hkd)
        fun hs => (hspent hs).1
      rw [hsums, hnode.isLeftNode, ht', hdist]
      exact ⟨t', rfl, hlinked', fun i => by rw [hleaf, set_layer]⟩

theorem getSum_spec (fuel dist : ℕ) (hfuel : depth ≤ l + fuel) (hl : l < depth)
    (h : Linked depth n S fresh nextIndex t)
    (hpath : ∀ k, k < depth → ∃ node, t (k + 1) (x / 2 ^ (k + 1)) = some node)
    (hS : ∀ i ∈ S, i < 2 ^ depth) :
    getSum t fuel (l + 1, x / 2 ^ (l + 1)) (x / 2 ^ l % 2 == 0) dist = .ok
      (dist + above S l x) := by
  induction fuel generalizing l dist with
  | zero => exact absurd hfuel (by omega)
  | succ fuel ih =>
    obtain ⟨node, hget⟩ := hpath l hl
    obtain ⟨-, -, hnode⟩ := h.node hget
    have hdist := hnode.passes (d := dist) id
    simp only [getSum, get_eq_ok.mpr hget, ok_bind]
    by_cases hd : l + 1 = depth
    · have hparent := hnode.parent
      rw [if_pos hd] at hparent
      have hzero : above S (l + 1) x = 0 := above_eq_zero (by rwa [hd])
      rw [hparent, ← hdist, hzero]
      rfl
    · have hparent := hnode.parent
      rw [if_neg hd, ← div_pow_succ] at hparent
      simp only [hparent]
      rw [hnode.isLeftNode, ih _ (by omega) (by omega), hdist]

end Update

section Growth
variable {Addr : Type} {c : StackDistCalc Addr} {l : ℕ}

structure Sized (c : StackDistCalc Addr) (m : ℕ) : Prop where
  pos : 0 < c.depth
  lt : m < 2 ^ c.depth
  le : c.depth = 1 ∨ 2 ^ (c.depth - 1) ≤ m
  nextIndex : ∀ {l}, l < c.depth → c.nextIndex (l + 1) = m / 2 ^ (l + 1) + 1

theorem Sized.congr {c' : StackDistCalc Addr} {m : ℕ} (h : Sized c m) (hdepth : c'.depth = c.depth)
    (hnext : ∀ l, c'.nextIndex (l + 1) = c.nextIndex (l + 1)) : Sized c' m where
  pos := hdepth ▸ h.pos
  lt := hdepth ▸ h.lt
  le := hdepth ▸ h.le
  nextIndex := by
    intro l hl
    rw [hnext]
    exact h.nextIndex (hdepth ▸ hl)

abbrev StackDistCalc.Linked (c : StackDistCalc Addr) (n : ℕ) (S : List ℕ) : Prop :=
  StackDist.Linked c.depth n S fresh c.nextIndex c.tree

theorem Sized.new : Sized (StackDistCalc.new : StackDistCalc Addr) 0 where
  pos := Nat.one_pos
  lt := Nat.two_pos
  le := Or.inl rfl
  nextIndex := by
    intro l hl
    simp [StackDistCalc.new]

theorem Linked.new : (StackDistCalc.new : StackDistCalc Addr).Linked 0 [] where
  node := by
    intro l j node hnode
    by_cases hlj : l + 1 = 1 ∧ j = 0
    · obtain ⟨hl, rfl⟩ := hlj
      obtain rfl : l = 0 := by omega
      obtain rfl : Node.new = node := by simpa [StackDistCalc.new] using hnode
      exact ⟨Nat.one_pos, Nat.one_pos, by constructor <;> simp [Node.new, below, StackDistCalc.new]⟩
    · simp [StackDistCalc.new, Tree.set_of_ne hlj] at hnode
  present := by
    intro l j hl hj _
    obtain rfl : l = 0 := by simpa [StackDistCalc.new] using hl
    obtain rfl : j = 0 := by simpa [StackDistCalc.new] using hj
    exact ⟨Node.new, by simp [StackDistCalc.new]⟩
  root := ⟨Node.new, by simp [StackDistCalc.new]⟩
  leaf := by
    intro i leaf hleaf
    simp [StackDistCalc.new] at hleaf

theorem div_eq_of_mod_ne {k : ℕ} (h : n % k ≠ 0) : (n - 1) / k = n / k := by
  cases n with
  | zero => rfl
  | succ n =>
    rw [Nat.succ_div, if_neg (fun hk => h (mod_eq_zero_of_dvd hk))]
    rfl

theorem div_succ_of_mod_eq {k : ℕ} (hn : 0 < n) (h : n % k = 0) : (n - 1) / k + 1 = n / k := by
  cases n with
  | zero => exact absurd hn (lt_irrefl 0)
  | succ n =>
    rw [Nat.succ_div, if_pos (dvd_of_mod_eq_zero h)]
    rfl

theorem NodeOk.fresh {ptr : Option (ℕ × ℕ)} (hS : ∀ i ∈ S, i < n)
    (hj : n = j * 2 ^ (l + 1))
    (hparent : ptr = if l + 1 = depth then none else some (l + 2, j / 2)) :
    NodeOk depth n S StackDist.fresh l j { Node.new with
      isLeftNode := j % 2 == 0, parent := ptr, nodeIndex := j } := by
  have hlt : ∀ i ∈ S, i / 2 ^ l < 2 * j := by
    intro i hi
    rw [Nat.div_lt_iff_lt_mul (by positivity)]
    calc i < n := hS i hi
      _ = 2 * j * 2 ^ l := by rw [hj, pow_succ]; ring
  refine ⟨fun _ => ?_, fun _ => ?_, nofun, nofun, rfl, hparent, rfl⟩
  · exact (below_eq_zero fun i hi => (hlt i hi).ne).symm
  · exact (below_eq_zero fun i hi => by have := hlt i hi; omega).symm

theorem Linked.addNode {node : Node} {j : ℕ} (h : Linked depth n S fresh nextIndex t)
    (hl : l + 1 < depth) (hat : nextIndex (l + 1) = j)
    (hnode : NodeOk depth n S fresh l j node) :
    Linked depth n S fresh (Function.update nextIndex (l + 1) (j + 1))
      (t.set (l + 1) j (some node)) where
  node := by
    intro k i node' hnode'
    by_cases hki : k + 1 = l + 1 ∧ i = j
    · obtain ⟨hk, rfl⟩ := hki
      obtain rfl : k = l := by omega
      rw [set_self, Option.some.injEq] at hnode'
      subst hnode'
      exact ⟨by omega, by simp, hnode⟩
    · rw [set_of_ne hki] at hnode'
      obtain ⟨hk, hi, hok⟩ := h.node hnode'
      refine ⟨hk, ?_, hok⟩
      rw [Function.update_apply]
      split_ifs with hkl
      · rw [hkl, hat] at hi
        omega
      · exact hi
  present := by
    intro k i hk hi hspent
    by_cases hki : k + 1 = l + 1 ∧ i = j
    · rw [hki.1, hki.2]
      exact ⟨_, set_self ..⟩
    · rw [set_of_ne hki]
      refine h.present hk ?_ hspent
      rw [Function.update_apply] at hi
      split_ifs at hi with hkl
      · rw [hkl, hat]
        omega
      · exact hi
  root := by
    rw [set_of_ne (by omega)]
    exact h.root
  leaf := by
    intro i leaf hleaf
    rw [set_layer] at hleaf
    exact h.leaf hleaf

theorem addINode_spec (h : c.Linked n S) (hl : l + 1 < c.depth) (hS : ∀ i ∈ S, i < n)
    (hup : c.nextIndex (l + 2) = n / 2 ^ (l + 2) + 1) (hmod : n % 2 ^ (l + 1) = 0)
    (hat : c.nextIndex (l + 1) = n / 2 ^ (l + 1)) :
    ∃ c', addINode c (l + 1) = .ok c' ∧ c'.Linked n S ∧ c'.depth = c.depth ∧ c'.index = c.index ∧
      c'.aiMap = c.aiMap ∧ c'.nextIndex = Function.update c.nextIndex (l + 1)
      (n / 2 ^ (l + 1) + 1) ∧
      ∀ i, c'.tree 0 i = c.tree 0 i := by
  obtain ⟨up, hget⟩ := h.present hl (by rw [hup]; exact lt_succ_self _) not_spent_end
  have hptr : (l + 1 + 1, c.nextIndex (l + 1 + 1) - 1) = (l + 2, n / 2 ^ (l + 2)) := by
    rw [hup, Nat.add_sub_cancel]
  have hparent : (some (l + 2, n / 2 ^ (l + 2)) : Option (ℕ × ℕ)) =
      if l + 1 = c.depth then none else some (l + 2, n / 2 ^ (l + 1) / 2) := by
    rw [if_neg (by omega), ← div_pow_succ]
  have hnew := NodeOk.fresh hS (Nat.div_mul_cancel (dvd_of_mod_eq_zero hmod)).symm hparent
  simp only [addINode, hptr, get_eq_ok.mpr hget, ok_bind, hat]
  exact ⟨_, rfl, h.addNode hl hat hnew, rfl, rfl, rfl, rfl, by simp⟩

def SizedFrom (c : StackDistCalc Addr) (n i : ℕ) : Prop :=
  ∀ l < c.depth, c.nextIndex (l + 1) = (if i < l + 1 then n else n - 1) / 2 ^ (l + 1) + 1

theorem addRequired_spec (h : c.Linked n S) (hi : i < c.depth) (hi31 : i < 31)
    (hindex : c.index = n) (hn : 0 < i → 0 < n) (hS : ∀ i ∈ S, i < n) (hsized : SizedFrom c n i) :
    ∃ c', addRequired i c = .ok c' ∧ c'.Linked n S ∧ c'.depth = c.depth ∧ c'.index = n ∧
      c'.aiMap = c.aiMap ∧ SizedFrom c' n 0 ∧ ∀ i, c'.tree 0 i = c.tree 0 i := by
  induction i generalizing c with
  | zero => exact ⟨c, rfl, h, rfl, hindex, rfl, hsized, fun _ => rfl⟩
  | succ i ih =>
    have hn := hn (succ_pos i)
    have hat := hsized i (by omega)
    rw [if_neg (lt_irrefl _)] at hat
    have hreq : (require (i + 1 < 31) Fault.undefinedShift : Except Fault Unit) = .ok ⟨⟩ :=
      if_pos hi31
    simp only [addRequired, hreq, ok_bind, hindex]
    by_cases hmod : n % 2 ^ (i + 1) = 0
    · rw [if_pos hmod]
      have hup := hsized (i + 1) hi
      rw [if_pos (lt_succ_self _)] at hup
      rw [div_succ_of_mod_eq hn hmod] at hat
      obtain ⟨c₁, h₁, hlinked, hdepth, hidx, hmap, hnext, htree⟩ :=
        addINode_spec h hi hS hup hmod hat
      rw [h₁, ok_bind]
      obtain ⟨c₂, h₂, hlinked₂, hdepth₂, hidx₂, hmap₂, hsized₂, htree₂⟩ := ih hlinked
        (by omega) (by omega) (hidx.trans hindex) (fun _ => hn) (by
          intro k hk
          rw [hdepth] at hk
          rw [hnext, update_apply]
          by_cases hki : k = i
          · rw [if_pos (by omega), if_pos (by omega), hki]
          · rw [if_neg (by omega), hsized k hk]
            refine congrArg (· / 2 ^ (k + 1) + 1) (if_congr ?_ rfl rfl)
            omega)
      exact ⟨c₂, h₂, hlinked₂, hdepth₂.trans hdepth, hidx₂, hmap₂.trans hmap, hsized₂,
        fun j => (htree₂ j).trans (htree j)⟩
    · rw [if_neg hmod]
      refine ih h (by omega) (by omega) hindex (fun _ => hn) fun k hk => ?_
      by_cases hki : k = i
      · rw [hki, hat, if_pos (lt_succ_self i), div_eq_of_mod_ne hmod]
      · rw [hsized k hk]
        refine congrArg (· / 2 ^ (k + 1) + 1) (if_congr ?_ rfl rfl)
        omega

theorem addChain_eq_addRequired (hi : i < 31) (h : ∀ k ≤ i, c.index % 2 ^ k = 0) :
    addChain i c = addRequired i c := by
  induction i generalizing c with
  | zero => rfl
  | succ i ih =>
    have hreq :
        (require (i + 1 < 31) Fault.undefinedShift : Except Fault Unit) = .ok ⟨⟩ := if_pos hi
    simp only [addChain, addRequired, hreq, ok_bind, if_pos (h (i + 1) le_rfl)]
    cases hc : addINode c (i + 1) with
    | error f => rfl
    | ok c' =>
      rw [ok_bind, ok_bind]
      have hindex : c'.index = c.index := by
        simp only [addINode, bind_eq_ok, pure_eq_ok] at hc
        obtain ⟨_, -, rfl⟩ := hc
        rfl
      exact ih (by omega) fun k hk => by rw [hindex]; exact h k (by omega)

theorem Linked.addRoot {d : ℕ} {old root : Node}
    (h : Linked (d + 1) n S fresh nextIndex t) (hone : nextIndex (d + 1) = 1)
    (hold : t (d + 1) 0 = some old) (hroot : NodeOk (d + 2) n S fresh (d + 1) 0 root) :
    Linked (d + 2) n S fresh (Function.update nextIndex (d + 2) 1)
      ((t.set (d + 2) 0 (some root)).set (d + 1) 0
        (some { old with parent := some (d + 2, 0) })) where
  node := by
    intro k j node hnode
    by_cases hkj : k + 1 = d + 1 ∧ j = 0
    · obtain ⟨hk, rfl⟩ := hkj
      obtain rfl : k = d := by omega
      rw [set_self, Option.some.injEq] at hnode
      subst hnode
      refine ⟨by omega, by simp [hone], { (h.node hold).2.2 with parent := ?_ }⟩
      rw [if_neg (by omega)]
    · rw [set_of_ne hkj] at hnode
      by_cases hkr : k + 1 = d + 2 ∧ j = 0
      · obtain ⟨hk, rfl⟩ := hkr
        obtain rfl : k = d + 1 := by omega
        rw [set_self, Option.some.injEq] at hnode
        subst hnode
        exact ⟨lt_succ_self _, by simp, hroot⟩
      · rw [set_of_ne hkr] at hnode
        obtain ⟨hk, hj, hok⟩ := h.node hnode
        -- the old root is the only node of its layer
        have hkd : k ≠ d := by
          rintro rfl
          rw [hone] at hj
          exact hkj ⟨rfl, by omega⟩
        refine ⟨by omega, ?_, { hok with parent := ?_ }⟩
        · rw [Function.update_of_ne (by omega)]
          exact hj
        · rw [hok.parent, if_neg (by omega), if_neg (by omega)]
  present := by
    intro k j hk hj hspent
    by_cases hkj : k + 1 = d + 1 ∧ j = 0
    · rw [hkj.1, hkj.2]
      exact ⟨_, set_self ..⟩
    · rw [set_of_ne hkj]
      by_cases hkr : k + 1 = d + 2 ∧ j = 0
      · rw [hkr.1, hkr.2]
        exact ⟨_, set_self ..⟩
      · rw [set_of_ne hkr]
        rw [Function.update_apply] at hj
        split_ifs at hj with hkd
        · exact absurd ⟨hkd, by omega⟩ hkr
        · exact h.present (by omega) hj hspent
  root := by
    rw [set_of_ne (by omega), set_self]
    exact ⟨_, rfl⟩
  leaf := by
    intro i leaf hleaf
    rw [set_layer, set_layer] at hleaf
    exact h.leaf hleaf

theorem addRoot_spec (h : c.Linked n S) (hpos : 0 < c.depth) (hn : n = 2 ^ c.depth)
    (hS : ∀ i ∈ S, i < n) (hone : c.nextIndex c.depth = 1) :
    ∃ c', addRoot c = .ok c' ∧ c'.Linked n S ∧ c'.depth = c.depth + 1 ∧ c'.index = c.index ∧
      c'.aiMap = c.aiMap ∧ c'.nextIndex = Function.update c.nextIndex (c.depth + 1) 1 ∧
      ∀ i, c'.tree 0 i = c.tree 0 i := by
  obtain ⟨old, hget⟩ := h.root
  obtain ⟨d, hd⟩ : ∃ d, c.depth = d + 1 := ⟨c.depth - 1, by omega⟩
  unfold StackDistCalc.Linked at h
  rw [hd] at h hget hone hn
  obtain ⟨-, -, hold⟩ := h.node hget
  simp only [addRoot, hd, get_eq_ok.mpr hget, ok_bind]
  refine ⟨_, rfl, h.addRoot hone hget ?_, rfl, rfl, rfl, rfl, by simp⟩
  refine ⟨fun _ => ?_, fun _ => ?_, ?_, nofun, rfl, (if_pos rfl).symm, rfl⟩
  · rw [below_succ, ← hold.sumLeft id, ← hold.sumRight id]
    exact Nat.add_comm ..
  · refine (below_eq_zero fun i hi => ?_).symm
    rw [div_eq_of_lt (hn ▸ hS i hi)]
    decide
  · intro hdis
    obtain ⟨hdl, hdr⟩ := Bool.and_eq_true_iff.mp hdis
    exact spent_succ (hold.discardLeft hdl) (hold.discardRight hdr)

theorem updateTree_spec (h : c.Linked c.index S) (hsized : Sized c (c.index - 1))
    (heven : c.index % 2 = 0) (hlt : c.index < 2 ^ 31) (hS : ∀ i ∈ S, i < c.index) :
    ∃ c', updateTree c = .ok c' ∧ c'.Linked c.index S ∧ Sized c' c.index ∧ c'.index = c.index ∧
      c'.aiMap = c.aiMap ∧ ∀ i, c'.tree 0 i = c.tree 0 i := by
  have hpos := hsized.pos
  have hle : c.index ≤ 2 ^ c.depth := by
    have := hsized.lt
    omega
  simp only [updateTree]
  by_cases hpower : Cache.isPowerOf2 c.index
  · -- the tree is full, and the index is the power of two it ends at
    have hindex : c.index = 2 ^ c.depth := by
      have hlog := Cache.isPowerOf2_eq hpower
      refine le_antisymm hle ?_
      rw [hlog]
      refine Nat.pow_le_pow_right (by decide) ?_
      have hpos' : 0 < c.index := by rw [hlog]; positivity
      rcases hsized.le with hone | hge
      · rw [hone]
        by_contra hzero
        rw [Nat.eq_zero_of_not_pos hzero] at hlog
        omega
      · have hlt : 2 ^ (c.depth - 1) < 2 ^ Nat.log2 c.index := by rw [← hlog]; omega
        have := (Nat.pow_lt_pow_iff_right (by decide)).mp hlt
        omega
    have h31 : c.depth < 31 := by
      rw [hindex] at hlt
      exact (Nat.pow_lt_pow_iff_right (by decide)).mp hlt
    have hone : c.nextIndex c.depth = 1 := by
      have hnext := hsized.nextIndex (l := c.depth - 1) (by omega)
      rw [Nat.sub_add_cancel hpos, div_eq_of_lt hsized.lt] at hnext
      exact hnext
    obtain ⟨c₁, h₁, hlinked, hdepth, hidx, hmap, hnext, htree⟩ :=
      addRoot_spec h hpos hindex hS hone
    rw [if_pos hpower, h₁, ok_bind, addChain_eq_addRequired (by omega) (by
      intro k hk
      rw [hidx, hindex]
      exact mod_eq_zero_of_dvd (Nat.pow_dvd_pow 2 (by omega)))]
    obtain ⟨c₂, h₂, hlinked₂, hdepth₂, hidx₂, hmap₂, hsized₂, htree₂⟩ :=
      addRequired_spec (i := c₁.depth - 1) hlinked (by omega) (by omega) hidx
        (fun _ => by rw [hindex]; positivity) hS (by
          intro l hl
          rw [hnext, update_apply]
          by_cases hld : l = c.depth
          · rw [if_pos (by omega), if_pos (by omega), hld, hindex,
              div_eq_of_lt (Nat.pow_lt_pow_right (by decide) (by omega))]
          · rw [if_neg (by omega), if_neg (by omega)]
            exact hsized.nextIndex (by omega))
    refine ⟨c₂, h₂, hlinked₂, ⟨by omega, ?_, Or.inr ?_, ?_⟩, hidx₂, hmap₂.trans hmap,
      fun i => (htree₂ i).trans (htree i)⟩
    · rw [hdepth₂, hdepth, hindex]
      exact Nat.pow_lt_pow_right (by decide) (by omega)
    · rw [hdepth₂, hdepth, hindex]
      exact le_rfl
    · intro l hl
      rw [hsized₂ l hl, if_pos (succ_pos l)]
  · have hne : c.index ≠ 2 ^ c.depth := by
      intro hindex
      refine hpower (decide_eq_true ⟨by rw [hindex]; positivity, ?_⟩)
      rw [and_sub_one_eq_zero_iff_isPowerOfTwo (by rw [hindex]; positivity)]
      exact ⟨c.depth, hindex⟩
    have h31 : c.depth - 1 < 31 := by
      rcases hsized.le with hone | hge
      · omega
      · refine (Nat.pow_lt_pow_iff_right (a := 2) (by decide)).mp ?_
        omega
    have hn : 0 < c.depth - 1 → 0 < c.index := by
      intro hd
      rcases hsized.le with hone | hge
      · omega
      · have : 0 < 2 ^ (c.depth - 1) := by positivity
        omega
    rw [if_neg hpower]
    obtain ⟨c₂, h₂, hlinked₂, hdepth₂, hidx₂, hmap₂, hsized₂, htree₂⟩ :=
      addRequired_spec (i := c.depth - 1) h (by omega) h31 rfl hn hS (by
          intro l hl
          rw [hsized.nextIndex hl]
          by_cases hld : l + 1 = c.depth
          · rw [if_pos (by omega), hld, div_eq_of_lt hsized.lt, div_eq_of_lt (by omega)]
          · rw [if_neg (by omega)])
    refine ⟨c₂, h₂, hlinked₂, ⟨by omega, ?_, ?_, ?_⟩, hidx₂, hmap₂, htree₂⟩
    · rw [hdepth₂]
      omega
    · rw [hdepth₂]
      rcases hsized.le with hone | hge
      · exact Or.inl hone
      · exact Or.inr (by omega)
    · intro l hl
      rw [hsized₂ l hl, if_pos (succ_pos l)]

end Growth

end HetSim.StackDist
