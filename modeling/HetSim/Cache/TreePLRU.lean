import HetSim.Library.Runs

/-!
# Tree pseudo-LRU replacement

With the indices shifted by one, the ancestors of a leaf are its quotients by powers of two. A
touch turns all ancestors away from its leaf, and towards another leaf only the one where the
two ways part.
-/

namespace HetSim.Cache
open Checked Runs Finset Function

/-- `std::floor` of an integral quotient. -/
def parentIndex (index : ℕ) : ℕ := (index - 1) / 2

def leftSubtreeIndex (index : ℕ) : ℕ := 2 * index + 1

def rightSubtreeIndex (index : ℕ) : ℕ := 2 * index + 2

def isRightSubtree (index : ℕ) : Bool := index % 2 = 0

abbrev PLRUTree := ℕ → Bool

inductive PLRUFault
  | outOfRange -- std::vector::at

namespace TreePLRURP

/-- The loop of `invalidate` and `touch`. -/
def parse (size : ℕ) (bit : Bool → Bool) (tree : PLRUTree) (treeIndex : ℕ) :
    Except PLRUFault PLRUTree := do
  require (parentIndex treeIndex < size) .outOfRange
  let tree := Function.update tree (parentIndex treeIndex) (bit (isRightSubtree treeIndex))
  if parentIndex treeIndex ≠ 0 then parse size bit tree (parentIndex treeIndex) else return tree
termination_by treeIndex
decreasing_by simp only [parentIndex] at *; omega

/-- The loop of `getVictim`. -/
def walk (size : ℕ) (tree : PLRUTree) (treeIndex : ℕ) : ℕ :=
  if treeIndex < size then
    walk size tree
      (if tree treeIndex then rightSubtreeIndex treeIndex else leftSubtreeIndex treeIndex)
  else treeIndex
termination_by size - treeIndex
decreasing_by simp only [rightSubtreeIndex, leftSubtreeIndex]; split <;> omega

variable (numLeaves : ℕ)

/-- The index that `instantiateEntry` gives to an entry of one tree. -/
def index (leaf : Fin numLeaves) : ℕ := leaf + numLeaves - 1

def invalidate (tree : PLRUTree) (leaf : Fin numLeaves) : Except PLRUFault PLRUTree :=
  parse (numLeaves - 1) (fun right => right) tree (index numLeaves leaf)

def touch (tree : PLRUTree) (leaf : Fin numLeaves) : Except PLRUFault PLRUTree :=
  parse (numLeaves - 1) (fun right => !right) tree (index numLeaves leaf)

/-- The number of the candidate. -/
def getVictim (tree : PLRUTree) : ℕ := walk (numLeaves - 1) tree 0 - (numLeaves - 1)

inductive Call
  | touch (leaf : Fin numLeaves)
  | reset (leaf : Fin numLeaves)
  | invalidate (leaf : Fin numLeaves)

/-- `reset` has the same functionality of a touch. -/
def call (tree : PLRUTree) : Call numLeaves → Except PLRUFault PLRUTree
  | .touch leaf | .reset leaf => touch numLeaves tree leaf
  | .invalidate leaf => invalidate numLeaves tree leaf

variable {numLeaves} {k x y i j : ℕ} {s t : PLRUTree} {bit : Bool → Bool}

/-- The ancestor of `x` above the level `i` points to its side. -/
def Points (tree : PLRUTree) (x i : ℕ) : Prop := tree (x / 2 ^ (i + 1) - 1) = x.testBit i

instance : DecidablePred (Points s x) := fun _ => inferInstanceAs (Decidable (_ = _))

structure Parsed (bit : Bool → Bool) (k x : ℕ) (s t : PLRUTree) : Prop where
  path : ∀ i < k, t (x / 2 ^ (i + 1) - 1) = bit (x.testBit i)
  other : ∀ m, (∀ i < k, m ≠ x / 2 ^ (i + 1) - 1) → t m = s m

theorem parse_step {size : ℕ} (hx : 2 ≤ x) (hsize : x / 2 ≤ size) : parse size bit s (x - 1) =
    if x / 2 - 1 ≠ 0 then
      parse size bit (update s (x / 2 - 1) (bit (x.testBit 0))) (x / 2 - 1)
    else .ok (update s (x / 2 - 1) (bit (x.testBit 0))) := by
  have hparent : parentIndex (x - 1) = x / 2 - 1 := by
    rw [parentIndex]
    omega
  have hright : isRightSubtree (x - 1) = x.testBit 0 := by
    rw [isRightSubtree, Nat.testBit_zero, decide_eq_decide]
    omega
  rw [parse, hparent, hright, require, if_pos (by omega)]
  rfl

theorem parse_spec {size : ℕ} (hx : 2 ^ (k + 1) ≤ x) (hx' : x < 2 ^ (k + 2))
    (hsize : x / 2 ≤ size) : ∃ t, parse size bit s (x - 1) = .ok t ∧ Parsed bit (k + 1) x s t := by
  have hpow : 1 ≤ 2 ^ k := Nat.one_le_two_pow
  rw [parse_step (by omega) hsize]
  induction k generalizing x s with
  | zero =>
    refine ⟨_, if_neg (by omega), fun i hi => ?_,
      fun m hm => update_of_ne (by simpa using hm 0) ..⟩
    obtain rfl : i = 0 := by omega
    rw [zero_add, pow_one, update_self]
  | succ k ih =>
    have hpow' : 1 ≤ 2 ^ k := Nat.one_le_two_pow
    have hlt : x / 2 < 2 ^ (k + 2) := by rw [pow_succ] at hx'; omega
    have hhalf (i : ℕ) : x / 2 ^ (i + 2) = x / 2 / 2 ^ (i + 1) := by
      rw [Nat.div_div_eq_div_mul, ← pow_succ']
    obtain ⟨t, ht, hparsed⟩ := ih (x := x / 2)
      (s := update s (x / 2 - 1) (bit (x.testBit 0))) (by omega) hlt (by omega) hpow'
    rw [if_pos (by omega), parse_step (by omega) (by omega)]
    refine ⟨t, ht, fun i hi => ?_, fun m hm => ?_⟩
    · cases i with
      | zero =>
        rw [zero_add, pow_one, hparsed.other, update_self]
        intro i _
        have hlt : x / 2 / 2 ^ (i + 1) < x / 2 := Nat.div_lt_self (by omega) (by simp)
        omega
      | succ i => rw [hhalf, hparsed.path i (by omega), Nat.testBit_succ]
    · rw [hparsed.other m fun i hi => hhalf i ▸ hm (i + 1) (by omega)]
      exact update_of_ne (by simpa using hm 0) ..

theorem walk_spec {d n : ℕ} (hd : d + j = k) (hn : 2 ^ d ≤ n) (hn' : n < 2 ^ (d + 1)) :
    ∃ x, walk (2 ^ k - 1) s (n - 1) = x - 1 ∧ x / 2 ^ j = n ∧ ∀ i < j, Points s x i := by
  have hpos : 1 ≤ n := Nat.one_le_two_pow.trans hn
  induction j generalizing d n with
  | zero =>
    obtain rfl : d = k := hd
    rw [walk, if_neg (by omega)]
    exact ⟨n, rfl, by simp, nofun⟩
  | succ j ih =>
    have hle : 2 ^ (d + 1) ≤ 2 ^ k := Nat.pow_le_pow_right two_pos (by omega)
    have hnext : (if s (n - 1) then rightSubtreeIndex (n - 1) else leftSubtreeIndex (n - 1)) =
        2 * n + (s (n - 1)).toNat - 1 := by
      cases s (n - 1) <;> simp [rightSubtreeIndex, leftSubtreeIndex] <;> omega
    have hbit := Bool.toNat_lt (s (n - 1))
    rw [walk, if_pos (by omega), hnext]
    obtain ⟨x, hwalk, hx, hpoints⟩ := ih (d := d + 1) (n := 2 * n + (s (n - 1)).toNat) (by omega)
      (by rw [pow_succ]; omega) (by rw [pow_succ]; omega) (by omega)
    have hn : x / 2 ^ (j + 1) = n := by
      rw [pow_succ, ← Nat.div_div_eq_div_mul, hx]
      omega
    refine ⟨x, hwalk, hn, fun i hi => ?_⟩
    rcases Nat.lt_succ_iff_lt_or_eq.mp hi with hi | rfl
    · exact hpoints i hi
    · rw [Points, hn, Nat.testBit_eq_decide_div_mod_eq, hx]
      cases s (n - 1) <;> simp

/-- One leaf only is pointed to all the way. -/
theorem eq_of_points (h : x / 2 ^ k = y / 2 ^ k) (hx : ∀ i < k, Points s x i)
    (hy : ∀ i < k, Points s y i) : x = y := by
  induction k with
  | zero => simpa using h
  | succ k ih =>
    have hbit : x.testBit k = y.testBit k := by
      rw [← hx k k.lt_succ_self, ← hy k k.lt_succ_self, h]
    rw [Nat.testBit_eq_decide_div_mod_eq, Nat.testBit_eq_decide_div_mod_eq,
      decide_eq_decide] at hbit
    rw [pow_succ, ← Nat.div_div_eq_div_mul, ← Nat.div_div_eq_div_mul] at h
    exact ih (by omega) (fun i hi => hx i (by omega)) fun i hi => hy i (by omega)

def Leaf (k x : ℕ) : Prop := 2 ^ k ≤ x ∧ x < 2 ^ (k + 1)

theorem ancestor_inj (hx : Leaf k x) (hy : Leaf k y) (hi : i < k) (hj : j < k)
    (h : x / 2 ^ (i + 1) - 1 = y / 2 ^ (j + 1) - 1) :
    i = j ∧ x / 2 ^ (i + 1) = y / 2 ^ (j + 1) := by
  have hpos {z l : ℕ} (hz : Leaf k z) (hl : l < k) : 1 ≤ z / 2 ^ (l + 1) :=
    (Nat.one_le_div_iff (by positivity)).mpr ((Nat.pow_le_pow_right two_pos hl).trans hz.1)
  have hlog {z l : ℕ} (hz : Leaf k z) : Nat.log 2 (z / 2 ^ l) = k - l := by
    rw [Nat.log_div_base_pow, Nat.log_eq_of_pow_le_of_lt_pow hz.1 hz.2]
  have heq : x / 2 ^ (i + 1) = y / 2 ^ (j + 1) := by
    have := hpos hx hi
    have := hpos hy hj
    omega
  have hlevel := hlog (l := i + 1) hx
  rw [heq, hlog hy] at hlevel
  exact ⟨by omega, heq⟩

theorem testBit_congr (h : x / 2 ^ (i + 1) = y / 2 ^ (i + 1)) (hij : i < j) :
    x.testBit j = y.testBit j := by
  obtain ⟨m, rfl⟩ := Nat.exists_eq_add_of_le' (Nat.succ_le_of_lt hij)
  rw [← Nat.testBit_div_two_pow, h, Nat.testBit_div_two_pow]

def pointers (s : PLRUTree) (k x : ℕ) : Finset ℕ := (range k).filter (Points s x)

theorem pointers_self (h : Parsed (fun right => !right) k x s t) : pointers t k x = ∅ := by
  rw [pointers, filter_eq_empty_iff]
  intro i hi hpoints
  rw [Points, h.path i (mem_range.mp hi)] at hpoints
  exact absurd hpoints (by simp)

theorem card_pointers (h : Parsed (fun right => !right) k y s t) (hx : Leaf k x) (hy : Leaf k y) :
    (pointers t k x).card ≤ (pointers s k x).card + 1 := by
  -- a node newly turned towards `x` is where the ways of `x` and `y` part
  have hparts {i : ℕ} (hi : i ∈ pointers t k x \ pointers s k x) :
      x / 2 ^ (i + 1) = y / 2 ^ (i + 1) ∧ x.testBit i ≠ y.testBit i := by
    simp only [pointers, mem_sdiff, mem_filter, mem_range, not_and] at hi
    obtain ⟨⟨hik, hnew⟩, hold⟩ := hi
    by_cases hpath : ∃ j < k, x / 2 ^ (i + 1) - 1 = y / 2 ^ (j + 1) - 1
    · obtain ⟨j, hj, heq⟩ := hpath
      obtain ⟨rfl, hsame⟩ := ancestor_inj hx hy hik hj heq
      rw [Points, hsame, h.path i hik] at hnew
      exact ⟨hsame, fun hbit => by simp [hbit] at hnew⟩
    · push Not at hpath
      rw [Points, h.other _ hpath] at hnew
      exact absurd hnew (hold hik)
  have hone : (pointers t k x \ pointers s k x).card ≤ 1 := by
    rw [card_le_one_iff]
    intro i j hi hj
    rcases lt_trichotomy i j with hlt | heq | hlt
    · exact absurd (testBit_congr (hparts hi).1 hlt) (hparts hj).2
    · exact heq
    · exact absurd (testBit_congr (hparts hj).1 hlt) (hparts hi).2
  have := card_le_card_sdiff_add_card (s := pointers t k x) (t := pointers s k x)
  omega

theorem leaf_add (leaf : Fin (2 ^ k)) : Leaf k (leaf + 2 ^ k) :=
  ⟨Nat.le_add_left .., by rw [pow_succ]; omega⟩

theorem getVictim_spec (k : ℕ) (tree : PLRUTree) : ∃ leaf : Fin (2 ^ k),
    getVictim (2 ^ k) tree = leaf ∧
      ∀ x : Fin (2 ^ k), leaf = x ↔ ∀ i < k, Points tree (x + 2 ^ k) i := by
  obtain ⟨x, hwalk, hx, hpoints⟩ := walk_spec (s := tree) (Nat.zero_add k) le_rfl (by simp)
  have hdiv := Nat.div_add_mod' x (2 ^ k)
  rw [hx, pow_zero, one_mul, add_comm] at hdiv
  refine ⟨⟨x % 2 ^ k, Nat.mod_lt _ (Nat.two_pow_pos k)⟩, ?_, fun z => ⟨?_, fun hz => Fin.ext ?_⟩⟩
  · rw [getVictim, show walk (2 ^ k - 1) tree 0 = x - 1 from hwalk]
    have := Nat.two_pow_pos k
    dsimp only
    omega
  · rintro rfl
    rwa [hdiv]
  · have hroot : (z + 2 ^ k : ℕ) / 2 ^ k = 1 := by
      rw [Nat.add_div_right _ (Nat.two_pow_pos k), Nat.div_eq_of_lt z.isLt]
    have := eq_of_points (hx.trans hroot.symm) hpoints hz
    dsimp only
    omega

theorem parse_index (bit : Bool → Bool) (tree : PLRUTree) (leaf : Fin (2 ^ (k + 1))) :
    ∃ t, parse (2 ^ (k + 1) - 1) bit tree (index (2 ^ (k + 1)) leaf) = .ok t ∧
      Parsed bit (k + 1) (leaf + 2 ^ (k + 1)) tree t := by
  obtain ⟨hle, hlt⟩ := leaf_add leaf
  exact parse_spec hle hlt (by omega)

/-- The calls that are left touch other leaves, and not enough of them to turn all pointers on the
way to the leaf. -/
def Shielded (leaf : Fin (2 ^ (k + 1))) (n : ℕ) (rest : List (Call (2 ^ (k + 1))))
    (s : PLRUTree) : Prop :=
  (∀ c ∈ rest, ∃ other, other ≠ leaf ∧ (c = .touch other ∨ c = .reset other)) ∧
    (pointers s (k + 1) (leaf + 2 ^ (k + 1))).card + rest.length ≤ n

/-- For every tree with `2 ^ (k + 1)` leaves: a leaf that has been touched is no victim before
`k + 1` touches of other leaves. -/
theorem treePLRU_protects (k : ℕ) (calls : List (Call (2 ^ (k + 1)))) :
    ∃ tree, run (call _) (fun _ => false) calls = .ok tree ∧
      getVictim (2 ^ (k + 1)) tree < 2 ^ (k + 1) ∧ ∀ leaf : Fin (2 ^ (k + 1)),
        (∃ t, invalidate _ tree leaf = .ok t ∧ getVictim (2 ^ (k + 1)) t = leaf) ∧
        ∀ later : List (Call (2 ^ (k + 1))),
          (∀ c ∈ later, ∃ other, other ≠ leaf ∧ (c = .touch other ∨ c = .reset other)) →
          later.length < k + 1 → ∃ t, run (call _) tree (.touch leaf :: later) = .ok t ∧
            getVictim (2 ^ (k + 1)) t ≠ leaf := by
  obtain ⟨tree, htree, -⟩ : ∃ tree, run (call _) (fun _ => false) calls = .ok tree ∧ True :=
    run_consumes (P := fun _ _ => True) (fun {s c _} _ => by
      cases c <;> exact (parse_index _ s _).imp fun t ht => ⟨ht.1, trivial⟩) trivial
  refine ⟨tree, htree, ?_, fun leaf => ⟨?_, fun later hlater hlength => ?_⟩⟩
  · obtain ⟨victim, hvictim, -⟩ := getVictim_spec (k + 1) tree
    rw [hvictim]
    exact victim.isLt
  · obtain ⟨t, ht, hparsed⟩ := parse_index (fun right => right) tree leaf
    obtain ⟨victim, hvictim, hpoints⟩ := getVictim_spec (k + 1) t
    exact ⟨t, ht, by rw [hvictim, (hpoints leaf).mpr hparsed.path]⟩
  · obtain ⟨t, ht, hparsed⟩ := parse_index (fun right => !right) tree leaf
    have hkeep {s c rest} (h : Shielded leaf later.length (c :: rest) s) :
        ∃ s', call _ s c = .ok s' ∧ Shielded leaf later.length rest s' := by
      obtain ⟨hothers, hcard⟩ := h
      obtain ⟨other, -, hc⟩ := hothers c List.mem_cons_self
      obtain ⟨s', hs', hparsed⟩ := parse_index (fun right => !right) s other
      have hnext := card_pointers hparsed (leaf_add leaf) (leaf_add other)
      rw [List.length_cons] at hcard
      refine ⟨s', ?_, fun c hc => hothers c (List.mem_cons_of_mem _ hc), by omega⟩
      rcases hc with rfl | rfl <;> exact hs'
    have hstart : Shielded leaf later.length later t :=
      ⟨hlater, by rw [pointers_self hparsed, card_empty, zero_add]⟩
    obtain ⟨t', ht', -, hcard⟩ := run_consumes hkeep hstart
    refine ⟨t', by rw [run_cons, call, touch, ht]; exact ht', fun hvictim => ?_⟩
    obtain ⟨victim, hvictim', hpoints⟩ := getVictim_spec (k + 1) t'
    rw [hvictim', Fin.val_inj, hpoints] at hvictim
    rw [pointers, filter_true_of_mem fun i hi => hvictim i (mem_range.mp hi), card_range] at hcard
    omega

end TreePLRURP

end HetSim.Cache
