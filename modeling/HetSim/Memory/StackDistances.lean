import HetSim.Memory.StackTree

/-!
# The tree computes the naive stack distances

Leaf indices fall along the naive stack, so the position of an entry is the number of live leaves
to the right of its own.
-/

namespace HetSim.StackDist
open Checked Halving List Stack HetSim.StackDist.Tree Function

variable {Addr : Type}

structure Entry (Addr : Type) where
  address : Addr
  index : ℕ
  mark : Bool

def indices (es : List (Entry Addr)) : List ℕ := es.map Entry.index

def view (es : List (Entry Addr)) : Stack Addr := es.map fun e => (e.address, e.mark)

def Falling (es : List (Entry Addr)) : Prop :=
  es.Pairwise fun e f => f.index < e.index ∧ e.address ≠ f.address

section Entries
variable {es : List (Entry Addr)} {e f : Entry Addr}

theorem Falling.apart (h : Falling es) (he : e ∈ es) (hf : f ∈ es) (hne : e ≠ f) :
    e.index ≠ f.index ∧ e.address ≠ f.address := by
  have hi : (es.map Entry.index).Nodup := pairwise_map.mpr (h.imp fun hlt => hlt.1.ne')
  have ha : (es.map Entry.address).Nodup := pairwise_map.mpr (h.imp And.right)
  exact ⟨mt (inj_on_of_nodup_map hi he hf) hne, mt (inj_on_of_nodup_map ha he hf) hne⟩

theorem Falling.index_ne_iff (h : Falling es) (he : e ∈ es) (hf : f ∈ es) :
    f.index ≠ e.index ↔ f.address ≠ e.address := by
  by_cases hfe : f = e
  · simp [hfe]
  · obtain ⟨hi, ha⟩ := h.apart hf he hfe
    exact iff_of_true hi ha

variable [DecidableEq Addr]

theorem position_of_mem (h : Falling es) (he : e ∈ es) :
    position e.address (view es) = some (above (indices es) 0 e.index, e.mark) := by
  induction es with
  | nil => exact absurd he not_mem_nil
  | cons f es ih =>
    obtain ⟨hf, hes⟩ := pairwise_cons.mp h
    rcases mem_cons.mp he with rfl | he
    · have hzero : above (indices (e :: es)) 0 e.index = 0 := by
        refine countP_eq_zero.mpr fun i hi => ?_
        rcases mem_cons.mp hi with rfl | hi
        · simp
        · obtain ⟨g, hg, rfl⟩ := mem_map.mp hi
          have := (hf g hg).1
          simp
          omega
      simp [view, position, hzero]
    · have hadd : above (indices (f :: es)) 0 e.index = above (indices es) 0 e.index + 1 :=
        countP_cons_of_pos (by simpa using (hf e he).1)
      have hne : f.address ≠ e.address := (hf e he).2
      have hpos := ih hes he
      simp only [view] at hpos
      simp [view, position, hne, hpos, hadd]

variable {a : Addr} {i : ℕ} {stale : ℕ → ℕ → Prop} {c : StackDistCalc Addr} {es : List (Entry Addr)}

theorem position_of_absent (h : ∀ e ∈ es, e.address ≠ a) : position a (view es) = none := by
  induction es with
  | nil => rfl
  | cons f es ih =>
    have hpos := ih fun e he => h e (mem_cons_of_mem _ he)
    simp only [view] at hpos
    simp [view, position, h f mem_cons_self, hpos]

def without (es : List (Entry Addr)) (a : Addr) : List (Entry Addr) :=
  es.filter fun e => e.address ≠ a

theorem without_of_absent (h : ∀ e ∈ es, e.address ≠ a) : without es a = es :=
  filter_eq_self.mpr fun e he => decide_eq_true (h e he)

theorem view_without (a : Addr) : view (without es a) = (view es).filter fun e => e.1 ≠ a := by
  simp only [view, without, filter_map]
  rfl

theorem indices_without (h : Falling es) (he : e ∈ es) :
    indices (without es e.address) = (indices es).filter (· ≠ e.index) := by
  simp only [indices, without, filter_map]
  refine congrArg (List.map Entry.index) (filter_congr fun f hf => ?_)
  exact decide_eq_decide.mpr (h.index_ne_iff he hf).symm

end Entries

structure Tracks (c : StackDistCalc Addr) (es : List (Entry Addr)) : Prop where
  sized : Sized c (c.index - 1)
  linked : c.Linked c.index (indices es)
  falling : Falling es
  lt : ∀ e ∈ es, e.index < c.index
  mapped : ∀ a i, c.aiMap a = some i ↔ ∃ e ∈ es, e.address = a ∧ e.index = i
  leaf : ∀ e ∈ es, ∃ leaf, c.tree 0 e.index = some leaf ∧ leaf.isMarked = e.mark

section Lookup
variable {c : StackDistCalc Addr} {es : List (Entry Addr)} {e : Entry Addr} {x : ℕ}

theorem Tracks.absent (h : Tracks c es) (hmap : c.aiMap a = none) : ∀ e ∈ es, e.address ≠ a := by
  intro e he ha
  have hsome := (h.mapped a e.index).mpr ⟨e, he, ha, rfl⟩
  rw [hmap] at hsome
  exact absurd hsome nofun

theorem Tracks.indices_lt (h : Tracks c es) : ∀ i ∈ indices es, i < c.index := by
  intro i hi
  obtain ⟨e, he, rfl⟩ := mem_map.mp hi
  exact h.lt e he

theorem lt_pow_of_lt {m n d : ℕ} (h : m < 2 ^ d) (hm : n - 1 ≤ m) (hi : i < n) : i < 2 ^ d := by
  omega

theorem Tracks.path (h : Tracks c es) (he : e ∈ es) {k : ℕ} (hk : k < c.depth) :
    ∃ node, c.tree (k + 1) (e.index / 2 ^ (k + 1)) = some node := by
  refine h.linked.present hk ?_ (not_spent_of_mem (mem_map_of_mem he))
  rw [h.sized.nextIndex hk, Nat.lt_succ_iff]
  exact Nat.div_le_div_right (by have := h.lt e he; omega)

end Lookup

section Remove
variable {c : StackDistCalc Addr} {es : List (Entry Addr)} {e : Entry Addr}
  {depth n x : ℕ} {S : List ℕ} {nextIndex : ℕ → ℕ} {t : Tree}

/-- Where one index comes or goes, only the sums above it are stale. -/
theorem Linked.stale_at {n' : ℕ} {S' : List ℕ} (h : Linked depth n S fresh nextIndex t)
    (hbelow : ∀ {l j}, x / 2 ^ l ≠ j → below S' l j = below S l j)
    (hspent : ∀ {l j}, Spent n S l j → Spent n' S' l j) :
    Linked depth n' S' (pending x 0) nextIndex t where
  node := by
    intro l j node hnode
    obtain ⟨hl, hj, hok⟩ := h.node hnode
    refine ⟨hl, hj, { hok with
      sumLeft := fun hs => ?_, sumRight := fun hs => ?_
      discardLeft := fun hd => hspent (hok.discardLeft hd)
      discardRight := fun hd => hspent (hok.discardRight hd) }⟩
    · rw [hbelow fun hx => hs ⟨Nat.zero_le _, hx.symm⟩]
      exact hok.sumLeft id
    · rw [hbelow fun hx => hs ⟨Nat.zero_le _, hx.symm⟩]
      exact hok.sumRight id
  present := fun hl hj hs => h.present hl hj fun hspent' => hs (hspent hspent')
  root := h.root
  leaf := h.leaf

theorem Linked.setLeaf {o : Option Node}
    (h : Linked depth n S stale nextIndex t) (hpos : 0 < depth)
    (ho : ∀ leaf, o = some leaf → leaf.parent = some (1, i / 2) ∧ leaf.isLeftNode = (i % 2 == 0)) :
    Linked depth n S stale nextIndex (t.set 0 i o) where
  node := by
    intro l j node hnode
    rw [set_leaf] at hnode
    exact h.node hnode
  present := by
    intro l j hl hj hs
    rw [set_leaf]
    exact h.present hl hj hs
  root := by
    rw [set_of_ne (by omega)]
    exact h.root
  leaf := by
    intro k leaf hleaf
    by_cases hk : k = i
    · subst hk
      rw [set_self] at hleaf
      exact ho leaf hleaf
    · rw [set_of_ne (by omega)] at hleaf
      exact h.leaf hleaf

theorem updateSumsLeavesToRoot_remove {leaf : Node} (h : Linked depth n S fresh nextIndex t)
    (hpos : 0 < depth) (hleaf : t 0 x = some leaf) (hx : x < n)
    (hpath : ∀ k < depth, ∃ node, t (k + 1) (x / 2 ^ (k + 1)) = some node)
    (hS : ∀ i ∈ S, i < 2 ^ depth) :
    ∃ t', updateSumsLeavesToRoot depth t x false = .ok (above S 0 x, t') ∧
      Linked depth n (S.filter (· ≠ x)) fresh nextIndex t' ∧
      t' 0 x = some { leaf with sumLeft := 0 } ∧ ∀ i, i ≠ x → t' 0 i = t 0 i := by
  obtain ⟨hparent, hleft⟩ := h.leaf hleaf
  have hzero : below (S.filter (· ≠ x)) 0 (x / 2 ^ 0) = 0 := by
    refine below_eq_zero fun i hi => ?_
    simpa using (mem_filter.mp hi).2
  have habove : above (S.filter (· ≠ x)) 0 x = above S 0 x := by
    rw [above, countP_filter]
    refine countP_congr fun i _ => ?_
    simp only [pow_zero, Nat.div_one, Bool.and_eq_true, decide_eq_true_eq, and_iff_left_iff_imp]
    exact fun hi => hi.ne'
  have hlinked := h.stale_at (x := x) below_filter_of_ne (·.filter _)
  obtain ⟨t', ht', hlinked', hleaves⟩ := updateSum_spec (depth + 1) 0 true
    (l := 0) (x := x) (by omega) hpos
    (hlinked.setLeaf (o := some { leaf with sumLeft := 0 }) (i := x) hpos
      (by rintro _ ⟨⟩; exact ⟨hparent, hleft⟩))
    (fun k _ hk => by rw [set_leaf]; exact hpath k hk)
    (fun _ i hi => by
      obtain rfl : i = x := by simpa using hi
      exact ⟨hx, by simp⟩)
    (fun i hi => hS i (mem_filter.mp hi).1)
  refine ⟨t', ?_, hlinked', ?_, ?_⟩
  · rw [hzero, habove, zero_add] at ht'
    simp only [pow_zero, Nat.div_one, zero_add, pow_one] at ht'
    simp only [updateSumsLeavesToRoot, get_eq_ok.mpr hleaf, ok_bind, hparent, demand, hleft,
      Bool.false_eq_true, if_false, Bool.not_false] at ht' ⊢
    rw [ht']
    rfl
  · rw [hleaves, set_self]
  · intro i hi
    rw [hleaves, set_of_ne (by omega)]

variable [DecidableEq Addr]

theorem removeLeaf_spec {aiMap : Addr → Option ℕ} (h : Tracks c es) (he : e ∈ es) :
    ∃ t, removeLeaf { c with aiMap } e.index =
        .ok ((above (indices es) 0 e.index, e.mark), { c with aiMap, tree := t }) ∧
      Linked c.depth c.index (indices (without es e.address)) fresh c.nextIndex t ∧
      ∀ f ∈ without es e.address, t 0 f.index = c.tree 0 f.index := by
  obtain ⟨leaf, hleaf, hmark⟩ := h.leaf e he
  have hS : ∀ i ∈ indices es, i < 2 ^ c.depth := fun i hi =>
    lt_pow_of_lt h.sized.lt le_rfl (h.indices_lt i hi)
  obtain ⟨t, ht, hlinked, hx, hother⟩ := updateSumsLeavesToRoot_remove h.linked h.sized.pos hleaf
    (h.lt e he) (fun k hk => h.path he hk) hS
  refine ⟨t.set 0 e.index none, ?_, ?_, ?_⟩
  · simp only [removeLeaf, ht, ok_bind, get_eq_ok.mpr hx, hmark]
    rfl
  · rw [indices_without h.falling he]
    exact hlinked.setLeaf h.sized.pos nofun
  · intro f hf
    obtain ⟨hf, hne⟩ := mem_filter.mp hf
    have hindex := (h.falling.index_ne_iff he hf).mpr (of_decide_eq_true hne)
    rw [set_of_ne (by omega), hother _ hindex]

end Remove

section Add
variable {c : StackDistCalc Addr} {es : List (Entry Addr)}
  {depth n : ℕ} {S : List ℕ} {nextIndex : ℕ → ℕ} {t : Tree}

theorem Sized.of_odd (h : Sized c (n - 1)) (hodd : n % 2 ≠ 0) : Sized c n where
  pos := h.pos
  lt := by
    have hlt := h.lt
    -- a power of two from 2 on is even
    have heven : 2 ^ c.depth % 2 = 0 := by
      rw [← Nat.sub_add_cancel h.pos, pow_succ]
      exact Nat.mul_mod_left ..
    omega
  le := by
    rcases h.le with hone | hle
    · exact Or.inl hone
    · exact Or.inr (by omega)
  nextIndex := by
    intro l hl
    rw [h.nextIndex hl, div_eq_of_mod_ne]
    intro hmod
    refine hodd (Nat.mod_eq_zero_of_dvd (dvd_trans ?_ (Nat.dvd_of_mod_eq_zero hmod)))
    exact Dvd.intro_left _ (pow_succ 2 l).symm

theorem addLeaf_place (h : c.Linked c.index S) (hsized : Sized c (c.index - 1))
    (hlt : c.index < 2 ^ 31) (hS : ∀ i ∈ S, i < c.index) :
    ∃ c', (if c.index % 2 = 0 then updateTree c else pure c) = .ok c' ∧ c'.Linked c.index S ∧
      Sized c' c.index ∧ c'.index = c.index ∧ c'.aiMap = c.aiMap ∧
      ∀ i, c'.tree 0 i = c.tree 0 i := by
  by_cases heven : c.index % 2 = 0
  · rw [if_pos heven]
    exact updateTree_spec h hsized heven hlt hS
  · rw [if_neg heven]
    exact ⟨c, rfl, h, hsized.of_odd heven, rfl, rfl, fun _ => rfl⟩

theorem updateSumsLeavesToRoot_add (leaf : Node) (h : Linked depth n S fresh nextIndex t)
    (hpos : 0 < depth) (hparent : leaf.parent = some (1, n / 2))
    (hleft : leaf.isLeftNode = (n % 2 == 0))
    (hnext : ∀ l < depth, n / 2 ^ (l + 1) < nextIndex (l + 1)) (hS : ∀ i ∈ S, i < n)
    (hn : n < 2 ^ depth) :
    ∃ t', updateSumsLeavesToRoot depth (t.set 0 n (some leaf)) n true = .ok (Infinity, t') ∧
      Linked depth (n + 1) (n :: S) fresh nextIndex t' ∧
      t' 0 n = some { leaf with sumLeft := 1 } ∧ ∀ i, i ≠ n → t' 0 i = t 0 i := by
  have hone : below (n :: S) 0 (n / 2 ^ 0) = 1 := by
    have hzero : below S 0 (n / 2 ^ 0) = 0 := below_eq_zero fun i hi => by
      have := hS i hi
      simp only [pow_zero, Nat.div_one]
      omega
    rw [below, countP_cons_of_pos (by simp)]
    exact congrArg (· + 1) hzero
  have hlinked := ((h.stale_at below_cons_of_ne (·.cons)).setLeaf (o := some leaf) (i := n) hpos
    (by rintro _ ⟨⟩; exact ⟨hparent, hleft⟩)).setLeaf (o := some { leaf with sumLeft := 1 })
    (i := n) hpos (by rintro _ ⟨⟩; exact ⟨hparent, hleft⟩)
  obtain ⟨t', ht', hlinked', hleaves⟩ := updateSum_spec (depth + 1) 0 false (l := 0) (x := n)
    (by omega) hpos hlinked
    (fun k _ hk => hlinked.present hk (hnext k hk) (not_spent_of_mem mem_cons_self)) (by simp)
    (by
      rw [forall_mem_cons]
      exact ⟨hn, fun i hi => (hS i hi).trans hn⟩)
  refine ⟨t', ?_, hlinked', ?_, ?_⟩
  · rw [hone] at ht'
    simp only [pow_zero, Nat.div_one, zero_add, pow_one] at ht'
    simp only [updateSumsLeavesToRoot, get_eq_ok.mpr (set_self ..), ok_bind, hparent,
      demand, hleft, if_true, Bool.not_true] at ht' ⊢
    rw [ht']
    rfl
  · rw [hleaves, set_self]
  · intro i hi
    rw [hleaves, set_of_ne (by omega), set_of_ne (by omega)]

theorem Linked.congr_nextIndex {next' : ℕ → ℕ}
    (h : Linked depth n S stale nextIndex t) (hnext : ∀ l, next' (l + 1) = nextIndex (l + 1)) :
    Linked depth n S stale next' t :=
  { h with
    node := by
      intro l j node hnode
      rw [hnext]
      exact h.node hnode
    present := by
      intro l j hl hj hs
      rw [hnext] at hj
      exact h.present hl hj hs }

theorem addLeaf_spec (h : c.Linked c.index S) (hsized : Sized c (c.index - 1))
    (hlt : c.index < 2 ^ 31) (hS : ∀ i ∈ S, i < c.index) :
    ∃ c', addLeaf c = .ok c' ∧ c'.index = c.index + 1 ∧ c'.aiMap = c.aiMap ∧ Sized c' c.index ∧
      c'.Linked c'.index (c.index :: S) ∧
      (∃ leaf, c'.tree 0 c.index = some leaf ∧ leaf.isMarked = false) ∧
      ∀ i, i ≠ c.index → c'.tree 0 i = c.tree 0 i := by
  obtain ⟨c₁, h₁, hlinked, hsized₁, hindex, hmap, htree⟩ := addLeaf_place h hsized hlt hS
  have hat := hsized₁.nextIndex hsized₁.pos
  obtain ⟨up, hup⟩ :=
    hlinked.present hsized₁.pos (by rw [hat]; exact Nat.lt_succ_self _) not_spent_end
  simp only [zero_add, pow_one] at hat hup
  have hptr : (1, c₁.nextIndex 1 - 1) = (1, c.index / 2) := by rw [hat, Nat.add_sub_cancel]
  obtain ⟨t', ht', hlinked', hnew, hother⟩ := updateSumsLeavesToRoot_add { Node.new with
      nodeIndex := c.index, isLeftNode := c.index % 2 == 0, parent := some (1, c.index / 2) }
    hlinked hsized₁.pos rfl rfl
      (fun l hl => by rw [hsized₁.nextIndex hl]; exact Nat.lt_succ_self _) hS hsized₁.lt
  have hcounter (l : ℕ) : update c₁.nextIndex 0 (c₁.nextIndex 0 + 1) (l + 1) =
      c₁.nextIndex (l + 1) := update_of_ne (Nat.succ_ne_zero l) ..
  refine ⟨{ c₁ with
      tree := t', nextIndex := update c₁.nextIndex 0 (c₁.nextIndex 0 + 1),
      index := c₁.index + 1 }, ?_, ?_, hmap, ?_, ?_, ⟨_, hnew, rfl⟩, ?_⟩
  · simp only [addLeaf, h₁, ok_bind, hptr, get_eq_ok.mpr hup, hindex, ht']
    rfl
  · exact congrArg (· + 1) hindex
  · exact hsized₁.congr rfl hcounter
  · rw [← hindex] at hlinked' ⊢
    exact hlinked'.congr_nextIndex hcounter
  · intro i hi
    exact (hother i hi).trans (htree i)

end Add

section Calls
variable [DecidableEq Addr] {c : StackDistCalc Addr} {es : List (Entry Addr)} {a : Addr}

theorem removeOld_spec (h : Tracks c es) (addNewNode : Bool) :
    ∃ t, removeOld c a addNewNode = .ok (find (view es) a, { c with
        aiMap := update c.aiMap a (if addNewNode then some c.index else none)
        tree := t }) ∧
      Linked c.depth c.index (indices (without es a)) fresh c.nextIndex t ∧
      ∀ f ∈ without es a, t 0 f.index = c.tree 0 f.index := by
  cases hmap : c.aiMap a with
  | none =>
    have habsent := h.absent hmap
    refine ⟨c.tree, ?_, ?_, fun _ _ => rfl⟩
    · rw [find, position_of_absent habsent]
      simp only [removeOld, hmap]
      cases addNewNode with
      | true => rfl
      | false =>
        have hsame : update c.aiMap a none = c.aiMap := by
          rw [← hmap, update_eq_self]
        simp only [Bool.false_eq_true, if_false, hsame]
        rfl
    · rw [without_of_absent habsent]
      exact h.linked
  | some i =>
    obtain ⟨e, he, rfl, rfl⟩ := (h.mapped a i).mp hmap
    rw [find, position_of_mem h.falling he]
    simp only [removeOld, hmap]
    exact removeLeaf_spec h he

theorem Tracks.mapped_without (h : Tracks c es) (b : Addr) (i : ℕ) :
    update c.aiMap a none b = some i ↔
      ∃ e ∈ without es a, e.address = b ∧ e.index = i := by
  rw [update_apply]
  split_ifs with hb
  · subst hb
    refine iff_of_false nofun ?_
    rintro ⟨e, he, hea, -⟩
    exact of_decide_eq_true (mem_filter.mp he).2 hea
  · rw [h.mapped]
    constructor
    · rintro ⟨e, he, rfl, rfl⟩
      exact ⟨e, mem_filter.mpr ⟨he, decide_eq_true hb⟩, rfl, rfl⟩
    · rintro ⟨e, he, hea, hei⟩
      exact ⟨e, (mem_filter.mp he).1, hea, hei⟩

theorem Tracks.update (h : Tracks c es) (hlt : c.index < 2 ^ 31) (addNewNode : Bool) :
    ∃ c' es', calcStackDistAndUpdate c a addNewNode = .ok (find (view es) a, c') ∧
      Tracks c' es' ∧ c'.index = c.index + (if addNewNode then 1 else 0) ∧
      view es' = (if addNewNode then (a, false) :: view (without es a)
        else view (without es a)) := by
  obtain ⟨t, ht, hlinked, hleaves⟩ := removeOld_spec (a := a) h addNewNode
  have hfalling : Falling (without es a) := List.Pairwise.filter _ h.falling
  have hwithout : ∀ f ∈ without es a, f.index < c.index := fun f hf =>
    h.lt f (mem_filter.mp hf).1
  have hleaf : ∀ f ∈ without es a, ∃ leaf, t 0 f.index = some leaf ∧ leaf.isMarked = f.mark := by
    intro f hf
    rw [hleaves f hf]
    exact h.leaf f (mem_filter.mp hf).1
  simp only [calcStackDistAndUpdate, ht, ok_bind]
  cases addNewNode with
  | false =>
    exact ⟨_, without es a, rfl, ⟨h.sized.congr rfl fun _ => rfl, hlinked, hfalling,
      hwithout, h.mapped_without, hleaf⟩,
      rfl, rfl⟩
  | true =>
    obtain ⟨c', hc', hindex, hmap, hsized, hlinked', hnew, hother⟩ := addLeaf_spec
      (c := { c with aiMap := Function.update c.aiMap a (some c.index), tree := t }) hlinked
      (h.sized.congr rfl fun _ => rfl) hlt (by
        intro i hi
        obtain ⟨f, hf, rfl⟩ := mem_map.mp hi
        exact hwithout f hf)
    simp only [if_true, hc', ok_bind]
    dsimp only at hindex hmap hsized hnew hother
    refine ⟨c', ⟨a, c.index, false⟩ :: without es a, rfl, ⟨?_, hlinked', ?_, ?_, ?_, ?_⟩,
      hindex, rfl⟩
    · rw [hindex]
      exact hsized
    · refine pairwise_cons.mpr ⟨fun f hf => ⟨hwithout f hf, ?_⟩, hfalling⟩
      exact (of_decide_eq_true (mem_filter.mp hf).2 : f.address ≠ a).symm
    · rw [forall_mem_cons, hindex]
      exact ⟨Nat.lt_succ_self _, fun f hf => (hwithout f hf).trans (Nat.lt_succ_self _)⟩
    · intro b i
      rw [hmap]
      by_cases hb : b = a
      · subst hb
        rw [Function.update_self]
        constructor
        · rintro ⟨⟩
          exact ⟨_, mem_cons_self, rfl, rfl⟩
        · rintro ⟨f, hf, hfb, rfl⟩
          rcases mem_cons.mp hf with rfl | hf
          · rfl
          · exact absurd hfb (of_decide_eq_true (mem_filter.mp hf).2)
      · have hrest := h.mapped_without (a := a) b i
        rw [Function.update_of_ne hb] at hrest ⊢
        rw [hrest]
        constructor
        · rintro ⟨f, hf, hfb⟩
          exact ⟨f, mem_cons_of_mem _ hf, hfb⟩
        · rintro ⟨f, hf, hfb, hfi⟩
          rcases mem_cons.mp hf with rfl | hf
          · exact absurd hfb.symm hb
          · exact ⟨f, hf, hfb, hfi⟩
    · rw [forall_mem_cons]
      refine ⟨hnew, fun f hf => ?_⟩
      rw [hother f.index (hwithout f hf).ne]
      exact hleaf f hf

def marked (es : List (Entry Addr)) (a : Addr) (mark : Bool) : List (Entry Addr) :=
  es.map fun e => if e.address = a then { e with mark } else e

theorem Tracks.dist (h : Tracks c es) (mark : Bool) :
    ∃ c', calcStackDist c a mark = .ok (find (view es) a, c') ∧ Tracks c' (marked es a mark) ∧
      c'.index = c.index := by
  cases hmap : c.aiMap a with
  | none =>
    have habsent := h.absent hmap
    have hsame : marked es a mark = es := by
      refine (map_congr_left fun e he => if_neg (habsent e he)).trans (map_id es)
    refine ⟨c, ?_, by rwa [hsame], rfl⟩
    simp only [calcStackDist, hmap]
    rw [find, position_of_absent habsent]
    rfl
  | some i =>
    obtain ⟨e, he, rfl, rfl⟩ := (h.mapped a i).mp hmap
    obtain ⟨leaf, hleaf, hmark⟩ := h.leaf e he
    obtain ⟨hparent, hleft⟩ := h.linked.leaf hleaf
    have hlinked := h.linked.setLeaf (o := some { leaf with isMarked := mark }) (i := e.index)
      h.sized.pos (by rintro _ ⟨⟩; exact ⟨hparent, hleft⟩)
    have hsum := getSum_spec (c.depth + 1) 0 (l := 0) (x := e.index) (by omega) h.sized.pos hlinked
      (fun k hk => by rw [set_leaf]; exact h.path he hk)
      fun i hi => lt_pow_of_lt h.sized.lt le_rfl (h.indices_lt i hi)
    simp only [zero_add, pow_one, pow_zero, Nat.div_one] at hsum
    have hview (f : Entry Addr) : (if f.address = e.address then { f with mark } else f).index =
        f.index ∧ (if f.address = e.address then { f with mark } else f).address = f.address := by
      split_ifs <;> exact ⟨rfl, rfl⟩
    have hindices : indices (marked es e.address mark) = indices es := by
      simp only [indices, marked, map_map]
      exact map_congr_left fun f _ => (hview f).1
    refine ⟨{ c with tree := c.tree.set 0 e.index (some { leaf with isMarked := mark }) }, ?_,
      ⟨h.sized.congr rfl fun _ => rfl, ?_, ?_, ?_, ?_, ?_⟩, rfl⟩
    · simp only [calcStackDist, hmap, get_eq_ok.mpr hleaf, ok_bind, getSumsLeavesToRoot,
        get_eq_ok.mpr (set_self ..), hparent, demand, hleft, hmark] at hsum ⊢
      rw [hsum, find, position_of_mem h.falling he]
      rfl
    · rw [hindices]
      exact hlinked
    · refine pairwise_map.mpr (h.falling.imp fun {f g} hfg => ?_)
      rw [(hview f).1, (hview f).2, (hview g).1, (hview g).2]
      exact hfg
    · intro f hf
      obtain ⟨g, hg, rfl⟩ := mem_map.mp hf
      rw [(hview g).1]
      exact h.lt g hg
    · intro b i
      rw [h.mapped]
      constructor
      · rintro ⟨f, hf, rfl, rfl⟩
        exact ⟨_, mem_map_of_mem hf, (hview f).2, (hview f).1⟩
      · rintro ⟨f, hf, hfb, hfi⟩
        obtain ⟨g, hg, rfl⟩ := mem_map.mp hf
        exact ⟨g, hg, (hview g).2 ▸ hfb, (hview g).1 ▸ hfi⟩
    · intro f hf
      obtain ⟨g, hg, rfl⟩ := mem_map.mp hf
      rw [(hview g).1]
      by_cases hge : g.address = e.address
      · have hindex : g.index = e.index :=
          not_ne_iff.mp (mt (h.falling.index_ne_iff he hg).mp (by simpa))
        rw [if_pos hge, hindex]
        exact ⟨{ leaf with isMarked := mark }, set_self c.tree 0 e.index _, rfl⟩
      · have hindex := (h.falling.index_ne_iff he hg).mpr hge
        rw [if_neg hge]
        dsimp only
        rw [set_of_ne (by omega)]
        exact h.leaf g hg

end Calls

section Runs

def Call.isAddition : Call Addr → Bool
  | .update _ addNewNode => addNewNode
  | .dist _ _ => false

theorem Tracks.new : Tracks (StackDistCalc.new : StackDistCalc Addr) [] where
  sized := Sized.new
  linked := Linked.new
  falling := List.Pairwise.nil
  lt := nofun
  mapped := by
    intro a i
    exact iff_of_false nofun nofun
  leaf := nofun

variable [DecidableEq Addr]

theorem Tracks.step (h : Tracks c es)
    (hlt : c.index < 2 ^ 31) (returned : List (ℕ × Bool)) (call : Call Addr) :
    ∃ c' es', StackDist.step (c, returned) call =
        .ok (c', (Stack.step (view es, returned) call).2) ∧ Tracks c' es' ∧
      view es' = (Stack.step (view es, returned) call).1 ∧
      c'.index = c.index + (if call.isAddition then 1 else 0) := by
  cases call with
  | update a addNewNode =>
    obtain ⟨c', es', hc', htracks, hindex, hview⟩ := h.update (a := a) hlt addNewNode
    refine ⟨c', es', ?_, htracks, ?_, hindex⟩
    · simp only [StackDist.step, hc', ok_bind]
      rfl
    · rw [hview, view_without]
      rfl
  | dist a mark =>
    obtain ⟨c', hc', htracks, hindex⟩ := h.dist (a := a) mark
    refine ⟨c', marked es a mark, ?_, htracks, ?_, hindex⟩
    · simp only [StackDist.step, hc', ok_bind]
      rfl
    · simp only [view, marked, Stack.step, map_map]
      refine map_congr_left fun e _ => ?_
      by_cases hea : e.address = a
      · simp [hea]
      · simp [hea]

theorem Tracks.run {calls : List (Call Addr)}
    (h : Tracks c es) (hlt : c.index + calls.countP Call.isAddition < 2 ^ 31)
    (returned : List (ℕ × Bool)) :
    ∃ c' es', Runs.run StackDist.step (c, returned) calls =
        .ok (c', (calls.foldl Stack.step (view es, returned)).2) ∧ Tracks c' es' := by
  induction calls generalizing c es returned with
  | nil => exact ⟨c, es, rfl, h⟩
  | cons call calls ih =>
    rw [countP_cons] at hlt
    obtain ⟨c₁, es₁, hstep, h₁, hview, hindex⟩ := h.step (by omega) returned call
    obtain ⟨c₂, es₂, hrun, h₂⟩ :=
      ih h₁ (by rw [hindex]; omega) (Stack.step (view es, returned) call).2
    refine ⟨c₂, es₂, ?_, h₂⟩
    rw [Runs.run_cons, hstep, ok_bind, hrun, hview]
    rfl

theorem stackDist_eq_naive (calls : List (Call Addr))
    (hlt : calls.countP Call.isAddition < 2 ^ 31) :
    ∃ c, Runs.run StackDist.step (StackDistCalc.new, []) calls =
      .ok (c, (calls.foldl Stack.step ([], [])).2) := by
  obtain ⟨c, es, hrun, -⟩ := Tracks.new.run (by simpa [StackDistCalc.new] using hlt) []
  exact ⟨c, hrun⟩

def fiveAdditions : List (Call (Fin 4)) :=
  [.update 0 true, .update 1 true, .update 0 true, .dist 1 true, .update 1 true, .update 2 true,
    .update 0 false, .dist 1 false, .dist 0 true]

theorem stackDist_eq_naive_fiveAdditions :
    (fiveAdditions.foldl Stack.step ([], [])).2 =
      [(Infinity, false), (Infinity, false), (1, false), (1, false), (1, true), (Infinity, false),
        (2, false), (1, false), (Infinity, false)] ∧
    ∃ c, Runs.run StackDist.step (StackDistCalc.new, []) fiveAdditions =
      .ok (c, (fiveAdditions.foldl Stack.step ([], [])).2) :=
  ⟨by decide, stackDist_eq_naive fiveAdditions (by decide)⟩

end Runs

end HetSim.StackDist
