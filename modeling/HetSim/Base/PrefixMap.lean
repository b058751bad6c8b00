import HetSim.Base.TrieLinks

/-!
# The trie is a map from prefixes

A search passes the prefixes of its key in the order of their widths. `insert` adds a leaf or
splits an edge; `remove` removes a leaf or contracts an edge, also above a node without a value
that is left with one kid.
-/

namespace HetSim.Base
open Checked Prefixes Runs List Function Node

variable {w : ℕ} {V : Type} {t : Trie w V} {n : ℕ} {x : Node w V} {key : BitVec w}

namespace Trie

theorem get_eq (hx : t.heap n = some x) : t.get n = .ok x := by rw [get, hx]; rfl

/-! ## Searches -/

variable {i : Bool} {c rounds k handle m : ℕ} {y : Node w V} {t₁ t' : Trie w V} {val : V}

variable {d p q : ℕ} {z : Node w V} {r : Option ℕ} {t₂ : Trie w V} {g : ℕ → Option (Node w V)}

theorem kid_unique (h : Linked t.heap) (hx : t.heap n = some x) {j : Bool}
    (hi : x.kids i = some c) (hj : x.kids j = some d) (hy : t.heap c = some y)
    (hz : t.heap d = some z) (hmatch : Agree key y.key y.width)
    (hmatch' : Agree key z.key z.width) :
    i = j := by
  obtain ⟨side, hside⟩ := (h.each n x hx).kid
  obtain ⟨y₀, hy₀, -, hlt, -, hbit⟩ := hside i c hi
  obtain ⟨z₀, hz₀, -, hlt', -, hbit'⟩ := hside j d hj
  cases hy.symm.trans hy₀
  cases hz.symm.trans hz₀
  rw [← hmatch _ hlt] at hbit
  rw [← hmatch' _ hlt', hbit] at hbit'
  exact Bool.xor_right_inj.mp hbit'

theorem kidMatches_spec (h : Linked t.heap) (hx : t.heap n = some x) (i : Bool) (key : BitVec w) :
    ∃ b, t.kidMatches (x.kids i) key = .ok b ∧
      (b = true ↔ ∃ c y, x.kids i = some c ∧ t.heap c = some y ∧ Agree key y.key y.width) := by
  unfold kidMatches
  cases hi : x.kids i with
  | none => exact ⟨false, rfl, by simp⟩
  | some c =>
    obtain ⟨b, y, hy, -⟩ := h.kid hx hi
    refine ⟨y.matches key, by simp only [get_eq hy, ok_bind]; rfl, ?_⟩
    rw [matches_iff (h.each c y hy).regular]
    constructor
    · exact fun hmatch => ⟨c, y, rfl, hy, hmatch⟩
    · rintro ⟨c', y', hc', hy', hmatch⟩
      obtain rfl : c = c' := Option.some.inj hc'
      cases hy.symm.trans hy'
      exact hmatch

def Finds (t : Trie w V) (n : ℕ) (key : BitVec w) : Option ℕ → Prop
  | some m => (∃ y, t.heap m = some y ∧ y.value ≠ none ∧ Agree key y.key y.width) ∧
      ∀ m' z, Below t.heap n m' → t.heap m' = some z → z.value ≠ none → Agree key z.key z.width →
        Below t.heap m m'
  | none => ∀ m' z, Below t.heap n m' → t.heap m' = some z → Agree key z.key z.width →
      z.value = none

theorem Finds.of_kid (h : Linked t.heap) (hx : t.heap n = some x) (hvalue : x.value = none)
    (hi : x.kids i = some c) (hy : t.heap c = some y)
    (hmatch : Agree key y.key y.width) (hr : Finds t c key r) : Finds t n key r := by
  have hbelow {m' : ℕ} {z : Node w V} (hm' : Below t.heap n m') (hz : t.heap m' = some z)
      (hvalue' : z.value ≠ none) (hmatch' : Agree key z.key z.width) : Below t.heap c m' := by
    rcases below_cases hm' hx with rfl | ⟨j, d, hj, hd⟩
    · cases hx.symm.trans hz
      exact absurd hvalue hvalue'
    · obtain ⟨b, u, hu, -⟩ := h.kid hx hj
      obtain ⟨hle, hagree, -⟩ := h.below_prefix hd hu hz
      obtain rfl := kid_unique h hx hi hj hy hu hmatch ((hmatch'.mono hle).trans hagree)
      cases hi.symm.trans hj
      exact hd
  cases r with
  | some m => exact ⟨hr.1, fun m' z hm' hz hv hm => hr.2 m' z (hbelow hm' hz hv hm) hz hv hm⟩
  | none =>
    intro m' z hm' hz hm
    by_contra hv
    exact hv (hr m' z (hbelow hm' hz hv hm) hz hm)

theorem lookupFrom_spec (h : Linked t.heap) (hx : t.heap n = some x)
    (hmatch : Agree key x.key x.width) (hrounds : w < rounds + x.width) :
    ∃ r, t.lookupFrom key rounds (some n) = .ok r ∧ Finds t n key r := by
  induction rounds generalizing n x with
  | zero =>
    have := x.width_le
    omega
  | succ rounds ih =>
    simp only [lookupFrom, get_eq hx, ok_bind]
    cases hvalue : x.value with
    | some v =>
      exact ⟨some n, rfl, ⟨x, hx, by simp [hvalue], hmatch⟩, fun m' z hm' _ _ _ => hm'⟩
    | none =>
      obtain ⟨b₀, hb₀, hfirst⟩ := kidMatches_spec h hx false key
      obtain ⟨b₁, hb₁, hsecond⟩ := kidMatches_spec h hx true key
      simp only [Option.isSome_none, Bool.false_eq_true, if_false, hb₀, hb₁, ok_bind]
      have hdown {i : Bool} (hkid : ∃ c y, x.kids i = some c ∧ t.heap c = some y ∧
          Agree key y.key y.width) :
          ∃ r, t.lookupFrom key rounds (x.kids i) = .ok r ∧ Finds t n key r := by
        obtain ⟨c, y, hi, hy, hmatch'⟩ := hkid
        have := h.width_lt hx hi hy
        obtain ⟨r, hr, hfinds⟩ := ih hy hmatch' (by omega)
        exact ⟨r, by rw [hi]; exact hr, hfinds.of_kid h hx hvalue hi hy hmatch'⟩
      split_ifs with h₀ h₁
      · exact hdown (hfirst.mp h₀)
      · exact hdown (hsecond.mp h₁)
      · refine ⟨none, rfl, fun m' z hm' hz hmatch' => ?_⟩
        rcases below_cases hm' hx with rfl | ⟨i, c, hi, hbelow⟩
        · cases hx.symm.trans hz
          exact hvalue
        · obtain ⟨b, y, hy, -⟩ := h.kid hx hi
          obtain ⟨hle, hagree, -⟩ := h.below_prefix hbelow hy hz
          have hc : ∃ c y, x.kids i = some c ∧ t.heap c = some y ∧ Agree key y.key y.width :=
            ⟨c, y, hi, hy, (hmatch'.mono hle).trans hagree⟩
          cases i with
          | false => exact absurd (hfirst.mpr hc) h₀
          | true => exact absurd (hsecond.mpr hc) h₁

theorem lookupHandle_spec (h : Linked t.heap) (key : BitVec w) :
    ∃ r, t.lookupHandle key = .ok r ∧ Finds t 0 key r := by
  obtain ⟨x, hx, -, hwidth, -⟩ := h.root
  apply lookupFrom_spec h hx
  · rw [hwidth]
    exact .zero
  · omega

theorem goesAfter_spec (h : Linked t.heap) (hx : t.heap n = some x) (i : Bool) (key : BitVec w)
    (hk : k ≤ w) : ∃ r, t.goesAfter (x.kids i) key (prefixMask w k) = .ok r ∧
      (∀ c, r = some c → x.kids i = some c ∧ ∃ y, t.heap c = some y ∧ Agree key y.key y.width ∧
        y.width ≤ k) ∧
      (r = none → ∀ c y, x.kids i = some c → t.heap c = some y → Agree key y.key y.width →
        k < y.width) := by
  unfold goesAfter
  cases hi : x.kids i with
  | none => exact ⟨none, rfl, nofun, nofun⟩
  | some c =>
    obtain ⟨b, y, hy, -⟩ := h.kid hx hi
    have hreg := (h.each c y hy).regular
    have hcond : (y.matches key = true ∧ y.mask &&& prefixMask w k = y.mask) ↔
        Agree key y.key y.width ∧ y.width ≤ k := by
      rw [matches_iff hreg, hreg.mask, prefixMask_and y.width_le hk]
    simp only [get_eq hy, ok_bind]
    refine ⟨_, rfl, ?_, ?_⟩
    · intro c' hc'
      split_ifs at hc' with hgoes
      obtain rfl : c = c' := Option.some.inj hc'
      exact ⟨rfl, y, hy, hcond.mp hgoes⟩
    · intro hnone c' y' hc' hy' hmatch
      obtain rfl : c = c' := Option.some.inj hc'
      cases hy.symm.trans hy'
      split_ifs at hnone with hgoes
      by_contra hle
      exact hgoes (hcond.mpr ⟨hmatch, not_lt.mp hle⟩)

def Last (t : Trie w V) (key : BitVec w) (k : ℕ) (x : Node w V) : Prop :=
  Agree key x.key x.width ∧ x.width ≤ k ∧ ∀ i c y, x.kids i = some c → t.heap c = some y →
    Agree key y.key y.width → k < y.width

theorem walkPast_spec (key : BitVec w) (rounds : ℕ) (h : Linked t.heap) (hk : k ≤ w)
    (hx : t.heap n = some x) (hmatch : Agree key x.key x.width) (hle : x.width ≤ k)
    (hrounds : w < rounds + x.width) :
    ∃ m y, t.walkPast key (prefixMask w k) rounds n = .ok m ∧ t.heap m = some y ∧
      Last t key k y := by
  induction rounds generalizing n x with
  | zero =>
    have := x.width_le
    omega
  | succ rounds ih =>
    have hdown {i : Bool} {c : ℕ} (hkid : x.kids i = some c ∧ ∃ y, t.heap c = some y ∧
        Agree key y.key y.width ∧ y.width ≤ k) :
        ∃ m y, t.walkPast key (prefixMask w k) rounds c = .ok m ∧ t.heap m = some y ∧
          Last t key k y := by
      obtain ⟨hi, y, hy, hmatch', hle'⟩ := hkid
      have := h.width_lt hx hi hy
      exact ih hy hmatch' hle' (by omega)
    obtain ⟨r₀, hr₀, hgoes₀, hnot₀⟩ := goesAfter_spec h hx false key hk
    obtain ⟨r₁, hr₁, hgoes₁, hnot₁⟩ := goesAfter_spec h hx true key hk
    simp only [walkPast, get_eq hx, ok_bind, hr₀, hr₁]
    cases r₀ with
    | some c => exact hdown (hgoes₀ c rfl)
    | none =>
      cases r₁ with
      | some c => exact hdown (hgoes₁ c rfl)
      | none =>
        refine ⟨n, x, rfl, hx, hmatch, hle, fun i => ?_⟩
        cases i with
        | false => exact hnot₀ rfl
        | true => exact hnot₁ rfl

theorem walkDown_spec (rounds : ℕ) {j : ℕ} {kidKey : BitVec w} (hj : j ≤ w) (hkj : k ≤ j)
    (hagree : Agree key kidKey k) (hrounds : j < rounds + k) :
    ∃ d, walkDown key (prefixMask w j) kidKey rounds (prefixMask w k) = .ok (prefixMask w d) ∧
      k ≤ d ∧ d ≤ j ∧ Agree key kidKey d ∧ (d = j ∨ kidKey.getMsbD d ≠ key.getMsbD d) := by
  induction rounds generalizing k with
  | zero => omega
  | succ rounds ih =>
    rcases hkj.eq_or_lt with rfl | hlt
    · exact ⟨k, if_pos (.inr rfl), le_rfl, le_rfl, hagree, .inl rfl⟩
    · have hextend : extendMask (prefixMask w k) = prefixMask w (k + 1) := by
        rw [extendMask, prefixMask_extend (hkj.trans hj), min_eq_left (by omega)]
      have hne : prefixMask w k ≠ prefixMask w j := fun heq =>
        hlt.ne (prefixMask_injective (hkj.trans hj) hj heq)
      have hcond := and_prefixMask_eq (a := key) (b := kidKey) (show k + 1 ≤ w by omega)
      rw [walkDown, hextend]
      by_cases hsucc : Agree key kidKey (k + 1)
      · rw [if_neg (not_or.mpr ⟨not_not.mpr (hcond.mpr hsucc), hne⟩)]
        obtain ⟨d, hd, hkd, hrest⟩ := ih hlt hsucc (by omega)
        exact ⟨d, hd, by omega, hrest⟩
      · exact ⟨k, if_pos (.inl (mt hcond.mp hsucc)), le_rfl, hkj, hagree,
          .inr fun hbit => hsucc (hagree.succ hbit.symm)⟩

/-! ## The map -/

def Full (g : ℕ → Option (Node w V)) : Prop :=
  ∀ n x, n ≠ 0 → g n = some x → x.value = none → x.kids true ≠ none

structure Recorded (g : ℕ → Option (Node w V)) (entries : List (Entry w V)) : Prop where
  node : ∀ e ∈ entries, ∃ x, g e.handle = some x ∧ x.key = e.key ∧ x.mask = prefixMask w e.width ∧
    x.value = some e.value ∧ e.width ≤ w
  entry : ∀ n x, g n = some x → x.value ≠ none → ∃ e ∈ entries, e.handle = n

structure Inv (t : Trie w V) : Prop where
  linked : Linked t.heap
  full : Full t.heap
  fresh : ∀ n, t.next ≤ n → t.heap n = none
  recorded : Recorded t.heap t.entries

theorem inv_init : Inv (init : Trie w V) := by
  have hroot {n : ℕ} {x : Node w V} (hx : (init : Trie w V).heap n = some x) :
      n = 0 ∧ x = .create 0 0 none := by
    unfold init at hx
    dsimp only at hx
    split_ifs at hx with hn
    exact ⟨hn, (Option.some.inj hx).symm⟩
  have hmask : (0 : BitVec w) = prefixMask w 0 := by
    rw [prefixMask, Nat.sub_zero]
    exact (BitVec.shiftLeft_eq_zero le_rfl).symm
  have hwidth : (create 0 0 none : Node w V).width = 0 := by
    show ones (0 : BitVec w) = 0
    rw [hmask, ones_prefixMask (Nat.zero_le w)]
  constructor
  · refine ⟨⟨_, rfl, rfl, hwidth, rfl⟩, fun n x hx => ?_⟩
    obtain ⟨rfl, rfl⟩ := hroot hx
    refine ⟨⟨?_, ?_⟩, ⟨false, by rintro _ _ ⟨⟩⟩, fun _ => rfl, fun _ => rfl, by rintro _ ⟨⟩⟩
    · rw [hwidth, ← hmask]
      rfl
    · show 0 &&& 0 &&& 0 = (0 &&& 0 : BitVec w)
      rw [BitVec.and_self, BitVec.and_self]
  · exact fun n x hn hx => absurd (hroot hx).1 hn
  · exact fun n hn => if_neg (by unfold init at hn; dsimp only at hn; omega)
  · refine ⟨by rintro _ ⟨⟩, fun n x hx hvalue => ?_⟩
    obtain ⟨rfl, rfl⟩ := hroot hx
    exact absurd rfl hvalue

structure Keeps (t t' : Trie w V) (handle : ℕ) : Prop where
  kept : ∀ n x, t.heap n = some x → x.value ≠ none → ∃ x', t'.heap n = some x' ∧ x'.key = x.key ∧
    x'.mask = x.mask ∧ x'.value = x.value
  only : ∀ n x', t'.heap n = some x' → x'.value ≠ none → n = handle ∨
    ∃ x, t.heap n = some x ∧ x.value ≠ none

theorem Keeps.trans (h : Keeps t t₁ handle) (h' : Keeps t₁ t₂ handle) : Keeps t t₂ handle := by
  constructor
  · intro n x hx hvalue
    obtain ⟨x₁, hx₁, hkey, hmask, hvalue₁⟩ := h.kept n x hx hvalue
    obtain ⟨x₂, hx₂, hkey₂, hmask₂, hvalue₂⟩ := h'.kept n x₁ hx₁ (hvalue₁ ▸ hvalue)
    exact ⟨x₂, hx₂, hkey₂.trans hkey, hmask₂.trans hmask, hvalue₂.trans hvalue₁⟩
  · intro n x₂ hx₂ hvalue
    rcases h'.only n x₂ hx₂ hvalue with hn | ⟨x₁, hx₁, hvalue₁⟩
    · exact .inl hn
    · exact h.only n x₁ hx₁ hvalue₁

structure Grown (t t' : Trie w V) (handle : ℕ) (key : BitVec w) (k : ℕ) (val : V) : Prop where
  linked : Linked t'.heap
  full : Full t'.heap
  fresh : ∀ n, t'.next ≤ n → t'.heap n = none
  entries : t'.entries = t.entries
  inserted : ∃ x, t'.heap handle = some x ∧ x.key = key ∧ x.mask = prefixMask w k ∧
    x.value = some val
  keeps : Keeps t t' handle

theorem Grown.after (h : Grown t₁ t' handle key k val) (hentries : t₁.entries = t.entries)
    (hkeeps : Keeps t t₁ handle) : Grown t t' handle key k val :=
  ⟨h.linked, h.full, h.fresh, h.entries.trans hentries, h.inserted, hkeeps.trans h.keeps⟩

theorem Grown.inv (hgrown : Grown t t' handle key k val)
    (h : Inv t) (hk : k ≤ w) : Inv { t' with entries := ⟨key, k, val, handle⟩ :: t'.entries } := by
  refine ⟨hgrown.linked, hgrown.full, hgrown.fresh, fun e he => ?_, fun n x' hx' hvalue => ?_⟩
  · rcases mem_cons.mp he with rfl | he
    · obtain ⟨x, hx, hkey, hmask, hvalue⟩ := hgrown.inserted
      exact ⟨x, hx, hkey, hmask, hvalue, hk⟩
    · rw [hgrown.entries] at he
      obtain ⟨x, hx, hkey, hmask, hvalue, hwidth⟩ := h.recorded.node e he
      obtain ⟨x', hx', hkey', hmask', hvalue'⟩ := hgrown.keeps.kept _ x hx (by simp [hvalue])
      exact ⟨x', hx', hkey'.trans hkey, hmask'.trans hmask, hvalue'.trans hvalue, hwidth⟩
  · rcases hgrown.keeps.only n x' hx' hvalue with rfl | ⟨x, hx, hvalue⟩
    · exact ⟨_, mem_cons_self, rfl⟩
    · obtain ⟨e, he, rfl⟩ := h.recorded.entry n x hx hvalue
      exact ⟨e, mem_cons_of_mem _ (hgrown.entries ▸ he), rfl⟩

theorem set_self (t : Trie w V) (n : ℕ) (x : Node w V) : (t.set n x).heap n = some x :=
  update_self ..

theorem set_other (t : Trie w V) {n : ℕ} (x : Node w V) (hm : m ≠ n) :
    (t.set n x).heap m = t.heap m := update_of_ne hm ..

theorem keeps_setValue (hx : t.heap n = some x) (hnone : x.value = none) :
    Keeps t (t.set n { x with value := some val }) n := by
  refine ⟨fun m y hy hvalue => ⟨y, (t.set_other _ ?_).trans hy, rfl, rfl, rfl⟩,
    fun m y hy hvalue => ?_⟩
  · rintro rfl
    cases hx.symm.trans hy
    exact hvalue hnone
  · by_cases hm : m = n
    · exact .inl hm
    · exact .inr ⟨y, (t.set_other _ hm).symm.trans hy, hvalue⟩

/-- Apart from the node `e`, which comes or goes, only links change, and only `f` may lose its
second kid. -/
def Relinks (t t' : Trie w V) (e : ℕ) (f : Option ℕ) : Prop :=
  ∀ m, m ≠ e → t'.heap m = t.heap m ∨ ∃ x x', t.heap m = some x ∧ t'.heap m = some x' ∧
    x'.key = x.key ∧ x'.mask = x.mask ∧ x'.value = x.value ∧
      (some m ≠ f → x.kids true ≠ none → x'.kids true ≠ none)

def FullBut (g : ℕ → Option (Node w V)) (e : ℕ) : Prop :=
  ∀ n x, n ≠ 0 → n ≠ e → g n = some x → x.value = none → x.kids true ≠ none

/-- The invariant of a trie in which the node `e` may have lost its kid or its value. -/
structure InvBut (t : Trie w V) (e : ℕ) : Prop where
  linked : Linked t.heap
  full : FullBut t.heap e
  fresh : ∀ n, t.next ≤ n → t.heap n = none

theorem Inv.but (h : Inv t) (e : ℕ) : InvBut t e :=
  ⟨h.linked, fun n x hn _ => h.full n x hn, h.fresh⟩

theorem InvBut.ne_fresh (h : InvBut t n) (hx : t.heap c = some x) (hm : t.next ≤ m) : c ≠ m := by
  rintro rfl
  exact nomatch (h.fresh c hm).symm.trans hx

section Relinks

variable {t' : Trie w V} {e m : ℕ} {f : Option ℕ} {x' : Node w V}

theorem Relinks.kept (h : Relinks t t' e f) (hm : m ≠ e) (hx : t.heap m = some x) :
    ∃ x', t'.heap m = some x' ∧ x'.key = x.key ∧ x'.mask = x.mask ∧ x'.value = x.value := by
  rcases h m hm with heq | ⟨y, y', hy, hy', hkey, hmask, hvalue, -⟩
  · exact ⟨x, heq.trans hx, rfl, rfl, rfl⟩
  · cases hx.symm.trans hy
    exact ⟨y', hy', hkey, hmask, hvalue⟩

theorem Relinks.old (h : Relinks t t' e f) (hm : m ≠ e) (hx' : t'.heap m = some x') :
    ∃ x, t.heap m = some x ∧ x.value = x'.value ∧
      (some m ≠ f → x.kids true ≠ none → x'.kids true ≠ none) := by
  rcases h m hm with heq | ⟨y, y', hy, hy', -, -, hvalue, htrue⟩
  · exact ⟨x', heq.symm.trans hx', rfl, fun _ => id⟩
  · cases hx'.symm.trans hy'
    exact ⟨y, hy, hvalue.symm, htrue⟩

theorem Relinks.fresh (h : Relinks t t' e f) (hm : m ≠ e) (hnone : t.heap m = none) :
    t'.heap m = none := by
  cases hx' : t'.heap m with
  | none => rfl
  | some x' =>
    obtain ⟨x, hx, -⟩ := h.old hm hx'
    exact nomatch hnone.symm.trans hx

theorem Relinks.full (h : Relinks t t' e none) (hfull : FullBut t.heap n) : ∀ m x', m ≠ 0 → m ≠ n →
    m ≠ e → t'.heap m = some x' → x'.value = none → x'.kids true ≠ none := by
  intro m x' hm hmn hme hx' hvalue
  obtain ⟨x, hx, hvalue', htrue⟩ := h.old hme hx'
  exact htrue nofun (hfull m x hm hmn hx (hvalue'.trans hvalue))

theorem Relinks.keeps (h : Relinks t t' e f) (hnone : t.heap e = none) (handle : ℕ)
    (hnew : e = handle ∨ ∀ z, t'.heap e = some z → z.value = none) : Keeps t t' handle := by
  constructor
  · intro m x hx _
    refine h.kept ?_ hx
    rintro rfl
    exact nomatch hnone.symm.trans hx
  · intro m x' hx' hvalue
    by_cases hm : m = e
    · subst hm
      exact .inl (hnew.resolve_right fun hz => hvalue (hz x' hx'))
    · obtain ⟨x, hx, hvalue', -⟩ := h.old hm hx'
      exact .inr ⟨x, hx, hvalue' ▸ hvalue⟩

theorem setKid_second (htrue : x.kids true ≠ none) : (x.setKid i (some c)).kids true ≠ none := by
  rw [setKid_kids]
  split_ifs
  · exact nofun
  · exact htrue

end Relinks

theorem grown_setValue (h : InvBut t n) (hx : t.heap n = some x) (hn : n ≠ 0)
    (hkey : x.key = key) (hmask : x.mask = prefixMask w k) (hnone : x.value = none) (val : V) :
    Grown t (t.set n { x with value := some val }) n key k val := by
  have hself := t.set_self n { x with value := some val }
  have hother {m : ℕ} (hm : m ≠ n) := t.set_other { x with value := some val } hm
  refine ⟨h.linked.setValue hx hn hself fun k hk => hother hk, fun m y hm hy hvalue => ?_,
    fun m hm => ?_, rfl, ⟨_, hself, hkey, hmask, rfl⟩, keeps_setValue hx hnone⟩
  · by_cases hmn : m = n
    · subst hmn
      cases hself.symm.trans hy
      exact nomatch hvalue
    · exact h.full m y hm hmn ((hother hmn).symm.trans hy) hvalue
  · exact (hother (h.ne_fresh hx hm).symm).trans (h.fresh m hm)

def leaf (key : BitVec w) (k n : ℕ) (val : V) : Node w V :=
  { Node.create key (prefixMask w k) (some val) with parent := some n }

theorem grown_addLeaf (i : Bool) (val : V) (h : InvBut t n)
    (hfull : n ≠ 0 → x.value = none → i = true) (hx : t.heap n = some x) (hk : k ≤ w)
    (hkey : key &&& prefixMask w k = key) (hfree : x.kids i = none) (hwidth : x.width < k)
    (hagree : Agree key x.key x.width)
    (hbit : i = true → ∃ a z, x.kids false = some a ∧ t.heap a = some z ∧
      z.key.getMsbD x.width ≠ key.getMsbD x.width) :
    Grown t ((t.alloc (leaf key k n val)).set n (x.setKid i (some t.next))) t.next key k val := by
  have hn : t.next ≠ n := (h.ne_fresh hx le_rfl).symm
  have hleafkey : (leaf key k n val).key = key := hkey
  obtain ⟨hreg, hleafwidth⟩ := regular_create key hk (some val)
  set t' := (t.alloc (leaf key k n val)).set n (x.setKid i (some t.next)) with ht'
  have hself : t'.heap n = some (x.setKid i (some t.next)) := set_self ..
  have hleaf : t'.heap t.next = some (leaf key k n val) :=
    (set_other _ _ hn).trans (t.set_self t.next _)
  have hother (m : ℕ) (hmn : m ≠ n) (hm : m ≠ t.next) : t'.heap m = t.heap m :=
    (set_other _ _ hmn).trans (t.set_other _ hm)
  have hrelinks : Relinks t t' t.next none := by
    intro m hm
    by_cases hmn : m = n
    · subst hmn
      exact .inr ⟨x, _, hx, hself, rfl, rfl, rfl, fun _ => setKid_second⟩
    · exact .inl (hother m hmn hm)
  constructor
  · have hregular : (leaf key k n val).Regular := ⟨hreg.mask, hreg.key⟩
    refine h.linked.addLeaf hx (h.fresh _ le_rfl) hfree hregular rfl (fun _ => rfl) ?_ ?_ ?_ hself
      hleaf hother
    · exact hwidth.trans_eq hleafwidth.symm
    · rw [hleafkey]
      exact hagree
    · rw [hleafkey]
      exact hbit
  · intro m y hm hy hvalue
    by_cases hmn : m = n
    · subst hmn
      cases hself.symm.trans hy
      obtain rfl := hfull hm hvalue
      rw [setKid_kids, if_pos rfl]
      exact nofun
    · by_cases hnext : m = t.next
      · subst hnext
        cases hleaf.symm.trans hy
        exact nomatch hvalue
      · exact hrelinks.full h.full m y hm hmn hnext hy hvalue
  · intro m hm
    have hm : t.next + 1 ≤ m := hm
    exact hrelinks.fresh (by omega) (h.fresh m (by omega))
  · rfl
  · exact ⟨_, hleaf, hleafkey, rfl, rfl⟩
  · exact hrelinks.keeps (h.fresh _ le_rfl) _ (.inl rfl)

theorem grown_split (h : Inv t)
    (hx : t.heap n = some x) (hi : x.kids i = some c) (hy : t.heap c = some y) (hk : k ≤ w)
    (hkey : key &&& prefixMask w k = key) (hxd : x.width < d) (hdy : d < y.width) (hdk : d ≤ k)
    (hagree : Agree key y.key d) (hbit : d = k ∨ y.key.getMsbD d ≠ key.getMsbD d) :
    Grown t (t.split n c x y i key (prefixMask w d) (prefixMask w k) val).2
      (t.split n c x y i key (prefixMask w d) (prefixMask w k) val).1 key k val := by
  have hfresh := h.fresh
  have hn : n ≠ t.next := (h.but n).ne_fresh hx le_rfl
  have hc : c ≠ t.next := (h.but n).ne_fresh hy le_rfl
  have hcn : c ≠ n := h.linked.kid_ne hx hi
  obtain ⟨hreg, hzwidth⟩ := regular_create key (hdk.trans hk) (none : Option V)
  set z : Node w V := { create key (prefixMask w d) none with
    parent := some n, kids := fun i => if i then none else some c } with hz
  set t₁ := ((t.alloc z).set c { y with parent := some t.next }).set n (x.setKid i (some t.next))
    with ht₁
  have hself : t₁.heap n = some (x.setKid i (some t.next)) := set_self ..
  have hnew : t₁.heap t.next = some z :=
    (set_other _ _ hn.symm).trans ((set_other _ _ hc.symm).trans (set_self ..))
  have hkid : t₁.heap c = some { y with parent := some t.next } :=
    (set_other _ _ hcn).trans (set_self ..)
  have hother (m : ℕ) (hmn : m ≠ n) (hm : m ≠ t.next) (hmc : m ≠ c) : t₁.heap m = t.heap m :=
    (set_other _ _ hmn).trans ((set_other _ _ hmc).trans (t.set_other _ hm))
  have hzkey : Agree z.key key d := .and_prefixMask (hdk.trans hk) le_rfl
  have hzwidth : z.width = d := hzwidth
  have hlinked : Linked t₁.heap := by
    have hregular : z.Regular := ⟨hreg.mask, hreg.key⟩
    refine h.linked.splitEdge hx hi hy (hfresh _ le_rfl) hregular rfl rfl rfl
      (hxd.trans_eq hzwidth.symm) (hzwidth.trans_lt hdy) ?_ hself hnew hkid hother
    rw [hzwidth]
    exact hagree.symm.trans hzkey.symm
  have hrelinks : Relinks t t₁ t.next none := by
    intro m hm
    by_cases hmn : m = n
    · subst hmn
      exact .inr ⟨x, _, hx, hself, rfl, rfl, rfl, fun _ => setKid_second⟩
    · by_cases hmc : m = c
      · subst hmc
        exact .inr ⟨y, _, hy, hkid, rfl, rfl, rfl, fun _ => id⟩
      · exact .inl (hother m hmn hm hmc)
  have hbut : InvBut t₁ t.next := by
    refine ⟨hlinked, fun m u hm hmnew =>
      hrelinks.full (h.but t.next).full m u hm hmnew hmnew, fun m hm => ?_⟩
    have hm : t.next + 1 ≤ m := hm
    exact hrelinks.fresh (by omega) (hfresh m (by omega))
  have hkeeps (handle : ℕ) : Keeps t t₁ handle := by
    refine hrelinks.keeps (hfresh _ le_rfl) handle (.inr fun u hu => ?_)
    cases hnew.symm.trans hu
    rfl
  have hnext : t.next ≠ 0 := by
    obtain ⟨r, hr, -⟩ := h.linked.root
    exact ((h.but n).ne_fresh hr le_rfl).symm
  by_cases hdk' : d = k
  · subst hdk'
    have hsplit : t.split n c x y i key (prefixMask w d) (prefixMask w d) val =
        (t.next, t₁.set t.next { z with value := some val }) := if_pos rfl
    rw [hsplit]
    exact (grown_setValue hbut hnew hnext hkey rfl rfl val).after rfl (hkeeps _)
  · have hsplit : t.split n c x y i key (prefixMask w d) (prefixMask w k) val =
        (t₁.next, (t₁.alloc (leaf key k t.next val)).set t.next (z.setKid true (some t₁.next))) :=
      if_neg fun heq => hdk' (prefixMask_injective (hdk.trans hk) hk heq)
    rw [hsplit]
    exact (grown_addLeaf true val hbut (fun _ _ => rfl) hnew hk hkey rfl
      (by omega) (hzwidth ▸ hzkey.symm) fun _ =>
        ⟨c, _, rfl, hkid, hzwidth ▸ hbit.resolve_left hdk'⟩).after rfl (hkeeps _)

theorem insertBelow_spec (i : Bool) (val : V) (h : Inv t) (hx : t.heap n = some x)
    (hlast : Last t key k x) (hlt : x.width < k) (hk : k ≤ w)
    (hkey : key &&& prefixMask w k = key)
    (hwrong : i = true → ∃ a z, x.kids false = some a ∧ t.heap a = some z ∧
      z.key.getMsbD x.width ≠ key.getMsbD x.width) :
    (t.insertBelow n x i key (prefixMask w k) val = .ok none ∧ ∃ c y, x.kids i = some c ∧
      t.heap c = some y ∧ y.key.getMsbD x.width ≠ key.getMsbD x.width) ∨
    ∃ handle t', t.insertBelow n x i key (prefixMask w k) val = .ok (some (handle, t')) ∧
      Grown t t' handle key k val := by
  have hreg := (h.linked.each n x hx).regular
  unfold insertBelow
  cases hi : x.kids i with
  | none =>
    refine .inr ⟨_, _, rfl, grown_addLeaf i val (h.but n) ?_ hx hk hkey hi hlt hlast.1
      hwrong⟩
    -- A node without a value has no room, unless it is the root.
    intro hn hvalue
    cases i with
    | true => rfl
    | false => exact absurd ((h.linked.each n x hx).first hi) (h.full n x hn hx hvalue)
  | some c =>
    obtain ⟨b, y, hy, -, hxy, hagree, -⟩ := h.linked.kid hx hi
    obtain ⟨d, hd, hxd, hdk, hmatch, hbit⟩ := walkDown_spec (w + 1) hk hlt.le
      (hlast.1.trans hagree.symm) (by omega)
    rw [← hreg.mask] at hd
    simp only [get_eq hy, ok_bind, hd]
    have hmask : prefixMask w d = x.mask ↔ d = x.width := by
      rw [hreg.mask]
      exact ⟨prefixMask_injective (hdk.trans hk) x.width_le, fun heq => heq ▸ rfl⟩
    by_cases heq : d = x.width
    · left
      refine ⟨by rw [if_pos (hmask.mpr heq)]; rfl, c, y, rfl, hy, ?_⟩
      exact heq ▸ hbit.resolve_left (by omega)
    · right
      refine ⟨_, _, by rw [if_neg (mt hmask.mp heq)]; rfl, ?_⟩
      have hdy : d < y.width := by
        by_contra hle
        have := hlast.2.2 i c y hi hy (hmatch.mono (not_lt.mp hle))
        omega
      exact grown_split h hx hi hy hk hkey (by omega) hdy hdk hmatch hbit

theorem insertKids_spec (val : V) (h : Inv t) (hx : t.heap n = some x)
    (hlast : Last t key k x) (hlt : x.width < k) (hk : k ≤ w)
    (hkey : key &&& prefixMask w k = key) :
    ∃ handle t', t.insertKids n x key (prefixMask w k) val = .ok (handle, t') ∧
      Grown t t' handle key k val := by
  unfold insertKids
  rcases insertBelow_spec false val h hx hlast hlt hk hkey nofun with
    ⟨hnone, a, y, ha, hy, hbit⟩ | ⟨handle, t', ht', hgrown⟩
  · rcases insertBelow_spec true val h hx hlast hlt hk hkey fun _ => ⟨a, y, ha, hy, hbit⟩ with
      ⟨-, b, z, hb, hz, hbit'⟩ | ⟨handle, t', ht', hgrown⟩
    · -- The kids differ in this bit, so one of them goes with the key.
      obtain ⟨side, hside⟩ := (h.linked.each n x hx).kid
      obtain ⟨y₀, hy₀, -, -, -, hsidey⟩ := hside false a ha
      obtain ⟨z₀, hz₀, -, -, -, hsidez⟩ := hside true b hb
      cases hy.symm.trans hy₀
      cases hz.symm.trans hz₀
      rw [hsidey] at hbit
      rw [hsidez] at hbit'
      cases side <;> cases hkeybit : key.getMsbD x.width <;> simp [hkeybit] at hbit hbit'
    · exact ⟨handle, t', by simp only [hnone, ok_bind, ht']; rfl, hgrown⟩
  · exact ⟨handle, t', by simp only [ht', ok_bind]; rfl, hgrown⟩

theorem insert_spec (val : V) (h : Inv t) (hpos : 1 ≤ k) (hk : k ≤ w)
    (hnew : ∀ e ∈ t.entries, ¬ (e.key = key &&& prefixMask w k ∧ e.width = k)) :
    ∃ handle t', t.insert key k val = .ok (handle, t') ∧
      Grown t t' handle (key &&& prefixMask w k) k val := by
  obtain ⟨r, hr, -, hrwidth, -⟩ := h.linked.root
  set key' := key &&& prefixMask w k with hkey'
  have hkey : key' &&& prefixMask w k = key' := by rw [hkey', BitVec.and_assoc, BitVec.and_self]
  obtain ⟨m, y, hm, hy, hlast⟩ := walkPast_spec key' (w + 1) h.linked hk hr
    (hrwidth ▸ .zero) (by omega) (by omega)
  have hreg := (h.linked.each m y hy).regular
  unfold insert
  simp only [← hkey', hm, ok_bind, get_eq hy]
  by_cases hmask : y.mask = prefixMask w k
  · have hwidth : y.width = k := prefixMask_injective y.width_le hk (hreg.mask.symm.trans hmask)
    have hykey : y.key = key' := by
      rw [← hreg.key, ← hkey, hmask]
      exact ((and_prefixMask_eq hk).mpr (hwidth ▸ hlast.1)).symm
    have hnone : y.value = none := by
      by_contra hvalue
      obtain ⟨e, he, rfl⟩ := h.recorded.entry m y hy hvalue
      obtain ⟨y₀, hy₀, hkey₀, hmask₀, -, hle⟩ := h.recorded.node e he
      cases hy.symm.trans hy₀
      exact hnew e he ⟨hkey₀.symm.trans hykey,
        prefixMask_injective hle hk (hmask₀.symm.trans hmask)⟩
    have hm0 : m ≠ 0 := by
      rintro rfl
      cases hy.symm.trans hr
      omega
    refine ⟨m, _, ?_, grown_setValue (h.but m) hy hm0 hykey hmask hnone val⟩
    simp [hmask, require, hnone]
  · rw [if_neg hmask]
    refine insertKids_spec val h hy hlast ?_ hk hkey
    refine hlast.2.1.lt_of_ne fun heq => hmask ?_
    rw [hreg.mask, heq]

/-! ## Removal -/

structure Shrunk (t t' : Trie w V) (n : ℕ) (e : Option ℕ) : Prop where
  linked : Linked t'.heap
  full : ∀ m x, m ≠ 0 → some m ≠ e → t'.heap m = some x → x.value = none → x.kids true ≠ none
  fresh : ∀ m, t'.next ≤ m → t'.heap m = none
  entries : t'.entries = t.entries
  kept : ∀ m x, m ≠ n → t.heap m = some x → x.value ≠ none → ∃ x', t'.heap m = some x' ∧
    x'.key = x.key ∧ x'.mask = x.mask ∧ x'.value = x.value
  only : ∀ m x', t'.heap m = some x' → x'.value ≠ none → m ≠ n ∧ ∃ x, t.heap m = some x ∧
    x.value ≠ none

theorem Shrunk.inv (hshrunk : Shrunk t t' n none) (h : Inv t) :
    Inv { t' with entries := t'.entries.filter fun e => e.handle ≠ n } := by
  refine ⟨hshrunk.linked, fun m x hm => hshrunk.full m x hm nofun, hshrunk.fresh, fun e he => ?_,
    fun m x' hx' hvalue => ?_⟩
  · obtain ⟨he, hne⟩ := mem_filter.mp he
    rw [hshrunk.entries] at he
    obtain ⟨x, hx, hkey, hmask, hvalue, hwidth⟩ := h.recorded.node e he
    obtain ⟨x', hx', hkey', hmask', hvalue'⟩ :=
      hshrunk.kept _ x (of_decide_eq_true hne) hx (by simp [hvalue])
    exact ⟨x', hx', hkey'.trans hkey, hmask'.trans hmask, hvalue'.trans hvalue, hwidth⟩
  · obtain ⟨hne, x, hx, hvalue⟩ := hshrunk.only m x' hx' hvalue
    obtain ⟨e, he, rfl⟩ := h.recorded.entry m x hx hvalue
    exact ⟨e, mem_filter.mpr ⟨hshrunk.entries ▸ he, decide_eq_true hne⟩, rfl⟩

theorem Shrunk.trans (h : Shrunk t t₁ n (some p))
    (h' : Shrunk t₁ t₂ p none) (hy : t₁.heap p = some y) (hvalue : y.value = none) :
    Shrunk t t₂ n none := by
  refine ⟨h'.linked, h'.full, h'.fresh, h'.entries.trans h.entries, fun m x hm hx hx' => ?_,
    fun m x hx hx' => ?_⟩
  · obtain ⟨x₁, hx₁, hkey₁, hmask₁, hvalue₁⟩ := h.kept m x hm hx hx'
    have hmp : m ≠ p := by
      rintro rfl
      cases hy.symm.trans hx₁
      exact hx' (hvalue₁.symm.trans hvalue)
    obtain ⟨x₂, hx₂, hkey₂, hmask₂, hvalue₂⟩ := h'.kept m x₁ hmp hx₁ (hvalue₁ ▸ hx')
    exact ⟨x₂, hx₂, hkey₂.trans hkey₁, hmask₂.trans hmask₁, hvalue₂.trans hvalue₁⟩
  · obtain ⟨-, x₁, hx₁, hvalue₁⟩ := h'.only m x hx hx'
    exact h.only m x₁ hx₁ hvalue₁

theorem delete_self (t : Trie w V) (n : ℕ) : (t.delete n).heap n = none := update_self ..

theorem delete_other (t : Trie w V) (hm : m ≠ n) : (t.delete n).heap m = t.heap m :=
  update_of_ne hm ..

theorem delete_set (t : Trie w V) (x : Node w V) (hm : m ≠ n) :
    (t.set m x).delete n = (t.delete n).set m x := by
  unfold delete set
  rw [update_comm hm]

theorem delete_delete (t : Trie w V) (hm : m ≠ n) :
    (t.delete m).delete n = (t.delete n).delete m := by
  unfold delete
  rw [update_comm hm]

theorem shrunk_setValue (h : Inv t) (hx : t.heap n = some x) (hn : n ≠ 0)
    (htrue : x.kids true ≠ none) : Shrunk t (t.set n { x with value := none }) n none := by
  have hself := t.set_self n { x with value := none }
  have hother {m : ℕ} (hm : m ≠ n) := t.set_other { x with value := none } hm
  refine ⟨h.linked.setValue hx hn hself fun k hk => hother hk, fun m y hm _ hy hvalue => ?_,
    fun m hm => ?_, rfl, fun m y hmn hy _ => ⟨y, (hother hmn).trans hy, rfl, rfl, rfl⟩,
    fun m y hy hvalue => ?_⟩
  · by_cases hmn : m = n
    · subst hmn
      cases hself.symm.trans hy
      exact htrue
    · exact h.full m y hm ((hother hmn).symm.trans hy) hvalue
  · exact (hother ((h.but n).ne_fresh hx hm).symm).trans (h.fresh m hm)
  · have hmn : m ≠ n := by
      rintro rfl
      cases hself.symm.trans hy
      exact hvalue rfl
    exact ⟨hmn, y, (hother hmn).symm.trans hy, hvalue⟩

theorem Relinks.shrunk {f : Option ℕ} (h : Relinks t t' n f) (hinv : InvBut t n)
    (hlinked : Linked t'.heap) (hn : t'.heap n = none) (hnext : t'.next = t.next)
    (hentries : t'.entries = t.entries) : Shrunk t t' n f := by
  have hne {m : ℕ} {u : Node w V} (hu : t'.heap m = some u) : m ≠ n := by
    rintro rfl
    exact nomatch hn.symm.trans hu
  refine ⟨hlinked, fun m u hm hmf hu hvalue => ?_, fun m hm => ?_, hentries,
    fun m u hmn hu _ => h.kept hmn hu, fun m u hu hvalue => ⟨hne hu, ?_⟩⟩
  · obtain ⟨u₀, hu₀, hvalue₀, htrue⟩ := h.old (hne hu) hu
    exact htrue hmf (hinv.full m u₀ hm (hne hu) hu₀ (hvalue₀.trans hvalue))
  · by_cases hmn : m = n
    · exact hmn ▸ hn
    · exact h.fresh hmn (hinv.fresh m (hnext ▸ hm))
  · obtain ⟨u₀, hu₀, hvalue₀, -⟩ := h.old (hne hu) hu
    exact ⟨u₀, hu₀, hvalue₀ ▸ hvalue⟩

theorem shrunk_contract (h : InvBut t n) (hx : t.heap n = some x)
    (hfirst : x.kids false = some c) (hsecond : x.kids true = none) (hz : t.heap c = some z)
    (hy : t.heap q = some y) (hi : y.kids i = some n) :
    Shrunk t (((t.set c { z with parent := some q }).set q (y.setKid i (some c))).delete n)
      n none := by
  have hnq : n ≠ q := h.linked.kid_ne hy hi
  have hcn : c ≠ n := h.linked.kid_ne hx hfirst
  have hcq : c ≠ q := by
    rintro rfl
    exact lt_asymm (h.linked.width_lt hy hi hx) (h.linked.width_lt hx hfirst hy)
  set t' := ((t.set c { z with parent := some q }).set q (y.setKid i (some c))).delete n with ht'
  have hn' : t'.heap n = none := delete_self ..
  have hq' : t'.heap q = some (y.setKid i (some c)) :=
    (delete_other _ hnq.symm).trans (set_self ..)
  have hc' : t'.heap c = some { z with parent := some q } :=
    (delete_other _ hcn).trans ((set_other _ _ hcq).trans (set_self ..))
  have hother (m : ℕ) (hmq : m ≠ q) (hmc : m ≠ c) (hmn : m ≠ n) : t'.heap m = t.heap m :=
    (delete_other _ hmn).trans ((set_other _ _ hmq).trans (set_other _ _ hmc))
  have hrelinks : Relinks t t' n none := by
    intro m hmn
    by_cases hmq : m = q
    · subst hmq
      exact .inr ⟨y, _, hy, hq', rfl, rfl, rfl, fun _ => setKid_second⟩
    · by_cases hmc : m = c
      · subst hmc
        exact .inr ⟨z, _, hz, hc', rfl, rfl, rfl, fun _ => id⟩
      · exact .inl (hother m hmq hmc hmn)
  exact hrelinks.shrunk h (h.linked.contract hx hfirst hsecond hz hy hi hq' hc' hn' hother) hn' rfl
    rfl

theorem replaceKid_some (hi : y.kids i = some n)
    (hfirst : i = true → y.kids false ≠ some n ∧ y.kids false ≠ none) :
    replaceKid n (some c) y = .ok (y.setKid i (some c)) := by
  cases i with
  | false => simp [replaceKid, hi, setKid_kids, pure, Except.pure, bind, Except.bind]
  | true =>
    obtain ⟨hne, hsome⟩ := hfirst rfl
    simp [replaceKid, hi, hne, hsome, setKid_kids, pure, Except.pure, bind, Except.bind]

theorem replaceKid_none (hi : y.kids i = some n)
    (hfirst : i = true → y.kids false ≠ some n ∧ y.kids false ≠ none) :
    replaceKid n none y = .ok (y.dropKid i) := by
  cases i with
  | false =>
    cases htrue : y.kids true <;>
      simp [replaceKid, dropKid, setKid, hi, htrue, pure, Except.pure, bind, Except.bind,
        funext_iff]
  | true =>
    obtain ⟨hne, hsome⟩ := hfirst rfl
    simp [replaceKid, dropKid, setKid, hi, hne, pure, Except.pure, bind, Except.bind, funext_iff]

theorem shrunk_leaf (h : Inv t) (hx : t.heap n = some x) (hkids : ∀ j, x.kids j = none)
    (hy : t.heap p = some y) (hi : y.kids i = some n) :
    Shrunk t ((t.set p (y.dropKid i)).delete n) n (some p) := by
  have hnp : n ≠ p := h.linked.kid_ne hy hi
  set t' := (t.set p (y.dropKid i)).delete n with ht'
  have hn' : t'.heap n = none := delete_self ..
  have hp' : t'.heap p = some (y.dropKid i) := (delete_other _ hnp.symm).trans (set_self ..)
  have hother (m : ℕ) (hmp : m ≠ p) (hmn : m ≠ n) : t'.heap m = t.heap m :=
    (delete_other _ hmn).trans (set_other _ _ hmp)
  have hrelinks : Relinks t t' n (some p) := by
    intro m hmn
    by_cases hmp : m = p
    · subst hmp
      exact .inr ⟨y, _, hy, hp', rfl, rfl, rfl, fun hne => absurd rfl hne⟩
    · exact .inl (hother m hmp hmn)
  exact hrelinks.shrunk (h.but n) (h.linked.removeLeaf hx hkids hy hi hp' hn' hother) hn' rfl rfl

theorem removeNode_eq (hx : t.heap n = some x)
    (hsecond : x.kids true = none) (hq : x.parent = some q) (hunlink : t.unlink n x q = .ok t₁)
    (hy : t₁.heap q = some y) :
    removeNode (rounds + 1) t n =
      (if (y.kids true).isNone ∧ y.value.isNone ∧ y.parent.isSome then do
          return (← removeNode rounds t₁ q).2
        else return t₁) >>= fun t => return (x.value, t.delete n) := by
  rw [removeNode, get_eq hx, ok_bind, hsecond]
  simp only [Option.isSome_none, Bool.false_eq_true, if_false, hq]
  rw [demand, ok_bind, hunlink, ok_bind, get_eq hy, ok_bind]

/-- A node with one kid is removed, and its parent stays. What was unlinked before may still
be in the heap. -/
theorem removeNode_contract (hrounds : 0 < rounds)
    (hlinked : Linked g)
    (hsub : ∀ m u, g m = some u → t.heap m = some u)
    (hfull : FullBut g n)
    (hx : g n = some x) (hn : n ≠ 0) (hfirst : x.kids false = some c)
    (hsecond : x.kids true = none) :
    ∃ q y z i, g q = some y ∧ y.kids i = some n ∧ g c = some z ∧
      removeNode rounds t n = .ok (x.value,
        ((t.set c { z with parent := some q }).set q (y.setKid i (some c))).delete n) := by
  obtain ⟨rounds, rfl⟩ := Nat.exists_eq_add_of_le' hrounds
  cases hq : x.parent with
  | none => exact absurd ((hlinked.each n x hx).orphan hq) hn
  | some q =>
    obtain ⟨y, i, hy, hi⟩ := (hlinked.each n x hx).parent q hq
    obtain ⟨b, z, hz, -⟩ := hlinked.kid hx hfirst
    have hqc : q ≠ c := by
      rintro rfl
      exact lt_asymm (hlinked.width_lt hx hfirst hy) (hlinked.width_lt hy hi hx)
    have hqn : q ≠ n := (hlinked.kid_ne hy hi).symm
    refine ⟨q, y, z, i, hy, hi, hz, ?_⟩
    have hunlink : t.unlink n x q =
        .ok ((t.set c { z with parent := some q }).set q (y.setKid i (some c))) := by
      have hget : (t.set c { z with parent := some q }).get q = .ok y :=
        get_eq ((set_other _ _ hqc).trans (hsub q y hy))
      simp only [unlink, hfirst, get_eq (hsub c z hz), ok_bind, pure_bind, hget,
        replaceKid_some hi (hlinked.second_kid hy hi)]
      rfl
    -- The parent keeps its second kid.
    have hstay : ¬ (((y.setKid i (some c)).kids true).isNone ∧ (y.setKid i (some c)).value.isNone ∧
        (y.setKid i (some c)).parent.isSome) := by
      rintro ⟨htrue, hvalue, hparent⟩
      have hq0 : q ≠ 0 := by
        rintro rfl
        obtain ⟨r, hr, hroot, -⟩ := hlinked.root
        cases hy.symm.trans hr
        exact nomatch hroot ▸ hparent
      have hkids := hfull q y hq0 hqn hy (Option.isNone_iff_eq_none.mp hvalue)
      rw [setKid_kids] at htrue
      split_ifs at htrue
      · exact nomatch htrue
      · exact hkids (Option.isNone_iff_eq_none.mp htrue)
    rw [removeNode_eq (hsub n x hx) hsecond hq hunlink (set_self ..), if_neg hstay]
    rfl

theorem remove_spec (h : Inv t) (hx : t.heap n = some x) (hvalue : x.value = some val) :
    ∃ t', t.remove n = .ok (some val, t') ∧ Shrunk t t' n none := by
  obtain ⟨r, hr, hrparent, hrwidth, hrvalue⟩ := h.linked.root
  have hn : n ≠ 0 := by
    rintro rfl
    cases hx.symm.trans hr
    cases hvalue.symm.trans hrvalue
  cases hsecond : x.kids true with
  | some b =>
    have htrue : x.kids true ≠ none := by simp [hsecond]
    refine ⟨_, ?_, shrunk_setValue h hx hn htrue⟩
    simp [remove, removeNode, get_eq hx, hsecond, hvalue, require]
  | none =>
    cases hfirst : x.kids false with
    | some c =>
      obtain ⟨q, y, z, i, hy, hi, hz, hremove⟩ :=
        removeNode_contract (Nat.succ_pos w) h.linked (fun _ _ hu => hu)
        (h.but n).full hx hn hfirst hsecond
      exact ⟨_, hvalue ▸ hremove, shrunk_contract (h.but n) hx hfirst hsecond hz hy hi⟩
    | none =>
      have hkids (j : Bool) : x.kids j = none := by cases j <;> assumption
      cases hp : x.parent with
      | none => exact absurd ((h.linked.each n x hx).orphan hp) hn
      | some p =>
        obtain ⟨y, i, hy, hi⟩ := (h.linked.each n x hx).parent p hp
        have hshrunk := shrunk_leaf h hx hkids hy hi
        have hnp : n ≠ p := h.linked.kid_ne hy hi
        have hp' : ((t.set p (y.dropKid i)).delete n).heap p = some (y.dropKid i) :=
          (delete_other _ hnp.symm).trans (set_self ..)
        have hunlink : t.unlink n x p = .ok (t.set p (y.dropKid i)) := by
          simp only [unlink, hfirst, pure_bind, get_eq hy, ok_bind,
            replaceKid_none hi (h.linked.second_kid hy hi)]
          rfl
        have hw : 0 < w := by
          have := x.width_le
          have := h.linked.width_lt hy hi hx
          omega
        unfold remove
        rw [removeNode_eq hx hsecond hp hunlink (set_self ..)]
        by_cases hgo : ((y.dropKid i).kids true).isNone ∧ (y.dropKid i).value.isNone ∧
            (y.dropKid i).parent.isSome
        · -- The parent has no value and one kid left.
          have hnone : y.value = none := Option.isNone_iff_eq_none.mp hgo.2.1
          have hp0 : p ≠ 0 := by
            rintro rfl
            cases hy.symm.trans hr
            simp [dropKid, hrparent] at hgo
          obtain ⟨c, hc⟩ : ∃ c, y.kids (!i) = some c := by
            have hytrue := h.full p y hp0 hy hnone
            have hyfalse : y.kids false ≠ none := fun hf => hytrue ((h.linked.each p y hy).first hf)
            cases i with
            | false => exact Option.ne_none_iff_exists'.mp hytrue
            | true => exact Option.ne_none_iff_exists'.mp hyfalse
          have hne {m : ℕ} {v : Node w V}
              (hv : ((t.set p (y.dropKid i)).delete n).heap m = some v) : m ≠ n := by
            rintro rfl
            cases (delete_self _ m).symm.trans hv
          have hbut : InvBut ((t.set p (y.dropKid i)).delete n) p :=
            ⟨hshrunk.linked, fun m u hm hmp => hshrunk.full m u hm fun heq =>
              hmp (Option.some.inj heq), hshrunk.fresh⟩
          obtain ⟨q, u, z, j, hu, hj, hz, hremove⟩ := removeNode_contract hw hshrunk.linked
            (fun m u hu => (delete_other _ (hne hu)).symm.trans hu) hbut.full hp' hp0 hc rfl
          refine ⟨_, ?_, hshrunk.trans (shrunk_contract hbut hp' hc rfl hz hu hj) hp' hnone⟩
          rw [if_pos hgo, hremove, ← hvalue, ← delete_set _ _ (hne hz), ← delete_set _ _ (hne hu),
            ← delete_delete _ hnp.symm]
          rfl
        · refine ⟨_, by rw [if_neg hgo, hvalue]; rfl, hshrunk.linked, fun m u hm _ hu huvalue => ?_,
            hshrunk.fresh, hshrunk.entries, hshrunk.kept, hshrunk.only⟩
          by_cases hmp : m = p
          · subst hmp
            cases hp'.symm.trans hu
            by_contra
            refine hgo ⟨rfl, by simp [huvalue], ?_⟩
            exact Option.isSome_iff_ne_none.mpr fun hnone =>
              hm ((h.linked.each m y hy).orphan hnone)
          · exact hshrunk.full m u hm (fun heq => hmp (Option.some.inj heq)) hu huvalue

/-! ## Runs -/

theorem Recorded.matches_iff {entries : List (Entry w V)}
    (h : Recorded g entries) (hlinked : Linked g) (key : BitVec w) {e : Entry w V}
    (he : e ∈ entries) (hx : g e.handle = some x) :
    x.width = e.width ∧ x.value = some e.value ∧
      (e.matches key = true ↔ Agree key x.key x.width) := by
  obtain ⟨x₀, hx₀, hkey, hmask, hvalue, hle⟩ := h.node e he
  cases hx.symm.trans hx₀
  have hreg := (hlinked.each _ x hx).regular
  refine ⟨prefixMask_injective x.width_le hle (hreg.mask.symm.trans hmask), hvalue, ?_⟩
  rw [← Node.matches_iff hreg, Entry.matches, Node.matches, hkey, hmask]

theorem Finds.eq_shortest (h : Inv t) (hr : Finds t 0 key r) :
    r = (Entry.shortest t.entries key).map Entry.handle := by
  have hentry {e : Entry w V} (he : e ∈ t.entries.filter (·.matches key)) :
      e ∈ t.entries ∧ ∃ x, t.heap e.handle = some x ∧ x.width = e.width ∧ x.value ≠ none ∧
        Agree key x.key x.width := by
    obtain ⟨he, hmatch⟩ := mem_filter.mp he
    obtain ⟨x, hx, -⟩ := h.recorded.node e he
    obtain ⟨hwidth, hvalue, hiff⟩ := h.recorded.matches_iff h.linked key he hx
    exact ⟨he, x, hx, hwidth, by simp [hvalue], hiff.mp hmatch⟩
  cases hmin : Entry.shortest t.entries key with
  | none =>
    have hnil := argmin_eq_none.mp hmin
    cases r with
    | none => rfl
    | some m =>
      obtain ⟨⟨y, hy, hvalue, hmatch⟩, -⟩ := hr
      obtain ⟨e, he, rfl⟩ := h.recorded.entry m y hy hvalue
      have hmem : e ∈ t.entries.filter (·.matches key) := mem_filter.mpr
        ⟨he, (h.recorded.matches_iff h.linked key he hy).2.2.mpr hmatch⟩
      rw [hnil] at hmem
      exact absurd hmem not_mem_nil
  | some e =>
    have hmem := argmin_mem hmin
    obtain ⟨he, x, hx, hwidth, hvalue, hmatch⟩ := hentry hmem
    have hbelow := h.linked.below_root hx
    cases r with
    | none => exact absurd (hr _ x hbelow hx hmatch) hvalue
    | some m =>
      obtain ⟨⟨y, hy, hyvalue, hymatch⟩, hfirst⟩ := hr
      obtain ⟨e₀, he₀, rfl⟩ := h.recorded.entry m y hy hyvalue
      obtain ⟨hywidth, -, hyiff⟩ := h.recorded.matches_iff h.linked key he₀ hy
      have hle : e.width ≤ e₀.width :=
        le_of_mem_argmin (mem_filter.mpr ⟨he₀, hyiff.mpr hymatch⟩) hmin
      obtain ⟨-, -, hsame⟩ := h.linked.below_prefix (hfirst _ x hbelow hx hvalue hmatch) hy hx
      exact congrArg some (hsame.resolve_right (by omega)).symm

theorem lookup_spec (h : Inv t) (key : BitVec w) :
    t.lookup key = .ok ((Entry.shortest t.entries key).map Entry.value) := by
  obtain ⟨r, hr, hfinds⟩ := lookupHandle_spec h.linked key
  obtain rfl := hfinds.eq_shortest h
  rw [lookup, hr, ok_bind]
  cases hmin : Entry.shortest t.entries key with
  | none => rfl
  | some e =>
    have he := (mem_filter.mp (argmin_mem hmin)).1
    obtain ⟨x, hx, -, -, hvalue, -⟩ := h.recorded.node e he
    simp only [Option.map_some, get_eq hx, ok_bind, hvalue]
    rfl

/-- A width is that of a prefix, a prefix is not inserted twice, and a handle is removed while
its entry is there. -/
def Allowed (t : Trie w V) : TrieEvent w V → Prop
  | .insert key width _ => 1 ≤ width ∧ width ≤ w ∧
      ∀ e ∈ t.entries, ¬ (e.key = key &&& prefixMask w width ∧ e.width = width)
  | .removeHandle handle => ∃ e ∈ t.entries, e.handle = handle
  | .removeKey _ => True

instance (t : Trie w V) : ∀ e, Decidable (t.Allowed e)
  | .insert key width _ => inferInstanceAs (Decidable (1 ≤ width ∧ width ≤ w ∧
      ∀ e ∈ t.entries, ¬ (e.key = key &&& prefixMask w width ∧ e.width = width)))
  | .removeHandle handle => inferInstanceAs (Decidable (∃ e ∈ t.entries, e.handle = handle))
  | .removeKey _ => isTrue trivial

theorem step_keeps {e : TrieEvent w V} (h : Inv t) (he : t.Allowed e) :
    ∃ t', t.step e = .ok t' ∧ Inv t' := by
  cases e with
  | insert key width val =>
    obtain ⟨handle, t', ht', hgrown⟩ := insert_spec val h he.1 he.2.1 he.2.2
    exact ⟨_, by rw [step, ht']; rfl, hgrown.inv h he.2.1⟩
  | removeHandle handle =>
    obtain ⟨e, he, rfl⟩ := he
    obtain ⟨x, hx, -, -, hvalue, -⟩ := h.recorded.node e he
    obtain ⟨t', ht', hshrunk⟩ := remove_spec h hx hvalue
    exact ⟨_, by rw [step, ht']; rfl, hshrunk.inv h⟩
  | removeKey key =>
    obtain ⟨r, hr, hfinds⟩ := lookupHandle_spec h.linked key
    obtain rfl := hfinds.eq_shortest h
    simp only [step, removeKey, hr, ok_bind]
    cases hmin : Entry.shortest t.entries key with
    | none => exact ⟨_, rfl, by simpa using h⟩
    | some e =>
      have he := (mem_filter.mp (argmin_mem hmin)).1
      obtain ⟨x, hx, -, -, hvalue, -⟩ := h.recorded.node e he
      obtain ⟨t', ht', hshrunk⟩ := remove_spec h hx hvalue
      refine ⟨_, by simp only [Option.map_some, ht', ok_bind]; rfl, ?_⟩
      simpa using hshrunk.inv h

end Trie

open Trie in
/-- No panic, assert or bad pointer is reached. -/
theorem trie_prefixMap {es : List (TrieEvent w V)} (h : Meets step Allowed init es) :
    ∃ t, run step init es = .ok t ∧
      (∀ n x, n ≠ 0 → t.heap n = some x → x.value = none →
        x.kids false ≠ none ∧ x.kids true ≠ none) ∧
      (∀ n x i c, t.heap n = some x → x.kids i = some c → ∃ y, t.heap c = some y ∧
        y.mask &&& x.mask = x.mask ∧ y.mask ≠ x.mask ∧ y.key &&& x.mask = x.key) ∧
      (∀ n x a b y z, t.heap n = some x → x.kids false = some a → x.kids true = some b →
        t.heap a = some y → t.heap b = some z → y.key.getMsbD x.width ≠ z.key.getMsbD x.width) ∧
      ∀ key, t.lookup key = .ok ((Entry.shortest t.entries key).map Entry.value) := by
  obtain ⟨t, ht, hinv⟩ := h.keeps step_keeps inv_init
  have heach := hinv.linked.each
  refine ⟨t, ht, fun n x hn hx hvalue => ?_, fun n x i c hx hi => ?_,
    fun n x a b y z hx ha hb hy hz => ?_, lookup_spec hinv⟩
  · have htrue := hinv.full n x hn hx hvalue
    exact ⟨fun hfalse => htrue ((heach n x hx).first hfalse), htrue⟩
  · obtain ⟨b, y, hy, -, hlt, hagree, -⟩ := hinv.linked.kid hx hi
    have hregx := (heach n x hx).regular
    have hregy := (heach c y hy).regular
    refine ⟨y, hy, ?_, fun heq => hlt.ne' (congrArg ones heq), ?_⟩
    · rw [BitVec.and_comm, hregx.mask, hregy.mask, prefixMask_and x.width_le y.width_le]
      exact hlt.le
    · rw [← hregx.key, hregx.mask]
      exact (and_prefixMask_eq x.width_le).mpr hagree
  · obtain ⟨side, hside⟩ := (heach n x hx).kid
    obtain ⟨y₀, hy₀, -, -, -, hbit⟩ := hside false a ha
    obtain ⟨z₀, hz₀, -, -, -, hbit'⟩ := hside true b hb
    cases hy.symm.trans hy₀
    cases hz.symm.trans hz₀
    rw [hbit, hbit']
    cases side <;> exact nofun

def byteEvents : List (TrieEvent 8 ℕ) :=
  [.insert 0xf0 8 1, .insert 0xf8 5 2, .insert 0xc0 2 3, .insert 0x80 1 4, .removeHandle 1,
    .removeKey 0xc5]

open Trie in
theorem trie_prefixMap_byte : ∃ t, run step init byteEvents = .ok t ∧
    t.entries.map Entry.value = [3, 2] ∧ t.lookup 0xff = .ok (some 3) := by
  have hends : Ends step init byteEvents fun t => t.entries.map Entry.value = [3, 2] ∧
      (Entry.shortest t.entries 0xff).map Entry.value = some 3 := by
    decide +kernel
  obtain ⟨t, ht, hentries, hmin⟩ := hends
  have hallowed : Meets step Allowed init byteEvents := by decide +kernel
  obtain ⟨t', ht', -, -, -, hlookup⟩ := trie_prefixMap hallowed
  obtain rfl : t = t' := Except.ok.inj (ht.symm.trans ht')
  exact ⟨t, ht, hentries, hmin ▸ hlookup 0xff⟩

end HetSim.Base
