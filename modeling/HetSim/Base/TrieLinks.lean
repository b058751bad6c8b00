import HetSim.Base.Trie

/-!
# The links of the trie

Every node is looked at with its parent and its kids only. A new leaf, a new node on an edge, the
removal of a leaf and the contraction of an edge keep what is true of each node.
-/

namespace HetSim.Base
open Checked Prefixes Runs

variable {w : ℕ} {V : Type}

namespace Node

variable {x : Node w V}

def width (x : Node w V) : ℕ := ones x.mask

structure Regular (x : Node w V) : Prop where
  mask : x.mask = prefixMask w x.width
  key : x.key &&& x.mask = x.key

theorem width_le (x : Node w V) : x.width ≤ w := ones_le _

theorem matches_iff (h : x.Regular) {test : BitVec w} :
    x.matches test = true ↔ Agree test x.key x.width := by
  rw [Node.matches, decide_eq_true_iff, ← and_prefixMask_eq x.width_le, ← h.mask, h.key]

theorem regular_create (key : BitVec w) {k : ℕ} (hk : k ≤ w) (value : Option V) :
    (create key (prefixMask w k) value).Regular ∧
      (create key (prefixMask w k) value).width = k := by
  have hwidth : (create key (prefixMask w k) value).width = k := ones_prefixMask hk
  refine ⟨⟨by rw [hwidth]; rfl, ?_⟩, hwidth⟩
  show key &&& prefixMask w k &&& prefixMask w k = key &&& prefixMask w k
  rw [BitVec.and_assoc, BitVec.and_self]

theorem setKid_kids (x : Node w V) (i j : Bool) (kid : Option ℕ) :
    (x.setKid i kid).kids j = if j = i then kid else x.kids j := Function.update_apply ..

/-- The node without its kid `i`: another kid is then the first. -/
def dropKid (x : Node w V) (i : Bool) : Node w V :=
  { x with kids := fun j => if j then none else x.kids (!i) }

end Node

/-! ## Nodes and their neighbours -/

section Linked

variable {g g' : ℕ → Option (Node w V)} {k m n c p : ℕ} {x y z : Node w V} {i b : Bool}

def Kid (g : ℕ → Option (Node w V)) (n : ℕ) (x : Node w V) (b : Bool) (m : ℕ) : Prop :=
  ∃ y, g m = some y ∧ y.parent = some n ∧ x.width < y.width ∧ Agree y.key x.key x.width ∧
    y.key.getMsbD x.width = b

structure Local (g : ℕ → Option (Node w V)) (n : ℕ) (x : Node w V) : Prop where
  regular : x.Regular
  kid : ∃ side : Bool, ∀ i m, x.kids i = some m → Kid g n x (side ^^ i) m
  first : x.kids false = none → x.kids true = none
  orphan : x.parent = none → n = 0
  parent : ∀ p, x.parent = some p → ∃ y i, g p = some y ∧ y.kids i = some n

structure Linked (g : ℕ → Option (Node w V)) : Prop where
  root : ∃ x, g 0 = some x ∧ x.parent = none ∧ x.width = 0 ∧ x.value = none
  each : ∀ n x, g n = some x → Local g n x

theorem Kid.ne (h : Kid g n x b m) (hx : g n = some x) : m ≠ n := by
  rintro rfl
  obtain ⟨y, hy, -, hlt, -⟩ := h
  rw [hx, Option.some.injEq] at hy
  subst hy
  exact lt_irrefl _ hlt

theorem Kid.of_eq {x' : Node w V} (h : Kid g n x b m) (hwidth : x'.width = x.width)
    (hkey : x'.key = x.key)
    (hm : ∀ y, g m = some y → ∃ y', g' m = some y' ∧ y'.parent = y.parent ∧ y'.width = y.width ∧
      y'.key = y.key) : Kid g' n x' b m := by
  obtain ⟨y, hy, hparent, hlt, hagree, hbit⟩ := h
  obtain ⟨y', hy', hparent', hwidth', hkey'⟩ := hm y hy
  refine ⟨y', hy', hparent'.trans hparent, ?_, ?_, ?_⟩
  · rwa [hwidth, hwidth']
  · rwa [hkey', hkey, hwidth]
  · rwa [hkey', hwidth]

theorem Local.kid_ne (h : Local g n x) {a b : ℕ} (ha : x.kids false = some a)
    (hb : x.kids true = some b) : a ≠ b := by
  rintro rfl
  obtain ⟨side, hkid⟩ := h.kid
  obtain ⟨y, hy, -, -, -, hbit⟩ := hkid _ _ ha
  obtain ⟨y', hy', -, -, -, hbit'⟩ := hkid _ _ hb
  rw [hy, Option.some.injEq] at hy'
  subst hy'
  rw [hbit] at hbit'
  cases side <;> exact nomatch hbit'

theorem Linked.kid (h : Linked g) (hx : g n = some x) (hi : x.kids i = some m) :
    ∃ b, Kid g n x b m := by
  obtain ⟨side, hside⟩ := (h.each n x hx).kid
  exact ⟨_, hside i m hi⟩

theorem Linked.kid_ne (h : Linked g) (hx : g n = some x) (hi : x.kids i = some m) : m ≠ n := by
  obtain ⟨b, hkid⟩ := h.kid hx hi
  exact hkid.ne hx

theorem Linked.edge (h : Linked g) (hy : g p = some y) (hi : y.kids i = some n)
    (hx : g n = some x) :
    x.parent = some p ∧ y.width < x.width ∧ Agree x.key y.key y.width := by
  obtain ⟨b, x₀, hx₀, hparent, hlt, hagree, -⟩ := h.kid hy hi
  cases hx.symm.trans hx₀
  exact ⟨hparent, hlt, hagree⟩

theorem Linked.parent_eq (h : Linked g) (hy : g p = some y) (hi : y.kids i = some n)
    (hx : g n = some x) : x.parent = some p := (h.edge hy hi hx).1

theorem Linked.width_lt (h : Linked g) (hy : g p = some y) (hi : y.kids i = some n)
    (hx : g n = some x) : y.width < x.width := (h.edge hy hi hx).2.1

theorem Linked.kid_unique (h : Linked g) {j : Bool} (hy : g p = some y) (hi : y.kids i = some n)
    (hj : y.kids j = some n) : i = j := by
  have hlocal := h.each p y hy
  cases i <;> cases j <;> first
    | rfl
    | exact absurd rfl (hlocal.kid_ne hi hj)
    | exact absurd rfl (hlocal.kid_ne hj hi)

theorem Linked.second_kid (h : Linked g) (hy : g p = some y) (hi : y.kids i = some n) :
    i = true → y.kids false ≠ some n ∧ y.kids false ≠ none := by
  rintro rfl
  refine ⟨fun hfalse => (h.each p y hy).kid_ne hfalse hi rfl, fun hnone => ?_⟩
  exact nomatch ((h.each p y hy).first hnone).symm.trans hi

theorem Linked.replace (h : Linked g) {T : ℕ → Prop} (hother : ∀ k, ¬ T k → g' k = g k)
    (hroot : T 0 → ∀ r, g 0 = some r → r.parent = none → ∃ r', g' 0 = some r' ∧
      r'.parent = none ∧ r'.width = r.width ∧ r'.value = r.value)
    (hkids : ∀ k a y, ¬ T k → T a → g a = some y → y.parent = some k → ∃ y', g' a = some y' ∧
      y'.parent = y.parent ∧ y'.width = y.width ∧ y'.key = y.key)
    (hparents : ∀ k p y i, ¬ T k → T p → g p = some y → y.kids i = some k →
      ∃ y' i', g' p = some y' ∧ y'.kids i' = some k)
    (hlocal : ∀ k x, T k → g' k = some x → Local g' k x) : Linked g' := by
  constructor
  · obtain ⟨r, hr, hparent, hwidth, hvalue⟩ := h.root
    by_cases hT : T 0
    · obtain ⟨r', hr', hparent', hwidth', hvalue'⟩ := hroot hT r hr hparent
      exact ⟨r', hr', hparent', hwidth'.trans hwidth, hvalue'.trans hvalue⟩
    · exact ⟨r, (hother 0 hT).trans hr, hparent, hwidth, hvalue⟩
  · intro k x hx
    by_cases hT : T k
    · exact hlocal k x hT hx
    · have hx := (hother k hT).symm.trans hx
      obtain ⟨hreg, ⟨side, hside⟩, hfirst, horphan, hup⟩ := h.each k x hx
      refine ⟨hreg, ⟨side, fun i m hm => ?_⟩, hfirst, horphan, fun p hp => ?_⟩
      · refine (hside i m hm).of_eq rfl rfl fun y hy => ?_
        by_cases hTm : T m
        · exact hkids k m y hT hTm hy (h.parent_eq hx hm hy)
        · exact ⟨y, (hother m hTm).trans hy, rfl, rfl, rfl⟩
      · obtain ⟨y, i, hy, hi⟩ := hup p hp
        by_cases hTp : T p
        · exact hparents k p y i hT hTp hy hi
        · exact ⟨y, i, (hother p hTp).trans hy, hi⟩

theorem Linked.setValue {value : Option V} (h : Linked g) (hx : g n = some x) (hn : n ≠ 0)
    (hn' : g' n = some { x with value := value }) (hother : ∀ k, k ≠ n → g' k = g k) :
    Linked g' := by
  refine h.replace (T := (· = n)) hother (fun hzero => absurd hzero.symm hn) ?_ ?_ ?_
  · rintro k a y - rfl hy -
    cases hx.symm.trans hy
    exact ⟨_, hn', rfl, rfl, rfl⟩
  · rintro k p y i - rfl hy hi
    cases hx.symm.trans hy
    exact ⟨_, i, hn', hi⟩
  · rintro k z rfl hz
    cases hn'.symm.trans hz
    obtain ⟨hreg, ⟨side, hside⟩, hfirst, horphan, hup⟩ := h.each k x hx
    refine ⟨⟨hreg.mask, hreg.key⟩, ⟨side, fun i m hm => ?_⟩, hfirst, horphan, fun p hp => ?_⟩
    · exact (hside i m hm).of_eq rfl rfl fun y hy =>
        ⟨y, (hother m (h.kid_ne hx hm)).trans hy, rfl, rfl, rfl⟩
    · obtain ⟨y, i, hy, hi⟩ := hup p hp
      exact ⟨y, i, (hother p (h.kid_ne hy hi).symm).trans hy, hi⟩

theorem Linked.addLeaf (h : Linked g) (hx : g n = some x) (hm : g m = none)
    (hfree : x.kids i = none) (hregular : y.Regular) (hparent : y.parent = some n)
    (hkids : ∀ j, y.kids j = none) (hwidth : x.width < y.width) (hagree : Agree y.key x.key x.width)
    (hbit : i = true → ∃ a z, x.kids false = some a ∧ g a = some z ∧
      z.key.getMsbD x.width ≠ y.key.getMsbD x.width)
    (hn' : g' n = some (x.setKid i (some m))) (hm' : g' m = some y)
    (hother : ∀ k, k ≠ n → k ≠ m → g' k = g k) : Linked g' := by
  have hkept {k : ℕ} {z : Node w V} (hz : g k = some z) (hk : k ≠ n) : g' k = some z := by
    refine (hother k hk ?_).trans hz
    rintro rfl
    exact nomatch hm.symm.trans hz
  obtain ⟨hreg, ⟨side, hside⟩, hfirst, horphan, hup⟩ := h.each n x hx
  refine h.replace (T := fun k => k = n ∨ k = m) (fun k hk => ?_) ?_ ?_ ?_ ?_
  · exact hother k (fun hkn => hk (.inl hkn)) fun hkm => hk (.inr hkm)
  · rintro (rfl | rfl) r hr hnone
    · cases hx.symm.trans hr
      exact ⟨_, hn', hnone, rfl, rfl⟩
    · exact nomatch hm.symm.trans hr
  · rintro k a u - (rfl | rfl) hu -
    · cases hx.symm.trans hu
      exact ⟨_, hn', rfl, rfl, rfl⟩
    · exact nomatch hm.symm.trans hu
  · rintro k p u j - (rfl | rfl) hu hj
    · cases hx.symm.trans hu
      refine ⟨_, j, hn', ?_⟩
      rw [Node.setKid_kids, if_neg, hj]
      rintro rfl
      exact nomatch hfree.symm.trans hj
    · exact nomatch hm.symm.trans hu
  · rintro k z (rfl | rfl) hz
    · cases hn'.symm.trans hz
      refine ⟨⟨hreg.mask, hreg.key⟩, ?_, ?_, horphan, fun p hp => ?_⟩
      · have hleaf : Kid g' k (x.setKid i (some m)) (y.key.getMsbD x.width) m :=
          ⟨y, hm', hparent, hwidth, hagree, rfl⟩
        have hold (j : Bool) (a : ℕ) (ha : x.kids j = some a) :
            Kid g' k (x.setKid i (some m)) (side ^^ j) a :=
          (hside j a ha).of_eq rfl rfl fun z hz => ⟨z, hkept hz (h.kid_ne hx ha), rfl, rfl, rfl⟩
        cases i with
        | false =>
          refine ⟨y.key.getMsbD x.width, fun j a ha => ?_⟩
          cases j with
          | false =>
            cases ha
            rwa [Bool.xor_false]
          | true => exact nomatch (hfirst hfree).symm.trans ha
        | true =>
          obtain ⟨a₀, z, ha₀, hz, hne⟩ := hbit rfl
          obtain ⟨z', hz', -, -, -, hbit'⟩ := hside false a₀ ha₀
          cases hz.symm.trans hz'
          refine ⟨side, fun j a ha => ?_⟩
          cases j with
          | false => exact hold false a ha
          | true =>
            cases ha
            rw [hbit', Bool.xor_false] at hne
            rwa [Bool.xor_true, Bool.not_eq.mpr hne]
      · intro hnone
        cases i with
        | false => exact nomatch hnone
        | true =>
          obtain ⟨a₀, -, ha₀, -⟩ := hbit rfl
          exact nomatch ha₀.symm.trans hnone
      · obtain ⟨z, j, hz, hj⟩ := hup p hp
        exact ⟨z, j, hkept hz (h.kid_ne hz hj).symm, hj⟩
    · cases hm'.symm.trans hz
      refine ⟨hregular, ⟨false, fun j a ha => nomatch (hkids j).symm.trans ha⟩,
        fun _ => hkids true, fun hnone => (nomatch hparent.symm.trans hnone), fun p hp => ?_⟩
      cases hparent.symm.trans hp
      exact ⟨_, i, hn', by rw [Node.setKid_kids, if_pos rfl]⟩

theorem Local.setKid (h : Linked g) (hx : g n = some x) (hi : x.kids i = some c)
    (hy : g c = some y) (hz : g' m = some z) (hparent : z.parent = some n)
    (hlt : x.width < z.width) (hagree : Agree y.key z.key (x.width + 1))
    (hkept : ∀ k u, g k = some u → k ≠ n → u.width ≤ x.width ∨ u.parent = some n ∧ k ≠ c →
      g' k = some u) : Local g' n (x.setKid i (some m)) := by
  obtain ⟨hreg, ⟨side, hside⟩, hfirst, horphan, hup⟩ := h.each n x hx
  obtain ⟨y₀, hy₀, -, hxy, hxagree, hbit⟩ := hside i c hi
  cases hy.symm.trans hy₀
  refine ⟨⟨hreg.mask, hreg.key⟩, ⟨side, fun j a ha => ?_⟩, fun hnone => ?_, horphan, fun p hp => ?_⟩
  · rw [Node.setKid_kids] at ha
    split_ifs at ha with hji
    · cases ha
      refine ⟨z, hz, hparent, hlt, (hagree.symm.mono (Nat.le_succ _)).trans hxagree, ?_⟩
      rw [hji, ← hbit]
      exact (hagree _ (Nat.lt_succ_self _)).symm
    · refine (hside j a ha).of_eq rfl rfl fun u hu => ⟨u, ?_, rfl, rfl, rfl⟩
      refine hkept a u hu (h.kid_ne hx ha) (.inr ⟨h.parent_eq hx ha hu, ?_⟩)
      rintro rfl
      exact hji (h.kid_unique hx ha hi)
  · cases i with
    | false => exact nomatch hnone
    | true => exact nomatch (hfirst hnone).symm.trans hi
  · obtain ⟨u, j, hu, hj⟩ := hup p hp
    exact ⟨u, j, hkept p u hu (h.kid_ne hu hj).symm (.inl (h.width_lt hu hj hx).le), hj⟩

theorem Local.setParent (h : Linked g) (hy : g c = some y) (hx : g' p = some x)
    (hi : x.kids i = some c) (hkept : ∀ k u, g k = some u → y.width < u.width → g' k = some u) :
    Local g' c { y with parent := some p } := by
  obtain ⟨hreg, ⟨side, hside⟩, hfirst, -, -⟩ := h.each c y hy
  refine ⟨⟨hreg.mask, hreg.key⟩, ⟨side, fun j a ha => ?_⟩, hfirst, nofun, fun q hq => ?_⟩
  · exact (hside j a ha).of_eq rfl rfl fun u hu =>
      ⟨u, hkept a u hu (h.width_lt hy ha hu), rfl, rfl, rfl⟩
  · cases hq
    exact ⟨x, i, hx, hi⟩

theorem Linked.splitEdge (h : Linked g) (hx : g n = some x) (hi : x.kids i = some c)
    (hy : g c = some y) (hm : g m = none) (hregular : z.Regular) (hparent : z.parent = some n)
    (hfirst : z.kids false = some c) (hsecond : z.kids true = none) (hxz : x.width < z.width)
    (hzy : z.width < y.width) (hagree : Agree y.key z.key z.width)
    (hn' : g' n = some (x.setKid i (some m))) (hm' : g' m = some z)
    (hc' : g' c = some { y with parent := some m })
    (hother : ∀ k, k ≠ n → k ≠ m → k ≠ c → g' k = g k) : Linked g' := by
  have hkept {k : ℕ} {u : Node w V} (hu : g k = some u) (hkn : k ≠ n) (hkc : k ≠ c) :
      g' k = some u := by
    refine (hother k hkn ?_ hkc).trans hu
    rintro rfl
    exact nomatch hm.symm.trans hu
  have hyparent := h.parent_eq hx hi hy
  have hxy := h.width_lt hx hi hy
  refine h.replace (T := fun k => k = n ∨ k = m ∨ k = c) (fun k hk => ?_) ?_ ?_ ?_ ?_
  · exact hother k (fun hkn => hk (.inl hkn)) (fun hkm => hk (.inr (.inl hkm)))
      fun hkc => hk (.inr (.inr hkc))
  · rintro (rfl | rfl | rfl) r hr hnone
    · cases hx.symm.trans hr
      exact ⟨_, hn', hnone, rfl, rfl⟩
    · exact nomatch hm.symm.trans hr
    · cases hy.symm.trans hr
      exact nomatch hyparent.symm.trans hnone
  · rintro k a u hk (rfl | rfl | rfl) hu hau
    · cases hx.symm.trans hu
      exact ⟨_, hn', rfl, rfl, rfl⟩
    · exact nomatch hm.symm.trans hu
    · cases hy.symm.trans hu
      cases hyparent.symm.trans hau
      exact absurd (.inl rfl) hk
  · rintro k p u j hk (rfl | rfl | rfl) hu hj
    · cases hx.symm.trans hu
      refine ⟨_, j, hn', ?_⟩
      rw [Node.setKid_kids, if_neg, hj]
      rintro rfl
      cases hj.symm.trans hi
      exact hk (.inr (.inr rfl))
    · exact nomatch hm.symm.trans hu
    · cases hy.symm.trans hu
      exact ⟨_, j, hc', hj⟩
  · rintro k u (rfl | rfl | rfl) hu
    · cases hn'.symm.trans hu
      refine Local.setKid h hx hi hy hm' hparent hxz (hagree.mono hxz) fun a v hv han hcase =>
        hkept hv han ?_
      rintro rfl
      cases hy.symm.trans hv
      exact hcase.elim (fun hle => absurd hxy hle.not_gt) fun hne => hne.2 rfl
    · cases hm'.symm.trans hu
      refine ⟨hregular, ⟨y.key.getMsbD z.width, fun j a ha => ?_⟩, fun _ => hsecond,
        fun hnone => (nomatch hparent.symm.trans hnone), fun p hp => ?_⟩
      · cases j with
        | false =>
          cases hfirst.symm.trans ha
          exact ⟨_, hc', rfl, hzy, hagree, (Bool.xor_false _).symm⟩
        | true => exact nomatch hsecond.symm.trans ha
      · cases hparent.symm.trans hp
        exact ⟨_, i, hn', by rw [Node.setKid_kids, if_pos rfl]⟩
    · cases hc'.symm.trans hu
      refine Local.setParent h hy hm' hfirst fun a v hv hlt => hkept hv ?_ ?_
      · rintro rfl
        cases hx.symm.trans hv
        exact lt_asymm hxy hlt
      · rintro rfl
        cases hy.symm.trans hv
        exact lt_irrefl _ hlt

theorem Linked.removeLeaf (h : Linked g) (hx : g n = some x) (hkids : ∀ j, x.kids j = none)
    (hy : g p = some y) (hi : y.kids i = some n) (hp' : g' p = some (y.dropKid i))
    (hn' : g' n = none) (hother : ∀ k, k ≠ p → k ≠ n → g' k = g k) : Linked g' := by
  have hxparent := h.parent_eq hy hi hx
  refine h.replace (T := fun k => k = p ∨ k = n) (fun k hk => ?_) ?_ ?_ ?_ ?_
  · exact hother k (fun hkp => hk (.inl hkp)) fun hkn => hk (.inr hkn)
  · rintro (rfl | rfl) r hr hnone
    · cases hy.symm.trans hr
      exact ⟨_, hp', hnone, rfl, rfl⟩
    · cases hx.symm.trans hr
      exact nomatch hxparent.symm.trans hnone
  · rintro k a v hk (rfl | rfl) hv hav
    · cases hy.symm.trans hv
      exact ⟨_, hp', rfl, rfl, rfl⟩
    · cases hx.symm.trans hv
      cases hxparent.symm.trans hav
      exact absurd (.inl rfl) hk
  · rintro k q v j hk (rfl | rfl) hv hj
    · -- The other kid of the parent is still there.
      cases hy.symm.trans hv
      refine ⟨_, false, hp', hj ▸ ?_⟩
      show y.kids (!i) = y.kids j
      congr 1
      cases i <;> cases j <;> first
        | rfl
        | exact absurd (.inr (Option.some.inj (hj.symm.trans hi))) hk
    · cases hx.symm.trans hv
      exact nomatch (hkids j).symm.trans hj
  · rintro k u (rfl | rfl) hu
    · cases hp'.symm.trans hu
      obtain ⟨hreg, ⟨side, hside⟩, -, horphan, hup⟩ := h.each k y hy
      refine ⟨⟨hreg.mask, hreg.key⟩, ⟨side ^^ !i, fun j a ha => ?_⟩, fun _ => rfl, horphan,
        fun q hq => ?_⟩
      · cases j with
        | true => exact nomatch ha
        | false =>
          have han : a ≠ n := by
            rintro rfl
            exact Bool.not_ne_self i (h.kid_unique hy ha hi)
          rw [Bool.xor_false]
          exact (hside _ a ha).of_eq rfl rfl fun v hv =>
            ⟨v, (hother a (h.kid_ne hy ha) han).trans hv, rfl, rfl, rfl⟩
      · obtain ⟨v, j, hv, hj⟩ := hup q hq
        refine ⟨v, j, (hother q (h.kid_ne hv hj).symm ?_).trans hv, hj⟩
        rintro rfl
        cases hx.symm.trans hv
        exact nomatch (hkids j).symm.trans hj
    · exact nomatch hn'.symm.trans hu

theorem Linked.contract (h : Linked g) (hx : g n = some x) (hfirst : x.kids false = some c)
    (hsecond : x.kids true = none) (hz : g c = some z) (hy : g p = some y)
    (hi : y.kids i = some n) (hp' : g' p = some (y.setKid i (some c)))
    (hc' : g' c = some { z with parent := some p }) (hn' : g' n = none)
    (hother : ∀ k, k ≠ p → k ≠ c → k ≠ n → g' k = g k) : Linked g' := by
  have hxparent := h.parent_eq hy hi hx
  have hzparent := h.parent_eq hx hfirst hz
  have hyx := h.width_lt hy hi hx
  have hxz := h.width_lt hx hfirst hz
  refine h.replace (T := fun k => k = p ∨ k = c ∨ k = n) (fun k hk => ?_) ?_ ?_ ?_ ?_
  · exact hother k (fun hkp => hk (.inl hkp)) (fun hkc => hk (.inr (.inl hkc)))
      fun hkn => hk (.inr (.inr hkn))
  · rintro (rfl | rfl | rfl) r hr hnone
    · cases hy.symm.trans hr
      exact ⟨_, hp', hnone, rfl, rfl⟩
    · cases hz.symm.trans hr
      exact nomatch hzparent.symm.trans hnone
    · cases hx.symm.trans hr
      exact nomatch hxparent.symm.trans hnone
  · rintro k a v hk (rfl | rfl | rfl) hv hav
    · cases hy.symm.trans hv
      exact ⟨_, hp', rfl, rfl, rfl⟩
    · cases hz.symm.trans hv
      cases hzparent.symm.trans hav
      exact absurd (.inr (.inr rfl)) hk
    · cases hx.symm.trans hv
      cases hxparent.symm.trans hav
      exact absurd (.inl rfl) hk
  · rintro k q v j hk (rfl | rfl | rfl) hv hj
    · cases hy.symm.trans hv
      refine ⟨_, j, hp', ?_⟩
      rw [Node.setKid_kids, if_neg, hj]
      rintro rfl
      cases hj.symm.trans hi
      exact hk (.inr (.inr rfl))
    · cases hz.symm.trans hv
      exact ⟨_, j, hc', hj⟩
    · cases hx.symm.trans hv
      cases j with
      | false => exact absurd (.inr (.inl (Option.some.inj (hj.symm.trans hfirst)))) hk
      | true => exact nomatch hsecond.symm.trans hj
  · rintro k u (rfl | rfl | rfl) hu
    · cases hp'.symm.trans hu
      have hagree := (h.edge hx hfirst hz).2.2.symm.mono (Nat.succ_le_of_lt hyx)
      refine Local.setKid h hy hi hx hc' rfl (hyx.trans hxz) hagree fun a v hv hap hcase =>
        (hother a hap ?_ ?_).trans hv
      · rintro rfl
        cases hz.symm.trans hv
        rcases hcase with hle | ⟨hparent, -⟩
        · exact absurd (hyx.trans hxz) hle.not_gt
        · cases hzparent.symm.trans hparent
          exact lt_irrefl _ (Option.some.inj (hx.symm.trans hy) ▸ hyx)
      · rintro rfl
        cases hx.symm.trans hv
        exact hcase.elim (fun hle => absurd hyx hle.not_gt) fun hne => hne.2 rfl
    · cases hc'.symm.trans hu
      refine Local.setParent h hz hp' (by rw [Node.setKid_kids, if_pos rfl]) fun a v hv hlt =>
        (hother a ?_ ?_ ?_).trans hv
      · rintro rfl
        cases hy.symm.trans hv
        exact lt_asymm hlt (hyx.trans hxz)
      · rintro rfl
        cases hz.symm.trans hv
        exact lt_irrefl _ hlt
      · rintro rfl
        cases hx.symm.trans hv
        exact lt_asymm hlt hxz
    · exact nomatch hn'.symm.trans hu

/-! ## Below a node -/

def Below (g : ℕ → Option (Node w V)) : ℕ → ℕ → Prop :=
  Relation.ReflTransGen fun n m => ∃ x i, g n = some x ∧ x.kids i = some m

theorem Linked.below_root (h : Linked g) (hx : g n = some x) : Below g 0 n := by
  -- The width of the parent is smaller.
  induction hk : x.width using Nat.strong_induction_on generalizing n x with
  | _ k ih =>
    cases hp : x.parent with
    | none =>
      obtain rfl := (h.each n x hx).orphan hp
      exact .refl
    | some p =>
      obtain ⟨y, i, hy, hi⟩ := (h.each n x hx).parent p hp
      exact (ih y.width (hk ▸ h.width_lt hy hi hx) hy rfl).tail ⟨y, i, hy, hi⟩

theorem Linked.below_prefix (h : Linked g) (hbelow : Below g n m) (hx : g n = some x)
    (hy : g m = some y) :
    x.width ≤ y.width ∧ Agree y.key x.key x.width ∧ (m = n ∨ x.width < y.width) := by
  induction hbelow generalizing y with
  | refl =>
    cases hx.symm.trans hy
    exact ⟨le_rfl, .refl _ _, .inl rfl⟩
  | tail _ hkid ih =>
    obtain ⟨z, i, hz, hi⟩ := hkid
    obtain ⟨hle, hagree, -⟩ := ih hz
    obtain ⟨-, hlt, hagree'⟩ := h.edge hz hi hy
    exact ⟨hle.trans hlt.le, (hagree'.mono hle).trans hagree, .inr (hle.trans_lt hlt)⟩

theorem below_cases (hbelow : Below g n m) (hx : g n = some x) :
    m = n ∨ ∃ i c, x.kids i = some c ∧ Below g c m := by
  cases hbelow.cases_head with
  | inl heq => exact .inl heq.symm
  | inr hstep =>
    obtain ⟨c, ⟨x₀, i, hx₀, hi⟩, hbelow⟩ := hstep
    cases hx.symm.trans hx₀
    exact .inr ⟨i, c, hi, hbelow⟩

end Linked

end HetSim.Base
