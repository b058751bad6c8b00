import HetSim.Tracer.Entries

/-!
# The address spaces of the user specification

`parse` takes the bounds of each address space as texts, and `generate_runtime` puts them into the
initializer of a C++ vector of pairs of `int`. The model goes from the generated text through the
conversion of each literal to the functions that test a pointer. Between two pairs there is no
comma.
-/

namespace HetSim.Tracer
open Numerals List

def declaration : String := "std::vector<std::pair<int,int>> addr_spaces = \x7b"
def pairOpening : String := "std::pair<int,int>("
def closing : String := "\x7d;"

/-- The loop of `generate_runtime` over `addr_list`. -/
def addrSpacesText (addrList : List (String × String)) : String :=
  addrList.foldl (fun text entry => text ++ (pairOpening ++ entry.1 ++ "," ++ entry.2 ++ ")"))
    declaration ++ closing

section Compiler

/-- The rest of the text behind a fixed token. -/
def consume : List Char → List Char → Option (List Char)
  | [], cs => some cs
  | t :: ts, c :: cs => if t = c then consume ts cs else none
  | _ :: _, [] => none

/-- A hexadecimal literal and what follows it. -/
def readLiteral : List Char → Option (ℕ × List Char)
  | '0' :: x :: cs =>
    if x = 'x' ∨ x = 'X' then
      match digits 16 cs with
      | [] => none
      | d :: ds => some (value 16 (d :: ds), cs.drop (d :: ds).length)
    else none
  | _ => none

/-- One pair. The literals are converted to `int`. -/
def readPair (cs : List Char) : Option ((Int32 × Int32) × List Char) := do
  let cs ← consume pairOpening.toList cs
  let (start, cs) ← readLiteral cs
  let cs ← consume [','] cs
  let (stop, cs) ← readLiteral cs
  let cs ← consume [')'] cs
  pure ((Int32.ofNat start, Int32.ofNat stop), cs)

/-- The pairs of an initializer, separated by commas; a last comma is allowed. -/
def readPairs : ℕ → List Char → Option (List (Int32 × Int32))
  | 0, _ => none
  | n + 1, cs =>
    if cs = closing.toList then some []
    else do
      let (a, cs) ← readPair cs
      if cs = closing.toList then pure [a]
      else
        let cs ← consume [','] cs
        let as ← readPairs n cs
        pure (a :: as)

/-- The vector the generated declaration defines, when it compiles. -/
def compile (text : String) : Option (List (Int32 × Int32)) := do
  let cs ← consume declaration.toList text.toList
  readPairs cs.length cs

end Compiler

/-- A 64-bit bound written as a hexadecimal number. -/
structure HexText (text : String) (bound : Ptr) : Prop where
  literal : ∃ x ds, text.toList = '0' :: x :: ds ∧ (x = 'x' ∨ x = 'X') ∧ ds ≠ [] ∧
    (∀ c ∈ ds, (digit 16 c).isSome) ∧ value 16 (ds.filterMap (digit 16)) = bound.toNat

/-- The specification: some address space has the pointer between its bounds. -/
def covered (bounds : List (Ptr × Ptr)) (p : Ptr) : Bool := bounds.any fun b => b.1 ≤ p && p ≤ b.2

/-- A bound after its way through `int`. -/
def narrowed (bound : Ptr) : Ptr := asPtr (Int32.ofNat bound.toNat)

theorem consume_append (ts cs : List Char) : consume ts (ts ++ cs) = some cs := by
  induction ts with
  | nil => rfl
  | cons t ts ih => simpa [consume] using ih

theorem digits_append {ds : List Char} (h : ∀ c ∈ ds, (digit 16 c).isSome) {d : Char}
    (hd : digit 16 d = none) (rest : List Char) :
    digits 16 (ds ++ d :: rest) = ds.filterMap (digit 16) := by
  induction ds with
  | nil => simp [digits, hd]
  | cons c ds ih =>
    obtain ⟨v, hv⟩ := Option.isSome_iff_exists.mp (h c mem_cons_self)
    rw [cons_append, digits, hv, filterMap_cons, hv]
    exact congrArg _ (ih fun b hb => h b (mem_cons_of_mem _ hb))

theorem length_filterMap_digit {ds : List Char} (h : ∀ c ∈ ds, (digit 16 c).isSome) :
    (ds.filterMap (digit 16)).length = ds.length := by
  induction ds with
  | nil => rfl
  | cons c ds ih =>
    obtain ⟨v, hv⟩ := Option.isSome_iff_exists.mp (h c mem_cons_self)
    rw [filterMap_cons, hv, length_cons, length_cons,
      ih fun b hb => h b (mem_cons_of_mem _ hb)]

theorem HexText.readLiteral {text : String} {bound : Ptr} (h : HexText text bound) {d : Char}
    (hd : digit 16 d = none) (rest : List Char) :
    readLiteral (text.toList ++ d :: rest) = some (bound.toNat, d :: rest) := by
  obtain ⟨x, ds, htext, hx, hne, hdig, hval⟩ := h.literal
  have hdigits := digits_append hdig hd rest
  have hlen := length_filterMap_digit hdig
  rw [htext, cons_append, cons_append, Tracer.readLiteral, if_pos hx, hdigits]
  cases hfm : ds.filterMap (digit 16) with
  | nil =>
    rw [hfm] at hlen
    exact absurd (eq_nil_of_length_eq_zero hlen.symm) hne
  | cons v vs =>
    rw [hfm] at hlen hval
    simp only [hval, hlen, drop_left]

def pairText (entry : String × String) : String :=
  pairOpening ++ entry.1 ++ "," ++ entry.2 ++ ")"

theorem pairText_toList (entry : String × String) (rest : List Char) :
    (pairText entry).toList ++ rest =
      pairOpening.toList ++ (entry.1.toList ++ ',' :: (entry.2.toList ++ ')' :: rest)) := by
  have hcomma : ",".toList = [','] := by decide
  have hparen : ")".toList = [')'] := by decide
  simp only [pairText, String.toList_append, hcomma, hparen, append_assoc, cons_append,
    nil_append]

variable {entry : String × String} {b : Ptr × Ptr}

theorem readPair_pairText (h₁ : HexText entry.1 b.1) (h₂ : HexText entry.2 b.2) (rest : List Char) :
    readPair ((pairText entry).toList ++ rest) =
      some ((Int32.ofNat b.1.toNat, Int32.ofNat b.2.toNat), rest) := by
  rw [pairText_toList, readPair, consume_append]
  simp only [Option.bind_eq_bind, Option.bind_some, h₁.readLiteral (d := ',') (by decide),
    consume, h₂.readLiteral (d := ')') (by decide), if_true]
  rfl

/-- What follows the opening brace. -/
def body (addrList : List (String × String)) : List Char :=
  addrList.flatMap (fun e => (pairText e).toList) ++ closing.toList

theorem addrSpacesText_toList (addrList : List (String × String)) :
    (addrSpacesText addrList).toList = declaration.toList ++ body addrList := by
  have key : ∀ (l : List (String × String)) (acc : String),
      (l.foldl (fun text entry => text ++ (pairOpening ++ entry.1 ++ "," ++ entry.2 ++ ")"))
        acc).toList = acc.toList ++ l.flatMap (fun e => (pairText e).toList) := by
    intro l
    induction l with
    | nil =>
      intro acc
      simp
    | cons e l ih =>
      intro acc
      rw [foldl_cons, ih, String.toList_append, flatMap_cons, append_assoc]
      rfl
  rw [addrSpacesText, String.toList_append, key, append_assoc]
  rfl

theorem compile_addrSpacesText (addrList : List (String × String)) :
    compile (addrSpacesText addrList) = readPairs (body addrList).length (body addrList) := by
  rw [compile, addrSpacesText_toList, consume_append]
  rfl

theorem pairText_head (entry : String × String) (rest : List Char) :
    ∃ cs, (pairText entry).toList ++ rest = 's' :: cs := by
  have hs : pairOpening.toList = 's' :: pairOpening.toList.tail := by decide
  rw [pairText_toList, hs]
  exact ⟨_, rfl⟩

theorem pairText_ne_closing (entry : String × String) (rest : List Char) :
    (pairText entry).toList ++ rest ≠ closing.toList := by
  have hc : closing.toList = ['\x7d', ';'] := by decide
  obtain ⟨cs, hcs⟩ := pairText_head entry rest
  rw [hcs, hc]
  simp

theorem readPairs_cons (h₁ : HexText entry.1 b.1)
    (h₂ : HexText entry.2 b.2) (n : ℕ) (rest : List Char) :
    readPairs (n + 1) ((pairText entry).toList ++ rest) =
      if rest = closing.toList then some [(Int32.ofNat b.1.toNat, Int32.ofNat b.2.toNat)]
      else (consume [','] rest).bind fun cs => (readPairs n cs).bind fun as =>
        some ((Int32.ofNat b.1.toNat, Int32.ofNat b.2.toNat) :: as) := by
  rw [readPairs, if_neg (pairText_ne_closing entry rest), readPair_pairText h₁ h₂]
  rfl

theorem body_length (entry : String × String) (l : List (String × String)) :
    ∃ n, (body (entry :: l)).length = n + 1 := by
  obtain ⟨cs, hcs⟩ := pairText_head entry (body l)
  refine ⟨cs.length, ?_⟩
  rw [body, flatMap_cons, append_assoc]
  exact congrArg List.length hcs

theorem compile_single (h₁ : HexText entry.1 b.1) (h₂ : HexText entry.2 b.2) :
    compile (addrSpacesText [entry]) =
      some [(Int32.ofNat b.1.toNat, Int32.ofNat b.2.toNat)] := by
  obtain ⟨n, hn⟩ := body_length entry []
  rw [compile_addrSpacesText, hn, body, flatMap_cons, flatMap_nil, append_nil,
    readPairs_cons h₁ h₂, if_pos rfl]

theorem compile_more {entry' : String × String} {l : List (String × String)}
    (h₁ : HexText entry.1 b.1) (h₂ : HexText entry.2 b.2) :
    compile (addrSpacesText (entry :: entry' :: l)) = none := by
  obtain ⟨n, hn⟩ := body_length entry (entry' :: l)
  obtain ⟨cs, hcs⟩ := pairText_head entry' (body l)
  have hrest : body (entry' :: l) = 's' :: cs := by
    rw [body, flatMap_cons, append_assoc]
    exact hcs
  rw [compile_addrSpacesText, hn, body, flatMap_cons, append_assoc, readPairs_cons h₁ h₂]
  change (if body (entry' :: l) = closing.toList then _ else _) = none
  rw [if_neg (by rw [hrest, ← hcs]; exact pairText_ne_closing entry' (body l))]
  change ((consume [','] (body (entry' :: l))).bind _) = none
  rw [hrest]
  rfl

theorem toNat_narrowed (x : Ptr) :
    (narrowed x).toNat = x.toNat % 2 ^ 32 + if 2 ^ 31 ≤ x.toNat % 2 ^ 32 then 2 ^ 64 - 2 ^ 32
      else 0 := by
  have hbits : (narrowed x).toBitVec = (BitVec.ofNat 32 x.toNat).signExtend 64 := rfl
  rw [← UInt64.toNat_toBitVec, hbits, BitVec.toNat_signExtend]
  have hmsb : (BitVec.ofNat 32 x.toNat).msb = decide (2 ^ 31 ≤ x.toNat % 2 ^ 32) := by
    rw [BitVec.msb_eq_decide, BitVec.toNat_ofNat]
  simp only [hmsb, decide_eq_true_eq, BitVec.toNat_setWidth, BitVec.toNat_ofNat]
  split_ifs <;> omega

/-- The bounds that survive the conversion: the lower half of the positive `int`s and the
pointers that are negative `int`s. -/
def FitsInt (x : Ptr) : Prop := x.toNat < 2 ^ 31 ∨ 2 ^ 64 - 2 ^ 31 ≤ x.toNat

theorem narrowed_eq_iff (x : Ptr) : narrowed x = x ↔ FitsInt x := by
  rw [← UInt64.toNat_inj, toNat_narrowed, FitsInt]
  have hx := x.toNat_lt
  split_ifs <;> omega

theorem interval_eq_iff {s e s' e' : Ptr} :
    (∀ p, (s' ≤ p ∧ p ≤ e') ↔ (s ≤ p ∧ p ≤ e)) ↔ (s' = s ∧ e' = e) ∨ (e < s ∧ e' < s') := by
  simp only [UInt64.le_iff_toNat_le, UInt64.lt_iff_toNat_lt, ← UInt64.toNat_inj]
  constructor
  · intro h
    have hs := h s
    have he := h e
    have hs' := h s'
    have he' := h e'
    omega
  · rintro (⟨hs, he⟩ | ⟨h, h'⟩) p
    · rw [hs, he]
    · omega

/-- The two generated functions decide by the bounds of the specification. -/
def Filters (spaces : List (Int32 × Int32)) (bounds : List (Ptr × Ptr)) : Prop :=
  ∀ p, shouldTranslate spaces p = covered bounds p ∧
    checkBoundsAndTranslate spaces p = if covered bounds p then p else 0

theorem filters_iff {spaces : List (Int32 × Int32)} {bounds : List (Ptr × Ptr)} :
    Filters spaces bounds ↔ ∀ p, shouldTranslate spaces p = covered bounds p := by
  refine ⟨fun h p => (h p).1, fun h p => ⟨h p, ?_⟩⟩
  rw [← h p]
  rfl

/-- The generated functions match the specification exactly when it lists at most one address
space, and its bounds survive the conversion to `int` or it is empty before and after. -/
theorem addr_filter_iff {addrList : List (String × String)} {bounds : List (Ptr × Ptr)}
    (h : List.Forall₂ (fun entry b => HexText entry.1 b.1 ∧ HexText entry.2 b.2) addrList bounds) :
    (∃ spaces, compile (addrSpacesText addrList) = some spaces ∧ Filters spaces bounds) ↔
      bounds = [] ∨ ∃ s e, bounds = [(s, e)] ∧
        ((FitsInt s ∧ FitsInt e) ∨ (e < s ∧ narrowed e < narrowed s)) := by
  cases h with
  | nil =>
    refine ⟨fun _ => .inl rfl, fun _ => ⟨[], ?_, ?_⟩⟩
    · decide
    · exact filters_iff.mpr fun p => rfl
  | @cons entry b addrList bounds hb hrest =>
    cases hrest with
    | nil =>
      have hiff : (∃ spaces, compile (addrSpacesText [entry]) = some spaces ∧ Filters spaces [b]) ↔
          ∀ p, (narrowed b.1 ≤ p ∧ p ≤ narrowed b.2) ↔ (b.1 ≤ p ∧ p ≤ b.2) := by
        rw [compile_single hb.1 hb.2]
        simp only [Option.some.injEq, exists_eq_left', filters_iff]
        refine forall_congr' fun p => ?_
        rw [Bool.eq_iff_iff]
        simp [shouldTranslate, inSpace, covered, narrowed]
      rw [hiff, interval_eq_iff, narrowed_eq_iff, narrowed_eq_iff]
      constructor
      · exact fun hc => .inr ⟨b.1, b.2, rfl, hc⟩
      · rintro (hc | ⟨s, e, hc, hcond⟩)
        · cases hc
        · cases hc
          exact hcond
    | cons hb' hrest' =>
      constructor
      · rintro ⟨spaces, hsp, -⟩
        rw [compile_more hb.1 hb.2] at hsp
        cases hsp
      · rintro (hc | ⟨s, e, hc, -⟩)
        · cases hc
        · cases hc

/-- Bounds above the range of `int` become others, and two address spaces do not compile. -/
theorem addr_filter_misses :
    compile (addrSpacesText [("0x100000000", "0x17fffffff")]) = some [(0, 0x7fffffff)] ∧
    shouldTranslate [(0, 0x7fffffff)] 0x150000000 = false ∧
    covered [(0x100000000, 0x17fffffff)] 0x150000000 = true ∧
    compile (addrSpacesText [("0x1000", "0x1fff"), ("0x4000", "0x4fff")]) = none := by
  decide +kernel

/-- The one address space of the specification that is shipped: every pointer. -/
theorem addr_filter_shipped :
    ∃ spaces, compile (addrSpacesText [("0x0000000000000000", "0xFFFFFFFFFFFFFFFF")]) =
      some spaces ∧
      Filters spaces [(0, 0xFFFFFFFFFFFFFFFF)] := by
  have hlow : HexText "0x0000000000000000" 0 :=
    ⟨'x', List.replicate 16 '0', by decide, by decide, by decide,
      fun c hc => by rw [eq_of_mem_replicate hc]; decide, by decide⟩
  have hhigh : HexText "0xFFFFFFFFFFFFFFFF" 0xFFFFFFFFFFFFFFFF :=
    ⟨'x', List.replicate 16 'F', by decide, by decide, by decide,
      fun c hc => by rw [eq_of_mem_replicate hc]; decide, by decide⟩
  refine (addr_filter_iff (.cons ⟨hlow, hhigh⟩ .nil)).mpr (.inr ⟨_, _, rfl, .inl ⟨?_, ?_⟩⟩)
  · exact .inl (by decide)
  · exact .inr (by decide)

end HetSim.Tracer
