import HetSim.Library.Checked

/-!
# Numerals as the C library reads them

`strtol`: an optional sign, for base sixteen an optional `0x` in front of a digit, and the longest
run of digits; what follows is left unread. The C++ wrappers reject a text without digits and a
value outside the result type. `decimal` and `hex` print numbers as the C++ streams do.
-/

namespace HetSim.Numerals

inductive NumError
  | invalidArgument
  | outOfRange
  deriving DecidableEq, Repr

def digitValue (c : Char) : Option ℕ :=
  if '0' ≤ c ∧ c ≤ '9' then some (c.toNat - '0'.toNat)
  else if 'a' ≤ c ∧ c ≤ 'z' then some (c.toNat - 'a'.toNat + 10)
  else if 'A' ≤ c ∧ c ≤ 'Z' then some (c.toNat - 'A'.toNat + 10)
  else none

def digit (base : ℕ) (c : Char) : Option ℕ := (digitValue c).filter (· < base)

def digits (base : ℕ) : List Char → List ℕ
  | [] => []
  | c :: cs =>
    match digit base c with
    | some d => d :: digits base cs
    | none => []

def value (base : ℕ) (ds : List ℕ) : ℕ := ds.foldl (fun n d => n * base + d) 0

def dropHexPrefix : List Char → List Char
  | '0' :: x :: d :: cs =>
    if (x = 'x' ∨ x = 'X') ∧ (digit 16 d).isSome then d :: cs else '0' :: x :: d :: cs
  | cs => cs

def magnitude (base : ℕ) (cs : List Char) : Option ℕ :=
  match digits base (if base = 16 then dropHexPrefix cs else cs) with
  | [] => none
  | d :: ds => some (value base (d :: ds))

def strtol (base : ℕ) : List Char → Option ℤ
  | '-' :: cs => (magnitude base cs).map fun n => -(n : ℤ)
  | '+' :: cs => (magnitude base cs).map fun n => (n : ℤ)
  | cs => (magnitude base cs).map fun n => (n : ℤ)

def signed (bits base : ℕ) (word : String) : Except NumError ℤ :=
  match strtol base word.toList with
  | none => .error .invalidArgument
  | some v => if -2 ^ (bits - 1) ≤ v ∧ v < 2 ^ (bits - 1) then .ok v else .error .outOfRange

def stol (base : ℕ) (word : String) : Except NumError ℤ := signed 64 base word

def stoi (base : ℕ) (word : String) : Except NumError ℤ := signed 32 base word

example : stol 16 "0x7f" = .ok 127 := by decide

example : stol 16 "-1" = .ok (-1) := by decide

example : stol 10 ")" = .error .invalidArgument := by decide

def decimal (z : ℤ) : String :=
  String.ofList (if z < 0 then '-' :: Nat.toDigits 10 z.natAbs else Nat.toDigits 10 z.natAbs)

def hex (n : ℕ) : String :=
  String.ofList (if n = 0 then ['0'] else '0' :: 'x' :: Nat.toDigits 16 n)

theorem digit_digitChar {base d : ℕ} (hb : base ≤ 16) (hd : d < base) :
    digit base d.digitChar = some d := by
  have key : ∀ b ≤ 16, ∀ d < b, digit b d.digitChar = some d := by decide
  exact key base hb d hd

@[simp] theorem value_append_singleton (base : ℕ) (ds : List ℕ) (d : ℕ) :
    value base (ds ++ [d]) = value base ds * base + d := by
  simp [value]

theorem digits_toDigits_append {base : ℕ} (h₂ : 1 < base) (hb : base ≤ 16) (n : ℕ) :
    ∃ ds, ds ≠ [] ∧ value base ds = n ∧
      ∀ cs, digits base (Nat.toDigits base n ++ cs) = ds ++ digits base cs := by
  induction n using Nat.strong_induction_on with
  | _ n ih =>
    by_cases hn : n < base
    · refine ⟨[n], by simp, by simp [value], fun cs => ?_⟩
      rw [Nat.toDigits_of_lt_base hn, List.singleton_append, digits, digit_digitChar hb hn]
      rfl
    · obtain ⟨ds, -, hv, hds⟩ := ih (n / base) (Nat.div_lt_self (by omega) h₂)
      refine ⟨ds ++ [n % base], by simp, ?_, fun cs => ?_⟩
      · rw [value_append_singleton, hv, Nat.div_add_mod']
      · have hd := digit_digitChar hb (Nat.mod_lt n (by omega : 0 < base))
        rw [Nat.toDigits_eq_if h₂, if_neg hn, List.append_assoc, hds, List.singleton_append, digits,
          hd, List.append_assoc]
        rfl

theorem digits_toDigits {base : ℕ} (h₂ : 1 < base) (hb : base ≤ 16) (n : ℕ) :
    ∃ d ds, digits base (Nat.toDigits base n) = d :: ds ∧ value base (d :: ds) = n := by
  obtain ⟨ds, hne, hv, hds⟩ := digits_toDigits_append h₂ hb n
  have h := hds []
  rw [List.append_nil, digits, List.append_nil] at h
  cases ds with
  | nil => exact absurd rfl hne
  | cons d ds => exact ⟨d, ds, h, hv⟩

theorem magnitude_decimal (n : ℕ) : magnitude 10 (Nat.toDigits 10 n) = some n := by
  obtain ⟨d, ds, h, hv⟩ := digits_toDigits (by decide : 1 < 10) (by decide) n
  simp only [magnitude, show ¬ (10 = 16) by decide, if_false, h, hv]

theorem toDigits_head {base : ℕ} (h₂ : 1 < base) (hb : base ≤ 16) (n : ℕ) :
    ∃ c cs d, Nat.toDigits base n = c :: cs ∧ digit base c = some d := by
  obtain ⟨d, ds, h, -⟩ := digits_toDigits h₂ hb n
  cases hcs : Nat.toDigits base n with
  | nil =>
    rw [hcs] at h
    cases h
  | cons c cs =>
    rw [hcs, digits] at h
    cases hc : digit base c with
    | none =>
      rw [hc] at h
      cases h
    | some e => exact ⟨c, cs, e, rfl, hc⟩

theorem magnitude_hex (n : ℕ) : magnitude 16 ('0' :: 'x' :: Nat.toDigits 16 n) = some n := by
  obtain ⟨d, ds, h, hv⟩ := digits_toDigits (by decide : 1 < 16) (by decide) n
  obtain ⟨c, cs, e, hcs, hc⟩ := toDigits_head (by decide : 1 < 16) (by decide) n
  have hdrop : dropHexPrefix ('0' :: 'x' :: Nat.toDigits 16 n) = Nat.toDigits 16 n := by
    simp [hcs, dropHexPrefix, hc]
  simp only [magnitude, if_true, hdrop, h, hv]

theorem strtol_hex (n : ℕ) : strtol 16 (hex n).toList = some (n : ℤ) := by
  unfold hex
  split_ifs with hn
  · subst hn
    decide
  · rw [String.toList_ofList, strtol, magnitude_hex]
    · rfl
    · simp
    · simp

theorem strtol_decimal (z : ℤ) : strtol 10 (decimal z).toList = some z := by
  unfold decimal
  split_ifs with hz
  · rw [String.toList_ofList, strtol, magnitude_decimal]
    change some (-(z.natAbs : ℤ)) = some z
    rw [Option.some.injEq]
    omega
  · obtain ⟨c, cs, d, hcs, hc⟩ := toDigits_head (by decide : 1 < 10) (by decide) z.natAbs
    have hm : c ≠ '-' := by
      rintro rfl
      cases hc
    have hp : c ≠ '+' := by
      rintro rfl
      cases hc
    have hmag := magnitude_decimal z.natAbs
    rw [String.toList_ofList, hcs] at *
    rw [strtol, hmag]
    · change some (z.natAbs : ℤ) = some z
      rw [Option.some.injEq]
      omega
    · exact fun l h => hm (List.cons.inj h).1
    · exact fun l h => hp (List.cons.inj h).1

theorem stol_hex {n : ℕ} (h : n < 2 ^ 63) : stol 16 (hex n) = .ok (n : ℤ) := by
  have hr : -2 ^ (64 - 1) ≤ (n : ℤ) ∧ (n : ℤ) < 2 ^ (64 - 1) := by
    norm_num at *
    omega
  rw [stol, signed, strtol_hex]
  exact if_pos hr

theorem stol_hex_of_le {n : ℕ} (h : 2 ^ 63 ≤ n) : stol 16 (hex n) = .error .outOfRange := by
  have hr : ¬ (-2 ^ (64 - 1) ≤ (n : ℤ) ∧ (n : ℤ) < 2 ^ (64 - 1)) := by
    norm_num at *
    omega
  rw [stol, signed, strtol_hex]
  exact if_neg hr

theorem stol_decimal {z : ℤ} (h₁ : -2 ^ 63 ≤ z) (h₂ : z < 2 ^ 63) :
    stol 10 (decimal z) = .ok z := by
  rw [stol, signed, strtol_decimal]
  exact if_pos ⟨h₁, h₂⟩

example : hex 4096 = "0x1000" := by decide

end HetSim.Numerals
