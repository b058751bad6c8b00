import HetSim.Library.Numerals

/-!
# Words of a text

The words a C++ stream extracts from a text: the longest runs without white space. A text put
together word by word, with white space after each, is taken apart into the same words.
-/

namespace HetSim.Words

def isSpace (c : Char) : Bool := c ∈ [' ', '\t', '\n', '\x0b', '\x0c', '\r']

def wordsFrom (w : List Char) : List Char → List String
  | [] => if w = [] then [] else [String.ofList w]
  | c :: cs =>
    if isSpace c then
      if w = [] then wordsFrom [] cs else String.ofList w :: wordsFrom [] cs
    else wordsFrom (w ++ [c]) cs

def words (text : String) : List String := wordsFrom [] text.toList

def Plain (cs : List Char) : Prop := ∀ c ∈ cs, isSpace c = false

theorem Plain.append {cs cs' : List Char} (h : Plain cs) (h' : Plain cs') : Plain (cs ++ cs') := by
  intro c hc
  rcases List.mem_append.mp hc with hc | hc
  · exact h c hc
  · exact h' c hc

theorem wordsFrom_plain {cs : List Char} (h : Plain cs) (w rest : List Char) :
    wordsFrom w (cs ++ rest) = wordsFrom (w ++ cs) rest := by
  induction cs generalizing w with
  | nil => simp
  | cons c cs ih =>
    have hc : isSpace c = false := h c List.mem_cons_self
    have hcs : Plain cs := fun c' hc' => h c' (List.mem_cons_of_mem c hc')
    rw [List.cons_append, wordsFrom, hc, if_neg Bool.false_ne_true, ih hcs, List.append_assoc,
      List.singleton_append]

theorem wordsFrom_word {cs rest : List Char} {c : Char} (h : Plain cs) (hne : cs ≠ [])
    (hc : isSpace c = true) :
    wordsFrom [] (cs ++ c :: rest) = String.ofList cs :: wordsFrom [] rest := by
  rw [wordsFrom_plain h, List.nil_append, wordsFrom, if_pos hc, if_neg hne]

theorem wordsFrom_space {c : Char} (hc : isSpace c = true) (rest : List Char) :
    wordsFrom [] (c :: rest) = wordsFrom [] rest := by
  rw [wordsFrom, if_pos hc, if_pos rfl]

section Numerals

open Numerals

theorem mem_toDigits {base n : ℕ} {c : Char} (h₂ : 1 < base) (hc : c ∈ Nat.toDigits base n) :
    ∃ d < base, c = d.digitChar := by
  induction n using Nat.strong_induction_on with
  | _ n ih =>
    rw [Nat.toDigits_eq_if h₂] at hc
    split_ifs at hc with hn
    · exact ⟨n, hn, List.mem_singleton.mp hc⟩
    · rcases List.mem_append.mp hc with hc | hc
      · exact ih (n / base) (Nat.div_lt_self (by omega) h₂) hc
      · exact ⟨n % base, Nat.mod_lt n (by omega), List.mem_singleton.mp hc⟩

theorem plain_toDigits {base : ℕ} (h₂ : 1 < base) (hb : base ≤ 16) (n : ℕ) :
    Plain (Nat.toDigits base n) := by
  have key : ∀ d < 16, isSpace d.digitChar = false := by decide
  intro c hc
  obtain ⟨d, hd, rfl⟩ := mem_toDigits h₂ hc
  exact key d (by omega)

theorem plain_hex (n : ℕ) : Plain (hex n).toList := by
  unfold hex
  rw [String.toList_ofList]
  split_ifs
  · exact fun c hc => by rw [List.mem_singleton.mp hc]; rfl
  · have hzero : Plain ['0', 'x'] := by simp [Plain, isSpace]
    exact hzero.append (plain_toDigits (by decide) (by decide) n)

theorem plain_decimal (z : ℤ) : Plain (decimal z).toList := by
  have hd := plain_toDigits (by decide : 1 < 10) (by decide) z.natAbs
  have hminus : Plain ['-'] := by simp [Plain, isSpace]
  unfold decimal
  rw [String.toList_ofList]
  split_ifs
  · exact hminus.append hd
  · exact hd

theorem hex_ne_nil (n : ℕ) : (hex n).toList ≠ [] := by
  unfold hex
  rw [String.toList_ofList]
  split_ifs <;> simp

end Numerals

end HetSim.Words
