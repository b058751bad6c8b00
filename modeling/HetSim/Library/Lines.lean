import Mathlib

/-!
# Lines of a text

A text is read as lines that end with a newline, except perhaps the last one. The lines between
two markers are replaced: what is put there last remains, if it has no closing marker itself.
-/

namespace HetSim.Lines

open List

abbrev Line := List Char

def readFrom (line : Line) : List Char → List Line
  | [] => if line = [] then [] else [line]
  | c :: cs => if c = '\n' then (line ++ [c]) :: readFrom [] cs else readFrom (line ++ [c]) cs

def readlines (text : List Char) : List Line := readFrom [] text

def terminated (line : Line) : Line := line.rdropWhile (· = '\n') ++ ['\n']

def writelines (lines : List Line) : List Char := lines.flatMap terminated

section Text
variable {line body : Line} {lines : List Line} {text : List Char}

/-- A newline is at most at the end of the line. -/
def Proper (line : Line) : Prop := ∃ body, '\n' ∉ body ∧ (line = body ∨ line = body ++ ['\n'])

theorem terminated_body (h : '\n' ∉ body) : terminated body = body ++ ['\n'] := by
  rw [terminated, rdropWhile_eq_self_iff.mpr]
  intro hne
  have hlast := getLast_mem hne
  rw [decide_eq_true_eq]
  intro heq
  rw [heq] at hlast
  exact h hlast

theorem terminated_concat (h : '\n' ∉ body) : terminated (body ++ ['\n']) = body ++ ['\n'] := by
  rw [terminated, rdropWhile_concat_pos _ _ _ (by simp)]
  exact terminated_body h

theorem Proper.terminated_eq (h : Proper line) :
    ∃ body, '\n' ∉ body ∧ terminated line = body ++ ['\n'] ∧
      (line = body ∨ line = body ++ ['\n']) := by
  obtain ⟨body, hbody, rfl | rfl⟩ := h
  · exact ⟨line, hbody, terminated_body hbody, .inl rfl⟩
  · exact ⟨body, hbody, terminated_concat hbody, .inr rfl⟩

theorem Proper.terminated_idem (h : Proper line) :
    terminated (terminated line) = terminated line := by
  obtain ⟨body, hbody, heq, -⟩ := h.terminated_eq
  rw [heq, terminated_concat hbody]

theorem readFrom_proper (h : '\n' ∉ line) : ∀ l ∈ readFrom line text, Proper l := by
  induction text generalizing line with
  | nil =>
    rw [readFrom]
    split_ifs
    · simp
    · intro l hl
      rw [mem_singleton.mp hl]
      exact ⟨line, h, .inl rfl⟩
  | cons c text ih =>
    rw [readFrom]
    split_ifs with hc
    · intro l hl
      rcases mem_cons.mp hl with rfl | hl
      · exact ⟨line, h, .inr (by rw [hc])⟩
      · exact ih not_mem_nil l hl
    · refine ih ?_
      simp only [mem_append, mem_singleton, not_or]
      exact ⟨h, Ne.symm hc⟩

theorem readlines_proper : ∀ l ∈ readlines text, Proper l := readFrom_proper not_mem_nil

theorem readFrom_body (h : '\n' ∉ body) :
    readFrom line (body ++ '\n' :: text) = (line ++ body ++ ['\n']) :: readlines text := by
  induction body generalizing line with
  | nil => simp [readFrom, readlines]
  | cons c body ih =>
    rw [mem_cons, not_or] at h
    rw [cons_append, readFrom, if_neg (Ne.symm h.1), ih h.2]
    simp

theorem readlines_writelines (h : ∀ l ∈ lines, Proper l) :
    readlines (writelines lines) = lines.map terminated := by
  induction lines with
  | nil => rfl
  | cons line lines ih =>
    rw [forall_mem_cons] at h
    obtain ⟨body, hbody, heq, -⟩ := h.1.terminated_eq
    rw [writelines, flatMap_cons, heq, append_assoc, singleton_append, readlines,
      readFrom_body hbody, map_cons, heq, ← ih h.2]
    rfl

end Text

section Regions
variable (begins ends : Line → Bool)

/-- The lines behind an opening marker are left out up to the closing one, and the lines of
`block` take their place. The flag says if the marker is open. -/
def rewrite (block : List Line) : Bool → List Line → List Line
  | _, [] => []
  | true, l :: ls => if ends l then l :: rewrite block false ls else rewrite block true ls
  | false, l :: ls =>
    if begins l then l :: (block ++ rewrite block true ls) else l :: rewrite block false ls

def openAfter : Bool → List Line → Bool
  | opened, [] => opened
  | true, l :: ls => openAfter (!ends l) ls
  | false, l :: ls => openAfter (begins l) ls

variable {begins ends} {block block' ls ls' : List Line} {opened : Bool} {l : Line}

theorem rewrite_block (h : ∀ l ∈ block', ends l = false) :
    rewrite begins ends block true (block' ++ ls) = rewrite begins ends block true ls := by
  induction block' with
  | nil => rfl
  | cons l block' ih =>
    rw [forall_mem_cons] at h
    rw [cons_append, rewrite, if_neg (by rw [h.1]; exact Bool.false_ne_true), ih h.2]

theorem rewrite_rewrite (h : ∀ l ∈ block', ends l = false) :
    rewrite begins ends block opened (rewrite begins ends block' opened ls) =
      rewrite begins ends block opened ls := by
  induction ls generalizing opened with
  | nil => cases opened <;> rfl
  | cons l ls ih =>
    cases opened with
    | true =>
      by_cases hl : ends l = true
      · rw [rewrite, rewrite, if_pos hl, if_pos hl, rewrite, if_pos hl, ih]
      · rw [rewrite, rewrite, if_neg hl, if_neg hl, ih]
    | false =>
      by_cases hl : begins l = true
      · rw [rewrite, rewrite, if_pos hl, if_pos hl, rewrite, if_pos hl, rewrite_block h, ih]
      · rw [rewrite, rewrite, if_neg hl, if_neg hl, rewrite, if_neg hl, ih]

theorem rewrite_terminated (hb : ∀ l ∈ ls, begins (terminated l) = begins l)
    (he : ∀ l ∈ ls, ends (terminated l) = ends l) (hls : ∀ l ∈ ls, Proper l) :
    (rewrite begins ends block opened (ls.map terminated)).map terminated =
      (rewrite begins ends block opened ls).map terminated := by
  induction ls generalizing opened with
  | nil => cases opened <;> rfl
  | cons l ls ih =>
    rw [forall_mem_cons] at hb he hls
    have ih {opened : Bool} :
        (rewrite begins ends block opened (ls.map terminated)).map terminated =
        (rewrite begins ends block opened ls).map terminated := ih hb.2 he.2 hls.2
    have hidem := hls.1.terminated_idem
    cases opened with
    | true =>
      rw [map_cons, rewrite, rewrite, he.1]
      split_ifs
      · rw [map_cons, map_cons, hidem, ih]
      · rw [ih]
    | false =>
      rw [map_cons, rewrite, rewrite, hb.1]
      split_ifs
      · rw [map_cons, map_cons, hidem, map_append, map_append, ih]
      · rw [map_cons, map_cons, hidem, ih]

theorem mem_rewrite (h : l ∈ rewrite begins ends block opened ls) : l ∈ block ∨ l ∈ ls := by
  induction ls generalizing opened with
  | nil => cases opened <;> exact absurd h not_mem_nil
  | cons k ls ih =>
    cases opened with
    | true =>
      rw [rewrite] at h
      split_ifs at h
      · rcases mem_cons.mp h with rfl | h
        · exact .inr mem_cons_self
        · exact (ih h).imp_right (mem_cons_of_mem k)
      · exact (ih h).imp_right (mem_cons_of_mem k)
    | false =>
      rw [rewrite] at h
      split_ifs at h
      · rcases mem_cons.mp h with rfl | h
        · exact .inr mem_cons_self
        · rcases mem_append.mp h with h | h
          · exact .inl h
          · exact (ih h).imp_right (mem_cons_of_mem k)
      · rcases mem_cons.mp h with rfl | h
        · exact .inr mem_cons_self
        · exact (ih h).imp_right (mem_cons_of_mem k)

theorem rewrite_append : rewrite begins ends block opened (ls ++ ls') =
    rewrite begins ends block opened ls ++
      rewrite begins ends block (openAfter begins ends opened ls) ls' := by
  induction ls generalizing opened with
  | nil => cases opened <;> rfl
  | cons l ls ih =>
    cases opened with
    | true =>
      rw [cons_append, rewrite, rewrite, openAfter]
      cases ends l with
      | true => exact congrArg (l :: ·) ih
      | false => exact ih
    | false =>
      rw [cons_append, rewrite, rewrite, openAfter]
      cases begins l with
      | true =>
        rw [if_pos rfl, if_pos rfl, ih, cons_append, append_assoc]
      | false => exact congrArg (l :: ·) ih

theorem openAfter_concat : openAfter begins ends opened (ls ++ [l]) =
    if openAfter begins ends opened ls then !ends l else begins l := by
  induction ls generalizing opened with
  | nil => cases opened <;> rfl
  | cons k ls ih => cases opened <;> exact ih

/-! ### The lines outside of the regions -/

variable (begins ends) in
def Open (ls : List Line) (k : ℕ) : Prop :=
  ∃ i < k, ls[i]?.any begins = true ∧ ∀ m < k, i < m → ls[m]?.any ends = false

instance (k : ℕ) : Decidable (Open begins ends ls k) :=
  inferInstanceAs (Decidable (∃ i < k, _))

variable (begins ends) in
def Inside (ls : List Line) (k : ℕ) : Prop := Open begins ends ls k ∧ ls[k]?.any ends = false

instance (k : ℕ) : Decidable (Inside begins ends ls k) := inferInstanceAs (Decidable (_ ∧ _))

variable (begins ends) in
def Balanced (ls : List Line) : Prop :=
  ∀ i : ℕ, ls[i]?.any begins = true →
    ∃ j, i < j ∧ ls[j]?.any ends = true ∧ ∀ k, i < k → k ≤ j → ls[k]?.any begins = false

variable (begins ends block) in
def keep (ls : List Line) (k : ℕ) : List Line :=
  if Inside begins ends ls k then [] else
    match ls[k]? with
    | none => []
    | some l => if begins l then l :: block else [l]

theorem Balanced.not_open (h : Balanced begins ends ls) {k : ℕ} (hk : ls[k]?.any begins = true) :
    ¬ Open begins ends ls k := by
  rintro ⟨i, hik, hi, hnone⟩
  obtain ⟨j, hij, hj, hnext⟩ := h i hi
  rcases Nat.lt_or_ge j k with hjk | hkj
  · rw [hnone j hjk hij] at hj
    exact nomatch hj
  · rw [hnext k hik hkj] at hk
    exact nomatch hk

theorem open_succ {k : ℕ} (hno : ls[k]?.any begins = true → ¬ Open begins ends ls k) :
    Open begins ends ls (k + 1) ↔
      if Open begins ends ls k then ls[k]?.any ends = false else ls[k]?.any begins = true := by
  refine ⟨?_, ?_⟩
  · rintro ⟨i, hi, hbegin, hnone⟩
    rcases Nat.lt_succ_iff_lt_or_eq.mp hi with hlt | rfl
    · rw [if_pos ⟨i, hlt, hbegin, fun m hm => hnone m (Nat.lt_succ_of_lt hm)⟩]
      exact hnone k (Nat.lt_succ_self k) hlt
    · rw [if_neg (hno hbegin)]
      exact hbegin
  · split_ifs with hopen
    · obtain ⟨i, hi, hbegin, hnone⟩ := hopen
      refine fun hend => ⟨i, Nat.lt_succ_of_lt hi, hbegin, fun m hm him => ?_⟩
      rcases Nat.lt_succ_iff_lt_or_eq.mp hm with hlt | rfl
      · exact hnone m hlt him
      · exact hend
    · exact fun hbegin => ⟨k, Nat.lt_succ_self k, hbegin, fun m hm hkm => absurd hm (by omega)⟩

theorem Balanced.rewrite_take (h : Balanced begins ends ls) {n : ℕ} (hn : n ≤ ls.length) :
    rewrite begins ends block false (ls.take n) =
        (List.range n).flatMap (keep begins ends block ls) ∧
      openAfter begins ends false (ls.take n) = decide (Open begins ends ls n) := by
  induction n with
  | zero =>
    refine ⟨rfl, (decide_eq_false ?_).symm⟩
    rintro ⟨i, hi, -⟩
    exact absurd hi (Nat.not_lt_zero i)
  | succ n ih =>
    obtain ⟨ihlines, ihopen⟩ := ih (by omega)
    have hlt : n < ls.length := hn
    have hget : ls[n]? = some ls[n] := List.getElem?_eq_getElem hlt
    have hsucc := open_succ (k := n) h.not_open
    rw [hget, Option.any_some, Option.any_some] at hsucc
    rw [take_add_one, hget, Option.toList_some, rewrite_append, openAfter_concat, ihlines, ihopen,
      range_succ, flatMap_append, flatMap_singleton]
    refine ⟨congrArg (_ ++ ·) ?_, ?_⟩
    · by_cases hopen : Open begins ends ls n
      · have hbegin : begins ls[n] = false := by
          rw [Bool.eq_false_iff]
          intro hb
          exact h.not_open (by rw [hget, Option.any_some, hb]) hopen
        cases hend : ends ls[n] with
        | true =>
          have hout : ¬ Inside begins ends ls n := by
            rintro ⟨-, hnone⟩
            rw [hget, Option.any_some, hend] at hnone
            exact nomatch hnone
          rw [keep, if_neg hout, decide_eq_true hopen]
          simp [hget, hbegin, hend, rewrite]
        | false =>
          have hin : Inside begins ends ls n := ⟨hopen, by rw [hget, Option.any_some, hend]⟩
          rw [keep, if_pos hin, decide_eq_true hopen]
          simp [hend, rewrite]
      · rw [keep, if_neg fun hinside => hopen hinside.1, decide_eq_false hopen]
        cases hbegin : begins ls[n] <;> simp [hget, hbegin, rewrite]
    · by_cases hopen : Open begins ends ls n
      · rw [if_pos hopen] at hsucc
        simp [hopen, hsucc]
      · rw [if_neg hopen] at hsucc
        simp [hopen, hsucc]

theorem Balanced.rewrite_eq (h : Balanced begins ends ls) :
    rewrite begins ends block false ls =
      (List.range ls.length).flatMap (keep begins ends block ls) := by
  have hall : rewrite begins ends block false (ls.take ls.length) =
      (List.range ls.length).flatMap (keep begins ends block ls) := (h.rewrite_take le_rfl).1
  rwa [take_length] at hall

end Regions

end HetSim.Lines
