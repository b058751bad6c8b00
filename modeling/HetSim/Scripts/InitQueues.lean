import HetSim.Library.Lines
import HetSim.Library.Words

/-!
# The tables of the software queues

`populate_init_queues.py` writes one insertion for each pair of connected cores between two
comments of the sources, in place of the text from before. The name of the queue type has no
slash, so no generated line has a comment in it.
-/

namespace HetSim.Scripts
open Lines Numerals Words

def beginMarker : Line := "// begin generated code for init_queues".toList

def endMarker : Line := "// end generated code for init_queues".toList

def begins (line : Line) : Bool := beginMarker <:+: line

def ends (line : Line) : Bool := endMarker <:+: line

/-- The line for the queue from one core to another. -/
def insertion (structname : String) (conn : ℤ × ℤ) : Line :=
  "    queues.insert(std::make_pair(std::make_pair(".toList ++ (decimal conn.1).toList ++
    ", ".toList ++ (decimal conn.2).toList ++ "), new ".toList ++ structname.toList ++
    "(depth)));".toList ++ ['\n']

/-- The new text of the file. -/
def overwriteInitQueuesCall (connList : List (ℤ × ℤ)) (structname : String) (text : List Char) :
    List Char :=
  writelines (rewrite begins ends (connList.map (insertion structname)) false (readlines text))

variable {structname : String} {connList : List (ℤ × ℤ)} {line body : Line}

section Generated

def TypeName (structname : String) : Prop := '/' ∉ structname.toList ∧ '\n' ∉ structname.toList

instance (structname : String) : Decidable (TypeName structname) :=
  inferInstanceAs (Decidable (_ ∧ _))

theorem not_mem_decimal {c : Char} (hminus : c ≠ '-') (hdigit : ∀ d < 10, c ≠ d.digitChar) (n : ℤ) :
    c ∉ (decimal n).toList := by
  have hdigits (m : ℕ) : c ∉ Nat.toDigits 10 m := by
    intro hc
    obtain ⟨d, hd, heq⟩ := mem_toDigits (by decide) hc
    exact hdigit d hd heq
  unfold decimal
  split_ifs
  · simpa [hminus] using hdigits _
  · simpa using hdigits _

theorem insertion_body (hname : TypeName structname) (conn : ℤ × ℤ) :
    ∃ body, '/' ∉ body ∧ '\n' ∉ body ∧ insertion structname conn = body ++ ['\n'] := by
  have hslash := not_mem_decimal (c := '/') (by decide) (by decide)
  have hnewline := not_mem_decimal (c := '\n') (by decide) (by decide)
  refine ⟨_, ?_, ?_, rfl⟩
  · simp only [List.mem_append, not_or]
    exact ⟨⟨⟨⟨⟨⟨by decide, hslash _⟩, by decide⟩, hslash _⟩, by decide⟩, hname.1⟩, by decide⟩
  · simp only [List.mem_append, not_or]
    exact ⟨⟨⟨⟨⟨⟨by decide, hnewline _⟩, by decide⟩, hnewline _⟩, by decide⟩, hname.2⟩, by decide⟩

theorem insertion_proper (hname : TypeName structname) :
    ∀ l ∈ connList.map (insertion structname), Proper l := by
  intro l hl
  obtain ⟨conn, -, rfl⟩ := List.mem_map.mp hl
  obtain ⟨body, -, hbody, heq⟩ := insertion_body hname conn
  exact ⟨body, hbody, .inr heq⟩

theorem insertion_ends (hname : TypeName structname) :
    ∀ l ∈ connList.map (insertion structname), ends l = false := by
  intro l hl
  obtain ⟨conn, -, rfl⟩ := List.mem_map.mp hl
  obtain ⟨body, hbody, -, heq⟩ := insertion_body hname conn
  refine decide_eq_false fun hinfix => ?_
  have hmem : '/' ∈ insertion structname conn := hinfix.subset (by decide)
  rw [heq, List.mem_append] at hmem
  exact hmem.elim hbody (by decide)

end Generated

section Markers

theorem infix_terminated {marker : Line} (hmarker : '\n' ∉ marker) (h : Proper line) :
    marker <:+: terminated line ↔ marker <:+: line := by
  have hconcat (body : Line) : marker <:+: body ++ ['\n'] ↔ marker <:+: body := by
    rw [List.infix_concat_iff]
    refine ⟨fun h => h.elim (fun hsuffix => ?_) id, .inr⟩
    rcases List.suffix_concat_iff.mp hsuffix with rfl | ⟨t, rfl, -⟩
    · exact List.nil_infix
    · exact absurd (List.mem_append_right t (List.mem_singleton_self _)) hmarker
  obtain ⟨body, -, heq, rfl | rfl⟩ := h.terminated_eq
  · rw [heq, hconcat]
  · rw [heq]

theorem begins_terminated (h : Proper line) : begins (terminated line) = begins line :=
  decide_eq_decide.mpr (infix_terminated (by decide) h)

theorem ends_terminated (h : Proper line) : ends (terminated line) = ends line :=
  decide_eq_decide.mpr (infix_terminated (by decide) h)

end Markers

section Runs
variable {text : List Char}

theorem rewrite_proper (hname : TypeName structname) :
    ∀ l ∈ rewrite begins ends (connList.map (insertion structname)) false (readlines text),
      Proper l := by
  intro l hl
  rcases mem_rewrite hl with hl | hl
  · exact insertion_proper hname l hl
  · exact readlines_proper l hl

/-- The lines of the new text. -/
theorem readlines_overwrite (hname : TypeName structname) :
    readlines (overwriteInitQueuesCall connList structname text) =
      (rewrite begins ends (connList.map (insertion structname)) false (readlines text)).map
        terminated :=
  readlines_writelines (rewrite_proper hname)

theorem overwriteInitQueuesCall_last_wins (hname : TypeName structname)
    (connList₁ connList₂ : List (ℤ × ℤ)) (text : List Char) :
    readlines (overwriteInitQueuesCall connList₂ structname
        (overwriteInitQueuesCall connList₁ structname text)) =
      readlines (overwriteInitQueuesCall connList₂ structname text) ∧
    (Balanced begins ends (readlines text) →
      readlines (overwriteInitQueuesCall connList₁ structname text) =
        ((List.range (readlines text).length).flatMap
          (keep begins ends (connList₁.map (insertion structname)) (readlines text))).map
            terminated) := by
  refine ⟨?_, fun hbalanced => ?_⟩
  · rw [readlines_overwrite hname, readlines_overwrite hname, readlines_overwrite hname,
      rewrite_terminated (fun l hl => begins_terminated (rewrite_proper hname l hl))
        (fun l hl => ends_terminated (rewrite_proper hname l hl)) (rewrite_proper hname),
      rewrite_rewrite (insertion_ends hname)]
  · rw [readlines_overwrite hname, hbalanced.rewrite_eq]

/-- A file with one table. -/
def aSource : List Char :=
  "a\n// begin generated code for init_queues\nold\n// end generated code for init_queues\nb".toList

theorem overwriteInitQueuesCall_last_wins_source :
    readlines (overwriteInitQueuesCall [(0, 1)] "q_intfc_t"
        (overwriteInitQueuesCall [(2, -3)] "q_intfc_t" aSource)) =
      readlines (overwriteInitQueuesCall [(0, 1)] "q_intfc_t" aSource) ∧
    readlines (overwriteInitQueuesCall [(0, 1)] "q_intfc_t" aSource) =
      ["a\n".toList, beginMarker ++ ['\n'], insertion "q_intfc_t" (0, 1), endMarker ++ ['\n'],
        "b\n".toList] := by
  have hbalanced : Balanced begins ends (readlines aSource) := by
    intro i hi
    have hlt : i < 5 := by
      by_contra hge
      rw [List.getElem?_eq_none (le_trans (by decide) (not_lt.mp hge))] at hi
      exact nomatch hi
    have hone : ∀ i < 5, (readlines aSource)[i]?.any begins = true → i = 1 := by decide
    obtain rfl := hone i hlt hi
    refine ⟨3, by decide, by decide, fun k hk hk' => ?_⟩
    have hnone : ∀ k < 4, 1 < k → (readlines aSource)[k]?.any begins = false := by decide
    exact hnone k (by omega) hk
  have hname : TypeName "q_intfc_t" := by decide
  refine ⟨(overwriteInitQueuesCall_last_wins hname [(2, -3)] [(0, 1)] aSource).1, ?_⟩
  refine ((overwriteInitQueuesCall_last_wins hname [(0, 1)] [] aSource).2 hbalanced).trans ?_
  decide

end Runs

end HetSim.Scripts
