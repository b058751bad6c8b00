import HetSim.Tracer.Entries

/-!
# The replay reads back what the tracer wrote

An access is read back if its address is a translated one other than null, a program counter
stands between the mnemonic and the address, and every dependency is translated to itself.
-/

namespace HetSim.Tracer
open Checked Numerals Words Replay List

variable {addrSpaces : List (Int32 × Int32)} {op : String} {cmd : TRECmd} {addr : Ptr}
  {deps : List Ptr} {blocking : Bool} {pc : Int32}

/-- Text `text` followed by any other text is read, by the replay's readers and by an
engine's tick, as one access with these fields, and what follows is untouched. -/
def ReadsBack (text : String) (cmd : TRECmd) (blocking : Bool) (pc : Int32) (addr : Ptr)
    (deps : Finset Ptr) : Prop :=
  ∀ rest : String, ∃ ds : List Addr, ds.toFinset = deps ∧
    readEntry (words (text ++ rest)) =
      .ok (.access cmd false blocking (UInt64.ofInt pc.toInt) addr ds, words rest) ∧
    ∀ w i env, (w.tre i).traceFh = words (text ++ rest) → (w.tre i).blocked = false →
      (w.tre i).blockedPkt.deps = ∅ →
      ∃ s', tickNext w i env =
          finishEntry w i env (s', ⟨cmd, false, blocking, UInt64.ofInt pc.toInt⟩) ∧
        s'.paddr = addr ∧ s'.traceFh = words rest ∧
        (s'.blocked = true → s'.blockedPkt =
          ⟨addr, cmd, (w.tre i).blockedPkt.data, false, blocking, (w.tre i).waits ds⟩)

structure Mnemonic (op : String) (cmd : TRECmd) : Prop where
  plain : Plain op.toList
  nonempty : op.toList ≠ []
  word : ∀ b : Bool, isAccess (op ++ if b then "B" else "") = true ∧
    accessCmd (op ++ if b then "B" else "") = cmd ∧
    isUncacheable (op ++ if b then "B" else "") = false ∧
    isBlking (op ++ if b then "B" else "") = b
  alone : ∃ f, readEntry (words (op ++ "")) = .error f

theorem mnemonic_ld : Mnemonic "LD" .ld :=
  ⟨by simp [Plain, isSpace], by simp, by decide, ⟨.number .invalidArgument, by decide⟩⟩

theorem mnemonic_st : Mnemonic "ST" .st :=
  ⟨by simp [Plain, isSpace], by simp, by decide, ⟨.number .invalidArgument, by decide⟩⟩

theorem translated_eq_iff (deps : List Ptr) :
    (deps.map (checkBoundsAndTranslate addrSpaces)).toFinset =
        (deps.filter (shouldTranslate addrSpaces)).toFinset ↔
      (∀ d ∈ deps, shouldTranslate addrSpaces d = true) ∨
        (0 ∈ deps ∧ shouldTranslate addrSpaces 0 = true) := by
  have hin : ∀ d ∈ deps, shouldTranslate addrSpaces d = true →
      d ∈ deps.map (checkBoundsAndTranslate addrSpaces) := fun d hd hs =>
    mem_map.mpr ⟨d, hd, checkBounds_of_shouldTranslate hs⟩
  constructor
  · intro h
    by_contra hc
    push Not at hc
    obtain ⟨⟨d, hd, hs⟩, hz⟩ := hc
    -- a dependency outside the spaces is written as 0
    have hmem : (0 : Ptr) ∈ (deps.map (checkBoundsAndTranslate addrSpaces)).toFinset := by
      rw [mem_toFinset, mem_map]
      exact ⟨d, hd, checkBounds_of_not (by simpa using hs)⟩
    rw [h, mem_toFinset, mem_filter] at hmem
    exact absurd hmem.2 (hz hmem.1)
  · intro h
    ext d
    simp only [mem_toFinset, mem_filter, mem_map]
    constructor
    · rintro ⟨e, he, rfl⟩
      cases hs : shouldTranslate addrSpaces e with
      | true =>
        rw [checkBounds_of_shouldTranslate hs]
        exact ⟨he, hs⟩
      | false =>
        rw [checkBounds_of_not hs]
        rcases h with h | h
        · exact absurd (h e he) (by simp [hs])
        · exact h
    · rintro ⟨hd, hs⟩
      exact mem_map.mp (hin d hd hs)

def Writable (addrSpaces : List (Int32 × Int32)) (addr : Ptr) (deps : List Ptr)
    (pc : Int32) : Prop :=
  pc ≠ -1 ∧ addr ≠ 0 ∧ addr.toNat < 2 ^ 63 ∧
  (∀ d ∈ deps, shouldTranslate addrSpaces d = true → d.toNat < 2 ^ 63) ∧
  ((∀ d ∈ deps, shouldTranslate addrSpaces d = true) ∨
    (0 ∈ deps ∧ shouldTranslate addrSpaces 0 = true))

theorem readEntry_access_text (hm : Mnemonic op cmd) (hs : shouldTranslate addrSpaces addr = true)
    (hz : addr ≠ 0) (hpc : pc ≠ -1) (rest : String) :
    readEntry (words (accessText addrSpaces op addr deps blocking pc ++ rest)) =
      (readAddr (toHex addr) >>= fun a =>
        readDeps ((deps.map (checkBoundsAndTranslate addrSpaces)).map toHex ++ ")" :: words rest)
          >>= fun l =>
        pure (.access cmd false blocking (UInt64.ofInt pc.toInt) a l.1, l.2)) := by
  obtain ⟨h₁, h₂, h₃, h₄⟩ := hm.word blocking
  rw [words_access hm.plain hm.nonempty hs hz hpc, readEntry_cons, if_pos h₁, readAccess,
    readAccessHead_pc, h₂, h₃, h₄, map_map]
  cases readAddr (toHex addr) with
  | error f => rfl
  | ok a => rfl

theorem readsBack_of_writable (hm : Mnemonic op cmd) (hs : shouldTranslate addrSpaces addr = true)
    (h : Writable addrSpaces addr deps pc) :
    ReadsBack (accessText addrSpaces op addr deps blocking pc) cmd blocking pc addr
      (deps.filter (shouldTranslate addrSpaces)).toFinset := by
  obtain ⟨hpc, hz, ha, hd, hset⟩ := h
  intro rest
  have hlt : ∀ d ∈ deps.map (checkBoundsAndTranslate addrSpaces), d.toNat < 2 ^ 63 := by
    intro d hmem
    obtain ⟨e, he, rfl⟩ := mem_map.mp hmem
    cases hse : shouldTranslate addrSpaces e with
    | true =>
      rw [checkBounds_of_shouldTranslate hse]
      exact hd e he hse
    | false =>
      rw [checkBounds_of_not hse]
      decide
  have hread : readEntry (words (accessText addrSpaces op addr deps blocking pc ++ rest)) = _ :=
    readEntry_access_text hm hs hz hpc rest
  rw [readAddr_toHex ha, ok_bind, readDeps_toHex hlt, ok_bind] at hread
  refine ⟨_, (translated_eq_iff deps).mpr hset, hread, fun w i env htr hb hdeps => ?_⟩
  exact tickNext_of_access hb hdeps (htr ▸ hread)

theorem zero_not_mem_of_known {word : String}
    (h : isAccess word = true ∨ isStall word = true ∨ ∃ p, primOf word = some p) :
    '0' ∉ word.toList := by
  rcases h with h | h | ⟨p, h⟩
  · simp only [isAccess, isLoad, isStore, Bool.or_eq_true, decide_eq_true_eq, mem_cons,
      not_mem_nil, or_false] at h
    rcases h with (rfl | rfl | rfl | rfl) | (rfl | rfl | rfl | rfl) <;> decide
  · simp only [isStall, decide_eq_true_eq, mem_cons, not_mem_nil, or_false] at h
    rcases h with rfl | rfl <;> decide
  · unfold primOf at h
    split at h <;> first | decide | cases h

theorem readEntry_of_zero_mem {word : String} {ts : List String} (h : '0' ∈ word.toList) :
    readEntry (word :: ts) = .error (.invalidToken word) := by
  have hacc : ¬ isAccess word = true := fun hc => zero_not_mem_of_known (.inl hc) h
  have hst : ¬ isStall word = true := fun hc => zero_not_mem_of_known (.inr (.inl hc)) h
  have hprim : primOf word = none := by
    cases hp : primOf word with
    | none => rfl
    | some p => exact absurd h (zero_not_mem_of_known (.inr (.inr ⟨p, hp⟩)))
  rw [readEntry_cons, if_neg hacc, if_neg hst, hprim]

theorem readEntry_merged (hm : Mnemonic op cmd) (hs : shouldTranslate addrSpaces addr = true)
    (hz : addr ≠ 0) (rest : String) :
    ∃ f, readEntry (words (accessText addrSpaces op addr deps blocking (-1) ++ rest)) =
      .error f := by
  set word := op ++ (if blocking then "B" else "") ++ toHex addr with hword
  have hplain : Plain word.toList := by
    rw [hword, String.toList_append, String.toList_append]
    refine (hm.plain.append ?_).append (plain_hex _)
    cases blocking <;> simp [Plain, isSpace]
  have hne : word.toList ≠ [] := by simp [hword, hm.nonempty]
  have hzero : '0' ∈ word.toList := by
    have hnat : addr.toNat ≠ 0 := fun h => hz (UInt64.toNat_inj.mp h)
    simp [hword, toHex, hex, hnat]
  have htext : (accessText addrSpaces op addr deps blocking (-1) ++ rest).toList =
      word.toList ++ ' ' :: ('(' :: ' ' :: ((depText addrSpaces deps).toList ++
        ' ' :: ')' :: '\n' :: rest.toList)) := by
    simp [accessText, checkBounds_of_shouldTranslate hs, hz, hword]
  refine ⟨.invalidToken word, ?_⟩
  rw [words, htext, wordsFrom_word hplain hne rfl, String.ofList_toList]
  exact readEntry_of_zero_mem hzero

theorem writable_of_readsBack (hm : Mnemonic op cmd) (hs : shouldTranslate addrSpaces addr = true)
    (h : ReadsBack (accessText addrSpaces op addr deps blocking pc) cmd blocking pc addr
      (deps.filter (shouldTranslate addrSpaces)).toFinset) : Writable addrSpaces addr deps pc := by
  obtain ⟨ds, hds, hread, -⟩ := h ""
  have hz : addr ≠ 0 := by
    rintro rfl
    obtain ⟨f, hf⟩ := hm.alone
    have htext : accessText addrSpaces op 0 deps blocking pc = op := by
      simp [accessText, checkBoundsAndTranslate]
    rw [htext, hf] at hread
    cases hread
  have hpc : pc ≠ -1 := by
    rintro rfl
    obtain ⟨f, hf⟩ :
      ∃ f, readEntry (words (accessText addrSpaces op addr deps blocking (-1) ++ "")) =
        .error f := readEntry_merged hm hs hz ""
    rw [hf] at hread
    cases hread
  rw [readEntry_access_text hm hs hz hpc] at hread
  have ha : addr.toNat < 2 ^ 63 := by
    by_contra ha
    rw [readAddr_toHex_of_le (by omega)] at hread
    cases hread
  rw [readAddr_toHex ha, ok_bind] at hread
  have hd : ∀ d ∈ deps.map (checkBoundsAndTranslate addrSpaces), d.toNat < 2 ^ 63 := by
    intro d hmem
    by_contra hd
    rw [readDeps_toHex_error hmem (by omega)] at hread
    cases hread
  rw [readDeps_toHex hd, ok_bind, pure_eq_ok] at hread
  cases hread
  refine ⟨hpc, hz, ha, fun d hmem hsd => ?_, (translated_eq_iff deps).mp hds⟩
  exact hd d (mem_map.mpr ⟨d, hmem, checkBounds_of_shouldTranslate hsd⟩)

theorem access_reads_back_iff (addrSpaces : List (Int32 × Int32)) (addr : Ptr) (data : UInt64)
    (deps : List Ptr) (blocking : Bool) (pc : Int32) (hs : shouldTranslate addrSpaces addr = true) :
    (ReadsBack (ld addrSpaces addr deps blocking pc) .ld blocking pc addr
        (deps.filter (shouldTranslate addrSpaces)).toFinset ↔ Writable addrSpaces addr deps pc) ∧
    (ReadsBack (st addrSpaces addr data deps blocking pc) .st blocking pc addr
        (deps.filter (shouldTranslate addrSpaces)).toFinset ↔ Writable addrSpaces addr deps pc) :=
  ⟨⟨writable_of_readsBack mnemonic_ld hs, readsBack_of_writable mnemonic_ld hs⟩,
    ⟨writable_of_readsBack mnemonic_st hs, readsBack_of_writable mnemonic_st hs⟩⟩

theorem access_reads_back_iff_blocking :
    ReadsBack (ld [(16, 64)] 24 [16, 32] true 7) .ld true 7 24
        ([16, 32].filter (shouldTranslate [(16, 64)])).toFinset ∧
      ReadsBack (st [(16, 64)] 24 5 [16, 32] true 7) .st true 7 24
        ([16, 32].filter (shouldTranslate [(16, 64)])).toFinset := by
  have hspace : [16, 32].all (shouldTranslate [(16, 64)]) = true := by decide +kernel
  have hlow : [(16 : Ptr), 32].all (fun d => d.toNat < 2 ^ 63) = true := by decide +kernel
  have hw : Writable [(16, 64)] 24 [16, 32] 7 :=
    ⟨by decide, by decide, by decide, fun d hd _ => by simpa using all_eq_true.mp hlow d hd,
      .inl (all_eq_true.mp hspace)⟩
  have h := access_reads_back_iff [(16, 64)] 24 5 [16, 32] true 7 (by decide +kernel)
  exact ⟨h.1.mpr hw, h.2.mpr hw⟩

/-- A load without a program counter is not an entry, and a dependency outside the
address spaces is read back as address 0. -/
theorem access_not_read_back :
    shouldTranslate [(16, 64)] 24 = true ∧
    ld [(16, 64)] 24 [] false (-1) = "LD0x18 (  )\n" ∧
    readEntry (words (ld [(16, 64)] 24 [] false (-1))) =
      .error (.invalidToken "LD0x18") ∧
    readEntry (words (ld [(16, 64)] 24 [8] false 7)) =
      .ok (.access .ld false false 7 24 [0], []) := by
  decide +kernel

end HetSim.Tracer
