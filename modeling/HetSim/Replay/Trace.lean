import HetSim.Replay.State

/-!
# Reading trace entries

The token readers used by `TRE::tick`, and the entries they spell. `readEntry` composes the readers
without the checks that `tick` makes between them, so it does not depend on the state of an
engine.
-/

namespace HetSim.Replay
open Checked Numerals List

/-- `trace_fh >> word`; an exhausted stream leaves `word` empty. -/
def readNextToken : List String → String × List String
  | [] => ("", [])
  | word :: ts => (word, ts)

def number (r : Except NumError ℤ) : Except Fault ℤ := r.mapError Fault.number

def isLoad (word : String) : Bool := word ∈ ["LD", "LDU", "LDB", "LDUB"]
def isStore (word : String) : Bool := word ∈ ["ST", "STU", "STB", "STUB"]
def isAccess (word : String) : Bool := isLoad word || isStore word
def isBlking (word : String) : Bool := word ∈ ["LDB", "LDUB", "STB", "STUB"]
def isUncacheable (word : String) : Bool := word ∈ ["LDU", "LDUB", "STU", "STUB"]
def isStall (word : String) : Bool := word ∈ ["STALL", "STALLB"]

def accessCmd (word : String) : TRECmd := if isLoad word then .ld else .st

def readAddr (word : String) : Except Fault Addr := do
  let v ← number (stol 16 word)
  pure (UInt64.ofInt v)

/-- The optional `@pc` and the address of an access. -/
def readAccessHead (ts : List String) : Except Fault (Addr × Addr × List String) :=
  match (readNextToken ts).1.toList with
  | '@' :: cs => do
    let pc ← number (stol 10 (String.ofList cs))
    let ts := (readNextToken ts).2
    let paddr ← readAddr (readNextToken ts).1
    pure (UInt64.ofInt pc, paddr, (readNextToken ts).2)
  | _ => do
    let paddr ← readAddr (readNextToken ts).1
    pure (UInt64.ofInt (-1), paddr, (readNextToken ts).2)

/-- The addresses up to the closing parenthesis. At the end of the file the word
is empty and `stol` throws. -/
def readDeps : List String → Except Fault (List Addr × List String)
  | [] => .error (.number .invalidArgument)
  | word :: ts =>
    if word = ")" then .ok ([], ts)
    else do
      let dep ← readAddr word
      let r ← readDeps ts
      pure (dep :: r.1, r.2)

/-- A dependency list; `paren` is the complaint about a missing parenthesis. -/
def readDepList (paren : Fault) (ts : List String) : Except Fault (List Addr × List String) := do
  require ((readNextToken ts).1 = "(") paren
  readDeps (readNextToken ts).2

def primOf : String → Option Prim
  | "MTXINIT" => some .initMutex
  | "MTXLOCK" => some .lockMutex
  | "MTXUNLOCK" => some .unlockMutex
  | "BARINIT" => some .initBarrier
  | "BARWAIT" => some .waitAtBarrier
  | "SLEEP" => some .sleep
  | "WAKE" => some .wake
  | "POP" => some .pop
  | "PUSH" => some .push
  | "DMP" => some .dumpStats
  | "RST" => some .resetStats
  | "DMPRST" => some .dumpResetStats
  | _ => none

/-- What a primitive reads before its cycle count: an address into `paddr`, a
count or an engine number into `data`. -/
def readOperands (p : Prim) (ts : List String) :
    Except Fault (Option Addr × Option UInt32 × List String) :=
  let word := (readNextToken ts).1
  let rest := (readNextToken ts).2
  match p with
  | .initMutex | .lockMutex | .unlockMutex | .waitAtBarrier => do
    let paddr ← readAddr word
    pure (some paddr, none, rest)
  | .initBarrier => do
    let paddr ← readAddr word
    let count ← number (stol 10 (readNextToken rest).1)
    pure (some paddr, some (UInt32.ofInt count), (readNextToken rest).2)
  | .wake | .pop | .push => do
    let data ← number (stoi 10 word)
    pure (none, some (UInt32.ofInt data), rest)
  | .sleep | .dumpStats | .resetStats | .dumpResetStats => .ok (none, none, ts)

def readCycles (ts : List String) : Except Fault (UInt32 × List String) := do
  let cycles ← number (stol 10 (readNextToken ts).1)
  pure (UInt32.ofInt cycles, (readNextToken ts).2)

inductive Entry
  | access (cmd : TRECmd) (uncacheable blking : Bool) (pc paddr : Addr) (deps : List Addr)
  | stall (blking : Bool) (count : UInt32) (deps : List Addr)
  | prim (p : Prim) (paddr : Option Addr) (data : Option UInt32) (cycles : UInt32)
  deriving DecidableEq, Repr

def readAccess (word : String) (ts : List String) : Except Fault (Entry × List String) := do
  let head ← readAccessHead ts
  let deps ← readDepList .accessParen head.2.2
  pure (.access (accessCmd word) (isUncacheable word) (isBlking word) head.1 head.2.1 deps.1,
    deps.2)

def readStall (word : String) (ts : List String) : Except Fault (Entry × List String) := do
  let count ← number (stol 10 (readNextToken ts).1)
  let deps ← readDepList .stallParen (readNextToken ts).2
  pure (.stall (word = "STALLB") (UInt32.ofInt count) deps.1, deps.2)

def readPrim (p : Prim) (ts : List String) : Except Fault (Entry × List String) := do
  let ops ← readOperands p ts
  let cycles ← readCycles ops.2.2
  pure (.prim p ops.1 ops.2.1 cycles.1, cycles.2)

/-- One entry. `EOF` is not an entry and is refused like any unknown word. -/
def readEntry (tokens : List String) : Except Fault (Entry × List String) :=
  let word := (readNextToken tokens).1
  let ts := (readNextToken tokens).2
  if isAccess word then readAccess word ts
  else if isStall word then readStall word ts
  else match primOf word with
    | some p => readPrim p ts
    | none => .error (.invalidToken word)

theorem readEntry_cons (word : String) (ts : List String) :
    readEntry (word :: ts) =
      if isAccess word then readAccess word ts
      else if isStall word then readStall word ts
      else match primOf word with
        | some p => readPrim p ts
        | none => .error (.invalidToken word) := rfl

/-- What is read of an entry, and the words behind it. -/
inductive Reads : List String → Entry → List String → Prop
  | access {word : String} {ts : List String} {head : Addr × Addr × List String}
      {deps : List Addr × List String} (haccess : isAccess word = true)
      (hhead : readAccessHead ts = .ok head) (hdeps : readDepList .accessParen head.2.2 =
        .ok deps) :
    Reads (word :: ts) (.access (accessCmd word) (isUncacheable word)
      (isBlking word) head.1 head.2.1
      deps.1) deps.2
  | stall {word : String} {ts : List String} {count : ℤ} {deps : List Addr × List String}
      (haccess : isAccess word = false) (hstall : isStall word = true)
      (hcount : number (stol 10 (readNextToken ts).1) = .ok count)
      (hdeps : readDepList .stallParen (readNextToken ts).2 = .ok deps) :
    Reads (word :: ts) (.stall (word = "STALLB") (UInt32.ofInt count) deps.1) deps.2
  | prim {word : String} {p : Prim} {ts : List String}
      {ops : Option Addr × Option UInt32 × List String}
      {cycles : UInt32 × List String} (haccess : isAccess word = false)
      (hstall : isStall word = false) (hprim : primOf word = some p)
      (hops : readOperands p ts = .ok ops) (hcycles : readCycles ops.2.2 = .ok cycles) :
    Reads (word :: ts) (.prim p ops.1 ops.2.1 cycles.1) cycles.2

variable {ts rest : List String} {e : Entry} {p : Prim}

theorem readEntry_reads (h : readEntry ts = .ok (e, rest)) : Reads ts e rest := by
  cases ts with
  | nil =>
    have hnil : readEntry [] = .error (.invalidToken "") := by decide
    rw [hnil] at h
    cases h
  | cons word ts =>
    rw [readEntry_cons] at h
    split_ifs at h with haccess hstall
    · simp only [readAccess, bind_eq_ok] at h
      obtain ⟨head, hhead, deps, hdeps, h⟩ := h
      cases h
      exact .access haccess hhead hdeps
    · simp only [readStall, bind_eq_ok] at h
      obtain ⟨count, hcount, deps, hdeps, h⟩ := h
      cases h
      exact .stall (Bool.eq_false_iff.mpr haccess) hstall hcount hdeps
    · split at h
      · next p hprim =>
        simp only [readPrim, bind_eq_ok] at h
        obtain ⟨ops, hops, cycles, hcycles, h⟩ := h
        cases h
        exact .prim (Bool.eq_false_iff.mpr haccess)
          (Bool.eq_false_iff.mpr hstall) hprim hops hcycles
      · cases h

theorem readNextToken_suffix (ts : List String) : (readNextToken ts).2 <:+ ts := by
  cases ts with
  | nil => exact suffix_rfl
  | cons word ts => exact suffix_cons word ts

theorem readAccessHead_suffix {r : Addr × Addr × List String}
    (h : readAccessHead ts = .ok r) : r.2.2 <:+ ts := by
  have h1 := readNextToken_suffix ts
  have h2 := readNextToken_suffix (readNextToken ts).2
  unfold readAccessHead at h
  split at h
  · simp only [bind_eq_ok, pure_eq_ok] at h
    obtain ⟨pc, -, a, -, rfl⟩ := h
    exact h2.trans h1
  · simp only [bind_eq_ok, pure_eq_ok] at h
    obtain ⟨a, -, rfl⟩ := h
    exact h1

variable {r : List Addr × List String} {cmd : TRECmd} {unc blk : Bool} {pc a : Addr}
  {deps : List Addr} {pa : Option Addr} {da : Option UInt32} {c : UInt32}

theorem readDeps_suffix (h : readDeps ts = .ok r) : r.2 <:+ ts := by
  induction ts generalizing r with
  | nil => simp [readDeps] at h
  | cons word ts ih =>
    unfold readDeps at h
    split_ifs at h with hw
    · cases h
      exact suffix_cons word ts
    · simp only [bind_eq_ok, pure_eq_ok] at h
      obtain ⟨d, -, q, hq, rfl⟩ := h
      exact (ih hq).trans (suffix_cons word ts)

theorem readDepList_suffix {paren : Fault} (h : readDepList paren ts = .ok r) : r.2 <:+ ts := by
  simp only [readDepList, bind_eq_ok, require_eq_ok] at h
  obtain ⟨_, _, h⟩ := h
  exact (readDeps_suffix h).trans (readNextToken_suffix ts)

theorem readOperands_suffix
    {r : Option Addr × Option UInt32 × List String}
    (h : readOperands p ts = .ok r) : r.2.2 <:+ ts := by
  have h1 := readNextToken_suffix ts
  have h2 := readNextToken_suffix (readNextToken ts).2
  cases p <;> simp only [readOperands, bind_eq_ok, pure_eq_ok, Except.ok.injEq] at h
  case initBarrier =>
    obtain ⟨a, -, n, -, rfl⟩ := h
    exact h2.trans h1
  case sleep | dumpStats | resetStats | dumpResetStats =>
    subst h
    exact suffix_rfl
  all_goals
    obtain ⟨a, -, rfl⟩ := h
    exact h1

theorem readCycles_suffix {r : UInt32 × List String} (h : readCycles ts = .ok r) : r.2 <:+ ts := by
  simp only [readCycles, bind_eq_ok, pure_eq_ok] at h
  obtain ⟨c, -, rfl⟩ := h
  exact readNextToken_suffix ts

theorem readEntry_suffix {r : Entry × List String}
    (h : readEntry ts = .ok r) : ∃ word rest, ts = word :: rest ∧ r.2 <:+ rest := by
  obtain ⟨e, rest⟩ := r
  cases readEntry_reads h with
  | access _ hhead hdeps =>
    exact ⟨_, _, rfl, (readDepList_suffix hdeps).trans (readAccessHead_suffix hhead)⟩
  | stall _ _ _ hdeps =>
    exact ⟨_, _, rfl, (readDepList_suffix hdeps).trans (readNextToken_suffix _)⟩
  | prim _ _ _ hops hcycles =>
    exact ⟨_, _, rfl, (readCycles_suffix hcycles).trans (readOperands_suffix hops)⟩

theorem readEntry_length {r : Entry × List String}
    (h : readEntry ts = .ok r) : r.2.length < ts.length := by
  obtain ⟨word, rest, rfl, hr⟩ := readEntry_suffix h
  have := hr.length_le
  simp only [length_cons]
  omega

def entriesUpTo : ℕ → List String → List Entry
  | 0, _ => []
  | n + 1, ts =>
    match readEntry ts with
    | .ok r => r.1 :: entriesUpTo n r.2
    | .error _ => []

/-- The entries a token list spells, up to `EOF` or the first malformed one. Each
takes a token, so the length of the list bounds their number. -/
def entries (ts : List String) : List Entry := entriesUpTo ts.length ts

theorem entriesUpTo_eq {n : ℕ} (h : ts.length ≤ n) : entriesUpTo n ts = entries ts := by
  have key : ∀ (m n : ℕ) (ts : List String), ts.length ≤ m → ts.length ≤ n →
      entriesUpTo m ts = entriesUpTo n ts := by
    intro m
    induction m with
    | zero =>
      intro n ts hm _
      obtain rfl : ts = [] := eq_nil_of_length_eq_zero (by omega)
      cases n with
      | zero => rfl
      | succ n =>
        have hnil : readEntry [] = .error (.invalidToken "") := by decide
        simp [entriesUpTo, hnil]
    | succ m ih =>
      intro n ts hm hn
      cases hr : readEntry ts with
      | error f =>
        cases n with
        | zero => simp [entriesUpTo, hr]
        | succ n => simp [entriesUpTo, hr]
      | ok r =>
        have hlt := readEntry_length hr
        cases n with
        | zero => omega
        | succ n =>
          simp only [entriesUpTo, hr]
          rw [ih n r.2 (by omega) (by omega)]
  exact key n ts.length ts h le_rfl

theorem entries_of_ok (h : readEntry ts = .ok (e, rest)) : entries ts = e :: entries rest := by
  have hlt : rest.length < ts.length := readEntry_length h
  rw [← entriesUpTo_eq (n := ts.length + 1) (by omega), entriesUpTo, h]
  simp only
  rw [entriesUpTo_eq (by omega)]

theorem entries_of_error {f : Fault} (h : readEntry ts = .error f) : entries ts = [] := by
  rw [← entriesUpTo_eq (n := ts.length + 1) (by omega), entriesUpTo, h]

theorem mem_entries (h : e ∈ entries ts) :
    ∃ ts' rest, ts' <:+ ts ∧ readEntry ts' = .ok (e, rest) := by
  induction hn : ts.length using Nat.strong_induction_on generalizing ts with
  | _ n ih =>
    cases hr : readEntry ts with
    | error f =>
      rw [entries_of_error hr] at h
      cases h
    | ok r =>
      rw [entries_of_ok hr] at h
      rcases List.mem_cons.mp h with rfl | h
      · exact ⟨ts, r.2, suffix_rfl, hr⟩
      · have hlt := readEntry_length hr
        obtain ⟨ts', rest, hs, he⟩ := ih r.2.length (hn ▸ hlt) h rfl
        obtain ⟨word, tail, rfl, ht⟩ := readEntry_suffix hr
        exact ⟨ts', rest, hs.trans (ht.trans (suffix_cons word tail)), he⟩

theorem readEntry_access (h : readEntry ts = .ok (.access cmd unc blk pc a deps, rest)) :
    cmd ≠ .stall := by
  cases readEntry_reads h with
  | access =>
    unfold accessCmd
    split_ifs <;> simp

theorem readEntry_isAccess (h : readEntry ts = .ok (.access cmd unc blk pc a deps, rest)) :
    ∃ word ts', ts = word :: ts' ∧ isAccess word = true ∧
      readAccess word ts' = .ok (.access cmd unc blk pc a deps, rest) := by
  cases readEntry_reads h with
  | access haccess => exact ⟨_, _, rfl, haccess, by rwa [readEntry_cons, if_pos haccess] at h⟩

theorem readEntry_prim (h : readEntry ts = .ok (.prim p pa da c, rest)) :
    ∃ word ts' ops, ts = word :: ts' ∧ primOf word = some p ∧
      readOperands p ts' = .ok ops ∧ pa = ops.1 ∧ da = ops.2.1 := by
  cases readEntry_reads h with
  | prim _ _ hprim hops _ => exact ⟨_, _, _, rfl, hprim, hops, rfl, rfl⟩

theorem prim_mem_entries
    (h : .prim p pa da c ∈ entries ts) : ∃ word ∈ ts, primOf word = some p := by
  obtain ⟨ts', rest, hs, he⟩ := mem_entries h
  obtain ⟨word, ts'', -, rfl, hp, -⟩ := readEntry_prim he
  exact ⟨word, hs.subset List.mem_cons_self, hp⟩

end HetSim.Replay
