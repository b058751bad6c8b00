import HetSim.Library.Words
import HetSim.Replay.TickMoves

/-!
# The text of a trace entry and what the replay reads

`__LD`, `__ST` and `__STALL` build the text of one entry; `TRE::tick` takes it apart into words
again. A pointer outside the address spaces is translated to null, which prints as `0`.
-/

namespace HetSim.Tracer
open Checked Numerals Words Replay

abbrev Ptr := UInt64

def toHex (x : Ptr) : String := hex x.toNat

/-- `(void *)` of an `int`. -/
def asPtr (x : Int32) : Ptr := x.toInt64.toUInt64

def inSpace (addr : Ptr) (a : Int32 × Int32) : Bool := asPtr a.1 ≤ addr && addr ≤ asPtr a.2

section AddrSpaces

variable (addrSpaces : List (Int32 × Int32))

def checkBoundsAndTranslate (addr : Ptr) : Ptr := if addrSpaces.any (inSpace addr) then addr else 0

def shouldTranslate (addr : Ptr) : Bool := addrSpaces.any (inSpace addr)

/-- Each dependency is followed by a blank. -/
def depText : List Ptr → String
  | [] => ""
  | dep :: deps => toHex (checkBoundsAndTranslate addrSpaces dep) ++ " " ++ depText deps

/-- What `__LD` and `__ST` have in common. -/
def accessText (op : String) (addr : Ptr) (deps : List Ptr) (blocking : Bool)
    (pc : Int32) : String :=
  let addr := checkBoundsAndTranslate addrSpaces addr
  if addr ≠ 0 then
    op ++ (if blocking then "B" else "") ++
      (if pc ≠ -1 then " @" ++ decimal pc.toInt ++ " " else "") ++
      toHex addr ++ " ( " ++ depText addrSpaces deps ++ " )\n"
  else op

def ld (addr : Ptr) (deps : List Ptr) (blocking : Bool) (pc : Int32) : String :=
  accessText addrSpaces "LD" addr deps blocking pc

/-- The data of a store is not written. -/
def st (addr : Ptr) (_data : UInt64) (deps : List Ptr) (blocking : Bool) (pc : Int32) : String :=
  accessText addrSpaces "ST" addr deps blocking pc

/-- `__STALL` leaves out what prints as `0`, unlike the accesses. -/
def stallDepText : List Ptr → String
  | [] => ""
  | dep :: deps =>
    let hex := toHex (checkBoundsAndTranslate addrSpaces dep)
    if hex ≠ "0" then hex ++ " " ++ stallDepText deps else stallDepText deps

def stallText (cycles : UInt32) (deps : List Ptr) : String :=
  "STALL " ++ decimal cycles.toNat ++ " ( " ++ stallDepText addrSpaces deps ++ ")\n"

end AddrSpaces

variable {addrSpaces : List (Int32 × Int32)}

variable {addr x : Ptr} {ds : List Ptr} {s : TRE}

theorem checkBounds_of_shouldTranslate (h : shouldTranslate addrSpaces addr = true) :
    checkBoundsAndTranslate addrSpaces addr = addr := if_pos h

theorem checkBounds_of_not (h : shouldTranslate addrSpaces addr = false) :
    checkBoundsAndTranslate addrSpaces addr = 0 := if_neg (by simpa [shouldTranslate] using h)

theorem words_toHex_append (x : Ptr) (rest : List Char) :
    wordsFrom [] ((toHex x).toList ++ ' ' :: rest) = toHex x :: wordsFrom [] rest := by
  rw [toHex, wordsFrom_word (plain_hex x.toNat) (hex_ne_nil x.toNat) rfl, String.ofList_toList]

theorem words_depText (deps : List Ptr) (rest : List Char) :
    wordsFrom [] ((depText addrSpaces deps).toList ++ rest) =
      (deps.map fun d => toHex (checkBoundsAndTranslate addrSpaces d)) ++ wordsFrom [] rest := by
  induction deps with
  | nil => simp [depText]
  | cons dep deps ih =>
    have hsplit : (depText addrSpaces (dep :: deps)).toList ++ rest =
        (toHex (checkBoundsAndTranslate addrSpaces dep)).toList ++
          ' ' :: ((depText addrSpaces deps).toList ++ rest) := by
      simp [depText]
    rw [hsplit, words_toHex_append, ih, List.map_cons, List.cons_append]

/-- The words of an access whose address is translated and whose program counter is
written. -/
theorem words_access {op : String} {deps : List Ptr} {blocking : Bool} {pc : Int32}
    (hop : Plain op.toList) (hne : op.toList ≠ []) (hs : shouldTranslate addrSpaces addr = true)
    (hz : addr ≠ 0) (hpc : pc ≠ -1) (rest : String) :
    words (accessText addrSpaces op addr deps blocking pc ++ rest) =
      (op ++ if blocking then "B" else "") :: ("@" ++ decimal pc.toInt) :: toHex addr :: "(" ::
        ((deps.map fun d => toHex (checkBoundsAndTranslate addrSpaces d)) ++ ")" ::
          words rest) := by
  have hB : Plain (op ++ if blocking then "B" else "").toList := by
    rw [String.toList_append]
    refine hop.append ?_
    cases blocking <;> simp [Plain, isSpace]
  have hBne : (op ++ if blocking then "B" else "").toList ≠ [] := by simp [hne]
  have hpcPlain : Plain ("@" ++ decimal pc.toInt).toList := by
    rw [String.toList_append]
    refine Plain.append ?_ (plain_decimal pc.toInt)
    simp [Plain, isSpace]
  have hpcne : ("@" ++ decimal pc.toInt).toList ≠ [] := by simp
  have htext : (accessText addrSpaces op addr deps blocking pc ++ rest).toList =
      (op ++ if blocking then "B" else "").toList ++ ' ' :: (("@" ++ decimal pc.toInt).toList ++
        ' ' :: ((toHex addr).toList ++ ' ' :: (['('] ++ ' ' ::
          ((depText addrSpaces deps).toList ++ ' ' :: ([')'] ++ '\n' :: rest.toList))))) := by
    simp [accessText, checkBounds_of_shouldTranslate hs, hz, hpc]
  have hopen : Plain ['('] := by simp [Plain, isSpace]
  have hclose : Plain [')'] := by simp [Plain, isSpace]
  rw [words, htext, wordsFrom_word hB hBne rfl, wordsFrom_word hpcPlain hpcne rfl,
    words_toHex_append, wordsFrom_word hopen (by simp) rfl, words_depText, wordsFrom_space rfl,
    wordsFrom_word hclose (by simp) rfl, String.ofList_toList, String.ofList_toList]
  rfl

theorem readAddr_toHex (h : x.toNat < 2 ^ 63) : readAddr (toHex x) = .ok x := by
  have hx : UInt64.ofInt (x.toNat : ℤ) = x := by
    apply UInt64.toNat_inj.mp
    simp [UInt64.ofInt, Int.emod_eq_of_lt, x.toNat_lt]
  simp only [readAddr, number, toHex, stol_hex h, Except.mapError, ok_bind, hx]
  rfl

theorem readAddr_toHex_of_le (h : 2 ^ 63 ≤ x.toNat) :
    readAddr (toHex x) = .error (.number .outOfRange) := by
  simp only [readAddr, number, toHex, stol_hex_of_le h, Except.mapError]
  rfl

theorem toHex_ne_close (x : Ptr) : toHex x ≠ ")" := by
  intro h
  have hl := congrArg String.toList h
  rw [toHex, hex, String.toList_ofList] at hl
  split_ifs at hl <;> simp at hl

theorem readDeps_toHex (h : ∀ d ∈ ds, d.toNat < 2 ^ 63) (rest : List String) :
    readDeps (ds.map toHex ++ ")" :: rest) = .ok (ds, rest) := by
  induction ds with
  | nil => rfl
  | cons d ds ih =>
    have hd := readAddr_toHex (h d List.mem_cons_self)
    have hds := ih fun d' hd' => h d' (List.mem_cons_of_mem d hd')
    rw [List.map_cons, List.cons_append, readDeps, if_neg (toHex_ne_close d), hd, ok_bind,
      hds, ok_bind]
    rfl

theorem readDeps_toHex_error {d : Ptr} (hd : d ∈ ds) (h : 2 ^ 63 ≤ d.toNat)
    (rest : List String) :
    readDeps (ds.map toHex ++ ")" :: rest) = .error (.number .outOfRange) := by
  induction ds with
  | nil => cases hd
  | cons e ds ih =>
    rw [List.map_cons, List.cons_append, readDeps, if_neg (toHex_ne_close e)]
    by_cases he : e.toNat < 2 ^ 63
    · have hmem : d ∈ ds := by
        rcases List.mem_cons.mp hd with rfl | hd
        · omega
        · exact hd
      rw [readAddr_toHex he, ok_bind, ih hmem]
      rfl
    · rw [readAddr_toHex_of_le (by omega)]
      rfl

theorem readAccessHead_pc (pc : Int32) (word : String) (rest : List String) :
    readAccessHead (("@" ++ decimal pc.toInt) :: word :: rest) =
      (readAddr word >>= fun paddr => pure (UInt64.ofInt pc.toInt, paddr, rest)) := by
  have hl : ("@" ++ decimal pc.toInt).toList = '@' :: (decimal pc.toInt).toList := by simp
  have hr : stol 10 (decimal pc.toInt) = .ok pc.toInt := by
    have h₁ := pc.le_toInt
    have h₂ := pc.toInt_lt
    exact stol_decimal (by omega) (by omega)
  simp only [readAccessHead, readNextToken, hl, String.ofList_toList, number, hr, Except.mapError,
    ok_bind]

theorem noteBlking_of_empty (h : s.blockedPkt.deps = ∅) (f : Fault) :
    ∃ t, s.noteBlking f = .ok t := ⟨_, TRE.noteBlking_eq_ok.mpr ⟨fun _ => h, rfl⟩⟩

theorem tickAccess_of_readAccess {word : String} {ts : List String}
    {r : Entry × List String} (hd : s.blockedPkt.deps = ∅) (h : readAccess word ts = .ok r) :
    ∃ s' q, tickAccess s word ts = .ok (s', q) := by
  simp only [readAccess, bind_eq_ok, pure_eq_ok] at h
  obtain ⟨head, hhead, l, hl, -⟩ := h
  by_cases hf : s.outstandingAddrs.length ≥ s.maxNumOutstandingAddrs
  · obtain ⟨t, ht⟩ := noteBlking_of_empty (s := { s with paddr := head.2.1, blocked := true }) hd
      .accessDepsEmpty
    simp only [tickAccess, hhead, ok_bind, hf, if_true, ht, hl]
    split_ifs <;> exact ⟨_, _, rfl⟩
  · obtain ⟨t, ht⟩ := noteBlking_of_empty (s := { s with paddr := head.2.1 }) hd .accessDepsEmpty
    simp only [tickAccess, hhead, ok_bind, hf, if_false, ht, hl]
    split_ifs <;> exact ⟨_, _, rfl⟩

theorem tickNext_of_access {w : World} {i : TREId} {env : Env} {cmd : TRECmd} {unc blk : Bool}
    {pc a : Addr} {deps : List Addr} {rest : List String} (hb : (w.tre i).blocked = false)
    (hd : (w.tre i).blockedPkt.deps = ∅)
    (he : readEntry (w.tre i).traceFh = .ok (.access cmd unc blk pc a deps, rest)) :
    ∃ s', tickNext w i env = finishEntry w i env (s', ⟨cmd, unc, blk, pc⟩) ∧
      s'.paddr = a ∧ s'.traceFh = rest ∧
      (s'.blocked = true → s'.blockedPkt =
        ⟨a, cmd, (w.tre i).blockedPkt.data, unc, blk, (w.tre i).waits deps⟩) := by
  obtain ⟨word, ts, hts, hacc, hread⟩ := readEntry_isAccess he
  have heof : word ≠ "EOF" := by
    rintro rfl
    exact absurd hacc (by decide)
  obtain ⟨s', q, hsr⟩ := tickAccess_of_readAccess
    (s := { w.tre i with lastTokEntryPos := (w.tre i).traceFh }) hd hread
  obtain ⟨pc', a', deps', rest', hread', hr, hcase⟩ := tickAccess_eq_ok hsr hb
  cases hread.symm.trans hread'
  refine ⟨s', ?_, ?_⟩
  · have htok : readNextToken (w.tre i).traceFh = (word, ts) := by
      rw [hts]
      rfl
    simp only [tickNext, htok, if_neg heof, if_pos hacc, hsr, ok_bind, hr]
  · rcases hcase with ⟨-, rfl⟩ | ⟨-, -, rfl⟩
    · exact ⟨rfl, rfl, fun _ => rfl⟩
    · exact ⟨rfl, rfl, fun hbl => absurd (hb.symm.trans hbl) Bool.false_ne_true⟩

end HetSim.Tracer
