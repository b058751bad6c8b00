import HetSim.Replay.Accesses
import HetSim.Tracer.ReadBack
import HetSim.Tracer.Stalls

/-!
# From the tracer to the replay

The replay reads one entry for each item that a thread wrote while its log was open, and an engine
carries them out in the order in which they were written.
-/

namespace HetSim.Tracer
open Checked Numerals Words Replay List Function

/-- The arguments the replay reads for a primitive, and what it takes from them. -/
inductive Operands : Prim → List Arg → Option Addr → Option UInt32 → Prop
  | address {p a} (ha : a.toNat < 2 ^ 63)
      (hp : p = .initMutex ∨ p = .lockMutex ∨ p = .unlockMutex ∨ p = .waitAtBarrier) :
    Operands p [.ptr a] (some a) none
  | barrier {a n} (ha : a.toNat < 2 ^ 63) (hn : n.toNat < 2 ^ 63) :
    Operands .initBarrier [.ptr a, .num n] (some a) (some (.ofNat n.toNat))
  | peer {p n} (hn : n.toNat < 2 ^ 31) (hp : p = .wake ∨ p = .pop ∨ p = .push) :
    Operands p [.num n] none (some (.ofNat n.toNat))
  | nothing {p} (hp : p = .sleep ∨ p = .dumpStats ∨ p = .resetStats ∨ p = .dumpResetStats) :
    Operands p [] none none

section
variable (addrSpaces : List (Int32 × Int32))

/-- An access that has its program counter, with addresses that fit a `long`. -/
def Legible (a : Ptr) (deps : List Ptr) (pc : Int32) : Prop :=
  shouldTranslate addrSpaces a = true ∧ a ≠ 0 ∧ pc ≠ -1 ∧ a.toNat < 2 ^ 63 ∧
    ∀ d ∈ deps.map (checkBoundsAndTranslate addrSpaces), d.toNat < 2 ^ 63

/-- The entry an item stands for, if its numbers fit what the replay reads. -/
inductive Spells : Item → Entry → Prop
  | stall {n deps} (h : ∀ d ∈ deps.map (checkBoundsAndTranslate addrSpaces), d.toNat < 2 ^ 63) :
    Spells (.stall n deps)
      (.stall false n ((deps.map (checkBoundsAndTranslate addrSpaces)).filter (· ≠ 0)))
  | load {a deps pc} (h : Legible addrSpaces a deps pc) :
    Spells (.load a deps pc) (.access .ld false false (.ofInt pc.toInt) a
      (deps.map (checkBoundsAndTranslate addrSpaces)))
  | store {a data deps pc} (h : Legible addrSpaces a deps pc) :
    Spells (.store a data deps pc) (.access .st false false (.ofInt pc.toInt) a
      (deps.map (checkBoundsAndTranslate addrSpaces)))
  | intrinsic {f args p pa da} (hp : primOf f.token = some p) (hops : Operands p args pa da)
      (hcycles : f.cycles < 2 ^ 63) :
    Spells (.intrinsic f args) (.prim p pa da (.ofNat f.cycles))
  | penalty {op a args} (hop : op = "LDB" ∨ op = "STB") (ha : a.toNat < 2 ^ 63) :
    Spells (.penalty op (.ptr a :: args)) (.access (accessCmd op) false true (.ofInt (-1)) a [])

def traceText (items : List Item) : String := items.foldr (Item.text addrSpaces · ++ ·) ""

end

variable {addrSpaces : List (Int32 × Int32)} {p : Prim} {args : List Arg}

theorem words_text {word : String} {c : Char} {rest : List Char}
    (h : Plain word.toList ∧ word.toList ≠ [] ∧ isSpace c = true) :
    wordsFrom [] (word.toList ++ c :: rest) = word :: wordsFrom [] rest := by
  rw [wordsFrom_word h.1 h.2.1 h.2.2, String.ofList_toList]

theorem words_decimal (z : ℤ) {c : Char} (hc : isSpace c = true) (rest : List Char) :
    wordsFrom [] ((decimal z).toList ++ c :: rest) = decimal z :: wordsFrom [] rest := by
  refine words_text ⟨plain_decimal z, ?_, hc⟩
  rw [decimal, String.toList_ofList]
  split_ifs <;> simp

theorem toHex_ne_zero {x : Ptr} (h : x ≠ 0) : toHex x ≠ "0" := by
  intro hx
  have hl := congrArg String.toList hx
  rw [toHex, hex, String.toList_ofList] at hl
  split_ifs at hl with hn
  · exact h (UInt64.toNat_inj.mp hn)
  · cases hl

theorem words_arg (arg : Arg) (rest : List Char) :
    wordsFrom [] (arg.text.toList ++ ' ' :: rest) = arg.text :: wordsFrom [] rest := by
  cases arg with
  | ptr a => exact words_toHex_append a rest
  | num n => exact words_decimal n.toNat rfl rest

theorem words_argsText (args : List Arg) (rest : List Char) :
    wordsFrom [] ((argsText args).toList ++ rest) = args.map Arg.text ++ wordsFrom [] rest := by
  induction args with
  | nil => simp [argsText]
  | cons arg args ih =>
    have hsplit : (argsText (arg :: args)).toList ++ rest =
        ' ' :: (arg.text.toList ++ ' ' :: ((argsText args).toList ++ rest)) := by simp [argsText]
    rw [hsplit, wordsFrom_space rfl, words_arg, ih, map_cons, cons_append]

theorem words_of_primOf {word : String} (h : primOf word = some p) :
    Plain word.toList ∧ word.toList ≠ [] ∧ isAccess word = false ∧ isStall word = false := by
  unfold primOf at h
  split at h <;> first | cases h; done | exact ⟨by simp [Plain, isSpace], by simp,
    by decide, by decide⟩

theorem words_intrinsic {f : Func} (hp : primOf f.token = some p) (args : List Arg)
    (rest : String) :
    words ((Item.intrinsic f args).text addrSpaces ++ rest) =
      f.token :: (args.map Arg.text ++ decimal f.cycles :: words rest) := by
  obtain ⟨hplain, hne, -⟩ := words_of_primOf hp
  -- the blank after the token is the first one of the arguments, or the only one
  have hsplit : ∃ cs, ((Item.intrinsic f args).text addrSpaces ++ rest).toList =
      f.token.toList ++ ' ' :: cs ∧ wordsFrom [] cs =
        args.map Arg.text ++ wordsFrom [] ((decimal f.cycles).toList ++ '\n' :: rest.toList) := by
    cases args with
    | nil => exact ⟨(decimal f.cycles).toList ++ '\n' :: rest.toList,
        by simp [Item.text, argsText], rfl⟩
    | cons arg args =>
      refine ⟨arg.text.toList ++ ' ' :: ((argsText args).toList ++
        ((decimal f.cycles).toList ++ '\n' :: rest.toList)), by simp [Item.text, argsText], ?_⟩
      rw [words_arg, words_argsText, map_cons, cons_append]
  obtain ⟨cs, hcs, hwords⟩ := hsplit
  rw [words, hcs, words_text ⟨hplain, hne, rfl⟩, hwords, words_decimal _ rfl]
  rfl

theorem number_decimal {n : ℕ} (h : n < 2 ^ 63) : number (stol 10 (decimal n)) = .ok (n : ℤ) := by
  rw [stol_decimal (by omega) (by omega)]
  rfl

theorem ofInt_natCast (n : ℕ) : UInt32.ofInt (n : ℤ) = .ofNat n := by
  apply UInt32.toNat_inj.mp
  simp [UInt32.ofInt]
  omega

theorem readOperands_text {pa : Option Addr} {da : Option UInt32} (h : Operands p args pa da)
    (rest : List String) : readOperands p (args.map Arg.text ++ rest) = .ok (pa, da, rest) := by
  cases h with
  | address ha hp =>
    rcases hp with rfl | rfl | rfl | rfl <;>
    simp only [readOperands, map_cons, cons_append, readNextToken, Arg.text,
      readAddr_toHex ha] <;> rfl
  | barrier ha hn =>
    simp only [readOperands, map_cons, cons_append, readNextToken, Arg.text, readAddr_toHex ha,
      ok_bind, number_decimal hn, ofInt_natCast]
    rfl
  | @peer p n hn hp =>
    have hread : number (stoi 10 (decimal n.toNat)) = .ok (n.toNat : ℤ) := by
      rw [stoi, signed, strtol_decimal]
      exact congrArg number (if_pos (by omega))
    rcases hp with rfl | rfl | rfl <;>
    simp only [readOperands, map_cons, cons_append, readNextToken, Arg.text, hread, ok_bind,
      ofInt_natCast] <;> rfl
  | nothing hp => rcases hp with rfl | rfl | rfl | rfl <;> rfl

theorem words_stallDepText (deps : List Ptr) (rest : List Char) :
    wordsFrom [] ((stallDepText addrSpaces deps).toList ++ rest) =
      ((deps.map (checkBoundsAndTranslate addrSpaces)).filter (· ≠ 0)).map toHex ++
        wordsFrom [] rest := by
  induction deps with
  | nil => simp [stallDepText]
  | cons dep deps ih =>
    by_cases hz : checkBoundsAndTranslate addrSpaces dep = 0
    · rw [stallDepText, hz, if_neg (by decide), ih, map_cons, hz, filter_cons_of_neg (by simp)]
    · have hsplit : (stallDepText addrSpaces (dep :: deps)).toList ++ rest =
          (toHex (checkBoundsAndTranslate addrSpaces dep)).toList ++
            ' ' :: ((stallDepText addrSpaces deps).toList ++ rest) := by
        simp [stallDepText, toHex_ne_zero hz]
      rw [hsplit, words_toHex_append, ih, map_cons, filter_cons_of_pos (by simpa using hz),
        map_cons, cons_append]

theorem readEntry_stall {n : UInt32} {deps : List Ptr}
    (h : ∀ d ∈ deps.map (checkBoundsAndTranslate addrSpaces), d.toNat < 2 ^ 63) (rest : String) :
    readEntry (words (stallText addrSpaces n deps ++ rest)) = .ok (.stall false n
      ((deps.map (checkBoundsAndTranslate addrSpaces)).filter (· ≠ 0)), words rest) := by
  have hsplit : (stallText addrSpaces n deps ++ rest).toList =
      "STALL".toList ++ ' ' :: ((decimal n.toNat).toList ++ ' ' :: ("(".toList ++ ' ' ::
        ((stallDepText addrSpaces deps).toList ++ (")".toList ++ '\n' :: rest.toList)))) := by
    simp [stallText]
  have hcount := number_decimal (n.toNat_lt.trans (by decide : 2 ^ 32 < 2 ^ 63))
  rw [words, hsplit, words_text (by simp [Plain, isSpace]), words_decimal _ rfl,
    words_text (by simp [Plain, isSpace]), words_stallDepText,
    words_text (by simp [Plain, isSpace]), readEntry_cons, if_neg (by decide),
    if_pos (by decide), readStall]
  simp only [readNextToken, hcount, ok_bind, readDepList, require, if_true,
    readDeps_toHex fun d hd => h d (mem_of_mem_filter hd), ofInt_natCast, UInt32.ofNat_toNat]
  rfl

theorem readEntry_penalty {op : String} {a : Ptr} (hop : op = "LDB" ∨ op = "STB")
    (ha : a.toNat < 2 ^ 63) (rest : String) :
    readEntry (words (op ++ " " ++ toHex a ++ " ( )\n" ++ rest)) =
      .ok (.access (accessCmd op) false true (.ofInt (-1)) a [], words rest) := by
  have hsplit : (op ++ " " ++ toHex a ++ " ( )\n" ++ rest).toList = op.toList ++ ' ' ::
      ((toHex a).toList ++ ' ' :: ("(".toList ++ ' ' :: (")".toList ++ '\n' :: rest.toList))) := by
    simp
  have hhead (ts : List String) : readAccessHead (toHex a :: ts) = .ok (.ofInt (-1), a, ts) := by
    rw [readAccessHead]
    split
    · next cs heq =>
      rw [readNextToken, toHex, hex, String.toList_ofList] at heq
      split_ifs at heq <;> cases heq
    · rw [readNextToken, readAddr_toHex ha]
      rfl
  rw [words, hsplit]
  rcases hop with rfl | rfl <;>
  rw [words_text (by simp [Plain, isSpace]), words_toHex_append,
    words_text (by simp [Plain, isSpace]), words_text (by simp [Plain, isSpace]), readEntry_cons,
    if_pos (by decide), readAccess, hhead] <;> rfl

theorem Spells.readEntry {i : Item} {e : Entry} (h : Spells addrSpaces i e) (rest : String) :
    readEntry (words (i.text addrSpaces ++ rest)) = .ok (e, words rest) := by
  cases h with
  | stall h => exact readEntry_stall h rest
  | load h =>
    obtain ⟨hs, hz, hpc, ha, hdeps⟩ := h
    refine (readEntry_access_text mnemonic_ld hs hz hpc rest).trans ?_
    rw [readAddr_toHex ha, ok_bind, readDeps_toHex hdeps]
    rfl
  | store h =>
    obtain ⟨hs, hz, hpc, ha, hdeps⟩ := h
    refine (readEntry_access_text mnemonic_st hs hz hpc rest).trans ?_
    rw [readAddr_toHex ha, ok_bind, readDeps_toHex hdeps]
    rfl
  | intrinsic hp hops hcycles =>
    obtain ⟨-, -, haccess, hstall⟩ := words_of_primOf hp
    rw [words_intrinsic hp, readEntry_cons, haccess, hstall, hp]
    simp only [Bool.false_eq_true, if_false, readPrim, readOperands_text hops, ok_bind, readCycles,
      readNextToken, number_decimal hcycles, ofInt_natCast]
    rfl
  | penalty hop ha => exact readEntry_penalty hop ha rest

/-- By induction on the items: after an entry the text of the next item follows. -/
theorem entries_traceText {items : List Item} (h : ∀ i ∈ items, ∃ e, Spells addrSpaces i e) :
    Forall₂ (Spells addrSpaces) items
      (entries (words (traceText addrSpaces (items ++ [.eof])))) := by
  induction items with
  | nil =>
    have heof : entries (words (traceText addrSpaces [.eof])) = [] :=
      entries_of_error (show readEntry (words "EOF\n") = .error (.invalidToken "EOF") by decide)
    rw [nil_append, heof]
    exact .nil
  | cons i items ih =>
    obtain ⟨⟨e, he⟩, hitems⟩ := forall_mem_cons.mp h
    rw [cons_append, traceText, foldr_cons, entries_of_ok (he.readEntry _)]
    exact .cons he (ih hitems)

/-- An effect of an engine carries out what an item stands for. -/
def CarriesOut (addrSpaces : List (Int32 × Int32)) (i : Item) (eff : Effect) : Prop :=
  ∃ e, Spells addrSpaces i e ∧ Realises eff e

theorem carriesOut_of_spells {items : List Item} {es : List Entry} {effs : List Effect}
    (h : Forall₂ (Spells addrSpaces) items es) (heff : Forall₂ Realises effs es) :
    Forall₂ (CarriesOut addrSpaces) items effs := by
  induction h generalizing effs with
  | nil => exact forall₂_nil_right_iff.mp heff ▸ .nil
  | cons hi _ ih =>
    cases heff with
    | cons he hrest => exact .cons ⟨_, hi, he⟩ (ih hrest)

/-- Every item that a call can write stands for an entry. -/
def Call.Readable (cfg : Setup) (c : Call) : Prop :=
  ∀ pending, ∀ i ∈ (c.effect cfg pending).1, ∃ e, Spells cfg.addrSpaces i e

theorem trace_replayed (cfg : Setup) (hone : cfg.OneType) (r₀ r : Runtime) (calls : List Call)
    (_ : r₀.isOpen cfg.id = false) (hcalls : ∀ c ∈ calls, c.Readable cfg)
    (hrun : Runs.run (call cfg) (openTraceLog cfg.id r₀) calls = .ok r) :
    ∃ r', closeTraceLog cfg.id r = .ok r' ∧ Forall₂ (Spells cfg.addrSpaces) (r.file cfg.id)
        (entries (words (traceText cfg.addrSpaces (r'.file cfg.id)))) ∧
      ∀ (sys : Config) w i, Reachable sys w → Calm i w.log →
        (w.tre i).trace = words (traceText cfg.addrSpaces (r'.file cfg.id)) →
        ∃ done rest, r.file cfg.id = done ++ rest ∧
          Forall₂ (CarriesOut cfg.addrSpaces) done (Replay.effects i w.log) ∧
          (Obs.halted i ∈ w.log → rest = []) := by
  have hkept : Live cfg r ∧ ∀ i ∈ r.file cfg.id, ∃ e, Spells cfg.addrSpaces i e := by
    refine Runs.Meets.invariant (C := fun _ => Call.Readable cfg)
      (P := fun s => Live cfg s ∧ ∀ i ∈ s.file cfg.id, ∃ e, Spells cfg.addrSpaces i e) ?_
      ⟨open_live cfg r₀, by simp [openTraceLog]⟩ (Runs.meets_of_forall hcalls) hrun
    rintro s c t ⟨hl, hs⟩ hc h
    rw [call_eq hl hone] at h
    split_ifs at h
    cases h
    refine ⟨hl.write _ _, fun i hi => ?_⟩
    rw [write_file, mem_append] at hi
    exact hi.elim (hs i) (hc _ i)
  have hreg := registerEntry_eq (r := { r with traceBool := r.traceBool.map fun _ => false })
    hkept.1.file .eof
  rw [closeTraceLog, hreg, ok_bind]
  refine ⟨_, rfl, ?_⟩
  dsimp only
  rw [update_self]
  have hread := entries_traceText hkept.2
  refine ⟨hread, fun sys w i hw hcalm htrace => ?_⟩
  obtain ⟨loc, -, hsane⟩ := hw.sane
  have hs := hsane i hcalm
  obtain ⟨done, hdone, heff⟩ := hs.ordered.order
  rw [← htrace, hdone] at hread
  refine ⟨_, _, (take_append_drop done.length _).symm,
    carriesOut_of_spells (forall₂_take_append _ _ _ hread) heff, fun hh => ?_⟩
  have hrest := forall₂_drop_append _ _ _ hread
  rw [hs.registered.halted.mp hh] at hrest
  exact forall₂_nil_right_iff.mp hrest

theorem flushed_readable (pending : Int32) :
    ∀ i ∈ (flushed pending).1, ∃ e, Spells addrSpaces i e := by
  rw [flushed]
  split_ifs
  · exact forall_mem_singleton.mpr ⟨_, .stall (by simp)⟩
  · exact forall_mem_nil _

theorem Call.Readable.load {cfg : Setup} {a d₁ d₂ d₃ : Ptr} {pc k : Int32}
    (h : Legible cfg.addrSpaces a (collectDeps k d₁ d₂ d₃) pc) :
    Call.Readable cfg (.emitLoad a pc k d₁ d₂ d₃) := by
  intro pending
  rw [effect, if_pos h.1]
  exact forall_mem_append.mpr
    ⟨flushed_readable pending, forall_mem_singleton.mpr ⟨_, .load h⟩⟩

/-- A load, a stall, a load that depends on the first, and a mutex. -/
def loadsThenMutex : List Call :=
  [.emitLoad 24 0 0 0 0 0, .incrementStalls 2 0 0 0 0, .emitLoad 32 4 1 24 0 0,
    .intrinsic ⟨"MTXINIT", 0, 0, 0⟩ [.ptr 40]]

def loadsThenMutexTrace : List String :=
  ["LD", "@0", "0x18", "(", ")", "STALL", "2", "(", ")", "LD", "@4", "0x20", "(", "0x18", ")",
    "MTXINIT", "0x28", "0", "EOF"]

/-- The second load is parked until the first is answered. The engine that halted carried out
all four items. -/
theorem trace_replayed_loadsThenMutex : ∃ r w,
    Runs.run (call onePe) (openTraceLog 0 .init) loadsThenMutex = .ok r ∧ (r.file 0).length = 4 ∧
    Reachable (single 4 loadsThenMutexTrace) w ∧ Obs.halted 0 ∈ w.log ∧
    Forall₂ (CarriesOut [(16, 64)]) (r.file 0) (Replay.effects 0 w.log) := by
  have hcalls : ∀ c ∈ loadsThenMutex, c.Readable onePe := by
    simp only [loadsThenMutex, forall_mem_cons]
    refine ⟨.load ⟨by decide, by decide, by decide, by decide, by simp [collectDeps]⟩, ?_,
      .load ⟨by decide, by decide, by decide, by decide, by simp [collectDeps]; decide⟩, ?_,
      forall_mem_nil _⟩
    · intro _
      rw [Call.effect, if_neg (by decide)]
      exact forall_mem_nil _
    · exact fun _ => forall_mem_singleton.mpr
        ⟨_, .intrinsic (p := .initMutex) (by decide) (.address (by decide) (by simp)) (by simp)⟩
  obtain ⟨r, hr, hlen⟩ : Runs.Ends (call onePe) (openTraceLog 0 .init) loadsThenMutex
      (fun r => (r.file 0).length = 4) := by decide +kernel
  obtain ⟨r', hclose, -, h⟩ := trace_replayed onePe (by decide) .init r _ rfl hcalls hr
  have hrun : Runs.Ends step (boot (single 4 loadsThenMutexTrace))
      [(.fire 0 .tick, {}), (.fire 0 .tick, {}), (.fire 0 .tick, {}), (.recvTimingResp 0 0, {}),
        (.fire 0 .tick, {}), (.recvTimingResp 0 0, {}), (.fire 0 .tick, {}), (.fire 0 .tick, {})]
      (fun w => Obs.halted 0 ∈ w.log ∧ w.log.all (Obs.sleeps 0 true) = true ∧
        (w.tre 0).trace = loadsThenMutexTrace) := by decide +kernel
  obtain ⟨w, hw, hhalt, hawake, htrace⟩ := hrun.reachable
  have hcalm : Calm 0 w.log :=
    .of_forall_ne fun i d h => by simpa [Obs.sleeps] using all_eq_true.mp hawake _ h
  have htext : loadsThenMutexTrace = words (traceText onePe.addrSpaces (r'.file onePe.id)) := by
    cases hr
    cases hclose
    decide +kernel
  obtain ⟨done, rest, hfile, hdone, hrest⟩ := h _ w 0 hw hcalm (htrace.trans htext)
  rw [hrest hhalt, append_nil] at hfile
  exact ⟨r, w, hr, hlen, hw, hhalt, hfile ▸ hdone⟩

end HetSim.Tracer
