import HetSim.Library.Insertion
import HetSim.Tracer.Stalls

/-!
# The instrumentation of a basic block

`identify` collects five lists of calls, each with the instruction it belongs to; `runOnModule`
then inserts them list by list in front of their instructions. The data dependence graph is an
input: an instruction comes with the addresses it depends on, and the pass uses the first three.
-/

namespace HetSim.Tracer
open Insertion List

/-- The instructions as far as the pass tells them apart, with the values their
operands have when they are executed. -/
inductive Instr
  | load (ptr : Ptr) (deps : List Ptr)
  | store (ptr value : Ptr) (deps : List Ptr)
  | call (intrinsic : Option (Func × List Arg))
  | traced (deps : List Ptr)
  | other
  deriving DecidableEq

/-- The last instruction of a block is a terminator, which is traced or not. -/
structure Block where
  body : List Instr
  terminator : Option (List Ptr)
  deriving DecidableEq

def Block.last (b : Block) : Instr := b.terminator.elim .other .traced

def Block.instrs (b : Block) : List Instr := b.body ++ [b.last]

structure Scan where
  stallCount : ℕ
  memAccessId : Int32
  loads : List (ℕ × Call)
  stores : List (ℕ × Call)
  stalls : List (ℕ × Call)
  depStalls : List (ℕ × Call)
  intrinsics : List (ℕ × Call)

def numDeps (deps : List Ptr) : Int32 := Int32.ofNat (deps.take 3).length

def dep (deps : List Ptr) (k : ℕ) : Ptr := (deps.take 3).getD k 0

def loadCall (ptr : Ptr) (deps : List Ptr) (pc : Int32) : Call :=
  .emitLoad ptr pc (numDeps deps) (dep deps 0) (dep deps 1) (dep deps 2)

def storeCall (ptr value : Ptr) (deps : List Ptr) (pc : Int32) : Call :=
  .emitStore ptr value pc (numDeps deps) (dep deps 0) (dep deps 1) (dep deps 2)

def stallCall (count : ℕ) : Call := .incrementStalls (Int32.ofNat count) 0 0 0 0

def depStallCall (count : ℕ) (deps : List Ptr) : Call :=
  .incrementStalls (Int32.ofNat count) (numDeps deps) (dep deps 0) (dep deps 1) (dep deps 2)

namespace Scan

/-- The stalls counted so far are attached to an instruction. -/
def attach (st : Scan) (pos : ℕ) : Scan :=
  if st.stallCount > 0 then
    { st with stalls := st.stalls ++ [(pos, stallCall st.stallCount)], stallCount := 0 }
  else st

/-- One turn of the loop over the instructions. -/
def see (st : Scan) (pos : ℕ) : Instr → Scan
  | .load ptr deps =>
    { st with
      loads := st.loads ++ [(pos, loadCall ptr deps st.memAccessId)]
      memAccessId := st.memAccessId + 1 }.attach pos
  | .store ptr value deps =>
    { st with
      stores := st.stores ++ [(pos, storeCall ptr value deps st.memAccessId)]
      memAccessId := st.memAccessId + 1 }.attach pos
  | .call (some (f, args)) =>
    { st with intrinsics := st.intrinsics ++ [(pos, .intrinsic f args)] }
  | .call none => st
  | .traced [] => { st with stallCount := st.stallCount + 1 }
  | .traced (d :: ds) =>
    { st with
      depStalls := st.depStalls ++ [(pos, depStallCall (st.stallCount + 1) (d :: ds))]
      stallCount := 0 }
  | .other => st

def seeAll (st : Scan) (pos : ℕ) : List Instr → Scan
  | [] => st
  | I :: instrs => (st.see pos I).seeAll (pos + 1) instrs

def front (st : Scan) (q : ℕ) : List Call :=
  frontOf q st.loads ++ frontOf q st.stores ++ frontOf q st.stalls ++ frontOf q st.depStalls ++
    frontOf q st.intrinsics

end Scan

/-- `identify` on one block. `memAccessId` counts the accesses of the blocks before. -/
def identify (memAccessId : Int32) (b : Block) : Scan :=
  (Scan.seeAll ⟨0, memAccessId, [], [], [], [], []⟩ 0 b.instrs).attach b.body.length

def instrument (memAccessId : Int32) (b : Block) : List (ℕ ⊕ Call) :=
  let found := identify memAccessId b
  let code := (List.range b.instrs.length).map .inl
  insertAll found.intrinsics (insertAll found.depStalls (insertAll found.stalls
    (insertAll found.stores (insertAll found.loads code))))

/-- Executing the instrumented block makes these calls. -/
def blockCalls (memAccessId : Int32) (b : Block) : List Call := elems (instrument memAccessId b)

theorem instrument_eq (m : Int32) (b : Block) :
    blockCalls m b = (List.range b.instrs.length).flatMap (identify m b).front := by
  have hcode : (List.range b.instrs.length).map (.inl : ℕ → ℕ ⊕ Call) =
      laid (List.range b.instrs.length) fun _ => [] := by
    simp [laid, map_eq_flatMap]
  have hn : (List.range b.instrs.length).Nodup := nodup_range
  simp only [blockCalls, instrument]
  rw [hcode, insertAll_laid hn, insertAll_laid hn, insertAll_laid hn, insertAll_laid hn,
    insertAll_laid hn, elems_laid]
  simp only [nil_append]
  rfl

/-- The calls for one instruction, when `s` stalls were counted before it. -/
def Instr.calls (s : ℕ) (m : Int32) : Instr → List Call
  | .load ptr deps => loadCall ptr deps m :: if s > 0 then [stallCall s] else []
  | .store ptr value deps => storeCall ptr value deps m :: if s > 0 then [stallCall s] else []
  | .call (some (f, args)) => [.intrinsic f args]
  | .call none | .traced [] | .other => []
  | .traced (d :: ds) => [depStallCall (s + 1) (d :: ds)]

/-- What the sweep counts after an instruction. -/
def Instr.counts (s : ℕ) : Instr → ℕ
  | .load _ _ | .store _ _ _ | .traced (_ :: _) => 0
  | .call _ | .other => s
  | .traced [] => s + 1

def Instr.accessIds (m : Int32) : Instr → Int32
  | .load _ _ | .store _ _ _ => m + 1
  | _ => m

def callsFrom (s : ℕ) (m : Int32) : List Instr → List Call
  | [] => if s > 0 then [stallCall s] else []
  | I :: instrs => I.calls s m ++ callsFrom (I.counts s) (I.accessIds m) instrs

namespace Scan

theorem attach_stallCount (st : Scan) (pos : ℕ) : (st.attach pos).stallCount = 0 := by
  unfold attach
  split_ifs with h
  · rfl
  · exact Nat.eq_zero_of_not_pos h

theorem attach_memAccessId (st : Scan) (pos : ℕ) :
    (st.attach pos).memAccessId = st.memAccessId := by
  unfold attach
  split_ifs <;> rfl

theorem see_stallCount (st : Scan) (pos : ℕ) (I : Instr) :
    (st.see pos I).stallCount = I.counts st.stallCount := by
  match I with
  | .load _ _ | .store _ _ _ => exact attach_stallCount _ pos
  | .call (some _) | .call none | .traced [] | .traced (_ :: _) | .other => rfl

theorem see_memAccessId (st : Scan) (pos : ℕ) (I : Instr) :
    (st.see pos I).memAccessId = I.accessIds st.memAccessId := by
  match I with
  | .load _ _ | .store _ _ _ => exact attach_memAccessId _ pos
  | .call (some _) | .call none | .traced [] | .traced (_ :: _) | .other => rfl

variable {pos q : ℕ}

theorem attach_front_of_ne (st : Scan) (h : pos ≠ q) : (st.attach pos).front q = st.front q := by
  unfold attach
  split_ifs
  · simp [front, h]
  · rfl

theorem see_front_of_ne (st : Scan) (I : Instr) (h : pos ≠ q) :
    (st.see pos I).front q = st.front q := by
  match I with
  | .load _ _ | .store _ _ _ =>
    rw [see, attach_front_of_ne _ h]
    simp [front, h]
  | .call (some _) | .traced (_ :: _) => simp [see, front, h]
  | .call none | .traced [] | .other => rfl

theorem see_front (st : Scan) (I : Instr) (h : st.front pos = []) :
    (st.see pos I).front pos = I.calls st.stallCount st.memAccessId := by
  simp only [front, append_eq_nil_iff] at h
  obtain ⟨⟨⟨⟨h₁, h₂⟩, h₃⟩, h₄⟩, h₅⟩ := h
  cases I with
  | load | store =>
    simp only [see, attach, Instr.calls]
    split_ifs <;> simp [front, h₁, h₂, h₃, h₄, h₅]
  | call c | traced c => cases c <;> simp [see, Instr.calls, front, h₁, h₂, h₃, h₄, h₅]
  | other => simp [see, Instr.calls, front, h₁, h₂, h₃, h₄, h₅]

theorem seeAll_front_of_lt (st : Scan) (instrs : List Instr) (h : q < pos) :
    (st.seeAll pos instrs).front q = st.front q := by
  induction instrs generalizing st pos with
  | nil => rfl
  | cons I instrs ih =>
    rw [seeAll, ih _ (by omega)]
    exact see_front_of_ne st I (by omega)

theorem seeAll_front_of_le (st : Scan) (instrs : List Instr)
    (hq : pos + instrs.length ≤ q) (h : st.front q = []) : (st.seeAll pos instrs).front q = [] := by
  induction instrs generalizing st pos with
  | nil => exact h
  | cons I instrs ih =>
    rw [length_cons] at hq
    rw [seeAll, ih _ (by omega)]
    rw [see_front_of_ne st I (by omega)]
    exact h

theorem seeAll_calls (st : Scan) (instrs rest : List Instr) (pos : ℕ)
    (h : ∀ q, pos ≤ q → st.front q = []) :
    (List.range' pos instrs.length).flatMap (st.seeAll pos instrs).front ++
        callsFrom (st.seeAll pos instrs).stallCount (st.seeAll pos instrs).memAccessId rest =
      callsFrom st.stallCount st.memAccessId (instrs ++ rest) := by
  induction instrs generalizing st pos with
  | nil => rfl
  | cons I instrs ih =>
    have hfront : ∀ q, pos + 1 ≤ q → (st.see pos I).front q = [] := by
      intro q hq
      rw [see_front_of_ne st I (by omega)]
      exact h q (by omega)
    have hself : ((st.see pos I).seeAll (pos + 1) instrs).front pos =
        I.calls st.stallCount st.memAccessId := by
      rw [seeAll_front_of_lt _ _ (by omega)]
      exact see_front st I (h pos le_rfl)
    have ih := ih (st.see pos I) (pos + 1) hfront
    rw [see_stallCount, see_memAccessId] at ih
    rw [length_cons, List.range'_succ, flatMap_cons, seeAll, hself, append_assoc, ih]
    rfl

end Scan

/-- The order in which the block makes its calls. Stalls counted before an access are
added after its own call, and those left over at the end of the block. -/
theorem blockCalls_eq (m : Int32) (b : Block) : blockCalls m b = callsFrom 0 m b.instrs := by
  set st : Scan := ⟨0, m, [], [], [], [], []⟩ with hst
  set n := b.body.length with hn
  have hnil : ∀ q, 0 ≤ q → st.front q = [] := fun q _ => by simp [hst, Scan.front]
  have hsplit : ∀ (st : Scan) (pos : ℕ) (l : List Instr) (I : Instr),
      st.seeAll pos (l ++ [I]) = (st.seeAll pos l).see (pos + l.length) I := by
    intro st pos l I
    induction l generalizing st pos with
    | nil => rfl
    | cons J l ih =>
      rw [cons_append, Scan.seeAll, ih, Scan.seeAll, length_cons]
      congr 1
      omega
  set body := st.seeAll 0 b.body with hbody
  have hid : identify m b = (body.see n b.last).attach n := by
    rw [identify, Block.instrs, hsplit, ← hst, ← hbody, ← hn, Nat.zero_add]
  have hempty : body.front n = [] :=
    Scan.seeAll_front_of_le st b.body (by omega) (hnil n (by omega))
  have hbefore : ∀ q ∈ List.range n, (identify m b).front q = body.front q := by
    intro q hq
    rw [mem_range] at hq
    rw [hid, Scan.attach_front_of_ne _ (by omega), Scan.see_front_of_ne _ _ (by omega)]
  have hlast : (identify m b).front n = callsFrom body.stallCount body.memAccessId [b.last] := by
    have hsee := Scan.see_front body b.last hempty
    have hcount := Scan.see_stallCount body n b.last
    rw [hid, callsFrom, callsFrom, ← hcount, ← hsee]
    unfold Scan.attach
    split_ifs with hpos
    · -- the terminator itself only has a dependent stall, which resets the count
      have hdep : frontOf n (body.see n b.last).depStalls = [] ∧
          frontOf n (body.see n b.last).intrinsics = [] := by
        simp only [Scan.front, append_eq_nil_iff] at hempty
        unfold Block.last at hpos ⊢
        rcases hterm : b.terminator with - | - | ⟨d, ds⟩
        · exact ⟨hempty.1.2, hempty.2⟩
        · exact ⟨hempty.1.2, hempty.2⟩
        · rw [hterm] at hpos
          exact absurd hpos (lt_irrefl 0)
      simp [Scan.front, hdep.1, hdep.2]
    · simp
  have hcalls := Scan.seeAll_calls st b.body [b.last] 0 hnil
  rw [← hbody] at hcalls
  rw [instrument_eq]
  have hlen : b.instrs.length = n + 1 := by simp [Block.instrs, hn]
  rw [hlen, range_succ, flatMap_append, flatMap_singleton, hlast,
    flatMap_congr hbefore, range_eq_range']
  exact hcalls

end HetSim.Tracer
