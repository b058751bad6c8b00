import HetSim.Library.Checked

/-!
# Forwarding from the store queue

A load searches the older stores that are not written back, from the youngest one on, for its
bytes. The inequalities of the search say exactly whether a store shares a byte with the load.
-/

namespace HetSim.O3.LSQ
open Checked List

structure LoadReq where
  (seqNum vaddr size : ℕ)
  isLLSC : Bool
  size_pos : 0 < size

structure SQEntry where
  (seqNum effAddr size : ℕ)
  (effAddrValid strictlyOrdered isCacheMaintenance isAtomic isMasked completed isAllZeros : Bool)
  (isStoreConditional isDataPrefetch isLocalAccess : Bool)
  data : ℕ → BitVec 8

inductive AddrRangeCoverage
  | partialAddrRangeCoverage
  | fullAddrRangeCoverage
  | noAddrRangeCoverage
open AddrRangeCoverage

/-- The oldest load that waits for a store: `stalled`, the store and the load. -/
structure Stall where
  stalled : Bool
  (stallingStoreIsn stallingLoadSeqNum : ℕ)

inductive Result
  | memoryAccess
  | forwarded (memData : List (BitVec 8))
  | rescheduled

inductive Fault
  | notOlder
  | addressNotValid
  /-- "Should not check one of these" -/
  | writtenBack

variable (load : LoadReq) (store : SQEntry)

def coverage : AddrRangeCoverage :=
  let reqS := load.vaddr
  let reqE := (reqS + load.size) % 2 ^ 64
  let stS := store.effAddr
  let stE := (stS + store.size) % 2 ^ 64
  let storeHasLowerLimit := reqS ≥ stS
  let storeHasUpperLimit := reqE ≤ stE
  let lowerLoadHasStorePart := reqS < stE
  let upperLoadHasStorePart := reqE > stS
  if ¬ store.isAtomic ∧ storeHasLowerLimit ∧ storeHasUpperLimit ∧ ¬ load.isLLSC then
    if store.isMasked then partialAddrRangeCoverage else fullAddrRangeCoverage
  else if
      (¬ load.isLLSC ∧ (storeHasLowerLimit ∧ lowerLoadHasStorePart ∨
        storeHasUpperLimit ∧ upperLoadHasStorePart ∨
        lowerLoadHasStorePart ∧ upperLoadHasStorePart)) ∨
      (load.isLLSC ∧ (storeHasLowerLimit ∨ upperLoadHasStorePart) ∧
        (storeHasUpperLimit ∨ lowerLoadHasStorePart)) ∨
      (store.isAtomic ∧ (storeHasLowerLimit ∨ upperLoadHasStorePart) ∧
        (storeHasUpperLimit ∨ lowerLoadHasStorePart)) then
    partialAddrRangeCoverage
  else noAddrRangeCoverage

def memData : List (BitVec 8) :=
  let shiftAmt := load.vaddr - store.effAddr
  (range load.size).map fun k => if store.isAllZeros then 0 else store.data (shiftAmt + k)

/-- The search of `LSQUnit::read`, for a load that is neither strictly ordered nor local, over
the stores between `sqIt` and `storeWBIt`, the youngest first. -/
def read (s : Stall) : List SQEntry → Except Fault (Result × Stall)
  | [] => return (.memoryAccess, s)
  | store :: stores => do
    require (store.seqNum < load.seqNum) .notOlder
    if store.size ≠ 0 ∧ ¬ store.strictlyOrdered ∧ ¬ store.isCacheMaintenance then
      require store.effAddrValid .addressNotValid
      match coverage load store with
      | fullAddrRangeCoverage => return (.forwarded (memData load store), s)
      | partialAddrRangeCoverage =>
        require (¬ store.completed) .writtenBack
        let s' := if ¬ s.stalled ∨ load.seqNum < s.stallingLoadSeqNum then
          ⟨true, store.seqNum, load.seqNum⟩ else s
        return (.rescheduled, s')
      | noAddrRangeCoverage => read s stores
    else read s stores

/-- The store carries data, is not strictly ordered and has a byte of the load. -/
def Shares : Prop :=
  store.size ≠ 0 ∧ ¬ store.strictlyOrdered ∧ ¬ store.isCacheMaintenance ∧
    ∃ a, (load.vaddr ≤ a ∧ a < load.vaddr + load.size) ∧
      store.effAddr ≤ a ∧ a < store.effAddr + store.size

/-- The store has all bytes of the load and may forward them. -/
def Forwards : Prop :=
  (store.effAddr ≤ load.vaddr ∧ load.vaddr + load.size ≤ store.effAddr + store.size) ∧
    ¬ store.isAtomic ∧ ¬ store.isMasked ∧ ¬ load.isLLSC

/-- What the store has at an address. -/
def SQEntry.byteAt (a : ℕ) : BitVec 8 :=
  if store.isAllZeros then 0 else store.data (a - store.effAddr)

variable {load store}

theorem exists_common {a n b m : ℕ} (hn : 0 < n) (hm : 0 < m) :
    (∃ x, (a ≤ x ∧ x < a + n) ∧ b ≤ x ∧ x < b + m) ↔ a < b + m ∧ b < a + n := by
  constructor
  · rintro ⟨x, hx⟩
    omega
  · intro h
    exact ⟨max a b, by omega⟩

section
variable (hload : load.vaddr + load.size < 2 ^ 64) (hstore : store.effAddr + store.size < 2 ^ 64)
include hload hstore

theorem coverage_of_forwards (h : Forwards load store) :
    coverage load store = fullAddrRangeCoverage := by
  obtain ⟨⟨hlow, hhigh⟩, hatomic, hmasked, hllsc⟩ := h
  rw [coverage, Nat.mod_eq_of_lt hload, Nat.mod_eq_of_lt hstore]
  rw [if_pos ⟨hatomic, hlow, hhigh, hllsc⟩, if_neg hmasked]

theorem coverage_of_shares (h : Shares load store) (hf : ¬ Forwards load store) :
    coverage load store = partialAddrRangeCoverage := by
  obtain ⟨hsize, -, -, hcommon⟩ := h
  rw [exists_common load.size_pos (Nat.pos_of_ne_zero hsize)] at hcommon
  rw [coverage, Nat.mod_eq_of_lt hload, Nat.mod_eq_of_lt hstore]
  split_ifs with hfull hmasked hpart
  · rfl
  · exact absurd ⟨⟨hfull.2.1, hfull.2.2.1⟩, hfull.1, hmasked, hfull.2.2.2⟩ hf
  · rfl
  · push Not at hpart
    by_cases hllsc : load.isLLSC
    · exact absurd (hpart.2.1 hllsc (.inr hcommon.2)) (by omega)
    · exact absurd (hpart.1 hllsc).2.2 (by omega)

theorem coverage_of_not_shares (hsize : store.size ≠ 0) (hordered : ¬ store.strictlyOrdered)
    (hmaint : ¬ store.isCacheMaintenance) (h : ¬ Shares load store) :
    coverage load store = noAddrRangeCoverage := by
  have hpos := load.size_pos
  have hcommon : ¬ (load.vaddr < store.effAddr + store.size ∧
      store.effAddr < load.vaddr + load.size) := by
    rw [← exists_common hpos (Nat.pos_of_ne_zero hsize)]
    exact fun hc => h ⟨hsize, hordered, hmaint, hc⟩
  rw [coverage, Nat.mod_eq_of_lt hload, Nat.mod_eq_of_lt hstore]
  rw [if_neg (by omega), if_neg (by omega)]

end

theorem memData_eq (h : store.effAddr ≤ load.vaddr) :
    memData load store = (range' load.vaddr load.size).map store.byteAt := by
  rw [range'_eq_map_range, map_map, memData]
  refine map_congr_left fun k _ => ?_
  rw [Function.comp_apply, SQEntry.byteAt, Nat.sub_add_comm h]

/-- A store that the search of the load may meet. -/
def Pending (load : LoadReq) (st : SQEntry) : Prop :=
  st.seqNum < load.seqNum ∧ st.effAddrValid ∧ ¬ st.completed ∧ st.effAddr + st.size < 2 ^ 64

section Search

variable {s : Stall} {st : SQEntry} {stores : List SQEntry}
  (hload : load.vaddr + load.size < 2 ^ 64) (h : Pending load st)
include hload h

theorem read_forwards (hshares : Shares load st) (hf : Forwards load st) :
    read load s (st :: stores) =
      .ok (.forwarded ((range' load.vaddr load.size).map st.byteAt), s) := by
  obtain ⟨holder, hvalid, -, hstore⟩ := h
  rw [read, require, if_pos holder, ok_bind, if_pos ⟨hshares.1, hshares.2.1, hshares.2.2.1⟩,
    require, if_pos hvalid, ok_bind, coverage_of_forwards hload hstore hf, ← memData_eq hf.1.1]
  rfl

theorem read_reschedules (hshares : Shares load st) (hf : ¬ Forwards load st) :
    ∃ s', read load s (st :: stores) = .ok (.rescheduled, s') := by
  obtain ⟨holder, hvalid, hpending, hstore⟩ := h
  rw [read, require, if_pos holder, ok_bind, if_pos ⟨hshares.1, hshares.2.1, hshares.2.2.1⟩,
    require, if_pos hvalid, ok_bind, coverage_of_shares hload hstore hshares hf]
  dsimp only
  rw [require, if_pos hpending, ok_bind]
  exact ⟨_, rfl⟩

theorem read_skips (hshares : ¬ Shares load st) :
    read load s (st :: stores) = read load s stores := by
  obtain ⟨holder, hvalid, -, hstore⟩ := h
  rw [read, require, if_pos holder, ok_bind]
  by_cases hdata : st.size ≠ 0 ∧ ¬ st.strictlyOrdered ∧ ¬ st.isCacheMaintenance
  · rw [if_pos hdata, require, if_pos hvalid, ok_bind,
      coverage_of_not_shares hload hstore hdata.1 hdata.2.1 hdata.2.2 hshares]
  · rw [if_neg hdata]

end Search

/-- The youngest store that shares a byte decides, by induction on the stores that are left. -/
theorem read_exact (s : Stall) (load : LoadReq) (stores : List SQEntry)
    (hload : load.vaddr + load.size < 2 ^ 64)
    (hstores : ∀ st ∈ stores, st.seqNum < load.seqNum ∧ st.effAddrValid ∧ ¬ st.completed ∧
      st.effAddr + st.size < 2 ^ 64)
    (horder : stores.Pairwise fun st st' => st'.seqNum < st.seqNum) :
    ∃ r s', read load s stores = .ok (r, s') ∧
      ((∀ st ∈ stores, ¬ Shares load st) → r = .memoryAccess) ∧
      ∀ st ∈ stores, Shares load st →
        (∀ st' ∈ stores, Shares load st' → st'.seqNum ≤ st.seqNum) →
        (Forwards load st → r = .forwarded ((range' load.vaddr load.size).map st.byteAt)) ∧
        (¬ Forwards load st → r = .rescheduled) := by
  induction stores with
  | nil => exact ⟨.memoryAccess, s, rfl, fun _ => rfl, by simp⟩
  | cons st stores ih =>
    obtain ⟨hst, hrest⟩ := forall_mem_cons.mp hstores
    obtain ⟨hyoungest, horder⟩ := pairwise_cons.mp horder
    by_cases hshares : Shares load st
    · -- an older store is not the youngest that shares a byte
      have honly (x : SQEntry) (hx : x ∈ st :: stores)
          (hmax : ∀ x' ∈ st :: stores, Shares load x' → x'.seqNum ≤ x.seqNum) : x = st := by
        refine (mem_cons.mp hx).resolve_right fun hx => ?_
        have := hyoungest x hx
        have := hmax st mem_cons_self hshares
        omega
      have hsome (r : Result) (h : ∀ x ∈ st :: stores, ¬ Shares load x) : r = .memoryAccess :=
        absurd hshares (h st mem_cons_self)
      by_cases hf : Forwards load st
      · refine ⟨_, _, read_forwards hload hst hshares hf, hsome _, fun x hx _ hmax => ?_⟩
        obtain rfl := honly x hx hmax
        exact ⟨fun _ => rfl, fun hn => absurd hf hn⟩
      · obtain ⟨s', hread⟩ := read_reschedules hload hst hshares hf
        refine ⟨_, s', hread, hsome _, fun x hx _ hmax => ?_⟩
        obtain rfl := honly x hx hmax
        exact ⟨fun hn => absurd hn hf, fun _ => rfl⟩
    · obtain ⟨r, s', hread, hnone, hsome⟩ := ih hrest horder
      refine ⟨r, s', (read_skips hload hst hshares).trans hread,
        fun h => hnone fun x hx => h x (mem_cons_of_mem st hx), fun x hx hsh hmax => ?_⟩
      rcases mem_cons.mp hx with rfl | hx
      · exact absurd hsh hshares
      · exact hsome x hx hsh fun x' hx' => hmax x' (mem_cons_of_mem st hx')

def twoBytes : LoadReq := ⟨9, 102, 2, false, by decide⟩

def twoStores : List SQEntry :=
  [⟨7, 100, 8, true, false, false, false, false, false, false, false, false, false, BitVec.ofNat 8⟩,
    ⟨5, 102, 2, true, false, false, false, false, false, true, false, false, false, fun _ => 1⟩]

/-- The younger store has both bytes in its middle. -/
theorem read_exact_middle : ∃ r s', read twoBytes ⟨false, 0, 0⟩ twoStores = .ok (r, s') ∧
    r = .forwarded [2, 3] := by
  obtain ⟨r, s', hread, -, hsome⟩ := read_exact ⟨false, 0, 0⟩ twoBytes twoStores (by decide)
    (by simp [twoStores, twoBytes]) (by simp [twoStores])
  have hfirst := hsome _ mem_cons_self ⟨by simp, by simp, by simp, 102, by simp [twoBytes]⟩
    (by simp [twoStores])
  exact ⟨r, s', hread, hfirst.1 ⟨by simp [twoBytes], by simp, by simp, by simp [twoBytes]⟩⟩

section WriteBack

variable (translate : ℕ → ℕ) (success : SQEntry → Bool)
  (rmw : SQEntry → (ℕ → BitVec 8) → ℕ → BitVec 8) (mem : ℕ → BitVec 8)

/-- `writebackStores` passes over a data prefetch, completes a store conditional that fails at once
and gives a local access to its accessor. Cache maintenance is sent and changes no byte. -/
def SQEntry.writes (st : SQEntry) : Bool :=
  !st.isDataPrefetch && (!st.isStoreConditional || success st) && !st.isLocalAccess &&
    !st.isCacheMaintenance

variable {translate success rmw mem} {st : SQEntry} {a : ℕ}

end WriteBack

end HetSim.O3.LSQ
