import HetSim.Library.Runs
import HetSim.Memory.Packet

/-!
# The snoop filter

For every line the filter keeps the ports with a request in flight and the ports that hold the
line. A lookup that is to be retried is undone from a saved copy of the entry; nothing is left of
it if no entry is empty. An assertion that fails, a `panic` and an iterator to an entry that is
gone stop with a fault.
-/

namespace HetSim.Memory.SnoopFilter
open Address (Addr)
open Checked Runs

abbrev SnoopMask := BitVec 256

structure SnoopItem where
  requested : SnoopMask := 0
  holder : SnoopMask := 0
  deriving DecidableEq

def SnoopItem.isNull (item : SnoopItem) : Bool := item.requested ||| item.holder = 0

/-- A port of the crossbar; the filter gives the snooping ones a bit of its masks. -/
structure Port where
  isSnooping : Bool
  localId : Fin 256
  deriving DecidableEq

def portToMask (port : Port) : SnoopMask := if port.isSnooping then 1 <<< port.localId.val else 0

/-- What the filter reads of a packet. -/
structure FilterPacket where
  cmd : MemCmd
  req : Request
  addr : Addr
  isSecure : Bool := false
  cacheResponding : Bool := false
  hasSharers : Bool := false
  isBlockCached : Bool := false
  deriving DecidableEq

namespace FilterPacket

variable (pkt : FilterPacket)

def isRequest : Bool := pkt.cmd.testCmdAttrib .isRequest
def isResponse : Bool := pkt.cmd.testCmdAttrib .isResponse
def fromCache : Bool := pkt.cmd.testCmdAttrib .fromCache
def needsResponse : Bool := pkt.cmd.testCmdAttrib .needsResponse
def needsWritable : Bool := pkt.cmd.testCmdAttrib .needsWritable
def isInvalidate : Bool := pkt.cmd.testCmdAttrib .isInvalidate
def isEviction : Bool := pkt.cmd.testCmdAttrib .isEviction
def isWriteback : Bool := pkt.cmd.testCmdAttrib .isEviction && pkt.cmd.testCmdAttrib .hasData

end FilterPacket

inductive Fault
  | doubleRequest
  | notHolding
  | notEviction
  | otherLine
  | danglingIterator
  | notRequest
  | notResponse
  | notCacheResponding
  | capacityExceeded
  | invalidateMismatch
  | responderWithoutLine
  | missingRequest
  | unexpectedWriteback
  | nullEntry
  deriving DecidableEq

abbrev SnoopFilterCache := Finmap fun _ : Addr => SnoopItem

structure Filter where
  linesize : ℕ
  maxEntryCount : ℕ
  cachedLocations : SnoopFilterCache := ∅
  /-- The line of the entry that the last lookup found or made. -/
  it : Option Addr := none
  retryItem : SnoopItem := {}

namespace Filter

variable (f : Filter) (pkt : FilterPacket)

def lineAddr (addr : Addr) (isSecure : Bool) : Addr :=
  let blockAddr := addr &&& ~~~(BitVec.ofNat 32 f.linesize - 1).setWidth 64
  if isSecure then blockAddr ||| 1 else blockAddr

def setItem (line : Addr) (item : SnoopItem) : Filter :=
  { f with cachedLocations := f.cachedLocations.insert line item }

def eraseIfNullEntry (line : Addr) : Except Fault Filter := do
  let item ← demand (f.cachedLocations.lookup line) .danglingIterator
  if item.isNull then return { f with cachedLocations := f.cachedLocations.erase line }
    else return f

def trackRequest (reqPort : SnoopMask) (item : SnoopItem) : Except Fault SnoopItem :=
  if pkt.needsResponse then
    if !pkt.cacheResponding then do
      require (item.requested &&& reqPort = 0) .doubleRequest
      return { item with requested := item.requested ||| reqPort }
    else do
      require (item.holder &&& reqPort ≠ 0) .notHolding
      return item
  else do
    require pkt.isEviction .notEviction
    require (item.holder &&& reqPort ≠ 0) .notHolding
    if !pkt.isBlockCached then return { item with holder := item.holder &&& ~~~reqPort }
    else return item

/-- The entry of the line, made if there is none, is remembered with its value. -/
def openEntry (line : Addr) : Filter :=
  match f.cachedLocations.lookup line with
  | none => { f.setItem line {} with it := some line, retryItem := {} }
  | some item => { f with it := some line, retryItem := item }

/-- Returns the ports to snoop with the new filter. -/
def lookupRequest (port : Port) : Except Fault (SnoopMask × Filter) :=
  let allocate := !pkt.req.uncacheable && port.isSnooping && pkt.fromCache
  let line := f.lineAddr pkt.addr pkt.isSecure
  let reqPort := portToMask port
  if (f.cachedLocations.lookup line).isNone && !allocate then return (0, { f with it := none })
  else
    let item := (f.openEntry line).retryItem
    let interested := item.holder ||| item.requested
    if !allocate then return (interested &&& ~~~reqPort, f.openEntry line)
    else do
      let item ← trackRequest pkt reqPort item
      return (interested &&& ~~~reqPort, (f.openEntry line).setItem line item)

def finishRequest (willRetry : Bool) (addr : Addr) (isSecure : Bool) : Except Fault Filter :=
  match f.it with
  | none => return f
  | some line => do
    require (f.cachedLocations.lookup line).isSome .danglingIterator
    require (line = f.lineAddr addr isSecure) .otherLine
    eraseIfNullEntry (if willRetry then f.setItem line f.retryItem else f) line

def lookupSnoop : Except Fault (SnoopMask × Filter) := do
  require pkt.isRequest .notRequest
  let line := f.lineAddr pkt.addr pkt.isSecure
  match f.cachedLocations.lookup line with
  | none =>
    require (f.cachedLocations.keys.card < f.maxEntryCount) .capacityExceeded
    return (0, f)
  | some item =>
    require (pkt.isWriteback || pkt.req.uncacheable || pkt.isInvalidate = pkt.needsWritable ||
      pkt.req.isCacheMaintenance) .invalidateMismatch
    if pkt.isInvalidate && item.requested = 0 then
      return (item.holder ||| item.requested,
        ← (f.setItem line { item with holder := 0 }).eraseIfNullEntry line)
    else return (item.holder ||| item.requested, f)

def updateSnoopResponse (rspPort reqPort : Port) : Except Fault Filter := do
  require pkt.isResponse .notResponse
  require pkt.cacheResponding .notCacheResponding
  if pkt.req.uncacheable || !reqPort.isSnooping then return f
  else
    let line := f.lineAddr pkt.addr pkt.isSecure
    -- the entry is made if there is none
    let item := (f.cachedLocations.lookup line).getD {}
    require (item.holder &&& portToMask rspPort ≠ 0) .responderWithoutLine
    require (item.requested &&& portToMask reqPort ≠ 0) .missingRequest
    require (!pkt.isWriteback) .unexpectedWriteback
    let holder := if !pkt.hasSharers then 0 else item.holder
    let item : SnoopItem :=
      ⟨item.requested &&& ~~~portToMask reqPort, holder ||| portToMask reqPort⟩
    require (!item.isNull) .nullEntry
    return f.setItem line item

def updateSnoopForward : Except Fault Filter := do
  require pkt.isResponse .notResponse
  require pkt.cacheResponding .notCacheResponding
  let line := f.lineAddr pkt.addr pkt.isSecure
  match f.cachedLocations.lookup line with
  | none => return f
  | some item =>
    if !pkt.hasSharers then (f.setItem line { item with holder := 0 }).eraseIfNullEntry line
    else return f

def updateResponse (port : Port) : Except Fault Filter := do
  require pkt.isResponse .notResponse
  if pkt.req.uncacheable || !port.isSnooping then return f
  else
    let line := f.lineAddr pkt.addr pkt.isSecure
    match f.cachedLocations.lookup line with
    | none => return f
    | some item =>
      let mask := portToMask port
      require (item.requested &&& mask ≠ 0) .missingRequest
      let requested := item.requested &&& ~~~mask
      if pkt.req.isCacheMaintenance then
        let holder := if pkt.isInvalidate then item.holder &&& ~~~mask else item.holder
        (f.setItem line ⟨requested, holder⟩).eraseIfNullEntry line
      else
        let item : SnoopItem := ⟨requested, item.holder ||| mask⟩
        require (!item.isNull) .nullEntry
        return f.setItem line item

end Filter

inductive Event
  | request (pkt : FilterPacket) (port : Port) (willRetry : Bool)
  | lookupSnoop (pkt : FilterPacket)
  | updateSnoopResponse (pkt : FilterPacket) (rspPort reqPort : Port)
  | updateSnoopForward (pkt : FilterPacket)
  | updateResponse (pkt : FilterPacket) (port : Port)
  deriving DecidableEq

def Filter.step (f : Filter) : Event → Except Fault Filter
  | .request pkt port willRetry => do
    let (_, f) ← f.lookupRequest pkt port
    f.finishRequest willRetry pkt.addr pkt.isSecure
  | .lookupSnoop pkt => do return (← f.lookupSnoop pkt).2
  | .updateSnoopResponse pkt rspPort reqPort => f.updateSnoopResponse pkt rspPort reqPort
  | .updateSnoopForward pkt => f.updateSnoopForward pkt
  | .updateResponse pkt port => f.updateResponse pkt port

/-! ## No entry is null -/

section Null
variable {f f' : Filter} {pkt : FilterPacket} {port : Port} {line : Addr} {item : SnoopItem}
  {mask : SnoopMask}

def NoNull (f : Filter) : Prop :=
  ∀ line item, f.cachedLocations.lookup line = some item → item.isNull = false

def NoNullBut (line : Addr) (f : Filter) : Prop :=
  ∀ line' item, line' ≠ line → f.cachedLocations.lookup line' = some item → item.isNull = false

theorem NoNull.but (h : NoNull f) : NoNullBut line f := fun line' item _ => h line' item

theorem NoNullBut.setItem (h : NoNullBut line f) : NoNullBut line (f.setItem line item) := by
  intro line' item' hne hitem
  rw [Filter.setItem, Finmap.lookup_insert_of_ne _ hne] at hitem
  exact h line' item' hne hitem

theorem NoNullBut.of_item (h : NoNullBut line f) (hitem : item.isNull = false) :
    NoNull (f.setItem line item) := by
  intro line' item' hlookup
  by_cases hline : line' = line
  · rw [hline, Filter.setItem, Finmap.lookup_insert] at hlookup
    cases hlookup
    exact hitem
  · exact h.setItem line' item' hline hlookup

theorem NoNullBut.erase (h : NoNullBut line f) (hf : f.eraseIfNullEntry line = .ok f') :
    NoNull f' := by
  simp only [Filter.eraseIfNullEntry, bind_eq_ok, demand_eq_ok] at hf
  obtain ⟨item, hitem, hf⟩ := hf
  intro line' item' hlookup
  split_ifs at hf with hnull
  · cases hf
    by_cases hline : line' = line
    · rw [hline, Finmap.lookup_erase] at hlookup
      cases hlookup
    · rw [Finmap.lookup_erase_ne hline] at hlookup
      exact h line' item' hline hlookup
  · cases hf
    by_cases hline : line' = line
    · rw [hline, hitem] at hlookup
      cases hlookup
      exact Bool.eq_false_iff.mpr hnull
    · exact h line' item' hline hlookup

/-- What a lookup leaves that has an entry: only that of its line may be new or changed,
and the filter knows how it was. -/
structure LookedUp (f : Filter) (line : Addr) (f' : Filter) : Prop where
  it : f'.it = some line
  retryItem : f'.retryItem = (f.cachedLocations.lookup line).getD {}
  linesize : f'.linesize = f.linesize
  entry : (f'.cachedLocations.lookup line).isSome
  frame : ∀ line', line' ≠ line → f'.cachedLocations.lookup line' = f.cachedLocations.lookup line'

theorem LookedUp.setItem (h : LookedUp f line f') : LookedUp f line (f'.setItem line item) := by
  refine ⟨h.it, h.retryItem, h.linesize, ?_, fun line' hne => ?_⟩
  · rw [Filter.setItem, Finmap.lookup_insert]
    rfl
  · rw [Filter.setItem, Finmap.lookup_insert_of_ne _ hne]
    exact h.frame line' hne

theorem lookedUp_openEntry : LookedUp f line (f.openEntry line) := by
  rw [Filter.openEntry]
  cases hitem : f.cachedLocations.lookup line with
  | none =>
    refine ⟨rfl, by rw [hitem]; rfl, rfl, ?_, fun line' hne => Finmap.lookup_insert_of_ne _ hne⟩
    simp [Filter.setItem]
  | some item => exact ⟨rfl, by rw [hitem]; rfl, rfl, by simp [hitem], fun line' _ => rfl⟩

theorem lookupRequest_spec (h : f.lookupRequest pkt port = .ok (mask, f')) :
    f' = { f with it := none } ∨ LookedUp f (f.lineAddr pkt.addr pkt.isSecure) f' := by
  rw [Filter.lookupRequest] at h
  split_ifs at h
  · cases h
    exact .inl rfl
  · cases h
    exact .inr lookedUp_openEntry
  · simp only [bind_eq_ok] at h
    obtain ⟨item, -, h⟩ := h
    cases h
    exact .inr lookedUp_openEntry.setItem

theorem LookedUp.noNullBut (h : LookedUp f line f') (hf : NoNull f) : NoNullBut line f' := by
  intro line' item hne hitem
  rw [h.frame line' hne] at hitem
  exact hf line' item hitem

theorem finishRequest_noNull {willRetry : Bool} {f'' : Filter} (hf : NoNull f)
    (h : f.lookupRequest pkt port = .ok (mask, f'))
    (hfinish : f'.finishRequest willRetry pkt.addr pkt.isSecure = .ok f'') : NoNull f'' := by
  rcases lookupRequest_spec h with rfl | hlooked
  · cases hfinish
    exact hf
  · simp only [Filter.finishRequest, hlooked.it, bind_eq_ok] at hfinish
    obtain ⟨⟨⟩, -, ⟨⟩, -, hfinish⟩ := hfinish
    cases willRetry with
    | true => exact (hlooked.noNullBut hf).setItem.erase hfinish
    | false => exact (hlooked.noNullBut hf).erase hfinish

theorem finishRequest_retry (hf : NoNull f) (h : f.lookupRequest pkt port = .ok (mask, f')) :
    ∃ f'', f'.finishRequest true pkt.addr pkt.isSecure = .ok f'' ∧
      f''.cachedLocations = f.cachedLocations := by
  rcases lookupRequest_spec h with rfl | hlooked
  · exact ⟨_, rfl, rfl⟩
  have hline : f'.lineAddr pkt.addr pkt.isSecure = f.lineAddr pkt.addr pkt.isSecure := by
    rw [Filter.lineAddr, Filter.lineAddr, hlooked.linesize]
  obtain ⟨line, hlineEq⟩ : ∃ line, f.lineAddr pkt.addr pkt.isSecure = line := ⟨_, rfl⟩
  rw [hlineEq] at hlooked hline
  have hlookup : (f'.setItem line f'.retryItem).cachedLocations.lookup line = some f'.retryItem :=
    Finmap.lookup_insert _
  have hframe (line' : Addr) (hne : line' ≠ line) :
      (f'.setItem line f'.retryItem).cachedLocations.lookup line' =
        f.cachedLocations.lookup line' :=
    (Finmap.lookup_insert_of_ne _ hne).trans (hlooked.frame line' hne)
  have hrun : f'.finishRequest true pkt.addr pkt.isSecure =
      if f'.retryItem.isNull then
        .ok { f'.setItem line f'.retryItem with
          cachedLocations := (f'.setItem line f'.retryItem).cachedLocations.erase line }
      else .ok (f'.setItem line f'.retryItem) := by
    have hentry : (require (f'.cachedLocations.lookup line).isSome .danglingIterator :
        Except Fault Unit) = .ok ⟨⟩ := require_eq_ok.mpr hlooked.entry
    have hsame : (require (line = f'.lineAddr pkt.addr pkt.isSecure) .otherLine :
        Except Fault Unit) = .ok ⟨⟩ := require_eq_ok.mpr hline.symm
    have hdemand := demand_eq_ok (f := Fault.danglingIterator).mpr hlookup
    simp only [Filter.finishRequest, hlooked.it, hentry, hsame, ok_bind, if_true,
      Filter.eraseIfNullEntry, hdemand]
    rfl
  rw [hrun]
  cases hitem : f.cachedLocations.lookup line with
  | none =>
    -- the entry was made by the lookup
    have hnull : f'.retryItem.isNull = true := by
      rw [hlooked.retryItem, hitem]
      rfl
    rw [if_pos hnull]
    refine ⟨_, rfl, Finmap.ext_lookup fun line' => ?_⟩
    by_cases hne : line' = line
    · rw [hne, Finmap.lookup_erase, hitem]
    · exact (Finmap.lookup_erase_ne hne).trans (hframe line' hne)
  | some item =>
    have hretry : f'.retryItem = item := by
      rw [hlooked.retryItem, hitem]
      rfl
    rw [if_neg (by rw [hretry, hf line item hitem]; exact Bool.false_ne_true)]
    refine ⟨_, rfl, Finmap.ext_lookup fun line' => ?_⟩
    by_cases hne : line' = line
    · rw [hne, hlookup, hretry, hitem]
    · exact hframe line' hne

theorem lookupSnoop_noNull (hf : NoNull f) (h : f.lookupSnoop pkt = .ok (mask, f')) :
    NoNull f' := by
  simp only [Filter.lookupSnoop, bind_eq_ok] at h
  obtain ⟨⟨⟩, -, h⟩ := h
  split at h
  · simp only [bind_eq_ok] at h
    obtain ⟨⟨⟩, -, h⟩ := h
    cases h
    exact hf
  · simp only [bind_eq_ok] at h
    obtain ⟨⟨⟩, -, h⟩ := h
    split_ifs at h
    · simp only [bind_eq_ok] at h
      obtain ⟨g, herase, h⟩ := h
      cases h
      exact hf.but.setItem.erase herase
    · cases h
      exact hf

theorem updateSnoopResponse_noNull {rspPort reqPort : Port} (hf : NoNull f)
    (h : f.updateSnoopResponse pkt rspPort reqPort = .ok f') : NoNull f' := by
  simp only [Filter.updateSnoopResponse, bind_eq_ok] at h
  obtain ⟨⟨⟩, -, ⟨⟩, -, h⟩ := h
  split_ifs at h
  · cases h
    exact hf
  · simp only [bind_eq_ok, require_eq_ok] at h
    obtain ⟨⟨⟩, -, ⟨⟩, -, ⟨⟩, -, ⟨⟩, hitem, h⟩ := h
    cases h
    exact hf.but.of_item (by simpa using hitem)
  · simp only [bind_eq_ok, require_eq_ok] at h
    obtain ⟨⟨⟩, -, ⟨⟩, -, ⟨⟩, -, ⟨⟩, hitem, h⟩ := h
    cases h
    exact hf.but.of_item (by simpa using hitem)

theorem updateSnoopForward_noNull (hf : NoNull f) (h : f.updateSnoopForward pkt = .ok f') :
    NoNull f' := by
  simp only [Filter.updateSnoopForward, bind_eq_ok] at h
  obtain ⟨⟨⟩, -, ⟨⟩, -, h⟩ := h
  split at h
  · cases h
    exact hf
  · split_ifs at h
    · exact hf.but.setItem.erase h
    · cases h
      exact hf

theorem updateResponse_noNull (hf : NoNull f) (h : f.updateResponse pkt port = .ok f') :
    NoNull f' := by
  simp only [Filter.updateResponse, bind_eq_ok] at h
  obtain ⟨⟨⟩, -, h⟩ := h
  by_cases hskip : (pkt.req.uncacheable || !port.isSnooping) = true
  · rw [if_pos hskip] at h
    cases h
    exact hf
  rw [if_neg hskip] at h
  split at h
  · cases h
    exact hf
  simp only [bind_eq_ok] at h
  obtain ⟨⟨⟩, -, h⟩ := h
  by_cases hclean : pkt.req.isCacheMaintenance = true
  · rw [if_pos hclean] at h
    exact hf.but.setItem.erase h
  · rw [if_neg hclean] at h
    simp only [bind_eq_ok, require_eq_ok] at h
    obtain ⟨⟨⟩, hitem, h⟩ := h
    cases h
    exact hf.but.of_item (by simpa using hitem)

theorem step_noNull {e : Event} (hf : NoNull f) (h : f.step e = .ok f') : NoNull f' := by
  cases e with
  | request pkt port willRetry =>
    simp only [Filter.step, bind_eq_ok] at h
    obtain ⟨⟨mask, g⟩, hlookup, hfinish⟩ := h
    exact finishRequest_noNull hf hlookup hfinish
  | lookupSnoop pkt =>
    simp only [Filter.step, bind_eq_ok] at h
    obtain ⟨⟨mask, g⟩, hlookup, h⟩ := h
    cases h
    exact lookupSnoop_noNull hf hlookup
  | updateSnoopResponse pkt rspPort reqPort => exact updateSnoopResponse_noNull hf h
  | updateSnoopForward pkt => exact updateSnoopForward_noNull hf h
  | updateResponse pkt port => exact updateResponse_noNull hf h

end Null

theorem retry_leaves_no_trace {linesize maxEntryCount : ℕ} {f : Filter}
    (h : Reachable Filter.step ⟨linesize, maxEntryCount, ∅, none, {}⟩ f) :
    (∀ pkt port mask f', f.lookupRequest pkt port = .ok (mask, f') →
      ∃ f'', f'.finishRequest true pkt.addr pkt.isSecure = .ok f'' ∧
        f''.cachedLocations = f.cachedLocations) ∧
    ∀ line item, f.cachedLocations.lookup line = some item →
      ¬ (item.requested = 0 ∧ item.holder = 0) := by
  have hf : NoNull f := by
    refine Reachable.invariant (P := NoNull) ?_ (fun g e g' _ hg hstep => step_noNull hg hstep) f h
    intro line item hitem
    rw [Finmap.lookup_empty] at hitem
    exact nomatch hitem
  refine ⟨fun pkt port mask f' hlookup => finishRequest_retry hf hlookup, ?_⟩
  rintro line item hitem ⟨hrequested, hholder⟩
  have hnull := hf line item hitem
  rw [SnoopItem.isNull, hrequested, hholder] at hnull
  exact nomatch hnull

def fetched : List Event :=
  [.request { cmd := .readSharedReq, req := { paddr := 64 }, addr := 64 } ⟨true, 0⟩ false,
    .updateResponse { cmd := .readResp, req := { paddr := 64 }, addr := 64 } ⟨true, 0⟩]

def secondRequest : FilterPacket := { cmd := .readSharedReq, req := { paddr := 64 }, addr := 68 }

/-- Another cache asks for the line, and has to retry. -/
theorem retry_leaves_no_trace_shared : ∃ f mask f' f'',
    run Filter.step ⟨64, 4, ∅, none, {}⟩ fetched = .ok f ∧
    f.lookupRequest secondRequest ⟨true, 1⟩ = .ok (mask, f') ∧ mask = 1 ∧
    f'.cachedLocations.lookup 64 = some ⟨2, 1⟩ ∧
    f'.finishRequest true secondRequest.addr false = .ok f'' ∧
    f''.cachedLocations = f.cachedLocations := by
  have hends : Ends Filter.step ⟨64, 4, ∅, none, {}⟩ fetched fun f =>
      (f.lookupRequest secondRequest ⟨true, 1⟩).toOption.any fun r =>
        r.1 = 1 ∧ r.2.cachedLocations.lookup 64 = some ⟨2, 1⟩ := by
    decide +kernel
  obtain ⟨f, hrun, hlookup⟩ := hends
  cases hresult : f.lookupRequest secondRequest ⟨true, 1⟩ with
  | error fault =>
    rw [hresult] at hlookup
    exact nomatch hlookup
  | ok r =>
    obtain ⟨mask, f'⟩ := r
    rw [hresult] at hlookup
    obtain ⟨hmask, hitem⟩ := of_decide_eq_true hlookup
    obtain ⟨f'', hfinish, hsame⟩ := (retry_leaves_no_trace ⟨fetched, hrun⟩).1 _ _ _ _ hresult
    exact ⟨f, mask, f', f'', hrun, hresult, hmask, hitem, hfinish, hsame⟩

end HetSim.Memory.SnoopFilter
