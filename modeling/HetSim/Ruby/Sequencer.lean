import HetSim.Library.Runs

/-!
# The sequencer

The sequencer keeps the requests of a core in one list per line, and passes the first on to the
cache controller, whose callback completes the requests of the list one after the other; meanwhile
the core may make new requests. Latencies, the deadlock check, the tester, warm-up and cool-down
are left out.
-/

namespace HetSim.RubySequencer
open Checked Function

inductive RubyRequestType
  | LD
  | IFETCH
  | ST
  | Load_Linked
  | Store_Conditional
  | RMW_Read
  | Locked_RMW_Read
  | Locked_RMW_Write
  | FLUSH
  deriving DecidableEq

/-- What a packet asks for. `storeCheck` is the flag of the x86 request. -/
inductive Command
  | read (isInstFetch storeCheck : Bool)
  | write
  | swap
  | loadLocked
  | storeCond
  | lockedRead
  | lockedWrite
  | flush
  deriving DecidableEq

namespace Command

def isLLSC : Command → Bool
  | .loadLocked | .storeCond => true
  | _ => false

def isLockedRMW : Command → Bool
  | .lockedRead | .lockedWrite => true
  | _ => false

def isWrite : Command → Bool
  | .write | .swap | .storeCond | .lockedWrite => true
  | _ => false

def isRead : Command → Bool
  | .read _ _ | .swap | .loadLocked | .lockedRead => true
  | _ => false

def isFlush : Command → Bool
  | .flush => true
  | _ => false

def isSwap : Command → Bool
  | .swap => true
  | _ => false

def isInstFetch : Command → Bool
  | .read fetch _ => fetch
  | _ => false

def storeCheck : Command → Bool
  | .read _ check => check
  | _ => false

end Command

structure Packet where
  addr : ℕ
  cmd : Command
  data : List UInt8
  deriving DecidableEq

structure Params where
  blockSizeBytes : ℕ
  maxOutstandingRequests : ℕ
  isX86 : Bool
  /-- `PROTOCOL_MESI_Three_Level`. -/
  threeLevel : Bool

def Params.makeLineAddress (c : Params) (a : ℕ) : ℕ := a / c.blockSizeBytes * c.blockSizeBytes

def Params.getOffset (c : Params) (a : ℕ) : ℕ := a % c.blockSizeBytes

structure SequencerRequest where
  pkt : Packet
  type : RubyRequestType
  secondType : RubyRequestType
  deriving DecidableEq

/-- A completed request: the bytes of its packet then, and the extra data of a store
conditional. -/
structure Reply where
  req : SequencerRequest
  data : List UInt8
  extraData : Option Bool
  deriving DecidableEq

abbrev DataBlock := ℕ → UInt8

def DataBlock.bytes (b : DataBlock) (offset len : ℕ) : List UInt8 :=
  (List.range len).map fun i => b (offset + i)

def DataBlock.write (b : DataBlock) (data : List UInt8) (offset : ℕ) : DataBlock := fun i =>
  if offset ≤ i ∧ i < offset + data.length then data.getD (i - offset) 0 else b i

/-- A callback of the controller, with the block before it and after it. -/
structure Answer where
  address : ℕ
  before : DataBlock
  replies : List Reply
  after : DataBlock

inductive Fault
  | notLineAddress
  | notInTable
  /-- A write callback whose first request is a read, or the other way round. -/
  | firstIsRead
  | firstIsWrite
  /-- `assert(offset + len <= RubySystem::getBlockSizeBytes())`. -/
  | outsideBlock
  | notRead
  | unsupported
  | endless
  deriving DecidableEq

/-- `issued` holds what the controller has not answered, `accepted` and `answers` the past.
`monitor` is the entry of the data cache for a line, and whether it is locked for this core. -/
structure Sequencer where
  requestTable : ℕ → Option (List SequencerRequest)
  outstandingCount : ℤ
  blocked : ℕ → Bool
  monitor : ℕ → Option Bool
  issued : ℕ → List RubyRequestType
  accepted : List SequencerRequest
  answers : List Answer

def isReadType (t : RubyRequestType) : Bool := t = .LD ∨ t = .Load_Linked ∨ t = .IFETCH

variable (c : Params)

def DataBlock.getData (b : DataBlock) (offset len : ℕ) : Except Fault (List UInt8) := do
  require (offset + len ≤ c.blockSizeBytes) .outsideBlock
  return b.bytes offset len

def DataBlock.setData (b : DataBlock) (data : List UInt8) (offset : ℕ) :
    Except Fault DataBlock := do
  require (offset + data.length ≤ c.blockSizeBytes) .outsideBlock
  return b.write data offset

section Requests

inductive RequestStatus
  | Ready
  | Aliased
  | Issued
  | BufferFull
  deriving DecidableEq

/-- The primary and the secondary type of a packet. -/
def requestTypes (cmd : Command) : Except Fault (RubyRequestType × RubyRequestType) :=
  if cmd.isLLSC then
    if cmd.isWrite then
      pure (.Store_Conditional, if c.threeLevel then .Store_Conditional else .ST)
    else do
      require (cmd.isRead = true) .notRead
      pure (.Load_Linked, .LD)
  else if cmd.isLockedRMW then
    if cmd.isWrite then pure (.Locked_RMW_Write, .ST)
    else do
      require (cmd.isRead = true) .notRead
      pure (.Locked_RMW_Read, .ST)
  else if cmd.isWrite then pure (.ST, .ST)
  else if cmd.isRead then
    if cmd.isInstFetch then pure (.IFETCH, .IFETCH)
    else if c.isX86 && cmd.storeCheck then pure (.RMW_Read, .ST)
    else pure (.LD, .LD)
  else if cmd.isFlush then pure (.FLUSH, .FLUSH)
  else .error .unsupported

def insertRequest (s : Sequencer) (req : SequencerRequest) : RequestStatus × Sequencer :=
  let line := c.makeLineAddress req.pkt.addr
  let seqReqList := (s.requestTable line).getD [] ++ [req]
  (if 1 < seqReqList.length then .Aliased else .Ready,
    { s with
      requestTable := update s.requestTable line (some seqReqList)
      outstandingCount := s.outstandingCount + 1
      accepted := s.accepted ++ [req] })

def issueRequest (s : Sequencer) (pkt : Packet) (secondType : RubyRequestType) : Sequencer :=
  let line := c.makeLineAddress pkt.addr
  { s with issued := update s.issued line (s.issued line ++ [secondType]) }

def makeRequest (s : Sequencer) (pkt : Packet) : Except Fault (RequestStatus × Sequencer) :=
  if c.maxOutstandingRequests ≤ s.outstandingCount then pure (.BufferFull, s)
  else do
    let types ← requestTypes c pkt.cmd
    if s.blocked (c.makeLineAddress pkt.addr) && types.1 ≠ .Locked_RMW_Write then
      pure (.Aliased, s)
    else
      let r := insertRequest c s ⟨pkt, types.1, types.2⟩
      if r.1 ≠ .Aliased then pure (.Issued, issueRequest c r.2 pkt types.2)
      else pure (.Issued, r.2)

def makeRequests (s : Sequencer) (pkts : List Packet) : Except Fault Sequencer :=
  Runs.run (fun s pkt => Prod.snd <$> makeRequest c s pkt) s pkts

end Requests

section Monitor

def llscLoadLinked (s : Sequencer) (line : ℕ) : Sequencer :=
  { s with monitor := update s.monitor line ((s.monitor line).map fun _ => true) }

def llscClearMonitor (s : Sequencer) (line : ℕ) : Sequencer :=
  { s with monitor := update s.monitor line ((s.monitor line).map fun _ => false) }

def llscStoreConditional (s : Sequencer) (line : ℕ) : Bool × Sequencer :=
  ((s.monitor line).getD false, llscClearMonitor s line)

end Monitor

/-- What `hitCallback` does with the bytes of the packet and of the block. -/
def hitData (req : SequencerRequest) (b : DataBlock) (llscSuccess : Bool) :
    Except Fault (List UInt8 × DataBlock) :=
  let offset := c.getOffset req.pkt.addr
  if req.pkt.cmd.isFlush then return (req.pkt.data, b)
  else if req.type = .LD ∨ req.type = .IFETCH ∨ req.type = .RMW_Read ∨
      req.type = .Locked_RMW_Read ∨ req.type = .Load_Linked then
    return (← b.getData c offset req.pkt.data.length, b)
  else if req.pkt.cmd.isSwap then
    return (← b.getData c offset req.pkt.data.length, ← b.setData c req.pkt.data offset)
  else if req.type ≠ .Store_Conditional ∨ llscSuccess = true then
    return (req.pkt.data, ← b.setData c req.pkt.data offset)
  else return (req.pkt.data, b)

/-- The state of a callback between two rounds of its loop. `nested` has the requests that the
core makes in the hit callbacks still to come. -/
structure Round where
  seq : Sequencer
  block : DataBlock
  replies : List Reply
  nested : List (List Packet)

def hitCallback (k : Round) (req : SequencerRequest) (llscSuccess : Bool)
    (extraData : Option Bool) : Except Fault Round := do
  let s := if req.type = .Load_Linked then
      llscLoadLinked k.seq (c.makeLineAddress req.pkt.addr) else k.seq
  let hit ← hitData c req k.block llscSuccess
  let s ← makeRequests c s (k.nested.headD [])
  pure ⟨s, hit.2, k.replies ++ [⟨req, hit.1, extraData⟩], k.nested.tail⟩

def markRemoved (s : Sequencer) : Sequencer :=
  { s with outstandingCount := s.outstandingCount - 1 }

def popFront (s : Sequencer) (address : ℕ) : Sequencer :=
  { s with requestTable :=
      update s.requestTable address ((s.requestTable address).map List.tail) }

/-- The monitor and the blocked line at a write; the result of a store conditional. -/
def prepareWrite (s : Sequencer) (address : ℕ) (type : RubyRequestType) : Bool × Sequencer :=
  let r := if type ≠ .Store_Conditional then (false, llscClearMonitor s address)
    else llscStoreConditional s address
  (r.1, if type = .Locked_RMW_Read then
      { r.2 with blocked := update r.2.blocked address true }
    else if type = .Locked_RMW_Write then
      { r.2 with blocked := update r.2.blocked address false }
    else r.2)

/-- One round of the loop of `writeCallback`. -/
def writeRound (address : ℕ) (rubyRequest : Bool) (k : Round) (req : SequencerRequest) :
    Except Fault Round := do
  require (rubyRequest = true → isReadType req.type = false) .firstIsRead
  if isReadType req.type then do
    let k ← hitCallback c { k with seq := markRemoved k.seq } req true none
    pure { k with seq := popFront k.seq address }
  else do
    let w := prepareWrite k.seq address req.type
    let k ← hitCallback c { k with seq := markRemoved w.2 } req w.1
      (if req.type = .Store_Conditional then some w.1 else none)
    pure { k with seq := popFront k.seq address }

def writeLoop (address : ℕ) : ℕ → Bool → Round → Except Fault Round
  | 0, _, _ => .error .endless
  | n + 1, rubyRequest, k =>
    match (k.seq.requestTable address).getD [] with
    | [] => pure k
    | req :: _ => do
      let k ← writeRound c address rubyRequest k req
      writeLoop address n false k

def readLoop (address : ℕ) : ℕ → Bool → Round → Except Fault Round
  | 0, _, _ => .error .endless
  | n + 1, rubyRequest, k =>
    match (k.seq.requestTable address).getD [] with
    | [] => pure k
    | req :: _ =>
      if isReadType req.type then do
        let k ← hitCallback c { k with seq := markRemoved k.seq } req true none
        readLoop address n false { k with seq := popFront k.seq address }
      else do
        require (rubyRequest = false) .firstIsWrite
        -- a write request is passed on again
        pure { k with seq := issueRequest c k.seq req.pkt req.secondType }

/-- The rounds that a loop can take: the requests of the list, and those that are made. -/
def maxRounds (s : Sequencer) (address : ℕ) (nested : List (List Packet)) : ℕ :=
  ((s.requestTable address).getD []).length + nested.flatten.length + 1

/-- The frame of both callbacks: the request of the controller is answered, and an empty list
leaves the table. -/
def callback (loop : ℕ → ℕ → Bool → Round → Except Fault Round) (s : Sequencer) (address : ℕ)
    (b : DataBlock) (nested : List (List Packet)) : Except Fault Sequencer := do
  require (address = c.makeLineAddress address) .notLineAddress
  require ((s.requestTable address).isSome = true) .notInTable
  let s := { s with issued := update s.issued address (s.issued address).tail }
  let k ← loop address (maxRounds s address nested) true ⟨s, b, [], nested⟩
  pure { k.seq with
    requestTable := if (k.seq.requestTable address).getD [] = [] then
        update k.seq.requestTable address none
      else k.seq.requestTable
    answers := k.seq.answers ++ [⟨address, b, k.replies, k.block⟩] }

def writeCallback (s : Sequencer) (address : ℕ) (b : DataBlock) (nested : List (List Packet)) :
    Except Fault Sequencer := callback c (writeLoop c) s address b nested

def readCallback (s : Sequencer) (address : ℕ) (b : DataBlock) (nested : List (List Packet)) :
    Except Fault Sequencer := callback c (readLoop c) s address b nested

/-- What happens to the sequencer. The last event is a change of the data cache. -/
inductive Event
  | makeRequest (pkt : Packet)
  | readCallback (address : ℕ) (data : DataBlock) (nested : List (List Packet))
  | writeCallback (address : ℕ) (data : DataBlock) (nested : List (List Packet))
  | cacheChange (line : ℕ) (entry : Option Bool)

def step (s : Sequencer) : Event → Except Fault Sequencer
  | .makeRequest pkt => Prod.snd <$> makeRequest c s pkt
  | .readCallback address data nested => readCallback c s address data nested
  | .writeCallback address data nested => writeCallback c s address data nested
  | .cacheChange line entry => .ok { s with monitor := update s.monitor line entry }

def boot (monitor : ℕ → Option Bool) : Sequencer where
  requestTable := fun _ => none
  outstandingCount := 0
  blocked := fun _ => false
  monitor := monitor
  issued := fun _ => []
  accepted := []
  answers := []

/-- The requests of a line. -/
def Sequencer.list (s : Sequencer) (line : ℕ) : List SequencerRequest :=
  (s.requestTable line).getD []

/-- The requests that were completed, in their order. -/
def Sequencer.completed (s : Sequencer) : List SequencerRequest :=
  s.answers.flatMap fun a => a.replies.map Reply.req

end HetSim.RubySequencer
