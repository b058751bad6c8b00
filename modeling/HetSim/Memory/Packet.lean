import HetSim.Address.Bitfield

/-!
# Packets

The commands of the memory system with their attributes, and the request packets that
caches queue. A response is known by its command.
-/

namespace HetSim.Memory
open Address

inductive MemCmd
  | invalidCmd
  | readReq
  | readResp
  | readRespWithInvalidate
  | writeReq
  | writeResp
  | writebackDirty
  | writebackClean
  | writeClean
  | cleanEvict
  | softPFReq
  | softPFExReq
  | hardPFReq
  | softPFResp
  | hardPFResp
  | writeLineReq
  | upgradeReq
  | scUpgradeReq
  | upgradeResp
  | scUpgradeFailReq
  | upgradeFailResp
  | readExReq
  | readExResp
  | readCleanReq
  | readSharedReq
  | loadLockedReq
  | storeCondReq
  | storeCondFailReq
  | storeCondResp
  | swapReq
  | swapResp
  | memFenceReq
  | memFenceResp
  | cleanSharedReq
  | cleanSharedResp
  | cleanInvalidReq
  | cleanInvalidResp
  | invalidDestError
  | badAddressError
  | functionalReadError
  | functionalWriteError
  | printReq
  | flushReq
  | invalidateReq
  | invalidateResp
  deriving DecidableEq

inductive Attribute
  | isRead
  | isWrite
  | isUpgrade
  | isInvalidate
  | isClean
  | needsWritable
  | isRequest
  | isResponse
  | needsResponse
  | isEviction
  | isSWPrefetch
  | isHWPrefetch
  | isLlsc
  | hasData
  | isError
  | isPrint
  | isFlush
  | fromCache
  deriving DecidableEq

namespace MemCmd

open Attribute in
/-- The attributes of a command and its response. -/
def commandInfo : MemCmd → List Attribute × MemCmd
  | invalidCmd => ([], invalidCmd)
  | readReq => ([isRead, isRequest, needsResponse], readResp)
  | readResp => ([isRead, isResponse, hasData], invalidCmd)
  | readRespWithInvalidate => ([isRead, isResponse, hasData, isInvalidate], invalidCmd)
  | writeReq => ([isWrite, needsWritable, isRequest, needsResponse, hasData], writeResp)
  | writeResp => ([isWrite, isResponse], invalidCmd)
  | writebackDirty => ([isWrite, isRequest, isEviction, hasData, fromCache], invalidCmd)
  | writebackClean => ([isWrite, isRequest, isEviction, hasData, fromCache], invalidCmd)
  | writeClean => ([isWrite, isRequest, hasData, fromCache], invalidCmd)
  | cleanEvict => ([isRequest, isEviction, fromCache], invalidCmd)
  | softPFReq => ([isRead, isRequest, isSWPrefetch, needsResponse], softPFResp)
  | softPFExReq =>
    ([isRead, needsWritable, isInvalidate, isRequest, isSWPrefetch, needsResponse], softPFResp)
  | hardPFReq => ([isRead, isRequest, isHWPrefetch, needsResponse, fromCache], hardPFResp)
  | softPFResp => ([isRead, isResponse, isSWPrefetch, hasData], invalidCmd)
  | hardPFResp => ([isRead, isResponse, isHWPrefetch, hasData], invalidCmd)
  | writeLineReq => ([isWrite, needsWritable, isRequest, needsResponse, hasData], writeResp)
  | upgradeReq =>
    ([isInvalidate, needsWritable, isUpgrade, isRequest, needsResponse, fromCache], upgradeResp)
  | scUpgradeReq =>
    ([isInvalidate, needsWritable, isUpgrade, isLlsc, isRequest, needsResponse, fromCache],
      upgradeResp)
  | upgradeResp => ([isUpgrade, isResponse], invalidCmd)
  | scUpgradeFailReq =>
    ([isRead, needsWritable, isInvalidate, isLlsc, isRequest, needsResponse, fromCache],
      upgradeFailResp)
  | upgradeFailResp => ([isRead, isResponse, hasData], invalidCmd)
  | readExReq =>
    ([isRead, needsWritable, isInvalidate, isRequest, needsResponse, fromCache], readExResp)
  | readExResp => ([isRead, isResponse, hasData], invalidCmd)
  | readCleanReq => ([isRead, isRequest, needsResponse, fromCache], readResp)
  | readSharedReq => ([isRead, isRequest, needsResponse, fromCache], readResp)
  | loadLockedReq => ([isRead, isLlsc, isRequest, needsResponse], readResp)
  | storeCondReq =>
    ([isWrite, needsWritable, isLlsc, isRequest, needsResponse, hasData], storeCondResp)
  | storeCondFailReq =>
    ([isWrite, needsWritable, isLlsc, isRequest, needsResponse, hasData], storeCondResp)
  | storeCondResp => ([isWrite, isLlsc, isResponse], invalidCmd)
  | swapReq => ([isRead, isWrite, needsWritable, isRequest, hasData, needsResponse], swapResp)
  | swapResp => ([isRead, isWrite, isResponse, hasData], invalidCmd)
  | memFenceReq => ([isRequest, needsResponse], memFenceResp)
  | memFenceResp => ([isResponse], invalidCmd)
  | cleanSharedReq => ([isRequest, isClean, needsResponse, fromCache], cleanSharedResp)
  | cleanSharedResp => ([isResponse, isClean], invalidCmd)
  | cleanInvalidReq =>
    ([isRequest, isInvalidate, isClean, needsResponse, fromCache], cleanInvalidResp)
  | cleanInvalidResp => ([isResponse, isInvalidate, isClean], invalidCmd)
  | invalidDestError => ([isResponse, isError], invalidCmd)
  | badAddressError => ([isResponse, isError], invalidCmd)
  | functionalReadError => ([isRead, isResponse, isError], invalidCmd)
  | functionalWriteError => ([isWrite, isResponse, isError], invalidCmd)
  | printReq => ([isRequest, isPrint], invalidCmd)
  | flushReq => ([isRequest, isFlush, needsWritable], invalidCmd)
  | invalidateReq =>
    ([isInvalidate, isRequest, needsWritable, needsResponse, fromCache], invalidateResp)
  | invalidateResp => ([isInvalidate, isResponse], invalidCmd)

def testCmdAttrib (cmd : MemCmd) (attrib : Attribute) : Bool := attrib ∈ cmd.commandInfo.1

def responseCommand (cmd : MemCmd) : MemCmd := cmd.commandInfo.2

end MemCmd

/-- The flags of a request that the caches test. -/
structure Request where
  paddr : Addr
  uncacheable : Bool := false
  strictOrder : Bool := false
  privileged : Bool := false
  llsc : Bool := false
  memSwap : Bool := false
  memSwapCond : Bool := false
  secure : Bool := false
  clean : Bool := false
  invalidate : Bool := false
  deriving DecidableEq

def Request.isCacheInvalidate (r : Request) : Bool := r.invalidate

def Request.isCacheMaintenance (r : Request) : Bool := r.clean || r.invalidate

structure Packet where
  id : ℕ
  cmd : MemCmd
  req : Request
  addr : Addr
  size : ℕ
  isSecure : Bool
  /-- An MSHR of the cache above is in the stack of sender states. -/
  sentByMshr : Bool := false
  expressSnoop : Bool := false
  cacheResponding : Bool := false
  responderHadWritable : Bool := false
  satisfied : Bool := false
  hasSharers : Bool := false
  isRequest : cmd.testCmdAttrib .isRequest = true
  deriving DecidableEq

namespace Packet

variable (pkt : Packet)

def isWrite : Bool := pkt.cmd.testCmdAttrib .isWrite
def isUpgrade : Bool := pkt.cmd.testCmdAttrib .isUpgrade
def needsWritable : Bool := pkt.cmd.testCmdAttrib .needsWritable
def needsResponse : Bool := pkt.cmd.testCmdAttrib .needsResponse
def isInvalidate : Bool := pkt.cmd.testCmdAttrib .isInvalidate
def isClean : Bool := pkt.cmd.testCmdAttrib .isClean
def fromCache : Bool := pkt.cmd.testCmdAttrib .fromCache

def getOffset (blkSize : ℕ) : Addr := pkt.addr &&& (BitVec.ofNat 32 blkSize - 1).setWidth 64

def getBlockAddr (blkSize : ℕ) : Addr := pkt.addr &&& ~~~(BitVec.ofNat 32 blkSize - 1).setWidth 64

def matchBlockAddr (other : Packet) (blkSize : ℕ) : Bool :=
  pkt.getBlockAddr blkSize = other.getBlockAddr blkSize ∧ pkt.isSecure = other.isSecure

/-- `Packet(pkt, clear_flags, alloc_data)`. -/
def cleared : Packet :=
  { pkt with
    expressSnoop := false
    cacheResponding := false
    responderHadWritable := false
    satisfied := false
    hasSharers := false }

/-- `Packet(req, cmd, blkSize, id)`. -/
def ofRequest (blkSize : ℕ) : Packet :=
  { id := pkt.id
    cmd := pkt.cmd
    req := pkt.req
    addr := pkt.req.paddr &&& ~~~(BitVec.ofNat 32 blkSize - 1).setWidth 64
    size := blkSize
    isSecure := pkt.req.secure
    isRequest := pkt.isRequest }

end Packet

end HetSim.Memory
