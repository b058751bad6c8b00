import HetSim.Library.Spans
import HetSim.Memory.AbstractMemory

/-!
# Functional accesses

A functional access asks one buffer after the other for the bytes it wants to read, or changes
them. A read keeps a map of the bytes it has found. A copy outside of its arrays stops with a
fault, as does a command that is neither a read nor a write.
-/

namespace HetSim.Memory.Functional
open Address (Addr)
open Checked Spans Option List

inductive Fault
  | printWithData
  | unknownCommand
  | outOfBounds
  deriving DecidableEq

structure FuncPacket where
  cmd : MemCmd
  addr : Addr
  isSecure : Bool
  data : List Byte
  bytesValid : List Bool := []
  deriving DecidableEq

structure Buffer where
  addr : Addr
  isSecure : Bool
  size : ℕ
  data : Option (List Byte)
  deriving DecidableEq

def memcpy (dst : List Byte) (i : ℕ) (src : List Byte) (j n : ℕ) : Except Fault (List Byte) := do
  require (i + n ≤ dst.length ∧ j + n ≤ src.length) .outOfBounds
  return copy dst i src j n

namespace FuncPacket

variable (pkt : FuncPacket) (buf : Buffer)

def getSize : ℕ := pkt.data.length

def isPrint : Bool := pkt.cmd.testCmdAttrib .isPrint

def isRead : Bool := pkt.cmd.testCmdAttrib .isRead

def isWrite : Bool := pkt.cmd.testCmdAttrib .isWrite

def funcEnd : Addr := last pkt.addr pkt.getSize

def valEnd : Addr := last buf.addr buf.size

def apart : Bool :=
  buf.isSecure != pkt.isSecure || valEnd buf < pkt.addr || pkt.funcEnd < buf.addr

def valOffset : Addr := if buf.addr < pkt.addr then pkt.addr - buf.addr else 0

def funcOffset : Addr := if pkt.addr < buf.addr then buf.addr - pkt.addr else 0

def overlapSize : Addr :=
  (if valEnd buf < pkt.funcEnd then valEnd buf else pkt.funcEnd) + 1 -
    if buf.addr < pkt.addr then pkt.addr else buf.addr

def validBytes : List Bool :=
  if pkt.bytesValid.isEmpty then List.replicate pkt.getSize false else pkt.bytesValid

/-- The bytes are copied to the packet, and marked as valid. Only the marks before and
behind them are looked at. -/
def fill (data : List Byte) : Except Fault (Bool × FuncPacket) := do
  let offset := (pkt.funcOffset buf).toNat
  let size := (pkt.overlapSize buf).toNat
  let filled ← memcpy pkt.data offset data (pkt.valOffset buf).toNat size
  let allBytesValid := (pkt.validBytes.take offset).all id
  let bytesValid := mark pkt.validBytes offset size
  return (allBytesValid && (bytesValid.drop (offset + size)).all id,
    { pkt with data := filled, bytesValid })

/-- If the access is done, with the packet and the buffer afterwards. -/
def trySatisfyFunctional : Except Fault (Bool × FuncPacket × Buffer) :=
  if pkt.apart buf then return (false, pkt, buf)
  else if pkt.isPrint then do
    require buf.data.isNone .printWithData
    return (false, pkt, buf)
  else match buf.data with
    | none => return (false, pkt, buf)
    | some data =>
      if pkt.isRead then do
        let (allBytesValid, pkt) ← pkt.fill buf data
        return (allBytesValid, pkt, buf)
      else if pkt.isWrite then do
        let data ← memcpy data (pkt.valOffset buf).toNat pkt.data (pkt.funcOffset buf).toNat
          (pkt.overlapSize buf).toNat
        return (false, pkt, { buf with data := some data })
      else throw .unknownCommand

end FuncPacket

/-- A packet on its way, with a payload if its command has one. -/
structure Queued extends Access where
  isSecure : Bool := false

def Queued.buffer (other : Queued) : Buffer :=
  ⟨other.addr, other.isSecure, other.size,
    if other.cmd.testCmdAttrib .hasData then some other.data else none⟩

/-- `trySatisfyFunctional(PacketPtr other)`. A masked write is skipped, with a warning. -/
def FuncPacket.trySatisfyPacket (pkt : FuncPacket) (other : Queued) :
    Except Fault (Bool × FuncPacket × Queued) :=
  if other.isMaskedWrite then return (false, pkt, other)
  else do
    let (found, pkt, buf) ← pkt.trySatisfyFunctional other.buffer
    return (found, pkt, { other with data := buf.data.getD other.data })

/-- The loop over the packets of a queue or over the targets of a register. -/
def trySatisfyAll (pkt : FuncPacket) : List Queued → Except Fault (Bool × FuncPacket × List Queued)
  | [] => return (false, pkt, [])
  | other :: queue => do
    let (found, pkt, other) ← pkt.trySatisfyPacket other
    if found then return (true, pkt, other :: queue)
    else
      let (found, pkt, queue) ← trySatisfyAll pkt queue
      return (found, pkt, other :: queue)

/-- What each of the calls returns when all buffers are offered, and the packet at the end. -/
def offer (pkt : FuncPacket) : List Buffer → Except Fault (List Bool × FuncPacket)
  | [] => return ([], pkt)
  | buf :: bufs => do
    let (found, pkt, _) ← pkt.trySatisfyFunctional buf
    let (founds, pkt) ← offer pkt bufs
    return (found :: founds, pkt)

/-! ## The bytes of the access -/

namespace Buffer

def byteFor (buf : Buffer) (pkt : FuncPacket) (k : ℕ) : Option Byte :=
  if buf.isSecure = pkt.isSecure ∧ buf.addr.toNat ≤ pkt.addr.toNat + k then
    buf.data.bind fun data => data[pkt.addr.toNat + k - buf.addr.toNat]?
  else none

/-- The data has the size that is passed with it, and the last address does not wrap. -/
@[mk_iff] structure Valid (buf : Buffer) : Prop where
  sized : ∀ data ∈ buf.data, data.length = buf.size
  pos : 0 < buf.addr.toNat + buf.size
  noWrap : buf.addr.toNat + buf.size ≤ 2 ^ 64

instance (buf : Buffer) : Decidable buf.Valid := decidable_of_iff _ (valid_iff buf).symm

end Buffer

structure FuncPacket.Valid (pkt : FuncPacket) : Prop where
  pos : 0 < pkt.getSize
  small : pkt.getSize < 2 ^ 32
  noWrap : pkt.addr.toNat + pkt.getSize ≤ 2 ^ 64

variable {pkt pkt' : FuncPacket} {buf buf' : Buffer} {k : ℕ}

section Overlap

open FuncPacket

theorem funcEnd_toNat (h : pkt.Valid) : pkt.funcEnd.toNat = pkt.addr.toNat + pkt.getSize - 1 :=
  toNat_last (Nat.add_pos_right _ h.pos) h.noWrap

theorem valEnd_toNat (h : buf.Valid) : (valEnd buf).toNat = buf.addr.toNat + buf.size - 1 :=
  toNat_last h.pos h.noWrap

theorem apart_eq_false (h : pkt.Valid) (hb : buf.Valid) : pkt.apart buf = false ↔
    buf.isSecure = pkt.isSecure ∧ pkt.addr.toNat ≤ buf.addr.toNat + buf.size - 1 ∧
      buf.addr.toNat ≤ pkt.addr.toNat + pkt.getSize - 1 := by
  simp only [apart, Bool.or_eq_false_iff, bne_eq_false_iff_eq, decide_eq_false_iff_not,
    BitVec.lt_def, Nat.not_lt, funcEnd_toNat h, valEnd_toNat hb, and_assoc]

theorem valOffset_toNat : (pkt.valOffset buf).toNat = pkt.addr.toNat - buf.addr.toNat := by
  rw [valOffset]
  split_ifs with hlt
  · exact BitVec.toNat_sub_of_le (BitVec.le_of_lt hlt)
  · rw [BitVec.lt_def, not_lt] at hlt
    exact (Nat.sub_eq_zero_of_le hlt).symm

theorem funcOffset_toNat : (pkt.funcOffset buf).toNat = buf.addr.toNat - pkt.addr.toNat := by
  rw [funcOffset]
  split_ifs with hlt
  · exact BitVec.toNat_sub_of_le (BitVec.le_of_lt hlt)
  · rw [BitVec.lt_def, not_lt] at hlt
    exact (Nat.sub_eq_zero_of_le hlt).symm

theorem overlapSize_toNat (h : pkt.Valid) (hb : buf.Valid) (hmeet : pkt.apart buf = false) :
    (pkt.overlapSize buf).toNat =
      min (buf.addr.toNat + buf.size) (pkt.addr.toNat + pkt.getSize) -
        max buf.addr.toNat pkt.addr.toNat := by
  obtain ⟨-, hstart, hend⟩ := (apart_eq_false h hb).mp hmeet
  have hpos := h.pos
  have hsmall := h.small
  have hbpos := hb.pos
  have hmin : (if valEnd buf < pkt.funcEnd then valEnd buf else pkt.funcEnd).toNat + 1 =
      min (buf.addr.toNat + buf.size) (pkt.addr.toNat + pkt.getSize) := by
    simp only [apply_ite BitVec.toNat, BitVec.lt_def, funcEnd_toNat h, valEnd_toNat hb]
    split_ifs <;> omega
  have hmax : (if buf.addr < pkt.addr then pkt.addr else buf.addr).toNat =
      max buf.addr.toNat pkt.addr.toNat := by
    simp only [apply_ite BitVec.toNat, BitVec.lt_def]
    split_ifs <;> omega
  rw [overlapSize, toNat_succ_sub, hmin, hmax]
  · rw [hmin, hmax]
    omega
  · rw [hmin, hmax]
    have hlt : pkt.getSize < 2 ^ 64 := hsmall.trans (by norm_num)
    omega

structure Overlaps (pkt : FuncPacket) (buf : Buffer) : Prop where
  inPacket : (pkt.funcOffset buf).toNat + (pkt.overlapSize buf).toNat ≤ pkt.getSize
  inBuffer : (pkt.valOffset buf).toNat + (pkt.overlapSize buf).toNat ≤ buf.size
  span : ∀ k < pkt.getSize, ((pkt.funcOffset buf).toNat ≤ k ∧
      k < (pkt.funcOffset buf).toNat + (pkt.overlapSize buf).toNat ↔
    buf.addr.toNat ≤ pkt.addr.toNat + k ∧ pkt.addr.toNat + k < buf.addr.toNat + buf.size)
  place : ∀ k, (pkt.funcOffset buf).toNat ≤ k →
    (pkt.valOffset buf).toNat + (k - (pkt.funcOffset buf).toNat) =
      pkt.addr.toNat + k - buf.addr.toNat
  bufferSpan : ∀ k < buf.size, ((pkt.valOffset buf).toNat ≤ k ∧
      k < (pkt.valOffset buf).toNat + (pkt.overlapSize buf).toNat ↔
    pkt.addr.toNat ≤ buf.addr.toNat + k ∧ buf.addr.toNat + k < pkt.addr.toNat + pkt.getSize)
  bufferPlace : ∀ k, (pkt.valOffset buf).toNat ≤ k →
    (pkt.funcOffset buf).toNat + (k - (pkt.valOffset buf).toNat) =
      buf.addr.toNat + k - pkt.addr.toNat

theorem overlaps (h : pkt.Valid) (hb : buf.Valid) (hmeet : pkt.apart buf = false) :
    Overlaps pkt buf := by
  obtain ⟨-, hstart, hend⟩ := (apart_eq_false h hb).mp hmeet
  have hpos := h.pos
  have hbpos := hb.pos
  have hsize := overlapSize_toNat h hb hmeet
  refine ⟨?_, ?_, fun k hk => ?_, fun k hk => ?_, fun k hk => ?_, fun k hk => ?_⟩
  · rw [funcOffset_toNat, hsize]
    omega
  · rw [valOffset_toNat, hsize]
    omega
  · rw [funcOffset_toNat, hsize]
    omega
  · rw [funcOffset_toNat] at hk ⊢
    rw [valOffset_toNat]
    omega
  · rw [valOffset_toNat, hsize]
    omega
  · rw [valOffset_toNat] at hk ⊢
    rw [funcOffset_toNat]
    omega

theorem byteFor_of_apart (h : pkt.Valid) (hb : buf.Valid) (hapart : pkt.apart buf = true)
    (hk : k < pkt.getSize) : buf.byteFor pkt k = none := by
  rw [Buffer.byteFor]
  split_ifs with hcond
  · cases hdata : buf.data with
    | none => rfl
    | some data =>
      have hlength := hb.sized data hdata
      have hnot := mt (apart_eq_false h hb).mpr (by rw [hapart]; exact nofun)
      refine List.getElem?_eq_none ?_
      by_contra hlt
      exact hnot ⟨hcond.1, by omega, by omega⟩
  · rfl

theorem byteFor_of_meet {data : List Byte} (h : pkt.Valid) (hb : buf.Valid)
    (hmeet : pkt.apart buf = false) (hdata : buf.data = some data) (hk : k < pkt.getSize) :
    buf.byteFor pkt k =
      if (pkt.funcOffset buf).toNat ≤ k ∧
          k < (pkt.funcOffset buf).toNat + (pkt.overlapSize buf).toNat then
        data[(pkt.valOffset buf).toNat + (k - (pkt.funcOffset buf).toNat)]?
      else none := by
  have hover := overlaps h hb hmeet
  have hlength := hb.sized data hdata
  have hsecure := ((apart_eq_false h hb).mp hmeet).1
  rw [Buffer.byteFor, hdata, bind_some]
  by_cases hspan : (pkt.funcOffset buf).toNat ≤ k ∧
      k < (pkt.funcOffset buf).toNat + (pkt.overlapSize buf).toNat
  · rw [if_pos hspan, if_pos ⟨hsecure, ((hover.span k hk).mp hspan).1⟩, hover.place k hspan.1]
  · rw [if_neg hspan]
    split_ifs with hcond
    · refine List.getElem?_eq_none ?_
      by_contra hlt
      exact hspan ((hover.span k hk).mpr ⟨hcond.2, by omega⟩)
    · rfl

end Overlap

section Reads

variable {data : List Byte}

namespace FuncPacket

def validAt (pkt : FuncPacket) (k : ℕ) : Bool := pkt.bytesValid[k]?.getD false

def Tracked (pkt : FuncPacket) : Prop := pkt.bytesValid = [] ∨ pkt.bytesValid.length = pkt.getSize

structure Same (pkt pkt' : FuncPacket) : Prop where
  cmd : pkt'.cmd = pkt.cmd
  addr : pkt'.addr = pkt.addr
  isSecure : pkt'.isSecure = pkt.isSecure
  getSize : pkt'.getSize = pkt.getSize

end FuncPacket

theorem length_validBytes (h : pkt.Tracked) : pkt.validBytes.length = pkt.getSize := by
  rw [FuncPacket.validBytes]
  rcases h with h | h
  · rw [h]
    exact length_replicate
  · split_ifs
    · exact length_replicate
    · exact h

theorem getElem?_validBytes (h : pkt.Tracked) (hk : k < pkt.getSize) :
    pkt.validBytes[k]? = some (pkt.validAt k) := by
  rw [FuncPacket.validBytes, FuncPacket.validAt]
  split_ifs with hempty
  · rw [List.isEmpty_iff.mp hempty, List.getElem?_replicate, if_pos hk]
    rfl
  · have hlength := h.resolve_left fun hnil => hempty (List.isEmpty_iff.mpr hnil)
    rw [List.getElem?_eq_getElem (by omega), getD_some]

theorem all_iff_validAt (h : pkt.bytesValid.length = pkt.getSize) :
    pkt.bytesValid.all id = true ↔ ∀ k < pkt.getSize, pkt.validAt k = true := by
  rw [List.all_eq_true, forall_mem_iff_getElem]
  simp only [h]
  refine forall₂_congr fun k hk => ?_
  rw [FuncPacket.validAt, List.getElem?_eq_getElem (by omega), getD_some, id]

def filled (pkt : FuncPacket) (buf : Buffer) (data : List Byte) : FuncPacket :=
  { pkt with
    data := copy pkt.data (pkt.funcOffset buf).toNat data (pkt.valOffset buf).toNat
      (pkt.overlapSize buf).toNat
    bytesValid := mark pkt.validBytes (pkt.funcOffset buf).toNat (pkt.overlapSize buf).toNat }

structure Takes (pkt : FuncPacket) (buf : Buffer) (pkt' : FuncPacket) :
    Prop extends pkt.Same pkt' where
  tracked : pkt'.Tracked
  bytes : ∀ k < pkt.getSize, pkt'.data[k]? = (buf.byteFor pkt k).or pkt.data[k]?
  valid : ∀ k < pkt.getSize, pkt'.validAt k = (pkt.validAt k || (buf.byteFor pkt k).isSome)

theorem fill_takes (h : pkt.Valid) (hb : buf.Valid) (hmeet : pkt.apart buf = false)
    (hdata : buf.data = some data) (htracked : pkt.Tracked) :
    pkt.fill buf data = .ok ((filled pkt buf data).bytesValid.all id, filled pkt buf data) ∧
      Takes pkt buf (filled pkt buf data) ∧
      (filled pkt buf data).bytesValid.length = (filled pkt buf data).getSize := by
  obtain ⟨hpacket, hbuffer, -, -, -, -⟩ := overlaps h hb hmeet
  rw [← hb.sized data hdata] at hbuffer
  have hbound :
      (require ((pkt.funcOffset buf).toNat + (pkt.overlapSize buf).toNat ≤ pkt.data.length ∧
      (pkt.valOffset buf).toNat + (pkt.overlapSize buf).toNat ≤ data.length) .outOfBounds :
      Except Fault Unit) = .ok ⟨⟩ := require_eq_ok.mpr ⟨hpacket, hbuffer⟩
  have hsize : (filled pkt buf data).getSize = pkt.getSize := length_copy hpacket hbuffer
  have hlength : (filled pkt buf data).bytesValid.length = (filled pkt buf data).getSize := by
    rw [hsize, ← length_validBytes htracked]
    exact length_mark
  refine ⟨?_, ⟨⟨rfl, rfl, rfl, hsize⟩, .inr hlength, fun k hk => ?_, fun k hk => ?_⟩, hlength⟩
  · simp only [FuncPacket.fill, memcpy, hbound, ok_bind, all_mark]
    rfl
  · rw [byteFor_of_meet h hb hmeet hdata hk]
    refine (getElem?_copy hpacket hbuffer).trans ?_
    split_ifs with hspan
    · rw [List.getElem?_eq_getElem (by omega), some_or]
    · rw [none_or]
  · rw [byteFor_of_meet h hb hmeet hdata hk]
    have hbit : (filled pkt buf data).bytesValid[k]? = some (pkt.validAt k ||
        decide ((pkt.funcOffset buf).toNat ≤ k ∧
          k < (pkt.funcOffset buf).toNat + (pkt.overlapSize buf).toNat)) := by
      refine getElem?_mark.trans ?_
      rw [getElem?_validBytes htracked hk, map_some]
    rw [FuncPacket.validAt, hbit, getD_some]
    congr 1
    split_ifs with hspan
    · rw [List.getElem?_eq_getElem (by omega), isSome_some, decide_eq_true hspan]
    · rw [isSome_none, decide_eq_false hspan]

theorem takes_nothing (htracked : pkt.Tracked)
    (hnone : ∀ k < pkt.getSize, buf.byteFor pkt k = none) : Takes pkt buf pkt := by
  refine ⟨⟨rfl, rfl, rfl, rfl⟩, htracked, fun k hk => ?_, fun k hk => ?_⟩
  · rw [hnone k hk, none_or]
  · rw [hnone k hk, isSome_none, Bool.or_false]

structure ReadCall (pkt : FuncPacket) (buf : Buffer) (found : Bool) (pkt' : FuncPacket) : Prop where
  takes : Takes pkt buf pkt'
  sound : found = true → ∀ k < pkt.getSize, pkt'.validAt k = true
  complete : (∀ k < pkt.getSize, pkt'.validAt k = true) →
    (∃ k < pkt.getSize, pkt.validAt k = false) → found = true

theorem readCall_nothing (htracked : pkt.Tracked)
    (hnone : ∀ k < pkt.getSize, buf.byteFor pkt k = none) : ReadCall pkt buf false pkt := by
  refine ⟨takes_nothing htracked hnone, nofun, fun hall hmissing => ?_⟩
  obtain ⟨k, hk, hfalse⟩ := hmissing
  rw [hall k hk] at hfalse
  exact nomatch hfalse

theorem read_call (h : pkt.Valid) (hb : buf.Valid) (hread : pkt.isRead = true)
    (htracked : pkt.Tracked) :
    ∃ found pkt', pkt.trySatisfyFunctional buf = .ok (found, pkt', buf) ∧
      ReadCall pkt buf found pkt' := by
  have hprint : pkt.isPrint = false := by
    rw [FuncPacket.isRead] at hread
    rw [FuncPacket.isPrint]
    revert hread
    cases pkt.cmd <;> decide
  cases hapart : pkt.apart buf with
  | true =>
    refine ⟨false, pkt, ?_, readCall_nothing htracked fun k hk => byteFor_of_apart h hb hapart hk⟩
    rw [FuncPacket.trySatisfyFunctional, if_pos hapart]
    rfl
  | false =>
    cases hdata : buf.data with
    | none =>
      refine ⟨false, pkt, ?_, readCall_nothing htracked fun k _ => ?_⟩
      · simp only [FuncPacket.trySatisfyFunctional, hapart, hprint, hdata]
        rfl
      · rw [Buffer.byteFor, hdata]
        split_ifs <;> rfl
    | some data =>
      obtain ⟨hfill, htakes, hlength⟩ := fill_takes h hb hapart hdata htracked
      have hall := all_iff_validAt hlength
      rw [htakes.getSize] at hall
      refine ⟨_, filled pkt buf data, ?_, htakes, hall.mp, fun hvalid _ => hall.mpr hvalid⟩
      simp only [FuncPacket.trySatisfyFunctional, hapart, hprint, hdata, hread, hfill, ok_bind]
      rfl

end Reads

section Sequences

variable {bufs bufs' : List Buffer} {found : Bool}

def lastByte (bufs : List Buffer) (pkt : FuncPacket) (k : ℕ) : Option Byte :=
  bufs.reverse.findSome? (·.byteFor pkt k)

def Buffer.Covers (buf : Buffer) (pkt : FuncPacket) (k : ℕ) : Prop :=
  buf.isSecure = pkt.isSecure ∧ buf.data.isSome ∧ buf.addr.toNat ≤ pkt.addr.toNat + k ∧
    pkt.addr.toNat + k < buf.addr.toNat + buf.size

def Complete (bufs : List Buffer) (pkt : FuncPacket) : Prop :=
  ∀ k < pkt.getSize, ∃ buf ∈ bufs, buf.Covers pkt k

theorem byteFor_isSome (hb : buf.Valid) : (buf.byteFor pkt k).isSome ↔ buf.Covers pkt k := by
  rw [Buffer.byteFor, Buffer.Covers]
  cases hdata : buf.data with
  | none => split_ifs <;> simp
  | some data =>
    have hlength := hb.sized data hdata
    split_ifs with hcond
    · rw [bind_some, isSome_getElem?, hlength]
      simp only [hcond, isSome_some, true_and]
      omega
    · simp only [isSome_none, Bool.false_eq_true, isSome_some, true_and, false_iff]
      tauto

theorem lastByte_concat :
    lastByte (bufs ++ [buf]) pkt k = (buf.byteFor pkt k).or (lastByte bufs pkt k) := by
  rw [lastByte, reverse_concat, List.findSome?_cons]
  cases buf.byteFor pkt k <;> rfl

theorem lastByte_isSome (hbufs : ∀ buf ∈ bufs, buf.Valid) :
    (lastByte bufs pkt k).isSome ↔ ∃ buf ∈ bufs, buf.Covers pkt k := by
  rw [lastByte, List.findSome?_isSome_iff]
  simp only [mem_reverse]
  exact exists_congr fun buf => and_congr_right fun hmem => byteFor_isSome (hbufs buf hmem)

structure Filled (pkt : FuncPacket) (bufs : List Buffer) (pkt' : FuncPacket) : Prop
    extends pkt.Same pkt' where
  tracked : pkt'.Tracked
  bytes : ∀ k < pkt.getSize, pkt'.data[k]? = (lastByte bufs pkt k).or pkt.data[k]?
  valid : ∀ k < pkt.getSize, pkt'.validAt k = (lastByte bufs pkt k).isSome

theorem filled_nil (h : pkt.bytesValid = []) : Filled pkt [] pkt := by
  refine ⟨⟨rfl, rfl, rfl, rfl⟩, .inl h, fun k _ => rfl, fun k _ => ?_⟩
  rw [FuncPacket.validAt, h]
  rfl

theorem Filled.concat {pkt'' : FuncPacket} (h : Filled pkt bufs pkt')
    (htakes : Takes pkt' buf pkt'') :
    Filled pkt (bufs ++ [buf]) pkt'' := by
  have hbyte (k : ℕ) : buf.byteFor pkt' k = buf.byteFor pkt k := by
    rw [Buffer.byteFor, Buffer.byteFor, h.addr, h.isSecure]
  refine ⟨⟨htakes.cmd.trans h.cmd, htakes.addr.trans h.addr, htakes.isSecure.trans h.isSecure,
    htakes.getSize.trans h.getSize⟩, htakes.tracked, fun k hk => ?_, fun k hk => ?_⟩
  · rw [htakes.bytes k (by rw [h.getSize]; exact hk), hbyte, h.bytes k hk, lastByte_concat,
      Option.or_assoc]
  · rw [htakes.valid k (by rw [h.getSize]; exact hk), hbyte, h.valid k hk, lastByte_concat,
      isSome_or, Bool.or_comm]

theorem Filled.complete_iff (h : Filled pkt bufs pkt') (hbufs : ∀ buf ∈ bufs, buf.Valid) :
    (∀ k < pkt'.getSize, pkt'.validAt k = true) ↔ Complete bufs pkt := by
  rw [h.getSize]
  refine forall₂_congr fun k hk => ?_
  rw [h.valid k hk, lastByte_isSome hbufs]

theorem Filled.call (h : Filled pkt bufs pkt') (hvalid : pkt.Valid) (hread : pkt.isRead = true)
    (hbufs : ∀ buf ∈ bufs, buf.Valid) (hb : buf.Valid) :
    ∃ found pkt'', pkt'.trySatisfyFunctional buf = .ok (found, pkt'', buf) ∧
      Filled pkt (bufs ++ [buf]) pkt'' ∧ (found = true → Complete (bufs ++ [buf]) pkt) ∧
      (Complete (bufs ++ [buf]) pkt → ¬ Complete bufs pkt → found = true) := by
  have hvalid' : pkt'.Valid := by
    refine ⟨?_, ?_, ?_⟩
    · rw [h.getSize]
      exact hvalid.pos
    · rw [h.getSize]
      exact hvalid.small
    · rw [h.getSize, h.addr]
      exact hvalid.noWrap
  have hread' : pkt'.isRead = true := by
    rw [FuncPacket.isRead, h.cmd]
    exact hread
  obtain ⟨found, pkt'', hcall, htakes, hsound, hcomplete⟩ := read_call hvalid' hb hread' h.tracked
  have hfilled := h.concat htakes
  have hbufs' : ∀ b ∈ bufs ++ [buf], b.Valid := by
    simpa [or_imp, forall_and] using And.intro hbufs hb
  have hiff := hfilled.complete_iff hbufs'
  rw [htakes.getSize] at hiff
  refine ⟨found, pkt'', hcall, hfilled, fun hfound => hiff.mp (hsound hfound),
    fun hnow hbefore => ?_⟩
  refine hcomplete (hiff.mpr hnow) ?_
  by_contra hall
  refine hbefore ((h.complete_iff hbufs).mp fun k hk => ?_)
  by_contra hfalse
  exact hall ⟨k, hk, Bool.eq_false_iff.mpr hfalse⟩

theorem Filled.offer (h : Filled pkt bufs pkt') (hvalid : pkt.Valid) (hread : pkt.isRead = true)
    (hbufs : ∀ buf ∈ bufs ++ bufs', buf.Valid) :
    ∃ founds pkt'', Functional.offer pkt' bufs' = .ok (founds, pkt'') ∧
      Filled pkt (bufs ++ bufs') pkt'' ∧ founds.length = bufs'.length ∧
      ∀ n < bufs'.length,
        (founds[n]? = some true → Complete (bufs ++ bufs'.take (n + 1)) pkt) ∧
        (Complete (bufs ++ bufs'.take (n + 1)) pkt → ¬ Complete (bufs ++ bufs'.take n) pkt →
          founds[n]? = some true) := by
  induction bufs' generalizing bufs pkt' with
  | nil => exact ⟨[], pkt', rfl, by rwa [append_nil], rfl, nofun⟩
  | cons buf bufs' ih =>
    obtain ⟨found, pkt₁, hcall, hfilled, hsound, hcomplete⟩ := h.call hvalid hread
      (fun b hb => hbufs b (mem_append_left _ hb)) (hbufs buf (by simp))
    obtain ⟨founds, pkt₂, hoffer, hfilled', hlength, hrest⟩ := ih hfilled (by simpa using hbufs)
    rw [List.append_assoc, singleton_append] at hfilled'
    refine ⟨found :: founds, pkt₂, ?_, hfilled', congrArg (· + 1) hlength, ?_⟩
    · simp only [Functional.offer, hcall, ok_bind, hoffer]
      rfl
    · rintro (_ | n) hn
      · rw [take_succ_cons, take_zero, take_zero, append_nil]
        refine ⟨fun hfound => hsound (Option.some.inj hfound), fun hnow hbefore => ?_⟩
        exact congrArg some (hcomplete hnow hbefore)
      · have hn := hrest n (Nat.lt_of_succ_lt_succ hn)
        rw [List.append_assoc, List.append_assoc, singleton_append, singleton_append] at hn
        exact hn

theorem not_complete_of_founds {founds : List Bool} {n : ℕ} (hpos : 0 < pkt.getSize)
    (hn : n ≤ bufs.length)
    (hcomplete : ∀ m < bufs.length, Complete (bufs.take (m + 1)) pkt →
      ¬ Complete (bufs.take m) pkt →
      founds[m]? = some true) (hfalse : ∀ m < n, founds[m]? = some false) :
    ¬ Complete (bufs.take n) pkt := by
  induction n with
  | zero =>
    intro hall
    obtain ⟨buf, hmem, -⟩ := hall 0 hpos
    exact absurd hmem (by simp)
  | succ n ih =>
    intro hall
    have hbefore := ih (by omega) fun m hm => hfalse m (by omega)
    have htrue := hcomplete n (by omega) hall hbefore
    rw [hfalse n (by omega)] at htrue
    exact nomatch htrue

/-- The packets that the loop does not skip. -/
def offered (queue : List Queued) : List Buffer :=
  (queue.filter (!·.isMaskedWrite)).map Queued.buffer

variable {other : Queued} {queue : List Queued}

theorem trySatisfyPacket_ok (hmasked : other.isMaskedWrite = false)
    (h : pkt.trySatisfyFunctional other.buffer = .ok (found, pkt', other.buffer)) :
    pkt.trySatisfyPacket other = .ok (found, pkt', other) := by
  have hdata : other.buffer.data.getD other.data = other.data := by
    rw [Queued.buffer]
    split_ifs <;> rfl
  simp only [FuncPacket.trySatisfyPacket, hmasked, Bool.false_eq_true, if_false, h, ok_bind, hdata]
  rfl

/-- The loop over a queue finds a read exactly when the packets it does not skip have all of
its bytes. -/
theorem Filled.trySatisfyAll (h : Filled pkt bufs pkt') (hvalid : pkt.Valid)
    (hread : pkt.isRead = true) (hbufs : ∀ buf ∈ bufs ++ offered queue, buf.Valid)
    (hbefore : ¬ Complete bufs pkt) :
    ∃ found pkt'', Functional.trySatisfyAll pkt' queue = .ok (found, pkt'', queue) ∧
      (found = true ↔ Complete (bufs ++ offered queue) pkt) := by
  induction queue generalizing bufs pkt' with
  | nil => exact ⟨false, pkt', rfl, by simpa [offered] using hbefore⟩
  | cons other queue ih =>
    cases hmasked : other.isMaskedWrite with
    | true =>
      have hskip : offered (other :: queue) = offered queue := by simp [offered, hmasked]
      rw [hskip] at hbufs ⊢
      obtain ⟨found, pkt₁, hall, hiff⟩ := ih h hbufs hbefore
      refine ⟨found, pkt₁, ?_, hiff⟩
      simp only [Functional.trySatisfyAll, FuncPacket.trySatisfyPacket, hmasked, if_true, pure_bind,
        Bool.false_eq_true, if_false, hall, ok_bind]
      rfl
    | false =>
      have hnext : offered (other :: queue) = other.buffer :: offered queue := by
        simp [offered, hmasked]
      rw [hnext] at hbufs ⊢
      obtain ⟨found, pkt₁, hcall, hfilled, hsound, hcomplete⟩ := h.call hvalid hread
        (fun b hb => hbufs b (mem_append_left _ hb)) (hbufs other.buffer (by simp))
      have hcall := trySatisfyPacket_ok hmasked hcall
      cases found with
      | true =>
        refine ⟨true, pkt₁, ?_, iff_of_true rfl fun k hk => ?_⟩
        · simp only [Functional.trySatisfyAll, hcall, ok_bind]
          rfl
        · obtain ⟨b, hb, hcovers⟩ := hsound rfl k hk
          have hmem : b ∈ bufs ++ other.buffer :: offered queue := by
            rcases mem_append.mp hb with hb | hb
            · exact mem_append_left _ hb
            · rw [List.mem_singleton.mp hb]
              simp
          exact ⟨b, hmem, hcovers⟩
      | false =>
        have hstill : ¬ Complete (bufs ++ [other.buffer]) pkt :=
          fun hnow => nomatch hcomplete hnow hbefore
        obtain ⟨found, pkt₂, hall, hiff⟩ := ih hfilled (by simpa using hbufs) hstill
        rw [List.append_assoc, singleton_append] at hiff
        refine ⟨found, pkt₂, ?_, hiff⟩
        simp only [Functional.trySatisfyAll, hcall, ok_bind, hall]
        rfl

end Sequences

section Writes

def FuncPacket.Meets (pkt : FuncPacket) (buf : Buffer) (k : ℕ) : Prop :=
  buf.isSecure = pkt.isSecure ∧ pkt.addr.toNat ≤ buf.addr.toNat + k ∧
    buf.addr.toNat + k < pkt.addr.toNat + pkt.getSize

instance (pkt : FuncPacket) (buf : Buffer) (k : ℕ) : Decidable (pkt.Meets buf k) :=
  inferInstanceAs (Decidable (_ ∧ _))

def Written (pkt : FuncPacket) (buf : Buffer) (data new : List Byte) : Prop :=
  new.length = data.length ∧ ∀ k < buf.size,
    new[k]? = if pkt.Meets buf k then pkt.data[buf.addr.toNat + k - pkt.addr.toNat]? else data[k]?

theorem write_call (h : pkt.Valid) (hb : buf.Valid) (hread : pkt.isRead = false)
    (hwrite : pkt.isWrite = true) :
    ∃ data', pkt.trySatisfyFunctional buf = .ok (false, pkt, { buf with data := data' }) ∧
      Option.Rel (Written pkt buf) buf.data data' := by
  have hprint : pkt.isPrint = false := by
    rw [FuncPacket.isWrite] at hwrite
    rw [FuncPacket.isPrint]
    revert hwrite
    cases pkt.cmd <;> decide
  cases hdata : buf.data with
  | none =>
    refine ⟨none, ?_, .none⟩
    have hsame : ({ buf with data := none } : Buffer) = buf := by rw [← hdata]
    rw [hsame]
    cases hapart : pkt.apart buf with
    | true =>
      rw [FuncPacket.trySatisfyFunctional, if_pos hapart]
      rfl
    | false =>
      simp only [FuncPacket.trySatisfyFunctional, hapart, hprint, hdata]
      rfl
  | some data =>
    have hlength := hb.sized data hdata
    cases hapart : pkt.apart buf with
    | true =>
      refine ⟨some data, ?_, .some ⟨rfl, fun k hk => ?_⟩⟩
      · rw [← hdata, FuncPacket.trySatisfyFunctional, if_pos hapart]
        rfl
      · have hnot := mt (apart_eq_false h hb).mpr (by rw [hapart]; simp)
        refine (if_neg fun hmeets => hnot ⟨hmeets.1, ?_, ?_⟩).symm
        · have hmeets := hmeets.2
          omega
        · have hmeets := hmeets.2
          omega
    | false =>
      have hover := overlaps h hb hapart
      have hsecure := ((apart_eq_false h hb).mp hapart).1
      have hbuffer := hover.inBuffer
      rw [← hlength] at hbuffer
      have hbound :
          (require ((pkt.valOffset buf).toNat + (pkt.overlapSize buf).toNat ≤ data.length ∧
          (pkt.funcOffset buf).toNat + (pkt.overlapSize buf).toNat ≤ pkt.data.length) .outOfBounds :
          Except Fault Unit) = .ok ⟨⟩ := require_eq_ok.mpr ⟨hbuffer, hover.inPacket⟩
      refine ⟨some (copy data (pkt.valOffset buf).toNat pkt.data (pkt.funcOffset buf).toNat
        (pkt.overlapSize buf).toNat), ?_, .some ⟨length_copy hbuffer hover.inPacket,
          fun k hk => ?_⟩⟩
      · simp only [FuncPacket.trySatisfyFunctional, hapart, hprint, hdata, hread, hwrite, memcpy,
          hbound, ok_bind]
        rfl
      · refine (getElem?_copy hbuffer hover.inPacket).trans ?_
        have hspan := hover.bufferSpan k hk
        by_cases hmeets : pkt.Meets buf k
        · rw [if_pos hmeets, if_pos (hspan.mpr hmeets.2),
            hover.bufferPlace k (hspan.mpr hmeets.2).1]
        · rw [if_neg hmeets, if_neg fun hin => hmeets ⟨hsecure, hspan.mp hin⟩]

end Writes

/-- Up to the first call of a read that is done, a call is done exactly when the buffers so far have
all bytes of the packet; every byte is that of the last buffer that has it, or as it was. A
write gives each buffer its bytes and is never done. -/
theorem functional_access {pkt : FuncPacket} {bufs : List Buffer} (hvalid : pkt.Valid)
    (hbufs : ∀ buf ∈ bufs, buf.Valid) :
    (pkt.isRead = true → pkt.bytesValid = [] →
      ∃ founds pkt', offer pkt bufs = .ok (founds, pkt') ∧ founds.length = bufs.length ∧
        (∀ n < bufs.length, (∀ m < n, founds[m]? = some false) →
          (founds[n]? = some true ↔
            ∀ k < pkt.getSize, ∃ buf ∈ bufs.take (n + 1), buf.Covers pkt k)) ∧
        pkt'.getSize = pkt.getSize ∧
        ∀ k < pkt.getSize, pkt'.data[k]? = (lastByte bufs pkt k).or pkt.data[k]?) ∧
    (pkt.isRead = false → pkt.isWrite = true → ∀ buf ∈ bufs,
      ∃ data', pkt.trySatisfyFunctional buf = .ok (false, pkt, { buf with data := data' }) ∧
        Option.Rel (Written pkt buf) buf.data data') := by
  refine ⟨fun hread hfresh => ?_, fun hread hwrite buf hbuf =>
    write_call hvalid (hbufs buf hbuf) hread hwrite⟩
  obtain ⟨founds, pkt', hoffer, hfilled, hlength, hcalls⟩ :=
    (filled_nil hfresh).offer hvalid hread (by simpa using hbufs)
  simp only [List.nil_append] at hfilled hcalls
  refine ⟨founds, pkt', hoffer, hlength, fun n hn hfalse => ?_, hfilled.getSize, hfilled.bytes⟩
  have hbefore := not_complete_of_founds hvalid.pos hn.le (fun m hm => (hcalls m hm).2) hfalse
  exact ⟨(hcalls n hn).1, fun hnow => (hcalls n hn).2 hnow hbefore⟩

theorem trySatisfyAll_iff {pkt : FuncPacket} {queue : List Queued} (hvalid : pkt.Valid)
    (hqueue : ∀ other ∈ queue, other.buffer.Valid) (hread : pkt.isRead = true)
    (hfresh : pkt.bytesValid = []) :
    ∃ found pkt', trySatisfyAll pkt queue = .ok (found, pkt', queue) ∧
      (found = true ↔ ∀ k < pkt.getSize, ∃ other ∈ queue,
        other.isMaskedWrite = false ∧ other.buffer.Covers pkt k) := by
  have hbufs : ∀ buf ∈ [] ++ offered queue, buf.Valid := by
    simp only [offered, List.nil_append, List.forall_mem_map]
    exact fun other h => hqueue other (mem_of_mem_filter h)
  obtain ⟨found, pkt', hall, hiff⟩ :=
    (filled_nil hfresh).trySatisfyAll hvalid hread hbufs fun h => by
    obtain ⟨buf, hmem, -⟩ := h 0 hvalid.pos
    exact absurd hmem not_mem_nil
  refine ⟨found, pkt', hall, hiff.trans ?_⟩
  simp [Complete, offered, and_assoc]

def fourBytes : FuncPacket :=
  { cmd := .readReq, addr := 64, isSecure := false, data := [0, 0, 0, 0] }

def twoBuffers : List Buffer :=
  [⟨63, false, 4, some [1, 2, 3, 4]⟩, ⟨66, false, 2, some [5, 6]⟩]

/-- A write, a masked write, a read without a payload and the response to a read. -/
def inTransit : List Queued :=
  [{ cmd := .writeReq, addr := 63, size := 4, data := [1, 2, 3, 4] },
    { cmd := .writeReq, addr := 67, size := 1, data := [9], byteEnable := [true] },
    { cmd := .readReq, addr := 67, size := 1 },
    { cmd := .readResp, addr := 66, size := 2, data := [5, 6] }]

/-- The last byte comes from the response, not from the masked write. -/
theorem trySatisfyAll_iff_inTransit : ∃ found pkt',
    trySatisfyAll fourBytes inTransit = .ok (found, pkt', inTransit) ∧
      (found = true ↔ ∀ k < 4, ∃ other ∈ inTransit,
        other.isMaskedWrite = false ∧ other.buffer.Covers fourBytes k) := by
  exact trySatisfyAll_iff ⟨by decide, by decide, by decide⟩ (by decide) rfl rfl

theorem functional_access_fourBytes :
    ∃ founds pkt', offer fourBytes twoBuffers = .ok (founds, pkt') ∧ founds = [false, true] ∧
      pkt'.data = [2, 3, 5, 6] ∧ ∀ k < 4, ∃ buf ∈ twoBuffers, buf.Covers fourBytes k := by
  have hvalid : fourBytes.Valid := ⟨by decide, by decide, by decide⟩
  have hbufs : ∀ buf ∈ twoBuffers, buf.Valid := by decide
  obtain ⟨founds, pkt', hoffer, -, hcalls, -, -⟩ := (functional_access hvalid hbufs).1 rfl rfl
  have hrun : offer fourBytes twoBuffers = .ok ([false, true],
      { fourBytes with data := [2, 3, 5, 6], bytesValid := [true, true, true, true] }) := by
    decide +kernel
  rw [hrun] at hoffer
  cases hoffer
  refine ⟨_, _, hrun, rfl, rfl, (hcalls 1 (by decide) ?_).mp rfl⟩
  intro m hm
  obtain rfl : m = 0 := by omega
  rfl

/-- A read that has all of its bytes is not done again when another buffer is offered. -/
theorem offer_after_done :
    offer fourBytes [⟨64, false, 4, some [1, 2, 3, 4]⟩, ⟨0, false, 1, some [5]⟩] =
      .ok ([true, false],
        { fourBytes with data := [1, 2, 3, 4], bytesValid := [true, true, true, true] }) := by
  decide +kernel

end HetSim.Memory.Functional
