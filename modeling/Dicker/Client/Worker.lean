import Dicker.Client.Task
import Dicker.Lib.Program

/-! One connection of the client (client/worker.h). A worker is a program: `recvExact`
is a read, and everything else it does to the outside is a call. What the storage
reader hands over for a task and what the worker sees of its queue come with the
task, so that a program has no other input than the bytes it receives. -/

namespace Dicker.Client
open Lib Program

def READ_BLOCK : ℕ := 256 * 1024

def OUT_BUF_SIZE : ℕ := READ_BLOCK + READ_BLOCK / 16 + 1024

def kProbeWindow : ℕ := 128

structure StreamCompressor where
  State : Type
  update : State → Bytes → Bytes × State
  flush : State → Bytes × State

/-- A task with what is read for it: the blocks of its upload and, in hash-first mode,
those of its hash; `occupancy` is what the worker sees queued behind it. -/
structure Source where
  task : Task
  blocks : List Bytes
  hashed : List Bytes
  occupancy : ℕ
  /-- the reader never hands over an empty block, nor more than its buffer -/
  blocks_bounded : ∀ b ∈ blocks, b ≠ [] ∧ b.length ≤ READ_BLOCK

structure PendingUnit where
  key : UInt64
  source : Source
  accepted : Bool

inductive Event where
  | started (path : Bytes) (type : UnitType) (offset length fileSize : UInt64)
  | finished (path : Bytes) (type : UnitType) (offset length fileSize compressedBytes : UInt64)
      (ok : Bool)
  | skipped (path : Bytes) (type : UnitType) (offset length fileSize : UInt64)

inductive Op where
  | enqueue (data : Bytes)
  | await
  | event (e : Event)
  | setPending (units : List PendingUnit)

abbrev Op.Ans : Op → Type
  | enqueue _ | await => Bool
  | event _ | setPending _ => Unit

abbrev Send := Program Op Op.Ans

def enqueue (data : Bytes) : Send Bool := perform (Op.enqueue data)

def await : Send Bool := perform Op.await

def emit (e : Event) : Send Unit := perform (Op.event e)

def setPending (units : List PendingUnit) : Send Unit := perform (Op.setPending units)

@[simp] theorem enqueue_bind {β : Type} (data : Bytes) (f : Bool → Send β) :
    (enqueue data >>= f) = call (.enqueue data) f := rfl

@[simp] theorem await_bind {β : Type} (f : Bool → Send β) : (await >>= f) = call .await f := rfl

@[simp] theorem emit_bind {β : Type} (e : Event) (f : Unit → Send β) :
    (emit e >>= f) = call (.event e) f := rfl

@[simp] theorem setPending_bind {β : Type} (units : List PendingUnit) (f : Unit → Send β) :
    (setPending units >>= f) = call (.setPending units) f := rfl

structure Hash where
  bytes : Bytes
  length_eq : bytes.length = kProbeHashSize

theorem length_zeroHash : (List.replicate 32 (0 : UInt8)).length = kProbeHashSize := rfl

structure Codecs where
  enc : StreamCompressor
  xxh64 : Bytes → UInt64
  blake3 : Bytes → Hash

structure Worker (E : Type) where
  integrity : Bool
  acceptMode : Bool
  hashFirst : Bool
  nextKey : UInt64
  pending : List PendingUnit
  compressor : E

def sendBlock (data : Bytes) : Send Bool := do
  if !(← enqueue (BlockType.data.toByte :: writeU32Le (UInt32.ofNat data.length))) then
    return false
  enqueue data

def unitHeader (t : Task) : Bytes :=
  t.type.toByte :: (writeU16Le (UInt16.ofNat t.pathname.bytes.length) ++ t.pathname.bytes ++
    if t.type = .chunk then writeU64Le t.offset else [])

def acceptedHeader (key : UInt64) : Bytes := UnitType.accepted.toByte :: writeU64Le key

section
variable (k : Codecs)

structure Uploaded where
  ok : Bool
  compressor : k.enc.State
  compressedBytes : UInt64

def sendOutput (out : Bytes) : Send Bool :=
  if 0 < out.length then sendBlock out else pure true

/-- The read loop of `upload`. -/
def uploadBlocks (e : k.enc.State) (compressedBytes : UInt64) : List Bytes → Send (Uploaded k)
  | [] => return ⟨true, e, compressedBytes⟩
  | data :: blocks => do
    let produced := k.enc.update e data
    if !(← sendOutput produced.1) then
      return ⟨false, produced.2, compressedBytes⟩
    uploadBlocks produced.2 (compressedBytes + UInt64.ofNat produced.1.length) blocks

def finishUpload (w : Worker k.enc.State) (src : Source) (u : Uploaded k) : Send (Uploaded k) := do
  let flushed := k.enc.flush u.compressor
  if !(← sendOutput flushed.1) then
    return ⟨false, flushed.2, u.compressedBytes⟩
  let total := u.compressedBytes + UInt64.ofNat flushed.1.length
  if !(← enqueue [BlockType.endOfUnit.toByte]) then
    return ⟨false, flushed.2, total⟩
  if w.integrity then
    if !(← enqueue (writeU64Le (k.xxh64 src.blocks.flatten))) then
      return ⟨false, flushed.2, total⟩
  return ⟨true, flushed.2, total⟩

def upload (w : Worker k.enc.State) (src : Source) (header : Bytes) : Send (Uploaded k) := do
  if !(← enqueue header) then
    return ⟨false, w.compressor, 0⟩
  let u ← uploadBlocks k w.compressor 0 src.blocks
  if !u.ok then
    return u
  finishUpload k w src u

def send (w : Worker k.enc.State) (src : Source) (header : Bytes) :
    Send (Bool × Worker k.enc.State) := do
  let t := src.task
  emit (.started t.pathname.bytes t.type t.offset t.length t.fileSize)
  let u ← upload k w src header
  emit (.finished t.pathname.bytes t.type t.offset t.length t.fileSize u.compressedBytes u.ok)
  return (u.ok, { w with compressor := u.compressor })

def probeFrame (w : Worker k.enc.State) (src : Source) : Bytes :=
  let t := src.task
  UnitType.probe.toByte :: (writeU64Le w.nextKey ++ [t.type.toByte] ++
    writeU16Le (UInt16.ofNat t.pathname.bytes.length) ++ t.pathname.bytes ++
    writeU64Le t.offset ++ writeU64Le t.length ++ writeU64Le t.fileSize ++
    writeU64Le t.mtime.toUInt64 ++
    if w.hashFirst then (k.blake3 src.hashed.flatten).bytes else [])

def probe (w : Worker k.enc.State) (src : Source) : Send (Bool × Worker k.enc.State) := do
  let pending := w.pending ++ [⟨w.nextKey, src, false⟩]
  setPending pending
  let ok ← enqueue (probeFrame k w src)
  return (ok, { w with nextKey := w.nextKey + 1, pending := pending })

/-- The first loop of `resolve`: one reply for each pending unit. -/
def readReplies : List PendingUnit → Send (Option (List PendingUnit))
  | [] => return some []
  | unit :: units => do
    let some reply ← readExact kProbeReplySize | return none
    if readU64Le (reply.drop 1) ≠ unit.key then
      return none
    let accepted := reply.getD 0 0 = ProbeDecision.accept.toByte
    let some units ← readReplies units | return none
    return some ({ unit with accepted := accepted } :: units)

def sendAccepted (w : Worker k.enc.State) : List PendingUnit → Send (Bool × Worker k.enc.State)
  | [] => return (true, w)
  | unit :: units => do
    let t := unit.source.task
    if unit.accepted then
      let (ok, w) ← send k w unit.source (acceptedHeader unit.key)
      if ok then sendAccepted w units else return (false, w)
    else
      emit (.skipped t.pathname.bytes t.type t.offset t.length t.fileSize)
      sendAccepted w units

def resolve (w : Worker k.enc.State) : Send (Bool × Worker k.enc.State) := do
  if !(← await) then
    setPending []
    return (false, { w with pending := [] })
  let some units ← readReplies w.pending
    | setPending []
      return (false, { w with pending := [] })
  let (ok, w) ← sendAccepted k w units
  setPending []
  return (ok, { w with pending := [] })

def process (w : Worker k.enc.State) (src : Source) : Send (Bool × Worker k.enc.State) := do
  if !w.acceptMode then
    send k w src (unitHeader src.task)
  else
    let (ok, w) ← probe k w src
    if !ok then
      return (false, w)
    if kProbeWindow ≤ w.pending.length ∨ src.occupancy = 0 then
      resolve k w
    else
      return (true, w)

def processAll (w : Worker k.enc.State) : List Source → Send (Bool × Worker k.enc.State)
  | [] => return (true, w)
  | src :: sources => do
    let (ok, w) ← process k w src
    if ok then processAll w sources else return (false, w)

def finish : Send Bool := enqueue [UnitType.endOfSession.toByte]

def session (w : Worker k.enc.State) (sources : List Source) :
    Send (Bool × Worker k.enc.State) := do
  let (ok, w) ← processAll k w sources
  let _ ← finish
  return (ok, w)

end
end Dicker.Client
