import Dicker.Lib.Loop
import Dicker.Lib.StoredFrame
import Dicker.Shared.Protocol

/-! The consumer thread of a connection: `handle_upload` and `handle_probe`
(server/connection.cxx). Each of the two `while (true)` loops is a head of one
machine, and a round runs from head to head, so that every `read_exact` and every
call out of the consumer is one node of a program. -/

namespace Dicker.Server
open Lib Program

structure Probe where
  path : Bytes
  type : UnitType
  offset : UInt64
  length : UInt64
  fileSize : UInt64
  mtime : Int64
  hash : Bytes
  deriving DecidableEq

structure AcceptedUnit where
  type : UnitType
  path : Bytes
  offset : UInt64
  deriving DecidableEq

/-- What the consumer asks: the filter, and the file sink. -/
inductive Query where
  | filter (probe : Probe)
  | openSequential (path : Bytes)
  | openOffset (path : Bytes)
  | write (data : Bytes)
  | writeAt (offset : UInt64) (data : Bytes)
  deriving DecidableEq

/-- What the consumer reports: the server events, the end of a sequential file,
the outbox, and the two diagnostics of accept mode. -/
inductive Event where
  | started (path : Bytes) (type : UnitType) (offset : UInt64)
  | finished (path : Bytes) (type : UnitType) (offset compressedBytes bytes : UInt64) (ok : Bool)
      (reason : String)
  | skipped (path : Bytes) (type : UnitType) (offset length : UInt64)
  | close
  | post (data : Bytes)
  | unknownKey (key : UInt64)
  | unitWithoutProbe
  deriving DecidableEq

inductive Op where
  | query (q : Query)
  | event (e : Event)
  deriving DecidableEq

abbrev Op.Ans : Op → Type
  | query _ => Bool
  | event _ => Unit

abbrev Consume := Program Op Op.Ans

abbrev Log := List (Entry Op Op.Ans)

def ask (q : Query) : Consume Bool := perform (Op.query q)

def tell (e : Event) : Consume Unit := perform (Op.event e)

@[simp] theorem ask_bind {β : Type} (q : Query) (f : Bool → Consume β) :
    (ask q >>= f) = call (.query q) f := rfl

@[simp] theorem tell_bind {β : Type} (e : Event) (f : Unit → Consume β) :
    (tell e >>= f) = call (.event e) f := rfl

/-- A streaming decoder: for one block, the pieces it hands to `sink.write` in
order, and the state it is left in, or `none` where `decompress` returns false. -/
structure StreamDecompressor where
  State : Type
  decompress : State → Bytes → List Bytes × Option State

/-- LZ4 on blocks that are stored, a call for the frame header and one for each block. -/
def storedLz4Decoder : StreamDecompressor where
  State := Bool
  decompress begun input :=
    if begun then
      if lz4Frame.size (input.take lz4Frame.width) = some (input.length - lz4Frame.width)
      then ([input.drop lz4Frame.width], some true) else ([], none)
    else if input = lz4Frame.magic then ([], some true) else ([], none)

/-- The fields of `Connection` that only the consumer thread uses. -/
structure Consumer (D : Type) where
  mode : UInt8
  integrityChecks : Bool
  decompressor : D
  accepted : UInt64 → Option AcceptedUnit
  unitsDone : UInt64
  bytesTotal : UInt64

def Consumer.start {D : Type} (mode : UInt8) (integrityChecks : Bool) (d : D) : Consumer D :=
  ⟨mode, integrityChecks, d, fun _ => none, 0, 0⟩

/-- `checksum` stands for the XXH64 state: the bytes it has been fed. -/
structure UnitSink where
  isChunk : Bool
  baseOffset : UInt64
  running : UInt64
  integrity : Bool
  checksum : Bytes

def UnitSink.write (s : UnitSink) (data : Bytes) : Consume (Bool × UnitSink) := do
  let checksum := if s.integrity then s.checksum ++ data else s.checksum
  let ok ← if s.isChunk then ask (.writeAt (s.baseOffset + s.running) data)
    else ask (.write data)
  return (ok, { s with checksum := checksum, running := s.running + UInt64.ofNat data.length })

def UnitSink.writeAll (s : UnitSink) : List Bytes → Consume (Bool × UnitSink)
  | [] => return (true, s)
  | piece :: pieces => do
    let (ok, s) ← s.write piece
    if ok then s.writeAll pieces else return (false, s)

structure OpenUnit where
  type : UnitType
  path : Bytes
  baseOffset : UInt64
  sink : UnitSink
  unitWire : UInt64

inductive Head (D : Type) where
  | unit (c : Consumer D)
  | block (c : Consumer D) (u : OpenUnit)

section
variable (dec : StreamDecompressor) (xxh64 : Bytes → UInt64)

/-- `decompress` stops as soon as the sink refuses a piece. -/
def decompress (d : dec.State) (input : Bytes) (sink : UnitSink) :
    Consume (Option dec.State × UnitSink) := do
  let (ok, sink) ← sink.writeAll (dec.decompress d input).1
  return (if ok then (dec.decompress d input).2 else none, sink)

/-- The end of `handle_probe`: the filter decides, and the reply is posted. -/
def decideProbe {D : Type} (c : Consumer D) (key : UInt64) (probe : Probe) :
    Consume (Consumer D) := do
  let accepted ← ask (.filter probe)
  if accepted then
    tell (.post (ProbeDecision.accept.toByte :: writeU64Le key))
    return { c with
      accepted := Function.update c.accepted key (some ⟨probe.type, probe.path, probe.offset⟩) }
  else
    tell (.skipped probe.path probe.type probe.offset probe.length)
    tell (.post (ProbeDecision.reject.toByte :: writeU64Le key))
    return c

def handleProbe {D : Type} (c : Consumer D) : Consume (Option (Consumer D)) := do
  let some head ← readExact (8 + 1 + 2) | return none
  let key := readU64Le head
  let pathLen := readU16Le (head.drop 9)
  let some type := (UnitType.ofByte (head.getD 8 0)).filter (fun t => t = .file ∨ t = .chunk)
    | return none
  if pathLen = 0 ∨ kMaxPathLength < pathLen then
    return none
  let hashFirst := hasMode c.mode .hashFirst
  let some path ← readExact pathLen.toNat | return none
  let some sizes ← readExact (8 * 4) | return none
  let some hash ← if hashFirst then readExact kProbeHashSize else pure (some []) | return none
  let c ← decideProbe c key
    { path := path, type := type, offset := readU64Le sizes, length := readU64Le (sizes.drop 8),
      fileSize := readU64Le (sizes.drop 16), mtime := (readU64Le (sizes.drop 24)).toInt64,
      hash := hash }
  return some c

/-- From `upload:started` to the head of the block loop. -/
def openUnit {D : Type} (c : Consumer D) (type : UnitType) (path : Bytes) (baseOffset : UInt64) :
    Consume (Next (Head D) (Consumer D)) := do
  tell (.started path type baseOffset)
  let valid ← if type = .file then ask (.openSequential path) else ask (.openOffset path)
  if valid then
    return .again (.block c
      { type := type, path := path, baseOffset := baseOffset, unitWire := 0,
        sink := ⟨type = .chunk, baseOffset, 0, c.integrityChecks, []⟩ })
  else
    tell (.finished path type baseOffset 0 0 false "rejected")
    return .done c

def acceptedUnit {D : Type} (c : Consumer D) : Consume (Next (Head D) (Consumer D)) := do
  let some keyBytes ← readExact 8 | return .done c
  match c.accepted (readU64Le keyBytes) with
  | none =>
    tell (.unknownKey (readU64Le keyBytes))
    return .done c
  | some found =>
    openUnit { c with accepted := Function.update c.accepted (readU64Le keyBytes) none }
      found.type found.path found.offset

def plainUnit {D : Type} (c : Consumer D) (type : UnitType) :
    Consume (Next (Head D) (Consumer D)) := do
  let some pathLenBytes ← readExact 2 | return .done c
  let pathLen := readU16Le pathLenBytes
  if pathLen = 0 ∨ kMaxPathLength < pathLen then
    return .done c
  let some path ← readExact pathLen.toNat | return .done c
  if type = .chunk then
    let some offsetBytes ← readExact 8 | return .done c
    openUnit c type path (readU64Le offsetBytes)
  else
    openUnit c type path 0

def handleUnit {D : Type} (c : Consumer D) : Consume (Next (Head D) (Consumer D)) := do
  let some typeByte ← readExact 1 | return .done c
  let acceptMode := hasMode c.mode .accept
  match UnitType.ofByte (typeByte.getD 0 0) with
  | some .endOfSession => return .done c
  | some .probe =>
    if !acceptMode then
      return .done c
    let some c' ← handleProbe c | return .done c
    return .again (.unit c')
  | some .accepted =>
    if !acceptMode then
      return .done c
    acceptedUnit c
  | some .file =>
    if acceptMode then
      tell .unitWithoutProbe
      return .done c
    plainUnit c .file
  | some .chunk =>
    if acceptMode then
      tell .unitWithoutProbe
      return .done c
    plainUnit c .chunk
  | none => return .done c

def checkTrailer {D : Type} (c : Consumer D) (u : OpenUnit) (unitOk unitDone : Bool)
    (failure : String) : Consume (Bool × String) := do
  if unitOk && unitDone && c.integrityChecks then
    let some checksumBytes ← readExact 8 | return (false, failure)
    if readU64Le checksumBytes ≠ xxh64 u.sink.checksum then
      return (false, "checksum mismatch")
    return (unitOk, failure)
  else
    return (unitOk, failure)

def closeUnit {D : Type} (c : Consumer D) (u : OpenUnit) (unitOk unitDone : Bool)
    (failure : String) : Consume (Next (Head D) (Consumer D)) := do
  if u.type = .file then
    tell .close
  if !unitOk || !unitDone then
    tell (.finished u.path u.type u.baseOffset u.unitWire u.sink.running false failure)
    return .done c
  else
    tell (.finished u.path u.type u.baseOffset u.unitWire u.sink.running true "")
    return .again (.unit { c with
      unitsDone := c.unitsDone + 1, bytesTotal := c.bytesTotal + u.sink.running })

def finishUnit {D : Type} (c : Consumer D) (u : OpenUnit) (unitOk unitDone : Bool)
    (failure : String) : Consume (Next (Head D) (Consumer D)) := do
  let (unitOk, failure) ← checkTrailer xxh64 c u unitOk unitDone failure
  closeUnit c u unitOk unitDone failure

def handleBlock (c : Consumer dec.State) (u : OpenUnit) :
    Consume (Next (Head dec.State) (Consumer dec.State)) := do
  let some blockType ← readExact 1 | finishUnit xxh64 c u false false "connection lost"
  if blockType.getD 0 0 = BlockType.endOfUnit.toByte then
    finishUnit xxh64 c u true true "connection lost"
  else if blockType.getD 0 0 ≠ BlockType.data.toByte then
    finishUnit xxh64 c u false false "protocol error"
  else
    let some blockLenBytes ← readExact 4 | finishUnit xxh64 c u false false "connection lost"
    let blockLen := readU32Le blockLenBytes
    if blockLen = 0 ∨ kMaxBlockSize < blockLen then
      finishUnit xxh64 c u false false "protocol error"
    else
      let some input ← readExact blockLen.toNat
        | finishUnit xxh64 c u false false "connection lost"
      let (d, sink) ← decompress dec c.decompressor input u.sink
      let u := { u with unitWire := u.unitWire + blockLen.toUInt64, sink := sink }
      match d with
      | none => finishUnit xxh64 c u false false "decode error"
      | some d => return .again (.block { c with decompressor := d } u)

def handleRound : Head dec.State → Consume (Next (Head dec.State) (Consumer dec.State))
  | .unit c => handleUnit c
  | .block c u => handleBlock dec xxh64 c u

def constantly (b : Bool) : (op : Op) → Unit → op.Ans × Unit
  | .query _, s => (b, s)
  | .event _, s => ((), s)

theorem handleRound_productive (st : Head dec.State) : (handleRound dec xxh64 st).Productive := by
  cases st with
  | unit c => exact ⟨Nat.one_pos, trivial⟩
  | block c u =>
    refine ⟨Nat.one_pos, ?_⟩
    change (finishUnit xxh64 c u false false "connection lost").Productive
    by_cases hf : u.type = .file <;> simp [finishUnit, checkTrailer, closeUnit, hf, Productive]

/-- `Connection::handle_upload`. -/
def handleUpload : Machine Op Op.Ans (Head dec.State) (Consumer dec.State) :=
  ⟨handleRound dec xxh64, handleRound_productive dec xxh64⟩

end
end Dicker.Server
