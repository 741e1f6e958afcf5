import Dicker.Shared.Wire

/-! Constants and enumerations of the wire protocol (shared/protocol.h). A byte
from the wire is cast to an enumeration in the source whatever its value; here
`ofByte` answers `none` on the values that no enumerator has. -/

namespace Dicker

def kMagic : Bytes := [0x44, 0x4B, 0x52, 0x31]

def kProtocolVersion : UInt16 := 2

def kMinProtocolVersion : UInt16 := 1

inductive Cmd where
  | upload
  deriving DecidableEq, Repr

def Cmd.toByte : Cmd → UInt8
  | upload => 0x33

inductive CompressionAlgo where
  | none
  | lz4
  | zstd
  deriving DecidableEq, Repr

def CompressionAlgo.toByte : CompressionAlgo → UInt8
  | none => 0
  | lz4 => 1
  | zstd => 2

def CompressionAlgo.ofByte (b : UInt8) : Option CompressionAlgo :=
  if b = 0 then some none else if b = 1 then some lz4 else if b = 2 then some zstd else Option.none

inductive UnitType where
  | file
  | chunk
  | probe
  | accepted
  | endOfSession
  deriving DecidableEq, Repr

namespace UnitType

def toByte : UnitType → UInt8
  | file => 0
  | chunk => 1
  | probe => 2
  | accepted => 3
  | endOfSession => 0xFF

def ofByte (b : UInt8) : Option UnitType :=
  if b = 0 then some file else if b = 1 then some chunk else if b = 2 then some probe
  else if b = 3 then some accepted else if b = 0xFF then some endOfSession else none

@[simp] theorem ofByte_toByte (t : UnitType) : ofByte t.toByte = some t := by cases t <;> rfl

end UnitType

inductive ServerMode where
  | accept
  | hashFirst
  deriving DecidableEq, Repr

def ServerMode.toByte : ServerMode → UInt8
  | accept => (1 : UInt8) <<< 0
  | hashFirst => (1 : UInt8) <<< 1

inductive ProbeDecision where
  | accept
  | reject
  deriving DecidableEq, Repr

def ProbeDecision.toByte : ProbeDecision → UInt8
  | accept => 0
  | reject => 1

inductive BlockType where
  | endOfUnit
  | data
  deriving DecidableEq, Repr

def BlockType.toByte : BlockType → UInt8
  | endOfUnit => 0
  | data => 1

inductive HandshakeFlag where
  | integrityChecks
  deriving DecidableEq, Repr

def HandshakeFlag.toByte : HandshakeFlag → UInt8
  | integrityChecks => (1 : UInt8) <<< 0

inductive HandshakeStatus where
  | ok
  | badMagic
  | badVersion
  | authFailed
  | badAlgo
  | serverError
  deriving DecidableEq, Repr

def HandshakeStatus.toByte : HandshakeStatus → UInt8
  | ok => 0
  | badMagic => 1
  | badVersion => 2
  | authFailed => 3
  | badAlgo => 4
  | serverError => 5

def kSessionIdSize : ℕ := 16

def kHmacSize : ℕ := 32

def kHandshakeSignedPrefixSize : ℕ := kMagic.length + 2 + 1 + 1 + kSessionIdSize

def kHandshakeRequestSize : ℕ := kHandshakeSignedPrefixSize + kHmacSize

def kHandshakeReplySize : ℕ := kMagic.length + 1

def kHandshakeModeSize : ℕ := 1

def kProbeHashSize : ℕ := 32

def kProbeReplySize : ℕ := 1 + 8

def kMaxPathLength : UInt16 := 4096

def kMaxBlockSize : UInt32 := 64 * 1024 * 1024

def hasFlag (flags : UInt8) (flag : HandshakeFlag) : Bool := flags &&& flag.toByte != 0

def hasMode (mode : UInt8) (flag : ServerMode) : Bool := mode &&& flag.toByte != 0

end Dicker
