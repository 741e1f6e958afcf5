import Dicker.Shared.Protocol

/-! A unit on the wire, from its header to its trailer, and the reply to a probe. -/

namespace Dicker

def dataBlock (payload : Bytes) : Bytes :=
  BlockType.data.toByte :: (writeU32Le (UInt32.ofNat payload.length) ++ payload)

def trailerBytes (xxh64 : Bytes → UInt64) (integrity : Bool) (written : Bytes) : Bytes :=
  if integrity then writeU64Le (xxh64 written) else []

def unitBytes (xxh64 : Bytes → UInt64) (integrity : Bool) (header : Bytes) (payloads : List Bytes)
    (written : Bytes) : Bytes :=
  header ++ (payloads.flatMap dataBlock ++
    ([BlockType.endOfUnit.toByte] ++ trailerBytes xxh64 integrity written))

def decisionOf (accepted : Bool) : ProbeDecision := if accepted then .accept else .reject

def replyBytes (key : UInt64) (accepted : Bool) : Bytes :=
  (decisionOf accepted).toByte :: writeU64Le key

end Dicker
