import Dicker.Client.Worker
import Dicker.Shared.Sha256

/-! The handshake of a worker (client/worker.h). The bytes a program reads are those of
the connection it has made last. -/

namespace Dicker.Client
open Lib Program Crypto

structure Conn where
  sessionId : Bytes
  key : Bytes
  flags : UInt8
  sessionId_length : sessionId.length = kSessionIdSize

inductive ShakeOp where
  | connect
  | await (data : Bytes)

abbrev ShakeOp.Ans : ShakeOp → Type := fun _ => Bool

abbrev Shake := Program ShakeOp ShakeOp.Ans

def handshakeFields (algo : CompressionAlgo) (conn : Conn) (version : UInt16) : Bytes :=
  kMagic ++ writeU16Le version ++ [conn.flags] ++ [algo.toByte] ++ conn.sessionId

def handshake (algo : CompressionAlgo) (conn : Conn) (version : UInt16) : Bytes :=
  let out := handshakeFields algo conn version
  out ++ hmacSha256 conn.key out ++ [Cmd.upload.toByte]

variable {E : Type}

def Worker.setMode (w : Worker E) (mode : UInt8) : Worker E :=
  { w with acceptMode := hasMode mode .accept, hashFirst := hasMode mode .hashFirst }

/-- The status of the reply, or -1. -/
def shake (algo : CompressionAlgo) (conn : Conn) (w : Worker E) (version : UInt16) :
    Shake (ℤ × Worker E) := do
  if !(← perform (.await (handshake algo conn version))) then
    return (-1, w)
  match ← readExact kHandshakeReplySize with
  | none => return (-1, w)
  | some reply =>
    let status := reply.getD kMagic.length 0
    if status ≠ 0 then
      return (status.toNat, w)
    if 2 ≤ version then
      match ← readExact kHandshakeModeSize with
      | none => return (-1, w)
      | some mode => return (0, w.setMode (mode.getD 0 0))
    else
      return (0, w.setMode 0)

/-- What `init` makes of a status: an older server is asked again in its own version. -/
def settle (algo : CompressionAlgo) (conn : Conn) (shaken : ℤ × Worker E) :
    Shake (Bool × Worker E) := do
  if shaken.1 = HandshakeStatus.badVersion.toByte.toNat then
    if !(← perform .connect) then
      return (false, shaken.2)
    let again ← shake algo conn shaken.2 kMinProtocolVersion
    return (again.1 = 0, again.2)
  return (shaken.1 = 0, shaken.2)

def init (algo : CompressionAlgo) (conn : Conn) (w : Worker E) : Shake (Bool × Worker E) := do
  let w := { w with integrity := hasFlag conn.flags .integrityChecks }
  if !(← perform .connect) then
    return (false, w)
  settle algo conn (← shake algo conn w kProtocolVersion)

/-! ## What is read -/

section
variable {σ : Type} {h : (op : ShakeOp) → σ → op.Ans × σ} {algo : CompressionAlgo} {conn : Conn}
  {version : UInt16}

theorem shake_refused (w : Worker E) {s : σ}
    (hsend : (h (.await (handshake algo conn version)) s).1 = true) {status : UInt8}
    (hstatus : status ≠ 0) :
    Exec h (shake algo conn w version) s (kMagic ++ [status]) (status.toNat, w)
      (h (.await (handshake algo conn version)) s).2
      [.did (.await (handshake algo conn version)) true, .got (kMagic ++ [status])] := by
  refine Exec.call_eq hsend (Exec.read_last rfl ?_)
  change Exec h (if status ≠ 0 then _ else _) _ _ _ _ _
  rw [if_pos hstatus]
  exact .ret _ _

theorem shake_ok (w : Worker E) {s : σ}
    (hsend : (h (.await (handshake algo conn version)) s).1 = true) (mode : UInt8)
    (hmode : ¬2 ≤ version → mode = 0) :
    Exec h (shake algo conn w version) s (kMagic ++ [0] ++ if 2 ≤ version then [mode] else [])
      (0, w.setMode mode) (h (.await (handshake algo conn version)) s).2
      (.did (.await (handshake algo conn version)) true :: .got (kMagic ++ [0]) ::
        if 2 ≤ version then [.got [mode]] else []) := by
  refine Exec.call_eq hsend (Exec.read rfl ?_)
  change Exec h (if 2 ≤ version then _ else _) _ _ _ _ _
  split_ifs with hversion
  · exact Exec.read_last rfl (.ret _ _)
  · rw [hmode hversion]
    exact .ret _ _

structure Connects (h : (op : ShakeOp) → σ → op.Ans × σ) : Prop where
  connect : ∀ s, (h .connect s).1 = true
  await : ∀ data s, (h (.await data) s).1 = true

theorem init_ok (hcoop : Connects h) (w : Worker E) (s : σ) (mode : UInt8) :
    ∃ s' log, Exec h (init algo conn w) s (kMagic ++ [0, mode])
      (true, Worker.setMode { w with integrity := hasFlag conn.flags .integrityChecks } mode)
        s' log := by
  have hshake : Exec h (shake algo conn { w with integrity := hasFlag conn.flags .integrityChecks }
      kProtocolVersion) (h .connect s).2 (kMagic ++ [0, mode]) _ _ _ :=
    shake_ok _ (hcoop.await _ _) mode fun hlow => absurd (by decide) hlow
  exact ⟨_, _, Exec.call_eq (hcoop.connect s) (Exec.bind_ret (f := settle algo conn) hshake rfl)⟩

theorem settle_badVersion (hcoop : Connects h) (w : Worker E) (s : σ) :
    ∃ s' log, Exec h (settle algo conn (HandshakeStatus.badVersion.toByte.toNat, w))
      s (kMagic ++ [0]) (true, w.setMode 0) s' log := by
  have hshake : Exec h (shake algo conn w kMinProtocolVersion) (h .connect s).2
      (kMagic ++ [0]) _ _ _ :=
    shake_ok w (hcoop.await _ _) 0 fun _ => rfl
  exact ⟨_, _, Exec.call_eq (hcoop.connect s)
    (Exec.bind_ret (f := fun again : ℤ × Worker E => .ret (decide (again.1 = 0), again.2))
      hshake rfl)⟩

theorem init_downgrade (hcoop : Connects h) (w : Worker E) (s : σ) :
    ∃ s' log, Exec h (init algo conn w) s
      (kMagic ++ [HandshakeStatus.badVersion.toByte] ++ (kMagic ++ [0]))
      (true, Worker.setMode { w with integrity := hasFlag conn.flags .integrityChecks } 0)
        s' log := by
  have hshake : Exec h (shake algo conn { w with integrity := hasFlag conn.flags .integrityChecks }
      kProtocolVersion) (h .connect s).2 (kMagic ++ [HandshakeStatus.badVersion.toByte]) _ _ _ :=
    shake_refused _ (hcoop.await _ _) (by decide)
  obtain ⟨s', log, hsettle⟩ :=
    settle_badVersion hcoop { w with integrity := hasFlag conn.flags .integrityChecks } _
  exact ⟨s', _, Exec.call_eq (hcoop.connect s) (Exec.bind (f := settle algo conn) hshake hsettle)⟩

end
end Dicker.Client
