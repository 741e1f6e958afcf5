import Dicker.Client.Handshake
import Dicker.Server.Delivery
import Dicker.Server.HandshakeReply

/-! The handshake of a worker against the server: what one side writes is what the other
reads, in both directions. -/

namespace Dicker.System
open Lib Client Server Server.Runtime Crypto Relation

/-! ## The request -/

section
variable {algo : CompressionAlgo} {conn : Conn} {version : UInt16}

variable (algo conn version) in
theorem handshakeFields_length :
    (handshakeFields algo conn version).length = kHandshakeSignedPrefixSize := by
  rw [handshakeFields, List.length_append, conn.sessionId_length]
  rfl

variable (algo conn version) in
theorem handshake_eq :
    handshake algo conn version =
      signed conn.key (handshakeFields algo conn version) ++ [Cmd.upload.toByte] := rfl

variable (algo conn version) in
theorem parse_handshake (rest : Bytes) (halgo : algo = .lz4 ∨ algo = .zstd)
    (hversion : version = 1 ∨ version = 2) :
    parseAndVerifyHandshake conn.key (handshake algo conn version ++ rest) =
      .ok ⟨version, conn.flags, algo, conn.sessionId⟩ := by
  have hread : readU16Le ((handshakeFields algo conn version).drop kMagic.length) = version :=
    readU16Le_writeU16Le version _
  have hspoken : kMinProtocolVersion ≤ version ∧ version ≤ kProtocolVersion := by
    rcases hversion with rfl | rfl <;> decide
  have hofByte : CompressionAlgo.ofByte algo.toByte = some algo := by cases algo <;> rfl
  have hsession : conn.sessionId.take kSessionIdSize = conn.sessionId :=
    List.take_of_length_le conn.sessionId_length.le
  have h :=
    parse_signed conn.key ([Cmd.upload.toByte] ++ rest)
      (handshakeFields_length algo conn version) rfl (by rw [hread]; exact hspoken) hofByte halgo
  rw [hread] at h
  rw [handshake_eq, List.append_assoc, h]
  exact congrArg (fun id => Except.ok (HandshakeRequest.mk version conn.flags algo id)) hsession

end

/-! ## The server's side -/

/-- The decompressor and the sink of a session can be created. -/
def Provided : (op : LoopOp) → LoopState → op.Ans → Prop
  | .makeDecompressor _, _, made | .getOrCreateSink _, _, made => made = true
  | _, _, _ => True

def provided : Granted := ⟨fun _ => True, False, fun _ => True⟩

section
variable {config : ServerConfig} {maxRead : ℕ} {A : LoopState → World → Prop}

theorem grants_provided (hA : Keeps (Move config provided) A) :
    Grants config maxRead Provided provided A where
  up _ hb _ _ hsize hstatus :=
    Host.vc_mono (sendHandshakeReply_vc hA hb.state hsize hstatus nofun) fun _ _ h => ⟨h, trivial⟩
  fails _ h := by
    rcases h with ⟨_, h⟩ | ⟨_, h⟩
    · exact nomatch h
    · exact nomatch h

variable {c : LoopRun}
  (hc : ReflTransGen (hostIf config maxRead Provided).Step (Runtime.init config) c)
include hc

theorem sentReplies_eq (hcode : c.code = none)
    (hmagic : c.own.uv.plaintext.take kMagic.length = kMagic) :
    Outbox.sentReplies c.own = c.own.uv.replies.map Prod.snd := by
  obtain ⟨τ, hrun⟩ := Host.reaches_iff_run.mp (reaches_of_restricted hc)
  exact (Outbox.replies_of_run hrun hcode (by rw [hmagic])).1

theorem accepts {request : HandshakeRequest} (hcode : c.code = none)
    (hstate : c.own.conn.state ≠ .closing)
    (hsize : kHandshakeRequestSize ≤ c.own.uv.plaintext.length)
    (hparse : parseAndVerifyHandshake config.key c.own.uv.plaintext = .ok request) :
    c.own.conn.state = .streaming ∧ Session config c.own request ∧
      Outbox.sentReplies c.own = [Connection.handshakeReply .ok c.own.conn] := by
  obtain ⟨h, hidle⟩ := replied_of_runs (fun _ hA => grants_provided hA) (fun _ => trivial) hc
  have hb := (hidle hcode).base
  have hok : ∀ r ∈ c.own.uv.replies, r.1 = .ok := by
    intro r hr
    have hstatus := h.status r hr
    unfold Status at hstatus
    rw [hparse] at hstatus
    exact hstatus.resolve_right fun hf => h.failed r hr hf
  cases hs : c.own.conn.state with
  | handshaking =>
    obtain ⟨hcount, hnone⟩ :=
      (hb.handshaking hs).answered ((hidle hcode).not_http (parse_magic hparse)) hsize
    obtain ⟨r, hr⟩ := List.exists_mem_of_length_pos (hcount.trans_gt (Nat.succ_pos _))
    exact absurd (hok r hr) (hnone r hr)
  | streaming =>
    obtain ⟨_, _, _, haccepted, request', hsession⟩ := hb.streaming hs
    obtain ⟨earlier, hlast, hearlier⟩ := haccepted.last
    have hrequest : request' = request := Except.ok.inj (hsession.parsed.symm.trans hparse)
    have hnil : earlier = [] := by
      refine List.eq_nil_iff_forall_not_mem.mpr fun r hr => hearlier r hr (hok r ?_)
      rw [hlast]
      exact List.mem_append_left _ hr
    refine ⟨rfl, hrequest ▸ hsession, ?_⟩
    rw [sentReplies_eq hc hcode (parse_magic hparse), hlast, hnil]
    rfl
  | closing => exact absurd hs hstate

end

/-! ## Agreement -/

def sampleConn : Conn := ⟨List.replicate kSessionIdSize 7, [0x6B], 1, rfl⟩

end Dicker.System
