import Dicker.Server.Moves

/-! The state of the loop between two callbacks: how far the stream has got, and that the
callbacks keep it so. -/

namespace Dicker.Server
namespace Runtime
open Lib Host Connection

structure Answers (config : ServerConfig) (s : LoopState) : Prop where
  early : s.uv.plaintext.length < kHandshakeRequestSize → s.uv.replies = [] ∧ s.uv.late = 0
  count : s.uv.replies.length ≤ s.uv.late + 1
  status : ∀ r ∈ s.uv.replies, Status config s.uv.plaintext r.1
  data : ∀ r ∈ s.uv.replies, r.1 ≠ .ok → r.2 = kMagic ++ [r.1.toByte]

structure Waiting (s : LoopState) : Prop where
  buffer : s.conn.handshakeBuffer = s.uv.plaintext
  consumer : s.conn.consumerStarted = false
  teardown : s.conn.teardownStarted = false
  paused : s.conn.paused = false
  channel : s.uv.channelClosed = false
  pushed : s.uv.pushed = []
  look : s.uv.look = .untouched
  unstarted : .startConsumer ∉ s.uv.log
  decided : s.conn.httpMode = true → s.conn.protoDecided = true

structure Handshaking (s : LoopState) : Prop extends Waiting s where
  /-- every delivery of the whole request has been answered, and not with `Ok` -/
  answered : s.conn.httpMode = false → kHandshakeRequestSize ≤ s.uv.plaintext.length →
    s.uv.replies.length = s.uv.late + 1 ∧ ∀ r ∈ s.uv.replies, r.1 ≠ .ok

structure Session (config : ServerConfig) (s : LoopState) (request : HandshakeRequest) : Prop where
  parsed : parseAndVerifyHandshake config.key s.uv.plaintext = .ok request
  version : s.conn.protocolVersion = request.version
  mode : s.conn.mode = config.modeFor request.version
  integrity : s.conn.integrityChecks = hasFlag request.flags .integrityChecks
  session : s.conn.session = some (sessionHex request.sessionId)

structure Accepted (s : LoopState) : Prop where
  last : ∃ earlier, s.uv.replies = earlier ++ [(.ok, handshakeReply .ok s.conn)] ∧
    ∀ r ∈ earlier, r.1 ≠ .ok
  count : s.uv.replies.length = s.uv.late + 1

variable {s s' : LoopState} {data : Bytes} {request : HandshakeRequest} {c : Connection}

theorem Accepted.ok (h : Accepted s) : ∃ r ∈ s.uv.replies, r.1 = .ok := by
  obtain ⟨earlier, hlast, _⟩ := h.last
  exact ⟨_, hlast ▸ List.mem_append_right _ (List.mem_singleton_self _), rfl⟩

structure Base (config : ServerConfig) (s : LoopState) : Prop where
  handles : HandlesOk s
  undeleted : (∃ h, s.uv.handles h ≠ .closed) → .delete ∉ s.uv.log
  answers : Answers config s
  handshaking : s.conn.state = .handshaking → Handshaking s
  http : s.conn.httpMode = true → ¬s.uv.plaintext.take kMagic.length <+: kMagic
  streaming : s.conn.state = .streaming → s.conn.consumerStarted = true ∧
    s.uv.channelClosed = false ∧ s.uv.pushed = s.uv.plaintext.drop kHandshakeRequestSize ∧
    Accepted s ∧ ∃ request, Session config s request
  closing : s.conn.state = .closing → s.conn.teardownStarted = true ∧
    (s.conn.consumerStarted = true → s.uv.channelClosed = true ∨ s.conn.handlesClosing = true)
  shut : s.conn.state = .closing → s.conn.consumerStarted = false → s.conn.handlesClosing = true
  checked : s.conn.state = .streaming → s.conn.paused = false →
    s.uv.look.Below config.channelHighWater
  pushed : s.uv.pushed <+: s.uv.plaintext.drop kHandshakeRequestSize
  started : s.conn.consumerStarted = true →
    kHandshakeRequestSize ≤ s.uv.plaintext.length ∧ Authentic config.key s.uv.plaintext

structure Fed (data : Bytes) (s s' : LoopState) : Prop where
  plaintext : s'.uv.plaintext = s.uv.plaintext ++ data
  received : s'.uv.received = s.uv.received
  tlsActive : s'.conn.tlsActive = s.conn.tlsActive
  tlsDetected : s'.conn.tlsDetected = s.conn.tlsDetected
  state : s'.conn.state = .handshaking → s.conn.state = .handshaking

theorem Fed.refl (s : LoopState) : Fed [] s s := ⟨(List.append_nil _).symm, rfl, rfl, rfl, id⟩

theorem Fed.trans {data' : Bytes} {s'' : LoopState} (h : Fed data s s') (h' : Fed data' s' s'') :
    Fed (data ++ data') s s'' :=
  ⟨by rw [h'.plaintext, h.plaintext, List.append_assoc], h'.received.trans h.received,
    h'.tlsActive.trans h.tlsActive, h'.tlsDetected.trans h.tlsDetected, h.state ∘ h'.state⟩

theorem Sends.state (h : Sends s s') (hs : s'.conn.state = .handshaking) :
    s.conn.state = .handshaking := by
  rcases h.torn with ⟨hsame, _⟩ | ⟨_, _, hclosing, _⟩
  · exact hsame.symm.trans hs
  · exact absurd (hs.symm.trans hclosing) (by decide)

theorem Sends.fed (h : Sends s s') : Fed [] s s' :=
  ⟨(congrArg Core.plaintext h.core).trans (List.append_nil _).symm, congrArg Core.received h.core,
    congrArg Core.tlsActive h.core, congrArg Core.tlsDetected h.core, h.state⟩

variable {config : ServerConfig} {maxRead : ℕ} {cond : LoopCond}
  {G : Granted} {A : LoopState → World → Prop}

theorem Answers.congr (h : Answers config s) (hplaintext : s'.uv.plaintext = s.uv.plaintext)
    (hlate : s'.uv.late = s.uv.late) (hreplies : s'.uv.replies = s.uv.replies) :
    Answers config s' := by
  obtain ⟨hearly, hcount, hstatus, hdata⟩ := h
  constructor
  all_goals rw [hreplies]
  · rw [hplaintext, hlate]
    exact hearly
  · rw [hlate]
    exact hcount
  · rw [hplaintext]
    exact hstatus
  · exact hdata

theorem Session.append (h : Session config s request)
    (hsize : kHandshakeRequestSize ≤ s.uv.plaintext.length)
    (hplaintext : s'.uv.plaintext = s.uv.plaintext ++ data)
    (hversion : s'.conn.protocolVersion = s.conn.protocolVersion)
    (hmode : s'.conn.mode = s.conn.mode)
    (hintegrity : s'.conn.integrityChecks = s.conn.integrityChecks)
    (hsession : s'.conn.session = s.conn.session) : Session config s' request where
  parsed := by
    rw [hplaintext, parse_append hsize]
    exact h.parsed
  version := hversion.trans h.version
  mode := hmode.trans h.mode
  integrity := hintegrity.trans h.integrity
  session := hsession.trans h.session

theorem Accepted.congr (h : Accepted s) (hreplies : s'.uv.replies = s.uv.replies)
    (hlate : s'.uv.late = s.uv.late) (hversion : s'.conn.protocolVersion = s.conn.protocolVersion)
    (hmode : s'.conn.mode = s.conn.mode) : Accepted s' := by
  obtain ⟨⟨earlier, hlast, hearlier⟩, hcount⟩ := h
  refine ⟨⟨earlier, ?_, hearlier⟩, ?_⟩
  · rw [hreplies, hlast]
    unfold handshakeReply
    rw [hversion, hmode]
  · rw [hreplies, hlate]
    exact hcount

section
variable (h : Sends s s')
include h

theorem Sends.plaintext : s'.uv.plaintext = s.uv.plaintext := congrArg Core.plaintext h.core

theorem Sends.pushed : s'.uv.pushed = s.uv.pushed := congrArg Core.pushed h.core

theorem Sends.look : s'.uv.look = s.uv.look := congrArg Core.look h.core

theorem Sends.httpMode : s'.conn.httpMode = s.conn.httpMode := congrArg Core.httpMode h.core

theorem Sends.replies : s'.uv.replies = s.uv.replies := congrArg Core.replies h.core

theorem Sends.late : s'.uv.late = s.uv.late := congrArg Core.late h.core

theorem Sends.protocolVersion : s'.conn.protocolVersion = s.conn.protocolVersion :=
  congrArg Core.protocolVersion h.core

theorem Sends.mode : s'.conn.mode = s.conn.mode := congrArg Core.mode h.core

theorem Sends.undeleted (hs : (∃ hd, s.uv.handles hd ≠ .closed) → .delete ∉ s.uv.log) :
    (∃ hd, s'.uv.handles hd ≠ .closed) → .delete ∉ s'.uv.log := by
  rintro ⟨hd, hne⟩
  exact h.rare _ trivial (hs ⟨hd, fun heq => hne ((h.closed hd).mpr heq)⟩)

theorem Sends.answers (hs : Answers config s) : Answers config s' :=
  hs.congr h.plaintext h.late h.replies

theorem Sends.handshaking (hs : Handshaking s)
    (hteardown : s'.conn.teardownStarted = s.conn.teardownStarted)
    (hchannel : s'.uv.channelClosed = s.uv.channelClosed) : Handshaking s' where
  buffer := (congrArg Core.handshakeBuffer h.core).trans (hs.buffer.trans h.plaintext.symm)
  consumer := h.consumerStarted.trans hs.consumer
  teardown := hteardown.trans hs.teardown
  paused := (congrArg Core.paused h.core).trans hs.paused
  channel := hchannel.trans hs.channel
  pushed := h.pushed.trans hs.pushed
  look := h.look.trans hs.look
  unstarted := h.rare _ trivial hs.unstarted
  decided := by
    rw [h.httpMode, show s'.conn.protoDecided =
      s.conn.protoDecided from congrArg Core.protoDecided h.core]
    exact hs.decided
  answered := by
    rw [h.httpMode, h.plaintext, h.replies, h.late]
    exact hs.answered

end

theorem Base.sends (hb : Base config s) (h : Sends s s') : Base config s' := by
  have hhttp : s'.conn.httpMode = true → ¬s'.uv.plaintext.take kMagic.length <+: kMagic := by
    rw [h.httpMode, h.plaintext]
    exact hb.http
  have hpushed : s'.uv.pushed <+: s'.uv.plaintext.drop kHandshakeRequestSize := by
    rw [h.pushed, h.plaintext]
    exact hb.pushed
  have hstarted : s'.conn.consumerStarted = true →
      kHandshakeRequestSize ≤ s'.uv.plaintext.length ∧ Authentic config.key s'.uv.plaintext := by
    rw [h.consumerStarted, h.plaintext]
    exact hb.started
  have hpaused : s'.conn.paused = s.conn.paused := congrArg Core.paused h.core
  rcases h.torn with ⟨hstate, hteardown, hclosing, hchannel⟩ | ⟨_, hteardown,
    hstate, hchannel, hshut⟩
  · refine ⟨h.handles hb.handles, h.undeleted hb.undeleted, h.answers hb.answers, fun hs => ?_,
      hhttp, fun hs => ?_, ?_, ?_, ?_, hpushed, hstarted⟩
    · exact h.handshaking (hb.handshaking (hstate.symm.trans hs)) hteardown hchannel
    · obtain ⟨hconsumer, hopen, hall, haccepted, request, hsession⟩ :=
        hb.streaming (hstate.symm.trans hs)
      refine ⟨h.consumerStarted.trans hconsumer, hchannel.trans hopen, ?_,
        haccepted.congr h.replies h.late h.protocolVersion h.mode, request,
        hsession.append (hb.started hconsumer).1 (h.plaintext.trans (List.append_nil _).symm)
          h.protocolVersion h.mode
          (congrArg Core.integrityChecks h.core) (congrArg Core.session h.core)⟩
      rw [h.pushed, h.plaintext]
      exact hall
    · rw [hstate, hteardown, h.consumerStarted, hchannel, hclosing]
      exact hb.closing
    · rw [hstate, h.consumerStarted, hclosing]
      exact hb.shut
    · rw [hstate, hpaused, h.look]
      exact hb.checked
  · -- a failed write has torn the connection down, and with it the channel of a consumer
    have hclosed : ∀ {state : State}, s'.conn.state = state →
        state = .closing := fun hs => hs.symm.trans hstate
    refine ⟨h.handles hb.handles, h.undeleted hb.undeleted, h.answers hb.answers,
      fun hs => absurd (hclosed hs) (by decide), hhttp, fun hs => absurd (hclosed hs) (by decide),
      fun _ => ⟨hteardown, fun hs => .inl ?_⟩, fun _ hf => hshut (h.consumerStarted.symm.trans hf),
      fun hs => absurd (hclosed hs) (by decide), hpushed, hstarted⟩
    rw [hchannel, ← h.consumerStarted, hs, Bool.or_true]

theorem Base.refresh (hb : Base config s) (detected active reading : Bool)
    (writes : List WriteRequest) (received : Bytes) (resuming : Bool) : Base config ⟨
      { s.conn with tlsDetected := detected, tlsActive := active },
      { s.uv with
        reading := reading
        writes := writes
        received := received
        look := .untouched
        resuming := resuming }⟩ where
  handles := ⟨hb.handles.opened, hb.handles.closing⟩
  undeleted := hb.undeleted
  answers := hb.answers.congr rfl rfl rfl
  handshaking hs :=
    have hh := hb.handshaking hs
    ⟨{ hh with look := rfl }, hh.answered⟩
  http := hb.http
  streaming hs := by
    obtain ⟨h₁, h₂, h₃, haccepted, request, hsession⟩ := hb.streaming hs
    exact ⟨h₁, h₂, h₃, haccepted.congr rfl rfl rfl rfl, request,
      hsession.append (hb.started h₁).1 (List.append_nil _).symm rfl rfl rfl rfl⟩
  closing := hb.closing
  shut := hb.shut
  checked _ _ := trivial
  pushed := hb.pushed
  started := hb.started

theorem Base.resumes (hb : Base config s) (hstate : s.conn.state = .streaming)
    (hlook : s.uv.look = .untouched) :
    Base config { s with conn := { s.conn with paused := false } } where
  handles := ⟨hb.handles.opened, hb.handles.closing⟩
  undeleted := hb.undeleted
  answers := hb.answers.congr rfl rfl rfl
  handshaking hs := absurd (hs.symm.trans hstate) (by decide)
  http := hb.http
  streaming hs := by
    obtain ⟨h₁, h₂, h₃, haccepted, request, hsession⟩ := hb.streaming hs
    exact ⟨h₁, h₂, h₃, haccepted.congr rfl rfl rfl rfl, request,
      hsession.append (hb.started h₁).1 (List.append_nil _).symm rfl rfl rfl rfl⟩
  closing := hb.closing
  shut := hb.shut
  checked _ _ := by
    change s.uv.look.Below _
    rw [hlook]
    trivial
  pushed := hb.pushed
  started := hb.started

structure Ahead (config : ServerConfig) (data : Bytes) (s : LoopState) : Prop where
  handles : HandlesOk s
  undeleted : (∃ h, s.uv.handles h ≠ .closed) → .delete ∉ s.uv.log
  answers : Answers config s
  accepted : Accepted s
  session : ∃ request, Session config s request
  state : s.conn.state = .streaming
  consumer : s.conn.consumerStarted = true
  channel : s.uv.channelClosed = false
  http : s.conn.httpMode = true → ¬s.uv.plaintext.take kMagic.length <+: kMagic
  pushed : s.uv.pushed ++ data = s.uv.plaintext.drop kHandshakeRequestSize
  started : kHandshakeRequestSize ≤ s.uv.plaintext.length ∧ Authentic config.key s.uv.plaintext

theorem Ahead.base (h : Ahead config [] s)
    (hlook : s.conn.paused = false → s.uv.look.Below config.channelHighWater) : Base config s where
  handles := h.handles
  undeleted := h.undeleted
  answers := h.answers
  handshaking hs := absurd (hs.symm.trans h.state) (by decide)
  http := h.http
  streaming _ := ⟨h.consumer, h.channel, by rw [← h.pushed, List.append_nil], h.accepted, h.session⟩
  closing hs := absurd (hs.symm.trans h.state) (by decide)
  shut hs := absurd (hs.symm.trans h.state) (by decide)
  checked _ := hlook
  pushed := by rw [← h.pushed, List.append_nil]
  started _ := h.started

theorem Ahead.logged (h : Ahead config [] s) (paused reading : Bool) (look : Look)
    (ops : List LoopOp) (hops : ∀ op ∈ ops, ¬op.Rare) :
    Ahead config [] ⟨{ s.conn with paused := paused },
      { s.uv with reading := reading, look := look, log := s.uv.log ++ ops }⟩ where
  handles := ⟨h.handles.opened, h.handles.closing⟩
  undeleted hopen hmem := by
    rcases List.mem_append.mp hmem with hmem | hmem
    · exact h.undeleted hopen hmem
    · exact hops _ hmem trivial
  answers := h.answers.congr rfl rfl rfl
  accepted := h.accepted.congr rfl rfl rfl rfl
  session :=
    h.session.imp fun _ hs => hs.append h.started.1 (List.append_nil _).symm rfl rfl rfl rfl
  state := h.state
  consumer := h.consumer
  channel := h.channel
  http := h.http
  pushed := h.pushed
  started := h.started

theorem take_magic_mono {p : Bytes} (h : (p ++ data).take kMagic.length <+: kMagic) :
    p.take kMagic.length <+: kMagic := ((List.prefix_append p data).take kMagic.length).trans h

theorem mismatch_iff (p : Bytes) :
    p.take (min p.length kMagic.length) ≠ kMagic.take (min p.length kMagic.length) ↔
      ¬p.take kMagic.length <+: kMagic := by
  have htake : p.take (min p.length kMagic.length) = p.take kMagic.length := by
    rw [Nat.min_comm, ← List.take_take, List.take_length]
  have hlen : (p.take kMagic.length).length = min p.length kMagic.length := by
    rw [List.length_take, Nat.min_comm]
  rw [htake, not_iff_not, List.prefix_iff_eq_take, hlen]

theorem decideProtocol_eq (c : Connection) : decideProtocol c = { c with
    protoDecided := (decideProtocol c).protoDecided
    httpMode := (decideProtocol c).httpMode } := by
  unfold decideProtocol
  dsimp only
  split_ifs <;> rfl

theorem decideProtocol_http
    (hc : c.httpMode = true → ¬c.handshakeBuffer.take kMagic.length <+: kMagic)
    (h : (decideProtocol c).httpMode = true) :
    ¬c.handshakeBuffer.take kMagic.length <+: kMagic := by
  unfold decideProtocol at h
  dsimp only at h
  split_ifs at h with hdecided hmismatch
  · exact hc h
  · exact (mismatch_iff _).mp hmismatch
  · exact hc h

section
variable (hA : Keeps (Move config G) A)
include hA

theorem applyBackpressure_vc (hs : Ahead config [] s) :
    Ensures config maxRead cond G A (applyBackpressure config)
      (fun _ s' => Base config s' ∧ Fed [] s s') s := by
  refine vc_this ?_
  split_ifs with hpaused
  · refine vc_invoke fun a w hAw ha _ => ⟨?_, ?_⟩
    · rw [show a = w.channel.buffered from ha]
      exact hA.step (.looks s w) hAw
    split_ifs with hseen
    · have hstopped : Ahead config [] { own .readStop () (own .bufferedBytes a s) with
          conn := { s.conn with paused := true } } := by
        have h := hs.logged true false (.seen a) [.bufferedBytes, .readStop] (by simp [LoopOp.Rare])
        rwa [List.append_cons] at h
      refine vc_invoke fun b w hAw hb _ =>
        ⟨hA.step (.closing (.plain _ w .readStop b trivial hb nofun)) hAw, ?_⟩
      refine vc_update_last (fun w hAw => hA.step (.pauses _ w hseen hs.consumer rfl) hAw) ⟨?_, ?_⟩
      · exact hstopped.base fun hf => absurd hf.symm Bool.false_ne_true
      · exact ⟨(List.append_nil _).symm, rfl, rfl, rfl, id⟩
    · have hlooked : Ahead config [] (own .bufferedBytes a s) :=
        hs.logged s.conn.paused s.uv.reading (.seen a) [.bufferedBytes] (by simp [LoopOp.Rare])
      exact ⟨hlooked.base fun _ => Nat.not_le.mp hseen, (List.append_nil _).symm, rfl, rfl, rfl, id⟩
  · rw [Bool.not_eq_true', Bool.not_eq_false] at hpaused
    exact ⟨hs.base fun hf => absurd (hf.symm.trans hpaused) Bool.false_ne_true, .refl s⟩

theorem pushData_vc (hs : Ahead config data s) :
    Ensures config maxRead cond G A (invoke (.push data) >>= fun _ => applyBackpressure config)
      (fun _ s' => Base config s' ∧ Fed [] s s') s := by
  refine vc_invoke fun a w hAw _ _ =>
    ⟨hA.step (.pushes s w data hs.pushed hs.consumer hs.state) hAw, ?_⟩
  rw [own_push hs.channel]
  have hahead : Ahead config [] { s with uv := { s.uv with
      pushed := s.uv.pushed ++ data
      look := .due
      log := s.uv.log ++ [.push data] } } :=
    ⟨⟨hs.handles.opened, hs.handles.closing⟩,
      fun h => rare_append (by exact id) _ trivial (hs.undeleted h), hs.answers.congr rfl rfl rfl,
        hs.accepted.congr rfl rfl rfl rfl, hs.session.imp fun _ h =>
        h.append hs.started.1 (List.append_nil _).symm rfl rfl rfl rfl, hs.state,
          hs.consumer, hs.channel,
      hs.http, (List.append_nil _).trans hs.pushed, hs.started⟩
  refine vc_mono (applyBackpressure_vc hA hahead) fun _ s' h => ⟨h.1, ?_⟩
  exact ⟨h.2.plaintext, h.2.received, h.2.tlsActive, h.2.tlsDetected, h.2.state⟩

theorem sendHandshakeReply_vc {status : HandshakeStatus} (hstate : s.conn.state = .handshaking)
    (hsize : kHandshakeRequestSize ≤ s.uv.plaintext.length)
    (hstatus : Status config s.uv.plaintext status) (hfails : status = .serverError → G.fails) :
    Ensures config maxRead cond G A (sendHandshakeReply status)
      (fun _ s' => Sends (s.reply status) s') s := by
  refine vc_this
    (vc_note (fun w hAw => hA.step (.replies s w status hstate hsize hstatus hfails) hAw) ?_)
  split_ifs
  · exact (((Sending.kind hA).wire.tlsSend _ _).bind fun _ => .ite (.teardown hA) (.ret ())) _
  · exact ((Sending.op hA (.write _) trivial nofun).bind fun _ => .ite (.teardown hA) (.ret ())) _

structure Agreed (config : ServerConfig) (request : HandshakeRequest) (s : LoopState) : Prop where
  handles : HandlesOk s
  undeleted : (∃ h, s.uv.handles h ≠ .closed) → .delete ∉ s.uv.log
  answers : Answers config s
  accepted : Accepted s
  parsed : parseAndVerifyHandshake config.key s.uv.plaintext = .ok request
  version : s.conn.protocolVersion = request.version
  mode : s.conn.mode = config.modeFor request.version
  buffer : s.conn.handshakeBuffer = s.uv.plaintext
  consumer : s.conn.consumerStarted = false
  channel : s.uv.channelClosed = false
  pushed : s.uv.pushed = []
  paused : s.conn.paused = false
  look : s.uv.look = .untouched
  unstarted : .startConsumer ∉ s.uv.log
  http : s.conn.httpMode = true → ¬s.uv.plaintext.take kMagic.length <+: kMagic
  size : kHandshakeRequestSize ≤ s.uv.plaintext.length

omit hA in
theorem Agreed.authentic (h : Agreed config request s) :
    Authentic config.key s.uv.plaintext := (parse_ok_iff h.size).mp ⟨request, h.parsed⟩

def streaming (request : HandshakeRequest) (s : LoopState) : LoopState :=
  let session := sessionHex request.sessionId
  let integrity := hasFlag request.flags .integrityChecks
  { conn := { s.conn with
      integrityChecks := integrity
      session := some session
      state := .streaming
      handshakeBuffer := []
      consumerStarted := true }
    uv := { s.uv with
      log := s.uv.log ++ [.emitConnected session request.algo integrity s.conn.tlsActive] ++
        [.recordSession session] ++ [.startConsumer] } }

omit hA in
theorem Agreed.ahead (hs : Agreed config request s) :
    Ahead config (s.conn.handshakeBuffer.drop kHandshakeRequestSize) (streaming request s) where
  handles := ⟨hs.handles.opened, hs.handles.closing⟩
  undeleted h := by
    refine fun hmem => (List.mem_append.mp hmem).elim ?_
      (fun heq => nomatch List.mem_singleton.mp heq)
    exact rare_append (by exact id) _ trivial (rare_append (by exact id) _ trivial (hs.undeleted h))
  answers := hs.answers.congr rfl rfl rfl
  accepted := hs.accepted.congr rfl rfl rfl rfl
  session := ⟨request, hs.parsed, hs.version, hs.mode, rfl, rfl⟩
  state := rfl
  consumer := rfl
  channel := hs.channel
  http := hs.http
  pushed := by
    change s.uv.pushed ++ _ = s.uv.plaintext.drop kHandshakeRequestSize
    rw [hs.pushed, hs.buffer, List.nil_append]
  started := ⟨hs.size, hs.authentic⟩

theorem beginStreaming_vc (hs : Agreed config request s) (hG : G.up s.conn.teardownStarted) :
    Ensures config maxRead cond G A (beginStreaming config request)
      (fun _ s' => Base config s' ∧ Fed [] s s') s := by
  refine vc_update (fun w hAw => hA.step (.names s w _ _) hAw) (vc_this ?_)
  refine vc_invoke fun a w hAw ha _ =>
    ⟨hA.step (.closing (.plain _ w (.emitConnected ..) a trivial ha nofun)) hAw, ?_⟩
  refine vc_update
    (fun w hAw => hA.step (.streams _ w hG hs.consumer hs.size hs.authentic hs.accepted.ok
      hs.accepted.count) hAw) ?_
  refine vc_invoke fun a w hAw ha _ =>
    ⟨hA.step (.records _ w (.recordSession _) a (.inr ⟨_, rfl⟩) hs.size hs.authentic) hAw,
      vc_this ?_⟩
  refine vc_update (fun w hAw => hA.step (.starts _ w hG rfl hs.size hs.authentic) hAw) ?_
  refine vc_invoke fun a w hAw ha _ => ⟨?_, ?_⟩
  · refine hA.step (.startsConsumer _ w hG rfl rfl ?_ hs.size hs.authentic) hAw
    exact rare_append (by exact id) _ trivial (rare_append (by exact id) _ trivial hs.unstarted)
  change Ensures config maxRead cond G A
    (if s.conn.handshakeBuffer.drop kHandshakeRequestSize ≠ [] then _ else _) _
      (streaming request s)
  have hahead := hs.ahead
  split_ifs with hleft
  · refine vc_mono (pushData_vc hA hahead) fun _ s' h => ⟨h.1, ?_⟩
    exact ⟨h.2.plaintext, h.2.received, h.2.tlsActive, h.2.tlsDetected,
      fun hs => nomatch h.2.state hs⟩
  · rw [not_not.mp hleft] at hahead
    have hlook : (streaming request s).uv.look.Below config.channelHighWater := by
      rw [show (streaming request s).uv.look = .untouched from hs.look]
      trivial
    exact ⟨hahead.base fun _ => hlook, (List.append_nil _).symm, rfl, rfl, rfl, nofun⟩

omit hA in
structure Buffered (config : ServerConfig) (s : LoopState) : Prop extends Waiting s where
  handles : HandlesOk s
  undeleted : (∃ h, s.uv.handles h ≠ .closed) → .delete ∉ s.uv.log
  answers : Answers config s
  state : s.conn.state = .handshaking
  http : s.conn.httpMode = true → ¬s.uv.plaintext.take kMagic.length <+: kMagic
  unanswered : s.conn.httpMode = false → kHandshakeRequestSize ≤ s.uv.plaintext.length →
    s.uv.replies.length = s.uv.late ∧ ∀ r ∈ s.uv.replies, r.1 ≠ .ok

omit hA in
theorem Buffered.base (hb : Buffered config s)
    (hanswered : s.conn.httpMode = false → kHandshakeRequestSize ≤ s.uv.plaintext.length →
      s.uv.replies.length = s.uv.late + 1 ∧ ∀ r ∈ s.uv.replies, r.1 ≠ .ok) : Base config s where
  handles := hb.handles
  undeleted := hb.undeleted
  answers := hb.answers
  handshaking _ := ⟨hb.toWaiting, hanswered⟩
  http := hb.http
  streaming hs := absurd (hb.state.symm.trans hs) (by decide)
  closing hs := absurd (hb.state.symm.trans hs) (by decide)
  shut hs := absurd (hb.state.symm.trans hs) (by decide)
  checked hs := absurd (hb.state.symm.trans hs) (by decide)
  pushed := by
    rw [hb.pushed]
    exact List.nil_prefix
  started hs := absurd (hb.consumer.symm.trans hs) Bool.false_ne_true

omit hA in
theorem Buffered.reply (hb : Buffered config s) (hhttp : s.conn.httpMode = false)
    (hsize : kHandshakeRequestSize ≤ s.uv.plaintext.length) (status : HandshakeStatus)
    (hstatus : Status config s.uv.plaintext status) :
    Answers config (s.reply status) ∧ (s.reply status).uv.replies.length = s.uv.late + 1 := by
  have hlength : (s.reply status).uv.replies.length = s.uv.late + 1 := by
    rw [← (hb.unanswered hhttp hsize).1]
    exact List.length_append
  have hmem : ∀ r ∈ (s.reply status).uv.replies,
      r ∈ s.uv.replies ∨ r = (status, handshakeReply status s.conn) :=
    fun r hr => (List.mem_append.mp hr).imp_right List.mem_singleton.mp
  refine ⟨⟨fun hlt => absurd hsize (Nat.not_le.mpr hlt), hlength.le, fun r hr => ?_,
    fun r hr hne => ?_⟩, hlength⟩
  · rcases hmem r hr with hr | rfl
    · exact hb.answers.status r hr
    · exact hstatus
  · rcases hmem r hr with hr | rfl
    · exact hb.answers.data r hr hne
    · have hnot : ¬(status = .ok ∧ 2 ≤ s.conn.protocolVersion) := fun h => hne h.1
      change handshakeReply status s.conn = _
      unfold handshakeReply
      rw [if_neg hnot, List.append_nil]

omit hA in
theorem Buffered.rejected (hb : Buffered config s) (hhttp : s.conn.httpMode = false)
    (hsize : kHandshakeRequestSize ≤ s.uv.plaintext.length) {status : HandshakeStatus}
    (hstatus : Status config s.uv.plaintext status) (hne : status ≠ .ok) :
    Base config (s.reply status) := by
  obtain ⟨hanswers, hlength⟩ := hb.reply hhttp hsize status hstatus
  have hwaiting : Waiting (s.reply status) :=
    { hb with }
  refine ⟨⟨hb.handles.opened, hb.handles.closing⟩, hb.undeleted, hanswers,
    fun _ => ⟨hwaiting, fun _ _ => ⟨hlength, fun r hr => ?_⟩⟩, hb.http,
    fun hs => absurd (hb.state.symm.trans hs) (by decide),
    fun hs => absurd (hb.state.symm.trans hs) (by decide),
    fun hs => absurd (hb.state.symm.trans hs) (by decide),
    fun hs => absurd (hb.state.symm.trans hs) (by decide), ?_,
      fun hs => absurd (hb.consumer.symm.trans hs) Bool.false_ne_true⟩
  · rcases List.mem_append.mp hr with hr | hr
    · exact (hb.unanswered hhttp hsize).2 r hr
    · rw [List.mem_singleton.mp hr]
      exact hne
  · change s.uv.pushed <+: _
    rw [hb.pushed]
    exact List.nil_prefix

omit hA in
theorem Buffered.agreed (hb : Buffered config s) (hhttp : s.conn.httpMode = false)
    (hsize : kHandshakeRequestSize ≤ s.uv.plaintext.length)
    (hparsed : parseAndVerifyHandshake config.key s.uv.plaintext = .ok request)
    (hversion : s.conn.protocolVersion = request.version)
    (hmode : s.conn.mode = config.modeFor request.version) (h : Sends (s.reply .ok) s') :
    Agreed config request s' := by
  have hstatus : Status config s.uv.plaintext .ok := by
    unfold Status
    rw [hparsed]
    exact .inl rfl
  obtain ⟨hanswers, hlength⟩ := hb.reply hhttp hsize .ok hstatus
  have haccepted : Accepted (s.reply .ok) :=
    ⟨⟨s.uv.replies, rfl, (hb.unanswered hhttp hsize).2⟩, hlength⟩
  have hplaintext : s'.uv.plaintext = s.uv.plaintext := h.plaintext
  refine ⟨h.handles ⟨hb.handles.opened, hb.handles.closing⟩, h.undeleted hb.undeleted,
    h.answers hanswers, haccepted.congr h.replies h.late h.protocolVersion h.mode,
    hplaintext ▸ hparsed, h.protocolVersion.trans hversion, h.mode.trans hmode, ?_,
    h.consumerStarted.trans hb.consumer, ?_, h.pushed.trans hb.pushed,
      (congrArg Core.paused h.core).trans hb.paused, h.look.trans hb.look,
        h.rare _ trivial hb.unstarted, ?_, hplaintext ▸ hsize⟩
  · exact (congrArg Core.handshakeBuffer h.core).trans (hb.buffer.trans hplaintext.symm)
  · rcases h.torn with ⟨_, _, _, hsame⟩ | ⟨_, _, _, hsame, _⟩
    · exact hsame.trans hb.channel
    · rw [hsame]
      change (s.uv.channelClosed || s.conn.consumerStarted) = false
      rw [hb.channel, hb.consumer]
      rfl
  · rw [show s'.conn.httpMode = s.conn.httpMode from h.httpMode, hplaintext]
    exact hb.http

omit hA in
variable (config maxRead cond G A) in
structure Grants : Prop where
  up : ∀ s, Buffered config s → s.conn.protoDecided = true → s.conn.httpMode = false →
    kHandshakeRequestSize ≤ s.uv.plaintext.length → Status config s.uv.plaintext .ok →
    Ensures config maxRead cond G A (sendHandshakeReply .ok)
      (fun _ s' => Sends (s.reply .ok) s' ∧ G.up s'.conn.teardownStarted) s
  fails : ∀ s, (∃ algo, cond (.makeDecompressor algo) s false) ∨
    (∃ sessionId, cond (.getOrCreateSink sessionId) s false) → G.fails

theorem grants_true (hup : ∀ b, G.up b) (hfails : G.fails) : Grants config maxRead cond G A where
  up _ hb _ _ hsize hstatus :=
    vc_mono (sendHandshakeReply_vc hA hb.state hsize hstatus nofun) fun _ _ h => ⟨h, hup _⟩
  fails _ _ := hfails

variable (hgrants : Grants config maxRead cond G A)
include hgrants

theorem answerHandshake_vc (hb : Buffered config s) (hdecided : s.conn.protoDecided = true)
    (hhttp : s.conn.httpMode = false) (hsize : kHandshakeRequestSize ≤ s.uv.plaintext.length) :
    Ensures config maxRead cond G A (answerHandshake config s.uv.plaintext)
      (fun _ s' => Base config s' ∧ Fed [] s s') s := by
  have hfed : ∀ {t t' : LoopState} {status : HandshakeStatus}, Sends (t.reply status) t' →
      Fed [] t t' :=
    fun h => ⟨h.fed.plaintext, h.fed.received, h.fed.tlsActive, h.fed.tlsDetected, h.fed.state⟩
  unfold answerHandshake
  cases hparse : parseAndVerifyHandshake config.key s.uv.plaintext with
  | error status =>
    have hstatus : Status config s.uv.plaintext status := by
      unfold Status
      rw [hparse]
    refine vc_mono (sendHandshakeReply_vc hA hb.state hsize hstatus ?_) fun _ s' h => ?_
    · exact fun heq => absurd heq (parse_error hparse).2
    · exact ⟨(hb.rejected hhttp hsize hstatus (parse_error hparse).1).sends h, hfed h⟩
  | ok request =>
    have hauthentic := (parse_ok_iff hsize).mp ⟨request, hparse⟩
    have hstatus : ∀ {status : HandshakeStatus}, status = .ok ∨ status = .serverError →
        Status config s.uv.plaintext status := by
      intro status h
      unfold Status
      rw [hparse]
      exact h
    refine vc_invoke fun decompressor w hAw ha hcond =>
      ⟨hA.step (.closing (.plain s w (.makeDecompressor _) decompressor trivial ha nofun)) hAw, ?_⟩
    refine vc_invoke fun sink w hAw ha hcond' =>
      ⟨hA.step (.records _ w (.getOrCreateSink _) sink (.inl ⟨_, rfl⟩) hsize hauthentic) hAw, ?_⟩
    refine vc_update (fun w hAw => hA.step (.agrees _ w _ _) hAw) ?_
    generalize ht : (LoopState.mk _ _) = t
    have hplaintext : t.uv.plaintext = s.uv.plaintext := by
      rw [← ht]
      rfl
    have hagrees : t.conn.protoDecided = true ∧ t.conn.httpMode = false ∧
        t.conn.protocolVersion = request.version ∧ t.conn.mode =
          config.modeFor request.version := by
      rw [← ht]
      exact ⟨hdecided, hhttp, rfl, rfl⟩
    have hsame : Fed [] s t := by
      rw [← ht]
      exact ⟨(List.append_nil _).symm, rfl, rfl, rfl, id⟩
    have htb : Buffered config t := by
      rw [← ht]
      refine ⟨{ hb with
        unstarted := rare_append (by exact id) _ trivial
          (rare_append (by exact id) _ trivial hb.unstarted) },
        ⟨hb.handles.opened, hb.handles.closing⟩, fun h => ?_,
        hb.answers.congr rfl rfl rfl, hb.state, hb.http, hb.unanswered⟩
      exact rare_append (by exact id) _ trivial
        (rare_append (by exact id) _ trivial (hb.undeleted h))
    rw [← hplaintext] at hsize hparse hstatus
    split_ifs with hfailed
    · have hfails : G.fails := by
        rcases Bool.or_eq_true_iff.mp hfailed with hf | hf
        · rw [(Bool.not_eq_true' _).mp hf] at hcond
          exact hgrants.fails _ (.inl ⟨_, hcond⟩)
        · rw [(Bool.not_eq_true' _).mp hf] at hcond'
          exact hgrants.fails _ (.inr ⟨_, hcond'⟩)
      refine vc_mono (sendHandshakeReply_vc hA htb.state hsize (hstatus (.inr rfl)) fun _ => hfails)
        fun _ s' h => ⟨?_, hsame.trans (hfed h)⟩
      exact (htb.rejected hagrees.2.1 hsize (hstatus (.inr rfl)) (by decide)).sends h
    · refine vc_then (hgrants.up t htb hagrees.1 hagrees.2.1 hsize (hstatus (.inl rfl))) ?_
      rintro s' ⟨hsent, hG⟩
      have hagreed := htb.agreed hagrees.2.1 hsize hparse hagrees.2.2.1 hagrees.2.2.2 hsent
      refine vc_mono (beginStreaming_vc hA hagreed hG) fun _ s'' h => ⟨h.1, ?_⟩
      exact (hsame.trans (hfed hsent)).trans h.2

omit hA hgrants in
theorem decideProtocol_http_false (hc : c.httpMode = true → c.protoDecided = true)
    (h : (decideProtocol c).httpMode = false) : c.httpMode = false := by
  by_contra hhttp
  have hc' := hc (Bool.eq_true_of_not_eq_false hhttp)
  unfold decideProtocol at h
  rw [if_pos hc'] at h
  exact hhttp h

omit hA hgrants in
theorem decideProtocol_decided (hc : c.httpMode = true → c.protoDecided = true) :
    (decideProtocol c).httpMode = true → (decideProtocol c).protoDecided = true := by
  unfold decideProtocol
  dsimp only
  split_ifs with hdecided
  · exact hc
  · exact fun _ => rfl
  · exact fun _ => rfl
  · exact hc

omit hA hgrants in
theorem Answers.append (h : Answers config s)
    (hplaintext : s'.uv.plaintext = s.uv.plaintext ++ data)
    (hreplies : s'.uv.replies = s.uv.replies) (hlate : s.uv.late ≤ s'.uv.late)
    (hearly : s.uv.plaintext.length < kHandshakeRequestSize → s'.uv.late = s.uv.late) :
    Answers config s' := by
  refine ⟨fun hlt => ?_, ?_, fun r hr => ?_, hreplies ▸ h.data⟩
  · rw [hplaintext, List.length_append] at hlt
    have hshort : s.uv.plaintext.length < kHandshakeRequestSize := by omega
    rw [hreplies, hearly hshort]
    exact h.early hshort
  · rw [hreplies]
    exact h.count.trans (Nat.add_le_add_right hlate 1)
  · rw [hreplies] at hr
    by_cases hsize : kHandshakeRequestSize ≤ s.uv.plaintext.length
    · have hstatus := h.status r hr
      unfold Status at hstatus ⊢
      rwa [hplaintext, parse_append hsize]
    · rw [(h.early (Nat.not_le.mp hsize)).1] at hr
      exact absurd hr List.not_mem_nil

def lateAfter (s : LoopState) : ℕ :=
  if s.conn.state = .handshaking ∧ kHandshakeRequestSize ≤ s.uv.plaintext.length then s.uv.late + 1
  else s.uv.late

omit hA hgrants in
theorem Answers.receives (h : Answers config s)
    (hplaintext : s'.uv.plaintext = s.uv.plaintext ++ data)
    (hreplies : s'.uv.replies = s.uv.replies) (hlate : s'.uv.late = lateAfter s) :
    Answers config s' := by
  unfold lateAfter at hlate
  refine h.append hplaintext hreplies ?_ fun hlt => ?_
  · rw [hlate]
    split_ifs <;> omega
  · rw [hlate, if_neg fun hs => absurd hs.2 (Nat.not_le.mpr hlt)]

omit hA hgrants in
theorem Base.buffered (hb : Base config s) (hstate : s.conn.state = .handshaking) (data : Bytes) :
    Buffered config { s with
      conn := decideProtocol (s.conn.appending data)
      uv := { s.uv with plaintext := s.uv.plaintext ++ data, late := lateAfter s } } := by
  have hh := hb.handshaking hstate
  have hhttp := decideProtocol_http
    (c := s.conn.appending data) (fun h hp => hb.http h (hh.buffer ▸ take_magic_mono hp))
  have hdecided := decideProtocol_decided (c := s.conn.appending data) hh.decided
  have hdicker := decideProtocol_http_false (c := s.conn.appending data) hh.decided
  rw [decideProtocol_eq]
  refine ⟨{ hh with buffer := congrArg (· ++ data) hh.buffer, decided := hdecided },
    ⟨hb.handles.opened, hb.handles.closing⟩, hb.undeleted, hb.answers.receives rfl rfl rfl, hstate,
      ?_, fun hf _ => ?_⟩
  · rw [← hh.buffer]
    exact hhttp
  · change s.uv.replies.length = lateAfter s ∧ ∀ r ∈ s.uv.replies, r.1 ≠ .ok
    unfold lateAfter
    by_cases hsize : kHandshakeRequestSize ≤ s.uv.plaintext.length
    · rw [if_pos ⟨hstate, hsize⟩]
      exact hh.answered (hdicker hf) hsize
    · obtain ⟨hnone, hlate⟩ := hb.answers.early (Nat.not_le.mp hsize)
      rw [if_neg fun hs => hsize hs.2, hnone, hlate]
      exact ⟨rfl, fun _ hr => absurd hr List.not_mem_nil⟩

theorem handleHandshakeData_vc (hb : Base config s) (hstate : s.conn.state = .handshaking)
    (data : Bytes) :
    Ensures config maxRead cond G A (handleHandshakeData config data)
      (fun _ s' => Base config s' ∧ Fed data s s')
      { s with uv := { s.uv with plaintext := s.uv.plaintext ++ data, late := lateAfter s } } := by
  have hbuffered := hb.buffered hstate data
  have hplaintext := (hb.handshaking hstate).buffer
  rw [decideProtocol_eq] at hbuffered
  refine vc_update (fun w hAw => ?_) (vc_this ?_)
  · rw [decideProtocol_eq]
    exact hA.step (.buffers _ w _ _ _ hstate) hAw
  rw [decideProtocol_eq]
  have hundecided : (decideProtocol (s.conn.appending data)).protoDecided = false →
      ¬kHandshakeRequestSize ≤ (s.uv.plaintext ++ data).length := by
    intro hf hsize
    rw [← hplaintext] at hsize
    have hlong : kMagic.length ≤ (s.conn.handshakeBuffer ++ data).length :=
      Nat.le_trans (by decide) hsize
    unfold decideProtocol at hf
    dsimp only at hf
    split_ifs at hf with hdone
    exact absurd hf (by rw [hdone]; decide)
  generalize (decideProtocol _).protoDecided = decided at hbuffered hundecided ⊢
  generalize (decideProtocol _).httpMode = http at hbuffered ⊢
  cases decided with
  | false =>
    exact ⟨hbuffered.base fun _ hsize => absurd hsize (hundecided rfl), rfl, rfl, rfl, rfl, id⟩
  | true =>
    cases http with
    | true =>
      refine vc_mono (handleHttpData_sends hA _) fun _ s' h => ⟨?_, ?_⟩
      · exact (hbuffered.base fun hf => nomatch hf).sends h
      · exact ⟨congrArg Core.plaintext h.core, h.fed.received, h.fed.tlsActive, h.fed.tlsDetected,
          h.fed.state⟩
    | false =>
      change Ensures config maxRead cond G A (if _ < _ then _ else _) _ _
      split_ifs with hsize
      · refine ⟨hbuffered.base fun _ hlong => absurd hlong ?_, rfl, rfl, rfl, rfl, id⟩
        change (s.conn.handshakeBuffer ++ data).length < kHandshakeRequestSize at hsize
        change ¬kHandshakeRequestSize ≤ (s.uv.plaintext ++ data).length
        rwa [← hplaintext, Nat.not_le]
      · have hprog : answerHandshake config (s.conn.handshakeBuffer ++ data) =
            answerHandshake config (s.uv.plaintext ++ data) := by rw [hplaintext]
        change ¬(s.conn.handshakeBuffer ++ data).length < kHandshakeRequestSize at hsize
        change Ensures config maxRead cond G A
          (answerHandshake config (s.conn.handshakeBuffer ++ data)) _ _
        rw [hprog]
        rw [hplaintext, Nat.not_lt] at hsize
        refine vc_mono (answerHandshake_vc hA hgrants hbuffered rfl rfl hsize)
          fun _ s' h => ⟨h.1, ?_⟩
        exact ⟨h.2.plaintext.trans (List.append_nil _), h.2.received,
          h.2.tlsActive, h.2.tlsDetected, h.2.state⟩

theorem handleData_vc (hb : Base config s) (data : Bytes)
    (hplain : s.conn.tlsActive = false → s.uv.plaintext ++ data = s.uv.received)
    (hlimit : G.limit (s.uv.plaintext.length + data.length)) :
    Ensures config maxRead cond G A (handleData config data)
      (fun _ s' => Base config s' ∧ Fed data s s') s := by
  refine vc_this (vc_note (fun w hAw => hA.step (.receives s w data _ hplain ?_ hlimit) hAw) ?_)
  · split_ifs <;> omega
  cases hstate : s.conn.state with
  | handshaking =>
    have hvc := handleHandshakeData_vc hA hgrants hb hstate data
    unfold lateAfter at hvc
    rw [hstate] at hvc
    exact hvc
  | streaming =>
    obtain ⟨hconsumer, hchannel, hpushed, haccepted, request, hsession⟩ := hb.streaming hstate
    obtain ⟨hsize, hauthentic⟩ := hb.started hconsumer
    have hsize' : kHandshakeRequestSize ≤ (s.uv.plaintext ++ data).length := by
      rw [List.length_append]
      omega
    rw [if_neg fun hs => nomatch hs.1]
    refine vc_update (fun w hAw => hA.step (.quiet _ w _ _ _ _ _) hAw) ?_
    refine vc_mono (pushData_vc hA ?_) fun _ s' h => ⟨h.1, ?_⟩
    · refine ⟨⟨hb.handles.opened, hb.handles.closing⟩, hb.undeleted,
        hb.answers.append rfl rfl le_rfl fun _ => rfl, haccepted.congr rfl rfl rfl rfl,
        ⟨request, hsession.append hsize rfl rfl rfl rfl rfl⟩, hstate, hconsumer, hchannel,
        fun h hp => hb.http h (take_magic_mono hp), ?_, hsize', hauthentic.append hsize data⟩
      change s.uv.pushed ++ data = (s.uv.plaintext ++ data).drop kHandshakeRequestSize
      rw [hpushed, List.drop_append_of_le_length hsize]
    · exact ⟨h.2.plaintext.trans (List.append_nil _), h.2.received, h.2.tlsActive, h.2.tlsDetected,
        h.2.state⟩
  | closing =>
    rw [if_neg fun hs => nomatch hs.1]
    refine ⟨⟨⟨hb.handles.opened, hb.handles.closing⟩, hb.undeleted,
      hb.answers.append rfl rfl le_rfl fun _ => rfl, ?_, ?_, ?_, hb.closing, hb.shut, ?_, ?_, ?_⟩,
      rfl, rfl, rfl, rfl, id⟩
    · exact fun h => absurd (hstate.symm.trans h) (by decide)
    · exact fun h hp => hb.http h (take_magic_mono hp)
    · exact fun h => absurd (hstate.symm.trans h) (by decide)
    · exact fun h => absurd (hstate.symm.trans h) (by decide)
    · exact hb.pushed.trans ((List.prefix_append s.uv.plaintext data).drop _)
    · intro h
      obtain ⟨hsize, hauthentic⟩ := hb.started h
      refine ⟨?_, hauthentic.append hsize data⟩
      change kHandshakeRequestSize ≤ (s.uv.plaintext ++ data).length
      rw [List.length_append]
      omega

/-- What of a segment reaches `handle_data`: the plaintext that the calls of `wolfSSL_read`
answer. -/
def readSize : List SslAnswer → ℕ
  | [] => 0
  | ⟨.success data, _⟩ :: answers => data.length + readSize answers
  | ⟨.wantWrite, _⟩ :: answers => readSize answers
  | _ :: _ => 0

def acceptSize : List SslAnswer → ℕ
  | [] => 0
  | ⟨.success _, _⟩ :: answers => readSize answers
  | ⟨.wantWrite, _⟩ :: answers => acceptSize answers
  | _ :: _ => 0

def plainSize (data : Bytes) (answers : List SslAnswer) (c : Connection) : ℕ :=
  if c.tlsActive then if c.tls.handshakeDone then readSize answers else acceptSize answers
  else data.length

def rawSize (data : Bytes) (answers : List SslAnswer) (c : Connection) : ℕ :=
  plainSize data answers (if c.state = .handshaking ∧ !c.tlsDetected then detectTls data c else c)

theorem ingestRead_vc (answers : List SslAnswer) (hb : Base config s)
    (hactive : s.conn.tlsActive = true)
    (hlimit : ∀ n ≤ s.uv.plaintext.length + readSize answers, G.limit n) :
    Ensures config maxRead cond G A (ingestRead config answers)
      (fun _ s' => Base config s' ∧ ∃ data, Fed data s s') s := by
  induction answers generalizing s with
  | nil => exact ⟨hb, [], .refl s⟩
  | cons answer answers ih =>
    obtain ⟨result, sent⟩ := answer
    have hquiet : Sending config maxRead cond G A
        (update fun c => { c with tls.outBuf := c.tls.outBuf ++ sent }) :=
      .quiet hA fun _ => ⟨_, _, _, _, rfl⟩
    refine vc_then (hquiet s) fun s₁ h₁ => ?_
    have hb₁ := hb.sends h₁
    have hactive₁ : s₁.conn.tlsActive = true := h₁.fed.tlsActive.trans hactive
    rw [← h₁.plaintext] at hlimit
    have hsends : ∀ {p : LoopM Unit}, Sending config maxRead cond G A p →
        Ensures config maxRead cond G A p (fun _ s' => Base config s' ∧ ∃ data, Fed data s s') s₁ :=
      fun hp => vc_mono (hp s₁) fun _ s' h => ⟨hb₁.sends h, _, h₁.fed.trans h.fed⟩
    cases result with
    | success data =>
      have hdata : G.limit (s₁.uv.plaintext.length + data.length) :=
        hlimit _ (Nat.add_le_add_left (Nat.le_add_right _ _) _)
      refine vc_then (handleData_vc hA hgrants hb₁ data (fun hf =>
        absurd (hf.symm.trans hactive₁) Bool.false_ne_true) hdata) fun s₂ h₂ => ?_
      refine vc_mono (ih h₂.1 (h₂.2.tlsActive.trans hactive₁) fun n hn => hlimit n ?_)
        fun _ s' h => ⟨h.1, ?_⟩
      · rwa [h₂.2.plaintext, List.length_append, Nat.add_assoc] at hn
      obtain ⟨rest, hrest⟩ := h.2
      exact ⟨_, (h₁.fed.trans h₂.2).trans hrest⟩
    | wantRead => exact hsends ((Sending.kind hA).wire.flushOut false)
    | wantWrite =>
      refine vc_then ((Sending.kind hA).wire.flushOut false s₁) fun s₂ h₂ => ?_
      rw [← h₂.plaintext] at hlimit
      refine vc_mono (ih (hb₁.sends h₂) (h₂.fed.tlsActive.trans hactive₁) hlimit)
        fun _ s' h => ⟨h.1, ?_⟩
      obtain ⟨rest, hrest⟩ := h.2
      exact ⟨_, (h₁.fed.trans h₂.fed).trans hrest⟩
    | failure => exact hsends (.teardown hA)

theorem ingestAccept_vc (answers : List SslAnswer) (hb : Base config s)
    (hactive : s.conn.tlsActive = true)
    (hlimit : ∀ n ≤ s.uv.plaintext.length + acceptSize answers, G.limit n) :
    Ensures config maxRead cond G A (ingestAccept config answers)
      (fun _ s' => Base config s' ∧ ∃ data, Fed data s s') s := by
  induction answers generalizing s with
  | nil => exact ⟨hb, [], .refl s⟩
  | cons answer answers ih =>
    obtain ⟨result, sent⟩ := answer
    have hquiet : Sending config maxRead cond G A
        (update fun c => { c with tls.outBuf := c.tls.outBuf ++ sent }) :=
      .quiet hA fun _ => ⟨_, _, _, _, rfl⟩
    have hsends : ∀ {p : LoopM Unit}, Sending config maxRead cond G A p →
        Ensures config maxRead cond G A p (fun _ s' => Base config s' ∧ ∃ data, Fed data s s') s :=
      fun hp => vc_mono (hp s) fun _ s' h => ⟨hb.sends h, _, h.fed⟩
    cases result with
    | success data =>
      have hdone : Sending config maxRead cond G A
          (update fun c => { c with tls.handshakeDone := true }) :=
        .quiet hA fun _ => ⟨_, _, _, _, rfl⟩
      refine vc_then (hquiet s) fun s₁ h₁ => vc_then (hdone s₁) fun s₂ h₂ => ?_
      refine vc_then ((Sending.kind hA).wire.flushOut false s₂) fun s₃ h₃ => ?_
      have hs₃ := (h₁.trans h₂).trans h₃
      rw [← hs₃.plaintext] at hlimit
      refine vc_mono (ingestRead_vc hA hgrants answers (hb.sends hs₃)
        (hs₃.fed.tlsActive.trans hactive) hlimit) fun _ s' h => ⟨h.1, ?_⟩
      obtain ⟨rest, hrest⟩ := h.2
      exact ⟨_, hs₃.fed.trans hrest⟩
    | wantRead => exact hsends (hquiet.bind fun _ => (Sending.kind hA).wire.flushOut false)
    | wantWrite =>
      refine vc_then (hquiet s) fun s₁ h₁ =>
        vc_then ((Sending.kind hA).wire.flushOut false s₁) fun s₂ h₂ => ?_
      rw [← (h₁.trans h₂).plaintext] at hlimit
      refine vc_mono (ih (hb.sends (h₁.trans h₂))
        ((h₁.trans h₂).fed.tlsActive.trans hactive) hlimit) fun _ s' h => ⟨h.1, ?_⟩
      obtain ⟨rest, hrest⟩ := h.2
      exact ⟨_, (h₁.trans h₂).fed.trans hrest⟩
    | failure => exact hsends (hquiet.bind fun _ => .teardown hA)

theorem ingest_vc (answers : List SslAnswer) (hb : Base config s)
    (hactive : s.conn.tlsActive = true) (hlimit : ∀ n ≤ s.uv.plaintext.length +
      (if s.conn.tls.handshakeDone then readSize answers else acceptSize answers), G.limit n) :
    Ensures config maxRead cond G A (ingest config answers)
      (fun _ s' => Base config s' ∧ ∃ data, Fed data s s') s := by
  refine vc_this ?_
  split_ifs at hlimit ⊢
  · exact ingestRead_vc hA hgrants answers hb hactive hlimit
  · exact ingestAccept_vc hA hgrants answers hb hactive hlimit

structure Wire (s : LoopState) : Prop where
  plain : s.conn.tlsActive = false → s.uv.plaintext = s.uv.received
  tls : s.conn.tlsActive = true → s.uv.received.head? = some 0x16
  undetected : s.conn.tlsDetected = false → s.conn.tlsActive = false ∧
    (s.conn.state = .handshaking → s.uv.received = [])

omit hA hgrants in
theorem Wire.sends (hw : Wire s) (h : Sends s s') : Wire s' := by
  have hactive : s'.conn.tlsActive = s.conn.tlsActive := congrArg Core.tlsActive h.core
  have hdetected : s'.conn.tlsDetected = s.conn.tlsDetected := congrArg Core.tlsDetected h.core
  have hplaintext : s'.uv.plaintext = s.uv.plaintext := h.plaintext
  have hreceived : s'.uv.received = s.uv.received := congrArg Core.received h.core
  refine ⟨?_, ?_, fun hd => ?_⟩
  · rw [hactive, hplaintext, hreceived]
    exact hw.plain
  · rw [hactive, hreceived]
    exact hw.tls
  · obtain ⟨hinactive, hfirst⟩ := hw.undetected (hdetected.symm.trans hd)
    exact ⟨hactive.trans hinactive, fun hstate => hreceived.trans (hfirst (h.state hstate))⟩

omit hA hgrants in
structure Arriving (data : Bytes) (s : LoopState) : Prop where
  plain : s.conn.tlsActive = false → s.uv.plaintext ++ data = s.uv.received
  tls : s.conn.tlsActive = true → s.uv.received.head? = some 0x16
  detected : s.conn.tlsDetected = false → s.conn.tlsActive = false ∧ s.conn.state ≠ .handshaking

omit hA hgrants in
theorem Arriving.wire (ha : Arriving data s) {data' : Bytes} (h : Fed data' s s')
    (hdata : s.conn.tlsActive = false → data' = data) : Wire s' := by
  refine ⟨fun hactive => ?_, fun hactive => ?_, fun hd => ?_⟩
  · rw [h.tlsActive] at hactive
    rw [h.plaintext, h.received, hdata hactive]
    exact ha.plain hactive
  · rw [h.received]
    exact ha.tls (h.tlsActive.symm.trans hactive)
  · obtain ⟨hactive, hstate⟩ := ha.detected (h.tlsDetected.symm.trans hd)
    exact ⟨h.tlsActive.trans hactive, fun hs => absurd (h.state hs) hstate⟩

theorem handlePlainOrTls_vc (answers : List SslAnswer) (hb : Base config s) (ha : Arriving data s)
    (hlimit : ∀ n ≤ s.uv.plaintext.length + plainSize data answers s.conn, G.limit n) :
    Ensures config maxRead cond G A (handlePlainOrTls config data answers)
      (fun _ s' => Base config s' ∧ Wire s') s := by
  unfold plainSize at hlimit
  refine vc_this ?_
  split_ifs with hactive
  · rw [if_pos hactive] at hlimit
    refine vc_mono (ingest_vc hA hgrants answers hb hactive hlimit) fun _ s' h => ⟨h.1, ?_⟩
    obtain ⟨data', hfed⟩ := h.2
    exact ha.wire hfed fun hf => absurd (hf.symm.trans hactive) Bool.false_ne_true
  · rw [if_neg hactive] at hlimit
    exact vc_mono (handleData_vc hA hgrants hb data ha.plain (hlimit _ le_rfl)) fun _ s' h =>
      ⟨h.1, ha.wire h.2 fun _ => rfl⟩

theorem handleRaw_vc (data : Bytes) (answers : List SslAnswer) (hb : Base config s) (hw : Wire s)
    (hlimit : ∀ n ≤ s.uv.plaintext.length + rawSize data answers s.conn, G.limit n) :
    Ensures config maxRead cond G A (handleRaw config data answers)
      (fun _ s' => Base config s' ∧ Wire s') (takes (.read data answers) s) := by
  have htaken : Base config (takes (.read data answers) s) := hb.refresh _ _ _ _ _ _
  unfold rawSize at hlimit
  have hhead : ∀ b, s.uv.received.head? = some b → (s.uv.received ++ data).head? = some b := by
    intro b hb
    rw [List.head?_append, hb]
    rfl
  refine vc_this ?_
  split_ifs with hfirst
  · -- nothing has been received before, so that the first byte of `data` is that of the stream
    rw [if_pos (by exact hfirst)] at hlimit
    obtain ⟨hstate, hundetected⟩ := hfirst
    obtain ⟨hinactive, hempty⟩ := hw.undetected ((Bool.not_eq_true' _).mp hundetected)
    have hreceived : s.uv.received ++ data = data := by
      rw [hempty hstate]
      rfl
    have hdetected : ∀ active, Base config { takes (.read data answers) s with conn := { s.conn with
        tlsDetected := true
        tlsActive := active } } := fun _ => hb.refresh _ _ _ _ _ _
    by_cases hhello : data.head? = some 0x16
    · have hdetect : ∀ c : Connection, detectTls data c =
          { c with tlsDetected := true, tlsActive := true } := fun c => if_pos hhello
      have htls : (s.uv.received ++ data).head? = some 0x16 := by rw [hreceived, hhello]
      refine vc_update (fun w hAw => ?_) (vc_this ?_)
      · rw [hdetect]
        exact hA.step (.detects _ w true true fun _ => rfl) hAw
      rw [hdetect]
      refine vc_invoke fun a w hAw ha _ =>
        ⟨hA.step (.closing (.plain _ w .tlsInit a trivial ha nofun)) hAw, ?_⟩
      have hinit :=
        sends_own .tlsInit trivial a { takes (.read data answers) s with conn := { s.conn with
        tlsDetected := true
        tlsActive := true } }
      have hwire : Wire (own .tlsInit a { takes (.read data answers) s with conn := { s.conn with
          tlsDetected := true
          tlsActive := true } }) := ⟨nofun, fun _ => htls, nofun⟩
      cases a with
      | false =>
        refine vc_mono (beginTeardown_vc hA _) fun _ s' h => ⟨?_, hwire.sends h⟩
        exact ((hdetected true).sends hinit).sends h
      | true =>
        rw [hdetect] at hlimit
        exact handlePlainOrTls_vc hA hgrants answers ((hdetected true).sends hinit)
          ⟨nofun, fun _ => htls, nofun⟩ hlimit
    · have hdetect : ∀ c : Connection, detectTls data c = { c with tlsDetected := true } :=
        fun c => if_neg hhello
      refine vc_update (fun w hAw => ?_) (vc_this ?_)
      · rw [hdetect]
        exact hA.step (.detects _ w true _ id) hAw
      rw [hdetect]
      change Ensures config maxRead cond G A (if s.conn.tlsActive = true then _ else _) _ _
      rw [if_neg (by rw [hinactive]; exact Bool.false_ne_true)]
      rw [hdetect] at hlimit
      refine handlePlainOrTls_vc hA hgrants answers (hdetected s.conn.tlsActive)
        ⟨?_, ?_, nofun⟩ hlimit
      · exact fun hactive => congrArg (· ++ data) (hw.plain hactive)
      · exact fun hactive => hhead _ (hw.tls hactive)
  · rw [if_neg (by exact hfirst)] at hlimit
    refine handlePlainOrTls_vc hA hgrants answers htaken ⟨?_, ?_, ?_⟩ hlimit
    · intro hactive
      exact congrArg (· ++ data) (hw.plain hactive)
    · exact fun hactive => hhead _ (hw.tls hactive)
    · intro hd
      refine ⟨(hw.undetected hd).1, fun hstate => hfirst ⟨hstate, ?_⟩⟩
      exact (Bool.not_eq_true' _).mpr hd

omit hgrants in
theorem accept_vc (hpaused : s.conn.paused = false) :
    Ensures config maxRead cond G A accept (fun _ s' => Sends s s') s := by
  refine vc_bind (vc_mono (Sending.op hA .uvAccept trivial nofun s) fun ok s₁ h₁ => ?_)
  split_ifs
  · exact vc_mono (beginTeardown_vc hA s₁) fun _ _ h => h₁.trans h
  · refine vc_invoke_last fun a w hAw ha _ => ⟨?_, h₁.trans (sends_own .readStart trivial a s₁)⟩
    refine hA.step (.closing (.plain s₁ w .readStart a trivial ha fun _ => ?_)) hAw
    exact (congrArg Core.paused h₁.core).trans hpaused

omit hgrants in
theorem onResumeAsync_vc (hb : Base config s) (hw : Wire s) (hlook : s.uv.look = .untouched)
    (hresuming : s.uv.resuming = true) :
    Ensures config maxRead cond G A onResumeAsync (fun _ s' => (Base config s' ∧ Wire s') ∧
      (s'.conn.state = .streaming → s'.conn.paused = false)) s := by
  refine vc_this ?_
  split_ifs with hpaused
  · refine vc_update (fun w hAw => hA.step (.resumes s w hresuming) hAw) ?_
    refine vc_invoke_last fun a w hAw ha _ =>
      ⟨hA.step (.closing (.plain _ w .readStart a trivial ha fun _ => rfl)) hAw, ?_⟩
    have hstart := sends_own .readStart trivial a { s with conn := { s.conn with paused := false } }
    have hwire : Wire { s with conn := { s.conn with paused := false } } :=
      ⟨hw.plain, hw.tls, hw.undetected⟩
    exact ⟨⟨(hb.resumes hpaused.1 hlook).sends hstart, hwire.sends hstart⟩, fun _ => rfl⟩
  · exact ⟨⟨hb, hw⟩, fun hs => Bool.eq_false_iff.mpr fun hp => hpaused ⟨hs, hp⟩⟩

omit hA hgrants in
theorem closingCount_closed {handles : Handle → HandleState} {handle : Handle}
    (h : handles handle = .closing) :
    closingCount handles = closingCount (Function.update handles handle .closed) + 1 := by
  cases handle <;> simp [closingCount, List.countP_cons, Function.update, h] <;> omega

omit hA hgrants in
theorem closed_of_count {handles : Handle → HandleState} (hcount : closingCount handles = 0)
    (hopened : ∀ h, handles h ≠ .opened) (h : Handle) : handles h = .closed := by
  unfold closingCount at hcount
  rw [List.countP_eq_zero] at hcount
  have hne : handles h ≠ .closing := fun heq => hcount h (by cases h <;> decide) (by rw [heq]; rfl)
  cases hh : handles h with
  | opened => exact absurd hh (hopened h)
  | closing => exact absurd hh hne
  | closed => rfl

omit hgrants in
theorem destroy_vc (hb : Base config s) (hw : Wire s) (hclosed : ∀ h, s.uv.handles h = .closed)
    (hlog : .delete ∉ s.uv.log) :
    Ensures config maxRead cond G A destroy (fun _ s' => Base config s' ∧ Wire s') s := by
  have hdelete : ∀ {t : LoopState}, Base config t → Wire t → (∀ h, t.uv.handles h = .closed) →
      .delete ∉ t.uv.log →
      Ensures config maxRead cond G A (invoke .delete)
        (fun _ s' => Base config s' ∧ Wire s') t := by
    intro t htb htw htc htl
    refine vc_invoke_last fun a w hAw _ _ => ⟨hA.step (.deletes t w htc htl) hAw, ⟨?_, ?_⟩⟩
    · refine { htb with
        handles := ⟨htb.handles.opened, htb.handles.closing⟩, undeleted := ?_,
          answers := htb.answers.congr rfl rfl rfl, handshaking := fun hs => ?_,
            streaming := fun hs => ?_ }
      · rintro ⟨h, hne⟩
        exact absurd (htc h) hne
      · have hh := htb.handshaking hs
        refine ⟨{ hh with unstarted := ?_ },
          hh.answered⟩
        change .startConsumer ∉ t.uv.log ++ [.delete]
        rw [List.mem_append, List.mem_singleton]
        exact fun hmem => hmem.elim hh.unstarted nofun
      · obtain ⟨h₁, h₂, h₃, haccepted, request, hsession⟩ := htb.streaming hs
        exact ⟨h₁, h₂, h₃, haccepted.congr rfl rfl rfl rfl, request,
          hsession.append (htb.started h₁).1 (List.append_nil _).symm rfl rfl rfl rfl⟩
    · exact ⟨htw.plain, htw.tls, htw.undetected⟩
  refine vc_this ?_
  cases s.conn.session with
  | none => exact hdelete hb hw hclosed hlog
  | some session =>
    refine vc_invoke fun a w hAw ha _ =>
      ⟨hA.step (.closing (.plain s w (.emitDisconnected ..) a trivial ha nofun)) hAw, ?_⟩
    have hemit := sends_own (.emitDisconnected session s.conn.wireBytes) trivial a s
    exact hdelete (hb.sends hemit) (hw.sends hemit) (fun h => (hemit.closed h).mpr (hclosed h))
      (hemit.rare _ trivial hlog)

omit hgrants in
theorem onHandleClosed_vc {handle : Handle} (hb : Base config s) (hw : Wire s)
    (hclosing : s.uv.handles handle = .closing) :
    Ensures config maxRead cond G A onHandleClosed (fun _ s' => Base config s' ∧ Wire s')
      (takes (.handleClosed handle) s) := by
  have hshut : s.conn.handlesClosing = true := by
    by_contra hopen
    have := (hb.handles.opened (Bool.eq_false_of_not_eq_true hopen)).2 handle
    exact absurd (hclosing.symm.trans this) (by decide)
  obtain ⟨hpending, hopened⟩ := hb.handles.closing hshut
  have hlog := hb.undeleted ⟨handle, by rw [hclosing]; decide⟩
  have hcount := closingCount_closed hclosing
  have hnone : ∀ h, Function.update s.uv.handles handle .closed h ≠ .opened := by
    intro h
    by_cases heq : h = handle
    · rw [heq, Function.update_self]
      decide
    · rw [Function.update_of_ne heq]
      exact hopened h
  refine vc_update (fun w hAw => hA.step (.closing (.counts _ w _)) hAw) (vc_this ?_)
  generalize ht : LoopState.mk _ _ = t
  have hbase : Base config t := by
    rw [← ht]
    refine ⟨⟨fun hf => absurd (hf.symm.trans hshut) Bool.false_ne_true, fun _ => ⟨?_, hnone⟩⟩,
      fun _ => hlog, hb.answers.congr rfl rfl rfl, fun hs => ?_, hb.http, fun hs => ?_, hb.closing,
      hb.shut, fun _ _ => trivial, hb.pushed, hb.started⟩
    · change s.conn.pendingHandleCloses - 1 =
        closingCount (Function.update s.uv.handles handle .closed)
      rw [hpending, hcount, Nat.add_sub_cancel]
    · have hh := hb.handshaking hs
      exact ⟨{ hh with look := rfl }, hh.answered⟩
    · obtain ⟨h₁, h₂, h₃, haccepted, request, hsession⟩ := hb.streaming hs
      exact ⟨h₁, h₂, h₃, haccepted.congr rfl rfl rfl rfl, request,
        hsession.append (hb.started h₁).1 (List.append_nil _).symm rfl rfl rfl rfl⟩
  have hwire : Wire t := by
    rw [← ht]
    exact ⟨hw.plain, hw.tls, hw.undetected⟩
  have htlog : .delete ∉ t.uv.log := by
    rw [← ht]
    exact hlog
  have htshut : t.conn.handlesClosing = true := by
    rw [← ht]
    exact hshut
  split_ifs with hzero hconsumer
  · obtain ⟨htpending, htopened⟩ := hbase.handles.closing htshut
    have hclosed := closed_of_count (htpending.symm.trans hzero) htopened
    refine vc_invoke fun a w hAw ha _ =>
      ⟨hA.step (.closing (.plain t w .joinConsumer a trivial ha nofun)) hAw, ?_⟩
    have hjoin := sends_own .joinConsumer trivial a t
    exact destroy_vc hA (hbase.sends hjoin) (hwire.sends hjoin)
      (fun h => (hjoin.closed h).mpr (hclosed h)) (hjoin.rare _ trivial htlog)
  · obtain ⟨htpending, htopened⟩ := hbase.handles.closing htshut
    exact destroy_vc hA hbase hwire (closed_of_count (htpending.symm.trans hzero) htopened) htlog
  · exact ⟨hbase, hwire⟩

omit hA hgrants in
theorem Closing.consumer {w w' : World} (h : Closing s w s' w') : w'.consumer = w.consumer := by
  cases h with
  | plain op a hop _ =>
    cases op with
    | startConsumer => exact hop.elim
    | _ => rfl
  | _ => rfl

omit hgrants in
theorem onCloseAsync_vc (hb : Base config s) (hw : Wire s) :
    Ensures config maxRead cond G (fun s w => A s w ∧ w.consumer = .finished) onCloseAsync
      (fun _ s' => Base config s' ∧ Wire s') s := by
  have hclosing : Keeps Closing fun s w => A s w ∧ w.consumer = .finished :=
    fun _ _ _ _ h hAw => ⟨hA (.closing h) hAw.1, h.consumer.trans hAw.2⟩
  refine vc_update (fun w hAw =>
    ⟨.marks s w (.inr hAw.2), hA (.marks s w (.inr hAw.2)) hAw.1, hAw.2⟩) ?_
  refine vc_mono (finalizeClose_vc hclosing rfl rfl (.inr fun _ _ h => h.2)) ?_
  rintro _ s' ⟨hcore, hstate, hteardown, hshut, hchannel, hhandles, hclosed, hlog⟩
  have hplaintext : s'.uv.plaintext = s.uv.plaintext := congrArg Core.plaintext hcore
  have hactive : s'.conn.tlsActive = s.conn.tlsActive := congrArg Core.tlsActive hcore
  have hreceived : s'.uv.received = s.uv.received := congrArg Core.received hcore
  have hne : ∀ {st : State}, st ≠ .closing → s'.conn.state ≠ st := fun h heq =>
    h (heq.symm.trans hstate)
  refine ⟨⟨hhandles ⟨hb.handles.opened, hb.handles.closing⟩, ?_,
    hb.answers.congr hplaintext (congrArg Core.late hcore) (congrArg Core.replies hcore),
    fun h => absurd h (hne (by decide)),
    ?_, fun h => absurd h (hne (by decide)), fun _ => ⟨hteardown, fun _ => .inr hshut⟩,
    fun _ _ => hshut, fun h => absurd h (hne (by decide)), ?_, ?_⟩,
    ?_, ?_, ?_⟩
  · rintro ⟨hd, hopen⟩
    exact hlog _ trivial (hb.undeleted ⟨hd, fun heq => hopen ((hclosed hd).mpr heq)⟩)
  · rw [show s'.conn.httpMode = s.conn.httpMode from congrArg Core.httpMode hcore, hplaintext]
    exact hb.http
  · rw [show s'.uv.pushed = s.uv.pushed from congrArg Core.pushed hcore, hplaintext]
    exact hb.pushed
  · rw [show s'.conn.consumerStarted =
      s.conn.consumerStarted from congrArg Core.consumerStarted hcore, hplaintext]
    exact hb.started
  · rw [hactive, hplaintext, hreceived]
    exact hw.plain
  · rw [hactive, hreceived]
    exact hw.tls
  · intro hd
    refine ⟨hactive.trans (hw.undetected ?_).1, fun h => absurd h (hne (by decide))⟩
    exact (congrArg Core.tlsDetected hcore).symm.trans hd

end

end Runtime
end Dicker.Server
