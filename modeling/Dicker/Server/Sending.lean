import Dicker.Server.Connection

/-! The programs that hand data to the transport. They are built from few steps, so that what holds
of these and of one program after another holds of all of them. -/

namespace Dicker.Server
open Lib Connection

structure WireKind (S : (α : Type) → LoopM α → Prop) : Prop where
  ret : ∀ {α : Type} (a : α), S α (.ret a)
  bind : ∀ {α β : Type} {p : LoopM α} {f : α → LoopM β}, S α p → (∀ a, S β (f a)) → S β (p >>= f)
  this : S Connection this
  write : ∀ (data : Bytes) (callback : WriteCallback), callback ≠ .download →
    S Bool (invoke (.write ⟨data, callback⟩))
  encrypts : ∀ data : Bytes, S (Bool × Bytes) (invoke (.sslWrite data))
  takeOutbox : S Bytes (invoke .takeOutbox)
  assignTls : ∀ {f : Connection → Connection}, (∀ c, ∃ tls, f c = { c with tls := tls }) →
    S Unit (update f)
  teardown : S Unit beginTeardown

namespace WireKind
variable {S : (α : Type) → LoopM α → Prop}

theorem ite {α : Type} (_ : WireKind S) {P : Prop} [Decidable P] {p q : LoopM α} (hp : S α p)
    (hq : S α q) : S α (if P then p else q) := by
  split_ifs
  · exact hp
  · exact hq

variable (hS : WireKind S)
include hS

theorem looks {α : Type} {k : Connection → LoopM α} (hk : ∀ c, S α (k c)) :
    S α (Connection.this >>= k) := hS.bind hS.this hk

theorem tlsWrite (data : Bytes) (teardownAfter : Bool) : S Unit (tlsWrite data teardownAfter) :=
  hS.bind (hS.write data _ nofun) fun _ => hS.ite hS.teardown (hS.ret ())

theorem writeAll (teardownAfter : Bool) (pieces : List Bytes) :
    S Unit (writeAll teardownAfter pieces) := by
  induction pieces with
  | nil => exact hS.ret ()
  | cons piece pieces ih => exact hS.bind (hS.tlsWrite piece teardownAfter) fun _ => ih

theorem flushOut (teardownAfter : Bool) : S Unit (flushOut teardownAfter) :=
  hS.looks fun _ => hS.bind (hS.writeAll teardownAfter _) fun _ => hS.assignTls fun _ => ⟨_, rfl⟩

theorem sslWrite (data : Bytes) : S Bool (sslWrite data) := by
  refine hS.bind (hS.encrypts data) fun _ => ?_
  exact hS.bind (hS.assignTls fun _ => ⟨_, rfl⟩) fun _ => hS.ret _

theorem tlsSend (data : Bytes) (teardownAfter : Bool) : S Bool (tlsSend data teardownAfter) := by
  refine hS.bind (hS.sslWrite data) fun _ => hS.ite (hS.ret _) ?_
  exact hS.bind (hS.flushOut teardownAfter) fun _ => hS.ret _

theorem encryptAll (pieces : List Bytes) : S Bool (encryptAll pieces) := by
  induction pieces with
  | nil => exact hS.ret _
  | cons piece pieces ih => exact hS.bind (hS.sslWrite piece) fun _ => hS.ite (hS.ret _) ih

theorem encrypt (data : Bytes) : S (Option Bytes) (encrypt data) := by
  refine hS.bind (hS.encryptAll _) fun _ => hS.ite (hS.ret _) (hS.looks fun _ => ?_)
  exact hS.bind (hS.assignTls fun _ => ⟨_, rfl⟩) fun _ => hS.ret _

theorem sendHttpSimple (status : ℕ) (reason contentType body : Bytes)
    (extra : List (Bytes × Bytes)) :
    S Unit (sendHttpSimple status reason contentType body extra) := by
  unfold Connection.sendHttpSimple
  dsimp only
  generalize httpResponseHeaders _ _ _ _ _ ++ body = resp
  refine hS.looks fun c => hS.ite ?_ (hS.tlsWrite resp true)
  refine hS.bind (hS.encrypt resp) fun wire => ?_
  cases wire with
  | none => exact hS.teardown
  | some wire => exact hS.tlsWrite wire true

theorem onOutboxAsync : S Unit onOutboxAsync := by
  refine hS.bind (hS.takeOutbox) fun pending => hS.looks fun c => hS.ite (hS.ret ()) ?_
  refine hS.ite ?_ (hS.tlsWrite pending false)
  exact hS.bind (hS.tlsSend pending false) fun _ => hS.ite hS.teardown (hS.ret ())

end WireKind

/-! ## The handshake -/

def LoopOp.Streams : LoopOp → Prop
  | readStop | push _ | bufferedBytes | makeDecompressor _ | getOrCreateSink _ | recordSession _
  | emitConnected .. | startConsumer => True
  | _ => False

structure Onward (c c' : Connection) : Prop where
  httpDone : c'.httpDone = c.httpDone
  protoDecided : c'.protoDecided = c.protoDecided
  httpMode : c'.httpMode = c.httpMode
  state : c'.state = c.state ∨ c'.state ≠ .handshaking

structure StreamKind (S : (α : Type) → LoopM α → Prop) : Prop extends WireKind S where
  streams : ∀ op : LoopOp, op.Streams → S op.Ans (invoke op)
  forward : ∀ {f : Connection → Connection}, (∀ c, Onward c (f c)) → S Unit (update f)
  note : ∀ {f : Uv → Uv}, (∀ u, (f u).log = u.log ∧ (f u).writes = u.writes) → S Unit (note f)

namespace StreamKind
variable {S : (α : Type) → LoopM α → Prop} (hS : StreamKind S) (config : ServerConfig)
include hS

theorem applyBackpressure : S Unit (applyBackpressure config) := by
  refine hS.looks fun c => hS.ite ?_ (hS.ret ())
  refine hS.bind (hS.streams .bufferedBytes trivial) fun buffered => hS.ite ?_ (hS.ret ())
  exact hS.bind (hS.streams .readStop trivial) fun _ => hS.forward fun _ =>
    ⟨rfl, rfl, rfl, .inl rfl⟩

theorem sendHandshakeReply (status : HandshakeStatus) : S Unit (sendHandshakeReply status) := by
  refine hS.looks fun c => hS.bind (hS.note fun _ => ⟨rfl, rfl⟩) fun _ => hS.ite ?_ ?_
  · exact hS.bind (hS.tlsSend _ _) fun _ => hS.ite hS.teardown (hS.ret ())
  · exact hS.bind (hS.write _ _ nofun) fun _ => hS.ite hS.teardown (hS.ret ())

theorem beginStreaming (request : HandshakeRequest) : S Unit (beginStreaming config request) := by
  refine hS.bind (hS.forward fun c => ⟨rfl, rfl, rfl, .inl rfl⟩) fun _ => hS.looks fun c => ?_
  refine hS.bind (hS.streams (.emitConnected ..) trivial) fun _ => ?_
  refine hS.bind (hS.forward fun c => ⟨rfl, rfl, rfl, .inr nofun⟩) fun _ => ?_
  refine hS.bind (hS.streams (.recordSession _) trivial) fun _ => hS.looks fun c => ?_
  refine hS.bind (hS.forward fun c => ⟨rfl, rfl, rfl, .inl rfl⟩) fun _ => ?_
  refine hS.bind (hS.streams .startConsumer trivial) fun _ => ?_
  exact hS.ite (hS.bind (hS.streams (.push _) trivial) fun _ => hS.applyBackpressure config)
    (hS.ret ())

theorem answerHandshake (buffer : Bytes) : S Unit (answerHandshake config buffer) := by
  unfold Connection.answerHandshake
  cases parseAndVerifyHandshake config.key buffer with
  | error status => exact hS.sendHandshakeReply status
  | ok request =>
    refine hS.bind (hS.streams (.makeDecompressor _) trivial) fun decompressor => ?_
    refine hS.bind (hS.streams (.getOrCreateSink _) trivial) fun sink => ?_
    refine hS.bind (hS.forward fun c => ⟨rfl, rfl, rfl, .inl rfl⟩) fun _ =>
      hS.ite (hS.sendHandshakeReply _) ?_
    exact hS.bind (hS.sendHandshakeReply _) fun _ => hS.beginStreaming config request

end StreamKind

/-! ## Responses and downloads -/

def LoopOp.Sends : LoopOp → Prop
  | write _ | sslWrite _ | archiveBegin .. | takeOutbox => True
  | _ => False

structure SendingKind (S : (α : Type) → LoopM α → Prop) : Prop where
  ret : ∀ {α : Type} (a : α), S α (.ret a)
  bind : ∀ {α β : Type} {p : LoopM α} {f : α → LoopM β}, S α p → (∀ a, S β (f a)) → S β (p >>= f)
  this : S Connection this
  op : ∀ op : LoopOp, op.Sends → S op.Ans (invoke op)
  assign : ∀ {f : Connection → Connection}, (∀ c, ∃ tls download downloadLast, f c = { c with
      tls := tls
      download := download
      downloadLast := downloadLast }) → S Unit (update f)
  teardown : S Unit beginTeardown

namespace SendingKind
variable {S : (α : Type) → LoopM α → Prop}

theorem wire (hS : SendingKind S) : WireKind S where
  ret := hS.ret
  bind := hS.bind
  this := hS.this
  write data callback _ := hS.op (.write ⟨data, callback⟩) trivial
  encrypts data := hS.op (.sslWrite data) trivial
  takeOutbox := hS.op .takeOutbox trivial
  assignTls hf := hS.assign fun c => by
    obtain ⟨tls, heq⟩ := hf c
    exact ⟨tls, c.download, c.downloadLast, heq⟩
  teardown := hS.teardown

theorem ite {α : Type} (_ : SendingKind S) {P : Prop} [Decidable P] {p q : LoopM α} (hp : S α p)
    (hq : S α q) : S α (if P then p else q) := by
  split_ifs
  · exact hp
  · exact hq

variable (hS : SendingKind S)
include hS

theorem looks {α : Type} {k : Connection → LoopM α} (hk : ∀ c, S α (k c)) :
    S α (Connection.this >>= k) := hS.bind hS.this hk

theorem downloadWrite {pump : LoopM Unit} (hpump : S Unit pump) (bytes : Bytes) :
    S Unit (downloadWrite pump bytes) := by
  unfold Connection.downloadWrite
  refine hS.ite (hS.looks fun c => hS.ite hS.teardown hpump) ?_
  exact hS.bind (hS.op (.write _) trivial) fun _ => hS.ite hS.teardown (hS.ret ())

theorem downloadSend {pump : LoopM Unit} (hpump : S Unit pump) (plain : Bytes) :
    S Unit (downloadSend pump plain) := by
  refine hS.looks fun c => hS.ite ?_ (hS.downloadWrite hpump plain)
  refine hS.bind (hS.wire.encrypt plain) fun wire => ?_
  cases wire with
  | none => exact hS.teardown
  | some wire => exact hS.downloadWrite hpump wire

theorem pumpArchive (steps : List ArchiveStep) : S Unit (pumpArchive steps) := by
  induction steps with
  | nil => exact hS.teardown
  | cons step steps ih =>
    refine hS.bind (hS.assign fun _ => ⟨_, _, _, rfl⟩) fun _ =>
      hS.ite hS.teardown (hS.ite hS.teardown ?_)
    exact hS.bind (hS.assign fun _ => ⟨_, _, _, rfl⟩) fun _ => hS.downloadSend ih step.chunk

theorem pumpDownload : S Unit pumpDownload := by
  refine hS.looks fun c => ?_
  cases c.download with
  | none => exact hS.teardown
  | some steps => exact hS.pumpArchive steps

theorem beginDownloadResponse (sessionId dirPath : Bytes) :
    S Unit (beginDownloadResponse sessionId dirPath) := by
  refine hS.bind (hS.op (.archiveBegin dirPath sessionId) trivial) fun archive => ?_
  cases archive with
  | none =>
    exact hS.bind (hS.assign fun _ => ⟨_, _, _, rfl⟩) fun _ => hS.wire.sendHttpSimple _ _ _ _ _
  | some steps =>
    refine hS.bind (hS.assign fun _ => ⟨_, _, _, rfl⟩) fun _ => ?_
    exact hS.downloadSend (hS.pumpArchive steps) _

theorem actAll (actions : List HttpAction) : S Unit (actAll actions) := by
  induction actions with
  | nil => exact hS.ret ()
  | cons action actions ih =>
    refine hS.bind ?_ fun _ => ih
    cases action with
    | sendSimple => exact hS.wire.sendHttpSimple _ _ _ _ _
    | beginDownload => exact hS.beginDownloadResponse _ _

theorem onWrite (failed : Bool) (callback : WriteCallback) : S Unit (onWrite failed callback) := by
  cases callback with
  | reply teardownAfter => exact hS.ite hS.teardown (hS.ret ())
  | tls teardownAfter => exact hS.ite hS.teardown (hS.ret ())
  | download => exact hS.looks fun c => hS.ite hS.teardown hS.pumpDownload

end SendingKind

/-! ## Incoming data -/

structure IncomingKind (S : (α : Type) → LoopM α → Prop) : Prop extends SendingKind S where
  every : ∀ op : LoopOp, (∀ request, op ≠ .dispatchHttp request) → op ≠ .joinConsumer →
    S op.Ans (invoke op)
  update : ∀ {f : Connection → Connection}, (∀ c, (f c).httpDone = c.httpDone) → S Unit (update f)
  note : ∀ {f : Uv → Uv}, (∀ u, (f u).log = u.log) → S Unit (note f)
  http : S Unit handleHttpData

namespace IncomingKind
variable {S : (α : Type) → LoopM α → Prop}

theorem stream (hS : IncomingKind S) : StreamKind S where
  toWireKind := hS.toSendingKind.wire
  streams op hop := by
    refine hS.every op ?_ ?_
    · rintro request rfl
      exact hop
    · rintro rfl
      exact hop
  forward hf := hS.update fun c => (hf c).httpDone
  note hf := hS.note fun u => (hf u).1

variable (hS : IncomingKind S) (config : ServerConfig)
include hS

theorem handleHandshakeData (data : Bytes) : S Unit (handleHandshakeData config data) := by
  have hkeeps : ∀ c, (decideProtocol c).httpDone = c.httpDone := by
    intro c
    unfold decideProtocol
    dsimp only
    split_ifs <;> rfl
  refine hS.bind (hS.update fun c => hkeeps _) fun _ => hS.looks fun c => hS.ite (hS.ret ()) ?_
  exact hS.ite hS.http (hS.ite (hS.ret ()) (hS.stream.answerHandshake config _))

theorem handleData (data : Bytes) : S Unit (handleData config data) := by
  refine hS.looks fun c => hS.bind (hS.note fun _ => rfl) fun _ => ?_
  cases c.state with
  | handshaking => exact hS.handleHandshakeData config data
  | streaming =>
    refine hS.bind (hS.update fun _ => rfl) fun _ => ?_
    exact hS.bind (hS.every (.push data) nofun nofun) fun _ => hS.stream.applyBackpressure config
  | closing => exact hS.ret ()

theorem ingestRead (answers : List SslAnswer) : S Unit (ingestRead config answers) := by
  induction answers with
  | nil => exact hS.ret ()
  | cons answer answers ih =>
    refine hS.bind (hS.update fun _ => rfl) fun _ => ?_
    cases answer.result with
    | success data => exact hS.bind (hS.handleData config data) fun _ => ih
    | wantRead => exact hS.stream.flushOut false
    | wantWrite => exact hS.bind (hS.stream.flushOut false) fun _ => ih
    | failure => exact hS.teardown

theorem ingestAccept (answers : List SslAnswer) : S Unit (ingestAccept config answers) := by
  induction answers with
  | nil => exact hS.ret ()
  | cons answer answers ih =>
    refine hS.bind (hS.update fun _ => rfl) fun _ => ?_
    cases answer.result with
    | success _ =>
      refine hS.bind (hS.update fun _ => rfl) fun _ => ?_
      exact hS.bind (hS.stream.flushOut false) fun _ => hS.ingestRead config answers
    | wantRead => exact hS.stream.flushOut false
    | wantWrite => exact hS.bind (hS.stream.flushOut false) fun _ => ih
    | failure => exact hS.teardown

theorem handlePlainOrTls (data : Bytes) (answers : List SslAnswer) :
    S Unit (handlePlainOrTls config data answers) := by
  refine hS.looks fun c => hS.ite (hS.looks fun c => ?_) (hS.handleData config data)
  exact hS.ite (hS.ingestRead config answers) (hS.ingestAccept config answers)

theorem handleRaw (data : Bytes) (answers : List SslAnswer) :
    S Unit (handleRaw config data answers) := by
  have hdetect : ∀ c, (detectTls data c).httpDone = c.httpDone := by
    intro c
    unfold detectTls
    split_ifs <;> rfl
  refine hS.looks fun c => hS.ite ?_ (hS.handlePlainOrTls config data answers)
  refine hS.bind (hS.update hdetect) fun _ => hS.looks fun c =>
    hS.ite ?_ (hS.handlePlainOrTls config data answers)
  exact hS.bind (hS.every .tlsInit nofun nofun) fun _ =>
    hS.ite hS.teardown (hS.handlePlainOrTls config data answers)

end IncomingKind
end Dicker.Server
