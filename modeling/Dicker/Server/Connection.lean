import Dicker.Lib.Thread
import Dicker.Server.Handshake
import Dicker.Server.Http

/-! The callbacks of a connection on the loop thread (server/connection.cxx,
server/tls_layer.cxx). Each is a thread over the fields the loop owns; libuv, the channel,
the server and wolfSSL are the operations it calls.

wolfSSL pulls ciphertext out of a buffer of its own, so that `ingest` is given what the calls
of one segment answer, in order. Likewise an archive comes as the results of its `next`. -/

namespace Dicker.Server
open Lib Thread

inductive State where
  | handshaking
  | streaming
  | closing
  deriving DecidableEq

inductive Handle where
  | tcp
  | resumeAsync
  | closeAsync
  | outboxAsync
  deriving DecidableEq

inductive HandleState where
  | opened
  | closing
  | closed
  deriving DecidableEq

inductive WriteCallback where
  | reply (teardownAfter : Bool)
  | tls (teardownAfter : Bool)
  | download
  deriving DecidableEq

structure WriteRequest where
  data : Bytes
  callback : WriteCallback
  deriving DecidableEq

inductive SslResult where
  | success (data : Bytes)
  | wantRead
  | wantWrite
  | failure
  deriving DecidableEq

/-- A call of `wolfSSL_accept` or `wolfSSL_read`: its result, and the ciphertext that it
appended to `out_buf`. -/
structure SslAnswer where
  result : SslResult
  sent : Bytes
  deriving DecidableEq

/-- A call of `ArchiveStreamer::next`. -/
structure ArchiveStep where
  chunk : Bytes
  more : Bool
  ok : Bool
  deriving DecidableEq

inductive HttpAction where
  | sendSimple (status : ℕ) (reason contentType body : Bytes) (extra : List (Bytes × Bytes))
  | beginDownload (sessionId dirPath : Bytes)
  deriving DecidableEq

structure TlsLayer where
  handshakeDone : Bool
  outBuf : Bytes
  deriving DecidableEq

/-- The fields that only the loop thread uses, and those it writes before the consumer is
started. `session` is `session_hex_` once there is one. -/
structure Connection where
  state : State
  handshakeBuffer : Bytes
  tls : TlsLayer
  tlsDetected : Bool
  tlsActive : Bool
  protoDecided : Bool
  httpMode : Bool
  httpDone : Bool
  download : Option (List ArchiveStep)
  downloadLast : Bool
  integrityChecks : Bool
  protocolVersion : UInt16
  mode : UInt8
  session : Option Bytes
  wireBytes : ℕ
  paused : Bool
  consumerStarted : Bool
  teardownStarted : Bool
  handlesClosing : Bool
  pendingHandleCloses : ℕ

inductive LoopOp where
  | uvAccept
  | readStart
  | readStop
  | write (request : WriteRequest)
  | isClosing (handle : Handle)
  | close (handle : Handle)
  | push (data : Bytes)
  | bufferedBytes
  | closeChannel
  | tlsInit
  | sslWrite (data : Bytes)
  | makeDecompressor (algo : CompressionAlgo)
  | getOrCreateSink (sessionId : Bytes)
  | recordSession (session : Bytes)
  | emitConnected (session : Bytes) (algo : CompressionAlgo) (integrity tls : Bool)
  | emitDisconnected (session : Bytes) (wireBytes : ℕ)
  | startConsumer
  | dispatchHttp (request : HttpRequest)
  | archiveBegin (dirPath sessionId : Bytes)
  | takeOutbox
  | joinConsumer
  | delete
  deriving DecidableEq

/-- A write answers whether libuv took the request; `sslWrite` whether it succeeded, and what
it appended to `out_buf`; `archiveBegin` what the archive will hand out. -/
abbrev LoopOp.Ans : LoopOp → Type
  | uvAccept | write _ | isClosing _ | tlsInit | makeDecompressor _ | getOrCreateSink _ => Bool
  | bufferedBytes => ℕ
  | sslWrite _ => Bool × Bytes
  | dispatchHttp _ => List HttpAction
  | archiveBegin _ _ => Option (List ArchiveStep)
  | takeOutbox => Bytes
  | _ => Unit

/-- What a callback knows of the channel: whether it has pushed anything yet, and what
`buffered_bytes` has answered since its last push. -/
inductive Look where
  | untouched
  | due
  | seen (buffered : ℕ)

def Look.level : Look → ℕ
  | seen buffered => buffered
  | _ => 0

/-- libuv's own view of the connection, and the history of the run: the bytes of `on_read`,
of `handle_data` and those the channel took, whether it was closed, what this callback knows
of it, whether it is that of `resume_async_`, how often data came while a whole request was
still waiting in `Handshaking`, every handshake reply, and all operations. -/
structure Uv where
  reading : Bool
  writes : List WriteRequest
  handles : Handle → HandleState
  received : Bytes
  plaintext : Bytes
  pushed : Bytes
  channelClosed : Bool
  look : Look
  resuming : Bool
  late : ℕ
  replies : List (HandshakeStatus × Bytes)
  log : List LoopOp

structure LoopState where
  conn : Connection
  uv : Uv

abbrev LoopM := Thread LoopState LoopOp LoopOp.Ans

structure ServerConfig where
  key : Bytes
  channelHighWater : ℕ
  channelLowWater : ℕ
  hasFilter : Bool
  probeBlake3 : Bool

def ServerConfig.modeFor (config : ServerConfig) (version : UInt16) : UInt8 :=
  if version < 2 ∨ !config.hasFilter then 0
  else if config.probeBlake3 then ServerMode.accept.toByte ||| ServerMode.hashFirst.toByte
  else ServerMode.accept.toByte

namespace Connection

def fresh : Connection where
  state := .handshaking
  handshakeBuffer := []
  tls := ⟨false, []⟩
  tlsDetected := false
  tlsActive := false
  protoDecided := false
  httpMode := false
  httpDone := false
  download := none
  downloadLast := false
  integrityChecks := false
  protocolVersion := kMinProtocolVersion
  mode := 0
  session := none
  wireBytes := 0
  paused := false
  consumerStarted := false
  teardownStarted := false
  handlesClosing := false
  pendingHandleCloses := 0

def this : LoopM Connection := get fun s => ret s.conn

def update (f : Connection → Connection) : LoopM Unit := modify fun s => { s with conn := f s.conn }

def invoke (op : LoopOp) : LoopM op.Ans := perform op

/-- History only: nothing reads it. -/
def note (f : Uv → Uv) : LoopM Unit := modify fun s => { s with uv := f s.uv }

/-! ## Teardown -/

def closeHandle (handle : Handle) : LoopM Unit := do
  if !(← invoke (.isClosing handle)) then
    update fun c => { c with pendingHandleCloses := c.pendingHandleCloses + 1 }
    invoke (.close handle)

def finalizeClose : LoopM Unit := do
  if (← this).handlesClosing then
    return
  update fun c => { c with handlesClosing := true }
  closeHandle .tcp
  closeHandle .resumeAsync
  closeHandle .closeAsync
  closeHandle .outboxAsync

def beginTeardown : LoopM Unit := do
  if (← this).teardownStarted then
    return
  update fun c => { c with teardownStarted := true, state := .closing }
  if (← this).consumerStarted then
    invoke .closeChannel
  else
    finalizeClose

/-! ## Writing -/

def tlsWrite (data : Bytes) (teardownAfter : Bool) : LoopM Unit := do
  if !(← invoke (.write ⟨data, .tls teardownAfter⟩)) then
    beginTeardown

def kTlsRecord : ℕ := 16384

def writeAll (teardownAfter : Bool) : List Bytes → LoopM Unit
  | [] => return
  | piece :: pieces => do
    tlsWrite piece teardownAfter
    writeAll teardownAfter pieces

def flushOut (teardownAfter : Bool) : LoopM Unit := do
  writeAll teardownAfter ((← this).tls.outBuf.toChunks kTlsRecord)
  update fun c => { c with tls.outBuf := [] }

def sslWrite (data : Bytes) : LoopM Bool := do
  let (ok, sent) ← invoke (.sslWrite data)
  update fun c => { c with tls.outBuf := c.tls.outBuf ++ sent }
  return ok

def tlsSend (data : Bytes) (teardownAfter : Bool) : LoopM Bool := do
  if !(← sslWrite data) then
    return false
  flushOut teardownAfter
  return true

def encryptAll : List Bytes → LoopM Bool
  | [] => return true
  | piece :: pieces => do
    if !(← sslWrite piece) then
      return false
    encryptAll pieces

def encrypt (data : Bytes) : LoopM (Option Bytes) := do
  if !(← encryptAll (data.toChunks kTlsRecord)) then
    return none
  let out := (← this).tls.outBuf
  update fun c => { c with tls.outBuf := [] }
  return some out

/-! ## HTTP -/

def kMaxHttpHeaderBytes : ℕ := 64 * 1024

def sendHttpSimple (status : ℕ) (reason contentType body : Bytes)
    (extra : List (Bytes × Bytes)) : LoopM Unit := do
  let headers := extra ++ [(ascii "Connection", ascii "close")]
  let resp := httpResponseHeaders status reason contentType body.length headers ++ body
  if (← this).tlsActive then
    match ← encrypt resp with
    | none => beginTeardown
    | some wire => tlsWrite wire true
  else
    tlsWrite resp true

def plainText : Bytes := ascii "text/plain; charset=utf-8"

def sendBadRequest : LoopM Unit :=
  sendHttpSimple 400 (ascii "Bad Request") plainText (ascii "bad request\n") []

/-- `pump` is `pump_download`, for the write that has nothing to send. -/
def downloadWrite (pump : LoopM Unit) (bytes : Bytes) : LoopM Unit := do
  if bytes = [] then
    if (← this).downloadLast then
      beginTeardown
    else
      pump
  else if !(← invoke (.write ⟨bytes, .download⟩)) then
    beginTeardown

def downloadSend (pump : LoopM Unit) (plain : Bytes) : LoopM Unit := do
  if (← this).tlsActive then
    match ← encrypt plain with
    | none => beginTeardown
    | some wire => downloadWrite pump wire
  else
    downloadWrite pump plain

/-- `pump_download` on an archive that has these steps left. After the last of them `next`
has nothing more to give. -/
def pumpArchive : List ArchiveStep → LoopM Unit
  | [] => beginTeardown
  | step :: steps => do
    update fun c => { c with download := some steps }
    if !step.ok then
      beginTeardown
    else if step.chunk = [] then
      beginTeardown
    else
      update fun c => { c with downloadLast := !step.more }
      downloadSend (pumpArchive steps) step.chunk

def pumpDownload : LoopM Unit := do
  match (← this).download with
  | none => beginTeardown
  | some steps => pumpArchive steps

def beginDownloadResponse (sessionId dirPath : Bytes) : LoopM Unit := do
  match ← invoke (.archiveBegin dirPath sessionId) with
  | none =>
    update fun c => { c with download := none }
    sendHttpSimple 500 (ascii "Internal Server Error") plainText (ascii "archive error\n") []
  | some steps =>
    update fun c => { c with download := some steps, downloadLast := false }
    let disposition := ascii "attachment; filename=\"" ++ sessionId ++ ascii ".tar.zst\""
    downloadSend (pumpArchive steps)
      (httpResponseHeaders 200 (ascii "OK") (ascii "application/zstd")
      (-1) [(ascii "Content-Disposition", disposition), (ascii "Connection", ascii "close")])

def act : HttpAction → LoopM Unit
  | .sendSimple status reason contentType body extra =>
    sendHttpSimple status reason contentType body extra
  | .beginDownload sessionId dirPath => beginDownloadResponse sessionId dirPath

def actAll : List HttpAction → LoopM Unit
  | [] => return
  | action :: actions => do
    act action
    actAll actions

def handleHttpData : LoopM Unit := do
  let c ← this
  if c.httpDone then
    return
  let headerEnd := httpHeaderEnd c.handshakeBuffer
  if headerEnd = 0 then
    if kMaxHttpHeaderBytes < c.handshakeBuffer.length then
      update fun c => { c with httpDone := true }
      sendBadRequest
  else
    update fun c => { c with httpDone := true }
    match parseHttpRequest (c.handshakeBuffer.take headerEnd) with
    | none => sendBadRequest
    | some request => actAll (← invoke (.dispatchHttp request))

/-! ## The handshake and the stream -/

def applyBackpressure (config : ServerConfig) : LoopM Unit := do
  if !(← this).paused then
    if config.channelHighWater ≤ (← invoke .bufferedBytes) then
      invoke .readStop
      update fun c => { c with paused := true }

def handshakeReply (status : HandshakeStatus) (c : Connection) : Bytes :=
  kMagic ++ [status.toByte] ++ if status = .ok ∧ 2 ≤ c.protocolVersion then [c.mode] else []

def sendHandshakeReply (status : HandshakeStatus) : LoopM Unit := do
  let c ← this
  let data := handshakeReply status c
  let teardownAfter := status != .ok
  note fun u => { u with replies := u.replies ++ [(status, data)] }
  if c.tlsActive then
    if !(← tlsSend data teardownAfter) then
      beginTeardown
  else if !(← invoke (.write ⟨data, .reply teardownAfter⟩)) then
    beginTeardown

/-- What is left to do once an `Ok` has been handed to the transport. -/
def beginStreaming (config : ServerConfig) (request : HandshakeRequest) : LoopM Unit := do
  let session := sessionHex request.sessionId
  let integrity := hasFlag request.flags .integrityChecks
  update fun c => { c with integrityChecks := integrity, session := some session }
  invoke (.emitConnected session request.algo integrity (← this).tlsActive)
  update fun c => { c with state := .streaming }
  invoke (.recordSession session)
  let leftover := (← this).handshakeBuffer.drop kHandshakeRequestSize
  update fun c => { c with handshakeBuffer := [], consumerStarted := true }
  invoke .startConsumer
  if leftover ≠ [] then
    invoke (.push leftover)
    applyBackpressure config

def decideProtocol (c : Connection) : Connection :=
  if c.protoDecided then c
  else
    let n := min c.handshakeBuffer.length kMagic.length
    if c.handshakeBuffer.take n ≠ kMagic.take n then
      { c with protoDecided := true, httpMode := true }
    else if kMagic.length ≤ c.handshakeBuffer.length then
      { c with protoDecided := true, httpMode := false }
    else c

def answerHandshake (config : ServerConfig) (buffer : Bytes) : LoopM Unit := do
  match parseAndVerifyHandshake config.key buffer with
  | .error status => sendHandshakeReply status
  | .ok request =>
    let decompressor ← invoke (.makeDecompressor request.algo)
    let sink ← invoke (.getOrCreateSink request.sessionId)
    update fun c =>
      { c with protocolVersion := request.version, mode := config.modeFor request.version }
    if !decompressor || !sink then
      sendHandshakeReply .serverError
    else
      sendHandshakeReply .ok
      beginStreaming config request

abbrev appending (c : Connection) (data : Bytes) : Connection :=
  { c with handshakeBuffer := c.handshakeBuffer ++ data }

def handleHandshakeData (config : ServerConfig) (data : Bytes) : LoopM Unit := do
  update fun c => decideProtocol (c.appending data)
  let c ← this
  if !c.protoDecided then
    return
  if c.httpMode then
    handleHttpData
  else if c.handshakeBuffer.length < kHandshakeRequestSize then
    return
  else
    answerHandshake config c.handshakeBuffer

def handleData (config : ServerConfig) (data : Bytes) : LoopM Unit := do
  let c ← this
  note fun u => { u with
    plaintext := u.plaintext ++ data
    late := if c.state = .handshaking ∧ kHandshakeRequestSize ≤ u.plaintext.length then u.late + 1
      else u.late }
  match c.state with
  | .handshaking => handleHandshakeData config data
  | .streaming =>
    update fun c => { c with wireBytes := c.wireBytes + data.length }
    invoke (.push data)
    applyBackpressure config
  | .closing => return

/-- The read loop of `ingest`. -/
def ingestRead (config : ServerConfig) : List SslAnswer → LoopM Unit
  | [] => return
  | answer :: answers => do
    update fun c => { c with tls.outBuf := c.tls.outBuf ++ answer.sent }
    match answer.result with
    | .success data =>
      handleData config data
      ingestRead config answers
    | .wantRead => flushOut false
    | .wantWrite =>
      flushOut false
      ingestRead config answers
    | .failure => beginTeardown

/-- The handshake loop of `ingest`, which goes on to the read loop. -/
def ingestAccept (config : ServerConfig) : List SslAnswer → LoopM Unit
  | [] => return
  | answer :: answers => do
    update fun c => { c with tls.outBuf := c.tls.outBuf ++ answer.sent }
    match answer.result with
    | .success _ =>
      update fun c => { c with tls.handshakeDone := true }
      flushOut false
      ingestRead config answers
    | .wantRead => flushOut false
    | .wantWrite =>
      flushOut false
      ingestAccept config answers
    | .failure => beginTeardown

def ingest (config : ServerConfig) (answers : List SslAnswer) : LoopM Unit := do
  if (← this).tls.handshakeDone then
    ingestRead config answers
  else
    ingestAccept config answers

def detectTls (data : Bytes) (c : Connection) : Connection :=
  if data.head? = some 0x16 then { c with tlsDetected := true, tlsActive := true }
  else { c with tlsDetected := true }

def handlePlainOrTls (config : ServerConfig) (data : Bytes) (answers : List SslAnswer) :
    LoopM Unit := do
  if (← this).tlsActive then
    ingest config answers
  else
    handleData config data

def handleRaw (config : ServerConfig) (data : Bytes) (answers : List SslAnswer) : LoopM Unit := do
  let c ← this
  if c.state = .handshaking ∧ !c.tlsDetected then
    update (detectTls data)
    if (← this).tlsActive then
      if !(← invoke .tlsInit) then
        beginTeardown
      else
        handlePlainOrTls config data answers
    else
      handlePlainOrTls config data answers
  else
    handlePlainOrTls config data answers

/-! ## Callbacks -/

def accept : LoopM Unit := do
  if !(← invoke .uvAccept) then
    beginTeardown
  else
    invoke .readStart

def onWriteDownload (failed : Bool) : LoopM Unit := do
  if failed || (← this).downloadLast then
    beginTeardown
  else
    pumpDownload

def onWrite (failed : Bool) : WriteCallback → LoopM Unit
  | .reply teardownAfter | .tls teardownAfter =>
    if teardownAfter || failed then beginTeardown else return
  | .download => onWriteDownload failed

def onOutboxAsync : LoopM Unit := do
  let pending ← invoke .takeOutbox
  let c ← this
  if pending = [] ∨ c.teardownStarted then
    return
  if c.tlsActive then
    if !(← tlsSend pending false) then
      beginTeardown
  else
    tlsWrite pending false

def onResumeAsync : LoopM Unit := do
  let c ← this
  if c.state = .streaming ∧ c.paused then
    update fun c => { c with paused := false }
    invoke .readStart

def onCloseAsync : LoopM Unit := do
  update fun c => { c with teardownStarted := true, state := .closing }
  finalizeClose

def destroy : LoopM Unit := do
  let c ← this
  match c.session with
  | none => invoke .delete
  | some session =>
    invoke (.emitDisconnected session c.wireBytes)
    invoke .delete

def onHandleClosed : LoopM Unit := do
  update fun c => { c with pendingHandleCloses := c.pendingHandleCloses - 1 }
  let c ← this
  if c.pendingHandleCloses = 0 then
    if c.consumerStarted then
      invoke .joinConsumer
      destroy
    else
      destroy

end Connection
end Dicker.Server
