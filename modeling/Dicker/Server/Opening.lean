import Dicker.Server.RunInvariant

/-! Executions of the opening of a plain connection: accepted, then read from until its
request is complete and answered. -/

namespace Dicker.Server
open Lib

def LoopOp.Succeeds : (op : LoopOp) → op.Ans → Prop
  | write _, taken => taken = true
  | sslWrite _, answer => answer.1 = true
  | makeDecompressor _, made | getOrCreateSink _, made => made = true
  | _, _ => True

namespace Runtime
open Host Connection Relation

abbrev Lenient (cond : LoopCond) : Prop := ∀ op s a, LoopOp.Succeeds op a → cond op s a

theorem reaches_of_restricted {config : ServerConfig} {maxRead : ℕ} {cond : LoopCond}
    {c c' : LoopRun} (h : ReflTransGen (hostIf config maxRead cond).Step c c') :
    Reaches config maxRead c c' :=
  ReflTransGen.mono (fun _ _ (hs : (hostIf config maxRead cond).Step _ _) => hs.unrestrict) c c' h

variable {data : Bytes}

section
variable {config : ServerConfig} {maxRead : ℕ} {cond : LoopCond}
  {α : Type} {s s' : LoopState} {w w' : World} {a : α}

variable (config maxRead cond) in
abbrev Runs (p : LoopM α) (s : LoopState) (w : World) (a : α) (s' : LoopState)
    (w' : World) : Prop :=
  (hostIf config maxRead cond).Exec p s w a s' w'

theorem exec_this {k : Connection → LoopM α} (h : Runs config maxRead cond (k s.conn) s w a s' w') :
    Runs config maxRead cond (this >>= k) s w a s' w' := .get h

theorem exec_update {f : Connection → Connection} {k : Unit → LoopM α}
    (h : Runs config maxRead cond (k ()) { s with conn := f s.conn } w a s' w') :
    Runs config maxRead cond (update f >>= k) s w a s' w' := .get (.set h)

theorem exec_note {f : Uv → Uv} {k : Unit → LoopM α}
    (h : Runs config maxRead cond (k ()) { s with uv := f s.uv } w a s' w') :
    Runs config maxRead cond (note f >>= k) s w a s' w' := .get (.set h)

theorem exec_invoke {op : LoopOp} {k : op.Ans → LoopM α} (b : op.Ans) (hb : allowed op s w b)
    (hcond : cond op s b)
    (h : Runs config maxRead cond (k b) (own op b s) (shared op b w) a s' w') :
    Runs config maxRead cond (invoke op >>= k) s w a s' w' := .call b ⟨hb, hcond⟩ h

theorem exec_invoke_last (op : LoopOp) (b : op.Ans) (hb : allowed op s w b) (hcond : cond op s b) :
    Runs config maxRead cond (invoke op) s w b (own op b s) (shared op b w) :=
  .call b ⟨hb, hcond⟩ (.ret _ _ _)

/-! ## Reading -/

def buffering (s : LoopState) (data : Bytes) : LoopState where
  conn := decideProtocol (s.conn.appending data)
  uv := { s.uv with plaintext := s.uv.plaintext ++ data, late := lateAfter s }

theorem exec_handshakeData (hstate : s.conn.state = .handshaking)
    (hdecided : (buffering s data).conn.protoDecided = true)
    (hhttp : (buffering s data).conn.httpMode = false)
    (hsize : kHandshakeRequestSize ≤ (s.conn.handshakeBuffer ++ data).length)
    (h : Runs config maxRead cond (answerHandshake config (s.conn.handshakeBuffer ++ data))
      (buffering s data) w () s' w') :
    Runs config maxRead cond (handleData config data) s w () s' w' := by
  have hbuffer : (buffering s data).conn.handshakeBuffer = s.conn.handshakeBuffer ++ data := by
    unfold buffering
    rw [decideProtocol_eq]
  refine exec_this (exec_note ?_)
  rw [hstate]
  refine exec_update (exec_this ?_)
  have hlate : lateAfter s = if State.handshaking = .handshaking ∧
      kHandshakeRequestSize ≤ s.uv.plaintext.length then s.uv.late + 1 else s.uv.late := by
    unfold lateAfter
    rw [hstate]
  rw [← hlate]
  change Runs config maxRead cond (if !(buffering s data).conn.protoDecided then _ else
    if (buffering s data).conn.httpMode then _ else
    if (buffering s data).conn.handshakeBuffer.length < kHandshakeRequestSize then _ else
      answerHandshake config (buffering s data).conn.handshakeBuffer) (buffering s data) w () s' w'
  rw [hdecided, hhttp, hbuffer, if_neg (Nat.not_lt.mpr hsize)]
  exact h

variable {answers : List SslAnswer} {buffer : Bytes} {request : HandshakeRequest}

theorem exec_first (hstate : s.conn.state = .handshaking) (hdetected : s.conn.tlsDetected = false)
    (hactive : s.conn.tlsActive = false) (hhello : data.head? ≠ some 0x16)
    (h : Runs config maxRead cond (handleData config data)
      { s with conn := { s.conn with tlsDetected := true } } w () s' w') :
    Runs config maxRead cond (handleRaw config data answers) s w () s' w' := by
  have hdetect : detectTls data s.conn = { s.conn with tlsDetected := true } := if_neg hhello
  refine exec_this ?_
  rw [if_pos ⟨hstate, by rw [hdetected]; rfl⟩]
  refine exec_update (exec_this ?_)
  rw [hdetect]
  have hplain : ¬s.conn.tlsActive = true := by
    rw [hactive]
    exact Bool.false_ne_true
  change Runs config maxRead cond (if s.conn.tlsActive = true then _ else _) _ _ _ _ _
  rw [if_neg hplain]
  refine exec_this ?_
  change Runs config maxRead cond (if s.conn.tlsActive = true then _ else _) _ _ _ _ _
  rw [if_neg hplain]
  exact h

theorem exec_next (hdetected : s.conn.tlsDetected = true) (hactive : s.conn.tlsActive = false)
    (h : Runs config maxRead cond (handleData config data) s w () s' w') :
    Runs config maxRead cond (handleRaw config data answers) s w () s' w' := by
  refine exec_this ?_
  rw [if_neg fun hf => absurd hf.2 (by rw [hdetected]; decide)]
  refine exec_this ?_
  rw [hactive, if_neg Bool.false_ne_true]
  exact h

theorem decideProtocol_magic {c : Connection} (hhttp : c.httpMode = false)
    (hmagic : c.handshakeBuffer.take kMagic.length = kMagic) :
    decideProtocol c = { c with protoDecided := true } := by
  have hlen : kMagic.length ≤ c.handshakeBuffer.length := by
    have h := congrArg List.length hmagic
    rw [List.length_take] at h
    omega
  have hmatch : ¬c.handshakeBuffer.take (min c.handshakeBuffer.length kMagic.length) ≠
      kMagic.take (min c.handshakeBuffer.length kMagic.length) := by
    rw [Nat.min_eq_right hlen, hmagic, List.take_length]
    exact not_not.mpr rfl
  unfold decideProtocol
  dsimp only
  rw [if_neg hmatch, if_pos hlen]
  split_ifs with hdecided
  · rw [← hdecided]
  · rw [← hhttp]

structure Refused (buffer : Bytes) (s : LoopState) : Prop where
  state : s.conn.state = .handshaking
  detected : s.conn.tlsDetected = true
  plain : s.conn.tlsActive = false
  http : s.conn.httpMode = false
  whole : s.conn.handshakeBuffer = buffer
  magic : buffer.take kMagic.length = kMagic
  size : kHandshakeRequestSize ≤ buffer.length

theorem Refused.magic_append (hs : Refused buffer s) (data : Bytes) :
    (buffer ++ data).take kMagic.length = kMagic := by
  have hsize : kMagic.length ≤ kHandshakeRequestSize := by decide
  rw [List.take_append_of_le_length (hsize.trans hs.size), hs.magic]

theorem Refused.buffering (hs : Refused buffer s) (data : Bytes) :
    (buffering s data).conn = { s.conn with
      handshakeBuffer := buffer ++ data, protoDecided := true } := by
  unfold Runtime.buffering appending
  rw [hs.whole]
  exact decideProtocol_magic hs.http (hs.magic_append data)

theorem Refused.exec (hs : Refused buffer s)
    (h : Runs config maxRead cond (answerHandshake config (buffer ++ data))
      (Runtime.buffering s data) w () s' w') :
    Runs config maxRead cond (handleRaw config data answers) s w () s' w' := by
  have hbuffering := hs.buffering data
  refine exec_next hs.detected hs.plain (exec_handshakeData hs.state ?_ ?_ ?_ ?_)
  · exact congrArg Connection.protoDecided hbuffering
  · exact (congrArg Connection.httpMode hbuffering).trans hs.http
  · rw [hs.whole, List.length_append]
    exact Nat.le_add_right_of_le hs.size
  · rw [hs.whole]
    exact h

/-! ## Answering -/

theorem exec_rejected {status : HandshakeStatus}
    (hparse : parseAndVerifyHandshake config.key buffer = .error status)
    (h : Runs config maxRead cond (sendHandshakeReply status) s w () s' w') :
    Runs config maxRead cond (answerHandshake config buffer) s w () s' w' := by
  unfold answerHandshake
  rw [hparse]
  exact h

def greeting (config : ServerConfig) (request : HandshakeRequest) (s : LoopState) : LoopState where
  conn := { s.conn with
    protocolVersion := request.version
    mode := config.modeFor request.version }
  uv := { s.uv with
    log := s.uv.log ++ [.makeDecompressor request.algo] ++ [.getOrCreateSink request.sessionId] }

theorem exec_ok (hcond : Lenient cond)
    (hparse : parseAndVerifyHandshake config.key buffer = .ok request) {t : LoopState} {v : World}
    (h : Runs config maxRead cond (sendHandshakeReply .ok) (greeting config request s) w () t v)
    (hleft : Runs config maxRead cond
      (if t.conn.handshakeBuffer.drop kHandshakeRequestSize ≠ [] then
        invoke (.push (t.conn.handshakeBuffer.drop kHandshakeRequestSize)) >>= fun _ =>
          applyBackpressure config
        else .ret ()) (streaming request t) { v with consumer := .between true } () s' w') :
    Runs config maxRead cond (answerHandshake config buffer) s w () s' w' := by
  unfold answerHandshake
  rw [hparse]
  refine exec_invoke true trivial (hcond (.makeDecompressor _) _ _ rfl) ?_
  refine exec_invoke true trivial (hcond (.getOrCreateSink _) _ _ rfl) (exec_update ?_)
  refine h.bind ?_
  refine exec_update (exec_this ?_)
  refine exec_invoke () trivial (hcond (.emitConnected ..) _ _ trivial) (exec_update ?_)
  refine exec_invoke () trivial (hcond (.recordSession _) _ _ trivial) (exec_this (exec_update ?_))
  exact exec_invoke () trivial (hcond .startConsumer _ _ trivial) hleft

theorem exec_accepted (hcond : Lenient cond)
    (hparse : parseAndVerifyHandshake config.key buffer = .ok request)
    (hleft : s'.conn.handshakeBuffer.drop kHandshakeRequestSize = [])
    (h : Runs config maxRead cond (sendHandshakeReply .ok) (greeting config request s) w () s' w') :
    Runs config maxRead cond (answerHandshake config buffer) s w () (streaming request s')
      { w' with consumer := .between true } := by
  refine exec_ok hcond hparse h ?_
  rw [if_neg (not_not.mpr hleft)]
  exact .ret _ _ _

theorem exec_reply (status : HandshakeStatus) (hactive : s.conn.tlsActive = false)
    (hcond : cond (.write ⟨handshakeReply status s.conn, .reply (status != .ok)⟩)
      (s.reply status) true) :
    Runs config maxRead cond (sendHandshakeReply status) s w ()
      (own (.write ⟨handshakeReply status s.conn, .reply (status != .ok)⟩) true
        (s.reply status)) w := by
  refine exec_this (exec_note ?_)
  rw [hactive, if_neg Bool.false_ne_true]
  exact exec_invoke true trivial hcond (.ret _ _ _)

def replying (status : HandshakeStatus) (s : LoopState) : LoopState :=
  own (.write ⟨handshakeReply status s.conn, .reply (status != .ok)⟩) true (s.reply status)

theorem Refused.again (hs : Refused buffer s) (status : HandshakeStatus) {c : Connection} {u : Uv}
    (hc : c = { (Runtime.buffering s data).conn with
      protocolVersion := c.protocolVersion, mode := c.mode }) :
    Refused (buffer ++ data) (replying status ⟨c, u⟩) := by
  have hbuffering := hs.buffering data
  rw [hbuffering] at hc
  refine ⟨?_, ?_, ?_, ?_, ?_, ?_, ?_⟩
  · exact (congrArg Connection.state hc).trans hs.state
  · exact (congrArg Connection.tlsDetected hc).trans hs.detected
  · exact (congrArg Connection.tlsActive hc).trans hs.plain
  · exact (congrArg Connection.httpMode hc).trans hs.http
  · exact congrArg Connection.handshakeBuffer hc
  · exact hs.magic_append data
  · rw [List.length_append]
    exact Nat.le_add_right_of_le hs.size

/-! ## Teardown -/

def shutHandle (handle : Handle) (s : LoopState) : LoopState where
  conn := { s.conn with pendingHandleCloses := s.conn.pendingHandleCloses + 1 }
  uv := { s.uv with
    handles := Function.update s.uv.handles handle .closing
    reading := s.uv.reading && handle != .tcp
    log := s.uv.log ++ [.isClosing handle] ++ [.close handle] }

theorem exec_closeHandle (hcond : Lenient cond) {handle : Handle}
    (hopened : s.uv.handles handle = .opened) :
    Runs config maxRead cond (closeHandle handle) s w () (shutHandle handle s) w := by
  refine exec_invoke false ?_ (hcond (.isClosing _) _ _ trivial) (exec_update ?_)
  · change false = decide (s.uv.handles handle ≠ .opened)
    rw [decide_eq_false (not_not.mpr hopened)]
  · exact exec_invoke_last (.close handle) () trivial (hcond (.close _) _ _ trivial)

def shut (s : LoopState) : LoopState :=
  shutHandle .outboxAsync (shutHandle .closeAsync (shutHandle .resumeAsync (shutHandle .tcp
    { s with conn := { s.conn with handlesClosing := true } })))

theorem exec_finalizeClose (hcond : Lenient cond) (hclosing : s.conn.handlesClosing = false)
    (hopened : ∀ h, s.uv.handles h = .opened) :
    Runs config maxRead cond finalizeClose s w () (shut s) w := by
  refine exec_this ?_
  rw [if_neg (Bool.eq_false_iff.mp hclosing)]
  refine exec_update (Exec.bind (exec_closeHandle hcond ?_) (Exec.bind (exec_closeHandle hcond ?_)
    (Exec.bind (exec_closeHandle hcond ?_) (exec_closeHandle hcond ?_))))
  · exact hopened .tcp
  · exact hopened .resumeAsync
  · exact hopened .closeAsync
  · exact hopened .outboxAsync

def torn (s : LoopState) : LoopState :=
  { s with conn := { s.conn with teardownStarted := true, state := .closing } }

theorem exec_beginTeardown (hcond : Lenient cond) (hup : s.conn.teardownStarted = false)
    (hconsumer : s.conn.consumerStarted = true) :
    Runs config maxRead cond beginTeardown s w () (own .closeChannel () (torn s))
      { w with channel := w.channel.close } := by
  refine exec_this ?_
  rw [if_neg (Bool.eq_false_iff.mp hup)]
  refine exec_update (exec_this ?_)
  rw [if_pos hconsumer]
  exact exec_invoke_last .closeChannel () trivial (hcond .closeChannel _ _ trivial)

theorem exec_beginTeardown_early (hcond : Lenient cond) (hup : s.conn.teardownStarted = false)
    (hconsumer : s.conn.consumerStarted = false) (hclosing : s.conn.handlesClosing = false)
    (hopened : ∀ h, s.uv.handles h = .opened) :
    Runs config maxRead cond beginTeardown s w () (shut (torn s)) w := by
  refine exec_this ?_
  rw [if_neg (Bool.eq_false_iff.mp hup)]
  refine exec_update (exec_this ?_)
  rw [if_neg (Bool.eq_false_iff.mp hconsumer)]
  exact exec_finalizeClose hcond hclosing hopened

/-! ## From the start -/

def opened : LoopState := own .readStart () (own .uvAccept true ⟨.fresh, freshUv⟩)

theorem exec_accept (hcond : Lenient cond) :
    Runs config maxRead cond accept ⟨.fresh, freshUv⟩ (freshWorld config) () opened
      (freshWorld config) :=
  exec_invoke true trivial (hcond .uvAccept _ _ trivial)
    (exec_invoke_last .readStart () trivial (hcond .readStart _ _ trivial))

theorem accept_run (hcond : Lenient cond) :
    ReflTransGen (hostIf config maxRead cond).Step (init config)
      ⟨none, opened, freshWorld config⟩ :=
  (exec_accept hcond).steps

def whole (request : Bytes) : LoopState where
  conn := { Connection.fresh with
    tlsDetected := true
    handshakeBuffer := request
    protoDecided := true }
  uv := { opened.uv with received := request, plaintext := request }

theorem head_of_magic {request : Bytes} (hmagic : request.take kMagic.length = kMagic) :
    request.head? = some 0x44 := by
  have htake : (request.take kMagic.length).head? = request.head? :=
    List.head?_take.trans (if_neg (by decide))
  rw [← htake, hmagic]
  rfl

theorem first_exec {request : Bytes} (hsize : kHandshakeRequestSize ≤ request.length)
    (hmagic : request.take kMagic.length = kMagic)
    (h : Runs config maxRead cond (answerHandshake config request) (whole request)
      (freshWorld config) () s' w') :
    Runs config maxRead cond (handleRaw config request []) (takes (.read request []) opened)
      (freshWorld config) () s' w' := by
  refine exec_first rfl rfl rfl (by rw [head_of_magic hmagic]; decide) ?_
  have hbuffering : buffering { takes (.read request []) opened with conn := { Connection.fresh with
      tlsDetected := true } } request = whole request := by
    unfold buffering
    rw [decideProtocol_magic rfl hmagic]
    rfl
  refine exec_handshakeData rfl ?_ ?_ hsize ?_
  · exact congrArg (fun t => t.conn.protoDecided) hbuffering
  · exact congrArg (fun t => t.conn.httpMode) hbuffering
  · exact hbuffering ▸ h

theorem first_run (hcond : Lenient cond) {request : Bytes}
    (hsize : kHandshakeRequestSize ≤ request.length) (hmagic : request.take kMagic.length = kMagic)
    (h : Runs config maxRead cond (answerHandshake config request) (whole request)
      (freshWorld config)
      () s' w') : ReflTransGen (hostIf config maxRead cond).Step (init config) ⟨none, s', w'⟩ := by
  have hne : request ≠ [] := by
    rintro rfl
    exact absurd hsize (by decide)
  have hfires : (hostIf config maxRead cond).fires (.read request []) opened (freshWorld config) :=
    ⟨rfl, rfl, hne⟩
  exact (accept_run hcond).trans (Exec.event hfires (first_exec hsize hmagic h))

def established (config : ServerConfig) (bytes : Bytes) (request : HandshakeRequest) : LoopState :=
  let g := greeting config request (whole bytes)
  streaming request (own (.write ⟨handshakeReply .ok g.conn, .reply false⟩) true (g.reply .ok))

variable (config maxRead) in
theorem established_run (hcond : Lenient cond) {bytes : Bytes}
    (hlen : bytes.length = kHandshakeRequestSize)
    (hparse : parseAndVerifyHandshake config.key bytes = .ok request) :
    ReflTransGen (hostIf config maxRead cond).Step (init config)
      ⟨none, established config bytes request, { freshWorld config with
        consumer := .between true }⟩ := by
  refine first_run hcond hlen.ge (parse_magic hparse) (exec_accepted hcond hparse ?_ ?_)
  · exact List.drop_eq_nil_of_le hlen.le
  · exact exec_reply .ok rfl (hcond (.write _) _ _ rfl)

def plainRequest (key : Bytes) : Bytes :=
  signed key (kMagic ++ [1, 0, 0, 1] ++ List.replicate kSessionIdSize 0)

def plainHandshake : HandshakeRequest := ⟨1, 0, .lz4, List.replicate kSessionIdSize 0⟩

theorem plainRequest_length (key : Bytes) : (plainRequest key).length = kHandshakeRequestSize :=
  signed_length key rfl

theorem parse_plainRequest (key : Bytes) :
    parseAndVerifyHandshake key (plainRequest key) = .ok plainHandshake := by
  have h : parseAndVerifyHandshake key (plainRequest key ++ []) = .ok plainHandshake :=
    parse_signed key [] rfl rfl ⟨by decide, by decide⟩ rfl (.inl rfl)
  rwa [List.append_nil] at h

variable (config maxRead) in
theorem plain_run (hcond : Lenient cond) :
    ReflTransGen (hostIf config maxRead cond).Step (init config)
      ⟨none, established config (plainRequest config.key) plainHandshake,
        { freshWorld config with consumer := .between true }⟩ :=
  established_run config maxRead hcond (plainRequest_length _) (parse_plainRequest _)

theorem plain_reaches (config : ServerConfig) (maxRead : ℕ) : Reaches config maxRead (init config)
    ⟨none, established config (plainRequest config.key) plainHandshake,
      { freshWorld config with consumer := .between true }⟩ := by
  have hcond : ∀ (op : LoopOp) (_ : LoopState) (a : op.Ans), LoopOp.Succeeds op a → True :=
    fun _ _ _ _ => trivial
  exact reaches_of_restricted (plain_run config maxRead hcond)

/-! ## Streaming -/

structure Live (s : LoopState) : Prop where
  state : s.conn.state = .streaming
  detected : s.conn.tlsDetected = true
  plain : s.conn.tlsActive = false
  opened : ∀ h, s.uv.handles h = .opened

theorem established_live (bytes : Bytes) (request : HandshakeRequest) :
    Live (established config bytes request) := ⟨rfl, rfl, rfl, fun _ => rfl⟩

def fedState (data : Bytes) (s : LoopState) : LoopState :=
  own (.push data) () { s with
    conn := { s.conn with wireBytes := s.conn.wireBytes + data.length }
    uv := { s.uv with plaintext := s.uv.plaintext ++ data, late := lateAfter s } }

theorem fedState_uv (data : Bytes) (s : LoopState) :
    (fedState data s).uv.reading = s.uv.reading ∧ (fedState data s).uv.handles = s.uv.handles := by
  unfold fedState own uvOwn
  dsimp only
  split_ifs <;> exact ⟨rfl, rfl⟩

theorem exec_streamData (hstate : s.conn.state = .streaming) (hcond : Lenient cond)
    (h : Runs config maxRead cond (applyBackpressure config) (fedState data s)
      { w with channel := w.channel.push data } () s' w') :
    Runs config maxRead cond (handleData config data) s w () s' w' := by
  refine exec_this (exec_note ?_)
  rw [hstate]
  refine exec_update (exec_invoke () trivial (hcond (.push data) _ _ trivial) ?_)
  unfold fedState lateAfter at h
  rw [hstate] at h
  exact h

theorem exec_backpressure_low (hpaused : s.conn.paused = false) (hcond : Lenient cond)
    (hlow : w.channel.buffered < config.channelHighWater) :
    Runs config maxRead cond (applyBackpressure config) s w ()
      (own .bufferedBytes w.channel.buffered s) w := by
  refine exec_this ?_
  rw [if_pos (by rw [hpaused]; rfl)]
  refine exec_invoke w.channel.buffered rfl (hcond .bufferedBytes _ _ trivial) ?_
  rw [if_neg (Nat.not_le.mpr hlow)]
  exact .ret _ _ _

def pausedState (buffered : ℕ) (s : LoopState) : LoopState :=
  { own .readStop () (own .bufferedBytes buffered s) with conn := { s.conn with paused := true } }

theorem exec_backpressure_full (hpaused : s.conn.paused = false) (hcond : Lenient cond)
    (hfull : config.channelHighWater ≤ w.channel.buffered) :
    Runs config maxRead cond (applyBackpressure config) s w ()
      (pausedState w.channel.buffered s) w := by
  refine exec_this ?_
  rw [if_pos (by rw [hpaused]; rfl)]
  refine exec_invoke w.channel.buffered rfl (hcond .bufferedBytes _ _ trivial) ?_
  rw [if_pos hfull]
  exact exec_invoke () trivial (hcond .readStop _ _ trivial) (.get (.set (.ret _ _ _)))

end

section
variable {config : ServerConfig} {maxRead : ℕ} {cond : LoopCond}
  {s : LoopState} {w : World}

variable (config maxRead) in
theorem deliver_run (hcond : Lenient cond) (hs : Live s) (hpaused : s.conn.paused = false)
    (hreading : s.uv.reading = true) (hdata : data ≠ [])
    (hlow : (w.channel.push data).buffered < config.channelHighWater) :
    ∃ s', ReflTransGen (hostIf config maxRead cond).Step ⟨none, s, w⟩
        ⟨none, s', { w with channel := w.channel.push data }⟩ ∧
      Live s' ∧ s'.conn.paused = false ∧ s'.uv.reading = true ∧
      s'.uv.plaintext = s.uv.plaintext ++ data := by
  have hfires : (hostIf config maxRead cond).fires (.read data []) s w :=
    ⟨hreading, hs.opened .tcp, hdata⟩
  obtain ⟨hr, hh⟩ := fedState_uv data (takes (.read data []) s)
  refine ⟨_, Exec.event hfires (exec_next hs.detected hs.plain
    (exec_streamData hs.state hcond (exec_backpressure_low hpaused hcond hlow))), ?_⟩
  refine ⟨⟨hs.state, hs.detected, hs.plain, fun h => ?_⟩, hpaused, hr.trans hreading, ?_⟩
  · exact (congrFun hh h).trans (hs.opened h)
  · change (fedState data (takes (.read data []) s)).uv.plaintext = _
    unfold fedState own uvOwn
    dsimp only
    split_ifs <;> rfl

variable (config maxRead) in
theorem deliver_full_run (hs : Live s) (hpaused : s.conn.paused = false)
    (hreading : s.uv.reading = true) (hdata : data ≠ [])
    (hfull : config.channelHighWater ≤ (w.channel.push data).buffered) :
    ∃ s', Reaches config maxRead ⟨none, s, w⟩
      ⟨none, s', { w with channel := w.channel.push data }⟩ ∧
      Live s' ∧ s'.conn.paused = true := by
  have hfires : (hostIf config maxRead fun _ _ _ => True).fires (.read data []) s w :=
    ⟨hreading, hs.opened .tcp, hdata⟩
  refine ⟨_, reaches_of_restricted (Exec.event hfires (exec_next hs.detected hs.plain
    (exec_streamData hs.state (fun _ _ _ _ => trivial)
      (exec_backpressure_full hpaused (fun _ _ _ _ => trivial) hfull)))), ?_⟩
  refine ⟨⟨hs.state, hs.detected, hs.plain, fun h => ?_⟩, rfl⟩
  exact (congrFun (fedState_uv data (takes (.read data []) s)).2 h).trans (hs.opened h)

theorem resume_run (hs : Live s) (hpending : w.resumePending = true)
    (hreading : s.conn.paused = false → s.uv.reading = true) :
    ∃ s', Reaches config maxRead ⟨none, s, w⟩ ⟨none, s', { w with resumePending := false }⟩ ∧
      Live s' ∧ s'.conn.paused = false ∧ s'.uv.reading = true := by
  have hfires : (host config maxRead).fires .resume s w := ⟨hpending, hs.opened .resumeAsync⟩
  cases hpaused : s.conn.paused with
  | false =>
    refine ⟨takes .resume s, Exec.event hfires (.get ?_), { hs with }, hpaused, hreading hpaused⟩
    change (host config maxRead).Exec (if s.conn.state = .streaming ∧ s.conn.paused then _
      else _) _ _ _ _ _
    rw [if_neg fun h => absurd (hpaused.symm.trans h.2) Bool.false_ne_true]
    exact .ret _ _ _
  | true =>
    refine ⟨own .readStart () { takes .resume s with conn := { s.conn with paused := false } },
      Exec.event hfires (.get ?_), { hs with }, rfl, ?_⟩
    · change (host config maxRead).Exec (if s.conn.state = .streaming ∧ s.conn.paused then _
        else _) _ _ _ _ _
      rw [if_pos ⟨hs.state, hpaused⟩]
      exact .get (.set (.call () trivial (.ret _ _ _)))
    · exact decide_eq_true (hs.opened .tcp)

end
end Runtime

/-! ## The consumer's side of a run -/

def holding (low : ℕ) (block : Bytes) : ByteChannel := ⟨[block], 0, block.length, low, false⟩

variable {block : Bytes} {r : Reader}

theorem create_push (low : ℕ) (hne : block ≠ []) :
    (ByteChannel.create low).push block = holding low block := by
  unfold ByteChannel.push
  rw [if_neg (List.length_pos_iff.mpr hne).ne', if_neg (by exact Bool.false_ne_true)]
  exact congrArg (ByteChannel.mk [block] 0 · low false) (Nat.zero_add _)

theorem readLoop_holding (low : ℕ) (hne : block ≠ [])
    (hneed : r.out.length + block.length ≤ r.count) :
    (holding low block).readLoop r =
      (.create low, { r with out := r.out ++ block, signaled := true }, !r.signaled) := by
  have hpos := List.length_pos_iff.mpr hne
  have htake : ByteChannel.takeSize ⟨[block], 0, block.length, low, false⟩ block r =
      block.length := by
    unfold ByteChannel.takeSize
    dsimp only
    rw [if_neg (by omega)]
    rfl
  change ByteChannel.passes 1 (holding low block) r = _
  rw [ByteChannel.passes, if_pos (by omega)]
  dsimp only [holding]
  rw [htake, ByteChannel.passes,
    ByteChannel.passed, if_pos (Nat.zero_add _)]
  simp [ByteChannel.create, ByteChannel.copied]

theorem World.ran_waits {w : World} {low : ℕ} (hchannel : w.channel = holding low block)
    (hne : block ≠ []) (hneed : r.out.length + block.length < r.count) :
    w.ran r = { w with
      channel := .create low
      resumePending := w.resumePending || !r.signaled
      consumer := .reading { r with out := r.out ++ block, signaled := true } } := by
  have hless : (r.out ++ block).length < r.count := List.length_append.trans_lt hneed
  unfold World.ran
  rw [hchannel, readLoop_holding low hne hneed.le]
  dsimp only
  rw [if_pos hless, if_neg (by exact Bool.false_ne_true)]

theorem World.ran_returns {w : World} {low : ℕ} (hchannel : w.channel = holding low block)
    (hne : block ≠ []) (hneed : r.out.length + block.length = r.count) :
    w.ran r = { w with
      channel := .create low
      resumePending := w.resumePending || !r.signaled
      consumer := .between true
      returned := w.returned ++ (r.out ++ block) } := by
  have hall : ¬(r.out ++ block).length < r.count := by
    rw [List.length_append, hneed]
    exact Nat.lt_irrefl _
  unfold World.ran
  rw [hchannel, readLoop_holding low hne hneed.le]
  dsimp only
  rw [if_neg hall]

namespace Runtime
open Host Connection
variable {config : ServerConfig} {maxRead : ℕ} {w w' : World}

theorem consumer_run (s : LoopState) (h : ConsumerStep maxRead w w') :
    Reaches config maxRead ⟨none, s, w⟩ ⟨none, s, w'⟩ := .single (.other none s h)

def exchange (channel : ByteChannel) (consumer : ConsumerThread) (pending : Bool)
    (returned : Bytes) : World :=
  ⟨channel, consumer, pending, false, false, [], returned, []⟩

theorem call_run (s : LoopState) (channel : ByteChannel) (pending : Bool) (returned : Bytes)
    (count : ℕ) (hcount : count ≤ maxRead) :
    Reaches config maxRead ⟨none, s, exchange channel (.between true) pending returned⟩
      ⟨none, s, exchange channel (.reading (.start count)) pending returned⟩ :=
  consumer_run s (.call (exchange channel (.between true) pending returned) true count rfl hcount)

theorem waits_run (s : LoopState) (low : ℕ) (hne : block ≠ [])
    (hneed : r.out.length + block.length < r.count) :
    Reaches config maxRead ⟨none, s, exchange (holding low block) (.reading r) false []⟩
      ⟨none, s, exchange (.create low) (.reading { r with out := r.out ++ block, signaled := true })
        (!r.signaled) []⟩ := by
  have hran : ConsumerStep maxRead _ _ :=
    .run (exchange (holding low block) (.reading r) false []) r rfl
  rw [World.ran_waits rfl hne hneed] at hran
  exact consumer_run s hran

theorem returns_run (s : LoopState) (low : ℕ) (hne : block ≠ [])
    (hneed : r.out.length + block.length = r.count) :
    Reaches config maxRead ⟨none, s, exchange (holding low block) (.reading r) false []⟩
      ⟨none, s, exchange (.create low) (.between true) (!r.signaled) (r.out ++ block)⟩ := by
  have hran : ConsumerStep maxRead _ _ :=
    .run (exchange (holding low block) (.reading r) false []) r rfl
  rw [World.ran_returns rfl hne hneed] at hran
  exact consumer_run s hran

end Runtime
end Dicker.Server
