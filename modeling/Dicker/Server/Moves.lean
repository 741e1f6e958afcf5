import Dicker.Server.Runtime
import Dicker.Server.Sending

/-! What the loop thread can do, said once. `Move` lists the steps of the callbacks with
what is known where they are taken; an assertion that every move keeps is kept by every
callback, and `Base` is what they leave the state of the loop in. -/

namespace Dicker.Server
open Lib

/-- The last push of the callback has been looked after, and the channel was not full. -/
def Look.Below (high : ℕ) : Look → Prop
  | untouched => True
  | due => False
  | seen buffered => buffered < high

structure Core where
  handshakeBuffer : Bytes
  tlsDetected : Bool
  tlsActive : Bool
  protoDecided : Bool
  httpMode : Bool
  integrityChecks : Bool
  protocolVersion : UInt16
  mode : UInt8
  session : Option Bytes
  paused : Bool
  consumerStarted : Bool
  received : Bytes
  plaintext : Bytes
  pushed : Bytes
  look : Look
  late : ℕ
  replies : List (HandshakeStatus × Bytes)

def LoopState.core (s : LoopState) : Core :=
  ⟨s.conn.handshakeBuffer, s.conn.tlsDetected, s.conn.tlsActive, s.conn.protoDecided,
    s.conn.httpMode, s.conn.integrityChecks, s.conn.protocolVersion, s.conn.mode, s.conn.session,
    s.conn.paused, s.conn.consumerStarted, s.uv.received, s.uv.plaintext, s.uv.pushed, s.uv.look,
    s.uv.late, s.uv.replies⟩

def LoopState.reply (s : LoopState) (status : HandshakeStatus) : LoopState :=
  { s with uv := { s.uv with
    replies := s.uv.replies ++ [(status, Connection.handshakeReply status s.conn)] } }

def LoopOp.Plain : LoopOp → Prop
  | uvAccept | readStart | readStop | write _ | isClosing _ | tlsInit | sslWrite _
  | makeDecompressor _ | emitConnected .. | emitDisconnected .. | dispatchHttp _ | archiveBegin ..
  | takeOutbox | joinConsumer => True
  | _ => False

def LoopOp.Rare : LoopOp → Prop
  | startConsumer | delete => True
  | _ => False

namespace Runtime

inductive Closing : LoopState → World → LoopState → World → Prop
  | counts (s : LoopState) (w : World) (n : ℕ) :
      Closing s w { s with conn := { s.conn with pendingHandleCloses := n } } w
  | plain (s : LoopState) (w : World) (op : LoopOp) (a : op.Ans) (hop : op.Plain)
      (ha : allowed op s w a) (hstart : op = .readStart → s.conn.paused = false) :
      Closing s w (own op a s) (shared op a w)
  | finalizes (s : LoopState) (w : World) (hstate : s.conn.state = .closing)
      (hteardown : s.conn.teardownStarted = true)
      (hconsumer : s.conn.consumerStarted = false ∨ w.consumer = .finished) :
      Closing s w { s with conn := { s.conn with handlesClosing := true } } w
  | closes (s : LoopState) (w : World) (handle : Handle) (hclosing : s.conn.handlesClosing = true)
      (hopened : s.uv.handles handle = .opened) : Closing s w (own (.close handle) () s) w

/-- What a host grants: of `teardown_started_` once an `Ok` reply has been sent, whether a
decompressor or a sink may fail to be created, and how long the plaintext may get. -/
structure Granted where
  up : Bool → Prop
  fails : Prop
  limit : ℕ → Prop

def Status (config : ServerConfig) (plaintext : Bytes) (status : HandshakeStatus) : Prop :=
  match parseAndVerifyHandshake config.key plaintext with
  | .error e => status = e
  | .ok _ => status = .ok ∨ status = .serverError

inductive Move (config : ServerConfig) (G : Granted) :
    LoopState → World → LoopState → World → Prop
  | closing {s s' : LoopState} {w w' : World} (h : Closing s w s' w') : Move config G s w s' w'
  | quiet (s : LoopState) (w : World) (tls : TlsLayer) (download : Option (List ArchiveStep))
      (downloadLast httpDone : Bool) (wireBytes : ℕ) :
      Move config G s w { s with conn := { s.conn with
        tls := tls
        download := download
        downloadLast := downloadLast
        httpDone := httpDone
        wireBytes := wireBytes } } w
  | marks (s : LoopState) (w : World)
      (hfirst : s.conn.teardownStarted = false ∨ w.consumer = .finished) :
      Move config G s w { s with conn := { s.conn with
        teardownStarted := true
        state := .closing } } w
  | closesChannel (s : LoopState) (w : World) (hteardown : s.conn.teardownStarted = true) :
      Move config G s w (own .closeChannel () s) (shared .closeChannel () w)
  | detects (s : LoopState) (w : World) (detected active : Bool)
      (hactive : s.conn.tlsActive = true → active = true) :
      Move config G s w { s with conn := { s.conn with
        tlsDetected := detected
        tlsActive := active } } w
  | receives (s : LoopState) (w : World) (data : Bytes) (late : ℕ)
      (hplain : s.conn.tlsActive = false → s.uv.plaintext ++ data = s.uv.received)
      (hlate : s.uv.late ≤ late) (hlimit : G.limit (s.uv.plaintext.length + data.length)) :
      Move config G s w { s with uv := { s.uv with
        plaintext := s.uv.plaintext ++ data
        late := late } } w
  | buffers (s : LoopState) (w : World) (buffer : Bytes) (decided http : Bool)
      (hstate : s.conn.state = .handshaking) :
      Move config G s w { s with conn := { s.conn with
        handshakeBuffer := buffer
        protoDecided := decided
        httpMode := http } } w
  | replies (s : LoopState) (w : World) (status : HandshakeStatus)
      (hstate : s.conn.state = .handshaking) (hsize : kHandshakeRequestSize ≤ s.uv.plaintext.length)
      (hstatus : Status config s.uv.plaintext status) (hfails : status = .serverError → G.fails) :
      Move config G s w (s.reply status) w
  | agrees (s : LoopState) (w : World) (version : UInt16) (mode : UInt8) :
      Move config G s w { s with conn := { s.conn with
        protocolVersion := version
        mode := mode } } w
  | names (s : LoopState) (w : World) (integrity : Bool) (session : Option Bytes) :
      Move config G s w { s with conn := { s.conn with
        integrityChecks := integrity
        session := session } } w
  | records (s : LoopState) (w : World) (op : LoopOp) (a : op.Ans)
      (hop : (∃ sessionId, op = .getOrCreateSink sessionId) ∨
        ∃ session, op = .recordSession session)
      (hsize : kHandshakeRequestSize ≤ s.uv.plaintext.length)
      (hauthentic : Authentic config.key s.uv.plaintext) : Move config G s w (own op a s) w
  | streams (s : LoopState) (w : World) (hgranted : G.up s.conn.teardownStarted)
      (hconsumer : s.conn.consumerStarted = false)
      (hsize : kHandshakeRequestSize ≤ s.uv.plaintext.length)
      (hauthentic : Authentic config.key s.uv.plaintext) (hok : ∃ r ∈ s.uv.replies, r.1 = .ok)
      (hcount : s.uv.replies.length = s.uv.late + 1) :
      Move config G s w { s with conn := { s.conn with state := .streaming } } w
  | starts (s : LoopState) (w : World) (hgranted : G.up s.conn.teardownStarted)
      (hstate : s.conn.state = .streaming) (hsize : kHandshakeRequestSize ≤ s.uv.plaintext.length)
      (hauthentic : Authentic config.key s.uv.plaintext) :
      Move config G s w { s with conn := { s.conn with
        handshakeBuffer := []
        consumerStarted := true } } w
  | startsConsumer (s : LoopState) (w : World) (hgranted : G.up s.conn.teardownStarted)
      (hstate : s.conn.state = .streaming)
      (hstarted : s.conn.consumerStarted = true) (hlog : .startConsumer ∉ s.uv.log)
      (hsize : kHandshakeRequestSize ≤ s.uv.plaintext.length)
      (hauthentic : Authentic config.key s.uv.plaintext) :
      Move config G s w (own .startConsumer () s) (shared .startConsumer () w)
  | pushes (s : LoopState) (w : World) (data : Bytes)
      (hpushed : s.uv.pushed ++ data = s.uv.plaintext.drop kHandshakeRequestSize)
      (hconsumer : s.conn.consumerStarted = true) (hstate : s.conn.state = .streaming) :
      Move config G s w (own (.push data) () s) (shared (.push data) () w)
  | looks (s : LoopState) (w : World) :
      Move config G s w (own .bufferedBytes w.channel.buffered s) w
  | pauses (s : LoopState) (w : World) (hseen : config.channelHighWater ≤ s.uv.look.level)
      (hconsumer : s.conn.consumerStarted = true) (hstopped : s.uv.reading = false) :
      Move config G s w { s with conn := { s.conn with paused := true } } w
  | resumes (s : LoopState) (w : World) (hresuming : s.uv.resuming = true) :
      Move config G s w { s with conn := { s.conn with paused := false } } w
  | deletes (s : LoopState) (w : World) (hclosed : ∀ handle, s.uv.handles handle = .closed)
      (hlog : .delete ∉ s.uv.log) : Move config G s w (own .delete () s) w

/-! ## Teardown and sending -/

def closingCount (handles : Handle → HandleState) : ℕ :=
  [Handle.tcp, .resumeAsync, .closeAsync, .outboxAsync].countP fun h => handles h == .closing

structure HandlesOk (s : LoopState) : Prop where
  opened : s.conn.handlesClosing = false →
    s.conn.pendingHandleCloses = 0 ∧ ∀ h, s.uv.handles h = .opened
  closing : s.conn.handlesClosing = true →
    s.conn.pendingHandleCloses = closingCount s.uv.handles ∧ ∀ h, s.uv.handles h ≠ .opened

structure Sends (s s' : LoopState) : Prop where
  core : s'.core = s.core
  torn : (s'.conn.state = s.conn.state ∧ s'.conn.teardownStarted = s.conn.teardownStarted ∧
      s'.conn.handlesClosing = s.conn.handlesClosing ∧ s'.uv.channelClosed = s.uv.channelClosed) ∨
    (s.conn.teardownStarted = false ∧ s'.conn.teardownStarted = true ∧ s'.conn.state = .closing ∧
      s'.uv.channelClosed = (s.uv.channelClosed || s.conn.consumerStarted) ∧
      (s.conn.consumerStarted = false → s'.conn.handlesClosing = true))
  handles : HandlesOk s → HandlesOk s'
  closed : ∀ h, s'.uv.handles h = .closed ↔ s.uv.handles h = .closed
  rare : ∀ op : LoopOp, op.Rare → op ∉ s.uv.log → op ∉ s'.uv.log

theorem Sends.refl (s : LoopState) : Sends s s :=
  ⟨rfl, .inl ⟨rfl, rfl, rfl, rfl⟩, id, fun _ => .rfl, fun _ _ => id⟩

variable {s s' : LoopState} {w w' : World}

theorem Sends.consumerStarted (h : Sends s s') :
    s'.conn.consumerStarted = s.conn.consumerStarted := congrArg Core.consumerStarted h.core

theorem Sends.trans {s'' : LoopState} (h : Sends s s') (h' : Sends s' s'') : Sends s s'' := by
  refine ⟨h'.core.trans h.core, ?_, h'.handles ∘ h.handles,
    fun hd => (h'.closed hd).trans (h.closed hd), fun op hop => h'.rare op hop ∘ h.rare op hop⟩
  rcases h.torn with ⟨hstate, hteardown, hclosing, hchannel⟩ | ⟨hfresh, hteardown, hstate, hchannel⟩
  · rcases h'.torn with ⟨h1, h2, h3, h4⟩ | ⟨h1, h2, h3, h4, h5⟩
    · exact .inl ⟨h1.trans hstate, h2.trans hteardown, h3.trans hclosing, h4.trans hchannel⟩
    · exact .inr ⟨hteardown ▸ h1, h2, h3, h4.trans (by rw [hchannel, h.consumerStarted]),
        fun hf => h5 (h.consumerStarted.trans hf)⟩
  · rcases h'.torn with ⟨h1, h2, h3, h4⟩ | ⟨h1, _⟩
    · exact .inr ⟨hfresh, h2.trans hteardown, h1.trans hstate, h4.trans hchannel.1,
        fun hf => h3.trans (hchannel.2 hf)⟩
    · exact absurd (h1.symm.trans hteardown) (by decide)

theorem own_resuming (op : LoopOp) (a : op.Ans) (s : LoopState) :
    (own op a s).uv.resuming = s.uv.resuming := by
  cases op with
  | write request => cases a <;> rfl
  | push data =>
    unfold own uvOwn
    dsimp only
    split_ifs <;> rfl
  | _ => rfl

theorem Move.resuming {config : ServerConfig} {G : Granted} (hm : Move config G s w s' w') :
    s'.uv.resuming = s.uv.resuming := by
  cases hm with
  | closing hc =>
    cases hc with
    | counts | finalizes => rfl
    | plain op a | closes => exact own_resuming _ _ s
  | closesChannel | records | startsConsumer | pushes | looks | deletes => exact own_resuming _ _ s
  | _ => rfl

def Keeps (M : LoopState → World → LoopState → World → Prop)
    (A : LoopState → World → Prop) : Prop :=
  ∀ ⦃s w s' w'⦄, M s w s' w' → A s w → A s' w'

section
open Host Connection
variable {config : ServerConfig} {maxRead : ℕ} {cond : LoopCond}
  {G : Granted} {A : LoopState → World → Prop} {α : Type}

theorem Keeps.step (hA : Keeps (Move config G) A) (h : Move config G s w s' w') (hAw : A s w) :
    Move config G s w s' w' ∧ A s' w' := ⟨h, hA h hAw⟩

theorem Keeps.closing (hA : Keeps Closing A) (h : Closing s w s' w') (hAw : A s w) :
    Move config G s w s' w' ∧ A s' w' := ⟨.closing h, hA h hAw⟩

variable (config maxRead cond G A) in
abbrev Ensures (p : LoopM α) (Q : α → LoopState → Prop) (s : LoopState) : Prop :=
  (hostIf config maxRead cond).vc (Move config G) A p Q s

variable {Q : α → LoopState → Prop} {f : Connection → Connection}

theorem rare_append {op : LoopOp} (hop : ¬op.Rare) {log : List LoopOp} (o : LoopOp) (ho : o.Rare)
    (h : o ∉ log) : o ∉ log ++ [op] := by
  rw [List.mem_append, List.mem_singleton]
  exact fun hmem => hmem.elim h fun heq => hop (heq ▸ ho)

theorem vc_then {p : LoopM Unit} {q : LoopM α} {R : LoopState → Prop}
    (hp : Ensures config maxRead cond G A p (fun _ => R) s)
    (hq : ∀ s', R s' → Ensures config maxRead cond G A q Q s') :
    Ensures config maxRead cond G A (p >>= fun _ => q) Q s :=
  vc_bind (vc_mono hp fun _ s' hs => hq s' hs)

theorem vc_this {k : Connection → LoopM α} (hk : Ensures config maxRead cond G A (k s.conn) Q s) :
    Ensures config maxRead cond G A (this >>= k) Q s := hk

theorem vc_update {k : Unit → LoopM α}
    (hf : ∀ w, A s w → Move config G s w { s with conn := f s.conn } w ∧
      A { s with conn := f s.conn } w)
    (hk : Ensures config maxRead cond G A (k ()) Q { s with conn := f s.conn }) :
    Ensures config maxRead cond G A (update f >>= k) Q s := ⟨hf, hk⟩

theorem vc_update_last {Q : Unit → LoopState → Prop}
    (hf : ∀ w, A s w → Move config G s w { s with conn := f s.conn } w ∧
      A { s with conn := f s.conn } w) (hQ : Q () { s with conn := f s.conn }) :
    Ensures config maxRead cond G A (update f) Q s := ⟨hf, hQ⟩

theorem vc_note {f : Uv → Uv} {k : Unit → LoopM α}
    (hf : ∀ w, A s w → Move config G s w { s with uv := f s.uv } w ∧ A { s with uv := f s.uv } w)
    (hk : Ensures config maxRead cond G A (k ()) Q { s with uv := f s.uv }) :
    Ensures config maxRead cond G A (note f >>= k) Q s := ⟨hf, hk⟩

theorem vc_invoke {op : LoopOp} {k : op.Ans → LoopM α}
    (hop : ∀ a w, A s w → allowed op s w a → cond op s a →
      (Move config G s w (own op a s) (shared op a w) ∧ A (own op a s) (shared op a w)) ∧
      Ensures config maxRead cond G A (k a) Q (own op a s)) :
    Ensures config maxRead cond G A (invoke op >>= k) Q s := fun a w hAw ha => hop a w hAw ha.1 ha.2

theorem vc_invoke_last {op : LoopOp} {Q : op.Ans → LoopState → Prop}
    (hop : ∀ a w, A s w → allowed op s w a → cond op s a →
      (Move config G s w (own op a s) (shared op a w) ∧ A (own op a s) (shared op a w)) ∧
      Q a (own op a s)) : Ensures config maxRead cond G A (invoke op) Q s :=
  fun a w hAw ha => hop a w hAw ha.1 ha.2

theorem closingCount_update {handles : Handle → HandleState} {handle : Handle}
    (h : handles handle = .opened) :
    closingCount (Function.update handles handle .closing) = closingCount handles + 1 := by
  cases handle <;> simp [closingCount, List.countP_cons, Function.update, h] <;> omega

structure Shutting (s s' : LoopState) : Prop where
  core : s'.core = s.core
  state : s'.conn.state = s.conn.state
  teardown : s'.conn.teardownStarted = s.conn.teardownStarted
  closing : s'.conn.handlesClosing = s.conn.handlesClosing
  channel : s'.uv.channelClosed = s.uv.channelClosed
  pending : s.conn.pendingHandleCloses = closingCount s.uv.handles →
    s'.conn.pendingHandleCloses = closingCount s'.uv.handles
  handles : ∀ h, s.uv.handles h ≠ .opened → s'.uv.handles h ≠ .opened
  closed : ∀ h, s'.uv.handles h = .closed ↔ s.uv.handles h = .closed
  rare : ∀ op : LoopOp, op.Rare → op ∉ s.uv.log → op ∉ s'.uv.log

theorem Shutting.trans {s'' : LoopState} (h : Shutting s s') (h' : Shutting s' s'') :
    Shutting s s'' where
  core := h'.core.trans h.core
  state := h'.state.trans h.state
  teardown := h'.teardown.trans h.teardown
  closing := h'.closing.trans h.closing
  channel := h'.channel.trans h.channel
  pending := h'.pending ∘ h.pending
  handles hd := h'.handles hd ∘ h.handles hd
  closed hd := (h'.closed hd).trans (h.closed hd)
  rare op hop := h'.rare op hop ∘ h.rare op hop

theorem closeHandle_vc (hA : Keeps Closing A) (hs : s.conn.handlesClosing = true)
    (handle : Handle) :
    Ensures config maxRead cond G A (closeHandle handle)
      (fun _ s' => Shutting s s' ∧ s'.uv.handles handle ≠ .opened) s := by
  intro a w hAw ha
  refine ⟨hA.closing (.plain s w (.isClosing handle) a trivial ha.1 nofun) hAw, ?_⟩
  have hanswer : a = decide (s.uv.handles handle ≠ .opened) := ha.1
  by_cases hopened : s.uv.handles handle = .opened
  · rw [hanswer, decide_eq_false (not_not.mpr hopened)]
    refine ⟨fun w hAw => hA.closing (.counts _ w _) hAw, fun b w hAw _ => ⟨?_, ?_, ?_⟩⟩
    · exact hA.closing (.closes _ w handle hs hopened) hAw
    · refine ⟨rfl, rfl, rfl, rfl, rfl, ?_, ?_, ?_, ?_⟩
      · intro hpending
        change s.conn.pendingHandleCloses + 1 =
          closingCount (Function.update s.uv.handles handle .closing)
        rw [hpending, closingCount_update hopened]
      · intro h hne
        change Function.update s.uv.handles handle .closing h ≠ .opened
        by_cases heq : h = handle
        · rw [heq, Function.update_self]
          decide
        · rwa [Function.update_of_ne heq]
      · intro h
        change Function.update s.uv.handles handle .closing h = .closed ↔ _
        by_cases heq : h = handle
        · rw [heq, Function.update_self, hopened]
          decide
        · rw [Function.update_of_ne heq]
      · exact fun o ho h => rare_append (by exact id) o ho (rare_append (by exact id) o ho h)
    · change Function.update s.uv.handles handle .closing handle ≠ .opened
      rw [Function.update_self]
      decide
  · rw [hanswer, decide_eq_true hopened]
    exact ⟨⟨rfl, rfl, rfl, rfl, rfl, id, fun _ => id, fun _ => .rfl, rare_append (by exact id)⟩,
      hopened⟩

theorem finalizeClose_vc (hA : Keeps Closing A) (hstate : s.conn.state = .closing)
    (hteardown : s.conn.teardownStarted = true)
    (hconsumer : s.conn.consumerStarted = false ∨ ∀ s w, A s w → w.consumer = .finished) :
    Ensures config maxRead cond G A finalizeClose (fun _ s' => s'.core = s.core ∧
      s'.conn.state = .closing ∧ s'.conn.teardownStarted = true ∧ s'.conn.handlesClosing = true ∧
      s'.uv.channelClosed = s.uv.channelClosed ∧ (HandlesOk s → HandlesOk s') ∧
      (∀ h, s'.uv.handles h = .closed ↔ s.uv.handles h = .closed) ∧
      (∀ op : LoopOp, op.Rare → op ∉ s.uv.log → op ∉ s'.uv.log)) s := by
  refine vc_this ?_
  split_ifs with hdone
  · exact ⟨rfl, hstate, hteardown, hdone, rfl, id, fun _ => .rfl, fun _ _ => id⟩
  · have hstep : ∀ {t : LoopState}, t.conn.handlesClosing = true → ∀ handle,
        Ensures config maxRead cond G A (closeHandle handle)
          (fun _ t' => Shutting t t' ∧ t'.uv.handles handle ≠ .opened) t :=
      fun ht handle => closeHandle_vc hA ht handle
    refine vc_update (fun w hAw => hA.closing (.finalizes s w hstate hteardown ?_) hAw) ?_
    · exact hconsumer.imp_right fun h => h s w hAw
    refine vc_then (hstep rfl .tcp) fun s₁ h₁ => ?_
    refine vc_then (hstep (h₁.1.closing.trans rfl) .resumeAsync) fun s₂ h₂ => ?_
    have t₂ := h₁.1.trans h₂.1
    refine vc_then (hstep (t₂.closing.trans rfl) .closeAsync) fun s₃ h₃ => ?_
    have t₃ := t₂.trans h₃.1
    refine vc_mono (hstep (t₃.closing.trans rfl) .outboxAsync) fun _ s₄ h₄ => ?_
    have t₄ := t₃.trans h₄.1
    refine ⟨t₄.core, t₄.state.trans hstate, t₄.teardown.trans hteardown, t₄.closing, t₄.channel,
      fun hok => ?_, t₄.closed, t₄.rare⟩
    obtain ⟨hpending, hopened⟩ := hok.opened (Bool.eq_false_of_not_eq_true hdone)
    have hcount : s.conn.pendingHandleCloses = closingCount s.uv.handles := by
      rw [hpending]
      simp [closingCount, hopened]
    refine ⟨fun hf => absurd (hf.symm.trans t₄.closing) Bool.false_ne_true,
      fun _ => ⟨t₄.pending hcount, ?_⟩⟩
    intro h
    cases h with
    | tcp => exact h₄.1.handles _ (h₃.1.handles _ (h₂.1.handles _ h₁.2))
    | resumeAsync => exact h₄.1.handles _ (h₃.1.handles _ h₂.2)
    | closeAsync => exact h₄.1.handles _ h₃.2
    | outboxAsync => exact h₄.2

theorem sends_own (op : LoopOp) (hop : op.Plain) (a : op.Ans) (s : LoopState) :
    Sends s (own op a s) := by
  have hlog : ¬op.Rare := by
    cases op with
    | startConsumer | delete => exact hop.elim
    | _ => nofun
  have huv : (uvOwn op a s.uv).received = s.uv.received ∧
      (uvOwn op a s.uv).plaintext = s.uv.plaintext ∧
      (uvOwn op a s.uv).pushed = s.uv.pushed ∧ (uvOwn op a s.uv).look = s.uv.look ∧
      (uvOwn op a s.uv).late = s.uv.late ∧ (uvOwn op a s.uv).replies = s.uv.replies ∧
      (uvOwn op a s.uv).handles = s.uv.handles ∧
      (uvOwn op a s.uv).channelClosed = s.uv.channelClosed := by
    cases op with
    | write request => cases a <;> exact ⟨rfl, rfl, rfl, rfl, rfl, rfl, rfl, rfl⟩
    | close | push | bufferedBytes | closeChannel => exact hop.elim
    | _ => exact ⟨rfl, rfl, rfl, rfl, rfl, rfl, rfl, rfl⟩
  obtain ⟨hreceived, hplaintext, hpushed, hlook, hlate, hreplies, hhandles, hchannel⟩ := huv
  refine ⟨?_, .inl ⟨rfl, rfl, rfl, hchannel⟩, fun h => ?_,
    fun hd => by rw [show (own op a s).uv.handles = s.uv.handles from hhandles], rare_append hlog⟩
  · simp only [LoopState.core, own, hreceived, hplaintext, hpushed, hlook, hlate, hreplies]
  · constructor
    · intro hopen
      exact ⟨(h.opened hopen).1, fun hd => (congrFun hhandles hd).trans ((h.opened hopen).2 hd)⟩
    · intro hclosing
      refine ⟨(h.closing hclosing).1.trans (congrArg closingCount hhandles.symm), fun hd => ?_⟩
      exact fun heq => (h.closing hclosing).2 hd ((congrFun hhandles hd).symm.trans heq)

variable (config maxRead cond G A) in
def Sending (p : LoopM α) : Prop :=
  ∀ s, Ensures config maxRead cond G A p (fun _ s' => Sends s s') s

theorem Sending.ret (a : α) : Sending config maxRead cond G A (.ret a) := fun s => .refl s

theorem Sending.bind {β : Type} {p : LoopM α} {f : α → LoopM β}
    (hp : Sending config maxRead cond G A p) (hf : ∀ a, Sending config maxRead cond G A (f a)) :
    Sending config maxRead cond G A (p >>= f) := fun s =>
  vc_bind (vc_mono (hp s) fun a s' h => vc_mono (hf a s') fun _ _ h' => h.trans h')

theorem Sending.this {k : Connection → LoopM α} (hk : ∀ c, Sending config maxRead cond G A (k c)) :
    Sending config maxRead cond G A (Connection.this >>= k) := fun s => hk s.conn s

theorem Sending.ite {P : Prop} [Decidable P] {p q : LoopM α}
    (hp : Sending config maxRead cond G A p) (hq : Sending config maxRead cond G A q) :
    Sending config maxRead cond G A (if P then p else q) := by
  split_ifs
  · exact hp
  · exact hq

/-! What follows holds of every assertion that the moves keep. -/

variable (hA : Keeps (Move config G) A)
include hA

theorem beginTeardown_vc (s : LoopState) :
    Ensures config maxRead cond G A beginTeardown (fun _ => Sends s) s := by
  refine vc_this ?_
  split_ifs with hdone
  · exact .refl s
  · have hfresh := Bool.eq_false_of_not_eq_true hdone
    refine vc_update (fun w hAw => hA.step (.marks s w (.inl hfresh)) hAw) (vc_this ?_)
    split_ifs with hconsumer
    · refine fun a w hAw _ => ⟨hA.step (.closesChannel _ w rfl) hAw, rfl, ?_, ?_, fun _ => .rfl, ?_⟩
      · refine .inr ⟨hfresh, rfl, rfl, by rw [hconsumer, Bool.or_true]; rfl, fun hf => ?_⟩
        exact absurd (hf.symm.trans hconsumer) Bool.false_ne_true
      · exact fun h => ⟨h.opened, h.closing⟩
      · exact rare_append (by exact id)
    · have hclosing : Keeps Closing A := fun _ _ _ _ h => hA (.closing h)
      refine vc_mono (finalizeClose_vc hclosing rfl rfl
        (.inl (Bool.eq_false_of_not_eq_true hconsumer))) ?_
      rintro _ s' ⟨hcore, hstate, hteardown, hshut, hchannel, hhandles, hclosed, hlog⟩
      refine ⟨hcore, .inr ⟨hfresh, hteardown, hstate, ?_, fun _ => hshut⟩, ?_, hclosed, hlog⟩
      · rw [hchannel, Bool.eq_false_of_not_eq_true hconsumer, Bool.or_false]
      exact fun h => hhandles ⟨h.opened, h.closing⟩

theorem Sending.op (op : LoopOp) (hop : op.Plain) (hstart : op ≠ .readStart) :
    Sending config maxRead cond G A (invoke op) := by
  intro s a w hAw ha
  exact ⟨hA.step (.closing (.plain s w op a hop ha.1 fun heq => absurd heq hstart)) hAw,
    sends_own op hop a s⟩

theorem Sending.quiet (hf : ∀ c, ∃ tls download downloadLast httpDone, f c = { c with
      tls := tls
      download := download
      downloadLast := downloadLast
      httpDone := httpDone }) : Sending config maxRead cond G A (update f) := by
  intro s
  obtain ⟨tls, download, downloadLast, httpDone, heq⟩ := hf s.conn
  refine vc_update_last (fun w hAw => ?_) ?_
  · rw [heq]
    exact hA.step (.quiet s w tls download downloadLast httpDone _) hAw
  · rw [heq]
    exact ⟨rfl, .inl ⟨rfl, rfl, rfl, rfl⟩, fun h => ⟨h.opened, h.closing⟩,
      fun _ => .rfl, fun _ _ => id⟩

theorem Sending.teardown : Sending config maxRead cond G A beginTeardown := beginTeardown_vc hA

theorem Sending.kind : SendingKind fun _ p => Sending config maxRead cond G A p where
  ret := .ret
  bind := .bind
  this s := .refl s
  op op hop := by
    cases op with
    | write | sslWrite | archiveBegin | takeOutbox => exact .op hA _ trivial nofun
    | _ => exact hop.elim
  assign hf := .quiet hA fun c => by
    obtain ⟨tls, download, downloadLast, heq⟩ := hf c
    exact ⟨tls, download, downloadLast, c.httpDone, heq⟩
  teardown := .teardown hA

theorem handleHttpData_sends : Sending config maxRead cond G A handleHttpData := by
  have hquiet : Sending config maxRead cond G A (update fun c => { c with httpDone := true }) :=
    .quiet hA fun _ => ⟨_, _, _, _, rfl⟩
  refine .this fun c => .ite (.ret ()) (.ite (.ite ?_ (.ret ())) ?_)
  · exact hquiet.bind fun _ => (Sending.kind hA).wire.sendHttpSimple _ _ _ _ _
  · refine hquiet.bind fun _ => ?_
    cases parseHttpRequest (c.handshakeBuffer.take (httpHeaderEnd c.handshakeBuffer)) with
    | none => exact (Sending.kind hA).wire.sendHttpSimple _ _ _ _ _
    | some request =>
      exact (Sending.op hA (.dispatchHttp request) trivial nofun).bind fun actions =>
        (Sending.kind hA).actAll actions

end
end Runtime
end Dicker.Server
