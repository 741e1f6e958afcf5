import Dicker.Lib.Leads
import Dicker.Server.LoopInvariant

/-! What the loop thread does for the consumer (`handle_handshake_data` and `on_outbox_async` of
server/connection.cxx). It starts the consumer on what the two sides have agreed on. What is taken
out of the outbox and what is handed to the transport are counted from there on: the callbacks hand
over what they have taken, in order, and nothing else. -/

namespace Dicker.Server.Outbox
open Lib Host Connection Dicker.Server.Runtime

abbrev History := Trace LoopOp LoopOp.Ans Callback

/-! ## What is taken and what is handed over -/

def isStart : LoopOp → Bool
  | .startConsumer => true
  | _ => false

/-- The bytes for the peer that an operation takes: `uv_write` in clear, or else `wolfSSL_write`. -/
def handedBy (tls : Bool) : LoopOp → Bytes
  | .write request => if tls then [] else request.data
  | .sslWrite data => if tls then data else []
  | _ => []

def handed (s : LoopState) : Bytes := since isStart (handedBy s.conn.tlsActive) s.uv.log

def startSeen : Seen LoopOp LoopOp.Ans Callback → Bool
  | .answer op _ => isStart op
  | .event _ => false

def takenBy : Seen LoopOp LoopOp.Ans Callback → Bytes
  | .answer .takeOutbox data => data
  | _ => []

def taken (τ : History) : Bytes := since startSeen takenBy τ

/-- Before the consumer is started, what is handed over for the peer is a reply to the handshake. -/
def replyBy : LoopOp → List Bytes
  | .write ⟨data, .reply _⟩ => [data]
  | .sslWrite data => [data]
  | _ => []

def sentReplies (s : LoopState) : List Bytes := before isStart replyBy s.uv.log

def repliedBy : Seen LoopOp LoopOp.Ans Callback → List Bytes
  | .answer (.write ⟨data, .reply _⟩) true => [data]
  | .answer (.sslWrite data) (true, _) => [data]
  | _ => []

def takenReplies (τ : History) : List Bytes := before startSeen repliedBy τ

/-! ## The view -/

structure Talk where
  plaintext : Bytes
  buffer : Bytes
  mode : UInt8
  integrity : Bool

structure View where
  log : List LoopOp
  state : State
  active : Bool
  http : Bool
  download : Bool
  torn : Bool
  talk : Talk
  replies : List Bytes

def view (s : LoopState) : View where
  log := s.uv.log
  state := s.conn.state
  active := s.conn.tlsActive
  http := s.conn.httpMode && s.conn.protoDecided
  download := s.conn.download.isSome
  torn := s.conn.teardownStarted
  talk := ⟨s.uv.plaintext, s.conn.handshakeBuffer, s.conn.mode, s.conn.integrityChecks⟩
  replies := s.uv.replies.map Prod.snd

def View.handed (v : View) : Bytes := since isStart (handedBy v.active) v.log

def View.sent (v : View) : List Bytes := before isStart replyBy v.log

def Talk.Speaks (t : Talk) : Prop := t.plaintext.take kMagic.length <+: kMagic

def Talk.Agreed (config : ServerConfig) (t : Talk) : Prop :=
  kHandshakeRequestSize ≤ t.plaintext.length ∧
    ∃ request, parseAndVerifyHandshake config.key t.plaintext = .ok request ∧
    t.mode = config.modeFor request.version ∧ t.integrity = hasFlag request.flags .integrityChecks

structure InOrder (config : ServerConfig) (v : View) (τ : History) : Prop where
  front : v.handed <+: taken τ
  agreed : v.log.any isStart = true → v.talk.Agreed config
  sent : v.talk.Speaks → v.sent <+: v.replies

def View.does (op : LoopOp) (v : View) : View := { v with log := v.log ++ [op] }

theorem view_own (op : LoopOp) (a : op.Ans) (s : LoopState) :
    view (own op a s) = (view s).does op := by
  cases op with
  | write request => cases a <;> rfl
  | push data =>
    unfold Runtime.own
    simp only [uvOwn]
    split_ifs <;> rfl
  | _ => rfl

/-! ## Where a connection is -/

structure Unstarted (tls : Bool) (ahead : Bytes) (v : View) (τ : History) : Prop where
  active : v.active = tls
  log : v.log.any isStart = false
  history : τ.any startSeen = false
  download : v.http = false → v.download = false
  buffer : v.state = .handshaking → v.talk.buffer ++ ahead = v.talk.plaintext
  sent : v.http = false → v.sent = v.replies
  replied : v.http = false → v.torn = false → takenReplies τ = v.replies
  speaks : v.http = true → ¬v.talk.Speaks

structure Chosen (tls http : Bool) (talk : Talk) (v : View)
    (τ : History) : Prop extends Unstarted tls [] v τ where
  http : v.http = http
  talk : v.talk = talk

structure Relays (config : ServerConfig) (tls : Bool) (pending : Bytes) (v : View)
    (τ : History) : Prop where
  active : v.active = tls
  log : v.log.any isStart = true
  history : τ.any startSeen = true
  state : v.state ≠ .handshaking
  download : v.download = false
  agreed : v.talk.Agreed config
  front : v.handed <+: taken τ
  whole : v.torn = false → v.handed ++ pending = taken τ
  sent : v.sent = v.replies
  replied : v.torn = false → takenReplies τ = v.replies

def Rests (config : ServerConfig) (tls : Bool) (ahead : Bytes) (v : View) (τ : History) : Prop :=
  Unstarted tls ahead v τ ∨ Relays config tls [] v τ

abbrev Rest (config : ServerConfig) (tls : Bool) : View → History → Prop := Rests config tls []

section
variable {config : ServerConfig} {tls : Bool} {ahead pending : Bytes} {v : View}
  {τ : History} {op : LoopOp}

theorem Unstarted.inOrder (h : Unstarted tls ahead v τ) : InOrder config v τ := by
  refine ⟨?_, fun hlog => absurd (h.log.symm.trans hlog) (by decide), fun hspeaks => ?_⟩
  · rw [View.handed, since_of_not_any h.log]
    exact List.nil_prefix
  · rw [h.sent (Bool.eq_false_of_not_eq_true fun hhttp => h.speaks hhttp hspeaks)]

theorem Relays.inOrder (h : Relays config tls pending v τ) : InOrder config v τ :=
  ⟨h.front, fun _ => h.agreed, fun _ => h.sent ▸ List.prefix_refl _⟩

theorem Rests.inOrder (h : Rests config tls ahead v τ) : InOrder config v τ :=
  h.elim Unstarted.inOrder Relays.inOrder

theorem Rests.active (h : Rests config tls ahead v τ) : v.active = tls :=
  h.elim Unstarted.active Relays.active

theorem View.handed_does (op : LoopOp) (hlog : v.log.any isStart = true) :
    (v.does op).handed = v.handed ++ handedBy v.active op := by
  rw [View.handed, View.does, since_append, if_pos hlog]
  rfl

theorem taken_append (hhistory : τ.any startSeen = true) (x : Seen LoopOp LoopOp.Ans Callback) :
    taken (τ ++ [x]) = taken τ ++ takenBy x := by
  rw [taken, since_append, if_pos hhistory]
  rfl

theorem View.sent_does (op : LoopOp) (hlog : v.log.any isStart = false) (hop : isStart op = false) :
    (v.does op).sent = v.sent ++ replyBy op := by
  rw [View.sent, View.does, before_append, hlog, hop]
  rfl

theorem View.sent_started (op : LoopOp) (hlog : (v.log.any isStart || isStart op) = true) :
    (v.does op).sent = v.sent := by
  rw [View.sent, View.does, before_append, hlog]
  rfl

theorem takenReplies_append (x : Seen LoopOp LoopOp.Ans Callback)
    (hhistory : τ.any startSeen = false) (hx : startSeen x = false) :
    takenReplies (τ ++ [x]) = takenReplies τ ++ repliedBy x := by
  rw [takenReplies, before_append, hhistory, hx]
  rfl

theorem takenReplies_started (x : Seen LoopOp LoopOp.Ans Callback)
    (hhistory : (τ.any startSeen || startSeen x) = true) :
    takenReplies (τ ++ [x]) = takenReplies τ := by
  rw [takenReplies, before_append, hhistory]
  rfl

theorem repliedBy_nil (hop : replyBy op = []) (a : op.Ans) : repliedBy (.answer op a) = [] := by
  cases op with
  | write request =>
    obtain ⟨data, callback⟩ := request
    cases callback with
    | reply => exact absurd hop (List.cons_ne_nil _ _)
    | _ => rfl
  | sslWrite => exact absurd hop (List.cons_ne_nil _ _)
  | _ => rfl

theorem Unstarted.does (h : Unstarted tls ahead v τ) (hop : isStart op = false)
    (hquiet : v.http = false → replyBy op = []) (a : op.Ans) :
    Unstarted tls ahead (v.does op) (τ ++ [.answer op a]) where
  active := h.active
  log := by rw [View.does, any_append_singleton, h.log, hop, Bool.or_false]
  history := by
    rw [any_append_singleton, h.history]
    exact hop
  download := h.download
  buffer := h.buffer
  sent hhttp := by
    rw [View.sent_does op h.log hop, hquiet hhttp, List.append_nil]
    exact h.sent hhttp
  replied hhttp htorn := by
    rw [takenReplies_append (.answer op a) h.history hop,
      repliedBy_nil (hquiet hhttp), List.append_nil]
    exact h.replied hhttp htorn
  speaks := h.speaks

theorem Relays.does {rest : Bytes} (h : Relays config tls pending v τ) (a : op.Ans)
    (hfront : v.handed ++ handedBy tls op <+: taken τ ++ takenBy (.answer op a))
    (hwhole : v.torn = false → v.handed ++ handedBy tls op ++ rest = taken τ ++
      takenBy (.answer op a)) :
    Relays config tls rest (v.does op) (τ ++ [.answer op a]) := by
  refine ⟨h.active, ?_, ?_, h.state, h.download, h.agreed, ?_, ?_, ?_, ?_⟩
  · rw [View.does, any_append_singleton, h.log, Bool.true_or]
  · rw [any_append_singleton, h.history, Bool.true_or]
  · rwa [View.handed_does op h.log, taken_append h.history, h.active]
  · rwa [View.handed_does op h.log, taken_append h.history, h.active]
  · rw [View.sent_started op (by rw [h.log, Bool.true_or])]
    exact h.sent
  · rw [takenReplies_started _ (by rw [h.history, Bool.true_or])]
    exact h.replied

theorem Relays.silent (h : Relays config tls pending v τ) (a : op.Ans)
    (hhanded : handedBy tls op = []) (htaken : takenBy (.answer op a) = []) :
    Relays config tls pending (v.does op) (τ ++ [.answer op a]) := by
  refine h.does a ?_ fun htorn => ?_ <;> rw [hhanded, htaken, List.append_nil, List.append_nil]
  · exact h.front
  · exact h.whole htorn

theorem Relays.hands (h : Relays config tls pending v τ) (htorn : v.torn = false) (a : op.Ans)
    (hop : handedBy tls op = pending) (htaken : takenBy (.answer op a) = []) :
    Relays config tls [] (v.does op) (τ ++ [.answer op a]) := by
  have hall : v.handed ++ handedBy tls op = taken τ ++ takenBy (.answer op a) := by
    rw [hop, htaken, List.append_nil, h.whole htorn]
  exact h.does a (hall ▸ List.prefix_refl _) fun _ => (List.append_nil _).trans hall

theorem Relays.empties (h : Relays config tls [] v τ) (data : Bytes) :
    Relays config tls data (v.does .takeOutbox) (τ ++ [.answer .takeOutbox data]) := by
  refine @Relays.does config tls [] v τ .takeOutbox data h data ?_ fun htorn => ?_
  · exact (List.append_nil v.handed).symm ▸ h.front.trans (List.prefix_append _ _)
  · exact congrArg (· ++ data) (h.whole htorn)

theorem Relays.drops (h : Relays config tls pending v τ) (hnone : pending = [] ∨ v.torn = true) :
    Relays config tls [] v τ := by
  refine { h with whole := fun htorn => ?_ }
  rcases hnone with rfl | htrue
  · exact h.whole htorn
  · exact absurd (htrue.symm.trans htorn) (by decide)

theorem Unstarted.starts (h : Unstarted tls [] v τ) (hhttp : v.http = false)
    (hstate : v.state ≠ .handshaking) (hagreed : v.talk.Agreed config) :
    Relays config tls [] (v.does .startConsumer) (τ ++ [.answer .startConsumer ()]) := by
  have hhanded : (v.does .startConsumer).handed = [] := by
    rw [View.handed, View.does, since_append, h.log]
    rfl
  have htaken : taken (τ ++ [.answer .startConsumer ()]) = [] := by
    rw [taken, since_append, h.history]
    rfl
  refine ⟨h.active, ?_, ?_, hstate, h.download hhttp, hagreed, ?_, fun _ => ?_, ?_, ?_⟩
  · rw [View.does, any_append_singleton]
    exact Bool.or_true _
  · rw [any_append_singleton]
    exact Bool.or_true _
  · rw [hhanded]
    exact List.nil_prefix
  · rw [hhanded, htaken]
    rfl
  · rw [View.sent_started _ (Bool.or_true _)]
    exact h.sent hhttp
  · rw [takenReplies_started _ (Bool.or_true _)]
    exact h.replied hhttp

def Neutral : LoopOp → Prop
  | .write _ | .sslWrite _ | .takeOutbox | .startConsumer => False
  | _ => True

theorem Neutral.facts (hop : Neutral op) (a : op.Ans) :
    isStart op = false ∧ replyBy op = [] ∧ handedBy tls op = [] ∧ takenBy (.answer op a) = [] := by
  cases op with
  | write | sslWrite | takeOutbox | startConsumer => exact hop.elim
  | _ => exact ⟨rfl, rfl, rfl, rfl⟩

end

/-! ## Programs -/

variable {config : ServerConfig} {n : ℕ} {α : Type} {tls http : Bool} {talk : Talk}
  {P : View → History → Prop} {Q : α → View → History → Prop}

variable (config n) in
abbrev Leads (P : View → History → Prop) (p : LoopM α) (Q : α → View → History → Prop) : Prop :=
  (host config n).Leads (fun s τ => InOrder config (view s) τ)
    (fun s τ => P (view s) τ) p fun a s τ => Q a (view s) τ

variable (config n) in
abbrev Keeps (P : View → History → Prop) (p : LoopM α) : Prop := Leads config n P p fun _ => P

variable (config) in
structure Still (P : View → History → Prop) : Prop where
  inOrder : ∀ {v τ}, P v τ → InOrder config v τ
  neutral : ∀ {v τ} {op : LoopOp} (a : op.Ans), Neutral op → P v τ →
    P (v.does op) (τ ++ [.answer op a])
  marked : ∀ {v τ}, P v τ → P { v with torn := true, state := .closing } τ

theorem still_chosen : Still config (Chosen tls http talk) where
  inOrder h := h.inOrder
  neutral a hop h := by
    obtain ⟨hstart, hquiet, -⟩ := @Neutral.facts tls _ hop a
    exact ⟨h.does hstart (fun _ => hquiet) a, h.http, h.talk⟩
  marked h :=
    ⟨{ h with buffer := State.noConfusion, replied := fun _ => Bool.noConfusion }, h.http, h.talk⟩

theorem still_relays : Still config (Relays config tls []) where
  inOrder h := h.inOrder
  neutral a hop h := by
    obtain ⟨-, -, hhanded, htaken⟩ := @Neutral.facts tls _ hop a
    exact h.silent a hhanded htaken
  marked h :=
    { h with state := State.noConfusion, whole := Bool.noConfusion, replied := Bool.noConfusion }

theorem still_rest : Still config (Rest config tls) where
  inOrder h := h.inOrder
  neutral a hop := by
    refine Or.imp (fun h => ?_) (still_relays.neutral a hop)
    exact ((@still_chosen config).neutral a hop ⟨h, rfl, rfl⟩).toUnstarted
  marked :=
    Or.imp (fun h => ((@still_chosen config).marked ⟨h, rfl, rfl⟩).toUnstarted) still_relays.marked

theorem leads_looks {k : Connection → LoopM α}
    (hk : ∀ s, Leads config n (fun v τ => P v τ ∧ v = view s) (k s.conn) Q) :
    Leads config n P (this >>= k) Q := fun s τ hs => hk s s τ ⟨hs, rfl⟩

theorem leads_ignores {k : Connection → LoopM α} (hk : ∀ c, Leads config n P (k c) Q) :
    Leads config n P (this >>= k) Q := fun s => hk s.conn s

theorem keeps_ret (a : α) : Keeps config n P (.ret a) := .ret fun _ _ h => h

theorem leads_op {op : LoopOp} {Q : op.Ans → View → History → Prop}
    (hQ : ∀ {a v τ}, Q a v τ → InOrder config v τ)
    (h : ∀ {v τ} a, P v τ → Q a (v.does op) (τ ++ [.answer op a])) :
    Leads config n P (invoke op) Q := by
  refine .perform fun s τ a hs => ?_
  change InOrder config (view (own op a s)) _ ∧ Q a (view (own op a s)) _
  rw [view_own]
  exact ⟨hQ (h a hs), h a hs⟩

theorem leads_update {f : Connection → Connection} {P' : View → History → Prop}
    (hP' : ∀ {v τ}, P' v τ → InOrder config v τ)
    (h : ∀ s τ, P (view s) τ → P' (view { s with conn := f s.conn }) τ) :
    Leads config n P (update f) fun _ => P' := .modify fun s τ hs => ⟨hP' (h s τ hs), h s τ hs⟩

namespace Still
variable (hP : Still config P)
include hP

theorem op (op : LoopOp) (hop : Neutral op) : Keeps config n P (invoke op) :=
  leads_op hP.inOrder fun a h => hP.neutral a hop h

theorem update {f : Connection → Connection}
    (hf : ∀ s : LoopState, view { s with conn := f s.conn } = view s) :
    Keeps config n P (Connection.update f) := leads_update hP.inOrder fun s _ h => by rwa [hf s]

theorem closeHandle (handle : Handle) : Keeps config n P (closeHandle handle) := by
  refine (hP.op (.isClosing handle) trivial).bind fun closing =>
    .ite (fun _ => ?_) fun _ => keeps_ret ()
  exact (hP.update fun _ => rfl).bind fun _ => hP.op (.close handle) trivial

theorem finalizeClose : Keeps config n P finalizeClose := by
  refine leads_ignores fun c => .ite (fun _ => keeps_ret ()) fun _ =>
    (hP.update fun _ => rfl).bind fun _ => ?_
  refine (hP.closeHandle .tcp).bind fun _ => (hP.closeHandle .resumeAsync).bind fun _ => ?_
  exact (hP.closeHandle .closeAsync).bind fun _ => hP.closeHandle .outboxAsync

theorem marks :
    Keeps config n P (Connection.update fun c => { c with
      teardownStarted := true, state := .closing }) :=
  leads_update hP.inOrder fun _ _ => hP.marked

theorem releases :
    Keeps config n P (this >>= fun c => if c.consumerStarted then invoke .closeChannel
    else Connection.finalizeClose) :=
  leads_ignores fun _ => .ite (fun _ => hP.op .closeChannel trivial) fun _ => hP.finalizeClose

theorem beginTeardown : Keeps config n P beginTeardown :=
  leads_ignores fun _ => .ite (fun _ => keeps_ret ()) fun _ => hP.marks.bind fun _ => hP.releases

theorem fails :
    Leads config n (fun v τ => P { v with torn := true } τ)
      Connection.beginTeardown fun _ => P := by
  have hmarks : Leads config n (fun v τ => P { v with torn := true } τ)
      (Connection.update fun c => { c with teardownStarted := true, state := .closing })
        fun _ => P :=
    leads_update hP.inOrder fun _ _ => hP.marked
  refine leads_looks fun s => .ite (fun htorn => .ret fun t τ ⟨h, ht⟩ => ?_) fun _ => ?_
  · have hsame : { view t with torn := true } = view t := by
      rw [← (congrArg View.torn ht).trans htorn]
    rwa [hsame] at h
  · exact (hmarks.mono (fun _ _ h => h.1) fun _ _ _ => id).bind fun _ => hP.releases

theorem flushOut
    (hwrite : ∀ data teardownAfter, Keeps config n P (invoke (.write ⟨data, .tls teardownAfter⟩)))
    (teardownAfter : Bool) : Keeps config n P (flushOut teardownAfter) := by
  have htls : ∀ data, Keeps config n P (tlsWrite data teardownAfter) := fun data =>
    (hwrite data teardownAfter).bind fun _ => .ite (fun _ => hP.beginTeardown) fun _ => keeps_ret ()
  have hall : ∀ pieces, Keeps config n P (writeAll teardownAfter pieces) := by
    intro pieces
    induction pieces with
    | nil => exact keeps_ret ()
    | cons piece pieces ih => exact (htls piece).bind fun _ => ih
  exact leads_ignores fun c => (hall _).bind fun _ => hP.update fun _ => rfl

theorem onCloseAsync : Keeps config n P onCloseAsync := hP.marks.bind fun _ => hP.finalizeClose

theorem pushes (data : Bytes) :
    Keeps config n P (invoke (.push data) >>= fun _ => applyBackpressure config) := by
  refine (hP.op (.push data) trivial).bind fun _ => leads_ignores fun c =>
    .ite (fun _ => ?_) fun _ => keeps_ret ()
  refine (hP.op .bufferedBytes trivial).bind fun buffered =>
    .ite (fun _ => ?_) fun _ => keeps_ret ()
  exact (hP.op .readStop trivial).bind fun _ => hP.update fun _ => rfl

theorem onResumeAsync : Keeps config n P onResumeAsync := by
  refine leads_ignores fun c => .ite (fun _ => ?_) fun _ => keeps_ret ()
  exact (hP.update fun _ => rfl).bind fun _ => hP.op .readStart trivial

theorem destroy : Keeps config n P destroy := by
  refine leads_ignores fun c => ?_
  cases c.session with
  | none => exact hP.op .delete trivial
  | some session => exact (hP.op (.emitDisconnected ..) trivial).bind fun _ => hP.op .delete trivial

theorem onHandleClosed : Keeps config n P onHandleClosed := by
  refine (hP.update fun _ => rfl).bind fun _ => leads_ignores fun c =>
    .ite (fun _ => .ite (fun _ => ?_) ?_) ?_
  · exact (hP.op .joinConsumer trivial).bind fun _ => hP.destroy
  · exact fun _ => hP.destroy
  · exact fun _ => keeps_ret ()

end Still

/-! ## Before the consumer is started -/

theorem http_op {op : LoopOp} (hstart : isStart op = false) :
    Keeps config n (Chosen tls true talk) (invoke op) := by
  refine leads_op still_chosen.inOrder fun a h =>
    ⟨h.does hstart (fun hhttp => ?_) a, h.http, h.talk⟩
  exact absurd (h.http.symm.trans hhttp) (by decide)

theorem http_wire : WireKind fun _ p => Keeps config n (Chosen tls true talk) p where
  ret := keeps_ret
  bind := .bind
  this _ _ h := h
  write _ _ _ := http_op rfl
  encrypts _ := http_op rfl
  takeOutbox := http_op rfl
  assignTls hf := still_chosen.update fun s => by
    obtain ⟨_, heq⟩ := hf s.conn
    rw [heq]
    rfl
  teardown := still_chosen.beginTeardown

theorem http_sending : SendingKind fun _ p => Keeps config n (Chosen tls true talk) p where
  ret := keeps_ret
  bind := .bind
  this _ _ h := h
  op op hop := http_op (by cases op <;> first | rfl | exact hop.elim)
  assign hf := leads_update still_chosen.inOrder fun s _ h => by
    obtain ⟨_, _, _, heq⟩ := hf s.conn
    rw [heq]
    refine ⟨{ h with download := fun hhttp => ?_ }, h.http, h.talk⟩
    exact absurd (h.http.symm.trans hhttp) (by decide)
  teardown := still_chosen.beginTeardown

theorem keeps_handleHttpData : Keeps config n (Chosen tls true talk) handleHttpData := by
  have hdone : Keeps config n (Chosen tls true talk)
      (update fun c => { c with httpDone := true }) :=
    still_chosen.update fun _ => rfl
  have hbad : Keeps config n (Chosen tls true talk) sendBadRequest :=
    http_wire.sendHttpSimple _ _ _ _ _
  refine leads_ignores fun c => .ite (fun _ => keeps_ret ()) fun _ => .ite (fun _ => ?_) fun _ => ?_
  · exact .ite (fun _ => hdone.bind fun _ => hbad) fun _ => keeps_ret ()
  · refine hdone.bind fun _ => ?_
    cases parseHttpRequest (c.handshakeBuffer.take (httpHeaderEnd c.handshakeBuffer)) with
    | none => exact hbad
    | some request =>
      exact (still_chosen.op (.dispatchHttp request) trivial).bind fun actions =>
        http_sending.actAll actions

/-! ## The handshake -/

/-- A reply is noted, and handed over by the next operation. -/
def Owes (tls : Bool) (talk : Talk) (data : Bytes) (v : View) (τ : History) : Prop :=
  ∃ v₀, Chosen tls false talk v₀ τ ∧ v = { v₀ with replies := v₀.replies ++ [data] }

def Paid (tls : Bool) (talk : Talk) (ok : Bool) (v : View) (τ : History) : Prop :=
  Chosen tls false talk { v with torn := v.torn || !ok } τ

section
variable {data : Bytes} {ok : Bool} {v : View} {τ : History} {op : LoopOp}

theorem Owes.inOrder (h : Owes tls talk data v τ) : InOrder config v τ := by
  obtain ⟨v₀, h, rfl⟩ := h
  have hin : InOrder config v₀ τ := h.inOrder
  exact ⟨hin.front, hin.agreed, fun hspeaks => (hin.sent hspeaks).trans (List.prefix_append _ _)⟩

theorem Paid.inOrder (h : Paid tls talk ok v τ) : InOrder config v τ := by
  have hin := (@still_chosen config).inOrder h
  exact ⟨hin.front, hin.agreed, hin.sent⟩

theorem paid_true : Paid tls talk true v τ ↔ Chosen tls false talk v τ := by
  unfold Paid
  rw [Bool.not_true, Bool.or_false]

theorem paid_false : Paid tls talk false v τ ↔ Chosen tls false talk { v with torn := true } τ := by
  unfold Paid
  rw [Bool.not_false, Bool.or_true]

theorem Owes.pays (h : Owes tls talk data v τ) (hstart : isStart op = false)
    (hop : replyBy op = [data]) (a : op.Ans) (hok : ok = true → repliedBy (.answer op a) = [data]) :
    Paid tls talk ok (v.does op) (τ ++ [.answer op a]) := by
  obtain ⟨v₀, h, rfl⟩ := h
  refine ⟨⟨h.active, ?_, ?_, h.download, h.buffer, fun hhttp => ?_, fun hhttp htorn => ?_,
    h.speaks⟩, h.http, h.talk⟩
  · change (v₀.log ++ [op]).any isStart = false
    rw [any_append_singleton, h.log, hstart, Bool.or_false]
  · rw [any_append_singleton, h.history]
    exact hstart
  · change (v₀.does op).sent = v₀.replies ++ [data]
    rw [View.sent_does op h.log hstart, hop, h.sent hhttp]
  · obtain ⟨hup, htaken⟩ := Bool.or_eq_false_iff.mp htorn
    rw [takenReplies_append (.answer op a) h.history hstart, hok (by simpa using htaken)]
    exact congrArg (· ++ [data]) (h.replied hhttp hup)

theorem leads_pays (hstart : isStart op = false) (hop : replyBy op = [data]) (taken : op.Ans → Bool)
    (htaken : ∀ a, taken a = true → repliedBy (.answer op a) = [data]) :
    Leads config n (Owes tls talk data) (invoke op) fun a => Paid tls talk (taken a) :=
  leads_op Paid.inOrder fun a h => h.pays hstart hop a (htaken a)

end

theorem leads_replyTls (data : Bytes) (teardownAfter : Bool) :
    Leads config n (Owes tls talk data) (tlsSend data teardownAfter) fun ok =>
      Paid tls talk ok := by
  have hssl : Leads config n (Owes tls talk data) (sslWrite data) fun ok => Paid tls talk ok := by
    refine (leads_pays rfl rfl Prod.fst fun a ha => ?_).bind fun a => ?_
    · obtain ⟨ok, sent⟩ := a
      obtain rfl : ok = true := ha
      rfl
    · exact (leads_update Paid.inOrder fun _ _ h => h).bind fun _ => .ret fun _ _ h => h
  have hflush : Keeps config n (Chosen tls false talk) (flushOut teardownAfter) :=
    still_chosen.flushOut
    (fun _ _ => leads_op still_chosen.inOrder fun a h =>
      ⟨h.does rfl (fun _ => rfl) a, h.http, h.talk⟩) teardownAfter
  refine hssl.bind fun ok => ?_
  cases ok with
  | false => exact .ret fun _ _ h => h
  | true =>
    refine (hflush.mono (fun _ _ => paid_true.mp) fun _ _ _ => id).bind fun _ => ?_
    exact .ret fun _ _ => paid_true.mpr

theorem keeps_sendHandshakeReply (status : HandshakeStatus) :
    Keeps config n (Chosen tls false talk) (sendHandshakeReply status) := by
  have hfails : ∀ ok : Bool, Leads config n (Paid tls talk ok)
      (if (!ok) = true then beginTeardown else .ret ()) fun _ => Chosen tls false talk := by
    intro ok
    cases ok with
    | false => exact still_chosen.fails.mono (fun _ _ => paid_false.mp) fun _ _ _ => id
    | true => exact .ret fun _ _ => paid_true.mp
  refine leads_ignores fun c =>
    .bind (R := fun _ s τ => Owes tls talk (handshakeReply status c) (view s) τ) ?_ fun _ => ?_
  · refine .modify fun s τ h => ?_
    have howes : Owes tls talk (handshakeReply status c) (view { s with
        uv := { s.uv with replies := s.uv.replies ++ [(status, handshakeReply status c)] } }) τ :=
      ⟨view s, h, congrArg (View.mk _ _ _ _ _ _ _) List.map_append⟩
    exact ⟨howes.inOrder, howes⟩
  · refine .ite (fun _ => (leads_replyTls _ _).bind hfails) fun _ => ?_
    refine (leads_pays rfl rfl id fun taken htaken => ?_).bind hfails
    obtain rfl : taken = true := htaken
    rfl

def Starting (tls : Bool) (talk : Talk) (v : View) (τ : History) : Prop :=
  Chosen tls false talk v τ ∧ v.state ≠ .handshaking

theorem still_starting : Still config (Starting tls talk) where
  inOrder h := h.1.inOrder
  neutral a hop h := ⟨(@still_chosen config).neutral a hop h.1, h.2⟩
  marked h := ⟨(@still_chosen config).marked h.1, State.noConfusion⟩

theorem leads_beginStreaming {request : HandshakeRequest}
    (hsize : kHandshakeRequestSize ≤ talk.plaintext.length)
    (hparsed : parseAndVerifyHandshake config.key talk.plaintext = .ok request)
    (hmode : talk.mode = config.modeFor request.version) :
    Leads config n (Chosen tls false talk) (beginStreaming config request) fun _ =>
      Rest config tls := by
  let agreed : Talk := { talk with integrity := hasFlag request.flags .integrityChecks }
  have hnames : Leads config n (Chosen tls false talk) (update fun c => { c with
      integrityChecks := hasFlag request.flags .integrityChecks
      session := some (sessionHex request.sessionId) }) fun _ => Chosen tls false agreed := by
    refine leads_update still_chosen.inOrder fun s τ h =>
      ⟨{ h with }, h.http, ?_⟩
    exact congrArg (fun t : Talk => { t with
      integrity := hasFlag request.flags .integrityChecks }) h.talk
  have hstate : Leads config n (Chosen tls false agreed)
      (update fun c => { c with state := .streaming }) fun _ => Starting tls agreed :=
    leads_update still_starting.inOrder fun s τ h =>
      ⟨⟨{ h with buffer := State.noConfusion }, h.http, h.talk⟩,
        State.noConfusion⟩
  have hempties : Leads config n (Starting tls agreed) (update fun c => { c with
      handshakeBuffer := []
      consumerStarted := true }) fun _ => Starting tls { agreed with buffer := [] } := by
    refine leads_update still_starting.inOrder fun s τ ⟨h, hs⟩ =>
      ⟨⟨{ h with buffer := fun hno => absurd hno hs }, h.http, ?_⟩,
        hs⟩
    exact congrArg (fun t : Talk => { t with buffer := [] }) h.talk
  have hstart : Leads config n (Starting tls { agreed with buffer := [] }) (invoke .startConsumer)
      fun _ => Relays config tls [] :=
    leads_op Relays.inOrder fun _ ⟨h, hs⟩ =>
      h.starts h.http hs (h.talk ▸ ⟨hsize, request, hparsed, hmode, rfl⟩)
  have hrest : ∀ leftover : Bytes, Keeps config n (Relays config tls [])
      (if leftover ≠ [] then invoke (.push leftover) >>= fun _ => applyBackpressure config
        else .ret ()) :=
    fun leftover => .ite (fun _ => still_relays.pushes leftover) fun _ => keeps_ret ()
  refine hnames.bind fun _ => leads_ignores fun c => ?_
  refine (still_chosen.op (.emitConnected ..) trivial).bind fun _ => hstate.bind fun _ => ?_
  refine (still_starting.op (.recordSession _) trivial).bind fun _ => leads_ignores fun c => ?_
  refine hempties.bind fun _ => hstart.bind fun _ => ?_
  exact (hrest _).mono (fun _ _ => id) fun _ _ _ => Or.inr

theorem leads_answerHandshake (hsize : kHandshakeRequestSize ≤ talk.plaintext.length) :
    Leads config n (Chosen tls false talk) (answerHandshake config talk.plaintext) fun _ =>
      Rest config tls := by
  have hreply : ∀ talk status, Leads config n (Chosen tls false talk) (sendHandshakeReply status)
      fun _ => Rest config tls :=
    fun _ status => (keeps_sendHandshakeReply status).mono (fun _ _ => id) fun _ _ _ h =>
      .inl h.toUnstarted
  unfold Connection.answerHandshake
  cases hparsed : parseAndVerifyHandshake config.key talk.plaintext with
  | error status => exact hreply _ status
  | ok request =>
    have hagrees : Leads config n (Chosen tls false talk) (update fun c => { c with
        protocolVersion := request.version
        mode := config.modeFor request.version })
        fun _ => Chosen tls false { talk with mode := config.modeFor request.version } := by
      refine leads_update still_chosen.inOrder fun s τ h =>
        ⟨{ h with }, h.http, ?_⟩
      exact congrArg (fun t : Talk => { t with mode := config.modeFor request.version }) h.talk
    refine (still_chosen.op (.makeDecompressor _) trivial).bind fun decompressor => ?_
    refine (still_chosen.op (.getOrCreateSink _) trivial).bind fun sink => ?_
    refine hagrees.bind fun _ => .ite (fun _ => hreply _ _) fun _ => ?_
    exact (keeps_sendHandshakeReply .ok).bind fun _ => leads_beginStreaming hsize hparsed rfl

def Buffered (tls : Bool) (v : View) (τ : History) : Prop :=
  Unstarted tls [] v τ ∧ v.talk.buffer = v.talk.plaintext

theorem decideProtocol_speaks {c : Connection}
    (h : ((decideProtocol c).httpMode && (decideProtocol c).protoDecided) = true) :
    (c.httpMode && c.protoDecided) = true ∨ ¬c.handshakeBuffer.take kMagic.length <+: kMagic := by
  unfold decideProtocol at h
  dsimp only at h
  split_ifs at h with hdecided hmismatch
  · exact .inl h
  · exact .inr ((mismatch_iff _).mp hmismatch)
  · exact absurd h Bool.false_ne_true
  · exact .inl h

theorem leads_handleHandshakeData (data : Bytes) :
    Leads config n (fun v τ => Unstarted tls data v τ ∧ v.state = .handshaking)
      (handleHandshakeData config data)
      fun _ => Rest config tls := by
  have hstays : ∀ c, (c.httpMode && c.protoDecided) = true → decideProtocol c = c := fun c hc =>
    if_pos ((Bool.and_eq_true _ _).mp hc).2
  have hbuffer : Leads config n (fun v τ => Unstarted tls data v τ ∧ v.state = .handshaking)
      (update fun c => decideProtocol (c.appending data))
      fun _ => Buffered tls := by
    refine leads_update (fun h => h.1.inOrder) fun s τ ⟨h, hstate⟩ => ?_
    have hall := h.buffer hstate
    have hhttp : (view s).http = true →
        (view { s with conn := decideProtocol (s.conn.appending data) }).http = true := by
      intro hyes
      change ((decideProtocol _).httpMode && (decideProtocol _).protoDecided) = true
      rw [hstays (s.conn.appending data) hyes]
      exact hyes
    have hspeaks : (view { s with conn := decideProtocol (s.conn.appending data) }).http = true →
      ¬(view s).talk.Speaks := by
      intro hyes
      refine (decideProtocol_speaks hyes).elim h.speaks fun hmismatch => ?_
      rwa [Talk.Speaks, ← hall]
    rw [decideProtocol_eq] at hhttp hspeaks ⊢
    have hstill : ∀ {b : Bool}, b = false → ((view s).http = true → b = true) →
        (view s).http = false :=
      fun hno himp => Bool.eq_false_of_not_eq_true fun hyes =>
        absurd (hno.symm.trans (himp hyes)) (by decide)
    refine ⟨⟨h.active, h.log, h.history, fun hno => h.download (hstill hno hhttp), fun _ => ?_,
      fun hno => h.sent (hstill hno hhttp), fun hno => h.replied (hstill hno hhttp), hspeaks⟩, hall⟩
    exact (List.append_nil _).trans hall
  refine hbuffer.bind fun _ => leads_looks fun s => ?_
  refine .ite (fun _ => .ret fun _ _ h => .inl h.1.1) fun hdecided =>
    .ite (fun hhttp => ?_) fun hhttp => ?_
  · refine Host.Leads.mono keeps_handleHttpData
      (fun _ τ ⟨h, hs⟩ => ⟨h.1, ?_, congrArg View.talk hs⟩) fun _ _ _ h => .inl h.toUnstarted
    rw [hs]
    simpa [view, hhttp] using hdecided
  · refine .ite (fun _ => .ret fun _ _ h => .inl h.1.1) fun hsize t τ ⟨⟨h, hall⟩, hs⟩ => ?_
    rw [hs] at hall
    change s.conn.handshakeBuffer = s.uv.plaintext at hall
    rw [hall] at hsize ⊢
    have hanswer : Leads config n (Chosen tls false (view s).talk)
        (answerHandshake config s.uv.plaintext)
        fun _ => Rest config tls := leads_answerHandshake (Nat.not_lt.mp hsize)
    refine hanswer t τ ⟨h, ?_, congrArg View.talk hs⟩
    rw [hs]
    simp [view, hhttp]

/-! ## Incoming data -/

theorem Talk.Agreed.receives {t : Talk} (h : t.Agreed config) (data : Bytes) :
    ({ t with plaintext := t.plaintext ++ data } : Talk).Agreed config := by
  obtain ⟨hsize, request, hparsed, hagreed⟩ := h
  refine ⟨?_, request, (parse_append hsize).trans hparsed, hagreed⟩
  rw [List.length_append]
  exact hsize.trans (Nat.le_add_right _ _)

theorem Rests.receives {v : View} {τ : History} (h : Rest config tls v τ) (data : Bytes) :
    Rests config tls data { v with
      talk := { v.talk with plaintext := v.talk.plaintext ++ data } } τ := by
  refine h.imp (fun h => { h with buffer := fun hs => ?_, speaks := fun hhttp hs => ?_ })
    fun h => { h with agreed := h.agreed.receives data }
  · rw [← h.buffer hs, List.append_nil]
  · exact h.speaks hhttp (((List.prefix_append _ data).take _).trans hs)

theorem Rests.skips {v : View} {τ : History} {data : Bytes} (h : Rests config tls data v τ)
    (hstate : v.state ≠ .handshaking) : Rest config tls v τ :=
  h.imp_left fun h => { h with buffer := fun hs => absurd hs hstate }

theorem keeps_handleData (data : Bytes) :
    Keeps config n (Rest config tls) (handleData config data) := by
  refine leads_looks fun s => .bind
    (R := fun _ t τ => Rests config tls data (view t) τ ∧
      (view t).state = s.conn.state) ?_ fun _ => ?_
  · refine .modify fun t τ ⟨h, ht⟩ => ?_
    have hafter := h.receives data
    exact ⟨hafter.inOrder, hafter, congrArg View.state ht⟩
  cases hstate : s.conn.state with
  | handshaking =>
    refine (leads_handleHandshakeData data).mono (fun _ _ h => ?_) fun _ _ _ => id
    exact ⟨h.1.resolve_right fun hr => hr.state h.2, h.2⟩
  | streaming =>
    have hcounts : Keeps config n (Rest config tls) (update fun c => { c with
        wireBytes := c.wireBytes + data.length }) := still_rest.update fun _ => rfl
    refine (hcounts.mono (fun _ _ h => h.1.skips ?_) fun _ _ _ => id).bind fun _ =>
      still_rest.pushes data
    rw [h.2]
    exact State.noConfusion
  | closing =>
    refine .ret fun _ _ h => h.1.skips ?_
    rw [h.2]
    exact State.noConfusion

/-! What the TLS layer writes on its own is not counted as handed over: that was counted when it was
encrypted. -/

theorem keeps_flushOut (teardownAfter : Bool) :
    Keeps config n (Rest config true) (flushOut teardownAfter) := by
  refine still_rest.flushOut (fun _ _ => leads_op Rests.inOrder fun a => ?_) teardownAfter
  exact Or.imp (fun h => h.does rfl (fun _ => rfl) a) fun h => h.silent a rfl rfl

theorem keeps_ingestRead (answers : List SslAnswer) :
    Keeps config n (Rest config true) (ingestRead config answers) := by
  induction answers with
  | nil => exact keeps_ret ()
  | cons answer answers ih =>
    refine (still_rest.update fun _ => rfl).bind fun _ => ?_
    cases answer.result with
    | success data => exact (keeps_handleData data).bind fun _ => ih
    | wantRead => exact keeps_flushOut false
    | wantWrite => exact (keeps_flushOut false).bind fun _ => ih
    | failure => exact still_rest.beginTeardown

theorem keeps_ingestAccept (answers : List SslAnswer) :
    Keeps config n (Rest config true) (ingestAccept config answers) := by
  induction answers with
  | nil => exact keeps_ret ()
  | cons answer answers ih =>
    refine (still_rest.update fun _ => rfl).bind fun _ => ?_
    cases answer.result with
    | success data =>
      refine (still_rest.update fun _ => rfl).bind fun _ => ?_
      exact (keeps_flushOut false).bind fun _ => keeps_ingestRead answers
    | wantRead => exact keeps_flushOut false
    | wantWrite => exact (keeps_flushOut false).bind fun _ => ih
    | failure => exact still_rest.beginTeardown

theorem keeps_handlePlainOrTls (data : Bytes) (answers : List SslAnswer) :
    Keeps config n (Rest config tls) (handlePlainOrTls config data answers) := by
  refine leads_looks fun s => .ite (fun hactive t τ ⟨h, ht⟩ => ?_) fun _ => ?_
  · obtain rfl : tls = true := h.active.symm.trans ((congrArg View.active ht).trans hactive)
    have hread : Keeps config n (Rest config true) (ingest config answers) :=
      leads_ignores fun c => .ite (fun _ => keeps_ingestRead answers) fun _ =>
        keeps_ingestAccept answers
    exact hread t τ h
  · exact (keeps_handleData data).mono (fun _ _ h => h.1) fun _ _ _ => id

variable (config) in
def Between (v : View) (τ : History) : Prop := ∃ tls, Rest config tls v τ

theorem leads_between {p : LoopM α} (hp : Leads config n P p fun _ => Rest config tls) :
    Leads config n P p fun _ => Between config := hp.mono (fun _ _ => id) fun _ _ _ h => ⟨tls, h⟩

theorem keeps_handleRaw (data : Bytes) (answers : List SslAnswer) :
    Keeps config n (Between config) (handleRaw config data answers) := by
  refine leads_looks fun s => .ite (fun hfirst => ?_) fun _ => ?_
  · -- the first bytes: the consumer has not been started, so that the transport can still be chosen
    intro t τ ⟨⟨tls, h⟩, ht⟩
    have hun : Unstarted tls [] (view t) τ :=
      h.resolve_right fun hr => hr.state ((congrArg View.state ht).trans hfirst.1)
    have hafter : Unstarted (detectTls data t.conn).tlsActive []
        (view { t with conn := detectTls data t.conn }) τ := by
      unfold detectTls
      split_ifs <;> exact { hun with active := rfl }
    have hgo : Leads config n (Rest config (detectTls data t.conn).tlsActive)
        (this >>= fun c => if c.tlsActive then
        invoke .tlsInit >>= fun ok => if (!ok) = true then beginTeardown
          else handlePlainOrTls config data answers
        else handlePlainOrTls config data answers) fun _ => Between config := by
      refine leads_between (leads_ignores fun c => .ite (fun _ => ?_) fun _ =>
        keeps_handlePlainOrTls data answers)
      refine (still_rest.op .tlsInit trivial).bind fun ok =>
        .ite (fun _ => still_rest.beginTeardown) fun _ => ?_
      exact keeps_handlePlainOrTls data answers
    exact ⟨hafter.inOrder, hgo _ τ (.inl hafter)⟩
  · rintro t τ ⟨⟨tls, h⟩, -⟩
    exact leads_between (keeps_handlePlainOrTls data answers) t τ h

/-! ## Replies -/

variable (config) in
def Holds (tls : Bool) (pending : Bytes) (v : View) (τ : History) : Prop :=
  Relays config tls pending v τ ∧ v.torn = false

theorem leads_hands {pending : Bytes} {op : LoopOp} {k : op.Ans → LoopM α}
    (hop : handedBy tls op = pending) (htaken : ∀ a, takenBy (.answer op a) = [])
    (hk : ∀ a, Keeps config n (Rest config tls) (k a)) :
    Leads config n (Holds config tls pending) (invoke op >>= k) fun _ => Rest config tls := by
  have hhands : Leads config n (Holds config tls pending) (invoke op) fun _ => Rest config tls :=
    leads_op Rests.inOrder fun a h => .inr (h.1.hands h.2 a hop (htaken a))
  exact hhands.bind hk

theorem leads_tlsSend (pending : Bytes) :
    Leads config n (Holds config true pending) (tlsSend pending false) fun _ =>
      Rest config true := by
  have hwrite : Leads config n (Holds config true pending) (sslWrite pending) fun _ =>
      Rest config true :=
    leads_hands rfl (fun _ => rfl) fun a =>
      (still_rest.update fun _ => rfl).bind fun _ => keeps_ret a.1
  refine hwrite.bind fun ok => .ite (fun _ => keeps_ret false) fun _ => ?_
  exact (keeps_flushOut false).bind fun _ => keeps_ret true

theorem leads_onOutboxAsync :
    Leads config n (Relays config tls []) onOutboxAsync fun _ => Rest config tls := by
  have htake : Leads config n (Relays config tls []) (invoke .takeOutbox) fun pending =>
      Relays config tls pending :=
    leads_op Relays.inOrder fun pending h => h.empties pending
  have hfails : ∀ ok : Bool, Keeps config n (Rest config tls)
      (if (!ok) = true then beginTeardown else .ret ()) :=
    fun ok => .ite (fun _ => still_rest.beginTeardown) fun _ => keeps_ret ()
  refine htake.bind fun pending => leads_looks fun s => .ite (fun hnone => ?_) fun hsome => ?_
  · exact .ret fun t τ ⟨h, ht⟩ => .inr (h.drops (ht ▸ hnone))
  have hup : s.conn.teardownStarted = false :=
    Bool.eq_false_of_not_eq_true fun htorn => hsome (.inr htorn)
  refine .ite (fun hactive t τ ⟨h, ht⟩ => ?_) fun hplain t τ ⟨h, ht⟩ => ?_
  · obtain rfl : tls = true := h.active.symm.trans ((congrArg View.active ht).trans hactive)
    exact ((leads_tlsSend pending).bind hfails) t τ ⟨h, (congrArg View.torn ht).trans hup⟩
  · obtain rfl : tls = false :=
      h.active.symm.trans ((congrArg View.active ht).trans (Bool.eq_false_of_not_eq_true hplain))
    exact leads_hands rfl (fun _ => rfl) hfails t τ ⟨h, (congrArg View.torn ht).trans hup⟩

end Dicker.Server.Outbox
