import Dicker.Lib.Traced
import Dicker.Server.LoopInvariant

/-! The bytes of a download and their way to the transport (`begin_download_response` to
`on_write_download` of server/connection.cxx). What the callbacks do to a download is said on a
`View` of the loop: the fields they decide by, the writes under way and the bytes handed over so
far. -/

namespace Dicker.Server.Handover
open Lib Host Connection Dicker.Server.Runtime

abbrev History := Trace LoopOp LoopOp.Ans Callback

/-! ## What is to be handed over -/

def chunksOf : List ArchiveStep → List Bytes
  | [] => []
  | step :: steps =>
    if step.ok = false ∨ step.chunk = [] then []
    else step.chunk :: if step.more then chunksOf steps else []

def downloadHead (sessionId : Bytes) : Bytes :=
  httpResponseHeaders 200 (ascii "OK") (ascii "application/zstd") (-1)
    [(ascii "Content-Disposition", ascii "attachment; filename=\"" ++ sessionId ++
      ascii ".tar.zst\""), (ascii "Connection", ascii "close")]

/-- The runs in which a request is answered with a download, of an archive with these answers of
`next`. -/
def serving (sessionId dirPath : Bytes) (steps : List ArchiveStep) :
    (op : LoopOp) → LoopState → op.Ans → Prop
  | .dispatchHttp _, _, actions => actions = [.beginDownload sessionId dirPath]
  | .archiveBegin _ _, _, archive => archive = some steps
  | _, _, _ => True

/-! ## What has been handed over -/

def isBegin : LoopOp → Bool
  | .archiveBegin .. => true
  | _ => false

def response (log : List LoopOp) : List LoopOp := (log.dropWhile fun op => !isBegin op).tail

/-- The bytes of the response that an operation takes: `uv_write` in clear, or else
`wolfSSL_write`. -/
def handedBy (tls : Bool) : LoopOp → Bytes
  | .write ⟨data, .download⟩ => if tls then [] else data
  | .sslWrite data => if tls then data else []
  | _ => []

def handed (s : LoopState) : Bytes := (response s.uv.log).flatMap (handedBy s.conn.tlsActive)

def isDownload (request : WriteRequest) : Bool := request.callback == .download

def outstanding (writes : List WriteRequest) : ℕ := writes.countP isDownload

/-! ## What can end a download early -/

def isWriteFailure : Seen LoopOp LoopOp.Ans Callback → Bool
  | .event (.written _ failed) => failed
  | .answer (.write _) taken => !taken
  | .answer (.sslWrite _) result => !result.1
  | _ => false

def failsIn (answers : List SslAnswer) : Bool := answers.any fun answer => answer.result == .failure

def isIncomingEnd : Seen LoopOp LoopOp.Ans Callback → Bool
  | .event .readError => true
  | .event (.read _ answers) => failsIn answers
  | _ => false

def WriteFailed (τ : History) : Prop := ∃ x ∈ τ, isWriteFailure x = true

def IncomingEnded (τ : History) : Prop := ∃ x ∈ τ, isIncomingEnd x = true

def Failed (τ : History) : Prop := WriteFailed τ ∨ IncomingEnded τ

def isCompletion : Seen LoopOp LoopOp.Ans Callback → Bool
  | .event (.written request _) => isDownload request
  | _ => false

def completed (τ : History) : ℕ := τ.countP isCompletion

variable {τ : History} {x : Seen LoopOp LoopOp.Ans Callback} {s : LoopState}

theorem WriteFailed.append (h : WriteFailed τ) (τ' : History) : WriteFailed (τ ++ τ') := by
  obtain ⟨x, hx, hfail⟩ := h
  exact ⟨x, List.mem_append_left τ' hx, hfail⟩

theorem IncomingEnded.append (h : IncomingEnded τ) (τ' : History) : IncomingEnded (τ ++ τ') := by
  obtain ⟨x, hx, hend⟩ := h
  exact ⟨x, List.mem_append_left τ' hx, hend⟩

theorem Failed.append (h : Failed τ) (τ' : History) : Failed (τ ++ τ') :=
  h.imp (fun h => h.append τ') fun h => h.append τ'

theorem writeFailed_last (hx : isWriteFailure x = true) :
    Failed (τ ++ [x]) := .inl ⟨x, List.mem_append_right τ (List.mem_singleton_self x), hx⟩

theorem incomingEnded_last (hx : isIncomingEnd x = true) :
    Failed (τ ++ [x]) := .inr ⟨x, List.mem_append_right τ (List.mem_singleton_self x), hx⟩

theorem completed_seen (hx : isCompletion x = false) (τ : History) :
    completed (τ ++ [x]) = completed τ := by
  rw [completed, List.countP_append, List.countP_singleton, hx]
  rfl

/-! ## The view -/

structure View where
  state : State
  tlsDetected : Bool
  tlsActive : Bool
  protoDecided : Bool
  httpMode : Bool
  httpDone : Bool
  download : Option (List ArchiveStep)
  downloadLast : Bool
  torn : Bool
  writes : List WriteRequest
  begun : Bool
  handed : Bytes

def view (s : LoopState) : View where
  state := s.conn.state
  tlsDetected := s.conn.tlsDetected
  tlsActive := s.conn.tlsActive
  protoDecided := s.conn.protoDecided
  httpMode := s.conn.httpMode
  httpDone := s.conn.httpDone
  download := s.conn.download
  downloadLast := s.conn.downloadLast
  torn := s.conn.teardownStarted
  writes := s.uv.writes
  begun := s.uv.log.any isBegin
  handed := handed s

theorem response_append (log : List LoopOp) (op : LoopOp) :
    response (log ++ [op]) = if log.any isBegin then response log ++ [op] else [] := by
  induction log with
  | nil => cases h : isBegin op <;> simp [response, h]
  | cons x log ih =>
    cases h : isBegin x
    · simpa [response, h] using ih
    · simp [response, h]

theorem response_of_not_begun {log : List LoopOp} (h : log.any isBegin = false) :
    response log = [] := by
  have hall : ∀ op ∈ log, (!isBegin op) = true := by
    intro op hop
    rw [List.any_eq_false.mp h op hop |> Bool.eq_false_of_not_eq_true]
    rfl
  rw [response, List.dropWhile_eq_nil_iff.mpr hall]
  rfl

theorem handed_of_not_begun (h : (view s).begun = false) : (view s).handed = [] := by
  change (response s.uv.log).flatMap _ = []
  rw [response_of_not_begun h]
  rfl

theorem handed_unchanged (s : LoopState) :
    (if (view s).begun then (view s).handed ++ [] else []) = (view s).handed := by
  split_ifs with h
  · exact List.append_nil _
  · exact (handed_of_not_begun (Bool.eq_false_of_not_eq_true h)).symm

theorem view_own (op : LoopOp) (a : op.Ans) (s : LoopState) : view (own op a s) = { view s with
    writes := (uvOwn op a s.uv).writes
    begun := (view s).begun || isBegin op
    handed := if (view s).begun then (view s).handed ++ handedBy s.conn.tlsActive op else [] } := by
  have hbegun : (s.uv.log ++ [op]).any isBegin = (s.uv.log.any isBegin || isBegin op) := by
    rw [List.any_append]
    simp
  have hhanded : handed (own op a s) =
      if s.uv.log.any isBegin then handed s ++ handedBy s.conn.tlsActive op else [] := by
    change (response (s.uv.log ++ [op])).flatMap (handedBy s.conn.tlsActive) = _
    rw [response_append]
    split_ifs
    · rw [List.flatMap_append, List.flatMap_singleton]
      rfl
    · rfl
  unfold view
  rw [hhanded]
  simp only [View.mk.injEq]
  exact ⟨rfl, rfl, rfl, rfl, rfl, rfl, rfl, rfl, rfl, rfl, hbegun, trivial⟩

def Neutral : LoopOp → Prop
  | .write _ | .sslWrite _ | .archiveBegin .. => False
  | _ => True

theorem view_neutral {op : LoopOp} (hop : Neutral op) (a : op.Ans) (s : LoopState) :
    view (own op a s) = view s := by
  rw [view_own]
  cases op with
  | write | sslWrite | archiveBegin => exact hop.elim
  | push data =>
    simp only [handedBy, isBegin, handed_unchanged, Bool.or_false, uvOwn]
    split_ifs <;> rfl
  | _ =>
    simp only [handedBy, isBegin, handed_unchanged, Bool.or_false, uvOwn]
    rfl

theorem view_write {data : Bytes} {callback : WriteCallback} (hcallback : callback ≠ .download)
    (taken : Bool) (s : LoopState) : view (own (.write ⟨data, callback⟩) taken s) = { view s with
      writes := if taken then (view s).writes ++ [⟨data, callback⟩] else (view s).writes } := by
  have hnone : handedBy s.conn.tlsActive (.write ⟨data, callback⟩) = [] := by
    cases callback with
    | download => exact absurd rfl hcallback
    | _ => rfl
  have hbegin : ((view s).begun || isBegin (.write ⟨data, callback⟩)) = (view s).begun :=
    Bool.or_false _
  rw [view_own, hnone, handed_unchanged, hbegin]
  cases taken <;> rfl

/-! ## Where a connection is -/

structure InOrder (full : Bytes) (v : View) (τ : History) : Prop where
  single : outstanding v.writes ≤ 1
  front : v.begun = true → v.handed <+: full
  torn : v.begun = true → v.torn = true → v.handed = full ∧ outstanding v.writes = 0 ∨ Failed τ

def tearsDown : WriteCallback → Bool
  | .reply teardownAfter | .tls teardownAfter => teardownAfter
  | .download => false

def Calm (writes : List WriteRequest) : Prop :=
  ∀ request ∈ writes, tearsDown request.callback = false

def Barred (v : View) : Prop :=
  v.state ≠ .handshaking ∨ v.httpDone = true ∨ v.protoDecided = true ∧ v.httpMode = false

structure Off (v : View) : Prop where
  unbegun : v.begun = false
  none : outstanding v.writes = 0
  barred : Barred v

structure Pending (v : View) (τ : History) : Prop where
  fresh : completed τ = 0
  unbegun : v.begun = false
  none : outstanding v.writes = 0
  calm : Calm v.writes
  untorn : v.torn = false
  state : v.state = .handshaking
  undone : v.httpDone = false
  http : v.protoDecided = true → v.httpMode = true

structure Begun (v : View) : Prop where
  begun : v.begun = true
  calm : Calm v.writes
  state : v.state ≠ .streaming
  done : v.httpDone = true
  http : v.httpMode = true
  decided : v.protoDecided = true
  detected : v.tlsDetected = true

def left (v : View) : List Bytes := if v.downloadLast then [] else chunksOf (v.download.getD [])

structure Live (full : Bytes) (total : ℕ) (v : View) (τ : History) : Prop where
  archive : v.download.isSome
  bytes : v.handed ++ (left v).flatten = full
  count : completed τ + outstanding v.writes + (left v).length ≤ total
  single : outstanding v.writes ≤ 1
  torn : v.torn = true → Failed τ
  waits : v.torn = false → outstanding v.writes = 1

structure Over (full : Bytes) (v : View) (τ : History) : Prop where
  torn : v.torn = true
  none : outstanding v.writes = 0
  ended : v.handed = full ∨ Failed τ ∧ v.handed <+: full

structure Downloading (full : Bytes) (total : ℕ) (v : View)
    (τ : History) : Prop extends Begun v where
  flow : Live full total v τ ∨ Over full v τ

section
variable {full : Bytes} {total : ℕ} {v : View}

theorem inOrder_of_unbegun (hunbegun : v.begun = false) (hnone : outstanding v.writes = 0) :
    InOrder full v τ where
  single := hnone.trans_le (Nat.zero_le 1)
  front h := nomatch hunbegun.symm.trans h
  torn h := nomatch hunbegun.symm.trans h

theorem Off.inOrder (h : Off v) : InOrder full v τ := inOrder_of_unbegun h.unbegun h.none

theorem Pending.inOrder (h : Pending v τ) : InOrder full v τ := inOrder_of_unbegun h.unbegun h.none

theorem Live.inOrder (h : Live full total v τ) : InOrder full v τ where
  single := h.single
  front _ := h.bytes ▸ List.prefix_append _ _
  torn _ htorn := .inr (h.torn htorn)

theorem Over.inOrder (h : Over full v τ) : InOrder full v τ where
  single := h.none.trans_le (Nat.zero_le 1)
  front _ := h.ended.elim (fun h => h ▸ List.prefix_rfl) And.right
  torn _ _ := h.ended.imp (fun hfull => ⟨hfull, h.none⟩) And.left

theorem Downloading.inOrder (h : Downloading full total v τ) : InOrder full v τ :=
  h.flow.elim Live.inOrder Over.inOrder

/-! What has been seen is of no matter where it is not a completion. -/

variable (hx : isCompletion x = false)
include hx

theorem Pending.seen (h : Pending v τ) : Pending v (τ ++ [x]) :=
  { h with fresh := (completed_seen hx τ).trans h.fresh }

theorem Live.seen (h : Live full total v τ) : Live full total v (τ ++ [x]) where
  archive := h.archive
  bytes := h.bytes
  count := (completed_seen hx τ).symm ▸ h.count
  single := h.single
  torn ht := (h.torn ht).append _
  waits := h.waits

omit hx in
theorem Over.seen (h : Over full v τ) : Over full v (τ ++ [x]) where
  torn := h.torn
  none := h.none
  ended := h.ended.imp_right fun ⟨hfailed, hfront⟩ => ⟨hfailed.append _, hfront⟩

theorem Downloading.seen (h : Downloading full total v τ) :
    Downloading full total v (τ ++ [x]) where
  toBegun := h.toBegun
  flow := h.flow.imp (Live.seen hx) Over.seen

end

/-! ## Programs -/

structure Service where
  config : ServerConfig
  maxRead : ℕ
  sessionId : Bytes
  dirPath : Bytes
  steps : List ArchiveStep

namespace Service

def host (d : Service) : LoopHost :=
  hostIf d.config d.maxRead (serving d.sessionId d.dirPath d.steps)

def full (d : Service) : Bytes := downloadHead d.sessionId ++ (chunksOf d.steps).flatten

def total (d : Service) : ℕ := (chunksOf d.steps).length + 1

end Service

variable (d : Service) {α β : Type} {p : LoopM α} {P P' : View → History → Prop}

def Ends (p : LoopM α) (Q : α → View → History → Prop) (s : LoopState) (τ : History) : Prop :=
  d.host.always (fun s τ => InOrder d.full (view s) τ) p (fun a s τ => Q a (view s) τ) s τ

def Leads (P : View → History → Prop) (p : LoopM α) (P' : View → History → Prop) : Prop :=
  ∀ s τ, P (view s) τ → Ends d p (fun _ => P') s τ

structure Still (P : View → History → Prop) : Prop where
  inOrder : ∀ {v τ}, P v τ → InOrder d.full v τ
  seen : ∀ {v τ x}, isCompletion x = false → P v τ → P v (τ ++ [x])

variable {d}

section
variable {Q Q' : α → View → History → Prop}

theorem Ends.mono (hp : Ends d p Q s τ) (hQ : ∀ a v τ, Q a v τ → Q' a v τ) : Ends d p Q' s τ :=
  always_mono hp fun a _ τ => hQ a _ τ

theorem Ends.grows (hp : Ends d p Q s τ) : Ends d p (fun a v τ' => Q a v τ' ∧ τ <+: τ') s τ :=
  always_grows hp

theorem Ends.bind {p : LoopM β} {f : β → LoopM α} {R : β → View → History → Prop}
    (hp : Ends d p R s τ) (hf : ∀ b s τ, R b (view s) τ → Ends d (f b) Q s τ) :
    Ends d (p >>= f) Q s τ := always_bind (always_mono hp fun b s τ => hf b s τ)

theorem Ends.ite {C : Prop} [Decidable C] {q : LoopM α} (hp : C → Ends d p Q s τ)
    (hq : ¬C → Ends d q Q s τ) : Ends d (if C then p else q) Q s τ := by
  split_ifs with h
  · exact hp h
  · exact hq h

theorem Ends.looks {k : Connection → LoopM α} (hk : Ends d (k s.conn) Q s τ) :
    Ends d (this >>= k) Q s τ := hk

theorem Ends.update {f : Connection → Connection} {k : Unit → LoopM α}
    (horder : InOrder d.full (view { s with conn := f s.conn }) τ)
    (hk : Ends d (k ()) Q { s with conn := f s.conn } τ) :
    Ends d (update f >>= k) Q s τ := ⟨horder, hk⟩

theorem Ends.note {f : Uv → Uv} {k : Unit → LoopM α}
    (horder : InOrder d.full (view { s with uv := f s.uv }) τ)
    (hk : Ends d (k ()) Q { s with uv := f s.uv } τ) : Ends d (note f >>= k) Q s τ := ⟨horder, hk⟩

theorem Ends.invoke {op : LoopOp} {k : op.Ans → LoopM α}
    (hk : ∀ a w, d.host.allowed op s w a →
      InOrder d.full (view (own op a s)) (τ ++ [.answer op a]) ∧
      Ends d (k a) Q (own op a s) (τ ++ [.answer op a])) : Ends d (invoke op >>= k) Q s τ := hk

end

theorem Leads.ret (a : α) : Leads d P (.ret a) P := fun _ _ h => h

theorem Leads.bind {p : LoopM β} {f : β → LoopM α} {R : View → History → Prop} (hp : Leads d P p R)
    (hf : ∀ b, Leads d R (f b) P') : Leads d P (p >>= f) P' :=
  fun s τ h => Ends.bind (hp s τ h) fun b s τ => hf b s τ

theorem Leads.looks {k : Connection → LoopM α} (hk : ∀ c, Leads d P (k c) P') :
    Leads d P (this >>= k) P' := fun s τ h => hk s.conn s τ h

theorem Leads.ite {C : Prop} [Decidable C] {q : LoopM α} (hp : Leads d P p P')
    (hq : Leads d P q P') :
    Leads d P (if C then p else q) P' := by
  split_ifs
  · exact hp
  · exact hq

namespace Still

theorem op (hP : Still d P) (op : LoopOp) (hop : Neutral op) :
    Leads d P (Connection.invoke op) P := by
  intro s τ h a w _
  have hafter : P (view (own op a s)) (τ ++ [.answer op a]) := by
    rw [view_neutral hop]
    exact hP.seen rfl h
  exact ⟨hP.inOrder hafter, hafter⟩

theorem update (hP : Still d P) {f : Connection → Connection}
    (hf : ∀ s : LoopState, view { s with conn := f s.conn } = view s) :
    Leads d P (Connection.update f) P := by
  intro s τ h
  have hafter : P (view { s with conn := f s.conn }) τ := (hf s).symm ▸ h
  exact ⟨hP.inOrder hafter, hafter⟩

theorem closeHandle (hP : Still d P) (handle : Handle) : Leads d P (closeHandle handle) P := by
  refine (hP.op (.isClosing handle) trivial).bind fun closing => .ite ?_ (.ret ())
  exact (hP.update fun _ => rfl).bind fun _ => hP.op (.close handle) trivial

theorem finalizeClose (hP : Still d P) : Leads d P finalizeClose P := by
  refine .looks fun c => .ite (.ret ()) ((hP.update fun _ => rfl).bind fun _ => ?_)
  refine (hP.closeHandle .tcp).bind fun _ => (hP.closeHandle .resumeAsync).bind fun _ => ?_
  exact (hP.closeHandle .closeAsync).bind fun _ => hP.closeHandle .outboxAsync

end Still

theorem leads_beginTeardown (hP' : Still d P')
    (hmark : ∀ v τ, P v τ → P' { v with torn := true, state := .closing } τ)
    (hdone : ∀ v τ, P v τ → v.torn = true → P' v τ) : Leads d P beginTeardown P' := by
  intro s τ h
  refine Ends.looks (Ends.ite (fun htorn => hdone _ τ h htorn) fun _ => ?_)
  have hafter :
      P' (view { s with conn := { s.conn with teardownStarted := true, state := .closing } }) τ :=
        hmark _ τ h
  refine Ends.update (hP'.inOrder hafter) ?_
  have hrest : Leads d P' (this >>= fun c => if c.consumerStarted then
      Connection.invoke .closeChannel
      else Connection.finalizeClose) P' :=
        .looks fun c => .ite (hP'.op .closeChannel trivial) hP'.finalizeClose
  exact hrest _ τ hafter

/-! ## Without a download -/

theorem still_off : Still d fun v _ => Off v := ⟨fun h => h.inOrder, fun _ h => h⟩

theorem outstanding_append {writes : List WriteRequest} {data : Bytes} {callback : WriteCallback}
    (hcallback : callback ≠ .download) (taken : Bool) :
    outstanding (if taken then writes ++ [⟨data, callback⟩] else writes) = outstanding writes := by
  cases taken with
  | false => rfl
  | true =>
    have hno : isDownload ⟨data, callback⟩ = false := beq_false_of_ne hcallback
    rw [if_pos rfl, outstanding, List.countP_append, List.countP_singleton, hno]
    rfl

theorem leads_off_write (data : Bytes) (callback : WriteCallback)
    (hcallback : callback ≠ .download) :
    Leads d (fun v _ => Off v) (invoke (.write ⟨data, callback⟩)) fun v _ => Off v := by
  intro s τ h taken w _
  have hafter : Off (view (own (.write ⟨data, callback⟩) taken s)) := by
    rw [view_write hcallback]
    exact ⟨h.unbegun, (outstanding_append hcallback taken).trans h.none, h.barred⟩
  exact ⟨hafter.inOrder, hafter⟩

theorem leads_off_sslWrite (data : Bytes) :
    Leads d (fun v _ => Off v) (invoke (.sslWrite data)) fun v _ => Off v := by
  intro s τ h a w _
  have hafter : Off (view (own (.sslWrite data) a s)) := by
    rw [view_own]
    exact ⟨(Bool.or_false _).trans h.unbegun, h.none, h.barred⟩
  exact ⟨hafter.inOrder, hafter⟩

theorem leads_unasked :
    Leads d (fun v τ => Off v ∨ Pending v τ) beginTeardown fun v _ => Off v := by
  refine leads_beginTeardown still_off (fun v τ h => ?_) fun v τ h htorn => ?_
  · rcases h with hoff | hpending
    · exact ⟨hoff.unbegun, hoff.none, .inl nofun⟩
    · exact ⟨hpending.unbegun, hpending.none, .inl nofun⟩
  · exact h.elim id fun hpending => nomatch hpending.untorn.symm.trans htorn

theorem leads_off_teardown : Leads d (fun v _ => Off v) beginTeardown fun v _ => Off v :=
  fun s τ h => leads_unasked s τ (.inl h)

theorem Barred.forward (h : Barred (view s)) {c : Connection} (hc : Onward s.conn c) :
    Barred (view { s with conn := c }) := by
  rcases h with hstate | hdone | ⟨hdecided, hhttp⟩
  · exact .inl (hc.state.elim (fun heq hnow => hstate (heq.symm.trans hnow)) id)
  · exact .inr (.inl (hc.httpDone.trans hdone))
  · exact .inr (.inr ⟨hc.protoDecided.trans hdecided, hc.httpMode.trans hhttp⟩)

theorem off_stream : StreamKind fun _ p => Leads d (fun v _ => Off v) p fun v _ => Off v where
  ret := .ret
  bind := .bind
  this _ _ h := h
  write := leads_off_write
  encrypts := leads_off_sslWrite
  takeOutbox := still_off.op .takeOutbox trivial
  assignTls hf := still_off.update fun s => by
    obtain ⟨tls, heq⟩ := hf s.conn
    rw [heq]
    rfl
  teardown := leads_off_teardown
  streams op hop := still_off.op op (by cases op <;> trivial)
  forward {f} hf := by
    intro s τ h
    have hafter : Off (view { s with conn := f s.conn }) := by
      exact ⟨h.unbegun, h.none, h.barred.forward (hf s.conn)⟩
    exact ⟨hafter.inOrder, hafter⟩
  note {f} hf := by
    intro s τ h
    obtain ⟨hlog, hwrites⟩ := hf s.uv
    have hafter : Off (view { s with uv := f s.uv }) := by
      refine ⟨?_, ?_, h.barred⟩
      · change (f s.uv).log.any isBegin = false
        rw [hlog]
        exact h.unbegun
      · change outstanding (f s.uv).writes = 0
        rw [hwrites]
        exact h.none
    exact ⟨hafter.inOrder, hafter⟩

/-! ## Beside a download -/

theorem still_downloading : Still d (Downloading d.full d.total) :=
  ⟨Downloading.inOrder, Downloading.seen⟩

variable {v : View}

theorem Begun.hands (h : Begun v) (bytes : Bytes) : Begun { v with handed := bytes } := { h with }

theorem Begun.mark (h : Begun v) : Begun { v with torn := true, state := .closing } :=
  { h with state := nofun }

theorem Downloading.mark {full : Bytes} {total : ℕ} (h : Downloading full total v τ)
    (hfailed : Failed τ) : Downloading full total { v with torn := true, state := .closing } τ := by
  refine ⟨h.toBegun.mark, h.flow.imp (fun hlive => ?_) fun hover => ⟨rfl, hover.none, hover.ended⟩⟩
  exact { hlive with torn := fun _ => hfailed, waits := nofun }

structure Ending (full : Bytes) (v : View) (τ : History) : Prop extends Begun v where
  none : outstanding v.writes = 0
  ended : v.handed = full ∨ Failed τ ∧ v.handed <+: full

theorem leads_ending : Leads d (Ending d.full) beginTeardown (Downloading d.full d.total) :=
  leads_beginTeardown still_downloading (fun _ _ h => ⟨h.toBegun.mark, .inr ⟨rfl, h.none, h.ended⟩⟩)
    fun _ _ h htorn => ⟨h.toBegun, .inr ⟨htorn, h.none, h.ended⟩⟩

def Settled (full : Bytes) (total : ℕ) (v : View) (τ : History) : Prop :=
  Off v ∨ Downloading full total v τ

theorem still_settled : Still d (Settled d.full d.total) where
  inOrder h := h.elim Off.inOrder Downloading.inOrder
  seen hx h := h.imp_right (Downloading.seen hx)

def Rest (full : Bytes) (total : ℕ) (v : View) (τ : History) : Prop :=
  Pending v τ ∨ Settled full total v τ

theorem still_rest : Still d (Rest d.full d.total) where
  inOrder h := h.elim Pending.inOrder still_settled.inOrder
  seen hx h := h.imp (Pending.seen hx) (still_settled.seen (d := d) hx)

theorem leads_settled : Leads d (fun v τ => Rest d.full d.total v τ ∧ Failed τ) beginTeardown
    (Settled d.full d.total) := by
  refine leads_beginTeardown still_settled (fun v τ ⟨h, hfailed⟩ => ?_) fun v τ ⟨h, _⟩ htorn => ?_
  · rcases h with hpending | hoff | hdown
    · exact .inl ⟨hpending.unbegun, hpending.none, .inl nofun⟩
    · exact .inl ⟨hoff.unbegun, hoff.none, .inl nofun⟩
    · exact .inr (hdown.mark hfailed)
  · exact h.elim (fun hpending => nomatch hpending.untorn.symm.trans htorn) id

structure Inside (full : Bytes) (total : ℕ) (bad : Prop) (v : View) (τ : History) : Prop where
  place : Off v ∨ Pending v τ ∧ v.tlsDetected = true ∨ Downloading full total v τ
  failed : bad → Failed τ

section
variable {bad : Prop}

theorem still_inside : Still d (Inside d.full d.total bad) where
  inOrder h := by
    rcases h.place with hoff | ⟨hpending, -⟩ | hdown
    · exact hoff.inOrder
    · exact hpending.inOrder
    · exact hdown.inOrder
  seen hx h := by
    refine ⟨h.place.imp_right (Or.imp (fun hpending => ?_) (Downloading.seen hx)), fun hbad => ?_⟩
    · exact ⟨hpending.1.seen hx, hpending.2⟩
    · exact (h.failed hbad).append _

theorem Inside.rest (h : Inside d.full d.total bad v τ) : Rest d.full d.total v τ := by
  rcases h.place with hoff | ⟨hpending, -⟩ | hdown
  · exact .inr (.inl hoff)
  · exact .inl hpending
  · exact .inr (.inr hdown)

theorem Failed.mono {τ' : History} (h : Failed τ) (hgrown : τ <+: τ') : Failed τ' := by
  obtain ⟨rest, rfl⟩ := hgrown
  exact h.append rest

theorem Ends.inside (hp : Ends d p (fun _ => Settled d.full d.total) s τ) (hbad : bad → Failed τ) :
    Ends d p (fun _ => Inside d.full d.total bad) s τ :=
  hp.grows.mono fun _ _ _ h => ⟨h.1.imp_right .inr, fun hb => (hbad hb).mono h.2⟩

theorem inside_teardown :
    Leads d (fun v τ => Inside d.full d.total bad v τ ∧ Failed τ) beginTeardown
    (Inside d.full d.total bad) :=
  fun s τ ⟨h, hfailed⟩ => Ends.inside (leads_settled s τ ⟨h.rest, hfailed⟩) fun _ => hfailed

theorem Calm.append {writes : List WriteRequest} (h : Calm writes) (data : Bytes) (taken : Bool) :
    Calm (if taken then writes ++ [⟨data, .tls false⟩] else writes) := by
  cases taken with
  | false => exact h
  | true =>
    intro request hrequest
    rcases List.mem_append.mp hrequest with hmem | hmem
    · exact h request hmem
    · rw [List.mem_singleton.mp hmem]
      rfl

theorem Inside.write (h : Inside d.full d.total bad v τ) (data : Bytes) (taken : Bool) :
    Inside d.full d.total bad { v with
      writes := if taken then v.writes ++ [⟨data, .tls false⟩] else v.writes } τ := by
  have hcount := @outstanding_append v.writes data (.tls false) nofun taken
  refine ⟨?_, h.failed⟩
  rcases h.place with hoff | ⟨hpending, hdetected⟩ | hdown
  · exact .inl ⟨hoff.unbegun, hcount.trans hoff.none, hoff.barred⟩
  · exact .inr (.inl ⟨{ hpending with
        none := hcount.trans hpending.none, calm := hpending.calm.append data taken }, hdetected⟩)
  · refine .inr (.inr ⟨{ hdown with calm := hdown.calm.append data taken },
      hdown.flow.imp (fun hlive => ?_) fun hover => ?_⟩)
    · exact ⟨hlive.archive, hlive.bytes, hcount.symm ▸ hlive.count,
        hcount.symm ▸ hlive.single, hlive.torn, fun ht => hcount.trans (hlive.waits ht)⟩
    · exact ⟨hover.torn, hcount.trans hover.none, hover.ended⟩

theorem inside_tlsWrite (data : Bytes) :
    Leads d (Inside d.full d.total bad) (tlsWrite data false) (Inside d.full d.total bad) := by
  intro s τ h
  refine Ends.invoke fun taken w _ => ?_
  have hafter : Inside d.full d.total bad (view (own (.write ⟨data, .tls false⟩) taken s))
      (τ ++ [.answer (.write ⟨data, .tls false⟩) taken]) := by
    rw [@view_write data (.tls false) nofun]
    exact (still_inside.seen rfl h).write data taken
  refine ⟨still_inside.inOrder hafter, ?_⟩
  cases taken with
  | true => exact hafter
  | false => exact inside_teardown _ _ ⟨hafter, writeFailed_last rfl⟩

theorem inside_writeAll (pieces : List Bytes) :
    Leads d (Inside d.full d.total bad) (writeAll false pieces) (Inside d.full d.total bad) := by
  induction pieces with
  | nil => exact .ret ()
  | cons piece pieces ih => exact (inside_tlsWrite piece).bind fun _ => ih

theorem inside_flushOut :
    Leads d (Inside d.full d.total bad) (flushOut false) (Inside d.full d.total bad) :=
  .looks fun _ => (inside_writeAll _).bind fun _ => still_inside.update fun _ => rfl

end

end Dicker.Server.Handover
