import Dicker.Server.HttpParse
import Dicker.Server.Runtime
import Dicker.Server.Sending

/-! The answer to an HTTP request. `handle_http_data` looks at the whole buffer each time bytes have
come: for the blank line first, for the size only where there is none. So a header block beyond the
limit is refused or dispatched according to where the segments end. -/

namespace Dicker.Server
open Lib Connection

inductive Decision where
  | badRequest
  | dispatch (request : HttpRequest)
  deriving DecidableEq

def readBlock (block : Bytes) : Decision :=
  match parseHttpRequest block with
  | none => .badRequest
  | some request => .dispatch request

theorem readBlock_eq_badRequest_iff (block : Bytes) :
    readBlock block = .badRequest ↔ ¬RequestLine block := by
  rw [← parseHttpRequest_eq_none_iff, readBlock]
  cases parseHttpRequest block with
  | none => exact iff_of_true rfl rfl
  | some request => exact iff_of_false nofun nofun

def decideHttp (buffer : Bytes) : Option Decision :=
  if httpHeaderEnd buffer = 0 then
    if kMaxHttpHeaderBytes < buffer.length then some .badRequest else none
  else some (readBlock (buffer.take (httpHeaderEnd buffer)))

def decided (before : Bytes) : List Bytes → Option Decision
  | [] => none
  | segment :: segments =>
    (decideHttp (before ++ segment)).or (decided (before ++ segment) segments)

def expected (stream : Bytes) : Option Decision :=
  if httpHeaderEnd stream = 0 then
    if kMaxHttpHeaderBytes < stream.length then some .badRequest else none
  else if kMaxHttpHeaderBytes < httpHeaderEnd stream then some .badRequest
  else some (readBlock (stream.take (httpHeaderEnd stream)))

def boundaries (size : ℕ) : List Bytes → List ℕ
  | [] => [size]
  | segment :: segments => size :: boundaries (size + segment.length) segments

def Caught (size : ℕ) (segments : List Bytes) (headerEnd : ℕ) : Prop :=
  ∃ l ∈ boundaries size segments, kMaxHttpHeaderBytes < l ∧ l < headerEnd

instance (size : ℕ) (segments : List Bytes) (headerEnd : ℕ) :
    Decidable (Caught size segments headerEnd) :=
  inferInstanceAs (Decidable (∃ l ∈ boundaries size segments, _))

variable {segments : List Bytes} {size : ℕ} {buffer : Bytes}

theorem le_of_mem_boundaries {l : ℕ} (h : l ∈ boundaries size segments) : size ≤ l := by
  induction segments generalizing size with
  | nil => exact Nat.le_of_eq (List.mem_singleton.mp h).symm
  | cons segment segments ih =>
    rcases List.mem_cons.mp h with rfl | h
    · exact Nat.le_refl l
    · exact Nat.le_of_add_right_le (ih h)

theorem caught_cons {headerEnd : ℕ} (hsize : size ≤ kMaxHttpHeaderBytes) (segment : Bytes)
    (segments : List Bytes) :
    Caught size (segment :: segments) headerEnd ↔
      Caught (size + segment.length) segments headerEnd := by
  constructor
  · rintro ⟨l, hl, hlimit, hend⟩
    rcases List.mem_cons.mp hl with rfl | hl
    · exact absurd hlimit (Nat.not_lt.mpr hsize)
    · exact ⟨l, hl, hlimit, hend⟩
  · rintro ⟨l, hl, hbetween⟩
    exact ⟨l, List.mem_cons_of_mem _ hl, hbetween⟩

theorem not_caught {headerEnd : ℕ} (h : headerEnd ≤ size) (segments : List Bytes) :
    ¬Caught size segments headerEnd := by
  rintro ⟨l, hl, -, hend⟩
  have hle := le_of_mem_boundaries hl
  omega

/-! ## The end of the header block -/

theorem httpHeaderEnd_append (h : httpHeaderEnd buffer ≠ 0) (rest : Bytes) :
    httpHeaderEnd (buffer ++ rest) = httpHeaderEnd buffer ∧
      httpHeaderEnd buffer ≤ buffer.length := by
  rw [httpHeaderEnd_eq] at h
  cases hfirst : firstOccurrence blankLine buffer with
  | none =>
    rw [hfirst] at h
    exact absurd rfl h
  | some k =>
    have hlen := ((firstOccurrence_eq_some_iff (by decide)).mp hfirst).1.length_le (by decide)
    rw [httpHeaderEnd_eq, httpHeaderEnd_eq, firstOccurrence_append (by decide) hfirst, hfirst]
    exact ⟨rfl, hlen⟩

theorem lt_httpHeaderEnd {rest : Bytes} (h : httpHeaderEnd buffer = 0)
    (hend : httpHeaderEnd (buffer ++ rest) ≠ 0) :
    buffer.length < httpHeaderEnd (buffer ++ rest) := by
  rw [httpHeaderEnd_eq] at h hend ⊢
  cases hfirst : firstOccurrence blankLine (buffer ++ rest) with
  | none =>
    rw [hfirst] at hend
    exact absurd rfl hend
  | some k =>
    rcases Nat.lt_or_ge buffer.length (k + 4) with hlt | hge
    · exact hlt
    · -- the blank line would stand in the buffer already
      obtain ⟨hoccurs, -⟩ := (firstOccurrence_eq_some_iff (by decide)).mp hfirst
      have hinside : Occurs blankLine buffer k := (occurs_append_iff hge).mp hoccurs
      cases hbuffer : firstOccurrence blankLine buffer with
      | none => exact absurd hinside ((firstOccurrence_eq_none_iff (by decide)).mp hbuffer k)
      | some j =>
        rw [hbuffer] at h
        exact absurd h (Nat.succ_ne_zero _)

theorem httpHeaderEnd_short (h : buffer.length < 4) : httpHeaderEnd buffer = 0 := by
  by_contra hend
  have hlen := (httpHeaderEnd_append hend []).2
  rw [httpHeaderEnd_eq] at hend hlen
  cases hfirst : firstOccurrence blankLine buffer with
  | none =>
    rw [hfirst] at hend
    exact hend rfl
  | some k =>
    rw [hfirst] at hlen
    change k + 4 ≤ buffer.length at hlen
    omega

/-! ## The decision over all the segments -/

theorem decided_eq {before : Bytes} (hend : httpHeaderEnd before = 0)
    (hsize : before.length ≤ kMaxHttpHeaderBytes) (segments : List Bytes) :
    decided before segments =
      if httpHeaderEnd (before ++ segments.flatten) = 0 then
        if kMaxHttpHeaderBytes < (before ++ segments.flatten).length then some .badRequest else none
      else if Caught before.length segments (httpHeaderEnd (before ++ segments.flatten)) then
        some .badRequest
      else
        some (readBlock ((before ++ segments.flatten).take
          (httpHeaderEnd (before ++ segments.flatten)))) := by
  induction segments generalizing before with
  | nil =>
    rw [List.flatten_nil, List.append_nil, if_pos hend, if_neg (Nat.not_lt.mpr hsize)]
    rfl
  | cons segment segments ih =>
    rw [List.flatten_cons, ← List.append_assoc, decided]
    simp only [caught_cons hsize, ← List.length_append]
    generalize hbuffer : before ++ segment = buffer
    by_cases hfound : httpHeaderEnd buffer = 0
    · by_cases hlong : kMaxHttpHeaderBytes < buffer.length
      · -- refused here; whether or not the end comes later, the right side says so too
        have hdecide : decideHttp buffer = some .badRequest := by
          rw [decideHttp, if_pos hfound, if_pos hlong]
        rw [hdecide, Option.some_or]
        by_cases hlater : httpHeaderEnd (buffer ++ segments.flatten) = 0
        · have hgrown : kMaxHttpHeaderBytes < (buffer ++ segments.flatten).length := by
            rw [List.length_append]
            omega
          rw [if_pos hlater, if_pos hgrown]
        · have hcaught : Caught buffer.length segments
              (httpHeaderEnd (buffer ++ segments.flatten)) := by
            refine ⟨buffer.length, ?_, hlong, lt_httpHeaderEnd hfound hlater⟩
            cases segments <;> exact List.mem_cons_self
          rw [if_neg hlater, if_pos hcaught]
      · have hdecide : decideHttp buffer = none := by rw [decideHttp, if_pos hfound, if_neg hlong]
        rw [hdecide, Option.none_or, ih hfound (Nat.not_lt.mp hlong)]
    · -- the end of the block is where it will be found in the whole stream
      obtain ⟨hsame, hle⟩ := httpHeaderEnd_append hfound segments.flatten
      have hdecide : decideHttp buffer = some (readBlock (buffer.take (httpHeaderEnd buffer))) := by
        rw [decideHttp, if_neg hfound]
      rw [hdecide, Option.some_or, hsame, if_neg hfound, if_neg (not_caught hle segments),
        List.take_append_of_le_length hle]

theorem decided_eq_expected_iff (segments : List Bytes) :
    decided [] segments = expected segments.flatten ↔
      httpHeaderEnd segments.flatten ≤ kMaxHttpHeaderBytes ∨
      ¬RequestLine (segments.flatten.take (httpHeaderEnd segments.flatten)) ∨
      Caught 0 segments (httpHeaderEnd segments.flatten) := by
  rw [decided_eq (httpHeaderEnd_short (by decide)) (Nat.zero_le _), List.nil_append, expected]
  simp only [List.length_nil, ← readBlock_eq_badRequest_iff]
  generalize httpHeaderEnd segments.flatten = headerEnd
  by_cases hzero : headerEnd = 0
  · rw [if_pos hzero, if_pos hzero]
    exact iff_of_true rfl (.inl (hzero ▸ Nat.zero_le _))
  rw [if_neg hzero, if_neg hzero]
  by_cases hcaught : Caught 0 segments headerEnd
  · have hlimit : kMaxHttpHeaderBytes < headerEnd := by
      obtain ⟨l, -, hl, hend⟩ := hcaught
      exact hl.trans hend
    rw [if_pos hcaught, if_pos hlimit]
    exact iff_of_true rfl (.inr (.inr hcaught))
  rw [if_neg hcaught, or_iff_left hcaught]
  by_cases hlimit : kMaxHttpHeaderBytes < headerEnd
  · rw [if_pos hlimit, Option.some_inj, or_iff_right (Nat.not_le.mpr hlimit)]
  · rw [if_neg hlimit]
    exact iff_of_true rfl (.inl (Nat.not_lt.mp hlimit))

/-! ## Programs that leave something alone -/

namespace Runtime
open Host
variable {config : ServerConfig} {maxRead : ℕ} {P : LoopState → Prop} {α β : Type}

variable (config maxRead P) in
def Kept (p : LoopM α) : Prop :=
  ∀ s, P s → (host config maxRead).vc (fun _ _ _ _ => True) (fun s _ => P s) p (fun _ => P) s

theorem Kept.ret (a : α) : Kept config maxRead P (.ret a) := fun _ h => h

variable {p : LoopM α} {k : Connection → LoopM α} {op : LoopOp} {s s' : LoopState}

theorem Kept.bind {f : α → LoopM β} (hp : Kept config maxRead P p)
    (hf : ∀ a, Kept config maxRead P (f a)) :
    Kept config maxRead P (p >>= f) := fun s h => vc_bind (vc_mono (hp s h) hf)

theorem Kept.looks (hk : ∀ c, Kept config maxRead P (k c)) :
    Kept config maxRead P (this >>= k) := fun s => hk s.conn s

theorem Kept.ite {Q : Prop} [Decidable Q] {q : LoopM α} (hp : Kept config maxRead P p)
    (hq : Kept config maxRead P q) : Kept config maxRead P (if Q then p else q) := by
  split_ifs
  · exact hp
  · exact hq

theorem Kept.update {f : Connection → Connection} (hf : ∀ s, P s → P { s with conn := f s.conn }) :
    Kept config maxRead P (update f) := fun s h => ⟨fun _ _ => ⟨trivial, hf s h⟩, hf s h⟩

theorem Kept.note {f : Uv → Uv} (hf : ∀ s, P s → P { s with uv := f s.uv }) :
    Kept config maxRead P (note f) := fun s h => ⟨fun _ _ => ⟨trivial, hf s h⟩, hf s h⟩

theorem Kept.invoke (hop : ∀ s (a : op.Ans), P s → P (own op a s)) :
    Kept config maxRead P (invoke op) := fun s h a _ _ _ => ⟨⟨trivial, hop s a h⟩, hop s a h⟩

structure Lasting (P : LoopState → Prop) : Prop where
  op : ∀ {op : LoopOp} (s : LoopState) (a : op.Ans), (∀ request, op ≠ .dispatchHttp request) →
    P s → P (own op a s)
  assign : ∀ {s : LoopState} {c : Connection}, c.httpDone = s.conn.httpDone →
    c.httpMode = s.conn.httpMode →
    c.protoDecided = s.conn.protoDecided → (c.state = s.conn.state ∨ c.state = .closing) → P s →
      P { s with conn := c }

section
variable (hP : Lasting P)
include hP

theorem Lasting.invoke (op : LoopOp) (hop : ∀ request, op ≠ .dispatchHttp request) :
    Kept config maxRead P (Connection.invoke op) := .invoke fun s a => hP.op s a hop

theorem Lasting.closeHandle (handle : Handle) : Kept config maxRead P (closeHandle handle) := by
  refine (hP.invoke (.isClosing handle) nofun).bind fun closing => .ite ?_ (.ret ())
  exact .bind (.update fun s => hP.assign rfl rfl rfl (.inl rfl)) fun _ =>
    hP.invoke (.close handle) nofun

theorem Lasting.finalizeClose : Kept config maxRead P finalizeClose := by
  refine .looks fun c => .ite (.ret ())
    (.bind (.update fun s => hP.assign rfl rfl rfl (.inl rfl)) fun _ => ?_)
  refine (hP.closeHandle .tcp).bind fun _ => (hP.closeHandle .resumeAsync).bind fun _ => ?_
  exact (hP.closeHandle .closeAsync).bind fun _ => hP.closeHandle .outboxAsync

theorem Lasting.beginTeardown : Kept config maxRead P beginTeardown := by
  refine .looks fun c => .ite (.ret ())
    (.bind (.update fun s => hP.assign rfl rfl rfl (.inr rfl)) fun _ => ?_)
  exact .looks fun c => .ite (hP.invoke .closeChannel nofun) hP.finalizeClose

theorem Lasting.kind : SendingKind fun _ p => Kept config maxRead P p where
  ret := .ret
  bind := .bind
  this _ h := h
  op op hop := by
    refine hP.invoke op ?_
    rintro request rfl
    exact hop
  assign hf := .update fun s h => by
    obtain ⟨tls, download, downloadLast, heq⟩ := hf s.conn
    rw [heq]
    exact hP.assign rfl rfl rfl (.inl rfl) h
  teardown := hP.beginTeardown

end

/-! ## One segment -/

def badRequestResponse : Bytes :=
  httpResponseHeaders 400 (ascii "Bad Request") plainText (ascii "bad request\n").length
    [(ascii "Connection", ascii "close")] ++ ascii "bad request\n"

theorem badRequestResponse_chunks :
    badRequestResponse.toChunks kTlsRecord = [badRequestResponse] := by decide +kernel

def decisionOf : LoopOp → Option Decision
  | .dispatchHttp request => some (.dispatch request)
  | .write request => if request = ⟨badRequestResponse, .tls true⟩ then some .badRequest else none
  | .sslWrite data => if data = badRequestResponse then some .badRequest else none
  | _ => none

def observed (s s' : LoopState) : Option Decision := s'.uv.log[s.uv.log.length]?.bind decisionOf

structure Unanswered (buffer : Bytes) (s : LoopState) : Prop where
  state : s.conn.state = .handshaking
  undone : s.conn.httpDone = false
  buffer : s.conn.handshakeBuffer = buffer
  http : s.conn.protoDecided = true → s.conn.httpMode = true

structure Answered (s : LoopState) : Prop where
  done : s.conn.httpDone = true
  http : s.conn.httpMode = true
  decided : s.conn.protoDecided = true
  state : s.conn.state ≠ .streaming

theorem lasting_answered (front : List LoopOp) :
    Lasting fun s => Answered s ∧ front <+: s.uv.log where
  op s a _ h := ⟨⟨h.1.done, h.1.http, h.1.decided, h.1.state⟩, h.2.trans (List.prefix_append _ _)⟩
  assign hdone hhttp hdecided hstate h := by
    refine ⟨⟨hdone.trans h.1.done, hhttp.trans h.1.http, hdecided.trans h.1.decided, ?_⟩, h.2⟩
    rcases hstate with hstate | hstate
    · exact fun heq => h.1.state (hstate.symm.trans heq)
    · exact fun heq => nomatch hstate.symm.trans heq

theorem observed_of_front (h : s.uv.log ++ [op] <+: s'.uv.log) : observed s s' = decisionOf op := by
  obtain ⟨rest, hrest⟩ := h
  rw [observed, ← hrest, List.append_assoc,
    List.getElem?_append_right (Nat.le_refl _), Nat.sub_self]
  rfl

theorem observed_nothing (h : s'.uv.log = s.uv.log) : observed s s' = none := by
  rw [observed, h, List.getElem?_eq_none (Nat.le_refl _)]
  rfl

theorem Kept.ends (hp : Kept config maxRead P p) {w w' : World} {a : α}
    (he : (host config maxRead).Exec p s w a s' w') (hs : P s) :
    P s' := (Exec.ends he (hp s hs) hs).1

section
variable {w w' : World} {a : α}

theorem exec_this_iff :
    (host config maxRead).Exec (this >>= k) s w a s' w' ↔
    (host config maxRead).Exec (k s.conn) s w a s' w' := exec_get

theorem exec_update_iff {f : Connection → Connection} {k : Unit → LoopM α} :
    (host config maxRead).Exec (update f >>= k) s w a s' w' ↔
      (host config maxRead).Exec (k ()) { s with conn := f s.conn } w a s' w' :=
  exec_get.trans exec_set

theorem exec_note_iff {f : Uv → Uv} {k : Unit → LoopM α} :
    (host config maxRead).Exec (note f >>= k) s w a s' w' ↔
      (host config maxRead).Exec (k ()) { s with uv := f s.uv } w a s' w' := exec_get.trans exec_set

theorem exec_invoke_iff {k : op.Ans → LoopM α} :
    (host config maxRead).Exec (invoke op >>= k) s w a s' w' ↔
      ∃ b, allowed op s w b ∧ (host config maxRead).Exec (k b) (own op b s)
        (shared op b w) a s' w' := exec_call

theorem sendBadRequest_first (hs : Answered s) {u : Unit}
    (he : (host config maxRead).Exec sendBadRequest s w u s' w') :
    observed s s' = some .badRequest ∧ Answered s' := by
  change (host config maxRead).Exec (this >>= fun c => if c.tlsActive then _
    else tlsWrite badRequestResponse true) s w u s' w' at he
  have hmade : ∀ op b, Answered (own op b s) ∧ s.uv.log ++ [op] <+: (own op b s).uv.log :=
    fun op b => ⟨{ hs with }, List.prefix_rfl⟩
  rw [exec_this_iff] at he
  split_ifs at he with htls
  · -- the response fits into one chunk, so that the first `SSL_write` is that of all of it
    have hlasting := lasting_answered (s.uv.log ++ [.sslWrite badRequestResponse])
    obtain ⟨wire, s₁, w₁, hencrypt, hrest⟩ := he.of_bind
    change (host config maxRead).Exec (encrypt badRequestResponse) s w wire s₁ w₁ at hencrypt
    obtain ⟨ok, s₂, w₂, hall, hrest₁⟩ := hencrypt.of_bind
    rw [badRequestResponse_chunks] at hall
    obtain ⟨sent, s₃, w₃, hssl, hrest₂⟩ := hall.of_bind
    obtain ⟨answer, -, hupdate⟩ := exec_invoke_iff.mp hssl
    rw [exec_update_iff, Thread.pure_eq, exec_ret] at hupdate
    obtain ⟨-, rfl, -⟩ := hupdate
    have h₂ := Kept.ends (.ite (.ret _) (hlasting.kind.wire.encryptAll [])) hrest₂
      (hlasting.assign rfl rfl rfl (.inl rfl) (hmade _ answer))
    have h₁ :=
      Kept.ends (.ite (.ret _) (.looks fun c => .bind (hlasting.kind.assign fun _ => ⟨_, _, _, rfl⟩)
      fun _ => .ret _)) hrest₁ h₂
    have hafter : Answered s' ∧ s.uv.log ++ [.sslWrite badRequestResponse] <+: s'.uv.log := by
      cases wire with
      | none => exact hlasting.beginTeardown.ends hrest h₁
      | some wire => exact (hlasting.kind.wire.tlsWrite wire true).ends hrest h₁
    obtain ⟨hanswered, hfront⟩ := hafter
    have hop : decisionOf (.sslWrite badRequestResponse) = some .badRequest := by
      rw [decisionOf, if_pos rfl]
    exact ⟨(observed_of_front hfront).trans hop, hanswered⟩
  · have hlasting := lasting_answered (s.uv.log ++ [.write ⟨badRequestResponse, .tls true⟩])
    obtain ⟨answer, -, hrest⟩ := exec_invoke_iff.mp he
    obtain ⟨hanswered, hfront⟩ :=
      Kept.ends (.ite hlasting.beginTeardown (.ret ())) hrest (hmade _ answer)
    have hop : decisionOf (.write ⟨badRequestResponse, .tls true⟩) = some .badRequest := by
      rw [decisionOf, if_pos rfl]
    exact ⟨(observed_of_front hfront).trans hop, hanswered⟩

theorem handleHttpData_first (hs : Unanswered buffer s) (hproto : s.conn.protoDecided = true)
    {u : Unit} (he : (host config maxRead).Exec handleHttpData s w u s' w') :
    observed s s' = decideHttp buffer ∧ (decideHttp buffer = none → s' = s) ∧
    (decideHttp buffer ≠ none → Answered s') := by
  have hanswered : Answered { s with conn := { s.conn with httpDone := true } } :=
    ⟨rfl, hs.http hproto, hproto, fun heq => nomatch hs.state.symm.trans heq⟩
  rw [handleHttpData, exec_this_iff, if_neg (by rw [hs.undone]; decide), hs.buffer] at he
  unfold decideHttp
  dsimp only at he
  by_cases hend : httpHeaderEnd buffer = 0
  · rw [if_pos hend] at he ⊢
    by_cases hlong : kMaxHttpHeaderBytes < buffer.length
    · rw [if_pos hlong, exec_update_iff] at he
      rw [if_pos hlong]
      obtain ⟨hobserved, hafter⟩ := sendBadRequest_first hanswered he
      exact ⟨hobserved, nofun, fun _ => hafter⟩
    · rw [if_neg hlong] at he ⊢
      obtain ⟨-, rfl, -⟩ := exec_ret.mp he
      exact ⟨observed_nothing rfl, fun _ => rfl, fun h => absurd rfl h⟩
  · rw [if_neg hend, exec_update_iff] at he
    rw [if_neg hend]
    unfold readBlock
    cases hparse : parseHttpRequest (buffer.take (httpHeaderEnd buffer)) with
    | none =>
      rw [hparse] at he
      obtain ⟨hobserved, hafter⟩ := sendBadRequest_first hanswered he
      exact ⟨hobserved, nofun, fun _ => hafter⟩
    | some request =>
      rw [hparse] at he
      obtain ⟨actions, -, hact⟩ := exec_invoke_iff.mp he
      have hlasting := lasting_answered (s.uv.log ++ [.dispatchHttp request])
      obtain ⟨hafter, hfront⟩ := Kept.ends (hlasting.kind.actAll actions) hact
        ⟨{ hanswered with }, List.prefix_rfl⟩
      exact ⟨observed_of_front hfront, nofun, fun _ => hafter⟩

end

theorem decideProtocol_of_not_magic {c : Connection}
    (hc : c.protoDecided = true → c.httpMode = true) (hmagic : ¬kMagic <+: c.handshakeBuffer) :
    (decideProtocol c).state = c.state ∧ (decideProtocol c).httpDone = c.httpDone ∧
    (decideProtocol c).handshakeBuffer = c.handshakeBuffer ∧
    ((decideProtocol c).protoDecided = true → (decideProtocol c).httpMode = true) ∧
    ((decideProtocol c).protoDecided = false → c.handshakeBuffer.length < 4) := by
  unfold decideProtocol
  dsimp only
  split_ifs with hdecided hdiffers hlong
  · exact ⟨rfl, rfl, rfl, hc, fun hfalse => absurd (hdecided.symm.trans hfalse) (by decide)⟩
  · exact ⟨rfl, rfl, rfl, fun _ => rfl, nofun⟩
  · -- four bytes that are those of the magic
    refine absurd ?_ hmagic
    rw [Nat.min_eq_right hlong, not_not, List.take_length] at hdiffers
    rw [← hdiffers]
    exact List.take_prefix _ _
  · exact ⟨rfl, rfl, rfl, hc, fun _ => Nat.not_le.mp hlong⟩

theorem decideHttp_short (h : buffer.length < 4) : decideHttp buffer = none := by
  have hlimit : ¬kMaxHttpHeaderBytes < buffer.length := by
    rw [kMaxHttpHeaderBytes]
    omega
  rw [decideHttp, if_pos (httpHeaderEnd_short h), if_neg hlimit]

section
variable {w w' : World} {data : Bytes} {u : Unit}

theorem handleData_unanswered (hs : Unanswered buffer s) (hmagic : ¬kMagic <+: buffer ++ data)
    (he : (host config maxRead).Exec (handleData config data) s w u s' w') :
    observed s s' = decideHttp (buffer ++ data) ∧
    (decideHttp (buffer ++ data) = none → Unanswered (buffer ++ data) s') ∧
      (decideHttp (buffer ++ data) ≠ none → Answered s') := by
  rw [handleData, exec_this_iff, exec_note_iff, hs.state] at he
  change (host config maxRead).Exec (handleHandshakeData config data) _ w u s' w' at he
  rw [handleHandshakeData, exec_update_iff, exec_this_iff] at he
  obtain ⟨hstate, hundone, hbuffer, hhttp, hshort⟩ :=
    @decideProtocol_of_not_magic (s.conn.appending data) hs.http (by rwa [appending, hs.buffer])
  dsimp only [appending] at he hstate hundone hbuffer hshort
  generalize decideProtocol (s.conn.appending data) = c at he hstate hundone hbuffer hhttp hshort
  rw [hs.buffer] at hbuffer hshort
  have hwait : ∀ uv : Uv, Unanswered (buffer ++ data) ⟨c, uv⟩ :=
    fun uv => ⟨hstate.trans hs.state, hundone.trans hs.undone, hbuffer, hhttp⟩
  by_cases hdecided : c.protoDecided = true
  · -- a beginning of the magic may have held back up to three bytes, which are in the buffer
    rw [if_neg (by rw [hdecided]; decide), if_pos (hhttp hdecided)] at he
    obtain ⟨hobserved, hnone, hsome⟩ := handleHttpData_first (hwait _) hdecided he
    exact ⟨hobserved, fun h => hnone h ▸ hwait _, hsome⟩
  · rw [if_pos (by rw [Bool.eq_false_of_not_eq_true hdecided]; decide)] at he
    obtain ⟨-, rfl, -⟩ := exec_ret.mp he
    rw [decideHttp_short (hshort (Bool.eq_false_of_not_eq_true hdecided))]
    exact ⟨observed_nothing rfl, fun _ => hwait _, fun h => absurd rfl h⟩

theorem handleData_answered (hs : Answered s)
    (he : (host config maxRead).Exec (handleData config data) s w u s' w') :
    observed s s' = none ∧ Answered s' := by
  rw [handleData, exec_this_iff, exec_note_iff] at he
  cases hstate : s.conn.state with
  | streaming => exact absurd hstate hs.state
  | closing =>
    rw [hstate] at he
    obtain ⟨-, rfl, -⟩ := exec_ret.mp he
    exact ⟨observed_nothing rfl, hs.done, hs.http, hs.decided, hs.state⟩
  | handshaking =>
    rw [hstate] at he
    change (host config maxRead).Exec (handleHandshakeData config data) _ w u s' w' at he
    have heq : decideProtocol (s.conn.appending data) = s.conn.appending data :=
      if_pos hs.decided
    rw [handleHandshakeData, exec_update_iff, exec_this_iff] at he
    dsimp only at he
    rw [heq] at he
    rw [if_neg (by rw [hs.decided]; decide), if_pos hs.http, handleHttpData, exec_this_iff,
      if_pos hs.done] at he
    obtain ⟨-, rfl, -⟩ := exec_ret.mp he
    exact ⟨observed_nothing rfl, hs.done, hs.http, hs.decided, hs.state⟩

end

/-! ## All the segments -/

structure Unread (s : LoopState) : Prop where
  state : s.conn.state = .handshaking
  buffer : s.conn.handshakeBuffer = []
  undecided : s.conn.protoDecided = false
  undone : s.conn.httpDone = false

/-- What else happens between two segments: nothing that the reading of a request depends on, until
there is an answer. -/
def Undisturbed (s s' : LoopState) : Prop :=
  (s'.conn.state = s.conn.state ∧ s'.conn.handshakeBuffer = s.conn.handshakeBuffer ∧
    s'.conn.httpDone = s.conn.httpDone ∧ s'.conn.protoDecided = s.conn.protoDecided ∧
    s'.conn.httpMode = s.conn.httpMode) ∨ Answered s ∧ Answered s'

variable (config maxRead) in
inductive Delivers : List Bytes → LoopState → List Decision → LoopState → Prop
  | nil (s : LoopState) : Delivers [] s [] s
  | cons {data : Bytes} {segments : List Bytes} {s s₁ s₂ s' : LoopState} {w w₁ : World}
      {decisions : List Decision}
      (hrun : (host config maxRead).Exec (handleData config data) s w () s₁ w₁)
      (hbetween : Undisturbed s₁ s₂)
      (hrest : Delivers segments s₂ decisions s') :
      Delivers (data :: segments) s ((observed s s₁).toList ++ decisions) s'

theorem Unanswered.undisturbed (hs : Unanswered buffer s) (h : Undisturbed s s') :
    Unanswered buffer s' := by
  rcases h with ⟨hstate, hbuffer, hdone, hdecided, hhttp⟩ | ⟨h, -⟩
  · exact ⟨hstate.trans hs.state, hdone.trans hs.undone, hbuffer.trans hs.buffer,
      fun h => hhttp.trans (hs.http (hdecided.symm.trans h))⟩
  · exact nomatch hs.undone.symm.trans h.done

theorem Answered.undisturbed (hs : Answered s) (h : Undisturbed s s') : Answered s' := by
  rcases h with ⟨hstate, -, hdone, hdecided, hhttp⟩ | ⟨-, h⟩
  · exact ⟨hdone.trans hs.done, hhttp.trans hs.http, hdecided.trans hs.decided,
      fun h => hs.state (hstate.symm.trans h)⟩
  · exact h

theorem Delivers.answered {decisions : List Decision}
    (h : Delivers config maxRead segments s decisions s') (hs : Answered s) : decisions = [] := by
  induction h with
  | nil => rfl
  | cons hrun hbetween _ ih =>
    obtain ⟨hobserved, hafter⟩ := handleData_answered hs hrun
    rw [hobserved, ih (hafter.undisturbed hbetween)]
    rfl

theorem Delivers.unanswered {decisions : List Decision}
    (h : Delivers config maxRead segments s decisions s') {before : Bytes}
    (hs : Unanswered before s) (hmagic : ¬kMagic <+: before ++ segments.flatten) :
    decisions = (decided before segments).toList := by
  induction h generalizing before with
  | nil => rfl
  | @cons data segments s s₁ s₂ s' w w₁ decisions hrun hbetween hrest ih =>
    rw [List.flatten_cons, ← List.append_assoc] at hmagic
    obtain ⟨hobserved, hwaits, hanswers⟩ :=
      handleData_unanswered hs (fun hfront => hmagic (hfront.trans (List.prefix_append _ _))) hrun
    rw [hobserved, decided]
    cases hdecide : decideHttp (before ++ data) with
    | none => exact ih ((hwaits hdecide).undisturbed hbetween) hmagic
    | some decision =>
      have hanswered := hanswers (by rw [hdecide]; nofun)
      rw [hrest.answered (hanswered.undisturbed hbetween)]
      rfl

theorem Unread.unanswered (hs : Unread s) : Unanswered [] s :=
  ⟨hs.state, hs.undone, hs.buffer, fun h => nomatch hs.undecided.symm.trans h⟩

/-! ## Every segment can be taken in -/

variable (config maxRead) in
def Completes (p : LoopM α) : Prop := ∀ s w, ∃ a s' w', (host config maxRead).Exec p s w a s' w'

theorem Completes.ret (a : α) : Completes config maxRead (.ret a) :=
  fun s w => ⟨a, s, w, .ret a s w⟩

theorem Completes.bind {f : α → LoopM β} (hp : Completes config maxRead p)
    (hf : ∀ a, Completes config maxRead (f a)) : Completes config maxRead (p >>= f) := by
  intro s w
  obtain ⟨a, s₁, w₁, h₁⟩ := hp s w
  obtain ⟨b, s₂, w₂, h₂⟩ := hf a s₁ w₁
  exact ⟨b, s₂, w₂, h₁.bind h₂⟩

theorem Completes.looks (hk : ∀ c, Completes config maxRead (k c)) :
    Completes config maxRead (this >>= k) := by
  intro s w
  obtain ⟨a, s', w', h⟩ := hk s.conn s w
  exact ⟨a, s', w', exec_this_iff.mpr h⟩

theorem Completes.ite {Q : Prop} [Decidable Q] {q : LoopM α} (hp : Completes config maxRead p)
    (hq : Completes config maxRead q) : Completes config maxRead (if Q then p else q) := by
  split_ifs
  · exact hp
  · exact hq

theorem Completes.update (f : Connection → Connection) : Completes config maxRead (update f) :=
  fun _ w => ⟨(), _, w, .get (.set (.ret () _ w))⟩

theorem Completes.note (f : Uv → Uv) : Completes config maxRead (note f) :=
  fun _ w => ⟨(), _, w, .get (.set (.ret () _ w))⟩

theorem Completes.invoke (op : LoopOp) (hop : op ≠ .joinConsumer) :
    Completes config maxRead (invoke op) := by
  intro s w
  have hallowed : ∃ a, allowed op s w a := by
    cases op with
    | joinConsumer => exact absurd rfl hop
    | isClosing | bufferedBytes | takeOutbox => exact ⟨_, rfl⟩
    | uvAccept | write | tlsInit | makeDecompressor | getOrCreateSink => exact ⟨true, trivial⟩
    | sslWrite => exact ⟨(true, []), trivial⟩
    | dispatchHttp => exact ⟨[], trivial⟩
    | archiveBegin => exact ⟨none, trivial⟩
    | _ => exact ⟨(), trivial⟩
  obtain ⟨a, ha⟩ := hallowed
  exact ⟨a, _, _, .call a ha (.ret a _ _)⟩

theorem completes_closeHandle (handle : Handle) :
    Completes config maxRead (closeHandle handle) := by
  refine (Completes.invoke (.isClosing handle) nofun).bind fun closing => .ite ?_ (.ret ())
  exact (Completes.update _).bind fun _ => .invoke (.close handle) nofun

theorem completes_beginTeardown : Completes config maxRead beginTeardown := by
  refine .looks fun c => .ite (.ret ()) ((Completes.update _).bind fun _ => .looks fun c => ?_)
  refine .ite (.invoke .closeChannel nofun)
    (.looks fun c => .ite (.ret ()) ((Completes.update _).bind fun _ => ?_))
  refine (completes_closeHandle .tcp).bind fun _ =>
    (completes_closeHandle .resumeAsync).bind fun _ => ?_
  exact (completes_closeHandle .closeAsync).bind fun _ => completes_closeHandle .outboxAsync

theorem completes_sending : SendingKind fun _ p => Completes config maxRead p where
  ret := .ret
  bind := .bind
  this s w := ⟨s.conn, s, w, .get (.ret s.conn s w)⟩
  op op hop := by
    refine .invoke op ?_
    rintro rfl
    exact hop
  assign _ := .update _
  teardown := completes_beginTeardown

theorem completes_incoming : IncomingKind fun _ p => Completes config maxRead p where
  toSendingKind := completes_sending
  every op _ hop := .invoke op hop
  update _ := .update _
  note _ := .note _
  http := by
    refine .looks fun c => .ite (.ret ()) (.ite (.ite ?_ (.ret ())) ?_)
    · exact (Completes.update _).bind fun _ => completes_sending.wire.sendHttpSimple _ _ _ _ _
    · refine (Completes.update _).bind fun _ => ?_
      cases parseHttpRequest (c.handshakeBuffer.take (httpHeaderEnd c.handshakeBuffer)) with
      | none => exact completes_sending.wire.sendHttpSimple _ _ _ _ _
      | some request =>
        exact (Completes.invoke (.dispatchHttp request) nofun).bind fun actions =>
          completes_sending.actAll actions

theorem delivers_exists (segments : List Bytes) (s : LoopState) (w : World) :
    ∃ decisions s', Delivers config maxRead segments s decisions s' := by
  induction segments generalizing s w with
  | nil => exact ⟨[], s, .nil s⟩
  | cons data segments ih =>
    obtain ⟨_, s₁, w₁, hrun⟩ := completes_incoming.handleData config data s w
    obtain ⟨decisions, s', hrest⟩ := ih s₁ w₁
    exact ⟨_, s', .cons hrun (.inl ⟨rfl, rfl, rfl, rfl, rfl⟩) hrest⟩

/-! ## At most one dispatch -/

def isDispatch : LoopOp → Bool
  | .dispatchHttp _ => true
  | _ => false

def Once (s : LoopState) : Prop := s.uv.log.countP isDispatch ≤ s.conn.httpDone.toNat

theorem once_own (hop : ∀ request, op ≠ .dispatchHttp request) (a : op.Ans) (h : Once s) :
    Once (own op a s) := by
  have hno : isDispatch op = false := by
    cases op with
    | dispatchHttp request => exact absurd rfl (hop request)
    | _ => rfl
  change (s.uv.log ++ [op]).countP isDispatch ≤ s.conn.httpDone.toNat
  rw [List.countP_append, List.countP_singleton, hno]
  exact h

theorem lasting_once : Lasting Once where
  op _ a hop h := once_own hop a h
  assign hdone _ _ _ h := by
    rw [Once, hdone]
    exact h

theorem handleHttpData_once : Kept config maxRead Once handleHttpData := by
  intro s h
  by_cases hdone : s.conn.httpDone = true
  · change (host config maxRead).vc _ _ (if s.conn.httpDone then _ else _) _ s
    rw [if_pos hdone]
    exact h
  · have hzero : s.uv.log.countP isDispatch = 0 := by
      rw [Once, Bool.eq_false_of_not_eq_true hdone] at h
      exact Nat.le_zero.mp h
    have hset : Once { s with conn := { s.conn with httpDone := true } } := by
      rw [Once, hzero]
      exact Nat.zero_le _
    change (host config maxRead).vc _ _ (if s.conn.httpDone then _ else _) _ s
    rw [if_neg hdone]
    split_ifs
    · exact ⟨fun _ _ => ⟨trivial, hset⟩, lasting_once.kind.wire.sendHttpSimple _ _ _ _ _ _ hset⟩
    · exact h
    · refine ⟨fun _ _ => ⟨trivial, hset⟩, ?_⟩
      cases parseHttpRequest
        (s.conn.handshakeBuffer.take (httpHeaderEnd s.conn.handshakeBuffer)) with
      | none => exact lasting_once.kind.wire.sendHttpSimple _ _ _ _ _ _ hset
      | some request =>
        have hdispatched : ∀ actions, Once (own (.dispatchHttp request) actions
            { s with conn := { s.conn with httpDone := true } }) := by
          intro actions
          change (s.uv.log ++ [LoopOp.dispatchHttp request]).countP isDispatch ≤ 1
          rw [List.countP_append, hzero]
          exact Nat.le_refl 1
        exact fun actions w _ _ => ⟨⟨trivial, hdispatched actions⟩,
          lasting_once.kind.actAll actions _ (hdispatched actions)⟩

theorem incoming_once : IncomingKind fun _ p => Kept config maxRead Once p where
  toSendingKind := lasting_once.kind
  every op hop _ := lasting_once.invoke op hop
  update hf := .update fun s h => by
    rw [Once, hf]
    exact h
  note hf := .note fun s h => by
    rw [Once, hf]
    exact h
  http := handleHttpData_once

theorem handler_once (e : Callback) : Kept config maxRead Once (handler config e) := by
  cases e with
  | read data answers => exact incoming_once.handleRaw config data answers
  | readError => exact lasting_once.beginTeardown
  | written request failed => exact lasting_once.kind.onWrite failed request.callback
  | resume =>
    refine .looks fun c => .ite (.bind (incoming_once.update fun _ => rfl) fun _ => ?_) (.ret ())
    exact lasting_once.invoke .readStart nofun
  | close => exact .bind (incoming_once.update fun _ => rfl) fun _ => lasting_once.finalizeClose
  | outbox => exact lasting_once.kind.wire.onOutboxAsync
  | handleClosed handle =>
    have hdestroy : Kept config maxRead Once destroy := by
      refine .looks fun c => ?_
      cases c.session with
      | none => exact lasting_once.invoke .delete nofun
      | some session =>
        refine .bind (lasting_once.invoke (.emitDisconnected session c.wireBytes) nofun) fun _ => ?_
        exact lasting_once.invoke .delete nofun
    refine .bind (incoming_once.update fun _ => rfl) fun _ => .looks fun c =>
      .ite (.ite ?_ hdestroy) (.ret ())
    exact .bind (lasting_once.invoke .joinConsumer nofun) fun _ => hdestroy

theorem dispatched_once {c : LoopRun} (hc : Reaches config maxRead (init config) c) :
    c.own.uv.log.countP isDispatch ≤ 1 := by
  have hinit : (host config maxRead).Proceeds (fun _ _ _ _ => True) (fun s _ => Once s) Once
      (init config) := by
    have hfresh : Once ⟨.fresh, freshUv⟩ := Nat.le_refl 0
    refine ⟨fun s _ => Once s, fun _ _ h => h, fun _ _ _ h _ => h, hfresh, ?_⟩
    refine vc_mono ?_ fun _ _ h _ _ => h
    have haccept : Kept config maxRead Once accept := by
      refine .bind (lasting_once.invoke .uvAccept nofun) fun _ => .ite lasting_once.beginTeardown ?_
      exact lasting_once.invoke .readStart nofun
    exact haccept _ hfresh
  have hproceeds := hinit.reaches (fun _ _ _ h _ => h) (fun e s w h _ _ => ?_) hc
  · exact hproceeds.holds.1.trans (Bool.toNat_le _)
  · have htaken : Once (takes e s) := by cases e <;> exact h
    exact ⟨fun s _ => Once s, fun _ _ h => h, fun _ _ _ h _ => h, htaken,
      vc_mono (handler_once e _ htaken) fun _ _ h _ _ => h⟩

/-- How a request is answered that comes in these segments: as the limit asks for exactly if its
header block is within it, or has no request line, or if a segment ends behind the limit and before
the block does. -/
theorem http_decision_iff {segments : List Bytes} {s s' : LoopState} {decisions : List Decision}
    (hs : Unread s) (hhttp : ¬kMagic <+: segments.flatten)
    (h : Delivers config maxRead segments s decisions s') :
    (decisions = (expected segments.flatten).toList ↔
      httpHeaderEnd segments.flatten ≤ kMaxHttpHeaderBytes ∨
      ¬RequestLine (segments.flatten.take (httpHeaderEnd segments.flatten)) ∨
      ∃ l ∈ boundaries 0 segments, kMaxHttpHeaderBytes < l ∧ l < httpHeaderEnd segments.flatten) ∧
    decisions.length ≤ 1 ∧
    ∀ c, Reaches config maxRead (init config) c → c.own.uv.log.countP isDispatch ≤ 1 := by
  have hdecided := h.unanswered hs.unanswered hhttp
  refine ⟨?_, ?_, fun c hc => dispatched_once hc⟩
  · rw [hdecided]
    refine Iff.trans ⟨fun heq => ?_, congrArg _⟩ (decided_eq_expected_iff segments)
    simpa only [Option.head?_toList] using congrArg List.head? heq
  · rw [hdecided]
    exact Option.length_toList_le

theorem unread_fresh : Unread ⟨.fresh, freshUv⟩ := ⟨rfl, rfl, rfl, rfl⟩

def plainConfig : ServerConfig := ⟨[], 1024, 256, false, false⟩

theorem delivers_fresh (hhttp : ¬kMagic <+: segments.flatten) {decision : Decision}
    (h : decided [] segments = some decision) :
    ∃ s, Delivers plainConfig 0 segments ⟨.fresh, freshUv⟩ [decision] s := by
  obtain ⟨decisions, s, hrun⟩ :=
    @delivers_exists plainConfig 0 segments ⟨.fresh, freshUv⟩ (freshWorld plainConfig)
  have heq := hrun.unanswered unread_fresh.unanswered hhttp
  rw [h] at heq
  exact ⟨s, heq.subst (motive := fun decisions =>
    Delivers plainConfig 0 segments _ decisions s) hrun⟩

theorem http_decision_small :
    ∃ decisions s, Delivers plainConfig 0 [smallRequest.text.take 9, smallRequest.text.drop 9]
    ⟨.fresh, freshUv⟩ decisions s ∧ decisions = [.dispatch smallRequest.meaning] := by
  obtain ⟨decisions, s, h⟩ :=
    @delivers_exists plainConfig 0 [smallRequest.text.take 9, smallRequest.text.drop 9]
    ⟨.fresh, freshUv⟩ (freshWorld plainConfig)
  obtain ⟨hiff, -, -⟩ := http_decision_iff unread_fresh (by decide +kernel) h
  refine ⟨decisions, s, h, (hiff.mpr (.inl (by decide +kernel))).trans ?_⟩
  decide +kernel

def letterRequest (n : ℕ) : WrittenRequest :=
  ⟨[0x47, 0x45, 0x54], [0x2F], [], [([0x61], List.replicate n 0x61)]⟩

theorem letterRequest_wellFormed (n : ℕ) : (letterRequest n).WellFormed where
  method_ne_nil := List.cons_ne_nil _ _
  method_space := by simp [letterRequest]
  method_unbroken := by simp [letterRequest, Unbroken]
  target_ne_nil := List.cons_ne_nil _ _
  target_space := by simp [letterRequest]
  target_unbroken := by simp [letterRequest, Unbroken]
  version_unbroken := by simp [letterRequest, Unbroken]
  headers := by
    intro header hheader
    rw [List.mem_singleton.mp hheader]
    exact ⟨by simp [Unbroken], by simp, by simp [Unbroken]⟩

theorem letterRequest_length (n : ℕ) : (letterRequest n).text.length = n + 14 := by
  simp [letterRequest, WrittenRequest.text, linesText, WrittenRequest.requestLine, headerText, crlf]

theorem letterRequest_http (n : ℕ) : ¬kMagic <+: (letterRequest n).text := by
  rintro ⟨rest, heq⟩
  have hhead : some (0x44 : UInt8) = some 0x47 := congrArg List.head? heq
  exact absurd hhead (by decide)

theorem decided_written {r : WrittenRequest} (h : r.WellFormed) (hcut : segments.flatten = r.text) :
    decided [] segments =
      if Caught 0 segments r.text.length then some .badRequest else some (.dispatch r.meaning) := by
  have hend : httpHeaderEnd r.text = r.text.length := by
    have hend := h.headerEnd []
    rwa [List.append_nil] at hend
  have hne : r.text.length ≠ 0 := by
    rw [WrittenRequest.text, List.length_append]
    exact Nat.ne_of_gt (Nat.lt_add_left _ (by decide))
  rw [decided_eq (httpHeaderEnd_short (by decide)) (Nat.zero_le _), List.nil_append, hcut,
    hend, if_neg hne, List.take_length, readBlock, h.parse]
  rfl

/-- The same request of 100014 bytes is dispatched if it is cut after 65536 bytes, and refused if it
is cut after 40000 and after 80000. -/
theorem limit_depends_on_segments : ∃ first second : List Bytes, first.flatten = second.flatten ∧
    (∃ s, Delivers plainConfig 0 first ⟨.fresh, freshUv⟩
      [.dispatch (letterRequest 100000).meaning] s) ∧
    ∃ s, Delivers plainConfig 0 second ⟨.fresh, freshUv⟩ [.badRequest] s := by
  have hlen := letterRequest_length 100000
  have hwell := letterRequest_wellFormed 100000
  have hhttp := letterRequest_http 100000
  generalize letterRequest 100000 = r at hlen hwell hhttp ⊢
  have hfirst : [r.text.take 65536, r.text.drop 65536].flatten = r.text := by
    simp only [List.flatten_cons, List.flatten_nil, List.append_nil, List.take_append_drop]
  have hsecond :
      [r.text.take 40000, (r.text.drop 40000).take 40000, (r.text.drop 40000).drop 40000].flatten =
        r.text := by
    simp only [List.flatten_cons, List.flatten_nil, List.append_nil, List.take_append_drop]
  refine ⟨_, _, hfirst.trans hsecond.symm, delivers_fresh (by rwa [hfirst]) ?_,
    delivers_fresh (by rwa [hsecond]) ?_⟩
  · rw [decided_written hwell hfirst, hlen, if_neg]
    simp only [Caught, boundaries, List.length_take, List.length_drop, hlen]
    decide
  · rw [decided_written hwell hsecond, hlen, if_pos]
    simp only [Caught, boundaries, List.length_take, List.length_drop, hlen]
    decide

end Runtime
end Dicker.Server
