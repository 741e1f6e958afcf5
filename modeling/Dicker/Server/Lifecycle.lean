import Dicker.Server.Opening

/-! The life of a connection: torn down once and for good, its handles closed once each, and
deleted only when no consumer is left to wait for. -/

namespace Dicker.Server
namespace Runtime
open Lib Host Connection

/-! ## While a handshake is answered -/

structure Answering (s : LoopState) : Prop where
  state : s.conn.state = .handshaking
  decided : s.conn.protoDecided = true
  http : s.conn.httpMode = false
  size : kHandshakeRequestSize ≤ s.uv.plaintext.length

/-- The transport takes what it is handed there, other than what a teardown follows: an `Ok` is
encrypted, and every write without a teardown is taken. -/
def ReplyTaken : (op : LoopOp) → LoopState → op.Ans → Prop
  | .write request, s, taken => Answering s →
    request.callback = .reply false ∨ request.callback = .tls false → taken = true
  | .sslWrite data, s, answer =>
    Answering s → kMagic ++ [HandshakeStatus.ok.toByte] <+: data → answer.1 = true
  | _, _, _ => True

def Up : Granted := ⟨fun teardownStarted => teardownStarted = false, True, fun _ => True⟩

variable {s s' : LoopState} {w w' : World}

theorem Answering.sends (h : Answering s) (hs : Sends s s')
    (hstate : s'.conn.state = s.conn.state) :
    Answering s' where
  state := hstate.trans h.state
  decided := (congrArg Core.protoDecided hs.core).trans h.decided
  http := hs.httpMode.trans h.http
  size := by
    rw [hs.plaintext]
    exact h.size

section
variable {config : ServerConfig} {maxRead : ℕ} {A : LoopState → World → Prop}
  (hA : Keeps (Move config Up) A)
include hA

def SentUp (s s' : LoopState) : Prop :=
  Sends s s' ∧ s'.conn.state = s.conn.state ∧ s'.conn.teardownStarted = s.conn.teardownStarted

omit hA in
theorem SentUp.trans {s'' : LoopState} (h : SentUp s s') (h' : SentUp s' s'') : SentUp s s'' :=
  ⟨h.1.trans h'.1, h'.2.1.trans h.2.1, h'.2.2.trans h.2.2⟩

theorem writeAll_taken (pieces : List Bytes) (hs : Answering s) :
    Ensures config maxRead ReplyTaken Up A (writeAll false pieces) (fun _ => SentUp s) s := by
  induction pieces generalizing s with
  | nil => exact ⟨.refl s, rfl, rfl⟩
  | cons piece pieces ih =>
    have hpiece : Ensures config maxRead ReplyTaken Up A (tlsWrite piece false)
        (fun _ => SentUp s) s := by
      refine vc_invoke fun taken w hAw ha hcond =>
        ⟨hA.step (.closing (.plain s w (.write _) taken trivial ha nofun)) hAw, ?_⟩
      have htaken : taken = true := hcond hs (.inr rfl)
      rw [htaken]
      exact ⟨sends_own (.write _) trivial _ s, rfl, rfl⟩
    refine vc_then hpiece fun s₁ h₁ => ?_
    exact vc_mono (ih (hs.sends h₁.1 h₁.2.1)) fun _ s' h => h₁.trans h

omit hA in
theorem SentUp.quiet (s : LoopState) (tls : TlsLayer) :
    SentUp s { s with conn := { s.conn with tls := tls } } :=
  ⟨⟨rfl, .inl ⟨rfl, rfl, rfl, rfl⟩, fun h => ⟨h.opened, h.closing⟩, fun _ => .rfl, fun _ _ => id⟩,
    rfl, rfl⟩

theorem sslWrite_taken {data : Bytes} (hok : kMagic ++ [HandshakeStatus.ok.toByte] <+: data)
    (hs : Answering s) :
    Ensures config maxRead ReplyTaken Up A (sslWrite data)
      (fun ok s' => ok = true ∧ SentUp s s') s := by
  refine vc_invoke fun answer w hAw ha hcond =>
    ⟨hA.step (.closing (.plain s w (.sslWrite data) answer trivial ha nofun)) hAw, ?_⟩
  have htaken : answer.1 = true := hcond hs hok
  obtain ⟨ok, sent⟩ := answer
  refine vc_update (fun w hAw => hA.step (.quiet _ w _ _ _ _ _) hAw) ⟨htaken, ?_⟩
  have hsent : SentUp s (own (.sslWrite data) (ok, sent) s) :=
    ⟨sends_own (.sslWrite data) trivial _ s, rfl, rfl⟩
  exact hsent.trans (.quiet _ _)

theorem flushOut_taken (hs : Answering s) :
    Ensures config maxRead ReplyTaken Up A (flushOut false) (fun _ => SentUp s) s := by
  refine vc_this (vc_then (writeAll_taken hA _ hs) fun s' h => ?_)
  refine vc_update_last (fun w hAw => hA.step (.quiet _ w _ _ _ _ _) hAw) ?_
  exact h.trans (.quiet _ _)

theorem tlsSend_taken {data : Bytes} (hok : kMagic ++ [HandshakeStatus.ok.toByte] <+: data)
    (hs : Answering s) :
    Ensures config maxRead ReplyTaken Up A (tlsSend data false)
      (fun ok s' => ok = true ∧ SentUp s s') s := by
  refine vc_bind (vc_mono (sslWrite_taken hA hok hs) ?_)
  rintro ok s₁ ⟨rfl, h₁⟩
  refine vc_then (flushOut_taken hA (hs.sends h₁.1 h₁.2.1)) fun s₂ h₂ => ?_
  exact ⟨rfl, h₁.trans h₂⟩

theorem grants_taken : Grants config maxRead ReplyTaken Up A where
  up s hb hdecided hhttp hsize hstatus := by
    have hs : Answering (s.reply .ok) := ⟨hb.state, hdecided, hhttp, hsize⟩
    refine vc_this
      (vc_note (fun w hAw => hA.step (.replies s w .ok hb.state hsize hstatus nofun) hAw) ?_)
    split_ifs
    · refine vc_bind (vc_mono (tlsSend_taken hA (List.prefix_append _ _) hs) ?_)
      rintro ok s' ⟨rfl, h⟩
      exact ⟨h.1, h.2.2.trans hb.teardown⟩
    · refine vc_invoke fun taken w hAw ha hcond =>
        ⟨hA.step (.closing (.plain _ w (.write _) taken trivial ha nofun)) hAw, ?_⟩
      have htaken : taken = true := hcond hs (.inl rfl)
      rw [htaken]
      exact ⟨sends_own (.write _) trivial _ _, hb.teardown⟩
  fails _ _ := trivial

end

/-! ## The invariant -/

structure Lifecycle (s : LoopState) (w : World) : Prop extends Started s w where
  torn : s.conn.teardownStarted = true → s.conn.state = .closing
  shut : s.conn.handlesClosing = true → s.conn.teardownStarted = true
  started : w.consumer ≠ .notStarted → s.conn.consumerStarted = true
  joined : s.conn.handlesClosing = true → s.conn.consumerStarted = true → w.consumer = .finished
  once : ∀ h, s.uv.log.count (.close h) = if s.uv.handles h = .opened then 0 else 1
  closing : ∀ h, s.uv.handles h ≠ .opened → s.conn.handlesClosing = true
  deleted : s.uv.log.count .delete ≤ 1 ∧ (.delete ∈ s.uv.log → ∀ h, s.uv.handles h = .closed)

theorem count_logged (log : List LoopOp) {op o : LoopOp} (h : o ≠ op) :
    (log ++ [op]).count o = log.count o := by
  rw [List.count_append, List.count_eq_zero.mpr fun hmem => h (List.mem_singleton.mp hmem),
    Nat.add_zero]

theorem Lifecycle.logged (h : Lifecycle s w) {u : Uv} (op : LoopOp)
    (hhandles : u.handles = s.uv.handles) (hlog : u.log = s.uv.log ++ [op]) (hrare : ¬op.Rare)
    (hclose : ∀ hd, op ≠ .close hd) (hconsumer : w'.consumer = w.consumer)
    (hpending : w'.closePending = w.closePending) : Lifecycle { s with uv := u } w' where
  toStarted := h.toStarted.logged hlog hconsumer hpending
  torn := h.torn
  shut := h.shut
  started := hconsumer ▸ h.started
  joined := hconsumer ▸ h.joined
  once hd := by
    rw [hlog, hhandles, count_logged _ (hclose hd).symm]
    exact h.once hd
  closing hd := hhandles ▸ h.closing hd
  deleted := by
    have hne : op ≠ .delete := fun heq => hrare (heq ▸ trivial)
    rw [hlog, hhandles, count_logged _ hne.symm]
    refine ⟨h.deleted.1, fun hmem => ?_⟩
    rcases List.mem_append.mp hmem with hmem | hmem
    · exact h.deleted.2 hmem
    · exact absurd (List.mem_singleton.mp hmem).symm hne

theorem Lifecycle.assigned (h : Lifecycle s w) {c : Connection} {u : Uv}
    (hstate : c.state = s.conn.state) (hteardown : c.teardownStarted = s.conn.teardownStarted)
    (hclosing : c.handlesClosing = s.conn.handlesClosing)
    (hconsumer : c.consumerStarted = s.conn.consumerStarted) (hhandles : u.handles = s.uv.handles)
    (hlog : u.log = s.uv.log) : Lifecycle ⟨c, u⟩ w where
  toStarted := h.toStarted.assigned hlog
  torn := by
    rw [hstate, hteardown]
    exact h.torn
  shut := by
    rw [hclosing, hteardown]
    exact h.shut
  started := hconsumer ▸ h.started
  joined := by
    rw [hclosing, hconsumer]
    exact h.joined
  once hd := by
    rw [hlog, hhandles]
    exact h.once hd
  closing hd := by
    rw [hhandles, hclosing]
    exact h.closing hd
  deleted := by
    rw [hlog, hhandles]
    exact h.deleted

theorem Lifecycle.plain (h : Lifecycle s w) {op : LoopOp} (hop : op.Plain) (a : op.Ans) :
    Lifecycle (own op a s) (shared op a w) := by
  cases op with
  | close | push | bufferedBytes | closeChannel | startConsumer | delete | getOrCreateSink
  | recordSession => exact hop.elim
  | write request => cases a <;> exact h.logged _ rfl rfl nofun nofun rfl rfl
  | _ => exact h.logged _ rfl rfl nofun nofun rfl rfl

theorem Lifecycle.closes (h : Lifecycle s w) (hs : Started s' w') (hm : Closing s w s' w') :
    Lifecycle s' w' := by
  cases hm with
  | counts n => exact h.assigned rfl rfl rfl rfl rfl rfl
  | plain op a hop ha => exact h.plain hop a
  | finalizes hstate hteardown hconsumer =>
    refine ⟨hs, h.torn, fun _ => hteardown, h.started, fun _ hs => ?_, h.once,
      fun _ _ => rfl, h.deleted⟩
    exact hconsumer.resolve_left fun hf => absurd (hf.symm.trans hs) Bool.false_ne_true
  | closes handle hclosing hopened =>
    have hzero : s.uv.log.count (LoopOp.close handle) = 0 := (h.once handle).trans (if_pos hopened)
    have hundeleted : .delete ∉ s.uv.log := fun hmem =>
      absurd (hopened.symm.trans (h.deleted.2 hmem handle)) (by decide)
    refine ⟨hs, h.torn, h.shut, h.started, h.joined, fun hd => ?_, fun _ _ => hclosing,
      ?_, fun hmem => ?_⟩
    · change (s.uv.log ++ [LoopOp.close handle]).count (LoopOp.close hd) =
        if Function.update s.uv.handles handle .closing hd = .opened then 0 else 1
      by_cases heq : hd = handle
      · rw [heq, Function.update_self, List.count_append, hzero, List.count_singleton_self]
        rfl
      · rw [Function.update_of_ne heq, count_logged _ fun hc => heq (LoopOp.close.inj hc)]
        exact h.once hd
    · exact (count_logged _ (by exact nofun)).trans_le h.deleted.1
    · rcases List.mem_append.mp hmem with hmem | hmem
      · exact absurd hmem hundeleted
      · exact nomatch List.mem_singleton.mp hmem

theorem lifecycle_keeps (config : ServerConfig) : Keeps (Move config Up) Lifecycle := by
  intro s w s' w' hm h
  have hs := started_keeps config Up hm h.toStarted
  cases hm with
  | closing hc => exact h.closes hs hc
  | quiet | detects | receives | buffers | replies | agrees | names | pauses | resumes =>
    exact h.assigned rfl rfl rfl rfl rfl rfl
  | marks => exact { h with toStarted := hs, torn := fun _ => rfl, shut := fun _ => rfl }
  | closesChannel | looks => exact h.logged _ rfl rfl nofun nofun rfl rfl
  | records _ op a hop =>
    rcases hop with ⟨_, rfl⟩ | ⟨_, rfl⟩
    · exact h.logged _ rfl rfl nofun nofun rfl rfl
    · exact h.logged _ rfl rfl nofun nofun rfl rfl
  | streams _ hup =>
    -- `hup` is where the transport taking the `Ok` comes in: a connection torn down by it would
    -- stream again
    exact { h with
      toStarted := hs, torn := fun ht => absurd (hup.symm.trans ht) Bool.false_ne_true }
  | starts _ hup =>
    refine ⟨hs, h.torn, h.shut, fun _ => rfl, fun hc _ => ?_, h.once, h.closing, h.deleted⟩
    exact absurd (hup.symm.trans (h.shut hc)) Bool.false_ne_true
  | startsConsumer _ hup hstate hstarted hlog =>
    refine ⟨hs, h.torn, h.shut, fun _ => hstarted, fun hc _ => ?_, fun hd => ?_, h.closing, ?_,
      fun hmem => ?_⟩
    · exact absurd (hup.symm.trans (h.shut hc)) Bool.false_ne_true
    · exact (count_logged _ (by exact nofun)).trans (h.once hd)
    · exact (count_logged _ (by exact nofun)).trans_le h.deleted.1
    · rcases List.mem_append.mp hmem with hmem | hmem
      · exact h.deleted.2 hmem
      · exact nomatch List.mem_singleton.mp hmem
  | pushes data =>
    unfold own uvOwn
    dsimp only
    split_ifs
    · exact h.logged _ rfl rfl nofun nofun rfl rfl
    · exact h.logged _ rfl rfl nofun nofun rfl rfl
  | deletes _ hclosed hlog =>
    refine ⟨hs, h.torn, h.shut, h.started, h.joined, fun hd => ?_, h.closing, ?_, fun _ => hclosed⟩
    · exact (count_logged _ (by exact nofun)).trans (h.once hd)
    · change (s.uv.log ++ [LoopOp.delete]).count LoopOp.delete ≤ 1
      rw [List.count_append, List.count_eq_zero.mpr hlog]
      exact le_refl 1

theorem Lifecycle.consumes (h : Lifecycle s w) (hs : Started s w')
    (hstarted : w.consumer ≠ .notStarted) (hrunning : w.consumer ≠ .finished) : Lifecycle s w' where
  toStarted := hs
  torn := h.torn
  shut := h.shut
  started _ := h.started hstarted
  joined hc hs := absurd (h.joined hc hs) hrunning
  once := h.once
  closing := h.closing
  deleted := h.deleted

theorem lifecycle_stable {maxRead : ℕ} (h : Lifecycle s w) (hstep : ConsumerStep maxRead w w') :
    Lifecycle s w' := by
  have hs := started_stable h.toStarted hstep
  cases hstep with
  | call _ _ hw => exact h.consumes hs (by rw [hw]; nofun) (by rw [hw]; nofun)
  | run _ hw => exact h.consumes hs (by rw [hw]; nofun) (by rw [hw]; nofun)
  | post _ _ hw => exact h.consumes hs (by rw [hw]; nofun) (by rw [hw]; nofun)
  | finish _ hw => exact h.consumes hs (by rw [hw]; nofun) (by rw [hw]; nofun)

theorem Lifecycle.handleClosed (h : Lifecycle s w) {handle : Handle}
    (hclosing : s.uv.handles handle = .closing) : Lifecycle (takes (.handleClosed handle) s) w := by
  have hupdate : ∀ hd, Function.update s.uv.handles handle .closed hd = .opened ↔
      s.uv.handles hd = .opened := by
    intro hd
    by_cases heq : hd = handle
    · rw [heq, Function.update_self, hclosing]
      decide
    · rw [Function.update_of_ne heq]
  refine ⟨⟨h.unstarted, h.ended⟩, h.torn, h.shut, h.started, h.joined, fun hd => ?_,
    fun hd hne => ?_, h.deleted.1, fun hmem =>
      absurd (hclosing.symm.trans (h.deleted.2 hmem handle)) (by decide)⟩
  · exact (h.once hd).trans (if_congr (hupdate hd).symm rfl rfl)
  · exact h.closing hd fun hopen => hne ((hupdate hd).mpr hopen)

theorem lifecycle_starts {e : Callback} (h : Lifecycle s w) (hfires : fires e s w) :
    Lifecycle (takes e s) (clears e w) := by
  cases e with
  | handleClosed handle => exact h.handleClosed hfires.1
  | close =>
    exact { h with toStarted := ⟨fun hu => ⟨(h.unstarted hu).1, rfl⟩, nofun⟩ }
  | resume | outbox =>
    exact { h with toStarted := ⟨h.unstarted, h.ended⟩ }
  | _ => exact h.assigned rfl rfl rfl rfl rfl rfl

theorem lifecycle_invariant (config : ServerConfig) (maxRead : ℕ) :
    Invariant config maxRead ReplyTaken Up Lifecycle where
  keeps := lifecycle_keeps config
  grants _ hA := grants_taken hA
  limit _ := trivial
  stable _ _ _ h hstep := lifecycle_stable h hstep
  ended _ _ h := h.ended
  starts _ _ _ _ h hfires := lifecycle_starts h hfires

theorem lifecycle_fresh (config : ServerConfig) :
    Lifecycle ⟨.fresh, freshUv⟩ (freshWorld config) where
  toStarted := started_fresh config
  torn := nofun
  shut := nofun
  started h := absurd rfl h
  joined := nofun
  once _ := rfl
  closing _ h := absurd rfl h
  deleted := ⟨Nat.zero_le 1, fun hmem => absurd hmem List.not_mem_nil⟩

theorem Move.torn {config : ServerConfig} {G : Granted} (hm : Move config G s w s' w')
    (h : s.conn.teardownStarted = true) : s'.conn.teardownStarted = true := by
  cases hm with
  | closing hc => cases hc <;> exact h
  | marks => rfl
  | _ => exact h

/-- If what the server writes while it answers a handshake is taken, a connection that is torn
down stays closing; its handles close only when no consumer is left; each is closed once; and
it is deleted at most once, after all of them. -/
theorem lifecycle_safe (config : ServerConfig) (maxRead : ℕ) (c : LoopRun)
    (hc : Relation.ReflTransGen (hostIf config maxRead ReplyTaken).Step (init config) c) :
    (c.own.conn.teardownStarted = true → ∀ c',
      Relation.ReflTransGen (hostIf config maxRead ReplyTaken).Step c c' →
      c'.own.conn.teardownStarted = true ∧ c'.own.conn.state = .closing) ∧
    (c.own.conn.handlesClosing = true →
      c.world.consumer = .notStarted ∨ c.world.consumer = .finished) ∧
    (∀ h, c.own.uv.log.count (.close h) ≤ 1) ∧
    c.own.uv.log.count .delete ≤ 1 ∧
    (.delete ∈ c.own.uv.log → ∀ h, c.own.uv.handles h = .closed ∧
      c.own.uv.log.count (.close h) = 1) := by
  have hinv := lifecycle_invariant config maxRead
  have hproceeds := hinv.proceeds (lifecycle_fresh config) hc
  have hlife := hproceeds.holds.1
  refine ⟨fun ht c' hr => ?_, fun hclosing => ?_, fun h => ?_, hlife.deleted.1, fun hmem h => ?_⟩
  · have hlast : c'.own.conn.teardownStarted = true :=
      hproceeds.lasts (P := fun s _ => s.conn.teardownStarted = true) hinv.stable hinv.event
        (fun _ _ _ _ hm => hm.torn) (fun _ _ _ ht _ => ht) (fun _ _ _ _ _ _ ht => ht) hr ht
    exact ⟨hlast, (hinv.proceeds (lifecycle_fresh config) (hc.trans hr)).holds.1.torn hlast⟩
  · by_cases hstarted : c.own.conn.consumerStarted = true
    · exact .inr (hlife.joined hclosing hstarted)
    · exact .inl (not_not.mp fun hne => hstarted (hlife.started hne))
  · rw [hlife.once h]
    split_ifs
    · exact Nat.zero_le 1
    · exact le_refl 1
  · have hclosed := hlife.deleted.2 hmem h
    exact ⟨hclosed, (hlife.once h).trans (if_neg (by rw [hclosed]; decide))⟩

def smallConfig : ServerConfig := ⟨[], 8, 2, false, false⟩

theorem lifecycle_safe_cut : ∃ c, Relation.ReflTransGen (hostIf smallConfig 8 ReplyTaken).Step
    (init smallConfig) c ∧ c.own.conn.teardownStarted = true ∧ c.own.conn.consumerStarted = true ∧
    ∀ c', Relation.ReflTransGen (hostIf smallConfig 8 ReplyTaken).Step c c' →
      c'.own.conn.state = .closing := by
  have hcond : ∀ op s a, LoopOp.Succeeds op a → ReplyTaken op s a := by
    intro op s a h
    cases op with
    | write request => exact fun _ _ => h
    | sslWrite data => exact fun _ _ => h
    | _ => exact trivial
  have hfires : (hostIf smallConfig 8 ReplyTaken).fires .readError
      (established smallConfig (plainRequest smallConfig.key) plainHandshake)
      { freshWorld smallConfig with consumer := .between true } := ⟨rfl, rfl⟩
  have hcut := (plain_run smallConfig 8 hcond).trans
    (Exec.event hfires (exec_beginTeardown hcond rfl rfl))
  exact ⟨_, hcut, rfl, rfl, fun c' hr => ((lifecycle_safe smallConfig 8 _ hcut).1 rfl c' hr).2⟩

/-! ## A reply that is not taken -/

section
variable (config : ServerConfig) (maxRead : ℕ)

def refused (bytes : Bytes) (request : HandshakeRequest) : LoopState :=
  let g := greeting config request (whole bytes)
  streaming request
    (shut (torn (own (.write ⟨handshakeReply .ok g.conn, .reply false⟩) false (g.reply .ok))))

theorem refused_run {bytes : Bytes} {request : HandshakeRequest}
    (hlen : bytes.length = kHandshakeRequestSize)
    (hparse : parseAndVerifyHandshake config.key bytes = .ok request) :
    Reaches config maxRead (init config)
      ⟨none, refused config bytes request, { freshWorld config with
        consumer := .between true }⟩ := by
  have hcond : ∀ (op : LoopOp) (_ : LoopState) (a : op.Ans), LoopOp.Succeeds op a → True :=
    fun _ _ _ _ => trivial
  have hreply : Runs config maxRead (fun _ _ _ => True) (sendHandshakeReply .ok)
      (greeting config request (whole bytes)) (freshWorld config) ()
      (shut (torn (own (.write ⟨handshakeReply .ok (greeting config request (whole bytes)).conn,
        .reply false⟩) false ((greeting config request (whole bytes)).reply .ok))))
          (freshWorld config) :=
    exec_this (exec_note (exec_invoke false trivial trivial
      (exec_beginTeardown_early hcond rfl rfl rfl fun _ => rfl)))
  refine reaches_of_restricted (first_run hcond hlen.ge (parse_magic hparse) ?_)
  exact exec_accepted hcond hparse (List.drop_eq_nil_of_le hlen.le) hreply

def handleGone (handle : Handle) (s : LoopState) : LoopState :=
  { takes (.handleClosed handle) s with
    conn := { s.conn with pendingHandleCloses := s.conn.pendingHandleCloses - 1 } }

theorem handleClosed_run (handle : Handle) (hclosing : s.uv.handles handle = .closing)
    (hwrites : s.uv.writes = []) (hmore : s.conn.pendingHandleCloses - 1 ≠ 0) :
    Reaches config maxRead ⟨none, s, w⟩ ⟨none, handleGone handle s, w⟩ := by
  have hfires : (host config maxRead).fires (.handleClosed handle) s w :=
    ⟨hclosing, fun _ => hwrites⟩
  refine Exec.event hfires (.get (.set (.get ?_)))
  change (host config maxRead).Exec (if s.conn.pendingHandleCloses - 1 = 0 then _ else _) _ _ _ _ _
  rw [if_neg hmore]
  exact .ret () _ _

theorem join_run (handle : Handle) (hclosing : s.uv.handles handle = .closing)
    (hwrites : s.uv.writes = []) (hlast : s.conn.pendingHandleCloses - 1 = 0)
    (hconsumer : s.conn.consumerStarted = true) :
    Reaches config maxRead ⟨none, s, w⟩
      ⟨some (.call .joinConsumer fun _ => destroy), handleGone handle s, w⟩ := by
  have hfires : (host config maxRead).fires (.handleClosed handle) s w :=
    ⟨hclosing, fun _ => hwrites⟩
  have hjoin : (if s.conn.pendingHandleCloses - 1 = 0 then
      if s.conn.consumerStarted then invoke .joinConsumer >>= fun _ => destroy else destroy
      else pure ()) = (.call .joinConsumer fun _ => destroy : LoopM Unit) := by
    rw [if_pos hlast, if_pos hconsumer]
    rfl
  refine .head (.start _ hfires) (.head (.get _ _ _) (.head (.set _ _ _ _) (.head (.get _ _ _) ?_)))
  change Reaches config maxRead ⟨some (if s.conn.pendingHandleCloses - 1 = 0 then
    if s.conn.consumerStarted then invoke .joinConsumer >>= fun _ => destroy else destroy
    else pure ()), handleGone handle s, w⟩ _
  rw [hjoin]
  exact .refl

end

/-- The `Ok` of a valid request is not taken: the connection streams although it was torn down,
a consumer starts while the handles close, and the loop thread ends up waiting for it while it
waits on a channel that nobody closes. -/
theorem refused_reply_blocks_loop : ∃ c c', Reaches smallConfig 8 (init smallConfig) c ∧
    c.own.conn.teardownStarted = true ∧ c.own.conn.state = .streaming ∧
    c.own.conn.handlesClosing = true ∧ c.world.consumer = .between true ∧
    Reaches smallConfig 8 c c' ∧ (∃ k, c'.code = some (.call .joinConsumer k)) ∧
    c'.world.consumer = .reading (.start 1) ∧
    c'.world.channel = .create smallConfig.channelLowWater := by
  refine ⟨_, ⟨some (.call .joinConsumer fun _ => destroy), handleGone .outboxAsync
    (handleGone .closeAsync (handleGone .resumeAsync (handleGone .tcp
      (refused smallConfig (plainRequest smallConfig.key) plainHandshake)))),
    { freshWorld smallConfig with consumer := .reading (.start 1) }⟩,
    refused_run smallConfig 8 (plainRequest_length _) (parse_plainRequest _),
    rfl, rfl, rfl, rfl, ?_, ⟨fun _ => destroy, rfl⟩, rfl, rfl⟩
  refine (handleClosed_run smallConfig 8 .tcp rfl rfl (by decide)).trans ?_
  refine (handleClosed_run smallConfig 8 .resumeAsync rfl rfl (by decide)).trans ?_
  refine (handleClosed_run smallConfig 8 .closeAsync rfl rfl (by decide)).trans ?_
  refine (join_run smallConfig 8 .outboxAsync rfl rfl rfl rfl).trans ?_
  exact .single (.other _ _ (.call _ true 1 rfl (by decide)))

end Runtime
end Dicker.Server
