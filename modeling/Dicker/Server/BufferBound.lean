import Dicker.Server.Delivery

/-! How much the channel of a connection can hold. A resume notification may be stale when it is
handled, so the socket is sometimes read again while the channel is still above the high-water
mark; what bounds the buffer is how the pause flag and the pending notification go together. What
was received behind the request before it is accepted goes into the channel all at once. -/

namespace Dicker.Server
open Lib Relation

/-! ## The consumer's side -/

structure World.Drained (w w' : World) : Prop where
  low : w'.channel.lowWaterMark = w.channel.lowWaterMark
  closed : w'.channel.closed = w.channel.closed
  buffered_le : w'.channel.buffered ≤ w.channel.buffered
  pending : w'.resumePending = w.resumePending ∨
    w'.resumePending = true ∧ w'.channel.buffered ≤ w.channel.lowWaterMark

theorem ByteChannel.passed_buffered (c : ByteChannel) (front : Bytes)
    (rest : List Bytes) (take : ℕ) :
    (c.passed front rest take).lowWaterMark = c.lowWaterMark ∧
    (c.passed front rest take).closed = c.closed ∧
      (c.passed front rest take).buffered = c.buffered - take := by
  unfold passed
  split_ifs <;> exact ⟨rfl, rfl, rfl⟩

theorem ByteChannel.passes_buffered (n : ℕ) (c : ByteChannel) (r : Reader) :
    (passes n c r).1.lowWaterMark = c.lowWaterMark ∧ (passes n c r).1.closed = c.closed ∧
      (passes n c r).1.buffered ≤ c.buffered ∧
      ((passes n c r).2.2 = true → (passes n c r).1.buffered ≤ c.lowWaterMark) := by
  induction n generalizing c r with
  | zero => exact ⟨rfl, rfl, Nat.le_refl _, fun h => absurd h Bool.false_ne_true⟩
  | succ n ih =>
    unfold passes
    split_ifs
    · cases hblocks : c.blocks with
      | nil => exact ⟨rfl, rfl, Nat.le_refl _, fun h => absurd h Bool.false_ne_true⟩
      | cons front rest =>
        dsimp only
        obtain ⟨hlow, hclosed, hbuffered⟩ := c.passed_buffered front rest (c.takeSize front r)
        obtain ⟨hlow', hclosed', hle, hsignal⟩ :=
          ih (c.passed front rest (c.takeSize front r)) (c.copied front (c.takeSize front r) r).1
        refine ⟨hlow'.trans hlow, hclosed'.trans hclosed, by omega, fun h => ?_⟩
        rcases Bool.or_eq_true_iff.mp h with h | h
        · -- the notification of this pass; the later passes only take more
          unfold copied at h
          rw [Bool.and_eq_true, decide_eq_true_eq] at h
          omega
        · have hlast := hsignal h
          omega
    · exact ⟨rfl, rfl, Nat.le_refl _, False.elim⟩

theorem World.drained_ran (w : World) (r : Reader) : w.Drained (w.ran r) := by
  obtain ⟨hlow, hclosed, hle, hsignal⟩ :=
    ByteChannel.passes_buffered w.channel.blocks.length w.channel r
  have hchannel : (w.ran r).channel = (w.channel.readLoop r).1 := by
    unfold World.ran
    dsimp only
    split_ifs <;> rfl
  have hpending : (w.ran r).resumePending = (w.resumePending || (w.channel.readLoop r).2.2) := by
    unfold World.ran
    dsimp only
    split_ifs <;> rfl
  refine ⟨?_, ?_, ?_, ?_⟩
  · rw [hchannel]
    exact hlow
  · rw [hchannel]
    exact hclosed
  · rw [hchannel]
    exact hle
  · rw [hchannel, hpending]
    cases hs : (w.channel.readLoop r).2.2 with
    | false => exact .inl (Bool.or_false _)
    | true => exact .inr ⟨Bool.or_true _, hsignal hs⟩

theorem ConsumerStep.drained {maxRead : ℕ} {w w' : World} (h : ConsumerStep maxRead w w') :
    w.Drained w' := by
  cases h with
  | call b count hw hcount => exact ⟨rfl, rfl, Nat.le_refl _, .inl rfl⟩
  | run r hw => exact w.drained_ran r
  | post b data hw => exact ⟨rfl, rfl, Nat.le_refl _, .inl rfl⟩
  | finish b hw => exact ⟨rfl, rfl, Nat.le_refl _, .inl rfl⟩

namespace Runtime
open Host Connection

/-- The bytes that a callback has for `handle_data`. -/
def carried : Callback → LoopState → ℕ
  | .read data answers, s => rawSize data answers s.conn
  | _, _ => 0

/-- The runs in which no `on_read` has more than `limit` bytes. -/
def limited (config : ServerConfig) (maxRead limit : ℕ) : LoopHost :=
  (host config maxRead).limit fun e s _ => carried e s ≤ limit

/-! ## What a move leaves -/

section
variable {config : ServerConfig} {G : Granted} {s s' : LoopState} {w w' : World}

def Stopped (s : LoopState) : Prop := s.conn.paused = true → s.uv.reading = false

theorem stopped_keeps (hm : Move config G s w s' w') (h : Stopped s) : Stopped s' := by
  cases hm with
  | closing hc =>
    cases hc with
    | counts | finalizes => exact h
    | plain op a hop _ hstart =>
      cases op with
      | readStart => exact fun hp => absurd ((hstart rfl).symm.trans hp) Bool.false_ne_true
      | readStop => exact fun _ => rfl
      | write request => cases a <;> exact h
      | close | push | bufferedBytes | closeChannel => exact hop.elim
      | _ => exact h
    | closes handle =>
      intro hp
      change (s.uv.reading && handle != .tcp) = false
      rw [h hp, Bool.false_and]
  | pauses _ _ _ hstopped => exact fun _ => hstopped
  | resumes => exact fun hp => absurd hp Bool.false_ne_true
  | records _ op a hop =>
    rcases hop with ⟨_, rfl⟩ | ⟨_, rfl⟩
    · exact h
    · exact h
  | pushes _ data =>
    unfold own uvOwn
    dsimp only
    split_ifs <;> exact h
  | _ => exact h

/-- Nothing can be pushed any more in this callback: the stream has ended, or the request was
refused, or it is none. -/
structure Barred (G : Granted) (s : LoopState) : Prop where
  state : s.conn.state ≠ .streaming
  never : s.conn.consumerStarted = true ∨ (∀ torn, ¬G.up torn) ∨
    ¬s.uv.plaintext.take kMagic.length <+: kMagic ∨ ∃ r ∈ s.uv.replies.head?, r.1 ≠ .ok

theorem Barred.grows (h : Barred G s) (hs : Grows s s') (hstate : s'.conn.state ≠ .streaming) :
    Barred G s' := by
  refine ⟨hstate, ?_⟩
  rcases h.never with h | h | h | ⟨r, hr, hrefused⟩
  · exact .inl (hs.consumer h)
  · exact .inr (.inl h)
  · exact .inr (.inr (.inl fun hp => h ((hs.plaintext.take _).trans hp)))
  · refine .inr (.inr (.inr ⟨r, ?_, hrefused⟩))
    obtain ⟨rest, hrest⟩ := hs.replies
    rw [← hrest, List.head?_append, hr]
    rfl

theorem barred_keeps (hm : Move config G s w s' w') (hlate : s'.uv.late = 0) (h : Barred G s) :
    Barred G s' := by
  have hgrows := hm.grows
  cases hm with
  | streams _ hup hconsumer hsize hauthentic hok hcount =>
    -- the one reply that there is would have to be both the refusal and the `Ok`
    obtain ⟨request, hparse⟩ := (parse_ok_iff hsize).mpr hauthentic
    have hlate : s.uv.late = 0 := hlate
    rw [hlate] at hcount
    obtain ⟨x, hx⟩ := List.length_eq_one_iff.mp hcount
    rcases h.never with h | h | h | ⟨r, hr, hrefused⟩
    · exact absurd (hconsumer.symm.trans h) Bool.false_ne_true
    · exact absurd hup (h _)
    · exact absurd (by rw [parse_magic hparse]) h
    · obtain ⟨r', hr', hok⟩ := hok
      rw [hx] at hr hr'
      rw [List.mem_singleton.mp hr', Option.some.inj hr] at hok
      exact absurd hok hrefused
  | closing hc =>
    cases hc <;> exact h.grows hgrows h.state
  | marks => exact h.grows hgrows nofun
  | _ => exact h.grows hgrows h.state

end

/-! ## One callback -/

variable {data : Bytes}

section
variable {config : ServerConfig} {G : Granted} {maxRead limit before : ℕ} {full : Bool}
  {s s' : LoopState} {w w' : World}

def ceiling (config : ServerConfig) (limit : ℕ) (full pending : Bool) : ℕ :=
  max config.channelHighWater config.channelLowWater + (if full then limit else 0) +
    (if pending then 0 else limit)

/-- What is known of the channel from what the callback knows of it. -/
def Look.Agrees (before pushed buffered : ℕ) : Look → Prop
  | .untouched => pushed = before
  | .due => True
  | .seen n => buffered ≤ n

/-- How far a callback has filled the channel that began with `before` bytes pushed, of a connection
that was `full`. -/
structure Filling (config : ServerConfig) (G : Granted) (limit before : ℕ) (full : Bool)
    (s : LoopState) (w : World) :
    Prop where
  low : w.channel.lowWaterMark = config.channelLowWater
  before_le : before ≤ s.uv.pushed.length
  pushed_le : s.uv.pushed.length ≤ before + (if full then 0 else limit)
  source : (∀ n, n = s.uv.plaintext.length ∨ G.limit n →
    n ≤ before + kHandshakeRequestSize + (if full then 0 else limit)) ∨ Barred G s
  stays : full = true → s.uv.resuming = false ∧ (s.conn.paused = true ∨ Barred G s)
  buffered_le : w.channel.buffered + before ≤ ceiling config limit full w.resumePending +
    s.uv.pushed.length
  looked : Look.Agrees before s.uv.pushed.length w.channel.buffered s.uv.look

theorem Filling.bounded (h : Filling config G limit before full s w) :
    w.channel.buffered ≤ max config.channelHighWater config.channelLowWater + 2 * limit := by
  have hbuffered := h.buffered_le
  have hpushed := h.pushed_le
  unfold ceiling at hbuffered
  cases full <;> split_ifs at hbuffered hpushed <;> omega

theorem Filling.same (h : Filling config G limit before full s w)
    (hchannel : w'.channel = w.channel) (hpending : w'.resumePending = w.resumePending)
    (hpushed : s'.uv.pushed = s.uv.pushed) (hlook : s'.uv.look = s.uv.look)
    (hresuming : s'.uv.resuming = s.uv.resuming) (hpaused : s'.conn.paused = s.conn.paused)
    (hplaintext : s'.uv.plaintext = s.uv.plaintext) (hbarred : Barred G s → Barred G s') :
    Filling config G limit before full s' w' where
  low := hchannel ▸ h.low
  before_le := hpushed ▸ h.before_le
  pushed_le := hpushed ▸ h.pushed_le
  source := by
    rw [hplaintext]
    exact h.source.imp_right hbarred
  stays hfull := by
    rw [hresuming, hpaused]
    exact (h.stays hfull).imp_right (Or.imp_right hbarred)
  buffered_le := by
    rw [hchannel, hpending, hpushed]
    exact h.buffered_le
  looked := by
    rw [hchannel, hpushed, hlook]
    exact h.looked

theorem ByteChannel.push_buffered {c : ByteChannel} (h : c.closed = false) (data : Bytes) :
    (c.push data).lowWaterMark = c.lowWaterMark ∧ (c.push data).buffered =
      c.buffered + data.length := by
  unfold ByteChannel.push
  rw [h]
  split_ifs with hnil hclosed
  · exact ⟨rfl, by omega⟩
  · exact nomatch hclosed
  · exact ⟨rfl, rfl⟩

theorem Filling.pushes (h : Filling config G limit before full s w) (hd : Delivery s w)
    (hdata : s.uv.pushed ++ data = s.uv.plaintext.drop kHandshakeRequestSize)
    (hstate : s.conn.state = .streaming) :
    Filling config G limit before full (own (.push data) () s) (shared (.push data) () w) := by
  have hbarred : ¬Barred G s := fun hb => hb.state hstate
  have hbound := (h.source.resolve_right hbarred) _ (.inl rfl)
  have hlen := congrArg List.length hdata
  rw [List.length_append, List.length_drop] at hlen
  have hlow := h.before_le
  have hbuffered := h.buffered_le
  cases hclosed : s.uv.channelClosed with
  | true =>
    have hsame : w.channel.push data = w.channel := by
      unfold ByteChannel.push
      split_ifs with hnil hopen
      · rfl
      · rfl
      · exact absurd (hd.closed.trans hclosed) hopen
    unfold own uvOwn
    dsimp only
    rw [hclosed, if_pos rfl]
    exact h.same hsame rfl rfl rfl rfl rfl rfl fun hb => absurd hb hbarred
  | false =>
    obtain ⟨hmark, hpushed⟩ := ByteChannel.push_buffered (hd.closed.trans hclosed) data
    rw [own_push hclosed]
    refine ⟨hmark.trans h.low, ?_, ?_, ?_, fun hfull => ?_, ?_, trivial⟩
    · exact hlow.trans (List.length_append ▸ Nat.le_add_right _ _)
    · change (s.uv.pushed ++ data).length ≤ _
      rw [List.length_append]
      omega
    · exact .inl (h.source.resolve_right hbarred)
    · exact (h.stays hfull).imp_right (Or.imp_right fun hb => absurd hb hbarred)
    · change (w.channel.push data).buffered + before ≤ ceiling config limit full w.resumePending +
        (s.uv.pushed ++ data).length
      rw [hpushed, List.length_append]
      omega

theorem filling_keeps (hm : Move config G s w s' w') (hd : Delivery s w) (hlate : s'.uv.late = 0)
    (h : Filling config G limit before full s w) : Filling config G limit before full s' w' := by
  have hbarred : Barred G s → Barred G s' := barred_keeps hm hlate
  cases hm with
  | closing hc =>
    cases hc with
    | counts | finalizes | closes => exact h.same rfl rfl rfl rfl rfl rfl rfl hbarred
    | plain op a hop =>
      have hsends := sends_own op hop a s
      have hshared : (shared op a w).channel = w.channel ∧
          (shared op a w).resumePending = w.resumePending := by
        cases op with
        | push | closeChannel | startConsumer => exact hop.elim
        | _ => exact ⟨rfl, rfl⟩
      exact h.same hshared.1 hshared.2 hsends.pushed hsends.look (own_resuming op a s)
        (congrArg Core.paused hsends.core) hsends.plaintext hbarred
  | receives _ data late _ _ hlimit =>
    refine { h with source := ?_, stays := fun hf => ?_ }
    · refine h.source.imp (fun hsource n hn => hsource n (.inr ?_)) hbarred
      rcases hn with rfl | hn
      · exact List.length_append.symm ▸ hlimit
      · exact hn
    · exact (h.stays hf).imp_right (Or.imp_right hbarred)
  | closesChannel =>
    exact { h with
      source := h.source.imp_right hbarred, stays := fun hf =>
        (h.stays hf).imp_right (Or.imp_right hbarred) }
  | records _ op a hop =>
    rcases hop with ⟨_, rfl⟩ | ⟨_, rfl⟩
    · exact h.same rfl rfl rfl rfl rfl rfl rfl hbarred
    · exact h.same rfl rfl rfl rfl rfl rfl rfl hbarred
  | pushes _ data hdata _ hstate => exact h.pushes hd hdata hstate
  | looks =>
    exact { h with
      source := h.source.imp_right hbarred, stays := fun hf =>
        (h.stays hf).imp_right (Or.imp_right hbarred), looked := le_rfl }
  | pauses =>
    exact { h with
      source := h.source.imp_right hbarred, stays := fun hf => ⟨(h.stays hf).1, .inl rfl⟩ }
  | resumes _ hresuming =>
    exact { h with
      source := h.source.imp_right hbarred, stays := fun hf =>
        absurd ((h.stays hf).1.symm.trans hresuming) Bool.false_ne_true }
  | _ => exact h.same rfl rfl rfl rfl rfl rfl rfl hbarred

theorem Filling.drains (h : Filling config G limit before full s w) (hdrained : w.Drained w') :
    Filling config G limit before full s w' := by
  have hle := hdrained.buffered_le
  have hbound := h.buffered_le
  have hbefore := h.before_le
  refine ⟨hdrained.low.trans h.low, hbefore, h.pushed_le, h.source, h.stays, ?_, ?_⟩
  · unfold ceiling at hbound ⊢
    rcases hdrained.pending with hsame | ⟨-, hlow⟩
    · rw [hsame]
      omega
    · rw [h.low] at hlow
      omega
  · have hlooked := h.looked
    cases hlook : s.uv.look with
    | untouched | due =>
      rw [hlook] at hlooked
      exact hlooked
    | seen n =>
      rw [hlook] at hlooked
      exact hle.trans hlooked

end

/-! ## Between two callbacks -/

/-- Nothing is read until the socket is resumed, if ever. -/
def halted (c : Connection) : Bool := c.paused || c.state == .closing

section
variable {config : ServerConfig} {G : Granted} {maxRead limit before : ℕ} {full : Bool}
  {s s' : LoopState} {w w' : World} {e : Callback}

structure During (config : ServerConfig) (G : Granted) (limit before : ℕ) (full : Bool)
    (s : LoopState) (w : World) :
    Prop where
  started : Started s w
  delivery : Delivery s w
  stopped : Stopped s
  filling : s.uv.late = 0 → Filling config G limit before full s w

theorem during_keeps : Keeps (Move config G) (During config G limit before full) := by
  intro s w s' w' hm h
  refine ⟨started_keeps config G hm h.started, delivery_keeps hm h.started h.delivery,
    stopped_keeps hm h.stopped, ?_⟩
  intro hlate
  have hearlier : s.uv.late = 0 := Nat.eq_zero_of_le_zero (hlate ▸ hm.grows.late)
  exact filling_keeps hm h.delivery hlate (h.filling hearlier)

theorem During.drains (h : During config G limit before full s w)
    (hstep : ConsumerStep maxRead w w') : During config G limit before full s w' :=
  ⟨started_stable h.started hstep, delivery_stable h.delivery hstep, h.stopped,
    fun hlate => (h.filling hlate).drains hstep.drained⟩

structure Calm (config : ServerConfig) (limit : ℕ) (s : LoopState) (w : World) : Prop where
  idle : Idle config s
  started : Started s w
  delivery : Delivery s w
  stopped : Stopped s
  low : s.uv.late = 0 → w.channel.lowWaterMark = config.channelLowWater
  buffered_le : s.uv.late = 0 → w.channel.buffered ≤
    ceiling config limit (halted s.conn) w.resumePending

theorem Delivery.empty (h : Delivery s w) (hpushed : s.uv.pushed = []) :
    w.channel.buffered = 0 := by
  have hconserved := h.conserved
  rw [hpushed, List.append_eq_nil_iff] at hconserved
  rw [h.sound.buffered_eq, hconserved.2]
  rfl

theorem Filling.settles (h : Filling config G limit before full s w) (hd : Delivery s w)
    (hidle : Idle config s) :
    w.channel.buffered ≤ ceiling config limit (halted s.conn) w.resumePending := by
  have hbuffered := h.buffered_le
  have hpushed := h.pushed_le
  cases hfull : halted s.conn with
  | true =>
    unfold ceiling at hbuffered ⊢
    cases full <;>
      simp only [if_true, Bool.false_eq_true, if_false] at hbuffered hpushed ⊢ <;> omega
  | false =>
    obtain ⟨hpaused, hopen⟩ := Bool.or_eq_false_iff.mp hfull
    cases hstate : s.conn.state with
    | handshaking =>
      rw [hd.empty (hidle.base.handshaking hstate).pushed]
      exact Nat.zero_le _
    | closing => exact absurd (hstate ▸ hopen) (by decide)
    | streaming =>
      have hlow : full = false := by
        refine Bool.eq_false_of_not_eq_true fun hf => ?_
        rcases (h.stays hf).2 with hp | hb
        · exact absurd (hpaused.symm.trans hp) Bool.false_ne_true
        · exact hb.state hstate
      have hbelow := hidle.base.checked hstate hpaused
      have hlooked := h.looked
      rw [hlow] at hbuffered
      cases hlook : s.uv.look with
      | untouched =>
        rw [hlook] at hlooked
        have hnone : s.uv.pushed.length = before := hlooked
        omega
      | due =>
        rw [hlook] at hbelow
        exact hbelow.elim
      | seen n =>
        rw [hlook] at hbelow hlooked
        have hless : n < config.channelHighWater := hbelow
        have hseen : w.channel.buffered ≤ n := hlooked
        unfold ceiling
        omega

theorem During.calm (h : During config G limit before full s w) (hidle : Idle config s) :
    Calm config limit s w :=
  ⟨hidle, h.started, h.delivery, h.stopped, fun hlate => (h.filling hlate).low,
    fun hlate => (h.filling hlate).settles h.delivery hidle⟩

theorem Calm.drains (h : Calm config limit s w) (hstep : ConsumerStep maxRead w w') :
    Calm config limit s w' := by
  have hdrained := hstep.drained
  have hle := hdrained.buffered_le
  refine ⟨h.idle, started_stable h.started hstep, delivery_stable h.delivery hstep, h.stopped,
    fun hlate => hdrained.low.trans (h.low hlate), fun hlate => ?_⟩
  have hbound := h.buffered_le hlate
  unfold ceiling at hbound ⊢
  rcases hdrained.pending with hsame | ⟨-, hlow⟩
  · rw [hsame]
    omega
  · rw [h.low hlate] at hlow
    omega

/-! ## The start of a callback -/

def isRead : Callback → Bool
  | .read _ _ => true
  | _ => false

def granted (e : Callback) (s : LoopState) : Granted :=
  ⟨fun _ => isRead e = true, True, fun n => n ≤ s.uv.plaintext.length + carried e s⟩

theorem takes_history (e : Callback) (s : LoopState) : (takes e s).uv.plaintext = s.uv.plaintext ∧
    (takes e s).uv.pushed = s.uv.pushed ∧ (takes e s).uv.replies = s.uv.replies ∧
    (takes e s).uv.late = s.uv.late := by
  cases e <;> exact ⟨rfl, rfl, rfl, rfl⟩

theorem stopped_starts (e : Callback) (h : Stopped s) : Stopped (takes e s) := by
  cases e with
  | readError => exact fun _ => rfl
  | _ => exact h

theorem carried_eq_zero (hother : isRead e = false) : carried e s = 0 := by
  cases e with
  | read => exact absurd hother.symm Bool.false_ne_true
  | _ => rfl

theorem Idle.barred_closing (h : Idle config s) (hfires : fires e s w)
    (hstate : s.conn.state = .closing) : Barred (granted e s) (takes e s) := by
  refine ⟨fun hs => absurd (hstate.symm.trans hs) (by decide), ?_⟩
  cases hconsumer : s.conn.consumerStarted with
  | true => exact .inl hconsumer
  | false =>
    -- its handles are closing, so that nothing is read any more
    have hshut := (h.base.handles.closing (h.base.shut hstate hconsumer)).2 .tcp
    refine .inr (.inl fun _ hread => ?_)
    cases e with
    | read => exact hshut hfires.2.1
    | _ => exact absurd hread Bool.false_ne_true

theorem Idle.barred_refused (h : Idle config s) (hstate : s.conn.state = .handshaking)
    (hsize : kHandshakeRequestSize ≤ s.uv.plaintext.length) : Barred G (takes e s) := by
  obtain ⟨hplaintext, -, hreplies, -⟩ := takes_history e s
  refine ⟨fun hs => absurd (hstate.symm.trans hs) (by decide), .inr (.inr ?_)⟩
  rw [hplaintext, hreplies]
  cases hhttp : s.conn.httpMode with
  | true => exact .inl (h.base.http hhttp)
  | false =>
    obtain ⟨hcount, hrefused⟩ := (h.base.handshaking hstate).answered hhttp hsize
    cases hall : s.uv.replies with
    | nil =>
      rw [hall] at hcount
      exact absurd hcount.symm (Nat.succ_ne_zero _)
    | cons r rest => exact .inr ⟨r, rfl, hrefused r (hall ▸ List.mem_cons_self)⟩

theorem Calm.source (h : Calm config limit s w) (hfires : fires e s w)
    (hcarried : carried e s ≤ limit) (hfull : full = (halted s.conn && !isResume e)) :
    (∀ n, n = s.uv.plaintext.length ∨ (granted e s).limit n →
      n ≤ s.uv.pushed.length + kHandshakeRequestSize + (if full then 0 else limit)) ∨
        Barred (granted e s) (takes e s) := by
  have hlimit : ∀ n, n = s.uv.plaintext.length ∨ (granted e s).limit n →
      n ≤ s.uv.plaintext.length + carried e s := by
    rintro n (rfl | hn)
    · exact Nat.le_add_right _ _
    · exact hn
  have hbase := h.idle.base
  cases hstate : s.conn.state with
  | closing => exact .inr (h.idle.barred_closing hfires hstate)
  | handshaking =>
    have hopen : halted s.conn = false := by
      rw [halted, hstate, (hbase.handshaking hstate).paused]
      rfl
    rw [hopen, Bool.false_and] at hfull
    by_cases hsize : kHandshakeRequestSize ≤ s.uv.plaintext.length
    · exact .inr (h.idle.barred_refused hstate hsize)
    · refine .inl fun n hn => (hlimit n hn).trans ?_
      rw [hfull, if_neg Bool.false_ne_true]
      omega
  | streaming =>
    obtain ⟨hconsumer, -, hpushed, -⟩ := hbase.streaming hstate
    have hsize := (hbase.started hconsumer).1
    have hlength := congrArg List.length hpushed
    rw [List.length_drop] at hlength
    have hroom : carried e s ≤ if full then 0 else limit := by
      split_ifs with hf
      · -- a paused socket is not read from
        rw [hfull, halted, hstate, show (State.streaming == State.closing) =
          false from rfl, Bool.or_false, Bool.and_eq_true] at hf
        refine (carried_eq_zero (Bool.eq_false_of_not_eq_true fun hread => ?_)).le
        cases e with
        | read => exact absurd (hfires.1.symm.trans (h.stopped hf.1)) (by decide)
        | _ => exact Bool.false_ne_true hread
      · exact hcarried
    refine .inl fun n hn => (hlimit n hn).trans ?_
    omega

theorem Calm.begins (h : Calm config limit s w) (hfires : fires e s w)
    (hcarried : carried e s ≤ limit) :
    During config (granted e s) limit s.uv.pushed.length (halted s.conn && !isResume e) (takes e s)
      (clears e w) := by
  obtain ⟨hplaintext, hpushed, -, hlate⟩ := takes_history e s
  refine ⟨started_starts h.started, delivery_starts e h.delivery,
    stopped_starts e h.stopped, fun hnone => ?_⟩
  rw [hlate] at hnone
  have hchannel : (clears e w).channel = w.channel := by cases e <;> rfl
  refine ⟨?_, ?_, ?_, ?_, fun hf => ?_, ?_, ?_⟩
  · exact hchannel ▸ h.low hnone
  · exact hpushed ▸ le_rfl
  · exact hpushed ▸ Nat.le_add_right _ _
  · rw [hplaintext]
    exact h.source hfires hcarried rfl
  · obtain ⟨hfull, hother⟩ := (Bool.and_eq_true _ _).mp hf
    refine ⟨(Bool.not_eq_true' _).mp hother, ?_⟩
    rcases Bool.or_eq_true_iff.mp hfull with hp | hs
    · exact .inl hp
    · exact .inr (h.idle.barred_closing hfires (eq_of_beq hs))
  · have hbound := h.buffered_le hnone
    rw [hchannel, hpushed]
    refine Nat.add_le_add_right ?_ _
    cases e with
    | resume =>
      unfold ceiling at hbound ⊢
      rw [hfires.1, if_pos rfl] at hbound
      rw [show (clears .resume w).resumePending = false from rfl, show isResume .resume =
        true from rfl, Bool.not_true,
        Bool.and_false, if_neg Bool.false_ne_true, if_neg Bool.false_ne_true]
      split_ifs at hbound <;> omega
    | _ => exact (Bool.and_true _).symm ▸ hbound
  · rw [hpushed]
    rfl

/-! ## Whole runs -/

theorem calm_of_limited {c : LoopRun}
    (hc : ReflTransGen (limited config maxRead limit).Step (init config) c) :
    ((hostIf config maxRead fun _ _ _ => True).limit fun e s _ => carried e s ≤ limit).Rests
      (fun s w => s.uv.late = 0 → w.channel.buffered ≤
        max config.channelHighWater config.channelLowWater + 2 * limit) (Calm config limit) c := by
  have hrun : ReflTransGen ((hostIf config maxRead fun _ _ _ => True).limit fun e s _ =>
      carried e s ≤ limit).Step (init config) c :=
    ReflTransGen.mono (fun _ _ (hs : (limited config maxRead limit).Step _ _) =>
      hs.restrict fun _ _ _ => trivial) (init config) c hc
  let G : Granted := ⟨fun _ => False, True, fun n => n ≤ 0⟩
  have hfresh : During config G limit 0 false ⟨.fresh, freshUv⟩ (freshWorld config) := by
    refine ⟨started_fresh config,
      ⟨ByteChannel.create_sound _, rfl, rfl, fun hl => absurd rfl hl, List.nil_prefix⟩,
        Bool.noConfusion, fun _ => ⟨rfl, le_rfl, Nat.zero_le _, .inl ?_, Bool.noConfusion,
          Nat.zero_le _, rfl⟩⟩
    rintro n (rfl | hn)
    · exact Nat.zero_le _
    · exact hn.trans (Nat.zero_le _)
  have hstart : (hostIf config maxRead fun _ _ _ => True).Handles (Move config G)
      (During config G limit 0 false) (Idle config) accept ⟨.fresh, freshUv⟩ (freshWorld config) :=
    handles_accept during_keeps (fun _ _ _ h hstep => h.drains hstep) hfresh
  refine (hstart.rests (fun _ _ h hlate => (h.filling hlate).bounded) fun _ _ hidle h =>
    h.calm hidle).reaches (fun _ _ _ h hstep => h.drains hstep) (fun e s w h hfires => ?_) hrun
  obtain ⟨hfires, hcarried⟩ := hfires
  have hhandles : (hostIf config maxRead fun _ _ _ => True).Handles (Move config (granted e s))
      (During config (granted e s) limit s.uv.pushed.length (halted s.conn && !isResume e))
        (Idle config) (handler config e) (takes e s) (clears e w) := by
    refine handles_event during_keeps (fun _ _ _ h hstep => h.drains hstep) h.idle hfires
      (h.begins hfires hcarried) ?_ ?_
    · rintro rfl
      exact h.started.ended hfires.1
    · rintro data answers rfl
      exact ⟨fun _ hA => grants_true hA (fun _ => rfl) trivial, fun _ hn => hn⟩
  exact hhandles.rests (fun _ _ h hlate => (h.filling hlate).bounded) fun _ _ hidle h =>
    h.calm hidle

/-- Whatever comes between whatever, the channel never holds more than the larger mark and two
reads, as long as no data is handled while a whole request waits in `Handshaking`. -/
theorem buffer_bounded (config : ServerConfig) (maxRead limit : ℕ) (c : LoopRun)
    (hc : ReflTransGen (limited config maxRead limit).Step (init config) c)
    (hlate : c.own.uv.late = 0) :
    c.world.channel.buffered ≤ max config.channelHighWater config.channelLowWater + 2 * limit := by
  refine (calm_of_limited hc).holds (fun s w h hnone => ?_) hlate
  have hbound := h.buffered_le hnone
  unfold ceiling at hbound
  split_ifs at hbound <;> omega

end

/-! ## A request that is accepted late -/

section
variable {config : ServerConfig} {maxRead limit : ℕ} {s s' : LoopState} {w w' : World}

theorem runs_limited {p : LoopM Unit} (h : Runs config maxRead (fun _ _ _ => True) p s w () s' w') :
    (limited config maxRead limit).Exec p s w () s' w' :=
  Exec.mono (h := hostIf config maxRead fun _ _ _ => True) (limited config maxRead limit)
    (fun _ _ _ _ ha => ha.1) rfl rfl h

theorem limited_event {e : Callback} (hfires : fires e s w) (hcarried : carried e s ≤ limit)
    (h : Runs config maxRead (fun _ _ _ => True) (handler config e) (takes e s)
      (clears e w) () s' w') :
    ReflTransGen (limited config maxRead limit).Step ⟨none, s, w⟩ ⟨none, s', w'⟩ :=
  Exec.event (h := limited config maxRead limit) ⟨hfires, hcarried⟩ (runs_limited h)

theorem limited_first {request : Bytes} (hsize : kHandshakeRequestSize ≤ request.length)
    (hmagic : request.take kMagic.length = kMagic) (hlimit : request.length ≤ limit)
    (h : Runs config maxRead (fun _ _ _ => True) (answerHandshake config request) (whole request)
      (freshWorld config) () s' w') :
    ReflTransGen (limited config maxRead limit).Step (init config) ⟨none, s', w'⟩ := by
  have haccept : (limited config maxRead limit).Exec accept ⟨.fresh, freshUv⟩
      (freshWorld config) () opened
      (freshWorld config) := runs_limited (exec_accept fun _ _ _ _ => trivial)
  have hne : request ≠ [] := by
    rintro rfl
    exact absurd hsize (by decide)
  have hfires : fires (.read request []) opened (freshWorld config) := ⟨rfl, rfl, hne⟩
  have hcarried : carried (.read request []) opened = request.length := by
    have hplain : detectTls request opened.conn = { opened.conn with tlsDetected := true } :=
      if_neg (by rw [head_of_magic hmagic]; decide)
    change plainSize request [] (detectTls request opened.conn) = request.length
    rw [hplain]
    rfl
  exact haccept.steps.trans
    (limited_event hfires (hcarried.trans_le hlimit) (first_exec hsize hmagic h))

variable {request : HandshakeRequest} {buffer bytes : Bytes}

theorem exec_serverError (hplain : s.conn.tlsActive = false)
    (hparse : parseAndVerifyHandshake config.key buffer = .ok request) :
    Runs config maxRead (fun _ _ _ => True) (answerHandshake config buffer) s w ()
      (replying .serverError (greeting config request s)) w := by
  unfold answerHandshake
  rw [hparse]
  refine exec_invoke false trivial trivial (exec_invoke true trivial trivial (exec_update ?_))
  exact exec_reply .serverError hplain trivial

structure Unmade (buffer : Bytes) (s : LoopState) : Prop extends Refused buffer s where
  paused : s.conn.paused = false
  reading : s.uv.reading = true
  opened : s.uv.handles .tcp = .opened

theorem Unmade.taking (hs : Unmade buffer s) (data : Bytes) :
    Refused buffer (takes (.read data []) s) := { hs with }

theorem Unmade.event (hs : Unmade buffer s) (hne : data ≠ []) (hlimit : data.length ≤ limit)
    (h : Runs config maxRead (fun _ _ _ => True) (answerHandshake config (buffer ++ data))
      (buffering (takes (.read data []) s) data) w () s' w') :
    ReflTransGen (limited config maxRead limit).Step ⟨none, s, w⟩ ⟨none, s', w'⟩ := by
  have hcarried : carried (.read data []) s = data.length := by
    change plainSize data [] (if s.conn.state = .handshaking ∧ !s.conn.tlsDetected then
      detectTls data s.conn else s.conn) = data.length
    rw [if_neg fun hf => absurd hf.2 (by rw [hs.detected]; decide)]
    exact if_neg (Bool.eq_false_iff.mp hs.plain)
  have hfires : fires (.read data []) s w := ⟨hs.reading, hs.opened, hne⟩
  exact limited_event hfires (hcarried.trans_le hlimit) ((hs.taking data).exec h)

theorem Unmade.again (hs : Unmade buffer s)
    (hparse : parseAndVerifyHandshake config.key buffer = .ok request) (hne : data ≠ [])
    (hlimit : data.length ≤ limit) :
    ∃ s', ReflTransGen (limited config maxRead limit).Step ⟨none, s, w⟩ ⟨none, s', w⟩ ∧
      Unmade (buffer ++ data) s' := by
  have hbuffering := (hs.taking data).buffering data
  have hplain := (congrArg Connection.tlsActive hbuffering).trans hs.plain
  refine ⟨_, hs.event hne hlimit
    (exec_serverError hplain ((parse_append hs.size).trans hparse)), ?_⟩
  exact ⟨(hs.taking data).again .serverError rfl,
    (congrArg Connection.paused hbuffering).trans hs.paused, hs.reading, hs.opened⟩

theorem unmade_first (hsize : kHandshakeRequestSize ≤ bytes.length)
    (hparse : parseAndVerifyHandshake config.key bytes = .ok request)
    (hlimit : bytes.length ≤ limit) :
    ∃ s, ReflTransGen (limited config maxRead limit).Step (init config)
      ⟨none, s, freshWorld config⟩ ∧
      Unmade bytes s :=
  ⟨_, limited_first hsize (parse_magic hparse) hlimit (exec_serverError rfl hparse),
    ⟨rfl, rfl, rfl, rfl, rfl, parse_magic hparse, hsize⟩, rfl, rfl, rfl⟩

theorem unmade_run (hsize : kHandshakeRequestSize ≤ bytes.length)
    (hparse : parseAndVerifyHandshake config.key bytes = .ok request)
    (hlimit : bytes.length ≤ limit) (hne : data ≠ []) (hdata : data.length ≤ limit) (n : ℕ) :
    ∃ s, ReflTransGen (limited config maxRead limit).Step (init config)
      ⟨none, s, freshWorld config⟩ ∧
      Unmade (bytes ++ (List.replicate n data).flatten) s := by
  induction n with
  | zero =>
    rw [List.replicate_zero, List.flatten_nil, List.append_nil]
    exact unmade_first hsize hparse hlimit
  | succ n ih =>
    obtain ⟨s, hrun, hs⟩ := ih
    obtain ⟨s', hmore, hs'⟩ := hs.again ((parse_append hsize).trans hparse) hne hdata
    refine ⟨s', hrun.trans hmore, ?_⟩
    rwa [List.replicate_succ', List.flatten_append, List.flatten_singleton, ← List.append_assoc]

theorem exec_leftover (hplain : s.conn.tlsActive = false)
    (hbuffer : s.conn.handshakeBuffer = buffer)
    (hparse : parseAndVerifyHandshake config.key buffer = .ok request)
    (hne : buffer.drop kHandshakeRequestSize ≠ [])
    (h : Runs config maxRead (fun _ _ _ => True) (applyBackpressure config)
      (own (.push (buffer.drop kHandshakeRequestSize)) ()
        (streaming request (replying .ok (greeting config request s))))
      { w with
        channel := w.channel.push (buffer.drop kHandshakeRequestSize)
        consumer := .between true } () s' w') :
    Runs config maxRead (fun _ _ _ => True) (answerHandshake config buffer) s w () s' w' := by
  have hdrop : (replying .ok (greeting config request s)).conn.handshakeBuffer.drop
      kHandshakeRequestSize =
      buffer.drop kHandshakeRequestSize := congrArg (List.drop kHandshakeRequestSize) hbuffer
  have hreply : Runs config maxRead (fun _ _ _ => True) (sendHandshakeReply .ok)
      (greeting config request s) w ()
      (replying .ok (greeting config request s)) w := exec_reply .ok hplain trivial
  refine exec_ok (fun _ _ _ _ => trivial) hparse hreply ?_
  rw [hdrop, if_pos hne]
  exact exec_invoke () trivial trivial h

theorem leftover_run {left : Bytes}
    (hparse : parseAndVerifyHandshake config.key bytes = .ok request)
    (hlimit : bytes.length ≤ limit) (hleft : bytes.drop kHandshakeRequestSize = left)
    (hne : left ≠ []) (hfull : config.channelHighWater ≤ left.length) :
    ∃ c, ReflTransGen (limited config maxRead limit).Step (init config) c ∧ c.own.uv.late = 0 ∧
      c.own.conn.paused = true ∧ c.world.channel.buffered = left.length := by
  subst hleft
  have hsize : kHandshakeRequestSize ≤ bytes.length := by
    by_contra hshort
    exact hne (List.drop_eq_nil_of_le (Nat.le_of_not_le hshort))
  have hbuffered :
      ((ByteChannel.create config.channelLowWater).push
        (bytes.drop kHandshakeRequestSize)).buffered =
      (bytes.drop kHandshakeRequestSize).length := congrArg ByteChannel.buffered (create_push _ hne)
  exact ⟨_, limited_first hsize (parse_magic hparse) hlimit (exec_leftover rfl rfl hparse hne
    (exec_backpressure_full rfl (fun _ _ _ _ => trivial) (hfull.trans hbuffered.ge))),
      rfl, rfl, hbuffered⟩

/-- A request may be refused for any number of deliveries and then be accepted: all that came behind
it is pushed at once. -/
theorem pushed_late (hsize : bytes.length = kHandshakeRequestSize)
    (hparse : parseAndVerifyHandshake config.key bytes = .ok request)
    (hlimit : bytes.length ≤ limit) (hne : data ≠ []) (hdata : data.length ≤ limit) (n : ℕ)
    (hfull : config.channelHighWater ≤ (n + 1) * data.length) :
    ∃ c, ReflTransGen (limited config maxRead limit).Step (init config) c ∧
      c.world.channel.buffered = (n + 1) * data.length := by
  obtain ⟨s, hrun, hs⟩ : ∃ s, ReflTransGen (limited config maxRead limit).Step (init config)
      ⟨none, s, freshWorld config⟩ ∧ Unmade (bytes ++ (List.replicate n data).flatten) s :=
    unmade_run hsize.ge hparse hlimit hne hdata n
  have hbuffering := (hs.taking data).buffering data
  have hleft : ((bytes ++ (List.replicate n data).flatten ++ data).drop
      kHandshakeRequestSize).length = (n + 1) * data.length := by
    simp only [List.length_drop, List.length_append, List.length_flatten, List.map_replicate,
      List.sum_replicate_nat, hsize, Nat.add_assoc, Nat.add_sub_cancel_left, Nat.succ_mul]
  have hsome : (bytes ++ (List.replicate n data).flatten ++ data).drop
      kHandshakeRequestSize ≠ [] := by
    refine List.ne_nil_of_length_pos ?_
    rw [hleft]
    exact Nat.mul_pos n.succ_pos (List.length_pos_iff.mpr hne)
  have hbuffered : ((ByteChannel.create config.channelLowWater).push
      ((bytes ++ (List.replicate n data).flatten ++ data).drop kHandshakeRequestSize)).buffered =
      (n + 1) * data.length := (congrArg ByteChannel.buffered (create_push _ hsome)).trans hleft
  have hpaused := (congrArg Connection.paused hbuffering).trans hs.paused
  have hok : parseAndVerifyHandshake config.key (bytes ++ (List.replicate n data).flatten ++ data) =
      .ok request := by
    rw [List.append_assoc]
    exact (parse_append hsize.ge).trans hparse
  refine ⟨_, hrun.trans (hs.event hne hdata (exec_leftover ?_ ?_ hok hsome
    (exec_backpressure_full hpaused (fun _ _ _ _ => trivial) (hfull.trans hbuffered.ge)))),
      hbuffered⟩
  · exact (congrArg Connection.tlsActive hbuffering).trans hs.plain
  · exact congrArg Connection.handshakeBuffer hbuffering

end

def oneMark : ServerConfig := ⟨[], 1, 0, false, false⟩

theorem buffer_bounded_leftover :
    ∃ c, ReflTransGen (limited oneMark 1 59).Step (init oneMark) c ∧ c.own.uv.late = 0 ∧
      c.own.conn.paused = true ∧ c.world.channel.buffered = 3 ∧
      c.world.channel.buffered ≤ 1 + 2 * 59 := by
  have hlength := plainRequest_length oneMark.key
  have hsize : (plainRequest oneMark.key ++ [1, 2, 3]).length = 59 := by
    rw [List.length_append, hlength]
    rfl
  have hparse : parseAndVerifyHandshake oneMark.key (plainRequest oneMark.key ++ [1, 2, 3]) =
      .ok plainHandshake :=
    (parse_append hlength.ge).trans (parse_plainRequest oneMark.key)
  have hleft : (plainRequest oneMark.key ++ [1, 2, 3]).drop kHandshakeRequestSize = [1, 2, 3] := by
    rw [← hlength, List.drop_left]
  obtain ⟨c, hrun, hlate, hpaused, hbuffered⟩ :
      ∃ c, ReflTransGen (limited oneMark 1 59).Step (init oneMark) c ∧
      c.own.uv.late = 0 ∧ c.own.conn.paused = true ∧ c.world.channel.buffered = [1, 2, 3].length :=
    leftover_run hparse hsize.le hleft (List.cons_ne_nil _ _) (by decide)
  exact ⟨c, hrun, hlate, hpaused, hbuffered, buffer_bounded oneMark 1 59 c hrun hlate⟩

/-- A request of fifty-six bytes is refused three times for want of a decompressor and then
accepted, each time with fifty-six bytes more. -/
theorem buffer_exceeded :
    ∃ c, ReflTransGen (limited oneMark 1 56).Step (init oneMark) c ∧
      c.world.channel.buffered = 168 ∧
      max oneMark.channelHighWater oneMark.channelLowWater + 2 * 56 < c.world.channel.buffered := by
  have hsize := plainRequest_length oneMark.key
  have hdata : (List.replicate 56 (0 : UInt8)).length = 56 := List.length_replicate
  obtain ⟨c, hc, hbuffered⟩ := pushed_late hsize (parse_plainRequest oneMark.key) hsize.le
    (List.ne_nil_of_length_pos (by rw [hdata]; decide)) hdata.le 2 (by rw [hdata]; decide)
  rw [hdata] at hbuffered
  exact ⟨c, hc, hbuffered, by rw [hbuffered]; decide⟩

end Runtime
end Dicker.Server
