import Dicker.Server.Delivery

/-! Pausing and resuming the socket. A paused connection is armed: a resume notification is on
its way, or what is in the channel will lead to one. The latch of `read_exact` allows one
notification per call, so this needs that no call asks for more than the high-water mark. -/

namespace Dicker.Server
open Lib

def World.Armed (w : World) : Prop :=
  w.resumePending = true ∨ w.channel.closed = true ∨ w.consumer = .finished ∨
    (w.channel.contents ≠ [] ∧ ∀ r, w.consumer = .reading r → r.signaled = true →
      r.count - r.out.length < w.channel.contents.length)

variable {maxRead : ℕ} {w w' : World}

theorem World.Armed.congr (h : w.Armed) (hpending : w'.resumePending = w.resumePending)
    (hchannel : w'.channel = w.channel) (hconsumer : w'.consumer = w.consumer) : w'.Armed := by
  unfold World.Armed
  rw [hpending, hchannel, hconsumer]
  exact h

theorem World.Armed.push (h : w.Armed) (hsound : w.channel.Sound) (data : Bytes) :
    World.Armed { w with channel := w.channel.push data } := by
  obtain ⟨_, hcontents⟩ := hsound.push data
  rcases h with h | h | h | ⟨hne, hreader⟩
  · exact .inl h
  · refine .inr (.inl ?_)
    unfold ByteChannel.push
    split_ifs <;> exact h
  · exact .inr (.inr (.inl h))
  · refine .inr (.inr (.inr ⟨?_, fun r hr hs => ?_⟩))
    · rw [hcontents]
      split_ifs
      · exact hne
      · exact List.append_ne_nil_of_left_ne_nil hne _
    · refine (hreader r hr hs).trans_le ?_
      rw [hcontents]
      split_ifs
      · exact le_rfl
      · rw [List.length_append]
        exact Nat.le_add_right _ _

theorem ByteChannel.Reads.leaves {c c' : ByteChannel} {r r' : Reader} {k : ℕ}
    (h : c.Reads r k c' r' false) (hk : k = 0 ∨ k + r.out.length ≤ r.count) (hne : c.contents ≠ [])
    (hlatch : r.signaled = true → r.count - r.out.length < c.contents.length) :
    c'.contents ≠ [] := by
  have hlen : c'.contents.length = c.contents.length - k := by
    rw [h.contents_eq, List.length_drop]
  have hpos := List.length_pos_iff.mpr hne
  rw [← List.length_pos_iff]
  cases hs : r.signaled with
  | true =>
    have hlt := hlatch hs
    omega
  | false =>
    rcases Nat.eq_zero_or_pos k with hzero | hmoved
    · omega
    · exact Nat.zero_lt_of_lt (h.quiet hmoved hs rfl)

theorem World.Armed.ran (h : w.Armed) (hsound : w.channel.Sound) {r : Reader}
    (hw : w.consumer = .reading r) : (w.ran r).Armed := by
  obtain ⟨k, c, r', signal, hreads, hk, hran⟩ := World.ran_cases hsound r
  generalize w.ran r = w₁ at hran
  have hfields : w₁.resumePending = (w.resumePending || signal) ∧ w₁.channel = c := by
    cases hran <;> exact ⟨rfl, rfl⟩
  rcases h with h | h | h | ⟨hne, hreader⟩
  · exact .inl (hfields.1.trans (by rw [h]; rfl))
  · refine .inr (.inl ?_)
    rw [hfields.2, hreads.closed_eq]
    exact h
  · exact nomatch hw.symm.trans h
  · cases signal with
    | true => exact .inl (hfields.1.trans (Bool.or_true _))
    | false =>
      have hleft := hreads.leaves hk hne (hreader r hw)
      cases hran with
      | failed _ hempty => exact absurd hempty hleft
      | waits _ hempty => exact absurd hempty hleft
      | returns => exact .inr (.inr (.inr ⟨hleft, nofun⟩))

theorem World.Armed.consumes (h : w.Armed) (hsound : w.channel.Sound)
    (hstep : ConsumerStep maxRead w w') : w'.Armed := by
  cases hstep with
  | call b count hw =>
    rcases h with h | h | h | ⟨hne, _⟩
    · exact .inl h
    · exact .inr (.inl h)
    · exact nomatch hw.symm.trans h
    · refine .inr (.inr (.inr ⟨hne, fun r hr hs => ?_⟩))
      cases hr
      exact nomatch hs
  | run r hw => exact h.ran hsound hw
  | post b data hw => exact h.congr rfl rfl rfl
  | finish b hw => exact .inr (.inr (.inl rfl))

namespace Runtime
open Host Connection

structure Pressure (config : ServerConfig) (maxRead : ℕ) (s : LoopState) (w : World) : Prop where
  delivery : Delivery s w
  low : w.channel.lowWaterMark = config.channelLowWater
  reader : ∀ r, w.consumer = .reading r → r.count ≤ maxRead ∧ (r.signaled = true → r.out ≠ [])
  started : s.conn.paused = true → s.conn.consumerStarted = true
  shut : s.conn.handlesClosing = true → s.conn.teardownStarted = true
  joined : s.conn.handlesClosing = true → s.conn.consumerStarted = true →
    s.conn.state = .closing → w.consumer = .finished
  armed : (s.conn.paused = true ∧ s.uv.resuming = false) ∨
    config.channelHighWater ≤ s.uv.look.level → w.Armed

variable {config : ServerConfig} {s s' : LoopState}

theorem Pressure.assigned (h : Pressure config maxRead s w) {c : Connection} {u : Uv}
    (hd : Delivery ⟨c, u⟩ w') (hpaused : c.paused = s.conn.paused)
    (hconsumer : c.consumerStarted = s.conn.consumerStarted)
    (hclosing : c.handlesClosing = s.conn.handlesClosing)
    (hteardown : c.teardownStarted = s.conn.teardownStarted)
    (hstate : c.state = .closing → s.conn.state = .closing) (hlook : u.look = s.uv.look)
    (hresuming : u.resuming = s.uv.resuming) (hpending : w'.resumePending = w.resumePending)
    (hchannel : w'.channel = w.channel) (hthread : w'.consumer = w.consumer) :
    Pressure config maxRead ⟨c, u⟩ w' where
  delivery := hd
  low := hchannel ▸ h.low
  reader := hthread ▸ h.reader
  started := by
    rw [hpaused, hconsumer]
    exact h.started
  shut := by
    rw [hclosing, hteardown]
    exact h.shut
  joined hc hs hst := hthread.trans (h.joined (hclosing ▸ hc) (hconsumer ▸ hs) (hstate hst))
  armed ha := by
    rw [hpaused, hresuming, hlook] at ha
    exact (h.armed ha).congr hpending hchannel hthread

theorem pressure_plain (h : Pressure config maxRead s w) {op : LoopOp}
    (hop : op.Plain) (a : op.Ans) :
    Pressure config maxRead (own op a s) (shared op a w) := by
  have hd := delivery_plain h.delivery hop a
  cases op with
  | close | push | bufferedBytes | closeChannel | startConsumer | delete | getOrCreateSink
  | recordSession => exact hop.elim
  | write request => cases a <;> exact h.assigned hd rfl rfl rfl rfl id rfl rfl rfl rfl rfl
  | _ => exact h.assigned hd rfl rfl rfl rfl id rfl rfl rfl rfl rfl

theorem Pressure.looks (h : Pressure config maxRead s w)
    (hwater : config.channelLowWater < config.channelHighWater)
    (hmax : maxRead ≤ config.channelHighWater)
    (hfull : config.channelHighWater ≤ w.channel.buffered) : w.Armed := by
  rw [h.delivery.sound.buffered_eq] at hfull
  refine .inr (.inr (.inr ⟨?_, fun r hr hs => ?_⟩))
  · rw [← List.length_pos_iff]
    omega
  · obtain ⟨hcount, hout⟩ := h.reader r hr
    have hpos := List.length_pos_iff.mpr (hout hs)
    omega

theorem pressure_keeps (hwater : config.channelLowWater < config.channelHighWater)
    (hmax : maxRead ≤ config.channelHighWater) (hm : Move config free s w s' w') (hs : Started s w)
    (h : Pressure config maxRead s w) : Pressure config maxRead s' w' := by
  have hd := delivery_keeps hm hs h.delivery
  cases hm with
  | closing hc =>
    cases hc with
    | counts | closes => exact h.assigned hd rfl rfl rfl rfl id rfl rfl rfl rfl rfl
    | plain op a hop => exact pressure_plain h hop a
    | finalizes hstate hteardown hconsumer =>
      refine ⟨hd, h.low, h.reader, h.started, fun _ => hteardown, fun _ hs _ => ?_, h.armed⟩
      exact hconsumer.resolve_left fun hf => absurd (hf.symm.trans hs) Bool.false_ne_true
  | quiet | detects | receives | buffers | replies | agrees | names | deletes =>
    exact h.assigned hd rfl rfl rfl rfl id rfl rfl rfl rfl rfl
  | marks _ hfirst =>
    refine ⟨hd, h.low, h.reader, h.started, fun _ => rfl, fun hc hs _ => ?_, h.armed⟩
    exact hfirst.resolve_left fun hf => absurd (hf.symm.trans (h.shut hc)) Bool.false_ne_true
  | closesChannel =>
    refine { h with delivery := hd, armed := fun _ => .inr (.inl rfl) }
  | records _ op a hop =>
    rcases hop with ⟨_, rfl⟩ | ⟨_, rfl⟩
    · exact h.assigned hd rfl rfl rfl rfl id rfl rfl rfl rfl rfl
    · exact h.assigned hd rfl rfl rfl rfl id rfl rfl rfl rfl rfl
  | streams => exact h.assigned hd rfl rfl rfl rfl nofun rfl rfl rfl rfl rfl
  | starts _ _ hstate =>
    refine ⟨hd, h.low, h.reader, fun _ => rfl, h.shut, fun _ _ hst => ?_, h.armed⟩
    exact nomatch hstate.symm.trans hst
  | startsConsumer _ _ hstate _ hlog =>
    refine ⟨hd, h.low, nofun, h.started, h.shut, fun _ _ hst => (nomatch hstate.symm.trans hst),
      fun ha => ?_⟩
    rcases h.armed ha with ha | ha | ha | ⟨hne, _⟩
    · exact .inl ha
    · exact .inr (.inl ha)
    · exact nomatch (hs.unstarted hlog).1.symm.trans ha
    · exact .inr (.inr (.inr ⟨hne, nofun⟩))
  | pushes _ data =>
    have hlow : (w.channel.push data).lowWaterMark = w.channel.lowWaterMark := by
      unfold ByteChannel.push
      split_ifs <;> rfl
    refine ⟨hd, hlow.trans h.low, h.reader, h.started, h.shut, h.joined, fun ha => ?_⟩
    refine (h.armed ?_).push h.delivery.sound data
    unfold own uvOwn at ha
    dsimp only at ha
    split_ifs at ha
    · exact ha
    · exact .inl (ha.resolve_right (Nat.not_le.mpr (Nat.zero_lt_of_lt hwater)))
  | looks =>
    refine { h with delivery := hd, armed := fun ha => ?_ }
    -- a read takes less than a full channel holds, so that something is left to be asked for
    rcases ha with ha | hfull
    · exact h.armed (.inl ha)
    · exact h.looks hwater hmax hfull
  | pauses _ hseen hconsumer =>
    exact ⟨hd, h.low, h.reader, fun _ => hconsumer, h.shut, h.joined, fun _ => h.armed (.inr hseen)⟩
  | resumes =>
    exact ⟨hd, h.low, h.reader, nofun, h.shut, h.joined,
      fun ha => h.armed (.inr (ha.resolve_left fun hf => nomatch hf.1))⟩

theorem Pressure.ran (h : Pressure config maxRead s w) {r : Reader} (hw : w.consumer = .reading r) :
    ∀ r', (w.ran r).consumer = .reading r' → r'.count ≤ maxRead ∧
      (r'.signaled = true → r'.out ≠ []) := by
  obtain ⟨hcount, hout⟩ := h.reader r hw
  obtain ⟨k, c, r₁, signal, hreads, _, hran⟩ := World.ran_cases h.delivery.sound r
  generalize w.ran r = w₁ at hran
  intro r' hr'
  cases hran with
  | failed => exact nomatch hr'
  | returns => exact nomatch hr'
  | waits =>
    cases hr'
    refine ⟨hreads.count_eq.trans_le hcount, fun hs => ?_⟩
    rw [hreads.latch, Bool.or_eq_true_iff] at hs
    rw [hreads.out_eq]
    rcases hs with hs | hs
    · exact List.append_ne_nil_of_left_ne_nil (hout hs) _
    · refine List.append_ne_nil_of_right_ne_nil _ fun htake => ?_
      have hlen := congrArg List.length htake
      rw [List.length_take, Nat.min_eq_left hreads.le] at hlen
      exact absurd hlen (hreads.moved hs).ne'

theorem pressure_stable (h : Pressure config maxRead s w) (hstep : ConsumerStep maxRead w w') :
    Pressure config maxRead s w' := by
  have hd := delivery_stable h.delivery hstep
  have harmed := fun ha => (h.armed ha).consumes h.delivery.sound hstep
  have hjoined : w.consumer ≠ .finished → s.conn.handlesClosing = true →
      s.conn.consumerStarted = true → s.conn.state = .closing → w'.consumer = .finished :=
    fun hrunning hc hs hst => absurd (h.joined hc hs hst) hrunning
  cases hstep with
  | call b count hw hcount =>
    refine ⟨hd, h.low, fun r hr => ?_, h.started, h.shut, hjoined (by rw [hw]; nofun), harmed⟩
    cases hr
    exact ⟨hcount, nofun⟩
  | run r hw =>
    have hlow : (w.ran r).channel.lowWaterMark = w.channel.lowWaterMark := by
      obtain ⟨k, c, r₁, signal, hreads, _, hran⟩ := World.ran_cases h.delivery.sound r
      generalize w.ran r = w₁ at hran
      cases hran <;> exact hreads.low_eq
    exact ⟨hd, hlow.trans h.low, h.ran hw, h.started, h.shut, hjoined (by rw [hw]; nofun), harmed⟩
  | post b data hw => exact { h with delivery := hd, armed := harmed }
  | finish b hw => exact ⟨hd, h.low, nofun, h.started, h.shut, fun _ _ _ => rfl, harmed⟩

theorem Pressure.idle (h : Pressure config maxRead s w) (hidle : Idle config s)
    (hpaused : s.conn.paused = true) : w.Armed := by
  cases hresuming : s.uv.resuming with
  | false => exact h.armed (.inl ⟨hpaused, hresuming⟩)
  | true =>
    cases hstate : s.conn.state with
    | handshaking =>
      exact absurd ((hidle.base.handshaking hstate).paused.symm.trans hpaused) Bool.false_ne_true
    | streaming =>
      exact absurd ((hidle.resumed hresuming hstate).symm.trans hpaused) Bool.false_ne_true
    | closing =>
      rcases (hidle.base.closing hstate).2 (h.started hpaused) with hclosed | hclosing
      · exact .inr (.inl (h.delivery.closed.trans hclosed))
      · exact .inr (.inr (.inl (h.joined hclosing (h.started hpaused) hstate)))

theorem pressure_starts (hwater : config.channelLowWater < config.channelHighWater) (e : Callback)
    (hidle : Idle config s) (h : Pressure config maxRead s w) :
    Pressure config maxRead (takes e s) (clears e w) := by
  have hd := delivery_starts e h.delivery
  have harmed : (s.conn.paused = true ∧ isResume e = false) ∨ config.channelHighWater ≤ 0 →
      (clears e w).Armed := by
    rintro (⟨hpaused, hother⟩ | hzero)
    · have ha := h.idle hidle hpaused
      cases e with
      | resume => exact nomatch hother
      | _ => exact ha.congr rfl rfl rfl
    · omega
  cases e <;> exact { h with delivery := hd, armed := harmed }

theorem pressure_of_reaches (hwater : config.channelLowWater < config.channelHighWater)
    (hmax : maxRead ≤ config.channelHighWater) {c : LoopRun}
    (hc : Reaches config maxRead (init config) c) :
    Pressure config maxRead c.own c.world ∧ (c.code = none → Idle config c.own) := by
  have hfresh : Pressure config maxRead ⟨.fresh, freshUv⟩ (freshWorld config) := by
    refine ⟨⟨ByteChannel.create_sound _, rfl, rfl, fun hl => absurd rfl hl, List.nil_prefix⟩,
      rfl, nofun, nofun, nofun, nofun, ?_⟩
    rintro (⟨hf, _⟩ | hzero)
    · exact nomatch hf
    · exact absurd hzero (Nat.not_le.mpr (Nat.zero_lt_of_lt hwater))
  have h := holds_of_reaches (fun _ _ _ _ hm hs h => pressure_keeps hwater hmax hm hs h)
    (fun _ _ _ _ h hstep => pressure_stable h hstep)
    (fun e _ _ hi h _ => pressure_starts hwater e hi h) hfresh hc
  exact ⟨h.1.2, h.2⟩

/-- The socket is paused, nobody is about to resume it, and the consumer waits for more. -/
structure Deadlocked (c : LoopRun) : Prop where
  idle : c.code = none
  paused : c.own.conn.paused = true
  quiet : c.world.resumePending = false
  waiting : ∃ r, c.world.consumer = .reading r ∧ r.out.length < r.count
  empty : c.world.channel.blocks = []
  opened : c.world.channel.closed = false

theorem not_deadlocked (hwater : config.channelLowWater < config.channelHighWater)
    (hmax : maxRead ≤ config.channelHighWater) {c : LoopRun}
    (hc : Reaches config maxRead (init config) c) : ¬Deadlocked c := by
  intro hdead
  obtain ⟨h, hidle⟩ := pressure_of_reaches hwater hmax hc
  obtain ⟨r, hr, _⟩ := hdead.waiting
  rcases h.idle (hidle hdead.idle) hdead.paused with ha | ha | ha | ⟨hne, _⟩
  · exact absurd (hdead.quiet.symm.trans ha) Bool.false_ne_true
  · exact absurd (hdead.opened.symm.trans ha) Bool.false_ne_true
  · exact nomatch hr.symm.trans ha
  · exact hne (h.delivery.sound.blocks_eq_nil_iff.mp hdead.empty)

/-! ## A connection that comes to a halt -/

theorem signaled_run (hhigh : 0 < config.channelHighWater)
    (hmax : config.channelHighWater < maxRead) :
    ∃ s, Reaches config maxRead (init config) ⟨none, s, exchange (.create config.channelLowWater)
      (.reading ⟨config.channelHighWater + 1, [0], true⟩) false []⟩ ∧
      Live s ∧ s.conn.paused = false ∧ s.uv.reading = true := by
  have hbyte : ([0] : Bytes) ≠ [] := List.cons_ne_nil 0 []
  have hlive : Live (established config (plainRequest config.key) plainHandshake) :=
    established_live _ _
  have hdelivered : ∃ s, Reaches config maxRead
      ⟨none, established config (plainRequest config.key) plainHandshake,
        exchange (.create config.channelLowWater) (.between true) false []⟩
      ⟨none, s, exchange (holding config.channelLowWater [0]) (.between true) false []⟩ ∧
      Live s ∧ (s.conn.paused = false → s.uv.reading = true) := by
    rw [← create_push config.channelLowWater hbyte]
    by_cases hfull : config.channelHighWater ≤ ((freshWorld config).channel.push [0]).buffered
    · obtain ⟨s, hr, hl, hp⟩ := deliver_full_run config maxRead
        (w := exchange (.create config.channelLowWater) (.between true) false []) hlive
          rfl rfl hbyte hfull
      exact ⟨s, hr, hl, fun hf => absurd (hf.symm.trans hp) Bool.false_ne_true⟩
    · obtain ⟨s, hr, hl, _, hreading, _⟩ := deliver_run config maxRead
        (w := exchange (.create config.channelLowWater) (.between true) false [])
        (fun _ _ _ _ => trivial)
        hlive rfl rfl hbyte (Nat.not_le.mp hfull)
      exact ⟨s, reaches_of_restricted hr, hl, fun _ => hreading⟩
  obtain ⟨s₁, hr₁, hl₁, hreading₁⟩ := hdelivered
  have hcall := hr₁.trans (call_run s₁ _ false [] _ (Nat.succ_le_of_lt hmax))
  have hwaits := hcall.trans (waits_run s₁ config.channelLowWater hbyte (Nat.succ_lt_succ hhigh))
  obtain ⟨s₂, hr₂, hl₂⟩ := resume_run (w := exchange (.create config.channelLowWater)
    (.reading ⟨config.channelHighWater + 1, [0], true⟩) true []) hl₁ rfl hreading₁
  exact ⟨s₂, ((plain_reaches config maxRead).trans hwaits).trans hr₂, hl₂⟩

theorem deadlock_run (hhigh : 0 < config.channelHighWater)
    (hmax : config.channelHighWater < maxRead) :
    ∃ c, Reaches config maxRead (init config) c ∧ Deadlocked c := by
  obtain ⟨s₁, hr₁, hl₁, hpaused₁, hreading₁⟩ := signaled_run hhigh hmax
  let filling : Bytes := List.replicate config.channelHighWater 0
  have hlen : filling.length = config.channelHighWater := List.length_replicate
  have hne : filling ≠ [] := List.ne_nil_of_length_pos (hlen.symm ▸ hhigh)
  have hpushed := create_push config.channelLowWater hne
  obtain ⟨s₂, hr₂, _, hpaused₂⟩ :=
    deliver_full_run config maxRead (w := exchange (.create config.channelLowWater)
    (.reading ⟨config.channelHighWater + 1, [0], true⟩) false []) hl₁ hpaused₁ hreading₁ hne
    ((congrArg ByteChannel.buffered hpushed).trans hlen).ge
  have hfull : Reaches config maxRead (init config) ⟨none, s₂,
      exchange (holding config.channelLowWater filling)
        (.reading ⟨config.channelHighWater + 1, [0], true⟩) false []⟩ := by
    rw [← hpushed]
    exact hr₁.trans hr₂
  have hreturns := hfull.trans
    (returns_run s₂ config.channelLowWater hne (by rw [hlen]; exact Nat.add_comm _ _))
  have hcall :=
    hreturns.trans (call_run s₂ _ false _ _ (Nat.succ_le_of_lt (Nat.zero_lt_of_lt hmax)))
  exact ⟨_, hcall, ⟨rfl, hpaused₂, rfl, ⟨.start 1, rfl, Nat.one_pos⟩, rfl, rfl⟩⟩

/-- Backpressure never brings a connection to a halt if and only if the buffer holds the longest
read. -/
theorem never_deadlocks_iff (config : ServerConfig) (maxRead : ℕ)
    (hwater : config.channelLowWater < config.channelHighWater) :
    (∀ c, Reaches config maxRead (init config) c → ¬Deadlocked c) ↔
      maxRead ≤ config.channelHighWater := by
  constructor
  · intro hnever
    by_contra hmax
    obtain ⟨c, hc, hdead⟩ := deadlock_run (Nat.zero_lt_of_lt hwater) (Nat.not_le.mp hmax)
    exact hnever c hc hdead
  · intro hmax c hc
    exact not_deadlocked hwater hmax hc

theorem never_deadlocks_largest : 2097152 < kMaxBlockSize.toNat ∧
    ∀ c, Reaches ⟨[], kMaxBlockSize.toNat, 2097152, false, false⟩ kMaxBlockSize.toNat
      (init ⟨[], kMaxBlockSize.toNat, 2097152, false, false⟩) c → ¬Deadlocked c := by
  have hwater : 2097152 < kMaxBlockSize.toNat := by decide
  refine ⟨hwater, ?_⟩
  exact (never_deadlocks_iff ⟨[], kMaxBlockSize.toNat, 2097152, false, false⟩
    kMaxBlockSize.toNat hwater).mpr le_rfl

/-- The default marks, 8 MiB and 2 MiB, against blocks of up to 64 MiB. -/
theorem default_marks_deadlock :
    ∃ c, Reaches ⟨[], 8388608, 2097152, false, false⟩ kMaxBlockSize.toNat
      (init ⟨[], 8388608, 2097152, false, false⟩) c ∧ Deadlocked c :=
  deadlock_run (by decide) (by decide)

end Runtime
end Dicker.Server
