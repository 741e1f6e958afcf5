import Dicker.Server.Authentication

/-! What the consumer is handed is what came in behind the handshake: the bytes that calls of
`read_exact` returned, those a call holds and those in the channel are, in this order, all that
was pushed. -/

namespace Dicker.Server
open Lib

def ConsumerThread.inHand : ConsumerThread → Bytes
  | reading r => r.out
  | _ => []

inductive World.Ran (w : World) (r : Reader) (k : ℕ) (c : ByteChannel) (r' : Reader)
    (signal : Bool) :
    World → Prop
  | failed (hout : r'.out.length < r.count) (hempty : c.contents = []) (hclosed : c.closed = true) :
      Ran w r k c r' signal { w with
        channel := c
        resumePending := w.resumePending || signal
        consumer := .between false
        lost := w.lost ++ r'.out }
  | waits (hout : r'.out.length < r.count) (hempty : c.contents = []) (hclosed : c.closed = false) :
      Ran w r k c r' signal { w with
        channel := c
        resumePending := w.resumePending || signal
        consumer := .reading r' }
  | returns (hout : r.count ≤ r'.out.length) :
      Ran w r k c r' signal { w with
        channel := c
        resumePending := w.resumePending || signal
        consumer := .between true
        returned := w.returned ++ r'.out }

theorem World.ran_cases {w : World} (h : w.channel.Sound) (r : Reader) :
    ∃ k c r' signal, ByteChannel.Reads w.channel r k c r' signal ∧
      (k = 0 ∨ k + r.out.length ≤ r.count) ∧ w.Ran r k c r' signal (w.ran r) := by
  obtain ⟨k, hreads, hk, hempty⟩ := h.readLoop r
  refine ⟨k, _, _, _, hreads, hk, ?_⟩
  unfold World.ran
  dsimp only
  rw [hreads.count_eq]
  split_ifs with hout hclosed
  · exact .failed hout (hempty hout) hclosed
  · exact .waits hout (hempty hout) (Bool.eq_false_iff.mpr hclosed)
  · exact .returns (Nat.not_lt.mp hout)

namespace Runtime
open Host Connection

structure Delivery (s : LoopState) (w : World) : Prop where
  sound : w.channel.Sound
  closed : w.channel.closed = s.uv.channelClosed
  conserved : w.returned ++ w.lost ++ w.consumer.inHand ++ w.channel.contents = s.uv.pushed
  /-- a call that has failed was the last to take anything -/
  last : w.lost ≠ [] → w.channel.closed = true ∧ w.consumer.inHand = [] ∧ w.channel.contents = []
  pushed : s.uv.pushed <+: s.uv.plaintext.drop kHandshakeRequestSize

variable {config : ServerConfig} {maxRead : ℕ} {s s' : LoopState} {w w' : World}

theorem Delivery.assigned (h : Delivery s w) {c : Connection} {u : Uv}
    (hclosed : u.channelClosed = s.uv.channelClosed) (hpushed : u.pushed = s.uv.pushed)
    (hplaintext : u.plaintext = s.uv.plaintext) (hchannel : w'.channel = w.channel)
    (hconsumer : w'.consumer = w.consumer) (hreturned : w'.returned = w.returned)
    (hlost : w'.lost = w.lost) : Delivery ⟨c, u⟩ w' where
  sound := hchannel ▸ h.sound
  closed := by
    rw [hchannel, hclosed]
    exact h.closed
  conserved := by
    rw [hreturned, hlost, hconsumer, hchannel, hpushed]
    exact h.conserved
  last := by
    rw [hlost, hchannel, hconsumer]
    exact h.last
  pushed := by
    rw [hpushed, hplaintext]
    exact h.pushed

theorem delivery_plain (h : Delivery s w) {op : LoopOp} (hop : op.Plain) (a : op.Ans) :
    Delivery (own op a s) (shared op a w) := by
  cases op with
  | close | push | bufferedBytes | closeChannel | startConsumer | delete | getOrCreateSink
  | recordSession => exact hop.elim
  | write request => cases a <;> exact h.assigned rfl rfl rfl rfl rfl rfl rfl
  | _ => exact h.assigned rfl rfl rfl rfl rfl rfl rfl

theorem Delivery.pushes (h : Delivery s w) {data : Bytes}
    (hdata : s.uv.pushed ++ data = s.uv.plaintext.drop kHandshakeRequestSize) :
    Delivery (own (.push data) () s) (shared (.push data) () w) := by
  obtain ⟨hsound, hcontents⟩ := h.sound.push data
  have hsame : (w.channel.push data).closed = w.channel.closed := by
    unfold ByteChannel.push
    split_ifs <;> rfl
  unfold own uvOwn shared
  dsimp only
  split_ifs with hclosed
  · rw [h.closed, hclosed, if_pos rfl] at hcontents
    refine ⟨hsound, hsame.trans h.closed, ?_, ?_, h.pushed⟩
    · rw [hcontents]
      exact h.conserved
    · rw [hsame, hcontents]
      exact h.last
  · rw [h.closed, if_neg hclosed] at hcontents
    refine ⟨hsound, hsame.trans h.closed, ?_, fun hl => ?_, hdata ▸ List.prefix_refl _⟩
    · rw [hcontents, ← List.append_assoc, h.conserved]
    · exact absurd (h.closed.symm.trans (h.last hl).1) hclosed

theorem delivery_keeps {G : Granted} (hm : Move config G s w s' w') (hs : Started s w)
    (h : Delivery s w) : Delivery s' w' := by
  cases hm with
  | closing hc =>
    cases hc with
    | counts | finalizes | closes => exact h.assigned rfl rfl rfl rfl rfl rfl rfl
    | plain op a hop => exact delivery_plain h hop a
  | quiet | marks | detects | buffers | replies | agrees | names | streams | starts | pauses
  | resumes | looks | deletes => exact h.assigned rfl rfl rfl rfl rfl rfl rfl
  | records _ op a hop =>
    rcases hop with ⟨_, rfl⟩ | ⟨_, rfl⟩
    · exact h.assigned rfl rfl rfl rfl rfl rfl rfl
    · exact h.assigned rfl rfl rfl rfl rfl rfl rfl
  | closesChannel =>
    exact ⟨h.sound.close, rfl, h.conserved, fun hl => ⟨rfl, (h.last hl).2⟩, h.pushed⟩
  | receives _ data late =>
    refine { h with pushed := ?_ }
    exact h.pushed.trans ((List.prefix_append s.uv.plaintext data).drop _)
  | startsConsumer _ _ _ _ hlog =>
    have hnone : w.consumer.inHand = [] := by
      rw [(hs.unstarted hlog).1]
      rfl
    refine ⟨h.sound, h.closed, ?_, fun hl => ⟨(h.last hl).1, rfl, (h.last hl).2.2⟩, h.pushed⟩
    have hconserved := h.conserved
    rw [hnone] at hconserved
    exact hconserved
  | pushes _ data hdata => exact h.pushes hdata

theorem Delivery.ran (h : Delivery s w) {r : Reader} (hw : w.consumer = .reading r) :
    Delivery s (w.ran r) := by
  obtain ⟨k, c, r', signal, hreads, _, hran⟩ := World.ran_cases h.sound r
  have hconserved := h.conserved
  have hlast := h.last
  rw [hw] at hconserved hlast
  change w.returned ++ w.lost ++ r.out ++ w.channel.contents = s.uv.pushed at hconserved
  have hmoved : r'.out ++ c.contents = r.out ++ w.channel.contents := by
    rw [hreads.out_eq, hreads.contents_eq, List.append_assoc, List.take_append_drop]
  rw [List.append_assoc, ← hmoved] at hconserved
  generalize w.ran r = w' at hran
  cases hran with
  | failed hout hempty hclosed =>
    refine ⟨hreads.sound, hreads.closed_eq.trans h.closed, ?_,
      fun _ => ⟨hclosed, rfl, hempty⟩, h.pushed⟩
    change w.returned ++ (w.lost ++ r'.out) ++ [] ++ c.contents = s.uv.pushed
    rw [← hconserved, List.append_nil]
    simp only [List.append_assoc]
  | waits hout hempty hclosed =>
    refine ⟨hreads.sound, hreads.closed_eq.trans h.closed, ?_, fun hl => ?_, h.pushed⟩
    · exact (List.append_assoc _ _ _).trans hconserved
    · exact absurd ((hreads.closed_eq.trans (hlast hl).1).symm.trans hclosed) (by decide)
  | returns hout =>
    have hnothing : w.lost ≠ [] → r'.out = [] ∧ c.contents = [] := by
      intro hl
      obtain ⟨_, hhand, hcontents⟩ := hlast hl
      rw [hreads.out_eq, hreads.contents_eq, hcontents, show r.out = [] from hhand]
      exact ⟨List.take_nil, List.drop_nil⟩
    refine ⟨hreads.sound, hreads.closed_eq.trans h.closed, ?_, fun hl => ?_, h.pushed⟩
    · change w.returned ++ r'.out ++ w.lost ++ [] ++ c.contents = s.uv.pushed
      rw [← hconserved, List.append_nil]
      by_cases hl : w.lost = []
      · rw [hl, List.append_nil, List.append_nil, List.append_assoc]
      · rw [(hnothing hl).1, (hnothing hl).2]
        simp only [List.append_nil]
    · exact ⟨hreads.closed_eq.trans (hlast hl).1, rfl, (hnothing hl).2⟩

theorem delivery_stable (h : Delivery s w) (hstep : ConsumerStep maxRead w w') : Delivery s w' := by
  cases hstep with
  | call b count hw =>
    have hhand : w.consumer.inHand = [] := by
      rw [hw]
      rfl
    have hconserved := h.conserved
    rw [hhand] at hconserved
    exact ⟨h.sound, h.closed, hconserved, fun hl => ⟨(h.last hl).1, rfl, (h.last hl).2.2⟩, h.pushed⟩
  | run r hw => exact h.ran hw
  | post b data hw => exact h.assigned rfl rfl rfl rfl rfl rfl rfl
  | finish b hw =>
    have hhand : w.consumer.inHand = [] := by
      rw [hw]
      rfl
    have hconserved := h.conserved
    rw [hhand] at hconserved
    exact ⟨h.sound, h.closed, hconserved, fun hl => ⟨(h.last hl).1, rfl, (h.last hl).2.2⟩, h.pushed⟩

theorem delivery_starts (e : Callback) (h : Delivery s w) : Delivery (takes e s) (clears e w) := by
  cases e <;> exact h.assigned rfl rfl rfl rfl rfl rfl rfl

theorem delivery_of_reaches {c : LoopRun} (hc : Reaches config maxRead (init config) c) :
    Delivery c.own c.world ∧ (c.code = none → Idle config c.own) := by
  have hfresh : Delivery ⟨.fresh, freshUv⟩ (freshWorld config) :=
    ⟨ByteChannel.create_sound _, rfl, rfl, fun hl => absurd rfl hl, List.nil_prefix⟩
  have h := holds_of_reaches (fun _ _ _ _ hm hs h => delivery_keeps hm hs h)
    (fun _ _ _ _ h hstep => delivery_stable h hstep)
    (fun e _ _ _ h _ => delivery_starts e h) hfresh hc
  exact ⟨h.1.2, h.2⟩

/-! ## What only grows -/

structure Grows (s s' : LoopState) : Prop where
  plaintext : s.uv.plaintext <+: s'.uv.plaintext
  replies : s.uv.replies <+: s'.uv.replies
  pushed : s.uv.pushed <+: s'.uv.pushed
  late : s.uv.late ≤ s'.uv.late
  consumer : s.conn.consumerStarted = true → s'.conn.consumerStarted = true

theorem grows_own (op : LoopOp) (a : op.Ans) (s : LoopState) : Grows s (own op a s) := by
  cases op with
  | write request =>
    cases a <;> exact ⟨List.prefix_rfl, List.prefix_rfl, List.prefix_rfl, le_rfl, id⟩
  | push data =>
    unfold own uvOwn
    dsimp only
    split_ifs
    · exact ⟨List.prefix_rfl, List.prefix_rfl, List.prefix_rfl, le_rfl, id⟩
    · exact ⟨List.prefix_rfl, List.prefix_rfl, List.prefix_append _ _, le_rfl, id⟩
  | _ => exact ⟨List.prefix_rfl, List.prefix_rfl, List.prefix_rfl, le_rfl, id⟩

theorem Move.grows {G : Granted} (hm : Move config G s w s' w') : Grows s s' := by
  cases hm with
  | closing hc =>
    cases hc with
    | counts | finalizes => exact ⟨List.prefix_rfl, List.prefix_rfl, List.prefix_rfl, le_rfl, id⟩
    | plain op a => exact grows_own op a s
    | closes handle => exact grows_own (.close handle) () s
  | receives _ data late _ hlate =>
    exact ⟨List.prefix_append _ _, List.prefix_rfl, List.prefix_rfl, hlate, id⟩
  | replies => exact ⟨List.prefix_rfl, List.prefix_append _ _, List.prefix_rfl, le_rfl, id⟩
  | starts => exact ⟨List.prefix_rfl, List.prefix_rfl, List.prefix_rfl, le_rfl, fun _ => rfl⟩
  | closesChannel => exact grows_own .closeChannel () s
  | records _ op a => exact grows_own op a s
  | startsConsumer => exact grows_own .startConsumer () s
  | pushes _ data => exact grows_own (.push data) () s
  | looks => exact grows_own .bufferedBytes _ s
  | deletes => exact grows_own .delete () s
  | _ => exact ⟨List.prefix_rfl, List.prefix_rfl, List.prefix_rfl, le_rfl, id⟩

theorem pushed_grows {c c' : LoopRun} (hc : Reaches config maxRead (init config) c)
    (hr : Reaches config maxRead c c') : c.own.uv.pushed <+: c'.own.uv.pushed := by
  refine lasts_of_reaches (P := fun s _ => c.own.uv.pushed <+: s.uv.pushed) (fun _ _ _ _ hm h => ?_)
    (fun _ _ _ h _ => h) (fun e _ _ h => ?_) hc hr List.prefix_rfl
  · exact h.trans hm.grows.pushed
  · cases e <;> exact h

theorem Idle.pushed_eq (h : Idle config s) (hstate : s.conn.state = .streaming) :
    s.uv.pushed = s.uv.plaintext.drop kHandshakeRequestSize ∧
      (s.conn.tlsActive = false → s.uv.pushed = s.uv.received.drop kHandshakeRequestSize) := by
  have hpushed := (h.base.streaming hstate).2.2.1
  exact ⟨hpushed, fun hplain => hpushed.trans (congrArg _ (h.wire.plain hplain))⟩

theorem Delivery.fails (h : Delivery s w) {r : Reader}
    (hfalse : (w.ran r).consumer = .between false) :
    w.channel.closed = true ∧ r.out.length + w.channel.contents.length < r.count := by
  obtain ⟨k, c, r', signal, hreads, _, hran⟩ := World.ran_cases h.sound r
  generalize w.ran r = w' at hran hfalse
  cases hran with
  | failed hout hempty hclosed =>
    refine ⟨hreads.closed_eq.symm.trans hclosed, ?_⟩
    rw [hreads.contents_eq, List.drop_eq_nil_iff] at hempty
    rw [hreads.out_eq, List.length_append, List.length_take, Nat.min_eq_right hempty] at hout
    exact hout
  | waits => exact nomatch hfalse
  | returns => exact nomatch hfalse

/-- No byte is lost, duplicated or reordered on its way from the socket to the consumer; what has
been received while streaming stays there for it, whatever comes after. -/
theorem no_byte_lost (config : ServerConfig) (maxRead : ℕ) (c : LoopRun)
    (hc : Reaches config maxRead (init config) c) :
    c.world.returned <+: c.own.uv.plaintext.drop kHandshakeRequestSize ∧
    (c.own.conn.tlsActive = false →
      c.world.returned <+: c.own.uv.received.drop kHandshakeRequestSize) ∧
    (c.code = none → c.own.conn.state = .streaming →
      c.world.returned ++ c.world.lost ++ c.world.consumer.inHand ++ c.world.channel.contents =
        c.own.uv.plaintext.drop kHandshakeRequestSize) ∧
    (c.code = none → c.own.conn.state = .streaming → c.own.conn.tlsActive = false →
      c.world.returned ++ c.world.lost ++ c.world.consumer.inHand ++ c.world.channel.contents =
        c.own.uv.received.drop kHandshakeRequestSize) ∧
    (c.code = none → c.own.conn.state = .streaming → ∀ c', Reaches config maxRead c c' →
      c.own.uv.plaintext.drop kHandshakeRequestSize <+:
        c'.world.returned ++ c'.world.lost ++ c'.world.consumer.inHand ++
          c'.world.channel.contents ∧
      (c.own.conn.tlsActive = false → c.own.uv.received.drop kHandshakeRequestSize <+:
        c'.world.returned ++ c'.world.lost ++ c'.world.consumer.inHand ++
          c'.world.channel.contents)) ∧
    (∀ r, c.world.consumer = .reading r → (c.world.ran r).consumer = .between false →
      c.world.channel.closed = true ∧ r.out.length + c.world.channel.contents.length < r.count) ∧
    (c.world.lost ≠ [] → c.world.returned ++ c.world.lost = c.own.uv.pushed) ∧
    (c.world.returned ++ c.world.lost ++ c.world.consumer.inHand).length +
      c.world.channel.buffered = c.own.uv.pushed.length ∧
    (∀ block ∈ c.world.channel.blocks, block ≠ []) ∧
    ∀ front ∈ c.world.channel.blocks.head?, c.world.channel.frontOffset < front.length := by
  obtain ⟨h, hidle⟩ := delivery_of_reaches hc
  have hreturned : c.world.returned <+: c.own.uv.plaintext.drop kHandshakeRequestSize := by
    refine List.IsPrefix.trans ?_ h.pushed
    rw [← h.conserved, List.append_assoc, List.append_assoc]
    exact List.prefix_append _ _
  refine ⟨hreturned, fun hplain => ?_, fun hcode hstate => ?_, fun hcode hstate hplain => ?_,
    fun hcode hstate c' hr => ?_, fun r _ => h.fails, fun hl => ?_, ?_, h.sound.blocks_ne,
      h.sound.offset_lt⟩
  · exact hreturned.trans (((authenticated_of_reaches hc).plain hplain).drop _)
  · rw [h.conserved]
    exact ((hidle hcode).pushed_eq hstate).1
  · rw [h.conserved]
    exact ((hidle hcode).pushed_eq hstate).2 hplain
  · obtain ⟨hpushed, hplain⟩ := (hidle hcode).pushed_eq hstate
    have hlater := pushed_grows hc hr
    rw [← (delivery_of_reaches (hc.trans hr)).1.conserved] at hlater
    exact ⟨hpushed ▸ hlater, fun h => hplain h ▸ hlater⟩
  · obtain ⟨_, hhand, hcontents⟩ := h.last hl
    rw [← h.conserved, hhand, hcontents, List.append_nil, List.append_nil]
  · rw [h.sound.buffered_eq, ← List.length_append, h.conserved]

theorem no_byte_lost_two : ∃ c c', Reaches sampleConfig 16 (init sampleConfig) c ∧
    c.world.channel.contents = c.own.uv.received.drop kHandshakeRequestSize ∧
    Reaches sampleConfig 16 c c' ∧ c'.world.returned = [7, 8] ∧
    c'.world.returned <+: c'.own.uv.received.drop kHandshakeRequestSize := by
  have hne : ([7, 8] : Bytes) ≠ [] := List.cons_ne_nil _ _
  obtain ⟨s, hdelivered, hlive, _⟩ := deliver_run sampleConfig 16
    (w := exchange (.create sampleConfig.channelLowWater) (.between true) false [])
    (fun _ _ _ _ => trivial)
      (established_live (plainRequest sampleConfig.key) plainHandshake) rfl rfl hne (by decide)
  have hc := (plain_reaches sampleConfig 16).trans (reaches_of_restricted hdelivered)
  have hcalled : Reaches sampleConfig 16
      ⟨none, s, exchange (holding sampleConfig.channelLowWater [7, 8])
        (.between true) false []⟩ _ :=
    call_run s _ false [] 2 (by decide)
  have hr := hcalled.trans (returns_run s sampleConfig.channelLowWater (r := .start 2) hne rfl)
  obtain ⟨-, -, -, hall, -⟩ := no_byte_lost sampleConfig 16 _ hc
  obtain ⟨-, hreturned, -⟩ := no_byte_lost sampleConfig 16 _ (hc.trans hr)
  exact ⟨_, _, hc, hall rfl hlive.state hlive.plain, hr, rfl, hreturned hlive.plain⟩

end Runtime
end Dicker.Server
