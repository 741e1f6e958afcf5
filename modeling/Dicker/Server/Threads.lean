import Dicker.Server.ConsumerMain
import Dicker.Server.Delivery
import Dicker.Server.Opening
import Dicker.Server.OutboxRuns

/-! The two threads of a connection together. The loop thread is `Runtime.loopThread`; the consumer
thread runs `consumer_main` on the channel, takes its bytes as they come and waits where there are
none. In any order of their steps it does what it would do alone on the whole stream. -/

namespace Dicker.Server
open Lib Program

/-- What an operation of the consumer does to the state shared with the loop: `Connection::post`. -/
def World.performed : Op → World → World
  | .event (.post data), w => { w with outbox := w.outbox ++ data, outboxPending := true }
  | _, w => w

namespace Backend
variable (b : Backend)

inductive Consumes : World → b.Thread → World → b.Thread → Prop
  | resume (w : World) (lastRead : Bool) (st : Head b.dec.State) (env : b.Store) (log : Log)
      (hw : w.consumer = .between lastRead) :
      Consumes w ⟨.ret (.again st), env, log⟩ w ⟨b.machine.body st, env, log⟩
  | call (w : World) (lastRead : Bool) (op : Op) (k : op.Ans → b.Code) (env : b.Store) (log : Log)
      (hw : w.consumer = .between lastRead) :
      Consumes w ⟨.call op k, env, log⟩ (w.performed op)
        ⟨k (b.handle op env).1, (b.handle op env).2, log ++ [.did op (b.handle op env).1]⟩
  | read (w : World) (lastRead : Bool) (count : ℕ) (k : Option Bytes → b.Code)
      (env : b.Store) (log : Log) (hw : w.consumer = .between lastRead) :
      Consumes w ⟨.read count k, env, log⟩ { w with consumer := .reading (.start count) }
        ⟨.read count k, env, log⟩
  -- `read_exact` up to its next wait, or to its end
  | waits (w : World) (r r' : Reader) (p : b.Thread) (hw : w.consumer = .reading r)
      (hran : (w.ran r).consumer = .reading r') : Consumes w p (w.ran r) p
  | returns (w : World) (r : Reader) (count : ℕ) (k : Option Bytes → b.Code)
      (env : b.Store) (log : Log)
      (hw : w.consumer = .reading r) (hran : (w.ran r).consumer = .between true) :
      Consumes w ⟨.read count k, env, log⟩ (w.ran r)
        ⟨k (some (w.channel.readLoop r).2.1.out), env, log ++ [.got (w.channel.readLoop r).2.1.out]⟩
  | fails (w : World) (r : Reader) (count : ℕ) (k : Option Bytes → b.Code)
      (env : b.Store) (log : Log)
      (hw : w.consumer = .reading r) (hran : (w.ran r).consumer = .between false) :
      Consumes w ⟨.read count k, env, log⟩ (w.ran r) ⟨k none, env, log⟩
  | finish (w : World) (lastRead : Bool) (c : Consumer b.dec.State) (env : b.Store) (log : Log)
      (hw : w.consumer = .between lastRead) :
      Consumes w ⟨.ret (.done c), env, log⟩ { w with consumer := .finished, closePending := true }
        ⟨.ret (.done c), env, log⟩

end Backend

structure Threads (b : Backend) where
  loop : LoopRun
  consumer : Option b.Thread

namespace Threads
open Dicker.Server.Runtime
variable (b : Backend) (config : ServerConfig)

inductive Step : Threads b → Threads b → Prop
  | loop {c c' : LoopRun} (consumer : Option b.Thread)
      (hstep : (loopThread config).Step c c')
      (hold : c.world.consumer = .notStarted → c'.world.consumer = .notStarted) :
      Step ⟨c, consumer⟩ ⟨c', consumer⟩
  | starts {c c' : LoopRun} (hstep : (loopThread config).Step c c')
      (hfresh : c.world.consumer = .notStarted) (hstarted : c'.world.consumer ≠ .notStarted) :
      Step ⟨c, none⟩ ⟨c', some (b.main c.own.conn.mode c.own.conn.integrityChecks)⟩
  | consumer (code : Option (LoopM Unit)) (s : LoopState) {w w' : World} {p p' : b.Thread}
      (hstep : b.Consumes w p w' p') : Step ⟨⟨code, s, w⟩, some p⟩ ⟨⟨code, s, w'⟩, some p'⟩

def init : Threads b := ⟨Runtime.init config, none⟩

def Reaches (t : Threads b) : Prop := Relation.ReflTransGen (Step b config) (init b config) t

end Threads

namespace Runtime
variable {config : ServerConfig} {s s' : LoopState} {w w' : World}

/-! ## What the consumer sees of the loop thread -/

structure Feeds (s : LoopState) (w : World) (s' : LoopState) (w' : World) : Prop where
  plaintext : s.uv.plaintext <+: s'.uv.plaintext
  fed : ∃ data, (w.channel.closed = true → data = []) ∧ s'.uv.pushed = s.uv.pushed ++ data ∧
    w'.channel.contents = w.channel.contents ++ data
  closed : w.channel.closed = true → w'.channel.closed = true
  returned : w'.returned = w.returned
  lost : w'.lost = w.lost
  consumer : w'.consumer = w.consumer ∨ (w.consumer = .notStarted ∧ w'.consumer = .between true ∧
    s'.uv.log.any Outbox.isStart = true ∧ (Outbox.view s').talk = (Outbox.view s).talk)

theorem Feeds.same {c : Connection} {u : Uv} (hplaintext : s.uv.plaintext <+: u.plaintext)
    (hpushed : u.pushed = s.uv.pushed) (hcontents : w'.channel.contents = w.channel.contents)
    (hclosed : w.channel.closed = true → w'.channel.closed = true)
    (hreturned : w'.returned = w.returned) (hlost : w'.lost = w.lost)
    (hconsumer : w'.consumer = w.consumer) : Feeds s w ⟨c, u⟩ w' where
  plaintext := hplaintext
  fed := ⟨[], fun _ => rfl, by rw [hpushed, List.append_nil], by rw [hcontents, List.append_nil]⟩
  closed := hclosed
  returned := hreturned
  lost := hlost
  consumer := .inl hconsumer

theorem feeds_plain {op : LoopOp} (hop : op.Plain) (a : op.Ans) :
    Feeds s w (own op a s) (shared op a w) := by
  cases op with
  | close | push | bufferedBytes | closeChannel | startConsumer | delete | getOrCreateSink
  | recordSession => exact hop.elim
  | write request => cases a <;> exact .same (List.prefix_refl _) rfl rfl id rfl rfl rfl
  | _ => exact .same (List.prefix_refl _) rfl rfl id rfl rfl rfl

theorem feeds_push (hd : Delivery s w) (data : Bytes) : Feeds s w (own (.push data) () s)
    (shared (.push data) () w) := by
  obtain ⟨-, hcontents⟩ := hd.sound.push data
  have hsame : (w.channel.push data).closed = w.channel.closed := by
    unfold ByteChannel.push
    split_ifs <;> rfl
  cases hclosed : s.uv.channelClosed with
  | true =>
    rw [hd.closed, hclosed, if_pos rfl] at hcontents
    have hown : own (.push data) () s = { s with
        uv := { s.uv with log := s.uv.log ++ [.push data] } } := by
      simp only [own, uvOwn, hclosed, if_true]
    rw [hown]
    exact .same (List.prefix_refl _) rfl hcontents hsame.trans rfl rfl rfl
  | false =>
    rw [hd.closed, hclosed, if_neg Bool.false_ne_true] at hcontents
    rw [own_push hclosed]
    refine ⟨List.prefix_refl _, ⟨data, fun hc => ?_, rfl, hcontents⟩, hsame.trans,
      rfl, rfl, .inl rfl⟩
    exact absurd ((hd.closed.symm.trans hc).symm.trans hclosed) (by decide)

theorem feeds_of_step (hd : Delivery s w) (hs : Started s w) (hstep : LoopStep config s w s' w') :
    Feeds s w s' w' := by
  cases hstep with
  | callback e => cases e <;> exact .same (List.prefix_refl _) rfl rfl id rfl rfl rfl
  | unseen => exact .same (List.prefix_refl _) rfl rfl id rfl rfl rfl
  | move hmove =>
    cases hmove with
    | closing hc =>
      cases hc with
      | counts | finalizes | closes => exact .same (List.prefix_refl _) rfl rfl id rfl rfl rfl
      | plain op a hop => exact feeds_plain hop a
    | quiet | marks | detects | buffers | replies | agrees | names | streams | starts | pauses
    | resumes | looks | deletes => exact .same (List.prefix_refl _) rfl rfl id rfl rfl rfl
    | records _ op a hop =>
      rcases hop with ⟨_, rfl⟩ | ⟨_, rfl⟩
      · exact .same (List.prefix_refl _) rfl rfl id rfl rfl rfl
      · exact .same (List.prefix_refl _) rfl rfl id rfl rfl rfl
    | closesChannel => exact .same (List.prefix_refl _) rfl rfl (fun _ => rfl) rfl rfl rfl
    | receives _ data => exact .same (List.prefix_append _ _) rfl rfl id rfl rfl rfl
    | startsConsumer _ _ _ _ hlog =>
      have hnothing : s.uv.pushed = s.uv.pushed ++ [] ∧
          w.channel.contents = w.channel.contents ++ [] :=
        ⟨(List.append_nil _).symm, (List.append_nil _).symm⟩
      have hstart : (s.uv.log ++ [LoopOp.startConsumer]).any Outbox.isStart = true := by
        rw [any_append_singleton]
        exact Bool.or_true _
      exact ⟨List.prefix_refl _, ⟨[], fun _ => rfl, hnothing⟩, id, rfl, rfl,
        .inr ⟨(hs.unstarted hlog).1, rfl, hstart, rfl⟩⟩
    | pushes _ data => exact feeds_push hd data

end Runtime

/-! ## What the loop thread sees of the consumer -/

section
variable {w : World}

@[simp] theorem ConsumerThread.inHand_between (lastRead : Bool) :
    (between lastRead).inHand = [] := rfl

@[simp] theorem ConsumerThread.inHand_reading (r : Reader) : (reading r).inHand = r.out := rfl

@[simp] theorem World.performed_channel (op : Op) (w : World) :
    (w.performed op).channel = w.channel := by
  unfold World.performed
  split <;> rfl

@[simp] theorem World.performed_consumer (op : Op) (w : World) :
    (w.performed op).consumer = w.consumer := by
  unfold World.performed
  split <;> rfl

structure World.RanTo (w : World) (r : Reader) (w' : World) (r' : Reader) : Prop where
  moved : r'.out ++ w'.channel.contents = r.out ++ w.channel.contents
  closed : w'.channel.closed = w.channel.closed
  count : r'.count = r.count
  bounded : r.out.length ≤ r.count → r'.out.length ≤ r.count
  ended : (w'.consumer = .reading r' ∧ w'.channel.closed = false) ∨
    (w'.consumer = .between true ∧ r.count ≤ r'.out.length) ∨
    (w'.consumer = .between false ∧ r'.out.length < r.count ∧ w'.channel.contents = [] ∧
      w'.channel.closed = true)

section
variable {w' : World} {r r' r'' : Reader}

theorem World.RanTo.waiting (h : w.RanTo r w' r') (hran : w'.consumer = .reading r'') :
    r'' = r' ∧ w'.channel.closed = false := by
  rcases h.ended with ⟨hr, hopen⟩ | ⟨hr, -⟩ | ⟨hr, -⟩
  · cases hran.symm.trans hr
    exact ⟨rfl, hopen⟩
  · cases hran.symm.trans hr
  · cases hran.symm.trans hr

theorem World.RanTo.returned (h : w.RanTo r w' r') (hle : r.out.length ≤ r.count)
    (hran : w'.consumer = .between true) : r'.out.length = r.count := by
  rcases h.ended with ⟨hr, -⟩ | ⟨-, hge⟩ | ⟨hr, -⟩
  · cases hran.symm.trans hr
  · exact (h.bounded hle).antisymm hge
  · cases hran.symm.trans hr

theorem World.RanTo.failed (h : w.RanTo r w' r') (hran : w'.consumer = .between false) :
    r'.out.length < r.count ∧ w'.channel.contents = [] ∧ w'.channel.closed = true := by
  rcases h.ended with ⟨hr, -⟩ | ⟨hr, -⟩ | ⟨-, hfailed⟩
  · cases hran.symm.trans hr
  · cases hran.symm.trans hr
  · exact hfailed

end

theorem World.ran_to (h : w.channel.Sound) (r : Reader) :
    w.RanTo r (w.ran r) (w.channel.readLoop r).2.1 := by
  obtain ⟨k, hreads, hk, hempty⟩ := h.readLoop r
  have hchannel : (w.ran r).channel = (w.channel.readLoop r).1 := by
    unfold World.ran
    dsimp only
    split_ifs <;> rfl
  refine ⟨?_, by rw [hchannel, hreads.closed_eq], hreads.count_eq, fun hle => ?_, ?_⟩
  · rw [hchannel, hreads.out_eq, hreads.contents_eq, List.append_assoc, List.take_append_drop]
  · rw [hreads.out_eq, List.length_append, List.length_take]
    omega
  · rw [hchannel]
    unfold World.ran
    dsimp only
    rw [hreads.count_eq]
    split_ifs with hout hclosed
    · exact .inr (.inr ⟨rfl, hout, hempty hout, hclosed⟩)
    · exact .inl ⟨rfl, Bool.eq_false_iff.mpr hclosed⟩
    · exact .inr (.inl ⟨rfl, Nat.not_lt.mp hout⟩)

end

namespace Threads
open Dicker.Server.Runtime
variable {b : Backend} {config : ServerConfig} {s s' : LoopState} {w w' : World} {p p' : b.Thread}
  {t t' : Threads b} {c c' : LoopRun}

/-! ## The stream behind the steps -/

def Continues (b : Backend) (w : World) (p : b.Thread) (o : Bytes → b.End) : Prop :=
  ∀ more, (w.channel.closed = true → more = []) →
    b.machine.conclude b.handle p (w.consumer.inHand ++ w.channel.contents ++ more) = o more

structure Placed (b : Backend) (w : World) (p : b.Thread) : Prop where
  started : w.consumer ≠ .notStarted
  reading : ∀ r, w.consumer = .reading r → r.out.length ≤ r.count ∧ ∃ k, p.prog = .read r.count k
  finished : w.consumer = .finished → ∃ c, p.prog = .ret (.done c)

theorem Placed.between {lastRead : Bool} (hw : w.consumer = .between lastRead) : Placed b w p := by
  refine ⟨?_, fun r hr => ?_, fun hf => ?_⟩
  · rw [hw]
    rintro ⟨⟩
  · rw [hw] at hr
    cases hr
  · rw [hw] at hf
    cases hf

theorem Placed.same (h : Placed b w p) (hsame : w'.consumer = w.consumer) : Placed b w' p :=
  ⟨hsame ▸ h.started, hsame ▸ h.reading, hsame ▸ h.finished⟩

theorem Placed.consumes (h : Placed b w p) (hsound : w.channel.Sound)
    (hstep : b.Consumes w p w' p') :
    Placed b w' p' := by
  cases hstep with
  | resume lastRead st env log hw => exact .between hw
  | call lastRead op k env log hw => exact .between (by rw [World.performed_consumer, hw])
  | read lastRead count k env log hw =>
    refine ⟨ConsumerThread.noConfusion, fun r hr => ?_, ConsumerThread.noConfusion⟩
    cases hr
    exact ⟨Nat.zero_le _, k, rfl⟩
  | waits r r' _ hw hran =>
    obtain ⟨hle, k, hprog⟩ := h.reading r hw
    have hto := World.ran_to hsound r
    refine ⟨by rw [hran]; rintro ⟨⟩, fun r'' hr => ?_, by rw [hran]; rintro ⟨⟩⟩
    obtain ⟨rfl, -⟩ := hto.waiting hr
    exact ⟨(hto.bounded hle).trans_eq hto.count.symm, k, by rw [hto.count]; exact hprog⟩
  | returns r count k env log hw hran => exact .between hran
  | fails r count k env log hw hran => exact .between hran
  | finish lastRead c env log hw =>
    exact ⟨ConsumerThread.noConfusion, fun r hr => ConsumerThread.noConfusion hr, fun _ => ⟨c, rfl⟩⟩

theorem Continues.consumes {o : Bytes → b.End} (hplaced : Placed b w p) (hsound : w.channel.Sound)
    (h : Continues b w p o) (hstep : b.Consumes w p w' p') : Continues b w' p' o := by
  intro more hmore
  cases hstep with
  | resume lastRead st env log hw => exact (Machine.conclude_again st).symm.trans (h more hmore)
  | call lastRead op k env log hw =>
    rw [World.performed_consumer, World.performed_channel] at *
    exact (Machine.conclude_call op k).symm.trans (h more hmore)
  | read lastRead count k env log hw =>
    have h' := h more hmore
    rw [hw] at h'
    exact h'
  | finish lastRead c env log hw =>
    have h' := h more hmore
    rw [hw] at h'
    exact h'
  | waits r r' _ hw hran =>
    have hto := World.ran_to hsound r
    obtain ⟨rfl, -⟩ := hto.waiting hran
    rw [hran, ConsumerThread.inHand_reading, hto.moved, ← h more (hto.closed ▸ hmore), hw,
      ConsumerThread.inHand_reading]
  | returns r count k env log hw hran =>
    have hto := World.ran_to hsound r
    obtain ⟨hle, k', hprog⟩ := hplaced.reading r hw
    cases hprog
    rw [hran, ConsumerThread.inHand_between, List.nil_append, ← h more (hto.closed ▸ hmore), hw,
      ConsumerThread.inHand_reading, ← hto.moved, List.append_assoc, ← hto.returned hle hran,
      Machine.conclude_read_append]
  | fails r count k env log hw hran =>
    have hto := World.ran_to hsound r
    obtain ⟨hle, k', hprog⟩ := hplaced.reading r hw
    cases hprog
    obtain ⟨hshort, hempty, hclosed⟩ := hto.failed hran
    -- nothing can follow on a closed channel, so that the program alone would fail here too
    obtain rfl := hmore hclosed
    rw [hran, ConsumerThread.inHand_between, hempty, ← h [] fun _ => rfl, hw,
      ConsumerThread.inHand_reading, ← hto.moved, hempty]
    simp only [List.append_nil, Machine.conclude_read_of_lt hshort]

theorem Continues.logged {o : Bytes → b.End} (hplaced : Placed b w p) (h : Continues b w p o)
    (more : Bytes) (hmore : w.channel.closed = true → more = []) :
    p.log <+: (o more).trace ∧ (w.consumer = .finished → p.log = (o more).trace ∧
      p.env = (o more).env) := by
  rw [← h more hmore]
  refine ⟨Machine.log_prefix_conclude p _, fun hfinished => ?_⟩
  obtain ⟨c, hprog⟩ := hplaced.finished hfinished
  obtain ⟨prog, env, log⟩ := p
  obtain rfl : prog = .ret (.done c) := hprog
  rw [Machine.conclude_done]
  exact ⟨rfl, rfl⟩

structure Serves (b : Backend) (config : ServerConfig) (s : LoopState) (w : World)
    (p : b.Thread) : Prop where
  placed : Placed b w p
  size : kHandshakeRequestSize ≤ s.uv.plaintext.length
  session : ∃ request, parseAndVerifyHandshake config.key s.uv.plaintext = .ok request ∧
    Continues b w p fun more => b.sequential (config.modeFor request.version)
      (hasFlag request.flags .integrityChecks) (s.uv.pushed ++ more)

theorem Serves.consumes (h : Serves b config s w p) (hsound : w.channel.Sound)
    (hstep : b.Consumes w p w' p') : Serves b config s w' p' := by
  obtain ⟨request, hparsed, hcontinues⟩ := h.session
  exact ⟨h.placed.consumes hsound hstep, h.size, request, hparsed,
    hcontinues.consumes h.placed hsound hstep⟩

theorem Serves.feeds (h : Serves b config s w p) (hfeeds : Feeds s w s' w') :
    Serves b config s' w' p := by
  obtain ⟨request, hparsed, hcontinues⟩ := h.session
  obtain ⟨data, hclosed, hpushed, hcontents⟩ := hfeeds.fed
  obtain ⟨later, hlater⟩ := hfeeds.plaintext
  have hconsumer : w'.consumer = w.consumer :=
    hfeeds.consumer.resolve_right fun hnew => h.placed.started hnew.1
  refine ⟨h.placed.same hconsumer, ?_, request, ?_, fun more hmore => ?_⟩
  · rw [← hlater, List.length_append]
    exact h.size.trans (Nat.le_add_right _ _)
  · rw [← hlater, parse_append h.size]
    exact hparsed
  · have hall :=
      hcontinues (data ++ more) fun hc => by
        rw [hclosed hc, hmore (hfeeds.closed hc), List.append_nil]
    rw [hconsumer, hcontents, hpushed]
    simp only [List.append_assoc] at hall ⊢
    exact hall

/-! ## Runs -/

theorem consumerStep_of_consumes (hstep : b.Consumes w p w' p') :
    w' = w ∨ ∃ n, ConsumerStep n w w' := by
  cases hstep with
  | resume => exact .inl rfl
  | call lastRead op k env log hw =>
    cases op with
    | query q => exact .inl rfl
    | event e =>
      cases e with
      | post data => exact .inr ⟨0, .post w lastRead data hw⟩
      | _ => exact .inl rfl
  | read lastRead count k env log hw => exact .inr ⟨count, .call w lastRead count hw le_rfl⟩
  | waits r r' _ hw hran => exact .inr ⟨0, .run w r hw⟩
  | returns r count k env log hw hran => exact .inr ⟨0, .run w r hw⟩
  | fails r count k env log hw hran => exact .inr ⟨0, .run w r hw⟩
  | finish lastRead c env log hw => exact .inr ⟨0, .finish w lastRead hw⟩

theorem reaches_mono {n m : ℕ} (hle : n ≤ m) (h : Runtime.Reaches config n c c') :
    Runtime.Reaches config m c c' := by
  obtain ⟨τ, hrun⟩ := Host.reaches_iff_run.mp h
  exact Host.reaches_iff_run.mpr ⟨τ, run_mono hle hrun⟩

structure Holds (b : Backend) (config : ServerConfig) (t : Threads b) : Prop where
  reaches : ∃ n, Runtime.Reaches config n (Runtime.init config) t.loop
  absent : t.consumer = none →
    t.loop.world.consumer = .notStarted ∧ t.loop.world.returned = [] ∧ t.loop.world.lost = []
  present : ∀ p, t.consumer = some p → Serves b config t.loop.own t.loop.world p

theorem Holds.delivery (h : Holds b config t) :
    Delivery t.loop.own t.loop.world ∧ (t.loop.code = none → Idle config t.loop.own) := by
  obtain ⟨n, hreaches⟩ := h.reaches
  exact delivery_of_reaches hreaches

theorem Holds.feeds (h : Holds b config t) (hstep : (loopThread config).Step t.loop c) :
    Feeds t.loop.own t.loop.world c.own c.world := by
  obtain ⟨n, hreaches⟩ := h.reaches
  have hstarted := (Runtime.holds_of_reaches (A := fun _ _ => True) (fun _ _ _ _ _ _ _ => trivial)
    (fun _ _ _ _ _ _ => trivial) (fun _ _ _ _ _ _ => trivial) trivial hreaches).1.1
  exact feeds_of_step h.delivery.1 hstarted (loopStep_of_reaches hreaches hstep)

theorem Holds.agreed (h : Holds b config ⟨c, none⟩) (hstep : (loopThread config).Step c c')
    (hstarted : c'.world.consumer ≠ .notStarted) :
    c'.world.consumer = .between true ∧ kHandshakeRequestSize ≤ c'.own.uv.plaintext.length ∧
      ∃ request, parseAndVerifyHandshake config.key c'.own.uv.plaintext = .ok request ∧
        b.main c.own.conn.mode c.own.conn.integrityChecks =
          b.main (config.modeFor request.version) (hasFlag request.flags .integrityChecks) := by
  rcases (h.feeds hstep).consumer with hsame | ⟨-, hbetween, hlog, htalk⟩
  · exact absurd (hsame.trans (h.absent rfl).1) hstarted
  obtain ⟨n, hreaches⟩ := h.reaches
  obtain ⟨τ, hrun⟩ := Host.reaches_iff_run.mp (hreaches.tail (step_of_loopThread hstep))
  obtain ⟨hsize, request, hparsed, hmode, hintegrity⟩ := (Outbox.inOrder_of_run hrun).agreed hlog
  rw [htalk] at hmode hintegrity
  exact ⟨hbetween, hsize, request, hparsed, congrArg₂ b.main hmode hintegrity⟩

theorem Holds.starts (h : Holds b config ⟨c, none⟩) (hstep : (loopThread config).Step c c')
    (hstarted : c'.world.consumer ≠ .notStarted) (hd : Delivery c'.own c'.world) :
    Serves b config c'.own c'.world (b.main c.own.conn.mode c.own.conn.integrityChecks) := by
  have hfeeds := h.feeds hstep
  obtain ⟨-, hreturned, hlost⟩ := h.absent rfl
  obtain ⟨hbetween, hsize, request, hparsed, hmain⟩ := h.agreed hstep hstarted
  refine ⟨.between hbetween, hsize, request, hparsed, fun more _ => ?_⟩
  have hpushed := hd.conserved
  rw [hfeeds.returned, hfeeds.lost, hreturned, hlost, hbetween] at hpushed
  rw [hbetween, hmain, ← hpushed]
  rfl

theorem Holds.step (h : Holds b config t) (hstep : Step b config t t') : Holds b config t' := by
  obtain ⟨n, hreaches⟩ := h.reaches
  cases hstep with
  | loop consumer hstep hold =>
    have hfeeds := h.feeds hstep
    refine ⟨⟨n, hreaches.tail (step_of_loopThread hstep)⟩, fun hnone => ?_,
      fun p hp => (h.present p hp).feeds hfeeds⟩
    obtain ⟨hfresh, hreturned, hlost⟩ := h.absent hnone
    exact ⟨hold hfresh, hfeeds.returned.trans hreturned, hfeeds.lost.trans hlost⟩
  | starts hstep hfresh hstarted =>
    have hreaches' : Runtime.Reaches config n _ _ := hreaches.tail (step_of_loopThread hstep)
    refine ⟨⟨n, hreaches'⟩, fun hnone => absurd hnone (Option.some_ne_none _), ?_⟩
    rintro p ⟨⟩
    exact h.starts hstep hstarted (delivery_of_reaches hreaches').1
  | consumer code s hstep =>
    refine ⟨?_, fun hnone => absurd hnone (Option.some_ne_none _), fun p hp => ?_⟩
    · rcases consumerStep_of_consumes hstep with hsame | ⟨m, hconsumer⟩
      · rw [hsame]
        exact ⟨n, hreaches⟩
      · refine ⟨max n m, (reaches_mono (le_max_left n m) hreaches).tail (.other code s ?_)⟩
        exact hconsumer.mono (le_max_right n m)
    · cases hp
      exact (h.present _ rfl).consumes h.delivery.1.sound hstep

theorem holds_of_reaches (ht : Reaches b config t) : Holds b config t := by
  induction ht with
  | refl => exact ⟨⟨0, .refl⟩, fun _ => ⟨rfl, rfl, rfl⟩, fun p hp => absurd hp (by rintro ⟨⟩)⟩
  | tail _ hstep ih => exact ih.step hstep

/-! ## The threads of one connection, from its start -/

theorem exec_alone {maxRead : ℕ} {cond : LoopCond} {α : Type} {code : LoopM α} {a : α}
    (h : Runs config maxRead cond code s w a s' w') :
    (loopThread config).Exec code s w a s' w' := by
  induction h with
  | ret a s w => exact .ret a s w
  | get _ ih => exact .get ih
  | set _ ih => exact .set ih
  | call answer hallowed _ ih => exact .call answer hallowed.1 ih

variable (b) in
theorem reaches_of_loop
    (hrun : Relation.ReflTransGen (loopThread config).Step (Runtime.init config) c) :
    (c.world.consumer = .notStarted ∧ Reaches b config ⟨c, none⟩) ∨
      (c.world.consumer ≠ .notStarted ∧ ∃ request,
        parseAndVerifyHandshake config.key c.own.uv.plaintext = .ok request ∧
        Reaches b config ⟨c, some (b.main (config.modeFor request.version)
          (hasFlag request.flags .integrityChecks))⟩) := by
  induction hrun with
  | refl => exact .inl ⟨rfl, .refl⟩
  | @tail c c' _ hstep ih =>
    rcases ih with ⟨hfresh, ih⟩ | ⟨hstarted, request, hparsed, ih⟩
    · by_cases hnew : c'.world.consumer = .notStarted
      · exact .inl ⟨hnew, ih.tail (.loop none hstep fun _ => hnew)⟩
      · obtain ⟨-, -, request, hparsed, hmain⟩ := (holds_of_reaches ih).agreed hstep hnew
        refine .inr ⟨hnew, request, hparsed, ?_⟩
        rw [← hmain]
        exact ih.tail (.starts hstep hfresh hnew)
    · have hnext := ih.tail (.loop _ hstep fun hold => absurd hold hstarted)
      have hserves := (holds_of_reaches ih).present _ rfl
      obtain ⟨later, hlater⟩ := ((holds_of_reaches ih).feeds hstep).plaintext
      refine .inr ⟨((holds_of_reaches hnext).present _ rfl).placed.started, request, ?_, hnext⟩
      rw [← hlater, parse_append hserves.size]
      exact hparsed

theorem established_alone (config : ServerConfig) {bytes : Bytes} {request : HandshakeRequest}
    (hlen : bytes.length = kHandshakeRequestSize)
    (hparse : parseAndVerifyHandshake config.key bytes = .ok request) :
    Relation.ReflTransGen (loopThread config).Step (Runtime.init config)
      ⟨none, established config bytes request,
        exchange (.create config.channelLowWater) (.between true) false []⟩ := by
  have hopened : Runs config 0 (fun _ _ _ => True) Connection.accept ⟨.fresh, freshUv⟩
      (freshWorld config) () opened (freshWorld config) :=
    exec_invoke true trivial trivial (exec_invoke_last .readStart () trivial trivial)
  have hfirst : Runs config 0 (fun _ _ _ => True) (Connection.handleRaw config bytes [])
      (takes (.read bytes []) opened) (freshWorld config) () (established config bytes request)
      { freshWorld config with consumer := .between true } :=
    first_exec hlen.ge (parse_magic hparse) (exec_accepted (fun _ _ _ _ => trivial) hparse
      (List.drop_eq_nil_of_le hlen.le) (exec_reply .ok rfl trivial))
  have hne : bytes ≠ [] := by
    rintro rfl
    exact absurd hlen (by decide)
  have hfires : (loopThread config).fires (.read bytes []) opened (freshWorld config) :=
    ⟨rfl, rfl, hne⟩
  exact (exec_alone hopened).steps.trans (Host.Exec.event hfires (exec_alone hfirst))

theorem delivered_alone (config : ServerConfig) {bytes data : Bytes} {request : HandshakeRequest}
    (hlen : bytes.length = kHandshakeRequestSize)
    (hparse : parseAndVerifyHandshake config.key bytes = .ok request) (hdata : data ≠ [])
    (hlow : data.length < config.channelHighWater) :
    ∃ s, Relation.ReflTransGen (loopThread config).Step (Runtime.init config)
        ⟨none, s, exchange (holding config.channelLowWater data) (.between true) false []⟩ ∧
      s.uv.plaintext = bytes ++ data ∧ s.uv.pushed = data ∧ s.uv.reading = true ∧ Live s ∧
      s.conn.teardownStarted = false ∧ s.conn.consumerStarted = true := by
  have hcond : ∀ (op : LoopOp) (_ : LoopState) (a : op.Ans), LoopOp.Succeeds op a →
      True := fun _ _ _ _ => trivial
  have hlive : Live (established config bytes request) := established_live bytes request
  have hlow' : ((ByteChannel.create config.channelLowWater).push data).buffered <
      config.channelHighWater := by
    rw [create_push _ hdata]
    exact hlow
  have hdelivered : Runs config 0 (fun _ _ _ => True) (Connection.handleRaw config data [])
      (takes (.read data []) (established config bytes request))
      (exchange (.create config.channelLowWater) (.between true) false []) ()
      (own .bufferedBytes ((ByteChannel.create config.channelLowWater).push data).buffered
        (fedState data (takes (.read data []) (established config bytes request))))
      (exchange ((ByteChannel.create config.channelLowWater).push data) (.between true) false []) :=
    exec_next hlive.detected hlive.plain (exec_streamData hlive.state hcond
      (exec_backpressure_low rfl hcond hlow'))
  have hfires : (loopThread config).fires (.read data []) (established config bytes request)
      (exchange (.create config.channelLowWater) (.between true) false []) := ⟨rfl, rfl, hdata⟩
  have hrun :=
    (established_alone config hlen hparse).trans (Host.Exec.event hfires (exec_alone hdelivered))
  rw [create_push _ hdata] at hrun
  exact ⟨_, hrun, rfl, rfl, rfl, ⟨rfl, rfl, rfl, fun _ => rfl⟩, rfl, rfl⟩

def storing : Backend := ⟨storedLz4Decoder, fun _ => 0, Unit, constantly true, false, ()⟩

/-- Whatever the order of the steps, the consumer thread has done what `consumer_main` does on the
stream behind the handshake, as far as it has got, under the mode and the flags of the request; when
it has finished it has done all of it. -/
theorem consumer_follows_stream (b : Backend) (config : ServerConfig) (t : Threads b) (p : b.Thread)
    (ht : Reaches b config t) (hp : t.consumer = some p) :
    t.loop.own.uv.pushed <+: t.loop.own.uv.plaintext.drop kHandshakeRequestSize ∧
    (t.loop.code = none → t.loop.own.conn.state = .streaming →
      t.loop.own.uv.pushed = t.loop.own.uv.plaintext.drop kHandshakeRequestSize ∧
      (t.loop.own.conn.tlsActive = false →
        t.loop.own.uv.pushed = t.loop.own.uv.received.drop kHandshakeRequestSize)) ∧
    ∃ request, parseAndVerifyHandshake config.key t.loop.own.uv.plaintext = .ok request ∧
      ∀ more, (t.loop.world.channel.closed = true → more = []) →
        let o := b.sequential (config.modeFor request.version)
          (hasFlag request.flags .integrityChecks) (t.loop.own.uv.pushed ++ more)
        p.log <+: o.trace ∧
        (t.loop.world.consumer = .finished → p.log = o.trace ∧ p.env = o.env) := by
  have h := holds_of_reaches ht
  have hserves := h.present p hp
  obtain ⟨hd, hidle⟩ := h.delivery
  obtain ⟨request, hparsed, hcontinues⟩ := hserves.session
  refine ⟨hd.pushed, fun hcode hstate => (hidle hcode).pushed_eq hstate, request, hparsed, ?_⟩
  exact fun more hmore => hcontinues.logged hserves.placed more hmore

theorem consumer_follows_stream_unknown :
    ∃ t p request, Reaches storing sampleConfig t ∧ t.consumer = some p ∧
    t.loop.own.uv.received.drop kHandshakeRequestSize = [0] ∧
    t.loop.world.consumer = .finished ∧ p.log = [.got [0]] ∧
    parseAndVerifyHandshake sampleConfig.key t.loop.own.uv.plaintext = .ok request ∧
    ∀ more, (storing.sequential (sampleConfig.modeFor request.version)
      (hasFlag request.flags .integrityChecks) ([0] ++ more)).trace = [.got [0]] := by
  have hne : ([0] : Bytes) ≠ [] := List.cons_ne_nil _ _
  obtain ⟨s, hloop, -, hpushed, -, hlive, -⟩ :=
    delivered_alone sampleConfig (plainRequest_length _) (parse_plainRequest _) hne (by decide)
  rcases reaches_of_loop storing hloop with ⟨hfresh, -⟩ | ⟨-, _, -, hstart⟩
  · exact absurd hfresh (by rintro ⟨⟩)
  have hread := hstart.tail (.consumer none s (.read _ true 1 _ _ _ rfl))
  have hreturned := hread.tail (.consumer none s (.returns _ (.start 1) 1 _ _ _ rfl rfl))
  have hfinished := hreturned.tail (.consumer none s (.finish _ true _ _ _ rfl))
  obtain ⟨-, hall, request, hparsed, hlog⟩ := consumer_follows_stream _ _ _ _ hfinished rfl
  have hreceived := (hall rfl hlive.state).2 hlive.plain
  refine ⟨_, _, request, hfinished, rfl, hreceived.symm.trans hpushed, rfl, rfl,
    hparsed, fun more => ?_⟩
  have htrace :
      (storing.sequential (sampleConfig.modeFor request.version)
        (hasFlag request.flags .integrityChecks)
      (s.uv.pushed ++ more)).trace = [.got [0]] := ((hlog more nofun).2 rfl).1.symm
  rwa [hpushed] at htrace

end Threads
end Dicker.Server
