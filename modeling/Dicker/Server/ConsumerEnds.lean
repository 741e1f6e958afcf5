import Dicker.Lib.Fair
import Dicker.Server.Threads

/-! The consumer thread ends once the channel has been closed, whatever the loop thread does
meanwhile: `join` in the teardown of a connection does not wait for ever. -/

namespace Dicker.Server

def ConsumerThread.left (n : ℕ) : ConsumerThread → ℕ
  | finished => 0
  | reading _ => 2 * n
  | _ => 2 * n + 1

namespace Threads
open Lib Program Dicker.Server.Runtime

variable {b : Backend} {config : ServerConfig} {s : LoopState} {w w' : World} {p p' : b.Thread}
  {t t' : Threads b} {n : ℕ}

inductive Acts (b : Backend) : Threads b → Threads b → Prop
  | mk (code : Option (LoopM Unit)) (s : LoopState) {w w' : World} {p p' : b.Thread}
      (hstep : b.Consumes w p w' p') : Acts b ⟨⟨code, s, w⟩, some p⟩ ⟨⟨code, s, w'⟩, some p'⟩

theorem Acts.step (h : Acts b t t') : Step b config t t' := by
  obtain ⟨code, s, hstep⟩ := h
  exact .consumer code s hstep

theorem Acts.own (h : Acts b t t') : t'.loop.own = t.loop.own := by
  obtain ⟨code, s, hstep⟩ := h
  rfl

theorem consumes_left (hplaced : Placed b w p) (hsound : w.channel.Sound)
    (hclosed : w.channel.closed = true)
    (hends : b.machine.EndsIn b.handle n p (w.consumer.inHand ++ w.channel.contents))
    (hstep : b.Consumes w p w' p') :
    ∃ m, b.machine.EndsIn b.handle m p' (w'.consumer.inHand ++ w'.channel.contents) ∧
      w'.consumer.left m < w.consumer.left n := by
  cases hstep with
  | resume lastRead st env log hw =>
    cases hends with
    | @again n _ _ _ _ hk =>
      refine ⟨n, hk, ?_⟩
      simp only [hw, ConsumerThread.left]
      omega
  | call lastRead op k env log hw =>
    cases hends with
    | @call n _ _ _ _ _ hk =>
      rw [World.performed_consumer, World.performed_channel]
      refine ⟨n, hk, ?_⟩
      simp only [hw, ConsumerThread.left]
      omega
  | read lastRead count k env log hw =>
    rw [hw] at hends ⊢
    exact ⟨n, hends, Nat.lt_succ_self _⟩
  | waits r r' _ hw hran =>
    have hto := World.ran_to hsound r
    exact absurd ((hto.closed.trans hclosed).symm.trans (hto.waiting hran).2) (by decide)
  | returns r count k env log hw hran =>
    have hto := World.ran_to hsound r
    obtain ⟨hle, k', hprog⟩ := hplaced.reading r hw
    cases hprog
    rw [hw, ConsumerThread.inHand_reading, ← hto.moved, ← hto.returned hle hran] at hends
    obtain ⟨m, rfl, hm⟩ := hends.of_read_append
    rw [hran, hw]
    exact ⟨m, hm, Nat.lt_succ_self _⟩
  | fails r count k env log hw hran =>
    have hto := World.ran_to hsound r
    obtain ⟨hle, k', hprog⟩ := hplaced.reading r hw
    cases hprog
    obtain ⟨hshort, hempty, -⟩ := hto.failed hran
    rw [hw, ConsumerThread.inHand_reading, ← hto.moved, hempty, List.append_nil] at hends
    obtain ⟨m, rfl, hm⟩ := hends.of_read_lt hshort
    rw [hran, hw, hempty]
    exact ⟨m, hm, Nat.lt_succ_self _⟩
  | finish lastRead c env log hw =>
    cases hends with
    | done =>
      refine ⟨0, .done _ _ _ _, ?_⟩
      rw [hw]
      exact Nat.zero_lt_one

theorem exists_consumes (hplaced : Placed b w p) (hsound : w.channel.Sound)
    (hrunning : w.consumer ≠ .finished) : ∃ w' p', b.Consumes w p w' p' := by
  obtain ⟨prog, env, log⟩ := p
  cases hw : w.consumer with
  | notStarted => exact absurd hw hplaced.started
  | finished => exact absurd hw hrunning
  | between lastRead =>
    cases prog with
    | ret a =>
      cases a with
      | again st => exact ⟨_, _, .resume w lastRead st env log hw⟩
      | done c => exact ⟨_, _, .finish w lastRead c env log hw⟩
    | read count k => exact ⟨_, _, .read w lastRead count k env log hw⟩
    | call op k => exact ⟨_, _, .call w lastRead op k env log hw⟩
  | reading r =>
    obtain ⟨-, k, hprog⟩ := hplaced.reading r hw
    cases hprog
    rcases (World.ran_to hsound r).ended with ⟨hr, -⟩ | ⟨hr, -⟩ | ⟨hr, -⟩
    · exact ⟨_, _, .waits w r _ _ hw hr⟩
    · exact ⟨_, _, .returns w r r.count k env log hw hr⟩
    · exact ⟨_, _, .fails w r r.count k env log hw hr⟩

structure Ending (b : Backend) (config : ServerConfig) (t : Threads b) (n : ℕ) : Prop where
  holds : Holds b config t
  closed : t.loop.world.channel.closed = true
  left : ∃ p m, t.consumer = some p ∧ t.loop.world.consumer.left m = n ∧
    b.machine.EndsIn b.handle m p (t.loop.world.consumer.inHand ++ t.loop.world.channel.contents)

theorem consumes_closed (hsound : w.channel.Sound) (hstep : b.Consumes w p w' p') :
    w'.channel.closed = w.channel.closed := by
  cases hstep with
  | call => rw [World.performed_channel]
  | waits | returns | fails => exact (World.ran_to hsound _).closed
  | _ => rfl

theorem Ending.acts (h : Ending b config t n) (hacts : Acts b t t') :
    ∃ m < n, Ending b config t' m := by
  obtain ⟨code, s, hstep⟩ := hacts
  obtain ⟨p, m, hp, rfl, hends⟩ := h.left
  cases hp
  have hplaced := (h.holds.present _ rfl).placed
  have hsound := h.holds.delivery.1.sound
  obtain ⟨m', hends', hless⟩ := consumes_left hplaced hsound h.closed hends hstep
  have hclosed := (consumes_closed hsound hstep).trans h.closed
  exact ⟨_, hless, h.holds.step (.consumer code s hstep), hclosed, _, m', rfl, rfl, hends'⟩

theorem Ending.exists_acts (h : Ending b config t n)
    (hrunning : t.loop.world.consumer ≠ .finished) : ∃ t', Acts b t t' := by
  obtain ⟨⟨code, s, w⟩, consumer⟩ := t
  obtain ⟨p, m, rfl, -⟩ := h.left
  obtain ⟨w', p', hstep⟩ := exists_consumes (h.holds.present p rfl).placed
    h.holds.delivery.1.sound hrunning
  exact ⟨_, .mk code s hstep⟩

theorem Ending.exists_finished (h : Ending b config t n) :
    ∃ t', Relation.ReflTransGen (Step b config) t t' ∧ t'.loop.own = t.loop.own ∧
      t'.loop.world.consumer = .finished := by
  induction n using Nat.strong_induction_on generalizing t with
  | _ n ih =>
    by_cases hfinished : t.loop.world.consumer = .finished
    · exact ⟨t, .refl, rfl, hfinished⟩
    · obtain ⟨t₁, hacts⟩ := h.exists_acts hfinished
      obtain ⟨m, hless, hending⟩ := h.acts hacts
      obtain ⟨t', hrun, hown, hfinished'⟩ := ih m hless hending
      exact ⟨t', .head hacts.step hrun, hown.trans hacts.own, hfinished'⟩

theorem Holds.exists_ending (h : Holds b config t) (hclosed : t.loop.world.channel.closed = true)
    (hstarted : t.loop.world.consumer ≠ .notStarted) : ∃ n, Ending b config t n := by
  obtain ⟨p, hp⟩ : ∃ p, t.consumer = some p := by
    cases hc : t.consumer with
    | none => exact absurd (h.absent hc).1 hstarted
    | some p => exact ⟨p, rfl⟩
  obtain ⟨m, hm⟩ := b.machine.exists_endsIn (h := b.handle) p
    (t.loop.world.consumer.inHand ++ t.loop.world.channel.contents)
  exact ⟨_, h, hclosed, p, m, hp, rfl, hm⟩

theorem Ending.step (h : Ending b config t n) (hstep : Step b config t t') :
    ∃ m ≤ n, Ending b config t' m := by
  cases hstep with
  | consumer code s hstep =>
    obtain ⟨m, hless, hending⟩ := h.acts (.mk code s hstep)
    exact ⟨m, hless.le, hending⟩
  | starts =>
    obtain ⟨p, m, hp, -⟩ := h.left
    cases hp
  | loop consumer hstep hold =>
    obtain ⟨p, m, hp, hleft, hends⟩ := h.left
    cases hp
    have hfeeds := h.holds.feeds hstep
    have hconsumer :=
      hfeeds.consumer.resolve_right fun hnew => (h.holds.present p rfl).placed.started hnew.1
    obtain ⟨data, hnothing, -, hcontents⟩ := hfeeds.fed
    rw [hnothing h.closed, List.append_nil] at hcontents
    refine ⟨n, le_rfl, h.holds.step (.loop _ hstep hold), hfeeds.closed h.closed, p, m, rfl, ?_, ?_⟩
    · rw [hconsumer]
      exact hleft
    · rw [hconsumer, hcontents]
      exact hends

theorem not_acts_of_finished (hfinished : t.loop.world.consumer = .finished) : ¬Acts b t t' := by
  rintro ⟨code, s, hstep⟩
  cases hstep with
  | resume _ _ _ _ hw | call _ _ _ _ _ hw | read _ _ _ _ _ hw | waits _ _ _ hw
  | returns _ _ _ _ _ hw
  | fails _ _ _ _ _ hw | finish _ _ _ _ hw => exact nomatch hfinished.symm.trans hw

theorem finished_lasts (h : Holds b config t ∧ t.loop.world.consumer = .finished)
    (hstep : Step b config t t') : Holds b config t' ∧ t'.loop.world.consumer = .finished := by
  obtain ⟨h, hfinished⟩ := h
  refine ⟨h.step hstep, ?_⟩
  cases hstep with
  | loop consumer hstep hold =>
    have hsame :=
      (h.feeds hstep).consumer.resolve_right fun hnew => nomatch hfinished.symm.trans hnew.1
    exact hsame.trans hfinished
  | starts hstep hfresh => exact nomatch hfinished.symm.trans hfresh
  | consumer code s hstep =>
    exact absurd (.mk code s hstep) (not_acts_of_finished hfinished)

/-- A consumer whose channel has been closed ends, if it is scheduled at all, and stays so: whatever
the loop thread does meanwhile, `join` returns. -/
theorem consumer_ends (b : Backend) (config : ServerConfig) (run : Behaviour (Step b config))
    (hstart : Reaches b config (run.state 0)) (hfair : run.Fair (Acts b)) (i : ℕ)
    (hclosed : (run.state i).loop.world.channel.closed = true)
    (hstarted : (run.state i).loop.world.consumer ≠ .notStarted) :
    ∃ j ≥ i, ∀ k ≥ j, (run.state k).loop.world.consumer = .finished := by
  have hholds (i : ℕ) : Holds b config (run.state i) :=
    run.always (fun _ _ h hstep => h.step hstep) (Nat.zero_le i) (holds_of_reaches hstart)
  obtain ⟨n, hending⟩ := (hholds i).exists_ending hclosed hstarted
  obtain ⟨j, hj, hfinished⟩ :=
    run.leads hfair (fun _ _ _ h hstep => h.step hstep) (fun _ _ _ h hacts => h.acts hacts)
    (fun _ _ h hrunning => h.exists_acts hrunning) hending
  exact ⟨j, hj, fun k hk => (run.always (fun _ _ => finished_lasts) hk ⟨hholds j, hfinished⟩).2⟩

theorem hangup_alone
    (hrun : Relation.ReflTransGen (loopThread config).Step (Runtime.init config) ⟨none, s, w⟩)
    (hreading : s.uv.reading = true) (hopened : s.uv.handles .tcp = .opened)
    (hup : s.conn.teardownStarted = false) (hconsumer : s.conn.consumerStarted = true) :
    ∃ s', Relation.ReflTransGen (loopThread config).Step (Runtime.init config)
        ⟨none, s', { w with channel := w.channel.close }⟩ ∧ s'.uv.plaintext = s.uv.plaintext ∧
      s'.uv.pushed = s.uv.pushed := by
  have htorn : Runs config 0 (fun _ _ _ => True) Connection.beginTeardown
      (takes .readError s) w () _ _ :=
    exec_beginTeardown (fun _ _ _ _ => trivial) hup hconsumer
  have hfires : (loopThread config).fires .readError s w := ⟨hreading, hopened⟩
  exact ⟨_, hrun.trans (Host.Exec.event hfires (exec_alone htorn)), rfl, rfl⟩

theorem consumer_ends_hangup : ∃ run : Behaviour (Step storing sampleConfig),
    Reaches storing sampleConfig (run.state 0) ∧
    (run.state 0).loop.world.channel.closed = true ∧
    (run.state 0).loop.world.consumer ≠ .notStarted ∧
    ∃ j ≥ 0, ∀ k ≥ j, (run.state k).loop.world.consumer = .finished := by
  obtain ⟨s, hloop, -⟩ :=
    hangup_alone (established_alone sampleConfig (plainRequest_length _) (parse_plainRequest _))
    rfl rfl rfl rfl
  rcases reaches_of_loop storing hloop with ⟨hfresh, -⟩ | ⟨-, _, -, hstart⟩
  · exact absurd hfresh (by rintro ⟨⟩)
  obtain ⟨_, hending⟩ := (holds_of_reaches hstart).exists_ending rfl (by rintro ⟨⟩)
  obtain ⟨t, hrun, -, hfinished⟩ := hending.exists_finished
  obtain ⟨run, n, hzero, hend⟩ := Behaviour.exists_of_run hrun
  have hfair : run.Fair (Acts storing) := by
    intro i hable
    obtain ⟨t', hacts⟩ := hable (max i n) (le_max_left i n)
    rw [hend _ (le_max_right i n)] at hacts
    exact absurd hacts (not_acts_of_finished hfinished)
  rw [← hzero] at hstart
  have hclosed : (run.state 0).loop.world.channel.closed = true := by rw [hzero]; rfl
  have hstarted : (run.state 0).loop.world.consumer ≠ .notStarted := by rw [hzero]; rintro ⟨⟩
  exact ⟨run, hstart, hclosed, hstarted,
    consumer_ends storing sampleConfig run hstart hfair 0 hclosed hstarted⟩

end Threads
end Dicker.Server
