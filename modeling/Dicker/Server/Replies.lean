import Dicker.Server.Threads

/-! The replies of the consumer thread over whole runs. `Connection::post` appends to the outbox and
wakes the loop, `on_outbox_async` empties it and hands what was in it to the transport. In any order
of the steps of the two threads the peer is handed what was posted, in order and each byte once. -/

namespace Dicker.Server.Threads
open Lib Host Dicker.Server.Runtime Dicker.Server.Outbox

/-! ## Both threads -/

def postedBy : Op → Bytes
  | .event (.post data) => data
  | _ => []

def posted (log : Log) : Bytes := emitted postedBy log

theorem posted_append (log log' : Log) : posted (log ++ log') = posted log ++ posted log' :=
  emitted_append postedBy log log'

theorem posted_did (log : Log) (op : Op) (a : op.Ans) :
    posted (log ++ [.did op a]) = posted log ++ postedBy op := by
  rw [posted_append]
  exact congrArg (posted log ++ ·) (List.append_nil _)

theorem posted_got (log : Log) (bytes : Bytes) : posted (log ++ [.got bytes]) = posted log := by
  rw [posted_append]
  exact List.append_nil _

variable {b : Backend} {config : ServerConfig} {s s' : LoopState} {w w' : World} {p p' : b.Thread}

theorem ran_outbox (w : World) (r : Reader) :
    (w.ran r).outbox = w.outbox ∧ (w.ran r).outboxPending = w.outboxPending := by
  unfold World.ran
  dsimp only
  split_ifs <;> exact ⟨rfl, rfl⟩

def Woken (c : LoopRun) : Prop :=
  c.world.outbox ≠ [] → c.world.outboxPending = true ∨ ∃ k, c.code = some (.call .takeOutbox k)

theorem posts_of_consumes (hstep : b.Consumes w p w' p') :
    ∃ data, w'.outbox = w.outbox ++ data ∧ posted p'.log = posted p.log ++ data ∧
      (w'.outboxPending = true ∨ (data = [] ∧ w'.outboxPending = w.outboxPending)) := by
  have hnothing {w' : World} {log' : Log}
      (houtbox : w'.outbox = w.outbox ∧ w'.outboxPending = w.outboxPending)
      (hlog : posted log' = posted p.log) :
      ∃ data, w'.outbox = w.outbox ++ data ∧ posted log' = posted p.log ++ data ∧
        (w'.outboxPending = true ∨ (data = [] ∧ w'.outboxPending = w.outboxPending)) :=
    ⟨[], by rw [houtbox.1, List.append_nil], by rw [hlog, List.append_nil], .inr ⟨rfl, houtbox.2⟩⟩
  cases hstep with
  | resume | read | finish => exact hnothing ⟨rfl, rfl⟩ rfl
  | waits r | fails r => exact hnothing (ran_outbox w r) rfl
  | returns r count k env log hw hran => exact hnothing (ran_outbox w r) (posted_got log _)
  | call lastRead op k env log hw =>
    have hsilent (hop : postedBy op = []) : posted (log ++ [.did op (b.handle op env).1]) =
        posted log := by
      rw [posted_did, hop, List.append_nil]
    cases op with
    | query q => exact hnothing ⟨rfl, rfl⟩ (hsilent rfl)
    | event e =>
      cases e with
      | post data => exact ⟨data, rfl, posted_did log _ _, .inl rfl⟩
      | _ => exact hnothing ⟨rfl, rfl⟩ (hsilent rfl)

section
variable {c c' : LoopRun} {l τ : History}

theorem outbox_of_emits (hs : (loopThread config).Emits c l c') :
    (c'.world.outbox = c.world.outbox ∧ l.flatMap takenBy = [] ∧
      (∀ k, c.code ≠ some (.call .takeOutbox k)) ∧
      (c'.world.outboxPending = c.world.outboxPending ∨
        ∃ k, c'.code = some (.call .takeOutbox k))) ∨
    (c'.world.outbox = [] ∧ l = [.answer .takeOutbox c.world.outbox]) := by
  cases hs with
  | start e hfires =>
    cases e with
    | outbox => exact .inl ⟨rfl, rfl, by rintro k ⟨⟩, .inr ⟨_, rfl⟩⟩
    | _ => exact .inl ⟨rfl, rfl, by rintro k ⟨⟩, .inl rfl⟩
  | get | set | finish => exact .inl ⟨rfl, rfl, by rintro k ⟨⟩, .inl rfl⟩
  | other code s hother => exact hother.elim
  | @call op k s w a hallowed =>
    cases op with
    | takeOutbox =>
      obtain rfl : a = w.outbox := hallowed
      exact .inr ⟨rfl, rfl⟩
    | _ => exact .inl ⟨rfl, rfl, by rintro k ⟨⟩, .inl rfl⟩

theorem taken_of_emits (hs : (loopThread config).Emits c l c') (hstarted : τ.any startSeen = true) :
    (τ ++ l).any startSeen = true ∧ taken (τ ++ l) ++ c'.world.outbox = taken τ ++
      c.world.outbox := by
  refine ⟨by rw [List.any_append, hstarted, Bool.true_or], ?_⟩
  rw [taken, since_append_of_any hstarted, List.append_assoc]
  refine congrArg (taken τ ++ ·) ?_
  rcases outbox_of_emits hs with ⟨hsame, hnone, -⟩ | ⟨hempty, rfl⟩
  · rw [hsame, hnone, List.nil_append]
  · rw [hempty, List.append_nil]
    exact List.append_nil _

theorem woken_of_emits (hs : (loopThread config).Emits c l c') (h : Woken c) : Woken c' := by
  intro hne
  rcases outbox_of_emits hs with ⟨hsame, -, hcode, hpending⟩ | ⟨hempty, -⟩
  · have hwoken : c.world.outboxPending = true :=
      (h (hsame ▸ hne)).resolve_right fun ⟨k, hk⟩ => hcode k hk
    exact hpending.imp_left fun hp => hp.trans hwoken
  · exact absurd hempty hne

theorem unposted_of_emits (hs : (loopThread config).Emits c l c') (hempty : c.world.outbox = []) :
    c'.world.outbox = [] := by
  rcases outbox_of_emits hs with ⟨hsame, -⟩ | ⟨hnone, -⟩
  · exact hsame.trans hempty
  · exact hnone

theorem start_of_emits (hs : (loopThread config).Emits c l c')
    (hfresh : c.world.consumer = .notStarted) :
    (c'.world.consumer = .notStarted ∧ l.any startSeen = false) ∨
      (c'.world.consumer ≠ .notStarted ∧ l = [.answer .startConsumer ()]) := by
  cases hs with
  | start e hfires => cases e <;> exact .inl ⟨hfresh, rfl⟩
  | get | set | finish => exact .inl ⟨hfresh, rfl⟩
  | other code s hother => exact hother.elim
  | @call op k s w a hallowed =>
    cases op with
    | startConsumer => exact .inr ⟨ConsumerThread.noConfusion, rfl⟩
    | _ => exact .inl ⟨hfresh, rfl⟩

end

structure Balanced (b : Backend) (config : ServerConfig) (t : Threads b) (τ : History) : Prop where
  run : ∃ n, (host config n).Run (Runtime.init config) τ t.loop
  absent : t.consumer = none → τ.any startSeen = false ∧ t.loop.world.outbox = []
  present : ∀ p, t.consumer = some p → τ.any startSeen = true ∧
    taken τ ++ t.loop.world.outbox = posted p.log
  woken : Woken t.loop

section
variable {code : Option (LoopM Unit)}

theorem run_of_consumes {n : ℕ} {c : LoopRun} {τ : History} (hstep : b.Consumes w p w' p')
    (hrun : (host config n).Run c τ ⟨code, s, w⟩) : ∃ m, (host config m).Run c τ ⟨code, s, w'⟩ := by
  rcases consumerStep_of_consumes hstep with rfl | ⟨m, hconsumer⟩
  · exact ⟨n, hrun⟩
  · have hnext :=
      (run_mono (le_max_left n m) hrun).tail (.other code s (hconsumer.mono (le_max_right n m)))
    rw [List.append_nil] at hnext
    exact ⟨_, hnext⟩

theorem woken_of_consumes (hstep : b.Consumes w p w' p') (h : Woken ⟨code, s, w⟩) :
    Woken ⟨code, s, w'⟩ := by
  intro hne
  obtain ⟨data, houtbox, -, hwoken | ⟨rfl, hsame⟩⟩ := posts_of_consumes hstep
  · exact .inl hwoken
  · rw [List.append_nil] at houtbox
    exact (h (houtbox ▸ hne)).imp_left hsame.trans

end

theorem Balanced.step {t t' : Threads b} {τ : History} (hholds : Holds b config t)
    (h : Balanced b config t τ) (hstep : Step b config t t') : ∃ τ', Balanced b config t' τ' := by
  obtain ⟨n, hrun⟩ := h.run
  cases hstep with
  | loop consumer hstep hold =>
    obtain ⟨l, hs⟩ := hstep.emits
    refine ⟨τ ++ l, ⟨n, hrun.tail (emits_of_loopThread hs)⟩, fun hnone => ?_, fun p hp => ?_,
      woken_of_emits hs h.woken⟩
    · obtain ⟨hun, hempty⟩ := h.absent hnone
      have hfresh := (hholds.absent hnone).1
      rcases start_of_emits hs hfresh with ⟨-, hl⟩ | ⟨hnew, -⟩
      · exact ⟨by rw [List.any_append, hun, hl]; rfl, unposted_of_emits hs hempty⟩
      · exact absurd (hold hfresh) hnew
    · obtain ⟨hstarted, hall⟩ := h.present p hp
      obtain ⟨hstarted', hsame⟩ := taken_of_emits hs hstarted
      exact ⟨hstarted', hsame.trans hall⟩
  | starts hstep hfresh hstarted =>
    obtain ⟨l, hs⟩ := hstep.emits
    obtain ⟨hun, hempty⟩ := h.absent rfl
    refine ⟨τ ++ l, ⟨n, hrun.tail (emits_of_loopThread hs)⟩,
      fun hnone => absurd hnone (Option.some_ne_none _), fun p hp => ?_, woken_of_emits hs h.woken⟩
    rcases start_of_emits hs hfresh with ⟨hno, -⟩ | ⟨-, rfl⟩
    · exact absurd hno hstarted
    · cases hp
      refine ⟨by rw [any_append_singleton]; exact Bool.or_true _, ?_⟩
      rw [taken, since_append, hun, unposted_of_emits hs hempty]
      rfl
  | consumer code s hstep =>
    obtain ⟨hstarted, hall⟩ := h.present _ rfl
    obtain ⟨data, houtbox, hposted, -⟩ := posts_of_consumes hstep
    refine ⟨τ, run_of_consumes hstep hrun, fun hnone => absurd hnone (Option.some_ne_none _),
      fun p hp => ?_, woken_of_consumes hstep h.woken⟩
    cases hp
    refine ⟨hstarted, ?_⟩
    rw [hposted, houtbox, ← hall, List.append_assoc]

theorem exists_balanced {t : Threads b} (ht : Reaches b config t) : ∃ τ, Balanced b config t τ := by
  induction ht with
  | refl =>
    refine ⟨[], ⟨0, .refl⟩, fun _ => ⟨rfl, rfl⟩, fun p hp => ?_, fun hne => absurd rfl hne⟩
    cases hp
  | tail hprev hstep ih =>
    obtain ⟨τ, h⟩ := ih
    exact h.step (holds_of_reaches hprev) hstep

/-- In any order of the steps of the two threads, what the transport has been handed since the
consumer was started is the beginning of what the consumer posted, and so of what it would post
alone on the whole stream. Between two callbacks of a connection that is not torn down it is all of
it but what is still in the outbox, and then the loop has been woken. -/
theorem replies_in_order (b : Backend) (config : ServerConfig) (t : Threads b) (p : b.Thread)
    (ht : Reaches b config t) (hp : t.consumer = some p) :
    handed t.loop.own <+: posted p.log ∧
    (t.loop.code = none → t.loop.own.conn.teardownStarted = false →
      handed t.loop.own ++ t.loop.world.outbox = posted p.log ∧
      (t.loop.world.outbox ≠ [] → fires .outbox t.loop.own t.loop.world)) ∧
    ∃ request, parseAndVerifyHandshake config.key t.loop.own.uv.plaintext = .ok request ∧
      ∀ more, (t.loop.world.channel.closed = true → more = []) →
        handed t.loop.own <+: posted (b.sequential (config.modeFor request.version)
          (hasFlag request.flags .integrityChecks) (t.loop.own.uv.pushed ++ more)).trace := by
  obtain ⟨τ, h⟩ := exists_balanced ht
  have hholds := holds_of_reaches ht
  have hserves := hholds.present p hp
  obtain ⟨hstarted, hall⟩ := h.present p hp
  obtain ⟨n, hrun⟩ := h.run
  have horder : handed t.loop.own <+: taken τ := (inOrder_of_run hrun).front
  have hposted : handed t.loop.own <+: posted p.log := by
    rw [← hall]
    exact horder.trans (List.prefix_append _ _)
  refine ⟨hposted, fun hcode htorn => ?_, ?_⟩
  · obtain ⟨tls, hrest⟩ : Between config (view t.loop.own) τ := by
      have hheads := heads_run hrun
      unfold Host.Heads at hheads
      rw [hcode] at hheads
      exact hheads
    obtain ⟨hsignals, hidle⟩ := signals_of_reaches (Host.reaches_iff_run.mpr ⟨τ, hrun⟩)
    refine ⟨?_, fun hne => ⟨?_, ?_⟩⟩
    · have hrelays : Relays config tls [] (view t.loop.own) τ :=
        hrest.resolve_left fun hun => absurd (hun.history.symm.trans hstarted) (by decide)
      rw [← hall, ← hrelays.whole htorn, List.append_nil]
      rfl
    · exact (h.woken hne).resolve_right fun ⟨k, hk⟩ => by cases hcode.symm.trans hk
    · have hclosing : t.loop.own.conn.handlesClosing = false :=
        Bool.eq_false_of_not_eq_true fun hc =>
          absurd (htorn.symm.trans (hsignals.shut hc)) (by decide)
      exact ((hidle hcode).base.handles.opened hclosing).2 .outboxAsync
  · obtain ⟨request, hparsed, hcontinues⟩ := hserves.session
    refine ⟨request, hparsed, fun more hmore => hposted.trans ?_⟩
    obtain ⟨later, hlater⟩ := (hcontinues.logged hserves.placed more hmore).1
    rw [← hlater, posted_append]
    exact List.prefix_append _ _

def filteringConfig : ServerConfig := ⟨[0x6B], 1024, 256, true, false⟩

def oneProbe : Bytes :=
  [Cmd.upload.toByte, UnitType.probe.toByte] ++ writeU64Le 7 ++
    [UnitType.file.toByte, 1, 0, 0x61] ++ List.replicate 32 0

theorem replies_in_order_probe : ∃ t p, Reaches storing filteringConfig t ∧ t.consumer = some p ∧
    posted p.log = ProbeDecision.accept.toByte :: writeU64Le 7 ∧
    handed t.loop.own <+: posted p.log ∧
    handed t.loop.own ++ t.loop.world.outbox = posted p.log ∧
    fires .outbox t.loop.own t.loop.world := by
  let request : Bytes :=
    signed filteringConfig.key (kMagic ++ [2, 0, 0, 1] ++ List.replicate kSessionIdSize 0)
  have hparse (rest : Bytes) : parseAndVerifyHandshake filteringConfig.key (request ++ rest) =
      .ok ⟨2, 0, .lz4, List.replicate kSessionIdSize 0⟩ :=
    parse_signed filteringConfig.key rest rfl rfl ⟨by decide, by decide⟩ rfl (.inl rfl)
  have hne : oneProbe ≠ [] := List.cons_ne_nil _ _
  obtain ⟨s, hloop, hplaintext, -, -, -, hup, -⟩ :=
    delivered_alone filteringConfig (signed_length _ rfl)
    ((congrArg _ (List.append_nil request).symm).trans (hparse [])) hne (by decide)
  rcases reaches_of_loop storing hloop with ⟨hfresh, -⟩ | ⟨-, found, hfound, hstart⟩
  · exact absurd hfresh (by rintro ⟨⟩)
  change parseAndVerifyHandshake filteringConfig.key s.uv.plaintext = .ok found at hfound
  rw [hplaintext, hparse] at hfound
  cases hfound
  have h₁ := hstart.tail (.consumer none s (.read _ true 1 _ _ _ rfl))
  have h₂ := h₁.tail (.consumer none s (.returns _ (.start 1) 1 _ _ _ rfl rfl))
  have h₃ := h₂.tail (.consumer none s (.resume _ true _ _ _ rfl))
  have h₄ := h₃.tail (.consumer none s (.read _ true 1 _ _ _ rfl))
  have h₅ := h₄.tail (.consumer none s (.returns _ (.start 1) 1 _ _ _ rfl rfl))
  have h₆ := h₅.tail (.consumer none s (.read _ true 11 _ _ _ rfl))
  have h₇ := h₆.tail (.consumer none s (.returns _ (.start 11) 11 _ _ _ rfl rfl))
  have h₈ := h₇.tail (.consumer none s (.read _ true 1 _ _ _ rfl))
  have h₉ := h₈.tail (.consumer none s (.returns _ (.start 1) 1 _ _ _ rfl rfl))
  have h₁₀ := h₉.tail (.consumer none s (.read _ true 32 _ _ _ rfl))
  have h₁₁ := h₁₀.tail (.consumer none s (.returns _ (.start 32) 32 _ _ _ rfl rfl))
  have h₁₂ := h₁₁.tail (.consumer none s (.call _ true _ _ _ _ rfl))
  have h₁₃ := h₁₂.tail (.consumer none s (.call _ true _ _ _ _ rfl))
  obtain ⟨hfront, hbetween, -⟩ := replies_in_order _ _ _ _ h₁₃ rfl
  obtain ⟨hall, hwoken⟩ := hbetween rfl hup
  exact ⟨_, _, h₁₃, rfl, rfl, hfront, hall, hwoken (List.cons_ne_nil _ _)⟩

end Dicker.Server.Threads
