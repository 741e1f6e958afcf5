import Dicker.Server.LoopInvariant

/-! From callbacks to runs: what an assertion must be kept by so that it holds at every
moment of every run of a connection. -/

namespace Dicker.Server
namespace Runtime
open Lib Host Connection

variable {config : ServerConfig} {maxRead : ℕ} {cond : LoopCond}
  {G : Granted} {A : LoopState → World → Prop}

structure Idle (config : ServerConfig) (s : LoopState) : Prop where
  base : Base config s
  wire : Wire s
  /-- the callback of `resume_async_` has resumed -/
  resumed : s.uv.resuming = true → s.conn.state = .streaming → s.conn.paused = false

/-! ## One callback -/

variable {s : LoopState} {w w' : World} {c : LoopRun}

section
variable (hkeeps : Keeps (Move config G) A)
  (hstable : ∀ s, (hostIf config maxRead cond).Stable (A s))
include hkeeps hstable

theorem handles_of_ensures {p : LoopM Unit} (hAw : A s w) (hresuming : s.uv.resuming = false)
    (hp : ∀ A', Keeps (Move config G) A' →
      Ensures config maxRead cond G A' p (fun _ s' => Base config s' ∧ Wire s') s) :
    (hostIf config maxRead cond).Handles (Move config G) A (Idle config) p s w := by
  have hkeeps' : Keeps (Move config G) fun s w => A s w ∧ s.uv.resuming = false :=
    fun _ _ _ _ hm h => ⟨hkeeps hm h.1, hm.resuming.trans h.2⟩
  refine ⟨_, fun _ _ h => h.1, fun t w w' h hother => ⟨hstable t h.1 hother, h.2⟩, ⟨hAw, hresuming⟩,
    vc_mono (hp _ hkeeps') fun _ s' h w hA => ⟨h.1, h.2, fun ht => ?_⟩⟩
  exact absurd (hA.2.symm.trans ht) Bool.false_ne_true

theorem handles_accept (hinit : A ⟨.fresh, freshUv⟩ (freshWorld config)) :
    (hostIf config maxRead cond).Handles (Move config G) A (Idle config) accept ⟨.fresh, freshUv⟩
      (freshWorld config) := by
  have hfresh : Base config ⟨.fresh, freshUv⟩ := by
    have hnone : ∀ {r : HandshakeStatus × Bytes}, r ∉ freshUv.replies := List.not_mem_nil
    refine ⟨⟨fun _ => ⟨rfl, fun _ => rfl⟩, nofun⟩, fun _ => List.not_mem_nil,
      ⟨fun _ => ⟨rfl, rfl⟩, Nat.zero_le _, fun _ hr => absurd hr hnone,
        fun _ hr => absurd hr hnone⟩,
      fun _ => ⟨⟨rfl, rfl, rfl, rfl, rfl, rfl, rfl, List.not_mem_nil, nofun⟩,
        fun _ hsize => absurd hsize (by decide)⟩,
      nofun, nofun, nofun, nofun, nofun, List.nil_prefix, nofun⟩
  have hwire : Wire ⟨.fresh, freshUv⟩ := ⟨fun _ => rfl, nofun, fun _ => ⟨rfl, fun _ => rfl⟩⟩
  refine handles_of_ensures hkeeps hstable hinit rfl fun A' hA => ?_
  exact vc_mono (accept_vc hA rfl) fun _ _ h => ⟨hfresh.sends h, hwire.sends h⟩

theorem handles_event {e : Callback} (hs : Idle config s) (hfires : fires e s w)
    (hAe : A (takes e s) (clears e w)) (hended : e = .close → w.consumer = .finished)
    (hread : ∀ data answers, e = .read data answers →
      (∀ A', Keeps (Move config G) A' → Grants config maxRead cond G A') ∧
      ∀ n ≤ s.uv.plaintext.length + rawSize data answers s.conn, G.limit n) :
    (hostIf config maxRead cond).Handles (Move config G) A (Idle config) (handler config e)
      (takes e s) (clears e w) := by
  obtain ⟨hb, hw, _⟩ := hs
  have hsends : ∀ {A' : LoopState → World → Prop} {p : LoopM Unit} {t : LoopState},
      Sending config maxRead cond G A' p → Base config t → Wire t →
      Ensures config maxRead cond G A' p (fun _ s' => Base config s' ∧ Wire s') t :=
    fun hp hb hw => vc_mono (hp _) fun _ _ h => ⟨hb.sends h, hw.sends h⟩
  have hwire : ∀ reading writes resuming, Wire { s with uv := { s.uv with
      reading := reading
      writes := writes
      look := .untouched
      resuming := resuming } } := fun _ _ _ => ⟨hw.plain, hw.tls, hw.undetected⟩
  cases e with
  | read data answers =>
    obtain ⟨hgrants, hlimit⟩ := hread data answers rfl
    exact handles_of_ensures hkeeps hstable hAe rfl fun A' hA =>
      handleRaw_vc hA (hgrants A' hA) data answers hb hw hlimit
  | readError =>
    exact handles_of_ensures hkeeps hstable hAe rfl fun A' hA =>
      hsends (.teardown hA) (hb.refresh _ _ _ _ _ _) (hwire _ _ _)
  | written request failed =>
    exact handles_of_ensures hkeeps hstable hAe rfl fun A' hA =>
      hsends ((Sending.kind hA).onWrite failed request.callback)
        (hb.refresh _ _ _ _ _ _) (hwire _ _ _)
  | resume =>
    refine ⟨A, fun _ _ => id, hstable, hAe,
      vc_mono (onResumeAsync_vc hkeeps (hb.refresh _ _ _ _ _ _) (hwire _ _ _) rfl rfl) ?_⟩
    exact fun _ s' h _ _ => ⟨h.1.1, h.1.2, fun _ => h.2⟩
  | close =>
    have hkeeps' : Keeps (Move config G) fun s w => A s w ∧ s.uv.resuming = false :=
      fun _ _ _ _ hm h => ⟨hkeeps hm h.1, hm.resuming.trans h.2⟩
    refine ⟨_, fun _ _ h => h.1.1, fun t w w' h hother => ⟨⟨hstable t h.1.1 hother, h.1.2⟩, ?_⟩,
      ⟨⟨hAe, rfl⟩, hended rfl⟩,
      vc_mono (onCloseAsync_vc hkeeps' (hb.refresh _ _ _ _ _ _) (hwire _ _ _)) ?_⟩
    · exact fun _ s' h w hA =>
        ⟨h.1, h.2, fun ht => absurd (hA.1.2.symm.trans ht) Bool.false_ne_true⟩
    · have hfinished := h.2
      cases hother with
      | call _ _ hw _ => exact nomatch hfinished.symm.trans hw
      | run _ hw => exact nomatch hfinished.symm.trans hw
      | post _ _ hw => exact nomatch hfinished.symm.trans hw
      | finish => rfl
  | outbox =>
    exact handles_of_ensures hkeeps hstable hAe rfl fun A' hA =>
      hsends ((Sending.kind hA).wire.onOutboxAsync) (hb.refresh _ _ _ _ _ _) (hwire _ _ _)
  | handleClosed handle =>
    exact handles_of_ensures hkeeps hstable hAe rfl fun A' hA => onHandleClosed_vc hA hb hw hfires.1

end

/-! ## Runs -/

variable (config maxRead cond G A) in
structure Invariant : Prop where
  keeps : Keeps (Move config G) A
  grants : ∀ A', Keeps (Move config G) A' → Grants config maxRead cond G A'
  limit : ∀ n, G.limit n
  stable : ∀ s, (hostIf config maxRead cond).Stable (A s)
  ended : ∀ s w, A s w → w.closePending = true → w.consumer = .finished
  starts : ∀ e s w, Idle config s → A s w → fires e s w → A (takes e s) (clears e w)

theorem Invariant.event (hinv : Invariant config maxRead cond G A) (e : Callback) (s : LoopState)
    (w : World) (hs : Idle config s) (hAw : A s w) (hfires : fires e s w) :
    (hostIf config maxRead cond).Handles (Move config G) A (Idle config) (handler config e)
      (takes e s) (clears e w) := by
  refine handles_event hinv.keeps hinv.stable hs hfires (hinv.starts e s w hs hAw hfires) ?_
    fun _ _ _ => ⟨hinv.grants, fun n _ => hinv.limit n⟩
  rintro rfl
  exact hinv.ended s w hAw hfires.1

theorem Invariant.proceeds (hinv : Invariant config maxRead cond G A)
    (hinit : A ⟨.fresh, freshUv⟩ (freshWorld config))
    (hc : Relation.ReflTransGen (hostIf config maxRead cond).Step (init config) c) :
    (hostIf config maxRead cond).Proceeds (Move config G) A (Idle config) c := by
  have hstart : (hostIf config maxRead cond).Proceeds (Move config G) A
      (Idle config) (init config) :=
    handles_accept hinv.keeps hinv.stable hinit
  exact hstart.reaches hinv.stable hinv.event hc

/-! ## The consumer thread -/

structure Started (s : LoopState) (w : World) : Prop where
  unstarted : .startConsumer ∉ s.uv.log → w.consumer = .notStarted ∧ w.closePending = false
  ended : w.closePending = true → w.consumer = .finished

theorem Started.logged (h : Started s w) {c : Connection} {u : Uv} {op : LoopOp}
    (hlog : u.log = s.uv.log ++ [op]) (hconsumer : w'.consumer = w.consumer)
    (hpending : w'.closePending = w.closePending) : Started ⟨c, u⟩ w' where
  unstarted hu := by
    rw [hconsumer, hpending]
    exact h.unstarted fun hmem => hu (by rw [hlog]; exact List.mem_append_left _ hmem)
  ended := by
    rw [hpending, hconsumer]
    exact h.ended

theorem Started.assigned (h : Started s w) {c : Connection} {u : Uv} (hlog : u.log = s.uv.log) :
    Started ⟨c, u⟩ w := ⟨hlog ▸ h.unstarted, h.ended⟩

theorem started_keeps (config : ServerConfig) (G : Granted) : Keeps (Move config G) Started := by
  intro s w s' w' hm h
  cases hm with
  | closing hc =>
    cases hc with
    | counts | finalizes => exact h.assigned rfl
    | plain op a hop =>
      cases op with
      | startConsumer => exact hop.elim
      | _ => exact h.logged rfl rfl rfl
    | closes => exact h.logged rfl rfl rfl
  | quiet | marks | detects | receives | buffers | replies | agrees | names | streams | starts
  | pauses | resumes => exact h.assigned rfl
  | closesChannel | pushes | records | looks | deletes => exact h.logged rfl rfl rfl
  | startsConsumer _ _ _ _ hlog =>
    refine ⟨fun hu => absurd (List.mem_append_right _ (List.mem_singleton_self _)) hu, fun hp => ?_⟩
    exact absurd ((h.unstarted hlog).2.symm.trans hp) Bool.false_ne_true

theorem World.ran_closePending (w : World) (r : Reader) :
    (w.ran r).closePending = w.closePending := by
  unfold World.ran
  dsimp only
  split_ifs <;> rfl

theorem Started.consumes (h : Started s w) (hstarted : w.consumer ≠ .notStarted)
    (hended : w'.closePending = true → w'.consumer = .finished) :
    Started s w' := ⟨fun hu => absurd (h.unstarted hu).1 hstarted, hended⟩

theorem started_stable (h : Started s w) (hstep : ConsumerStep maxRead w w') : Started s w' := by
  have hpending : w.consumer ≠ .finished → w.closePending = true → w'.consumer = .finished :=
    fun hrunning hp => absurd (h.ended hp) hrunning
  cases hstep with
  | call b count hw => exact h.consumes (by rw [hw]; nofun) (hpending (by rw [hw]; nofun))
  | run r hw =>
    refine h.consumes (by rw [hw]; nofun) ?_
    rw [World.ran_closePending]
    exact hpending (by rw [hw]; nofun)
  | post b data hw => exact h.consumes (by rw [hw]; nofun) (hpending (by rw [hw]; nofun))
  | finish b hw => exact h.consumes (by rw [hw]; nofun) fun _ => rfl

theorem started_starts {e : Callback} (h : Started s w) : Started (takes e s) (clears e w) := by
  cases e with
  | close => exact ⟨fun hu => ⟨(h.unstarted hu).1, rfl⟩, nofun⟩
  | _ => exact ⟨h.unstarted, h.ended⟩

theorem started_fresh (config : ServerConfig) : Started ⟨.fresh, freshUv⟩ (freshWorld config) :=
  ⟨fun _ => ⟨rfl, rfl⟩, nofun⟩

/-! ## All runs -/

def free : Granted := ⟨fun _ => True, True, fun _ => True⟩

theorem holds_of_runs (hgrants : ∀ A', Keeps (Move config G) A' → Grants config maxRead cond G A')
    (hlimit : ∀ n, G.limit n)
    (hkeeps : ∀ ⦃s w s' w'⦄, Move config G s w s' w' → Started s w → A s w → A s' w')
    (hstable : ∀ ⦃s w w'⦄, Started s w → A s w → ConsumerStep maxRead w w' → A s w')
    (hstarts : ∀ e s w, Idle config s → A s w → fires e s w → A (takes e s) (clears e w))
    (hfresh : A ⟨.fresh, freshUv⟩ (freshWorld config))
    (hc : Relation.ReflTransGen (hostIf config maxRead cond).Step (init config) c) :
    (Started c.own c.world ∧ A c.own c.world) ∧ (c.code = none → Idle config c.own) := by
  have hkeeps' : Keeps (Move config G) fun s w => Started s w ∧ A s w :=
    fun s w s' w' hm h => ⟨started_keeps config G hm h.1, hkeeps hm h.1 h.2⟩
  have hinv : Invariant config maxRead cond G fun s w => Started s w ∧ A s w :=
    { keeps := hkeeps'
      grants := hgrants
      limit := hlimit
      stable := fun _ _ _ h hstep => ⟨started_stable h.1 hstep, hstable h.1 h.2 hstep⟩
      ended := fun _ _ h => h.1.ended
      starts := fun e s w hi h hf => ⟨started_starts h.1, hstarts e s w hi h.2 hf⟩ }
  exact (hinv.proceeds ⟨started_fresh config, hfresh⟩ hc).holds

theorem holds_of_reaches
    (hkeeps : ∀ ⦃s w s' w'⦄, Move config free s w s' w' → Started s w → A s w → A s' w')
    (hstable : ∀ ⦃s w w'⦄, Started s w → A s w → ConsumerStep maxRead w w' → A s w')
    (hstarts : ∀ e s w, Idle config s → A s w → fires e s w → A (takes e s) (clears e w))
    (hfresh : A ⟨.fresh, freshUv⟩ (freshWorld config))
    (hc : Reaches config maxRead (init config) c) :
    (Started c.own c.world ∧ A c.own c.world) ∧ (c.code = none → Idle config c.own) :=
  holds_of_runs (fun _ hA => grants_true hA (fun _ => trivial) trivial)
    (fun _ => trivial) hkeeps hstable hstarts hfresh hc.restrict

theorem started_invariant (config : ServerConfig) (maxRead : ℕ) :
    Invariant config maxRead (fun _ _ _ => True) free Started where
  keeps := started_keeps config free
  grants _ hA := grants_true hA (fun _ => trivial) trivial
  limit _ := trivial
  stable _ _ _ h hstep := started_stable h hstep
  ended _ _ h := h.ended
  starts _ _ _ _ h _ := started_starts h

theorem lasts_of_reaches {P : LoopState → World → Prop}
    (hkeeps : ∀ s w s' w', Move config free s w s' w' → P s w → P s' w')
    (hstable : ∀ s w w', P s w → ConsumerStep maxRead w w' → P s w')
    (hstarts : ∀ e s w, P s w → P (takes e s) (clears e w)) {c' : LoopRun}
    (hc : Reaches config maxRead (init config) c) (hr : Reaches config maxRead c c')
    (hP : P c.own c.world) : P c'.own c'.world := by
  have hinv := started_invariant config maxRead
  have hproceeds := hinv.proceeds (started_fresh config) hc.restrict
  exact hproceeds.lasts hinv.stable hinv.event hkeeps (fun s w w' => hstable s w w')
    (fun e s w _ _ _ => hstarts e s w) hr.restrict hP

end Runtime
end Dicker.Server
