import Dicker.Server.DownloadOrder
import Dicker.Server.Outbox

/-! The loop thread over whole runs: at any moment it has handed over a part of what it took out of
the outbox, and a consumer that has been started has been started on what the request says. -/

namespace Dicker.Server.Outbox
open Lib Host Connection Dicker.Server.Runtime

/-! ## The callbacks -/

section
variable {config : ServerConfig} {n : ℕ} {tls : Bool} {s : LoopState} {w : World}
  {v : View} {τ : History}

theorem view_takes (e : Callback) (s : LoopState) : view (takes e s) = view s := by
  cases e <;> rfl

theorem Unstarted.event (h : Unstarted tls [] v τ) (e : Callback) :
    Unstarted tls [] v (τ ++ [.event e]) := by
  have hreplied : takenReplies (τ ++ [.event e]) = takenReplies τ :=
    (takenReplies_append (.event e) h.history rfl).trans (List.append_nil _)
  refine { h with history := ?_, replied := hreplied ▸ h.replied }
  rw [any_append_singleton, h.history]
  rfl

theorem Relays.event (h : Relays config tls [] v τ) (e : Callback) :
    Relays config tls [] v (τ ++ [.event e]) := by
  have htaken : taken (τ ++ [.event e]) = taken τ := since_append_of_nil rfl
  refine { h with history := ?_, front := ?_, whole := ?_, replied := ?_ }
  · rw [any_append_singleton, h.history, Bool.true_or]
  · rw [htaken]
    exact h.front
  · rw [htaken]
    exact h.whole
  · rw [takenReplies_started _ (by rw [h.history, Bool.true_or])]
    exact h.replied

theorem Rest.event (h : Rest config tls v τ) (e : Callback) : Rest config tls v (τ ++ [.event e]) :=
  h.imp (fun h => h.event e) fun h => h.event e

theorem keeps_pumpDownload : Keeps config n (Rest config tls) pumpDownload := by
  refine leads_looks fun s => ?_
  cases hsteps : s.conn.download with
  | none => exact still_rest.beginTeardown.mono (fun _ _ h => h.1) fun _ _ _ => id
  | some steps =>
    rintro t τ ⟨h, ht⟩
    have hsome : (view t).download ≠ false := by
      rw [ht, view, hsteps]
      exact Bool.noConfusion
    have hun : Unstarted tls [] (view t) τ := h.resolve_right fun hr => hsome hr.download
    have hhttp : (view t).http = true :=
      Bool.eq_true_of_not_eq_false fun hno => hsome (hun.download hno)
    exact always_mono (http_sending.pumpArchive steps t τ ⟨hun, hhttp, rfl⟩) fun _ _ _ hc =>
      .inl hc.toUnstarted

theorem keeps_onWrite (failed : Bool) (callback : WriteCallback) :
    Keeps config n (Rest config tls) (onWrite failed callback) := by
  have hdown : Keeps config n (Rest config tls) beginTeardown := still_rest.beginTeardown
  cases callback with
  | reply teardownAfter => exact .ite (fun _ => hdown) fun _ => keeps_ret ()
  | tls teardownAfter => exact .ite (fun _ => hdown) fun _ => keeps_ret ()
  | download => exact leads_ignores fun c => .ite (fun _ => hdown) fun _ => keeps_pumpDownload

theorem handled {e : Callback} (h : Between config (view s) τ)
    (hsignal : e = .outbox → s.uv.log.any isStart = true) :
    (host config n).always (fun s τ => InOrder config (view s) τ) (handler config e)
      (fun _ s τ => Between config (view s) τ) (takes e s) (τ ++ [.event e]) := by
  obtain ⟨tls, h⟩ := h
  rw [← view_takes e s] at h
  cases e with
  | read data answers => exact keeps_handleRaw data answers _ _ ⟨tls, h.event _⟩
  | readError => exact leads_between still_rest.beginTeardown _ _ (h.event _)
  | written request failed =>
    exact leads_between (keeps_onWrite failed request.callback) _ _ (h.event _)
  | resume => exact leads_between still_rest.onResumeAsync _ _ (h.event _)
  | close => exact leads_between still_rest.onCloseAsync _ _ (h.event _)
  | outbox =>
    have hrelays : Relays config tls [] (view s) τ :=
      h.resolve_left fun hun => absurd (hun.log.symm.trans (hsignal rfl)) (by decide)
    exact leads_between leads_onOutboxAsync _ _ (hrelays.event .outbox)
  | handleClosed handle => exact leads_between still_rest.onHandleClosed _ _ (h.event _)

end

/-! ## Whole runs -/

section
variable {config : ServerConfig} {maxRead : ℕ} {s s' : LoopState} {w w' : World} {τ : History}
  {c : LoopRun}

structure Signals (s : LoopState) (w : World) : Prop extends Handover.Unsignalled s w where
  shut : s.conn.handlesClosing = true → s.conn.teardownStarted = true

theorem shut_keeps (hm : Move config free s w s' w')
    (h : s.conn.handlesClosing = true → s.conn.teardownStarted = true) :
    s'.conn.handlesClosing = true → s'.conn.teardownStarted = true := by
  cases hm with
  | closing hc =>
    cases hc with
    | finalizes _ hteardown => exact fun _ => hteardown
    | counts | plain | closes => exact h
  | marks => exact fun _ => rfl
  | _ => exact h

theorem signals_of_reaches (hc : Reaches config maxRead (init config) c) :
    Signals c.own c.world ∧ (c.code = none → Idle config c.own) := by
  have hall := holds_of_reaches (A := Signals)
    (fun s w s' w' hm _ h => ⟨Handover.unsignalled_keeps hm h.toUnsignalled, shut_keeps hm h.shut⟩)
    (fun s w w' hstarted h hstep =>
      ⟨Handover.unsignalled_stable hstarted h.toUnsignalled hstep, h.shut⟩)
    (fun e s w _ h _ => ?_) ?_ hc
  · exact ⟨hall.1.2, hall.2⟩
  · cases e with
    | outbox => exact ⟨⟨h.started, fun _ => rfl⟩, h.shut⟩
    | _ => exact ⟨⟨h.started, h.outbox⟩, h.shut⟩
  · exact ⟨⟨fun hmem => absurd hmem List.not_mem_nil, fun _ => rfl⟩, Bool.noConfusion⟩

theorem any_isStart_of_mem {log : List LoopOp} (h : .startConsumer ∈ log) :
    log.any isStart = true :=
  List.any_eq_true.mpr ⟨_, h, rfl⟩

theorem Signals.start (h : Signals s w) (hpending : w.outboxPending = true) :
    s.uv.log.any isStart = true := by
  refine any_isStart_of_mem ?_
  by_contra hno
  exact absurd ((h.outbox hno).symm.trans hpending) (by decide)

theorem keeps_accept {talk : Talk} : Keeps config maxRead (Chosen false false talk) accept := by
  refine (still_chosen.op .uvAccept trivial).bind fun ok =>
    .ite (fun _ => still_chosen.beginTeardown) ?_
  exact fun _ => still_chosen.op .readStart trivial

theorem heads_run (hrun : (host config maxRead).Run (init config) τ c) : (host config maxRead).Heads
    (fun s τ => InOrder config (view s) τ) (fun s τ => Between config (view s) τ) c τ := by
  have hfresh : Chosen false false (view ⟨.fresh, freshUv⟩).talk (view ⟨.fresh, freshUv⟩) [] :=
    ⟨⟨rfl, rfl, rfl, fun _ => rfl, fun _ => rfl, fun _ => rfl, fun _ _ => rfl, Bool.noConfusion⟩,
      rfl, rfl⟩
  have hinit : (host config maxRead).Heads (fun s τ => InOrder config (view s) τ)
      (fun s τ => Between config (view s) τ) (init config) [] :=
    ⟨hfresh.inOrder, always_mono (keeps_accept _ _ hfresh) fun _ _ _ h =>
      ⟨false, .inl h.toUnstarted⟩⟩
  refine hrun.heads hinit fun τ e s w hreached h hfires => ⟨?_, handled h ?_⟩
  · obtain ⟨tls, hrest⟩ := h
    rw [← view_takes e s] at hrest
    exact (hrest.event e).inOrder
  · rintro rfl
    exact (signals_of_reaches (reaches_iff_run.mpr ⟨τ, hreached⟩)).1.start hfires.1

theorem between_of_run (hrun : (host config maxRead).Run (init config) τ c)
    (hcode : c.code = none) :
    Between config (view c.own) τ := by
  have h := heads_run hrun
  unfold Heads at h
  rwa [hcode] at h

theorem replies_of_run (hrun : (host config maxRead).Run (init config) τ c) (hcode : c.code = none)
    (hspeaks : c.own.uv.plaintext.take kMagic.length <+: kMagic) :
    sentReplies c.own = c.own.uv.replies.map Prod.snd ∧
      (c.own.conn.teardownStarted = false → takenReplies τ = sentReplies c.own) := by
  have hall : (view c.own).sent = (view c.own).replies ∧
      ((view c.own).torn = false → takenReplies τ = (view c.own).replies) := by
    obtain ⟨tls, h | h⟩ := between_of_run hrun hcode
    · have hhttp := Bool.eq_false_of_not_eq_true fun hhttp => h.speaks hhttp hspeaks
      exact ⟨h.sent hhttp, h.replied hhttp⟩
    · exact ⟨h.sent, h.replied⟩
  exact ⟨hall.1, fun hup => (hall.2 hup).trans hall.1.symm⟩

theorem inOrder_of_run (hrun : (host config maxRead).Run (init config) τ c) :
    InOrder config (view c.own) τ := (heads_run hrun).holds fun _ _ ⟨_, hrest⟩ => hrest.inOrder

end

end Dicker.Server.Outbox

namespace Dicker.Server

theorem ConsumerStep.mono {n m : ℕ} (hle : n ≤ m) {w w' : World} (h : ConsumerStep n w w') :
    ConsumerStep m w w' := by
  cases h with
  | call lastRead count hw hcount => exact .call w lastRead count hw (hcount.trans hle)
  | run r hw => exact .run w r hw
  | post lastRead data hw => exact .post w lastRead data hw
  | finish lastRead hw => exact .finish w lastRead hw

namespace Runtime
open Lib Host

/-! ## The loop thread by itself -/

variable {config : ServerConfig} {n m : ℕ} {c c' : LoopRun}

variable (config) in
def loopThread : LoopHost :=
  { host config 0 with others := fun _ _ => False }

theorem emits_of_loopThread {l : Outbox.History} (hs : (loopThread config).Emits c l c') :
    (host config n).Emits c l c' := hs.relax fun _ _ => False.elim

theorem step_of_loopThread (hstep : (loopThread config).Step c c') : (host config n).Step c c' := by
  obtain ⟨l, hs⟩ := hstep.emits
  exact (emits_of_loopThread hs).step

inductive LoopStep (config : ServerConfig) (s : LoopState) (w : World) : LoopState → World → Prop
  | callback (e : Callback) : LoopStep config s w (takes e s) (clears e w)
  | unseen : LoopStep config s w s w
  | move {s' : LoopState} {w' : World} (hmove : Move config free s w s' w') :
      LoopStep config s w s' w'

theorem loopStep_of_reaches (hc : Reaches config n (init config) c)
    (hstep : (loopThread config).Step c c') : LoopStep config c.own c.world c'.own c'.world := by
  have hproceeds := (started_invariant config n).proceeds (started_fresh config) hc.restrict
  cases hstep with
  | start e _ => exact .callback e
  | get | finish => exact .unseen
  | set k s s' w =>
    obtain ⟨A', -, -, hA, hvc⟩ := hproceeds
    exact .move (hvc.1 _ hA).1
  | call op k hallowed =>
    obtain ⟨A', -, -, hA, hvc⟩ := hproceeds
    exact .move (hvc _ _ hA ⟨hallowed, trivial⟩).1.1
  | other code s hother => exact hother.elim

theorem run_mono (hle : n ≤ m) {τ : Outbox.History} (hrun : (host config n).Run c τ c') :
    (host config m).Run c τ c' := hrun.relax fun _ _ => ConsumerStep.mono hle

end Runtime
end Dicker.Server
