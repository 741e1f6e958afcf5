import Dicker.Server.Download
import Dicker.Server.DownloadFlow
import Dicker.Server.HttpDecision
import Dicker.Server.Opening

/-! Downloads over whole runs of a connection: every callback takes a download on by its own steps
or leaves it alone, so what has been handed over is a beginning of the response at every moment. -/

namespace Dicker.Server.Handover
open Lib Host Connection Dicker.Server.Runtime

variable {d : Service} {s : LoopState} {τ : History}

/-! ## The callbacks -/

variable (d) in
def Handled (e : Callback) (s : LoopState) (τ : History) : Prop :=
  InOrder d.full (view (takes e s)) (τ ++ [.event e]) ∧
    Ends d (handler d.config e) (fun _ => Rest d.full d.total) (takes e s) (τ ++ [.event e])

theorem Handled.of_leads {e : Callback} (h : Rest d.full d.total (view s) τ)
    (hview : view (takes e s) = view s) (hno : isCompletion (.event e) = false)
    (hp : Leads d (Rest d.full d.total) (handler d.config e) (Rest d.full d.total)) :
    Handled d e s τ := by
  have hrest : Rest d.full d.total (view (takes e s)) (τ ++ [.event e]) :=
    hview.symm ▸ still_rest.seen hno h
  exact ⟨still_rest.inOrder hrest, hp _ _ hrest⟩

theorem handled_read (h : Rest d.full d.total (view s) τ) (data : Bytes)
    (answers : List SslAnswer) :
    Handled d (.read data answers) s τ := by
  have hrest : Rest d.full d.total (view (takes (.read data answers) s))
      (τ ++ [.event (.read data answers)]) :=
    still_rest.seen rfl h
  refine ⟨still_rest.inOrder hrest, ends_handleRaw hrest data fun hfails => ?_⟩
  exact incomingEnded_last (x := .event (.read data answers)) hfails

theorem handled_readError (h : Rest d.full d.total (view s) τ) : Handled d .readError s τ := by
  have hrest : Rest d.full d.total (view (takes .readError s)) (τ ++ [.event .readError]) :=
    still_rest.seen rfl h
  have hend := leads_settled _ _ ⟨hrest, incomingEnded_last rfl⟩
  exact ⟨still_rest.inOrder hrest, hend.mono fun _ _ _ => .inr⟩

theorem leads_onResumeAsync :
    Leads d (Rest d.full d.total) onResumeAsync (Rest d.full d.total) := by
  refine .looks fun c => .ite ?_ (.ret ())
  exact (still_rest.update fun _ => rfl).bind fun _ => still_rest.op .readStart trivial

theorem leads_destroy : Leads d (Rest d.full d.total) destroy (Rest d.full d.total) := by
  refine .looks fun c => ?_
  cases c.session with
  | none => exact still_rest.op .delete trivial
  | some session =>
    apply (still_rest.op (.emitDisconnected session c.wireBytes) trivial).bind
    exact fun _ => still_rest.op .delete trivial

theorem leads_onHandleClosed :
    Leads d (Rest d.full d.total) onHandleClosed (Rest d.full d.total) := by
  refine (still_rest.update fun _ => rfl).bind fun _ => .looks fun c =>
    .ite (.ite ?_ leads_destroy) (.ret ())
  exact (still_rest.op .joinConsumer trivial).bind fun _ => leads_destroy

/-! What the consumer signals concerns connections without a download only. -/

theorem handled_outbox (h : Off (view s)) : Handled d .outbox s τ := by
  have hend : Ends d onOutboxAsync (fun _ v _ => Off v) (takes .outbox s) (τ ++ [.event .outbox]) :=
    off_stream.onOutboxAsync _ _ h
  exact ⟨h.inOrder, hend.mono fun _ _ _ hoff => Or.inr (.inl hoff)⟩

theorem handled_close (h : Off (view s)) : Handled d .close s τ := by
  have hmarked : Off (view { takes .close s with conn := { s.conn with
      teardownStarted := true
      state := .closing } }) := ⟨h.unbegun, h.none, .inl nofun⟩
  refine ⟨h.inOrder, Ends.update hmarked.inOrder ?_⟩
  exact (still_off.finalizeClose _ _ hmarked).mono fun _ _ _ hoff => Or.inr (.inl hoff)

/-! A write has been called back for. -/

variable {request : WriteRequest} {v : View} {c : LoopRun}

theorem outstanding_erase {writes : List WriteRequest} (hmem : request ∈ writes) :
    outstanding writes = outstanding (writes.erase request) + if isDownload request then
      1 else 0 := by
  rw [outstanding, (List.perm_cons_erase hmem).countP_eq, List.countP_cons]
  rfl

theorem Calm.erase {writes : List WriteRequest} (h : Calm writes) (request : WriteRequest) :
    Calm (writes.erase request) := fun r hr => h r (List.mem_of_mem_erase hr)

theorem Rest.erase (h : Rest d.full d.total v τ) (hmem : request ∈ v.writes)
    (hother : isDownload request = false) :
    Rest d.full d.total { v with writes := v.writes.erase request } τ := by
  have hcount := outstanding_erase hmem
  rw [hother, if_neg Bool.false_ne_true, Nat.add_zero] at hcount
  rcases h with hpending | hoff | hdown
  · exact .inl { hpending with
      none := hcount.symm.trans hpending.none, calm := hpending.calm.erase request }
  · exact .inr (.inl ⟨hoff.unbegun, hcount.symm.trans hoff.none, hoff.barred⟩)
  · refine .inr (.inr ⟨{ hdown with calm := hdown.calm.erase request },
      hdown.flow.imp (fun hlive => ?_) fun hover => ?_⟩)
    · exact ⟨hlive.archive, hlive.bytes, hcount ▸ hlive.count, hcount ▸ hlive.single, hlive.torn,
        fun ht => hcount.symm.trans (hlive.waits ht)⟩
    · exact ⟨hover.torn, hcount.symm.trans hover.none, hover.ended⟩

theorem Off.erase (h : Off v) (request : WriteRequest) :
    Off { v with writes := v.writes.erase request } :=
  ⟨h.unbegun, Nat.le_zero.mp (List.erase_sublist.countP_le.trans h.none.le), h.barred⟩

theorem Rest.tears (h : Rest d.full d.total v τ) (hmem : request ∈ v.writes)
    (htears : tearsDown request.callback = true) : Off v := by
  rcases h with hpending | hoff | hdown
  · exact nomatch (hpending.calm request hmem).symm.trans htears
  · exact hoff
  · exact nomatch (hdown.calm request hmem).symm.trans htears

theorem ends_written_other {failed teardownAfter : Bool} (h : Rest d.full d.total (view s) τ)
    (hcalm : teardownAfter = true → Off (view s)) (hfailed : failed = true → Failed τ) :
    Ends d (if teardownAfter || failed then beginTeardown else .ret ())
      (fun _ => Rest d.full d.total) s τ := by
  cases teardownAfter with
  | true => exact (leads_off_teardown s τ (hcalm rfl)).mono fun _ _ _ hoff => Or.inr (.inl hoff)
  | false =>
    cases failed with
    | true => exact (leads_settled s τ ⟨h, hfailed rfl⟩).mono fun _ _ _ => Or.inr
    | false => exact h

theorem handled_written_other (h : Rest d.full d.total (view s) τ) (failed : Bool)
    (hmem : request ∈ (view s).writes) (hother : isDownload request = false) :
    Handled d (.written request failed) s τ := by
  have hseen : isCompletion (.event (.written request failed)) = false := hother
  have hrest : Rest d.full d.total (view (takes (.written request failed) s))
      (τ ++ [.event (.written request failed)]) := (still_rest.seen hseen h).erase hmem hother
  refine ⟨still_rest.inOrder hrest, ?_⟩
  have hcalm : tearsDown request.callback = true → Off (view (takes (.written request failed) s)) :=
    fun htears => (h.tears hmem htears).erase request
  have hfailed : failed = true → Failed (τ ++ [.event (.written request failed)]) := fun hf =>
    writeFailed_last (x := .event (.written request failed)) hf
  obtain ⟨data, callback⟩ := request
  cases callback with
  | reply teardownAfter => exact ends_written_other hrest hcalm hfailed
  | tls teardownAfter => exact ends_written_other hrest hcalm hfailed
  | download => exact nomatch hother

theorem Rest.live (h : Rest d.full d.total v τ)
    (hmem : ∃ request ∈ v.writes, isDownload request = true) :
    Begun v ∧ Live d.full d.total v τ ∧ outstanding v.writes = 1 := by
  have hpos : 0 < outstanding v.writes := List.countP_pos_iff.mpr hmem
  rcases h with hpending | hoff | hdown
  · exact absurd hpending.none hpos.ne'
  · exact absurd hoff.none hpos.ne'
  · rcases hdown.flow with hlive | hover
    · exact ⟨hdown.toBegun, hlive, Nat.le_antisymm hlive.single hpos⟩
    · exact absurd hover.none hpos.ne'

theorem handled_written_download (h : Rest d.full d.total (view s) τ) (failed : Bool)
    (hmem : request ∈ (view s).writes) (hdownload : isDownload request = true) :
    Handled d (.written request failed) s τ := by
  obtain ⟨hbegun, hlive, hone⟩ := h.live ⟨request, hmem, hdownload⟩
  have hnone : outstanding ((view s).writes.erase request) = 0 := by
    rw [outstanding_erase hmem, hdownload] at hone
    exact Nat.succ.inj hone
  have hcompleted : completed (τ ++ [.event (.written request failed)]) = completed τ + 1 := by
    have hseen : isCompletion (.event (.written request failed)) = true := hdownload
    rw [completed, List.countP_append, List.countP_singleton, if_pos hseen]
    rfl
  have hcount := hlive.count
  rw [hone, ← hcompleted] at hcount
  have hfront : (view s).handed <+: d.full := hlive.bytes ▸ List.prefix_append _ _
  have hbegun' : Begun (view (takes (.written request failed) s)) :=
    { hbegun with calm := hbegun.calm.erase request }
  refine ⟨⟨hnone.trans_le (Nat.zero_le 1), fun _ => hfront,
    fun _ ht => .inr ((hlive.torn ht).append _)⟩, ?_⟩
  obtain ⟨data, callback⟩ := request
  obtain rfl : callback = .download := eq_of_beq hdownload
  refine Ends.mono (Q := fun _ => Downloading d.full d.total) ?_ fun _ _ _ hdown =>
    .inr (.inr hdown)
  refine Ends.looks (Ends.ite (fun hstop => leads_ending _ _ ⟨hbegun', hnone, ?_⟩) fun hgo => ?_)
  · rcases (Bool.or_eq_true _ _).mp hstop with hfail | hlast
    · exact .inr ⟨writeFailed_last (x := .event (.written ⟨data, .download⟩ failed)) hfail, hfront⟩
    · have hleft : left (view s) = [] := if_pos hlast
      have hbytes := hlive.bytes
      rw [hleft, List.flatten_nil, List.append_nil] at hbytes
      exact .inl hbytes
  · obtain ⟨steps, harchive⟩ := Option.isSome_iff_exists.mp hlive.archive
    have hlast : (view s).downloadLast = false :=
      Bool.eq_false_of_not_eq_true fun hlast => hgo ((Bool.or_eq_true _ _).mpr (.inr hlast))
    have hleft : left (view s) = chunksOf steps := by
      rw [left, hlast, harchive]
      rfl
    have hbytes := hlive.bytes
    rw [hleft] at hbytes hcount
    exact leads_pumpDownload _ _
      ⟨⟨hbegun', hnone, hbytes, hcount, fun ht => (hlive.torn ht).append _⟩, harchive⟩

/-! ## Whole runs -/

structure Unsignalled (s : LoopState) (w : World) : Prop where
  started : .startConsumer ∈ s.uv.log → s.conn.consumerStarted = true
  outbox : .startConsumer ∉ s.uv.log → w.outboxPending = false

section
variable {s' : LoopState} {w w' : World}

theorem Unsignalled.assigned (h : Unsignalled s w) (hlog : s'.uv.log = s.uv.log)
    (hstarted : s'.conn.consumerStarted = s.conn.consumerStarted ∨ s'.conn.consumerStarted = true) :
    Unsignalled s' w where
  started hmem := hstarted.elim (fun heq => heq.trans (h.started (hlog ▸ hmem))) id
  outbox := hlog ▸ h.outbox

theorem Unsignalled.logged (h : Unsignalled s w) {op : LoopOp} (hop : op ≠ .startConsumer)
    (a : op.Ans) (hout : w'.outboxPending = w.outboxPending) : Unsignalled (own op a s) w' := by
  have hlog : .startConsumer ∈ (own op a s).uv.log ↔ .startConsumer ∈ s.uv.log := by
    change .startConsumer ∈ s.uv.log ++ [op] ↔ _
    rw [List.mem_append, List.mem_singleton]
    exact or_iff_left hop.symm
  exact ⟨fun hmem => h.started (hlog.mp hmem),
    fun hno => hout.trans (h.outbox fun hmem => hno (hlog.mpr hmem))⟩

theorem unsignalled_keeps {config : ServerConfig} (hm : Move config free s w s' w')
    (h : Unsignalled s w) : Unsignalled s' w' := by
  cases hm with
  | closing hc =>
    cases hc with
    | counts | finalizes => exact h.assigned rfl (.inl rfl)
    | plain op a hop =>
      refine h.logged ?_ a ?_
      · rintro rfl
        exact hop
      · cases op <;> rfl
    | closes =>
      apply h.logged
      · exact nofun
      · rfl
  | quiet | marks | detects | receives | buffers | replies | agrees | names | streams | pauses
  | resumes =>
    exact h.assigned rfl (.inl rfl)
  | starts => exact h.assigned rfl (.inr rfl)
  | records _ op a hop =>
    refine h.logged ?_ a rfl
    rcases hop with ⟨_, rfl⟩ | ⟨_, rfl⟩ <;> exact nofun
  | closesChannel | pushes | looks | deletes =>
    apply h.logged
    · exact nofun
    · rfl
  | startsConsumer _ _ _ hstarted =>
    refine ⟨fun _ => hstarted, fun hno => absurd ?_ hno⟩
    exact List.mem_append_right _ (List.mem_singleton_self _)

theorem unsignalled_stable {maxRead : ℕ} (hstarted : Started s w) (h : Unsignalled s w)
    (hstep : ConsumerStep maxRead w w') : Unsignalled s w' := by
  have hruns : w.consumer ≠ .notStarted := by
    intro hno
    cases hstep with
    | call _ _ hw | run _ hw | post _ _ hw | finish _ hw => exact nomatch hno.symm.trans hw
  exact ⟨h.started, fun hu => absurd (hstarted.unstarted hu).1 hruns⟩

theorem unsignalled_run (hrun : d.host.Run (init d.config) τ c) :
    (Started c.own c.world ∧ Unsignalled c.own c.world) ∧
    (c.code = none → Idle d.config c.own) := by
  have hreach : Reaches d.config d.maxRead (init d.config) c :=
    reaches_of_restricted (reaches_iff_run.mpr ⟨τ, hrun⟩)
  refine holds_of_reaches (fun s w s' w' hm _ h => unsignalled_keeps hm h)
    (fun s w w' hstarted h hstep => unsignalled_stable hstarted h hstep)
      (fun e s w _ h _ => ?_) ?_ hreach
  · cases e with
    | outbox => exact ⟨h.started, fun _ => rfl⟩
    | _ => exact ⟨h.started, h.outbox⟩
  · exact ⟨nofun, fun _ => rfl⟩

theorem Rest.off_of_consumer (h : Rest d.full d.total (view s) τ) (hb : Base d.config s)
    (hstarted : s.conn.consumerStarted = true) : Off (view s) := by
  rcases h with hpending | hoff | hdown
  · exact nomatch (hb.handshaking hpending.state).consumer.symm.trans hstarted
  · exact hoff
  · have hmagic := (hb.started hstarted).2.magic
    exact absurd ⟨[], by rw [List.append_nil, hmagic]⟩ (hb.http hdown.http)

theorem Rest.off_of_signal {w : World} (h : Rest d.full d.total (view s) τ)
    (hrun : d.host.Run (init d.config) τ ⟨none, s, w⟩)
    (hsignal : w.closePending = true ∨ w.outboxPending = true) : Off (view s) := by
  obtain ⟨⟨hconsumer, hquiet⟩, hidle⟩ := unsignalled_run hrun
  refine h.off_of_consumer (hidle rfl).base (hquiet.started ?_)
  by_contra hno
  rcases hsignal with hclose | houtbox
  · exact nomatch (hconsumer.unstarted hno).2.symm.trans hclose
  · exact nomatch (hquiet.outbox hno).symm.trans houtbox

theorem handled {e : Callback} {w : World} (hrun : d.host.Run (init d.config) τ ⟨none, s, w⟩)
    (h : Rest d.full d.total (view s) τ) (hfires : fires e s w) : Handled d e s τ := by
  cases e with
  | read data answers => exact handled_read h data answers
  | readError => exact handled_readError h
  | written request failed =>
    cases hdownload : isDownload request with
    | true => exact handled_written_download h failed hfires hdownload
    | false => exact handled_written_other h failed hfires hdownload
  | resume => exact .of_leads h rfl rfl leads_onResumeAsync
  | close => exact handled_close (h.off_of_signal hrun (.inl hfires.1))
  | outbox => exact handled_outbox (h.off_of_signal hrun (.inr hfires.1))
  | handleClosed handle => exact .of_leads h rfl rfl leads_onHandleClosed

theorem leads_accept : Leads d Pending accept (Rest d.full d.total) := by
  have hpending : Still d Pending := ⟨Pending.inOrder, Pending.seen⟩
  refine (hpending.op .uvAccept trivial).bind fun ok => .ite (fun s τ h => ?_) fun s τ h => ?_
  · exact (leads_unasked s τ (.inr h)).mono fun _ _ _ hoff => Or.inr (.inl hoff)
  · exact (hpending.op .readStart trivial s τ h).mono fun _ _ _ => Or.inl

theorem heads_run (hrun : d.host.Run (init d.config) τ c) :
    d.host.Heads (fun s τ => InOrder d.full (view s) τ)
      (fun s τ => Rest d.full d.total (view s) τ) c τ := by
  have hfresh : Pending (view ⟨.fresh, freshUv⟩) [] := ⟨rfl, rfl, rfl, nofun, rfl, rfl, rfl, nofun⟩
  have hinit : d.host.Heads (fun s τ => InOrder d.full (view s) τ)
      (fun s τ => Rest d.full d.total (view s) τ)
      (init d.config) [] := ⟨hfresh.inOrder, leads_accept _ _ hfresh⟩
  exact hrun.heads hinit fun τ e s w hreached hrest hfires => handled hreached hrest hfires

end

/-! ## The archive -/

section
variable {z : CStream} {s s' : ArchiveStreamer z} {steps : List ArchiveStep}

inductive Gives : ArchiveStreamer z → List ArchiveStep → ArchiveStreamer z → Prop
  | nil (s : ArchiveStreamer z) : Gives s [] s
  | cons {s s' : ArchiveStreamer z} {r : NextResult z} {t : ArchiveLog} {steps : List ArchiveStep}
      (hr : (s.next z).Yields r t) (h : Gives r.streamer steps s') :
      Gives s (⟨r.out, r.more, r.streamer.ok⟩ :: steps) s'

theorem Gives.append {s'' : ArchiveStreamer z} {steps' : List ArchiveStep} (h : Gives s steps s')
    (h' : Gives s' steps' s'') : Gives s (steps ++ steps') s'' := by
  induction h with
  | nil s => exact h'
  | cons hr _ ih => exact .cons hr (ih h')

theorem Gives.nothing (h : Gives s steps s') (hs : s.next z = .ret ⟨false, [], s⟩) :
    ∀ step ∈ steps, step.chunk = [] := by
  induction h with
  | nil s => exact nofun
  | cons hr _ ih =>
    rw [hs] at hr
    obtain ⟨rfl, -⟩ := hr
    exact List.forall_mem_cons.mpr ⟨rfl, ih hs⟩

def given (steps : List ArchiveStep) : Bytes :=
  ((steps.filter ArchiveStep.ok).map ArchiveStep.chunk).flatten

theorem given_nothing (h : ∀ step ∈ steps, step.chunk = []) : given steps = [] := by
  rw [given, List.flatten_eq_nil_iff]
  intro chunk hchunk
  obtain ⟨step, hstep, rfl⟩ := List.mem_map.mp hchunk
  exact h step (List.mem_of_mem_filter hstep)

theorem given_cons (step : ArchiveStep) (steps : List ArchiveStep) :
    given (step :: steps) = (if step.ok then step.chunk else []) ++ given steps := by
  unfold given
  cases hok : step.ok <;> simp [hok]

theorem Gives.chunks (h : Gives s steps s') : (chunksOf steps).flatten = given steps := by
  induction h with
  | nil s => rfl
  | @cons s s' r t steps hr h ih =>
    obtain ⟨hmore, hlast⟩ := next_yields hr
    rw [given_cons]
    cases hgoes : r.more with
    | true =>
      obtain ⟨hne, hok⟩ := hmore hgoes
      rw [chunksOf_cons hok hne, hok, if_pos rfl, if_pos rfl, List.flatten_cons, ih]
    | false =>
      rw [given_nothing (h.nothing (hlast hgoes)), List.append_nil, chunksOf]
      cases hok : r.streamer.ok with
      | false => rfl
      | true => by_cases hnil : r.out = [] <;> simp [hnil]

theorem ok_of_next {r : NextResult z} {t : ArchiveLog} (hr : (s.next z).Yields r t)
    (hok : r.streamer.ok = true) : s.ok = true := by
  unfold ArchiveStreamer.next at hr
  split_ifs at hr with hstop
  · obtain ⟨rfl, -⟩ := hr
    exact hok
  · rw [Bool.or_eq_true, Bool.not_eq_true', not_or, Bool.not_eq_false] at hstop
    exact hstop.1

theorem Gives.ok (h : Gives s steps s') (hok : s'.ok = true) :
    s.ok = true ∧ ∀ step ∈ steps, step.ok = true := by
  induction h with
  | nil s => exact ⟨hok, nofun⟩
  | cons hr _ ih =>
    obtain ⟨hnext, hsteps⟩ := ih hok
    exact ⟨ok_of_next hr hnext, List.forall_mem_cons.mpr ⟨hnext, hsteps⟩⟩

theorem gives_of_download {dl : Download z} {t : ArchiveLog} (hdl : (download z s).Yields dl t) :
    ∃ steps, Gives s steps dl.streamer ∧ steps.map ArchiveStep.chunk = dl.chunks := by
  refine ((downloadLoop z).yields_loop (I := fun m _ => ∃ steps, Gives s steps m.streamer ∧
    steps.map ArchiveStep.chunk = m.chunks) ?_ (t := []) ⟨[], .nil s, rfl⟩ hdl).1
  rintro m v m' u ⟨steps, hsteps, hchunks⟩ - hm'
  obtain ⟨r, t₁, t₂, hr, ⟨rfl, rfl⟩, rfl⟩ := Program.Yields.of_bind hm'
  refine ⟨steps ++ [⟨r.out, r.more, r.streamer.ok⟩], hsteps.append (.cons hr (.nil _)), ?_⟩
  rw [List.map_append, hchunks]
  rfl

end

/-! ## The order -/

structure Ordered (d : Service) (τ : History) (c : LoopRun) : Prop where
  /-- what has been handed over is a beginning of the response -/
  front : c.own.uv.log.any isBegin = true → handed c.own <+: d.full
  single : outstanding c.own.uv.writes ≤ 1
  /-- while it is up, libuv owes it a callback -/
  waits : c.code = none → c.own.uv.log.any isBegin = true → c.own.conn.teardownStarted = false →
    outstanding c.own.uv.writes = 1
  /-- and it is down once the header and the chunks have been called back for -/
  ends : c.code = none → c.own.uv.log.any isBegin = true → (chunksOf d.steps).length < completed τ →
    c.own.conn.teardownStarted = true
  torn : c.own.uv.log.any isBegin = true → c.own.conn.teardownStarted = true →
    handed c.own = d.full ∧ outstanding c.own.uv.writes = 0 ∨ WriteFailed τ ∨ IncomingEnded τ

theorem Rest.flow (h : Rest d.full d.total v τ) (hbegun : v.begun = true) :
    Live d.full d.total v τ ∨ Over d.full v τ := by
  rcases h with hpending | hoff | hdown
  · exact nomatch hpending.unbegun.symm.trans hbegun
  · exact nomatch hoff.unbegun.symm.trans hbegun
  · exact hdown.flow

theorem Rest.waits (h : Rest d.full d.total v τ) (hbegun : v.begun = true) (hup : v.torn = false) :
    outstanding v.writes = 1 := by
  rcases h.flow hbegun with hlive | hover
  · exact hlive.waits hup
  · exact nomatch hup.symm.trans hover.torn

theorem Rest.ends (h : Rest d.full d.total v τ) (hbegun : v.begun = true)
    (hall : (chunksOf d.steps).length < completed τ) : v.torn = true := by
  by_contra hup
  have hup' : v.torn = false := Bool.eq_false_of_not_eq_true hup
  rcases h.flow hbegun with hlive | hover
  · have hcount := hlive.count
    rw [hlive.waits hup', Service.total] at hcount
    omega
  · exact hup hover.torn

/-- Downloads are complete and in order: what is handed over is at every moment a beginning of the
header and the chunks behind it, one write at a time; a connection that is torn down has handed over
all of it and seen its writes through, or else a write has failed or the incoming side has ended. -/
theorem download_in_order (d : Service) {τ : History} {c : LoopRun}
    (hrun : d.host.Run (init d.config) τ c) :
    Ordered d τ c ∧ ∀ (z : CStream) (s s' : ArchiveStreamer z), Gives s d.steps s' →
      d.full = downloadHead d.sessionId ++ given d.steps := by
  have hheads := heads_run hrun
  have horder : InOrder d.full (view c.own) τ := hheads.holds fun s τ h => still_rest.inOrder h
  have hrest : c.code = none → Rest d.full d.total (view c.own) τ := by
    intro hidle
    rw [Heads, hidle] at hheads
    exact hheads
  refine ⟨⟨horder.front, horder.single, fun hidle => (hrest hidle).waits,
    fun hidle => (hrest hidle).ends, horder.torn⟩, fun z s s' hgives => ?_⟩
  rw [Service.full, hgives.chunks]

/-! ## A download that is cut short -/

theorem decideProtocol_mismatch {c : Connection} (hc : c.protoDecided = false)
    (hmagic : ¬c.handshakeBuffer.take kMagic.length <+: kMagic) :
    decideProtocol c = { c with protoDecided := true, httpMode := true } := by
  have hundecided : ¬c.protoDecided = true := by
    rw [hc]
    exact Bool.false_ne_true
  rw [decideProtocol, if_neg hundecided]
  exact if_pos ((mismatch_iff _).mpr hmagic)

section
variable {config : ServerConfig} {maxRead : ℕ} {cond : LoopCond} {s' : LoopState}
  {w w' : World}

theorem exec_httpData {data : Bytes} (hstate : s.conn.state = .handshaking)
    (hundecided : s.conn.protoDecided = false)
    (hmagic : ¬(s.conn.handshakeBuffer ++ data).take kMagic.length <+: kMagic)
    (h : Runs config maxRead cond handleHttpData ⟨{ s.conn with
      handshakeBuffer := s.conn.handshakeBuffer ++ data
      protoDecided := true
      httpMode := true }, (buffering s data).uv⟩ w () s' w') :
    Runs config maxRead cond (handleData config data) s w () s' w' := by
  have hdecide := @decideProtocol_mismatch (s.conn.appending data)
    hundecided hmagic
  have hlate : lateAfter s = if State.handshaking = .handshaking ∧
      kHandshakeRequestSize ≤ s.uv.plaintext.length then s.uv.late + 1 else s.uv.late := by
    unfold lateAfter
    rw [hstate]
  refine exec_this (exec_note ?_)
  rw [hstate]
  refine exec_update (exec_this ?_)
  rw [← hlate, hdecide]
  exact h

theorem exec_httpRequest {request : HttpRequest} (hundone : s.conn.httpDone = false)
    (hend : httpHeaderEnd s.conn.handshakeBuffer ≠ 0)
    (hparse : parseHttpRequest
      (s.conn.handshakeBuffer.take (httpHeaderEnd s.conn.handshakeBuffer)) = some request)
    (h : Runs config maxRead cond (invoke (.dispatchHttp request) >>= fun actions => actAll actions)
      { s with conn := { s.conn with httpDone := true } } w () s' w') :
    Runs config maxRead cond handleHttpData s w () s' w' := by
  refine exec_this ?_
  rw [hundone]
  dsimp only
  rw [if_neg Bool.false_ne_true, if_neg hend]
  refine exec_update ?_
  rw [hparse]
  exact h

end

section
variable (steps : List ArchiveStep)

def plainService : Service := ⟨plainConfig, 0, [0x30], [], steps⟩

abbrev smoothHost : LoopHost :=
  hostIf plainConfig 0 fun op s a => serving [0x30] [] steps op s a ∧ LoopOp.Succeeds op a

def asked : LoopState where
  conn := { Connection.fresh with
    tlsDetected := true
    handshakeBuffer := smallRequest.text
    protoDecided := true
    httpMode := true
    httpDone := true }
  uv := { opened.uv with received := smallRequest.text, plaintext := smallRequest.text }

def headed : LoopState :=
  let s := own (.archiveBegin [] [0x30]) (some steps)
    (own (.dispatchHttp smallRequest.meaning) [.beginDownload [0x30] []] asked)
  own (.write ⟨downloadHead [0x30], .download⟩) true
    { s with conn := { s.conn with download := some steps, downloadLast := false } }

theorem exec_downloadResponse : (smoothHost steps).Exec (beginDownloadResponse [0x30] [])
    (own (.dispatchHttp smallRequest.meaning) [.beginDownload [0x30] []] asked)
    (freshWorld plainConfig) () (headed steps) (freshWorld plainConfig) := by
  refine exec_invoke (some steps) trivial ⟨rfl, trivial⟩ (exec_update (exec_this ?_))
  have hne : downloadHead [0x30] ≠ [] := by decide +kernel
  change (smoothHost steps).Exec (downloadWrite (pumpArchive steps) (downloadHead [0x30])) _ _ _ _ _
  rw [downloadWrite, if_neg hne]
  exact exec_invoke true trivial ⟨trivial, rfl⟩ (.ret () _ _)

theorem exec_request : (smoothHost steps).Exec (handleRaw plainConfig smallRequest.text [])
    (takes (.read smallRequest.text []) opened) (freshWorld plainConfig) () (headed steps)
    (freshWorld plainConfig) := by
  have hend : httpHeaderEnd smallRequest.text = smallRequest.text.length := by
    have hend := smallRequest_wellFormed.headerEnd []
    rwa [List.append_nil] at hend
  refine exec_first rfl rfl rfl (by decide) (exec_httpData rfl rfl (by decide +kernel) ?_)
  have hparse : parseHttpRequest (smallRequest.text.take (httpHeaderEnd smallRequest.text)) =
      some smallRequest.meaning := by rw [hend, List.take_length, smallRequest_wellFormed.parse]
  refine exec_httpRequest rfl (Nat.ne_of_gt (hend ▸ by decide)) hparse ?_
  refine exec_invoke [.beginDownload [0x30] []] trivial ⟨rfl, trivial⟩ ?_
  exact (exec_downloadResponse steps).bind (.ret () _ _)

theorem request_run :
    ∃ τ, (smoothHost steps).Run (init plainConfig) τ ⟨none, headed steps, freshWorld plainConfig⟩ ∧
    ∀ e, .event e ∈ τ → e = .read smallRequest.text [] := by
  have haccept : (smoothHost steps).Exec accept ⟨.fresh, freshUv⟩ (freshWorld plainConfig) () opened
      (freshWorld plainConfig) :=
    exec_invoke true trivial ⟨trivial, trivial⟩
      (exec_invoke_last .readStart () trivial ⟨trivial, trivial⟩)
  have hfires : (smoothHost steps).fires (.read smallRequest.text []) opened
      (freshWorld plainConfig) :=
    ⟨rfl, rfl, by decide⟩
  obtain ⟨τ, haccepted, hno⟩ := haccept.run
  obtain ⟨τ', hread, hno'⟩ := (exec_request steps).run
  refine ⟨_, (haccepted.tail (Emits.start _ hfires)).trans hread, fun e he => ?_⟩
  simp only [List.mem_append, List.mem_singleton, hno e, hno' e, false_or, or_false] at he
  exact Seen.event.inj he

theorem smooth_answer {c' : LoopRun} (hrun : (smoothHost steps).Run c τ c') {op : LoopOp}
    {a : op.Ans} (ha : .answer op a ∈ τ) : isWriteFailure (.answer op a) = false := by
  obtain ⟨s, -, hsucceeds⟩ := hrun.answers ha
  cases op with
  | write request =>
    obtain rfl : a = true := hsucceeds
    rfl
  | sslWrite data =>
    have hok : a.1 = true := hsucceeds
    change (!a.1) = false
    rw [hok]
    rfl
  | _ => rfl

theorem cut_run :
    ∃ τ c, (plainService steps).host.Run (init plainConfig) τ c ∧ c.own.uv.log.any isBegin = true ∧
    c.own.conn.teardownStarted = true ∧ handed c.own = downloadHead [0x30] ∧
      outstanding c.own.uv.writes = 1 ∧
    ¬WriteFailed τ := by
  obtain ⟨τ, hsmooth, hevents⟩ := request_run steps
  have hrun : (plainService steps).host.Run (init plainConfig) τ
      ⟨none, headed steps, freshWorld plainConfig⟩ :=
    hsmooth.weaken fun _ _ _ h => h.1
  have hfires : (plainService steps).host.fires .readError (headed steps)
      (freshWorld plainConfig) := ⟨rfl, rfl⟩
  have hcut := ((hrun.tail (Emits.start _ hfires)).tail (.get _ _ _)).tail (.get _ _ _)
  refine ⟨_, _, hcut.tail (.set _ _ _ _), rfl, rfl, ?_, rfl, ?_⟩
  · exact List.append_nil _
  · rintro ⟨x, hx, hfail⟩
    simp only [List.mem_append, List.mem_singleton, List.not_mem_nil, or_false] at hx
    rcases hx with hx | rfl
    · cases x with
      | event e =>
        rw [hevents e hx] at hfail
        exact nomatch hfail
      | answer op a => exact nomatch (smooth_answer steps hsmooth hx).symm.trans hfail
    · exact nomatch hfail

end

section
variable {step : ArchiveStep} (steps : List ArchiveStep)

def headRequest : WriteRequest := ⟨downloadHead [0x30], .download⟩

variable (step) in
def chunked : LoopState :=
  let s := takes (.written headRequest false) (headed (step :: steps))
  own (.write ⟨step.chunk, .download⟩) true
    { s with conn := { s.conn with download := some steps, downloadLast := !step.more } }

theorem exec_chunk (hok : step.ok = true) (hne : step.chunk ≠ []) :
    (smoothHost (step :: steps)).Exec (onWriteDownload false)
      (takes (.written headRequest false) (headed (step :: steps))) (freshWorld plainConfig) ()
      (chunked step steps) (freshWorld plainConfig) := by
  refine exec_this ?_
  change (smoothHost (step :: steps)).Exec pumpDownload _ _ _ _ _
  refine exec_this (exec_update ?_)
  rw [hok, if_neg (by decide), if_neg hne]
  refine exec_update (exec_this ?_)
  change (smoothHost (step :: steps)).Exec (downloadWrite (pumpArchive steps) step.chunk) _ _ _ _ _
  rw [downloadWrite, if_neg hne]
  exact exec_invoke true trivial ⟨trivial, rfl⟩ (.ret () _ _)

theorem chunk_run (hok : step.ok = true) (hne : step.chunk ≠ []) :
    ∃ τ, (smoothHost (step :: steps)).Run (init plainConfig) τ
      ⟨none, chunked step steps, freshWorld plainConfig⟩ := by
  obtain ⟨τ, hrequest, -⟩ := request_run (step :: steps)
  obtain ⟨τ', hchunk, -⟩ := (exec_chunk steps hok hne).run
  have hfires : (smoothHost (step :: steps)).fires (.written headRequest false)
      (headed (step :: steps)) (freshWorld plainConfig) := List.mem_cons_self
  exact ⟨_, (hrequest.tail (Emits.start _ hfires)).trans hchunk⟩

end

theorem download_small : ∃ (s : ArchiveStreamer storing) (dl : Download storing) (t : ArchiveLog)
    (steps : List ArchiveStep), ArchiveStreamer.begin storing true [smallItem] [0x30] = some s ∧
    (download storing s).Yields dl t ∧ dl.streamer.ok = true ∧ Gives s steps dl.streamer ∧
    steps.map ArchiveStep.chunk = dl.chunks ∧ (chunksOf steps).flatten ≠ [] := by
  have hs : ArchiveStreamer.begin storing true [smallItem] [0x30] = some _ := rfl
  obtain ⟨dl, t, hdl, -⟩ := Program.exists_yields opens_readily (download storing _)
  have hdelivered := (streaming_begin hs).2.1.delivers storing_lossless hdl
  obtain ⟨files, before, made, zcs, -, -, hended, hout⟩ := hdelivered.flushed
  obtain ⟨steps, hgives, hchunks⟩ := gives_of_download hdl
  refine ⟨_, dl, t, steps, hs, hdl, hdelivered.ok, hgives, hchunks, ?_⟩
  rw [hgives.chunks, given, List.filter_eq_self.mpr (hgives.ok hdelivered.ok).2, hchunks, hout,
    storing_ended hended, ← List.append_assoc]
  exact List.append_ne_nil_of_right_ne_nil _ (List.cons_ne_nil _ _)

/-- The header has been called back for, and the first chunk of an archive is under way. -/
theorem download_in_order_chunk :
    ∃ (s s' : ArchiveStreamer storing) (step : ArchiveStep) (steps : List ArchiveStep)
    (τ : History) (c : LoopRun),
    ArchiveStreamer.begin storing true [smallItem] [0x30] = some s ∧
    Gives s (step :: steps) s' ∧ step.chunk ≠ [] ∧
    (plainService (step :: steps)).host.Run (init plainConfig) τ c ∧
    handed c.own = downloadHead [0x30] ++ step.chunk ∧
    handed c.own <+: downloadHead [0x30] ++ given (step :: steps) ∧
    outstanding c.own.uv.writes = 1 := by
  obtain ⟨s, dl, t, steps, hs, -, hok, hgives, -, hsome⟩ := download_small
  cases steps with
  | nil => exact absurd rfl hsome
  | cons step steps =>
    have hstep : step.ok = true := (hgives.ok hok).2 step List.mem_cons_self
    have hne : step.chunk ≠ [] :=
      fun hnil => hsome (by rw [chunksOf, if_pos (.inr hnil), List.flatten_nil])
    obtain ⟨τ, hsmooth⟩ := chunk_run steps hstep hne
    have hrun : (plainService (step :: steps)).host.Run (init plainConfig) τ
        ⟨none, chunked step steps, freshWorld plainConfig⟩ := hsmooth.weaken fun _ _ _ h => h.1
    obtain ⟨horder, hfull⟩ := download_in_order (plainService (step :: steps)) hrun
    have hhanded : handed (chunked step steps) = downloadHead [0x30] ++ step.chunk :=
      congrArg (downloadHead [0x30] ++ ·) (List.append_nil step.chunk)
    refine ⟨s, dl.streamer, step, steps, τ, _, hs, hgives, hne, hrun, hhanded, ?_,
      horder.waits rfl rfl rfl⟩
    have hfront := horder.front rfl
    rw [hfull storing s dl.streamer hgives] at hfront
    exact hfront

/-- The connection is torn down with no chunk handed over and its one write under way, though no
write and no archive has failed. -/
theorem download_cut_short :
    ∃ (s : ArchiveStreamer storing) (dl : Download storing) (t : ArchiveLog) (d : Service)
    (τ : History) (c : LoopRun),
    ArchiveStreamer.begin storing true [smallItem] d.sessionId = some s ∧
    (download storing s).Yields dl t ∧ dl.streamer.ok = true ∧ Gives s d.steps dl.streamer ∧
    d.steps.map ArchiveStep.chunk = dl.chunks ∧ d.host.Run (init d.config) τ c ∧
    c.own.uv.log.any isBegin = true ∧ c.own.conn.teardownStarted = true ∧
    handed c.own = downloadHead d.sessionId ∧ handed c.own ≠ d.full ∧
    outstanding c.own.uv.writes = 1 ∧ ¬WriteFailed τ := by
  obtain ⟨s, dl, t, steps, hs, hdl, hok, hgives, hchunks, hsome⟩ := download_small
  obtain ⟨τ, c, hrun, hbegun, htorn, hhanded, hone, hfine⟩ := cut_run steps
  refine ⟨s, dl, t, plainService steps, τ, c, hs, hdl, hok, hgives, hchunks, hrun, hbegun, htorn,
    hhanded, ?_, hone, hfine⟩
  rw [hhanded, Service.full, plainService]
  simpa using hsome

end Dicker.Server.Handover
