import Dicker.Server.Handover

/-! The steps of a download, from the request for it on: whatever is handed over is followed by the
rest, and one write at a time is under way. -/

namespace Dicker.Server.Handover
open Lib Host Connection Dicker.Server.Runtime

variable {d : Service} {α : Type}

/-! ## Handing over -/

structure Handing (full : Bytes) (total : ℕ) (steps : List ArchiveStep) (bytes : Bytes) (v : View)
    (τ : History) : Prop
    extends Begun v where
  archive : v.download = some steps
  none : outstanding v.writes = 0
  rest : v.handed ++ bytes ++ (left v).flatten = full
  count : completed τ + 1 + (left v).length ≤ total
  torn : v.torn = true → Failed τ

structure Ready (full : Bytes) (total : ℕ) (steps : List ArchiveStep) (v : View)
    (τ : History) : Prop
    extends Begun v where
  none : outstanding v.writes = 0
  rest : v.handed ++ (chunksOf steps).flatten = full
  count : completed τ + (chunksOf steps).length ≤ total
  torn : v.torn = true → Failed τ

section
variable {full : Bytes} {total : ℕ} {v : View} {τ : History} {bytes : Bytes}
  {steps : List ArchiveStep}

theorem Handing.inOrder (h : Handing full total steps bytes v τ) : InOrder full v τ where
  single := h.none.trans_le (Nat.zero_le 1)
  front _ := by
    rw [← h.rest, List.append_assoc]
    exact List.prefix_append _ _
  torn _ htorn := .inr (h.torn htorn)

theorem Ready.inOrder (h : Ready full total steps v τ) : InOrder full v τ where
  single := h.none.trans_le (Nat.zero_le 1)
  front _ := h.rest ▸ List.prefix_append _ _
  torn _ htorn := .inr (h.torn htorn)

theorem Ending.inOrder (h : Ending full v τ) : InOrder full v τ where
  single := h.none.trans_le (Nat.zero_le 1)
  front _ := h.ended.elim (fun h => h ▸ List.prefix_rfl) And.right
  torn _ _ := h.ended.imp (fun hfull => ⟨hfull, h.none⟩) And.left

theorem Handing.front (h : Handing full total steps bytes v τ) : v.handed ++ bytes <+: full :=
  h.rest ▸ List.prefix_append _ _

theorem Handing.last (h : Handing full total steps [] v τ) (hlast : v.downloadLast = true) :
    Ending full v τ := by
  have hleft : left v = [] := if_pos hlast
  have hrest := h.rest
  rw [hleft, List.flatten_nil, List.append_nil, List.append_nil] at hrest
  exact ⟨h.toBegun, h.none, .inl hrest⟩

theorem Handing.ready (h : Handing full total steps [] v τ) (hlast : v.downloadLast = false) :
    Ready full total steps v τ := by
  have hleft : left v = chunksOf steps := by
    rw [left, hlast, h.archive]
    rfl
  have hrest := h.rest
  have hcount := h.count
  rw [hleft] at hrest hcount
  rw [List.append_nil] at hrest
  exact ⟨h.toBegun, h.none, hrest, by omega, h.torn⟩

end

theorem view_begun {s : LoopState} (h : (view s).begun = true) (op : LoopOp) (a : op.Ans) :
    view (own op a s) = { view s with
      writes := (uvOwn op a s.uv).writes
      handed := (view s).handed ++ handedBy (view s).tlsActive op } := by
  rw [view_own, h, if_pos rfl, Bool.true_or]
  simp only [h]
  rfl

theorem toChunks_go_flatten {γ : Type} (n : ℕ) (xs : List γ) (piece : Array γ)
    (pieces : Array (List γ)) :
    (List.toChunks.go n xs piece pieces).flatten = pieces.toList.flatten ++ piece.toList ++ xs := by
  induction xs generalizing piece pieces with
  | nil => simp [List.toChunks.go]
  | cons x xs ih =>
    rw [List.toChunks.go]
    split_ifs
    · rw [ih]
      simp
    · rw [ih]
      simp

theorem flatten_toChunks {γ : Type} (n : ℕ) (xs : List γ) : (xs.toChunks n).flatten = xs := by
  cases xs with
  | nil => rfl
  | cons x xs =>
    cases n with
    | zero => simp [List.toChunks]
    | succ n =>
      rw [List.toChunks, toChunks_go_flatten]
      · simp
      · exact nofun

section
variable {s : LoopState} {τ : History} {steps : List ArchiveStep}

theorem ends_sslWrite {piece rest : Bytes}
    (h : Handing d.full d.total steps (piece ++ rest) (view s) τ)
    (htls : (view s).tlsActive = true) :
    Ends d (sslWrite piece) (fun ok v τ => if ok then Handing d.full d.total steps rest v τ ∧
      v.tlsActive = true
      else Ending d.full v τ) s τ := by
  refine Ends.invoke fun a w _ => ?_
  have hview : view (own (.sslWrite piece) a s) =
      { view s with handed := (view s).handed ++ piece } := by
    rw [view_begun h.begun, htls]
    rfl
  have hafter : Handing d.full d.total steps rest (view (own (.sslWrite piece) a s))
      (τ ++ [.answer (.sslWrite piece) a]) := by
    rw [hview]
    refine ⟨h.toBegun.hands _, h.archive, h.none, ?_, ?_, fun ht => (h.torn ht).append _⟩
    · rw [List.append_assoc (view s).handed piece rest]
      exact h.rest
    · rw [completed_seen rfl]
      exact h.count
  have htls' : (view (own (.sslWrite piece) a s)).tlsActive = true := hview ▸ htls
  refine ⟨hafter.inOrder, Ends.update hafter.inOrder ?_⟩
  obtain ⟨ok, sent⟩ := a
  cases ok with
  | true => exact ⟨hafter, htls'⟩
  | false =>
    have hfront := (List.prefix_append _ rest).trans hafter.front
    exact ⟨hafter.toBegun, hafter.none, .inr ⟨writeFailed_last rfl, hfront⟩⟩

theorem ends_encryptAll {pieces : List Bytes}
    (h : Handing d.full d.total steps pieces.flatten (view s) τ)
    (htls : (view s).tlsActive = true) :
    Ends d (encryptAll pieces) (fun ok v τ => if ok then Handing d.full d.total steps [] v τ ∧
      v.tlsActive = true
      else Ending d.full v τ) s τ := by
  induction pieces generalizing s τ with
  | nil => exact ⟨h, htls⟩
  | cons piece pieces ih =>
    refine Ends.bind (ends_sslWrite h htls) fun ok s τ hok => ?_
    cases ok with
    | true => exact ih hok.1 hok.2
    | false => exact hok

theorem ends_encrypt {plain : Bytes} (h : Handing d.full d.total steps plain (view s) τ)
    (htls : (view s).tlsActive = true) :
    Ends d (encrypt plain) (fun wire v τ => match wire with
      | none => Ending d.full v τ
      | some _ => Handing d.full d.total steps [] v τ ∧ v.tlsActive = true) s τ := by
  rw [← flatten_toChunks kTlsRecord plain] at h
  refine Ends.bind (ends_encryptAll h htls) fun ok s τ hok => ?_
  cases ok with
  | true => exact Ends.looks (Ends.update hok.1.inOrder hok)
  | false => exact hok

theorem ends_downloadWrite {pump : LoopM Unit}
    (hpump : Leads d (Ready d.full d.total steps) pump (Downloading d.full d.total)) {bytes : Bytes}
    (h : Handing d.full d.total steps (if (view s).tlsActive then [] else bytes) (view s) τ) :
    Ends d (downloadWrite pump bytes) (fun _ => Downloading d.full d.total) s τ := by
  refine Ends.ite (fun hnil => Ends.looks ?_) fun _ => Ends.invoke fun taken w _ => ?_
  · -- nothing to send is as good as sent
    rw [hnil, ite_self] at h
    exact Ends.ite (fun hlast => leads_ending s τ (h.last hlast)) fun hlast =>
      hpump s τ (h.ready (Bool.eq_false_of_not_eq_true hlast))
  · have hhanded : handedBy (view s).tlsActive (.write ⟨bytes, .download⟩) =
        if (view s).tlsActive then [] else bytes := rfl
    have hview : view (own (.write ⟨bytes, .download⟩) taken s) = { view s with
        writes := if taken then (view s).writes ++ [⟨bytes, .download⟩] else (view s).writes
        handed := (view s).handed ++ if (view s).tlsActive then [] else bytes } := by
      rw [view_begun h.begun, hhanded]
      cases taken <;> rfl
    generalize (if (view s).tlsActive then [] else bytes) = sent at h hview
    cases taken with
    | true =>
      have hone : outstanding ((view s).writes ++ [⟨bytes, .download⟩]) = 1 := by
        rw [outstanding, List.countP_append]
        exact congrArg (· + 1) h.none
      have hafter : Downloading d.full d.total (view (own (.write ⟨bytes, .download⟩) true s))
          (τ ++ [.answer (.write ⟨bytes, .download⟩) true]) := by
        rw [hview]
        refine ⟨{ h with calm := ?_ }, .inl ⟨?_, h.rest, ?_, hone.le, ?_,
          fun _ => hone⟩⟩
        · intro request hrequest
          rcases List.mem_append.mp hrequest with hmem | hmem
          · exact h.calm request hmem
          · rw [List.mem_singleton.mp hmem]
            rfl
        · exact h.archive ▸ rfl
        · rw [completed_seen rfl]
          exact hone.symm ▸ h.count
        · exact fun ht => (h.torn ht).append _
      exact ⟨hafter.inOrder, hafter⟩
    | false =>
      have hafter : Ending d.full (view (own (.write ⟨bytes, .download⟩) false s))
          (τ ++ [.answer (.write ⟨bytes, .download⟩) false]) := by
        rw [hview]
        exact ⟨h.toBegun.hands _, h.none, .inr ⟨writeFailed_last rfl, h.front⟩⟩
      exact ⟨hafter.inOrder, leads_ending _ _ hafter⟩

theorem ends_downloadSend {pump : LoopM Unit}
    (hpump : Leads d (Ready d.full d.total steps) pump (Downloading d.full d.total)) {plain : Bytes}
    (h : Handing d.full d.total steps plain (view s) τ) :
    Ends d (downloadSend pump plain) (fun _ => Downloading d.full d.total) s τ := by
  refine Ends.looks (Ends.ite (fun htls => ?_) fun hplain => ?_)
  · refine Ends.bind (ends_encrypt h htls) fun wire s τ hwire => ?_
    cases wire with
    | none => exact leads_ending s τ hwire
    | some wire =>
      refine ends_downloadWrite hpump ?_
      rw [if_pos hwire.2]
      exact hwire.1
  · refine ends_downloadWrite hpump ?_
    have hplain' : ¬(view s).tlsActive = true := hplain
    rwa [if_neg hplain']

end

variable {steps : List ArchiveStep} {v : View}

theorem chunksOf_cons {step : ArchiveStep} (hok : step.ok = true) (hne : step.chunk ≠ []) :
    chunksOf (step :: steps) = step.chunk :: if step.more then chunksOf steps else [] := by
  rw [chunksOf, if_neg]
  rw [hok]
  exact not_or.mpr ⟨nofun, hne⟩

theorem chunksOf_stopped {step : ArchiveStep} (h : step.ok = false ∨ step.chunk = []) :
    chunksOf (step :: steps) = [] := if_pos h

theorem Ready.ending {full : Bytes} {total : ℕ} {v' : View} {τ : History}
    (h : Ready full total steps v τ) (hnil : chunksOf steps = [])
    (hv : v' = { v with download := v'.download }) : Ending full v' τ := by
  have hrest := h.rest
  rw [hnil, List.flatten_nil, List.append_nil] at hrest
  rw [hv]
  exact ⟨{ h with }, h.none, .inl hrest⟩

theorem leads_pumpArchive (steps : List ArchiveStep) :
    Leads d (Ready d.full d.total steps) (pumpArchive steps) (Downloading d.full d.total) := by
  induction steps with
  | nil => exact fun s τ h => leads_ending s τ (h.ending rfl rfl)
  | cons step steps ih =>
    intro s τ h
    have hnext : InOrder d.full
        (view { s with conn := { s.conn with download := some steps } }) τ :=
      ⟨h.inOrder.single, h.inOrder.front, h.inOrder.torn⟩
    refine Ends.update hnext (Ends.ite (fun hok => ?_) fun hok =>
      Ends.ite (fun hnil => ?_) fun hne => ?_)
    · exact leads_ending _ τ (h.ending (chunksOf_stopped (.inl (by simpa using hok))) rfl)
    · exact leads_ending _ τ (h.ending (chunksOf_stopped (.inr hnil)) rfl)
    · have hchunks := @chunksOf_cons steps step (by simpa using hok) hne
      have hrest := h.rest
      have hcount := h.count
      rw [hchunks] at hrest hcount
      have hafter : Handing d.full d.total steps step.chunk
          (view { s with
            conn := { s.conn with download := some steps, downloadLast := !step.more } }) τ := by
        have hleft :
            left (view { s with
              conn := { s.conn with download := some steps, downloadLast := !step.more } }) =
            if step.more then chunksOf steps else [] := by
          change (if !step.more then [] else chunksOf steps) = _
          cases step.more <;> rfl
        refine ⟨{ h with }, rfl, h.none, ?_, ?_, h.torn⟩
        · rw [hleft, List.append_assoc]
          exact hrest
        · rw [hleft]
          rw [List.length_cons] at hcount
          omega
      exact Ends.update hafter.inOrder (ends_downloadSend ih hafter)

theorem leads_pumpDownload :
    Leads d (fun v τ => Ready d.full d.total steps v τ ∧ v.download = some steps) pumpDownload
      (Downloading d.full d.total) := by
  rintro s τ ⟨h, harchive⟩
  have hconn : s.conn.download = some steps := harchive
  refine Ends.looks ?_
  rw [hconn]
  exact leads_pumpArchive steps s τ h

/-! ## The beginning of a download -/

structure Asked (v : View) (τ : History) : Prop where
  fresh : completed τ = 0
  unbegun : v.begun = false
  none : outstanding v.writes = 0
  calm : Calm v.writes
  untorn : v.torn = false
  state : v.state = .handshaking
  done : v.httpDone = true
  http : v.httpMode = true
  decided : v.protoDecided = true
  detected : v.tlsDetected = true

theorem still_asked : Still d Asked where
  inOrder h := inOrder_of_unbegun h.unbegun h.none
  seen hx h := { h with fresh := (completed_seen hx _).trans h.fresh }

theorem leads_beginDownloadResponse :
    Leads d Asked (beginDownloadResponse d.sessionId d.dirPath) (Downloading d.full d.total) := by
  intro s τ h
  refine Ends.invoke fun archive w hallowed => ?_
  obtain rfl : archive = some d.steps := hallowed.2
  have hview : view (own (.archiveBegin d.dirPath d.sessionId) (some d.steps) s) =
      { view s with begun := true, handed := [] } := by
    rw [view_own, h.unbegun]
    rfl
  have horder : InOrder d.full { view s with begun := true, handed := [] }
      (τ ++ [.answer (.archiveBegin d.dirPath d.sessionId) (some d.steps)]) :=
    ⟨h.none.trans_le (Nat.zero_le 1), fun _ => List.nil_prefix,
      fun _ ht => nomatch h.untorn.symm.trans ht⟩
  refine ⟨hview.symm ▸ horder, ?_⟩
  have hstate : (view s).state ≠ .streaming := fun hs => nomatch h.state.symm.trans hs
  have hcount :
      completed (τ ++ [.answer (.archiveBegin d.dirPath d.sessionId) (some d.steps)]) + 1 +
      (chunksOf d.steps).length ≤ d.total := by
    rw [completed_seen rfl, h.fresh, Nat.zero_add, Nat.add_comm]
    exact le_rfl
  generalize own (.archiveBegin d.dirPath d.sessionId) (some d.steps) s = s' at hview
  have hafter : Handing d.full d.total d.steps (downloadHead d.sessionId)
      (view { s' with conn := { s'.conn with download := some d.steps, downloadLast := false } })
      (τ ++ [.answer (.archiveBegin d.dirPath d.sessionId) (some d.steps)]) := by
    have hset : view { s' with
        conn := { s'.conn with download := some d.steps, downloadLast := false } } =
        { view s' with download := some d.steps, downloadLast := false } := rfl
    rw [hset, hview]
    exact ⟨{ h with begun := rfl, state := hstate }, rfl, h.none, rfl, hcount,
      fun ht => nomatch h.untorn.symm.trans ht⟩
  exact Ends.update hafter.inOrder (ends_downloadSend (leads_pumpArchive d.steps) hafter)

/-! ## Incoming data -/

section
variable {bad : Prop} {s : LoopState} {τ : History}

theorem ends_off {p : LoopM α} (hp : Leads d (fun v _ => Off v) p fun v _ => Off v)
    (h : Off (view s)) (hbad : bad → Failed τ) :
    Ends d p (fun _ => Inside d.full d.total bad) s τ :=
  Ends.inside ((hp s τ h).mono fun _ _ _ => .inl) hbad

theorem ends_answers (h : Pending (view s) τ) (hdetected : (view s).tlsDetected = true)
    (hdecided : (view s).protoDecided = true) (hbad : bad → Failed τ) (block : Bytes) :
    Ends d (update (fun c => { c with httpDone := true }) >>=
      fun _ => match parseHttpRequest block with
      | none => sendBadRequest
      | some request => invoke (.dispatchHttp request) >>= fun actions => actAll actions)
      (fun _ => Inside d.full d.total bad) s τ := by
  have hasked : Asked (view { s with conn := { s.conn with httpDone := true } }) τ :=
    { h with done := rfl, http := h.http hdecided, decided := hdecided, detected := hdetected }
  have hoff : Off (view { s with conn := { s.conn with httpDone := true } }) :=
    ⟨h.unbegun, h.none, .inr (.inl rfl)⟩
  refine Ends.update hoff.inOrder ?_
  cases parseHttpRequest block with
  | none => exact ends_off (off_stream.sendHttpSimple _ _ _ _ _) hoff hbad
  | some request =>
    refine Ends.inside (Ends.invoke fun actions w hallowed => ?_) hbad
    obtain rfl : actions = [.beginDownload d.sessionId d.dirPath] := hallowed.2
    have hasked' := still_asked.op (d := d) (.dispatchHttp request) trivial _ τ hasked
      [.beginDownload d.sessionId d.dirPath] w hallowed
    refine ⟨hasked'.1, Ends.bind (leads_beginDownloadResponse _ _ hasked'.2) fun _ s τ hdown => ?_⟩
    exact .inr hdown

theorem ends_handleHttpData (h : Pending (view s) τ) (hdetected : (view s).tlsDetected = true)
    (hdecided : (view s).protoDecided = true) (hbad : bad → Failed τ) :
    Ends d handleHttpData (fun _ => Inside d.full d.total bad) s τ := by
  have hundone : s.conn.httpDone = false := h.undone
  have hwait : Inside d.full d.total bad (view s) τ := ⟨.inr (.inl ⟨h, hdetected⟩), hbad⟩
  refine Ends.looks ?_
  rw [hundone]
  refine Ends.ite (fun hno => nomatch hno) fun _ => Ends.ite (fun _ => ?_) fun _ => ?_
  · refine Ends.ite (fun _ => ?_) fun _ => hwait
    have hoff : Off (view { s with conn := { s.conn with httpDone := true } }) :=
      ⟨h.unbegun, h.none, .inr (.inl rfl)⟩
    exact Ends.update hoff.inOrder (ends_off (off_stream.sendHttpSimple _ _ _ _ _) hoff hbad)
  · exact ends_answers h hdetected hdecided hbad _

theorem ends_handleHttpData_done (h : Inside d.full d.total bad (view s) τ)
    (hdone : (view s).httpDone = true) :
    Ends d handleHttpData (fun _ => Inside d.full d.total bad) s τ :=
  Ends.looks (Ends.ite (fun _ => h) fun hno => absurd hdone hno)

theorem view_decideProtocol (s : LoopState) (data : Bytes) {c : Connection}
    (hc : c = decideProtocol (s.conn.appending data)) :
    view { s with conn := c } = { view s with
      protoDecided := c.protoDecided, httpMode := c.httpMode } := by
  have hsame := decideProtocol_eq (s.conn.appending data)
  rw [← hc] at hsame
  exact congrArg (fun c => view { s with conn := c }) hsame

theorem Inside.decides (h : Inside d.full d.total bad v τ) {decided http : Bool}
    (hkept : v.protoDecided = true → decided = true ∧ http = v.httpMode) :
    Inside d.full d.total bad { v with protoDecided := decided, httpMode := http } τ := by
  refine ⟨?_, h.failed⟩
  rcases h.place with hoff | ⟨hpending, hdetected⟩ | hdown
  · refine .inl ⟨hoff.unbegun, hoff.none,
      hoff.barred.imp_right (Or.imp_right fun ⟨hdecided, hhttp⟩ => ?_)⟩
    exact ⟨(hkept hdecided).1, (hkept hdecided).2.trans hhttp⟩
  · by_cases hother : decided = true ∧ http = false
    · exact .inl ⟨hpending.unbegun, hpending.none, .inr (.inr hother)⟩
    · have hhttp : decided = true → http = true := fun hd => by
        simpa using fun hh => hother ⟨hd, hh⟩
      exact .inr (.inl ⟨{ hpending with http := hhttp }, hdetected⟩)
  · obtain ⟨hdecided, hhttp⟩ := hkept hdown.decided
    refine .inr (.inr ⟨{ hdown with http := hhttp.trans hdown.http, decided := hdecided },
      hdown.flow.imp (fun hlive => ?_) fun hover => ?_⟩)
    · exact { hlive with }
    · exact ⟨hover.torn, hover.none, hover.ended⟩

theorem ends_handleHandshakeData (h : Inside d.full d.total bad (view s) τ)
    (hstate : (view s).state = .handshaking) (data : Bytes) :
    Ends d (handleHandshakeData d.config data) (fun _ => Inside d.full d.total bad) s τ := by
  have hkept : (view s).protoDecided = true → decideProtocol (s.conn.appending data) =
      s.conn.appending data := fun hdecided => if_pos hdecided
  have hview := view_decideProtocol s data rfl
  change Ends d (update (fun c => decideProtocol (c.appending data)) >>= fun _ =>
    this >>= fun c => if !c.protoDecided then .ret () else if c.httpMode then handleHttpData
      else if c.handshakeBuffer.length < kHandshakeRequestSize then .ret ()
      else answerHandshake d.config c.handshakeBuffer) _ s τ
  have hafter : Inside d.full d.total bad
      (view { s with conn := decideProtocol (s.conn.appending data) }) τ := by
    rw [hview]
    refine h.decides fun hdecided => ?_
    rw [hkept hdecided]
    exact ⟨hdecided, rfl⟩
  refine Ends.update (still_inside.inOrder hafter) (Ends.looks ?_)
  have hstate' : (view { s with conn := decideProtocol (s.conn.appending data) }).state =
    .handshaking := hview ▸ hstate
  generalize ({ s with conn := decideProtocol (s.conn.appending data) } : LoopState) =
    s' at hafter hstate'
  clear hview hkept h hstate
  refine Ends.ite (fun _ => hafter) fun hdecided => Ends.ite (fun hhttp => ?_) fun hhttp => ?_
  · have hdecided' : s'.conn.protoDecided = true := by simpa using hdecided
    rcases hafter.place with hoff | ⟨hpending, hdetected⟩ | hdown
    · rcases hoff.barred with hno | hdone | ⟨-, hno⟩
      · exact absurd hstate' hno
      · exact ends_handleHttpData_done hafter hdone
      · exact nomatch hno.symm.trans hhttp
    · exact ends_handleHttpData hpending hdetected hdecided' hafter.failed
    · exact ends_handleHttpData_done hafter hdown.done
  · refine Ends.ite (fun _ => hafter) fun _ => ?_
    have hdecided' : s'.conn.protoDecided = true := by simpa using hdecided
    rcases hafter.place with hoff | ⟨hpending, -⟩ | hdown
    · exact ends_off (off_stream.answerHandshake d.config _) hoff hafter.failed
    · exact absurd (hpending.http hdecided') hhttp
    · exact absurd hdown.http hhttp

theorem inside_handleData (data : Bytes) :
    Leads d (Inside d.full d.total bad) (handleData d.config data) (Inside d.full d.total bad) := by
  intro s τ h
  refine Ends.looks (Ends.note (still_inside.inOrder h) ?_)
  cases hstate : s.conn.state with
  | handshaking =>
    apply ends_handleHandshakeData
    · exact h
    · exact hstate
  | streaming =>
    have hstate' : (view s).state = .streaming := hstate
    rcases h.place with hoff | ⟨hpending, -⟩ | hdown
    · have hstreams : Leads d (fun v _ => Off v)
          (update (fun c => { c with wireBytes := c.wireBytes + data.length })
          >>= fun _ => invoke (.push data) >>= fun _ => applyBackpressure d.config)
            fun v _ => Off v := by
        apply (still_off.update fun _ => rfl).bind
        intro _
        exact (still_off.op (.push data) trivial).bind fun _ =>
          off_stream.applyBackpressure d.config
      exact ends_off hstreams hoff h.failed
    · exact nomatch hpending.state.symm.trans hstate'
    · exact absurd hstate' hdown.state
  | closing => exact h

variable {answers : List SslAnswer}

theorem inside_ingestRead (hbad : failsIn answers = true → bad) :
    Leads d (Inside d.full d.total bad) (ingestRead d.config answers)
      (Inside d.full d.total bad) := by
  induction answers with
  | nil => exact .ret ()
  | cons answer answers ih =>
    obtain ⟨result, sent⟩ := answer
    apply (still_inside.update fun _ => rfl).bind
    intro _
    cases result with
    | success data => exact (inside_handleData data).bind fun _ => ih hbad
    | wantRead => exact inside_flushOut
    | wantWrite => exact inside_flushOut.bind fun _ => ih hbad
    | failure => exact fun s τ h => inside_teardown s τ ⟨h, h.failed (hbad rfl)⟩

theorem inside_ingestAccept (hbad : failsIn answers = true → bad) :
    Leads d (Inside d.full d.total bad) (ingestAccept d.config answers)
      (Inside d.full d.total bad) := by
  induction answers with
  | nil => exact .ret ()
  | cons answer answers ih =>
    obtain ⟨result, sent⟩ := answer
    apply (still_inside.update fun _ => rfl).bind
    intro _
    cases result with
    | success data =>
      apply (still_inside.update fun _ => rfl).bind
      intro _
      exact inside_flushOut.bind fun _ => inside_ingestRead hbad
    | wantRead => exact inside_flushOut
    | wantWrite => exact inside_flushOut.bind fun _ => ih hbad
    | failure => exact fun s τ h => inside_teardown s τ ⟨h, h.failed (hbad rfl)⟩

theorem inside_handlePlainOrTls (data : Bytes) (hbad : failsIn answers = true → bad) :
    Leads d (Inside d.full d.total bad) (handlePlainOrTls d.config data answers)
      (Inside d.full d.total bad) := by
  refine .looks fun c => .ite (.looks fun c => ?_) (inside_handleData data)
  exact .ite (inside_ingestRead hbad) (inside_ingestAccept hbad)

structure Detected (bad : Prop) (v : View) (τ : History) : Prop where
  place : Off v ∨ Pending v τ ∧ v.tlsDetected = true
  failed : bad → Failed τ

theorem Detected.inside {τ : History} (h : Detected bad v τ) : Inside d.full d.total bad v τ :=
  ⟨h.place.imp_right .inl, h.failed⟩

theorem still_detected : Still d (Detected bad) where
  inOrder h := h.place.elim Off.inOrder fun h => h.1.inOrder
  seen hx h :=
    ⟨h.place.imp_right (And.imp_left (Pending.seen hx)), fun hbad => (h.failed hbad).append _⟩

theorem leads_detected (data : Bytes) (hbad : failsIn answers = true → bad) :
    Leads d (Detected bad) (this >>= fun c => if c.tlsActive then invoke .tlsInit >>= fun ok =>
      if !ok then beginTeardown else handlePlainOrTls d.config data answers
      else handlePlainOrTls d.config data answers) (Inside d.full d.total bad) := by
  have hgo : Leads d (Detected bad) (handlePlainOrTls d.config data answers)
      (Inside d.full d.total bad) :=
    fun s τ h => inside_handlePlainOrTls data hbad s τ h.inside
  refine .looks fun c =>
    .ite ((still_detected.op .tlsInit trivial).bind fun ok => .ite (fun s τ h => ?_) hgo) hgo
  have hplace : Off (view s) ∨ Pending (view s) τ := h.place.imp_right And.left
  exact Ends.inside ((leads_unasked s τ hplace).mono fun _ _ _ => .inl) h.failed

theorem view_detectTls (s : LoopState) (data : Bytes) :
    ∃ active bytes, view { s with conn := detectTls data s.conn } =
      { view s with tlsDetected := true, tlsActive := active, handed := bytes } := by
  unfold detectTls
  split_ifs
  · exact ⟨true, _, rfl⟩
  · exact ⟨s.conn.tlsActive, _, rfl⟩

theorem ends_handleRaw (h : Rest d.full d.total (view s) τ) (data : Bytes)
    (hfailed : failsIn answers = true → Failed τ) :
    Ends d (handleRaw d.config data answers) (fun _ => Rest d.full d.total) s τ := by
  refine Ends.mono (Q := fun _ => Inside d.full d.total (failsIn answers = true)) ?_
    fun _ _ _ h => h.rest
  refine Ends.looks (Ends.ite (fun hnew => ?_) fun hold => ?_)
  · have hundetected : s.conn.tlsDetected = false := by simpa using hnew.2
    obtain ⟨active, bytes, hview⟩ := view_detectTls s data
    have hafter : Detected (failsIn answers = true)
        (view { s with conn := detectTls data s.conn }) τ := by
      rw [hview]
      refine ⟨?_, hfailed⟩
      rcases h with hpending | hoff | hdown
      · exact .inr ⟨{ hpending with }, rfl⟩
      · exact .inl ⟨hoff.unbegun, hoff.none, hoff.barred⟩
      · exact nomatch hundetected.symm.trans hdown.detected
    exact Ends.update (still_detected.inOrder hafter) (leads_detected data id _ τ hafter)
  · refine inside_handlePlainOrTls data id s τ ⟨?_, hfailed⟩
    rcases h with hpending | hoff | hdown
    · refine .inr (.inl ⟨hpending, ?_⟩)
      by_contra hno
      have hundetected : s.conn.tlsDetected = false := Bool.eq_false_of_not_eq_true hno
      exact hold ⟨hpending.state, by rw [hundetected]; rfl⟩
    · exact .inl hoff
    · exact .inr (.inr hdown)

end

end Dicker.Server.Handover
