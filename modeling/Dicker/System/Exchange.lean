import Dicker.System.RoundTrip

/-! What the two logs of an accept-mode connection have to do with each other. A log is
read through projections, each of which turns the joining of logs into the joining of
lists, so that the accounts of two stretches of a run add up to one of both. -/

namespace Dicker.System
open Lib Program Client Server

/-! ## The client's log -/

inductive Verdict where
  | uploaded (u : AcceptedUnit) (ok : Bool)
  | skipped (u : AcceptedUnit)
  deriving DecidableEq

def replies : Client.Log → List Bytes :=
  List.filterMap fun
    | .got z => some z
    | .did _ _ => none

def verdicts : Client.Log → List Verdict :=
  List.filterMap fun
    | .did (.event (.finished path type offset _ _ _ ok)) _ =>
      some (.uploaded ⟨type, path, offset⟩ ok)
    | .did (.event (.skipped path type offset _ _)) _ => some (.skipped ⟨type, path, offset⟩)
    | _ => none

structure Awaiting where
  pending : List PendingUnit
  awaited : List PendingUnit

def Awaiting.next (a : Awaiting) : Entry Client.Op Client.Op.Ans → Awaiting
  | .did (.setPending units) _ => ⟨units, a.awaited⟩
  | .did .await _ => ⟨a.pending, a.awaited ++ a.pending⟩
  | _ => a

def Awaiting.after (a : Awaiting) (t : Client.Log) : Awaiting := t.foldl Awaiting.next a

theorem Awaiting.after_append (a : Awaiting) (t e : Client.Log) :
    a.after (t ++ e) = (a.after t).after e := List.foldl_append

def Windowed (t : Client.Log) : Prop :=
  ∀ units, Entry.did (Client.Op.setPending units) () ∈ t → units.length ≤ kProbeWindow

/-! ## The server's log -/

def decisions : Server.Log → List (Probe × Bool) :=
  List.filterMap fun
    | .did (.query (.filter p)) accepted => some (p, accepted)
    | _ => none

def opens : Server.Log → List Query :=
  List.filterMap fun
    | .did (.query (.openSequential path)) _ => some (.openSequential path)
    | .did (.query (.openOffset path)) _ => some (.openOffset path)
    | _ => none

def skips : Server.Log → List AcceptedUnit :=
  List.filterMap fun
    | .did (.event (.skipped path type offset _)) _ => some ⟨type, path, offset⟩
    | _ => none

def faults : Server.Log → List Server.Event :=
  List.filterMap fun
    | .did (.event (.unknownKey key)) _ => some (.unknownKey key)
    | .did (.event .unitWithoutProbe) _ => some .unitWithoutProbe
    | _ => none

def IsSkip : Server.Op → Bool
  | .event (.skipped ..) => true
  | _ => false

def stores (t : Server.Log) : List Server.Op := (unitOps t).filter fun op => !IsSkip op

/-! ## The account of a stretch -/

def probeOf (k : Codecs) (hashFirst : Bool) (src : Source) : Probe where
  path := src.task.pathname.bytes
  type := src.task.type
  offset := src.task.offset
  length := src.task.length
  fileSize := src.task.fileSize
  mtime := src.task.mtime
  hash := if hashFirst then (k.blake3 src.hashed.flatten).bytes else []

theorem probeFrame_eq (k : Codecs) (w : Worker k.enc.State) (src : Source) :
    probeFrame k w src = probeBytes w.nextKey (probeOf k w.hashFirst src) := rfl

def unitOf (u : PendingUnit) : AcceptedUnit := announced u.source.task

def verdictOf (u : PendingUnit) : Verdict :=
  if u.accepted then .uploaded (unitOf u) true else .skipped (unitOf u)

def acceptedSources (us : List PendingUnit) : List Source :=
  (us.filter (·.accepted)).map (·.source)

structure Asked (p p' resolved : List PendingUnit) (t : Client.Log) : Prop where
  replied : replies t = resolved.map PendingUnit.reply
  told : verdicts t = resolved.map verdictOf
  awaited : ∀ a, Awaiting.after ⟨p, a⟩ t = ⟨p', a ++ resolved.map PendingUnit.undecided⟩
  window : Windowed t

structure Served (k : Codecs) (hashFirst integrity : Bool) (probed resolved : List PendingUnit)
    (t : Server.Log) : Prop where
  decided : decisions t = probed.map fun u => (probeOf k hashFirst u.source, u.accepted)
  skipped : skips t = (probed.filter (!·.accepted)).map unitOf
  opened : opens t = (acceptedSources resolved).map fun src => openQuery (announced src.task)
  stored : ∃ uploads, List.Forall₂ (Delivers k.xxh64 integrity) (acceptedSources resolved) uploads ∧
    stores t = uploadOps k.xxh64 integrity uploads
  faultless : faults t = []

theorem acceptedSources_append (us vs : List PendingUnit) :
    acceptedSources (us ++ vs) = acceptedSources us ++ acceptedSources vs := by
  rw [acceptedSources, List.filter_append, List.map_append]
  rfl

/-! Accounts add up. -/

theorem Asked.nil (p : List PendingUnit) : Asked p p [] [] where
  replied := rfl
  told := rfl
  awaited a := by
    rw [List.map_nil, List.append_nil]
    rfl
  window units hu := by cases hu

theorem Asked.trans {p p' p'' resolved resolved' : List PendingUnit} {t e : Client.Log}
    (h : Asked p p' resolved t) (h' : Asked p' p'' resolved' e) :
    Asked p p'' (resolved ++ resolved') (t ++ e) where
  replied := by
    rw [List.map_append, ← h.replied, ← h'.replied]
    exact List.filterMap_append
  told := by
    rw [List.map_append, ← h.told, ← h'.told]
    exact List.filterMap_append
  awaited a := by
    rw [Awaiting.after_append, h.awaited, h'.awaited, List.map_append, List.append_assoc]
  window units hu := (List.mem_append.mp hu).elim (h.window units) (h'.window units)

section
variable {k : Codecs} {hashFirst integrity : Bool}

theorem Served.trans {probed probed' resolved resolved' : List PendingUnit} {t e : Server.Log}
    (h : Served k hashFirst integrity probed resolved t)
    (h' : Served k hashFirst integrity probed' resolved' e) :
    Served k hashFirst integrity (probed ++ probed') (resolved ++ resolved') (t ++ e) where
  decided := by
    rw [List.map_append, ← h.decided, ← h'.decided]
    exact List.filterMap_append
  skipped := by
    rw [List.filter_append, List.map_append, ← h.skipped, ← h'.skipped]
    exact List.filterMap_append
  opened := by
    rw [acceptedSources_append, List.map_append, ← h.opened, ← h'.opened]
    exact List.filterMap_append
  stored := by
    obtain ⟨us, hus, ht⟩ := h.stored
    obtain ⟨vs, hvs, he⟩ := h'.stored
    refine ⟨us ++ vs, ?_, ?_⟩
    · rw [acceptedSources_append]
      exact List.rel_append hus hvs
    · rw [stores, unitOps_append, List.filter_append, uploadOps, List.flatMap_append]
      exact congrArg₂ _ ht he
  faultless := by
    have happend : faults (t ++ e) = faults t ++ faults e := List.filterMap_append
    rw [happend, h.faultless, h'.faultless]
    rfl

theorem Served.of_calls {probed resolved : List PendingUnit} {t : Server.Log}
    (h : Served k hashFirst integrity probed resolved (calls t)) :
    Served k hashFirst integrity probed resolved t where
  decided := (filterMap_calls (fun _ => rfl) t).symm.trans h.decided
  skipped := (filterMap_calls (fun _ => rfl) t).symm.trans h.skipped
  opened := (filterMap_calls (fun _ => rfl) t).symm.trans h.opened
  stored := by
    obtain ⟨us, hus, ht⟩ := h.stored
    rw [stores, unitOps_calls] at ht
    exact ⟨us, hus, ht⟩
  faultless := (filterMap_calls (fun _ => rfl) t).symm.trans h.faultless

end

/-! ## Probes -/

theorem Asked.probe {p : List PendingUnit} {u : PendingUnit} (frame : Bytes)
    (hp : (p ++ [u.undecided]).length ≤ kProbeWindow) :
    Asked p (p ++ [u.undecided]) []
      [.did (.setPending (p ++ [u.undecided])) (), enqueued frame] where
  replied := rfl
  told := rfl
  awaited a := by
    rw [List.map_nil, List.append_nil]
    rfl
  window := by
    intro units hu
    rcases List.mem_cons.mp hu with heq | hu
    · cases heq
      exact hp
    · cases List.mem_singleton.mp hu

theorem Served.probe (k : Codecs) (hashFirst integrity : Bool) (u : PendingUnit) :
    Served k hashFirst integrity [u] []
      (decisionLog u.key (probeOf k hashFirst u.source) u.accepted) := by
  obtain ⟨key, source, accepted⟩ := u
  cases accepted with
  | true => exact ⟨rfl, rfl, rfl, ⟨[], .nil, rfl⟩, rfl⟩
  | false => exact ⟨rfl, rfl, rfl, ⟨[], .nil, rfl⟩, rfl⟩

/-! ## Units -/

structure Sends (vs : List Verdict) (t : Client.Log) : Prop where
  silent : replies t = []
  told : verdicts t = vs
  awaits : ∀ a : Awaiting, a.after t = a
  settled : ∀ units, Entry.did (Client.Op.setPending units) () ∉ t

theorem Sends.append {vs ws : List Verdict} {t e : Client.Log} (h : Sends vs t) (h' : Sends ws e) :
    Sends (vs ++ ws) (t ++ e) where
  silent := by
    have happend : replies (t ++ e) = replies t ++ replies e := List.filterMap_append
    rw [happend, h.silent, h'.silent]
    rfl
  told := by
    rw [← h.told, ← h'.told]
    exact List.filterMap_append
  awaits a := by
    rw [Awaiting.after_append, h.awaits, h'.awaits]
  settled units hu := (List.mem_append.mp hu).elim (h.settled units) (h'.settled units)

theorem Sends.enqueued {t : Client.Log} (ht : ∀ x ∈ t, ∃ data, x = Client.enqueued data) :
    Sends [] t := by
  induction t with
  | nil => exact ⟨rfl, rfl, fun _ => rfl, fun _ hu => by cases hu⟩
  | cons x t ih =>
    obtain ⟨data, rfl⟩ := ht x List.mem_cons_self
    have hrest := ih fun y hy => ht y (List.mem_cons_of_mem _ hy)
    refine ⟨hrest.silent, hrest.told, hrest.awaits, fun units hu => ?_⟩
    rcases List.mem_cons.mp hu with heq | hu
    · cases heq
    · exact hrest.settled units hu

theorem Sends.asked {t : Client.Log} (h : Sends [] t) (p : List PendingUnit) : Asked p p [] t where
  replied := h.silent
  told := h.told
  awaited a := by rw [h.awaits, List.map_nil, List.append_nil]
  window units hu := absurd hu (h.settled units)

theorem uploadLog_enqueued (xxh64 : Bytes → UInt64) (integrity : Bool) (header : Bytes)
    (outs : List Bytes) (written : Bytes) :
    ∀ x ∈ uploadLog xxh64 integrity header outs written, ∃ data, x = Client.enqueued data := by
  intro x hx
  simp only [uploadLog, trailerLog, blockLog, List.mem_cons, List.mem_append, List.mem_flatMap,
    List.not_mem_nil, or_false] at hx
  rcases hx with rfl | ⟨out, -, rfl | rfl⟩ | rfl | hx
  · exact ⟨_, rfl⟩
  · exact ⟨_, rfl⟩
  · exact ⟨_, rfl⟩
  · exact ⟨_, rfl⟩
  · split_ifs at hx
    · exact ⟨_, List.mem_singleton.mp hx⟩
    · cases hx

theorem Sends.event (e : Client.Event) :
    Sends (verdicts [.did (.event e) ()]) [.did (.event e) ()] := by
  refine ⟨rfl, rfl, fun _ => rfl, fun units hu => ?_⟩
  cases List.mem_singleton.mp hu

theorem Sends.sendLog (xxh64 : Bytes → UInt64) (integrity : Bool) (src : Source) (header : Bytes)
    (outs : List Bytes) :
    Sends [.uploaded (announced src.task) true]
      (Client.sendLog xxh64 integrity src header outs) := by
  have hbytes := Sends.enqueued (uploadLog_enqueued xxh64 integrity header outs src.blocks.flatten)
  exact (Sends.event (.started ..)).append (hbytes.append (Sends.event (.finished ..)))

theorem Sends.resolvedLog (k : Codecs) (integrity : Bool) (e : k.enc.State)
    (us : List PendingUnit) :
    Sends (us.map verdictOf) (Client.resolvedLog k integrity e us) := by
  induction us generalizing e with
  | nil => exact Sends.enqueued fun x hx => by cases hx
  | cons u us ih =>
    rw [Client.resolvedLog, List.map_cons, verdictOf]
    split_ifs
    · exact (Sends.sendLog ..).append (ih _)
    · exact (Sends.event (skippedEvent u.source.task)).append (ih e)

theorem Asked.resolve (k : Codecs) (integrity : Bool) (e : k.enc.State) (us : List PendingUnit) :
    Asked (us.map PendingUnit.undecided) [] us (resolveLog k integrity e us) := by
  have hsends := Sends.resolvedLog k integrity e us
  have hgots : ∀ vs : List PendingUnit, replies (vs.map fun u => .got u.reply) =
      vs.map PendingUnit.reply ∧ verdicts (vs.map fun u => .got u.reply) = [] ∧
      ∀ a : Awaiting, a.after (vs.map fun u => .got u.reply) = a := by
    intro vs
    induction vs with
    | nil => exact ⟨rfl, rfl, fun _ => rfl⟩
    | cons v vs ih => exact ⟨congrArg (List.cons _) ih.1, ih.2.1, ih.2.2⟩
  obtain ⟨hreplies, htold, hafter⟩ := hgots us
  refine ⟨?_, ?_, fun a => ?_, fun units hu => ?_⟩
  · change List.filterMap _ (_ ++ (_ ++ [_])) = _
    rw [List.filterMap_append, List.filterMap_append]
    change replies _ ++ (replies _ ++ []) = _
    rw [hreplies, hsends.silent, List.append_nil, List.append_nil]
  · change List.filterMap _ (_ ++ (_ ++ [_])) = _
    rw [List.filterMap_append, List.filterMap_append]
    change verdicts _ ++ (verdicts _ ++ []) = _
    rw [htold, hsends.told, List.append_nil, List.nil_append]
  · change Awaiting.after ⟨us.map PendingUnit.undecided, a ++ us.map PendingUnit.undecided⟩ _ = _
    rw [Awaiting.after_append, Awaiting.after_append, hafter, hsends.awaits]
    rfl
  · rcases List.mem_cons.mp hu with heq | hu
    · cases heq
    rcases List.mem_append.mp hu with hu | hu
    · obtain ⟨u, -, heq⟩ := List.mem_map.mp hu
      cases heq
    rcases List.mem_append.mp hu with hu | hu
    · exact absurd hu (hsends.settled units)
    · cases List.mem_singleton.mp hu
      exact Nat.zero_le _

theorem filterMap_unitLog {γ : Type} {f : Entry Server.Op Server.Op.Ans → Option γ}
    {u : AcceptedUnit} (hf : ∀ n piece, f (.did (.query (storeQuery u n piece)) true) = none)
    (payloads pieces : List Bytes) :
    (unitLog u payloads pieces).filterMap f =
      (opening u).filterMap f ++ (goodEnd u payloads pieces).filterMap f := by
  have hwrote : ∀ n, (wrote u n pieces).filterMap f = [] := by
    induction pieces with
    | nil => exact fun _ => rfl
    | cons piece pieces ih =>
      intro n
      rw [wrote, List.filterMap_cons_none (hf n piece), ih]
  rw [unitLog, List.filterMap_append, List.filterMap_append, hwrote, List.nil_append]

theorem unitLog_projections (u : AcceptedUnit) (payloads pieces : List Bytes) :
    decisions (unitLog u payloads pieces) = [] ∧ skips (unitLog u payloads pieces) = [] ∧
    faults (unitLog u payloads pieces) = [] ∧ opens (unitLog u payloads pieces) =
      [openQuery u] := by
  obtain ⟨type, path, offset⟩ := u
  refine ⟨?_, ?_, ?_, ?_⟩
  all_goals
    cases type <;> exact filterMap_unitLog (fun _ _ => rfl) payloads pieces

theorem uploaded_not_skip (xxh64 : Bytes → UInt64) (integrity : Bool) (u : Upload) :
    (Report.ops xxh64 integrity (.uploaded u)).filter (fun op => !IsSkip op) =
      Report.ops xxh64 integrity (.uploaded u) := by
  rw [List.filter_eq_self]
  intro op hop
  rcases List.mem_cons.mp hop with rfl | hop
  · rfl
  rcases List.mem_append.mp hop with hop | hop
  · obtain ⟨q, rfl⟩ := writesFrom_query u.unit 0 u.pieces op hop
    rfl
  · rw [List.mem_singleton.mp hop]
    rfl

theorem Served.unit (k : Codecs) (hashFirst integrity : Bool) {u : PendingUnit}
    (hu : u.accepted = true) {payloads pieces : List Bytes}
    (hpieces : pieces.flatten = u.source.blocks.flatten) :
    Served k hashFirst integrity [] [u] (unitLog (unitOf u) payloads pieces) := by
  have hsource : acceptedSources [u] = [u.source] := by
    rw [acceptedSources, List.filter_cons_of_pos hu]
    rfl
  obtain ⟨hdec, hskip, hfault, hopen⟩ := unitLog_projections (unitOf u) payloads pieces
  refine ⟨hdec, hskip, ?_, ⟨[goodUpload k.xxh64 integrity (unitOf u) payloads pieces], ?_, ?_⟩,
    hfault⟩
  · rw [hsource, hopen]
    rfl
  · rw [hsource]
    exact .cons ⟨rfl, goodUpload_ok .., hpieces⟩ .nil
  · rw [stores, unitOps_unitLog k.xxh64 integrity, uploaded_not_skip, uploadOps,
      List.flatMap_singleton]

theorem Served.rejected (k : Codecs) (hashFirst integrity : Bool) {u : PendingUnit}
    (hu : u.accepted = false) : Served k hashFirst integrity [] [u] [] := by
  have hsource : acceptedSources [u] = [] := by
    rw [acceptedSources, List.filter_cons_of_neg (by rw [hu]; decide)]
    rfl
  refine ⟨rfl, rfl, ?_, ⟨[], ?_, rfl⟩, rfl⟩
  · rw [hsource]
    rfl
  · rw [hsource]
    exact .nil

theorem Served.nil (k : Codecs) (hashFirst integrity : Bool) :
    Served k hashFirst integrity [] [] [] := ⟨rfl, rfl, rfl, ⟨[], .nil, rfl⟩, rfl⟩

end Dicker.System
