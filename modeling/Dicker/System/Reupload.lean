import Dicker.Client.Scheduler
import Dicker.Server.FileStore
import Dicker.System.ServedUpload

/-! Files that are stored once more. The units of one file are spread over the connections of
a session, whose consumers write to the stored file in any order. -/

namespace Dicker.System
open Lib Program Relation
open Client (Task Source Codecs Worker Conn Cooperative workerTask storedLz4 unstarted)
open Client.Scheduler (Tiles enqueue tiles_of_enqueue enqueue_chunks enqueue_empty)
open Server

structure Transfer where
  task : Task
  pieces : List Bytes

def Transfer.unit (u : Transfer) : AcceptedUnit := announced u.task

def slice (src : Bytes) (t : Task) : Bytes := (src.drop t.offset.toNat).take t.length.toNat

/-- Every unit goes to one of `n` connections, in some order there, and carries its part of
the source. -/
structure Assigned (src : Bytes) (tasks : List Task) {n : ℕ}
    (plan : Fin n → List Transfer) : Prop where
  perm : ((List.ofFn plan).flatten.map Transfer.task).Perm tasks
  carries : ∀ i, ∀ u ∈ plan i, u.pieces.flatten = slice src u.task

abbrev Uploading (n : ℕ) := Pool (Fin n) FsOp FsOp.Ans Bool Stored

def connection (uploads : List Transfer) : FsM Bool :=
  serveAll 0 (uploads.flatMap fun u => unitQueries u.unit u.pieces)

structure Uploaded {n : ℕ} (plan : Fin n → List Transfer) (old : Stored)
    (c : Uploading n) : Prop where
  run : ReflTransGen (Pool.Step fileStore) (Pool.start (fun i => connection (plan i)) old) c
  finished : ∀ i, c.procs i = .ret true

section
variable {src : Bytes} {tasks : List Task} {n : ℕ} {plan : Fin n → List Transfer} {old : Stored}
  {c : Uploading n}

theorem Assigned.mem_tasks (h : Assigned src tasks plan) {i : Fin n} {u : Transfer}
    (hu : u ∈ plan i) : u.task ∈ tasks := by
  refine h.perm.mem_iff.mp (List.mem_map_of_mem (List.mem_flatten.mpr ⟨plan i, ?_, hu⟩))
  exact List.mem_ofFn.mpr ⟨i, rfl⟩

theorem Assigned.exists_upload (h : Assigned src tasks plan) {t : Task} (ht : t ∈ tasks) :
    ∃ i, ∃ u ∈ plan i, u.task = t := by
  obtain ⟨u, hu, htask⟩ := List.mem_map.mp (h.perm.mem_iff.mpr ht)
  obtain ⟨uploads, huploads, hmem⟩ := List.mem_flatten.mp hu
  obtain ⟨i, rfl⟩ := List.mem_ofFn.mp huploads
  exact ⟨i, u, hmem, htask⟩

theorem Assigned.single {t : Task} (h : Assigned src [t] plan) :
    ∃ i u, plan i = [u] ∧ u.task = t ∧ ∀ j ≠ i, plan j = [] := by
  obtain ⟨i, u, hu, htask⟩ := h.exists_upload (List.mem_singleton_self t)
  have hsum : ∑ j, (plan j).length = 1 := by
    have hlen := h.perm.length_eq
    rwa [List.length_map, List.length_flatten, List.map_ofFn, List.sum_ofFn] at hlen
  have hone : (plan i).length ≤ 1 :=
    (Finset.single_le_sum (fun _ _ => Nat.zero_le _) (Finset.mem_univ i)).trans hsum.le
  refine ⟨i, u, ?_, htask, fun j hj => ?_⟩
  · have hlen := le_antisymm hone (List.length_pos_of_mem hu)
    obtain ⟨v, hv⟩ := List.length_eq_one_iff.mp hlen
    rw [hv] at hu ⊢
    rw [List.mem_singleton.mp hu]
  · have htwo :=
      (Finset.add_le_sum (fun _ _ => Nat.zero_le _) (Finset.mem_univ i) (Finset.mem_univ j)
      hj.symm).trans hsum.le
    have hpos := List.length_pos_of_mem hu
    exact List.length_eq_zero_iff.mp (by omega)

theorem agrees_slice (src : Bytes) (t : Task) : Agrees src t.offset.toNat (slice src t) := by
  have hwhole : Agrees src 0 src := fun _ _ => rfl
  have hpart := agrees_part hwhole t.offset.toNat t.length.toNat
  rwa [Nat.zero_add] at hpart

theorem slice_length {t : Task} (h : t.offset.toNat + t.length.toNat ≤ src.length) :
    (slice src t).length = t.length.toNat := by
  rw [slice, List.length_take, List.length_drop]
  omega

theorem connection_covers (htiles : Tiles 0 src.length tasks) (hsize : src.length < 2 ^ 63)
    (hplan : Assigned src tasks plan) (i : Fin n) :
    (connection (plan i)).wp (Covers src fun p => ∃ u ∈ plan i,
      Hits u.task.offset.toNat (slice src u.task) p) := by
  have hunits : ∀ v ∈ (plan i).map fun u => (u.unit, u.pieces), v.1.type = .chunk ∧
      v.1.offset.toNat + v.2.flatten.length ≤ src.length ∧
        Agrees src v.1.offset.toNat v.2.flatten := by
    intro v hv
    obtain ⟨u, hu, rfl⟩ := List.mem_map.mp hv
    have hmem := hplan.mem_tasks hu
    have hinside := htiles.inside _ hmem
    refine ⟨htiles.chunk _ hmem, ?_, ?_⟩
    · rw [hplan.carries i u hu, slice_length hinside]
      exact hinside
    · rw [hplan.carries i u hu]
      exact agrees_slice src u.task
  have hall := serveAll_chunks hsize _ hunits 0
  rw [List.flatMap_map] at hall
  refine wp_mono hall fun ok t h => h.mono fun p hp => ?_
  obtain ⟨u, hu, hit⟩ := hp
  refine ⟨(u.unit, u.pieces), List.mem_map_of_mem hu, ?_⟩
  rw [hplan.carries i u hu]
  exact hit

theorem chunks_stored (htiles : Tiles 0 src.length tasks) (hsize : src.length < 2 ^ 63)
    (hne : src ≠ []) (hplan : Assigned src tasks plan) (hc : Uploaded plan old c) :
    c.state.contents = some (src ++ (old.contents.getD []).drop src.length) := by
  have htracks := Pool.tracks_of_reaches (connection_covers htiles hsize hplan) hc.run
  have hcovers := fun i => htracks.returned (hc.finished i)
    fun e he => htracks.permitted (i, e) (Pool.mem_past.mp he)
  rw [htracks.state_eq]
  refine (stage_foldl old fun e he => ?_).contents hne fun p hp => ?_
  · obtain ⟨⟨i, e⟩, hmem, rfl⟩ := List.mem_map.mp he
    exact (hcovers i).1 e (Pool.mem_past.mpr hmem)
  · obtain ⟨t, ht, hlow, hhigh⟩ := htiles.covers p (Nat.zero_le p) hp
    obtain ⟨i, u, hu, rfl⟩ := hplan.exists_upload ht
    have hhit : Hits u.task.offset.toNat (slice src u.task) p :=
      ⟨hlow, by rw [slice_length (htiles.inside _ ht)]; exact hhigh⟩
    obtain ⟨e, he, htouches⟩ := (hcovers i).2 rfl p ⟨u, hu, hhit⟩
    exact ⟨e, List.mem_map_of_mem (Pool.mem_past.mp he), htouches⟩

theorem Uploaded.idle (hc : Uploaded plan old c) {j : Fin n} (hj : plan j = []) :
    Pool.past c.log j = [] := by
  have hwp : ∀ i, (connection (plan i)).wp fun _ t => plan i = [] → t = [] := by
    intro i
    by_cases hi : plan i = []
    · rw [hi]
      exact fun _ => rfl
    · exact wp_of_forall _ fun _ _ h => absurd h hi
  exact (Pool.tracks_of_reaches hwp hc.run).returned (hc.finished j) hj

theorem file_stored {t : Task} (ht : t.type = .file) (hsrc : slice src t = src)
    (hsize : src.length < 2 ^ 63) (hplan : Assigned src [t] plan) (hc : Uploaded plan old c) :
    c.state.contents = some src := by
  obtain ⟨i, u, hi, rfl, hothers⟩ := hplan.single
  have hpieces : u.pieces.flatten = src :=
    (hplan.carries i u (hi ▸ List.mem_singleton_self u)).trans hsrc
  have hwp : ∀ j, (connection (plan j)).wp fun ok t => plan j = [u] →
      (∀ e ∈ t, fileStore.permits e) →
      ok = true → ∀ s, (t.foldl fileStore.apply s).contents = some src := by
    intro j
    by_cases hj : plan j = [u]
    · rw [hj, connection, List.flatMap_singleton]
      refine wp_mono (serveAll_file (u := u.unit) ht (hpieces.symm ▸ hsize) 0)
        fun ok t h _ hpermits hok s => ?_
      rw [h hpermits hok s, hpieces]
    · exact wp_of_forall _ fun _ _ h => absurd h hj
  have htracks := Pool.tracks_of_reaches hwp hc.run
  rw [htracks.state_eq, ← Pool.past_eq_all fun j hj => hc.idle (hothers j hj)]
  exact htracks.returned (hc.finished i) hi
    (fun e he => htracks.permitted (i, e) (Pool.mem_past.mp he)) rfl old

theorem nothing_stored (hplan : Assigned src [] plan) (hc : Uploaded plan old c) :
    c.state = old := by
  have hidle : ∀ j, plan j = [] := by
    intro j
    rw [List.eq_nil_iff_forall_not_mem]
    exact fun u hu => absurd (hplan.mem_tasks hu) List.not_mem_nil
  have hlog : c.log = [] := by
    rw [List.eq_nil_iff_forall_not_mem]
    rintro ⟨j, e⟩ he
    have hmem := Pool.mem_past.mpr he
    rw [hc.idle (hidle j)] at hmem
    exact List.not_mem_nil hmem
  have htracks :=
    Pool.tracks_of_reaches (Q := fun _ _ _ => True)
      (fun _ => wp_of_forall _ fun _ _ => trivial) hc.run
  rw [htracks.state_eq, hlog]
  rfl

def spread (src : Bytes) (tasks : List Task) (i : Fin tasks.length) : List Transfer :=
  [⟨tasks.get i, [slice src (tasks.get i)]⟩]

theorem spread_assigned (src : Bytes) (tasks : List Task) :
    Assigned src tasks (spread src tasks) where
  perm := by
    have hmap : List.ofFn (spread src tasks) = tasks.map fun t => [⟨t, [slice src t]⟩] := by
      conv_rhs => rw [← List.ofFn_get tasks, List.map_ofFn]
      rfl
    rw [hmap, List.map_flatten, List.map_map]
    exact .of_eq (List.flatMap_singleton' tasks)
  carries i u hu := by
    rw [List.mem_singleton.mp hu]
    exact List.append_nil _

theorem exists_uploaded (plan : Fin n → List Transfer) (old : Stored) :
    ∃ c, Uploaded plan old c := by
  obtain ⟨c, hrun, hfinished⟩ := Pool.exists_finished fileStore old
    fun i s => serveAll_does 0 ((plan i).flatMap fun u => unitQueries u.unit u.pieces) s
  exact ⟨c, hrun, hfinished⟩

end

/-! ## The consumers -/

/-- A connection of the session: a worker with its units, and the server that it is connected to. -/
structure Link where
  Net : Type
  network : (op : Client.Op) → Net → op.Ans × Net
  net : Net
  codecs : Codecs
  backend : Backend
  config : ServerConfig
  algo : CompressionAlgo
  conn : Conn
  version : UInt16
  worker : Worker codecs.enc.State
  root : LexPath
  sources : List Source
  cooperative : Cooperative network
  compatible : Compatible codecs backend config algo conn version worker root sources

/-- What `consumer_main` asks of the file sink, on what the worker sends. -/
def Link.asks (link : Link) : List Query :=
  queries (link.backend.sequential (link.config.modeFor link.version)
    (hasFlag link.conn.flags .integrityChecks)
    ((uploadWire link.codecs link.network link.algo link.conn link.version link.worker
      link.sources link.net).drop kHandshakeRequestSize)).trace

/-- The units go to the connections in any order, each read from the source in any blocks. -/
structure Spread (src : Bytes) (tasks : List Task) {n : ℕ} (links : Fin n → Link) : Prop where
  perm : ((List.ofFn fun i => (links i).sources).flatten.map Source.task).Perm tasks
  carries : ∀ i, ∀ s ∈ (links i).sources, s.blocks.flatten = slice src s.task

structure TakenIn {n : ℕ} (links : Fin n → Link) (old : Stored) (c : Uploading n) : Prop where
  run : ReflTransGen (Pool.Step fileStore) (Pool.start (fun i => serveAll 0 (links i).asks) old) c
  finished : ∀ i, c.procs i = .ret true

section
variable {src : Bytes} {tasks : List Task} {n : ℕ} {links : Fin n → Link} {old : Stored}
  {c : Uploading n}

theorem transfers_of_uploads {xxh64 : Bytes → UInt64} {integrity : Bool} {sources : List Source}
    {uploads : List Upload} (h : List.Forall₂ (Delivers xxh64 integrity) sources uploads) :
    ∃ transfers : List Transfer, transfers.map Transfer.task = sources.map Source.task ∧
      (∀ u ∈ transfers, ∃ s ∈ sources, u.task = s.task ∧ u.pieces.flatten = s.blocks.flatten) ∧
      queries (uploadCalls xxh64 integrity uploads) = transfers.flatMap fun u =>
        unitQueries u.unit u.pieces := by
  induction h with
  | nil => exact ⟨[], rfl, nofun, rfl⟩
  | @cons s u sources uploads hd _ ih =>
    obtain ⟨hunit, -, hwritten⟩ := hd
    obtain ⟨transfers, htasks, hall, hqueries⟩ := ih
    refine ⟨⟨s.task, u.pieces⟩ :: transfers, congrArg (s.task :: ·) htasks, fun v hv => ?_, ?_⟩
    · rcases List.mem_cons.mp hv with rfl | hv
      · exact ⟨s, List.mem_cons_self, rfl, hwritten⟩
      · obtain ⟨s', hs', hsame⟩ := hall v hv
        exact ⟨s', List.mem_cons_of_mem _ hs', hsame⟩
    · rw [uploadCalls, List.flatMap_cons, queries_append, queries_log, hunit]
      exact congrArg (_ ++ ·) hqueries

theorem Link.transfers (link : Link) : ∃ transfers : List Transfer,
    transfers.map Transfer.task = link.sources.map Source.task ∧
      (∀ u ∈ transfers, ∃ s ∈ link.sources, u.task = s.task ∧ u.pieces.flatten = s.blocks.flatten) ∧
      link.asks = transfers.flatMap fun u => unitQueries u.unit u.pieces := by
  obtain ⟨uploads, hdelivers, hcalls⟩ :=
    sequential_uploads link.cooperative link.compatible link.net
  rw [asks, ← queries_calls, hcalls]
  exact transfers_of_uploads hdelivers

theorem TakenIn.uploaded (hlinks : Spread src tasks links) (hc : TakenIn links old c) :
    ∃ plan : Fin n → List Transfer, Assigned src tasks plan ∧ Uploaded plan old c := by
  choose plan htasks hcarried hasks using fun i => (links i).transfers
  have hprograms : (fun i => connection (plan i)) = fun i => serveAll 0 (links i).asks :=
    funext fun i => congrArg (serveAll 0) (hasks i).symm
  refine ⟨plan, ⟨?_, fun i u hu => ?_⟩, hprograms ▸ hc.run, hc.finished⟩
  · have hsame : (List.ofFn plan).flatten.map Transfer.task =
        (List.ofFn fun i => (links i).sources).flatten.map Source.task := by
      rw [List.map_flatten, List.map_flatten, List.map_ofFn, List.map_ofFn]
      exact congrArg (fun f => (List.ofFn f).flatten) (funext htasks)
    exact hsame ▸ hlinks.perm
  · obtain ⟨s, hs, htask, hpieces⟩ := hcarried i u hu
    rw [hpieces, htask, hlinks.carries i s hs]

theorem exists_takenIn (links : Fin n → Link) (old : Stored) : ∃ c, TakenIn links old c := by
  obtain ⟨c, hrun, hfinished⟩ :=
    Pool.exists_finished fileStore old fun i s => serveAll_does 0 (links i).asks s
  exact ⟨c, hrun, hfinished⟩

end

def storedLink (sources : List Source) (htasks : ∀ src ∈ sources, Acceptable servedRoot src.task)
    (hcodec : Lossless storedLz4.compressor storedLz4Decoder unstarted false
      (sources.map Source.blocks)) : Link :=
  ⟨Unit, openNetwork, (), shortCodecs, shortBackend, uploadConfig, .lz4, sampleConn, 2,
    shortWorker, servedRoot, sources, openNetwork_cooperative, stored_compatible htasks hcodec⟩

theorem chunk_acceptable (offset length : UInt64) :
    Acceptable servedRoot (workerTask .chunk [97] offset length 3 0) :=
  ⟨.inr rfl, Nat.le_refl 1, show (resolveSafePath servedRoot [97]).isSome =
    true by decide, by rintro ⟨⟩⟩

/-- Three bytes in two chunks, the second of them on the first connection. -/
def twoLinks : Fin 2 → Link :=
  ![storedLink [⟨workerTask .chunk [97] 2 1 3 0, [[3]], [], 0, by decide⟩]
      (List.forall_mem_singleton.mpr (chunk_acceptable 2 1))
        ⟨by decide, [[3]], true, rfl, rfl, trivial⟩,
    storedLink [⟨workerTask .chunk [97] 0 2 3 0, [[1, 2]], [], 0, by decide⟩]
      (List.forall_mem_singleton.mpr (chunk_acceptable 0 2))
        ⟨by decide, [[1, 2]], true, rfl, rfl, trivial⟩]

theorem twoLinks_spread {tasks : List Task} (h : enqueue ⟨2, 2⟩ [97] 3 0 = some tasks) :
    Spread [1, 2, 3] tasks twoLinks where
  perm := by
    cases h
    exact .swap (workerTask .chunk [97] 0 2 3 0) (workerTask .chunk [97] 2 1 3 0) []
  carries :=
    Fin.forall_fin_two.mpr ⟨List.forall_mem_singleton.mpr rfl, List.forall_mem_singleton.mpr rfl⟩

/-! ## The stored file -/

section
variable {cfg : Client.Scheduler.Config} {path src : Bytes} {mtime : Int64}
  {tasks : List Task} {n : ℕ} {plan : Fin n → List Transfer} {old : Stored} {c : Uploading n}

theorem size_toNat (hsize : src.length < 2 ^ 63) :
    (UInt64.ofNat src.length).toNat = src.length := by
  rw [UInt64.toNat_ofNat']
  exact Nat.mod_eq_of_lt (hsize.trans (by decide))

theorem big_stored (hsize : src.length < 2 ^ 63) (hbig : cfg.bigFileThreshold.toNat ≤ src.length)
    (henqueue : enqueue cfg path (UInt64.ofNat src.length) mtime = some tasks)
    (hplan : Assigned src tasks plan) (hc : Uploaded plan old c) : c.state.contents =
      if src = [] then old.contents else some (src ++ (old.contents.getD []).drop src.length) := by
  have hnat := size_toNat hsize
  have hbig' : cfg.bigFileThreshold ≤ UInt64.ofNat src.length :=
    UInt64.le_iff_toNat_le.mpr (hbig.trans hnat.ge)
  split_ifs with hnil
  · subst hnil
    cases henqueue.symm.trans (enqueue_empty path mtime hbig')
    rw [nothing_stored hplan hc]
  · have htiles := tiles_of_enqueue henqueue (hnat.trans_lt hsize) hbig'
    rw [hnat] at htiles
    exact chunks_stored htiles hsize hnil hplan hc

theorem small_stored (hsize : src.length < 2 ^ 63)
    (hsmall : src.length < cfg.bigFileThreshold.toNat)
    (henqueue : enqueue cfg path (UInt64.ofNat src.length) mtime = some tasks)
    (hplan : Assigned src tasks plan) (hc : Uploaded plan old c) : c.state.contents = some src := by
  have hnat := size_toNat hsize
  have hsmall' : ¬ cfg.bigFileThreshold ≤ UInt64.ofNat src.length := fun h =>
    absurd ((UInt64.le_iff_toNat_le.mp h).trans hnat.le) (Nat.not_le.mpr hsmall)
  unfold enqueue at henqueue
  rw [if_neg hsmall'] at henqueue
  cases henqueue
  refine file_stored rfl ?_ hsize hplan hc
  change (src.drop 0).take (UInt64.ofNat src.length).toNat = src
  rw [hnat, List.drop_zero, List.take_length]

theorem replaced_iff (o : Option Bytes) :
    (if src = [] then o else some (src ++ (o.getD []).drop src.length)) = some src ↔
      (0 < src.length ∧ o = none) ∨ ∃ f, o = some f ∧ f.length ≤ src.length := by
  split_ifs with hnil
  · subst hnil
    constructor
    · rintro rfl
      exact .inr ⟨[], rfl, le_rfl⟩
    · rintro (⟨hpos, _⟩ | ⟨f, rfl, hf⟩)
      · exact absurd hpos (Nat.lt_irrefl 0)
      · rw [List.length_eq_zero_iff.mp (Nat.le_zero.mp hf)]
  · rw [Option.some_inj, List.append_right_eq_self, List.drop_eq_nil_iff]
    cases o with
    | none => exact ⟨fun _ => .inl ⟨List.length_pos_iff.mpr hnil, rfl⟩, fun _ => Nat.zero_le _⟩
    | some f =>
      constructor
      · intro hf
        exact .inr ⟨f, rfl, hf⟩
      · rintro (⟨_, hnone⟩ | ⟨f', hf', hlen⟩)
        · exact nomatch hnone
        · cases hf'
          exact hlen

theorem stored_iff (hsize : src.length < 2 ^ 63)
    (henqueue : enqueue cfg path (UInt64.ofNat src.length) mtime = some tasks)
    (hplan : Assigned src tasks plan) (hc : Uploaded plan old c) :
    c.state.contents = some src ↔ src.length < cfg.bigFileThreshold.toNat ∨
      (0 < src.length ∧ old.contents = none) ∨ ∃ f, old.contents = some f ∧
        f.length ≤ src.length := by
  rcases Nat.lt_or_ge src.length cfg.bigFileThreshold.toNat with hsmall | hbig
  · rw [small_stored hsize hsmall henqueue hplan hc]
    exact ⟨fun _ => .inl hsmall, fun _ => rfl⟩
  · rw [big_stored hsize hbig henqueue hplan hc, replaced_iff, or_iff_right (Nat.not_lt.mpr hbig)]

theorem chunked_iff (hsize : src.length < 2 ^ 63) (hbig : cfg.bigFileThreshold.toNat ≤ src.length)
    (henqueue : enqueue cfg path (UInt64.ofNat src.length) mtime = some tasks)
    (hplan : Assigned src tasks plan) (hc : Uploaded plan old c)
    (hold : ∀ f, old.contents = some f → f.length ≤ src.length) :
    c.state.contents = some src ↔ 0 < src.length ∨ old.contents.isSome = true := by
  rw [stored_iff hsize henqueue hplan hc, or_iff_right (Nat.not_lt.mpr hbig)]
  cases hcontents : old.contents with
  | none =>
    simp only [reduceCtorEq, false_and, exists_false, and_true, or_false, Option.isSome_none,
      Bool.false_eq_true]
  | some f => exact ⟨fun _ => .inr rfl, fun _ => .inr ⟨f, rfl, hold f hcontents⟩⟩

/-- In any order, over any connections, the chunks of a file give the file back, unless it is
empty and was not there. -/
theorem reassembled_iff (cfg : Client.Scheduler.Config) (src path : Bytes) (mtime : Int64)
    (hsize : src.length < 2 ^ 63) (hbig : cfg.bigFileThreshold.toNat ≤ src.length)
    (hchunk : 1 ≤ cfg.chunkSize.toNat) :
    ∃ tasks, enqueue cfg path (UInt64.ofNat src.length) mtime = some tasks ∧
      (∀ (n : ℕ) (plan : Fin n → List Transfer) (old : Stored) (c : Uploading n),
        Assigned src tasks plan → Uploaded plan old c →
        (∀ f, old.contents = some f → f.length ≤ src.length) →
          (c.state.contents = some src ↔ 0 < src.length ∨ old.contents.isSome = true)) ∧
      ∀ (n : ℕ) (links : Fin n → Link) (old : Stored) (c : Uploading n),
        Spread src tasks links → TakenIn links old c →
        (∀ f, old.contents = some f → f.length ≤ src.length) →
          (c.state.contents = some src ↔ 0 < src.length ∨ old.contents.isSome = true) := by
  have hnat := size_toNat hsize
  obtain ⟨tasks, htasks, _⟩ := enqueue_chunks path mtime (hnat.trans_lt hsize)
    (UInt64.le_iff_toNat_le.mpr (hbig.trans hnat.ge)) hchunk
  refine ⟨tasks, htasks, fun n plan old c hplan hc hold =>
    chunked_iff hsize hbig htasks hplan hc hold, fun n links old c hlinks hc hold => ?_⟩
  obtain ⟨plan, hplan, hc⟩ := hc.uploaded hlinks
  exact chunked_iff hsize hbig htasks hplan hc hold

theorem reassembled_two_chunks : (∃ tasks, enqueue ⟨2, 2⟩ [97] 3 0 = some tasks ∧ tasks.length = 2 ∧
      ∃ c, Uploaded (spread [1, 2, 3] tasks) ⟨none, 0⟩ c ∧ c.state.contents = some [1, 2, 3]) ∧
    ∃ c, TakenIn twoLinks ⟨none, 0⟩ c ∧ c.state.contents = some [1, 2, 3] := by
  obtain ⟨tasks, htasks, hunits, hstreams⟩ := reassembled_iff ⟨2, 2⟩ [1, 2, 3] [97] 0 (by decide)
    (by decide) (by decide)
  obtain ⟨c, hc⟩ := exists_uploaded (spread [1, 2, 3] tasks) ⟨none, 0⟩
  obtain ⟨c', hc'⟩ := exists_takenIn twoLinks ⟨none, 0⟩
  refine ⟨⟨tasks, htasks, ?_, c, hc, ?_⟩, c', hc', ?_⟩
  · cases htasks
    rfl
  · exact (hunits _ _ _ c (spread_assigned _ _) hc nofun).mpr (.inl (by decide))
  · exact (hstreams _ _ _ c' (twoLinks_spread htasks) hc' nofun).mpr (.inl (by decide))

/-- An empty file, when every file counts as big: all of its no units finish, and it is not
there. -/
theorem empty_not_stored : enqueue ⟨0, 1⟩ [97] 0 0 = some [] ∧
    ∃ c, Uploaded (spread [] []) ⟨none, 0⟩ c ∧ c.state.contents ≠ some [] := by
  obtain ⟨c, hc⟩ := exists_uploaded (spread [] []) ⟨none, 0⟩
  refine ⟨rfl, c, hc, ?_⟩
  rw [nothing_stored (spread_assigned [] []) hc]
  exact nofun

/-- One more version of a file takes the place of the one before, unless it comes in chunks and
is shorter, or comes in no chunks at all. -/
theorem replaces_iff (hsize : src.length < 2 ^ 63)
    (henqueue : enqueue cfg path (UInt64.ofNat src.length) mtime = some tasks) :
    (∀ (n : ℕ) (plan : Fin n → List Transfer) (old : Stored) (c : Uploading n),
      Assigned src tasks plan → Uploaded plan old c →
      (c.state.contents = some src ↔ src.length < cfg.bigFileThreshold.toNat ∨
        (0 < src.length ∧ old.contents = none) ∨
        ∃ f, old.contents = some f ∧ f.length ≤ src.length)) ∧
    ∀ (n : ℕ) (links : Fin n → Link) (old : Stored) (c : Uploading n),
      Spread src tasks links → TakenIn links old c →
      (c.state.contents = some src ↔ src.length < cfg.bigFileThreshold.toNat ∨
        (0 < src.length ∧ old.contents = none) ∨
        ∃ f, old.contents = some f ∧ f.length ≤ src.length) := by
  refine ⟨fun n plan old c hplan hc => stored_iff hsize henqueue hplan hc,
    fun n links old c hlinks hc => ?_⟩
  obtain ⟨plan, hplan, hc⟩ := hc.uploaded hlinks
  exact stored_iff hsize henqueue hplan hc

theorem replaces_grown : ∃ tasks, enqueue ⟨2, 2⟩ [97] 3 0 = some tasks ∧
    (∃ c, Uploaded (spread [1, 2, 3] tasks) ⟨some [9], 0⟩ c ∧ c.state.contents = some [1, 2, 3]) ∧
    ∃ c, TakenIn twoLinks ⟨some [9], 0⟩ c ∧ c.state.contents = some [1, 2, 3] := by
  obtain ⟨tasks, htasks⟩ : ∃ tasks, enqueue ⟨2, 2⟩ [97] (UInt64.ofNat 3) 0 = some tasks := ⟨_, rfl⟩
  obtain ⟨c, hc⟩ := exists_uploaded (spread [1, 2, 3] tasks) ⟨some [9], 0⟩
  obtain ⟨c', hc'⟩ := exists_takenIn twoLinks ⟨some [9], 0⟩
  have hsize : ([1, 2, 3] : Bytes).length < 2 ^ 63 := by decide
  obtain ⟨hunits, hstreams⟩ := replaces_iff hsize htasks
  exact ⟨tasks, htasks,
    ⟨c, hc, (hunits _ _ _ c (spread_assigned _ _) hc).mpr (.inr (.inr ⟨[9], rfl, by decide⟩))⟩,
    c', hc', (hstreams _ _ _ c' (twoLinks_spread htasks) hc').mpr
      (.inr (.inr ⟨[9], rfl, by decide⟩))⟩

/-- Three bytes are stored in chunks, then one byte in a chunk: the last two stay. -/
theorem shrunk_keeps_tail :
    ∃ (old new : List Task) (c : Uploading old.length) (c' : Uploading new.length),
    enqueue ⟨1, 1⟩ [97] 3 0 = some old ∧ Uploaded (spread [1, 2, 3] old) ⟨none, 0⟩ c ∧
    c.state.contents = some [1, 2, 3] ∧
    enqueue ⟨1, 1⟩ [97] 1 0 = some new ∧ Uploaded (spread [9] new) c.state c' ∧
    c'.state.contents = some [9, 2, 3] := by
  obtain ⟨old, hold⟩ : ∃ tasks, enqueue ⟨1, 1⟩ [97] (UInt64.ofNat 3) 0 = some tasks := ⟨_, rfl⟩
  obtain ⟨new, hnew⟩ : ∃ tasks, enqueue ⟨1, 1⟩ [97] (UInt64.ofNat 1) 0 = some tasks := ⟨_, rfl⟩
  obtain ⟨c, hc⟩ := exists_uploaded (spread [1, 2, 3] old) ⟨none, 0⟩
  obtain ⟨c', hc'⟩ := exists_uploaded (spread [9] new) c.state
  have hfirst := big_stored (by decide) (by decide) hold (spread_assigned [1, 2, 3] _) hc
  have hsecond := big_stored (by decide) (by decide) hnew (spread_assigned [9] _) hc'
  refine ⟨old, new, c, c', hold, hc, hfirst, hnew, hc', ?_⟩
  rw [hsecond, hfirst]
  rfl

end

end Dicker.System
