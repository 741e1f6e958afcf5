import Dicker.Client.Compressor
import Dicker.Client.StorageReader

/-! What it means that a worker reports an upload as done: the network took every piece. What
the reader and the compressor came to does not enter into it. -/

namespace Dicker.Client
open Lib Program

def Refused (t : Log) : Prop := ∃ data, .did (.enqueue data) false ∈ t

theorem Refused.append_left {t : Log} (h : Refused t) (u : Log) : Refused (t ++ u) :=
  h.imp fun _ => List.mem_append_left u

theorem Refused.append_right {t : Log} (h : Refused t) (u : Log) : Refused (u ++ t) :=
  h.imp fun _ => List.mem_append_right u

def SentOrRefused (whole : Log) (ok : Bool) (t : Log) : Prop :=
  ok = true ∧ t = whole ∨ ok = false ∧ Refused t

theorem SentOrRefused.after {whole t : Log} {ok : Bool} (h : SentOrRefused whole ok t) (u : Log) :
    SentOrRefused (u ++ whole) ok (u ++ t) :=
  h.imp (And.imp_right (congrArg (u ++ ·))) (And.imp_right fun h => h.append_right u)

section
variable {α : Type}

theorem enqueue_wp (ok : α → Bool) {data : Bytes} {f : Bool → Send α} {whole : Log}
    (htaken : (f true).wp fun a t => SentOrRefused whole (ok a) t) {a : α}
    (hrefused : f false = .ret a) (ha : ok a = false) :
    (call (.enqueue data) f).wp fun a t => SentOrRefused (enqueued data :: whole) (ok a) t := by
  rintro (_ | _)
  · rw [hrefused]
    exact .inr ⟨ha, data, List.mem_cons_self⟩
  · exact wp_mono htaken fun _ _ h => h.after [enqueued data]

theorem sendBlock_wp (out : Bytes) :
    (sendBlock out).wp fun ok t => SentOrRefused (blockLog out) ok t := by
  refine enqueue_wp id ?_ rfl rfl
  rintro (_ | _)
  · exact .inr ⟨rfl, out, List.mem_cons_self⟩
  · exact .inl ⟨rfl, rfl⟩

theorem sendOutput_wp (out : Bytes) :
    (sendOutput out).wp fun ok t => SentOrRefused ((nonempty out).flatMap blockLog) ok t := by
  unfold sendOutput nonempty
  split_ifs
  · exact (List.flatMap_singleton blockLog out).symm ▸ sendBlock_wp out
  · exact .inl ⟨rfl, rfl⟩

theorem sendOutput_bind_wp {out : Bytes} {f : Bool → Send α} {ok : α → Bool} {whole : Log}
    (htaken : (f true).wp fun a t => SentOrRefused whole (ok a) t) {a : α}
    (hrefused : f false = .ret a) (ha : ok a = false) :
    (sendOutput out >>= f).wp fun a t => SentOrRefused
    ((nonempty out).flatMap blockLog ++ whole) (ok a) t := by
  refine wp_bind (wp_mono (sendOutput_wp out) ?_)
  rintro b t (⟨rfl, rfl⟩ | ⟨rfl, hrefuse⟩)
  · exact wp_mono htaken fun _ _ h => h.after _
  · rw [hrefused]
    exact .inr ⟨ha, hrefuse.append_left []⟩

end

section
variable (k : Codecs) (w : Worker k.enc.State) (src : Source)

def endLog : Log :=
  enqueued [BlockType.endOfUnit.toByte] :: trailerLog k.xxh64 w.integrity src.blocks.flatten

theorem finishUpload_wp (e : k.enc.State) (n : UInt64) :
    (finishUpload k w src ⟨true, e, n⟩).wp fun u t =>
    SentOrRefused ((outputs k.enc e []).1.flatMap blockLog ++ endLog k w src) u.ok t := by
  refine sendOutput_bind_wp ?_ rfl rfl
  refine enqueue_wp Uploaded.ok ?_ rfl rfl
  unfold trailerLog
  cases w.integrity with
  | false => exact .inl ⟨rfl, rfl⟩
  | true => exact enqueue_wp Uploaded.ok (.inl ⟨rfl, rfl⟩) rfl rfl

theorem uploadBlocks_wp (blocks : List Bytes) (e : k.enc.State) (n : UInt64) :
    (uploadBlocks k e n blocks >>= fun u => if !u.ok then Program.ret u
      else finishUpload k w src u).wp fun u t =>
      SentOrRefused ((outputs k.enc e blocks).1.flatMap blockLog ++ endLog k w src) u.ok t := by
  induction blocks generalizing e n with
  | nil => exact finishUpload_wp k w src e n
  | cons data blocks ih =>
    rw [uploadBlocks, bind_bind, outputs, List.flatMap_append, List.append_assoc]
    exact sendOutput_bind_wp (ih _ _) rfl rfl

theorem upload_wp (header : Bytes) : (upload k w src header).wp fun u t =>
    SentOrRefused (uploadLog k.xxh64 w.integrity header (outputs k.enc w.compressor src.blocks).1
      src.blocks.flatten) u.ok t :=
  enqueue_wp Uploaded.ok (uploadBlocks_wp k w src src.blocks w.compressor 0) rfl rfl

def startedEntry (t : Task) : Entry Op Op.Ans :=
  .did (.event (.started t.pathname.bytes t.type t.offset t.length t.fileSize)) ()

def finishedEntry (t : Task) (n : UInt64) (ok : Bool) : Entry Op Op.Ans :=
  .did (.event (.finished t.pathname.bytes t.type t.offset t.length t.fileSize n ok)) ()

theorem send_wp (header : Bytes) : (send k w src header).wp fun r t => ∃ u n,
    t = startedEntry src.task :: (u ++ [finishedEntry src.task n r.1]) ∧
    SentOrRefused (uploadLog k.xxh64 w.integrity header (outputs k.enc w.compressor src.blocks).1
      src.blocks.flatten) r.1 u := by
  intro _
  change (upload k w src header >>= fun _ => _).wp _
  refine wp_bind (wp_mono (upload_wp k w src header) fun u t ht => ?_)
  exact fun _ => ⟨t, u.compressedBytes, rfl, ht⟩

theorem not_refused_sent (t : Task) (xxh64 : Bytes → UInt64) (integrity : Bool) (header : Bytes)
    (outs : List Bytes) (written : Bytes) (n : UInt64) (ok : Bool) : ¬Refused (startedEntry t ::
      (uploadLog xxh64 integrity header outs written ++ [finishedEntry t n ok])) := by
  rintro ⟨data, hmem⟩
  have htrailer : .did (.enqueue data) false ∉ trailerLog xxh64 integrity written := by
    unfold trailerLog
    split_ifs <;> simp [enqueued]
  have hblocks : .did (.enqueue data) false ∉ outs.flatMap blockLog := by
    simp [blockLog, enqueued]
  simp [uploadLog, startedEntry, finishedEntry, enqueued, htrailer, hblocks] at hmem

end

/-! ## What the verdict says -/

open StorageReader (ReadRequest Processed Failed pushed preads bytesRead InOrder)

def Task.request (t : Task) : ReadRequest :=
  StorageReader.submit t.type t.pathname.bytes t.offset t.length

structure Feed (task : Task) where
  Env : Type
  answers : (op : StorageReader.Op) → Env → op.Ans × Env
  start : Env
  handed : List Bytes
  handed_prefix : handed <+:
    pushed ((StorageReader.process task.request).run answers start []).trace

namespace Feed
variable {task : Task} (feed : Feed task)

def log : StorageReader.Log :=
  ((StorageReader.process task.request).run feed.answers feed.start []).trace

theorem processed : Processed task.request feed.log := wp_run _ (StorageReader.process_wp _) _ _

def source (hashed : List Bytes) (occupancy : ℕ) : Source where
  task := task
  blocks := feed.handed
  hashed := hashed
  occupancy := occupancy
  blocks_bounded b hb := feed.processed.bounded b (feed.handed_prefix.subset hb)

def Whole : Prop := ¬Failed task.request feed.log ∧ feed.handed = pushed feed.log

theorem whole_iff : feed.Whole ↔ feed.handed.flatten.length = task.length.toNat := by
  have hread := feed.processed
  obtain ⟨rest, hrest⟩ := feed.handed_prefix
  change feed.handed ++ rest = pushed feed.log at hrest
  have hlen : feed.handed.flatten.length + rest.flatten.length =
      (pushed feed.log).flatten.length := by
    rw [← List.length_append, ← List.flatten_append, hrest]
  have hle : (pushed feed.log).flatten.length ≤ task.length.toNat := hread.pushed_le
  constructor
  · rintro ⟨hok, heq⟩
    rw [heq]
    exact hread.whole_iff.mpr hok
  · intro heq
    refine ⟨hread.whole_iff.mp (hle.antisymm (by omega)), ?_⟩
    have hnil : rest = [] := by
      refine List.eq_nil_iff_forall_not_mem.mpr fun b hb => ?_
      refine (hread.bounded b (hrest ▸ List.mem_append_right _ hb)).1
        (List.eq_nil_of_length_eq_zero ?_)
      have hb' := (List.sublist_flatten_of_mem hb).length_le
      omega
    rw [← hrest, hnil, List.append_nil]

end Feed

structure Complete (enc : Encoder) (e : enc.State) {task : Task} (feed : Feed task)
    (sent : Log) : Prop where
  in_order : InOrder task.offset (preads feed.log)
  read : bytesRead (preads feed.log) = feed.handed.flatten
  whole : feed.handed.flatten.length = task.length.toNat
  accepted : ∀ c ∈ enc.calls e feed.handed, c.failed = false
  compressed : ((enc.calls e feed.handed).map EncoderCall.taken).sum = task.length.toNat
  queued : ∃ (header : Bytes) (outs : List Bytes) (rest : Log), sent =
    startedEntry task :: enqueued header ::
    (outs.flatMap blockLog ++ enqueued [BlockType.endOfUnit.toByte] :: rest) ∧
    outs.flatten = (enc.calls e feed.handed).flatMap EncoderCall.made

def ReportedOk {σ E : Type} (task : Task) (o : Outcome σ Op Op.Ans (Bool × Worker E)) : Prop :=
  o.val.1 = true ∨ ∃ n, o.trace.getLast? = some (finishedEntry task n true)

section
variable {σ : Type} (enc : Encoder) (xxh64 : Bytes → UInt64) (blake3 : Bytes → Hash)
  (w : Worker enc.State)
  {task : Task} (feed : Feed task) (hashed : List Bytes) (occupancy : ℕ) (header : Bytes)
  (h : (op : Op) → σ → op.Ans × σ) (s : σ) (xs : Bytes)

def sending : Outcome σ Op Op.Ans (Bool × Worker enc.State) :=
  (send ⟨enc.compressor, xxh64, blake3⟩ w (feed.source hashed occupancy) header).run h s xs

theorem sending_spec : ∃ u n,
    let o := sending enc xxh64 blake3 w feed hashed occupancy header h s xs
    o.trace = startedEntry task :: (u ++ [finishedEntry task n o.val.1]) ∧
    SentOrRefused (uploadLog xxh64 w.integrity header
      (outputs enc.compressor w.compressor feed.handed).1 feed.handed.flatten) o.val.1 u :=
  wp_run h (send_wp ⟨enc.compressor, xxh64, blake3⟩ w (feed.source hashed occupancy) header) s xs

/-- A worker reports an upload as done only if it was read, compressed and queued in full, if and
only if the network refuses a piece, or the reader hands over the whole range and the compressor
reports no error. -/
theorem ok_uploaded_iff :
    (ReportedOk task (sending enc xxh64 blake3 w feed hashed occupancy header h s xs) →
        Complete enc w.compressor feed
          (sending enc xxh64 blake3 w feed hashed occupancy header h s xs).trace) ↔
      Refused (sending enc xxh64 blake3 w feed hashed occupancy header h s xs).trace ∨
        feed.Whole ∧ ∀ c ∈ enc.calls w.compressor feed.handed, c.failed = false := by
  obtain ⟨u, n, htrace, hverdict⟩ :=
    sending_spec enc xxh64 blake3 w feed hashed occupancy header h s xs
  generalize sending enc xxh64 blake3 w feed hashed occupancy header h s xs = o at htrace hverdict ⊢
  have hreported : ReportedOk task o ↔ o.val.1 = true := by
    refine ⟨fun hok => hok.elim id ?_, .inl⟩
    rintro ⟨m, hm⟩
    rw [htrace, ← List.cons_append, List.getLast?_concat] at hm
    have hlast := Option.some.inj hm
    unfold finishedEntry at hlast
    injection hlast with hop
    injection hop with hevent
    injection hevent
  rw [hreported]
  rcases hverdict with ⟨hok, rfl⟩ | ⟨hfalse, hrefused⟩
  · have htaken : ¬Refused o.trace := by
      rw [htrace]
      exact not_refused_sent _ _ _ _ _ _ _ _
    rw [or_iff_right htaken, hok]
    constructor
    · intro hcomplete
      have hdone := hcomplete rfl
      exact ⟨feed.whole_iff.mpr hdone.whole, hdone.accepted⟩
    · rintro ⟨hwhole, hno⟩ -
      have hlength := feed.whole_iff.mp hwhole
      refine ⟨feed.processed.in_order, ?_, hlength, hno,
        (enc.calls_taken _ _ hno).trans hlength, ?_⟩
      · rw [hwhole.2]
        exact (feed.processed.pushed_eq hwhole.1).symm
      · refine ⟨header, (outputs enc.compressor w.compressor feed.handed).1,
          trailerLog xxh64 w.integrity feed.handed.flatten ++
            [finishedEntry task n o.val.1], ?_, ?_⟩
        · rw [htrace, uploadLog, List.cons_append, List.append_assoc, List.cons_append]
        · rw [enc.outputs_flatten, flatMap_returned hno]
  · rw [hfalse, htrace]
    exact ⟨fun _ => .inl ((hrefused.append_left _).append_right [startedEntry task]),
      fun _ h => Bool.noConfusion h⟩

end

def takesAll : (op : Op) → Unit → op.Ans × Unit
  | .enqueue _, _ | .await, _ => (true, ())
  | .event _, _ | .setPending _, _ => ((), ())

def sevens (opens : Bool) : (op : StorageReader.Op) → Unit → op.Ans × Unit
  | .openFile _, _ => (opens, ())
  | .pread len _, _ => (⟨List.replicate len 7, (List.length_replicate ..).le⟩, ())
  | .popSpare, _ | .pushSpare, _ | .pushReady _, _ | .pushEof, _ => (true, ())
  | .acquireDisk, _ | .closeFile, _ | .releaseDisk, _ => ((), ())

def oneByte : Task := workerTask .file [0x2F, 0x61] 0 1 1 0

def storingWorker : Worker storedLz4.State := ⟨false, false, false, 0, [], unstarted⟩

theorem readAt_sevens (off : UInt64) :
    (StorageReader.readAt 1 off).run (sevens true) () [] =
      ⟨⟨[7], le_rfl⟩, (), [], [.did (.pread 1 off) ⟨[7], le_rfl⟩]⟩ := by
  rw [StorageReader.readAt, dif_neg Nat.one_ne_zero, run_call]
  change ((StorageReader.readAt 0 (off + 1) >>= fun rest => _).run (sevens true) () []).after _ = _
  rw [StorageReader.readAt, dif_pos rfl]
  rfl

theorem pushed_sevens :
    pushed ((StorageReader.process oneByte.request).run (sevens true) () []).trace = [[7]] := by
  change pushed (.did .acquireDisk () :: .did (.openFile _) true ::
    ((StorageReader.readBlocks 0 1 >>= fun _ => _).run (sevens true) () []).trace) = _
  rw [StorageReader.readBlocks, dif_neg Nat.one_ne_zero, call_bind, run_call]
  change pushed (.did .acquireDisk () :: .did (.openFile _) true :: .did .popSpare true ::
    (((StorageReader.readAt 1 0 >>= fun _ => _) >>= fun _ => _).run (sevens true) () []).trace) = _
  rw [bind_bind, run_bind, readAt_sevens]
  change pushed (.did .acquireDisk () :: .did (.openFile _) true :: .did .popSpare true :: .did
    (.pread 1 0) _ ::
    .did (.pushReady [7]) true :: ((StorageReader.readBlocks 1 0 >>= fun _ => _).run (sevens true)
      () []).trace) = _
  rw [StorageReader.readBlocks, dif_pos rfl]
  rfl

def readable : Feed oneByte where
  Env := Unit
  answers := sevens true
  start := ()
  handed := [[7]]
  handed_prefix := by
    rw [pushed_sevens]

def unreadable : Feed oneByte where
  Env := Unit
  answers := sevens false
  start := ()
  handed := []
  handed_prefix := List.nil_prefix

def zeroHash : Hash := ⟨List.replicate 32 0, length_zeroHash⟩

def sendsOneByte (feed : Feed oneByte) : Outcome Unit Op Op.Ans (Bool × Worker storedLz4.State) :=
  sending storedLz4 (fun _ => 0) (fun _ => zeroHash) storingWorker feed [] 0
    (unitHeader oneByte) takesAll () []

theorem ok_uploaded_one_byte :
    ReportedOk oneByte (sendsOneByte readable) ∧
      Complete storedLz4 unstarted readable (sendsOneByte readable).trace := by
  have hok : ReportedOk oneByte (sendsOneByte readable) := .inl rfl
  refine ⟨hok, (ok_uploaded_iff storedLz4 (fun _ => 0) (fun _ => zeroHash)
    storingWorker readable [] 0
    (unitHeader oneByte) takesAll () []).mpr (.inr ⟨readable.whole_iff.mpr rfl, ?_⟩) hok⟩
  decide

/-- The file cannot be opened, an empty unit is sent, and the upload is reported as done. -/
theorem unopened_reported_ok : ReportedOk oneByte (sendsOneByte unreadable) ∧
    ¬Complete storedLz4 unstarted unreadable (sendsOneByte unreadable).trace := by
  refine ⟨.inl rfl, fun h => ?_⟩
  exact absurd h.whole (by decide)

end Dicker.Client
