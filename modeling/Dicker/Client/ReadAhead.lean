import Dicker.Client.Ring
import Dicker.Client.StorageReader
import Dicker.Lib.FileImage
import Dicker.Lib.Inevitable

/-! A worker and the thread that reads files for it (client/storageReader.h; `hashUnit`, `upload`
and `drainStorage` of client/worker.h): two rings, a channel of requests and four buffers between
two threads, before the rings are closed. The reader runs `StorageReader.process`, one call a
step. -/

namespace Dicker.Client.ReadAhead
open Lib Program StorageReader

abbrev READ_AHEAD : ℕ := 4
abbrev READ_RING : ℕ := 8

abbrev Index := Fin READ_AHEAD

structure Filled where
  idx : Index
  len : UInt32
  eof : Bool

/-! ## Files -/

structure File where
  bytes : Bytes
  fits : bytes.length < 2 ^ 63

/-- The files by their paths, `none` where `open` fails. -/
abbrev Files := Bytes → Option File

/-- What one `pread` may bring: less than it was asked for, but nothing only at the end. -/
structure Brings (file : File) (len : ℕ) (off : UInt64) (got : Bytes) : Prop where
  content : got <+: file.bytes.drop off.toNat
  ended : 0 < len → got = [] → file.bytes.length ≤ off.toNat

/-! ## The ring of spare buffers -/

/-- The memory of a ring of `2 ^ 3` slots, with the counters of `Ring.State`. -/
structure SpareRing where
  slots : ℕ → Index
  head : UInt64
  tail : UInt64

/-- How far a `push` is: it loads the tail, waits for room and writes the slot, stores the tail. -/
inductive Stage where
  | start
  | loaded (tl : UInt64)
  | written (tl : UInt64)

namespace SpareRing

def held (r : SpareRing) : ℕ := (r.tail - r.head).toNat

def items (r : SpareRing) : List Index :=
  (List.range r.held).map fun n => r.slots (Ring.slot 3 (r.head + UInt64.ofNat n))

def Room (r : SpareRing) (tl : UInt64) : Prop := tl - r.head < Ring.capacity 3

def write (r : SpareRing) (tl : UInt64) (v : Index) : SpareRing :=
  { r with slots := Function.update r.slots (Ring.slot 3 tl) v }

def store (r : SpareRing) (tl : UInt64) : SpareRing := { r with tail := tl + 1 }

def first (r : SpareRing) : Index := r.slots (Ring.slot 3 r.head)

def pop (r : SpareRing) : SpareRing := { r with head := r.head + 1 }

def StageOk (r : SpareRing) (i : Index) : Stage → Prop
  | .start => True
  | .loaded tl => r.tail = tl
  | .written tl => r.tail = tl ∧ r.slots (Ring.slot 3 tl) = i

def full : SpareRing := ⟨Fin.ofNat READ_AHEAD, 0, UInt64.ofNat READ_AHEAD⟩

end SpareRing

/-! ## The worker -/

inductive Job where
  | hash
  | upload
  | drain

/-- Where the worker is; `idle` between two calls. -/
inductive WorkerPc where
  | idle
  | header (req : ReadRequest)
  | submit (job : Job) (req : ReadRequest)
  | next (job : Job)
  | hashBlock (fb : Filled)
  | block (fb : Filled)
  | blockHeader (fb : Filled)
  | blockData (fb : Filled)
  | recycle (job : Job) (fb : Filled) (stage : Stage)
  | flush
  | flushHeader
  | flushData
  | endOfUnit
  | checksum

namespace WorkerPc

/-- The worker's own steps. How much the compressor produces and whether an `enqueue` of the network
fails is open, and so is which of its requests it is asked for next. -/
inductive Move (asked : ReadRequest → Prop) : WorkerPc → WorkerPc → Prop where
  | hashUnit {req : ReadRequest} (h : asked req) : Move asked idle (submit .hash req)
  | upload {req : ReadRequest} (h : asked req) : Move asked idle (header req)
  | header (req : ReadRequest) : Move asked (header req) (submit .upload req)
  | headerFails (req : ReadRequest) : Move asked (header req) idle
  | hashed (fb : Filled) : Move asked (hashBlock fb) (recycle .hash fb .start)
  | nothingProduced (fb : Filled) : Move asked (block fb) (recycle .upload fb .start)
  | produced (fb : Filled) : Move asked (block fb) (blockHeader fb)
  | blockHeader (fb : Filled) : Move asked (blockHeader fb) (blockData fb)
  | blockHeaderFails (fb : Filled) : Move asked (blockHeader fb) (recycle .drain fb .start)
  | blockData (fb : Filled) : Move asked (blockData fb) (recycle .upload fb .start)
  | blockDataFails (fb : Filled) : Move asked (blockData fb) (recycle .drain fb .start)
  | flushed : Move asked flush flushHeader
  | nothingFlushed : Move asked flush endOfUnit
  | flushHeader : Move asked flushHeader flushData
  | flushHeaderFails : Move asked flushHeader idle
  | flushData : Move asked flushData endOfUnit
  | flushDataFails : Move asked flushData idle
  | endOfUnit : Move asked endOfUnit checksum
  /-- Without integrity, or because it fails. -/
  | endOfUnitLast : Move asked endOfUnit idle
  | checksum : Move asked checksum idle

def gets : Job → Filled → WorkerPc
  | .hash, fb => if fb.eof then idle else hashBlock fb
  | .upload, fb => if fb.eof then flush else block fb
  | .drain, fb => if fb.eof then idle else recycle .drain fb .start

def Reading : WorkerPc → Prop
  | next _ | hashBlock _ | block _ | blockHeader _ | blockData _ | recycle _ _ _ => True
  | _ => False

def hand : WorkerPc → List Index
  | hashBlock fb | block fb | blockHeader fb | blockData fb | recycle _ fb _ => [fb.idx]
  | _ => []

def pending : WorkerPc → List ReadRequest
  | header req | submit _ req => [req]
  | _ => []

end WorkerPc

/-! ## Both threads -/

structure State where
  bufs : Index → Bytes
  spare : SpareRing
  ready : List Filled
  requests : List ReadRequest
  /-- What the reader has still to do for the request it took. -/
  program : Reader Unit
  fd : Option File
  /-- The buffer in the reader's hand and how much of it has been read. -/
  hand : Option (Index × ℕ)
  /-- How far the reader's own push into the spare ring is. -/
  stage : Stage
  worker : WorkerPc
  -- the history, which no step reads
  submitted : List ReadRequest
  /-- For each submitted request what `next` gave, `none` for the entry at the end. -/
  obtained : ℕ → List (Option Bytes)

namespace State

def start (bufs : Index → Bytes) : State where
  bufs := bufs
  spare := .full
  ready := []
  requests := []
  program := .ret ()
  fd := none
  hand := none
  stage := .start
  worker := .idle
  submitted := []
  obtained := fun _ => []

def view (s : State) (fb : Filled) : Option Bytes :=
  if fb.eof then none else some ((s.bufs fb.idx).take fb.len.toNat)

def owned (s : State) : List Index :=
  s.spare.items ++ s.hand.toList.map Prod.fst ++
    (s.ready.filter fun fb => !fb.eof).map Filled.idx ++ s.worker.hand

end State

/-- A step of one of the threads, with the files on the disk and the requests the worker is asked
for. Waiting for a ring is having no step; the channel of requests holds eight. -/
inductive Step (files : Files) (asked : ReadRequest → Prop) : State → State → Prop where
  | take {s : State} {req : ReadRequest} {rest : List ReadRequest} (hidle : s.program = .ret ())
      (hreq : s.requests = req :: rest) :
      Step files asked s { s with requests := rest, program := StorageReader.process req }
  | acquireDisk {s : State} {k : Unit → Reader Unit} (h : s.program = call .acquireDisk k) :
      Step files asked s { s with program := k () }
  | openFile {s : State} {path : Bytes} {k : Bool → Reader Unit}
      (h : s.program = call (.openFile path) k) :
      Step files asked s { s with fd := files path, program := k (files path).isSome }
  | popSpare {s : State} {k : Bool → Reader Unit} (h : s.program = call .popSpare k)
      (hitem : s.spare.head ≠ s.spare.tail) :
      Step files asked s { s with
        spare := s.spare.pop, hand := some (s.spare.first, 0), program := k true }
  | pread {s : State} {len : ℕ} {off : UInt64}
      {k : (StorageReader.Op.pread len off).Ans → Reader Unit} {file : File}
      {i : Index} {total : ℕ} {got : (StorageReader.Op.pread len off).Ans}
      (h : s.program = call (.pread len off) k)
      (hfd : s.fd = some file) (hhand : s.hand = some (i, total))
      (hgot : Brings file len off got.1) :
      Step files asked s { s with
        bufs := Function.update s.bufs i (pwrite (s.bufs i) total got.1)
        hand := some (i, total + got.1.length)
        program := k got }
  | loadTail {s : State} {k : Bool → Reader Unit} (h : s.program = call .pushSpare k)
      (hstage : s.stage = .start) : Step files asked s { s with stage := .loaded s.spare.tail }
  | writeSlot {s : State} {i : Index} {total : ℕ} {tl : UInt64} (hstage : s.stage = .loaded tl)
      (hhand : s.hand = some (i, total)) (hroom : s.spare.Room tl) :
      Step files asked s { s with spare := s.spare.write tl i, stage := .written tl }
  | storeTail {s : State} {k : Bool → Reader Unit} {tl : UInt64} (h : s.program = call .pushSpare k)
      (hstage : s.stage = .written tl) :
      Step files asked s { s with
        spare := s.spare.store tl, stage := .start, hand := none, program := k true }
  | pushReady {s : State} {block : Bytes} {k : Bool → Reader Unit} {i : Index} {total : ℕ}
      (h : s.program = call (.pushReady block) k) (hhand : s.hand = some (i, total))
      (hroom : s.ready.length < READ_RING) :
      Step files asked s { s with
        ready := s.ready ++ [⟨i, UInt32.ofNat block.length, false⟩], hand := none,
          program := k true }
  | closeFile {s : State} {k : Unit → Reader Unit} (h : s.program = call .closeFile k) :
      Step files asked s { s with fd := none, program := k () }
  | releaseDisk {s : State} {k : Unit → Reader Unit} (h : s.program = call .releaseDisk k) :
      Step files asked s { s with program := k () }
  | pushEof {s : State} {k : Bool → Reader Unit} (h : s.program = call .pushEof k)
      (hroom : s.ready.length < READ_RING) :
      Step files asked s { s with ready := s.ready ++ [⟨0, 0, true⟩], program := k true }
  | move {s : State} {pc : WorkerPc} (h : s.worker.Move asked pc) :
      Step files asked s { s with worker := pc }
  | submit {s : State} {job : Job} {req : ReadRequest} (h : s.worker = .submit job req)
      (hroom : s.requests.length < 8) :
      Step files asked s { s with
        requests := s.requests ++ [req], worker := .next job, submitted := s.submitted ++ [req] }
  | next {s : State} {job : Job} {fb : Filled} {rest : List Filled} (h : s.worker = .next job)
      (hready : s.ready = fb :: rest) :
      Step files asked s { s with
        ready := rest
        worker := .gets job fb
        obtained := Function.update s.obtained (s.submitted.length - 1)
          (s.obtained (s.submitted.length - 1) ++ [s.view fb]) }
  | recycleLoad {s : State} {job : Job} {fb : Filled} (h : s.worker = .recycle job fb .start) :
      Step files asked s { s with worker := .recycle job fb (.loaded s.spare.tail) }
  | recycleWrite {s : State} {job : Job} {fb : Filled} {tl : UInt64}
      (h : s.worker = .recycle job fb (.loaded tl)) (hroom : s.spare.Room tl) :
      Step files asked s { s with
        spare := s.spare.write tl fb.idx, worker := .recycle job fb (.written tl) }
  | recycleStore {s : State} {job : Job} {fb : Filled} {tl : UInt64}
      (h : s.worker = .recycle job fb (.written tl)) :
      Step files asked s { s with spare := s.spare.store tl, worker := .next job }

abbrev Runs (files : Files) (asked : ReadRequest → Prop) : State → State → Prop :=
  Relation.ReflTransGen (Step files asked)

def Reachable (files : Files) (asked : ReadRequest → Prop) (s : State) : Prop :=
  ∃ bufs, Runs files asked (.start bufs) s

/-! ## What a request is for -/

def blocksOf (data : Bytes) : List Bytes :=
  if _h : data = [] then [] else data.take READ_BLOCK :: blocksOf (data.drop READ_BLOCK)
termination_by data.length
decreasing_by
  have hpos := List.length_pos_iff.mpr _h
  have hblock : 0 < READ_BLOCK := by decide
  rw [List.length_drop]
  omega

def content (files : Files) (req : ReadRequest) : Bytes :=
  match files req.pathname.bytes with
  | some file => (file.bytes.drop req.offset.toNat).take req.length.toNat
  | none => []

def stream (files : Files) (req : ReadRequest) : List (Option Bytes) :=
  (blocksOf (content files req)).map some ++ [none]

def Short (files : Files) (req : ReadRequest) : Prop :=
  ∃ file, files req.pathname.bytes = some file ∧ req.offset.toNat < file.bytes.length ∧
    file.bytes.length < req.offset.toNat + req.length.toNat

structure Sound (files : Files) (asked : ReadRequest → Prop) (s : State) : Prop where
  /-- Each index is in exactly one place. -/
  owned : ∀ i, s.owned.count i = 1
  /-- No step writes a buffer that the worker holds. -/
  writes : ∀ s', Step files asked s s' → ∀ i ∈ s.worker.hand, s'.bufs i = s.bufs i
  /-- What `next` gave for a request is the beginning of what the request is for, -/
  obtained : ∀ j req, s.submitted[j]? = some req → s.obtained j <+: stream files req
  /-- and all of it once the worker has left the loop; -/
  finished : ∀ j req, s.submitted[j]? = some req →
    (j + 1 = s.submitted.length → ¬s.worker.Reading) → s.obtained j = stream files req
  /-- nothing is left for the next request, -/
  nothingLeft : ¬s.worker.Reading → s.ready = [] ∧ s.requests = []
  /-- and the worker does leave the loop. -/
  leaves : Inevitable (Step files asked) (fun s' => ¬s'.worker.Reading) s

/-! ## The ring of spare buffers -/

namespace SpareRing
variable {r : SpareRing} {tl : UInt64} {v : Index}

theorem length_items (r : SpareRing) : r.items.length = r.held := by
  rw [items, List.length_map, List.length_range]

theorem room_iff : r.Room r.tail ↔ r.held < READ_RING := by
  rw [Room, UInt64.lt_iff_toNat_lt, Ring.capacity_toNat]
  rfl

theorem ne_iff : r.head ≠ r.tail ↔ 0 < r.held := by
  rw [held, UInt64.toNat_sub, ne_eq, ← UInt64.toNat_inj]
  have hhead := r.head.toNat_lt
  have htail := r.tail.toNat_lt
  omega

theorem held_pop (h : r.head ≠ r.tail) : r.held = r.pop.held + 1 := by
  rw [ne_eq, ← UInt64.toNat_inj] at h
  have hhead := r.head.toNat_lt
  have htail := r.tail.toNat_lt
  change (r.tail - r.head).toNat = (r.tail - (r.head + 1)).toNat + 1
  rw [UInt64.toNat_sub, UInt64.toNat_sub, UInt64.toNat_add, UInt64.toNat_one]
  omega

theorem held_store (hroom : r.Room r.tail) : (r.store r.tail).held = r.held + 1 := by
  have hlt := room_iff.mp hroom
  have hhead := r.head.toNat_lt
  have htail := r.tail.toNat_lt
  rw [held, UInt64.toNat_sub] at hlt
  change (r.tail + 1 - r.head).toNat = (r.tail - r.head).toNat + 1
  rw [UInt64.toNat_sub, UInt64.toNat_sub, UInt64.toNat_add, UInt64.toNat_one]
  unfold READ_RING at hlt
  omega

theorem slot_eq (i : UInt64) : Ring.slot 3 i = i.toNat % READ_RING := by
  conv_lhs => rw [← UInt64.ofNat_toNat (x := i)]
  exact Ring.slot_ofNat _

theorem items_pop (h : r.head ≠ r.tail) : r.items = r.first :: r.pop.items := by
  have hzero : r.head + UInt64.ofNat 0 = r.head := UInt64.add_zero _
  have hsucc : ∀ n, r.head + UInt64.ofNat (n + 1) = r.head + 1 + UInt64.ofNat n := by
    intro n
    rw [← UInt64.ofNat_succ, UInt64.add_comm (UInt64.ofNat n), UInt64.add_assoc]
  rw [items, held_pop h, List.range_succ_eq_map, List.map_cons, List.map_map, hzero]
  exact congrArg (r.first :: ·)
    (List.map_congr_left fun n _ => congrArg (fun i => r.slots (Ring.slot 3 i)) (hsucc n))

theorem items_write (htail : r.tail = tl) (hroom : r.Room tl) : (r.write tl v).items = r.items := by
  subst htail
  refine List.map_congr_left fun n hn => Function.update_of_ne ?_ _ _
  have hlt : n < r.held := List.mem_range.mp hn
  have hsize := room_iff.mp hroom
  have hhead := r.head.toNat_lt
  have htail := r.tail.toNat_lt
  rw [held, UInt64.toNat_sub] at hlt hsize
  change Ring.slot 3 (r.head + UInt64.ofNat n) ≠ Ring.slot 3 r.tail
  rw [slot_eq, slot_eq, UInt64.toNat_add, UInt64.toNat_ofNat']
  unfold READ_RING at hsize ⊢
  omega

theorem items_store (htail : r.tail = tl) (hroom : r.Room r.tail)
    (hslot : r.slots (Ring.slot 3 tl) = v) : (r.store tl).items = r.items ++ [v] := by
  subst htail
  have hlast : r.head + UInt64.ofNat r.held = r.tail := by
    rw [held, UInt64.ofNat_toNat, UInt64.add_comm, UInt64.sub_add_cancel]
  have hall : (r.store r.tail).items =
      (List.range (r.held + 1)).map fun n => r.slots (Ring.slot 3 (r.head + UInt64.ofNat n)) := by
    rw [items, held_store hroom]
    rfl
  rw [hall, List.range_succ, List.map_append, List.map_singleton, hlast, hslot, items]

end SpareRing

end Dicker.Client.ReadAhead
