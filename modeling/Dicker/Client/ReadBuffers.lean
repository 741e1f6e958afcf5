import Dicker.Client.ReadPlan

/-! The buffers of a worker over whole runs of it and its reader. As long as no file ends inside the
range that is asked for, every buffer is in one place and every request gets its own blocks; when
one does, the reader and the worker may push into the spare ring at the same time, and a buffer is
lost. -/

namespace Dicker.Client.ReadAhead
open Lib Program StorageReader

/-! ## The invariant -/

def HandOk (bufs : Index → Bytes) : Option (Index × ℕ) → Option Bytes → Prop
  | none, none => True
  | some (i, total), some fill => (bufs i).take total = fill ∧ fill.length = total
  | _, _ => False

structure Served (files : Files) (s : State) (v : Plan) (req : ReadRequest) : Prop where
  reading : s.worker.Reading
  requests : s.requests = []
  last : s.submitted.getLast? = some req
  flow : s.obtained (s.submitted.length - 1) ++ s.ready.map s.view ++ v.out = stream files req
  noEof : none ∉ s.obtained (s.submitted.length - 1)
  fresh : v.fresh = true → s.ready = [] ∧ ∃ job, s.worker = .next job

inductive Phase (files : Files) (s : State) (v : Plan) : Prop where
  | quiet (hworker : ¬s.worker.Reading) (hready : s.ready = []) (hrequests : s.requests = [])
      (hprogram : s.program = .ret ())
  | waiting {job : Job} {req : ReadRequest} (hworker : s.worker = .next job) (hready : s.ready = [])
      (hrequests : s.requests = [req]) (hprogram : s.program = .ret ())
      (hlast : s.submitted.getLast? = some req)
      (hnone : s.obtained (s.submitted.length - 1) = [])
  | served {req : ReadRequest} (h : Served files s v req)

structure Inv (files : Files) (s : State) : Prop where
  owned : ∀ i, s.owned.count i = 1
  readerPush : s.stage = .start ∨ ∃ k i total,
    s.program = call .pushSpare k ∧ s.hand = some (i, total) ∧ s.spare.StageOk i s.stage
  workerPush : ∀ job fb stage, s.worker = .recycle job fb stage → s.spare.StageOk fb.idx stage
  reader : ∃ v : Plan, s.fd = v.fd ∧ HandOk s.bufs s.hand v.held ∧
    Follows files s.program v ∧ Phase files s v
  past : ∀ j req, s.submitted[j]? = some req → (s.worker.Reading → j + 1 ≠ s.submitted.length) →
    s.obtained j = stream files req
  future : ∀ j, s.submitted.length ≤ j → s.obtained j = []
  whole : ∀ req ∈ s.worker.pending ++ s.requests, ¬Short files req

variable {files : Files} {asked : ReadRequest → Prop} {s s' : State}

theorem Inv.start (bufs : Index → Bytes) : Inv files (.start bufs) where
  owned := by
    change ∀ i, (SpareRing.full.items ++ [] ++ [] ++ []).count i = 1
    decide
  readerPush := .inl rfl
  workerPush _ _ _ h := nomatch h
  reader := ⟨⟨none, none, false, []⟩, rfl, trivial, ⟨rfl, rfl⟩, .quiet id rfl rfl rfl⟩
  past _ _ h := nomatch h
  future _ _ := rfl
  whole _ h := nomatch h

/-! ## Counting buffers -/

theorem count_owned (s : State) (i : Index) :
    s.owned.count i = s.spare.items.count i + (s.hand.toList.map Prod.fst).count i +
      ((s.ready.filter fun fb => !fb.eof).map Filled.idx).count i + s.worker.hand.count i := by
  rw [State.owned, List.count_append, List.count_append, List.count_append]

theorem Inv.nodup (h : Inv files s) : s.owned.Nodup :=
  List.nodup_iff_count_le_one.mpr fun i => (h.owned i).le

theorem Inv.length_le (h : Inv files s) : s.owned.length ≤ READ_AHEAD := by
  simpa using h.nodup.length_le_card

theorem length_owned (s : State) :
    s.owned.length = s.spare.held + s.hand.toList.length +
      (s.ready.filter fun fb => !fb.eof).length + s.worker.hand.length := by
  simp only [State.owned, List.length_append, List.length_map, SpareRing.length_items]

variable {i : Index} {total : ℕ} {fb : Filled} {req : ReadRequest} {op : StorageReader.Op}
  {k : Bool → Reader Unit} {tl : UInt64} {pc pc' : WorkerPc} {job : Job}

theorem Inv.hand_ne (h : Inv files s) (hhand : s.hand = some (i, total)) :
    (∀ fb ∈ s.ready, fb.eof = false → fb.idx ≠ i) ∧ ∀ j ∈ s.worker.hand, j ≠ i := by
  have hone := h.owned i
  rw [count_owned, hhand] at hone
  have hmine : ((some (i, total)).toList.map Prod.fst).count i = 1 := by simp
  constructor
  · rintro fb hfb heof rfl
    have hpos : 0 < ((s.ready.filter fun fb => !fb.eof).map Filled.idx).count fb.idx := by
      refine List.count_pos_iff.mpr (List.mem_map_of_mem (List.mem_filter.mpr ⟨hfb, ?_⟩))
      rw [heof]
      rfl
    omega
  · rintro j hj rfl
    have hpos := List.count_pos_iff.mpr hj
    omega

theorem Inv.room (h : Inv files s) : s.spare.Room s.spare.tail := by
  have hle := h.length_le
  rw [length_owned] at hle
  rw [SpareRing.room_iff]
  unfold READ_AHEAD at hle
  unfold READ_RING
  omega

/-! ## Entries -/

theorem view_of_not_eof (h : fb.eof = false) :
    s.view fb = some ((s.bufs fb.idx).take fb.len.toNat) := by
  rw [State.view, h]
  rfl

theorem view_eof (h : fb.eof = true) : s.view fb = none := by
  rw [State.view, h]
  rfl

theorem stream_end {t u : List (Option Bytes)} (h : t ++ none :: u = stream files req) :
    u = [] := by
  rcases List.eq_nil_or_concat u with rfl | ⟨u, x, rfl⟩
  · rfl
  · rw [List.concat_eq_append, stream, ← List.cons_append, ← List.append_assoc] at h
    have hmem := (List.append_inj_left' h rfl) ▸ List.mem_append_right t List.mem_cons_self
    obtain ⟨b, -, hb⟩ := List.mem_map.mp hmem
    exact nomatch hb

/-! ## A step of the reader -/

theorem HandOk.eq_none {bufs : Index → Bytes} {hand : Option (Index × ℕ)}
    (h : HandOk bufs hand none) : hand = none := by
  cases hand with
  | none => rfl
  | some p => exact h.elim

theorem HandOk.eq_some {bufs : Index → Bytes} {hand : Option (Index × ℕ)} {held : Option Bytes}
    (h : HandOk bufs hand held) (hsome : held.isSome) :
    ∃ i total fill, hand = some (i, total) ∧ held = some fill ∧ (bufs i).take total = fill ∧
      fill.length = total := by
  match hand, held, h with
  | some (i, total), some fill, h => exact ⟨i, total, fill, rfl, rfl, h⟩

theorem Inv.calls (h : Inv files s) {k : op.Ans → Reader Unit} (hp : s.program = call op k) :
    ∃ v req, s.fd = v.fd ∧ HandOk s.bufs s.hand v.held ∧ v.Allows op ∧
      (∀ b, v.Answers files op b → Follows files (k b) (v.after files op b)) ∧
        Follows files s.program v ∧
        Served files s v req := by
  obtain ⟨v, hfd, hhand, hfollows, hphase⟩ := h.reader
  obtain ⟨-, hallows, hnext⟩ := id (hp ▸ hfollows)
  cases hphase with
  | quiet _ _ _ hprogram => exact nomatch hp.symm.trans hprogram
  | waiting _ _ _ hprogram => exact nomatch hp.symm.trans hprogram
  | @served req hserved => exact ⟨v, req, hfd, hhand, hallows, hnext, hfollows, hserved⟩

theorem Inv.stage_start (h : Inv files s) (hno : ∀ k, s.program ≠ call .pushSpare k) :
    s.stage = .start := by
  rcases h.readerPush with hstage | ⟨k, -, -, hp, -⟩
  · exact hstage
  · exact absurd hp (hno k)

theorem call_ne_pushSpare {k : op.Ans → Reader Unit} (hp : s.program = call op k)
    (hop : op ≠ .pushSpare) : ∀ k, s.program ≠ call .pushSpare k := by
  intro k' hp'
  rw [hp] at hp'
  injection hp' with hop'
  exact hop hop'

theorem Inv.worker_waits (h : Inv files s) (hp : s.program = call .pushSpare k) :
    ∃ job, s.worker = .next job := by
  obtain ⟨v, req, -, -, hallows, -, -, hserved⟩ := h.calls hp
  exact (hserved.fresh hallows.2).2

theorem Inv.take (h : Inv files s) {rest : List ReadRequest} (hidle : s.program = .ret ())
    (hreq : s.requests = req :: rest) :
    Inv files { s with requests := rest, program := StorageReader.process req } := by
  obtain ⟨v, hfd, hhand, hfollows, hphase⟩ := h.reader
  rw [hidle] at hfollows
  rw [hfollows.1] at hhand
  have hshort : ¬Short files req :=
    h.whole req (List.mem_append_right _ (hreq ▸ List.mem_cons_self))
  have hstage := h.stage_start fun k hp => nomatch hidle.symm.trans hp
  cases hphase with
  | quiet _ _ hrequests => exact nomatch hreq.symm.trans hrequests
  | served hserved => exact nomatch hreq.symm.trans hserved.requests
  | @waiting job req' hworker hready hrequests _ hlast hnone =>
    obtain ⟨rfl, rfl⟩ := List.cons_eq_cons.mp (hreq.symm.trans hrequests)
    have hserved : Served files { s with requests := [], program := StorageReader.process req }
        ⟨s.fd, none, true, stream files req⟩ req := by
      refine ⟨?_, rfl, hlast, ?_, ?_, fun _ => ⟨hready, job, hworker⟩⟩
      · change s.worker.Reading
        rw [hworker]
        trivial
      · change s.obtained (s.submitted.length - 1) ++ s.ready.map _ ++ _ = _
        rw [hnone, hready]
        rfl
      · change none ∉ s.obtained (s.submitted.length - 1)
        rw [hnone]
        exact List.not_mem_nil
    exact { h with
      readerPush := .inl hstage
      reader := ⟨_, rfl, hhand, follows_process hshort s.fd, .served hserved⟩
      whole := fun r hr => h.whole r (hreq ▸ List.mem_append_left _ (by simpa using hr)) }

theorem Inv.silent (h : Inv files s) {k : op.Ans → Reader Unit} (hp : s.program = call op k)
    (hop : op ≠ .pushSpare) (b : op.Ans) (fd : Option File)
    (hafter : ∀ v : Plan, s.fd = v.fd → v.Answers files op b ∧
      v.after files op b = { v with fd := fd }) :
    Inv files { s with fd := fd, program := k b } := by
  obtain ⟨v, req, hfd, hhand, -, hnext, -, hserved⟩ := h.calls hp
  obtain ⟨hanswer, hv⟩ := hafter v hfd
  have hfollows := hnext b hanswer
  rw [hv] at hfollows
  exact { h with
    readerPush := .inl (h.stage_start (call_ne_pushSpare hp hop))
    reader := ⟨{ v with fd := fd }, rfl, hhand, hfollows, .served { hserved with }⟩ }

theorem Inv.popSpare (h : Inv files s) (hp : s.program = call .popSpare k)
    (hitem : s.spare.head ≠ s.spare.tail) :
    Inv files { s with
      spare := s.spare.pop, hand := some (s.spare.first, 0), program := k true } := by
  obtain ⟨v, req, hfd, hhand, hallows, hnext, -, hserved⟩ := h.calls hp
  have hempty : s.hand = none := HandOk.eq_none (hallows ▸ hhand)
  refine { h with
    owned := fun i => ?_
    readerPush := .inl (h.stage_start (call_ne_pushSpare hp nofun))
    workerPush := fun job fb stage hworker => ?_
    reader := ⟨v.after files .popSpare true, hfd, ⟨rfl, rfl⟩, hnext true rfl,
      .served { hserved with }⟩ }
  · rw [← h.owned i, count_owned, count_owned, hempty, SpareRing.items_pop hitem]
    simp only [Option.toList_some, Option.toList_none, List.map_cons, List.map_nil,
      List.count_cons, List.count_nil]
    omega
  · have hstage := h.workerPush job fb stage hworker
    cases stage <;> exact hstage

theorem map_view_update (buf : Bytes) {ready : List Filled}
    (hne : ∀ fb ∈ ready, fb.eof = false → fb.idx ≠ i) :
    ready.map ({ s with bufs := Function.update s.bufs i buf } : State).view =
      ready.map s.view := by
  refine List.map_congr_left fun fb hfb => ?_
  cases heof : fb.eof
  · rw [view_of_not_eof heof, view_of_not_eof heof]
    change some ((Function.update s.bufs i buf fb.idx).take _) = _
    rw [Function.update_of_ne (hne fb hfb heof)]
  · rw [view_eof heof, view_eof heof]

theorem take_pwrite {buf got : Bytes} (h : total ≤ buf.length) :
    (pwrite buf total got).take (total + got.length) = buf.take total ++ got := by
  unfold pwrite
  split_ifs with hnil
  · rw [hnil, List.append_nil]
    rfl
  · rw [Nat.sub_eq_zero_of_le h, List.replicate_zero, List.append_nil]
    refine List.take_left' ?_
    rw [List.length_append, List.length_take, Nat.min_eq_left h]

theorem Inv.pread (h : Inv files s) {len : ℕ} {off : UInt64}
    {k : (StorageReader.Op.pread len off).Ans → Reader Unit} {file : File}
    {got : (StorageReader.Op.pread len off).Ans} (hp : s.program = call (.pread len off) k)
    (hfile : s.fd = some file) (hmine : s.hand = some (i, total))
    (hgot : Brings file len off got.1) :
    Inv files { s with
      bufs := Function.update s.bufs i (pwrite (s.bufs i) total got.1)
      hand := some (i, total + got.1.length)
      program := k got } := by
  obtain ⟨v, req, hfd, hhand, hallows, hnext, -, hserved⟩ := h.calls hp
  obtain ⟨i', total', fill, hsome, hheld, hfill, hlen⟩ := hhand.eq_some hallows.2
  obtain ⟨rfl, rfl⟩ := Prod.mk.inj (Option.some.inj (hmine.symm.trans hsome))
  have hanswer : v.Answers files (.pread len off) got := by
    intro file' hfile'
    rw [hfile, hfile'] at hfd
    exact Option.some.inj hfd ▸ hgot
  have hle : total ≤ (s.bufs i).length := by
    rw [← hlen, ← hfill]
    exact List.length_take_le' _ _
  have hhand' : HandOk (Function.update s.bufs i (pwrite (s.bufs i) total got.1))
      (some (i, total + got.1.length)) (v.held.map (· ++ got.1)) := by
    rw [hheld]
    constructor
    · rw [Function.update_self, take_pwrite hle, hfill]
    · rw [List.length_append, hlen]
  have hview := map_view_update (s := s) (pwrite (s.bufs i) total got.1) (h.hand_ne hmine).1
  refine { h with
    owned := fun j => ?_
    readerPush := .inl (h.stage_start (call_ne_pushSpare hp nofun))
    reader := ⟨v.after files (.pread len off) got, hfd, hhand', hnext got hanswer, .served
      { hserved with flow := ?_ }⟩ }
  · rw [← h.owned j, count_owned, count_owned, hmine]
    rfl
  · rw [← hserved.flow, ← hview]
    rfl

theorem Inv.loadTail (h : Inv files s) (hp : s.program = call .pushSpare k) :
    Inv files { s with stage := .loaded s.spare.tail } := by
  obtain ⟨v, req, hfd, hhand, hallows, -, hfollows, hserved⟩ := h.calls hp
  obtain ⟨i, total, -, hsome, -⟩ := hhand.eq_some hallows.1
  exact { h with
    readerPush := .inr ⟨k, i, total, hp, hsome, rfl⟩
    reader := ⟨v, hfd, hhand, hfollows, .served { hserved with }⟩ }

theorem Inv.pushing (h : Inv files s) (hstage : s.stage ≠ .start) : ∃ k i total,
    s.program = call .pushSpare k ∧ s.hand = some (i, total) ∧ s.spare.StageOk i s.stage :=
  h.readerPush.resolve_left hstage

theorem Inv.writeSlot (h : Inv files s) (hstage : s.stage = .loaded tl)
    (hmine : s.hand = some (i, total)) (hroom : s.spare.Room tl) :
    Inv files { s with spare := s.spare.write tl i, stage := .written tl } := by
  obtain ⟨k, i', total', hp, hhand', htail⟩ := h.pushing (hstage ▸ nofun)
  obtain ⟨rfl, rfl⟩ := Prod.mk.inj (Option.some.inj (hmine.symm.trans hhand'))
  rw [hstage] at htail
  obtain ⟨v, req, hfd, hhand, -, -, hfollows, hserved⟩ := h.calls hp
  obtain ⟨job, hwaits⟩ := h.worker_waits hp
  refine { h with
    owned := fun j => ?_
    readerPush := .inr ⟨k, i, total, hp, hmine, htail, Function.update_self _ _ _⟩
    workerPush := fun job' fb stage hworker => nomatch hwaits.symm.trans hworker
    reader := ⟨v, hfd, hhand, hfollows, .served { hserved with }⟩ }
  rw [← h.owned j, count_owned, count_owned, SpareRing.items_write htail hroom]

theorem Inv.storeTail (h : Inv files s) (hp : s.program = call .pushSpare k)
    (hstage : s.stage = .written tl) :
    Inv files { s with
      spare := s.spare.store tl, stage := .start, hand := none, program := k true } := by
  obtain ⟨-, i, total, -, hmine, hok⟩ := h.pushing (hstage ▸ nofun)
  rw [hstage] at hok
  obtain ⟨htail, hslot⟩ := hok
  obtain ⟨v, req, hfd, -, -, hnext, -, hserved⟩ := h.calls hp
  obtain ⟨job, hwaits⟩ := h.worker_waits hp
  refine { h with
    owned := fun j => ?_
    readerPush := .inl rfl
    workerPush := fun job' fb stage hworker => nomatch hwaits.symm.trans hworker
    reader := ⟨v.after files .pushSpare true, hfd, trivial, hnext true rfl,
      .served { hserved with }⟩ }
  rw [← h.owned j, count_owned, count_owned, SpareRing.items_store htail h.room hslot, hmine]
  simp only [Option.toList_some, Option.toList_none, List.map_cons, List.map_nil,
    List.count_append, List.count_nil]
  omega

theorem Inv.pushReady (h : Inv files s) {block : Bytes} (hp : s.program = call (.pushReady block) k)
    (hmine : s.hand = some (i, total)) :
    Inv files { s with
      ready := s.ready ++ [⟨i, UInt32.ofNat block.length, false⟩], hand := none,
        program := k true } := by
  obtain ⟨v, req, hfd, hhand, ⟨hheld, hlen, hhead⟩, hnext, -, hserved⟩ := h.calls hp
  rw [hheld, hmine] at hhand
  obtain ⟨hfill, htotal⟩ := hhand
  have hview : s.view ⟨i, UInt32.ofNat block.length, false⟩ = some block := by
    have hsmall : block.length % 2 ^ 32 = block.length :=
      Nat.mod_eq_of_lt (hlen.trans_lt (by decide))
    rw [view_of_not_eof rfl, UInt32.toNat_ofNat', hsmall, htotal, hfill]
  have hout : v.out = some block :: v.out.tail := by
    obtain ⟨out, hout⟩ := List.head?_eq_some_iff.mp hhead
    rw [hout]
    rfl
  refine { h with
    owned := fun j => ?_
    readerPush := .inl (h.stage_start (call_ne_pushSpare hp nofun))
    reader := ⟨v.after files (.pushReady block) true, hfd, trivial, hnext true rfl, .served
      { hserved with flow := ?_, fresh := nofun }⟩ }
  · rw [← h.owned j, count_owned, count_owned, hmine]
    simp only [Option.toList_some, Option.toList_none, List.map_cons, List.map_nil, List.count_nil,
      List.filter_append, List.map_append, List.count_append, List.filter_cons, List.filter_nil,
        Bool.not_false, if_true]
    omega
  · rw [← hserved.flow, hout]
    change _ ++ (s.ready ++ [_]).map s.view ++ v.out.tail = _
    rw [List.map_append, List.map_singleton, hview]
    simp only [List.append_assoc, List.singleton_append]

theorem Inv.pushEof (h : Inv files s) (hp : s.program = call .pushEof k) :
    Inv files { s with ready := s.ready ++ [⟨0, 0, true⟩], program := k true } := by
  obtain ⟨v, req, hfd, hhand, ⟨-, hout⟩, hnext, -, hserved⟩ := h.calls hp
  refine { h with
    owned := fun j => ?_
    readerPush := .inl (h.stage_start (call_ne_pushSpare hp nofun))
    reader := ⟨v.after files .pushEof true, hfd, hhand, hnext true rfl, .served
      { hserved with flow := ?_, fresh := nofun }⟩ }
  · rw [← h.owned j, count_owned, count_owned, List.filter_append]
    simp only [List.filter_cons, List.filter_nil, Bool.not_true, Bool.false_eq_true,
      if_false, List.append_nil]
  · change _ ++ (s.ready ++ [_]).map s.view ++ v.out.tail = _
    rw [← hserved.flow, List.map_append, List.map_singleton, view_eof rfl, hout]
    simp only [List.append_assoc, List.tail_cons, List.append_nil]

/-! ## A step of the worker -/

namespace WorkerPc

inductive Moved (asked : ReadRequest → Prop) (pc pc' : WorkerPc) : Prop where
  | outside (hpc : ¬pc.Reading) (hpc' : ¬pc'.Reading) (hhand : pc.hand = [])
      (hhand' : pc'.hand = []) (hpending : ∀ req ∈ pc'.pending, asked req ∨ req ∈ pc.pending)
  | inside (hpc : pc.Reading) (hnext : ∀ job, pc ≠ next job) (hpc' : pc'.Reading)
      (hhand : pc'.hand = pc.hand)
      (hpending : pc'.pending = [])
      (hstage : ∀ job fb stage, pc' = recycle job fb stage → stage = .start)

theorem Move.moved (h : pc.Move asked pc') : pc.Moved asked pc' := by
  cases h with
  | hashUnit h => exact .outside id id rfl rfl fun req hreq => .inl (List.mem_singleton.mp hreq ▸ h)
  | upload h => exact .outside id id rfl rfl fun req hreq => .inl (List.mem_singleton.mp hreq ▸ h)
  | header req => exact .outside id id rfl rfl fun _ => .inr
  | headerFails | flushed | nothingFlushed | flushHeader | flushHeaderFails | flushData
  | flushDataFails | endOfUnit | endOfUnitLast | checksum => exact .outside id id rfl rfl nofun
  | produced | blockHeader => exact .inside trivial nofun trivial rfl rfl nofun
  | hashed | nothingProduced | blockHeaderFails | blockData | blockDataFails =>
    refine .inside trivial nofun trivial rfl rfl fun _ _ _ h => ?_
    injection h with _ _ hstage
    exact hstage.symm

end WorkerPc

theorem Inv.served (h : Inv files s) (hreading : s.worker.Reading)
    (hnext : ∀ job, s.worker ≠ .next job) :
    ∃ v req, s.fd = v.fd ∧ HandOk s.bufs s.hand v.held ∧ Follows files s.program v ∧
      Served files s v req ∧
      v.fresh ≠ true := by
  obtain ⟨v, hfd, hhand, hfollows, hphase⟩ := h.reader
  cases hphase with
  | quiet hworker => exact absurd hreading hworker
  | @waiting job _ hworker => exact absurd hworker (hnext job)
  | @served req hserved =>
    refine ⟨v, req, hfd, hhand, hfollows, hserved, fun hfresh => ?_⟩
    obtain ⟨-, job, hworker⟩ := hserved.fresh hfresh
    exact hnext job hworker

theorem Inv.stage_of_block (h : Inv files s) (hnext : ∀ job, s.worker ≠ .next job) :
    s.stage = .start := by
  refine h.stage_start fun k hp => ?_
  obtain ⟨job, hwaits⟩ := h.worker_waits hp
  exact hnext job hwaits

theorem Inv.move (h : Inv files s) (hshort : ∀ req, asked req → ¬Short files req)
    (hmove : s.worker.Move asked pc) : Inv files { s with worker := pc } := by
  cases hmove.moved with
  | outside hpc hpc' hhand hhand' hpending =>
    obtain ⟨v, hfd, hheld, hfollows, hphase⟩ := h.reader
    refine { h with
      owned := fun j => ?_
      workerPush :=
        fun job fb stage (hworker : pc = .recycle job fb stage) => absurd (hworker ▸ trivial) hpc'
      reader := ⟨v, hfd, hheld, hfollows, ?_⟩
      past := fun j req hj _ => h.past j req hj fun hreading => absurd hreading hpc
      whole := fun req hreq => ?_ }
    · rw [← h.owned j, count_owned, count_owned, hhand, hhand']
    · cases hphase with
      | quiet _ hready hrequests hprogram => exact .quiet hpc' hready hrequests hprogram
      | waiting hworker => exact absurd (hworker ▸ trivial) hpc
      | served hserved => exact absurd hserved.reading hpc
    · rcases List.mem_append.mp hreq with hreq | hreq
      · rcases hpending req hreq with hasked | hreq
        · exact hshort req hasked
        · exact h.whole req (List.mem_append_left _ hreq)
      · exact h.whole req (List.mem_append_right _ hreq)
  | inside hpc hnext hpc' hhand hpending hstage =>
    obtain ⟨v, req, hfd, hheld, hfollows, hserved, hfresh⟩ := h.served hpc hnext
    refine { h with
      owned := fun j => ?_
      workerPush := fun job fb stage hworker => ?_
      reader := ⟨v, hfd, hheld, hfollows, .served
        { hserved with reading := hpc', fresh := fun hf => absurd hf hfresh }⟩
      past := fun j req hj hlast => h.past j req hj fun _ => hlast hpc'
      whole := fun req hreq => h.whole req
        (List.mem_append_right _ (by simpa [hpending] using hreq)) }
    · rw [← h.owned j, count_owned, count_owned, ← hhand]
    · rw [hstage job fb stage hworker]
      trivial

theorem Inv.submit (h : Inv files s) (hworker : s.worker = .submit job req) :
    Inv files { s with
      requests := s.requests ++ [req], worker := .next job,
        submitted := s.submitted ++ [req] } := by
  have hout : ¬s.worker.Reading := hworker ▸ id
  obtain ⟨v, hfd, hhand, hfollows, hphase⟩ := h.reader
  cases hphase with
  | waiting hworker => exact absurd (hworker ▸ trivial) hout
  | served hserved => exact absurd hserved.reading hout
  | quiet _ hready hrequests hprogram =>
    have hfirst : s.obtained (s.submitted.length + 1 - 1) = [] := h.future _ le_rfl
    refine { h with
      owned := fun j => ?_
      workerPush := nofun
      reader := ⟨v, hfd, hhand, hfollows, .waiting rfl hready ?_ hprogram List.getLast?_concat ?_⟩
      past := fun j req' hj hlast => ?_
      future := fun j hj => ?_
      whole := fun req' hreq => ?_ }
    · rw [← h.owned j, count_owned, count_owned, hworker]
      rfl
    · rw [hrequests]
      rfl
    · change s.obtained ((s.submitted ++ [req]).length - 1) = []
      rwa [List.length_append, List.length_singleton]
    · have hlast' : j + 1 ≠ (s.submitted ++ [req]).length := hlast trivial
      have hlt := (List.getElem?_eq_some_iff.mp hj).1
      rw [List.length_append, List.length_singleton] at hlast' hlt
      rw [List.getElem?_append_left (by omega)] at hj
      exact h.past j req' hj fun hreading => absurd hreading hout
    · rw [List.length_append] at hj
      exact h.future j (by omega)
    · refine h.whole req' ?_
      rw [hworker]
      simpa [WorkerPc.pending, hrequests] using hreq

theorem gets_hand : (WorkerPc.gets job fb).hand = if fb.eof then [] else [fb.idx] := by
  cases job <;> cases hfb : fb.eof <;> simp [WorkerPc.gets, WorkerPc.hand, hfb]

theorem gets_reading_iff : (WorkerPc.gets job fb).Reading ↔ fb.eof = false := by
  cases job <;> cases hfb : fb.eof <;> simp [WorkerPc.gets, WorkerPc.Reading, hfb]

theorem gets_recycle {job' : Job} {fb' : Filled} {stage : Stage}
    (h : WorkerPc.gets job fb = .recycle job' fb' stage) : stage = .start := by
  cases job <;> cases hfb : fb.eof <;> simp_all [WorkerPc.gets]

theorem gets_pending : (WorkerPc.gets job fb).pending = [] := by
  cases job <;> cases hfb : fb.eof <;> simp [WorkerPc.gets, WorkerPc.pending, hfb]

def State.got (s : State) (job : Job) (fb : Filled) (rest : List Filled) : State := { s with
  ready := rest
  worker := .gets job fb
  obtained := Function.update s.obtained (s.submitted.length - 1)
    (s.obtained (s.submitted.length - 1) ++ [s.view fb]) }

theorem Follows.eq_ret {p : Reader Unit} {v : Plan} (h : Follows files p v) (hout : v.out = []) :
    p = .ret () := by
  cases p with
  | ret => rfl
  | read => exact h.elim
  | call => exact absurd hout h.1

theorem Inv.next (h : Inv files s) {rest : List Filled} (hworker : s.worker = .next job)
    (hready : s.ready = fb :: rest) : Inv files (s.got job fb rest) := by
  obtain ⟨v, hfd, hhand, hfollows, hphase⟩ := h.reader
  cases hphase with
  | quiet _ hready' => exact nomatch hready.symm.trans hready'
  | waiting _ hready' => exact nomatch hready.symm.trans hready'
  | @served req hserved =>
    have hflow := hserved.flow
    have hlast := hserved.last
    rw [hready, List.map_cons] at hflow
    have hpos : 0 < s.submitted.length :=
      List.length_pos_iff.mpr (by rintro hnil; simp [hnil] at hlast)
    have howned : ∀ i, (s.got job fb rest).owned.count i = 1 := by
      intro i
      rw [← h.owned i, count_owned, count_owned, hready, hworker]
      change s.spare.items.count i + (s.hand.toList.map Prod.fst).count i +
        ((rest.filter fun fb => !fb.eof).map Filled.idx).count i +
          (WorkerPc.gets job fb).hand.count i = _
      rw [gets_hand]
      cases heof : fb.eof
      · simp [heof, WorkerPc.hand, List.count_cons]
        omega
      · simp [heof, WorkerPc.hand]
    have hnow : (s.got job fb rest).obtained (s.submitted.length - 1) =
        s.obtained (s.submitted.length - 1) ++ [s.view fb] := Function.update_self _ _ _
    have hother : ∀ j, j ≠ s.submitted.length - 1 → (s.got job fb rest).obtained j = s.obtained j :=
      fun j hj => Function.update_of_ne hj _ _
    have hpast : ∀ j req', s.submitted[j]? = some req' → j + 1 ≠ s.submitted.length →
        (s.got job fb rest).obtained j = stream files req' := fun j req' hj hne =>
      (hother j (by omega)).trans (h.past j req' hj fun _ => hne)
    have hfuture : ∀ j, s.submitted.length ≤ j → (s.got job fb rest).obtained j = [] := fun j hj =>
      (hother j (by omega)).trans (h.future j hj)
    have hwhole : ∀ req ∈ (WorkerPc.gets job fb).pending ++ s.requests,
        ¬Short files req := fun req hreq =>
      h.whole req (List.mem_append_right _ (by simpa [gets_pending] using hreq))
    have hpush : ∀ job' fb' stage, WorkerPc.gets job fb = .recycle job' fb' stage →
        s.spare.StageOk fb'.idx stage := by
      intro job' fb' stage hgets
      rw [gets_recycle hgets]
      trivial
    cases heof : fb.eof with
    | true =>
      have hend : rest.map s.view ++ v.out = [] := by
        rw [view_eof heof, List.append_assoc, List.cons_append] at hflow
        exact stream_end hflow
      obtain ⟨hrest, hout⟩ := List.append_eq_nil_iff.mp hend
      have hleft : ¬(WorkerPc.gets job fb).Reading := by
        rw [gets_reading_iff, heof]
        exact nofun
      refine ⟨howned, h.readerPush, hpush, ⟨v, hfd, hhand, hfollows, ?_⟩,
        fun j req' hj _ => ?_, hfuture, hwhole⟩
      · exact .quiet hleft (List.map_eq_nil_iff.mp hrest) hserved.requests (hfollows.eq_ret hout)
      · rcases eq_or_ne (j + 1) s.submitted.length with hj' | hj'
        · obtain rfl : j = s.submitted.length - 1 := by omega
          rw [List.getLast?_eq_getElem?] at hlast
          obtain rfl := Option.some.inj (hj.symm.trans hlast)
          rw [hnow, ← hflow, hrest, hout, List.append_nil]
        · exact hpast j req' hj hj'
    | false =>
      have hreads : (WorkerPc.gets job fb).Reading := gets_reading_iff.mpr heof
      have hserved' : Served files (s.got job fb rest) v req := by
        refine ⟨hreads, hserved.requests, hlast, ?_, ?_, fun hfresh => ?_⟩
        · change (s.got job fb rest).obtained (s.submitted.length - 1) ++
            rest.map s.view ++ v.out = _
          rw [hnow, ← hflow]
          simp only [List.append_assoc, List.singleton_append]
        · change none ∉ (s.got job fb rest).obtained (s.submitted.length - 1)
          rw [hnow, view_of_not_eof heof, List.mem_append, List.mem_singleton]
          exact fun hmem => hmem.elim hserved.noEof nofun
        · exact nomatch hready.symm.trans (hserved.fresh hfresh).1
      exact ⟨howned, h.readerPush, hpush, ⟨v, hfd, hhand, hfollows, .served hserved'⟩,
        fun j req' hj hne => hpast j req' hj (hne hreads), hfuture, hwhole⟩

/-- What a step of `recycle` changes: the spare ring and the place of the worker. -/
theorem Inv.recycling (h : Inv files s) {stage : Stage} (hworker : s.worker = .recycle job fb stage)
    {spare : SpareRing} {w : WorkerPc} (hreads : w.Reading) (hpending : w.pending = [])
    (howned : ∀ i, spare.items.count i + w.hand.count i =
      s.spare.items.count i + s.worker.hand.count i)
    (hpush : ∀ job fb stage, w = .recycle job fb stage → spare.StageOk fb.idx stage) :
    Inv files { s with spare := spare, worker := w } := by
  have hnext : ∀ job, s.worker ≠ .next job := hworker ▸ nofun
  obtain ⟨v, req, hfd, hhand, hfollows, hserved, hfresh⟩ := h.served (hworker ▸ trivial) hnext
  refine { h with
    owned := fun i => ?_
    readerPush := .inl (h.stage_of_block hnext)
    workerPush := hpush
    reader := ⟨v, hfd, hhand, hfollows, .served
      { hserved with reading := hreads, fresh := fun hf => absurd hf hfresh }⟩
    past := fun j req hj hlast => h.past j req hj fun _ => hlast hreads
    whole := fun req hreq => h.whole req (List.mem_append_right _ ?_) }
  · have hcount := howned i
    rw [← h.owned i, count_owned, count_owned]
    dsimp only
    omega
  · change req ∈ w.pending ++ s.requests at hreq
    rwa [hpending, List.nil_append] at hreq

theorem Inv.recycleLoad (h : Inv files s) (hworker : s.worker = .recycle job fb .start) :
    Inv files { s with worker := .recycle job fb (.loaded s.spare.tail) } := by
  refine h.recycling hworker trivial rfl (fun i => ?_) fun job' fb' stage hpc => ?_
  · rw [hworker]
    rfl
  · injection hpc with _ _ hstage
    rw [← hstage]
    rfl

theorem Inv.recycleWrite (h : Inv files s) (hworker : s.worker = .recycle job fb (.loaded tl))
    (hroom : s.spare.Room tl) :
    Inv files { s with
      spare := s.spare.write tl fb.idx, worker := .recycle job fb (.written tl) } := by
  have htail := h.workerPush job fb _ hworker
  refine h.recycling hworker trivial rfl (fun i => ?_) fun job' fb' stage hpc => ?_
  · rw [SpareRing.items_write htail hroom, hworker]
    rfl
  · injection hpc with _ hfb hstage
    rw [← hfb, ← hstage]
    exact ⟨htail, Function.update_self _ _ _⟩

theorem Inv.recycleStore (h : Inv files s) (hworker : s.worker = .recycle job fb (.written tl)) :
    Inv files { s with spare := s.spare.store tl, worker := .next job } := by
  obtain ⟨htail, hslot⟩ := h.workerPush job fb _ hworker
  refine h.recycling hworker trivial rfl (fun i => ?_) nofun
  rw [SpareRing.items_store htail h.room hslot, hworker, List.count_append]
  rfl

/-! ## Whole runs -/

theorem Inv.step (h : Inv files s) (hshort : ∀ req, asked req → ¬Short files req)
    (hstep : Step files asked s s') : Inv files s' := by
  cases hstep with
  | take hidle hreq => exact h.take hidle hreq
  | acquireDisk hp => exact h.silent hp nofun () s.fd fun v hfd => ⟨trivial, by rw [hfd]; rfl⟩
  | openFile hp => exact h.silent hp nofun _ (files _) fun v _ => ⟨rfl, rfl⟩
  | popSpare hp hitem => exact h.popSpare hp hitem
  | pread hp hfd hhand hgot => exact h.pread hp hfd hhand hgot
  | loadTail hp => exact h.loadTail hp
  | writeSlot hstage hhand hroom => exact h.writeSlot hstage hhand hroom
  | storeTail hp hstage => exact h.storeTail hp hstage
  | pushReady hp hhand => exact h.pushReady hp hhand
  | closeFile hp => exact h.silent hp nofun () none fun v _ => ⟨trivial, rfl⟩
  | releaseDisk hp => exact h.silent hp nofun () s.fd fun v hfd => ⟨trivial, by rw [hfd]; rfl⟩
  | pushEof hp => exact h.pushEof hp
  | move hmove => exact h.move hshort hmove
  | submit hworker => exact h.submit hworker
  | next hworker hready => exact h.next hworker hready
  | recycleLoad hworker => exact h.recycleLoad hworker
  | recycleWrite hworker hroom => exact h.recycleWrite hworker hroom
  | recycleStore hworker => exact h.recycleStore hworker

theorem Reachable.inv (h : Reachable files asked s) (hshort : ∀ req, asked req → ¬Short files req) :
    Inv files s := by
  obtain ⟨bufs, hruns⟩ := h
  induction hruns with
  | refl => exact Inv.start bufs
  | tail _ hstep ih => exact ih.step hshort hstep

/-! ## Every request is finished -/

def Later (p p' : Reader Unit) : Prop :=
  ∃ (op : StorageReader.Op) (k : op.Ans → Reader Unit) (b : op.Ans), p' = call op k ∧ p = k b

theorem later_wf : WellFounded Later := by
  refine ⟨fun p => ?_⟩
  induction p with
  | ret a => exact ⟨_, fun p ⟨op, k, b, h, _⟩ => nomatch h⟩
  | read n k => exact ⟨_, fun p ⟨op, k, b, h, _⟩ => nomatch h⟩
  | call op k ih =>
    refine ⟨_, ?_⟩
    rintro p ⟨op', k', b, h, rfl⟩
    cases h
    exact ih b

def Stage.rank : Stage → ℕ
  | .start => 2
  | .loaded _ => 1
  | .written _ => 0

def WorkerPc.rank : WorkerPc → ℕ
  | hashBlock _ | block _ => 6
  | blockHeader _ => 5
  | blockData _ => 4
  | recycle _ _ stage => 1 + stage.rank
  | _ => 0

def State.rank (s : State) : ℕ × Reader Unit × ℕ :=
  (s.requests.length, s.program, s.stage.rank + 7 * s.ready.length + s.worker.rank)

def RankLt : ℕ × Reader Unit × ℕ → ℕ × Reader Unit × ℕ → Prop :=
  Prod.Lex (· < ·) (Prod.Lex Later (· < ·))

theorem rankLt_wf : WellFounded RankLt := wellFounded_lt.prod_lex (later_wf.prod_lex wellFounded_lt)

theorem rank_lt_of_call {k : op.Ans → Reader Unit} {b : op.Ans} (hp : s.program = call op k)
    (hp' : s'.program = k b) (hrequests : s'.requests = s.requests) : RankLt s'.rank s.rank := by
  unfold State.rank
  rw [hrequests]
  exact .right _ (.left _ _ ⟨op, k, b, hp, hp'⟩)

theorem rank_lt_of_lt (hp : s'.program = s.program) (hrequests : s'.requests = s.requests)
    (hlt : s'.stage.rank + 7 * s'.ready.length + s'.worker.rank <
      s.stage.rank + 7 * s.ready.length + s.worker.rank) :
    RankLt s'.rank s.rank := by
  unfold State.rank
  rw [hrequests, hp]
  exact .right _ (.right _ hlt)

theorem WorkerPc.Move.rank_lt (h : pc.Move asked pc') (hpc : pc.Reading) : pc'.rank < pc.rank := by
  cases h with
  | hashed | nothingProduced | produced | blockHeader | blockHeaderFails | blockData
  | blockDataFails =>
    simp [WorkerPc.rank, Stage.rank]
  | _ => exact hpc.elim

theorem gets_rank_le : (WorkerPc.gets job fb).rank ≤ 6 := by
  cases job <;> cases hfb : fb.eof <;> simp [WorkerPc.gets, WorkerPc.rank, Stage.rank, hfb]

theorem Step.rank_lt (h : Step files asked s s') (hreading : s.worker.Reading) :
    RankLt s'.rank s.rank := by
  cases h with
  | @take req rest _ hreq =>
    refine .left _ _ ?_
    change rest.length < s.requests.length
    rw [hreq, List.length_cons]
    exact Nat.lt_succ_self _
  | acquireDisk hp | openFile hp | popSpare hp | pread hp | storeTail hp | pushReady hp
  | closeFile hp | releaseDisk hp | pushEof hp => exact rank_lt_of_call hp rfl rfl
  | loadTail hp hstage =>
    refine rank_lt_of_lt rfl rfl ?_
    simp [hstage, Stage.rank]
  | writeSlot hstage =>
    refine rank_lt_of_lt rfl rfl ?_
    simp [hstage, Stage.rank]
  | move hmove => exact rank_lt_of_lt rfl rfl (Nat.add_lt_add_left (hmove.rank_lt hreading) _)
  | submit hworker =>
    rw [hworker] at hreading
    exact hreading.elim
  | @next job fb rest hworker hready =>
    refine rank_lt_of_lt rfl rfl ?_
    have hle := @gets_rank_le fb job
    change s.stage.rank + 7 * rest.length + (WorkerPc.gets job fb).rank < _
    rw [hready, hworker, List.length_cons]
    exact Nat.lt_of_lt_of_le (by omega) (Nat.le_add_right _ _)
  | recycleLoad hworker | recycleWrite hworker | recycleStore hworker =>
    refine rank_lt_of_lt rfl rfl ?_
    simp [hworker, WorkerPc.rank, Stage.rank]

theorem brings_at (file : File) (len : ℕ) (off : UInt64) : Brings file len off (file.at off len) :=
  ⟨List.take_prefix _ _, fun hlen h => (at_eq_nil_iff hlen).mp h⟩

theorem Inv.reader_enabled (h : Inv files s) {k : op.Ans → Reader Unit} (hp : s.program = call op k)
    (hworker : s.worker = .next job) (hready : s.ready = []) : ∃ s', Step files asked s s' := by
  obtain ⟨v, req, hfd, hhand, hallows, -, -, -⟩ := h.calls hp
  have hroom : s.ready.length < READ_RING := by
    rw [hready]
    decide
  cases op with
  | acquireDisk => exact ⟨_, .acquireDisk hp⟩
  | openFile path => exact ⟨_, .openFile hp⟩
  | closeFile => exact ⟨_, .closeFile hp⟩
  | releaseDisk => exact ⟨_, .releaseDisk hp⟩
  | pushEof => exact ⟨_, .pushEof hp hroom⟩
  | popSpare =>
    have hempty : s.hand = none := HandOk.eq_none (hallows ▸ hhand)
    have hone := h.owned 0
    rw [count_owned, hempty, hready, hworker] at hone
    have hcount : s.spare.items.count 0 = 1 := hone
    have hlen := List.length_pos_of_mem (List.count_pos_iff.mp (hcount ▸ Nat.one_pos))
    rw [SpareRing.length_items] at hlen
    exact ⟨_, .popSpare hp (SpareRing.ne_iff.mpr hlen)⟩
  | pread len off =>
    obtain ⟨i, total, -, hsome, -⟩ := hhand.eq_some hallows.2
    obtain ⟨file, hfile⟩ := Option.isSome_iff_exists.mp hallows.1
    have hgot : Brings file len off (⟨file.at off len, List.length_take_le _ _⟩ :
        (StorageReader.Op.pread len off).Ans).1 := brings_at file len off
    exact ⟨_, .pread hp (hfd.trans hfile) hsome hgot⟩
  | pushReady block =>
    obtain ⟨i, total, -, hsome, -⟩ := hhand.eq_some (hallows.1 ▸ rfl)
    exact ⟨_, .pushReady hp hsome hroom⟩
  | pushSpare =>
    obtain ⟨i, total, -, hsome, -⟩ := hhand.eq_some hallows.1
    cases hstage : s.stage with
    | start => exact ⟨_, .loadTail hp hstage⟩
    | loaded tl =>
      obtain ⟨_, _, _, -, -, hok⟩ := h.pushing (hstage ▸ nofun)
      rw [hstage] at hok
      have htail : s.spare.tail = tl := hok
      exact ⟨_, .writeSlot hstage hsome (htail ▸ h.room)⟩
    | written tl => exact ⟨_, .storeTail hp hstage⟩

theorem Step.of_move (hworker : s.worker = pc) (h : pc.Move asked pc') :
    Step files asked s { s with worker := pc' } := by
  subst hworker
  exact .move h

theorem Inv.enabled (h : Inv files s) (hreading : s.worker.Reading) :
    ∃ s', Step files asked s s' := by
  cases hworker : s.worker with
  | hashBlock fb => exact ⟨_, .of_move hworker (.hashed fb)⟩
  | block fb => exact ⟨_, .of_move hworker (.produced fb)⟩
  | blockHeader fb => exact ⟨_, .of_move hworker (.blockHeader fb)⟩
  | blockData fb => exact ⟨_, .of_move hworker (.blockData fb)⟩
  | recycle job fb stage =>
    cases stage with
    | start => exact ⟨_, .recycleLoad hworker⟩
    | loaded tl =>
      have htail : s.spare.tail = tl := h.workerPush job fb _ hworker
      exact ⟨_, .recycleWrite hworker (htail ▸ h.room)⟩
    | written tl => exact ⟨_, .recycleStore hworker⟩
  | next job =>
    cases hready : s.ready with
    | cons fb rest => exact ⟨_, .next hworker hready⟩
    | nil =>
      obtain ⟨v, -, -, hfollows, hphase⟩ := h.reader
      cases hphase with
      | quiet hno => exact absurd hreading hno
      | waiting _ _ hrequests hprogram => exact ⟨_, .take hprogram hrequests⟩
      | @served req hserved =>
        cases hp : s.program with
        | read n k => exact (hp ▸ hfollows).elim
        | call op k => exact h.reader_enabled hp hworker hready
        | ret a =>
          have hflow := hserved.flow
          rw [hp] at hfollows
          rw [hready, hfollows.2, List.map_nil, List.append_nil, List.append_nil] at hflow
          exact absurd (hflow ▸ List.mem_append_right _ List.mem_cons_self) hserved.noEof
  | _ =>
    rw [hworker] at hreading
    exact hreading.elim

theorem Inv.leaves (h : Inv files s) (hshort : ∀ req, asked req → ¬Short files req) :
    Inevitable (Step files asked) (fun s' => ¬s'.worker.Reading) s :=
  Inevitable.of_rank rankLt_wf State.rank (fun _ h hreading => h.enabled (not_not.mp hreading))
    (fun _ _ h hstep => h.step hshort hstep)
      (fun _ _ _ hreading hstep _ => hstep.rank_lt (not_not.mp hreading)) h

theorem Inv.sound (h : Inv files s) (hshort : ∀ req, asked req → ¬Short files req) :
    Sound files asked s where
  owned := h.owned
  writes s' hstep i hi := by
    cases hstep with
    | pread _ _ hhand _ => exact Function.update_of_ne ((h.hand_ne hhand).2 i hi) _ _
    | _ => rfl
  obtained j req hj := by
    by_cases hlast : s.worker.Reading ∧ j + 1 = s.submitted.length
    · obtain ⟨hreading, hj'⟩ := hlast
      obtain rfl : j = s.submitted.length - 1 := by omega
      obtain ⟨v, -, -, -, hphase⟩ := h.reader
      cases hphase with
      | quiet hno => exact absurd hreading hno
      | waiting _ _ _ _ _ hnone => exact hnone ▸ List.nil_prefix
      | served hserved =>
        have hreq := hserved.last
        rw [List.getLast?_eq_getElem?, hj] at hreq
        obtain rfl := Option.some.inj hreq
        rw [← hserved.flow, List.append_assoc]
        exact List.prefix_append _ _
    · rw [h.past j req hj fun hreading hj' => hlast ⟨hreading, hj'⟩]
  finished j req hj hleft := h.past j req hj fun hreading hj' => hleft hj' hreading
  nothingLeft hno := by
    obtain ⟨v, -, -, -, hphase⟩ := h.reader
    cases hphase with
    | quiet _ hready hrequests => exact ⟨hready, hrequests⟩
    | waiting hworker => exact absurd (hworker ▸ trivial) hno
    | served hserved => exact absurd hserved.reading hno
  leaves := h.leaves hshort

/-! ## A file that ends inside the range -/

structure At (s : State) (file : File) (program : Reader Unit) (hand : Option Index)
    (worker : WorkerPc) (ready : List Filled) (spares : ℕ) : Prop where
  program : s.program = program
  fd : s.fd = some file
  hand : s.hand.map Prod.fst = hand
  stage : s.stage = .start
  worker : s.worker = worker
  ready : s.ready = ready
  spare : s.spare.held = spares

section Turns
variable {file : File} {p : Reader Unit} {hand : Option Index} {worker : WorkerPc}
  {ready : List Filled} {spares remaining : ℕ} {off : UInt64}

variable (files asked)

theorem At.pread {len : ℕ} {k : (StorageReader.Op.pread len off).Ans → Reader Unit}
    (h : At s file (call (.pread len off) k) (some i) worker ready spares) :
    ∃ s', Step files asked s s' ∧
      At s' file (k ⟨file.at off len, List.length_take_le _ _⟩) (some i) worker ready spares := by
  obtain ⟨⟨i, total⟩, hhand, rfl⟩ := Option.map_eq_some_iff.mp h.hand
  have hgot : Brings file len off (⟨file.at off len, List.length_take_le _ _⟩ :
      (StorageReader.Op.pread len off).Ans).1 := brings_at file len off
  exact ⟨_, .pread h.program h.fd hhand hgot, rfl, h.fd, rfl, h.stage, h.worker, h.ready, h.spare⟩

theorem At.readAt (len : ℕ) {f : { bytes : Bytes // bytes.length ≤ len } → Reader Unit}
    (h : At s file (StorageReader.readAt len off >>= f) (some i) worker ready spares) :
    ∃ s', Runs files asked s s' ∧
      At s' file (f ⟨file.at off len, List.length_take_le _ _⟩) (some i) worker ready spares := by
  induction len using Nat.strong_induction_on generalizing s off with
  | _ len ih =>
    rcases Nat.eq_zero_or_pos len with rfl | hlen
    · rw [readAt_zero_bind] at h
      exact ⟨s, .refl, h⟩
    rw [readAt_bind hlen.ne'] at h
    obtain ⟨s₁, hread, h₁⟩ := h.pread files asked
    by_cases hnil : file.at off len = []
    · rw [dif_pos hnil] at h₁
      simp only [hnil]
      exact ⟨s₁, .single hread, h₁⟩
    · rw [dif_neg hnil] at h₁
      obtain ⟨s₂, hruns, h₂⟩ := ih _ (rest_lt hlen.ne' hnil) h₁
      refine ⟨s₂, .head hread hruns, ?_⟩
      simpa only [(brings_at file len off).at_eq (List.length_take_le _ _) hnil] using h₂

theorem At.popSpare (h : At s file (call .popSpare k) none worker ready (spares + 1)) :
    ∃ s' i, Step files asked s s' ∧ At s' file (k true) (some i) worker ready spares := by
  have hitem : s.spare.head ≠ s.spare.tail := SpareRing.ne_iff.mpr (h.spare ▸ Nat.succ_pos spares)
  have hleft : s.spare.pop.held = spares :=
    Nat.succ.inj ((SpareRing.held_pop hitem).symm.trans h.spare)
  exact ⟨_, s.spare.first, .popSpare h.program hitem, rfl, h.fd, rfl, h.stage,
    h.worker, h.ready, hleft⟩

theorem At.pushReady {block : Bytes}
    (h : At s file (call (.pushReady block) k) (some i) worker [] spares) :
    ∃ s' fb, Step files asked s s' ∧ fb.eof = false ∧
      At s' file (k true) none worker [fb] spares := by
  obtain ⟨⟨i, total⟩, hhand, rfl⟩ := Option.map_eq_some_iff.mp h.hand
  have hroom : s.ready.length < READ_RING := by
    rw [h.ready]
    decide
  refine ⟨_, ⟨i, UInt32.ofNat block.length, false⟩, .pushReady h.program hhand hroom,
    rfl, rfl, h.fd, rfl, h.stage, h.worker, ?_, h.spare⟩
  change s.ready ++ [_] = _
  rw [h.ready]
  rfl

theorem At.hash (h : At s file p none (.next .hash) [fb] spares) (heof : fb.eof = false) :
    ∃ s', Runs files asked s s' ∧ At s' file p none (.recycle .hash fb .start) [] spares := by
  have hgets : WorkerPc.gets .hash fb = .hashBlock fb := by
    rw [WorkerPc.gets, heof]
    rfl
  have hnext : Step files asked s _ := .next h.worker h.ready
  rw [hgets] at hnext
  exact ⟨_, .tail (.single hnext) (.of_move rfl (.hashed fb)), h.program, h.fd, h.hand, h.stage,
    rfl, rfl, h.spare⟩

theorem At.recycle (h : At s file p none (.recycle .hash fb .start) [] spares)
    (hroom : spares < READ_RING) :
    ∃ s', Runs files asked s s' ∧ At s' file p none (.next .hash) [] (spares + 1) := by
  have hfree : s.spare.Room s.spare.tail := SpareRing.room_iff.mpr (h.spare.trans_lt hroom)
  have hload : Step files asked s _ := .recycleLoad h.worker
  exact ⟨_, .tail (.tail (.single hload) (.recycleWrite rfl hfree)) (.recycleStore rfl),
    h.program, h.fd, h.hand, h.stage, rfl, h.ready,
      (SpareRing.held_store hfree).trans (congrArg (· + 1) h.spare)⟩

theorem At.race
    (h : At s file (call .pushSpare fun _ => p) (some i) (.recycle .hash fb .start) [] spares)
    (hroom : spares < READ_RING) :
    ∃ s', Runs files asked s s' ∧ At s' file p none (.next .hash) [] (spares + 1) := by
  obtain ⟨⟨i, total⟩, hhand, rfl⟩ := Option.map_eq_some_iff.mp h.hand
  have hfree : s.spare.Room s.spare.tail := SpareRing.room_iff.mpr (h.spare.trans_lt hroom)
  have hload : Step files asked s _ := .loadTail h.program h.stage
  exact ⟨_, .tail (.tail (.tail (.tail (.tail (.single hload) (.recycleLoad h.worker))
    (.writeSlot rfl hhand hfree)) (.recycleWrite rfl hfree)) (.storeTail h.program rfl))
      (.recycleStore rfl),
    rfl, h.fd, rfl, rfl, rfl, h.ready, (SpareRing.held_store hfree).trans
      (congrArg (· + 1) h.spare)⟩

theorem At.round
    (h : At s file (readBlocks off remaining >>= fun _ => finish) none worker ready (spares + 1))
    (hpos : 0 < remaining) :
    ∃ s' i, Runs files asked s s' ∧ At s' file
      (if file.at off (min remaining READ_BLOCK) = [] then call .pushSpare fun _ => finish
       else call (.pushReady (file.at off (min remaining READ_BLOCK))) fun pushed =>
        if pushed then
          readBlocks (off + UInt64.ofNat (file.at off (min remaining READ_BLOCK)).length)
            (remaining - (file.at off (min remaining READ_BLOCK)).length) >>= fun _ => finish
        else finish) (some i) worker ready spares := by
  rw [readBlocks_bind hpos.ne'] at h
  obtain ⟨s₁, i, hpop, h₁⟩ := h.popSpare files asked
  obtain ⟨s₂, hruns, h₂⟩ := h₁.readAt files asked
  exact ⟨s₂, i, .head hpop hruns, h₂⟩

theorem At.loses (remaining : ℕ)
    (h : At s file (readBlocks off remaining >>= fun _ => finish) none (.next .hash) [] READ_AHEAD)
    (hsome : off.toNat < file.bytes.length) (hshort : file.bytes.length < off.toNat + remaining) :
    ∃ s', Runs files asked s s' ∧ At s' file finish none (.next .hash) [] (READ_AHEAD - 1) := by
  induction remaining using Nat.strong_induction_on generalizing s off with
  | _ remaining ih =>
    have hpos : 0 < remaining := by omega
    have hblock : 0 < min remaining READ_BLOCK := lt_min hpos (by decide)
    have hne : file.at off (min remaining READ_BLOCK) ≠ [] := fun hnil =>
      absurd ((at_eq_nil_iff hblock).mp hnil) (Nat.not_le.mpr hsome)
    have hadd := (brings_at file (min remaining READ_BLOCK) off).off_add hne
    have hlen : (file.at off (min remaining READ_BLOCK)).length ≤ file.bytes.length - off.toNat :=
      (List.length_take_le' _ _).trans (List.length_drop ..).le
    obtain ⟨s₁, i, hround, h₁⟩ := h.round files asked hpos
    rw [if_neg hne] at h₁
    obtain ⟨s₂, fb, hpush, heof, h₂⟩ := h₁.pushReady files asked
    obtain ⟨s₃, hhash, h₃⟩ := h₂.hash files asked heof
    have hruns₃ : Runs files asked s s₃ := (hround.tail hpush).trans hhash
    generalize hgot : file.at off (min remaining READ_BLOCK) = got at hne hadd hlen h₃
    rw [if_pos rfl] at h₃
    rcases Nat.lt_or_ge (off + UInt64.ofNat got.length).toNat file.bytes.length with hmore | hend
    · obtain ⟨s₄, hrecycle, h₄⟩ := h₃.recycle files asked (by decide)
      obtain ⟨s₅, hruns, h₅⟩ := ih _ (rest_lt hpos.ne' hne) h₄ hmore (by omega)
      exact ⟨s₅, (hruns₃.trans hrecycle).trans hruns, h₅⟩
    · -- there is still a range to read and nothing in it
      have hrest : 0 < remaining - got.length := by omega
      obtain ⟨s₄, i, hround', h₄⟩ := h₃.round files asked hrest
      rw [if_pos ((at_eq_nil_iff (lt_min hrest (by decide))).mpr hend)] at h₄
      obtain ⟨s₅, hrace, h₅⟩ := h₄.race files asked (by decide)
      exact ⟨s₅, (hruns₃.trans hround').trans hrace, h₅⟩

end Turns

theorem At.not_owned {file : File} {p : Reader Unit}
    (h : At s file p none (.next job) [] (READ_AHEAD - 1)) : ¬∀ i, s.owned.count i = 1 := by
  intro hone
  have hall : (Finset.univ : Finset Index) ⊆ s.owned.toFinset := fun i _ =>
    List.mem_toFinset.mpr (List.count_pos_iff.mp ((hone i).symm ▸ Nat.one_pos))
  have hcard := (Finset.card_le_card hall).trans (List.toFinset_card_le _)
  rw [length_owned, h.ready, h.worker, Option.map_eq_none_iff.mp h.hand, Finset.card_univ,
    Fintype.card_fin, h.spare] at hcard
  change READ_AHEAD ≤ READ_AHEAD - 1 + 0 + 0 + 0 at hcard
  exact absurd hcard (by decide)

theorem loses_of_short (hasked : asked req) (hshort : Short files req) (bufs : Index → Bytes) :
    ∃ s file, Runs files asked (.start bufs) s ∧
      At s file finish none (.next .hash) [] (READ_AHEAD - 1) := by
  obtain ⟨file, hfile, hsome, hends⟩ := hshort
  have hcall : Step files asked (.start bufs) _ := .move (.hashUnit hasked)
  have hsubmit : Step files asked { State.start bufs with worker := .submit .hash req } _ :=
    .submit rfl (Nat.succ_pos 7)
  have htake : Step files asked
      { State.start bufs with requests := [req], worker := .next .hash, submitted := [req] } _ :=
        .take rfl rfl
  have hacquire : Step files asked { State.start bufs with
      program := StorageReader.process req, worker := .next .hash, submitted := [req] } _ :=
    .acquireDisk (process_eq req)
  have hopen : Step files asked { State.start bufs with
      program := call (.openFile req.pathname.bytes) fun opened =>
        if opened then readBlocks req.offset req.length.toNat >>= fun _ => finish else finish
      worker := .next .hash, submitted := [req] } _ := .openFile rfl
  have hat : At { State.start bufs with
      fd := files req.pathname.bytes
      program := if (files req.pathname.bytes).isSome then
        readBlocks req.offset req.length.toNat >>= fun _ => finish else finish
      worker := .next .hash, submitted := [req] } file
      (readBlocks req.offset req.length.toNat >>= fun _ => finish) none (.next .hash)
      [] READ_AHEAD := by
    refine ⟨?_, hfile, rfl, rfl, rfl, rfl, ?_⟩
    · rw [hfile]
      rfl
    · change SpareRing.full.held = READ_AHEAD
      decide
  obtain ⟨s, hruns, hlast⟩ := hat.loses files asked _ hsome hends
  exact ⟨s, file, .head hcall (.head hsubmit (.head htake (.head hacquire (.head hopen hruns)))),
    hlast⟩

/-! ## When the buffers are conserved -/

/-- The requests and the files with which every run is sound: no file ends inside a range that is
asked for. -/
theorem buffers_conserved_iff (files : Files) (asked : ReadRequest → Prop) :
    (∀ s, Reachable files asked s → Sound files asked s) ↔ ∀ req, asked req → ¬Short files req := by
  constructor
  · intro hsound req hasked hshort
    obtain ⟨s, file, hruns, hlast⟩ := loses_of_short hasked hshort fun _ => []
    exact hlast.not_owned (hsound s ⟨_, hruns⟩).owned
  · exact fun hshort s hs => (hs.inv hshort).sound hshort

def oneByte : Files := fun _ => some ⟨[7], by decide⟩

def twoBytes : ReadRequest := StorageReader.submit .file [97] 0 2

/-- One byte on the disk, and a range of two: the reader and the worker, with one buffer each, push
at once, both return, and the ring has three. -/
theorem spare_buffer_lost :
    ∃ s, Reachable oneByte (· = twoBytes) s ∧ s.worker = .next .hash ∧ s.hand = none ∧
    s.stage = .start ∧ s.ready = [] ∧ s.spare.items.length = 3 ∧ ¬∀ i, s.owned.count i = 1 := by
  have hshort : Short oneByte twoBytes := ⟨⟨[7], by decide⟩, rfl, by decide, by decide⟩
  obtain ⟨s, file, hruns, hlast⟩ : ∃ s file, Runs oneByte (· = twoBytes) (.start fun _ => []) s ∧
      At s file finish none (.next .hash) [] (READ_AHEAD - 1) := by
    refine loses_of_short ?_ hshort _
    rfl
  refine ⟨s, ⟨_, hruns⟩, hlast.worker, Option.map_eq_none_iff.mp hlast.hand,
    hlast.stage, hlast.ready, ?_, hlast.not_owned⟩
  exact (SpareRing.length_items _).trans hlast.spare

end Dicker.Client.ReadAhead
