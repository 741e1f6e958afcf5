import Dicker.Client.Worker
import Dicker.Lib.Loop

/-! The thread that reads files for a worker (client/storageReader.h). Its calls are those to
the file and to the two rings of buffers it shares with the worker. -/

namespace Dicker.Client.StorageReader
open Lib Program

/-- The fields of a request that `submit` sets. -/
structure ReadRequest where
  type : UnitType
  pathname : Pathname
  offset : UInt64
  length : UInt64

def submit (type : UnitType) (path : Bytes) (offset length : UInt64) : ReadRequest :=
  ⟨type, Pathname.copy path, offset, length⟩

inductive Op where
  | acquireDisk
  | openFile (path : Bytes)
  | popSpare
  | pread (len : ℕ) (off : UInt64)
  | pushSpare
  | pushReady (block : Bytes)
  | closeFile
  | releaseDisk
  | pushEof

/-- A ring that is closed answers `false`. A read brings no more than was asked for, and nothing
at the end of the file and on an error. -/
abbrev Op.Ans : Op → Type
  | openFile _ | popSpare | pushSpare | pushReady _ | pushEof => Bool
  | pread len _ => { bytes : Bytes // bytes.length ≤ len }
  | acquireDisk | closeFile | releaseDisk => Unit

abbrev Reader := Program Op Op.Ans

abbrev Log := List (Entry Op Op.Ans)

theorem rest_lt {len : ℕ} (hlen : len ≠ 0) {got : Bytes} (hgot : got ≠ []) :
    len - got.length < len := by
  have hpos := List.length_pos_iff.mpr hgot
  omega

/-- `ReadFileHandle::readAt`, until the buffer is full or a read brings nothing. -/
def readAt (len : ℕ) (off : UInt64) : Reader { bytes : Bytes // bytes.length ≤ len } :=
  if _hlen : len = 0 then .ret ⟨[], Nat.zero_le _⟩
  else
    call (.pread len off) fun got =>
      if _hgot : got.1 = [] then .ret ⟨[], Nat.zero_le _⟩
      else do
        let rest ← readAt (len - got.1.length) (off + UInt64.ofNat got.1.length)
        return ⟨got.1 ++ rest.1, by
          have hgot := got.2
          have hrest := rest.2
          rw [List.length_append]
          omega⟩
termination_by len
decreasing_by exact rest_lt _hlen _hgot

/-- The loop of `process`. -/
def readBlocks (off : UInt64) (remaining : ℕ) : Reader Unit :=
  if _hremaining : remaining = 0 then .ret ()
  else
    call .popSpare fun popped =>
      if popped then
        readAt (min remaining READ_BLOCK) off >>= fun got =>
          if _hgot : got.1 = [] then call .pushSpare fun _ => .ret ()
          else
            call (.pushReady got.1) fun pushed =>
              if pushed then readBlocks (off + UInt64.ofNat got.1.length) (remaining - got.1.length)
              else .ret ()
      else .ret ()
termination_by remaining
decreasing_by exact rest_lt _hremaining _hgot

def process (req : ReadRequest) : Reader Unit := do
  perform Op.acquireDisk
  let opened ← perform (Op.openFile req.pathname.bytes)
  if opened then
    readBlocks req.offset req.length.toNat
  perform Op.closeFile
  perform Op.releaseDisk
  let _ ← perform Op.pushEof

/-! ## What a log shows -/

def pushedBlock : Entry Op Op.Ans → Option Bytes
  | .did (.pushReady block) true => some block
  | _ => none

def pushed (t : Log) : List Bytes := t.filterMap pushedBlock

def preadBytes : Entry Op Op.Ans → Option (UInt64 × Bytes)
  | .did (.pread _ off) got => some (off, got.1)
  | _ => none

def preads (t : Log) : List (UInt64 × Bytes) := t.filterMap preadBytes

def openedPath : Entry Op Op.Ans → Option (Bytes × Bool)
  | .did (.openFile path) opened => some (path, opened)
  | _ => none

def opens (t : Log) : List (Bytes × Bool) := t.filterMap openedPath

inductive InOrder : UInt64 → List (UInt64 × Bytes) → Prop where
  | nil (off : UInt64) : InOrder off []
  | cons {off : UInt64} {got : Bytes} {reads : List (UInt64 × Bytes)}
      (h : InOrder (off + UInt64.ofNat got.length) reads) : InOrder off ((off, got) :: reads)

def bytesRead (reads : List (UInt64 × Bytes)) : Bytes := reads.flatMap Prod.snd

inductive Fault : Log → Prop where
  | noSpare (t : Log) : Fault (.did .popSpare false :: t)
  | nothing {len : ℕ} {off : UInt64} {got : (Op.pread len off).Ans} (hgot : got.1 = []) (t : Log) :
      Fault (.did .popSpare true :: .did (.pread len off) got :: t)
  | closed (block : Bytes) (t : Log) : Fault (.did (.pushReady block) false :: t)
  | later (e : Entry Op Op.Ans) {t : Log} (h : Fault t) : Fault (e :: t)

def OnlyReads (t : Log) : Prop := ∀ e ∈ t, ∃ len off got, e = .did (.pread len off) got

variable {t : Log} {off : UInt64} {remaining : ℕ}

theorem OnlyReads.pushed (h : OnlyReads t) (u : Log) :
    pushed (t ++ u) = StorageReader.pushed u := by
  induction t with
  | nil => rfl
  | cons e t ih =>
    obtain ⟨len, off, got, rfl⟩ := h e List.mem_cons_self
    exact ih fun e he => h e (List.mem_cons_of_mem _ he)

theorem OnlyReads.opens (h : OnlyReads t) (u : Log) : opens (t ++ u) = StorageReader.opens u := by
  induction t with
  | nil => rfl
  | cons e t ih =>
    obtain ⟨len, off, got, rfl⟩ := h e List.mem_cons_self
    exact ih fun e he => h e (List.mem_cons_of_mem _ he)

theorem OnlyReads.fault (h : OnlyReads t) (u : Log) : Fault (t ++ u) ↔ Fault u := by
  induction t with
  | nil => rfl
  | cons e t ih =>
    obtain ⟨len, off, got, rfl⟩ := h e List.mem_cons_self
    rw [← ih fun e he => h e (List.mem_cons_of_mem _ he)]
    constructor
    · rintro (_ | _ | _ | ⟨_, h⟩)
      exact h
    · exact Fault.later _

theorem preads_append (t u : Log) : preads (t ++ u) = preads t ++ preads u := List.filterMap_append

theorem fault_append {u : Log} (hquiet : ¬Fault u)
    (hhead : ∀ len off got, u.head? ≠ some (.did (.pread len off) got)) :
    Fault (t ++ u) ↔ Fault t := by
  constructor
  · induction t with
    | nil => exact fun h => absurd h hquiet
    | cons e t ih =>
      intro h
      generalize htu : e :: t ++ u = l at h
      cases h with
      | noSpare =>
        cases htu
        exact .noSpare t
      | @nothing len off got hgot =>
        obtain ⟨rfl, htail⟩ := List.cons_eq_cons.mp htu
        cases t with
        | nil => exact absurd (congrArg List.head? htail) (hhead len off got)
        | cons e t =>
          obtain ⟨rfl, -⟩ := List.cons_eq_cons.mp htail
          exact .nothing hgot t
      | closed =>
        cases htu
        exact .closed _ t
      | later e h =>
        cases htu
        exact .later _ (ih h)
  · intro h
    induction h with
    | noSpare t => exact .noSpare _
    | nothing hgot t => exact .nothing hgot _
    | closed block t => exact .closed block _
    | later e _ ih => exact .later e ih

theorem InOrder.append {reads reads' : List (UInt64 × Bytes)} (h : InOrder off reads)
    (h' : InOrder (off + UInt64.ofNat (bytesRead reads).length) reads') :
    InOrder off (reads ++ reads') := by
  induction h with
  | nil off => exact (UInt64.add_zero off) ▸ h'
  | @cons off got reads _ ih =>
    refine .cons (ih ?_)
    rwa [bytesRead, List.flatMap_cons, List.length_append, UInt64.ofNat_add,
      ← UInt64.add_assoc] at h'

/-! ## A run of the reader -/

theorem readAt_wp (len : ℕ) (off : UInt64) :
    (readAt len off).wp fun got t => OnlyReads t ∧ InOrder off (preads t) ∧
      bytesRead (preads t) = got.1 ∧
      (0 < len → ∃ first u, t = .did (.pread len off) first :: u ∧
        (got.1 = [] ↔ first.1 = [])) := by
  induction len using Nat.strong_induction_on generalizing off with
  | _ len ih =>
    unfold readAt
    split_ifs with hlen
    · exact ⟨fun e he => absurd he List.not_mem_nil, .nil off, rfl, fun h => absurd h (by omega)⟩
    · intro first
      beta_reduce
      split_ifs with hfirst
      · refine ⟨fun e he => ⟨len, off, first, List.mem_singleton.mp he⟩,
          .cons (.nil _), ?_, fun _ => ?_⟩
        · change first.1 ++ [] = []
          rw [hfirst, List.nil_append]
        · exact ⟨first, [], rfl, ⟨fun _ => hfirst, fun _ => rfl⟩⟩
      · refine wp_bind (wp_mono (ih _ (rest_lt hlen hfirst) _) ?_)
        rintro rest t ⟨honly, horder, hbytes, -⟩
        refine ⟨fun e he => ?_, ?_, ?_, fun _ => ⟨first, t ++ [], rfl, ?_⟩⟩
        · rw [List.append_nil] at he
          rcases List.mem_cons.mp he with rfl | he
          · exact ⟨len, off, first, rfl⟩
          · exact honly e he
        · rw [List.append_nil]
          exact .cons horder
        · rw [List.append_nil]
          change first.1 ++ bytesRead (preads t) = first.1 ++ rest.1
          rw [hbytes]
        · exact ⟨fun h => (List.append_eq_nil_iff.mp h).1, fun h => absurd h hfirst⟩

structure Reads (failed : Prop) (off : UInt64) (remaining : ℕ) (t : Log) : Prop where
  bounded : ∀ b ∈ pushed t, b ≠ [] ∧ b.length ≤ READ_BLOCK
  in_order : InOrder off (preads t)
  within : (bytesRead (preads t)).length ≤ remaining
  pushed_le : (pushed t).flatten.length ≤ (bytesRead (preads t)).length
  whole_iff : (pushed t).flatten.length = remaining ↔ ¬failed
  pushed_eq : ¬failed → (pushed t).flatten = bytesRead (preads t)
  opens_nil : opens t = []

theorem Reads.of_fault (hremaining : remaining ≠ 0) (hfault : Fault t) (hpushed : pushed t = [])
    (hopens : opens t = []) (horder : InOrder off (preads t))
    (hwithin : (bytesRead (preads t)).length ≤ remaining) : Reads (Fault t) off remaining t where
  bounded := by
    rw [hpushed]
    exact fun b hb => absurd hb List.not_mem_nil
  in_order := horder
  within := hwithin
  pushed_le := by
    rw [hpushed]
    exact Nat.zero_le _
  whole_iff := by
    rw [hpushed]
    exact ⟨fun h => absurd h.symm hremaining, fun h => absurd hfault h⟩
  pushed_eq h := absurd hfault h
  opens_nil := hopens

theorem Reads.round {len : ℕ} {got : Bytes} (hgot : got ≠ [])
    (hlen : got.length ≤ min remaining READ_BLOCK) {first : (Op.pread len off).Ans}
    (hfirst : first.1 ≠ []) {reads : Log} (honly : OnlyReads (.did (.pread len off) first :: reads))
    (horder : InOrder off (preads (.did (.pread len off) first :: reads)))
    (hbytes : bytesRead (preads (.did (.pread len off) first :: reads)) = got)
    (h : Reads (Fault t) (off + UInt64.ofNat got.length) (remaining - got.length) t) :
    Reads
      (Fault (.did .popSpare true :: (.did (.pread len off) first :: reads ++
        .did (.pushReady got) true :: t)))
      off remaining
      (.did .popSpare true :: (.did (.pread len off) first :: reads ++
        .did (.pushReady got) true :: t)) := by
  generalize hr : (.did (.pread len off) first :: reads : Log) = r at honly horder hbytes ⊢
  have hpushed : pushed (.did .popSpare true :: (r ++ .did (.pushReady got) true :: t)) =
      got :: pushed t :=
    honly.pushed _
  have hpreads : preads (.did .popSpare true :: (r ++ .did (.pushReady got) true :: t)) =
      preads r ++ preads t :=
    preads_append r _
  have hall : bytesRead (preads r ++ preads t) = got ++ bytesRead (preads t) := by
    rw [← hbytes]
    exact List.flatMap_append
  have hfault : Fault (.did .popSpare true :: (r ++ .did (.pushReady got) true :: t)) ↔
      Fault t := by
    have hpush : Fault (.did (.pushReady got) true :: t) ↔ Fault t :=
      ⟨fun h => by cases h with | later _ h => exact h, Fault.later _⟩
    rw [← hpush, ← honly.fault (.did (.pushReady got) true :: t)]
    refine ⟨fun h => ?_, Fault.later _⟩
    rw [← hr] at h ⊢
    cases h with
    | nothing hnil => exact absurd hnil hfirst
    | later _ h => exact h
  have hwithin := h.within
  have hle := h.pushed_le
  constructor
  · rw [hpushed]
    intro b hb
    rcases List.mem_cons.mp hb with rfl | hb
    · exact ⟨hgot, hlen.trans (Nat.min_le_right _ _)⟩
    · exact h.bounded b hb
  · rw [hpreads]
    exact horder.append (hbytes ▸ h.in_order)
  · rw [hpreads, hall, List.length_append]
    omega
  · rw [hpreads, hpushed, hall, List.flatten_cons, List.length_append, List.length_append]
    omega
  · rw [hfault, ← h.whole_iff, hpushed, List.flatten_cons, List.length_append]
    omega
  · intro hno
    rw [hpreads, hpushed, hall, List.flatten_cons, h.pushed_eq fun hf => hno (hfault.mpr hf)]
  · exact (honly.opens _).trans h.opens_nil

theorem Reads.of_last (hremaining : remaining ≠ 0) {reads : Log} {e : Entry Op Op.Ans}
    (honly : OnlyReads reads) (horder : InOrder off (preads reads))
    (hwithin : (bytesRead (preads reads)).length ≤ remaining) (hpushed : pushed [e] = [])
    (hopens : opens [e] = []) (hpreads : preads [e] = [])
    (hfault : Fault (.did .popSpare true :: (reads ++ [e]))) :
    Reads (Fault (.did .popSpare true :: (reads ++ [e]))) off remaining
      (.did .popSpare true :: (reads ++ [e])) := by
  have hsame : preads (.did .popSpare true :: (reads ++ [e])) = preads reads := by
    change preads (reads ++ [e]) = preads reads
    rw [preads_append, hpreads, List.append_nil]
  refine Reads.of_fault hremaining hfault ((honly.pushed [e]).trans hpushed)
    ((honly.opens [e]).trans hopens) ?_ ?_
  · rw [hsame]
    exact horder
  · rw [hsame]
    exact hwithin

theorem readBlocks_wp (off : UInt64) (remaining : ℕ) :
    (readBlocks off remaining).wp fun _ t => Reads (Fault t) off remaining t := by
  induction remaining using Nat.strong_induction_on generalizing off with
  | _ remaining ih =>
    unfold readBlocks
    split_ifs with hremaining
    · subst hremaining
      exact ⟨fun b hb => absurd hb List.not_mem_nil, .nil off, le_rfl, le_rfl,
        ⟨fun _ h => (nomatch h), fun _ => rfl⟩, fun _ => rfl, rfl⟩
    · rintro (_ | _)
      · exact Reads.of_fault hremaining (.noSpare []) rfl rfl (.nil off) (Nat.zero_le _)
      · have hblock : 0 < min remaining READ_BLOCK :=
          lt_min (Nat.pos_of_ne_zero hremaining) (by decide)
        refine wp_bind (wp_mono (readAt_wp _ off) ?_)
        rintro got t ⟨honly, horder, hbytes, hread⟩
        obtain ⟨first, u, rfl, hfirst⟩ := hread hblock
        have hwithin := got.2.trans (Nat.min_le_left remaining READ_BLOCK)
        rw [← hbytes] at hwithin
        split_ifs with hgot
        · intro b
          exact Reads.of_last hremaining honly horder hwithin rfl rfl rfl
            (.nothing (hfirst.mp hgot) _)
        · rintro (_ | _)
          · exact Reads.of_last hremaining honly horder hwithin rfl rfl rfl
              (.later _ ((honly.fault _).mpr (.closed _ _)))
          · refine wp_mono (ih _ (rest_lt hremaining hgot) _) fun _ t ht => ?_
            exact Reads.round hgot got.2 (fun h => hgot (hfirst.mpr h)) honly horder hbytes ht

def closing (eof : Bool) : Log := [.did .closeFile (), .did .releaseDisk (), .did .pushEof eof]

theorem closing_quiet (eof : Bool) : ¬Fault (closing eof) := by
  rintro (_ | _ | _ | ⟨_, _ | _ | _ | ⟨_, _ | _ | _ | ⟨_, h⟩⟩⟩)
  cases h

def Failed (req : ReadRequest) (t : Log) : Prop :=
  0 < req.length.toNat ∧ (req.pathname.bytes, false) ∈ opens t ∨ Fault t

structure Processed (req : ReadRequest) (t : Log) : Prop where
  opens_eq : ∃ opened, opens t = [(req.pathname.bytes, opened)]
  bounded : ∀ b ∈ pushed t, b ≠ [] ∧ b.length ≤ READ_BLOCK
  in_order : InOrder req.offset (preads t)
  pushed_le : (pushed t).flatten.length ≤ req.length.toNat
  whole_iff : (pushed t).flatten.length = req.length.toNat ↔ ¬Failed req t
  pushed_eq : ¬Failed req t → (pushed t).flatten = bytesRead (preads t)

theorem Reads.processed {req : ReadRequest} {failed : Prop}
    (h : Reads failed req.offset req.length.toNat t) {opened : Bool}
    (hfailed : failed ↔ 0 < req.length.toNat ∧ opened = false ∨ Fault t) (eof : Bool) :
    Processed req (.did .acquireDisk () :: .did (.openFile req.pathname.bytes)
      opened :: (t ++ closing eof)) := by
  have hpushed : pushed (t ++ closing eof) = pushed t := by
    unfold pushed
    rw [List.filterMap_append]
    exact List.append_nil _
  have hpreads : preads (t ++ closing eof) = preads t := by
    rw [preads_append]
    exact List.append_nil _
  have hopens : opens (t ++ closing eof) = [] := by
    unfold opens
    rw [List.filterMap_append]
    exact (List.append_nil _).trans h.opens_nil
  have hlog : Failed req (.did .acquireDisk () :: .did (.openFile req.pathname.bytes)
      opened :: (t ++ closing eof)) ↔
      failed := by
    rw [hfailed]
    refine or_congr (and_congr_right fun _ => ?_) ?_
    · change (req.pathname.bytes, false) ∈ (req.pathname.bytes, opened) :: opens
        (t ++ closing eof) ↔ _
      rw [hopens, List.mem_singleton]
      exact ⟨fun h => (congrArg Prod.snd h).symm, fun h => h ▸ rfl⟩
    · have hloop := fault_append (t := t) (closing_quiet eof) fun _ _ _ => nofun
      rw [← hloop]
      constructor
      · rintro (_ | _ | _ | ⟨_, _ | _ | _ | ⟨_, h⟩⟩)
        exact h
      · exact fun h => .later _ (.later _ h)
  constructor
  · exact ⟨opened, congrArg (_ :: ·) hopens⟩
  · exact hpushed.symm ▸ h.bounded
  · exact hpreads.symm ▸ h.in_order
  · exact hpushed.symm ▸ h.pushed_le.trans h.within
  · rw [hlog]
    exact hpushed.symm ▸ h.whole_iff
  · intro hno
    rw [hlog] at hno
    change (pushed (t ++ closing eof)).flatten = bytesRead (preads (t ++ closing eof))
    rw [hpushed, hpreads]
    exact h.pushed_eq hno

theorem process_wp (req : ReadRequest) : (process req).wp fun _ t => Processed req t := by
  rintro - (_ | _)
  · intro _ _ eof
    have hnone : Reads (0 < req.length.toNat) req.offset req.length.toNat [] := by
      refine ⟨fun b hb => absurd hb List.not_mem_nil, .nil _, Nat.zero_le _, le_rfl, ?_,
        fun _ => rfl, rfl⟩
      rw [Nat.pos_iff_ne_zero, not_not]
      exact eq_comm
    refine hnone.processed ?_ eof
    exact ⟨fun h => .inl ⟨h, rfl⟩, fun h => h.elim And.left fun h => nomatch h⟩
  · change (readBlocks req.offset req.length.toNat >>= fun _ => _).wp _
    refine wp_bind (wp_mono (readBlocks_wp _ _) fun _ reads hreads => ?_)
    intro _ _ eof
    have hfailed : Fault reads ↔ 0 < req.length.toNat ∧ true = false ∨ Fault reads :=
      ⟨.inr, fun h => h.resolve_left fun h => Bool.noConfusion h.2⟩
    exact hreads.processed hfailed eof

end Dicker.Client.StorageReader
