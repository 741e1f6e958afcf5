import Dicker.Lib.While
import Dicker.Server.TarHeader

/-! `ArchiveStreamer` (server/archive.cxx): the regular files of a directory as a zstd-compressed
tar, in chunks. The files are read while the archive is streamed, so what they give is left open. -/

namespace Dicker.Server
open Lib Program

/-! ## Zstd -/

/-- A `ZSTD_CStream`. A call of `ZSTD_compressStream2` with the output buffer of `next` and
`ZSTD_e_continue`, or `ZSTD_e_end` when `ending`, tells how much of the input it took, what it put
out and its result, or fails. As documented every call makes progress: if it takes nothing it puts
out of what the stream holds. -/
structure CStream where
  State : Type
  create : Option State
  compressStream2 : State → (input : Bytes) → (ending : Bool) → Option (ℕ × Bytes × ℕ) × State
  held : State → ℕ
  taken_le : ∀ {s input ending n out rc s'},
    compressStream2 s input ending = (some (n, out, rc), s') → n ≤ input.length
  continue_progress : ∀ {s input n out rc s'}, compressStream2 s input false =
    (some (n, out, rc), s') → n < input.length → 0 < n ∨ held s' < held s
  end_progress : ∀ {s n out rc s'}, compressStream2 s [] true = (some (n, out, rc), s') →
    rc ≠ 0 → held s' < held s

structure Compressed (z : CStream) where
  out : Bytes
  ok : Bool
  zcs : z.State

section
variable (z : CStream)

def compressContinue (s : z.State) (input out : Bytes) : Compressed z :=
  match _hcall : z.compressStream2 s input false with
  | (none, s') => ⟨out, false, s'⟩
  | (some (n, produced, _), s') =>
    if n = input.length then ⟨out ++ produced, true, s'⟩
    else compressContinue s' (input.drop n) (out ++ produced)
termination_by (input.length, z.held s)
decreasing_by
  rename_i hn
  have hlt : n < input.length := Nat.lt_of_le_of_ne (z.taken_le _hcall) hn
  rw [Prod.lex_def, List.length_drop]
  rcases Nat.eq_zero_or_pos n with rfl | hpos
  · exact .inr ⟨Nat.sub_zero _, (z.continue_progress _hcall hlt).resolve_left (Nat.lt_irrefl 0)⟩
  · exact .inl (by dsimp only; omega)

def compressEnd (s : z.State) (out : Bytes) : Compressed z :=
  match _hcall : z.compressStream2 s [] true with
  | (none, s') => ⟨out, false, s'⟩
  | (some (_, produced, rc), s') =>
    if rc = 0 then ⟨out ++ produced, true, s'⟩ else compressEnd s' (out ++ produced)
termination_by z.held s
decreasing_by
  rename_i hrc
  exact z.end_progress _hcall hrc

end

/-! ## The directory -/

structure ArchiveEntry where
  path : Bytes
  name : Bytes
  size : UInt64
  deriving DecidableEq

structure DirItem where
  path : Bytes
  regular : Bool
  relative : Option Bytes
  fileSize : Option UInt64
  noNul : ∀ rel, relative = some rel → 0 ∉ rel

/-- The entry that `begin` makes of an item. -/
def DirItem.entry (front : Bytes) (item : DirItem) : Option ArchiveEntry :=
  match item.regular, item.relative, item.fileSize with
  | true, some rel, some size =>
    if rel = [] then none else some ⟨item.path, front ++ 0x2F :: rel, size⟩
  | _, _, _ => none

structure TarCursor where
  entries : List ArchiveEntry
  idx : ℕ
  headerPending : Bool
  curRemaining : ℕ
  padRemaining : ℕ
  trailerEmitted : Bool
  inputDone : Bool

structure Staging extends TarCursor where
  raw : Bytes
  rawPos : ℕ

structure ArchiveStreamer (z : CStream) extends Staging where
  finished : Bool
  ok : Bool
  zcs : z.State

/-- `begin`. Two members of one directory never have the same name, so any sort gives this list. -/
def ArchiveStreamer.begin (z : CStream) (isDirectory : Bool) (items : List DirItem)
    (front : Bytes) :
    Option (ArchiveStreamer z) :=
  if isDirectory then
    z.create.map fun zcs =>
      { entries := (items.filterMap (DirItem.entry front)).mergeSort fun a b =>
        decide (a.name ≤ b.name)
        idx :=
          0, headerPending := true, curRemaining := 0, padRemaining := 0, trailerEmitted := false,
        inputDone := false, raw := [], rawPos := 0, finished := false, ok := true, zcs }
  else none

/-! ## Staging tar bytes -/

/-- `cur_.open`, and `cur_.read` of the file that is open. -/
inductive ArchiveOp where
  | openFile (path : Bytes)
  | read (want : ℕ)

def ArchiveOp.Ans : ArchiveOp → Type
  | openFile _ => Bool
  | read want => {got : Bytes // got.length ≤ want}

abbrev ArchiveM := Program ArchiveOp ArchiveOp.Ans

def kRawTarget : ℕ := 262144

/-- `sizeof buf` -/
def kReadSize : ℕ := 65536

def TarCursor.opened (c : TarCursor) (entry : ArchiveEntry) : TarCursor :=
  { c with
    curRemaining := entry.size.toNat
    padRemaining := (512 - entry.size.toNat % 512) % 512
    headerPending := false }

def TarCursor.advance (c : TarCursor) : TarCursor :=
  { c with idx := c.idx + 1, headerPending := true }

def Staging.append (s : Staging) (bytes : Bytes) (c : TarCursor) : Staging :=
  { toTarCursor := c, raw := s.raw ++ bytes, rawPos := s.rawPos }

def Staging.readInto (s : Staging) (want : ℕ) (got : Bytes) : Staging :=
  if got.length < want then
    s.append (got ++ List.replicate (s.curRemaining - got.length) 0) { s.toTarCursor with
      curRemaining := 0 }
  else s.append got { s.toTarCursor with curRemaining := s.curRemaining - got.length }

/-- One pass of the loop of `refill_raw`. -/
def refillPass (s : Staging) : ArchiveM Staging :=
  match s.entries[s.idx]? with
  | none =>
    .ret (s.append (if s.trailerEmitted then [] else Ustar.trailer)
      { s.toTarCursor with trailerEmitted := true, inputDone := true })
  | some entry =>
    if s.headerPending then
      .call (.openFile entry.path) fun
        | false => .ret (s.append [] s.toTarCursor.advance)
        | true => .ret (s.append (emitHeader entry.name entry.size) (s.toTarCursor.opened entry))
    else if 0 < s.curRemaining then
      .call (.read (min s.curRemaining kReadSize)) fun got =>
        .ret (s.readInto (min s.curRemaining kReadSize) got.1)
    else if 0 < s.padRemaining then
      .ret (s.append (List.replicate s.padRemaining 0) { s.toTarCursor with padRemaining := 0 })
    else .ret (s.append [] s.toTarCursor.advance)

def ArchiveEntry.work (entry : ArchiveEntry) : ℕ :=
  entry.size.toNat + (512 - entry.size.toNat % 512) % 512 + 2

def TarCursor.work (c : TarCursor) : ℕ :=
  if c.inputDone then 0
  else if c.headerPending then 1 + ((c.entries.drop c.idx).map ArchiveEntry.work).sum
  else 1 + (c.curRemaining + c.padRemaining + 1 +
    ((c.entries.drop (c.idx + 1)).map ArchiveEntry.work).sum)

def Staging.avail (s : Staging) : Bytes := s.raw.drop s.rawPos

def Staging.wanting (s : Staging) : Bool := decide (s.avail.length < kRawTarget) && !s.inputDone

abbrev ArchiveLog := List (Entry ArchiveOp ArchiveOp.Ans)

inductive Pass (c : TarCursor) : ArchiveLog → Bytes → TarCursor → Prop
  | trailer (hget : c.entries[c.idx]? = none) :
    Pass c [] (if c.trailerEmitted then [] else Ustar.trailer) { c with
      trailerEmitted := true, inputDone := true }
  | skip {entry : ArchiveEntry} (hget : c.entries[c.idx]? = some entry)
      (hpending : c.headerPending = true) :
    Pass c [.did (.openFile entry.path) false] [] c.advance
  | header {entry : ArchiveEntry} (hget : c.entries[c.idx]? = some entry)
      (hpending : c.headerPending = true) :
    Pass c [.did (.openFile entry.path) true] (emitHeader entry.name entry.size) (c.opened entry)
  | data {entry : ArchiveEntry} (hget : c.entries[c.idx]? = some entry)
      (hpending : c.headerPending = false)
    {want : ℕ} {got : Bytes} (hlen : got.length ≤ want) (hne : 0 < got.length)
    (hrest : got.length ≤ c.curRemaining) :
    Pass c [.did (.read want) ⟨got, hlen⟩] got { c with
      curRemaining := c.curRemaining - got.length }
  | shrunk {entry : ArchiveEntry} (hget : c.entries[c.idx]? = some entry)
      (hpending : c.headerPending = false)
    {want : ℕ} {got : Bytes} (hlen : got.length ≤ want) (hpos : 0 < c.curRemaining)
    (hrest : got.length ≤ c.curRemaining) :
    Pass c [.did (.read want) ⟨got, hlen⟩] (got ++ List.replicate (c.curRemaining - got.length) 0)
      { c with curRemaining := 0 }
  | padding {entry : ArchiveEntry} (hget : c.entries[c.idx]? = some entry)
      (hpending : c.headerPending = false)
    (hdata : c.curRemaining = 0) (hpos : 0 < c.padRemaining) :
    Pass c [] (List.replicate c.padRemaining 0) { c with padRemaining := 0 }
  | finish {entry : ArchiveEntry} (hget : c.entries[c.idx]? = some entry)
      (hpending : c.headerPending = false)
    (hdata : c.curRemaining = 0) (hpad : c.padRemaining = 0) : Pass c [] [] c.advance

theorem pass_of_yields {s s' : Staging} {t : ArchiveLog} (h : (refillPass s).Yields s' t) :
    ∃ bytes, Pass s.toTarCursor t bytes s'.toTarCursor ∧ s' = s.append bytes s'.toTarCursor := by
  unfold refillPass at h
  cases hget : s.entries[s.idx]? with
  | none =>
    rw [hget] at h
    obtain ⟨rfl, rfl⟩ := h
    exact ⟨_, .trailer hget, rfl⟩
  | some entry =>
    rw [hget] at h
    dsimp only at h
    split_ifs at h with hpending hdata hpad
    · obtain ⟨opened, t', h, rfl⟩ := h
      cases opened with
      | false =>
        obtain ⟨rfl, rfl⟩ := h
        exact ⟨_, .skip hget hpending, rfl⟩
      | true =>
        obtain ⟨rfl, rfl⟩ := h
        exact ⟨_, .header hget hpending, rfl⟩
    · obtain ⟨⟨got, hlen⟩, t', ⟨rfl, rfl⟩, rfl⟩ := h
      have hrest : got.length ≤ s.curRemaining := hlen.trans (Nat.min_le_left _ _)
      have hread : 0 < kReadSize := by decide
      unfold Staging.readInto
      split_ifs with hshort
      · exact ⟨_, .shrunk hget (Bool.eq_false_iff.mpr hpending) hlen hdata hrest, rfl⟩
      · have hne : 0 < got.length := (lt_min hdata hread).trans_le (Nat.not_lt.mp hshort)
        exact ⟨_, .data hget (Bool.eq_false_iff.mpr hpending) hlen hne hrest, rfl⟩
    · obtain ⟨rfl, rfl⟩ := h
      exact ⟨_, .padding hget (Bool.eq_false_iff.mpr hpending)
        (Nat.eq_zero_of_not_pos hdata) hpad, rfl⟩
    · obtain ⟨rfl, rfl⟩ := h
      exact ⟨_, .finish hget (Bool.eq_false_iff.mpr hpending) (Nat.eq_zero_of_not_pos hdata)
        (Nat.eq_zero_of_not_pos hpad), rfl⟩

def workFrom (entries : List ArchiveEntry) (i : ℕ) : ℕ :=
  ((entries.drop i).map ArchiveEntry.work).sum

theorem workFrom_eq {entries : List ArchiveEntry} {i : ℕ} {entry : ArchiveEntry}
    (hget : entries[i]? = some entry) :
    workFrom entries i = entry.work + workFrom entries (i + 1) := by
  obtain ⟨hi, rfl⟩ := List.getElem?_eq_some_iff.mp hget
  unfold workFrom
  rw [List.drop_eq_getElem_cons hi, List.map_cons, List.sum_cons]

theorem TarCursor.work_pending {c : TarCursor} (hdone : c.inputDone = false)
    (hpending : c.headerPending = true) : c.work = 1 + workFrom c.entries c.idx := by
  rw [work, hdone, hpending]
  rfl

theorem TarCursor.work_inside {c : TarCursor} (hdone : c.inputDone = false)
    (hpending : c.headerPending = false) :
    c.work = 1 + (c.curRemaining + c.padRemaining + 1 + workFrom c.entries (c.idx + 1)) := by
  rw [work, hdone, hpending]
  rfl

theorem TarCursor.work_inside_lt {c : TarCursor} {left pad : ℕ} (hdone : c.inputDone = false)
    (hpending : c.headerPending = false) (hlt : left + pad < c.curRemaining + c.padRemaining) :
    { c with curRemaining := left, padRemaining := pad }.work < c.work := by
  have hafter : { c with curRemaining := left, padRemaining := pad }.work =
    1 + (left + pad + 1 + workFrom c.entries (c.idx + 1)) := work_inside hdone hpending
  rw [hafter, work_inside hdone hpending]
  omega

theorem Pass.falls {c c' : TarCursor} {t : ArchiveLog} {bytes : Bytes} (h : Pass c t bytes c')
    (hdone : c.inputDone = false) : c'.work < c.work := by
  cases h with
  | trailer hget =>
    show 0 < c.work
    cases hpending : c.headerPending with
    | true =>
      rw [TarCursor.work_pending hdone hpending]
      omega
    | false =>
      rw [TarCursor.work_inside hdone hpending]
      omega
  | skip hget hpending =>
    have hafter : c.advance.work = 1 + workFrom c.entries (c.idx + 1) :=
      TarCursor.work_pending hdone rfl
    rw [hafter, TarCursor.work_pending hdone hpending, workFrom_eq hget, ArchiveEntry.work]
    omega
  | @header entry hget hpending =>
    have hafter : (c.opened entry).work =
      1 + (entry.size.toNat + (512 - entry.size.toNat % 512) % 512 + 1 +
      workFrom c.entries (c.idx + 1)) := TarCursor.work_inside hdone rfl
    rw [hafter, TarCursor.work_pending hdone hpending, workFrom_eq hget, ArchiveEntry.work]
    omega
  | data hget hpending hlen hne hrest => exact TarCursor.work_inside_lt hdone hpending (by omega)
  | shrunk hget hpending hlen hpos hrest => exact TarCursor.work_inside_lt hdone hpending (by omega)
  | padding hget hpending hdata hpos => exact TarCursor.work_inside_lt hdone hpending (by omega)
  | finish hget hpending hdata hpad =>
    have hafter : c.advance.work = 1 + workFrom c.entries (c.idx + 1) :=
      TarCursor.work_pending hdone rfl
    rw [hafter, TarCursor.work_inside hdone hpending]
    omega

def refillLoop : While ArchiveOp ArchiveOp.Ans Staging where
  more := Staging.wanting
  body := refillPass
  measure s := s.toTarCursor.work
  falls s hwant s' t hs' := by
    obtain ⟨bytes, hpass, -⟩ := pass_of_yields hs'
    unfold Staging.wanting at hwant
    rw [Bool.and_eq_true, Bool.not_eq_true'] at hwant
    exact hpass.falls hwant.2

def refillRaw (s : Staging) : ArchiveM Staging := refillLoop.loop s

/-! ## The chunks -/

/-- `raw_pos_` moves on by what zstd took; a buffer that is used up is emptied. -/
def Staging.consumed (s : Staging) (n : ℕ) : Staging :=
  if s.rawPos + n = s.raw.length then { s with raw := [], rawPos := 0 }
    else { s with rawPos := s.rawPos + n }

theorem Staging.consumed_cursor (s : Staging) (n : ℕ) :
    (s.consumed n).toTarCursor = s.toTarCursor := by
  unfold consumed
  split_ifs <;> rfl

theorem Staging.consumed_avail (s : Staging) : (s.consumed s.avail.length).avail = [] := by
  unfold consumed
  split_ifs
  · rfl
  · refine List.drop_eq_nil_of_le ?_
    show s.raw.length ≤ s.rawPos + (s.raw.drop s.rawPos).length
    rw [List.length_drop]
    omega

theorem Staging.consumed_rawPos (s : Staging) (h : s.rawPos ≤ s.raw.length) :
    (s.consumed s.avail.length).rawPos ≤ (s.consumed s.avail.length).raw.length := by
  unfold consumed
  split_ifs
  · exact Nat.le_refl 0
  · show s.rawPos + (s.raw.drop s.rawPos).length ≤ s.raw.length
    rw [List.length_drop]
    omega

section
variable (z : CStream)

/-- What `next` does with the bytes that are there. -/
def compressStaged (s : ArchiveStreamer z) (staged : Staging) (out : Bytes) :
    ArchiveStreamer z × Bytes :=
  let ending := staged.inputDone && staged.avail.isEmpty
  let result :=
    if ending then compressEnd z s.zcs out else compressContinue z s.zcs staged.avail out
  if result.ok then
    ({ toStaging := staged.consumed staged.avail.length, finished := ending, ok := true,
       zcs := result.zcs }, result.out)
  else ({ toStaging := staged, finished := s.finished, ok := false, zcs := result.zcs }, result.out)

/-- One pass of the outer loop of `next`. -/
def nextPass (p : ArchiveStreamer z × Bytes) : ArchiveM (ArchiveStreamer z × Bytes) :=
  refillRaw p.1.toStaging >>= fun staged => .ret (compressStaged z p.1 staged p.2)

def ArchiveStreamer.weight {z : CStream} (s : ArchiveStreamer z) : ℕ :=
  2 * s.toTarCursor.work + (if s.avail = [] then 0 else 1) + (if s.finished then 0 else 1) +
    (if s.ok then 1 else 0)

inductive Compresses (s : ArchiveStreamer z) (staged : Staging) (out : Bytes) :
    ArchiveStreamer z × Bytes → Prop
  | failed (zcs : z.State) (out' : Bytes)
    (hfailed : (compressEnd z s.zcs out).ok = false ∨
      (compressContinue z s.zcs staged.avail out).ok = false) :
    Compresses s staged out
      ({ toStaging := staged, finished := s.finished, ok := false, zcs }, out')
  | ended (hdone : staged.inputDone = true) (hnil : staged.avail = [])
      (hok : (compressEnd z s.zcs out).ok = true) :
    Compresses s staged out
      ({ toStaging := staged.consumed staged.avail.length, finished := true, ok := true,
         zcs := (compressEnd z s.zcs out).zcs }, (compressEnd z s.zcs out).out)
  | continued (hleft : staged.inputDone = true → staged.avail ≠ [])
    (hok : (compressContinue z s.zcs staged.avail out).ok = true) :
    Compresses s staged out
      ({ toStaging := staged.consumed staged.avail.length, finished := false, ok := true,
         zcs := (compressContinue z s.zcs staged.avail out).zcs },
           (compressContinue z s.zcs staged.avail out).out)

theorem compressStaged_compresses (s : ArchiveStreamer z) (staged : Staging) (out : Bytes) :
    Compresses z s staged out (compressStaged z s staged out) := by
  unfold compressStaged
  cases hending : staged.inputDone && staged.avail.isEmpty with
  | true =>
    rw [Bool.and_eq_true, List.isEmpty_iff] at hending
    simp only [if_true]
    split_ifs with hok
    · exact .ended hending.1 hending.2 hok
    · exact .failed _ _ (.inl (Bool.eq_false_iff.mpr hok))
  | false =>
    simp only [Bool.false_eq_true, if_false]
    split_ifs with hok
    · refine .continued (fun hdone hnil => ?_) hok
      rw [hdone, hnil] at hending
      exact nomatch hending
    · exact .failed _ _ (.inr (Bool.eq_false_iff.mpr hok))

def unanswered (p : ArchiveStreamer z × Bytes) : Bool := p.2.isEmpty && !p.1.finished && p.1.ok

theorem unanswered_iff (p : ArchiveStreamer z × Bytes) :
    unanswered z p = true ↔ p.2 = [] ∧ p.1.finished = false ∧ p.1.ok = true := by
  unfold unanswered
  rw [Bool.and_eq_true, Bool.and_eq_true, Bool.not_eq_true', List.isEmpty_iff, and_assoc]

theorem nextPass_falls (p : ArchiveStreamer z × Bytes) (hmore : unanswered z p = true)
    (p' : ArchiveStreamer z × Bytes) (t : ArchiveLog) (hp' : (nextPass z p).Yields p' t) :
    p'.1.weight < p.1.weight := by
  obtain ⟨staged, t₁, t₂, hstaged, ⟨rfl, rfl⟩, rfl⟩ := Yields.of_bind hp'
  obtain ⟨-, hfinished, hok⟩ := (unanswered_iff z p).mp hmore
  have hdone : staged.wanting = false := refillLoop.loop_done hstaged
  have hwork : staged = p.1.toStaging ∨ staged.toTarCursor.work < p.1.toTarCursor.work :=
    refillLoop.loop_falls hstaged
  have hcompresses := compressStaged_compresses z p.1 staged p.2
  generalize compressStaged z p.1 staged p.2 = p' at hcompresses
  unfold ArchiveStreamer.weight
  rw [hfinished, hok]
  cases hcompresses with
  | failed zcs out' =>
    simp only [hfinished, Bool.false_eq_true, if_false, if_true]
    rcases hwork with rfl | hlt
    · exact Nat.lt_succ_self _
    · split_ifs <;> omega
  | ended hinput hnil _ =>
    simp only [Bool.false_eq_true, if_false, if_true, Staging.consumed_cursor,
      Staging.consumed_avail]
    rcases hwork with rfl | hlt <;> omega
  | continued hleft _ =>
    simp only [Bool.false_eq_true, if_false, if_true, Staging.consumed_cursor,
      Staging.consumed_avail]
    rcases hwork with rfl | hlt
    · -- nothing was staged, so there was something to compress
      have hne : p.1.avail ≠ [] := by
        intro hnil
        unfold Staging.wanting at hdone
        rw [hnil] at hdone
        cases hinput : p.1.inputDone with
        | true => exact hleft hinput hnil
        | false =>
          rw [hinput] at hdone
          exact nomatch hdone
      rw [if_neg hne]
      omega
    · omega

def nextLoop : While ArchiveOp ArchiveOp.Ans (ArchiveStreamer z × Bytes) where
  more := unanswered z
  body := nextPass z
  measure p := p.1.weight
  falls := nextPass_falls z

structure NextResult where
  more : Bool
  out : Bytes
  streamer : ArchiveStreamer z

def ArchiveStreamer.next (s : ArchiveStreamer z) : ArchiveM (NextResult z) :=
  if !s.ok || s.finished then .ret ⟨false, [], s⟩
  else (nextLoop z).loop (s, []) >>= fun p => .ret ⟨p.1.ok && !p.1.finished, p.2, p.1⟩

theorem next_falls {s : ArchiveStreamer z} {r : NextResult z} {t : ArchiveLog}
    (hr : (s.next z).Yields r t) :
    r.streamer.weight < s.weight ∨ r.more = false ∧ r.streamer = s := by
  unfold ArchiveStreamer.next at hr
  split_ifs at hr with hstop
  · obtain ⟨rfl, rfl⟩ := hr
    exact .inr ⟨rfl, rfl⟩
  · obtain ⟨p, t₁, t₂, hp, ⟨rfl, rfl⟩, rfl⟩ := Yields.of_bind hr
    rw [Bool.or_eq_true, Bool.not_eq_true', not_or, Bool.not_eq_false, Bool.not_eq_true] at hstop
    have hmore : unanswered z (s, []) = true := (unanswered_iff z _).mpr ⟨rfl, hstop.2, hstop.1⟩
    exact .inl ((nextLoop z).loop_falls_of_more hmore hp)

/-- A download: `next` is called until it returns false. -/
structure Download where
  streamer : ArchiveStreamer z
  chunks : List Bytes
  more : Bool

def Download.weight {z : CStream} (d : Download z) : ℕ :=
  d.streamer.weight + if d.more then 1 else 0

def downloadPass (d : Download z) : ArchiveM (Download z) :=
  d.streamer.next z >>= fun r => .ret ⟨r.streamer, d.chunks ++ [r.out], r.more⟩

theorem downloadPass_falls (d : Download z) (hmore : d.more = true) (d' : Download z)
    (t : ArchiveLog) (hd' : (downloadPass z d).Yields d' t) : d'.weight < d.weight := by
  obtain ⟨r, t₁, t₂, hr, ⟨rfl, rfl⟩, rfl⟩ := Yields.of_bind hd'
  unfold Download.weight
  rw [hmore, if_pos rfl]
  rcases next_falls z hr with hlt | ⟨hfalse, hsame⟩
  · dsimp only
    split_ifs <;> omega
  · rw [hfalse, hsame]
    exact Nat.lt_succ_self _

def downloadLoop : While ArchiveOp ArchiveOp.Ans (Download z) where
  more d := d.more
  body := downloadPass z
  measure := Download.weight
  falls := downloadPass_falls z

def download (s : ArchiveStreamer z) : ArchiveM (Download z) := (downloadLoop z).loop ⟨s, [], true⟩

end

end Dicker.Server
