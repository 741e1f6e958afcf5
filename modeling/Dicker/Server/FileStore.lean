import Dicker.Lib.FileImage
import Dicker.Lib.Pool
import Dicker.Server.Intake

/-! One stored file and its writers (server/file_sink.cxx). The queries of a consumer are
carried out with calls of `uv_fs_open` and `uv_fs_write`; those of several connections take
turns. A write may be cut short anywhere. -/

namespace Dicker.Server
open Lib Program

/-- `openSequential` creates and truncates. `openOffset` stands for `acquire_chunk_file`, which
creates a file that is not there; a descriptor it still has makes no difference. A write answers
how many bytes it took, or an error. -/
inductive FsOp where
  | openSequential
  | openOffset
  | write (data : Bytes) (offset : ℤ)

abbrev FsOp.Ans : FsOp → Type
  | openSequential | openOffset => Bool
  | write _ _ => ℤ

/-- The file, if it exists, and the position of the descriptor for its chunks, which only a
negative offset makes use of. -/
structure Stored where
  contents : Option Bytes
  cursor : ℕ
  deriving DecidableEq

def fileStore : Store FsOp FsOp.Ans Stored where
  allowed
    | .write data _, result => result ≤ data.length
    | _, _ => True
  effect
    | .openSequential, ok, s => if ok then { s with contents := some [] } else s
    | .openOffset, ok, s => if ok then { s with contents := some (s.contents.getD []) } else s
    | .write data offset, result, s =>
      if result ≤ 0 then s
      else if offset < 0 then
        { contents := some (pwrite (s.contents.getD []) s.cursor (data.take result.toNat))
          cursor := s.cursor + result.toNat }
      else { s with
        contents := some (pwrite (s.contents.getD []) offset.toNat (data.take result.toNat)) }

abbrev FsM := Program FsOp FsOp.Ans

def kMaxSingleWrite : ℕ := 1 <<< 30

def int64 (offset : ℤ) : ℤ := offset.bmod (2 ^ 64)

theorem int64_natCast {offset : ℕ} (h : offset < 2 ^ 63) : int64 offset = offset := by
  unfold int64
  apply Int.bmod_eq_of_le <;> omega

/-- The loop of `write_fd_all`, after so many bytes. -/
def writeFdAll (data : Bytes) (offset : ℤ) (written : ℕ) : FsM Bool :=
  if written < data.length then
    call (.write ((data.drop written).take kMaxSingleWrite)
      (if offset < 0 then -1 else int64 (offset + written)))
      fun result => if result ≤ 0 then ret false
        else writeFdAll data offset (written + result.toNat)
  else ret true
termination_by data.length - written
decreasing_by
  rename_i hlt hpos
  have hresult : 0 < Int.toNat result := Int.pos_iff_toNat_pos.mp (Int.not_le.mp hpos)
  omega

/-- The offset of a `SequentialWriter`, or the descriptor of an `OffsetWriter`, is what a
connection keeps between the queries of a unit. -/
def serve (position : ℤ) : Query → FsM (Bool × ℤ)
  | .filter _ => return (true, position)
  | .openSequential _ => do
    let ok ← perform .openSequential
    return (ok, 0)
  | .openOffset _ => do
    let ok ← perform .openOffset
    return (ok, position)
  | .write data => do
    let ok ← writeFdAll data position 0
    return (ok, if ok then position + data.length else position)
  | .writeAt offset data => do
    let ok ← writeFdAll data offset.toBitVec.toInt 0
    return (ok, position)

def serveAll (position : ℤ) : List Query → FsM Bool
  | [] => return true
  | query :: queries => do
    let (ok, position) ← serve position query
    if ok then serveAll position queries else return false

section
variable (position : ℤ) (path data : Bytes) (offset : UInt64) (queries : List Query)

theorem serveAll_openSequential : serveAll position (.openSequential path :: queries) =
    call .openSequential fun ok => if ok then serveAll 0 queries else ret false := rfl

theorem serveAll_openOffset : serveAll position (.openOffset path :: queries) =
    call .openOffset fun ok => if ok then serveAll position queries else ret false := rfl

theorem serveAll_write : serveAll position (.write data :: queries) =
    writeFdAll data position 0 >>= fun ok =>
      if ok then serveAll (position + data.length) queries else ret false := by
  rw [serveAll, serve, bind_bind]
  congr 1
  funext ok
  cases ok <;> rfl

theorem serveAll_writeAt : serveAll position (.writeAt offset data :: queries) =
    writeFdAll data offset.toBitVec.toInt 0 >>= fun ok =>
      if ok then serveAll position queries else ret false := by
  rw [serveAll, serve, bind_bind]
  rfl

end

/-! ## Writes that paint an image -/

abbrev FsEntry := Entry FsOp FsOp.Ans

def Paints (image : Bytes) : FsEntry → Prop
  | .did .openOffset _ => True
  | .did (.write data offset) result =>
    0 < result → 0 ≤ offset ∧ Agrees image offset.toNat (data.take result.toNat)
  | _ => False

def Touches (p : ℕ) : FsEntry → Prop
  | .did (.write data offset) result => 0 < result ∧ Hits offset.toNat (data.take result.toNat) p
  | _ => False

def Covers (image : Bytes) (cover : ℕ → Prop) (ok : Bool) (t : List FsEntry) : Prop :=
  (∀ e ∈ t, fileStore.permits e) →
    (∀ e ∈ t, Paints image e) ∧ (ok = true → ∀ p, cover p → ∃ e ∈ t, Touches p e)

section
variable {image : Bytes} {cover cover' : ℕ → Prop} {t t' : List FsEntry} {ok : Bool}

theorem Covers.trans (h : Covers image cover true t) (h' : Covers image cover' ok t') :
    Covers image (fun p => cover p ∨ cover' p) ok (t ++ t') := by
  intro hpermits
  obtain ⟨hpaints, hcovers⟩ := h fun e he => hpermits e (List.mem_append_left _ he)
  obtain ⟨hpaints', hcovers'⟩ := h' fun e he => hpermits e (List.mem_append_right _ he)
  refine ⟨fun e he => (List.mem_append.mp he).elim (hpaints e) (hpaints' e), fun hok p hp => ?_⟩
  rcases hp with hp | hp
  · obtain ⟨e, he, htouches⟩ := hcovers rfl p hp
    exact ⟨e, List.mem_append_left _ he, htouches⟩
  · obtain ⟨e, he, htouches⟩ := hcovers' hok p hp
    exact ⟨e, List.mem_append_right _ he, htouches⟩

theorem Covers.failed (h : Covers image cover false t) : Covers image cover' false t :=
  fun hpermits => ⟨(h hpermits).1, nofun⟩

theorem Covers.mono (h : Covers image cover ok t) (hcover : ∀ p, cover' p → cover p) :
    Covers image cover' ok t :=
  fun hpermits => ⟨(h hpermits).1, fun hok p hp => (h hpermits).2 hok p (hcover p hp)⟩

theorem covers_nil (image : Bytes) (ok : Bool) : Covers image (fun _ => False) ok [] :=
  fun _ => ⟨fun _ he => absurd he List.not_mem_nil, fun _ _ => False.elim⟩

theorem agrees_part {offset : ℕ} {data : Bytes} (h : Agrees image offset data) (n k : ℕ) :
    Agrees image (offset + n) ((data.drop n).take k) := by
  rintro p ⟨hlow, hhigh⟩
  rw [List.length_take, List.length_drop] at hhigh
  have hp : Hits offset data p := ⟨by omega, by omega⟩
  rw [← h p hp, List.getElem?_take_of_lt (by omega), List.getElem?_drop]
  congr 1
  omega

theorem covers_refused (data : Bytes) (offset : ℤ) {result : ℤ} (hresult : result ≤ 0) :
    Covers image cover false [.did (.write data offset) result] := by
  refine fun _ => ⟨fun e he => ?_, nofun⟩
  rw [List.mem_singleton.mp he]
  exact fun hpos => absurd hresult (Int.not_le.mpr hpos)

theorem covers_write {data : Bytes} {offset : ℕ} (himage : Agrees image offset data) {result : ℤ}
    (hresult : 0 < result) :
    Covers image (Hits offset (data.take result.toNat)) true
      [.did (.write data offset) result] := by
  have hpart : Agrees image offset (data.take result.toNat) := agrees_part himage 0 _
  refine fun _ => ⟨fun e he => ?_, fun _ p hp => ⟨_, List.mem_singleton_self _, hresult, hp⟩⟩
  rw [List.mem_singleton.mp he]
  exact fun _ => ⟨Int.natCast_nonneg offset, hpart⟩

theorem writeFdAll_covers (hsize : image.length < 2 ^ 63) {data : Bytes} {offset : ℕ}
    (himage : Agrees image offset data) (written : ℕ) :
    (writeFdAll data offset written).wp
    (Covers image fun p => offset + written ≤ p ∧ p < offset + data.length) := by
  induction hn : data.length - written using Nat.strong_induction_on generalizing written with
  | _ n ih =>
    unfold writeFdAll
    by_cases hlt : written < data.length
    · have hinside : offset + written < image.length := himage.bounded ⟨by omega, by omega⟩
      rw [if_pos hlt, if_neg (Int.not_lt.mpr (Int.natCast_nonneg offset)), ← Nat.cast_add,
        int64_natCast (hinside.trans hsize)]
      intro (result : ℤ)
      beta_reduce
      by_cases hresult : result ≤ 0
      · rw [if_pos hresult]
        exact covers_refused _ _ hresult
      · rw [if_neg hresult]
        have hpos : 0 < result.toNat := Int.pos_iff_toNat_pos.mp (Int.not_le.mp hresult)
        refine wp_mono (ih _ (by omega) (written + result.toNat) rfl) fun ok t h => ?_
        by_cases hshort : result ≤ ((data.drop written).take kMaxSingleWrite).length
        · have hwrite :=
            covers_write (agrees_part himage written kMaxSingleWrite) (Int.not_le.mp hresult)
          refine (hwrite.trans h).mono fun p hp => ?_
          by_cases hhit : p < offset + written + result.toNat
          · refine .inl ⟨hp.1, ?_⟩
            rw [List.length_take]
            omega
          · exact .inr ⟨by omega, hp.2⟩
        · exact fun hpermits => absurd (hpermits _ List.mem_cons_self) hshort
    · rw [if_neg hlt]
      exact (covers_nil image true).mono fun p hp => by omega

theorem toInt_offset (offset : UInt64) {n : ℕ} (h : offset.toNat + n < 2 ^ 63) :
    (offset + UInt64.ofNat n).toBitVec.toInt = ((offset.toNat + n : ℕ) : ℤ) := by
  have hnat : (offset + UInt64.ofNat n).toNat = offset.toNat + n := by
    rw [UInt64.toNat_add, UInt64.toNat_ofNat']
    omega
  rw [BitVec.toInt_eq_toNat_of_lt (by rw [UInt64.toNat_toBitVec, hnat]; omega),
    UInt64.toNat_toBitVec, hnat]

end

/-! ## Units -/

def storeQueries (u : AcceptedUnit) : ℕ → List Bytes → List Query
  | _, [] => []
  | n, piece :: pieces => storeQuery u n piece :: storeQueries u (n + piece.length) pieces

def unitQueries (u : AcceptedUnit) (pieces : List Bytes) : List Query :=
  openQuery u :: storeQueries u 0 pieces

def queries : Log → List Query
  | [] => []
  | .did (.query q) _ :: t => q :: queries t
  | _ :: t => queries t

theorem queries_append (t t' : Log) : queries (t ++ t') = queries t ++ queries t' := by
  induction t with
  | nil => rfl
  | cons e t ih =>
    cases e with
    | got z => exact ih
    | did op a =>
      cases op with
      | query q => exact congrArg (q :: ·) ih
      | event e => exact ih

theorem queries_wrote (u : AcceptedUnit) (n : ℕ) (pieces : List Bytes) :
    queries (wrote u n pieces) = storeQueries u n pieces := by
  induction pieces generalizing n with
  | nil => rfl
  | cons piece pieces ih => exact congrArg (storeQuery u n piece :: ·) (ih _)

theorem queries_calls (t : Log) : queries (calls t) = queries t := by
  induction t with
  | nil => rfl
  | cons e t ih =>
    cases e with
    | got z => exact ih
    | did op a =>
      cases op with
      | query q => exact congrArg (q :: ·) ih
      | event e => exact ih

theorem queries_log (xxh64 : Bytes → UInt64) (integrity : Bool) (u : Upload) :
    queries (u.log xxh64 integrity) = unitQueries u.unit u.pieces := by
  have hend : queries (closing u.unit ++ [.did (.event (u.finished xxh64 integrity)) ()]) = [] := by
    unfold closing
    split_ifs <;> rfl
  rw [Upload.log, queries_append, queries_append, queries_wrote, hend, List.append_nil]
  rfl

section
variable {image : Bytes} {cover : ℕ → Prop} {u : AcceptedUnit} {rest : List Query}

variable {pieces : List Bytes} {t : List FsEntry}

theorem serveAll_pieces (hu : u.type = .chunk) (hsize : image.length < 2 ^ 63) {n : ℕ}
    (hbound : u.offset.toNat + n + pieces.flatten.length ≤ image.length)
    (himage : Agrees image (u.offset.toNat + n) pieces.flatten)
    (hrest : ∀ position, (serveAll position rest).wp (Covers image cover)) (position : ℤ) :
    (serveAll position (storeQueries u n pieces ++ rest)).wp (Covers image fun p =>
      Hits (u.offset.toNat + n) pieces.flatten p ∨ cover p) := by
  induction pieces generalizing n position with
  | nil =>
    refine wp_mono (hrest position) fun ok t h => h.mono fun p hp => hp.resolve_left fun hit => ?_
    exact absurd hit.2 (Nat.not_lt.mpr hit.1)
  | cons piece pieces ih =>
    rw [List.flatten_cons, List.length_append] at hbound
    rw [List.flatten_cons] at himage
    have hfirst : Agrees image (u.offset.toNat + n) piece := by
      have hpart := agrees_part himage 0 piece.length
      rwa [Nat.add_zero, List.drop_zero, List.take_left] at hpart
    have hmore : Agrees image (u.offset.toNat + (n + piece.length)) pieces.flatten := by
      have hpart := agrees_part himage piece.length pieces.flatten.length
      rwa [List.drop_left, List.take_length, Nat.add_assoc] at hpart
    have hstore : storeQuery u n piece = .writeAt (u.offset + UInt64.ofNat n) piece := if_pos hu
    have hoffset := toInt_offset u.offset (n := n) (by omega)
    rw [storeQueries, hstore, List.cons_append, serveAll_writeAt, hoffset]
    refine wp_bind (wp_mono (writeFdAll_covers hsize hfirst 0) fun ok t h => ?_)
    cases ok with
    | false =>
      rw [if_neg Bool.false_ne_true, wp_ret, List.append_nil]
      exact h.failed
    | true =>
      refine wp_mono (ih (by omega) hmore position) fun ok' t' h' => ?_
      refine (h.trans h').mono fun p hp => ?_
      rcases hp with ⟨hlow, hhigh⟩ | hp
      · rw [List.flatten_cons, List.length_append] at hhigh
        by_cases hp : p < u.offset.toNat + n + piece.length
        · exact .inl ⟨hlow, hp⟩
        · exact .inr (.inl ⟨by omega, by omega⟩)
      · exact .inr (.inr hp)

theorem serveAll_chunk (hu : u.type = .chunk) (hsize : image.length < 2 ^ 63)
    (hbound : u.offset.toNat + pieces.flatten.length ≤ image.length)
    (himage : Agrees image u.offset.toNat pieces.flatten)
    (hrest : ∀ position, (serveAll position rest).wp (Covers image cover)) (position : ℤ) :
    (serveAll position (unitQueries u pieces ++ rest)).wp (Covers image fun p =>
      Hits u.offset.toNat pieces.flatten p ∨ cover p) := by
  have hopen : openQuery u = .openOffset u.path := if_neg (by rw [hu]; decide)
  have hpieces := serveAll_pieces hu hsize (n := 0) hbound himage hrest position
  rw [unitQueries, hopen, List.cons_append, serveAll_openOffset]
  intro ok
  have hopened : Covers image (fun _ => False) true [.did .openOffset ok] := by
    refine fun _ => ⟨fun e he => ?_, fun _ _ => False.elim⟩
    rw [List.mem_singleton.mp he]
    trivial
  cases ok with
  | false => exact fun hpermits => ⟨(hopened hpermits).1, nofun⟩
  | true => exact wp_mono hpieces fun ok' t h => (hopened.trans h).mono fun p hp => .inr hp

theorem serveAll_chunks (hsize : image.length < 2 ^ 63) (units : List (AcceptedUnit × List Bytes))
    (hunits : ∀ u ∈ units, u.1.type = .chunk ∧
      u.1.offset.toNat + u.2.flatten.length ≤ image.length ∧
      Agrees image u.1.offset.toNat u.2.flatten) (position : ℤ) :
    (serveAll position (units.flatMap fun u => unitQueries u.1 u.2)).wp (Covers image fun p =>
      ∃ u ∈ units, Hits u.1.offset.toNat u.2.flatten p) := by
  induction units generalizing position with
  | nil =>
    refine (covers_nil image true).mono fun p hp => ?_
    obtain ⟨u, hu, _⟩ := hp
    exact absurd hu List.not_mem_nil
  | cons u units ih =>
    obtain ⟨htype, hbound, himage⟩ := hunits u List.mem_cons_self
    have hrest := ih fun v hv => hunits v (List.mem_cons_of_mem _ hv)
    refine wp_mono (serveAll_chunk htype hsize hbound himage hrest position) fun ok t h => ?_
    refine h.mono fun p hp => ?_
    obtain ⟨v, hv, hit⟩ := hp
    rcases List.mem_cons.mp hv with rfl | hv
    · exact .inl hit
    · exact .inr ⟨v, hv, hit⟩

/-! ## The file after a run -/

structure Stage (image : Bytes) (old : Stored) (t : List FsEntry) (s : Stored) : Prop where
  painted : Painted image (old.contents.getD []) (fun p => ∃ e ∈ t, Touches p e)
    (s.contents.getD [])
  present : (∃ p, ∃ e ∈ t, Touches p e) → s.contents.isSome = true

theorem touches_append {e : FsEntry} {p : ℕ} :
    (∃ e' ∈ t ++ [e], Touches p e') ↔ (∃ e' ∈ t, Touches p e') ∨ Touches p e := by
  simp only [List.mem_append, List.mem_singleton, or_and_right, exists_or, exists_eq_left]

theorem Stage.step {old s : Stored} {e : FsEntry} (h : Stage image old t s)
    (hpaints : Paints image e) : Stage image old (t ++ [e]) (fileStore.apply s e) := by
  cases e with
  | got z => exact hpaints.elim
  | did op a =>
    cases op with
    | openSequential => exact hpaints.elim
    | openOffset =>
      have hsame : ((fileStore.apply s (.did .openOffset a)).contents.getD []) =
          s.contents.getD [] := by
        cases a <;> rfl
      have hsome : s.contents.isSome = true →
          (fileStore.apply s (.did .openOffset a)).contents.isSome = true := by
        cases a
        · exact id
        · exact fun _ => rfl
      have hnone : ∀ p, (∃ e ∈ t ++ [.did .openOffset a], Touches p e) → ∃ e ∈ t, Touches p e :=
        fun p hp => (touches_append.mp hp).resolve_right id
      refine ⟨?_, fun ⟨p, hp⟩ => hsome (h.present ⟨p, hnone p hp⟩)⟩
      rw [hsame]
      exact ⟨fun p hp => h.painted.bounded p (hnone p hp),
        fun p hp => h.painted.front p (hnone p hp), h.painted.back⟩
    | write data offset =>
      by_cases hresult : (a : ℤ) ≤ 0
      · have hsame : fileStore.apply s (.did (.write data offset) a) = s := if_pos hresult
        have hnone : ∀ p, (∃ e ∈ t ++ [.did (.write data offset) a], Touches p e) →
            ∃ e ∈ t, Touches p e :=
          fun p hp => (touches_append.mp hp).resolve_right fun hit =>
            absurd hresult (Int.not_le.mpr hit.1)
        rw [hsame]
        exact ⟨⟨fun p hp => h.painted.bounded p (hnone p hp),
          fun p hp => h.painted.front p (hnone p hp), h.painted.back⟩,
            fun ⟨p, hp⟩ => h.present ⟨p, hnone p hp⟩⟩
      · -- as much as the call says it has written, which may be less than it was given
        obtain ⟨hoffset, hagrees⟩ := hpaints (Int.not_le.mp hresult)
        have hwritten : fileStore.apply s (.did (.write data offset) a) = { s with
            contents := some (pwrite (s.contents.getD []) offset.toNat
              (data.take (Int.toNat a))) } := by
          change (if (a : ℤ) ≤ 0 then s else if offset < 0 then _ else _) = _
          rw [if_neg hresult, if_neg (Int.not_lt.mpr hoffset)]
        have hnew : ∀ p, (∃ e ∈ t ++ [.did (.write data offset) a], Touches p e) →
            (∃ e ∈ t, Touches p e) ∨ Hits offset.toNat (data.take (Int.toNat a)) p :=
          fun p hp => (touches_append.mp hp).imp id fun hit => hit.2
        have hpainted := h.painted.write hagrees
        rw [hwritten]
        exact ⟨⟨fun p hp => hpainted.bounded p (hnew p hp),
          fun p hp => hpainted.front p (hnew p hp), hpainted.back⟩, fun _ => rfl⟩

theorem stage_foldl (old : Stored) (hpaints : ∀ e ∈ t, Paints image e) :
    Stage image old t (t.foldl fileStore.apply old) := by
  induction t using List.reverseRecOn with
  | nil =>
    refine ⟨⟨?_, ?_, fun _ _ => rfl⟩, ?_⟩
    · rintro p ⟨e, he, _⟩
      exact absurd he List.not_mem_nil
    · rintro p ⟨e, he, _⟩
      exact absurd he List.not_mem_nil
    · rintro ⟨p, e, he, _⟩
      exact absurd he List.not_mem_nil
  | append_singleton t e ih =>
    rw [List.foldl_append]
    exact (ih fun e' he' => hpaints e' (List.mem_append_left _ he')).step
      (hpaints e (List.mem_append_right _ (List.mem_singleton_self e)))

theorem Stage.contents {old s : Stored} (h : Stage image old t s) (hne : image ≠ [])
    (hall : ∀ p < image.length, ∃ e ∈ t, Touches p e) :
    s.contents = some (image ++ (old.contents.getD []).drop image.length) := by
  obtain ⟨f, hf⟩ :=
    Option.isSome_iff_exists.mp (h.present ⟨0, hall 0 (List.length_pos_iff.mpr hne)⟩)
  have heq := h.painted.eq hall
  rw [hf] at heq
  rw [hf, ← heq]
  rfl

/-! ## A file in one unit -/

theorem writeFdAll_appends {f data : Bytes} (hsize : f.length + data.length < 2 ^ 63)
    (written : ℕ) :
    (writeFdAll data f.length written).wp fun ok t => (∀ e ∈ t, fileStore.permits e) → ok = true →
      ∀ s : Stored, s.contents = some (f ++ data.take written) →
        (t.foldl fileStore.apply s).contents = some (f ++ data) := by
  induction hn : data.length - written using Nat.strong_induction_on generalizing written with
  | _ n ih =>
    unfold writeFdAll
    by_cases hlt : written < data.length
    · rw [if_pos hlt, if_neg (Int.not_lt.mpr (Int.natCast_nonneg f.length)), ← Nat.cast_add,
        int64_natCast (by omega)]
      intro (result : ℤ)
      beta_reduce
      by_cases hresult : result ≤ 0
      · rw [if_pos hresult]
        exact fun _ hok => nomatch hok
      · rw [if_neg hresult]
        have hpos : 0 < result.toNat := Int.pos_iff_toNat_pos.mp (Int.not_le.mp hresult)
        refine wp_mono (ih _ (by omega) (written + result.toNat) rfl)
          fun ok t h hpermits hok s hs => ?_
        have hshort : result ≤ ((data.drop written).take kMaxSingleWrite).length :=
          hpermits _ List.mem_cons_self
        refine h (fun e he => hpermits e (List.mem_cons_of_mem _ he)) hok _ ?_
        have hend : (f ++ data.take written).length = f.length + written := by
          rw [List.length_append, List.length_take, Nat.min_eq_left hlt.le]
        have hpiece : ((data.drop written).take kMaxSingleWrite).take result.toNat =
            (data.drop written).take result.toNat := by
          rw [List.length_take] at hshort
          rw [List.take_take, Nat.min_eq_left (by omega)]
        change (if result ≤ 0 then s else if _ then _ else _).contents = _
        rw [if_neg hresult, if_neg (Int.not_lt.mpr (Int.natCast_nonneg _))]
        change some (pwrite _ (Int.toNat _) _) = _
        rw [hs, Int.toNat_natCast, ← hend, hpiece, Option.getD_some, pwrite_end, List.append_assoc,
          ← List.take_add]
    · rw [if_neg hlt]
      intro _ _ s hs
      rw [List.take_of_length_le (Nat.not_lt.mp hlt)] at hs
      exact hs

theorem serveAll_appends (hu : u.type = .file) (f : Bytes) (n : ℕ)
    (hsize : f.length + pieces.flatten.length < 2 ^ 63) :
    (serveAll f.length (storeQueries u n pieces)).wp fun ok t =>
    (∀ e ∈ t, fileStore.permits e) → ok = true →
      ∀ s : Stored, s.contents = some f → (t.foldl fileStore.apply s).contents =
        some (f ++ pieces.flatten) := by
  induction pieces generalizing f n with
  | nil =>
    intro _ _ s hs
    rw [List.flatten_nil, List.append_nil]
    exact hs
  | cons piece pieces ih =>
    rw [List.flatten_cons, List.length_append] at hsize
    have hstore : storeQuery u n piece = .write piece := if_neg (by rw [hu]; decide)
    rw [storeQueries, hstore, serveAll_write]
    refine wp_bind (wp_mono (writeFdAll_appends (by omega) 0) fun ok t h => ?_)
    cases ok with
    | false => exact fun _ hok => nomatch hok
    | true =>
      have hmore := ih (f ++ piece) (n + piece.length) (by rw [List.length_append]; omega)
      rw [List.length_append, Nat.cast_add] at hmore
      refine wp_mono hmore fun ok' t' h' hpermits hok' s hs => ?_
      have hfirst := h (fun e he => hpermits e (List.mem_append_left _ he)) rfl s
        (by rw [List.take_zero, List.append_nil]; exact hs)
      rw [List.foldl_append, List.flatten_cons, ← List.append_assoc]
      exact h' (fun e he => hpermits e (List.mem_append_right _ he)) hok' _ hfirst

theorem serveAll_file (hu : u.type = .file) (hsize : pieces.flatten.length < 2 ^ 63)
    (position : ℤ) :
    (serveAll position (unitQueries u pieces)).wp fun ok t =>
    (∀ e ∈ t, fileStore.permits e) → ok = true →
      ∀ s : Stored, (t.foldl fileStore.apply s).contents = some pieces.flatten := by
  have hopen : openQuery u = .openSequential u.path := if_pos hu
  rw [unitQueries, hopen, serveAll_openSequential]
  intro ok
  cases ok with
  | false => exact fun _ hok => nomatch hok
  | true =>
    have hlen : ([] : Bytes).length + pieces.flatten.length < 2 ^ 63 :=
      (Nat.zero_add _).trans_lt hsize
    refine wp_mono (serveAll_appends hu [] 0 hlen) fun ok t h hpermits hok s => ?_
    exact h (fun e he => hpermits e (List.mem_cons_of_mem _ he)) hok _ rfl

end

/-! ## A file system that never fails -/

theorem writeFdAll_does (data : Bytes) (offset : ℤ) (written : ℕ) (s : Stored) :
    ∃ s' t, Pool.Does fileStore (writeFdAll data offset written) s true s' t := by
  induction hn : data.length - written using Nat.strong_induction_on generalizing written s with
  | _ n ih =>
    unfold writeFdAll
    by_cases hlt : written < data.length
    · rw [if_pos hlt]
      have hpos : 0 < ((data.drop written).take kMaxSingleWrite).length := by
        rw [List.length_take, List.length_drop]
        exact Nat.lt_min.mpr ⟨by decide, Nat.sub_pos_of_lt hlt⟩
      generalize hresult : (((data.drop written).take kMaxSingleWrite).length : ℤ) = result
      have hpos' : ¬ result ≤ 0 := by omega
      refine Pool.Does.exists_call result hresult.ge ?_
      rw [if_neg hpos']
      exact ih _ (by omega) (written + result.toNat) _ rfl
    · rw [if_neg hlt]
      exact ⟨s, [], .ret true s⟩

theorem serve_does (position : ℤ) (query : Query) (s : Stored) :
    ∃ position' s' t, Pool.Does fileStore (serve position query) s (true, position') s' t := by
  cases query with
  | filter probe => exact ⟨position, s, _, .ret _ s⟩
  | openSequential path => exact ⟨0, _, _, .call true trivial (.ret _ _)⟩
  | openOffset path => exact ⟨position, _, _, .call true trivial (.ret _ _)⟩
  | write data =>
    obtain ⟨s', t, hs'⟩ := writeFdAll_does data position 0 s
    exact ⟨position + data.length, s', _, hs'.bind (.ret _ _)⟩
  | writeAt offset data =>
    obtain ⟨s', t, hs'⟩ := writeFdAll_does data offset.toBitVec.toInt 0 s
    exact ⟨position, s', _, hs'.bind (.ret _ _)⟩

theorem serveAll_does (position : ℤ) (queries : List Query) (s : Stored) :
    ∃ s' t, Pool.Does fileStore (serveAll position queries) s true s' t := by
  induction queries generalizing position s with
  | nil => exact ⟨s, [], .ret true s⟩
  | cons query queries ih =>
    obtain ⟨position', s₁, t, hserve⟩ := serve_does position query s
    obtain ⟨s₂, t', hrest⟩ := ih position' s₁
    exact ⟨s₂, t ++ t', hserve.bind hrest⟩

end Dicker.Server
