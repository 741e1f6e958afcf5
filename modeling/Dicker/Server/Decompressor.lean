import Dicker.Lib.StoredFrame
import Dicker.Server.Intake

/-! The two stream decompressors (server/zstd_decompressor.cxx, server/lz4_decompressor.cxx).
Both loops run while there is input, whatever the codec still holds. -/

namespace Dicker.Server
open Lib

@[irreducible] def kDecodeChunk : ℕ := 256 * 1024

/-- `sink.write` is only called with something to write. -/
def piece (out : Bytes) : List Bytes := if out = [] then [] else [out]

theorem piece_flatten (out : Bytes) : (piece out).flatten = out := by
  unfold piece
  split_ifs with hout
  · rw [hout]
    rfl
  · exact List.append_nil out

variable {pieces : List Bytes}

section
variable {m : Decoding UInt8} (codec : Codec m)

variable {input : Bytes} {s s' : codec.State}

theorem call_progress {out : Bytes} {n : ℕ}
    (hcall : codec.call s input kDecodeChunk = some (s', n, out)) (hinput : input ≠ [])
    (hdone : n ≠ 0 ∨ out ≠ []) :
    Prod.Lex (· < ·) (· < ·) ((input.drop n).length, (codec.held s').length)
      (input.length, (codec.held s).length) := by
  by_cases hn : n = 0
  · subst hn
    have hlen := congrArg List.length (codec.answer hcall).out_eq
    rw [List.take_zero, m.fresh_nil, List.append_nil, List.length_append] at hlen
    have hpos := List.length_pos_iff.mpr (hdone.resolve_left fun h => h rfl)
    exact .right _ (by omega)
  · have hpos := List.length_pos_iff.mpr hinput
    refine .left _ _ ?_
    rw [List.length_drop]
    omega

def zstdDecompress (s : codec.State) (input : Bytes) : List Bytes × Option codec.State :=
  if input = [] then ([], some s)
  else match _hcall : codec.call s input kDecodeChunk with
    | none => ([], none)
    | some (s', n, out) =>
      if out = [] ∧ n < input.length then ([], none)
      else
        let (pieces, result) := zstdDecompress s' (input.drop n)
        (piece out ++ pieces, result)
termination_by (input.length, (codec.held s).length)
decreasing_by
  rename_i hinput hstuck
  refine call_progress codec _hcall hinput ?_
  by_contra hnothing
  obtain ⟨rfl, rfl⟩ : n = 0 ∧ out = [] := by simpa only [not_or, not_not] using hnothing
  exact hstuck ⟨rfl, List.length_pos_iff.mpr hinput⟩

def lz4Decompress (s : codec.State) (input : Bytes) : List Bytes × Option codec.State :=
  if input = [] then ([], some s)
  else match _hcall : codec.call s input kDecodeChunk with
    | none => ([], none)
    | some (s', n, out) =>
      -- the loop is left with input to go
      if n = 0 ∧ out = [] then ([], none)
      else
        let (pieces, result) := lz4Decompress s' (input.drop n)
        (piece out ++ pieces, result)
termination_by (input.length, (codec.held s).length)
decreasing_by
  rename_i hinput hstuck
  exact call_progress codec _hcall hinput (by tauto)

/-! ## What both loops do -/

inductive Drains : codec.State → Bytes → List Bytes → codec.State → Prop where
  | done (s : codec.State) : Drains s [] [] s
  | call {s s' s'' : codec.State} {input out : Bytes} {n : ℕ} {pieces : List Bytes}
      (hinput : input ≠ [])
      (hcall : codec.call s input kDecodeChunk = some (s', n, out))
      (hrest : Drains s' (input.drop n) pieces s'') :
      Drains s input (piece out ++ pieces) s''

variable {codec}

theorem Drains.wire (h : Drains codec s input pieces s') :
    codec.wire s' = codec.wire s ++ input := by
  induction h with
  | done s => exact (List.append_nil _).symm
  | call _ hcall _ ih =>
    rw [ih, (codec.answer hcall).wire_eq, List.append_assoc, List.take_append_drop]

theorem Drains.conserves (h : Drains codec s input pieces s') :
    pieces.flatten ++ codec.held s' = codec.held s ++ m.fresh (codec.wire s) input := by
  induction h with
  | done s => rw [m.fresh_nil, List.append_nil, List.flatten_nil, List.nil_append]
  | @call s s₁ s' input out n pieces _ hcall _ ih =>
    have hanswer := codec.answer hcall
    have hfresh := m.fresh_append (codec.wire s) (input.take n) (input.drop n)
    rw [List.take_append_drop, ← hanswer.wire_eq] at hfresh
    rw [List.flatten_append, piece_flatten, List.append_assoc, ih, ← List.append_assoc,
      hanswer.out_eq, hfresh, List.append_assoc]

theorem Drains.behind (h : Drains codec s input pieces s') (hinput : input ≠ []) :
    (codec.held s').length ≤
      (codec.held s).length + (m.fresh (codec.wire s) input).length - kDecodeChunk := by
  induction h with
  | done s => exact absurd rfl hinput
  | @call s s₁ s' input out n pieces _ hcall hrest ih =>
    have hanswer := codec.answer hcall
    have hout := congrArg List.length hanswer.out_eq
    have hfresh :=
      congrArg List.length (m.fresh_append (codec.wire s) (input.take n) (input.drop n))
    rw [List.take_append_drop, ← hanswer.wire_eq, List.length_append] at hfresh
    rw [List.length_append, List.length_append] at hout
    by_cases hmore : input.drop n = []
    · rw [hmore] at hrest
      cases hrest with
      | call hnil => exact absurd rfl hnil
      | done =>
        rcases Nat.lt_or_ge out.length kDecodeChunk with hlt | hge
        · rw [hanswer.flushed hlt]
          exact Nat.zero_le _
        · omega
    · have hbehind := ih hmore
      omega

structure Drives (loop : (codec : Codec m) → codec.State → Bytes →
    List Bytes × Option codec.State) : Prop where
  drains : ∀ (codec : Codec m) {s s' : codec.State} {input : Bytes},
    (loop codec s input).2 = some s' → Drains codec s input (loop codec s input).1 s'
  ends : ∀ (codec : Codec m) {s s' : codec.State} {input out : Bytes}, input ≠ [] →
    codec.call s input kDecodeChunk = some (s', input.length, out) →
      (loop codec s input).2 = some s'

theorem zstdDecompress_nil (s : codec.State) : zstdDecompress codec s [] = ([], some s) := by
  unfold zstdDecompress
  rw [if_pos rfl]

theorem lz4Decompress_nil (s : codec.State) : lz4Decompress codec s [] = ([], some s) := by
  unfold lz4Decompress
  rw [if_pos rfl]

theorem zstdDecompress_drives : Drives (zstdDecompress (m := m)) where
  drains := by
    intro codec s s' input
    fun_induction zstdDecompress codec s input with
    | case1 =>
      intro h
      cases h
      exact .done _
    | case2 => exact nofun
    | case3 => exact nofun
    | case4 s input hinput s₁ n out hcall _ pieces result hrest ih =>
      rw [hrest] at ih
      exact fun h => .call hinput hcall (ih h)
  ends := by
    intro codec s s' input out hinput hcall
    unfold zstdDecompress
    rw [if_neg hinput]
    split
    · rename_i hnone
      exact nomatch hcall.symm.trans hnone
    · rename_i hsome
      cases hcall.symm.trans hsome
      rw [if_neg fun h => absurd h.2 (Nat.lt_irrefl _), List.drop_length, zstdDecompress_nil]

theorem lz4Decompress_drives : Drives (lz4Decompress (m := m)) where
  drains := by
    intro codec s s' input
    fun_induction lz4Decompress codec s input with
    | case1 =>
      intro h
      cases h
      exact .done _
    | case2 => exact nofun
    | case3 => exact nofun
    | case4 s input hinput s₁ n out hcall _ pieces result hrest ih =>
      rw [hrest] at ih
      exact fun h => .call hinput hcall (ih h)
  ends := by
    intro codec s s' input out hinput hcall
    unfold lz4Decompress
    rw [if_neg hinput]
    split
    · rename_i hnone
      exact nomatch hcall.symm.trans hnone
    · rename_i hsome
      cases hcall.symm.trans hsome
      rw [if_neg fun h => hinput (List.length_eq_zero_iff.mp h.1), List.drop_length,
        lz4Decompress_nil]

end

/-! ## Units -/

section
variable {m : Decoding UInt8}

abbrev DecompressLoop (m : Decoding UInt8) :=
  (codec : Codec m) → codec.State → Bytes → List Bytes × Option codec.State

abbrev streamDecompressor (loop : DecompressLoop m) (codec : Codec m) : StreamDecompressor :=
  ⟨codec.State, loop codec⟩

def decodeUnits (dec : StreamDecompressor) (d : dec.State) :
    List (List Bytes) → Option (List (List Bytes) × dec.State)
  | [] => some ([], d)
  | u :: us =>
    (decodeAll dec d u).bind fun r => (decodeUnits dec r.2 us).map fun r' => (r.1 :: r'.1, r'.2)

theorem decodeUnits_cons {dec : StreamDecompressor} {d d₁ d₂ : dec.State} {u : List Bytes}
    {us received : List (List Bytes)} (hfirst : decodeAll dec d u = some (pieces, d₁))
    (hrest : decodeUnits dec d₁ us = some (received, d₂)) :
    decodeUnits dec d (u :: us) = some (pieces :: received, d₂) := by
  rw [decodeUnits, hfirst, Option.bind_some, hrest]
  rfl

def unitsDecoded (m : Decoding UInt8) : Bytes → List (List Bytes) → List Bytes
  | _, [] => []
  | w, u :: us => m.fresh w u.flatten :: unitsDecoded m (w ++ u.flatten) us

def backlog (m : Decoding UInt8) : ℕ → Bytes → List Bytes → ℕ
  | behind, _, [] => behind
  | behind, w, b :: bs => backlog m (behind + (m.fresh w b).length - kDecodeChunk) (w ++ b) bs

def CatchesUp (m : Decoding UInt8) : Bytes → List (List Bytes) → Prop
  | _, [] => True
  | w, u :: us => backlog m 0 w u = 0 ∧ CatchesUp m (w ++ u.flatten) us

theorem backlog_mono {a b : ℕ} (h : a ≤ b) (w : Bytes) (blocks : List Bytes) :
    backlog m a w blocks ≤ backlog m b w blocks := by
  induction blocks generalizing a b w with
  | nil => exact h
  | cons block blocks ih =>
    rw [backlog, backlog]
    exact ih (Nat.sub_le_sub_right (Nat.add_le_add_right h (m.fresh w block).length) kDecodeChunk)
      (w ++ block)

variable {loop : DecompressLoop m} {codec : Codec m} {d d' : codec.State} {blocks : List Bytes}

theorem decodeAll_drives (hloop : Drives loop) (hblocks : ∀ b ∈ blocks, b ≠ [])
    (h : decodeAll (streamDecompressor loop codec) d blocks = some (pieces, d')) :
    codec.wire d' = codec.wire d ++ blocks.flatten ∧
      pieces.flatten ++ codec.held d' = codec.held d ++ m.fresh (codec.wire d) blocks.flatten ∧
      (codec.held d').length ≤ backlog m (codec.held d).length (codec.wire d) blocks := by
  induction blocks generalizing d pieces with
  | nil =>
    cases h
    refine ⟨(List.append_nil _).symm, ?_, le_rfl⟩
    rw [List.flatten_nil, m.fresh_nil, List.append_nil, List.nil_append]
  | cons block blocks ih =>
    obtain ⟨d₁, hfirst, hblocks'⟩ := Option.bind_eq_some_iff.mp h
    obtain ⟨⟨more, d₂⟩, hmore, heq⟩ := Option.map_eq_some_iff.mp hblocks'
    cases heq
    have hdrains := hloop.drains codec hfirst
    obtain ⟨hwire, hflatten, hheld⟩ := ih (fun b hb => hblocks b (List.mem_cons_of_mem _ hb)) hmore
    rw [hdrains.wire] at hwire hflatten hheld
    refine ⟨?_, ?_, ?_⟩
    · rw [hwire, List.flatten_cons, List.append_assoc]
    · rw [List.flatten_append, List.append_assoc, hflatten, ← List.append_assoc, hdrains.conserves,
        List.flatten_cons, m.fresh_append, List.append_assoc]
    · exact hheld.trans (backlog_mono (hdrains.behind (hblocks block List.mem_cons_self)) _ _)

theorem decodeAll_exact (codec : Codec m) {d d' : codec.State} (hloop : Drives loop)
    (hblocks : ∀ b ∈ blocks, b ≠ []) (hheld : codec.held d = [])
    (h : decodeAll (streamDecompressor loop codec) d blocks = some (pieces, d')) :
    pieces.flatten = m.fresh (codec.wire d) blocks.flatten ↔ codec.held d' = [] := by
  have hflatten := (decodeAll_drives hloop hblocks h).2.1
  rw [hheld, List.nil_append] at hflatten
  rw [← hflatten, eq_comm, List.append_right_eq_self]

theorem decodeAll_eager (hloop : Drives loop) (hblocks : ∀ b ∈ blocks, b ≠ []) (w held : Bytes) :
    ∃ pieces held', decodeAll (streamDecompressor loop (eager m)) (w, held) blocks =
        some (pieces, (w ++ blocks.flatten, held')) ∧
      held'.length = backlog m held.length w blocks := by
  induction blocks generalizing w held with
  | nil => exact ⟨[], held, by rw [List.flatten_nil, List.append_nil]; rfl, rfl⟩
  | cons block blocks ih =>
    obtain ⟨pieces, held', hdecode, hlen⟩ :=
      ih (fun b hb => hblocks b (List.mem_cons_of_mem _ hb)) (w ++ block)
      ((held ++ m.fresh w block).drop kDecodeChunk)
    have hfirst := hloop.ends (eager m) (s := (w, held)) (hblocks block List.mem_cons_self) rfl
    refine ⟨(loop (eager m) (w, held) block).1 ++ pieces, held', ?_, ?_⟩
    · change ((loop (eager m) (w, held) block).2.bind _) = _
      rw [hfirst]
      change Option.map _ (decodeAll (streamDecompressor loop (eager m)) _ blocks) = _
      rw [hdecode, List.flatten_cons, ← List.append_assoc]
      rfl
    · rw [hlen, List.length_drop, List.length_append]
      rfl

variable {units : List (List Bytes)}

theorem decodeUnits_exact (hloop : Drives loop) (hunits : ∀ u ∈ units, Fits u)
    {received : List (List Bytes)} (hheld : codec.held d = [])
    (hcatch : CatchesUp m (codec.wire d) units)
    (h : decodeUnits (streamDecompressor loop codec) d units = some (received, d')) :
    received.map List.flatten = unitsDecoded m (codec.wire d) units := by
  induction units generalizing d received with
  | nil =>
    cases h
    rfl
  | cons u units ih =>
    obtain ⟨⟨pieces, d₁⟩, hfirst, hrest⟩ := Option.bind_eq_some_iff.mp h
    obtain ⟨⟨more, d₂⟩, hmore, heq⟩ := Option.map_eq_some_iff.mp hrest
    cases heq
    have hblocks : ∀ b ∈ u, b ≠ [] := fun b hb => (hunits u List.mem_cons_self b hb).1
    obtain ⟨hwire, _, hlen⟩ := decodeAll_drives hloop hblocks hfirst
    rw [hheld, List.length_nil, hcatch.1] at hlen
    have hheld₁ : codec.held d₁ = [] := List.length_eq_zero_iff.mp (Nat.le_zero.mp hlen)
    have hpieces := (decodeAll_exact codec hloop hblocks hheld hfirst).mpr hheld₁
    have hrec :=
      ih (fun v hv => hunits v (List.mem_cons_of_mem _ hv)) hheld₁ (hwire ▸ hcatch.2) hmore
    rw [hwire] at hrec
    rw [List.map_cons, hpieces, hrec]
    rfl

theorem decodeUnits_eager (hloop : Drives loop) (hunits : ∀ u ∈ units, Fits u) (w held : Bytes) :
    ∃ received d', decodeUnits (streamDecompressor loop (eager m)) (w, held) units =
      some (received, d') := by
  induction units generalizing w held with
  | nil => exact ⟨[], (w, held), rfl⟩
  | cons u units ih =>
    obtain ⟨pieces, held', hfirst, _⟩ := decodeAll_eager (m := m) hloop
      (fun b hb => (hunits u List.mem_cons_self b hb).1) w held
    obtain ⟨received, d', hrest⟩ :=
      ih (fun v hv => hunits v (List.mem_cons_of_mem _ hv)) (w ++ u.flatten) held'
    exact ⟨pieces :: received, d', decodeUnits_cons hfirst hrest⟩

theorem catchesUp_of_eager (hloop : Drives loop) (hunits : ∀ u ∈ units, Fits u) (w : Bytes)
    (h : ∀ received d', decodeUnits (streamDecompressor loop (eager m)) (w, []) units =
      some (received, d') →
      received.map List.flatten = unitsDecoded m w units) : CatchesUp m w units := by
  induction units generalizing w with
  | nil => trivial
  | cons u units ih =>
    have hblocks : ∀ b ∈ u, b ≠ [] := fun b hb => (hunits u List.mem_cons_self b hb).1
    have hunits' : ∀ v ∈ units, Fits v := fun v hv => hunits v (List.mem_cons_of_mem _ hv)
    obtain ⟨pieces, held, hfirst, hlen⟩ := decodeAll_eager (m := m) hloop hblocks w []
    have hexact : ∀ received d', decodeUnits (streamDecompressor loop (eager m))
        (w ++ u.flatten, held) units = some (received, d') → pieces.flatten = m.fresh w u.flatten ∧
          received.map List.flatten = unitsDecoded m (w ++ u.flatten) units := by
      intro received d' hrest
      exact List.cons.inj (h (pieces :: received) d' (decodeUnits_cons hfirst hrest))
    obtain ⟨received, d', hsome⟩ := decodeUnits_eager hloop hunits' (w ++ u.flatten) held
    have hheld : held = [] :=
      (decodeAll_exact (eager m) hloop hblocks rfl hfirst).mp (hexact received d' hsome).1
    rw [hheld] at hlen hexact
    exact ⟨hlen.symm, ih hunits' _ fun received d' hrest => (hexact received d' hrest).2⟩

theorem catchesUp_of_le (hsmall : ∀ u ∈ units, ∀ b ∈ u, ∀ w, (m.fresh w b).length ≤ kDecodeChunk)
    (w : Bytes) : CatchesUp m w units := by
  have hunit : ∀ u : List Bytes, (∀ b ∈ u, ∀ w, (m.fresh w b).length ≤ kDecodeChunk) →
      ∀ w, backlog m 0 w u = 0 := by
    intro u hu
    induction u with
    | nil => exact fun _ => rfl
    | cons b u ih =>
      intro w
      rw [backlog, Nat.zero_add, Nat.sub_eq_zero_of_le (hu b List.mem_cons_self w)]
      exact ih (fun b' hb' => hu b' (List.mem_cons_of_mem _ hb')) _
  induction units generalizing w with
  | nil => trivial
  | cons u units ih =>
    exact ⟨hunit u (hsmall u List.mem_cons_self) w,
      ih (fun v hv => hsmall v (List.mem_cons_of_mem _ hv)) _⟩

theorem eager_round (hloop : Drives loop) (block : Bytes) (hblock : block ≠ []) (w held : Bytes) :
    decodeAll (streamDecompressor loop (eager m)) (w, held) [block] =
      some ((loop (eager m) (w, held) block).1,
        (w ++ block, (held ++ m.fresh w block).drop kDecodeChunk)) ∧
      (loop (eager m) (w, held) block).1.flatten = (held ++ m.fresh w block).take kDecodeChunk := by
  have hends := hloop.ends (eager m) (s := (w, held)) hblock rfl
  constructor
  · change ((loop (eager m) (w, held) block).2.bind _) = _
    rw [hends]
    change some (_ ++ [], _) = _
    rw [List.append_nil]
    rfl
  · have hconserves := (hloop.drains (eager m) hends).conserves
    have hsplit := List.take_append_drop kDecodeChunk (held ++ m.fresh w block)
    exact List.append_cancel_right (hconserves.trans hsplit.symm)

/-- Whatever codec keeps the contract: when `decompress` has returned true for all blocks of a
session, every sink has received exactly what its unit decodes to. -/
def BoundariesSurvive (loop : DecompressLoop m) (units : List (List Bytes)) : Prop :=
  ∀ (codec : Codec m) (received : List (List Bytes)) (d : codec.State),
    decodeUnits (streamDecompressor loop codec) codec.start units = some (received, d) →
      received.map List.flatten = unitsDecoded m [] units

theorem boundariesSurvive_iff (hloop : Drives loop) (hunits : ∀ u ∈ units, Fits u) :
    BoundariesSurvive loop units ↔ CatchesUp m [] units := by
  constructor
  · exact fun h => catchesUp_of_eager hloop hunits [] fun received d' => h (eager m) received d'
  · intro hcatch codec received d h
    rw [← codec.wire_start] at hcatch ⊢
    exact decodeUnits_exact hloop hunits codec.held_start hcatch h

/-- Both decompressors keep the units of a session apart if and only if no unit ends with more
decoded than was put out. -/
theorem boundaries_survive_iff (m : Decoding UInt8) {units : List (List Bytes)}
    (hunits : ∀ u ∈ units, Fits u) :
    (BoundariesSurvive (m := m) zstdDecompress units ↔ CatchesUp m [] units) ∧
      (BoundariesSurvive (m := m) lz4Decompress units ↔ CatchesUp m [] units) :=
  ⟨boundariesSurvive_iff zstdDecompress_drives hunits,
    boundariesSurvive_iff lz4Decompress_drives hunits⟩

end

/-- Two units of stored blocks, the frame begun in front of the first of them. -/
def storedUnits (f : StoredFormat) : List (List Bytes) :=
  [[f.frame [[1, 2]], f.block [3]], [f.block [4]]]

theorem unitsDecoded_stored (f : StoredFormat) (h : 2 ≤ f.maxBlock) :
    unitsDecoded f.decoding [] (storedUnits f) = [[1, 2, 3], [4]] := by
  have hsmall : ∀ p ∈ ([[1, 2], [3]] ++ [[4]] : List Bytes), p.length ≤ f.maxBlock := by
    have hle : ∀ p ∈ ([[1, 2], [3]] ++ [[4]] : List Bytes), p.length ≤ 2 := by decide
    exact fun p hp => (hle p hp).trans h
  have hfirst : [f.frame [[1, 2]], f.block [3]].flatten = f.frame [[1, 2], [3]] := by
    simp only [StoredFormat.frame, List.flatten_cons, List.flatten_nil, List.flatMap_cons,
      List.flatMap_nil, List.append_nil, List.append_assoc]
  have hsecond : [f.block [4]].flatten = [[4]].flatMap f.block := rfl
  rw [storedUnits, unitsDecoded, unitsDecoded, unitsDecoded, hfirst, hsecond, List.nil_append,
    f.fresh_start fun p hp => hsmall p (List.mem_append_left _ hp), f.fresh_blocks hsmall]
  rfl

theorem catchesUp_stored (f : StoredFormat) {units : List (List Bytes)}
    (h : ∀ u ∈ units, ∀ b ∈ u, b.length ≤ kDecodeChunk) : CatchesUp f.decoding [] units :=
  catchesUp_of_le (fun u hu b hb w => (f.length_fresh w b).trans (h u hu b hb)) []

theorem boundaries_survive_stored :
    (BoundariesSurvive (m := zstdFrame.decoding) zstdDecompress (storedUnits zstdFrame) ∧
      unitsDecoded zstdFrame.decoding [] (storedUnits zstdFrame) = [[1, 2, 3], [4]]) ∧
    BoundariesSurvive (m := lz4Frame.decoding) lz4Decompress (storedUnits lz4Frame) ∧
      unitsDecoded lz4Frame.decoding [] (storedUnits lz4Frame) = [[1, 2, 3], [4]] := by
  have hfits : ∀ f, f = zstdFrame ∨ f = lz4Frame → ∀ u ∈ storedUnits f, Fits u := by
    unfold Fits
    rintro f (rfl | rfl) <;> decide
  have hshort : ∀ f, f = zstdFrame ∨ f = lz4Frame →
      ∀ u ∈ storedUnits f, ∀ b ∈ u, b.length ≤ kDecodeChunk := by
    unfold kDecodeChunk
    rintro f (rfl | rfl) <;> decide
  refine ⟨⟨?_, unitsDecoded_stored _ (by decide)⟩, ?_, unitsDecoded_stored _ (by decide)⟩
  · exact (boundaries_survive_iff _ (hfits _ (.inl rfl))).1.mpr
      (catchesUp_stored _ (hshort _ (.inl rfl)))
  · exact (boundaries_survive_iff _ (hfits _ (.inr rfl))).2.mpr
      (catchesUp_stored _ (hshort _ (.inr rfl)))

def runs : Decoding UInt8 where
  decoded w := w.flatMap (List.replicate 131072)
  mono w z := by
    rw [List.flatMap_append]
    exact List.prefix_append _ _

theorem runs_fresh (w z : Bytes) : runs.fresh w z = z.flatMap (List.replicate 131072) := by
  change ((w ++ z).flatMap _).drop _ = _
  rw [List.flatMap_append]
  exact List.drop_left

theorem runs_three :
    ([1, 1, 1] : Bytes).flatMap (List.replicate 131072) = List.replicate 393216 1 := by
  simp only [List.flatMap_cons, List.flatMap_nil, List.append_nil, List.replicate_append_replicate]

theorem shifted_of_drives {loop : DecompressLoop runs} (hloop : Drives loop) :
    ∃ (codec : Codec runs) (received : List (List Bytes)) (d : codec.State),
      decodeUnits (streamDecompressor loop codec) codec.start [[[1, 1, 1]], [[2]]] =
        some (received, d) ∧
      received.map List.flatten =
        [List.replicate 262144 1, List.replicate 131072 1 ++ List.replicate 131072 2] := by
  have htwo : ([2] : Bytes).flatMap (List.replicate 131072) = List.replicate 131072 2 :=
    List.append_nil _
  have htaken : min kDecodeChunk 393216 = 262144 := by
    rw [kDecodeChunk]
    decide
  have hheld : 393216 - kDecodeChunk = 131072 := by rw [kDecodeChunk]
  obtain ⟨hfirst, hpieces⟩ := eager_round hloop [1, 1, 1] (by decide) [] []
  rw [runs_fresh, runs_three, List.nil_append, List.nil_append,
    List.drop_replicate, hheld] at hfirst
  rw [runs_fresh, runs_three, List.nil_append, List.take_replicate, htaken] at hpieces
  obtain ⟨hsecond, hpieces'⟩ :=
    eager_round hloop [2] (by decide) [1, 1, 1] (List.replicate 131072 1)
  rw [runs_fresh, htwo] at hsecond hpieces'
  have hall : (List.replicate 131072 1 ++ List.replicate 131072 2 : Bytes).length ≤
      kDecodeChunk := by
    rw [List.length_append, List.length_replicate, List.length_replicate, kDecodeChunk]
  rw [List.take_of_length_le hall] at hpieces'
  refine ⟨eager runs, _, _, decodeUnits_cons hfirst (decodeUnits_cons hsecond rfl), ?_⟩
  rw [List.map_cons, List.map_cons, List.map_nil, hpieces, hpieces']

theorem boundaries_shifted :
    (∃ (codec : Codec runs) (received : List (List Bytes)) (d : codec.State),
      decodeUnits (streamDecompressor zstdDecompress codec) codec.start [[[1, 1, 1]], [[2]]] =
          some (received, d) ∧
        received.map List.flatten ≠ unitsDecoded runs [] [[[1, 1, 1]], [[2]]] ∧
        received.map List.flatten =
          [List.replicate 262144 1, List.replicate 131072 1 ++ List.replicate 131072 2]) ∧
    ∃ (codec : Codec runs) (received : List (List Bytes)) (d : codec.State),
      decodeUnits (streamDecompressor lz4Decompress codec) codec.start [[[1, 1, 1]], [[2]]] =
          some (received, d) ∧
        received.map List.flatten ≠ unitsDecoded runs [] [[[1, 1, 1]], [[2]]] ∧
        received.map List.flatten =
          [List.replicate 262144 1, List.replicate 131072 1 ++ List.replicate 131072 2] := by
  have hne : [List.replicate 262144 1, List.replicate 131072 1 ++ List.replicate 131072 2] ≠
      unitsDecoded runs [] [[[1, 1, 1]], [[2]]] := by
    intro h
    have hfirst := (List.cons.inj h).1
    rw [runs_fresh, List.flatten_singleton, runs_three] at hfirst
    have hlen := congrArg List.length hfirst
    rw [List.length_replicate, List.length_replicate] at hlen
    exact absurd hlen (by decide)
  obtain ⟨codec, received, d, hdecode, hreceived⟩ := shifted_of_drives zstdDecompress_drives
  obtain ⟨codec', received', d', hdecode', hreceived'⟩ := shifted_of_drives lz4Decompress_drives
  exact ⟨⟨codec, received, d, hdecode, hreceived ▸ hne, hreceived⟩,
    ⟨codec', received', d', hdecode', hreceived' ▸ hne, hreceived'⟩⟩

end Dicker.Server
