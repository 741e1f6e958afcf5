import Dicker.Client.Stream
import Dicker.Lib.StoredFrame

/-! The two stream compressors (client/compressor.h). A method returns the size of its output,
and 0 on an error; the worker cannot tell that from having no output yet. -/

namespace Dicker.Client
open Lib

/-- One call of a method: how much of its input the library took, what it put into the output
buffer, and whether the method returned 0 for an error. -/
structure EncoderCall where
  taken : ℕ
  made : Bytes
  failed : Bool

def EncoderCall.returned (c : EncoderCall) : Bytes := if c.failed then [] else c.made

structure Encoder where
  State : Type
  update : State → Bytes → EncoderCall × State
  flush : State → EncoderCall × State
  taken_update : ∀ s input, (update s input).1.failed = false →
    (update s input).1.taken = input.length
  taken_flush : ∀ s, (flush s).1.taken = 0

def Encoder.compressor (enc : Encoder) : StreamCompressor where
  State := enc.State
  update s input := ((enc.update s input).1.returned, (enc.update s input).2)
  flush s := ((enc.flush s).1.returned, (enc.flush s).2)

/-! ## Zstd -/

/-- `ZSTD_compressStream2` as documented: with `ZSTD_e_continue` it takes some input and puts out
some output, with `ZSTD_e_flush` it puts out what it holds and tells how much is left, and each
call makes progress if there is room. It may also report an error. -/
structure Zstd where
  State : Type
  compress : State → (input : Bytes) → (room : ℕ) → Option (ℕ × Bytes) × State
  flush : State → (room : ℕ) → Option (ℕ × Bytes) × State
  taken_le : ∀ {s input room n out s'}, compress s input room = (some (n, out), s') →
    n ≤ input.length
  compress_progress : ∀ {s input room n out s'}, compress s input room = (some (n, out), s') →
    input ≠ [] → 0 < room → 0 < n ∨ out ≠ []
  flush_progress : ∀ {s room left out s'}, flush s room = (some (left, out), s') →
    left ≠ 0 → 0 < room → out ≠ []

section
variable (z : Zstd)

/-- The loop of `ZstdCompressor::update`. -/
def zstdUpdateLoop (s : z.State) (input : Bytes) (room taken : ℕ) (made : Bytes) :
    EncoderCall × z.State :=
  if input = [] then (⟨taken, made, false⟩, s)
  else match _hcall : z.compress s input room with
    | (none, s') => (⟨taken, made, true⟩, s')
    | (some (n, out), s') =>
      if room - out.length = 0 ∧ n < input.length then (⟨taken + n, made ++ out, true⟩, s')
      else zstdUpdateLoop s' (input.drop n) (room - out.length) (taken + n) (made ++ out)
termination_by input.length + room
decreasing_by
  rename_i hinput hroom
  have hpos := List.length_pos_iff.mpr hinput
  rw [List.length_drop]
  rcases Nat.eq_zero_or_pos n with hn | hn
  · have hprogress := z.compress_progress _hcall hinput (by omega)
    have hout := List.length_pos_iff.mpr (hprogress.resolve_left (by omega))
    omega
  · omega

/-- The loop of `ZstdCompressor::flush`. -/
def zstdFlushLoop (s : z.State) (room : ℕ) (made : Bytes) : EncoderCall × z.State :=
  match _hcall : z.flush s room with
  | (none, s') => (⟨0, made, true⟩, s')
  | (some (left, out), s') =>
    if left = 0 then (⟨0, made ++ out, false⟩, s')
    else if room - out.length = 0 then (⟨0, made ++ out, true⟩, s')
    else zstdFlushLoop s' (room - out.length) (made ++ out)
termination_by room
decreasing_by
  rename_i hleft hroom
  have hout := List.length_pos_iff.mpr (z.flush_progress _hcall hleft (by omega))
  omega

theorem zstdUpdateLoop_taken (s : z.State) (input : Bytes) (room taken : ℕ) (made : Bytes)
    (hok : (zstdUpdateLoop z s input room taken made).1.failed = false) :
    (zstdUpdateLoop z s input room taken made).1.taken = taken + input.length := by
  induction s, input, room, taken, made using zstdUpdateLoop.induct z with
  | case1 s room taken made => rw [zstdUpdateLoop, if_pos rfl, List.length_nil, Nat.add_zero]
  | case2 s input room taken made hinput s' hcall =>
    rw [zstdUpdateLoop, if_neg hinput] at hok
    split at hok <;> simp_all
  | case3 s input room taken made hinput n out s' hcall hroom =>
    rw [zstdUpdateLoop, if_neg hinput] at hok
    split at hok <;> simp_all
  | case4 s input room taken made hinput n out s' hcall hroom ih =>
    have hstep : zstdUpdateLoop z s input room taken made =
        zstdUpdateLoop z s' (input.drop n) (room - out.length) (taken + n) (made ++ out) := by
      rw [zstdUpdateLoop, if_neg hinput]
      split
      · simp_all
      · rename_i hcall'
        cases hcall.symm.trans hcall'
        rw [if_neg hroom]
    have hn := z.taken_le hcall
    rw [hstep] at hok ⊢
    rw [ih hok, List.length_drop]
    omega

theorem zstdFlushLoop_taken (s : z.State) (room : ℕ) (made : Bytes) :
    (zstdFlushLoop z s room made).1.taken = 0 := by
  fun_induction zstdFlushLoop z s room made with
  | case1 => rfl
  | case2 => rfl
  | case3 => rfl
  | case4 _ _ _ _ _ _ _ _ _ ih => exact ih

/-- `ZstdCompressor::update` with the worker's output buffer. -/
def zstdUpdate (s : z.State) (input : Bytes) : EncoderCall × z.State :=
  zstdUpdateLoop z s input OUT_BUF_SIZE 0 []

def zstdFlush (s : z.State) : EncoderCall × z.State := zstdFlushLoop z s OUT_BUF_SIZE []

theorem zstdUpdate_taken (s : z.State) (input : Bytes)
    (hok : (zstdUpdate z s input).1.failed = false) :
    (zstdUpdate z s input).1.taken = input.length := by
  unfold zstdUpdate at hok ⊢
  rw [zstdUpdateLoop_taken z s input _ 0 [] hok, Nat.zero_add]

theorem zstdFlush_taken (s : z.State) : (zstdFlush z s).1.taken = 0 := by
  unfold zstdFlush
  exact zstdFlushLoop_taken z s _ []

def zstdEncoder : Encoder where
  State := z.State
  update := zstdUpdate z
  flush := zstdFlush z
  taken_update := zstdUpdate_taken z
  taken_flush := zstdFlush_taken z

end

/-! ## LZ4 -/

/-- `LZ4F_compressBegin`, `LZ4F_compressUpdate` and `LZ4F_flush`; each may report an error. -/
structure Lz4 where
  State : Type
  compressBegin : State → (room : ℕ) → Option Bytes × State
  compressUpdate : State → (input : Bytes) → (room : ℕ) → Option Bytes × State
  flush : State → (room : ℕ) → Option Bytes × State

section
variable (l : Lz4)

structure Lz4Context where
  cctx : l.State
  started : Bool

/-- The part of `Lz4Compressor::update` after the frame header. -/
def lz4Body (s : l.State) (input header : Bytes) : EncoderCall × Lz4Context l :=
  match l.compressUpdate s input (OUT_BUF_SIZE - header.length) with
  | (none, s') => (⟨0, header, true⟩, ⟨s', true⟩)
  | (some body, s') => (⟨input.length, header ++ body, false⟩, ⟨s', true⟩)

def lz4Update (s : Lz4Context l) (input : Bytes) : EncoderCall × Lz4Context l :=
  if s.started then lz4Body l s.cctx input []
  else match l.compressBegin s.cctx OUT_BUF_SIZE with
    | (none, s') => (⟨0, [], true⟩, ⟨s', false⟩)
    -- from here on the context counts as started, even if the body fails and the header is lost
    | (some header, s') => lz4Body l s' input header

def lz4Flush (s : Lz4Context l) : EncoderCall × Lz4Context l :=
  match l.flush s.cctx OUT_BUF_SIZE with
  | (none, s') => (⟨0, [], true⟩, ⟨s', s.started⟩)
  | (some flushed, s') => (⟨0, flushed, false⟩, ⟨s', s.started⟩)

theorem lz4Body_taken (s : l.State) (input header : Bytes)
    (hok : (lz4Body l s input header).1.failed = false) :
    (lz4Body l s input header).1.taken = input.length := by
  unfold lz4Body at hok ⊢
  split at hok
  · cases hok
  · rfl

theorem lz4Update_taken (s : Lz4Context l) (input : Bytes)
    (hok : (lz4Update l s input).1.failed = false) :
    (lz4Update l s input).1.taken = input.length := by
  unfold lz4Update at hok ⊢
  split_ifs at hok ⊢
  · exact lz4Body_taken l _ input _ hok
  · split at hok
    · cases hok
    · exact lz4Body_taken l _ input _ hok

def lz4Encoder : Encoder where
  State := Lz4Context l
  update := lz4Update l
  flush := lz4Flush l
  taken_update := lz4Update_taken l
  taken_flush s := by
    unfold lz4Flush
    split <;> rfl

end

/-- LZ4 on blocks that it stores, one at each flush. -/
def storedBlocks : Lz4 where
  State := Bytes
  compressBegin s _ := (some lz4Frame.magic, s)
  compressUpdate s input _ := (some [], s ++ input)
  flush s _ := (some (if s = [] then [] else lz4Frame.block s), [])

def storedLz4 : Encoder := lz4Encoder storedBlocks

def unstarted : storedLz4.State := (⟨[], false⟩ : Lz4Context storedBlocks)

/-! ## The calls for one unit -/

def Encoder.calls (enc : Encoder) (e : enc.State) : List Bytes → List EncoderCall
  | [] => [(enc.flush e).1]
  | data :: blocks => (enc.update e data).1 :: enc.calls (enc.update e data).2 blocks

theorem Encoder.outputs_flatten (enc : Encoder) (e : enc.State) (blocks : List Bytes) :
    (outputs enc.compressor e blocks).1.flatten =
    (enc.calls e blocks).flatMap EncoderCall.returned := by
  induction blocks generalizing e with
  | nil => exact (nonempty_flatten _).trans (List.append_nil _).symm
  | cons data blocks ih =>
    change (nonempty (enc.update e data).1.returned ++
      (outputs enc.compressor (enc.update e data).2 blocks).1).flatten = _
    rw [List.flatten_append, nonempty_flatten, ih]
    rfl

theorem flatMap_returned {calls : List EncoderCall} (hok : ∀ c ∈ calls, c.failed = false) :
    calls.flatMap EncoderCall.returned = calls.flatMap EncoderCall.made := by
  unfold List.flatMap
  congr 1
  refine List.map_congr_left fun c hc => ?_
  unfold EncoderCall.returned
  rw [hok c hc]
  rfl

theorem Encoder.calls_taken (enc : Encoder) (e : enc.State) (blocks : List Bytes)
    (hok : ∀ c ∈ enc.calls e blocks, c.failed = false) :
    ((enc.calls e blocks).map EncoderCall.taken).sum = blocks.flatten.length := by
  induction blocks generalizing e with
  | nil => exact enc.taken_flush e
  | cons data blocks ih =>
    rw [calls, List.map_cons, List.sum_cons, ih _ fun c hc => hok c (List.mem_cons_of_mem _ hc),
      enc.taken_update e data (hok _ List.mem_cons_self), List.flatten_cons, List.length_append]

end Dicker.Client
