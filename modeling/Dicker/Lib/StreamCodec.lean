import Mathlib

/-! Streaming decoders by their contract. A call takes some of the input and puts out some of
what has been decoded; it may keep decoded bytes for later calls, but only after it has filled
the output buffer. -/

namespace Lib
variable {α : Type}

structure Decoding (α : Type) where
  decoded : List α → List α
  mono : ∀ w z, decoded w <+: decoded (w ++ z)

def Decoding.fresh (m : Decoding α) (w z : List α) : List α :=
  (m.decoded (w ++ z)).drop (m.decoded w).length

section
variable (m : Decoding α) (w y z : List α)

theorem Decoding.decoded_append : m.decoded (w ++ z) = m.decoded w ++ m.fresh w z := by
  obtain ⟨rest, hrest⟩ := m.mono w z
  unfold fresh
  rw [← hrest, List.drop_left]

theorem Decoding.fresh_nil : m.fresh w [] = [] := by
  unfold fresh
  rw [List.append_nil, List.drop_length]

theorem Decoding.fresh_append : m.fresh w (y ++ z) = m.fresh w y ++ m.fresh (w ++ y) z := by
  have hwhole := m.decoded_append w (y ++ z)
  rw [← List.append_assoc, m.decoded_append (w ++ y) z, m.decoded_append w y,
    List.append_assoc] at hwhole
  exact (List.append_cancel_left hwhole).symm

end

/-- The contract of one call: from what the decoder has taken and holds before it, the input and the
capacity, to what it takes, puts out and holds. -/
structure Answer (m : Decoding α) (wire held input : List α) (cap taken : ℕ)
    (out wire' held' : List α) :
    Prop where
  taken_le : taken ≤ input.length
  out_le : out.length ≤ cap
  wire_eq : wire' = wire ++ input.take taken
  out_eq : out ++ held' = held ++ m.fresh wire (input.take taken)
  flushed : out.length < cap → held' = []

structure Codec (m : Decoding α) where
  State : Type
  start : State
  call : State → List α → ℕ → Option (State × ℕ × List α)
  /-- What it has taken so far. -/
  wire : State → List α
  /-- What it has decoded and not put out. -/
  held : State → List α
  wire_start : wire start = []
  held_start : held start = []
  answer : ∀ {s input cap s' n out}, call s input cap = some (s', n, out) →
    Answer m (wire s) (held s) input cap n out (wire s') (held s')

def eager (m : Decoding α) : Codec m where
  State := List α × List α
  start := ([], [])
  call s input cap := some ((s.1 ++ input, (s.2 ++ m.fresh s.1 input).drop cap), input.length,
    (s.2 ++ m.fresh s.1 input).take cap)
  wire := Prod.fst
  held := Prod.snd
  wire_start := rfl
  held_start := rfl
  answer := by
    intro s input cap s' n out hcall
    cases hcall
    refine ⟨le_rfl, List.length_take_le _ _, ?_, ?_, fun hlt => ?_⟩
    · rw [List.take_length]
    · rw [List.take_append_drop, List.take_length]
    · rw [List.length_take] at hlt
      exact List.drop_eq_nil_of_le (by omega)

end Lib
