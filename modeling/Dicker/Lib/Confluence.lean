import Mathlib

/-! Systems whose steps commute. If two different steps from a state always meet again
after one step each, then one complete run says everything about all runs: each of
them can be completed, to the same end, and none is longer. -/

namespace Lib
open Relation
variable {α : Type} {R : α → α → Prop}

def Diamond (R : α → α → Prop) : Prop :=
  ∀ x y z, R x y → R x z → y = z ∨ ∃ w, R y w ∧ R z w

def Stuck (R : α → α → Prop) (x : α) : Prop := ∀ y, ¬R x y

inductive Steps (R : α → α → Prop) : ℕ → α → α → Prop where
  | refl (x : α) : Steps R 0 x x
  | head {n : ℕ} {x y z : α} (hxy : R x y) (hyz : Steps R n y z) : Steps R (n + 1) x z

variable {x z y : α} {n : ℕ}

theorem Steps.of_reflTransGen (h : ReflTransGen R x z) : ∃ n, Steps R n x z := by
  induction h using ReflTransGen.head_induction_on with
  | refl => exact ⟨0, .refl z⟩
  | head hxy _ ih =>
    obtain ⟨n, hn⟩ := ih
    exact ⟨n + 1, .head hxy hn⟩

theorem Steps.reflTransGen (h : Steps R n x z) : ReflTransGen R x z := by
  induction h with
  | refl x => exact .refl
  | head hxy _ ih => exact .head hxy ih

theorem Steps.eq_of_stuck (h : Steps R n x z) (hx : Stuck R x) : z = x := by
  cases h with
  | refl => rfl
  | head hxy _ => exact absurd hxy (hx _)

theorem Steps.tail (hR : Diamond R) (h : Steps R n x z) (hz : Stuck R z) (hxy : R x y) :
    ∃ m, n = m + 1 ∧ Steps R m y z := by
  induction h generalizing y with
  | refl x => exact absurd hxy (hz y)
  | @head n x x' z hxx' hrest ih =>
    rcases hR x y x' hxy hxx' with rfl | ⟨w, hyw, hxw⟩
    · exact ⟨n, rfl, hrest⟩
    · obtain ⟨m, rfl, hm⟩ := ih hz hxw
      exact ⟨m + 1, rfl, .head hyw hm⟩

theorem Steps.complete (hR : Diamond R) (h : Steps R n x z) (hz : Stuck R z)
    (hxy : ReflTransGen R x y) : ∃ m ≤ n, Steps R m y z := by
  induction hxy with
  | refl => exact ⟨n, le_rfl, h⟩
  | tail _ hstep ih =>
    obtain ⟨m, hm, hsteps⟩ := ih
    obtain ⟨m', rfl, hsteps'⟩ := hsteps.tail hR hz hstep
    exact ⟨m', by omega, hsteps'⟩

theorem Steps.le_of_steps (hR : Diamond R) {m : ℕ} (h : Steps R n x z) (hz : Stuck R z)
    (hxy : Steps R m x y) : m ≤ n := by
  induction hxy generalizing n with
  | refl x => exact Nat.zero_le n
  | head hstep _ ih =>
    obtain ⟨n', rfl, hn'⟩ := h.tail hR hz hstep
    exact Nat.succ_le_succ (ih hn')

end Lib
