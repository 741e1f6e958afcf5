import Mathlib

/-! What happens on every run of a step relation, in whatever order its steps are taken. -/

namespace Lib
variable {σ ρ : Type}

/-- Every run comes to `Q`: none stops before, and none goes on for ever. -/
inductive Inevitable (step : σ → σ → Prop) (Q : σ → Prop) : σ → Prop where
  | now {s : σ} (h : Q s) : Inevitable step Q s
  | later {s : σ} (hsome : ∃ s', step s s') (hall : ∀ s', step s s' → Inevitable step Q s') :
      Inevitable step Q s

theorem Inevitable.of_rank {step : σ → σ → Prop} {Q I : σ → Prop} {lt : ρ → ρ → Prop}
    (hlt : WellFounded lt) (rank : σ → ρ) (hsome : ∀ s, I s → ¬Q s → ∃ s', step s s')
    (hkeep : ∀ s s', I s → step s s' → I s')
    (hsinks : ∀ s s', I s → ¬Q s → step s s' → ¬Q s' → lt (rank s') (rank s)) {s : σ} (hs : I s) :
    Inevitable step Q s := by
  generalize hr : rank s = r
  induction r using hlt.induction generalizing s with
  | _ r ih =>
    by_cases hQ : Q s
    · exact .now hQ
    refine .later (hsome s hs hQ) fun s' hstep => ?_
    by_cases hQ' : Q s'
    · exact .now hQ'
    · exact ih (rank s') (hr ▸ hsinks s s' hs hQ hstep hQ') (hkeep s s' hs hstep) rfl

end Lib
