import Mathlib

/-! Infinite runs in which one of several parties is not put off for ever. A rank that its steps
lower, and the others keep, leads to where it has nothing left to do. -/

namespace Lib
variable {σ : Type}

structure Behaviour (step : σ → σ → Prop) where
  state : ℕ → σ
  next : ∀ i, step (state i) (state (i + 1)) ∨ state (i + 1) = state i

namespace Behaviour
variable {step act : σ → σ → Prop}

/-- A party that can act from some moment on acts some time. -/
def Fair (b : Behaviour step) (act : σ → σ → Prop) : Prop :=
  ∀ i, (∀ j ≥ i, ∃ s, act (b.state j) s) → ∃ j ≥ i, act (b.state j) (b.state (j + 1))

theorem always {P : σ → Prop} (b : Behaviour step) (hstep : ∀ s s', P s → step s s' → P s')
    {i j : ℕ} (hij : i ≤ j) (hi : P (b.state i)) : P (b.state j) := by
  induction j, hij using Nat.le_induction with
  | base => exact hi
  | succ j _ ih =>
    rcases b.next j with hnext | hidle
    · exact hstep _ _ ih hnext
    · rwa [hidle]

theorem leads {R : σ → ℕ → Prop} {Q : σ → Prop} (b : Behaviour step) (hfair : b.Fair act)
    (hstep : ∀ s s' n, R s n → step s s' → ∃ m ≤ n, R s' m)
    (hact : ∀ s s' n, R s n → act s s' → ∃ m < n, R s' m)
    (hsome : ∀ s n, R s n → ¬Q s → ∃ s', act s s') {n i : ℕ} (hi : R (b.state i) n) :
    ∃ j ≥ i, Q (b.state j) := by
  induction n using Nat.strong_induction_on generalizing i with
  | _ n ih =>
    have hranked : ∀ j ≥ i, ∃ m ≤ n, R (b.state j) m := by
      refine fun j hj => b.always (P := fun s => ∃ m ≤ n, R s m)
        (fun s s' hs hnext => ?_) hj ⟨n, le_rfl, hi⟩
      obtain ⟨m, hm, hs⟩ := hs
      obtain ⟨m', hm', hs'⟩ := hstep s s' m hs hnext
      exact ⟨m', hm'.trans hm, hs'⟩
    by_contra hnever
    have hable : ∀ j ≥ i, ∃ s, act (b.state j) s := by
      intro j hj
      obtain ⟨m, -, hm⟩ := hranked j hj
      exact hsome _ m hm fun hQ => hnever ⟨j, hj, hQ⟩
    obtain ⟨j, hj, hacts⟩ := hfair i hable
    obtain ⟨m, hm, hrank⟩ := hranked j hj
    obtain ⟨m', hm', hrank'⟩ := hact _ _ m hrank hacts
    obtain ⟨l, hl, hQ⟩ := ih m' (hm'.trans_le hm) hrank'
    exact hnever ⟨l, (hj.trans (Nat.le_succ j)).trans hl, hQ⟩

theorem exists_of_run {s s' : σ} (h : Relation.ReflTransGen step s s') :
    ∃ (b : Behaviour step) (n : ℕ), b.state 0 = s ∧ ∀ i ≥ n, b.state i = s' := by
  induction h using Relation.ReflTransGen.head_induction_on with
  | refl => exact ⟨⟨fun _ => s', fun _ => .inr rfl⟩, 0, rfl, fun _ _ => rfl⟩
  | @head s mid hstep _ ih =>
    obtain ⟨b, n, rfl, hend⟩ := ih
    refine ⟨⟨fun i => if i = 0 then s else b.state (i - 1), fun i => ?_⟩, n + 1,
      rfl, fun i hi => ?_⟩
    · cases i with
      | zero => exact .inl hstep
      | succ i => exact b.next i
    · cases i with
      | zero => exact absurd hi (Nat.not_succ_le_zero n)
      | succ i => exact hend i (Nat.le_of_succ_le_succ hi)

end Behaviour
end Lib
