import Dicker.Lib.Loop

/-! A program on a known stream against one that reads nothing. `Sim` follows the
first through its reads and asks the second for the same calls in the same order;
for a machine it is enough that every round is followed. -/

namespace Lib

namespace Program
variable {Op : Type} {Ans : Op → Type} {α β γ σ : Type} {xs : List UInt8} {q : Program Op Ans β}

/-- `p`, on the stream `xs`, makes the calls `q` makes, and what they are left with
is related by `Q`. -/
def Sim (Q : α → List UInt8 → Program Op Ans β → Prop) :
    Program Op Ans α → List UInt8 → Program Op Ans β → Prop
  | ret a, xs, q => Q a xs q
  | read n k, xs, q =>
    if n ≤ xs.length then (k (some (xs.take n))).Sim Q (xs.drop n) q else (k none).Sim Q [] q
  | call op k, xs, q => ∃ k', q = call op k' ∧ ∀ b, (k b).Sim Q xs (k' b)

variable {Q : α → List UInt8 → Program Op Ans β → Prop}

@[simp] theorem sim_ret (a : α) (xs : List UInt8) (q : Program Op Ans β) :
    (ret a).Sim Q xs q ↔ Q a xs q := Iff.rfl

theorem sim_read_of_le {n : ℕ} (hn : n ≤ xs.length) (k : Option (List UInt8) → Program Op Ans α)
    (q : Program Op Ans β) :
    (read n k).Sim Q xs q ↔ (k (some (xs.take n))).Sim Q (xs.drop n) q := by
  rw [Sim, if_pos hn]

theorem sim_read_of_lt {n : ℕ} (hn : xs.length < n) (k : Option (List UInt8) → Program Op Ans α)
    (q : Program Op Ans β) : (read n k).Sim Q xs q ↔ (k none).Sim Q [] q := by
  rw [Sim, if_neg (Nat.not_le.mpr hn)]

@[simp] theorem sim_call (op : Op) (k : Ans op → Program Op Ans α)
    (k' : Ans op → Program Op Ans β) (xs : List UInt8) :
    (call op k).Sim Q xs (call op k') ↔ ∀ b, (k b).Sim Q xs (k' b) := by
  constructor
  · rintro ⟨k₁, hk, hs⟩
    cases hk
    exact hs
  · intro hs
    exact ⟨k', rfl, hs⟩

theorem Sim.mono {Q' : α → List UInt8 → Program Op Ans β → Prop} {p : Program Op Ans α}
    (hp : p.Sim Q xs q) (hQ : ∀ a ys q, Q a ys q → Q' a ys q) : p.Sim Q' xs q := by
  induction p generalizing xs q with
  | ret a => exact hQ a xs q hp
  | read n k ih =>
    rcases Nat.lt_or_ge xs.length n with hn | hn
    · rw [sim_read_of_lt hn] at hp ⊢
      exact ih none hp
    · rw [sim_read_of_le hn] at hp ⊢
      exact ih _ hp
  | call op k ih =>
    obtain ⟨k', rfl, hk⟩ := hp
    exact ⟨k', rfl, fun b => ih b (hk b)⟩

theorem Sim.bind {p : Program Op Ans γ} {f : γ → Program Op Ans α}
    (hp : p.Sim (fun c ys q' => (f c).Sim Q ys q') xs q) : (p >>= f).Sim Q xs q := by
  induction p generalizing xs q with
  | ret c => exact hp
  | read n k ih =>
    rw [read_bind]
    rcases Nat.lt_or_ge xs.length n with hn | hn
    · rw [sim_read_of_lt hn] at hp ⊢
      exact ih none hp
    · rw [sim_read_of_le hn] at hp ⊢
      exact ih _ hp
  | call op k ih =>
    obtain ⟨k', rfl, hk⟩ := hp
    exact ⟨k', rfl, fun b => ih b (hk b)⟩

def calls : List (Entry Op Ans) → List (Entry Op Ans)
  | [] => []
  | .got _ :: t => calls t
  | .did op a :: t => .did op a :: calls t

@[simp] theorem calls_nil : calls ([] : List (Entry Op Ans)) = [] := rfl

@[simp] theorem calls_got (z : List UInt8) (t : List (Entry Op Ans)) :
    calls (.got z :: t) = calls t := rfl

@[simp] theorem calls_did (op : Op) (a : Ans op) (t : List (Entry Op Ans)) :
    calls (.did op a :: t) = .did op a :: calls t := rfl

theorem calls_append (t u : List (Entry Op Ans)) : calls (t ++ u) = calls t ++ calls u := by
  induction t with
  | nil => rfl
  | cons e t ih => cases e <;> simp [ih]

theorem filterMap_calls {f : Entry Op Ans → Option γ} (hf : ∀ z, f (.got z) = none)
    (t : List (Entry Op Ans)) : (calls t).filterMap f = t.filterMap f := by
  induction t with
  | nil => rfl
  | cons x t ih =>
    cases x with
    | got z => rw [calls_got, ih, List.filterMap_cons_none (hf z)]
    | did op a => rw [calls_did, List.filterMap_cons, List.filterMap_cons, ih]

theorem emitted_calls (emits : Op → List UInt8) (t : List (Entry Op Ans)) :
    emitted emits (calls t) = emitted emits t := by
  induction t with
  | nil => rfl
  | cons x t ih =>
    cases x with
    | got z => exact ih
    | did op a => rw [calls_did, emitted, emitted, ih]

theorem Sim.run {p : Program Op Ans α} (hp : p.Sim Q xs q)
    (h : (op : Op) → σ → Ans op × σ) (s : σ) :
    ∃ q', Q (p.run h s xs).val (p.run h s xs).rest q' ∧
      q.run h s [] = (q'.run h (p.run h s xs).env []).after (calls (p.run h s xs).trace) := by
  induction p generalizing xs q s with
  | ret a => exact ⟨q, hp, rfl⟩
  | read n k ih =>
    rcases Nat.lt_or_ge xs.length n with hn | hn
    · rw [sim_read_of_lt hn] at hp
      rw [run_read_of_lt h hn]
      exact ih none hp s
    · rw [sim_read_of_le hn] at hp
      rw [run_read_of_le h hn]
      exact ih _ hp s
  | call op k ih =>
    obtain ⟨k', rfl, hk⟩ := hp
    obtain ⟨q', hQ, hrun⟩ := ih _ (hk (h op s).1) (h op s).2
    refine ⟨q', hQ, ?_⟩
    rw [run_call, run_call, hrun]
    simp only [Outcome.after_after, Outcome.after_trace, Outcome.after_env]
    rfl

end Program

namespace Machine
open Program
variable {Op : Type} {Ans : Op → Type} {β σ S R : Type} {xs : List UInt8} {q : Program Op Ans β}

theorem eval_sim (m : Machine Op Ans S R) {I : S → List UInt8 → Program Op Ans β → Prop}
    {P : R → List UInt8 → β → Prop}
    (hbody : ∀ st xs q, I st xs q → (m.body st).Sim (fun v rest q' => match v with
      | .again st' => I st' rest q'
      | .done r => ∃ b, q' = ret b ∧ P r rest b) xs q) (h : (op : Op) → σ → Ans op × σ) {st : S}
    (hI : I st xs q) (s : σ) :
    P (m.eval h st s xs).val (m.eval h st s xs).rest (q.run h s []).val ∧
      (m.eval h st s xs).env = (q.run h s []).env ∧
      calls (m.eval h st s xs).trace = (q.run h s []).trace := by
  induction hn : xs.length using Nat.strong_induction_on generalizing st xs q s with
  | _ n ih =>
    obtain ⟨q', hQ, hrun⟩ := (hbody st xs q hI).run h s
    cases hv : ((m.body st).run h s xs).val with
    | done r =>
      rw [hv] at hQ
      obtain ⟨b, rfl, hP⟩ := hQ
      rw [eval_done m h hv, hrun]
      exact ⟨hP, rfl, (List.append_nil _).symm⟩
    | again st' =>
      rw [hv] at hQ
      have hlt := (m.productive st).rest_lt h hv
      obtain ⟨hP, henv, htrace⟩ := ih _ (by omega) hQ ((m.body st).run h s xs).env rfl
      rw [eval_again m h hv, hrun]
      refine ⟨hP, henv, ?_⟩
      rw [Outcome.after_trace, Outcome.after_trace, calls_append, htrace]

end Machine
end Lib
