import Dicker.Lib.Program

/-! Loops of programs. A machine runs its body from loop head to loop head; the
body may not come back to a head without having read a byte, which is what makes
the loop end on every finite stream. `wp` is the rule for one round: it
quantifies over every answer and over every outcome of a read. -/

namespace Lib

inductive Next (S R : Type) where
  | again (s : S)
  | done (r : R)

namespace Program
variable {Op : Type} {Ans : Op → Type} {α β σ S R : Type} {st : S} {s : σ} {xs : List UInt8}

/-! ## Demonic preconditions -/

def wp : Program Op Ans α → (α → List (Entry Op Ans) → Prop) → Prop
  | ret a, Q => Q a []
  | read n k, Q =>
    (∀ z, z.length = n → (k (some z)).wp fun a t => Q a (.got z :: t)) ∧ (k none).wp Q
  | call op k, Q => ∀ b, (k b).wp fun a t => Q a (.did op b :: t)

@[simp] theorem wp_ret (a : α) (Q : α → List (Entry Op Ans) → Prop) :
    (ret a : Program Op Ans α).wp Q = Q a [] := rfl

@[simp] theorem wp_read (n : ℕ) (k : Option (List UInt8) → Program Op Ans α)
    (Q : α → List (Entry Op Ans) → Prop) :
    (read n k).wp Q = ((∀ z, z.length = n → (k (some z)).wp fun a t => Q a (.got z :: t)) ∧
      (k none).wp Q) := rfl

@[simp] theorem wp_call (op : Op) (k : Ans op → Program Op Ans α)
    (Q : α → List (Entry Op Ans) → Prop) :
    (call op k).wp Q = ∀ b, (k b).wp fun a t => Q a (.did op b :: t) := rfl

variable {Q : α → List (Entry Op Ans) → Prop} {p : Program Op Ans α}

theorem wp_mono {Q' : α → List (Entry Op Ans) → Prop} (hp : p.wp Q) (hQ : ∀ a t, Q a t → Q' a t) :
    p.wp Q' := by
  induction p generalizing Q Q' with
  | ret a => exact hQ a [] hp
  | read n k ih =>
    exact ⟨fun z hz => ih (some z) (hp.1 z hz) fun a t => hQ a _, ih none hp.2 hQ⟩
  | call op k ih => exact fun b => ih b (hp b) fun a t => hQ a _

theorem wp_of_forall (p : Program Op Ans α) (hQ : ∀ a t, Q a t) : p.wp Q := by
  induction p generalizing Q with
  | ret a => exact hQ a []
  | read n k ih => exact ⟨fun z _ => ih (some z) fun a t => hQ a _, ih none hQ⟩
  | call op k ih => exact fun b => ih b fun a t => hQ a _

theorem wp_bind {f : α → Program Op Ans β} {Q : β → List (Entry Op Ans) → Prop}
    (hp : p.wp fun a t => (f a).wp fun b u => Q b (t ++ u)) : (p >>= f).wp Q := by
  induction p generalizing Q with
  | ret a => exact hp
  | read n k ih => exact ⟨fun z hz => ih (some z) (hp.1 z hz), ih none hp.2⟩
  | call op k ih => exact fun b => ih b (hp b)

theorem wp_run (h : (op : Op) → σ → Ans op × σ) (hp : p.wp Q) (s : σ) (xs : List UInt8) :
    Q (p.run h s xs).val (p.run h s xs).trace := by
  induction p generalizing Q s xs with
  | ret a => exact hp
  | read n k ih =>
    rw [run_read]
    split_ifs with hn
    · exact ih _ (hp.1 _ (List.length_take_of_le hn)) s (xs.drop n)
    · exact ih none hp.2 s []
  | call op k ih => exact ih _ (hp _) _ xs

/-! ## Rounds that read -/

def Productive : Program Op Ans (Next S R) → Prop
  | ret (.again _) => False
  | ret (.done _) => True
  | read n k => 0 < n ∧ (k none).Productive
  | call _ k => ∀ b, (k b).Productive

theorem Productive.rest_lt {p : Program Op Ans (Next S R)} (hp : p.Productive)
    (h : (op : Op) → σ → Ans op × σ) (hv : (p.run h s xs).val = .again st) :
    (p.run h s xs).rest.length < xs.length := by
  induction p generalizing s xs with
  | ret a =>
    cases a with
    | again _ => exact hp.elim
    | done _ => exact absurd hv (by simp)
  | read n k ih =>
    rw [run_read] at hv ⊢
    split_ifs at hv ⊢ with hn
    · have hle := run_rest_length_le h (k (some (xs.take n))) s (xs.drop n)
      rw [List.length_drop] at hle
      have h0 : 0 < n := hp.1
      simp only [Outcome.after_rest]
      omega
    · exact absurd (ih none hp.2 hv) (by simp)
  | call op k ih => exact ih _ (hp _) hv

end Program

/-! ## Machines -/

structure Machine (Op : Type) (Ans : Op → Type) (S R : Type) where
  body : S → Program Op Ans (Next S R)
  productive : ∀ st, (body st).Productive

namespace Machine
open Program
variable {Op : Type} {Ans : Op → Type} {σ S R : Type} {st : S} {s : σ} {xs : List UInt8}

def loop (m : Machine Op Ans S R) (h : (op : Op) → σ → Ans op × σ) :
    ℕ → S → σ → List UInt8 → Option (Outcome σ Op Ans R)
  | 0, _, _, _ => none
  | n + 1, st, s, xs =>
    let o := (m.body st).run h s xs
    match o.val with
    | .done r => some ⟨r, o.env, o.rest, o.trace⟩
    | .again st' => (m.loop h n st' o.env o.rest).map (·.after o.trace)

variable (m : Machine Op Ans S R) (h : (op : Op) → σ → Ans op × σ)

variable {n : ℕ} {r : R} {st' : S} {t : List (Entry Op Ans)} {s' : σ} {y : List UInt8}

theorem loop_succ_done (hv : ((m.body st).run h s xs).val = .done r) :
    m.loop h (n + 1) st s xs = some ⟨r, ((m.body st).run h s xs).env,
      ((m.body st).run h s xs).rest, ((m.body st).run h s xs).trace⟩ := by
  simp only [loop, hv]

theorem loop_succ_again (hv : ((m.body st).run h s xs).val = .again st') :
    m.loop h (n + 1) st s xs =
      (m.loop h n st' ((m.body st).run h s xs).env ((m.body st).run h s xs).rest).map
        (·.after ((m.body st).run h s xs).trace) := by
  simp only [loop, hv]

theorem loop_isSome (st : S) (s : σ) (hn : xs.length < n) : (m.loop h n st s xs).isSome := by
  induction n generalizing st s xs with
  | zero => omega
  | succ n ih =>
    cases hv : ((m.body st).run h s xs).val with
    | done r => rw [loop_succ_done m h hv]; rfl
    | again st' =>
      have hlt := (m.productive st).rest_lt h hv
      rw [loop_succ_again m h hv, Option.isSome_map]
      exact ih st' _ (by omega)

theorem loop_mono {k : ℕ} {o : Outcome σ Op Ans R} (ho : m.loop h n st s xs = some o) :
    m.loop h (n + k) st s xs = some o := by
  induction n generalizing st s xs o with
  | zero => exact absurd ho (by simp [loop])
  | succ n ih =>
    rw [Nat.add_right_comm]
    cases hv : ((m.body st).run h s xs).val with
    | done r =>
      rw [loop_succ_done m h hv] at ho ⊢
      exact ho
    | again st' =>
      rw [loop_succ_again m h hv] at ho ⊢
      obtain ⟨o', ho', rfl⟩ := Option.map_eq_some_iff.mp ho
      rw [ih ho', Option.map_some]

def eval (st : S) (s : σ) (xs : List UInt8) : Outcome σ Op Ans R :=
  (m.loop h (xs.length + 1) st s xs).get (m.loop_isSome h st s (Nat.lt_succ_self _))

theorem loop_eq_eval (st : S) (s : σ) (hn : xs.length < n) :
    m.loop h n st s xs = some (m.eval h st s xs) := by
  obtain ⟨k, rfl⟩ : ∃ k, n = xs.length + 1 + k := ⟨n - (xs.length + 1), by omega⟩
  exact loop_mono m h (Option.some_get _).symm

theorem eval_done (hv : ((m.body st).run h s xs).val = .done r) :
    m.eval h st s xs = ⟨r, ((m.body st).run h s xs).env, ((m.body st).run h s xs).rest,
      ((m.body st).run h s xs).trace⟩ := by
  rw [← Option.some_inj, ← loop_eq_eval m h st s (Nat.lt_succ_self xs.length),
    loop_succ_done m h hv]

theorem eval_again (hv : ((m.body st).run h s xs).val = .again st') :
    m.eval h st s xs =
      (m.eval h st' ((m.body st).run h s xs).env ((m.body st).run h s xs).rest).after
        ((m.body st).run h s xs).trace := by
  have hlt := (m.productive st).rest_lt h hv
  rw [← Option.some_inj, ← loop_eq_eval m h st s (Nat.lt_succ_self xs.length),
    loop_succ_again m h hv, loop_eq_eval m h st' _ hlt, Option.map_some]

theorem eval_exec_done (hp : Exec h (m.body st) s y (.done r) s' t) (rest : List UInt8) :
    m.eval h st s (y ++ rest) = ⟨r, s', rest, t⟩ := by
  have hr := hp.run_eq rest
  rw [eval_done m h (by rw [hr]), hr]

theorem eval_exec_again (hp : Exec h (m.body st) s y (.again st') s' t) (rest : List UInt8) :
    m.eval h st s (y ++ rest) = (m.eval h st' s' rest).after t := by
  have hr := hp.run_eq rest
  rw [eval_again m h (by rw [hr]), hr]

inductive Rounds : S → σ → List UInt8 → S → σ → List (Entry Op Ans) → Prop where
  | refl (st : S) (s : σ) : Rounds st s [] st s []
  | step {st st' st'' : S} {s s' s'' : σ} {y y' : List UInt8} {t t' : List (Entry Op Ans)}
      (hp : Exec h (m.body st) s y (.again st') s' t) (hr : Rounds st' s' y' st'' s'' t') :
      Rounds st s (y ++ y') st'' s'' (t ++ t')

variable {m h}

theorem Rounds.single (hp : Exec h (m.body st) s y (.again st') s' t) :
    Rounds m h st s y st' s' t := by
  have hr := Rounds.step hp (.refl st' s')
  rwa [List.append_nil, List.append_nil] at hr

theorem Rounds.trans {st'' : S} {s'' : σ} {y' : List UInt8} {t' : List (Entry Op Ans)}
    (h1 : Rounds m h st s y st' s' t) (h2 : Rounds m h st' s' y' st'' s'' t') :
    Rounds m h st s (y ++ y') st'' s'' (t ++ t') := by
  induction h1 with
  | refl st s => exact h2
  | step hp _ ih =>
    rw [List.append_assoc, List.append_assoc]
    exact .step hp (ih h2)

theorem Rounds.eval_eq (hr : Rounds m h st s y st' s' t) (rest : List UInt8) :
    m.eval h st s (y ++ rest) = (m.eval h st' s' rest).after t := by
  induction hr with
  | refl st s => rfl
  | step hp _ ih =>
    rw [List.append_assoc, eval_exec_again m h hp, ih, Outcome.after_after]

variable (m h)

theorem eval_invariant {I : S → List (Entry Op Ans) → Prop} {P : List (Entry Op Ans) → Prop}
    (hbody : ∀ st t, I st t → (m.body st).wp fun v u => match v with
      | .again st' => I st' (t ++ u)
      | .done _ => P (t ++ u)) (hI : I st t) (s : σ) (xs : List UInt8) :
    P (t ++ (m.eval h st s xs).trace) := by
  induction hn : xs.length using Nat.strong_induction_on generalizing st t s xs with
  | _ n ih =>
    have hw := wp_run h (hbody st t hI) s xs
    cases hv : ((m.body st).run h s xs).val with
    | done r =>
      rw [hv] at hw
      rw [eval_done m h hv]
      exact hw
    | again st' =>
      rw [hv] at hw
      rw [eval_again m h hv, Outcome.after_trace, ← List.append_assoc]
      have hlt := (m.productive st).rest_lt h hv
      exact ih _ (by omega) hw _ _ rfl

end Machine
end Lib
