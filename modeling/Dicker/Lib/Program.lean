import Mathlib

/-! Sequential programs over a byte stream. A program asks for an exact number
of bytes, or calls its environment, or returns; what the environment answers is
left open. `run` executes a program on a finite stream that is then closed,
`Exec` is the same execution when the stream never ends under it. -/

namespace Lib

inductive Program (Op : Type) (Ans : Op → Type) (α : Type) where
  | ret (a : α)
  | read (n : ℕ) (k : Option (List UInt8) → Program Op Ans α)
  | call (op : Op) (k : Ans op → Program Op Ans α)

inductive Entry (Op : Type) (Ans : Op → Type) where
  | got (bytes : List UInt8)
  | did (op : Op) (ans : Ans op)

def emitted {Op : Type} {Ans : Op → Type} (emits : Op → List UInt8) :
    List (Entry Op Ans) → List UInt8
  | [] => []
  | .got _ :: t => emitted emits t
  | .did op _ :: t => emits op ++ emitted emits t

theorem emitted_append {Op : Type} {Ans : Op → Type} (emits : Op → List UInt8)
    (t t' : List (Entry Op Ans)) :
    emitted emits (t ++ t') = emitted emits t ++ emitted emits t' := by
  induction t with
  | nil => rfl
  | cons x t ih =>
    cases x with
    | got z => exact ih
    | did op a => rw [List.cons_append, emitted, emitted, ih, List.append_assoc]

namespace Program
variable {Op : Type} {Ans : Op → Type} {α β σ : Type}

def bind : Program Op Ans α → (α → Program Op Ans β) → Program Op Ans β
  | ret a, f => f a
  | read n k, f => read n fun r => (k r).bind f
  | call op k, f => call op fun a => (k a).bind f

instance : Monad (Program Op Ans) where
  pure := ret
  bind := bind

def readExact (n : ℕ) : Program Op Ans (Option (List UInt8)) := read n ret

def perform (op : Op) : Program Op Ans (Ans op) := call op ret

@[simp] theorem pure_eq (a : α) : (pure a : Program Op Ans α) = ret a := rfl

@[simp] theorem ret_bind (a : α) (f : α → Program Op Ans β) : (ret a >>= f) = f a := rfl

@[simp] theorem read_bind (n : ℕ) (k : Option (List UInt8) → Program Op Ans α)
    (f : α → Program Op Ans β) : (read n k >>= f) = read n fun r => k r >>= f := rfl

@[simp] theorem call_bind (op : Op) (k : Ans op → Program Op Ans α)
    (f : α → Program Op Ans β) : (call op k >>= f) = call op fun a => k a >>= f := rfl

@[simp] theorem bind_ret (a : α) (f : α → Program Op Ans β) : (ret a).bind f = f a := rfl

@[simp] theorem bind_read (n : ℕ) (k : Option (List UInt8) → Program Op Ans α)
    (f : α → Program Op Ans β) : (read n k).bind f = read n fun r => (k r).bind f := rfl

@[simp] theorem bind_call (op : Op) (k : Ans op → Program Op Ans α)
    (f : α → Program Op Ans β) : (call op k).bind f = call op fun a => (k a).bind f := rfl

@[simp] theorem readExact_bind (n : ℕ) (f : Option (List UInt8) → Program Op Ans β) :
    (readExact n >>= f) = read n f := rfl

@[simp] theorem perform_bind (op : Op) (f : Ans op → Program Op Ans β) :
    (perform op >>= f) = call op f := rfl

@[simp] theorem bind_bind {γ : Type} (p : Program Op Ans α) (f : α → Program Op Ans β)
    (g : β → Program Op Ans γ) : (p >>= f >>= g) = p >>= fun a => f a >>= g := by
  induction p with
  | ret a => rfl
  | read n k ih =>
    simp only [read_bind]
    congr 1
    funext r
    exact ih r
  | call op k ih =>
    simp only [call_bind]
    congr 1
    funext a
    exact ih a

theorem bind_ret_right (p : Program Op Ans α) : (p >>= ret) = p := by
  induction p with
  | ret a => rfl
  | read n k ih =>
    rw [read_bind]
    congr 1
    funext r
    exact ih r
  | call op k ih =>
    rw [call_bind]
    congr 1
    funext a
    exact ih a

/-! ## Execution on a closed stream -/

structure Outcome (σ : Type) (Op : Type) (Ans : Op → Type) (α : Type) where
  val : α
  env : σ
  rest : List UInt8
  trace : List (Entry Op Ans)

def Outcome.after (t : List (Entry Op Ans)) (o : Outcome σ Op Ans α) : Outcome σ Op Ans α :=
  { o with trace := t ++ o.trace }

@[simp] theorem Outcome.after_val (t : List (Entry Op Ans)) (o : Outcome σ Op Ans α) :
    (o.after t).val = o.val := rfl

@[simp] theorem Outcome.after_env (t : List (Entry Op Ans)) (o : Outcome σ Op Ans α) :
    (o.after t).env = o.env := rfl

@[simp] theorem Outcome.after_rest (t : List (Entry Op Ans)) (o : Outcome σ Op Ans α) :
    (o.after t).rest = o.rest := rfl

@[simp] theorem Outcome.after_trace (t : List (Entry Op Ans)) (o : Outcome σ Op Ans α) :
    (o.after t).trace = t ++ o.trace := rfl

@[simp] theorem Outcome.after_nil (o : Outcome σ Op Ans α) : o.after [] = o := rfl

@[simp] theorem Outcome.after_after (t u : List (Entry Op Ans)) (o : Outcome σ Op Ans α) :
    (o.after t).after u = o.after (u ++ t) := by
  simp only [Outcome.after, List.append_assoc]

def run (h : (op : Op) → σ → Ans op × σ) :
    Program Op Ans α → σ → List UInt8 → Outcome σ Op Ans α
  | ret a, s, xs => ⟨a, s, xs, []⟩
  | read n k, s, xs =>
    if n ≤ xs.length then ((k (some (xs.take n))).run h s (xs.drop n)).after [.got (xs.take n)]
    else (k none).run h s []
  | call op k, s, xs => ((k (h op s).1).run h (h op s).2 xs).after [.did op (h op s).1]

variable (h : (op : Op) → σ → Ans op × σ)

@[simp] theorem run_ret (a : α) (s : σ) (xs : List UInt8) :
    (ret a : Program Op Ans α).run h s xs = ⟨a, s, xs, []⟩ := rfl

@[simp] theorem run_call (op : Op) (k : Ans op → Program Op Ans α) (s : σ) (xs : List UInt8) :
    (call op k).run h s xs = ((k (h op s).1).run h (h op s).2 xs).after [.did op (h op s).1] := rfl

theorem run_read (n : ℕ) (k : Option (List UInt8) → Program Op Ans α) (s : σ) (xs : List UInt8) :
    (read n k).run h s xs =
      if n ≤ xs.length then ((k (some (xs.take n))).run h s (xs.drop n)).after [.got (xs.take n)]
      else (k none).run h s [] := rfl

variable {n : ℕ} {a : α} {s s' s₁ : σ} {t : List (Entry Op Ans)} {y : List UInt8}
  {p : Program Op Ans α} {b : β} {f : α → Program Op Ans β}

theorem run_read_of_le {xs : List UInt8} (hn : n ≤ xs.length)
    (k : Option (List UInt8) → Program Op Ans α) (s : σ) :
    (read n k).run h s xs =
      ((k (some (xs.take n))).run h s (xs.drop n)).after [.got (xs.take n)] := by
  rw [run_read, if_pos hn]

theorem run_read_of_lt {xs : List UInt8} (hn : xs.length < n)
    (k : Option (List UInt8) → Program Op Ans α) (s : σ) :
    (read n k).run h s xs = (k none).run h s [] := by
  rw [run_read, if_neg (by omega)]

theorem run_bind (p : Program Op Ans α) (f : α → Program Op Ans β) (s : σ) (xs : List UInt8) :
    (p >>= f).run h s xs =
      ((f (p.run h s xs).val).run h (p.run h s xs).env (p.run h s xs).rest).after
        (p.run h s xs).trace := by
  induction p generalizing s xs with
  | ret a => rfl
  | read n k ih =>
    rw [read_bind, run_read, run_read]
    split_ifs with hn
    · rw [ih]
      simp only [Outcome.after_after, Outcome.after_val, Outcome.after_env, Outcome.after_rest,
        Outcome.after_trace]
    · exact ih none s []
  | call op k ih =>
    rw [call_bind, run_call, run_call, ih]
    simp only [Outcome.after_after, Outcome.after_val, Outcome.after_env, Outcome.after_rest,
      Outcome.after_trace]

theorem run_rest_length_le (p : Program Op Ans α) (s : σ) (xs : List UInt8) :
    (p.run h s xs).rest.length ≤ xs.length := by
  induction p generalizing s xs with
  | ret a => exact le_rfl
  | read n k ih =>
    rw [run_read]
    split_ifs with hn
    · exact (ih _ s (xs.drop n)).trans (by rw [List.length_drop]; omega)
    · exact (ih none s []).trans (Nat.zero_le _)
  | call op k ih => exact ih _ _ xs

/-! ## Execution that never meets the end of the stream -/

/-- `Exec h p s y a s' t`: from `s` the program reads exactly `y`, returns `a`,
leaves `s'` and logs `t`. -/
inductive Exec (h : (op : Op) → σ → Ans op × σ) :
    Program Op Ans α → σ → List UInt8 → α → σ → List (Entry Op Ans) → Prop where
  | ret (a : α) (s : σ) : Exec h (ret a) s [] a s []
  | read {n : ℕ} {k : Option (List UInt8) → Program Op Ans α} {z y : List UInt8} {s s' : σ}
      {a : α} {t : List (Entry Op Ans)} (hz : z.length = n) (hk : Exec h (k (some z)) s y a s' t) :
      Exec h (read n k) s (z ++ y) a s' (.got z :: t)
  | call {op : Op} {k : Ans op → Program Op Ans α} {y : List UInt8} {s s' : σ} {a : α}
      {t : List (Entry Op Ans)} (hk : Exec h (k (h op s).1) (h op s).2 y a s' t) :
      Exec h (call op k) s y a s' (.did op (h op s).1 :: t)

variable {h}

theorem Exec.call_eq {op : Op} {k : Ans op → Program Op Ans α} {b : Ans op} (hb : (h op s).1 = b)
    (hk : Exec h (k b) (h op s).2 y a s' t) : Exec h (.call op k) s y a s' (.did op b :: t) := by
  subst hb
  exact Exec.call hk

theorem Exec.read_last {k : Option (List UInt8) → Program Op Ans α} {z : List UInt8}
    (hz : z.length = n) (hk : Exec h (k (some z)) s [] a s' t) :
    Exec h (.read n k) s z a s' (.got z :: t) := by
  have hread := Exec.read hz hk
  rwa [List.append_nil] at hread

theorem Exec.bind {s₂ : σ} {y' : List UInt8} {t' : List (Entry Op Ans)} (hp : Exec h p s y a s₁ t)
    (hf : Exec h (f a) s₁ y' b s₂ t') : Exec h (p >>= f) s (y ++ y') b s₂ (t ++ t') := by
  induction hp with
  | ret a s => exact hf
  | read hz _ ih =>
    rw [List.append_assoc]
    exact Exec.read hz (ih hf)
  | call _ ih => exact Exec.call (ih hf)

theorem Exec.bind_nil {s₂ : σ} {t' : List (Entry Op Ans)} (hp : Exec h p s y a s₁ t)
    (hf : Exec h (f a) s₁ [] b s₂ t') : Exec h (p >>= f) s y b s₂ (t ++ t') := by
  have hbind := hp.bind hf
  rwa [List.append_nil] at hbind

theorem Exec.bind_ret (hp : Exec h p s y a s₁ t) (hf : f a = .ret b) :
    Exec h (p >>= f) s y b s₁ t := by
  have hret : Exec h (f a) s₁ [] b s₁ [] := hf ▸ Exec.ret b s₁
  have hbind := hp.bind_nil hret
  rwa [List.append_nil] at hbind

theorem Exec.run_eq (hp : Exec h p s y a s' t) (rest : List UInt8) :
    p.run h s (y ++ rest) = ⟨a, s', rest, t⟩ := by
  induction hp with
  | ret a s => rfl
  | @read n k z y s s' a t hz _ ih =>
    have hn : n ≤ (z ++ y ++ rest).length := by simp only [List.length_append]; omega
    rw [run_read_of_le h hn, List.append_assoc, ← hz, List.take_left, List.drop_left, ih]
    rfl
  | call _ ih =>
    rw [run_call, ih]
    rfl

end Program
end Lib
