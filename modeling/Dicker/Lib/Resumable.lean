import Dicker.Lib.Network

/-! A machine that has been stopped between two steps. `conclude` is what it still comes to on the
rest of a closed stream; no step of its own changes that. -/

namespace Lib
open Program

variable {Op : Type} {Ans : Op → Type} {σ S R : Type}

namespace Machine
variable (m : Machine Op Ans S R) (h : (op : Op) → σ → Ans op × σ)

def conclude (p : Process Op Ans σ (Next S R)) (xs : List UInt8) : Outcome σ Op Ans R :=
  let o := p.prog.run h p.env xs
  match o.val with
  | .done r => ⟨r, o.env, o.rest, p.log ++ o.trace⟩
  | .again st => (m.eval h st o.env o.rest).after (p.log ++ o.trace)

variable {m h} {s : σ} {t : List (Entry Op Ans)} {xs : List UInt8}

variable {p : Process Op Ans σ (Next S R)} {n : ℕ}

theorem conclude_of_done {r : R} (hv : (p.prog.run h p.env xs).val = .done r) :
    m.conclude h p xs = ⟨r, (p.prog.run h p.env xs).env, (p.prog.run h p.env xs).rest,
      p.log ++ (p.prog.run h p.env xs).trace⟩ := by
  simp only [conclude, hv]

theorem conclude_of_again {st : S} (hv : (p.prog.run h p.env xs).val = .again st) :
    m.conclude h p xs = (m.eval h st (p.prog.run h p.env xs).env (p.prog.run h p.env xs).rest).after
      (p.log ++ (p.prog.run h p.env xs).trace) := by
  simp only [conclude, hv]

@[simp] theorem conclude_done (r : R) : m.conclude h ⟨.ret (.done r), s, t⟩ xs = ⟨r, s, xs, t⟩ := by
  rw [conclude_of_done (r := r) rfl, run_ret, List.append_nil]

theorem conclude_congr {p' : Process Op Ans σ (Next S R)} {ys : List UInt8}
    {u : List (Entry Op Ans)} (hlog : p'.log = p.log ++ u)
    (hrun : p.prog.run h p.env xs = (p'.prog.run h p'.env ys).after u) :
    m.conclude h p xs = m.conclude h p' ys := by
  simp only [conclude, hrun, hlog, Outcome.after_val, Outcome.after_env, Outcome.after_rest,
    Outcome.after_trace, List.append_assoc]

theorem conclude_call (op : Op) (k : Ans op → Program Op Ans (Next S R)) :
    m.conclude h ⟨.call op k, s, t⟩ xs =
      m.conclude h ⟨k (h op s).1, (h op s).2, t ++ [.did op (h op s).1]⟩ xs :=
  conclude_congr rfl (run_call h op k s xs)

theorem conclude_read_of_le (hn : n ≤ xs.length)
    (k : Option (List UInt8) → Program Op Ans (Next S R)) :
    m.conclude h ⟨.read n k, s, t⟩ xs =
      m.conclude h ⟨k (some (xs.take n)), s, t ++ [.got (xs.take n)]⟩ (xs.drop n) :=
  conclude_congr rfl (run_read_of_le h hn k s)

theorem conclude_read_append (out rest : List UInt8)
    (k : Option (List UInt8) → Program Op Ans (Next S R)) :
    m.conclude h ⟨.read out.length k, s, t⟩ (out ++ rest) =
      m.conclude h ⟨k (some out), s, t ++ [.got out]⟩ rest := by
  have hle : out.length ≤ (out ++ rest).length := by simp
  rw [conclude_read_of_le hle, List.take_left, List.drop_left]

theorem conclude_read_of_lt (hn : xs.length < n)
    (k : Option (List UInt8) → Program Op Ans (Next S R)) :
    m.conclude h ⟨.read n k, s, t⟩ xs = m.conclude h ⟨k none, s, t⟩ [] :=
  conclude_congr (List.append_nil t).symm (run_read_of_lt h hn k s)

theorem conclude_body (st : S) :
    m.conclude h ⟨m.body st, s, t⟩ xs = (m.eval h st s xs).after t := by
  cases hv : ((m.body st).run h s xs).val with
  | done r =>
    rw [conclude_of_done hv, eval_done m h hv]
    rfl
  | again st' => rw [conclude_of_again hv, eval_again m h hv, Outcome.after_after]

theorem conclude_again (st : S) :
    m.conclude h ⟨.ret (.again st), s, t⟩ xs = m.conclude h ⟨m.body st, s, t⟩ xs := by
  rw [conclude_body, conclude_of_again (p := ⟨.ret (.again st), s, t⟩) rfl,
    run_ret, List.append_nil]

theorem conclude_trace_front (p : Process Op Ans σ (Next S R)) (xs : List UInt8) :
    p.log ++ (p.prog.run h p.env xs).trace <+: (m.conclude h p xs).trace := by
  cases hv : (p.prog.run h p.env xs).val with
  | done r =>
    rw [conclude_of_done hv]
  | again st =>
    rw [conclude_of_again hv, Outcome.after_trace]
    exact List.prefix_append _ _

theorem log_prefix_conclude (p : Process Op Ans σ (Next S R)) (xs : List UInt8) :
    p.log <+: (m.conclude h p xs).trace :=
  (List.prefix_append _ _).trans (conclude_trace_front p xs)

/-! ## The way to the end -/

variable (m h) in
inductive EndsIn : ℕ → Process Op Ans σ (Next S R) → List UInt8 → Prop
  | done (r : R) (s : σ) (t : List (Entry Op Ans)) (xs : List UInt8) :
      EndsIn 0 ⟨.ret (.done r), s, t⟩ xs
  | again {n : ℕ} (st : S) {s : σ} {t : List (Entry Op Ans)} {xs : List UInt8}
      (hk : EndsIn n ⟨m.body st, s, t⟩ xs) : EndsIn (n + 1) ⟨.ret (.again st), s, t⟩ xs
  | call {n : ℕ} (op : Op) (k : Ans op → Program Op Ans (Next S R)) {s : σ}
      {t : List (Entry Op Ans)}
      {xs : List UInt8} (hk : EndsIn n ⟨k (h op s).1, (h op s).2, t ++ [.did op (h op s).1]⟩ xs) :
      EndsIn (n + 1) ⟨.call op k, s, t⟩ xs
  | reads {n count : ℕ} (k : Option (List UInt8) → Program Op Ans (Next S R)) {s : σ}
      {t : List (Entry Op Ans)} {xs : List UInt8} (hcount : count ≤ xs.length)
      (hk : EndsIn n ⟨k (some (xs.take count)), s, t ++ [.got (xs.take count)]⟩ (xs.drop count)) :
      EndsIn (n + 1) ⟨.read count k, s, t⟩ xs
  | fails {n count : ℕ} (k : Option (List UInt8) → Program Op Ans (Next S R)) {s : σ}
      {t : List (Entry Op Ans)}
      {xs : List UInt8} (hcount : xs.length < count) (hk : EndsIn n ⟨k none, s, t⟩ []) :
      EndsIn (n + 1) ⟨.read count k, s, t⟩ xs

theorem EndsIn.of_read_append {out rest : List UInt8}
    {k : Option (List UInt8) → Program Op Ans (Next S R)}
    (hends : m.EndsIn h n ⟨.read out.length k, s, t⟩ (out ++ rest)) :
    ∃ n', n = n' + 1 ∧ m.EndsIn h n' ⟨k (some out), s, t ++ [.got out]⟩ rest := by
  cases hends with
  | @reads n _ _ _ _ _ _ hk =>
    rw [List.take_left, List.drop_left] at hk
    exact ⟨n, rfl, hk⟩
  | fails _ hlt =>
    rw [List.length_append] at hlt
    omega

theorem EndsIn.of_read_lt {count : ℕ} {k : Option (List UInt8) → Program Op Ans (Next S R)}
    (hlt : xs.length < count) (hends : m.EndsIn h n ⟨.read count k, s, t⟩ xs) :
    ∃ n', n = n' + 1 ∧ m.EndsIn h n' ⟨k none, s, t⟩ [] := by
  cases hends with
  | reads _ hle => omega
  | @fails n _ _ _ _ _ _ hk => exact ⟨n, rfl, hk⟩

theorem endsIn_of_shorter {K : Program Op Ans (Next S R) → Prop}
    (hshorter : ∀ ys : List UInt8, ys.length < xs.length → ∀ p, ∃ n, m.EndsIn h n p ys)
    (hagain : ∀ st s t, K (.ret (.again st)) → ∃ n, m.EndsIn h n ⟨.ret (.again st), s, t⟩ xs)
    (hcall : ∀ op k, K (.call op k) → ∀ a, K (k a))
    (hfail : ∀ count k, K (.read count k) → K (k none))
    (hnothing : ∀ k, K (.read 0 k) → K (k (some []))) {p : Program Op Ans (Next S R)} (hp : K p)
    (s : σ) (t : List (Entry Op Ans)) : ∃ n, m.EndsIn h n ⟨p, s, t⟩ xs := by
  induction p generalizing s t with
  | ret a =>
    cases a with
    | again st => exact hagain st s t hp
    | done r => exact ⟨0, .done r s t xs⟩
  | call op k ih =>
    obtain ⟨n, hn⟩ := ih (h op s).1 (hcall op k hp _) (h op s).2 (t ++ [.did op (h op s).1])
    exact ⟨n + 1, .call op k hn⟩
  | read count k ih =>
    by_cases hcount : count ≤ xs.length
    · suffices hk : ∃ n, m.EndsIn h n ⟨k (some (xs.take count)), s, t ++ [.got (xs.take count)]⟩
          (xs.drop count) by
        obtain ⟨n, hn⟩ := hk
        exact ⟨n + 1, .reads k hcount hn⟩
      cases count with
      | zero => exact ih (some []) (hnothing k hp) s _
      | succ count =>
        apply hshorter
        rw [List.length_drop]
        omega
    · have hlt := Nat.lt_of_not_le hcount
      suffices hk : ∃ n, m.EndsIn h n ⟨k none, s, t⟩ [] by
        obtain ⟨n, hn⟩ := hk
        exact ⟨n + 1, .fails k hlt hn⟩
      cases xs with
      | nil => exact ih none (hfail count k hp) s t
      | cons x xs => exact hshorter [] (Nat.succ_pos _) _

theorem exists_endsIn (p : Process Op Ans σ (Next S R)) (xs : List UInt8) :
    ∃ n, m.EndsIn h n p xs := by
  induction hlen : xs.length using Nat.strong_induction_on generalizing xs p with
  | _ n ih =>
    have hshorter (ys : List UInt8) (hys : ys.length < xs.length) p : ∃ n, m.EndsIn h n p ys :=
      ih ys.length (hlen ▸ hys) p ys rfl
    have hround (st : S) s t : ∃ n, m.EndsIn h n ⟨m.body st, s, t⟩ xs :=
      endsIn_of_shorter (K := Productive) hshorter (fun _ _ _ hagain => hagain.elim)
        (fun _ _ hk => hk)
        (fun _ _ hk => hk.2) (fun _ hk => absurd hk.1 (Nat.lt_irrefl 0)) (m.productive st) s t
    refine endsIn_of_shorter (K := fun _ => True) hshorter (fun st s t _ => ?_)
      (fun _ _ _ _ => trivial) (fun _ _ _ => trivial) (fun _ _ => trivial) trivial p.env p.log
    obtain ⟨n, hn⟩ := hround st s t
    exact ⟨n + 1, .again st hn⟩

end Machine
end Lib
