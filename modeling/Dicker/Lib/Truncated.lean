import Dicker.Lib.Resumable

/-! A stream that ends too early. A program that does nothing of note once a read has failed does,
on the part of a stream, what it does at first on the whole of it, and then nothing of note. -/

namespace Lib
variable {Op : Type} {Ans : Op → Type} {σ α β S R : Type}

def CutFrom (quiet : Entry Op Ans → Prop) (whole cut : List (Entry Op Ans)) : Prop :=
  ∃ t u, cut = t ++ u ∧ (∀ e ∈ u, quiet e) ∧ t <+: whole

section
variable {quiet : Entry Op Ans → Prop} {whole cut l : List (Entry Op Ans)} {e : Entry Op Ans}

theorem CutFrom.refl (t : List (Entry Op Ans)) : CutFrom quiet t t :=
  ⟨t, [], (List.append_nil t).symm, fun _ he => absurd he List.not_mem_nil, List.prefix_refl t⟩

theorem CutFrom.mono {whole' : List (Entry Op Ans)} (hcut : CutFrom quiet whole cut)
    (hwhole : whole <+: whole') : CutFrom quiet whole' cut := by
  obtain ⟨t, u, hcut, hquiet, hfront⟩ := hcut
  exact ⟨t, u, hcut, hquiet, hfront.trans hwhole⟩

theorem CutFrom.append_left (hcut : CutFrom quiet whole cut) (l : List (Entry Op Ans)) :
    CutFrom quiet (l ++ whole) (l ++ cut) := by
  obtain ⟨t, u, rfl, hquiet, hfront⟩ := hcut
  exact ⟨l ++ t, u, (List.append_assoc l t u).symm, hquiet,
    (List.prefix_append_right_inj l).mpr hfront⟩

theorem CutFrom.front_of_loud (hcut : CutFrom quiet whole cut) (he : ¬quiet e)
    (hl : l ++ [e] <+: cut) : l ++ [e] <+: whole := by
  obtain ⟨t, u, rfl, hquiet, hfront⟩ := hcut
  refine List.IsPrefix.trans ?_ hfront
  obtain ⟨v, hv⟩ := hl
  rcases List.append_eq_append_iff.mp hv with ⟨a, ht, -⟩ | ⟨a, hle, hu⟩
  · exact ⟨a, ht.symm⟩
  · cases a using List.reverseRecOn with
    | nil => exact ⟨[], by rw [hle, List.append_nil, List.append_nil]⟩
    | append_singleton a x =>
      rw [← List.append_assoc] at hle
      obtain ⟨-, hx⟩ := List.append_inj' hle rfl
      cases hx
      exact absurd (hquiet e (by simp [hu])) he

end

namespace Program

def Quits (quiet : Entry Op Ans → Prop) (gives : α → Prop) : Program Op Ans α → Prop
  | ret _ => True
  | read _ k =>
    ((k none).wp fun a t => gives a ∧ ∀ e ∈ t, quiet e) ∧ ∀ z, (k (some z)).Quits quiet gives
  | call _ k => ∀ a, (k a).Quits quiet gives

variable {quiet : Entry Op Ans → Prop} {gives : α → Prop} {gives' : β → Prop}

theorem Quits.bind {p : Program Op Ans α} {f : α → Program Op Ans β} (hp : p.Quits quiet gives)
    (hgives : ∀ a, gives a → (f a).wp fun b t => gives' b ∧ ∀ e ∈ t, quiet e)
    (hf : ∀ a, (f a).Quits quiet gives') : (p >>= f).Quits quiet gives' := by
  induction p with
  | ret a => exact hf a
  | call op k ih => exact fun a => ih a (hp a)
  | read n k ih =>
    refine ⟨wp_bind (wp_mono hp.1 fun a t hquiet =>
      wp_mono (hgives a hquiet.1) fun b u hb => ⟨hb.1, ?_⟩), fun z => ih (some z) (hp.2 z)⟩
    intro e he
    rcases List.mem_append.mp he with he | he
    · exact hquiet.2 e he
    · exact hb.2 e he

theorem Quits.silent_bind {p : Program Op Ans α} {f : α → Program Op Ans β}
    (hp : p.Quits quiet fun _ => False) (hf : ∀ a, (f a).Quits quiet gives') :
    (p >>= f).Quits quiet gives' := hp.bind (fun _ h => h.elim) hf

theorem Quits.readExact {n : ℕ} {f : Option (List UInt8) → Program Op Ans α}
    (hnone : (f none).wp fun a t => gives a ∧ ∀ e ∈ t, quiet e)
    (hsome : ∀ z, (f (some z)).Quits quiet gives) :
    (Program.readExact n >>= f).Quits quiet gives := ⟨hnone, hsome⟩

theorem Quits.ite {P : Prop} [Decidable P] {p q : Program Op Ans α} (hp : P → p.Quits quiet gives)
    (hq : ¬P → q.Quits quiet gives) : (if P then p else q).Quits quiet gives := by
  split_ifs with h
  · exact hp h
  · exact hq h

variable (h : (op : Op) → σ → Ans op × σ)

theorem Quits.run_append {p : Program Op Ans α} (hp : p.Quits quiet gives) (s : σ)
    (xs more : List UInt8) :
    p.run h s (xs ++ more) = { p.run h s xs with rest := (p.run h s xs).rest ++ more } ∨
      (gives (p.run h s xs).val ∧ CutFrom quiet (p.run h s (xs ++ more)).trace
        (p.run h s xs).trace) := by
  induction p generalizing s xs with
  | ret a => exact .inl rfl
  | call op k ih =>
    rw [run_call, run_call]
    rcases ih (h op s).1 (hp _) (h op s).2 xs with hsame | ⟨hgives, hcut⟩
    · rw [hsame]
      exact .inl rfl
    · exact .inr ⟨hgives, hcut.append_left [.did op (h op s).1]⟩
  | read n k ih =>
    by_cases hn : n ≤ xs.length
    · have htake : (xs ++ more).take n = xs.take n := List.take_append_of_le_length hn
      have hdrop : (xs ++ more).drop n = xs.drop n ++ more := List.drop_append_of_le_length hn
      have hn' : n ≤ (xs ++ more).length := by
        rw [List.length_append]
        exact hn.trans (Nat.le_add_right _ _)
      rw [run_read_of_le h hn, run_read_of_le h hn', htake, hdrop]
      rcases ih _ (hp.2 _) s (xs.drop n) with hsame | ⟨hgives, hcut⟩
      · rw [hsame]
        exact .inl rfl
      · exact .inr ⟨hgives, hcut.append_left [.got (xs.take n)]⟩
    · obtain ⟨hgives, hquiet⟩ := wp_run h hp.1 s []
      rw [run_read_of_lt h (Nat.lt_of_not_le hn)]
      exact .inr ⟨hgives, [], _, rfl, hquiet, List.nil_prefix⟩

end Program

namespace Machine
open Program
variable {quiet : Entry Op Ans → Prop} {m : Machine Op Ans S R} {h : (op : Op) → σ → Ans op × σ}

def IsDone : Next S R → Prop
  | .done _ => True
  | .again _ => False

theorem conclude_cut_of {p : Process Op Ans σ (Next S R)} (hp : p.prog.Quits quiet IsDone)
    (xs more : List UInt8)
    (hagain : ∀ st, (p.prog.run h p.env xs).val = .again st → ∀ s, CutFrom quiet
      (m.eval h st s ((p.prog.run h p.env xs).rest ++ more)).trace
        (m.eval h st s (p.prog.run h p.env xs).rest).trace) :
    CutFrom quiet (m.conclude h p (xs ++ more)).trace (m.conclude h p xs).trace := by
  rcases hp.run_append h p.env xs more with hsame | ⟨hdone, hcut⟩
  · have hval : (p.prog.run h p.env (xs ++ more)).val = (p.prog.run h p.env xs).val := by rw [hsame]
    cases hv : (p.prog.run h p.env xs).val with
    | done r =>
      rw [conclude_of_done hv, conclude_of_done (hval.trans hv), hsame]
      exact .refl _
    | again st =>
      rw [conclude_of_again hv, conclude_of_again (hval.trans hv), hsame]
      exact (hagain st hv _).append_left _
  · cases hv : (p.prog.run h p.env xs).val with
    | done r =>
      rw [conclude_of_done hv]
      exact (hcut.append_left p.log).mono (conclude_trace_front p _)
    | again st =>
      rw [hv] at hdone
      exact hdone.elim

theorem eval_cut (hbody : ∀ st, (m.body st).Quits quiet IsDone) (st : S) (s : σ)
    (xs more : List UInt8) :
    CutFrom quiet (m.eval h st s (xs ++ more)).trace (m.eval h st s xs).trace := by
  induction hlen : xs.length using Nat.strong_induction_on generalizing st s xs with
  | _ n ih =>
    have hround :=
      conclude_cut_of (m := m) (h := h) (p := ⟨m.body st, s, []⟩)
        (hbody st) xs more fun st' hv s' =>
      ih _ (hlen ▸ (m.productive st).rest_lt h hv) st' s' _ rfl
    rw [conclude_body, conclude_body] at hround
    exact hround

theorem conclude_cut (hbody : ∀ st, (m.body st).Quits quiet IsDone)
    {p : Process Op Ans σ (Next S R)} (hp : p.prog.Quits quiet IsDone) (xs more : List UInt8) :
    CutFrom quiet (m.conclude h p (xs ++ more)).trace (m.conclude h p xs).trace :=
  conclude_cut_of hp xs more fun st _ s => eval_cut hbody st s _ more

end Machine
end Lib
