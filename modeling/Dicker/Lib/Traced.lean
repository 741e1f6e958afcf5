import Dicker.Lib.Thread

/-! Runs of a host together with what was seen of them: the events that called back and the answers
that the operations were given. A state alone does not tell why it was reached; with the history it
can. -/

namespace Lib

inductive Seen (Op : Type) (Ans : Op → Type) (Event : Type) where
  | event (e : Event)
  | answer (op : Op) (a : Ans op)

abbrev Trace (Op : Type) (Ans : Op → Type) (Event : Type) := List (Seen Op Ans Event)

namespace Host
open Thread Relation
variable {σ Op : Type} {Ans : Op → Type} {W Event : Type} {α β : Type} (h : Host σ Op Ans W Event)

inductive Emits : Loop σ Op Ans W → Trace Op Ans Event → Loop σ Op Ans W → Prop
  | start (e : Event) {s : σ} {w : W} (hfires : h.fires e s w) :
      Emits ⟨none, s, w⟩ [.event e] ⟨some (h.handler e), h.takes e s, h.clears e w⟩
  | get (k : σ → Thread σ Op Ans Unit) (s : σ) (w : W) :
      Emits ⟨some (.get k), s, w⟩ [] ⟨some (k s), s, w⟩
  | set (k : Thread σ Op Ans Unit) (s s' : σ) (w : W) :
      Emits ⟨some (.set s' k), s, w⟩ [] ⟨some k, s', w⟩
  | call (op : Op) (k : Ans op → Thread σ Op Ans Unit) {s : σ} {w : W} {a : Ans op}
      (hallowed : h.allowed op s w a) :
      Emits ⟨some (.call op k), s, w⟩ [.answer op a] ⟨some (k a), h.own op a s, h.shared op a w⟩
  | finish (s : σ) (w : W) : Emits ⟨some (.ret ()), s, w⟩ [] ⟨none, s, w⟩
  | other (code : Option (Thread σ Op Ans Unit)) (s : σ) {w w' : W} (hother : h.others w w') :
      Emits ⟨code, s, w⟩ [] ⟨code, s, w'⟩

inductive Run (c : Loop σ Op Ans W) : Trace Op Ans Event → Loop σ Op Ans W → Prop
  | refl : Run c [] c
  | tail {τ l : Trace Op Ans Event} {c' c'' : Loop σ Op Ans W} (hrun : Run c τ c')
      (hstep : h.Emits c' l c'') : Run c (τ ++ l) c''

variable {h}

variable {c c' : Loop σ Op Ans W} {τ : Trace Op Ans Event} {s : σ} {p : Thread σ Op Ans α}

theorem Emits.step {l : Trace Op Ans Event} (hs : h.Emits c l c') : h.Step c c' := by
  cases hs with
  | start e hfires => exact .start e hfires
  | get k s w => exact .get k s w
  | set k s s' w => exact .set k s s' w
  | call op k hallowed => exact .call op k hallowed
  | finish s w => exact .finish s w
  | other code s hother => exact .other code s hother

theorem Step.emits (hs : h.Step c c') : ∃ l, h.Emits c l c' := by
  cases hs with
  | start e hfires => exact ⟨_, .start e hfires⟩
  | get k s w => exact ⟨_, .get k s w⟩
  | set k s s' w => exact ⟨_, .set k s s' w⟩
  | call op k hallowed => exact ⟨_, .call op k hallowed⟩
  | finish s w => exact ⟨_, .finish s w⟩
  | other code s hother => exact ⟨_, .other code s hother⟩

theorem reaches_iff_run : ReflTransGen h.Step c c' ↔ ∃ τ, h.Run c τ c' := by
  constructor
  · intro hr
    induction hr with
    | refl => exact ⟨[], .refl⟩
    | tail _ hs ih =>
      obtain ⟨τ, hrun⟩ := ih
      obtain ⟨l, hemits⟩ := hs.emits
      exact ⟨τ ++ l, hrun.tail hemits⟩
  · rintro ⟨τ, hrun⟩
    induction hrun with
    | refl => exact .refl
    | tail _ hs ih => exact ih.tail hs.step

theorem Run.trans {c'' : Loop σ Op Ans W} {τ' : Trace Op Ans Event} (hrun : h.Run c τ c')
    (hrun' : h.Run c' τ' c'') : h.Run c (τ ++ τ') c'' := by
  induction hrun' with
  | refl => exact (List.append_nil τ).symm ▸ hrun
  | tail _ hs ih =>
    rw [← List.append_assoc]
    exact ih.tail hs

/-! ## Preconditions with the history -/

variable (h) in
/-- From here on `A` holds after every step of the thread, and it ends in `Q`. -/
def always (A : σ → Trace Op Ans Event → Prop) :
    Thread σ Op Ans α → (α → σ → Trace Op Ans Event → Prop) → σ → Trace Op Ans Event → Prop
  | .ret a, Q, s, τ => Q a s τ
  | .get k, Q, s, τ => always A (k s) Q s τ
  | .set s' k, Q, _, τ => A s' τ ∧ always A k Q s' τ
  | .call op k, Q, s, τ => ∀ a w, h.allowed op s w a →
      A (h.own op a s) (τ ++ [.answer op a]) ∧ always A (k a) Q (h.own op a s) (τ ++ [.answer op a])

variable {A : σ → Trace Op Ans Event → Prop}

theorem always_mono {Q Q' : α → σ → Trace Op Ans Event → Prop} (hp : h.always A p Q s τ)
    (hQ : ∀ a s τ, Q a s τ → Q' a s τ) : h.always A p Q' s τ := by
  induction p generalizing s τ with
  | ret a => exact hQ a s τ hp
  | get k ih => exact ih s hp
  | set s' k ih => exact ⟨hp.1, ih hp.2⟩
  | call op k ih => exact fun a w ha => ⟨(hp a w ha).1, ih a (hp a w ha).2⟩

theorem always_bind {f : α → Thread σ Op Ans β} {Q : β → σ → Trace Op Ans Event → Prop}
    (hp : h.always A p (fun a => h.always A (f a) Q) s τ) : h.always A (p >>= f) Q s τ := by
  induction p generalizing s τ with
  | ret a => exact hp
  | get k ih => exact ih s hp
  | set s' k ih => exact ⟨hp.1, ih hp.2⟩
  | call op k ih => exact fun a w ha => ⟨(hp a w ha).1, ih a (hp a w ha).2⟩

theorem always_grows {Q : α → σ → Trace Op Ans Event → Prop} (hp : h.always A p Q s τ) :
    h.always A p (fun a s τ' => Q a s τ' ∧ τ <+: τ') s τ := by
  induction p generalizing s τ with
  | ret a => exact ⟨hp, List.prefix_rfl⟩
  | get k ih => exact ih s hp
  | set s' k ih => exact ⟨hp.1, ih hp.2⟩
  | call op k ih =>
    intro a w ha
    refine ⟨(hp a w ha).1, always_mono (ih a (hp a w ha).2) fun b s τ' hQ => ?_⟩
    exact ⟨hQ.1, (List.prefix_append τ _).trans hQ.2⟩

def Heads (h : Host σ Op Ans W Event) (A I : σ → Trace Op Ans Event → Prop) (c : Loop σ Op Ans W)
    (τ : Trace Op Ans Event) : Prop :=
  match c.code with
  | none => I c.own τ
  | some p => A c.own τ ∧ h.always A p (fun _ => I) c.own τ

theorem Heads.holds {I : σ → Trace Op Ans Event → Prop} (hIA : ∀ s τ, I s τ → A s τ)
    (hc : h.Heads A I c τ) : A c.own τ := by
  obtain ⟨code, s, w⟩ := c
  cases code with
  | none => exact hIA s τ hc
  | some p => exact hc.1

theorem Run.heads {I : σ → Trace Op Ans Event → Prop} (hinit : h.Heads A I c [])
    (hevent : ∀ τ e s w, h.Run c τ ⟨none, s, w⟩ → I s τ → h.fires e s w →
      A (h.takes e s) (τ ++ [.event e]) ∧
        h.always A (h.handler e) (fun _ => I) (h.takes e s) (τ ++ [.event e]))
    (hrun : h.Run c τ c') : h.Heads A I c' τ := by
  induction hrun with
  | refl => exact hinit
  | tail hrun hs ih =>
    cases hs with
    | start e hfires => exact hevent _ e _ _ hrun ih hfires
    | get k s w => exact (List.append_nil _).symm ▸ ih
    | set k s s' w => exact (List.append_nil _).symm ▸ ih.2
    | call op k hallowed => exact ih.2 _ _ hallowed
    | finish s w => exact (List.append_nil _).symm ▸ ih.2
    | other code s hother =>
      rw [List.append_nil]
      cases code with
      | none => exact ih
      | some p => exact ih

/-! ## Single runs -/

theorem Exec.run {p : Thread σ Op Ans Unit} {s' : σ} {w w' : W} {u : Unit}
    (hp : h.Exec p s w u s' w') :
    ∃ τ, h.Run ⟨some p, s, w⟩ τ ⟨none, s', w'⟩ ∧ ∀ e, .event e ∉ τ := by
  induction hp with
  | ret a s w => exact ⟨[], Run.refl.tail (.finish s w), fun _ => List.not_mem_nil⟩
  | @get k s s' w w' a _ ih =>
    obtain ⟨τ, hrun, hno⟩ := ih
    exact ⟨τ, (Run.refl.tail (.get k s w)).trans hrun, hno⟩
  | @set k s s₁ s' w w' a _ ih =>
    obtain ⟨τ, hrun, hno⟩ := ih
    exact ⟨τ, (Run.refl.tail (.set k s s₁ w)).trans hrun, hno⟩
  | @call op k s s' w w' a b hb _ ih =>
    obtain ⟨τ, hrun, hno⟩ := ih
    exact ⟨.answer op b :: τ, (Run.refl.tail (.call op k hb)).trans hrun,
      fun e => by simpa using hno e⟩

theorem Run.answers {cond : (op : Op) → σ → Ans op → Prop} (hrun : (h.restrict cond).Run c τ c')
    {op : Op} {a : Ans op} (ha : .answer op a ∈ τ) : ∃ s, cond op s a := by
  induction hrun with
  | refl => exact absurd ha List.not_mem_nil
  | tail _ hs ih =>
    rcases List.mem_append.mp ha with ha | ha
    · exact ih ha
    · cases hs with
      | call op' k hallowed =>
        cases List.mem_singleton.mp ha
        exact ⟨_, hallowed.2⟩
      | start => exact nomatch List.mem_singleton.mp ha
      | get | set | finish | other => exact absurd ha List.not_mem_nil

theorem Run.weaken {cond cond' : (op : Op) → σ → Ans op → Prop}
    (hcond : ∀ op s a, cond op s a → cond' op s a) (hrun : (h.restrict cond).Run c τ c') :
    (h.restrict cond').Run c τ c' := by
  induction hrun with
  | refl => exact .refl
  | tail _ hs ih =>
    refine ih.tail ?_
    cases hs with
    | start e hfires => exact .start e hfires
    | get k s w => exact .get k s w
    | set k s s' w => exact .set k s s' w
    | call op k hallowed => exact .call op k ⟨hallowed.1, hcond op _ _ hallowed.2⟩
    | finish s w => exact .finish s w
    | other code s hother => exact .other code s hother

end Host
end Lib
