import Dicker.Lib.Traced

/-! Programs between two assertions on the state and the history, with a third one that holds after
each of their steps; and what a history has given until and since something happened in it. -/

namespace Lib

section
variable {α β : Type} {p : α → Bool} {f : α → List β} {l : List α} {x : α}

def since (p : α → Bool) (f : α → List β) (l : List α) : List β :=
  (l.dropWhile fun x => !p x).tail.flatMap f

theorem since_append (p : α → Bool) (f : α → List β) (l : List α) (x : α) :
    since p f (l ++ [x]) = if l.any p then since p f l ++ f x else [] := by
  induction l with
  | nil => cases h : p x <;> simp [since, h]
  | cons y l ih =>
    cases h : p y
    · simpa [since, h] using ih
    · simp [since, h]

theorem since_append_of_any (h : l.any p = true) (l' : List α) :
    since p f (l ++ l') = since p f l ++ l'.flatMap f := by
  induction l with
  | nil => exact absurd h Bool.false_ne_true
  | cons y l ih =>
    cases hy : p y
    · simpa [since, hy] using ih (by simpa [hy] using h)
    · simp [since, hy]

theorem since_of_not_any (h : l.any p = false) : since p f l = [] := by
  have hall : ∀ y ∈ l, (!p y) = true := fun y hy => by simpa using List.any_eq_false.mp h y hy
  rw [since, List.dropWhile_eq_nil_iff.mpr hall]
  rfl

theorem since_append_of_nil (hx : f x = []) : since p f (l ++ [x]) = since p f l := by
  rw [since_append, hx, List.append_nil]
  split_ifs with h
  · rfl
  · exact (since_of_not_any (Bool.eq_false_of_not_eq_true h)).symm

def before (p : α → Bool) (f : α → List β) (l : List α) : List β :=
  (l.takeWhile fun x => !p x).flatMap f

theorem before_append (p : α → Bool) (f : α → List β) (l : List α) (x : α) :
    before p f (l ++ [x]) = if l.any p || p x then before p f l else before p f l ++ f x := by
  induction l with
  | nil => cases h : p x <;> simp [before, h]
  | cons y l ih =>
    cases h : p y
    · rw [List.any_cons, h, Bool.false_or]
      have hcons : ∀ m, before p f (y :: m) = f y ++ before p f m := fun m => by simp [before, h]
      rw [List.cons_append, hcons, hcons, ih]
      split_ifs
      · rfl
      · rw [List.append_assoc]
    · simp [before, h]

theorem any_append_singleton (p : α → Bool) (l : List α) (x : α) :
    (l ++ [x]).any p = (l.any p || p x) := by
  rw [List.any_append, List.any_cons, List.any_nil, Bool.or_false]

end

namespace Host
open Thread
variable {σ Op : Type} {Ans : Op → Type} {W Event : Type} {α β : Type}

/-- From `P` the program goes to `Q`, and `A` holds after every one of its steps. -/
def Leads (h : Host σ Op Ans W Event) (A P : σ → Trace Op Ans Event → Prop) (p : Thread σ Op Ans α)
    (Q : α → σ → Trace Op Ans Event → Prop) : Prop := ∀ s τ, P s τ → h.always A p Q s τ

variable {h : Host σ Op Ans W Event} {others : W → W → Prop} {c c' : Loop σ Op Ans W}
  {l τ : Trace Op Ans Event}

theorem Emits.relax (hothers : ∀ w w', h.others w w' → others w w') (hs : h.Emits c l c') :
    ({ h with others := others } : Host σ Op Ans W Event).Emits c l c' := by
  cases hs with
  | start e hfires => exact .start e hfires
  | get k s w => exact .get k s w
  | set k s s' w => exact .set k s s' w
  | call op k hallowed => exact .call op k hallowed
  | finish s w => exact .finish s w
  | other code s hother => exact .other code s (hothers _ _ hother)

theorem Run.relax (hothers : ∀ w w', h.others w w' → others w w') (hrun : h.Run c τ c') :
    ({ h with others := others } : Host σ Op Ans W Event).Run c τ c' := by
  induction hrun with
  | refl => exact .refl
  | tail _ hs ih => exact ih.tail (hs.relax hothers)

namespace Leads
variable {A P P' : σ → Trace Op Ans Event → Prop}
  {Q Q' : α → σ → Trace Op Ans Event → Prop}

theorem ret {a : α} (hQ : ∀ s τ, P s τ → Q a s τ) : h.Leads A P (.ret a) Q := hQ

theorem bind {p : Thread σ Op Ans β} {f : β → Thread σ Op Ans α}
    {R : β → σ → Trace Op Ans Event → Prop} (hp : h.Leads A P p R)
    (hf : ∀ b, h.Leads A (R b) (f b) Q) : h.Leads A P (p >>= f) Q :=
  fun s τ hs => always_bind (always_mono (hp s τ hs) hf)

theorem mono {p : Thread σ Op Ans α} (hp : h.Leads A P' p Q') (hP : ∀ s τ, P s τ → P' s τ)
    (hQ : ∀ a s τ, Q' a s τ → Q a s τ) : h.Leads A P p Q :=
  fun s τ hs => always_mono (hp s τ (hP s τ hs)) hQ

theorem ite {C : Prop} [Decidable C] {p q : Thread σ Op Ans α} (hp : C → h.Leads A P p Q)
    (hq : ¬C → h.Leads A P q Q) : h.Leads A P (if C then p else q) Q := by
  split_ifs with hc
  · exact hp hc
  · exact hq hc

theorem modify {f : σ → σ} {Q : Unit → σ → Trace Op Ans Event → Prop}
    (hf : ∀ s τ, P s τ → A (f s) τ ∧ Q () (f s) τ) : h.Leads A P (Thread.modify f) Q := hf

theorem perform {op : Op} {Q : Ans op → σ → Trace Op Ans Event → Prop}
    (hop : ∀ s τ a, P s τ → A (h.own op a s) (τ ++ [.answer op a]) ∧
      Q a (h.own op a s) (τ ++ [.answer op a])) :
    h.Leads A P (Thread.perform op) Q := fun s τ hs a _ _ => hop s τ a hs

end Leads
end Host
end Lib
