import Dicker.Lib.Loop

/-! Loops that end because something falls with every pass. The body of such a loop is a program,
so its results have to carry what is known of them into the recursion. -/

namespace Lib.Program
variable {Op : Type} {Ans : Op → Type} {α β : Type}

def Yields : Program Op Ans α → α → List (Entry Op Ans) → Prop
  | ret a, b, t => a = b ∧ t = []
  | read _ k, b, t => (k none).Yields b t ∨ ∃ z t', (k (some z)).Yields b t' ∧ t = .got z :: t'
  | call op k, b, t => ∃ ans t', (k ans).Yields b t' ∧ t = .did op ans :: t'

variable {p : Program Op Ans α}

theorem wp_of_yields {Q : α → List (Entry Op Ans) → Prop} (h : ∀ a t, p.Yields a t → Q a t) :
    p.wp Q := by
  induction p generalizing Q with
  | ret a => exact h a [] ⟨rfl, rfl⟩
  | read n k ih =>
    refine ⟨fun z _ => ?_, ?_⟩
    · exact ih (some z) fun a t ha => h a _ (.inr ⟨z, t, ha, rfl⟩)
    · exact ih none fun a t ha => h a t (.inl ha)
  | call op k ih => exact fun ans => ih ans fun a t ha => h a _ ⟨ans, t, ha, rfl⟩

theorem exists_yields {P : (op : Op) → Ans op → Prop} (hans : ∀ op, ∃ a, P op a)
    (p : Program Op Ans α) : ∃ a t, p.Yields a t ∧ ∀ op a, .did op a ∈ t → P op a := by
  induction p with
  | ret a => exact ⟨a, [], ⟨rfl, rfl⟩, nofun⟩
  | read n k ih =>
    obtain ⟨a, t, h, hall⟩ := ih none
    exact ⟨a, t, .inl h, hall⟩
  | call op k ih =>
    obtain ⟨ans, hop⟩ := hans op
    obtain ⟨a, t, h, hall⟩ := ih ans
    refine ⟨a, _, ⟨ans, t, h, rfl⟩, fun op' a' hmem => ?_⟩
    rcases List.mem_cons.mp hmem with heq | hmem
    · cases heq
      exact hop
    · exact hall op' a' hmem

theorem Yields.of_bind {f : α → Program Op Ans β} {b : β} {t : List (Entry Op Ans)}
    (h : (p >>= f).Yields b t) : ∃ a t₁ t₂, p.Yields a t₁ ∧ (f a).Yields b t₂ ∧ t = t₁ ++ t₂ := by
  induction p generalizing t with
  | ret a => exact ⟨a, [], t, ⟨rfl, rfl⟩, h, rfl⟩
  | read n k ih =>
    rcases h with h | ⟨z, t', h, rfl⟩
    · obtain ⟨a, t₁, t₂, ha, hb, rfl⟩ := ih none h
      exact ⟨a, t₁, t₂, .inl ha, hb, rfl⟩
    · obtain ⟨a, t₁, t₂, ha, hb, rfl⟩ := ih (some z) h
      exact ⟨a, _, t₂, .inr ⟨z, t₁, ha, rfl⟩, hb, rfl⟩
  | call op k ih =>
    obtain ⟨ans, t', h, rfl⟩ := h
    obtain ⟨a, t₁, t₂, ha, hb, rfl⟩ := ih ans h
    exact ⟨a, _, t₂, ⟨ans, t₁, ha, rfl⟩, hb, rfl⟩

def attach (P : α → Prop) :
    (p : Program Op Ans α) → (∀ a t, p.Yields a t → P a) → Program Op Ans {a // P a}
  | ret a, h => ret ⟨a, h a [] ⟨rfl, rfl⟩⟩
  | read n k, h => read n fun
    | none => (k none).attach P fun a t ha => h a t (.inl ha)
    | some z => (k (some z)).attach P fun a t ha => h a _ (.inr ⟨z, t, ha, rfl⟩)
  | call op k, h => call op fun ans => (k ans).attach P fun a t ha => h a _ ⟨ans, t, ha, rfl⟩

theorem Yields.of_attach {P : α → Prop} {h : ∀ a t, p.Yields a t → P a} {a : {a // P a}}
    {t : List (Entry Op Ans)} (ha : (p.attach P h).Yields a t) : p.Yields a.1 t := by
  induction p generalizing t with
  | ret b =>
    obtain ⟨rfl, rfl⟩ := ha
    exact ⟨rfl, rfl⟩
  | read n k ih =>
    rw [attach] at ha
    rcases ha with ha | ⟨z, t', ha, rfl⟩
    · exact .inl (ih none ha)
    · exact .inr ⟨z, t', ih (some z) ha, rfl⟩
  | call op k ih =>
    obtain ⟨ans, t', ha, rfl⟩ := ha
    exact ⟨ans, t', ih ans ha, rfl⟩

end Lib.Program

namespace Lib
open Program

structure While (Op : Type) (Ans : Op → Type) (σ : Type) where
  more : σ → Bool
  body : σ → Program Op Ans σ
  measure : σ → ℕ
  falls : ∀ s, more s = true → ∀ s' t, (body s).Yields s' t → measure s' < measure s

namespace While
variable {Op : Type} {Ans : Op → Type} {σ : Type} (w : While Op Ans σ)

def loop (s : σ) : Program Op Ans σ :=
  if h : w.more s = true then
    (w.body s).attach (fun s' => w.measure s' < w.measure s) (w.falls s h) >>= fun s' => loop s'.1
  else ret s
termination_by w.measure s
decreasing_by exact s'.2

variable {s s' : σ} {t : List (Entry Op Ans)}

theorem yields_loop {I : σ → List (Entry Op Ans) → Prop}
    (hstep : ∀ s t s' u, I s t → w.more s = true → (w.body s).Yields s' u → I s' (t ++ u))
    {u : List (Entry Op Ans)} (h : I s t) (hs' : (w.loop s).Yields s' u) :
    I s' (t ++ u) ∧ w.more s' = false := by
  induction hn : w.measure s using Nat.strong_induction_on generalizing s t u with
  | _ n ih =>
    rw [loop] at hs'
    split_ifs at hs' with hmore
    · obtain ⟨m, t₁, t₂, hm, hrest, rfl⟩ := Yields.of_bind hs'
      have hkeep := hstep s t m.1 t₁ h hmore (Yields.of_attach hm)
      rw [← List.append_assoc]
      exact ih _ (hn ▸ m.2) hkeep hrest rfl
    · obtain ⟨rfl, rfl⟩ := hs'
      rw [List.append_nil]
      exact ⟨h, Bool.eq_false_iff.mpr hmore⟩

theorem loop_done (hs' : (w.loop s).Yields s' t) : w.more s' = false :=
  (w.yields_loop (I := fun _ _ => True) (fun _ _ _ _ _ _ _ => trivial) (t := []) trivial hs').2

theorem loop_falls (hs' : (w.loop s).Yields s' t) : s' = s ∨ w.measure s' < w.measure s := by
  refine (w.yields_loop (I := fun m _ => m = s ∨ w.measure m < w.measure s) ?_ (t := [])
    (.inl rfl) hs').1
  rintro m _ m' u (rfl | hm) hmore hm'
  · exact .inr (w.falls m hmore m' u hm')
  · exact .inr ((w.falls m hmore m' u hm').trans hm)

theorem loop_falls_of_more (hmore : w.more s = true) (hs' : (w.loop s).Yields s' t) :
    w.measure s' < w.measure s := by
  rcases w.loop_falls hs' with rfl | hlt
  · exact absurd hmore (Bool.not_eq_true _ ▸ w.loop_done hs')
  · exact hlt

end While
end Lib
