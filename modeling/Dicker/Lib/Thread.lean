import Mathlib

/-! An event loop among other threads. The loop runs one callback at a time; a callback
reads and writes the state the loop owns and calls operations that also touch a world the
other threads share, and any number of their steps may come between two of its own.

`vc` is the proof obligation for one callback: each of its steps is one of a list of moves
and keeps an assertion about both states, which the others keep as well, and what it ends in
is known of the owned state. -/

namespace Lib

inductive Thread (σ Op : Type) (Ans : Op → Type) (α : Type) where
  | ret (a : α)
  | get (k : σ → Thread σ Op Ans α)
  | set (s : σ) (k : Thread σ Op Ans α)
  | call (op : Op) (k : Ans op → Thread σ Op Ans α)

namespace Thread
variable {σ Op : Type} {Ans : Op → Type} {α β : Type}

def bind : Thread σ Op Ans α → (α → Thread σ Op Ans β) → Thread σ Op Ans β
  | ret a, f => f a
  | get k, f => get fun s => (k s).bind f
  | set s k, f => set s (k.bind f)
  | call op k, f => call op fun a => (k a).bind f

instance : Monad (Thread σ Op Ans) where
  pure := ret
  bind := bind

def modify (f : σ → σ) : Thread σ Op Ans Unit := get fun s => set (f s) (ret ())

def perform (op : Op) : Thread σ Op Ans (Ans op) := call op ret

@[simp] theorem pure_eq (a : α) : (pure a : Thread σ Op Ans α) = ret a := rfl

@[simp] theorem ret_bind (a : α) (f : α → Thread σ Op Ans β) : (ret a >>= f) = f a := rfl

@[simp] theorem modify_bind (g : σ → σ) (f : Unit → Thread σ Op Ans β) :
    (modify g >>= f) = get fun s => set (g s) (f ()) := rfl

@[simp] theorem perform_bind (op : Op) (f : Ans op → Thread σ Op Ans β) :
    (perform op >>= f) = call op f := rfl

end Thread

/-- What surrounds the loop thread: which answers an operation may give, what it does to
either state, which events may call back, and what the other threads may do. -/
structure Host (σ Op : Type) (Ans : Op → Type) (W Event : Type) where
  allowed : (op : Op) → σ → W → Ans op → Prop
  own : (op : Op) → Ans op → σ → σ
  shared : (op : Op) → Ans op → W → W
  fires : Event → σ → W → Prop
  /-- the owned state at the start of the callback -/
  takes : Event → σ → σ
  clears : Event → W → W
  handler : Event → Thread σ Op Ans Unit
  others : W → W → Prop

structure Loop (σ Op : Type) (Ans : Op → Type) (W : Type) where
  code : Option (Thread σ Op Ans Unit)
  own : σ
  world : W

namespace Host
open Thread Relation
variable {σ Op : Type} {Ans : Op → Type} {W Event : Type} {α β : Type}

def restrict (h : Host σ Op Ans W Event) (cond : (op : Op) → σ → Ans op → Prop) :
    Host σ Op Ans W Event :=
  { h with allowed := fun op s w a => h.allowed op s w a ∧ cond op s a }

/-- The host on the runs in which an event calls back only where `ok` allows it. -/
def limit (h : Host σ Op Ans W Event) (ok : Event → σ → W → Prop) : Host σ Op Ans W Event :=
  { h with fires := fun e s w => h.fires e s w ∧ ok e s w }

variable (h : Host σ Op Ans W Event)

inductive Step : Loop σ Op Ans W → Loop σ Op Ans W → Prop
  | start (e : Event) {s : σ} {w : W} (hfires : h.fires e s w) :
      Step ⟨none, s, w⟩ ⟨some (h.handler e), h.takes e s, h.clears e w⟩
  | get (k : σ → Thread σ Op Ans Unit) (s : σ) (w : W) :
      Step ⟨some (.get k), s, w⟩ ⟨some (k s), s, w⟩
  | set (k : Thread σ Op Ans Unit) (s s' : σ) (w : W) :
      Step ⟨some (.set s' k), s, w⟩ ⟨some k, s', w⟩
  | call (op : Op) (k : Ans op → Thread σ Op Ans Unit) {s : σ} {w : W} {a : Ans op}
      (hallowed : h.allowed op s w a) :
      Step ⟨some (.call op k), s, w⟩ ⟨some (k a), h.own op a s, h.shared op a w⟩
  | finish (s : σ) (w : W) : Step ⟨some (.ret ()), s, w⟩ ⟨none, s, w⟩
  | other (code : Option (Thread σ Op Ans Unit)) (s : σ) {w w' : W} (hother : h.others w w') :
      Step ⟨code, s, w⟩ ⟨code, s, w'⟩

variable {c c' : Loop σ Op Ans W} {s s' : σ} {p : Thread σ Op Ans α} {Q : α → σ → Prop}
  {f : α → Thread σ Op Ans β} {w w' : W} {a : α}

theorem Step.restrict {h : Host σ Op Ans W Event} {cond : (op : Op) → σ → Ans op → Prop}
    (hcond : ∀ op s a, cond op s a) (hs : h.Step c c') : (h.restrict cond).Step c c' := by
  cases hs with
  | start e hfires => exact .start e hfires
  | get k s w => exact .get k s w
  | set k s s' w => exact .set k s s' w
  | call op k hallowed => exact .call op k ⟨hallowed, hcond op _ _⟩
  | finish s w => exact .finish s w
  | other code s hother => exact .other code s hother

theorem Step.unrestrict {h : Host σ Op Ans W Event} {cond : (op : Op) → σ → Ans op → Prop}
    (hs : (h.restrict cond).Step c c') : h.Step c c' := by
  cases hs with
  | start e hfires => exact .start e hfires
  | get k s w => exact .get k s w
  | set k s s' w => exact .set k s s' w
  | call op k hallowed => exact .call op k hallowed.1
  | finish s w => exact .finish s w
  | other code s hother => exact .other code s hother

/-! ## Preconditions -/

def Stable (P : W → Prop) : Prop := ∀ ⦃w w'⦄, P w → h.others w w' → P w'

/-- From here on every step of the thread is a move of `M` and keeps `A`, and it ends in `Q`. -/
def vc (M : σ → W → σ → W → Prop) (A : σ → W → Prop) :
    Thread σ Op Ans α → (α → σ → Prop) → σ → Prop
  | .ret a, Q, s => Q a s
  | .get k, Q, s => vc M A (k s) Q s
  | .set s' k, Q, s => (∀ w, A s w → M s w s' w ∧ A s' w) ∧ vc M A k Q s'
  | .call op k, Q, s => ∀ a w, A s w → h.allowed op s w a →
      (M s w (h.own op a s) (h.shared op a w) ∧ A (h.own op a s) (h.shared op a w)) ∧
        vc M A (k a) Q (h.own op a s)

variable {h} {M : σ → W → σ → W → Prop} {A : σ → W → Prop}

theorem vc_mono {Q' : α → σ → Prop} (hp : h.vc M A p Q s) (hQ : ∀ a s, Q a s → Q' a s) :
    h.vc M A p Q' s := by
  induction p generalizing s with
  | ret a => exact hQ a s hp
  | get k ih => exact ih s hp
  | set s' k ih => exact ⟨hp.1, ih hp.2⟩
  | call op k ih => exact fun a w hA ha => ⟨(hp a w hA ha).1, ih a (hp a w hA ha).2⟩

theorem vc_bind {Q : β → σ → Prop} (hp : h.vc M A p (fun a => h.vc M A (f a) Q) s) :
    h.vc M A (p >>= f) Q s := by
  induction p generalizing s with
  | ret a => exact hp
  | get k ih => exact ih s hp
  | set s' k ih => exact ⟨hp.1, ih hp.2⟩
  | call op k ih => exact fun a w hA ha => ⟨(hp a w hA ha).1, ih a (hp a w hA ha).2⟩

def Handles (h : Host σ Op Ans W Event) (M : σ → W → σ → W → Prop) (A : σ → W → Prop) (I : σ → Prop)
    (p : Thread σ Op Ans Unit) (s : σ) (w : W) : Prop :=
  ∃ A' : σ → W → Prop, (∀ s w, A' s w → A s w) ∧ (∀ s, h.Stable (A' s)) ∧ A' s w ∧
    h.vc M A' p (fun _ s => ∀ w, A' s w → I s) s

def Proceeds (h : Host σ Op Ans W Event) (M : σ → W → σ → W → Prop)
    (A : σ → W → Prop) (I : σ → Prop) (c : Loop σ Op Ans W) : Prop :=
  match c.code with
  | none => I c.own ∧ A c.own c.world
  | some p => h.Handles M A I p c.own c.world

theorem Proceeds.holds {I : σ → Prop} (hc : h.Proceeds M A I c) :
    A c.own c.world ∧ (c.code = none → I c.own) := by
  obtain ⟨code, s, w⟩ := c
  cases code with
  | none => exact ⟨hc.2, fun _ => hc.1⟩
  | some p =>
    obtain ⟨A', himp, _, hA, _⟩ := hc
    exact ⟨himp s w hA, fun hnone => nomatch hnone⟩

section
variable {I : σ → Prop} (hstable : ∀ s, h.Stable (A s))
  (hevent : ∀ e s w, I s → A s w → h.fires e s w →
    h.Handles M A I (h.handler e) (h.takes e s) (h.clears e w))
include hstable hevent

theorem Proceeds.step (hc : h.Proceeds M A I c) (hs : h.Step c c') : h.Proceeds M A I c' := by
  cases hs with
  | start e hfires => exact hevent e _ _ hc.1 hc.2 hfires
  | get k s w => exact hc
  | set k s s' w =>
    obtain ⟨A', himp, hst, hA, hvc⟩ := hc
    exact ⟨A', himp, hst, (hvc.1 w hA).2, hvc.2⟩
  | call op k hallowed =>
    obtain ⟨A', himp, hst, hA, hvc⟩ := hc
    exact ⟨A', himp, hst, (hvc _ _ hA hallowed).1.2, (hvc _ _ hA hallowed).2⟩
  | finish s w =>
    obtain ⟨A', himp, _, hA, hvc⟩ := hc
    exact ⟨hvc w hA, himp s w hA⟩
  | other code s hother =>
    cases code with
    | none => exact ⟨hc.1, hstable s hc.2 hother⟩
    | some p =>
      obtain ⟨A', himp, hst, hA, hvc⟩ := hc
      exact ⟨A', himp, hst, hst s hA hother, hvc⟩

theorem Proceeds.reaches (hc : h.Proceeds M A I c) (hr : ReflTransGen h.Step c c') :
    h.Proceeds M A I c' := by
  induction hr with
  | refl => exact hc
  | tail _ hs ih => exact ih.step hstable hevent hs

theorem Proceeds.lasts {P : σ → W → Prop} (hM : ∀ s w s' w', M s w s' w' → P s w → P s' w')
    (hothers : ∀ s, h.Stable (P s))
    (hstart : ∀ e s w, I s → A s w → h.fires e s w → P s w → P (h.takes e s) (h.clears e w))
    (hc : h.Proceeds M A I c) (hr : ReflTransGen h.Step c c') (hP : P c.own c.world) :
    P c'.own c'.world := by
  induction hr with
  | refl => exact hP
  | tail hr hs ih =>
    have hmid := hc.reaches hstable hevent hr
    cases hs with
    | start e hfires => exact hstart e _ _ hmid.1 hmid.2 hfires ih
    | get k s w => exact ih
    | set k s s' w =>
      obtain ⟨A', _, _, hA, hvc⟩ := hmid
      exact hM _ _ _ _ (hvc.1 w hA).1 ih
    | call op k hallowed =>
      obtain ⟨A', _, _, hA, hvc⟩ := hmid
      exact hM _ _ _ _ (hvc _ _ hA hallowed).1.1 ih
    | finish s w => exact ih
    | other code s hother => exact hothers s ih hother

end

/-! ## Invariants of both states -/

def Rests (h : Host σ Op Ans W Event) (A I : σ → W → Prop) (c : Loop σ Op Ans W) : Prop :=
  match c.code with
  | none => I c.own c.world
  | some p =>
    ∃ A' : σ → W → Prop, (∀ s w, A' s w → A s w) ∧ (∀ s, h.Stable (A' s)) ∧ A' c.own c.world ∧
      h.vc (fun _ _ _ _ => True) A' p (fun _ s => ∀ w, A' s w → I s w) c.own

theorem Rests.holds {I : σ → W → Prop} (hc : h.Rests A I c) (hIA : ∀ s w, I s w → A s w) :
    A c.own c.world := by
  obtain ⟨code, s, w⟩ := c
  cases code with
  | none => exact hIA s w hc
  | some p =>
    obtain ⟨A', himp, _, hA, _⟩ := hc
    exact himp s w hA

theorem Rests.step {I : σ → W → Prop} (hstable : ∀ s, h.Stable (I s))
    (hevent : ∀ e s w, I s w → h.fires e s w →
      h.Rests A I ⟨some (h.handler e), h.takes e s, h.clears e w⟩)
    (hc : h.Rests A I c) (hs : h.Step c c') : h.Rests A I c' := by
  cases hs with
  | start e hfires => exact hevent e _ _ hc hfires
  | get k s w => exact hc
  | set k s s' w =>
    obtain ⟨A', himp, hst, hA, hvc⟩ := hc
    exact ⟨A', himp, hst, (hvc.1 w hA).2, hvc.2⟩
  | call op k hallowed =>
    obtain ⟨A', himp, hst, hA, hvc⟩ := hc
    exact ⟨A', himp, hst, (hvc _ _ hA hallowed).1.2, (hvc _ _ hA hallowed).2⟩
  | finish s w =>
    obtain ⟨A', himp, _, hA, hvc⟩ := hc
    exact hvc w hA
  | other code s hother =>
    cases code with
    | none => exact hstable s hc hother
    | some p =>
      obtain ⟨A', himp, hst, hA, hvc⟩ := hc
      exact ⟨A', himp, hst, hst s hA hother, hvc⟩

theorem Rests.reaches {I : σ → W → Prop} (hstable : ∀ s, h.Stable (I s))
    (hevent : ∀ e s w, I s w → h.fires e s w →
      h.Rests A I ⟨some (h.handler e), h.takes e s, h.clears e w⟩)
    (hc : h.Rests A I c) (hr : ReflTransGen h.Step c c') : h.Rests A I c' := by
  induction hr with
  | refl => exact hc
  | tail _ hs ih => exact ih.step hstable hevent hs

theorem vc_limit {ok : Event → σ → W → Prop} {Q' : α → σ → Prop} (hp : h.vc M A p Q s)
    (hQ : ∀ a s, Q a s → Q' a s) : (h.limit ok).vc (fun _ _ _ _ => True) A p Q' s := by
  induction p generalizing s with
  | ret a => exact hQ a s hp
  | get k ih => exact ih s hp
  | set s' k ih => exact ⟨fun w hA => ⟨trivial, (hp.1 w hA).2⟩, ih hp.2⟩
  | call op k ih => exact fun a w hA ha => ⟨⟨trivial, (hp a w hA ha).1.2⟩, ih a (hp a w hA ha).2⟩

theorem Handles.rests {ok : Event → σ → W → Prop} {I : σ → Prop} {B J : σ → W → Prop}
    {p : Thread σ Op Ans Unit} (hp : h.Handles M A I p s w) (hB : ∀ s w, A s w → B s w)
    (hJ : ∀ s w, I s → A s w → J s w) : (h.limit ok).Rests B J ⟨some p, s, w⟩ := by
  obtain ⟨A', himp, hstable, hA, hvc⟩ := hp
  refine ⟨A', fun s w h => hB s w (himp s w h), hstable, hA, vc_limit hvc fun _ s h w hAw => ?_⟩
  exact hJ s w (h w hAw) (himp s w hAw)

/-! ## Running a callback to its end -/

variable (h) in
inductive Exec : Thread σ Op Ans α → σ → W → α → σ → W → Prop
  | ret (a : α) (s : σ) (w : W) : Exec (.ret a) s w a s w
  | get {k : σ → Thread σ Op Ans α} {s s' : σ} {w w' : W} {a : α} (hk : Exec (k s) s w a s' w') :
      Exec (.get k) s w a s' w'
  | set {k : Thread σ Op Ans α} {s s₁ s' : σ} {w w' : W} {a : α} (hk : Exec k s₁ w a s' w') :
      Exec (.set s₁ k) s w a s' w'
  | call {op : Op} {k : Ans op → Thread σ Op Ans α} {s s' : σ} {w w' : W} {a : α} (b : Ans op)
      (hb : h.allowed op s w b) (hk : Exec (k b) (h.own op b s) (h.shared op b w) a s' w') :
      Exec (.call op k) s w a s' w'

@[simp] theorem exec_ret {b : α} : h.Exec (.ret a) s w b s' w' ↔ b = a ∧ s' = s ∧ w' = w := by
  constructor
  · rintro ⟨⟩
    exact ⟨rfl, rfl, rfl⟩
  · rintro ⟨rfl, rfl, rfl⟩
    exact .ret b s' w'

@[simp] theorem exec_get {k : σ → Thread σ Op Ans α} :
    h.Exec (.get k) s w a s' w' ↔ h.Exec (k s) s w a s' w' := by
  constructor
  · rintro ⟨⟩
    assumption
  · exact .get

@[simp] theorem exec_set {k : Thread σ Op Ans α} {s₁ : σ} :
    h.Exec (.set s₁ k) s w a s' w' ↔ h.Exec k s₁ w a s' w' := by
  constructor
  · rintro ⟨⟩
    assumption
  · exact .set

@[simp] theorem exec_call {op : Op} {k : Ans op → Thread σ Op Ans α} :
    h.Exec (.call op k) s w a s' w' ↔
      ∃ b, h.allowed op s w b ∧ h.Exec (k b) (h.own op b s) (h.shared op b w) a s' w' := by
  constructor
  · rintro ⟨⟩
    exact ⟨_, ‹_›, ‹_›⟩
  · rintro ⟨b, hb, hk⟩
    exact .call b hb hk

theorem Exec.ends (hp : h.Exec p s w a s' w') (hvc : h.vc M A p Q s) (hA : A s w) :
    Q a s' ∧ A s' w' := by
  induction hp with
  | ret a s w => exact ⟨hvc, hA⟩
  | get _ ih => exact ih hvc hA
  | set _ ih => exact ih hvc.2 (hvc.1 _ hA).2
  | call b hb _ ih => exact ih (hvc b _ hA hb).2 (hvc b _ hA hb).1.2

theorem Exec.bind {s'' : σ} {w'' : W} {b : β} (hp : h.Exec p s w a s' w')
    (hf : h.Exec (f a) s' w' b s'' w'') : h.Exec (p >>= f) s w b s'' w'' := by
  induction hp with
  | ret a s w => exact hf
  | get _ ih => exact .get (ih hf)
  | set _ ih => exact .set (ih hf)
  | call c hc _ ih => exact .call c hc (ih hf)

theorem Exec.of_bind {s'' : σ} {w'' : W} {b : β} (hp : h.Exec (p >>= f) s w b s'' w'') :
    ∃ a s' w', h.Exec p s w a s' w' ∧ h.Exec (f a) s' w' b s'' w'' := by
  induction p generalizing s w with
  | ret a => exact ⟨a, s, w, .ret a s w, hp⟩
  | get k ih =>
    obtain ⟨a, s', w', hk, hf⟩ := ih s (exec_get.mp hp)
    exact ⟨a, s', w', .get hk, hf⟩
  | set s₁ k ih =>
    obtain ⟨a, s', w', hk, hf⟩ := ih (exec_set.mp hp)
    exact ⟨a, s', w', .set hk, hf⟩
  | call op k ih =>
    obtain ⟨c, hc, hrest⟩ := exec_call.mp hp
    obtain ⟨a, s', w', hk, hf⟩ := ih c hrest
    exact ⟨a, s', w', .call c hc hk, hf⟩

theorem Exec.steps {p : Thread σ Op Ans Unit} {u : Unit} (hp : h.Exec p s w u s' w') :
    ReflTransGen h.Step ⟨some p, s, w⟩ ⟨none, s', w'⟩ := by
  induction hp with
  | ret a s w => exact .single (.finish s w)
  | get _ ih => exact ih.head (.get _ _ _)
  | set _ ih => exact ih.head (.set _ _ _ _)
  | call b hb _ ih => exact ih.head (.call _ _ hb)

theorem Exec.mono (h' : Host σ Op Ans W Event)
    (hallowed : ∀ op s w a, h.allowed op s w a → h'.allowed op s w a) (hown : h'.own = h.own)
    (hshared : h'.shared = h.shared) (hp : h.Exec p s w a s' w') : h'.Exec p s w a s' w' := by
  induction hp with
  | ret a s w => exact .ret a s w
  | get _ ih => exact .get ih
  | set _ ih => exact .set ih
  | call b hb _ ih =>
    refine .call b (hallowed _ _ _ _ hb) ?_
    rw [hown, hshared]
    exact ih

theorem Exec.event {e : Event} (hfires : h.fires e s w)
    (hp : h.Exec (h.handler e) (h.takes e s) (h.clears e w) () s' w') :
    ReflTransGen h.Step ⟨none, s, w⟩ ⟨none, s', w'⟩ := hp.steps.head (.start e hfires)

/-! ## Running with given answers -/

/-- The program by itself, where `answers` says what each of its operations answers. -/
def answered (h : Host σ Op Ans Unit Event) (answers : (op : Op) → Ans op) :
    Thread σ Op Ans α → σ → α × σ
  | .ret a, s => (a, s)
  | .get k, s => h.answered answers (k s) s
  | .set s k, _ => h.answered answers k s
  | .call op k, s => h.answered answers (k (answers op)) (h.own op (answers op) s)

theorem answered_bind (h : Host σ Op Ans Unit Event) (answers : (op : Op) → Ans op)
    (p : Thread σ Op Ans α) (f : α → Thread σ Op Ans β) (s : σ) : h.answered answers (p >>= f) s =
      h.answered answers (f (h.answered answers p s).1) (h.answered answers p s).2 := by
  induction p generalizing s with
  | ret a => rfl
  | get k ih => exact ih s s
  | set s₁ k ih => exact ih s₁
  | call op k ih => exact ih (answers op) (h.own op (answers op) s)

theorem exec_answered {h : Host σ Op Ans Unit Event} (hallowed : ∀ op s a, h.allowed op s () a)
    (answers : (op : Op) → Ans op) (p : Thread σ Op Ans α) (s : σ) :
    h.Exec p s () (h.answered answers p s).1 (h.answered answers p s).2 () := by
  induction p generalizing s with
  | ret a => exact .ret a s ()
  | get k ih => exact .get (ih s s)
  | set s₁ k ih => exact .set (ih s₁)
  | call op k ih => exact .call (answers op) (hallowed op s _) (ih _ _)

end Host
end Lib
