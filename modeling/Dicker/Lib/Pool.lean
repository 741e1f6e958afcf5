import Dicker.Lib.Loop

/-! Programs that run side by side on a shared state. Each call is one step of the pool;
the programs take their steps in any order. What a finished program has done is known from
its `wp`, and the shared state is the outcome of all calls in the order they were made. -/

namespace Lib
open Program Relation

/-- Which answers a call may get, and what it does to the shared state. -/
structure Store (Op : Type) (Ans : Op → Type) (S : Type) where
  allowed : (op : Op) → Ans op → Prop
  effect : (op : Op) → Ans op → S → S

section
variable {ι Op S α : Type} {Ans : Op → Type}

def Store.permits (h : Store Op Ans S) : Entry Op Ans → Prop
  | .got _ => True
  | .did op a => h.allowed op a

def Store.apply (h : Store Op Ans S) (s : S) : Entry Op Ans → S
  | .got _ => s
  | .did op a => h.effect op a s

structure Pool (ι Op : Type) (Ans : Op → Type) (α S : Type) where
  procs : ι → Program Op Ans α
  log : List (ι × Entry Op Ans)
  state : S

namespace Pool

def start (procs : ι → Program Op Ans α) (s : S) : Pool ι Op Ans α S := ⟨procs, [], s⟩

variable [DecidableEq ι]

inductive Step (h : Store Op Ans S) : Pool ι Op Ans α S → Pool ι Op Ans α S → Prop where
  | act (c : Pool ι Op Ans α S) (i : ι) {op : Op} {k : Ans op → Program Op Ans α} (a : Ans op)
      (hp : c.procs i = .call op k) (ha : h.allowed op a) :
      Step h c ⟨Function.update c.procs i (k a), c.log ++ [(i, .did op a)], h.effect op a c.state⟩

def past (log : List (ι × Entry Op Ans)) (i : ι) : List (Entry Op Ans) :=
  log.filterMap fun e => if e.1 = i then some e.2 else none

variable {i : ι} {c : Pool ι Op Ans α S} {v : α} {s : S}

theorem mem_past {log : List (ι × Entry Op Ans)} {e : Entry Op Ans} :
    e ∈ past log i ↔ (i, e) ∈ log := by
  unfold past
  rw [List.mem_filterMap]
  constructor
  · rintro ⟨⟨j, e'⟩, hmem, he⟩
    split_ifs at he with hj
    cases he
    exact hj ▸ hmem
  · intro hmem
    exact ⟨(i, e), hmem, if_pos rfl⟩

theorem past_append_self (log : List (ι × Entry Op Ans)) (i : ι) (e : Entry Op Ans) :
    past (log ++ [(i, e)]) i = past log i ++ [e] := by
  unfold past
  rw [List.filterMap_append]
  simp

theorem past_append_of_ne (log : List (ι × Entry Op Ans)) {j : ι} (hj : j ≠ i) (e : Entry Op Ans) :
    past (log ++ [(j, e)]) i = past log i := by
  unfold past
  rw [List.filterMap_append]
  simp [hj]

structure Tracks (h : Store Op Ans S) (Q : ι → α → List (Entry Op Ans) → Prop) (s₀ : S)
    (c : Pool ι Op Ans α S) : Prop where
  permitted : ∀ e ∈ c.log, h.permits e.2
  state_eq : c.state = (c.log.map Prod.snd).foldl h.apply s₀
  ahead : ∀ i, (c.procs i).wp fun a t => Q i a (past c.log i ++ t)

variable {h : Store Op Ans S} {Q : ι → α → List (Entry Op Ans) → Prop} {s₀ : S}

theorem Tracks.step {c' : Pool ι Op Ans α S} (ht : Tracks h Q s₀ c) (hstep : Step h c c') :
    Tracks h Q s₀ c' := by
  cases hstep with
  | act i a hp ha =>
    refine ⟨fun e he => ?_, ?_, fun j => ?_⟩
    · rcases List.mem_append.mp he with he | he
      · exact ht.permitted e he
      · rw [List.mem_singleton.mp he]
        exact ha
    · change h.effect _ a c.state = _
      rw [ht.state_eq, List.map_append, List.foldl_append]
      rfl
    · have hahead := ht.ahead j
      change (Function.update c.procs i _ j).wp _
      by_cases hj : j = i
      · subst hj
        rw [hp] at hahead
        rw [Function.update_self, past_append_self]
        refine wp_mono (hahead a) fun v t hv => ?_
        rw [List.append_assoc]
        exact hv
      · rw [Function.update_of_ne hj, past_append_of_ne _ (Ne.symm hj)]
        exact hahead

theorem tracks_of_reaches {procs : ι → Program Op Ans α} (hwp : ∀ i, (procs i).wp (Q i))
    (hc : ReflTransGen (Step h) (start procs s₀) c) : Tracks h Q s₀ c := by
  induction hc with
  | refl => exact ⟨fun e he => absurd he List.not_mem_nil, rfl, hwp⟩
  | tail _ hstep ih => exact ih.step hstep

theorem Tracks.returned (ht : Tracks h Q s₀ c) {a : α} (hret : c.procs i = .ret a) :
    Q i a (past c.log i) := by
  have hahead := ht.ahead i
  rw [hret, wp_ret, List.append_nil] at hahead
  exact hahead

theorem past_eq_all {log : List (ι × Entry Op Ans)} (hothers : ∀ j ≠ i, past log j = []) :
    past log i = log.map Prod.snd := by
  unfold past
  rw [← List.filterMap_eq_map]
  refine List.filterMap_congr fun e he => if_pos ?_
  by_contra hi
  have hmem : e.2 ∈ past log e.1 := mem_past.mpr he
  rw [hothers e.1 hi] at hmem
  exact List.not_mem_nil hmem

/-! ## Taking turns -/

inductive Does (h : Store Op Ans S) :
    Program Op Ans α → S → α → S → List (Entry Op Ans) → Prop where
  | ret (v : α) (s : S) : Does h (.ret v) s v s []
  | call {op : Op} {k : Ans op → Program Op Ans α} {s s' : S} {v : α}
      {t : List (Entry Op Ans)} (a : Ans op)
      (ha : h.allowed op a) (hk : Does h (k a) (h.effect op a s) v s' t) :
      Does h (.call op k) s v s' (.did op a :: t)

theorem Does.exists_call {op : Op} {k : Ans op → Program Op Ans α} (a : Ans op)
    (ha : h.allowed op a) (hk : ∃ s' t, Does h (k a) (h.effect op a s) v s' t) :
    ∃ s' t, Does h (.call op k) s v s' t := by
  obtain ⟨s', t, hk⟩ := hk
  exact ⟨s', _, .call a ha hk⟩

theorem Does.bind {β : Type} {p : Program Op Ans α} {f : α → Program Op Ans β} {s₁ s₂ : S} {w : β}
    {t t' : List (Entry Op Ans)} (hp : Does h p s v s₁ t) (hf : Does h (f v) s₁ w s₂ t') :
    Does h (p >>= f) s w s₂ (t ++ t') := by
  induction hp with
  | ret v s => exact hf
  | call a ha _ ih => exact .call a ha (ih hf)

theorem Does.reaches {p : Program Op Ans α} {s' : S} {t : List (Entry Op Ans)}
    (hp : Does h p s v s' t) (c : Pool ι Op Ans α S) (hc : c.procs i = p) (hs : c.state = s) :
    ReflTransGen (Step h) c ⟨Function.update c.procs i (.ret v), c.log ++ t.map (i, ·), s'⟩ := by
  induction hp generalizing c with
  | ret v s =>
    rw [← hc, ← hs, Function.update_eq_self, List.map_nil, List.append_nil]
  | @call op k s s' v t a ha _ ih =>
    have hstep := Step.act c i a hc ha
    rw [hs] at hstep
    have hrest := ih ⟨Function.update c.procs i (k a), c.log ++ [(i, .did op a)], h.effect op a s⟩
      (Function.update_self ..) rfl
    rw [Function.update_idem, List.append_assoc] at hrest
    exact .head hstep hrest

theorem exists_finished [Fintype ι] (h : Store Op Ans S) (s₀ : S) {procs : ι → Program Op Ans α}
    (hdoes : ∀ i s, ∃ s' t, Does h (procs i) s v s' t) :
    ∃ c, ReflTransGen (Step h) (start procs s₀) c ∧ ∀ i, c.procs i = .ret v := by
  have hsome : ∀ done : Finset ι, ∃ c, ReflTransGen (Step h) (start procs s₀) c ∧
      (∀ i ∈ done, c.procs i = .ret v) ∧ ∀ i ∉ done, c.procs i = procs i := by
    intro done
    induction done using Finset.induction_on with
    | empty => exact ⟨_, .refl, fun i hi => absurd hi (Finset.notMem_empty i), fun i _ => rfl⟩
    | insert i done hi ih =>
      obtain ⟨c, hc, hret, hothers⟩ := ih
      obtain ⟨s', t, hs'⟩ := hdoes i c.state
      refine ⟨_, hc.trans (hs'.reaches c (hothers i hi) rfl), fun j hj => ?_, fun j hj => ?_⟩
      · by_cases hij : j = i
        · rw [hij]
          exact Function.update_self ..
        · exact (Function.update_of_ne hij ..).trans
            (hret j (Finset.mem_of_mem_insert_of_ne hj hij))
      · have hij : j ≠ i := fun h => hj (h ▸ Finset.mem_insert_self i done)
        exact (Function.update_of_ne hij ..).trans
          (hothers j fun h => hj (Finset.mem_insert_of_mem h))
  obtain ⟨c, hc, hret, _⟩ := hsome Finset.univ
  exact ⟨c, hc, fun i => hret i (Finset.mem_univ i)⟩

end Pool
end
end Lib
