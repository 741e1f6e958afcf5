import Dicker.Lib.Program

/-! Stages in continuation-passing style. A stage is a program that may, besides its own calls, run
what comes after it, any number of times or not at all. `Keeps` is the rule for what holds of the
log whenever a call is made, in runs that need not come to an end. -/

namespace Lib
variable {Op Own C α β : Type} {Ans : Op → Type}

namespace Program

/-- `p.Calls t op`: the program can make the call `op` when it has done `t`. -/
inductive Calls : Program Op Ans α → List (Entry Op Ans) → Op → Prop where
  | here (op : Op) (k : Ans op → Program Op Ans α) : Calls (.call op k) [] op
  | call {op op' : Op} {k : Ans op → Program Op Ans α} {t : List (Entry Op Ans)} (b : Ans op)
      (h : Calls (k b) t op') : Calls (.call op k) (.did op b :: t) op'
  | read {n : ℕ} {k : Option (List UInt8) → Program Op Ans α} {z : List UInt8}
      {t : List (Entry Op Ans)} {op : Op}
      (hz : z.length = n) (h : Calls (k (some z)) t op) : Calls (.read n k) (.got z :: t) op
  | closed {n : ℕ} {k : Option (List UInt8) → Program Op Ans α} {t : List (Entry Op Ans)} {op : Op}
      (h : Calls (k none) t op) : Calls (.read n k) t op

def Keeps (I : List (Entry Op Ans) → Op → Prop) (M : List (Entry Op Ans) → Prop) :
    Program Op Ans α → List (Entry Op Ans) → Prop
  | ret _, t => M t
  | read _ k, t => (∀ z, (k (some z)).Keeps I M (t ++ [.got z])) ∧ (k none).Keeps I M t
  | call op k, t => I t op ∧ ∀ b, (k b).Keeps I M (t ++ [.did op b])

variable {I : List (Entry Op Ans) → Op → Prop} {M M' : List (Entry Op Ans) → Prop}
  {t t' : List (Entry Op Ans)}

theorem Keeps.allowed {p : Program Op Ans α} {op : Op} (h : p.Keeps I M t)
    (hcalls : p.Calls t' op) :
    I (t ++ t') op := by
  induction hcalls generalizing t with
  | here op k => exact (List.append_nil t).symm ▸ h.1
  | call b _ ih =>
    have hrest := ih (h.2 b)
    rwa [List.append_assoc] at hrest
  | read hz _ ih =>
    have hrest := ih (h.1 _)
    rwa [List.append_assoc] at hrest
  | closed _ ih => exact ih h.2

theorem Keeps.weaken {p : Program Op Ans α} (h : p.Keeps I M t) (hM : ∀ t, M t → M' t) :
    p.Keeps I M' t := by
  induction p generalizing t with
  | ret a => exact hM t h
  | read n k ih => exact ⟨fun z => ih (some z) (h.1 z), ih none h.2⟩
  | call op k ih => exact ⟨h.1, fun b => ih b (h.2 b)⟩

theorem Keeps.bind {p : Program Op Ans α} {f : α → Program Op Ans β} (h : p.Keeps I M t)
    (hf : ∀ a t, M t → (f a).Keeps I M' t) : (p >>= f).Keeps I M' t := by
  induction p generalizing t with
  | ret a => exact hf a t h
  | read n k ih => exact ⟨fun z => ih (some z) (h.1 z), ih none h.2⟩
  | call op k ih => exact ⟨h.1, fun b => ih b (h.2 b)⟩

end Program

open Program

inductive StageOp (C Own : Type) where
  | next (c : C)
  | own (o : Own)

def StageAns (C : Type) {Own : Type} (Ans : Own → Type) : StageOp C Own → Type
  | .next _ => C
  | .own o => Ans o

def through (lift : Own → Op) (next : C → Program Op Ans C) :
    Program (StageOp C Own) (StageAns C fun o => Ans (lift o)) α → Program Op Ans α
  | .ret a => .ret a
  | .read n k => .read n fun r => through lift next (k r)
  | .call (.next c) k => next c >>= fun c' => through lift next (k c')
  | .call (.own o) k => .call (lift o) fun b => through lift next (k b)

theorem keeps_through (lift : Own → Op) {next : C → Program Op Ans C}
    {I : List (Entry Op Ans) → Op → Prop} {M : List (Entry Op Ans) → Prop}
    (hnext : ∀ c t, M t → (next c).Keeps I M t)
    (hown : ∀ o t, M t → I t (lift o) ∧ ∀ b, M (t ++ [.did (lift o) b]))
    (hgot : ∀ z t, M t → M (t ++ [.got z]))
    (p : Program (StageOp C Own) (StageAns C fun o => Ans (lift o)) α) {t : List (Entry Op Ans)}
    (h : M t) : (through lift next p).Keeps I M t := by
  induction p generalizing t with
  | ret a => exact h
  | read n k ih => exact ⟨fun z => ih (some z) (hgot z t h), ih none h⟩
  | call op k ih =>
    cases op with
    | next c => exact (hnext c t h).bind fun c' t' h' => ih c' h'
    | own o => exact ⟨(hown o t h).1, fun b => ih b ((hown o t h).2 b)⟩

end Lib
