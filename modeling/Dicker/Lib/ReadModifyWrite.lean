import Mathlib

/-! Clients that read a shared value, compute a new one and put it in place of the old. Each of them
may leave the value alone. As long as a client replaces only the value it has read, whatever they
have done together is what they do one after another. -/

namespace Lib.ReadModifyWrite
open Relation
variable {ι S : Type}

inductive Phase (S : Type) where
  | idle
  | holding (seen new : S)
  | done

structure State (ι S : Type) where
  value : S
  phase : ι → Phase S

def start (v : S) : State ι S := ⟨v, fun _ => .idle⟩

variable (modify : ι → S → Option S)

inductive Step [DecidableEq ι] : State ι S → State ι S → Prop where
  | pass {s : State ι S} (i : ι) (hidle : s.phase i = .idle) (h : modify i s.value = none) :
      Step s ⟨s.value, Function.update s.phase i .done⟩
  | take {s : State ι S} (i : ι) {new : S} (hidle : s.phase i = .idle)
      (h : modify i s.value = some new) :
      Step s ⟨s.value, Function.update s.phase i (.holding s.value new)⟩
  | put {s : State ι S} (i : ι) {new : S} (h : s.phase i = .holding s.value new) :
      Step s ⟨new, Function.update s.phase i .done⟩

def serially (order : List ι) (v : S) : S := order.foldl (fun v i => (modify i v).getD v) v

structure Serial (v₀ : S) (s : State ι S) (order : List ι) : Prop where
  nodup : order.Nodup
  done : ∀ i, i ∈ order ↔ s.phase i = .done
  value : s.value = serially modify order v₀
  holding : ∀ i seen new, s.phase i = .holding seen new → modify i seen = some new

variable {modify} {v₀ : S} {s s' : State ι S} {order : List ι}

theorem serially_concat (order : List ι) (i : ι) (v : S) :
    serially modify (order ++ [i]) v = (modify i (serially modify order v)).getD
      (serially modify order v) := by
  unfold serially
  rw [List.foldl_append]
  rfl

variable [DecidableEq ι]

theorem Serial.turn (h : Serial modify v₀ s order) {i : ι} (hi : s.phase i ≠ .done) {new : S}
    (hnew : new = (modify i s.value).getD s.value) :
    Serial modify v₀ ⟨new, Function.update s.phase i .done⟩ (order ++ [i]) where
  nodup := by
    rw [List.nodup_append_comm, List.singleton_append, List.nodup_cons]
    exact ⟨fun hmem => hi ((h.done i).mp hmem), h.nodup⟩
  done j := by
    rw [List.mem_append, List.mem_singleton, h.done]
    change _ ↔ Function.update s.phase i .done j = .done
    rcases eq_or_ne j i with rfl | hne
    · simp
    · simp [hne]
  value := by rw [serially_concat, ← h.value, hnew]
  holding j seen new' hj := by
    change Function.update s.phase i .done j = .holding seen new' at hj
    rcases eq_or_ne j i with rfl | hne
    · rw [Function.update_self] at hj
      cases hj
    · rw [Function.update_of_ne hne] at hj
      exact h.holding j seen new' hj

theorem Serial.step (h : Serial modify v₀ s order) (hstep : Step modify s s') :
    ∃ order', Serial modify v₀ s' order' := by
  cases hstep with
  | pass i hidle hnone =>
    refine ⟨order ++ [i], h.turn (by rw [hidle]; exact nofun) ?_⟩
    rw [hnone]
    rfl
  | @take i new hidle hsome =>
    refine ⟨order, h.nodup, fun j => ?_, h.value, fun j seen new' hj => ?_⟩
    · change _ ↔ Function.update s.phase i _ j = .done
      rw [h.done]
      rcases eq_or_ne j i with rfl | hne
      · simp [hidle]
      · rw [Function.update_of_ne hne]
    · change Function.update s.phase i (.holding s.value new) j = .holding seen new' at hj
      rcases eq_or_ne j i with rfl | hne
      · rw [Function.update_self] at hj
        cases hj
        exact hsome
      · rw [Function.update_of_ne hne] at hj
        exact h.holding j seen new' hj
  | put i hhold =>
    refine ⟨order ++ [i], h.turn (by rw [hhold]; exact nofun) ?_⟩
    rw [h.holding i _ _ hhold]
    rfl

theorem serial_of_reaches (h : ReflTransGen (Step modify) (start v₀) s) :
    ∃ order, Serial modify v₀ s order := by
  induction h with
  | refl => exact ⟨[], List.nodup_nil, fun i => ⟨nofun, nofun⟩, rfl, nofun⟩
  | tail _ hstep ih =>
    obtain ⟨order, horder⟩ := ih
    exact horder.step hstep

end Lib.ReadModifyWrite
