import Mathlib

/-! Finitely many threads side by side: how many of them are in some place, and that all of them
come to an end if each of them does. -/

namespace Lib
variable {ι α : Type} [Fintype ι]

/-! ## Counting -/

def tally (w : α → ℕ) (place : ι → α) : ℕ := ∑ i, w (place i)

theorem tally_update [DecidableEq ι] (w : α → ℕ) (place : ι → α) (i : ι) (a : α) :
    tally w (Function.update place i a) + w (place i) = tally w place + w a := by
  have hsplit (f : ι → α) : tally w f = w (f i) + ∑ j ∈ Finset.univ.erase i, w (f j) :=
    (Finset.add_sum_erase _ _ (Finset.mem_univ i)).symm
  have hothers : ∑ j ∈ Finset.univ.erase i, w (Function.update place i a j) =
      ∑ j ∈ Finset.univ.erase i, w (place j) :=
    Finset.sum_congr rfl fun j hj => by rw [Function.update_of_ne (Finset.ne_of_mem_erase hj)]
  rw [hsplit, hsplit place, hothers, Function.update_self]
  omega

theorem tally_pos_iff {w : α → ℕ} {place : ι → α} : 0 < tally w place ↔ ∃ i, 0 < w (place i) := by
  rw [tally, Finset.sum_pos_iff]
  simp only [Finset.mem_univ, true_and]

theorem tally_le {β : Type} {w : α → ℕ} {v : β → ℕ} {place : ι → α} {place' : ι → β}
    (h : ∀ i, w (place i) ≤ v (place' i)) : tally w place ≤ tally v place' :=
  Finset.sum_le_sum fun i _ => h i

/-! ## Ends -/

def Sinks {ρ : Type} (lt : ρ → ρ → Prop) (f g : ι → ρ) : Prop :=
  ∃ i, lt (f i) (g i) ∧ ∀ j ≠ i, f j = g j

theorem sinks_wf [DecidableEq ι] {ρ : Type} {lt : ρ → ρ → Prop} (hlt : WellFounded lt) :
    WellFounded (Sinks lt : (ι → ρ) → (ι → ρ) → Prop) := by
  refine Subrelation.wf ?_ (InvImage.wf (fun f : ι → ρ => Finset.univ.val.map f) hlt.cutExpand)
  rintro f g ⟨i, hi, hothers⟩
  have hsplit (f : ι → ρ) : Finset.univ.val.map f = (Finset.univ.erase i).val.map f + {f i} := by
    conv_lhs => rw [← Multiset.cons_erase (Finset.mem_univ_val i), Multiset.map_cons,
      ← Multiset.singleton_add]
    rw [Finset.erase_val, add_comm]
  have hrest : (Finset.univ.erase i).val.map f = (Finset.univ.erase i).val.map g :=
    Multiset.map_congr rfl fun j hj => hothers j (Finset.ne_of_mem_erase hj)
  change Relation.CutExpand lt (Finset.univ.val.map f) (Finset.univ.val.map g)
  rw [hsplit f, hsplit g, hrest]
  exact Relation.cutExpand_add_single _ hi

end Lib
