import Mathlib

/-! Glob patterns: lists of wildcards over any alphabet with a separator. -/

namespace Lib

inductive Wildcard (α : Type) where
  | deep
  | run
  | one
  | lit (c : α)
  deriving DecidableEq

section
variable {α : Type} (sep : α) (cross : α → Prop)

def Wildcard.Matches : Wildcard α → List α → Prop
  | deep, s => ∀ c ∈ s, cross c
  | run, s => sep ∉ s
  | one, s => ∃ c, s = [c] ∧ c ≠ sep
  | lit c, s => s = [c]

def globMatches : List (Wildcard α) → List α → Prop
  | [], s => s = []
  | w :: ws, s => ∃ a t, s = a ++ t ∧ w.Matches sep cross a ∧ globMatches ws t

def Shallow (ws : List (Wildcard α)) : Prop := Wildcard.deep ∉ ws ∧ Wildcard.lit sep ∉ ws

variable {sep cross} {cross' : α → Prop} {ws : List (Wildcard α)} {s : List α}

theorem globMatches_mono (hcross : ∀ c ∈ s, cross c → cross' c) (h : globMatches sep cross ws s) :
    globMatches sep cross' ws s := by
  induction ws generalizing s with
  | nil => exact h
  | cons w ws ih =>
    obtain ⟨a, t, rfl, ha, ht⟩ := h
    refine ⟨a, t, rfl, ?_, ih (fun c hc => hcross c (List.mem_append_right _ hc)) ht⟩
    cases w with
    | deep => exact fun c hc => hcross c (List.mem_append_left _ hc) (ha c hc)
    | run | one | lit => exact ha

theorem globMatches_congr (hcross : ∀ c ∈ s, cross c ↔ cross' c) :
    globMatches sep cross ws s ↔ globMatches sep cross' ws s :=
  ⟨globMatches_mono fun c hc => (hcross c hc).mp, globMatches_mono fun c hc => (hcross c hc).mpr⟩

theorem Shallow.globMatches_iff (hws : Shallow sep ws) :
    globMatches sep cross ws s ↔ globMatches sep cross' ws s := by
  induction ws generalizing s with
  | nil => exact Iff.rfl
  | cons w ws ih =>
    obtain ⟨hdeep, hlit⟩ := hws
    have hrest : Shallow sep ws := ⟨fun h => hdeep (.tail _ h), fun h => hlit (.tail _ h)⟩
    have hw : ∀ a, w.Matches sep cross a ↔ w.Matches sep cross' a := by
      cases w with
      | deep => exact absurd (.head _) hdeep
      | run | one | lit => exact fun a => Iff.rfl
    simp only [globMatches, hw, ih hrest]

theorem Shallow.sep_notMem (hws : Shallow sep ws) (h : globMatches sep cross ws s) : sep ∉ s := by
  induction ws generalizing s with
  | nil =>
    rw [globMatches] at h
    rw [h]
    exact List.not_mem_nil
  | cons w ws ih =>
    obtain ⟨a, t, rfl, ha, ht⟩ := h
    obtain ⟨hdeep, hlit⟩ := hws
    have hrest : sep ∉ t := ih ⟨fun h => hdeep (.tail _ h), fun h => hlit (.tail _ h)⟩ ht
    refine fun hmem => (List.mem_append.mp hmem).elim ?_ hrest
    cases w with
    | deep => exact absurd (.head _) hdeep
    | run => exact ha
    | one =>
      obtain ⟨c, rfl, hc⟩ := ha
      exact fun h => hc (List.mem_singleton.mp h).symm
    | lit c =>
      rw [Wildcard.Matches] at ha
      rw [ha]
      rintro h
      rw [List.mem_singleton.mp h] at hlit
      exact hlit (.head _)

end

/-! ## Reading a pattern -/

section
variable {α : Type} [DecidableEq α] (star question : α)

def wildcardOf (c : α) : Wildcard α :=
  if c = star then .run else if c = question then .one else .lit c

def wildcards : List α → List (Wildcard α)
  | [] => []
  | [c] => [wildcardOf star question c]
  | c :: d :: rest =>
    if c = star ∧ d = star then .deep :: wildcards rest
    else wildcardOf star question c :: wildcards (d :: rest)

variable {star question}

theorem wildcardOf_ne_deep (c : α) : wildcardOf star question c ≠ .deep := by
  unfold wildcardOf
  split_ifs <;> exact nofun

theorem wildcardOf_eq_lit {c d : α} (h : wildcardOf star question c = .lit d) : c = d := by
  unfold wildcardOf at h
  split_ifs at h
  exact Wildcard.lit.inj h

theorem mem_of_lit_mem_wildcards {p : List α} {c : α}
    (h : Wildcard.lit c ∈ wildcards star question p) : c ∈ p := by
  induction p using wildcards.induct star with
  | case1 => exact absurd h List.not_mem_nil
  | case2 d =>
    rw [wildcards, List.mem_singleton] at h
    rw [wildcardOf_eq_lit h.symm]
    exact List.mem_singleton_self c
  | case3 d e rest hpair ih =>
    rw [wildcards, if_pos hpair] at h
    rcases List.mem_cons.mp h with h | h
    · exact nomatch h
    · exact .tail _ (.tail _ (ih h))
  | case4 d e rest hpair ih =>
    rw [wildcards, if_neg hpair] at h
    rcases List.mem_cons.mp h with h | h
    · rw [wildcardOf_eq_lit h.symm]
      exact List.mem_cons_self
    · exact .tail _ (ih h)

theorem infix_of_deep_mem_wildcards {p : List α} (h : Wildcard.deep ∈ wildcards star question p) :
    [star, star] <:+: p := by
  induction p using wildcards.induct star with
  | case1 => exact absurd h List.not_mem_nil
  | case2 d =>
    rw [wildcards, List.mem_singleton] at h
    exact absurd h.symm (wildcardOf_ne_deep d)
  | case3 d e rest hpair ih =>
    obtain ⟨rfl, rfl⟩ := hpair
    exact ⟨[], rest, rfl⟩
  | case4 d e rest hpair ih =>
    rw [wildcards, if_neg hpair] at h
    rcases List.mem_cons.mp h with h | h
    · exact absurd h.symm (wildcardOf_ne_deep d)
    · exact (ih h).trans (List.suffix_cons d _).isInfix

theorem shallow_wildcards {sep : α} {p : List α} (hsep : sep ∉ p) (hpair : ¬[star, star] <:+: p) :
    Shallow sep (wildcards star question p) :=
  ⟨fun h => hpair (infix_of_deep_mem_wildcards h), fun h => hsep (mem_of_lit_mem_wildcards h)⟩

end

end Lib
