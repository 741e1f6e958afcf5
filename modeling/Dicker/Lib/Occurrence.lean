import Mathlib

/-! Where a string first stands in a text, and where a letter last does. -/

namespace Lib
variable {α : Type}

def Occurs (needle text : List α) (i : ℕ) : Prop := needle <+: text.drop i

section
variable {needle s t : List α} {c : α} {i : ℕ}

theorem Occurs.length_le (h : Occurs needle s i) (hne : needle ≠ []) :
    i + needle.length ≤ s.length := by
  have hlen := List.IsPrefix.length_le h
  have hpos := List.length_pos_iff.mpr hne
  rw [List.length_drop] at hlen
  omega

theorem occurs_append_iff (h : i + needle.length ≤ s.length) :
    Occurs needle (s ++ t) i ↔ Occurs needle s i := by
  have hdrop : (s ++ t).drop i = s.drop i ++ t := List.drop_append_of_le_length (by omega)
  have hlen : needle.length ≤ (s.drop i).length := by
    rw [List.length_drop]
    omega
  rw [Occurs, Occurs, hdrop]
  exact ⟨fun h => List.prefix_of_prefix_length_le h (List.prefix_append _ _) hlen,
    fun h => h.trans (List.prefix_append _ _)⟩

theorem Occurs.append (h : Occurs needle s i) (hne : needle ≠ []) (t : List α) :
    Occurs needle (s ++ t) i := (occurs_append_iff (h.length_le hne)).mpr h

theorem infix_iff_occurs : needle <:+: s ↔ ∃ i, Occurs needle s i := by
  constructor
  · rintro ⟨front, back, rfl⟩
    refine ⟨front.length, ?_⟩
    rw [Occurs, List.append_assoc, List.drop_left]
    exact List.prefix_append _ _
  · rintro ⟨i, hi⟩
    exact hi.isInfix.trans (List.drop_suffix i s).isInfix

theorem Occurs.head_eq (h : Occurs (c :: needle) s i) : s[i]? = some c := by
  obtain ⟨rest, heq⟩ := h
  have hget : (s.drop i)[0]? = some c := by
    rw [← heq]
    rfl
  rwa [List.getElem?_drop] at hget

theorem not_occurs_of_notMem (hc : c ∉ s) (hi : i < s.length) :
    ¬Occurs (c :: needle) (s ++ t) i := by
  intro h
  have hget := h.head_eq
  rw [List.getElem?_append_left hi] at hget
  exact hc (List.mem_of_getElem? hget)

end

section
variable [DecidableEq α]

def firstOccurrence (needle : List α) : List α → Option ℕ
  | [] => none
  | x :: text => if needle <+: x :: text then some 0 else (firstOccurrence needle text).map (· + 1)

variable {needle s t : List α} {c : α} {k : ℕ}

theorem firstOccurrence_eq_some_iff (hne : needle ≠ []) :
    firstOccurrence needle s = some k ↔ Occurs needle s k ∧ ∀ j < k, ¬Occurs needle s j := by
  induction s generalizing k with
  | nil =>
    refine ⟨fun h => (nomatch h), fun h => ?_⟩
    have hlen := h.1.length_le hne
    have hpos := List.length_pos_iff.mpr hne
    rw [List.length_nil] at hlen
    omega
  | cons x s ih =>
    unfold firstOccurrence
    split_ifs with hhere
    · constructor
      · rintro ⟨⟩
        exact ⟨hhere, fun j hj => absurd hj (Nat.not_lt_zero j)⟩
      · rintro ⟨-, hbefore⟩
        rcases Nat.eq_zero_or_pos k with rfl | hk
        · rfl
        · exact absurd hhere (hbefore 0 hk)
    · rw [Option.map_eq_some_iff]
      constructor
      · rintro ⟨j, hj, rfl⟩
        obtain ⟨hoccurs, hbefore⟩ := ih.mp hj
        refine ⟨hoccurs, fun i hi => ?_⟩
        cases i with
        | zero => exact hhere
        | succ i => exact hbefore i (Nat.succ_lt_succ_iff.mp hi)
      · rintro ⟨hoccurs, hbefore⟩
        cases k with
        | zero => exact absurd hoccurs hhere
        | succ k =>
          exact ⟨k, ih.mpr ⟨hoccurs, fun i hi => hbefore (i + 1) (Nat.succ_lt_succ hi)⟩, rfl⟩

theorem firstOccurrence_eq_none_iff (hne : needle ≠ []) :
    firstOccurrence needle s = none ↔ ∀ k, ¬Occurs needle s k := by
  constructor
  · intro hnone k hk
    classical
    have hfirst := (firstOccurrence_eq_some_iff hne).mpr
      ⟨Nat.find_spec ⟨k, hk⟩, fun j hj => Nat.find_min ⟨k, hk⟩ hj⟩
    exact nomatch hnone.symm.trans hfirst
  · intro h
    cases hfirst : firstOccurrence needle s with
    | none => rfl
    | some k => exact absurd ((firstOccurrence_eq_some_iff hne).mp hfirst).1 (h k)

theorem firstOccurrence_append (hne : needle ≠ []) (h : firstOccurrence needle s = some k)
    (t : List α) : firstOccurrence needle (s ++ t) = some k := by
  obtain ⟨hoccurs, hbefore⟩ := (firstOccurrence_eq_some_iff hne).mp h
  have hlen := hoccurs.length_le hne
  refine (firstOccurrence_eq_some_iff hne).mpr
    ⟨hoccurs.append hne t, fun j hj hoccurs' => hbefore j hj ?_⟩
  exact (occurs_append_iff (by omega)).mp hoccurs'

theorem firstOccurrence_split (hne : needle ≠ []) (h : firstOccurrence needle s = some k) :
    ∃ rest, s = s.take k ++ (needle ++ rest) ∧ ¬needle <:+: s.take k := by
  obtain ⟨⟨rest, hrest⟩, hbefore⟩ := (firstOccurrence_eq_some_iff hne).mp h
  refine ⟨rest, by rw [hrest, List.take_append_drop], fun hinfix => ?_⟩
  obtain ⟨j, hj⟩ := infix_iff_occurs.mp hinfix
  have hlen := hj.length_le hne
  have hpos := List.length_pos_iff.mpr hne
  rw [List.length_take] at hlen
  have hoccurs := hj.append hne (s.drop k)
  rw [List.take_append_drop] at hoccurs
  exact hbefore j (by omega) hoccurs

theorem firstOccurrence_skip (hne : needle ≠ []) {n : ℕ} (h : ∀ j < n, ¬Occurs needle s j) :
    firstOccurrence needle s = (firstOccurrence needle (s.drop n)).map (n + ·) := by
  have hshift : ∀ i, Occurs needle (s.drop n) i ↔ Occurs needle s (n + i) := by
    intro i
    rw [Occurs, Occurs, List.drop_drop]
  cases hfirst : firstOccurrence needle (s.drop n) with
  | none =>
    rw [firstOccurrence_eq_none_iff hne] at hfirst
    refine (firstOccurrence_eq_none_iff hne).mpr fun k hk => ?_
    rcases Nat.lt_or_ge k n with hlt | hge
    · exact h k hlt hk
    · obtain ⟨i, rfl⟩ := Nat.exists_eq_add_of_le hge
      exact hfirst i ((hshift i).mpr hk)
  | some k =>
    obtain ⟨hoccurs, hbefore⟩ := (firstOccurrence_eq_some_iff hne).mp hfirst
    refine (firstOccurrence_eq_some_iff hne).mpr ⟨(hshift k).mp hoccurs, fun j hj => ?_⟩
    rcases Nat.lt_or_ge j n with hlt | hge
    · exact h j hlt
    · obtain ⟨i, rfl⟩ := Nat.exists_eq_add_of_le hge
      exact fun hj' => hbefore i (Nat.add_lt_add_iff_left.mp hj) ((hshift i).mpr hj')

theorem firstOccurrence_of_notMem (hc : c ∉ s) (needle t : List α) :
    firstOccurrence (c :: needle) (s ++ (c :: needle ++ t)) = some s.length := by
  refine (firstOccurrence_eq_some_iff (List.cons_ne_nil _ _)).mpr
    ⟨?_, fun j hj => not_occurs_of_notMem hc hj⟩
  rw [Occurs, List.drop_left]
  exact List.prefix_append _ _

theorem firstOccurrence_none_of_notMem (hc : c ∉ s) (needle : List α) :
    firstOccurrence (c :: needle) s = none := by
  refine (firstOccurrence_eq_none_iff (List.cons_ne_nil _ _)).mpr fun k hk => ?_
  exact hc (List.mem_of_getElem? hk.head_eq)

def lastIndex (c : α) : List α → Option ℕ
  | [] => none
  | x :: text =>
    match lastIndex c text with
    | some i => some (i + 1)
    | none => if x = c then some 0 else none

theorem lastIndex_of_notMem (hc : c ∉ s) : lastIndex c s = none := by
  induction s with
  | nil => rfl
  | cons x s ih =>
    rw [lastIndex, ih (List.not_mem_of_not_mem_cons hc)]
    exact if_neg (Ne.symm (List.ne_of_not_mem_cons hc))

theorem lastIndex_append (hc : c ∉ t) (s : List α) : lastIndex c (s ++ c :: t) = some s.length := by
  induction s with
  | nil =>
    rw [List.nil_append, lastIndex, lastIndex_of_notMem hc]
    exact if_pos rfl
  | cons x s ih =>
    rw [List.cons_append, lastIndex, ih]
    rfl

end

end Lib
