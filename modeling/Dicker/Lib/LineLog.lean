import Mathlib

/-! Logs of lines that are appended by writes which may be cut short. A line of the file then
consists of the pieces that one or several writes have left on it. -/

namespace Lib.LineLog
variable {α β : Type}

structure Attempt (α : Type) where
  text : List α
  taken : ℕ

def Attempt.bytes (newline : α) (a : Attempt α) : List α := (a.text ++ [newline]).take a.taken

def Attempt.Complete (a : Attempt α) : Prop := a.text.length < a.taken

def file (newline : α) (attempts : List (Attempt α)) : List α :=
  attempts.flatMap (Attempt.bytes newline)

abbrev Line (α : Type) := List (ℕ × List α)

def Line.text (line : Line α) : List α := line.flatMap Prod.snd

structure Layout (α : Type) where
  closed : List (Line α)
  tail : Line α

def Layout.lines (l : Layout α) : List (Line α) := l.closed ++ [l.tail]

def Layout.render (newline : α) (l : Layout α) : List α :=
  l.closed.flatMap (fun line => line.text ++ [newline]) ++ l.tail.text

def Layout.add (l : Layout α) (i : ℕ) (a : Attempt α) : Layout α :=
  if a.text.length < a.taken then ⟨l.closed ++ [l.tail ++ [(i, a.text)]], []⟩
  else if a.taken = 0 then l
  else ⟨l.closed, l.tail ++ [(i, a.text.take a.taken)]⟩

def layout (attempts : List (Attempt α)) : Layout α :=
  attempts.zipIdx.foldl (fun l p => l.add p.2 p.1) ⟨[], []⟩

variable {l : Layout α} {a : Attempt α} {i : ℕ} {attempts : List (Attempt α)}

theorem Layout.add_complete (h : a.Complete) :
    l.add i a = ⟨l.closed ++ [l.tail ++ [(i, a.text)]], []⟩ := if_pos h

theorem layout_concat (attempts : List (Attempt α)) (a : Attempt α) :
    layout (attempts ++ [a]) = (layout attempts).add attempts.length a := by
  unfold layout
  rw [List.zipIdx_append, List.foldl_append, Nat.zero_add]
  rfl

/-! ## The file -/

theorem Layout.render_add (newline : α) (l : Layout α) (i : ℕ) (a : Attempt α) :
    (l.add i a).render newline = l.render newline ++ a.bytes newline := by
  unfold add Attempt.bytes
  split_ifs with hcomplete hnothing
  · have htaken : (a.text ++ [newline]).take a.taken = a.text ++ [newline] :=
      List.take_of_length_le (by rw [List.length_append]; exact hcomplete)
    simp only [htaken, render, Line.text, List.flatMap_append, List.flatMap_cons,
      List.flatMap_nil, List.append_nil, List.append_assoc]
  · rw [hnothing, List.take_zero, List.append_nil]
  · rw [List.take_append_of_le_length (Nat.not_lt.mp hcomplete)]
    simp only [render, Line.text, List.flatMap_append, List.flatMap_cons,
      List.flatMap_nil, List.append_nil, List.append_assoc]

theorem render_layout (newline : α) (attempts : List (Attempt α)) :
    (layout attempts).render newline = file newline attempts := by
  induction attempts using List.reverseRecOn with
  | nil => rfl
  | append_singleton attempts a ih =>
    rw [layout_concat, Layout.render_add, ih, file, file, List.flatMap_append,
      List.flatMap_singleton]

/-! ## What is on the lines -/

structure Attempt.Leaves (a : Attempt α) (piece : List α) : Prop where
  begins : piece <+: a.text
  writes : 0 < a.taken
  nonempty : a.text ≠ [] → piece ≠ []

structure Layout.Sound (attempts : List (Attempt α)) (l : Layout α) : Prop where
  piece : ∀ line ∈ l.lines, ∀ p ∈ line, ∃ a, attempts[p.1]? = some a ∧ a.Leaves p.2
  ordered : (l.lines.flatten.map Prod.fst).Pairwise (· < ·)

theorem Layout.lines_add :
    (l.add i a).lines.flatten = l.lines.flatten ∨
      ∃ p, (l.add i a).lines.flatten = l.lines.flatten ++ [(i, p)] ∧ a.Leaves p := by
  unfold add lines
  split_ifs with hcomplete hnothing
  · refine .inr ⟨a.text, ?_, List.prefix_rfl, Nat.zero_lt_of_lt hcomplete, id⟩
    simp only [List.flatten_append, List.flatten_cons, List.flatten_nil, List.append_nil,
      List.append_assoc]
  · exact .inl rfl
  · refine .inr ⟨a.text.take a.taken, ?_, List.take_prefix _ _, Nat.pos_of_ne_zero hnothing,
      fun hne hnil => ?_⟩
    · simp only [List.flatten_append, List.flatten_cons, List.flatten_nil, List.append_nil,
        List.append_assoc]
    · rcases List.take_eq_nil_iff.mp hnil with hzero | hempty
      · exact hnothing hzero
      · exact hne hempty

theorem layout_sound (attempts : List (Attempt α)) : (layout attempts).Sound attempts := by
  induction attempts using List.reverseRecOn with
  | nil =>
    refine ⟨fun line hline p hp => ?_, List.Pairwise.nil⟩
    rw [List.mem_singleton.mp hline] at hp
    exact absurd hp List.not_mem_nil
  | append_singleton attempts a ih =>
    have hold : ∀ p ∈ (layout attempts).lines.flatten, ∃ b, attempts[p.1]? = some b ∧
        b.Leaves p.2 := by
      intro p hp
      obtain ⟨line, hline, hmem⟩ := List.mem_flatten.mp hp
      exact ih.piece line hline p hmem
    have hkept : ∀ p ∈ (layout attempts).lines.flatten, ∃ b, (attempts ++ [a])[p.1]? = some b ∧
        b.Leaves p.2 := by
      intro p hp
      obtain ⟨b, hb, hleaves⟩ := hold p hp
      have hlt := (List.getElem?_eq_some_iff.mp hb).1
      exact ⟨b, (List.getElem?_append_left hlt).trans hb, hleaves⟩
    rw [layout_concat]
    rcases (layout attempts).lines_add (i := attempts.length)
      (a := a) with hsame | ⟨q, hnew, hleaves⟩
    · refine ⟨fun line hline p hp => ?_, by rw [hsame]; exact ih.ordered⟩
      exact hkept p (hsame ▸ List.mem_flatten.mpr ⟨line, hline, hp⟩)
    · refine ⟨fun line hline p hp => ?_, ?_⟩
      · have hmem : p ∈ (layout attempts).lines.flatten ++ [(attempts.length, q)] :=
          hnew ▸ List.mem_flatten.mpr ⟨line, hline, hp⟩
        rcases List.mem_append.mp hmem with hp | hp
        · exact hkept p hp
        · rw [List.mem_singleton.mp hp]
          exact ⟨a, by rw [List.getElem?_append_right (Nat.le_refl _), Nat.sub_self]; rfl, hleaves⟩
      · rw [hnew, List.map_append, List.pairwise_append]
        refine ⟨ih.ordered, List.pairwise_singleton _ _, fun i hi j hj => ?_⟩
        obtain ⟨p, hp, rfl⟩ := List.mem_map.mp hi
        obtain ⟨b, hb, -⟩ := hold p hp
        rw [List.mem_singleton.mp hj]
        exact (List.getElem?_eq_some_iff.mp hb).1

theorem Layout.Sound.earlier (h : l.Sound attempts) {before after : List (Line α)}
    {line line' : Line α} (hlines : l.lines = before ++ line :: after) (hline' : line' ∈ before)
    {p p' : ℕ × List α} (hp' : p' ∈ line') (hp : p ∈ line) : p'.1 < p.1 := by
  have hordered := h.ordered
  rw [hlines, List.flatten_append, List.flatten_cons, List.map_append, List.map_append] at hordered
  exact (List.pairwise_append.mp hordered).2.2 _
    (List.mem_map_of_mem (List.mem_flatten.mpr ⟨line', hline', hp'⟩)) _
    (List.mem_append_left _ (List.mem_map_of_mem hp))

theorem closed_append (attempts more : List (Attempt α)) :
    (layout attempts).closed <+: (layout (attempts ++ more)).closed := by
  induction more using List.reverseRecOn with
  | nil => rw [List.append_nil]
  | append_singleton more a ih =>
    rw [← List.append_assoc, layout_concat]
    refine ih.trans ?_
    unfold Layout.add
    split_ifs
    · exact List.prefix_append _ _
    · exact List.prefix_rfl
    · exact List.prefix_rfl

theorem ended_line (hget : attempts[i]? = some a) (hcomplete : a.Complete) :
    (layout (attempts.take i)).tail ++ [(i, a.text)] ∈ (layout attempts).closed := by
  obtain ⟨hlt, hget⟩ := List.getElem?_eq_some_iff.mp hget
  have hsplit : attempts.take i ++ [a] ++ attempts.drop (i + 1) = attempts := by
    rw [← hget, List.take_append_getElem, List.take_append_drop]
  have hlen : (attempts.take i).length = i := List.length_take_of_le hlt.le
  have hclosed : (layout (attempts.take i ++ [a])).closed =
      (layout (attempts.take i)).closed ++ [(layout (attempts.take i)).tail ++ [(i, a.text)]] := by
    rw [layout_concat, hlen, Layout.add_complete hcomplete]
  have hstays := closed_append (attempts.take i ++ [a]) (attempts.drop (i + 1))
  rw [hsplit, hclosed] at hstays
  exact hstays.subset (List.mem_append_right _ (List.mem_singleton_self _))

/-! ## The lines of the file -/

theorem newline_notMem {newline : α} (h : ∀ a ∈ attempts, newline ∉ a.text) :
    ∀ line ∈ (layout attempts).lines, newline ∉ line.text := by
  intro line hline hmem
  obtain ⟨p, hp, hin⟩ := List.mem_flatMap.mp hmem
  obtain ⟨a, ha, hleaves⟩ := (layout_sound attempts).piece line hline p hp
  exact h a (List.mem_of_getElem? ha) (hleaves.begins.subset hin)

def Fresh (newline : α) (file : List α) : Prop := file = [] ∨ file.getLast? = some newline

theorem tail_eq_nil {newline : α} (hnewline : ∀ a ∈ attempts, newline ∉ a.text)
    (hnonempty : ∀ a ∈ attempts, 0 < a.taken → a.text ≠ [])
    (h : Fresh newline (file newline attempts)) : (layout attempts).tail = [] := by
  have htail : (layout attempts).tail ∈ (layout attempts).lines :=
    List.mem_append_right _ (List.mem_singleton_self _)
  have hclean := newline_notMem hnewline _ htail
  by_contra hne
  obtain ⟨p, rest, hcons⟩ := List.exists_cons_of_ne_nil hne
  have hp : p ∈ (layout attempts).tail := hcons ▸ List.mem_cons_self
  obtain ⟨a, ha, hleaves⟩ := (layout_sound attempts).piece _ htail p hp
  have hpiece := hleaves.nonempty (hnonempty a (List.mem_of_getElem? ha) hleaves.writes)
  have htext : (layout attempts).tail.text ≠ [] := by
    rw [hcons, Line.text, List.flatMap_cons]
    exact fun hnil => hpiece (List.append_eq_nil_iff.mp hnil).1
  rw [← render_layout, Layout.render] at h
  rcases h with hempty | hlast
  · exact htext (List.append_eq_nil_iff.mp hempty).2
  · rw [List.getLast?_append_of_ne_nil _ htext] at hlast
    exact hclean (List.mem_of_getLast? hlast)

section
variable [BEq α] [LawfulBEq α] {newline : α}

theorem Layout.splitOn_render (h : ∀ line ∈ l.lines, newline ∉ line.text) :
    (l.render newline).splitOn newline = l.lines.map Line.text := by
  obtain ⟨closed, tail⟩ := l
  induction closed with
  | nil => exact List.splitOn_eq_singleton (h tail (List.mem_singleton_self _))
  | cons line closed ih =>
    have hrest := ih fun line' hline' => h line' (List.mem_cons_of_mem _ hline')
    have hfirst := h line List.mem_cons_self
    have hrender : render newline ⟨line :: closed, tail⟩ = line.text ++
        newline :: render newline ⟨closed, tail⟩ := by
      simp only [render, List.flatMap_cons, List.append_assoc, List.cons_append, List.nil_append]
    rw [hrender, List.splitOn_append_cons_self, List.splitOn_eq_singleton hfirst, hrest]
    rfl

theorem splitOn_file (h : ∀ a ∈ attempts, newline ∉ a.text) :
    (file newline attempts).splitOn newline = (layout attempts).lines.map Line.text := by
  rw [← render_layout]
  exact Layout.splitOn_render (newline_notMem h)

end

/-! ## Tables in which later lines win -/

section
variable {κ ν : Type} [DecidableEq κ] (read : β → Option (κ × ν))

def put (table : κ → Option ν) (line : β) : κ → Option ν :=
  match read line with
  | some (key, value) => Function.update table key (some value)
  | none => table

variable {read}

theorem put_self {table : κ → Option ν} {line : β} {key : κ} {value : ν}
    (h : read line = some (key, value)) : put read table line key = some value := by
  rw [put, h]
  exact Function.update_self ..

theorem put_other {table : κ → Option ν} {line : β} {key : κ}
    (h : ∀ value, read line ≠ some (key, value)) : put read table line key = table key := by
  unfold put
  rcases hread : read line with - | ⟨k, value⟩
  · rfl
  · refine Function.update_of_ne ?_ _ _
    rintro rfl
    exact h value hread

variable (read)

theorem foldl_put (table : κ → Option ν) (lines : List β) (key : κ) :
    ((∀ line ∈ lines, ∀ value, read line ≠ some (key, value)) ∧
      lines.foldl (put read) table key = table key) ∨
      ∃ before line after value, lines = before ++ line :: after ∧ read line = some (key, value) ∧
        (∀ later ∈ after, ∀ value', read later ≠ some (key, value')) ∧
        lines.foldl (put read) table key = some value := by
  induction lines using List.reverseRecOn with
  | nil => exact .inl ⟨nofun, rfl⟩
  | append_singleton lines line ih =>
    rw [List.foldl_append, List.foldl_cons, List.foldl_nil]
    by_cases hkey : ∃ value, read line = some (key, value)
    · obtain ⟨value, hread⟩ := hkey
      exact .inr ⟨lines, line, [], value, rfl, hread, nofun, put_self hread⟩
    · have hother : ∀ value, read line ≠ some (key, value) := fun value h => hkey ⟨value, h⟩
      rw [put_other hother]
      rcases ih with ⟨hnone, heq⟩ | ⟨before, line', after, value, rfl, hread, hlater, heq⟩
      · refine .inl ⟨fun later hmem value => ?_, heq⟩
        rcases List.mem_append.mp hmem with hmem | hmem
        · exact hnone later hmem value
        · rw [List.mem_singleton.mp hmem]
          exact hother value
      · refine .inr ⟨before, line', after ++ [line],
          value, by simp, hread, fun later hmem value' => ?_, heq⟩
        rcases List.mem_append.mp hmem with hmem | hmem
        · exact hlater later hmem value'
        · rw [List.mem_singleton.mp hmem]
          exact hother value'

end
end Lib.LineLog
