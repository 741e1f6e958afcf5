import Mathlib

/-! Directory trees, and an iterator that visits them in pre-order and leaves out what it is told
not to descend into. -/

namespace Lib

inductive Forest (N K : Type) where
  | nil
  | fault
  | leaf (name : N) (kind : K) (rest : Forest N K)
  | dir (name : N) (children rest : Forest N K)

inductive Item (K : Type) where
  | leaf (kind : K)
  | dir

namespace Forest
variable {N K : Type}

inductive Has : Forest N K → List N → Item K → Prop
  | leaf (name : N) (kind : K) (rest : Forest N K) : Has (.leaf name kind rest) [name] (.leaf kind)
  | behind {name : N} {kind : K} {rest : Forest N K} {names : List N} {item : Item K}
      (h : Has rest names item) :
    Has (.leaf name kind rest) names item
  | dir (name : N) (children rest : Forest N K) : Has (.dir name children rest) [name] .dir
  | inside {name : N} {children rest : Forest N K} {names : List N} {item : Item K}
      (h : Has children names item) :
    Has (.dir name children rest) (name :: names) item
  | beside {name : N} {children rest : Forest N K} {names : List N} {item : Item K}
      (h : Has rest names item) :
    Has (.dir name children rest) names item

def names : Forest N K → List N
  | nil => []
  | fault => []
  | leaf name _ rest => name :: rest.names
  | dir name _ rest => name :: rest.names

def Distinct : Forest N K → Prop
  | nil => True
  | fault => True
  | leaf name _ rest => name ∉ rest.names ∧ rest.Distinct
  | dir name children rest => name ∉ rest.names ∧ children.Distinct ∧ rest.Distinct

def Sound : Forest N K → Prop
  | nil => True
  | fault => False
  | leaf _ _ rest => rest.Sound
  | dir _ children rest => children.Sound ∧ rest.Sound

theorem Has.ne_nil {f : Forest N K} {names : List N} {item : Item K} (h : f.Has names item) :
    names ≠ [] := by
  induction h with
  | leaf | dir | inside => exact List.cons_ne_nil _ _
  | behind _ ih | beside _ ih => exact ih

def visits (descend : List N → Bool) (here : List N) : Forest N K → List (List N × Item K)
  | nil => []
  | fault => []
  | leaf name kind rest => (here ++ [name], .leaf kind) :: rest.visits descend here
  | dir name children rest =>
    (here ++ [name], .dir) ::
      ((if descend (here ++ [name]) then children.visits descend (here ++ [name]) else []) ++
        rest.visits descend here)

section
variable {descend : List N → Bool} {f : Forest N K} {here path : List N} {item : Item K}

theorem mem_visits_iff : (path, item) ∈ f.visits descend here ↔
    ∃ names, path = here ++ names ∧ f.Has names item ∧
      ∀ k, 0 < k → k < names.length → descend (here ++ names.take k) = true := by
  induction f generalizing here with
  | nil | fault => exact ⟨fun h => absurd h List.not_mem_nil, fun ⟨_, _, h, _⟩ => nomatch h⟩
  | leaf name kind rest ih =>
    rw [visits, List.mem_cons, ih, Prod.mk.injEq]
    constructor
    · rintro (⟨rfl, rfl⟩ | ⟨names, rfl, h, hall⟩)
      · exact ⟨[name], rfl, .leaf .., fun k hpos hlt => absurd hlt (Nat.not_lt.mpr hpos)⟩
      · exact ⟨names, rfl, .behind h, hall⟩
    · rintro ⟨names, rfl, h, hall⟩
      cases h with
      | leaf => exact .inl ⟨rfl, rfl⟩
      | behind h => exact .inr ⟨names, rfl, h, hall⟩
  | dir name children rest ihc ihr =>
    rw [visits, List.mem_cons, List.mem_append, ihr, Prod.mk.injEq]
    constructor
    · rintro (⟨rfl, rfl⟩ | h | ⟨names, rfl, h, hall⟩)
      · exact ⟨[name], rfl, .dir .., fun k hpos hlt => absurd hlt (Nat.not_lt.mpr hpos)⟩
      · split_ifs at h with hdescend
        · obtain ⟨names, rfl, h, hall⟩ := ihc.mp h
          refine ⟨name :: names, List.append_assoc .., .inside h, fun k hpos hlt => ?_⟩
          obtain ⟨k, rfl⟩ := Nat.exists_eq_add_one_of_ne_zero hpos.ne'
          rw [List.take_succ_cons, List.append_cons]
          rcases Nat.eq_zero_or_pos k with rfl | hk
          · rw [List.take_zero, List.append_nil]
            exact hdescend
          · exact hall k hk (Nat.succ_lt_succ_iff.mp hlt)
        · exact absurd h List.not_mem_nil
      · exact ⟨names, rfl, .beside h, hall⟩
    · rintro ⟨names, rfl, h, hall⟩
      cases h with
      | dir => exact .inl ⟨rfl, rfl⟩
      | @inside _ _ _ names _ h =>
        have hlen : 0 < names.length := List.length_pos_iff.mpr h.ne_nil
        have hdescend : descend (here ++ [name]) = true :=
          hall 1 Nat.one_pos (Nat.succ_lt_succ hlen)
        refine .inr (.inl ?_)
        rw [if_pos hdescend, ihc]
        refine ⟨names, List.append_cons .., h, fun k hpos hlt => ?_⟩
        have hk := hall (k + 1) (Nat.succ_pos k) (Nat.succ_lt_succ hlt)
        rwa [List.take_succ_cons, List.append_cons] at hk
      | beside h => exact .inr (.inr ⟨names, rfl, h, hall⟩)

theorem Has.head_mem {names : List N} (h : f.Has names item) :
    ∃ name tail, names = name :: tail ∧ name ∈ f.names := by
  induction h with
  | leaf | dir => exact ⟨_, _, rfl, List.mem_cons_self⟩
  | inside => exact ⟨_, _, rfl, List.mem_cons_self⟩
  | behind _ ih | beside _ ih =>
    obtain ⟨name, tail, heq, hmem⟩ := ih
    exact ⟨name, tail, heq, List.mem_cons_of_mem _ hmem⟩

theorem exists_of_mem_visits (h : path ∈ (f.visits descend here).map Prod.fst) :
    ∃ name tail, path = here ++ name :: tail ∧ name ∈ f.names := by
  obtain ⟨⟨path, item⟩, hmem, rfl⟩ := List.mem_map.mp h
  obtain ⟨names, rfl, hhas, -⟩ := mem_visits_iff.mp hmem
  obtain ⟨name, tail, rfl, hname⟩ := hhas.head_mem
  exact ⟨name, tail, rfl, hname⟩

theorem Distinct.nodup_visits (h : f.Distinct) : ((f.visits descend here).map Prod.fst).Nodup := by
  induction f generalizing here with
  | nil | fault => exact List.nodup_nil
  | leaf name kind rest ih =>
    refine List.nodup_cons.mpr ⟨fun hmem => ?_, ih h.2⟩
    obtain ⟨name', tail, heq, hname⟩ := exists_of_mem_visits hmem
    rw [(List.cons.inj (List.append_cancel_left heq)).1] at h
    exact h.1 hname
  | dir name children rest ihc ihr =>
    obtain ⟨hname, hchildren, hrest⟩ := h
    have hbelow : ∀ p ∈
        ((if descend (here ++ [name]) then children.visits descend (here ++ [name])
          else []).map Prod.fst),
        ∃ first tail, p = here ++ name :: first :: tail := by
      intro p hp
      split_ifs at hp
      · obtain ⟨first, tail, rfl, -⟩ := exists_of_mem_visits hp
        exact ⟨first, tail, List.append_assoc ..⟩
      · exact absurd hp List.not_mem_nil
    have hbeside : ∀ p ∈ (rest.visits descend here).map Prod.fst,
        ∃ first tail, p = here ++ first :: tail ∧ first ≠ name := by
      intro p hp
      obtain ⟨first, tail, rfl, hfirst⟩ := exists_of_mem_visits hp
      exact ⟨first, tail, rfl, fun heq => hname (heq ▸ hfirst)⟩
    rw [visits, List.map_cons, List.map_append]
    refine List.nodup_cons.mpr ⟨fun hmem => ?_, List.nodup_append.mpr ⟨?_, ihr hrest, ?_⟩⟩
    · rcases List.mem_append.mp hmem with hmem | hmem
      · obtain ⟨first, tail, heq⟩ := hbelow _ hmem
        exact List.cons_ne_nil _ _ (List.cons.inj (List.append_cancel_left heq)).2.symm
      · obtain ⟨first, tail, heq, hne⟩ := hbeside _ hmem
        exact hne (List.cons.inj (List.append_cancel_left heq)).1.symm
    · split_ifs
      · exact ihc hchildren
      · exact List.nodup_nil
    · intro p hp q hq heq
      obtain ⟨first, tail, rfl⟩ := hbelow p hp
      obtain ⟨first', tail', rfl, hne⟩ := hbeside q hq
      exact hne (List.cons.inj (List.append_cancel_left heq)).1.symm

end

/-! ## The iterator -/

abbrev Frames (N K : Type) := List (List N × Forest N K)

def size : Forest N K → ℕ
  | nil => 0
  | fault => 0
  | leaf _ _ rest => rest.size + 1
  | dir _ children rest => children.size + rest.size + 1

namespace Frames

def weight (frames : Frames N K) : ℕ := (frames.map fun frame => frame.2.size).sum

def pending (descend : List N → Bool) (frames : Frames N K) : List (List N × Item K) :=
  frames.flatMap fun frame => frame.2.visits descend frame.1

def Sound (frames : Frames N K) : Prop := ∀ frame ∈ frames, frame.2.Sound

theorem weight_cons (here : List N) (f : Forest N K) (frames : Frames N K) :
    weight ((here, f) :: frames) = f.size + weight frames := by
  rw [weight, List.map_cons, List.sum_cons]
  rfl

theorem pending_cons (descend : List N → Bool) (here : List N) (f : Forest N K)
    (frames : Frames N K) :
    pending descend ((here, f) :: frames) = f.visits descend here ++ pending descend frames :=
  List.flatMap_cons

theorem sound_cons {here : List N} {f : Forest N K} {frames : Frames N K} :
    Sound ((here, f) :: frames) ↔ f.Sound ∧ Sound frames := List.forall_mem_cons

end Frames

inductive Cursor (N K : Type) where
  | atLeaf (here : List N) (name : N) (kind : K) (rest : Forest N K) (frames : Frames N K)
  | atDir (here : List N) (name : N) (children rest : Forest N K) (frames : Frames N K)
  | finished
  | broken

def settle : Frames N K → Cursor N K
  | [] => .finished
  | (_, nil) :: frames => settle frames
  | (_, fault) :: _ => .broken
  | (here, leaf name kind rest) :: frames => .atLeaf here name kind rest frames
  | (here, dir name children rest) :: frames => .atDir here name children rest frames

namespace Cursor

def frames : Cursor N K → Frames N K
  | atLeaf here name kind rest frames => (here, leaf name kind rest) :: frames
  | atDir here name children rest frames => (here, dir name children rest) :: frames
  | finished => []
  | broken => []

def current : Cursor N K → Option (List N × Item K)
  | atLeaf here name kind _ _ => some (here ++ [name], .leaf kind)
  | atDir here name _ _ _ => some (here ++ [name], .dir)
  | finished => none
  | broken => none

/-- To the next entry, into the directory here unless `recurse` is off. -/
def increment (recurse : Bool) : Cursor N K → Cursor N K
  | atLeaf here _ _ rest frames => settle ((here, rest) :: frames)
  | atDir here name children rest frames =>
    settle (if recurse then (here ++ [name], children) :: (here, rest) :: frames
      else (here, rest) :: frames)
  | finished => finished
  | broken => broken

structure Sound (c : Cursor N K) : Prop where
  ne_broken : c ≠ broken
  frames : c.frames.Sound

end Cursor

section
variable {descend : List N → Bool}

theorem settle_sound {frames : Frames N K} (h : frames.Sound) : (settle frames).Sound := by
  induction frames with
  | nil => exact ⟨nofun, h⟩
  | cons frame frames ih =>
    obtain ⟨here, f⟩ := frame
    obtain ⟨hf, hframes⟩ := Frames.sound_cons.mp h
    cases f with
    | nil => exact ih hframes
    | fault => exact absurd hf id
    | leaf | dir => exact ⟨nofun, h⟩

theorem settle_pending {frames : Frames N K} (h : frames.Sound) :
    (settle frames).frames.pending descend = frames.pending descend := by
  induction frames with
  | nil => rfl
  | cons frame frames ih =>
    obtain ⟨here, f⟩ := frame
    obtain ⟨hf, hframes⟩ := Frames.sound_cons.mp h
    cases f with
    | nil => exact ih hframes
    | fault => exact absurd hf id
    | leaf | dir => rfl

theorem settle_weight (frames : Frames N K) : (settle frames).frames.weight ≤ frames.weight := by
  induction frames with
  | nil => exact Nat.le_refl _
  | cons frame frames ih =>
    obtain ⟨here, f⟩ := frame
    cases f with
    | nil =>
      rw [Frames.weight_cons]
      exact ih.trans (Nat.le_add_left _ _)
    | fault => exact Nat.zero_le _
    | leaf | dir => exact Nat.le_refl _

namespace Cursor
variable {c : Cursor N K} {path : List N} {item : Item K}

theorem increment_weight (hcurrent : c.current ≠ none) (recurse : Bool) :
    (c.increment recurse).frames.weight < c.frames.weight := by
  cases c with
  | atLeaf here name kind rest frames =>
    refine (settle_weight _).trans_lt ?_
    rw [Frames.weight_cons, Cursor.frames, Frames.weight_cons, size]
    omega
  | atDir here name children rest frames =>
    refine (settle_weight _).trans_lt ?_
    rw [Cursor.frames, Frames.weight_cons, size]
    split_ifs
    · rw [Frames.weight_cons, Frames.weight_cons]
      omega
    · rw [Frames.weight_cons]
      omega
  | finished => exact absurd rfl hcurrent
  | broken => exact absurd rfl hcurrent

theorem increment_leaf {kind : K} (hcurrent : c.current = some (path, .leaf kind)) (a b : Bool) :
    c.increment a = c.increment b := by
  cases c with
  | atLeaf => rfl
  | atDir | finished | broken => exact nomatch hcurrent

theorem Sound.increment (h : c.Sound) (recurse : Bool) : (c.increment recurse).Sound := by
  cases c with
  | atLeaf here name kind rest frames =>
    obtain ⟨hrest, hframes⟩ := Frames.sound_cons.mp h.frames
    exact settle_sound (Frames.sound_cons.mpr ⟨hrest, hframes⟩)
  | atDir here name children rest frames =>
    obtain ⟨⟨hchildren, hrest⟩, hframes⟩ := Frames.sound_cons.mp h.frames
    have hbehind : Frames.Sound ((here, rest) :: frames) := Frames.sound_cons.mpr ⟨hrest, hframes⟩
    apply settle_sound
    split_ifs
    · exact Frames.sound_cons.mpr ⟨hchildren, hbehind⟩
    · exact hbehind
  | finished => exact h
  | broken => exact h

theorem Sound.pending_increment (h : c.Sound) (hcurrent : c.current = some (path, item)) :
    c.frames.pending descend = (path, item) :: (c.increment (descend path)).frames.pending
      descend := by
  cases c with
  | atLeaf here name kind rest frames =>
    cases hcurrent
    obtain ⟨hrest, hframes⟩ := Frames.sound_cons.mp h.frames
    have hnext : Frames.Sound ((here, rest) :: frames) := Frames.sound_cons.mpr ⟨hrest, hframes⟩
    rw [Cursor.increment, settle_pending hnext, Frames.pending_cons]
    exact Frames.pending_cons ..
  | atDir here name children rest frames =>
    cases hcurrent
    obtain ⟨⟨hchildren, hrest⟩, hframes⟩ := Frames.sound_cons.mp h.frames
    have hbehind : Frames.Sound ((here, rest) :: frames) := Frames.sound_cons.mpr ⟨hrest, hframes⟩
    have hvisits : (Cursor.atDir here name children rest frames).frames.pending descend =
        (here ++ [name], .dir) ::
        ((if descend (here ++ [name]) then children.visits descend (here ++ [name]) else []) ++
          rest.visits descend here) ++ frames.pending descend := Frames.pending_cons ..
    rw [hvisits, Cursor.increment]
    split_ifs
    · rw [settle_pending (Frames.sound_cons.mpr ⟨hchildren, hbehind⟩), Frames.pending_cons,
        Frames.pending_cons, List.cons_append, List.append_assoc]
    · rw [settle_pending hbehind, Frames.pending_cons, List.nil_append, List.cons_append]
  | finished => exact nomatch hcurrent
  | broken => exact nomatch hcurrent

theorem Sound.pending_of_current_none (h : c.Sound) (hcurrent : c.current = none) :
    c.frames.pending descend = [] := by
  cases c with
  | atLeaf | atDir => exact nomatch hcurrent
  | finished => rfl
  | broken => exact absurd rfl h.ne_broken

end Cursor
end

end Forest
end Lib
