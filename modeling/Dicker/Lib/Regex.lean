import Mathlib

/-! Regular expressions over bytes in the ECMAScript grammar, without counted repetitions, class
escapes and back references: how a pattern is read, and what it matches. -/

namespace Lib

inductive CharSet where
  | any
  | byte (b : UInt8)
  | members (inverted : Bool) (bytes : List UInt8)
  deriving DecidableEq

def lineTerminator (b : UInt8) : Bool := b = 0x0A ∨ b = 0x0D

def CharSet.has : CharSet → UInt8 → Bool
  | any, b => !lineTerminator b
  | byte a, b => b = a
  | members inverted bytes, b => bytes.contains b != inverted

inductive Regex where
  | empty
  | start
  | stop
  | char (set : CharSet)
  | cat (r s : Regex)
  | alt (r s : Regex)
  | star (r : Regex)
  | plus (r : Regex)
  | opt (r : Regex)
  deriving DecidableEq

namespace Regex

/-! ## What is matched -/

def repeated (ends : ℕ → List UInt8 → List ℕ) : ℕ → ℕ → List UInt8 → List ℕ
  | 0, _, _ => [0]
  | fuel + 1, pos, rest =>
    ((ends pos rest).filter (0 < ·)).flatMap
      (fun n => (repeated ends fuel (pos + n) (rest.drop n)).map (n + ·)) ++ [0]

def ends : Regex → ℕ → List UInt8 → List ℕ
  | empty, _, _ => [0]
  | start, pos, _ => if pos = 0 then [0] else []
  | stop, _, rest => if rest = [] then [0] else []
  | char _, _, [] => []
  | char set, _, b :: _ => if set.has b then [1] else []
  | cat r s, pos, rest =>
    (r.ends pos rest).flatMap fun n => (s.ends (pos + n) (rest.drop n)).map (n + ·)
  | alt r s, pos, rest => r.ends pos rest ++ s.ends pos rest
  | star r, pos, rest => repeated r.ends rest.length pos rest
  | plus r, pos, rest =>
    (r.ends pos rest).flatMap fun n =>
      (repeated r.ends (rest.drop n).length (pos + n) (rest.drop n)).map (n + ·)
  | opt r, pos, rest => r.ends pos rest ++ [0]

/-- `regex_match`: the expression takes the whole text. -/
def matchesAll (r : Regex) (text : List UInt8) : Bool := (r.ends 0 text).contains text.length

def Takes (r : Regex) (pos : ℕ) (s rest : List UInt8) : Prop := s.length ∈ r.ends pos (s ++ rest)

theorem matchesAll_iff (r : Regex) (text : List UInt8) :
    r.matchesAll text = true ↔ r.Takes 0 text [] := by
  rw [matchesAll, List.contains_iff_mem, Takes, List.append_nil]

section
variable {pos : ℕ} {s rest : List UInt8}

theorem takes_empty : empty.Takes pos s rest ↔ s = [] := by
  rw [Takes, ends, List.mem_singleton, List.length_eq_zero_iff]

theorem takes_start : start.Takes pos s rest ↔ s = [] ∧ pos = 0 := by
  unfold Takes ends
  split_ifs with hpos
  · rw [List.mem_singleton, List.length_eq_zero_iff, and_iff_left hpos]
  · exact ⟨fun h => absurd h List.not_mem_nil, fun h => absurd h.2 hpos⟩

theorem takes_stop : stop.Takes pos s rest ↔ s = [] ∧ rest = [] := by
  unfold Takes ends
  split_ifs with hrest
  · obtain ⟨rfl, rfl⟩ := List.append_eq_nil_iff.mp hrest
    simp
  · constructor
    · exact fun h => absurd h List.not_mem_nil
    · rintro ⟨rfl, rfl⟩
      exact absurd rfl hrest

theorem takes_char {set : CharSet} :
    (char set).Takes pos s rest ↔ ∃ b, s = [b] ∧ set.has b = true := by
  constructor
  · intro h
    cases s with
    | nil =>
      exfalso
      cases rest with
      | nil => exact absurd h List.not_mem_nil
      | cons b rest =>
        change 0 ∈ (if set.has b = true then [1] else []) at h
        split_ifs at h
        · exact absurd (List.mem_singleton.mp h) Nat.zero_ne_one
        · exact absurd h List.not_mem_nil
    | cons b s =>
      change (b :: s).length ∈ (if set.has b = true then [1] else []) at h
      split_ifs at h with hb
      · have hlen : s.length + 1 = 1 := List.mem_singleton.mp h
        rw [List.length_eq_zero_iff.mp (Nat.succ.inj hlen)]
        exact ⟨b, rfl, hb⟩
      · exact absurd h List.not_mem_nil
  · rintro ⟨b, rfl, hb⟩
    change 1 ∈ (if set.has b = true then [1] else [])
    rw [if_pos hb]
    exact List.mem_singleton_self 1

theorem takes_cat {r t : Regex} : (cat r t).Takes pos s rest ↔
    ∃ a b, s = a ++ b ∧ r.Takes pos a (b ++ rest) ∧ t.Takes (pos + a.length) b rest := by
  constructor
  · intro h
    obtain ⟨n, hn, h⟩ := List.mem_flatMap.mp h
    obtain ⟨m, hm, hlen⟩ := List.mem_map.mp h
    have hle : n ≤ s.length := hlen ▸ Nat.le_add_right n m
    have htake : (s.take n).length = n := List.length_take_of_le hle
    have hdrop : (s.drop n).length = m := by
      rw [List.length_drop, ← hlen, Nat.add_sub_cancel_left]
    refine ⟨s.take n, s.drop n, (List.take_append_drop n s).symm, ?_, ?_⟩
    · rw [Takes, ← List.append_assoc, List.take_append_drop, htake]
      exact hn
    · rw [Takes, htake, hdrop, ← List.drop_append_of_le_length hle]
      exact hm
  · rintro ⟨a, b, rfl, ha, hb⟩
    refine List.mem_flatMap.mpr ⟨a.length, ?_,
      List.mem_map.mpr ⟨b.length, ?_, List.length_append.symm⟩⟩
    · rw [List.append_assoc]
      exact ha
    · rw [List.append_assoc, List.drop_left]
      exact hb

theorem takes_opt {r : Regex} : (opt r).Takes pos s rest ↔ r.Takes pos s rest ∨ s = [] := by
  rw [Takes, ends, List.mem_append, List.mem_singleton, List.length_eq_zero_iff]
  rfl

theorem length_mem_repeated {set : CharSet} {fuel : ℕ} (pos : ℕ) (hfuel : s.length ≤ fuel) :
    s.length ∈ repeated (char set).ends fuel pos (s ++ rest) ↔ ∀ b ∈ s, set.has b = true := by
  induction s generalizing fuel pos with
  | nil =>
    refine ⟨fun _ b hb => absurd hb List.not_mem_nil, fun _ => ?_⟩
    cases fuel with
    | zero => exact List.mem_singleton_self 0
    | succ fuel => exact List.mem_append_right _ (List.mem_singleton_self 0)
  | cons b s ih =>
    obtain ⟨fuel, rfl⟩ := Nat.exists_eq_add_one_of_ne_zero (Nat.ne_zero_of_lt hfuel)
    have hround : (char set).ends pos (b :: s ++ rest) = if set.has b = true then [1] else [] := rfl
    rw [repeated, hround, List.forall_mem_cons, ← ih (pos + 1) (Nat.succ_le_succ_iff.mp hfuel)]
    split_ifs with hb
    · have hone : [1].filter (fun n => decide (0 < n)) = [1] := rfl
      rw [hone, List.flatMap_singleton, List.length_cons, List.mem_append, List.mem_map,
        and_iff_right hb]
      constructor
      · rintro (⟨n, hn, hlen⟩ | hzero)
        · rwa [← Nat.succ.inj ((Nat.add_comm n 1).trans hlen)]
        · exact absurd (List.mem_singleton.mp hzero) (Nat.succ_ne_zero _)
      · exact fun h => .inl ⟨s.length, h, Nat.add_comm 1 _⟩
    · rw [List.filter_nil, List.flatMap_nil, List.nil_append, List.mem_singleton]
      exact ⟨fun h => absurd h (Nat.succ_ne_zero _), fun h => absurd h.1 hb⟩

theorem takes_star_char {set : CharSet} :
    (star (char set)).Takes pos s rest ↔ ∀ b ∈ s, set.has b = true := by
  rw [Takes, ends]
  apply length_mem_repeated
  rw [List.length_append]
  exact Nat.le_add_right _ _

end

/-! ## How a pattern is read -/

structure Group where
  alternatives : Option Regex
  terms : Regex
  atom : Option Regex

namespace Group

def fresh : Group := ⟨none, empty, none⟩

def sequence (g : Group) : Regex :=
  match g.atom with
  | some a => cat g.terms a
  | none => g.terms

def regex (g : Group) : Regex :=
  match g.alternatives with
  | some r => alt r g.sequence
  | none => g.sequence

def addAtom (g : Group) (a : Regex) : Group := { g with terms := g.sequence, atom := some a }

def addAssertion (g : Group) (a : Regex) : Group :=
  { g with terms := cat g.sequence a, atom := none }

def quantify (g : Group) (q : Regex → Regex) : Option Group :=
  g.atom.map fun a => { g with terms := cat g.terms (q a), atom := none }

def nextAlternative (g : Group) : Group := ⟨some g.regex, empty, none⟩

end Group

inductive Mode where
  | plain
  | quantified
  | escape
  | bracket
  | members (inverted : Bool) (bytes : List UInt8)

structure Reader where
  mode : Mode
  group : Group
  outer : List Group

def wordByte (b : UInt8) : Bool :=
  (0x30 ≤ b && b ≤ 0x39) || (0x41 ≤ b && b ≤ 0x5A) || (0x61 ≤ b && b ≤ 0x7A) || b == 0x5F

namespace Reader

def begin : Reader := ⟨.plain, .fresh, []⟩

def atom (r : Reader) (a : Regex) : Reader := ⟨.plain, r.group.addAtom a, r.outer⟩

def quantify (r : Reader) (q : Regex → Regex) : Option Reader :=
  (r.group.quantify q).map fun g => ⟨.quantified, g, r.outer⟩

def plainByte (r : Reader) (b : UInt8) : Option Reader :=
  if b = 0x5E then some ⟨.plain, r.group.addAssertion start, r.outer⟩
  else if b = 0x24 then some ⟨.plain, r.group.addAssertion stop, r.outer⟩
  else if b = 0x5C then some { r with mode := .escape }
  else if b = 0x2E then some (r.atom (char .any))
  else if b = 0x2A then r.quantify star
  else if b = 0x2B then r.quantify plus
  else if b = 0x3F then r.quantify opt
  else if b = 0x28 then some ⟨.plain, .fresh, r.group :: r.outer⟩
  else if b = 0x29 then
    match r.outer with
    | g :: outer => some ⟨.plain, g.addAtom r.group.regex, outer⟩
    | [] => none
  else if b = 0x5B then some { r with mode := .bracket }
  else if b = 0x7C then some ⟨.plain, r.group.nextAlternative, r.outer⟩
  else if b = 0x5D ∨ b = 0x7B ∨ b = 0x7D then none
  else some (r.atom (char (.byte b)))

/-- A byte of a class; ranges, escapes and named classes are left out. -/
def memberByte (r : Reader) (inverted : Bool) (bytes : List UInt8) (b : UInt8) : Option Reader :=
  if b = 0x5D then some (r.atom (char (.members inverted bytes)))
  else if b = 0x5C ∨ b = 0x2D ∨ b = 0x5B then none
  else some { r with mode := .members inverted (bytes ++ [b]) }

def step (r : Reader) (b : UInt8) : Option Reader :=
  match r.mode with
  | .plain => r.plainByte b
  -- a '?' here makes the quantifier lazy, which changes no match of the whole text
  | .quantified => if b = 0x3F then some { r with mode := .plain } else r.plainByte b
  | .escape => if wordByte b then none else some (r.atom (char (.byte b)))
  | .bracket =>
    if b = 0x5E then some { r with mode := .members true [] } else r.memberByte false [] b
  | .members inverted bytes => r.memberByte inverted bytes b

def read (r : Reader) (text : List UInt8) : Option Reader := text.foldlM step r

theorem read_append (r : Reader) (s t : List UInt8) :
    r.read (s ++ t) = (r.read s).bind fun r' => r'.read t := List.foldlM_append ..

end Reader

/-- The constructor of `std::regex`: nothing for a pattern that has no meaning, or none of those
here. -/
def parse (text : List UInt8) : Option Regex :=
  match Reader.begin.read text with
  | some ⟨.plain, g, []⟩ => some g.regex
  | some ⟨.quantified, g, []⟩ => some g.regex
  | _ => none

example :
    (parse [0x5E, 0x28, 0x2E, 0x2A, 0x2F, 0x29, 0x3F, 0x61, 0x24]).map
    (·.matchesAll [0x62, 0x2F, 0x61]) = some true := by
  decide

end Regex
end Lib
