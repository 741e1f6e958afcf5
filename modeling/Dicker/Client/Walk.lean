import Dicker.Client.Filter
import Dicker.Lib.DirectoryWalk
import Dicker.Lib.While

/-! The walk over a root (`Scheduler::run` in client/scheduler.h): which files of the tree are
enqueued. -/

namespace Dicker.Client
open Lib Program

/-- What an entry is that has no entries below it: a regular file (or a link to one), a link to a
directory, something else, or an entry whose status cannot be read. -/
inductive EntryKind where
  | regular
  | directoryLink
  | other
  | unreadable

abbrev Tree := Forest Name EntryKind

/-- `entry.path().lexically_relative(root.path)` of the entry that these names lead to. -/
def relative (path : List Name) : Bytes := List.intercalate [separator] path

def filename (path : List Name) : Name := path.getLastD []

inductive WalkOp where
  | enqueue (path : List Name)

def WalkOp.Ans : WalkOp → Type
  | enqueue _ => Bool

abbrev WalkM := Program WalkOp WalkOp.Ans

/-- The loop runs over the entries until `enqueue` returns false. -/
inductive WalkState where
  | walking (it : Forest.Cursor Name EntryKind)
  | refused

section
variable (rules : List Rule)

def keepEntry (path : List Name) (isDir : Bool) : Bool :=
  keep rules (relative path) (filename path) isDir

/-- One round of the loop; `disable_recursion_pending` is an increment that does not recurse. -/
def visitEntry (it : Forest.Cursor Name EntryKind) : WalkM WalkState :=
  match it.current with
  | none => .ret (.walking it)
  | some (path, .dir) => .ret (.walking (it.increment (keepEntry rules path true)))
  | some (path, .leaf kind) =>
    match kind with
    | .regular =>
      if keepEntry rules path false then
        .call (.enqueue path) fun
          | true => .ret (.walking (it.increment true))
          | false => .ret .refused
      else .ret (.walking (it.increment true))
    | .directoryLink => .ret (.walking (it.increment (keepEntry rules path true)))
    | .other => .ret (.walking (it.increment true))
    | .unreadable => .ret (.walking (it.increment true))

def WalkState.more : WalkState → Bool
  | walking it => it.current.isSome
  | refused => false

def WalkState.weight : WalkState → ℕ
  | walking it => it.frames.weight + 1
  | refused => 0

abbrev WalkLog := List (Entry WalkOp WalkOp.Ans)

def chosen : List Name × Item EntryKind → Option (List Name)
  | (path, .leaf .regular) => if keepEntry rules path false then some path else none
  | _ => none

inductive Round (it : Forest.Cursor Name EntryKind) : WalkLog → WalkState → Prop
  | passed {path : List Name} {item : Item EntryKind} (hcurrent : it.current = some (path, item))
    (hchosen : chosen rules (path, item) = none) :
    Round it [] (.walking (it.increment (keepEntry rules path true)))
  | enqueued {path : List Name} {item : Item EntryKind} (hcurrent : it.current = some (path, item))
    (hchosen : chosen rules (path, item) = some path) :
    Round it [.did (.enqueue path) true] (.walking (it.increment (keepEntry rules path true)))
  | refused (path : List Name) : Round it [.did (.enqueue path) false] .refused

theorem round_of_yields {it : Forest.Cursor Name EntryKind} (hmore : it.current.isSome)
    {s : WalkState} {t : WalkLog} (h : (visitEntry rules it).Yields s t) : Round rules it t s := by
  obtain ⟨⟨path, item⟩, hcurrent⟩ := Option.isSome_iff_exists.mp hmore
  unfold visitEntry at h
  rw [hcurrent] at h
  cases item with
  | dir =>
    obtain ⟨rfl, rfl⟩ := h
    exact .passed hcurrent rfl
  | leaf kind =>
    have hsame := it.increment_leaf hcurrent true (keepEntry rules path true)
    cases kind with
    | regular =>
      dsimp only at h
      split_ifs at h with hkeep
      · obtain ⟨answer, t', h, rfl⟩ := h
        cases answer with
        | true =>
          obtain ⟨rfl, rfl⟩ := h
          rw [hsame]
          exact .enqueued hcurrent (if_pos hkeep)
        | false =>
          obtain ⟨rfl, rfl⟩ := h
          exact .refused path
      · obtain ⟨rfl, rfl⟩ := h
        rw [hsame]
        exact .passed hcurrent (if_neg hkeep)
    | directoryLink =>
      obtain ⟨rfl, rfl⟩ := h
      exact .passed hcurrent rfl
    | other | unreadable =>
      obtain ⟨rfl, rfl⟩ := h
      rw [hsame]
      exact .passed hcurrent rfl

def walkRound : WalkState → WalkM WalkState
  | .walking it => visitEntry rules it
  | .refused => .ret .refused

def walkLoop : While WalkOp WalkOp.Ans WalkState where
  more := WalkState.more
  body := walkRound rules
  measure := WalkState.weight
  falls s hmore s' t h := by
    cases s with
    | refused => exact nomatch hmore
    | walking it =>
      have hcurrent : it.current ≠ none := Option.isSome_iff_ne_none.mp hmore
      cases round_of_yields rules hmore h with
      | passed | enqueued => exact Nat.succ_lt_succ (it.increment_weight hcurrent _)
      | refused => exact Nat.succ_pos _

def WalkState.result : WalkState → Bool
  | walking .broken => false
  | walking _ => true
  | refused => false

def run (tree : Tree) : WalkM Bool :=
  (walkLoop rules).loop (.walking (Forest.settle [([], tree)])) >>= fun s => .ret s.result

/-! ## The files that are enqueued -/

def enqueuedOf (t : WalkLog) : List (List Name) := t.filterMap fun
  | .did (.enqueue path) _ => some path
  | .got _ => none

theorem enqueuedOf_append (t u : WalkLog) : enqueuedOf (t ++ u) = enqueuedOf t ++ enqueuedOf u :=
  List.filterMap_append

def Dispatched (t : WalkLog) : Prop :=
  ∀ path answer, Entry.did (WalkOp.enqueue path) answer ∈ t → answer = true

def visited (tree : Tree) : List (List Name × Item EntryKind) :=
  tree.visits (keepEntry rules · true) []

def Walked (tree : Tree) (s : WalkState) (t : WalkLog) : Prop :=
  Dispatched t → ∃ it seen, s = .walking it ∧ it.Sound ∧
    visited rules tree = seen ++ it.frames.pending (keepEntry rules · true) ∧
    enqueuedOf t = seen.filterMap (chosen rules)

variable {rules}

theorem Walked.round {tree : Tree} {s s' : WalkState} {t u : WalkLog} (h : Walked rules tree s t)
    (hmore : s.more = true) (hs' : (walkRound rules s).Yields s' u) :
    Walked rules tree s' (t ++ u) := by
  intro hall
  obtain ⟨it, seen, rfl, hit, hvisited, henqueued⟩ := h fun path answer hmem =>
    hall path answer (List.mem_append_left _ hmem)
  cases round_of_yields rules hmore hs' with
  | @passed path item hcurrent hchosen =>
    refine ⟨_, seen ++ [(path, item)], rfl, hit.increment _, ?_, ?_⟩
    · rw [hvisited, hit.pending_increment hcurrent, List.append_assoc]
      rfl
    · rw [List.append_nil, henqueued, List.filterMap_append, List.filterMap_cons, hchosen,
        List.filterMap_nil, List.append_nil]
  | @enqueued path item hcurrent hchosen =>
    refine ⟨_, seen ++ [(path, item)], rfl, hit.increment _, ?_, ?_⟩
    · rw [hvisited, hit.pending_increment hcurrent, List.append_assoc]
      rfl
    · have hone : [(path, item)].filterMap (chosen rules) = [path] := by
        rw [List.filterMap_cons, hchosen, List.filterMap_nil]
      rw [enqueuedOf_append, henqueued, List.filterMap_append, hone]
      rfl
  | refused path =>
    exact nomatch hall path false (List.mem_append_right _ List.mem_cons_self)

theorem run_enqueues {tree : Tree} (hsound : tree.Sound) :
    (run rules tree).wp fun ok t => Dispatched t →
    ok = true ∧ enqueuedOf t = (visited rules tree).filterMap (chosen rules) := by
  apply wp_of_yields
  intro ok t h hall
  obtain ⟨s, t₁, t₂, hs, ⟨rfl, rfl⟩, rfl⟩ := Yields.of_bind h
  rw [List.append_nil] at hall ⊢
  have hframes : Forest.Frames.Sound [(([] : List Name), tree)] :=
    List.forall_mem_singleton.mpr hsound
  have hstart : Walked rules tree (.walking (Forest.settle [([], tree)])) [] := by
    refine fun _ => ⟨_, [], rfl, Forest.settle_sound hframes, ?_, rfl⟩
    rw [Forest.settle_pending hframes, List.nil_append]
    exact (List.flatMap_singleton ..).symm
  obtain ⟨hwalked, hdone⟩ :=
    (walkLoop rules).yields_loop (fun _ _ _ _ hm hmore hm' => hm.round hmore hm')
    (t := []) hstart hs
  obtain ⟨it, seen, rfl, hit, hvisited, henqueued⟩ := hwalked hall
  have hcurrent : it.current = none := Option.not_isSome_iff_eq_none.mp (Bool.eq_false_iff.mp hdone)
  rw [hit.pending_of_current_none hcurrent, List.append_nil] at hvisited
  refine ⟨?_, ?_⟩
  · cases it with
    | broken => exact absurd rfl hit.ne_broken
    | atLeaf | atDir | finished => rfl
  · rw [hvisited]
    exact henqueued

def Passes (rules : List Rule) (path : List Name) : Prop :=
  ∀ r, rules.find? (·.matches (relative path) (filename path)) = some r → r.included = true

theorem keep_iff (path : List Name) (isDir : Bool) :
    keepEntry rules path isDir = true ↔
      Passes (rules.filter fun r => !(r.dirOnly && !isDir)) path := by
  unfold keepEntry Passes
  induction rules with
  | nil => exact ⟨fun _ r h => (nomatch h), fun _ => rfl⟩
  | cons r rules ih =>
    unfold keep
    cases hskip : r.dirOnly && !isDir with
    | true =>
      rw [List.filter_cons_of_neg (by rw [hskip]; decide)]
      exact ih
    | false =>
      rw [List.filter_cons_of_pos (by rw [hskip]; rfl), List.find?_cons]
      cases hmatch : r.matches (relative path) (filename path) with
      | true => exact ⟨fun h r' hr' => Option.some.inj hr' ▸ h, fun h => h r rfl⟩
      | false => exact ih

theorem chosen_eq_some {entry : List Name × Item EntryKind} {path : List Name} :
    chosen rules entry = some path ↔ entry = (path, .leaf .regular) ∧
      keepEntry rules path false = true := by
  constructor
  · intro h
    obtain ⟨p, item⟩ := entry
    cases item with
    | dir => exact nomatch h
    | leaf kind =>
      cases kind with
      | regular =>
        rw [chosen] at h
        split_ifs at h with hkeep
        cases h
        exact ⟨rfl, hkeep⟩
      | directoryLink | other | unreadable => exact nomatch h
  · rintro ⟨rfl, hkeep⟩
    exact if_pos hkeep

theorem keep_file_iff (path : List Name) :
    keepEntry rules path false = true ↔ Passes (rules.filter (!·.dirOnly)) path := by
  rw [keep_iff]
  simp only [Bool.not_false, Bool.and_true]

theorem keep_dir_iff (path : List Name) : keepEntry rules path true = true ↔ Passes rules path := by
  rw [keep_iff]
  simp only [Bool.not_true, Bool.and_false, Bool.not_false, List.filter_true]

/-- Every regular file is enqueued once, if the rules let it and every directory above it pass, and
nothing else is. -/
theorem walk_exact (rules : List Rule) {tree : Tree} (hsound : tree.Sound)
    (hnames : tree.Distinct) :
    (run rules tree).wp fun ok t => Dispatched t → ok = true ∧ (enqueuedOf t).Nodup ∧
      ∀ path, path ∈ enqueuedOf t ↔ tree.Has path (.leaf .regular) ∧
        Passes (rules.filter (!·.dirOnly)) path ∧
        ∀ k, 0 < k → k < path.length → Passes rules (path.take k) := by
  refine wp_mono (run_enqueues hsound) ?_
  intro ok t h hall
  obtain ⟨hok, henqueued⟩ := h hall
  rw [henqueued]
  refine ⟨hok, ?_, fun path => ?_⟩
  · have hnodup : ((visited rules tree).map Prod.fst).Nodup := hnames.nodup_visits
    refine List.Nodup.filterMap ?_ hnodup.of_map
    intro a b path ha hb
    rw [(chosen_eq_some.mp ha).1, (chosen_eq_some.mp hb).1]
  · simp only [List.mem_filterMap, chosen_eq_some, visited]
    constructor
    · rintro ⟨entry, hmem, rfl, hkeep⟩
      obtain ⟨names, rfl, hhas, hdirs⟩ := Forest.mem_visits_iff.mp hmem
      refine ⟨hhas, (keep_file_iff _).mp hkeep,
        fun k hpos hlt => (keep_dir_iff _).mp (hdirs k hpos hlt)⟩
    · rintro ⟨hhas, hfile, hdirs⟩
      refine ⟨_, Forest.mem_visits_iff.mpr ⟨path, rfl, hhas, fun k hpos hlt => ?_⟩, rfl,
        (keep_file_iff _).mpr hfile⟩
      exact (keep_dir_iff _).mpr (hdirs k hpos hlt)

def smallTree : Tree := .dir [0x61] (.leaf [0x62] .regular .nil) (.leaf [0x62] .regular .nil)

theorem walk_exact_small :
    ∃ rules, [FilterRule.mk false [0x61], FilterRule.mk true [0x62]].mapM compileRule = some rules ∧
    (run rules smallTree).wp fun ok t => Dispatched t → ok = true ∧ (enqueuedOf t).Nodup ∧
      ∀ path, path ∈ enqueuedOf t ↔ smallTree.Has path (.leaf .regular) ∧
        Passes (rules.filter (!·.dirOnly)) path ∧
        ∀ k, 0 < k → k < path.length → Passes rules (path.take k) := by
  have hnames : smallTree.Distinct :=
    ⟨by decide, ⟨List.not_mem_nil, trivial⟩, List.not_mem_nil, trivial⟩
  exact ⟨_, rfl, walk_exact _ ⟨trivial, trivial⟩ hnames⟩

end

end Dicker.Client
