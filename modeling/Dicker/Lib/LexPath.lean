import Mathlib

/-! Lexical file-system paths without root names, after the C++ standard
([fs.path.generic]): a path is an optional root directory, a list of file names and
an optional trailing separator. `lexicallyNormal` follows the rules of the normal
form one by one; the results say that what it leaves is the stack of a walk over
the names. -/

namespace Lib

abbrev Name := List UInt8

def separator : UInt8 := 0x2F

def dot : Name := [0x2E]

def dotdot : Name := [0x2E, 0x2E]

/-- `trailing`: a separator follows the last name. -/
structure LexPath where
  rootDir : Bool
  names : List Name
  trailing : Bool
  deriving DecidableEq

section
variable {α : Type} {c x : α}

variable {ls : List (List α)}

theorem mem_intercalate_iff (hc : c ≠ x) : c ∈ [x].intercalate ls ↔ ∃ l ∈ ls, c ∈ l := by
  induction ls with
  | nil => simp
  | cons l ls ih =>
    cases ls with
    | nil => simp
    | cons l' ls => rw [List.intercalate_cons_cons, List.mem_append, ih]; simp [hc]

theorem intercalate_cons_nil (hne : ls ≠ []) :
    [x].intercalate ([] :: ls) = x :: [x].intercalate ls := by
  obtain ⟨l, ls, rfl⟩ := List.exists_cons_of_ne_nil hne
  rw [List.intercalate_cons_cons]
  rfl

theorem intercalate_concat_nil (hne : ls ≠ []) :
    [x].intercalate (ls ++ [[]]) = [x].intercalate ls ++ [x] := by
  induction ls with
  | nil => exact absurd rfl hne
  | cons l ls ih =>
    cases ls with
    | nil => simp
    | cons l' ls =>
      rw [List.intercalate_cons_cons, List.append_assoc, ← ih (List.cons_ne_nil _ _)]
      exact List.intercalate_cons_cons

end

namespace LexPath

def parse (s : List UInt8) : LexPath :=
  let names := (s.splitOn separator).filter (· ≠ [])
  ⟨s.head? = some separator, names, names ≠ [] ∧ s.getLast? = some separator⟩

def isEmpty (p : LexPath) : Bool := !p.rootDir && p.names.isEmpty

/-- `path::parent_path`: everything but the last element. -/
def parentPath (p : LexPath) : LexPath :=
  ⟨p.rootDir, if p.trailing then p.names else p.names.dropLast, false⟩

def elements (p : LexPath) : List Name :=
  (if p.rootDir then [[separator]] else []) ++ p.names ++ (if p.trailing then [[]] else [])

def append (p q : LexPath) : LexPath :=
  if q.rootDir then q
  else if q.names = [] then { p with trailing := p.trailing || p.names ≠ [] }
  else ⟨p.rootDir, p.names ++ q.names, q.trailing⟩

/-! ## The rules of the normal form -/

def removeDots (names : List Name) (trailing : Bool) : List Name × Bool :=
  let left := names.filter (· ≠ dot)
  (left, (trailing || names.getLast? = some dot) && left ≠ [])

def cancelFirst : List Name → Option (List Name × Bool)
  | a :: b :: rest =>
    if a ≠ dotdot ∧ b = dotdot then some (rest, rest.isEmpty)
    else (cancelFirst (b :: rest)).map fun r => (a :: r.1, r.2)
  | _ => none

def cancel : ℕ → List Name → Bool → List Name × Bool
  | 0, names, trailing => (names, trailing)
  | n + 1, names, trailing =>
    match cancelFirst names with
    | none => (names, trailing)
    | some (left, last) => cancel n left ((trailing || last) && left ≠ [])

def removeRootDotdots (rootDir : Bool) (names : List Name) (trailing : Bool) :
    List Name × Bool :=
  if rootDir then
    let left := names.filter (· ≠ dotdot)
    (left, trailing && left ≠ [])
  else (names, trailing)

def trimTrailing (names : List Name) (trailing : Bool) : Bool :=
  trailing && names.getLast? ≠ some dotdot

def undotted (p : LexPath) : List Name × Bool := removeDots p.names p.trailing

def cancelled (p : LexPath) : List Name × Bool :=
  cancel (undotted p).1.length (undotted p).1 (undotted p).2

def rooted (p : LexPath) : List Name × Bool :=
  removeRootDotdots p.rootDir (cancelled p).1 (cancelled p).2

/-- The rules in their order; an empty path stays empty, and a path that becomes
empty is a dot. -/
def lexicallyNormal (p : LexPath) : LexPath :=
  if p.isEmpty then p
  else if !p.rootDir && (rooted p).1.isEmpty then ⟨false, [dot], false⟩
  else ⟨p.rootDir, (rooted p).1, trimTrailing (rooted p).1 (rooted p).2⟩

example : lexicallyNormal ⟨false, [[97], [98], dotdot, [99], dotdot], false⟩ =
    ⟨false, [[97]], true⟩ := by decide

/-! ## The walk -/

def push (stack : List Name) (name : Name) : List Name :=
  if name = dotdot then
    match stack with
    | [] => [dotdot]
    | top :: below => if top = dotdot then dotdot :: stack else below
  else name :: stack

def reduce (names : List Name) : List Name := (names.foldl push []).reverse

variable {a n : Name} {names left stack stack' : List Name} {last : Bool} {p : LexPath}
  {s : List UInt8}

theorem push_of_ne (ha : a ≠ dotdot) (stack : List Name) : push stack a = a :: stack := if_neg ha

theorem push_dotdot_of_ne {top : Name} (htop : top ≠ dotdot) (below : List Name) :
    push (top :: below) dotdot = below := by
  simp only [push, if_true, if_neg htop]

theorem push_push_dotdot (ha : a ≠ dotdot) (stack : List Name) :
    push (push stack a) dotdot = stack := by
  rw [push_of_ne ha, push_dotdot_of_ne ha]

theorem cancelFirst_foldl (h : cancelFirst names = some (left, last)) (stack : List Name) :
    names.foldl push stack = left.foldl push stack := by
  induction names generalizing left last stack with
  | nil => cases h
  | cons a names ih =>
    cases names with
    | nil => cases h
    | cons b rest =>
      rw [cancelFirst] at h
      split_ifs at h with hab
      · cases h
        rw [List.foldl_cons, List.foldl_cons, hab.2, push_push_dotdot hab.1]
      · obtain ⟨⟨left', last'⟩, h', he⟩ := Option.map_eq_some_iff.mp h
        cases he
        rw [List.foldl_cons, ih h', List.foldl_cons]

def Settled (names : List Name) : Prop := names.IsChain fun a b => b = dotdot → a = dotdot

theorem settled_of_cancelFirst (h : cancelFirst names = none) : Settled names := by
  induction names with
  | nil => exact .nil
  | cons a names ih =>
    cases names with
    | nil => exact .singleton a
    | cons b rest =>
      rw [cancelFirst] at h
      split_ifs at h with hab
      refine .cons_cons ?_ (ih (Option.map_eq_none_iff.mp h))
      intro hb
      by_contra ha
      exact hab ⟨ha, hb⟩

theorem Settled.foldl_push (h : Settled (stack.reverse ++ names)) :
    names.foldl push stack = names.reverse ++ stack := by
  induction names generalizing stack with
  | nil => rfl
  | cons a names ih =>
    have hpush : push stack a = a :: stack := by
      unfold push
      split_ifs with ha
      · cases stack with
        | nil => rw [ha]
        | cons top below =>
          have htop : top = dotdot := by
            rw [Settled, List.reverse_cons, List.append_assoc, List.isChain_append] at h
            exact (List.isChain_cons_cons.mp h.2.1).1 ha
          simp only [htop, if_true, ha]
      · rfl
    rw [List.foldl_cons, hpush, ih, List.reverse_cons, List.append_assoc]
    · rfl
    · rwa [List.reverse_cons, List.append_assoc]

theorem Settled.reduce_eq (h : Settled names) : reduce names = names := by
  have h' : Settled ([].reverse ++ names) := h
  rw [reduce, h'.foldl_push, List.append_nil, List.reverse_reverse]

theorem cancelFirst_length (h : cancelFirst names = some (left, last)) :
    left.length + 2 = names.length := by
  induction names generalizing left last with
  | nil => cases h
  | cons a names ih =>
    cases names with
    | nil => cases h
    | cons b rest =>
      rw [cancelFirst] at h
      split_ifs at h with hab
      · cases h
        rfl
      · obtain ⟨⟨left', last'⟩, h', he⟩ := Option.map_eq_some_iff.mp h
        cases he
        have := ih h'
        simp only [List.length_cons] at this ⊢
        omega

theorem cancel_names {n : ℕ} (hn : names.length ≤ n) (trailing : Bool) :
    (cancel n names trailing).1 = reduce names := by
  induction n generalizing names trailing with
  | zero =>
    rw [List.length_eq_zero_iff.mp (Nat.le_zero.mp hn)]
    rfl
  | succ n ih =>
    rw [cancel]
    rcases h : cancelFirst names with _ | ⟨left, last⟩
    · exact (settled_of_cancelFirst h).reduce_eq.symm
    · have hlen := cancelFirst_length h
      dsimp only
      rw [ih (by omega), reduce, reduce, cancelFirst_foldl h]

theorem cancelFirst_getLast? (h : cancelFirst names = some (left, last)) :
    (last = true ∧ names.getLast? = some dotdot) ∨
      (last = false ∧ left.getLast? = names.getLast?) := by
  induction names generalizing left last with
  | nil => cases h
  | cons a names ih =>
    cases names with
    | nil => cases h
    | cons b rest =>
      rw [cancelFirst] at h
      split_ifs at h with hab
      · cases h
        cases left with
        | nil => exact .inl ⟨rfl, by rw [hab.2]; rfl⟩
        | cons c left => exact .inr ⟨rfl, by simp⟩
      · obtain ⟨⟨left', last'⟩, h', he⟩ := Option.map_eq_some_iff.mp h
        cases he
        rcases ih h' with ⟨h1, h2⟩ | ⟨h1, h2⟩
        · exact .inl ⟨h1, by rw [List.getLast?_cons_cons, h2]⟩
        · refine .inr ⟨h1, ?_⟩
          cases left' with
          | nil => exact absurd h2.symm (by simp)
          | cons c left' => rw [List.getLast?_cons_cons, List.getLast?_cons_cons, h2]

def endsOpen (names : List Name) (trailing : Bool) : Bool :=
  trailing || names.getLast? = some dotdot

theorem cancel_endsOpen {n : ℕ} {trailing : Bool} (hne : (cancel n names trailing).1 ≠ []) :
    endsOpen (cancel n names trailing).1 (cancel n names trailing).2 =
      endsOpen names trailing := by
  induction n generalizing names trailing with
  | zero => rfl
  | succ n ih =>
    rw [cancel] at hne ⊢
    rcases h : cancelFirst names with _ | ⟨left, last⟩
    · rfl
    · rw [h] at hne
      dsimp only at hne ⊢
      have hleft : left ≠ [] := by
        rintro rfl
        refine hne ?_
        cases n <;> rfl
      rw [ih hne]
      rcases cancelFirst_getLast? h with ⟨h1, h2⟩ | ⟨h1, h2⟩
      · simp [endsOpen, h1, h2, hleft]
      · simp [endsOpen, h1, h2, hleft]

/-! ## The normal form -/

def core (p : LexPath) : List Name := reduce (p.names.filter (· ≠ dot))

def endsSpecial (names : List Name) : Bool :=
  names.getLast? = some dot ∨ names.getLast? = some dotdot

theorem isEmpty_of_core (hne : core p ≠ []) : ¬p.isEmpty = true := by
  intro hp
  have hnames : p.names = [] := by
    rw [isEmpty, Bool.and_eq_true] at hp
    exact List.isEmpty_iff.mp hp.2
  refine hne ?_
  rw [core, hnames]
  rfl

theorem filter_getLast? (h : names.getLast? ≠ some dot) :
    (names.filter (· ≠ dot)).getLast? = names.getLast? := by
  rcases List.eq_nil_or_concat names with rfl | ⟨init, a, rfl⟩
  · rfl
  · have ha : a ≠ dot := by
      rintro rfl
      exact h (by simp)
    simp [List.filter_append, ha]

theorem undotted_ne_nil (hne : core p ≠ []) : (undotted p).1 ≠ [] := by
  intro h
  refine hne ?_
  change reduce (undotted p).1 = []
  rw [h]
  rfl

theorem undotted_endsOpen (hne : core p ≠ []) :
    endsOpen (undotted p).1 (undotted p).2 = (p.trailing || endsSpecial p.names) := by
  have htrailing : (undotted p).2 = (p.trailing || p.names.getLast? = some dot) := by
    change (_ && decide ((undotted p).1 ≠ [])) = _
    rw [decide_eq_true (undotted_ne_nil hne), Bool.and_true]
  rw [endsOpen, htrailing]
  by_cases h : p.names.getLast? = some dot
  · simp [endsSpecial, h]
  · have hlast : (undotted p).1.getLast? = p.names.getLast? := filter_getLast? h
    simp [endsSpecial, hlast, h]

theorem cancelled_names (p : LexPath) : (cancelled p).1 = core p := cancel_names le_rfl _

def settledNames (p : LexPath) : List Name :=
  if p.rootDir then (core p).filter (· ≠ dotdot) else core p

theorem rooted_names (p : LexPath) : (rooted p).1 = settledNames p := by
  rw [rooted, removeRootDotdots, settledNames, ← cancelled_names p]
  split_ifs <;> rfl

theorem lexicallyNormal_names (hne : settledNames p ≠ []) :
    p.lexicallyNormal.names = settledNames p := by
  have hcore : core p ≠ [] := by
    intro h
    refine hne ?_
    rw [settledNames, h]
    split_ifs <;> rfl
  rw [lexicallyNormal, if_neg (isEmpty_of_core hcore), if_neg]
  · exact rooted_names p
  · rw [rooted_names]
    simpa using fun _ => hne

theorem lexicallyNormal_of_core_nil (hroot : p.rootDir = false) (hnil : core p = []) :
    p.lexicallyNormal.isEmpty = true ∨ p.lexicallyNormal = ⟨false, [dot], false⟩ := by
  by_cases hp : p.isEmpty = true
  · exact .inl (by rwa [lexicallyNormal, if_pos hp])
  · refine .inr ?_
    rw [lexicallyNormal, if_neg hp, if_pos]
    rw [rooted_names, settledNames, hroot, hnil]
    rfl

theorem lexicallyNormal_eq (hlast : (core p).getLast? = some n) (hn : n ≠ dotdot) :
    p.lexicallyNormal = ⟨p.rootDir, settledNames p, p.trailing || endsSpecial p.names⟩ := by
  have hcore : core p ≠ [] := by
    rintro h
    simp [h] at hlast
  have hmem : n ∈ settledNames p := by
    have hn' := List.mem_of_getLast? hlast
    rw [settledNames]
    split_ifs
    · exact List.mem_filter.mpr ⟨hn', by simpa using hn⟩
    · exact hn'
  have hne : settledNames p ≠ [] := List.ne_nil_of_mem hmem
  -- the slash at the end is followed through the passes; a real last name keeps it as it came
  have hcancelled : (cancelled p).2 = (p.trailing || endsSpecial p.names) := by
    have hopen : endsOpen (cancelled p).1 (cancelled p).2 =
        endsOpen (undotted p).1 (undotted p).2 :=
      cancel_endsOpen (by rwa [← cancelled_names p] at hcore)
    rw [undotted_endsOpen hcore, cancelled_names, endsOpen, hlast] at hopen
    simpa [hn] using hopen
  have hrooted : (rooted p).2 = (p.trailing || endsSpecial p.names) := by
    have hleft := rooted_names p ▸ hne
    rw [← hcancelled]
    unfold rooted removeRootDotdots at hleft ⊢
    split_ifs at hleft ⊢
    · dsimp only at hleft ⊢
      rw [decide_eq_true hleft, Bool.and_true]
    · rfl
  have htrim : (settledNames p).getLast? ≠ some dotdot := by
    rw [settledNames]
    split_ifs
    · intro h
      simpa using List.mem_of_getLast? h
    · rw [hlast]
      simpa using hn
  rw [lexicallyNormal, if_neg (isEmpty_of_core hcore), if_neg, rooted_names, hrooted, trimTrailing,
    decide_eq_true htrim, Bool.and_true]
  rw [rooted_names]
  simpa using fun _ => hne

theorem settled_push (h : Settled stack.reverse) (a : Name) : Settled (push stack a).reverse := by
  have hcons : ∀ b, (∀ top ∈ stack.head?, b = dotdot → top = dotdot) →
      Settled (b :: stack).reverse := by
    intro b hb
    rw [Settled, List.reverse_cons, List.isChain_append]
    refine ⟨h, .singleton b, fun x hx y hy => ?_⟩
    rw [List.getLast?_reverse] at hx
    cases hy
    exact hb x hx
  by_cases ha : a = dotdot
  · subst ha
    cases stack with
    | nil => exact .singleton dotdot
    | cons top below =>
      by_cases htop : top = dotdot
      · rw [push, if_pos rfl]
        simp only [htop, if_true]
        exact htop ▸ hcons dotdot fun x hx _ => by cases hx; exact htop
      · rw [push_dotdot_of_ne htop]
        rw [Settled, List.reverse_cons, List.isChain_append] at h
        exact h.1
  · rw [push_of_ne ha]
    exact hcons a fun _ _ h => absurd h ha

theorem settled_reduce (names : List Name) : Settled (reduce names) := by
  have hfold : ∀ (names stack : List Name), Settled stack.reverse →
      Settled (names.foldl push stack).reverse := by
    intro names
    induction names with
    | nil => exact fun _ h => h
    | cons a names ih => exact fun stack h => ih _ (settled_push h a)
  exact hfold names [] .nil

theorem mem_push (h : n ∈ push stack a) : n = a ∨ n ∈ stack := by
  by_cases ha : a = dotdot
  · subst ha
    cases stack with
    | nil => exact List.mem_cons.mp h
    | cons top below =>
      by_cases htop : top = dotdot
      · simp only [push, htop, if_true] at h
        exact (List.mem_cons.mp h).imp_right fun h => htop ▸ h
      · rw [push_dotdot_of_ne htop] at h
        exact .inr (List.mem_cons_of_mem _ h)
  · rw [push_of_ne ha] at h
    exact List.mem_cons.mp h

theorem mem_of_mem_reduce (h : n ∈ reduce names) : n ∈ names := by
  have hfold : ∀ (names stack : List Name), n ∈ names.foldl push stack → n ∈ names ∨ n ∈ stack := by
    intro names
    induction names with
    | nil => exact fun _ h => .inr h
    | cons a names ih =>
      intro stack h
      rcases ih _ h with h | h
      · exact .inl (List.mem_cons_of_mem _ h)
      · rcases mem_push h with rfl | h
        · exact .inl List.mem_cons_self
        · exact .inr h
  exact (hfold names [] (List.mem_reverse.mp h)).resolve_right (by simp)

theorem reduce_concat (hn : n ≠ dotdot) (names : List Name) :
    reduce (names ++ [n]) = reduce names ++ [n] := by
  rw [reduce, List.foldl_append, List.foldl_cons, List.foldl_nil, push_of_ne hn,
    List.reverse_cons]
  rfl

theorem settled_of_notMem (h : dotdot ∉ names) : Settled names := by
  rw [Settled, List.isChain_iff_forall_rel_of_append_cons_cons]
  rintro a b l₁ l₂ rfl hdd
  exact absurd (hdd ▸ by simp) h

theorem Settled.append {more : List Name} (h : Settled names) (hmore : dotdot ∉ more) :
    Settled (names ++ more) := by
  rw [Settled, List.isChain_append]
  refine ⟨h, settled_of_notMem hmore, fun x _ y hy hdd => ?_⟩
  exact absurd (hdd ▸ List.mem_of_mem_head? hy) hmore

theorem lexicallyNormal_self (hdot : dot ∉ p.names) (hs : Settled p.names)
    (hroot : p.rootDir = true → dotdot ∉ p.names) (hlast : p.names.getLast? = some n)
    (hn : n ≠ dotdot) : p.lexicallyNormal = p := by
  have hcore : core p = p.names := by
    rw [core, List.filter_eq_self.mpr, hs.reduce_eq]
    intro a ha
    exact decide_eq_true (ne_of_mem_of_not_mem ha hdot)
  have hsettled : settledNames p = p.names := by
    rw [settledNames, hcore]
    split_ifs with hr
    · refine List.filter_eq_self.mpr fun a ha => ?_
      exact decide_eq_true (ne_of_mem_of_not_mem ha (hroot hr))
    · rfl
  have hspecial : endsSpecial p.names = false := by
    have hdotn : n ≠ dot := fun h => hdot (h ▸ List.mem_of_getLast? hlast)
    simp [endsSpecial, hlast, hn, hdotn]
  rw [lexicallyNormal_eq (hcore ▸ hlast) hn, hsettled, hspecial, Bool.or_false]

/-! ## The depth of a walk -/

def Idle (c : Name) : Prop := c = [] ∨ c = dot

instance (c : Name) : Decidable (Idle c) := inferInstanceAs (Decidable (_ ∨ _))

def walkStep (stack : List Name) (c : Name) : Option (List Name) :=
  if Idle c then some stack
  else if c = dotdot then stack.tail?
  else some (c :: stack)

def walk (stack : List Name) (cs : List Name) : Option (List Name) := cs.foldlM walkStep stack

theorem walk_nil (stack : List Name) : walk stack [] = some stack := rfl

theorem walk_cons (stack : List Name) (c : Name) (cs : List Name) :
    walk stack (c :: cs) = (walkStep stack c).bind fun st => walk st cs := List.foldlM_cons

theorem walk_filter (stack cs : List Name) :
    walk stack (cs.filter fun c => ¬Idle c) = walk stack cs := by
  induction cs generalizing stack with
  | nil => rfl
  | cons c cs ih =>
    by_cases hc : Idle c
    · rw [List.filter_cons_of_neg (by simpa using hc), walk_cons, walkStep, if_pos hc, ih]
      rfl
    · rw [List.filter_cons_of_pos (by simpa using hc), walk_cons, walk_cons]
      exact congrArg _ (funext ih)

theorem dotdot_mem_push (h : dotdot ∈ stack) (name : Name) : dotdot ∈ push stack name := by
  unfold push
  split_ifs with hname
  · cases stack with
    | nil => exact absurd h (by simp)
    | cons top below =>
      dsimp only
      split_ifs with htop
      · exact List.mem_cons_self
      · exact (List.mem_cons.mp h).resolve_left (Ne.symm htop)
  · exact List.mem_cons_of_mem _ h

theorem dotdot_mem_foldl (h : dotdot ∈ stack) (names : List Name) :
    dotdot ∈ names.foldl push stack := by
  induction names generalizing stack with
  | nil => exact h
  | cons a names ih => exact ih (dotdot_mem_push h a)

theorem walk_eq (hstack : dotdot ∉ stack) (hnames : ∀ n ∈ names, ¬Idle n) :
    walk stack names =
      if dotdot ∈ names.foldl push stack then none else some (names.foldl push stack) := by
  induction names generalizing stack with
  | nil => rw [walk_nil, List.foldl_nil, if_neg hstack]
  | cons a names ih =>
    have hrest : ∀ n ∈ names, ¬Idle n := fun n hn => hnames n (List.mem_cons_of_mem _ hn)
    rw [walk_cons, walkStep, if_neg (hnames a List.mem_cons_self), List.foldl_cons]
    by_cases ha : a = dotdot
    · rw [if_pos ha, ha]
      cases stack with
      | nil =>
        have hdd : dotdot ∈ names.foldl push (push [] dotdot) :=
          dotdot_mem_foldl List.mem_cons_self names
        rw [if_pos hdd]
        rfl
      | cons top below =>
        have htop : top ≠ dotdot := fun h => hstack (h ▸ List.mem_cons_self)
        rw [push_dotdot_of_ne htop]
        exact ih (fun h => hstack (List.mem_cons_of_mem _ h)) hrest
    · rw [if_neg ha, push_of_ne ha]
      refine ih (fun h => ?_) hrest
      rcases List.mem_cons.mp h with h | h
      · exact ha h.symm
      · exact hstack h

def stepDepth (c : Name) : ℤ := if Idle c then 0 else if c = dotdot then -1 else 1

def depth (cs : List Name) : ℤ := (cs.map stepDepth).sum

theorem depth_cons (c : Name) (cs : List Name) : depth (c :: cs) = stepDepth c + depth cs :=
  List.sum_cons

theorem walkStep_length {c : Name} (h : walkStep stack c = some stack') :
    (stack'.length : ℤ) = stack.length + stepDepth c := by
  unfold walkStep at h
  unfold stepDepth
  split_ifs at h ⊢
  · cases h
    omega
  · cases stack with
    | nil => cases h
    | cons top below =>
      cases h
      simp
  · cases h
    simp

theorem walkStep_eq_none {c : Name} (h : walkStep stack c = none) :
    (stack.length : ℤ) + stepDepth c < 0 := by
  unfold walkStep at h
  unfold stepDepth
  split_ifs at h ⊢
  cases stack with
  | nil => simp
  | cons top below => cases h

theorem walk_length {cs : List Name} (h : walk stack cs = some stack') :
    (stack'.length : ℤ) = stack.length + depth cs := by
  induction cs generalizing stack with
  | nil =>
    cases h
    simp [depth]
  | cons c cs ih =>
    rw [walk_cons] at h
    obtain ⟨st, hst, h⟩ := Option.bind_eq_some_iff.mp h
    rw [ih h, walkStep_length hst, depth_cons]
    omega

theorem walk_isSome_iff (stack cs : List Name) :
    (walk stack cs).isSome ↔ ∀ part, part <+: cs → 0 ≤ (stack.length : ℤ) + depth part := by
  induction cs generalizing stack with
  | nil => simp [walk_nil, depth]
  | cons c cs ih =>
    rw [walk_cons]
    rcases hst : walkStep stack c with _ | st
    · refine iff_of_false (by simp) fun h => ?_
      have hneg := walkStep_eq_none hst
      have hpart := h [c] (by simp)
      rw [depth_cons] at hpart
      simp only [depth, List.map_nil, List.sum_nil] at hpart
      omega
    · rw [Option.bind_some, ih, walkStep_length hst]
      constructor
      · intro h part hpart
        rcases List.prefix_cons_iff.mp hpart with rfl | ⟨part, rfl, hp⟩
        · simp [depth]
        · have := h part hp
          rw [depth_cons]
          omega
      · intro h part hpart
        have := h (c :: part) (List.cons_prefix_cons.mpr ⟨rfl, hpart⟩)
        rw [depth_cons] at this
        omega

theorem walk_below_iff (cs : List Name) : (∃ stack, walk [] cs = some stack ∧ stack ≠ []) ↔
    (∀ part, part <+: cs → 0 ≤ depth part) ∧ 0 < depth cs := by
  have hdepth : (walk [] cs).isSome ↔ ∀ part, part <+: cs → 0 ≤ depth part := by
    simpa using walk_isSome_iff [] cs
  have hlength : ∀ stack, walk [] cs = some stack → (stack.length : ℤ) = depth cs := by
    intro stack hwalk
    simpa using walk_length hwalk
  rw [← hdepth]
  constructor
  · rintro ⟨stack, hwalk, hne⟩
    refine ⟨by rw [hwalk]; rfl, ?_⟩
    rw [← hlength stack hwalk]
    exact_mod_cast List.length_pos_iff.mpr hne
  · rintro ⟨hsome, hpos⟩
    obtain ⟨stack, hwalk⟩ := Option.isSome_iff_exists.mp hsome
    refine ⟨stack, hwalk, ?_⟩
    rw [← hlength stack hwalk] at hpos
    exact List.length_pos_iff.mp (by exact_mod_cast hpos)

theorem mem_of_walk {cs : List Name} (h : walk stack cs = some stack') (hn : n ∈ stack') :
    n ∈ stack ∨ (n ∈ cs ∧ ¬Idle n ∧ n ≠ dotdot) := by
  induction cs generalizing stack with
  | nil =>
    cases h
    exact .inl hn
  | cons c cs ih =>
    rw [walk_cons] at h
    obtain ⟨st, hst, h⟩ := Option.bind_eq_some_iff.mp h
    rcases ih h with hmem | ⟨hmem, hreal⟩
    · unfold walkStep at hst
      split_ifs at hst with hidle hdd
      · cases hst
        exact .inl hmem
      · cases stack with
        | nil => cases hst
        | cons top below =>
          cases hst
          exact .inl (List.mem_cons_of_mem _ hmem)
      · cases hst
        rcases List.mem_cons.mp hmem with rfl | hmem
        · exact .inr ⟨List.mem_cons_self, hidle, hdd⟩
        · exact .inl hmem
    · exact .inr ⟨List.mem_cons_of_mem _ hmem, hreal⟩

/-! ## Strings -/

theorem splitOn_cons (c : UInt8) (s : List UInt8) :
    (c :: s).splitOn separator = if c = separator then [] :: s.splitOn separator
      else (s.splitOn separator).modifyHead (List.cons c) := by
  rw [List.splitOn, List.splitOnP_cons_eq_if_modifyHead]
  simp only [beq_iff_eq]
  rfl

theorem splitOn_ne_nil (s : List UInt8) : s.splitOn separator ≠ [] := List.splitOnP_ne_nil _ s

theorem separator_notMem_splitOn (hn : n ∈ s.splitOn separator) : separator ∉ n := by
  induction s generalizing n with
  | nil =>
    rw [List.splitOn_nil, List.mem_singleton] at hn
    exact hn ▸ List.not_mem_nil
  | cons c s ih =>
    rw [splitOn_cons] at hn
    split_ifs at hn with hc
    · rcases List.mem_cons.mp hn with rfl | hn
      · exact List.not_mem_nil
      · exact ih hn
    · rcases hs : s.splitOn separator with _ | ⟨w, ws⟩
      · exact absurd hs (splitOn_ne_nil s)
      · rw [hs] at hn ih
        rcases List.mem_cons.mp hn with rfl | hn
        · intro h
          rcases List.mem_cons.mp h with h | h
          · exact hc h.symm
          · exact ih List.mem_cons_self h
        · exact ih (List.mem_cons_of_mem _ hn)

theorem getLast?_splitOn (s : List UInt8) :
    (s.splitOn separator).getLast? = some [] ↔ s = [] ∨ s.getLast? = some separator := by
  induction s with
  | nil => simp
  | cons c s ih =>
    rcases hs : s.splitOn separator with _ | ⟨w, ws⟩
    · exact absurd hs (splitOn_ne_nil s)
    · rw [hs] at ih
      rw [splitOn_cons, hs]
      cases s with
      | nil =>
        rw [List.splitOn_nil] at hs
        cases hs
        split_ifs with hc
        · simp [hc]
        · simp [hc]
      | cons b s =>
        rw [List.getLast?_cons_cons]
        split_ifs with hc
        · rw [List.getLast?_cons_cons, ih]
          simp
        · rw [List.modifyHead_cons]
          cases ws with
          | nil =>
            have hw : w = b :: s := by
              have hjoin : [separator].intercalate ((b :: s).splitOn separator) = b :: s :=
                List.intercalate_splitOn separator
              simpa [hs, List.intercalate] using hjoin
            rw [hw] at ih
            simpa using ih
          | cons v ws =>
            rw [List.getLast?_cons_cons, ← List.getLast?_cons_cons (a := w), ih]
            simp

theorem parse_single (hs : s ≠ []) (hsep : separator ∉ s) : parse s = ⟨false, [s], false⟩ := by
  have hsplit : s.splitOn separator = [s] := by
    refine List.splitOnP_eq_singleton fun c hc => ?_
    simpa using ne_of_mem_of_not_mem hc hsep
  have hhead : s.head? ≠ some separator := fun h => hsep (List.mem_of_mem_head? h)
  have hlast : s.getLast? ≠ some separator := fun h => hsep (List.mem_of_getLast? h)
  simp [parse, hsplit, hs, hhead, hlast]

theorem parse_core (s : List UInt8) :
    core (parse s) = reduce ((s.splitOn separator).filter fun c => ¬Idle c) := by
  rw [core, parse, List.filter_filter]
  congr 2
  funext c
  simp [Idle, and_comm]

theorem parse_endsSpecial (hne : (parse s).names ≠ []) :
    ((parse s).trailing || endsSpecial (parse s).names) = true ↔
      ∃ c, (s.splitOn separator).getLast? = some c ∧ (Idle c ∨ c = dotdot) := by
  have hs : s ≠ [] := by
    rintro rfl
    exact hne rfl
  have htrailing : (parse s).trailing = true ↔ (s.splitOn separator).getLast? = some [] := by
    rw [getLast?_splitOn]
    simp only [parse] at hne ⊢
    simp only [decide_eq_true_eq, hs, false_or, and_iff_right_iff_imp]
    exact fun _ => hne
  rcases List.eq_nil_or_concat (s.splitOn separator) with h | ⟨init, c, h⟩
  · exact absurd h (splitOn_ne_nil s)
  have hlast : (s.splitOn separator).getLast? = some c := by simp [h]
  by_cases hc : c = []
  · have ht : (parse s).trailing = true := htrailing.mpr (hlast.trans (by rw [hc]))
    simp only [ht, Bool.true_or, true_iff]
    exact ⟨c, hlast, .inl (.inl hc)⟩
  · have ht : (parse s).trailing = false := by
      rw [Bool.eq_false_iff, ne_eq, htrailing, hlast]
      simpa using hc
    have hnames : (parse s).names.getLast? = some c := by
      simp [parse, h, List.filter_append, hc]
    simp [ht, endsSpecial, hnames, hlast, Idle, hc]

/-! ## The string of a path -/

def native (p : LexPath) : List UInt8 :=
  (if p.rootDir then [separator] else []) ++ [separator].intercalate p.names ++ if p.trailing then
    [separator] else []

structure Proper (p : LexPath) : Prop where
  names_ne_nil : p.names ≠ []
  name_ne_nil : ∀ name ∈ p.names, name ≠ []
  separator_notMem : ∀ name ∈ p.names, separator ∉ name

theorem mem_native_iff {c : UInt8} (hc : c ≠ separator) :
    c ∈ p.native ↔ ∃ name ∈ p.names, c ∈ name := by
  unfold native
  rw [List.mem_append, List.mem_append, mem_intercalate_iff hc]
  split_ifs <;> simp [hc]

theorem splitOn_native (h : p.Proper) : p.native.splitOn separator =
    (if p.rootDir then [[]] else []) ++ p.names ++ if p.trailing then [[]] else [] := by
  have hne := h.names_ne_nil
  have hframe : p.native =
      [separator].intercalate ((if p.rootDir then [[]] else []) ++ p.names ++
        if p.trailing then [[]] else []) := by
    unfold native
    split_ifs
    · rw [List.append_assoc, List.singleton_append, List.singleton_append, List.cons_append,
        intercalate_cons_nil (by simp), intercalate_concat_nil hne]
    · rw [List.append_nil, List.append_nil]
      exact (intercalate_cons_nil hne).symm
    · exact (intercalate_concat_nil hne).symm
    · simp
  rw [hframe, List.splitOn_intercalate]
  · intro l hl
    rcases List.mem_append.mp hl with hl | hl
    · rcases List.mem_append.mp hl with hl | hl
      · split_ifs at hl <;> simp_all
      · exact h.separator_notMem l hl
    · split_ifs at hl <;> simp_all
  · simp [hne]

theorem head?_native (h : p.Proper) : p.native.head? = some separator ↔ p.rootDir = true := by
  unfold native
  by_cases hroot : p.rootDir = true
  · rw [if_pos hroot]
    exact iff_of_true rfl hroot
  · rw [if_neg hroot]
    refine iff_of_false ?_ hroot
    obtain ⟨name, names, heq⟩ := List.exists_cons_of_ne_nil h.names_ne_nil
    have hmem : name ∈ p.names := heq ▸ List.mem_cons_self
    obtain ⟨c, cs, rfl⟩ := List.exists_cons_of_ne_nil (h.name_ne_nil name hmem)
    have hc : c ≠ separator := fun hc => h.separator_notMem _ hmem (hc ▸ List.mem_cons_self)
    have hfirst : ∃ rest, [separator].intercalate p.names = c :: rest := by
      rw [heq]
      cases names with
      | nil => exact ⟨cs, by simp⟩
      | cons name' names => exact ⟨_, List.intercalate_cons_cons⟩
    obtain ⟨rest, hrest⟩ := hfirst
    rw [hrest]
    exact fun hhead => hc (Option.some.inj hhead)

theorem getLast?_native (h : p.Proper) :
    p.native.getLast? = some separator ↔ p.trailing = true := by
  obtain ⟨init, name, heq⟩ := (List.eq_nil_or_concat p.names).resolve_left h.names_ne_nil
  have hname : name ≠ [] := h.name_ne_nil name (by rw [heq]; simp)
  have hne : p.native ≠ [] := by
    intro hnil
    have hsplit := splitOn_native h
    rw [hnil, List.splitOn_nil, heq] at hsplit
    have hmem : name ∈ [([] : List UInt8)] := by
      rw [hsplit]
      simp
    exact hname (List.mem_singleton.mp hmem)
  have hlast := getLast?_splitOn p.native
  rw [or_iff_right hne, splitOn_native h, heq] at hlast
  rw [← hlast]
  by_cases htrailing : p.trailing = true
  · rw [if_pos htrailing, List.getLast?_concat]
    exact iff_of_true rfl htrailing
  · rw [if_neg htrailing, List.append_nil, List.concat_eq_append, ← List.append_assoc,
      List.getLast?_concat]
    exact iff_of_false (fun hlast => hname (Option.some.inj hlast)) htrailing

theorem parse_native (h : p.Proper) : parse p.native = p := by
  have hnames : (p.native.splitOn separator).filter (· ≠ []) = p.names := by
    have hself : p.names.filter (· ≠ []) = p.names :=
      List.filter_eq_self.mpr fun name hname => decide_eq_true (h.name_ne_nil name hname)
    rw [splitOn_native h, List.filter_append, List.filter_append, hself]
    split_ifs <;> simp
  unfold parse
  dsimp only
  rw [hnames]
  simp only [head?_native h, getLast?_native h, h.names_ne_nil, ne_eq, not_false_eq_true, true_and,
    Bool.decide_eq_true]

theorem mem_of_mem_parse {name : Name} (hname : name ∈ (parse s).names) {c : UInt8}
    (hc : c ∈ name) :
    c ∈ s := by
  have hmem : name ∈ s.splitOn separator := List.mem_of_mem_filter hname
  have hsep : c ≠ separator := by
    rintro rfl
    exact separator_notMem_splitOn hmem hc
  have hjoined := (mem_intercalate_iff hsep).mpr ⟨name, hmem, hc⟩
  rwa [List.intercalate_splitOn] at hjoined

end LexPath
end Lib
