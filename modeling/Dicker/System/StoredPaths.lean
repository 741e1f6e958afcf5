import Dicker.Client.Task
import Dicker.Server.FileSink

/-! From the path of a source file to the path it is stored at: the client copies the
path into a task, the server resolves what arrives. -/

namespace Dicker.System
open Lib Client Server

def storedPath (configRoot : LexPath) (id : SessionId) (path : Bytes) : Option LexPath :=
  resolveSafePath (sessionRoot configRoot id) (Pathname.copy path).bytes

structure Sendable (path : Bytes) : Prop where
  length_lt : path.length < PATH_CAP
  terminated : (0 : UInt8) ∉ path

def posixPath (names : List Name) : Bytes := names.flatMap fun n => separator :: n

structure Plain (name : Name) : Prop where
  ne_nil : name ≠ []
  ne_dot : name ≠ dot
  ne_dotdot : name ≠ dotdot
  separator_notMem : separator ∉ name
  backslash_notMem : (0x5C : UInt8) ∉ name

theorem storedPath_of_sendable {configRoot : LexPath} {id : SessionId} {p : Bytes}
    (hp : Sendable p) :
    storedPath configRoot id p = resolveSafePath (sessionRoot configRoot id) p := by
  rw [storedPath, Pathname.copy_bytes hp.length_lt hp.terminated]

/-! ## Absolute POSIX paths -/

theorem forwardSlashes_posixPath {names : List Name} (h : ∀ n ∈ names, Plain n) :
    forwardSlashes (posixPath names) = posixPath names := by
  have hself : ∀ c ∈ posixPath names, (if c = 0x5C then 0x2F else c) = c := by
    intro c hc
    obtain ⟨n, hn, hc⟩ := List.mem_flatMap.mp hc
    refine if_neg ?_
    rcases List.mem_cons.mp hc with rfl | hc
    · decide
    · exact ne_of_mem_of_not_mem hc (h n hn).backslash_notMem
  rw [forwardSlashes, List.map_congr_left hself, List.map_id']

def joined : List Name → Bytes
  | [] => []
  | n :: names => n ++ posixPath names

theorem stripPath_posixPath {names : List Name} (h : ∀ n ∈ names, Plain n) :
    stripPath (posixPath names) = joined names := by
  rw [stripPath, forwardSlashes_posixPath h]
  cases names with
  | nil => rfl
  | cons n names =>
    obtain ⟨c, cs, hn⟩ := List.exists_cons_of_ne_nil (h n List.mem_cons_self).ne_nil
    have hc : c ≠ 0x2F := by
      rintro rfl
      exact (h n List.mem_cons_self).separator_notMem (hn ▸ List.mem_cons_self)
    have hdrive : driveLength (posixPath (n :: names)) = 0 := by
      rw [driveLength, if_neg]
      rintro ⟨-, halpha, -⟩
      change isAlpha separator = true at halpha
      exact absurd halpha (by decide)
    rw [hdrive]
    simp [posixPath, joined, separator, hn, hc]

theorem joined_eq_intercalate (n : Name) (names : List Name) :
    joined (n :: names) = [separator].intercalate (n :: names) := by
  induction names generalizing n with
  | nil => simp [joined, posixPath, List.intercalate]
  | cons m names ih =>
    rw [List.intercalate_cons_cons, ← ih m]
    simp [joined, posixPath]

theorem components_posixPath {names : List Name} (hne : names ≠ []) (h : ∀ n ∈ names, Plain n) :
    components (posixPath names) = names := by
  obtain ⟨n, rest, rfl⟩ := List.exists_cons_of_ne_nil hne
  rw [components, stripPath_posixPath h, joined_eq_intercalate]
  exact List.splitOn_intercalate separator (fun m hm => (h m hm).separator_notMem) hne

theorem walk_plain {names : List Name} (h : ∀ n ∈ names, Plain n) (stack : List Name) :
    LexPath.walk stack names = some (names.reverse ++ stack) := by
  induction names generalizing stack with
  | nil => rfl
  | cons n names ih =>
    have hn := h n List.mem_cons_self
    have hstep : LexPath.walkStep stack n = some (n :: stack) := by
      rw [LexPath.walkStep, if_neg, if_neg hn.ne_dotdot]
      exact fun hi => hi.elim hn.ne_nil hn.ne_dot
    rw [LexPath.walk_cons, hstep, Option.bind_some, ih fun m hm => h m (List.mem_cons_of_mem _ hm),
      List.reverse_cons, List.append_assoc]
    rfl

theorem names_of_walk {names stack : List Name} (h : ∀ n ∈ names, Plain n) (hne : stack ≠ [])
    (hwalk : LexPath.walk [] (components (posixPath names)) = some stack) :
    names = stack.reverse := by
  cases names with
  | nil =>
    cases hwalk
    exact absurd rfl hne
  | cons n names =>
    rw [components_posixPath (by simp) h, walk_plain h, List.append_nil] at hwalk
    rw [← Option.some_inj.mp hwalk, List.reverse_reverse]

/-! ## Which files share a stored path -/

/-- Two accepted paths are stored at one place exactly when, with slashes for
backslashes and without a drive and leading slashes, they walk to the same names (and
both or neither end in a separator). Different absolute POSIX paths do not. -/
theorem storedPath_eq_iff (configRoot : LexPath) (id : SessionId) {p q : Bytes}
    (hp : Sendable p) (hq : Sendable q) {full full' : LexPath}
    (hfull : storedPath configRoot id p = some full)
    (hfull' : storedPath configRoot id q = some full') :
    (full = full' ↔ LexPath.walk [] (components p) = LexPath.walk [] (components q) ∧
      endsInSeparator p = endsInSeparator q) ∧
    ∀ names names', (∀ n ∈ names, Plain n) → (∀ n ∈ names', Plain n) →
      p = posixPath names → q = posixPath names' → p ≠ q → full ≠ full' := by
  rw [storedPath_of_sendable hp] at hfull
  rw [storedPath_of_sendable hq] at hfull'
  obtain ⟨stack, hwalk, hne, rfl⟩ := resolveSafePath_some hfull
  obtain ⟨stack', hwalk', hne', rfl⟩ := resolveSafePath_some hfull'
  have hiff : ∀ (root : Bool) (names : List Name),
      (⟨root, names ++ stack.reverse, endsInSeparator p⟩ : LexPath) =
        ⟨root, names ++ stack'.reverse, endsInSeparator q⟩ ↔
      stack = stack' ∧ endsInSeparator p = endsInSeparator q := by
    intro root names
    rw [LexPath.mk.injEq, List.append_right_inj, List.reverse_inj]
    exact and_iff_right rfl
  refine ⟨?_, ?_⟩
  · rw [hiff, hwalk, hwalk', Option.some_inj]
  · rintro names names' hnames hnames' rfl rfl hdiff heq
    obtain ⟨hstack, -⟩ := (hiff _ _).mp heq
    refine hdiff (congrArg posixPath ?_)
    rw [names_of_walk hnames hne hwalk, names_of_walk hnames' hne' hwalk', hstack]

theorem storedPath_eq_iff_example :
    storedPath servedRoot zeroId [0x2F, 0x61] =
      some ⟨true, [[0x73, 0x72, 0x76], List.replicate 32 0x30, [0x61]], false⟩ ∧
    storedPath servedRoot zeroId [0x2F, 0x62] =
      some ⟨true, [[0x73, 0x72, 0x76], List.replicate 32 0x30, [0x62]], false⟩ ∧
    (⟨true, [[0x73, 0x72, 0x76], List.replicate 32 0x30, [0x61]], false⟩ : LexPath) ≠
      ⟨true, [[0x73, 0x72, 0x76], List.replicate 32 0x30, [0x62]], false⟩ := by
  have ha : Plain [0x61] := ⟨by decide, by decide, by decide, by decide, by decide⟩
  have hb : Plain [0x62] := ⟨by decide, by decide, by decide, by decide, by decide⟩
  have hfull : storedPath servedRoot zeroId [0x2F, 0x61] =
      some ⟨true, [[0x73, 0x72, 0x76], List.replicate 32 0x30, [0x61]], false⟩ := by decide
  have hfull' : storedPath servedRoot zeroId [0x2F, 0x62] =
      some ⟨true, [[0x73, 0x72, 0x76], List.replicate 32 0x30, [0x62]], false⟩ := by decide
  refine ⟨hfull, hfull', ?_⟩
  exact (storedPath_eq_iff servedRoot zeroId ⟨by decide, by decide⟩ ⟨by decide, by decide⟩
    hfull hfull').2 [[0x61]] [[0x62]] (by simpa using ha) (by simpa using hb) rfl rfl (by decide)

/-- The file "C:\a" and the file "D:\a" are stored at one place. -/
theorem storedPath_drives_collide :
    ([0x43, 0x3A, 0x5C, 0x61] : Bytes) ≠ [0x44, 0x3A, 0x5C, 0x61] ∧
    (storedPath servedRoot zeroId [0x43, 0x3A, 0x5C, 0x61]).isSome ∧
    storedPath servedRoot zeroId [0x43, 0x3A, 0x5C, 0x61] =
      storedPath servedRoot zeroId [0x44, 0x3A, 0x5C, 0x61] := by
  refine ⟨by decide, by decide, by decide⟩

end Dicker.System
