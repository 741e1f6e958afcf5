import Dicker.System.StoredPaths
import Dicker.System.TaskPaths

/-! Which of the paths that the client makes of a root and of the files below it the server takes:
`Scheduler::run` spells a path as the root was given, `resolve_safe_path` wants one that stays
below the session's directory. -/

namespace Dicker.System
open Lib Client Server

/-! ## Paths of files below a root -/

/-- `dir / name` of `std::filesystem::path`, for the name of a directory entry. -/
def slash (dir : Bytes) (name : Name) : Bytes :=
  if dir = [] ∨ dir.getLast? = some separator then dir ++ name else dir ++ separator :: name

structure EntryName (name : Name) : Prop where
  ne_nil : name ≠ []
  ne_dot : name ≠ dot
  ne_dotdot : name ≠ dotdot
  separator_notMem : separator ∉ name
  nul_notMem : (0 : UInt8) ∉ name

/-- The recursive iterator over `root` visits `path`, through entries of these names. -/
structure Found (root : Bytes) (names : List Name) (path : Bytes) : Prop where
  root_ne_nil : root ≠ []
  nul_notMem : (0 : UInt8) ∉ root
  names_ne_nil : names ≠ []
  entries : ∀ n ∈ names, EntryName n
  path_eq : path = names.foldl slash root

def base (root : Bytes) : Bytes := if root.getLast? = some separator then root.dropLast else root

theorem slash_eq {dir : Bytes} (hne : dir ≠ []) (name : Name) :
    slash dir name = base dir ++ separator :: name := by
  unfold slash base
  by_cases hlast : dir.getLast? = some separator
  · rw [if_pos (.inr hlast), if_pos hlast]
    obtain ⟨front, rfl⟩ := List.getLast?_eq_some_iff.mp hlast
    rw [List.dropLast_concat, List.append_assoc]
    rfl
  · rw [if_neg (not_or.mpr ⟨hne, hlast⟩), if_neg hlast]

theorem base_slash {dir : Bytes} {name : Name} (hname : EntryName name) :
    base (slash dir name) = slash dir name := by
  have hlast : (slash dir name).getLast? ≠ some separator := by
    intro hlast
    have hin : separator ∈ name := by
      unfold slash at hlast
      split_ifs at hlast
      · rw [List.getLast?_append_of_ne_nil _ hname.ne_nil] at hlast
        exact List.mem_of_getLast? hlast
      · rw [List.getLast?_append_of_ne_nil _ (List.cons_ne_nil _ _),
          List.getLast?_cons_of_ne_nil hname.ne_nil] at hlast
        exact List.mem_of_getLast? hlast
    exact hname.separator_notMem hin
  rw [base, if_neg hlast]

theorem slash_ne_nil {dir : Bytes} {name : Name} (hname : EntryName name) :
    slash dir name ≠ [] := by
  unfold slash
  split_ifs
  · exact fun h => hname.ne_nil (List.append_eq_nil_iff.mp h).2
  · exact fun h => List.cons_ne_nil _ _ (List.append_eq_nil_iff.mp h).2

theorem foldl_slash {names : List Name} (h : ∀ n ∈ names, EntryName n) {dir : Bytes}
    (hne : dir ≠ []) (hnames : names ≠ []) :
    names.foldl slash dir = base dir ++ posixPath names := by
  induction names generalizing dir with
  | nil => exact absurd rfl hnames
  | cons n names ih =>
    have hn := h n List.mem_cons_self
    rw [List.foldl_cons]
    by_cases hlast : names = []
    · rw [hlast, List.foldl_nil, slash_eq hne]
      simp [posixPath]
    · rw [ih (fun m hm => h m (List.mem_cons_of_mem _ hm)) (slash_ne_nil hn) hlast,
        base_slash hn, slash_eq hne, List.append_assoc]
      rfl

/-! ## How the server reads them -/

theorem driveLength_append (path rest : Bytes) :
    driveLength (path ++ separator :: rest) = driveLength path := by
  unfold driveLength
  rcases path with - | ⟨a, - | ⟨b, path⟩⟩
  · rw [if_neg, if_neg]
    · rintro ⟨hlen, -⟩
      exact absurd hlen (by decide)
    · rintro ⟨-, halpha, -⟩
      change isAlpha separator = true at halpha
      exact absurd halpha (by decide)
  · rw [if_neg, if_neg]
    · rintro ⟨hlen, -⟩
      exact absurd hlen (by simp)
    · rintro ⟨-, -, hcolon⟩
      change separator = 0x3A at hcolon
      exact absurd hcolon (by decide)
  · simp

theorem driveLength_le (path : Bytes) : driveLength path ≤ path.length := by
  unfold driveLength
  split_ifs with h
  · exact h.1
  · exact Nat.zero_le _

theorem stripPath_append {path rest : Bytes}
    (hrest : forwardSlashes (separator :: rest) = separator :: rest) :
    stripPath (path ++ separator :: rest) =
      if stripPath path = [] then rest.dropWhile (· = 0x2F)
        else stripPath path ++ separator :: rest := by
  have hforward : forwardSlashes (path ++ separator :: rest) = forwardSlashes path ++
      separator :: rest := by
    rw [forwardSlashes, List.map_append]
    exact congrArg _ hrest
  unfold stripPath
  rw [hforward]
  dsimp only
  rw [driveLength_append, List.drop_append_of_le_length (driveLength_le _), List.dropWhile_append]
  simp only [List.isEmpty_iff]
  rfl

theorem walk_append (stack cs cs' : List Name) :
    LexPath.walk stack (cs ++ cs') = (LexPath.walk stack cs).bind fun stack' =>
      LexPath.walk stack' cs' :=
  List.foldlM_append ..

theorem walk_slash {path rest : Bytes}
    (hrest : forwardSlashes (separator :: rest) = separator :: rest)
    (hhead : rest.head? ≠ some 0x2F) : LexPath.walk [] (components (path ++ separator :: rest)) =
      (LexPath.walk [] (components path)).bind fun stack => LexPath.walk stack
      (rest.splitOn separator) := by
  unfold components
  rw [stripPath_append hrest]
  split_ifs with hnil
  · have hdrop : rest.dropWhile (· = 0x2F) = rest := by
      cases rest with
      | nil => rfl
      | cons c rest => exact List.dropWhile_cons_of_neg (by simpa using hhead)
    rw [hnil, hdrop]
    rfl
  · rw [List.splitOn_append_cons_self, walk_append]

theorem walk_base (root : Bytes) :
    LexPath.walk [] (components (base root)) = LexPath.walk [] (components root) := by
  unfold base
  split_ifs with hlast
  · obtain ⟨front, rfl⟩ := List.getLast?_eq_some_iff.mp hlast
    rw [List.dropLast_concat, @walk_slash front [] rfl nofun]
    exact (Option.bind_fun_some _).symm
  · rfl

theorem joined_head {names : List Name} (h : ∀ n ∈ names, Plain n) :
    (joined names).head? ≠ some 0x2F := by
  cases names with
  | nil => exact nofun
  | cons n names =>
    have hn := h n List.mem_cons_self
    intro hhead
    rw [joined, List.head?_append_of_ne_nil _ hn.ne_nil] at hhead
    exact hn.separator_notMem (List.mem_of_mem_head? hhead)

theorem splitOn_joined {names : List Name} (hne : names ≠ []) (h : ∀ n ∈ names, Plain n) :
    (joined names).splitOn separator = names := by
  obtain ⟨n, rest, rfl⟩ := List.exists_cons_of_ne_nil hne
  rw [joined_eq_intercalate]
  exact List.splitOn_intercalate separator (fun m hm => (h m hm).separator_notMem) hne

theorem posixPath_joined {names : List Name} (hne : names ≠ []) :
    posixPath names = separator :: joined names := by
  obtain ⟨n, rest, rfl⟩ := List.exists_cons_of_ne_nil hne
  rfl

variable {root path : Bytes} {names : List Name}

theorem Found.walk (hfound : Found root names path) (hplain : ∀ n ∈ names, (0x5C : UInt8) ∉ n) :
    LexPath.walk [] (components path) =
      (LexPath.walk [] (components root)).bind fun stack => some (names.reverse ++ stack) := by
  have hnames : ∀ n ∈ names, Plain n := fun n hn =>
    ⟨(hfound.entries n hn).ne_nil, (hfound.entries n hn).ne_dot, (hfound.entries n hn).ne_dotdot,
      (hfound.entries n hn).separator_notMem, hplain n hn⟩
  have hforward := forwardSlashes_posixPath hnames
  rw [posixPath_joined hfound.names_ne_nil] at hforward
  rw [hfound.path_eq, foldl_slash hfound.entries hfound.root_ne_nil hfound.names_ne_nil,
    posixPath_joined hfound.names_ne_nil, walk_slash hforward (joined_head hnames), walk_base,
    splitOn_joined hfound.names_ne_nil hnames]
  congr 1
  funext stack
  exact walk_plain hnames stack

theorem Found.nul_notMem_path (hfound : Found root names path) : (0 : UInt8) ∉ path := by
  have hbase : (0 : UInt8) ∉ base root := by
    unfold base
    split_ifs
    · exact fun hmem => hfound.nul_notMem (List.mem_of_mem_dropLast hmem)
    · exact hfound.nul_notMem
  rw [hfound.path_eq, foldl_slash hfound.entries hfound.root_ne_nil hfound.names_ne_nil]
  intro hmem
  rcases List.mem_append.mp hmem with hmem | hmem
  · exact hbase hmem
  · obtain ⟨n, hn, hc⟩ := List.mem_flatMap.mp hmem
    rcases List.mem_cons.mp hc with hc | hc
    · exact absurd hc (by decide)
    · exact (hfound.entries n hn).nul_notMem hc

/-- The server takes the unit of a file if and only if its path, as the server reads it, never
climbs above its start and leads below it. When no name holds a backslash, that is up to the root
alone. -/
theorem found_accepted_iff (hfound : Found root names path) (hlen : path.length < PATH_CAP)
    {cfg : Scheduler.Config} {size : UInt64} {mtime : Int64} {tasks : List Task}
    (henqueue : Scheduler.enqueue cfg path size mtime = some tasks) {t : Task} (ht : t ∈ tasks)
    (configRoot : LexPath) (id : SessionId) :
    ((resolveSafePath (sessionRoot configRoot id) t.pathname.bytes).isSome ↔
      (∀ part, part <+: components path → 0 ≤ LexPath.depth part) ∧
        0 < LexPath.depth (components path)) ∧
    ((∀ n ∈ names, (0x5C : UInt8) ∉ n) →
      ((resolveSafePath (sessionRoot configRoot id) t.pathname.bytes).isSome ↔
        ∀ part, part <+: components root → 0 ≤ LexPath.depth part)) := by
  obtain ⟨type, offset, length, rfl, -⟩ := mem_enqueue henqueue ht
  have hbytes : (workerTask type path offset length size mtime).pathname.bytes = path :=
    Pathname.copy_bytes hlen hfound.nul_notMem_path
  rw [hbytes, resolveSafePath_isSome_iff]
  refine ⟨LexPath.walk_below_iff _, fun hplain => ?_⟩
  have hroot : (LexPath.walk [] (components root)).isSome ↔
      ∀ part, part <+: components root → 0 ≤ LexPath.depth part := by
    simpa using LexPath.walk_isSome_iff [] (components root)
  rw [hfound.walk hplain, ← hroot, Option.isSome_iff_exists]
  constructor
  · rintro ⟨stack, hstack, -⟩
    obtain ⟨below, hbelow, -⟩ := Option.bind_eq_some_iff.mp hstack
    exact ⟨below, hbelow⟩
  · rintro ⟨below, hbelow⟩
    refine ⟨_, by rw [hbelow, Option.bind_some], fun hnil => ?_⟩
    exact hfound.names_ne_nil (List.reverse_eq_nil_iff.mp (List.append_eq_nil_iff.mp hnil).1)

theorem found_accepted_dot :
    Found [0x2E] [[0x64], [0x66]] [0x2E, 0x2F, 0x64, 0x2F, 0x66] ∧
      (resolveSafePath (sessionRoot servedRoot zeroId) [0x2E, 0x2F, 0x64, 0x2F, 0x66]).isSome := by
  have hfound : Found [0x2E] [[0x64], [0x66]] [0x2E, 0x2F, 0x64, 0x2F, 0x66] := by
    refine ⟨by decide, by decide, by decide, fun n hn => ?_, rfl⟩
    rcases List.mem_cons.mp hn with rfl | hn
    · exact ⟨by decide, by decide, by decide, by decide, by decide⟩
    · rw [List.mem_singleton.mp hn]
      exact ⟨by decide, by decide, by decide, by decide, by decide⟩
  have henqueue : Scheduler.enqueue ⟨10, 10⟩ [0x2E, 0x2F, 0x64, 0x2F, 0x66] 5 0 =
      some [workerTask .file [0x2E, 0x2F, 0x64, 0x2F, 0x66] 0 5 5 0] := rfl
  refine ⟨hfound,
    ((found_accepted_iff hfound (by decide) henqueue List.mem_cons_self servedRoot zeroId).2
    (by decide)).mpr fun part hpart => ?_⟩
  have hcomponents : components [0x2E] = [dot] := by decide
  rw [hcomponents] at hpart
  rcases List.prefix_cons_iff.mp hpart with rfl | ⟨rest, rfl, hrest⟩
  · decide
  · rw [List.prefix_nil.mp hrest]
    decide

/-- The file "f" below the root "../d" is sent as "../d/f" and rejected. -/
theorem parent_root_rejected :
    Found [0x2E, 0x2E, 0x2F, 0x64] [[0x66]] [0x2E, 0x2E, 0x2F, 0x64, 0x2F, 0x66] ∧
      Scheduler.enqueue ⟨10, 10⟩ [0x2E, 0x2E, 0x2F, 0x64, 0x2F, 0x66] 5 0 =
        some [workerTask .file [0x2E, 0x2E, 0x2F, 0x64, 0x2F, 0x66] 0 5 5 0] ∧
      resolveSafePath (sessionRoot servedRoot zeroId)
        (workerTask .file [0x2E, 0x2E, 0x2F, 0x64, 0x2F, 0x66] 0 5 5 0).pathname.bytes = none := by
  refine ⟨⟨by decide, by decide, by decide, fun n hn => ?_, rfl⟩, rfl, ?_⟩
  · rw [List.mem_singleton.mp hn]
    exact ⟨by decide, by decide, by decide, by decide, by decide⟩
  · rw [resolveSafePath_eq]
    decide

end Dicker.System
