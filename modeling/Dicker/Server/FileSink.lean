import Dicker.Lib.LexPath
import Dicker.Shared.Protocol

/-! Where a unit is stored: the session root (server.cxx, handshake.cxx) and
`FileSink::resolve_safe_path` (server/file_sink.cxx). -/

namespace Dicker.Server
open Lib

structure SessionId where
  bytes : Bytes
  length_eq : bytes.length = kSessionIdSize

def digits : Bytes :=
  [0x30, 0x31, 0x32, 0x33, 0x34, 0x35, 0x36, 0x37, 0x38, 0x39, 0x61, 0x62, 0x63, 0x64, 0x65, 0x66]

def sessionIdToHex (id : SessionId) : Bytes :=
  id.bytes.flatMap fun (byte : UInt8) =>
    [digits.getD (byte >>> 4).toNat 0, digits.getD (byte &&& 0x0F).toNat 0]

/-- `config_.root / hex`, the root every sink is built with. -/
def sessionRoot (configRoot : LexPath) (id : SessionId) : LexPath :=
  configRoot.append (LexPath.parse (sessionIdToHex id))

def servedPath : Bytes := [0x2F, 0x73, 0x72, 0x76]

def servedRoot : LexPath := LexPath.parse servedPath

def zeroId : SessionId := ⟨List.replicate 16 0, rfl⟩

def isAlpha (c : UInt8) : Bool := (0x41 ≤ c && c ≤ 0x5A) || (0x61 ≤ c && c ≤ 0x7A)

def forwardSlashes (path : Bytes) : Bytes := path.map fun c => if c = 0x5C then 0x2F else c

def driveLength (normalized : Bytes) : ℕ :=
  if 2 ≤ normalized.length ∧ isAlpha (normalized.getD 0 0) ∧ normalized.getD 1 0 = 0x3A then 2
  else 0

def stripPath (relativePath : Bytes) : Bytes :=
  let normalized := forwardSlashes relativePath
  (normalized.drop (driveLength normalized)).dropWhile (· = 0x2F)

/-- The path the source calls `candidate`. -/
def candidate (relativePath : Bytes) : LexPath := LexPath.parse (stripPath relativePath)

/-- `FileSink::resolve_safe_path`: `none` where it returns false. -/
def resolveSafePath (sessionRoot : LexPath) (relativePath : Bytes) : Option LexPath :=
  let lexical := (candidate relativePath).lexicallyNormal
  if lexical.elements.any (· = dotdot) then none
  else if lexical.isEmpty ∨ lexical.elements = [dot] then none
  else
    let rootNormal := sessionRoot.lexicallyNormal
    let full := (rootNormal.append lexical).lexicallyNormal
    if rootNormal.elements.isPrefixOf full.elements then some full else none

def components (relativePath : Bytes) : List Name := (stripPath relativePath).splitOn separator

def endsInSeparator (relativePath : Bytes) : Bool :=
  match (components relativePath).getLast? with
  | some c => LexPath.Idle c ∨ c = dotdot
  | none => false

/-! ## The session root -/

theorem digits_getD {n : ℕ} (hn : n < 16) : digits.getD n 0 ∈ digits := by
  rw [List.getD_eq_getElem digits 0 hn]
  exact List.getElem_mem _

variable {id : SessionId} {p : Bytes}

theorem mem_sessionIdToHex {c : UInt8} (hc : c ∈ sessionIdToHex id) : c ∈ digits := by
  obtain ⟨byte, -, hc⟩ := List.mem_flatMap.mp hc
  have hbyte := byte.toNat_lt
  rcases List.mem_cons.mp hc with rfl | hc
  · refine digits_getD ?_
    have hshift : (byte >>> 4).toNat = byte.toNat / 16 := by
      simp [Nat.shiftRight_eq_div_pow]
    omega
  · rw [List.mem_singleton.mp hc]
    refine digits_getD ?_
    rw [UInt8.toNat_and]
    exact Nat.lt_of_le_of_lt Nat.and_le_right (by decide)

theorem sessionIdToHex_ne_nil (id : SessionId) : sessionIdToHex id ≠ [] := by
  obtain ⟨bytes, hlen⟩ := id
  cases bytes with
  | nil => cases hlen
  | cons b bytes => simp [sessionIdToHex]

theorem sessionIdToHex_ne {n : Name} (hn : n ⊆ [0x2E]) (hne : n ≠ []) : sessionIdToHex id ≠ n := by
  rintro rfl
  obtain ⟨c, cs, h⟩ := List.exists_cons_of_ne_nil hne
  have hc : c ∈ sessionIdToHex id := h ▸ List.mem_cons_self
  have hdigit := mem_sessionIdToHex hc
  rw [List.mem_singleton.mp (hn hc)] at hdigit
  exact absurd hdigit (by decide)

theorem sessionIdToHex_ne_dot (id : SessionId) : sessionIdToHex id ≠ dot :=
  sessionIdToHex_ne (by decide) (by decide)

theorem sessionIdToHex_ne_dotdot (id : SessionId) : sessionIdToHex id ≠ dotdot :=
  sessionIdToHex_ne (by decide) (by decide)

theorem sessionRoot_eq (configRoot : LexPath) (id : SessionId) :
    sessionRoot configRoot id =
      ⟨configRoot.rootDir, configRoot.names ++ [sessionIdToHex id], false⟩ := by
  have hsep : separator ∉ sessionIdToHex id := fun h =>
    absurd (mem_sessionIdToHex h) (by decide)
  rw [sessionRoot, LexPath.parse_single (sessionIdToHex_ne_nil id) hsep, LexPath.append]
  simp

/-- What `resolve_safe_path` needs of a root: its normal form does not end in a
separator, and joining real names to it leaves it as it is. -/
structure Anchored (root : LexPath) : Prop where
  trailing : root.trailing = false
  dot_notMem : dot ∉ root.names
  settled : LexPath.Settled root.names
  dotdot_notMem : root.rootDir = true → dotdot ∉ root.names

theorem sessionRoot_core (configRoot : LexPath) (id : SessionId) :
    (sessionRoot configRoot id).core =
    LexPath.reduce (configRoot.names.filter (· ≠ dot)) ++ [sessionIdToHex id] := by
  rw [sessionRoot_eq, LexPath.core, List.filter_append, List.filter_singleton,
    decide_eq_true (sessionIdToHex_ne_dot id), cond_true,
      LexPath.reduce_concat (sessionIdToHex_ne_dotdot id)]

theorem sessionRoot_anchored (configRoot : LexPath) (id : SessionId) :
    Anchored (sessionRoot configRoot id).lexicallyNormal := by
  have hdot := sessionIdToHex_ne_dot id
  have hdd := sessionIdToHex_ne_dotdot id
  have hcore := sessionRoot_core configRoot id
  rw [sessionRoot_eq] at hcore ⊢
  have hsettled : LexPath.Settled (LexPath.reduce (configRoot.names.filter (· ≠ dot)) ++
      [sessionIdToHex id]) :=
    (LexPath.settled_reduce _).append (by simpa using hdd.symm)
  have hnodot : dot ∉ LexPath.reduce (configRoot.names.filter (· ≠ dot)) ++
      [sessionIdToHex id] := by
    intro h
    rcases List.mem_append.mp h with h | h
    · simpa using LexPath.mem_of_mem_reduce h
    · exact hdot (List.mem_singleton.mp h).symm
  rw [LexPath.lexicallyNormal_eq (n := sessionIdToHex id) (by rw [hcore]; simp) hdd]
  refine ⟨?_, ?_, ?_, ?_⟩
  · simp [LexPath.endsSpecial, hdot, hdd]
  · rw [LexPath.settledNames, hcore]
    split_ifs
    · exact fun h => hnodot (List.mem_filter.mp h).1
    · exact hnodot
  · rw [LexPath.settledNames, hcore]
    split_ifs
    · exact LexPath.settled_of_notMem (by simp)
    · exact hsettled
  · intro hroot
    rw [LexPath.settledNames, if_pos hroot]
    simp

/-! ## Resolution is the walk -/

theorem candidate_rootDir (p : Bytes) : (candidate p).rootDir = false := by
  have hhead : (stripPath p).head? ≠ some separator := by
    intro h
    have hnot := List.head?_dropWhile_not (fun c : UInt8 => decide (c = 0x2F))
      ((forwardSlashes p).drop (driveLength (forwardSlashes p)))
    unfold stripPath at h
    dsimp only at h
    rw [h] at hnot
    exact absurd hnot (by decide)
  simpa [candidate, LexPath.parse] using hhead

theorem candidate_core (p : Bytes) :
    (candidate p).core = LexPath.reduce ((components p).filter fun c => ¬LexPath.Idle c) :=
  LexPath.parse_core _

theorem walk_components (p : Bytes) :
    LexPath.walk [] (components p) =
      if dotdot ∈ (candidate p).core then none else some (candidate p).core.reverse := by
  have hreal : ∀ n ∈ (components p).filter (fun c => ¬LexPath.Idle c), ¬LexPath.Idle n := by
    intro n hn
    simpa using (List.mem_filter.mp hn).2
  rw [← LexPath.walk_filter, LexPath.walk_eq (by simp) hreal, candidate_core, LexPath.reduce,
    List.reverse_reverse]
  simp only [List.mem_reverse]

theorem settledNames_candidate (p : Bytes) : (candidate p).settledNames = (candidate p).core := by
  rw [LexPath.settledNames, candidate_rootDir]
  rfl

theorem resolveSafePath_of_dotdot (root : LexPath) (h : dotdot ∈ (candidate p).core) :
    resolveSafePath root p = none := by
  have hnames : (candidate p).lexicallyNormal.names = (candidate p).core := by
    rw [← settledNames_candidate]
    refine LexPath.lexicallyNormal_names ?_
    rw [settledNames_candidate]
    exact List.ne_nil_of_mem h
  have hany : (candidate p).lexicallyNormal.elements.any (· = dotdot) = true := by
    rw [List.any_eq_true]
    refine ⟨dotdot, ?_, by simp⟩
    simp [LexPath.elements, hnames, h]
  exact if_pos hany

theorem resolveSafePath_of_nil (root : LexPath) (h : (candidate p).core = []) :
    resolveSafePath root p = none := by
  have hstop : (candidate p).lexicallyNormal.isEmpty = true ∨
      (candidate p).lexicallyNormal.elements = [dot] := by
    rcases LexPath.lexicallyNormal_of_core_nil (candidate_rootDir p) h with h | h
    · exact .inl h
    · exact .inr (by rw [h]; rfl)
  unfold resolveSafePath
  dsimp only
  rw [if_pos hstop, ite_self]

theorem endsInSeparator_eq (hne : (candidate p).core ≠ []) :
    ((candidate p).trailing || LexPath.endsSpecial (candidate p).names) = endsInSeparator p := by
  have hnames : (candidate p).names ≠ [] := by
    intro h
    refine hne ?_
    rw [LexPath.core, h]
    rfl
  rw [Bool.eq_iff_iff]
  refine (LexPath.parse_endsSpecial hnames).trans ?_
  unfold endsInSeparator components
  rcases h : ((stripPath p).splitOn separator).getLast? with _ | c <;> simp

theorem resolveSafePath_of_core {root : LexPath} (hroot : Anchored root.lexicallyNormal)
    (hdd : dotdot ∉ (candidate p).core) (hne : (candidate p).core ≠ []) :
    resolveSafePath root p = some ⟨root.lexicallyNormal.rootDir,
      root.lexicallyNormal.names ++ (candidate p).core, endsInSeparator p⟩ := by
  obtain ⟨n, hlast⟩ : ∃ n, (candidate p).core.getLast? = some n :=
    Option.isSome_iff_exists.mp (by simpa using hne)
  have hmem := List.mem_of_getLast? hlast
  have hn : n ≠ dotdot := ne_of_mem_of_not_mem hmem hdd
  have hdot : dot ∉ (candidate p).core := by
    intro h
    rw [candidate_core] at h
    have := (List.mem_filter.mp (LexPath.mem_of_mem_reduce h)).2
    simp [LexPath.Idle] at this
  have hlexical : (candidate p).lexicallyNormal =
      ⟨false, (candidate p).core, endsInSeparator p⟩ := by
    rw [LexPath.lexicallyNormal_eq hlast hn, candidate_rootDir, settledNames_candidate,
      endsInSeparator_eq hne]
  have hfull : (root.lexicallyNormal.append (candidate p).lexicallyNormal).lexicallyNormal =
      ⟨root.lexicallyNormal.rootDir, root.lexicallyNormal.names ++ (candidate p).core,
        endsInSeparator p⟩ := by
    rw [hlexical, LexPath.append, if_neg (by simp), if_neg hne]
    refine LexPath.lexicallyNormal_self (n := n) ?_ (hroot.settled.append hdd) ?_ ?_ hn
    · exact fun h => (List.mem_append.mp h).elim hroot.dot_notMem hdot
    · exact fun hr h => (List.mem_append.mp h).elim (hroot.dotdot_notMem hr) hdd
    · simp [List.getLast?_append, hlast]
  have hany : ¬(candidate p).lexicallyNormal.elements.any (· = dotdot) = true := by
    rw [hlexical]
    have hnil : dotdot ≠ [] := by decide
    cases endsInSeparator p <;> simp [LexPath.elements, hdd, hnil]
  have hproper : ¬((candidate p).lexicallyNormal.isEmpty = true ∨
      (candidate p).lexicallyNormal.elements = [dot]) := by
    rw [hlexical]
    rintro (h | h)
    · simp [LexPath.isEmpty, hne] at h
    · refine hdot ?_
      have hmem' : n ∈ [dot] := h ▸ by simp [LexPath.elements, hmem]
      exact List.mem_singleton.mp hmem' ▸ hmem
  have hprefix : root.lexicallyNormal.elements.isPrefixOf
      (root.lexicallyNormal.append (candidate p).lexicallyNormal).lexicallyNormal.elements =
        true := by
    rw [hfull, List.isPrefixOf_iff_prefix]
    simp only [LexPath.elements, hroot.trailing, Bool.false_eq_true, if_false, List.append_nil]
    rw [← List.append_assoc, List.append_assoc]
    exact List.prefix_append _ _
  unfold resolveSafePath
  dsimp only
  rw [if_neg hany, if_neg hproper, if_pos hprefix, hfull]

theorem resolveSafePath_eq (configRoot : LexPath) (id : SessionId) (p : Bytes) :
    resolveSafePath (sessionRoot configRoot id) p =
      ((LexPath.walk [] (components p)).filter (· ≠ [])).map fun stack =>
        ⟨(sessionRoot configRoot id).lexicallyNormal.rootDir,
          (sessionRoot configRoot id).lexicallyNormal.names ++ stack.reverse,
          endsInSeparator p⟩ := by
  rw [walk_components]
  by_cases hdd : dotdot ∈ (candidate p).core
  · rw [resolveSafePath_of_dotdot _ hdd, if_pos hdd]
    rfl
  rw [if_neg hdd]
  by_cases hne : (candidate p).core = []
  · rw [resolveSafePath_of_nil _ hne, hne]
    rfl
  · rw [resolveSafePath_of_core (sessionRoot_anchored configRoot id) hdd hne, Option.filter_some,
      if_pos (by simpa using hne), Option.map_some, List.reverse_reverse]

theorem resolveSafePath_some {configRoot : LexPath} {full : LexPath}
    (h : resolveSafePath (sessionRoot configRoot id) p = some full) :
    ∃ stack, LexPath.walk [] (components p) = some stack ∧ stack ≠ [] ∧
      full = ⟨(sessionRoot configRoot id).lexicallyNormal.rootDir,
        (sessionRoot configRoot id).lexicallyNormal.names ++ stack.reverse,
        endsInSeparator p⟩ := by
  rw [resolveSafePath_eq] at h
  obtain ⟨stack, hstack, rfl⟩ := Option.map_eq_some_iff.mp h
  obtain ⟨hwalk, hne⟩ := Option.filter_eq_some_iff.mp hstack
  exact ⟨stack, hwalk, by simpa using hne, rfl⟩

theorem resolveSafePath_isSome_iff (configRoot : LexPath) (id : SessionId) (p : Bytes) :
    (resolveSafePath (sessionRoot configRoot id) p).isSome ↔
      ∃ stack, LexPath.walk [] (components p) = some stack ∧ stack ≠ [] := by
  rw [resolveSafePath_eq, Option.isSome_map, Option.isSome_iff_exists]
  simp only [Option.filter_eq_some_iff, decide_eq_true_eq]

/-- `resolve_safe_path` succeeds exactly on the paths whose walk never leaves the root
and ends below it, and then stores under the root, at the names the walk ends with. -/
theorem resolveSafePath_confines (configRoot : LexPath) (id : SessionId) (p : Bytes) :
    ((resolveSafePath (sessionRoot configRoot id) p).isSome ↔
      (∀ part, part <+: components p → 0 ≤ LexPath.depth part) ∧ 0 < LexPath.depth (components p)) ∧
    ∀ full, resolveSafePath (sessionRoot configRoot id) p = some full →
      ∃ stack, LexPath.walk [] (components p) = some stack ∧ stack ≠ [] ∧
        full = ⟨(sessionRoot configRoot id).lexicallyNormal.rootDir,
          (sessionRoot configRoot id).lexicallyNormal.names ++ stack.reverse,
          endsInSeparator p⟩ ∧
        ∀ c ∈ stack, c ≠ [] ∧ c ≠ dot ∧ c ≠ dotdot ∧ separator ∉ c := by
  refine ⟨?_, ?_⟩
  · rw [resolveSafePath_isSome_iff, LexPath.walk_below_iff]
  · intro full hfull
    obtain ⟨stack, hwalk, hne, rfl⟩ := resolveSafePath_some hfull
    refine ⟨stack, hwalk, hne, rfl, fun c hc => ?_⟩
    obtain ⟨hmem, hidle, hdd⟩ := (LexPath.mem_of_walk hwalk hc).resolve_left (by simp)
    exact ⟨fun h => hidle (.inl h), fun h => hidle (.inr h), hdd,
      LexPath.separator_notMem_splitOn hmem⟩

end Dicker.Server
