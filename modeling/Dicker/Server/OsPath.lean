import Dicker.Lib.Chain
import Dicker.Server.SinkOpening

/-! The path that the operating system is handed. `resolve_safe_path` checks a path of any bytes,
and the sink opens the C string of it, which ends at the first NUL. -/

namespace Dicker.Server
open Lib Program

/-- `c_str()`, as the operating system reads it. -/
def cString (s : Bytes) : Bytes := s.takeWhile (· ≠ 0)

theorem zero_notMem_cString (s : Bytes) : 0 ∉ cString s := by
  intro h
  exact absurd (List.mem_takeWhile_imp h) (by decide)

theorem cString_eq {s : Bytes} (h : 0 ∉ s) : cString s = s := by
  refine List.takeWhile_eq_self_iff.mpr fun c hc => decide_eq_true ?_
  rintro rfl
  exact h hc

def HandsOver (root : LexPath) (path s : Bytes) : Prop :=
  ∃ program ∈ [openSequential root path, openOffset root path], ∃ log full truncate,
    program.Calls log (.openFile full truncate) ∧ s = cString full.native

def OpensOnly (full : LexPath) (op : SinkOp) : Prop :=
  ∀ full' truncate, op = .openFile full' truncate → full' = full

abbrev KeepsTo (full : LexPath) {α : Type} (p : SinkM α) : Prop :=
  ∀ log, p.Keeps (fun _ => OpensOnly full) (fun _ => True) log

theorem ensureParentDirectory_keeps (full path : LexPath) :
    KeepsTo full (ensureParentDirectory path) := by
  intro log
  unfold ensureParentDirectory
  split_ifs
  · trivial
  · refine ⟨nofun, fun error => ?_⟩
    cases error with
    | false => trivial
    | true => exact ⟨nofun, fun status => by cases status <;> trivial⟩

theorem openBelow_keeps (full : LexPath) (truncate : Bool) :
    KeepsTo full (openBelow full truncate) := by
  intro log
  refine (ensureParentDirectory_keeps full full log).bind fun result log _ => ?_
  rcases result with e | - | -
  · trivial
  · trivial
  · exact ⟨fun _ _ heq => by cases heq; rfl, fun _ => trivial⟩

theorem acquireChunkFile_keeps (full : LexPath) : KeepsTo full (acquireChunkFile full) := by
  refine fun log => ⟨nofun, fun found => ?_⟩
  cases found with
  | some fd => trivial
  | none =>
    refine (openBelow_keeps full false _).bind fun result log _ => ?_
    rcases result with e | - | fd
    · trivial
    · trivial
    · exact ⟨nofun, fun _ => trivial⟩

theorem openBelow_calls (full : LexPath) (truncate : Bool) :
    ∃ log, (openBelow full truncate).Calls log (.openFile full truncate) := by
  unfold openBelow ensureParentDirectory
  split_ifs
  · exact ⟨_, .here _ _⟩
  · refine ⟨_, @Calls.call _ _ _ (SinkOp.createDirectories full.parentPath) _ _ [] false ?_⟩
    exact Calls.here _ _

variable {path : Bytes} {id : SessionId} {full : LexPath}

theorem handsOver_iff {root : LexPath} {s : Bytes} :
    HandsOver root path s ↔ ∃ full, resolveSafePath root path = some full ∧
      s = cString full.native := by
  constructor
  · rintro ⟨program, hprogram, log, full, truncate, hcalls, rfl⟩
    rw [openSequential, openOffset] at hprogram
    cases hresolve : resolveSafePath root path with
    | none =>
      rw [hresolve] at hprogram
      rcases List.mem_pair.mp hprogram with rfl | rfl
      · exact nomatch hcalls
      · exact nomatch hcalls
    | some full' =>
      have hkeeps : KeepsTo full' program := by
        rw [hresolve] at hprogram
        rcases List.mem_pair.mp hprogram with rfl | rfl
        · exact openBelow_keeps full' true
        · exact acquireChunkFile_keeps full'
      exact ⟨full', rfl, by rw [(hkeeps []).allowed hcalls full truncate rfl]⟩
  · rintro ⟨full, hresolve, rfl⟩
    obtain ⟨log, hcalls⟩ := openBelow_calls full true
    refine ⟨openSequential root path, List.mem_cons_self, log, full, true, ?_, rfl⟩
    rw [openSequential, hresolve]
    exact hcalls

/-! ## The names of the path that was checked -/

theorem mem_sessionRoot_names {configRoot : LexPath} {name : Name}
    (h : name ∈ (sessionRoot configRoot id).lexicallyNormal.names) :
    name ∈ configRoot.names ∨ name = sessionIdToHex id := by
  have hcore : name ∈ (sessionRoot configRoot id).core := by
    rw [LexPath.lexicallyNormal_names] at h
    · unfold LexPath.settledNames at h
      split_ifs at h
      · exact List.mem_of_mem_filter h
      · exact h
    · have hhex : sessionIdToHex id ∈ (sessionRoot configRoot id).settledNames := by
        rw [LexPath.settledNames, sessionRoot_core]
        split_ifs
        · simp [sessionIdToHex_ne_dotdot]
        · simp
      exact List.ne_nil_of_mem hhex
  rw [sessionRoot_core] at hcore
  rcases List.mem_append.mp hcore with hmem | hmem
  · exact .inl (List.mem_of_mem_filter (LexPath.mem_of_mem_reduce hmem))
  · exact .inr (List.mem_singleton.mp hmem)

section
variable {r : Bytes}
  (h : resolveSafePath (sessionRoot (.parse r) id) path = some full)
include h

theorem resolved_proper : full.Proper := by
  obtain ⟨stack, -, hne, rfl, hreal⟩ := (resolveSafePath_confines (.parse r) id path).2 full h
  have hname : ∀ name ∈ (sessionRoot (.parse r) id).lexicallyNormal.names ++ stack.reverse,
      name ≠ [] ∧ separator ∉ name := by
    intro name hname
    rcases List.mem_append.mp hname with hname | hname
    · rcases mem_sessionRoot_names hname with hname | rfl
      · obtain ⟨hmem, hne⟩ := List.mem_filter.mp hname
        exact ⟨of_decide_eq_true hne, LexPath.separator_notMem_splitOn hmem⟩
      · exact ⟨sessionIdToHex_ne_nil id, fun hsep => absurd (mem_sessionIdToHex hsep) (by decide)⟩
    · obtain ⟨hne, -, -, hsep⟩ := hreal name (List.mem_reverse.mp hname)
      exact ⟨hne, hsep⟩
  exact ⟨by simp [hne], fun name hmem => (hname name hmem).1, fun name hmem => (hname name hmem).2⟩

end

def NulFree (path : Bytes) : Prop :=
  ∀ stack, LexPath.walk [] (components path) = some stack → ∀ name ∈ stack, 0 ∉ name

theorem nulFree_iff {r : Bytes} (hr : 0 ∉ r)
    (h : resolveSafePath (sessionRoot (.parse r) id) path = some full) :
    NulFree path ↔ ∀ name ∈ full.names, 0 ∉ name := by
  obtain ⟨stack, hwalk, -, rfl⟩ := resolveSafePath_some h
  constructor
  · intro hfree name hname
    rcases List.mem_append.mp hname with hname | hname
    · rcases mem_sessionRoot_names hname with hname | rfl
      · exact fun hzero => hr (LexPath.mem_of_mem_parse hname hzero)
      · exact fun hzero => absurd (mem_sessionIdToHex hzero) (by decide)
    · exact hfree stack hwalk name (List.mem_reverse.mp hname)
  · intro hnames stack' hwalk' name hname
    cases hwalk.symm.trans hwalk'
    exact hnames name (List.mem_append_right _ (List.mem_reverse.mpr hname))

structure OpensExactly (root full : LexPath) (s : Bytes) : Prop where
  rootDir : (LexPath.parse s).rootDir = full.rootDir
  names : (LexPath.parse s).names = full.names
  below : ∃ names, (LexPath.parse s).names = root.lexicallyNormal.names ++ names ∧
    names ≠ [] ∧ dotdot ∉ names

theorem cString_native (h : ∀ name ∈ full.names, 0 ∉ name) : cString full.native = full.native := by
  refine cString_eq fun hzero => ?_
  obtain ⟨name, hname, hmem⟩ := (LexPath.mem_native_iff (by decide)).mp hzero
  exact h name hname hmem

theorem opensExactly_iff {r : Bytes} (hr : 0 ∉ r)
    (h : resolveSafePath (sessionRoot (.parse r) id) path = some full) :
    OpensExactly (sessionRoot (.parse r) id) full (cString full.native) ↔ NulFree path := by
  rw [nulFree_iff hr h]
  constructor
  · intro hexact name hname hzero
    rw [← hexact.names] at hname
    exact zero_notMem_cString _ (LexPath.mem_of_mem_parse hname hzero)
  · intro hfree
    have hparse : LexPath.parse (cString full.native) = full := by
      rw [cString_native hfree, LexPath.parse_native (resolved_proper h)]
    obtain ⟨stack, -, hne, hfull, hreal⟩ := (resolveSafePath_confines (.parse r) id path).2 full h
    refine ⟨by rw [hparse], by rw [hparse], stack.reverse, by rw [hparse,
      hfull], by simpa using hne, fun hmem => ?_⟩
    exact (hreal dotdot (List.mem_reverse.mp hmem)).2.2.1 rfl

/-- What is opened is what was checked, for any two units of a session, exactly if no NUL is left in
their paths. -/
theorem opened_is_checked_iff {r : Bytes} (hr : 0 ∉ r) {id : SessionId} {p q s t : Bytes}
    {full full' : LexPath} (hp : resolveSafePath (sessionRoot (.parse r) id) p = some full)
    (hq : resolveSafePath (sessionRoot (.parse r) id) q = some full')
    (hs : HandsOver (sessionRoot (.parse r) id) p s)
    (ht : HandsOver (sessionRoot (.parse r) id) q t) :
    (OpensExactly (sessionRoot (.parse r) id) full s ∧
      OpensExactly (sessionRoot (.parse r) id) full' t ∧
      (full ≠ full' → s ≠ t)) ↔ NulFree p ∧ NulFree q := by
  obtain ⟨_, hp', rfl⟩ := handsOver_iff.mp hs
  obtain ⟨_, hq', rfl⟩ := handsOver_iff.mp ht
  cases hp.symm.trans hp'
  cases hq.symm.trans hq'
  rw [opensExactly_iff hr hp, opensExactly_iff hr hq]
  refine ⟨fun h => ⟨h.1, h.2.1⟩, fun h => ⟨h.1, h.2, fun hne heq => hne ?_⟩⟩
  rw [cString_native ((nulFree_iff hr hp).mp h.1),
    cString_native ((nulFree_iff hr hq).mp h.2)] at heq
  rw [← LexPath.parse_native (resolved_proper hp), heq, LexPath.parse_native (resolved_proper hq)]

def placed (name : Name) : LexPath :=
  ⟨true, [[0x73, 0x72, 0x76], List.replicate 32 0x30, name], false⟩

theorem opened_is_checked_two :
    OpensExactly (sessionRoot servedRoot zeroId) (placed [0x61]) (placed [0x61]).native ∧
    (placed [0x61]).native ≠ (placed [0x62]).native := by
  have hp : resolveSafePath (sessionRoot servedRoot zeroId) [0x61] = some (placed [0x61]) := by
    decide +kernel
  have hq : resolveSafePath (sessionRoot servedRoot zeroId) [0x62] = some (placed [0x62]) := by
    decide +kernel
  have hfree : ∀ c : UInt8, c ≠ 0 → LexPath.walk [] (components [c]) = some [[c]] →
      NulFree [c] := by
    intro c hc hwalk stack hwalk' name hname
    cases hwalk.symm.trans hwalk'
    rw [List.mem_singleton.mp hname, List.mem_singleton]
    exact hc.symm
  have hbothfree : NulFree [0x61] ∧ NulFree [0x62] :=
    ⟨hfree 0x61 (by decide) (by decide +kernel), hfree 0x62 (by decide) (by decide +kernel)⟩
  obtain ⟨hexact, -, happart⟩ :=
    (opened_is_checked_iff (by decide) hp hq (handsOver_iff.mpr ⟨_, hp, rfl⟩)
    (handsOver_iff.mpr ⟨_, hq, rfl⟩)).mpr hbothfree
  exact ⟨hexact, happart (by decide)⟩

/-- "a\0b" and "a\0c" are two paths, of which the operating system is handed one; and "..\0" is
checked as a name and opened as a dot-dot. -/
theorem nul_cuts_paths :
    (∃ full full' s, resolveSafePath (sessionRoot servedRoot zeroId) [0x61, 0, 0x62] = some full ∧
      resolveSafePath (sessionRoot servedRoot zeroId) [0x61, 0, 0x63] = some full' ∧ full ≠ full' ∧
      HandsOver (sessionRoot servedRoot zeroId) [0x61, 0, 0x62] s ∧
      HandsOver (sessionRoot servedRoot zeroId) [0x61, 0, 0x63] s) ∧
    ∃ s, HandsOver (sessionRoot servedRoot zeroId) [0x2E, 0x2E, 0] s ∧
      dotdot ∈ (LexPath.parse s).names := by
  have hp : resolveSafePath (sessionRoot servedRoot zeroId) [0x61, 0, 0x62] =
      some (placed [0x61, 0, 0x62]) := by
    decide +kernel
  have hq : resolveSafePath (sessionRoot servedRoot zeroId) [0x61, 0, 0x63] =
      some (placed [0x61, 0, 0x63]) := by
    decide +kernel
  have hup : resolveSafePath (sessionRoot servedRoot zeroId) [0x2E, 0x2E, 0] =
      some (placed [0x2E, 0x2E, 0]) := by
    decide +kernel
  refine ⟨⟨_, _, _, hp, hq, by decide, handsOver_iff.mpr ⟨_, hp,
    rfl⟩, handsOver_iff.mpr ⟨_, hq, ?_⟩⟩, _, handsOver_iff.mpr ⟨_, hup, rfl⟩, ?_⟩
  · decide +kernel
  · decide +kernel

end Dicker.Server
