import Dicker.Lib.Loop
import Dicker.Server.FileSink
import Dicker.Server.Intake

/-! How a file sink opens files (server/file_sink.cxx). Its file system calls either report an
error code or, like `exists` without one, raise an exception; one that leaves the thread of a
consumer ends the server. -/

namespace Dicker.Server
open Lib Program

/-- What `stat` says: whether the file is there, or another error. -/
inductive StatResult where
  | found
  | notFound
  | failed
  deriving DecidableEq

inductive Raised where
  | filesystemError

/-- What the thread of a consumer does, with the calls of the file sink in place of its queries
to open a file: the registry of chunk files, `create_directories` (which answers whether it
failed), `exists`, and `uv_fs_open` (a descriptor or a negative error). -/
inductive SinkOp where
  | receive (n : ℕ)
  | findChunkFile (key : LexPath)
  | emplaceChunkFile (key : LexPath) (fd : ℤ)
  | createDirectories (dir : LexPath)
  | stat (dir : LexPath)
  | openFile (path : LexPath) (truncate : Bool)
  | other (op : Op)

abbrev SinkOp.Ans : SinkOp → Type
  | receive n => Option { bytes : Bytes // bytes.length = n }
  | findChunkFile _ => Option ℤ
  | emplaceChunkFile _ _ => Unit
  | createDirectories _ => Bool
  | stat _ => StatResult
  | openFile _ _ => ℤ
  | other op => op.Ans

abbrev SinkM := Program SinkOp SinkOp.Ans

abbrev SinkLog := List (Entry SinkOp SinkOp.Ans)

def ensureParentDirectory (path : LexPath) : SinkM (Except Raised Bool) :=
  if path.parentPath.isEmpty then return .ok true
  else do
    let error ← perform (SinkOp.createDirectories path.parentPath)
    if !error then
      return .ok true
    match ← perform (SinkOp.stat path.parentPath) with
    | .found => return .ok true
    | .notFound => return .ok false
    | .failed => return .error .filesystemError

def openBelow (full : LexPath) (truncate : Bool) : SinkM (Except Raised (Option ℤ)) := do
  match ← ensureParentDirectory full with
  | .error e => return .error e
  | .ok false => return .ok none
  | .ok true =>
    let fd ← perform (SinkOp.openFile full truncate)
    return .ok (if fd < 0 then none else some fd)

def acquireChunkFile (full : LexPath) : SinkM (Except Raised (Option ℤ)) := do
  match ← perform (SinkOp.findChunkFile full) with
  | some fd => return .ok (some fd)
  | none =>
    match ← openBelow full false with
    | .error e => return .error e
    | .ok none => return .ok none
    | .ok (some fd) =>
      perform (SinkOp.emplaceChunkFile full fd)
      return .ok (some fd)

/-- An invalid writer is `none`. -/
def openSequential (root : LexPath) (relativePath : Bytes) : SinkM (Except Raised (Option ℤ)) :=
  match resolveSafePath root relativePath with
  | none => return .ok none
  | some full => openBelow full true

def openOffset (root : LexPath) (relativePath : Bytes) : SinkM (Except Raised (Option ℤ)) :=
  match resolveSafePath root relativePath with
  | none => return .ok none
  | some full => acquireChunkFile full

def raising (root : LexPath) {α : Type} : Consume α → SinkM (Except Raised α)
  | .ret a => .ret (.ok a)
  | .read n k => call (.receive n) fun r => raising root (k (r.map Subtype.val))
  | .call (.query (.openSequential path)) k => openSequential root path >>= fun
    | .error e => .ret (.error e)
    | .ok writer => raising root (k writer.isSome)
  | .call (.query (.openOffset path)) k => openOffset root path >>= fun
    | .error e => .ret (.error e)
    | .ok writer => raising root (k writer.isSome)
  | .call op k => call (.other op) fun a => raising root (k a)

section
variable (root : LexPath) {α : Type} (path : Bytes) (k : Bool → Consume α)

theorem raising_openSequential : raising root (.call (.query (.openSequential path)) k) =
    openSequential root path >>= fun
      | .error e => .ret (.error e)
      | .ok writer => raising root (k writer.isSome) := by
  rw [raising]

theorem raising_openOffset : raising root (.call (.query (.openOffset path)) k) =
    openOffset root path >>= fun
      | .error e => .ret (.error e)
      | .ok writer => raising root (k writer.isSome) := by
  rw [raising]

theorem raising_event (e : Event) (f : Unit → Consume α) :
    raising root (.call (.event e) f) = call (.other (.event e)) fun a => raising root (f a) := by
  rw [raising]
  all_goals nofun

end

/-! ## When an open raises -/

def Throws : Entry SinkOp SinkOp.Ans → Prop
  | .did (.stat _) .failed => True
  | _ => False

def Prompt {α : Type} : SinkM (Except Raised α) → Prop
  | .ret (.ok _) => True
  | .ret (.error _) => False
  | .read n k => (∀ z, z.length = n → Prompt (k (some z))) ∧ Prompt (k none)
  | .call op k =>
    ∀ a, (Throws (.did op a) → ∃ e, k a = .ret (.error e)) ∧ (¬Throws (.did op a) → Prompt (k a))

theorem Prompt.bind {α β : Type} {p : SinkM (Except Raised α)} (hp : Prompt p)
    {f : Except Raised α → SinkM (Except Raised β)} (hok : ∀ a, Prompt (f (.ok a)))
    (herror : ∀ e, f (.error e) = .ret (.error e)) : Prompt (p >>= f) := by
  induction p with
  | ret r =>
    cases r with
    | ok a => exact hok a
    | error e => exact hp.elim
  | read n k ih => exact ⟨fun z hz => ih _ (hp.1 z hz), ih _ hp.2⟩
  | call op k ih =>
    intro a
    refine ⟨fun hthrows => ?_, fun hno => ih a ((hp a).2 hno)⟩
    obtain ⟨e, he⟩ := (hp a).1 hthrows
    refine ⟨e, ?_⟩
    change (k a >>= f) = _
    rw [he]
    exact herror e

theorem prompt_call {α : Type} {op : SinkOp} {k : op.Ans → SinkM (Except Raised α)}
    (hno : ∀ a, ¬Throws (.did op a)) (hk : ∀ a, Prompt (k a)) : Prompt (call op k) :=
  fun a => ⟨fun h => absurd h (hno a), fun _ => hk a⟩

theorem ensureParentDirectory_prompt (path : LexPath) : Prompt (ensureParentDirectory path) := by
  unfold ensureParentDirectory
  split_ifs
  · trivial
  · refine prompt_call (fun _ => id) fun failed => ?_
    cases failed with
    | false => trivial
    | true =>
      intro stat
      cases stat with
      | found => exact ⟨fun h => h.elim, fun _ => trivial⟩
      | notFound => exact ⟨fun h => h.elim, fun _ => trivial⟩
      | failed => exact ⟨fun _ => ⟨_, rfl⟩, fun h => absurd trivial h⟩

theorem openBelow_prompt (full : LexPath) (truncate : Bool) : Prompt (openBelow full truncate) := by
  refine (ensureParentDirectory_prompt full).bind (fun ready => ?_) fun _ => rfl
  cases ready with
  | false => trivial
  | true => exact prompt_call (fun _ => id) fun fd => trivial

theorem acquireChunkFile_prompt (full : LexPath) : Prompt (acquireChunkFile full) := by
  refine prompt_call (fun _ => id) fun found => ?_
  cases found with
  | some fd => trivial
  | none =>
    refine (openBelow_prompt full false).bind (fun opened => ?_) fun _ => rfl
    cases opened with
    | none => trivial
    | some fd => exact prompt_call (fun _ => id) fun _ => trivial

theorem openSequential_prompt (root : LexPath) (path : Bytes) :
    Prompt (openSequential root path) := by
  unfold openSequential
  cases resolveSafePath root path with
  | none => trivial
  | some full => exact openBelow_prompt full true

theorem openOffset_prompt (root : LexPath) (path : Bytes) : Prompt (openOffset root path) := by
  unfold openOffset
  cases resolveSafePath root path with
  | none => trivial
  | some full => exact acquireChunkFile_prompt full

theorem raising_prompt (root : LexPath) {α : Type} (p : Consume α) : Prompt (raising root p) := by
  induction p with
  | ret a => trivial
  | read n k ih => exact prompt_call (fun _ => id) fun r => ih _
  | call op k ih =>
    cases op with
    | event e => exact prompt_call (fun _ => id) fun a => ih a
    | query q =>
      cases q with
      | openSequential path =>
        rw [raising_openSequential]
        exact (openSequential_prompt root path).bind (fun writer => ih _) fun _ => rfl
      | openOffset path =>
        rw [raising_openOffset]
        exact (openOffset_prompt root path).bind (fun writer => ih _) fun _ => rfl
      | filter probe => exact prompt_call (fun _ => id) fun a => ih a
      | write data => exact prompt_call (fun _ => id) fun a => ih a
      | writeAt offset data => exact prompt_call (fun _ => id) fun a => ih a

theorem Prompt.returns {α : Type} {p : SinkM (Except Raised α)} (hp : Prompt p) :
    p.wp fun r t => (∃ a, r = .ok a) ↔ ∀ e ∈ t, ¬Throws e := by
  have hgot : ∀ {r : Except Raised α} {t : SinkLog} {e : Entry SinkOp SinkOp.Ans}, ¬Throws e →
      ((∃ a, r = .ok a) ↔ ∀ e ∈ t, ¬Throws e) → ((∃ a, r = .ok a) ↔ ∀ e' ∈ e :: t, ¬Throws e') := by
    intro r t e he h
    rw [h, List.forall_mem_cons]
    exact (and_iff_right he).symm
  induction p with
  | ret r =>
    cases r with
    | ok a => exact ⟨fun _ e he => absurd he List.not_mem_nil, fun _ => ⟨a, rfl⟩⟩
    | error e => exact hp.elim
  | read n k ih =>
    exact ⟨fun z hz => wp_mono (ih _ (hp.1 z hz)) fun r t h => hgot id h, ih _ hp.2⟩
  | call op k ih =>
    intro a
    by_cases hthrows : Throws (.did op a)
    · obtain ⟨e, he⟩ := (hp a).1 hthrows
      rw [he]
      exact ⟨fun h => (nomatch h.choose_spec), fun h => absurd hthrows (h _ List.mem_cons_self)⟩
    · exact wp_mono (ih a ((hp a).2 hthrows)) fun r t h => hgot hthrows h

end Dicker.Server
