import Dicker.Lib.Pool
import Dicker.Server.SinkOpening

/-! What a bad path does to the server. The consumers of all connections run side by side; one of
them that lets an exception out takes the whole process down. -/

namespace Dicker.Server
open Lib Program Relation

/-- So many rounds of `handle_upload`. -/
def uploadRounds (dec : StreamDecompressor) (xxh64 : Bytes → UInt64) :
    ℕ → Head dec.State → Consume Unit
  | 0, _ => .ret ()
  | n + 1, st => (handleUpload dec xxh64).body st >>= fun
    | .again st' => uploadRounds dec xxh64 n st'
    | .done _ => .ret ()

def anyOutcome : Store SinkOp SinkOp.Ans Unit := ⟨fun _ _ => True, fun _ _ s => s⟩

abbrev Consumers (ι : Type) := Pool ι SinkOp SinkOp.Ans (Except Raised Unit) Unit

def Alive {ι : Type} (c : Consumers ι) : Prop := ∀ i e, c.procs i ≠ .ret (.error e)

section
variable {ι : Type} [DecidableEq ι]

def Settled (c : Consumers ι) (i : ι) : Prop :=
  (Prompt (c.procs i) ∧ ∀ e ∈ Pool.past c.log i, ¬Throws e) ∨
    ((∃ e, c.procs i = .ret (.error e)) ∧ ∃ e ∈ Pool.past c.log i, Throws e)

theorem Settled.step {c c' : Consumers ι} (h : ∀ i, Settled c i) (hstep : Pool.Step anyOutcome c c')
    (j : ι) : Settled c' j := by
  cases hstep with
  | @act i op k a hp ha =>
    unfold Settled
    dsimp only
    by_cases hj : j = i
    · subst hj
      rcases h j with ⟨hprompt, hpast⟩ | ⟨⟨e, he⟩, _⟩
      · rw [hp] at hprompt
        rw [Pool.past_append_self, Function.update_self]
        by_cases hthrows : Throws (.did op a)
        · exact .inr ⟨(hprompt a).1 hthrows, _,
            List.mem_append_right _ (List.mem_singleton_self _), hthrows⟩
        · refine .inl ⟨(hprompt a).2 hthrows, fun e he => ?_⟩
          rcases List.mem_append.mp he with he | he
          · exact hpast e he
          · rw [List.mem_singleton.mp he]
            exact hthrows
      · rw [hp] at he
        cases he
    · rw [Pool.past_append_of_ne _ (Ne.symm hj), Function.update_of_ne hj]
      exact h j

variable {procs : ι → SinkM (Except Raised Unit)}

theorem settled_of_run (hprompt : ∀ i, Prompt (procs i)) {c : Consumers ι}
    (hc : ReflTransGen (Pool.Step anyOutcome) (Pool.start procs ()) c) (i : ι) : Settled c i := by
  induction hc generalizing i with
  | refl => exact .inl ⟨hprompt i, fun e he => absurd he List.not_mem_nil⟩
  | tail _ hstep ih => exact Settled.step ih hstep i

theorem alive_iff (hprompt : ∀ i, Prompt (procs i)) {c : Consumers ι}
    (hc : ReflTransGen (Pool.Step anyOutcome) (Pool.start procs ()) c) :
    Alive c ↔ ∀ e ∈ c.log, ¬Throws e.2 := by
  constructor
  · rintro halive ⟨i, e⟩ he hthrows
    rcases settled_of_run hprompt hc i with ⟨_, hpast⟩ | ⟨⟨e', hraised⟩, _⟩
    · exact hpast e (Pool.mem_past.mpr he) hthrows
    · exact halive i e' hraised
  · intro hlog i e hraised
    rcases settled_of_run hprompt hc i with ⟨hno, _⟩ | ⟨_, e', he', hthrows⟩
    · rw [hraised] at hno
      exact hno
    · exact hlog (i, e') (Pool.mem_past.mp he') hthrows

end

def Returns (p : SinkM (Except Raised (Option ℤ))) : Prop :=
  p.wp fun r t => (∃ writer, r = .ok writer) ↔ ∀ e ∈ t, ¬Throws e

def Rejects {D : Type} (c : Consumer D) (type : UnitType) (path : Bytes) (offset : UInt64)
    (r : Except Raised (Next (Head D) (Consumer D))) (t : SinkLog) : Prop :=
  (∃ o, r = .ok (.again (.block c o))) ∨ (∃ e, r = .error e) ∨
    r = .ok (.done c) ∧ ∃ u, t = u ++
      [.did (.other (.event (.finished path type offset 0 0 false "rejected"))) ()]

section
variable (root : LexPath) {D : Type} (c : Consumer D) (type : UnitType) (path : Bytes)
  (offset : UInt64)

theorem openUnit_rejects :
    (raising root (openUnit c type path offset)).wp fun r t => Rejects c type path offset r t := by
  have heq := openUnit_eq c ⟨type, path, offset⟩
  dsimp only at heq
  have hafter : ∀ (o : OpenUnit) (writer : Option ℤ) (t : SinkLog),
      (raising root (if writer.isSome = true then
      (.ret (.again (.block c o)) : Consume (Next (Head D) (Consumer D)))
      else call (.event (.finished path type offset 0 0 false "rejected")) fun _ =>
        .ret (.done c))).wp fun r u =>
        Rejects c type path offset r (t ++ u) := by
    intro o writer t
    cases writer with
    | some fd => exact .inl ⟨o, rfl⟩
    | none => exact fun _ => .inr (.inr ⟨rfl, t, rfl⟩)
  rw [heq, raising_event]
  intro _
  by_cases hfile : type = .file
  · have hquery : openQuery ⟨type, path, offset⟩ = .openSequential path := if_pos hfile
    rw [hquery, raising_openSequential]
    refine wp_bind (wp_of_forall _ fun r t => ?_)
    cases r with
    | error e => exact .inr (.inl ⟨e, rfl⟩)
    | ok writer => exact hafter _ writer (_ :: t)
  · have hquery : openQuery ⟨type, path, offset⟩ = .openOffset path := if_neg hfile
    rw [hquery, raising_openOffset]
    refine wp_bind (wp_of_forall _ fun r t => ?_)
    cases r with
    | error e => exact .inr (.inl ⟨e, rfl⟩)
    | ok writer => exact hafter _ writer (_ :: t)

end

/-- A bad path only rejects its unit, if and only if no `stat` fails with another error than that
there is no such file: an open then returns, a unit that was not opened is reported as rejected,
and in every run of the consumers the server stays alive exactly as long as there was no such
failure. -/
theorem bad_path_rejected_iff {ι : Type} [DecidableEq ι] (dec : StreamDecompressor)
    (xxh64 : Bytes → UInt64) (root : ι → LexPath) (rounds : ι → ℕ) (start : ι → Head dec.State)
    {c : Consumers ι} (hc : ReflTransGen (Pool.Step anyOutcome)
      (Pool.start (fun i => raising (root i) (uploadRounds dec xxh64 (rounds i) (start i))) ()) c) :
    (∀ i path, Returns (openSequential (root i) path) ∧ Returns (openOffset (root i) path)) ∧
    (∀ i (consumer : Consumer dec.State) type path offset,
      (raising (root i) (openUnit consumer type path offset)).wp fun r t =>
        Rejects consumer type path offset r t) ∧
    (Alive c ↔ ∀ e ∈ c.log, ¬Throws e.2) := by
  refine ⟨fun i path => ⟨?_, ?_⟩, fun i consumer type path offset => ?_, ?_⟩
  · exact (openSequential_prompt (root i) path).returns
  · exact (openOffset_prompt (root i) path).returns
  · exact openUnit_rejects (root i) consumer type path offset
  · exact alive_iff (fun i => raising_prompt (root i) _) hc

def idleDecoder : StreamDecompressor := ⟨Unit, fun d _ => ([], some d)⟩

def firstRound : Unit → SinkM (Except Raised Unit) := fun _ =>
  raising servedRoot (uploadRounds idleDecoder (fun _ => 0) 1 (.unit (Consumer.start 0 false ())))

def arrival (r : StatResult) : SinkLog :=
  [.did (.receive 1) (some ⟨[UnitType.file.toByte], rfl⟩), .did (.receive 2) (some ⟨[3, 0], rfl⟩),
   .did (.receive 3) (some ⟨[0x61, 0x2F, 0x62], rfl⟩),
   .did (.other (.event (.started [0x61, 0x2F, 0x62] .file 0))) (),
   .did (.createDirectories ⟨true, [[0x73, 0x72, 0x76], [0x61]], false⟩) true,
   .did (.stat ⟨true, [[0x73, 0x72, 0x76], [0x61]], false⟩) r]

theorem does_call (op : SinkOp) {k : op.Ans → SinkM (Except Raised Unit)} {v : Except Raised Unit}
    {t : SinkLog} (a : op.Ans) (hk : Pool.Does anyOutcome (k a) () v () t) :
    Pool.Does anyOutcome (call op k) () v () (.did op a :: t) := .call a trivial hk

def rejection : Entry SinkOp SinkOp.Ans :=
  .did (.other (.event (.finished [0x61, 0x2F, 0x62] .file 0 0 0 false "rejected"))) ()

def ending : StatResult → Except Raised Unit × SinkLog
  | .failed => (.error .filesystemError, [])
  | .found | .notFound => (.ok (), [rejection])

theorem firstRound_does {r : StatResult} (hr : r ≠ .found) :
    Pool.Does anyOutcome (firstRound ()) () (ending r).1 () (arrival r ++ (ending r).2) := by
  have hresolve : resolveSafePath servedRoot [0x61, 0x2F, 0x62] =
      some ⟨true, [[0x73, 0x72, 0x76], [0x61], [0x62]], false⟩ := by decide
  refine does_call (.receive 1) (some ⟨[UnitType.file.toByte], rfl⟩) ?_
  refine does_call (.receive 2) (some ⟨[3, 0], rfl⟩) ?_
  refine does_call (.receive 3) (some ⟨[0x61, 0x2F, 0x62], rfl⟩) ?_
  refine does_call (.other (.event _)) () ?_
  change Pool.Does anyOutcome
    (raising servedRoot (.call (.query (.openSequential [0x61, 0x2F, 0x62])) _)) () _ () _
  rw [raising_openSequential, openSequential, hresolve]
  refine does_call (.createDirectories ⟨true, [[0x73, 0x72, 0x76], [0x61]], false⟩) true ?_
  refine does_call (.stat ⟨true, [[0x73, 0x72, 0x76], [0x61]], false⟩) r ?_
  cases r with
  | found => exact absurd rfl hr
  | notFound => exact does_call (.other (.event _)) () (.ret _ _)
  | failed => exact .ret _ _

theorem bad_path_rejected_absent : ∃ c : Consumers (Fin 2),
    ReflTransGen (Pool.Step anyOutcome) (Pool.start (fun _ => firstRound ()) ()) c ∧
    (0, rejection) ∈ c.log ∧ c.procs 0 = .ret (.ok ()) ∧ c.procs 1 = firstRound () ∧ Alive c := by
  have hrun := (firstRound_does (r := .notFound) nofun).reaches
    (Pool.start (fun _ : Fin 2 => firstRound ()) ()) (i := 0) rfl rfl
  refine ⟨_, hrun, ?_, rfl, rfl, ?_⟩
  · exact List.mem_map_of_mem (List.mem_append_right _ List.mem_cons_self)
  · refine (bad_path_rejected_iff idleDecoder (fun _ => 0)
      (fun _ : Fin 2 => servedRoot) (fun _ => 1)
      (fun _ => .unit (Consumer.start 0 false ())) hrun).2.2.mpr ?_
    simp [Throws, arrival, ending, rejection, Pool.start]

/-- The file "a/b" arrives, its directory can neither be made nor looked up, and the server is
gone. -/
theorem stat_failure_kills : ∃ c : Consumers Unit,
    ReflTransGen (Pool.Step anyOutcome) (Pool.start firstRound ()) c ∧ ¬Alive c := by
  have hrun :=
    (firstRound_does (r := .failed) nofun).reaches (Pool.start firstRound ()) (i := ()) rfl rfl
  exact ⟨_, hrun, fun h => h () .filesystemError rfl⟩

end Dicker.Server
