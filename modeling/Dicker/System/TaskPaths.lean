import Dicker.Client.Scheduler
import Dicker.Client.UploadOutcome
import Dicker.System.Exchange

/-! The path of a file on its way through the client: into a task, from there into a request to
the storage reader, and into the header or the probe that the server parses. -/

namespace Dicker.System
open Lib Program Client Server

theorem mem_chunkTasks {path : Bytes} {size chunkSize : UInt64} {mtime : Int64} {fuel : ℕ}
    {offset : UInt64} {tasks : List Task}
    (h : Scheduler.chunkTasks path size chunkSize mtime fuel offset = some tasks) {t : Task}
    (ht : t ∈ tasks) : ∃ offset length, t = workerTask .chunk path offset length size mtime := by
  induction fuel generalizing offset tasks with
  | zero => cases h
  | succ fuel ih =>
    unfold Scheduler.chunkTasks at h
    split_ifs at h
    · obtain ⟨rest, hrest, rfl⟩ := Option.map_eq_some_iff.mp h
      rcases List.mem_cons.mp ht with rfl | ht
      · exact ⟨_, _, rfl⟩
      · exact ih hrest ht
    · cases h
      exact absurd ht List.not_mem_nil

theorem mem_enqueue {cfg : Scheduler.Config} {path : Bytes} {size : UInt64} {mtime : Int64}
    {tasks : List Task} (h : Scheduler.enqueue cfg path size mtime = some tasks) {t : Task}
    (ht : t ∈ tasks) :
    ∃ type offset length, t = workerTask type path offset length size mtime ∧
      (type = .file ∧ offset = 0 ∨ type = .chunk) := by
  unfold Scheduler.enqueue at h
  split_ifs at h
  · obtain ⟨offset, length, rfl⟩ := mem_chunkTasks h ht
    exact ⟨.chunk, offset, length, rfl, .inr rfl⟩
  · cases h
    exact ⟨.file, 0, size, List.mem_singleton.mp ht, .inl ⟨rfl, rfl⟩⟩

def parsedPath (t : Server.Log) : Option Bytes :=
  match calls t with
  | .did (.event (.started path _ _)) _ :: _ => some path
  | .did (.query (.filter probe)) _ :: _ => some probe.path
  | _ => none

section
variable {dec : StreamDecompressor} {σ : Type} (h : (op : Server.Op) → σ → op.Ans × σ)

theorem openUnit_started {D : Type} (c : Consumer D) (type : UnitType) (path : Bytes)
    (offset : UInt64) (s : σ) :
    ∃ v s' t, Exec h (openUnit c type path offset) s [] v s'
      (.did (.event (.started path type offset)) () :: t) := by
  have heq := openUnit_eq c ⟨type, path, offset⟩
  dsimp only at heq
  rw [heq]
  cases hvalid :
    (h (.query (openQuery ⟨type, path, offset⟩))
      (h (.event (.started path type offset)) s).2).1 with
  | true => exact ⟨_, _, _, Exec.call (Exec.call_eq hvalid (Exec.ret _ _))⟩
  | false => exact ⟨_, _, _, Exec.call (Exec.call_eq hvalid (Exec.call (Exec.ret _ _)))⟩

theorem parsedPath_unitHeader {t : Task} (hkind : t.type = .file ∧ t.offset = 0 ∨ t.type = .chunk)
    (hpath : PathFits t.pathname.bytes) {c : Consumer dec.State}
    (hmode : ¬hasMode c.mode .accept = true) (s : σ) (rest : Bytes) :
    parsedPath ((handleUnit c).run h s (unitHeader t ++ rest)).trace = some t.pathname.bytes := by
  obtain ⟨v, s', log, hopen⟩ := openUnit_started h c t.type t.pathname.bytes t.offset s
  have hoffset : t.type = .file → t.offset = 0 := by
    intro hfile
    rcases hkind with hkind | hchunk
    · exact hkind.2
    · exact absurd (hfile.symm.trans hchunk) (by decide)
  obtain ⟨log', hhead, hcalls⟩ :=
    plainHeader_exec (u := announced t) (hkind.imp_left And.left) hpath hoffset hmode hopen
  rw [unitHeader_eq, hhead.run_eq rest, parsedPath, hcalls]
  rfl

theorem parsedPath_probeFrame (k : Codecs) (w : Worker k.enc.State) {src : Source}
    (hkind : src.task.type = .file ∨ src.task.type = .chunk)
    (hpath : PathFits src.task.pathname.bytes) {c : Consumer dec.State}
    (hmode : hasMode c.mode .accept = true) (hhash : hasMode c.mode .hashFirst = w.hashFirst)
    (s : σ) (rest : Bytes) :
    parsedPath ((handleUnit c).run h s (probeFrame k w src ++ rest)).trace =
      some src.task.pathname.bytes := by
  have hfits : ProbeFits (hasMode c.mode .hashFirst) (probeOf k w.hashFirst src) := by
    refine ⟨hkind, hpath, ?_⟩
    rw [hhash]
    unfold probeOf
    cases w.hashFirst with
    | false => rfl
    | true => exact (k.blake3 src.hashed.flatten).length_eq
  obtain ⟨s', log, hprobe, hcalls⟩ := probe_exec (h := h) hmode hfits w.nextKey s
  rw [probeFrame_eq, hprobe.run_eq rest, parsedPath, hcalls]
  rfl

end

structure Names (path : Bytes) (t : Task) : Prop where
  task : t.pathname.bytes = path
  request : t.request.pathname.bytes = path
  opened : ∀ {σ : Type} (h : (op : StorageReader.Op) → σ → op.Ans × σ) (s : σ), ∃ found,
    StorageReader.opens ((StorageReader.process t.request).run h s []).trace = [(path, found)]
  header : ∀ {dec : StreamDecompressor} {σ : Type} (h : (op : Server.Op) → σ → op.Ans × σ)
    (c : Consumer dec.State) (s : σ) (rest : Bytes), hasMode c.mode .accept = false →
    parsedPath ((handleUnit c).run h s (unitHeader t ++ rest)).trace = some path
  probe : ∀ {dec : StreamDecompressor} {σ : Type} (h : (op : Server.Op) → σ → op.Ans × σ)
    (c : Consumer dec.State) (k : Codecs) (w : Worker k.enc.State) (src : Source) (s : σ)
    (rest : Bytes), src.task = t →
    hasMode c.mode .accept = true → hasMode c.mode .hashFirst = w.hashFirst →
    parsedPath ((handleUnit c).run h s (probeFrame k w src ++ rest)).trace = some path

theorem names_of_task {path : Bytes} {t : Task} (htask : t.pathname.bytes = path) (hne : path ≠ [])
    (hkind : t.type = .file ∧ t.offset = 0 ∨ t.type = .chunk) : Names path t where
  task := htask
  request := (Pathname.copy_bytes t.pathname.length_lt t.pathname.terminated).trans htask
  opened h s := by
    have hrequest : t.request.pathname.bytes = path :=
      (Pathname.copy_bytes t.pathname.length_lt t.pathname.terminated).trans htask
    have hprocessed := wp_run h (StorageReader.process_wp t.request) s []
    exact hrequest ▸ hprocessed.opens_eq
  header h c s rest hmode := by
    have hpath : PathFits t.pathname.bytes :=
      pathFits_pathname (htask ▸ List.length_pos_iff.mpr hne)
    exact htask ▸ parsedPath_unitHeader h hkind hpath (Bool.eq_false_iff.mp hmode) s rest
  probe h c k w src s rest hsrc hmode hhash := by
    subst hsrc
    have hpath : PathFits src.task.pathname.bytes :=
      pathFits_pathname (htask ▸ List.length_pos_iff.mpr hne)
    exact htask ▸ parsedPath_probeFrame h k w (hkind.imp_left And.left) hpath hmode hhash s rest

/-- The path of a file survives, in each task made for it, if and only if it is shorter than the
buffer of a task. -/
theorem names_iff {path : Bytes} (hfits : PathFits path) (hnul : (0 : UInt8) ∉ path)
    {cfg : Scheduler.Config} {size : UInt64} {mtime : Int64} {tasks : List Task}
    (henqueue : Scheduler.enqueue cfg path size mtime = some tasks) {t : Task} (ht : t ∈ tasks) :
    Names path t ↔ path.length < PATH_CAP := by
  obtain ⟨type, offset, length, rfl, hkind⟩ := mem_enqueue henqueue ht
  constructor
  · intro h
    rw [← h.task]
    exact (workerTask type path offset length size mtime).pathname.length_lt
  · intro hlen
    exact names_of_task (Pathname.copy_bytes hlen hnul) (List.length_pos_iff.mp hfits.1) hkind

theorem names_short : Names [0x2F, 0x61] (workerTask .file [0x2F, 0x61] 0 5 5 0) := by
  have henqueue : Scheduler.enqueue ⟨10, 10⟩ [0x2F, 0x61] 5 0 =
      some [workerTask .file [0x2F, 0x61] 0 5 5 0] := rfl
  exact (names_iff ⟨by decide, by decide⟩ (by decide) henqueue List.mem_cons_self).mpr (by decide)

def longPath : Bytes := List.replicate 256 0x61

/-- The task for it names another file. -/
theorem long_path_cut : PathFits longPath ∧ (0 : UInt8) ∉ longPath ∧
    ¬Names longPath (workerTask .file longPath 0 5 5 0) ∧
    (workerTask .file longPath 0 5 5 0).pathname.bytes = List.replicate 255 0x61 := by
  have hlen : longPath.length = 256 := List.length_replicate ..
  refine ⟨⟨by rw [hlen]; decide, by rw [hlen]; decide⟩, ?_, fun h => ?_, by decide +kernel⟩
  · exact fun hmem => absurd (List.eq_of_mem_replicate hmem) (by decide)
  · have hlt := (workerTask .file longPath 0 5 5 0).pathname.length_lt
    rw [h.task, hlen] at hlt
    exact absurd hlt (by decide)

end Dicker.System
