import Dicker.Server.SinkOpening

/-! The descriptors of big files over the history of a server (server/file_sink.cxx,
`Server::get_or_create_sink`). A sink keeps every chunk file it has opened, and the server keeps
every sink; the writer of a unit only shares what the sink holds. -/

namespace Dicker.Server
open Lib Program

/-- `chunk_files_`: the descriptor of each file, by its path. -/
abbrev Registry := List (LexPath × ℤ)

structure FsOutcome where
  mkdirFails : Bool
  stat : StatResult
  fd : ℤ

def Registry.find (registry : Registry) (key : LexPath) : Option ℤ :=
  (registry.find? fun entry => entry.1 = key).map Prod.snd

theorem Registry.mem_of_find {registry : Registry} {key : LexPath} {fd : ℤ}
    (h : registry.find key = some fd) : (key, fd) ∈ registry := by
  obtain ⟨entry, hentry, rfl⟩ := Option.map_eq_some_iff.mp h
  have hkey : entry.1 = key := by simpa using List.find?_some hentry
  rw [← hkey]
  exact List.mem_of_find?_eq_some hentry

def onRegistry (outcome : FsOutcome) : (op : SinkOp) → Registry → op.Ans × Registry
  | .findChunkFile key, registry => (registry.find key, registry)
  | .emplaceChunkFile key fd, registry => ((), (key, fd) :: registry)
  | .createDirectories _, registry => (outcome.mkdirFails, registry)
  | .stat _, registry => (outcome.stat, registry)
  | .openFile _ _, registry => (outcome.fd, registry)
  | .receive _, registry => (none, registry)
  | .other (.query _), registry => (false, registry)
  | .other (.event _), registry => ((), registry)

/-! ## One open -/

structure Opened (root : LexPath) (path : Bytes) (registry : Registry) (fd : ℤ)
    (registry' : Registry) : Prop where
  key : ∃ full, resolveSafePath root path = some full ∧ (full, fd) ∈ registry' ∧
    ∀ x ∈ registry', x ∈ registry ∨ x.1 = full
  kept : ∀ x ∈ registry, x ∈ registry'

theorem openBelow_env (full : LexPath) (truncate : Bool) (outcome : FsOutcome)
    (registry : Registry) :
    ((openBelow full truncate).run (onRegistry outcome) registry []).env = registry := by
  obtain ⟨mkdirFails, stat, fd⟩ := outcome
  unfold openBelow ensureParentDirectory
  split_ifs
  · rfl
  · cases mkdirFails <;> cases stat <;> rfl

theorem acquireChunkFile_run (full : LexPath) (outcome : FsOutcome) (registry : Registry) {fd : ℤ}
    (hok : ((acquireChunkFile full).run (onRegistry outcome) registry []).val = .ok (some fd)) :
    ((acquireChunkFile full).run (onRegistry outcome) registry []).env = registry ∧
    (full, fd) ∈ registry ∨
      ((acquireChunkFile full).run (onRegistry outcome) registry []).env =
      (full, fd) :: registry := by
  have hanswer : onRegistry outcome (.findChunkFile full) registry =
      (registry.find full, registry) := rfl
  unfold acquireChunkFile at hok ⊢
  rw [perform_bind, run_call, hanswer] at hok ⊢
  cases hfound : registry.find full with
  | some fd' =>
    rw [hfound] at hok
    cases hok
    exact .inl ⟨rfl, Registry.mem_of_find hfound⟩
  | none =>
    rw [hfound] at hok
    dsimp only at hok ⊢
    rw [run_bind, openBelow_env] at hok ⊢
    cases hopened : ((openBelow full false).run (onRegistry outcome) registry []).val with
    | error e =>
      rw [hopened] at hok
      cases hok
    | ok opened =>
      cases opened with
      | none =>
        rw [hopened] at hok
        cases hok
      | some fd' =>
        rw [hopened] at hok
        cases hok
        exact .inr rfl

theorem openOffset_run (root : LexPath) (path : Bytes) (outcome : FsOutcome) (registry : Registry)
    {fd : ℤ}
    (hok : ((openOffset root path).run (onRegistry outcome) registry []).val = .ok (some fd)) :
    Opened root path registry fd
      ((openOffset root path).run (onRegistry outcome) registry []).env := by
  unfold openOffset at hok ⊢
  cases hresolve : resolveSafePath root path with
  | none =>
    rw [hresolve] at hok
    cases hok
  | some full =>
    rw [hresolve] at hok
    dsimp only at hok ⊢
    rcases acquireChunkFile_run full outcome registry hok with ⟨henv, hmem⟩ | henv
    · rw [henv]
      exact ⟨⟨full, hresolve, hmem, fun x hx => .inl hx⟩, fun x hx => hx⟩
    · rw [henv]
      refine ⟨⟨full, hresolve, List.mem_cons_self, fun x hx => ?_⟩,
        fun x hx => List.mem_cons_of_mem _ hx⟩
      exact (List.mem_cons.mp hx).symm.imp_right fun h => congrArg Prod.fst h

/-! ## Histories -/

structure Sessions (ι : Type) where
  sinks : Bytes → Option Registry
  receiving : ι → Option (Bytes × LexPath)

inductive ChunkEvent (ι : Type) where
  | getOrCreateSink (id : SessionId)
  | openChunk (i : ι) (id : SessionId) (path : Bytes) (outcome : FsOutcome)
  | endUnit (i : ι)

section
variable {ι : Type} [DecidableEq ι] (configRoot : LexPath)

/-- A connection receives one unit at a time. An open that fails changes nothing, and one that
raises is the end of the server. -/
def Sessions.step (s : Sessions ι) : ChunkEvent ι → Sessions ι
  | .getOrCreateSink id =>
    { s with
      sinks := Function.update s.sinks (sessionIdToHex id)
        (some ((s.sinks (sessionIdToHex id)).getD [])) }
  | .openChunk i id path outcome =>
    match s.receiving i, s.sinks (sessionIdToHex id),
      resolveSafePath (sessionRoot configRoot id) path with
    | none, some registry, some full =>
      let opened :=
        (openOffset (sessionRoot configRoot id) path).run (onRegistry outcome) registry []
      match opened.val with
      | .ok (some _) =>
        ⟨Function.update s.sinks (sessionIdToHex id) (some opened.env),
          Function.update s.receiving i (some (sessionIdToHex id, full))⟩
      | _ => s
    | _, _, _ => s
  -- the writer goes, the descriptor stays
  | .endUnit i => { s with receiving := Function.update s.receiving i none }

def Sessions.fresh : Sessions ι := ⟨fun _ => none, fun _ => none⟩

def sessionsAfter (events : List (ChunkEvent ι)) : Sessions ι :=
  events.foldl (Sessions.step configRoot) Sessions.fresh

def Holds (sinks : Bytes → Option Registry) (hex : Bytes) (key : LexPath) : Prop :=
  ∃ registry fd, sinks hex = some registry ∧ (key, fd) ∈ registry

def Sessions.Refcounted (s : Sessions ι) : Prop :=
  ∀ hex key, Holds s.sinks hex key → ∃ i, s.receiving i = some (hex, key)

def Sessions.Meets (s : Sessions ι) : ChunkEvent ι → Prop
  | .endUnit i => ∀ file, s.receiving i = some file → ∃ j, j ≠ i ∧ s.receiving j = some file
  | _ => True

def Sessions.Backed (s : Sessions ι) : Prop :=
  ∀ i hex key, s.receiving i = some (hex, key) → Holds s.sinks hex key

theorem Sessions.step_cases (s : Sessions ι) (e : ChunkEvent ι) :
    (s.Meets e ∧ ∃ hex, s.step configRoot e =
      { s with sinks := Function.update s.sinks hex (some ((s.sinks hex).getD [])) }) ∨
    (s.Meets e ∧ s.step configRoot e = s) ∨
    (s.Meets e ∧ ∃ i hex registry fd full registry', s.receiving i = none ∧
      s.sinks hex = some registry ∧
      (full, fd) ∈ registry' ∧ (∀ x ∈ registry', x ∈ registry ∨ x.1 = full) ∧
      (∀ x ∈ registry, x ∈ registry') ∧
      s.step configRoot e = ⟨Function.update s.sinks hex (some registry'),
        Function.update s.receiving i (some (hex, full))⟩) ∨
    ∃ i, e = .endUnit i ∧ s.step configRoot e =
      { s with receiving := Function.update s.receiving i none } := by
  cases e with
  | getOrCreateSink id => exact .inl ⟨trivial, _, rfl⟩
  | endUnit i => exact .inr (.inr (.inr ⟨i, rfl, rfl⟩))
  | openChunk i id path outcome =>
    unfold step
    dsimp only
    split
    · rename_i registry full hidle hsink hresolve
      split
      · rename_i fd hok
        obtain ⟨⟨full', hfull', hmem, hnew⟩, hkept⟩ := openOffset_run _ _ _ _ hok
        cases hresolve.symm.trans hfull'
        exact .inr
          (.inr (.inl ⟨trivial, i, _, registry, fd, full, _, hidle, hsink, hmem, hnew, hkept, rfl⟩))
      · exact .inr (.inl ⟨trivial, rfl⟩)
    · exact .inr (.inl ⟨trivial, rfl⟩)

section
variable {sinks : Bytes → Option Registry} {hex hex' : Bytes} {registry registry' : Registry}
  {key full : LexPath}

theorem holds_update_self :
    Holds (Function.update sinks hex (some registry)) hex key ↔ ∃ fd, (key, fd) ∈ registry := by
  unfold Holds
  rw [Function.update_self]
  exact ⟨fun ⟨_, fd, h, hmem⟩ => ⟨fd, Option.some.inj h ▸ hmem⟩,
    fun ⟨fd, hmem⟩ => ⟨registry, fd, rfl, hmem⟩⟩

theorem holds_update_of_ne (hne : hex' ≠ hex) :
    Holds (Function.update sinks hex (some registry)) hex' key ↔ Holds sinks hex' key := by
  unfold Holds
  rw [Function.update_of_ne hne]

theorem holds_getOrCreate :
    Holds (Function.update sinks hex (some ((sinks hex).getD []))) hex' key ↔
      Holds sinks hex' key := by
  by_cases hhex : hex' = hex
  · subst hhex
    rw [holds_update_self]
    unfold Holds
    cases sinks hex' with
    | none => simp
    | some registry => exact ⟨fun ⟨fd, hmem⟩ => ⟨registry, fd, rfl, hmem⟩, fun ⟨_, fd, h, hmem⟩ =>
        ⟨fd, Option.some.inj h ▸ hmem⟩⟩
  · exact holds_update_of_ne hhex

theorem holds_opened (hsink : sinks hex = some registry) {fd : ℤ} (hmem : (full, fd) ∈ registry')
    (hnew : ∀ x ∈ registry', x ∈ registry ∨ x.1 = full) (hkept : ∀ x ∈ registry, x ∈ registry') :
    Holds (Function.update sinks hex (some registry')) hex' key ↔
      Holds sinks hex' key ∨ (hex', key) = (hex, full) := by
  by_cases hhex : hex' = hex
  · subst hhex
    rw [holds_update_self]
    constructor
    · rintro ⟨fd', hfd'⟩
      exact (hnew _ hfd').imp (fun h => ⟨registry, fd', hsink, h⟩) fun h => congrArg (Prod.mk _) h
    · rintro (⟨_, fd', h, hfd'⟩ | h)
      · cases hsink.symm.trans h
        exact ⟨fd', hkept _ hfd'⟩
      · cases h
        exact ⟨fd, hmem⟩
  · rw [holds_update_of_ne hhex, or_iff_left]
    exact fun h => hhex (congrArg Prod.fst h)

end

theorem Sessions.Backed.step {s : Sessions ι} (h : s.Backed) (e : ChunkEvent ι) :
    (s.step configRoot e).Backed := by
  rcases s.step_cases configRoot e with ⟨-, hex, heq⟩ | ⟨-, heq⟩ |
    ⟨-, i, hex, registry, fd, full, registry', hidle, hsink, hmem, hnew, hkept, heq⟩ | ⟨i, -, heq⟩
  all_goals rw [heq]
  · intro j hex' key hj
    exact holds_getOrCreate.mpr (h j hex' key hj)
  · exact h
  · intro j hex' key hj
    refine (holds_opened hsink hmem hnew hkept).mpr ?_
    dsimp only at hj
    by_cases hji : j = i
    · rw [hji, Function.update_self] at hj
      exact .inr (Option.some.inj hj).symm
    · exact .inl (h j hex' key ((Function.update_of_ne hji ..).symm.trans hj))
  · intro j hex' key hj
    by_cases hji : j = i
    · rw [hji] at hj
      exact nomatch (Function.update_self ..).symm.trans hj
    · exact h j hex' key ((Function.update_of_ne hji ..).symm.trans hj)

theorem Sessions.Refcounted.step_iff {s : Sessions ι} (h : s.Refcounted) (hbacked : s.Backed)
    (e : ChunkEvent ι) : (s.step configRoot e).Refcounted ↔ s.Meets e := by
  rcases s.step_cases configRoot e with ⟨hmeets, hex, heq⟩ | ⟨hmeets, heq⟩ |
    ⟨hmeets, i, hex, registry, fd, full, registry', hidle, hsink, hmem, hnew, hkept,
      heq⟩ | ⟨i, rfl, heq⟩
  · rw [heq, iff_true_right hmeets]
    exact fun hex' key hheld => h hex' key (holds_getOrCreate.mp hheld)
  · rw [heq, iff_true_right hmeets]
    exact h
  · rw [heq, iff_true_right hmeets]
    intro hex' key hheld
    rcases (holds_opened hsink hmem hnew hkept).mp hheld with hheld | hthis
    · obtain ⟨j, hj⟩ := h hex' key hheld
      have hji : j ≠ i := by
        rintro rfl
        exact nomatch hidle.symm.trans hj
      exact ⟨j, (Function.update_of_ne hji ..).trans hj⟩
    · exact ⟨i, (Function.update_self ..).trans (congrArg some hthis.symm)⟩
  · rw [heq]
    constructor
    · rintro hlaw ⟨hex, key⟩ hi
      obtain ⟨j, hj⟩ := hlaw hex key (hbacked i hex key hi)
      have hji : j ≠ i := by
        rintro rfl
        exact nomatch (Function.update_self ..).symm.trans hj
      exact ⟨j, hji, (Function.update_of_ne hji ..).symm.trans hj⟩
    · intro hmeets hex key hheld
      obtain ⟨j, hj⟩ := h hex key hheld
      by_cases hji : j = i
      · obtain ⟨j', hne, hj'⟩ := hmeets (hex, key) (hji ▸ hj)
        exact ⟨j', (Function.update_of_ne hne ..).trans hj'⟩
      · exact ⟨j, (Function.update_of_ne hji ..).trans hj⟩

theorem sessionsAfter_concat (events : List (ChunkEvent ι)) (e : ChunkEvent ι) :
    sessionsAfter configRoot (events ++ [e]) =
      (sessionsAfter configRoot events).step configRoot e := by
  unfold sessionsAfter
  rw [List.foldl_append]
  rfl

theorem backed_sessionsAfter (events : List (ChunkEvent ι)) :
    (sessionsAfter configRoot events).Backed := by
  induction events using List.reverseRecOn with
  | nil => exact fun i hex key h => nomatch h
  | append_singleton events e ih =>
    rw [sessionsAfter_concat]
    exact ih.step configRoot e

/-- In every state of a history only files that are being received are held open, if and only if
no unit of the history ends as the last one of its file. -/
theorem refcounted_iff (events : List (ChunkEvent ι)) :
    (∀ part, part <+: events → (sessionsAfter configRoot part).Refcounted) ↔
      ∀ part e, part ++ [e] <+: events → (sessionsAfter configRoot part).Meets e := by
  constructor
  · intro h part e hpart
    have hnext := h (part ++ [e]) hpart
    rw [sessionsAfter_concat] at hnext
    exact ((h part ((List.prefix_append ..).trans hpart)).step_iff configRoot
      (backed_sessionsAfter configRoot part) e).mp hnext
  · intro h part hpart
    induction part using List.reverseRecOn with
    | nil => exact fun hex key ⟨_, _, hnone, _⟩ => nomatch hnone
    | append_singleton part e ih =>
      have hbefore := ih ((List.prefix_append ..).trans hpart)
      rw [sessionsAfter_concat]
      exact (hbefore.step_iff configRoot (backed_sessionsAfter configRoot part) e).mpr
        (h part e hpart)

end

def allFine : FsOutcome := ⟨false, .found, 3⟩

def overlapping : List (ChunkEvent Bool) :=
  [.getOrCreateSink zeroId, .openChunk true zeroId [0x2F, 0x61] allFine,
    .openChunk false zeroId [0x2F, 0x61] allFine, .endUnit true]

def oneChunk : List (ChunkEvent Unit) :=
  [.getOrCreateSink zeroId, .openChunk () zeroId [0x2F, 0x61] allFine, .endUnit ()]

theorem refcounted_overlapping : (sessionsAfter servedRoot overlapping).Refcounted := by
  refine (refcounted_iff servedRoot overlapping).mpr (fun part e hpart => ?_) overlapping
    (List.prefix_refl _)
  obtain ⟨rest, hrest⟩ := hpart
  rw [List.append_assoc] at hrest
  rcases part with _ | ⟨a, _ | ⟨b, _ | ⟨c, _ | ⟨d, part⟩⟩⟩⟩
  · cases hrest
    trivial
  · cases hrest
    trivial
  · cases hrest
    trivial
  · cases hrest
    exact fun file hfile => ⟨false, by decide, hfile⟩
  · have hlen := congrArg List.length hrest
    simp [overlapping] at hlen

/-- The descriptor stays open. -/
theorem descriptor_leaked : (∀ i, (sessionsAfter servedRoot oneChunk).receiving i = none) ∧
    ∃ hex key, Holds (sessionsAfter servedRoot oneChunk).sinks hex key := by
  refine ⟨fun _ => rfl, sessionIdToHex zeroId,
    ⟨true, [[0x73, 0x72, 0x76], List.replicate 32 0x30, [0x61]], false⟩,
    [(⟨true, [[0x73, 0x72, 0x76], List.replicate 32 0x30, [0x61]], false⟩, 3)], 3, ?_,
      List.mem_singleton_self _⟩
  decide

end Dicker.Server
