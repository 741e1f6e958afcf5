import Dicker.Lib.LineLog
import Dicker.Server.Database

/-! The log of upload sessions (`SessionLog` of server/db.cxx). Every row is sealed by itself and
written as one line, but a write that was cut short leaves a line open, and the next row is then
written behind it. -/

namespace Dicker.Server.SessionLog
open Lib LineLog

/-! ## Rows -/

structure SessionInfo where
  ip : Bytes := []
  created : UInt64 := 0

/-- What `session_row_to_json` puts in a row. -/
def sessionRow (sessionId ip : Bytes) (created : UInt64) : List (String × Json) :=
  [("sessionId", .string sessionId), ("ip", .string ip), ("created", .unsigned created)]

def sessionRowToJson (json : JsonLibrary) (sessionId ip : Bytes) (created : UInt64) : Bytes :=
  json.dump (.object (sessionRow sessionId ip created))

def sessionRowFromJson (json : JsonLibrary) (text : Bytes) : Option (Bytes × SessionInfo) :=
  match json.parse text with
  | some (.object row) =>
    match row.lookup "sessionId" with
    | some (.string sessionId) =>
      let ip := match row.lookup "ip" with
        | some (.string ip) => ip
        | _ => []
      let created := match row.lookup "created" with
        | some (.unsigned created) => created
        | _ => 0
      some (sessionId, ⟨ip, created⟩)
    | _ => none
  | _ => none

theorem sessionRowFromJson_toJson {json : JsonLibrary} {sessionId ip : Bytes} {created : UInt64}
    (h : json.Keeps (sessionRow sessionId ip created)) :
    sessionRowFromJson json (sessionRowToJson json sessionId ip created) =
      some (sessionId, ⟨ip, created⟩) := by
  obtain ⟨fields, hparse, hlookup⟩ := h
  unfold sessionRowFromJson sessionRowToJson
  rw [hparse]
  dsimp only
  rw [hlookup, hlookup, hlookup]
  rfl

/-! ## The two operations -/

def newline : UInt8 := 0x0A

/-- A call of `append`, with what the system does in it: the random nonce, whether the file can be
opened, how many bytes of the line reach it, and whether the process dies before it returns. -/
structure AppendCall where
  sessionId : Bytes
  ip : Bytes
  created : UInt64
  nonce : Option (Block kNonceSize)
  opens : Bool
  written : ℕ
  crashes : Bool
  deriving DecidableEq

variable (json : JsonLibrary) (aes : AesGcm)

def append (file : Option Bytes) (c : AppendCall) : Option Bytes × Option (Except String Unit) :=
  match aes.gcmSeal c.nonce (sessionRowToJson json c.sessionId c.ip c.created) with
  | none => (file, some (.error "encrypt failed"))
  | some sealed =>
    let line := hexEncode sealed ++ [newline]
    if !c.opens then (file, some (.error "open sessions log failed"))
    else
      -- `O_APPEND | O_CREAT`
      let file := some (file.getD [] ++ line.take c.written)
      if c.crashes then (file, none)
      else if c.written < line.length then (file, some (.error "append sessions log failed"))
      else (file, some (.ok ()))

def readLine (line : Bytes) : Option (Bytes × SessionInfo) :=
  if line.isEmpty then none
  else do
    let sealed ← hexDecode line
    let plain ← aes.gcmOpen sealed
    sessionRowFromJson json plain

/-- The loop over `std::getline`. -/
def loadLoop (file : Bytes) (out : Bytes → Option SessionInfo) : Bytes → Option SessionInfo :=
  if file = [] then out
  else loadLoop ((file.dropWhile (· != newline)).drop 1)
    (put (readLine json aes) out (file.takeWhile (· != newline)))
termination_by file.length
decreasing_by
  rename_i h
  have hle := (List.dropWhile_suffix (· != newline) (l := file)).length_le
  have hpos := List.length_pos_of_ne_nil h
  rw [List.length_drop]
  omega

def loadAll (file : Option Bytes) : Bytes → Option SessionInfo :=
  match file with
  | none => fun _ => none
  | some file => loadLoop json aes file fun _ => none

theorem put_nil (out : Bytes → Option SessionInfo) : put (readLine json aes) out [] = out := rfl

theorem newline_notMem_takeWhile (file : Bytes) : newline ∉ file.takeWhile (· != newline) := by
  intro hmem
  have hne := List.mem_takeWhile_imp hmem
  exact absurd hne (by decide)

theorem loadLoop_eq (file : Bytes) (out : Bytes → Option SessionInfo) :
    loadLoop json aes file out = (file.splitOn newline).foldl (put (readLine json aes)) out := by
  induction file, out using loadLoop.induct json aes with
  | case1 out =>
    rw [loadLoop, if_pos rfl]
    exact (put_nil json aes out).symm
  | case2 file out hne ih =>
    have hclean := newline_notMem_takeWhile file
    rw [loadLoop, if_neg hne, ih]
    have hsplit := List.takeWhile_append_dropWhile (p := (· != newline)) (l := file)
    rcases hrest : file.dropWhile (· != newline) with - | ⟨c, rest⟩
    · -- the file ends without a newline
      rw [hrest, List.append_nil] at hsplit
      rw [hsplit] at hclean ⊢
      rw [List.splitOn_eq_singleton hclean]
      exact put_nil json aes _
    · have hc : c = newline := by
        have hhead :=
          List.head_dropWhile_not (p := (· != newline)) (l := file)
            (by rw [hrest]; exact List.cons_ne_nil _ _)
        simpa [hrest] using hhead
      rw [hrest, hc] at hsplit
      conv_rhs => rw [← hsplit, List.splitOn_append_cons_self, List.splitOn_eq_singleton hclean]
      rfl

/-! ## Histories -/

def after (calls : List AppendCall) : Option Bytes :=
  calls.foldl (fun file c => (append json aes file c).1) none

def AppendCall.text (c : AppendCall) : Option Bytes :=
  (aes.gcmSeal c.nonce (sessionRowToJson json c.sessionId c.ip c.created)).map hexEncode

def AppendCall.attempt (c : AppendCall) : Attempt UInt8 :=
  ⟨(c.text json aes).getD [], if (c.text json aes).isSome ∧ c.opens = true then c.written else 0⟩

variable {json aes} {c : AppendCall} {log : Option Bytes} {text : Bytes}
  {calls past : List AppendCall}

theorem attempt_of_text (h : c.text json aes = some text) :
    c.attempt json aes = ⟨text, if c.opens = true then c.written else 0⟩ := by
  unfold AppendCall.attempt
  rw [h]
  simp only [Option.getD_some, Option.isSome_some, true_and]

theorem attempt_of_none (h : c.text json aes = none) : c.attempt json aes = ⟨[], 0⟩ := by
  unfold AppendCall.attempt
  rw [h]
  rfl

theorem append_of_text (h : c.text json aes = some text) : append json aes log c =
    if c.opens = true then
      (some (log.getD [] ++ (text ++ [newline]).take c.written),
        if c.crashes = true then none
        else if c.written < (text ++ [newline]).length then
          some (.error "append sessions log failed")
        else some (.ok ()))
    else (log, some (.error "open sessions log failed")) := by
  obtain ⟨sealed, hseal, rfl⟩ := Option.map_eq_some_iff.mp h
  unfold append
  rw [hseal]
  dsimp only
  split_ifs <;> simp_all

theorem append_of_none (h : c.text json aes = none) :
    append json aes log c = (log, some (.error "encrypt failed")) := by
  unfold append
  rw [Option.map_eq_none_iff.mp h]

theorem append_file (log : Option Bytes) (c : AppendCall) :
    (append json aes log c).1.getD [] = log.getD [] ++ (c.attempt json aes).bytes newline := by
  rcases htext : c.text json aes with - | text
  · rw [append_of_none htext, attempt_of_none htext]
    exact (List.append_nil _).symm
  · rw [append_of_text htext, attempt_of_text htext, Attempt.bytes]
    by_cases hopens : c.opens = true
    · rw [if_pos hopens, if_pos hopens]
      rfl
    · rw [if_neg hopens, if_neg hopens]
      exact (List.append_nil _).symm

theorem append_returns (h : (append json aes log c).2 = some (.ok ())) :
    ∃ text, c.text json aes = some text ∧ c.attempt json aes = ⟨text, c.written⟩ ∧
      text.length < c.written := by
  rcases htext : c.text json aes with - | text
  · rw [append_of_none htext] at h
    cases h
  · rw [append_of_text htext] at h
    split_ifs at h with hopens hcrash hshort
    · cases h
    rotate_left
    · cases h
    refine ⟨text, rfl, by rw [attempt_of_text htext, if_pos hopens], ?_⟩
    rwa [List.length_append, List.length_singleton, Nat.not_lt] at hshort

theorem after_concat (calls : List AppendCall) (c : AppendCall) :
    after json aes (calls ++ [c]) = (append json aes (after json aes calls) c).1 := by
  rw [after, List.foldl_append]
  rfl

theorem after_file (calls : List AppendCall) :
    (after json aes calls).getD [] = file newline (calls.map (AppendCall.attempt json aes)) := by
  induction calls using List.reverseRecOn with
  | nil => rfl
  | append_singleton calls c ih =>
    rw [after_concat, append_file, ih, List.map_append, file, file, List.flatMap_append]
    exact congrArg _ (List.append_nil _).symm

theorem text_digits (h : c.text json aes = some text) : ∀ d ∈ text, d ∈ digits := by
  obtain ⟨sealed, -, rfl⟩ := Option.map_eq_some_iff.mp h
  exact fun d => hexEncode_digits

theorem text_ne_nil (h : c.text json aes = some text) : text ≠ [] := by
  obtain ⟨sealed, hseal, rfl⟩ := Option.map_eq_some_iff.mp h
  intro hnil
  have hlen := hexEncode_length sealed
  rw [hnil] at hlen
  have hpos := List.length_pos_of_ne_nil (AesGcm.gcmSeal_ne_nil hseal)
  rw [List.length_nil] at hlen
  omega

theorem attempt_text (c : AppendCall) :
    (c.attempt json aes).text = [] ∨ c.text json aes = some (c.attempt json aes).text := by
  rcases htext : c.text json aes with - | text
  · rw [attempt_of_none htext]
    exact .inl rfl
  · rw [attempt_of_text htext]
    exact .inr rfl

theorem attempt_digits (c : AppendCall) : ∀ d ∈ (c.attempt json aes).text, d ∈ digits := by
  rcases attempt_text c with hnil | htext
  · rw [hnil]
    exact nofun
  · exact text_digits htext

theorem newline_notMem_attempts (calls : List AppendCall) :
    ∀ a ∈ calls.map (AppendCall.attempt json aes), newline ∉ a.text := by
  intro a ha hmem
  obtain ⟨c, -, rfl⟩ := List.mem_map.mp ha
  exact absurd (attempt_digits c _ hmem) (by decide)

theorem attempts_ne_nil (calls : List AppendCall) :
    ∀ a ∈ calls.map (AppendCall.attempt json aes), 0 < a.taken → a.text ≠ [] := by
  intro a ha htaken
  obtain ⟨c, -, rfl⟩ := List.mem_map.mp ha
  rcases htext : c.text json aes with - | text
  · rw [attempt_of_none htext] at htaken
    exact absurd htaken (Nat.lt_irrefl _)
  · rw [attempt_of_text htext]
    exact text_ne_nil htext

/-! ## What is read back -/

/-- The libraries do on the rows of a history what they are documented to do. -/
structure Libraries (json : JsonLibrary) (aes : AesGcm) (calls : List AppendCall) : Prop where
  keeps : ∀ c ∈ calls, json.Keeps (sessionRow c.sessionId c.ip c.created)
  opens : aes.Opens (calls.filterMap fun c =>
    c.nonce.map fun nonce => (nonce, sessionRowToJson json c.sessionId c.ip c.created))

theorem readLine_text (hlib : Libraries json aes calls) (hc : c ∈ calls)
    (h : c.text json aes = some text) :
    readLine json aes text = some (c.sessionId, ⟨c.ip, c.created⟩) := by
  have hne := text_ne_nil h
  obtain ⟨sealed, hseal, rfl⟩ := Option.map_eq_some_iff.mp h
  obtain ⟨nonce, hnonce, -⟩ := Option.map_eq_some_iff.mp hseal
  rw [hnonce] at hseal
  have hopen : aes.gcmOpen sealed = some (sessionRowToJson json c.sessionId c.ip c.created) := by
    refine hlib.opens.gcmOpen_iff.mpr ⟨nonce, List.mem_filterMap.mpr ⟨c, hc, ?_⟩, hseal⟩
    rw [hnonce]
    rfl
  unfold readLine
  rw [if_neg (by rwa [List.isEmpty_iff]), hexDecode_hexEncode]
  show (aes.gcmOpen sealed).bind _ = _
  rw [hopen]
  exact sessionRowFromJson_toJson (hlib.keeps c hc)

theorem text_of_readLine (hlib : Libraries json aes calls) {line : Bytes}
    (hlower : ∀ d ∈ line, d ∈ digits) {row : Bytes × SessionInfo}
    (h : readLine json aes line = some row) : ∃ c ∈ calls, c.text json aes = some line := by
  unfold readLine at h
  split_ifs at h
  obtain ⟨sealed, hdecode, h⟩ := Option.bind_eq_some_iff.mp h
  obtain ⟨plain, hopen, -⟩ := Option.bind_eq_some_iff.mp h
  obtain ⟨nonce, hused, hseal⟩ := hlib.opens.gcmOpen_iff.mp hopen
  obtain ⟨c, hc, hpair⟩ := List.mem_filterMap.mp hused
  obtain ⟨nonce', hnonce, hpair⟩ := Option.map_eq_some_iff.mp hpair
  cases hpair
  refine ⟨c, hc, ?_⟩
  rw [AppendCall.text, hnonce, hseal, hexEncode_of_hexDecode hlower hdecode]
  rfl

theorem line_digits {line : Line UInt8}
    (hline : line ∈ (layout (calls.map (AppendCall.attempt json aes))).lines) :
    ∀ d ∈ line.text, d ∈ digits := by
  intro d hd
  obtain ⟨p, hp, hin⟩ := List.mem_flatMap.mp hd
  obtain ⟨a, ha, hleaves⟩ := (layout_sound _).piece line hline p hp
  obtain ⟨c, -, rfl⟩ := List.mem_map.mp (List.mem_of_getElem? ha)
  exact attempt_digits c d (hleaves.begins.subset hin)

theorem loadAll_getD (file : Option Bytes) :
    loadAll json aes file = loadLoop json aes (file.getD []) fun _ => none := by
  cases file with
  | none => rw [Option.getD_none, loadLoop, if_pos rfl]; rfl
  | some file => rfl

theorem loadAll_after (calls : List AppendCall) : loadAll json aes (after json aes calls) =
    (layout (calls.map (AppendCall.attempt json aes))).lines.foldl
      (put fun line => readLine json aes line.text) fun _ => none := by
  rw [loadAll_getD, loadLoop_eq, after_file, splitOn_file (newline_notMem_attempts calls),
    List.foldl_map]
  rfl

structure Kept (json : JsonLibrary) (aes : AesGcm) (calls : List AppendCall)
    (sessions : Bytes → Option SessionInfo) : Prop where
  acknowledged : ∀ i c, calls[i]? = some c →
    (append json aes (after json aes (calls.take i)) c).2 = some (.ok ()) →
    ∃ j d, calls[j]? = some d ∧ d.sessionId = c.sessionId ∧
      sessions c.sessionId = some ⟨d.ip, d.created⟩ ∧
      ∀ k e, calls[k]? = some e → e.sessionId = c.sessionId →
        (append json aes (after json aes (calls.take k)) e).2 = some (.ok ()) → k ≤ j
  attempted : ∀ id info, sessions id = some info → ∃ c ∈ calls, c.sessionId = id

def Genuine (json : JsonLibrary) (aes : AesGcm) (calls past : List AppendCall) : Prop :=
  ∀ line ∈ (layout (past.map (AppendCall.attempt json aes))).lines, ∀ d ∈ calls, d.text json aes =
    some line.text →
    ∃ i c, past[i]? = some c ∧ c.text json aes = some line.text ∧ line = [(i, line.text)]

section
variable (hlib : Libraries json aes calls) (hpast : past ⊆ calls)
  (hgenuine : Genuine json aes calls past)
include hlib hpast

theorem read_whole {i : ℕ} (hget : past[i]? = some c) (htext : c.text json aes = some text) :
    readLine json aes (Line.text [(i, text)]) = some (c.sessionId, ⟨c.ip, c.created⟩) := by
  have hline : Line.text [(i, text)] = text := List.append_nil _
  rw [hline]
  exact readLine_text hlib (hpast (List.mem_of_getElem? hget)) htext

include hgenuine in
theorem line_of_read {line : Line UInt8}
    (hline : line ∈ (layout (past.map (AppendCall.attempt json aes))).lines) {id : Bytes}
    {info : SessionInfo} (h : readLine json aes line.text = some (id, info)) :
    ∃ i c, past[i]? = some c ∧ c.sessionId = id ∧ info = ⟨c.ip, c.created⟩ ∧
      ∃ text, line = [(i, text)] := by
  obtain ⟨d, hd, hdtext⟩ := text_of_readLine hlib (line_digits hline) h
  obtain ⟨i, c, hget, htext, hwhole⟩ := hgenuine line hline d hd hdtext
  rw [readLine_text hlib (hpast (List.mem_of_getElem? hget)) htext] at h
  cases h
  exact ⟨i, c, hget, rfl, rfl, _, hwhole⟩

omit hlib hpast in
theorem acknowledged_line {i : ℕ} (hget : past[i]? = some c)
    (hok : (append json aes (after json aes (past.take i)) c).2 = some (.ok ()))
    (hfresh : Fresh newline ((after json aes (past.take i)).getD [])) :
    ∃ text, c.text json aes = some text ∧
      [(i, text)] ∈ (layout (past.map (AppendCall.attempt json aes))).lines := by
  obtain ⟨text, htext, hattempt, hcomplete⟩ := append_returns hok
  have hget' : (past.map (AppendCall.attempt json aes))[i]? = some ⟨text, c.written⟩ := by
    rw [List.getElem?_map, hget, Option.map_some, hattempt]
  rw [after_file] at hfresh
  have htail := tail_eq_nil (newline_notMem_attempts _) (attempts_ne_nil _) hfresh
  have hended := ended_line hget' hcomplete
  rw [← List.map_take, htail] at hended
  exact ⟨text, htext, List.mem_append_left _ hended⟩

include hgenuine in
theorem kept_of_genuine (hfresh : ∀ i c, past[i]? = some c →
      (append json aes (after json aes (past.take i)) c).2 = some (.ok ()) →
      Fresh newline ((after json aes (past.take i)).getD [])) :
    Kept json aes past (loadAll json aes (after json aes past)) := by
  rw [loadAll_after]
  refine ⟨fun i c hget hok => ?_, fun id info h => ?_⟩
  · obtain ⟨text, htext, hline⟩ := acknowledged_line hget hok (hfresh i c hget hok)
    rcases foldl_put (fun line : Line UInt8 => readLine json aes line.text)
      (fun _ => none) _ c.sessionId with
      ⟨hnone, -⟩ | ⟨before, line, later, info, hlines, hread, hlast, heq⟩
    · exact absurd (read_whole hlib hpast hget htext) (hnone _ hline _)
    · have hmem : line ∈ (layout (past.map (AppendCall.attempt json aes))).lines :=
        hlines ▸ List.mem_append_right _ List.mem_cons_self
      obtain ⟨j, d, hgetd, hid, rfl, text', rfl⟩ := line_of_read hlib hpast hgenuine hmem hread
      refine ⟨j, d, hgetd, hid, heq, fun k e hgete hide hoke => ?_⟩
      obtain ⟨texte, htexte, hlinee⟩ := acknowledged_line hgete hoke (hfresh k e hgete hoke)
      rw [hlines] at hlinee
      rcases List.mem_append.mp hlinee with hbefore | hlinee
      · exact ((layout_sound _).earlier hlines hbefore (List.mem_singleton_self _)
          (List.mem_singleton_self _)).le
      · rcases List.mem_cons.mp hlinee with hsame | hafter
        · cases hsame
          exact Nat.le_refl _
        · have hreade := read_whole hlib hpast hgete htexte
          rw [hide] at hreade
          exact absurd hreade (hlast _ hafter _)
  · rcases foldl_put (fun line : Line UInt8 => readLine json aes line.text)
      (fun _ => none) _ id with ⟨-, hnone⟩ | ⟨before, line, later, info', hlines, hread, -, -⟩
    · rw [hnone] at h
      cases h
    · obtain ⟨j, d, hgetd, hid, -⟩ := line_of_read hlib hpast hgenuine
        (hlines ▸ List.mem_append_right _ List.mem_cons_self) hread
      exact ⟨d, List.mem_of_getElem? hgetd, hid⟩

end

def bareJson : JsonLibrary where
  dump
    | .object ((_, .string sessionId) :: _) => sessionId
    | _ => []
  parse text := some (.object (sessionRow text [] 0))

def bareCall (session nonce : UInt8) (written : ℕ) : AppendCall :=
  ⟨[session], [], 0, some ⟨List.replicate 12 nonce, rfl⟩, true, written, false⟩

def bareAes (calls : List AppendCall) : AesGcm :=
  .ofList (calls.filterMap fun c => c.nonce.map fun nonce =>
    (nonce, sessionRowToJson bareJson c.sessionId c.ip c.created))

theorem bareLibraries {calls : List AppendCall} (h : ∀ c ∈ calls, c.ip = [] ∧ c.created = 0) :
    Libraries bareJson (bareAes calls) calls := by
  refine ⟨fun c hc => ?_, AesGcm.ofList_opens _⟩
  obtain ⟨hip, hcreated⟩ := h c hc
  rw [hip, hcreated]
  exact ⟨_, rfl, fun _ => rfl⟩

def keptCalls : List AppendCall := [bareCall 1 1 59, bareCall 2 2 2]

theorem keptCalls_lines : ∀ past ∈ keptCalls.inits,
    ∀ line ∈ (layout (past.map (AppendCall.attempt bareJson (bareAes keptCalls)))).lines,
      (∀ d ∈ keptCalls, d.text bareJson (bareAes keptCalls) ≠ some line.text) ∨
        past[0]? = some (bareCall 1 1 59) ∧ line = [(0, line.text)] ∧
          (bareCall 1 1 59).text bareJson (bareAes keptCalls) = some line.text := by
  decide

/-- In a history in which every call that returns true begins on a fresh line, and no line pieced
together from several writes reads as a sealed one, no acknowledged row is ever lost. -/
theorem sessions_kept (hlib : Libraries json aes calls)
    (hfresh : ∀ past c, past ++ [c] <+: calls →
      (append json aes (after json aes past) c).2 = some (.ok ()) →
      Fresh newline ((after json aes past).getD []))
    (hgenuine : ∀ past, past <+: calls → Genuine json aes calls past) :
    ∀ past, past <+: calls → Kept json aes past (loadAll json aes (after json aes past)) := by
  intro past hpast
  refine kept_of_genuine hlib hpast.subset (hgenuine past hpast) fun i c hget hok =>
    hfresh _ c ?_ hok
  obtain ⟨hlt, rfl⟩ := List.getElem?_eq_some_iff.mp hget
  rw [List.take_append_getElem]
  exact (List.take_prefix _ _).trans hpast

theorem sessions_kept_torn : keptCalls.length = 2 ∧ ∀ past, past <+: keptCalls →
    Kept bareJson (bareAes keptCalls) past
      (loadAll bareJson (bareAes keptCalls) (after bareJson (bareAes keptCalls) past)) := by
  refine ⟨rfl, sessions_kept (bareLibraries (by decide)) (fun past c hpast hok => ?_)
    fun past hpast line hline d hd h => ?_⟩
  · match past, hpast with
    | [], _ => exact .inl rfl
    | [_], hpast =>
      obtain ⟨rfl, h⟩ := List.cons_prefix_cons.mp hpast
      obtain ⟨rfl, -⟩ := List.cons_prefix_cons.mp h
      cases hok
    | _ :: _ :: rest, hpast =>
      have hlen := hpast.length_le
      rw [List.length_append] at hlen
      exact absurd hlen (by simp [keptCalls])
  · rcases keptCalls_lines past (List.mem_inits _ _ |>.mpr hpast) line
      hline with hnone | ⟨hget, hline, htext⟩
    · exact absurd h (hnone d hd)
    · exact ⟨0, _, hget, htext, hline⟩

def tornCalls : List AppendCall := [bareCall 1 1 2, bareCall 2 2 59]

/-- The second row stands behind the rest of the first, and its line cannot be opened. -/
theorem acknowledged_row_lost :
    Libraries bareJson (bareAes tornCalls) tornCalls ∧
      (append bareJson (bareAes tornCalls) (after bareJson (bareAes tornCalls) (tornCalls.take 1))
        (bareCall 2 2 59)).2 = some (.ok ()) ∧
      loadAll bareJson (bareAes tornCalls)
        (after bareJson (bareAes tornCalls) tornCalls) [2] = none ∧
      ¬Kept bareJson (bareAes tornCalls) tornCalls
        (loadAll bareJson (bareAes tornCalls) (after bareJson (bareAes tornCalls) tornCalls)) := by
  have hnone : loadAll bareJson (bareAes tornCalls) (after bareJson (bareAes tornCalls) tornCalls)
      [2] = none := by
    rw [loadAll_after]
    rfl
  refine ⟨bareLibraries (by decide), rfl, hnone, fun hkept => ?_⟩
  obtain ⟨j, d, -, -, hsome, -⟩ := hkept.acknowledged 1 (bareCall 2 2 59) rfl rfl
  rw [show (bareCall 2 2 59).sessionId = [2] from rfl, hnone] at hsome
  cases hsome

end Dicker.Server.SessionLog
