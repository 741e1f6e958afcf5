import Dicker.Lib.ReadModifyWrite
import Dicker.Server.TokenStore

/-! Invocations of `dicker-dbtool` that change the token store (server/dbtool.cxx). Each loads the
store, changes it in memory and replaces the file; any number of them run at once. -/

namespace Dicker.Server.TokenTool
open Lib ReadModifyWrite Relation

inductive Command where
  | addToken (token : Bytes)
  | delToken (token : Bytes)

def Command.token : Command → Bytes
  | addToken token => token
  | delToken token => token

def Command.modify : Command → List Bytes → Option (List Bytes)
  | addToken token, tokens => if token ∈ tokens then none else some (tokens ++ [token])
  | delToken token, tokens =>
    let kept := tokens.filter (· != token)
    if kept.length = tokens.length then none else some kept

inductive Report where
  | loadFailed (err : String)
  | alreadyPresent
  | notFound
  | saveFailed (err : String)
  | added (total : ℕ)
  | removed (total : ℕ)

def Report.text (tokensPath : String) : Report → String
  | loadFailed err => "load " ++ tokensPath ++ ": " ++ err ++ "\n"
  | alreadyPresent => "token already present\n"
  | notFound => "token not found\n"
  | saveFailed err => "save " ++ tokensPath ++ ": " ++ err ++ "\n"
  | added total => "added token (" ++ toString total ++ " total)\n"
  | removed total => "removed token (" ++ toString total ++ " total)\n"

def Report.exitCode : Report → ℕ
  | loadFailed _ | saveFailed _ => 1
  | _ => 0

def Command.nothingToDo : Command → Report
  | addToken _ => .alreadyPresent
  | delToken _ => .notFound

def Command.saved (total : ℕ) : Command → Report
  | addToken _ => .added total
  | delToken _ => .removed total

inductive Progress where
  | started
  | saving (loaded tokens : List Bytes)
  | exited (report : Report)

structure Host (ι : Type) where
  disk : Disk Bytes
  progress : ι → Progress

inductive Event (ι : Type) where
  | load (i : ι)
  | save (i : ι) (pid : ℕ) (nonce : Option (Block kNonceSize)) (calls : AtomicWrite.Syscalls)

variable {ι : Type} [DecidableEq ι] (json : JsonLibrary) (aes : AesGcm)
  (command : ι → Command) (path : Bytes)

def Host.exit (host : Host ι) (i : ι) (report : Report) : Host ι :=
  { host with progress := Function.update host.progress i (.exited report) }

def Host.step (host : Host ι) : Event ι → Host ι
  | .load i =>
    match host.progress i with
    | .started =>
      match TokenStore.load json aes (host.disk.read path) with
      | .error err => host.exit i (.loadFailed err)
      | .ok loaded =>
        match (command i).modify loaded with
        | none => host.exit i (command i).nothingToDo
        | some tokens =>
          { host with progress := Function.update host.progress i (.saving loaded tokens) }
    | _ => host
  | .save i pid nonce calls =>
    match host.progress i with
    | .saving _ tokens =>
      match AtomicWrite.host.answered calls
        (TokenStore.save json aes path pid nonce tokens) host.disk with
      | (.error err, disk) => { host.exit i (.saveFailed err) with disk := disk }
      | (.ok (), disk) => { host.exit i ((command i).saved tokens.length) with disk := disk }
    | _ => host

def Host.run (d : Disk Bytes) (events : List (Event ι)) : Host ι :=
  events.foldl (Host.step json aes command path) ⟨d, fun _ => .started⟩

theorem run_concat (d : Disk Bytes) (events : List (Event ι)) (e : Event ι) :
    Host.run json aes command path d (events ++ [e]) =
      (Host.run json aes command path d events).step json aes command path e := by
  rw [Host.run, List.foldl_append]
  rfl

def Host.Succeeded (host : Host ι) : Prop :=
  ∀ i, ∃ report, host.progress i = .exited report ∧ report.exitCode = 0

/-- An invocation replaces the file only while the store is the one it has loaded. -/
def Host.Undisturbed (host : Host ι) : Event ι → Prop
  | .load _ => True
  | .save i pid nonce calls => ∀ loaded tokens, host.progress i = .saving loaded tokens →
      (AtomicWrite.host.answered calls (TokenStore.save json aes path pid nonce tokens)
        host.disk).1 = .ok () →
      TokenStore.load json aes (host.disk.read path) = .ok loaded

/-! ## One after another -/

abbrev inTurn (order : List ι) (tokens : List Bytes) : List Bytes :=
  serially (fun i => (command i).modify) order tokens

variable {tokens : List Bytes} {token : Bytes}

theorem Command.modify_known {c : Command} {tokens' : List Bytes}
    (h : c.modify tokens = some tokens') {t : Bytes} (ht : t ∈ tokens') :
    t ∈ tokens ∨ c.token = t := by
  cases c with
  | addToken token =>
    rw [modify] at h
    split_ifs at h
    cases h
    rcases List.mem_append.mp ht with ht | ht
    · exact .inl ht
    · exact .inr (List.mem_singleton.mp ht).symm
  | delToken token =>
    rw [modify] at h
    split_ifs at h
    cases h
    exact .inl (List.mem_of_mem_filter ht)

theorem Command.modify_absent {c : Command} (hc : c ≠ .addToken token) (h : token ∉ tokens) :
    token ∉ (c.modify tokens).getD tokens := by
  cases c with
  | addToken other =>
    have hne : token ≠ other := fun heq => hc (heq ▸ rfl)
    rw [modify]
    split_ifs
    · exact h
    · intro hmem
      rcases List.mem_append.mp hmem with hmem | hmem
      · exact h hmem
      · exact hne (List.mem_singleton.mp hmem)
  | delToken other =>
    rw [modify]
    split_ifs
    · exact h
    · exact fun hmem => h (List.mem_of_mem_filter hmem)

theorem Command.delToken_absent (token : Bytes) (tokens : List Bytes) :
    token ∉ ((Command.delToken token).modify tokens).getD tokens := by
  rw [modify]
  split_ifs with hsame
  · intro hmem
    have hkept := List.length_filter_eq_length_iff.mp hsame token hmem
    exact absurd hkept (by simp)
  · intro hmem
    have hkept := (List.mem_filter.mp hmem).2
    exact absurd hkept (by simp)

section
variable {command}

omit [DecidableEq ι] in
theorem inTurn_absent (hadd : ∀ j, command j ≠ .addToken token) (order : List ι)
    (h : token ∉ tokens) : token ∉ inTurn command order tokens := by
  induction order generalizing tokens with
  | nil => exact h
  | cons j order ih => exact ih (Command.modify_absent (hadd j) h)

omit [DecidableEq ι] in
theorem inTurn_deleted (hadd : ∀ j, command j ≠ .addToken token) {i : ι}
    (hdel : command i = .delToken token) {order : List ι} (hi : i ∈ order) (tokens : List Bytes) :
    token ∉ inTurn command order tokens := by
  obtain ⟨before, after, rfl⟩ := List.append_of_mem hi
  have hgone := Command.delToken_absent token (inTurn command before tokens)
  rw [← hdel] at hgone
  have hafter := inTurn_absent hadd after hgone
  rwa [inTurn, serially, List.foldl_append]

end

/-! ## The invocations refine their turns -/

def Known (file : Option Bytes) (t : Bytes) : Prop :=
  (∃ tokens, TokenStore.load json aes file = .ok tokens ∧ t ∈ tokens) ∨ ∃ i, (command i).token = t

variable (known : Bytes → Prop)

def Agrees : Progress → Phase (List Bytes) → Prop
  | .started, phase => phase = .idle
  | .saving loaded tokens, phase => phase = .holding loaded tokens ∧ ∀ t ∈ tokens, known t
  | .exited report, phase => report.exitCode = 0 → phase = .done

structure Refines (host : Host ι) (turns : ReadModifyWrite.State ι (List Bytes)) : Prop where
  loads : TokenStore.load json aes (host.disk.read path) = .ok turns.value
  knows : ∀ t ∈ turns.value, known t
  agrees : ∀ i, Agrees known (host.progress i) (turns.phase i)

variable {json aes command path known}

theorem agrees_update {progress : ι → Progress} {phase : ι → Phase (List Bytes)}
    (h : ∀ i, Agrees known (progress i) (phase i)) (i : ι) {p : Progress} {q : Phase (List Bytes)}
    (hi : Agrees known p q) :
    ∀ j, Agrees known (Function.update progress i p j) (Function.update phase i q j) := by
  intro j
  rcases eq_or_ne j i with rfl | hne
  · rwa [Function.update_self, Function.update_self]
  · rw [Function.update_of_ne hne, Function.update_of_ne hne]
    exact h j

theorem Refines.fails {host : Host ι} {turns : ReadModifyWrite.State ι (List Bytes)}
    (h : Refines json aes path known host turns) (i : ι) {report : Report}
    (hcode : report.exitCode ≠ 0) {disk : Disk Bytes}
    (hread : disk.read path = host.disk.read path) :
    Refines json aes path known { host.exit i report with disk := disk } turns := by
  refine ⟨hread ▸ h.loads, h.knows, ?_⟩
  have hagrees :=
    agrees_update h.agrees i (p := .exited report) (q := turns.phase i) fun hzero =>
      absurd hzero hcode
  rwa [Function.update_eq_self] at hagrees

theorem exitCode_nothingToDo (c : Command) : c.nothingToDo.exitCode = 0 := by cases c <;> rfl

theorem exitCode_saved (c : Command) (total : ℕ) :
    (c.saved total).exitCode = 0 := by cases c <;> rfl

section
variable (haes : aes.RoundTrips) (hjson : ∀ tokens, (∀ t ∈ tokens, known t) →
  json.Keeps (TokenStore.tokensDoc tokens)) (hcommand : ∀ i, known (command i).token)
include haes hjson hcommand

theorem Refines.step {host : Host ι} {turns : ReadModifyWrite.State ι (List Bytes)}
    (h : Refines json aes path known host turns) {e : Event ι}
    (hundisturbed : host.Undisturbed json aes path e) :
    ∃ turns', ReflTransGen (Step fun i => (command i).modify) turns turns' ∧
      Refines json aes path known (host.step json aes command path e) turns' := by
  cases e with
  | load i =>
    have hi := h.agrees i
    rw [Host.step]
    rcases hprogress : host.progress i with - | ⟨loaded, tokens⟩ | report <;> rw [hprogress] at hi
    · dsimp only
      rw [h.loads]
      dsimp only
      rcases hmodify : (command i).modify turns.value with - | tokens
      · refine ⟨_, .single (.pass i hi hmodify), h.loads, h.knows, ?_⟩
        exact agrees_update h.agrees i (p := .exited _) fun _ => rfl
      · refine ⟨_, .single (.take i hi hmodify), h.loads, h.knows, ?_⟩
        refine agrees_update h.agrees i (p := .saving _ _) ⟨rfl, fun t ht => ?_⟩
        rcases Command.modify_known hmodify ht with hold | hnew
        · exact h.knows t hold
        · exact hnew ▸ hcommand i
    · exact ⟨turns, .refl, h⟩
    · exact ⟨turns, .refl, h⟩
  | save i pid nonce calls =>
    have hi := h.agrees i
    rw [Host.step]
    rcases hprogress : host.progress i with - | ⟨loaded, tokens⟩ | report <;> rw [hprogress] at hi
    · exact ⟨turns, .refl, h⟩
    · obtain ⟨hholding, hknown⟩ := hi
      have hexec := TokenStore.save_answered json tokens aes path pid nonce host.disk calls
      have hloaded := hundisturbed loaded tokens hprogress
      dsimp only
      generalize AtomicWrite.host.answered calls _ host.disk = saved at hexec hloaded ⊢
      obtain ⟨err | _, disk⟩ := saved
      · have hcode : (Report.saveFailed err).exitCode ≠ 0 := Nat.one_ne_zero
        exact ⟨turns, .refl, h.fails i hcode (TokenStore.save_error hexec)⟩
      · -- the value the invocation has loaded is still there, so its turn is now
        have hvalue := hloaded rfl
        rw [h.loads] at hvalue
        cases hvalue
        refine ⟨_, .single (.put i hholding),
          TokenStore.save_loads haes (hjson tokens hknown) hexec, hknown, ?_⟩
        exact agrees_update h.agrees i (p := .exited _) fun _ => rfl
    · exact ⟨turns, .refl, h⟩

theorem refines_run {d : Disk Bytes} (hload : TokenStore.load json aes (d.read path) = .ok tokens)
    (hknown : ∀ t ∈ tokens, known t) {events : List (Event ι)}
    (hundisturbed : ∀ k e, events[k]? = some e →
      (Host.run json aes command path d (events.take k)).Undisturbed json aes path e) :
    ∃ turns, ReflTransGen (Step fun i => (command i).modify) (start tokens) turns ∧
      Refines json aes path known (Host.run json aes command path d events) turns := by
  induction events using List.reverseRecOn with
  | nil => exact ⟨start tokens, .refl, hload, hknown, fun _ => rfl⟩
  | append_singleton events e ih =>
    have hearlier : ∀ k e', events[k]? = some e' →
        (Host.run json aes command path d (events.take k)).Undisturbed json aes path e' := by
      intro k e' hget
      have hlt := (List.getElem?_eq_some_iff.mp hget).1
      have hk := hundisturbed k e' ((List.getElem?_append_left hlt).trans hget)
      rwa [List.take_append_of_le_length hlt.le] at hk
    have hlast := hundisturbed events.length e List.getElem?_concat_length
    rw [List.take_left] at hlast
    obtain ⟨turns, hturns, hrefines⟩ := ih hearlier
    obtain ⟨turns', hturns', hrefines'⟩ := hrefines.step haes hjson hcommand hlast
    refine ⟨turns', hturns.trans hturns', ?_⟩
    rwa [run_concat]

end

theorem run_unreadable {d : Disk Bytes} {err : String}
    (hload : TokenStore.load json aes (d.read path) = .error err) (events : List (Event ι)) :
    (Host.run json aes command path d events).disk = d ∧
      ∀ i, (Host.run json aes command path d events).progress i = .started ∨
        (Host.run json aes command path d events).progress i = .exited (.loadFailed err) := by
  induction events using List.reverseRecOn with
  | nil => exact ⟨rfl, fun _ => .inl rfl⟩
  | append_singleton events e ih =>
    rw [run_concat]
    generalize Host.run json aes command path d events = host at ih ⊢
    obtain ⟨rfl, hall⟩ := ih
    cases e with
    | load i =>
      rw [Host.step]
      rcases hall i with hi | hi <;> rw [hi]
      · dsimp only
        rw [hload]
        refine ⟨rfl, fun j => ?_⟩
        show Function.update host.progress i _ j = _ ∨ Function.update host.progress i _ j = _
        rcases eq_or_ne j i with rfl | hne
        · exact .inr (Function.update_self ..)
        · rw [Function.update_of_ne hne]
          exact hall j
      · exact ⟨rfl, hall⟩
    | save i pid nonce calls =>
      rw [Host.step]
      rcases hall i with hi | hi <;> rw [hi] <;> exact ⟨rfl, hall⟩

def byteJson : JsonLibrary where
  dump
    | .object ((_, .array items) :: _) => items.flatMap fun
      | .string token => token
      | _ => []
    | _ => []
  parse text := some (.object (TokenStore.tokensDoc (text.map ([·]))))

theorem byteJson_keeps (h : ∀ t ∈ tokens, t.length = 1) :
    byteJson.Keeps (TokenStore.tokensDoc tokens) := by
  refine ⟨TokenStore.tokensDoc tokens, ?_, fun _ => rfl⟩
  have htext : (byteJson.dump (.object (TokenStore.tokensDoc tokens))).map ([·]) = tokens := by
    show ((tokens.map Json.string).flatMap _).map _ = tokens
    induction tokens with
    | nil => rfl
    | cons t tokens ih =>
      obtain ⟨b, rfl⟩ := List.length_eq_one_iff.mp (h t List.mem_cons_self)
      rw [List.map_cons, List.flatMap_cons, List.map_append,
        ih fun t' ht' => h t' (List.mem_cons_of_mem _ ht')]
      rfl
  show some (Json.object (TokenStore.tokensDoc ((byteJson.dump _).map _))) = _
  rw [htext]

def oneToken : Disk Bytes := AtomicWrite.oneFile [0x74] (List.replicate 28 0 ++ [1])

def revoking : Bool → Command
  | false => .delToken [1]
  | true => .addToken [2]

theorem revoking_keeps (tokens : List Bytes)
    (h : ∀ t ∈ tokens, Known byteJson .bare revoking (oneToken.read [0x74]) t) :
    byteJson.Keeps (TokenStore.tokensDoc tokens) := by
  refine byteJson_keeps fun t ht => ?_
  rcases h t ht with ⟨tokens', hload, hmem⟩ | ⟨i, rfl⟩
  · cases hload
    rw [List.mem_singleton.mp hmem]
    rfl
  · cases i <;> rfl

/-- In a run in which every invocation replaces the file only while the store is the one it has
loaded, the invocations have taken turns. -/
theorem tokens_in_turn {d : Disk Bytes} {events : List (Event ι)} (haes : aes.RoundTrips)
    (hjson : ∀ tokens, (∀ t ∈ tokens, Known json aes command (d.read path) t) →
      json.Keeps (TokenStore.tokensDoc tokens))
    (hundisturbed : ∀ k e, events[k]? = some e →
      (Host.run json aes command path d (events.take k)).Undisturbed json aes path e)
    (hsucceeded : (Host.run json aes command path d events).Succeeded) :
    (∃ order : List ι, order.Nodup ∧ (∀ i, i ∈ order) ∧
      TokenStore.load json aes ((Host.run json aes command path d events).disk.read path) =
        (TokenStore.load json aes (d.read path)).map (inTurn command order)) ∧
    ∀ i token, command i = .delToken token → (∀ j, command j ≠ .addToken token) →
      TokenStore.verifyToken json aes ((Host.run json aes command path d events).disk.read path)
        token = false := by
  have hturns : ∃ order : List ι, order.Nodup ∧ (∀ i, i ∈ order) ∧
      TokenStore.load json aes ((Host.run json aes command path d events).disk.read path) =
        (TokenStore.load json aes (d.read path)).map (inTurn command order) := by
    rcases hload : TokenStore.load json aes (d.read path) with err | tokens
    · -- a store that cannot be loaded fails every invocation, so that there can have been none
      obtain ⟨hdisk, hall⟩ := run_unreadable hload events
      refine ⟨[], List.nodup_nil, fun i => ?_, by rw [hdisk, hload]; rfl⟩
      obtain ⟨report, hexited, hcode⟩ := hsucceeded i
      rcases hall i with hi | hi <;> rw [hi] at hexited <;> cases hexited
      cases hcode
    · obtain ⟨turns, hreaches, hrefines⟩ := refines_run haes hjson (fun i => .inr ⟨i, rfl⟩) hload
        (fun t ht => .inl ⟨tokens, hload, ht⟩) hundisturbed
      obtain ⟨order, horder⟩ := serial_of_reaches hreaches
      refine ⟨order, horder.nodup, fun i => (horder.done i).mpr ?_, ?_⟩
      · obtain ⟨report, hexited, hcode⟩ := hsucceeded i
        have hi := hrefines.agrees i
        rw [hexited] at hi
        exact hi hcode
      · rw [hrefines.loads, horder.value]
        rfl
  refine ⟨hturns, fun i token hdel hadd => ?_⟩
  obtain ⟨order, -, hall, hfinal⟩ := hturns
  rw [Bool.eq_false_iff, Ne, TokenStore.verifyToken_iff, hfinal]
  rintro ⟨tokens', hload', hmem⟩
  rcases hload : TokenStore.load json aes (d.read path) with err | tokens <;> rw [hload] at hload'
  · cases hload'
  · cases hload'
    exact inTurn_deleted hadd hdel (hall i) tokens hmem

/-! ## Two invocations -/

def saving (i : Bool) : Event Bool :=
  .save i 1 (some ⟨List.replicate 12 0, rfl⟩) AtomicWrite.succeeding

def after (events : List (Event Bool)) : Host Bool :=
  Host.run byteJson .bare revoking [0x74] oneToken events

section
variable {events : List (Event Bool)} {disk : Disk Bytes} {progress : Bool → Progress} {i : Bool}
  {loaded : List Bytes}

theorem after_load (h : after events = ⟨disk, progress⟩) (hprogress : progress i = .started)
    (hload : TokenStore.load byteJson .bare (disk.read [0x74]) = .ok loaded)
    (hmodify : (revoking i).modify loaded = some tokens) :
    after (events ++ [.load i]) = ⟨disk, Function.update progress i (.saving loaded tokens)⟩ := by
  rw [after, run_concat, show Host.run _ _ _ _ _ _ = _ from h, Host.step]
  dsimp only
  rw [hprogress]
  dsimp only
  rw [hload]
  dsimp only
  rw [hmodify]

theorem after_saving (h : after events = ⟨disk, progress⟩)
    (hprogress : progress i = .saving loaded tokens)
    (hjson : byteJson.Keeps (TokenStore.tokensDoc tokens)) : ∃ disk',
      after (events ++ [saving i]) =
        ⟨disk', Function.update progress i (.exited ((revoking i).saved tokens.length))⟩ ∧
      TokenStore.load byteJson .bare (disk'.read [0x74]) = .ok tokens := by
  have hexec := TokenStore.save_answered byteJson tokens .bare [0x74] 1
    (some ⟨List.replicate 12 0, rfl⟩) disk AtomicWrite.succeeding
  have hok :=
    TokenStore.save_succeeding byteJson tokens .bare [0x74] 1 disk ⟨List.replicate 12 0, rfl⟩
  rw [after, run_concat, show Host.run _ _ _ _ _ _ = _ from h, saving, Host.step]
  dsimp only
  rw [hprogress]
  dsimp only
  generalize AtomicWrite.host.answered AtomicWrite.succeeding _ disk = saved at hexec hok ⊢
  obtain ⟨result, disk'⟩ := saved
  obtain rfl : result = .ok () := hok
  exact ⟨disk', rfl, TokenStore.save_loads AesGcm.bare_roundTrips hjson hexec⟩

end

theorem tokens_in_turn_two :
    (after [.load false, saving false, .load true, saving true]).Succeeded ∧
    TokenStore.verifyToken byteJson .bare
      ((after [.load false, saving false, .load true, saving true]).disk.read [0x74])
      [1] = false := by
  have hload : after [.load false] =
      ⟨oneToken, Function.update (fun _ => .started) false (.saving [[1]] [])⟩ := rfl
  obtain ⟨d₁, hdeleted, hempty⟩ := after_saving hload (i := false) rfl (byteJson_keeps nofun)
  have hloaded := after_load hdeleted (i := true) rfl hempty rfl
  obtain ⟨d₂, hadded, -⟩ := after_saving hloaded (i := true) rfl (byteJson_keeps (by decide))
  have hsucceeded : (after [.load false, saving false, .load true, saving true]).Succeeded := by
    intro i
    rw [show after [.load false, saving false, .load true, saving true] = _ from hadded]
    cases i
    · exact ⟨_, rfl, rfl⟩
    · exact ⟨_, rfl, rfl⟩
  refine ⟨hsucceeded,
    (tokens_in_turn AesGcm.bare_roundTrips revoking_keeps (fun k e hget => ?_) hsucceeded).2
    false [1] rfl fun j => ?_⟩
  · rcases k with _ | _ | _ | _ | k <;> cases hget
    · trivial
    · rintro loaded tokens hprogress -
      cases hprogress
      rfl
    · trivial
    · intro loaded tokens hprogress _
      change (after [.load false, saving false, .load true]).progress true = _ at hprogress
      change TokenStore.load _ _ ((after [.load false, saving false, .load true]).disk.read _) = _
      rw [show after [.load false, saving false, .load true] = _ from hloaded] at hprogress ⊢
      cases hprogress
      exact hempty
  · cases j <;> exact nofun

/-- The deletion that was reported is lost under the other invocation's replacement. -/
theorem revoked_token_accepted :
    (after [.load false, .load true, saving false, saving true]).Succeeded ∧
    TokenStore.verifyToken byteJson .bare
      ((after [.load false, .load true, saving false, saving true]).disk.read [0x74]) [1] = true ∧
    ¬∃ order : List Bool, order.Nodup ∧ (∀ i, i ∈ order) ∧
      TokenStore.load byteJson .bare
        ((after [.load false, .load true, saving false, saving true]).disk.read [0x74]) =
        (TokenStore.load byteJson .bare (oneToken.read [0x74])).map (inTurn revoking order) := by
  have hboth : after [.load false, .load true] =
      ⟨oneToken, Function.update (Function.update (fun _ => .started) false
      (.saving [[1]] [])) true (.saving [[1]] [[1], [2]])⟩ := rfl
  obtain ⟨d₁, hdeleted, -⟩ := after_saving hboth (i := false) rfl (byteJson_keeps nofun)
  obtain ⟨d₂, hadded, hloaded⟩ := after_saving hdeleted (i := true) rfl (byteJson_keeps (by decide))
  rw [show after [.load false, .load true, saving false, saving true] = _ from hadded]
  refine ⟨fun i => ?_, ?_, ?_⟩
  · cases i
    · exact ⟨_, rfl, rfl⟩
    · exact ⟨_, rfl, rfl⟩
  · exact TokenStore.verifyToken_iff.mpr ⟨_, hloaded, List.mem_cons_self⟩
  · rintro ⟨order, -, hall, hfinal⟩
    rw [hloaded] at hfinal
    have hadd : ∀ j, revoking j ≠ .addToken [1] := by
      rintro (_ | _) <;> exact nofun
    have hdel : revoking false = .delToken [1] := rfl
    have hgone := inTurn_deleted hadd hdel (hall false) [[1]]
    have heq : [[1], [2]] = inTurn revoking order [[1]] := Except.ok.inj hfinal
    rw [← heq] at hgone
    exact hgone List.mem_cons_self

end Dicker.Server.TokenTool
