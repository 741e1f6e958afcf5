import Dicker.Server.TokenTool

/-! One invocation of `dicker-dbtool` on the disk: it reads the token file, changes the tokens and
replaces the file. `read_file` reports a file that it cannot open as missing. -/

namespace Dicker.Server.TokenFile
open Lib Thread Host AtomicWrite

section
variable (json : JsonLibrary) (aes : AesGcm)

def change (c : TokenTool.Command) (path : Bytes) (pid : ℕ) (nonce : Option (Block kNonceSize))
    (loaded : List Bytes) :
    DiskM TokenTool.Report :=
  match c.modify loaded with
  | none => return c.nothingToDo
  | some tokens => do
    match ← TokenStore.save json aes path pid nonce tokens with
    | .error err => return .saveFailed err
    | .ok () => return c.saved tokens.length

def main (c : TokenTool.Command) (opens : Bool) (path : Bytes) (pid : ℕ)
    (nonce : Option (Block kNonceSize)) :
    DiskM TokenTool.Report := do
  match TokenStore.load json aes (← TokenStore.readFile opens path) with
  | .error err => return .loadFailed err
  | .ok loaded => change json aes c path pid nonce loaded

def Invokes (c : TokenTool.Command) (opens : Bool) (path : Bytes) (d : Disk Bytes)
    (report : TokenTool.Report) (d' : Disk Bytes) : Prop :=
  ∃ pid nonce, host.Exec (main json aes c opens path pid nonce) d () report d' ()

def Unreadable (opens : Bool) (content : Option Bytes) : Prop :=
  ∃ bytes, content = some bytes ∧
    (opens = false ∨ ∃ err, TokenStore.load json aes (some bytes) = .error err)

def Keeps (edit : List Bytes → List Bytes) (opens : Bool) (before : Option Bytes)
    (report : TokenTool.Report) (after : Option Bytes) : Prop :=
  (Unreadable json aes opens before → report.exitCode ≠ 0 ∧ after = before) ∧
  (¬Unreadable json aes opens before → report.exitCode = 0 →
    ∃ old, TokenStore.load json aes before = .ok old ∧
    TokenStore.load json aes after = .ok (edit old))

end

def edit : TokenTool.Command → List Bytes → List Bytes
  | .addToken token, tokens => if tokens.contains token then tokens else tokens ++ [token]
  | .delToken token, tokens => tokens.filter (· != token)

theorem edit_of_none {c : TokenTool.Command} {tokens : List Bytes} (h : c.modify tokens = none) :
    edit c tokens = tokens := by
  cases c with
  | addToken token =>
    rw [TokenTool.Command.modify] at h
    split_ifs at h with hmem
    exact if_pos (List.contains_iff_mem.mpr hmem)
  | delToken token =>
    rw [TokenTool.Command.modify] at h
    split_ifs at h with hsame
    exact List.filter_eq_self.mpr (List.length_filter_eq_length_iff.mp hsame)

theorem edit_of_some {c : TokenTool.Command} {tokens tokens' : List Bytes}
    (h : c.modify tokens = some tokens') : edit c tokens = tokens' := by
  cases c with
  | addToken token =>
    rw [TokenTool.Command.modify] at h
    split_ifs at h with hmem
    cases h
    exact if_neg (hmem ∘ List.contains_iff_mem.mp)
  | delToken token =>
    rw [TokenTool.Command.modify] at h
    split_ifs at h
    cases h
    rfl

variable {json : JsonLibrary} {aes : AesGcm} {c : TokenTool.Command} {opens : Bool} {path : Bytes}
  {d d' : Disk Bytes} {report : TokenTool.Report}

section
variable {pid : ℕ} {nonce : Option (Block kNonceSize)}

theorem exec_main_error {err : String}
    (h : TokenStore.load json aes (if opens then d.read path else none) = .error err) :
    host.Exec (main json aes c opens path pid nonce) d () report d' () ↔
      report = .loadFailed err ∧ d' = d := by
  refine exec_get.trans ?_
  show host.Exec (match TokenStore.load json aes (if opens then d.read path else none) with
    | .error err => _
    | .ok loaded => _) d () report d' () ↔ _
  rw [h]
  refine exec_ret.trans ?_
  rw [and_iff_left rfl]

theorem exec_main_ok {loaded : List Bytes}
    (h : TokenStore.load json aes (if opens then d.read path else none) = .ok loaded) :
    host.Exec (main json aes c opens path pid nonce) d () report d' () ↔
      host.Exec (change json aes c path pid nonce loaded) d () report d' () := by
  refine exec_get.trans ?_
  show host.Exec (match TokenStore.load json aes (if opens then d.read path else none) with
    | .error err => _
    | .ok loaded => _) d () report d' () ↔ _
  rw [h]

theorem change_loads {loaded : List Bytes} (haes : aes.RoundTrips)
    (hjson : ∀ tokens, (∀ t ∈ tokens, t ∈ loaded ∨ c.token = t) →
      json.Keeps (TokenStore.tokensDoc tokens))
    (hload : TokenStore.load json aes (d.read path) = .ok loaded)
    (h : host.Exec (change json aes c path pid nonce loaded) d () report d' ())
    (hcode : report.exitCode = 0) :
    TokenStore.load json aes (d'.read path) = .ok (edit c loaded) := by
  unfold change at h
  cases hmodify : c.modify loaded with
  | none =>
    rw [hmodify] at h
    obtain ⟨-, rfl, -⟩ := exec_ret.mp h
    rw [hload, edit_of_none hmodify]
  | some tokens =>
    rw [hmodify] at h
    obtain ⟨result, d₁, w₁, hsave, h⟩ := Exec.of_bind h
    cases result with
    | error err =>
      obtain ⟨rfl, -, -⟩ := exec_ret.mp h
      exact nomatch hcode
    | ok u =>
      obtain ⟨-, rfl, -⟩ := exec_ret.mp h
      rw [edit_of_some hmodify]
      exact TokenStore.save_loads haes
        (hjson tokens fun t ht => TokenTool.Command.modify_known hmodify ht) hsave

end

theorem change_succeeds (json : JsonLibrary) (aes : AesGcm) (c : TokenTool.Command) (path : Bytes)
    (loaded : List Bytes) (d : Disk Bytes) :
    ∃ pid nonce report d', host.Exec (change json aes c path pid nonce loaded) d () report d' () ∧
      report.exitCode = 0 := by
  unfold change
  cases c.modify loaded with
  | none => exact ⟨0, none, _, d, .ret _ d (), TokenTool.exitCode_nothingToDo c⟩
  | some tokens =>
    let nonce : Block kNonceSize := ⟨List.replicate 12 0, rfl⟩
    have hsave := TokenStore.save_answered json tokens aes path 0 (some nonce) d succeeding
    rw [TokenStore.save_succeeding] at hsave
    exact ⟨0, some nonce, c.saved tokens.length, _, hsave.bind (.ret _ _ ()),
      TokenTool.exitCode_saved c _⟩

/-- The commands keep a store exactly if its file, where there is one, can be opened for reading. -/
theorem commands_keep_store_iff (haes : aes.RoundTrips)
    (hjson : ∀ tokens, (∀ t ∈ tokens,
      (∃ old, TokenStore.load json aes (d.read path) = .ok old ∧ t ∈ old) ∨ c.token = t) →
      json.Keeps (TokenStore.tokensDoc tokens)) :
    (∀ report d', Invokes json aes c opens path d report d' →
      Keeps json aes (edit c) opens (d.read path) report (d'.read path)) ↔
    (d.read path ≠ none → opens = true) := by
  constructor
  · intro hkeeps hpresent
    by_contra hclosed
    rw [Bool.not_eq_true] at hclosed
    subst hclosed
    obtain ⟨bytes, hbytes⟩ := Option.ne_none_iff_exists'.mp hpresent
    obtain ⟨pid, nonce, report, d', hchange, hcode⟩ := change_succeeds json aes c path [] d
    have hinvokes : Invokes json aes c false path d report d' :=
      ⟨pid, nonce, (exec_main_ok rfl).mpr hchange⟩
    exact ((hkeeps report d' hinvokes).1 ⟨bytes, hbytes, .inl rfl⟩).1 hcode
  · rintro hopens report d' ⟨pid, nonce, h⟩
    have hread : (if opens then d.read path else none) = d.read path := by
      split_ifs with hopen
      · rfl
      · by_contra hne
        exact hopen (hopens (Ne.symm hne))
    cases hload : TokenStore.load json aes (d.read path) with
    | error err =>
      obtain ⟨rfl, rfl⟩ := (exec_main_error (by rw [hread, hload])).mp h
      exact ⟨fun _ => ⟨Nat.one_ne_zero, rfl⟩, fun _ hcode => nomatch hcode⟩
    | ok loaded =>
      have hchange := (exec_main_ok (by rw [hread, hload])).mp h
      refine ⟨?_, fun _ hcode => ⟨loaded, hload,
        change_loads haes (fun tokens ht => ?_) hload hchange hcode⟩⟩
      · rintro ⟨bytes, hbytes, hclosed | ⟨err, herr⟩⟩
        · exact nomatch hclosed.symm.trans (hopens (by rw [hbytes]; nofun))
        · rw [← hbytes, hload] at herr
          exact nomatch herr
      · exact hjson tokens fun t hmem => (ht t hmem).imp_left fun hold => ⟨loaded, hload, hold⟩

theorem commands_keep_store_small : ∃ report d',
    Invokes TokenTool.byteJson .bare (.addToken [2]) true [0x74] TokenTool.oneToken report d' ∧
    report.exitCode = 0 ∧
    TokenStore.load TokenTool.byteJson .bare (d'.read [0x74]) = .ok [[1], [2]] := by
  obtain ⟨pid, nonce, report, d', hchange, hcode⟩ :=
    change_succeeds TokenTool.byteJson .bare (.addToken [2]) [0x74] [[1]] TokenTool.oneToken
  have hinvokes : Invokes TokenTool.byteJson .bare (.addToken [2]) true
      [0x74] TokenTool.oneToken report d' :=
    ⟨pid, nonce, (exec_main_ok rfl).mpr hchange⟩
  have hjson : ∀ tokens, (∀ t ∈ tokens,
      (∃ old, TokenStore.load TokenTool.byteJson .bare (TokenTool.oneToken.read [0x74]) =
        .ok old ∧ t ∈ old) ∨
        (TokenTool.Command.addToken [2]).token = t) → TokenTool.byteJson.Keeps
        (TokenStore.tokensDoc tokens) := by
    refine fun tokens h => TokenTool.byteJson_keeps fun t ht => ?_
    rcases h t ht with ⟨old, hold, hmem⟩ | rfl
    · cases hold
      rw [List.mem_singleton.mp hmem]
      rfl
    · rfl
  have hkeeps :=
    (commands_keep_store_iff AesGcm.bare_roundTrips hjson).mpr (fun _ => rfl) report d' hinvokes
  have hreadable : ¬Unreadable TokenTool.byteJson .bare true (TokenTool.oneToken.read [0x74]) := by
    rintro ⟨bytes, hbytes, hclosed | ⟨err, herr⟩⟩
    · exact nomatch hclosed
    · cases hbytes
      exact nomatch herr
  obtain ⟨old, hold, hnew⟩ := hkeeps.2 hreadable hcode
  cases hold
  exact ⟨report, d', hinvokes, hcode, hnew⟩

/-- The command reports success, and the token that was there is gone. -/
theorem unopened_store_overwritten : ∃ report d',
    Invokes TokenTool.byteJson .bare (.addToken [2]) false [0x74] TokenTool.oneToken report d' ∧
    report.exitCode = 0 ∧
    TokenStore.load TokenTool.byteJson .bare (TokenTool.oneToken.read [0x74]) = .ok [[1]] ∧
    TokenStore.load TokenTool.byteJson .bare (d'.read [0x74]) = .ok [[2]] := by
  let nonce : Block kNonceSize := ⟨List.replicate 12 0, rfl⟩
  obtain ⟨d', hreturns⟩ := returns_ok [0x74] (List.replicate 28 0 ++ [2]) 0 TokenTool.oneToken
  have hsave : host.Exec (TokenStore.save TokenTool.byteJson .bare [0x74] 0 (some nonce) [[2]])
      TokenTool.oneToken () (.ok ()) d' () :=
    hreturns
  have hread : d'.read [0x74] = some (List.replicate 28 0 ++ [2]) :=
    Disk.Replaced.read hreturns.ended
  have hchange :
      host.Exec (change TokenTool.byteJson .bare (.addToken [2]) [0x74] 0 (some nonce) [])
        TokenTool.oneToken () (.added 1) d' () := hsave.bind (.ret _ d' ())
  refine ⟨.added 1, d', ⟨0, some nonce, (exec_main_ok rfl).mpr hchange⟩, rfl, rfl, ?_⟩
  rw [hread]
  rfl

end Dicker.Server.TokenFile
