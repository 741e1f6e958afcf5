import Dicker.Server.AtomicWrite
import Dicker.Server.Database

/-! The bearer tokens of the HTTP endpoints (`TokenStore` of server/db.cxx and
`Server::verify_token`). -/

namespace Dicker.Server.TokenStore
open Crypto Lib Host AtomicWrite

/-- What `tokens_to_json` puts in the document. -/
def tokensDoc (tokens : List Bytes) : List (String × Json) :=
  [("tokens", .array (tokens.map .string))]

def tokensToJson (json : JsonLibrary) (tokens : List Bytes) : Bytes :=
  json.dump (.object (tokensDoc tokens))

def tokensOf : List Json → Except String (List Bytes)
  | [] => .ok []
  | .string token :: items => (tokensOf items).map (token :: ·)
  | _ => .error "token is not a string"

def tokensFromJson (json : JsonLibrary) (text : Bytes) : Except String (List Bytes) :=
  match json.parse text with
  | some (.object doc) =>
    match doc.lookup "tokens" with
    | none => .ok []
    | some (.array items) => tokensOf items
    | some _ => .error "\"tokens\" is not an array"
  | _ => .error "malformed token json"

/-- `TokenStore::load`, with what the file holds or `none` when there is no file. -/
def load (json : JsonLibrary) (aes : AesGcm) (file : Option Bytes) : Except String (List Bytes) :=
  match file with
  | none => .ok []
  | some sealed =>
    if sealed.isEmpty then .ok []
    else match aes.gcmOpen sealed with
      | none => .error "decrypt failed (wrong DICKER_KEY or corrupt token file)"
      | some plain => tokensFromJson json plain

/-- `read_file`; `opens` says whether the file, if there is one, can be opened for reading. -/
def readFile (opens : Bool) (path : Bytes) : DiskM (Option Bytes) :=
  .get fun d => .ret (if opens then d.read path else none)

def save (json : JsonLibrary) (aes : AesGcm) (path : Bytes) (pid : ℕ)
    (nonce : Option (Block kNonceSize)) (tokens : List Bytes) : DiskM (Except String Unit) :=
  match aes.gcmSeal nonce (tokensToJson json tokens) with
  | none => return .error "encrypt failed"
  | some sealed => writeFileAtomic path pid sealed

def verify (tokens : List Bytes) (token : Bytes) : Bool :=
  tokens.foldl (fun matched candidate =>
    if candidate.length = token.length ∧ constantTimeEqual candidate token = true then true
      else matched) false

/-- `Server::verify_token` -/
def verifyToken (json : JsonLibrary) (aes : AesGcm) (file : Option Bytes) (token : Bytes) : Bool :=
  match load json aes file with
  | .error _ => false
  | .ok tokens => verify tokens token

/-! ## What is saved is loaded -/

theorem tokensOf_string (tokens : List Bytes) : tokensOf (tokens.map .string) = .ok tokens := by
  induction tokens with
  | nil => rfl
  | cons token tokens ih =>
    rw [List.map_cons, tokensOf, ih]
    rfl

variable {json : JsonLibrary} {tokens : List Bytes} {token : Bytes}

theorem tokensFromJson_toJson (h : json.Keeps (tokensDoc tokens)) :
    tokensFromJson json (tokensToJson json tokens) = .ok tokens := by
  obtain ⟨fields, hparse, hlookup⟩ := h
  unfold tokensFromJson tokensToJson
  rw [hparse]
  dsimp only
  rw [hlookup]
  exact tokensOf_string tokens

theorem load_sealed {aes : AesGcm} {nonce : Option (Block kNonceSize)} {sealed : Bytes}
    (haes : aes.RoundTrips) (hjson : json.Keeps (tokensDoc tokens))
    (h : aes.gcmSeal nonce (tokensToJson json tokens) = some sealed) :
    load json aes (some sealed) = .ok tokens := by
  have hempty : sealed.isEmpty = false := List.isEmpty_eq_false_iff.mpr (AesGcm.gcmSeal_ne_nil h)
  unfold load
  dsimp only
  rw [hempty, haes.gcmOpen_seal h]
  exact tokensFromJson_toJson hjson

section
variable {aes : AesGcm} {path : Bytes} {pid : ℕ} {nonce : Option (Block kNonceSize)}
  {d d' : Disk Bytes}

theorem save_ok (h : host.Exec (save json aes path pid nonce tokens) d () (.ok ()) d' ()) :
    ∃ sealed, aes.gcmSeal nonce (tokensToJson json tokens) = some sealed ∧
      d'.read path = some sealed := by
  unfold save at h
  cases hseal : aes.gcmSeal nonce (tokensToJson json tokens) with
  | none =>
    rw [hseal] at h
    exact nomatch (exec_ret.mp h).1
  | some sealed =>
    rw [hseal] at h
    have hreturns : AtomicWrite.Returns path pid sealed d (.ok ()) d' := h
    exact ⟨sealed, rfl, Disk.Replaced.read hreturns.ended⟩

theorem save_error {err : String}
    (h : host.Exec (save json aes path pid nonce tokens) d () (.error err) d' ()) :
    d'.read path = d.read path := by
  unfold save at h
  cases hseal : aes.gcmSeal nonce (tokensToJson json tokens) with
  | none =>
    rw [hseal] at h
    rw [(exec_ret.mp h).2.1]
  | some sealed =>
    rw [hseal] at h
    have hreturns : AtomicWrite.Returns path pid sealed d (.error err) d' := h
    exact hreturns.ended.1.read (tempPath_ne path pid)

theorem save_loads (haes : aes.RoundTrips) (hjson : json.Keeps (tokensDoc tokens))
    (h : host.Exec (save json aes path pid nonce tokens) d () (.ok ()) d' ()) :
    load json aes (d'.read path) = .ok tokens := by
  obtain ⟨sealed, hseal, hread⟩ := save_ok h
  rw [hread]
  exact load_sealed haes hjson hseal

variable (json aes path pid nonce tokens d) in
theorem save_answered (calls : Syscalls) : host.Exec (save json aes path pid nonce tokens) d ()
    (host.answered calls (save json aes path pid nonce tokens) d).1
    (host.answered calls (save json aes path pid nonce tokens) d).2 () :=
  exec_answered (fun _ _ _ => trivial) calls _ d

variable (json aes path pid tokens d) in
theorem save_succeeding (nonce : Block kNonceSize) :
    (host.answered succeeding (save json aes path pid (some nonce) tokens) d).1 = .ok () :=
  writeFileAtomic_succeeding path _ pid d

end

/-! ## Membership -/

theorem candidate_iff {candidate : Bytes} :
    (candidate.length = token.length ∧ constantTimeEqual candidate token = true) ↔
      candidate = token := by
  constructor
  · rintro ⟨hlen, heq⟩
    exact (constantTimeEqual_iff hlen).mp heq
  · rintro rfl
    exact ⟨rfl, (constantTimeEqual_iff rfl).mpr rfl⟩

theorem foldl_matched (tokens : List Bytes) (token : Bytes) (matched : Bool) :
    tokens.foldl (fun matched candidate =>
      if candidate.length = token.length ∧ constantTimeEqual candidate token = true then true
        else matched) matched = true ↔
      matched = true ∨ token ∈ tokens := by
  induction tokens generalizing matched with
  | nil => simp
  | cons candidate tokens ih =>
    rw [List.foldl_cons, ih, List.mem_cons]
    by_cases h : candidate = token
    · rw [if_pos (candidate_iff.mpr h)]
      simp [h]
    · rw [if_neg (mt candidate_iff.mp h)]
      simp [Ne.symm h]

theorem verify_iff : verify tokens token = true ↔ token ∈ tokens := by
  rw [verify, foldl_matched]
  simp

theorem verifyToken_iff {aes : AesGcm} {file : Option Bytes} :
    verifyToken json aes file token = true ↔ ∃ tokens, load json aes file = .ok tokens ∧
      token ∈ tokens := by
  unfold verifyToken
  rcases load json aes file with err | tokens
  · simp
  · simp [verify_iff]

end Dicker.Server.TokenStore
