import Dicker.Client.Handshake
import Dicker.Lib.Occurrence
import Dicker.Server.Http

/-! What a client makes of the URLs it is given (client/conn.h). -/

namespace Dicker.Client.ConnUrl
open Lib
open Server (ascii)

structure Proxy where
  use : Bool
  host : Bytes
  port : Bytes
  user : Bytes
  pass : Bytes
  deriving DecidableEq

def Proxy.unset : Proxy := ⟨false, [], [], [], []⟩

structure BaseConn where
  host : Bytes
  port : Bytes
  tls : Bool
  proxy : Proxy

structure Conn extends BaseConn, Client.Conn where
  compressionAlgo : CompressionAlgo

/-- A new `Conn`, with what `randomSessionId` has drawn. -/
def Conn.start (randomSessionId : { id : Bytes // id.length = kSessionIdSize }) : Conn where
  host := []
  port := []
  tls := false
  proxy := .unset
  sessionId := randomSessionId.val
  key := []
  flags := 0
  sessionId_length := randomSessionId.property
  compressionAlgo := .zstd

def byte (c : Char) : UInt8 := UInt8.ofNat c.toNat

/-- `std::string::find` of a letter. -/
def find (c : Char) (s : Bytes) : Option ℕ := firstOccurrence [byte c] s

/-- `std::string::rfind` of a letter. -/
def rfind (c : Char) (s : Bytes) : Option ℕ := lastIndex (byte c) s

def dropScheme (url : Bytes) : Bytes :=
  match firstOccurrence (ascii "://") url with
  | some scheme => url.drop (scheme + 3)
  | none => url

def splitAuth (s : Bytes) : Bytes × Bytes :=
  match rfind '@' s with
  | some i => (s.take i, s.drop (i + 1))
  | none => ([], s)

def Proxy.setAuth (p : Proxy) (auth : Bytes) : Proxy :=
  if auth = [] then p
  else match find ':' auth with
    | some c => { p with user := auth.take c, pass := auth.drop (c + 1) }
    | none => { p with user := auth }

def Proxy.setHostport (p : Proxy) (hostport : Bytes) : Proxy :=
  match rfind ':' hostport with
  | some c => { p with host := hostport.take c, port := hostport.drop (c + 1) }
  | none => { p with host := hostport, port := ascii "1080" }

def parseProxy (url : Bytes) : Proxy :=
  if url = [] then .unset
  else
    let (auth, hostport) := splitAuth (dropScheme url)
    let p := (Proxy.unset.setAuth auth).setHostport hostport
    { p with use := !p.host.isEmpty }

namespace Conn

def setScheme (conn : Conn) (url : Bytes) : Conn :=
  match firstOccurrence (ascii "://") url with
  | some scheme => { conn with tls := url.take scheme = ascii "dickers" }
  | none => conn

def splitQuery (s : Bytes) : Bytes × Bytes :=
  match find '?' s with
  | some q => (s.take q, s.drop (q + 1))
  | none => (s, [])

def paddedId (sid : Bytes) : Bytes :=
  sid.take kSessionIdSize ++ List.replicate (kSessionIdSize - sid.length) 0

theorem length_paddedId (sid : Bytes) : (paddedId sid).length = kSessionIdSize := by
  rw [paddedId, List.length_append, List.length_take, List.length_replicate]
  omega

def setUserinfo (conn : Conn) (userinfo : Bytes) : Conn :=
  match find ':' userinfo with
  | some colon =>
    let sid := userinfo.take colon
    let conn := { conn with key := userinfo.drop (colon + 1) }
    if sid = [] then conn
    else { conn with sessionId := paddedId sid, sessionId_length := length_paddedId sid }
  | none => { conn with key := userinfo }

def setHostport (conn : Conn) (hostport : Bytes) : Conn :=
  match rfind ':' hostport with
  | some colon => { conn with host := hostport.take colon, port := hostport.drop (colon + 1) }
  | none => { conn with host := hostport }

def setIntegrity (conn : Conn) (v : Bytes) : Conn :=
  if v = [] ∨ v = ascii "1" ∨ v = ascii "true" then
    { conn with flags := conn.flags ||| HandshakeFlag.integrityChecks.toByte }
  else conn

def setAlgo (conn : Conn) (v : Bytes) : Conn :=
  if v = ascii "zstd" then { conn with compressionAlgo := .zstd }
  else if v = ascii "lz4" then { conn with compressionAlgo := .lz4 }
  else if v = ascii "none" then { conn with compressionAlgo := .none }
  else conn

def splitToken (token : Bytes) : Bytes × Bytes :=
  match find '=' token with
  | some eq => (token.take eq, token.drop (eq + 1))
  | none => (token, [])

def setParam (conn : Conn) (token : Bytes) : Conn :=
  let (k, v) := splitToken token
  if k = ascii "integrity" then conn.setIntegrity v
  else if k = ascii "compressionAlgo" ∨ k = ascii "algo" then conn.setAlgo v
  else conn

/-- The loop over the query, of which `query` is the part from `start` on. -/
def setQuery (conn : Conn) (query : Bytes) : Conn :=
  if query = [] then conn
  else match find '&' query with
    | some amp => (conn.setParam (query.take amp)).setQuery (query.drop (amp + 1))
    | none => conn.setParam query
termination_by query.length
decreasing_by
  have hpos := List.length_pos_iff.mpr ‹query ≠ []›
  rw [List.length_drop]
  omega

def parse (conn : Conn) (url : Bytes) : Conn :=
  let conn := conn.setScheme url
  let (s, query) := splitQuery (dropScheme url)
  let conn := match rfind '@' s with
    | some i => (conn.setUserinfo (s.take i)).setHostport (s.drop (i + 1))
    | none => conn.setHostport s
  conn.setQuery query

end Conn

/-! ## URLs as they are spelled -/

section
variable {s t : Bytes}

theorem find_byte {c : Char} (hc : byte c ∉ s) : find c (s ++ byte c :: t) = some s.length :=
  firstOccurrence_of_notMem hc [] t

theorem find_byte_none {c : Char} (hc : byte c ∉ s) : find c s = none :=
  firstOccurrence_none_of_notMem hc []

theorem find_scheme (hs : byte ':' ∉ s) :
    firstOccurrence (ascii "://") (s ++ (ascii "://" ++ t)) = some s.length :=
  firstOccurrence_of_notMem hs (ascii "//") t

theorem rfind_byte {c : Char} (hc : byte c ∉ t) : rfind c (s ++ byte c :: t) = some s.length :=
  lastIndex_append hc s

@[simp]
theorem drop_behind (s t : Bytes) (b : UInt8) : (s ++ b :: t).drop (s.length + 1) = t := by
  rw [List.append_cons]
  exact List.drop_left' (List.length_append ..)

theorem dropScheme_text (hs : byte ':' ∉ s) : dropScheme (s ++ (ascii "://" ++ t)) = t := by
  rw [dropScheme, find_scheme hs]
  change (s ++ (ascii "://" ++ t)).drop (s.length + (ascii "://").length) = t
  rw [← List.append_assoc, List.drop_left' (List.length_append ..)]

end

structure Param where
  key : Bytes
  value : Option Bytes
  key_eq : byte '=' ∉ key
  key_amp : byte '&' ∉ key
  value_amp : ∀ v ∈ value, byte '&' ∉ v

namespace Param

def text (p : Param) : Bytes :=
  match p.value with
  | some v => p.key ++ byte '=' :: v
  | none => p.key

def read (p : Param) : Bytes := p.value.getD []

def Checks (p : Param) : Prop :=
  p.key = ascii "integrity" ∧ (p.read = [] ∨ p.read = ascii "1" ∨ p.read = ascii "true")

instance (p : Param) : Decidable p.Checks := inferInstanceAs (Decidable (_ ∧ _))

def algoNamed (v : Bytes) : Option CompressionAlgo :=
  if v = ascii "zstd" then some .zstd else if v = ascii "lz4" then some .lz4
  else if v = ascii "none" then some .none else none

def algo (p : Param) : Option CompressionAlgo :=
  if p.key = ascii "compressionAlgo" ∨ p.key = ascii "algo" then algoNamed p.read else none

theorem amp_notMem_text (p : Param) : byte '&' ∉ p.text := by
  unfold text
  split
  · next v hv =>
    have hne : byte '&' ≠ byte '=' := by decide
    simp [p.key_amp, p.value_amp v hv, hne]
  · exact p.key_amp

theorem splitToken_text (p : Param) : Conn.splitToken p.text = (p.key, p.read) := by
  cases hv : p.value with
  | some v => simp [Conn.splitToken, text, read, hv, find_byte p.key_eq]
  | none => simp [Conn.splitToken, text, read, hv, find_byte_none p.key_eq]

end Param

namespace Conn
variable (conn : Conn)

def withParams (params : List Param) : Conn :=
  { conn with
    flags :=
      if ∃ p ∈ params, p.Checks then conn.flags ||| HandshakeFlag.integrityChecks.toByte
        else conn.flags
    compressionAlgo := (params.filterMap Param.algo).getLast?.getD conn.compressionAlgo }

theorem withParams_nil : conn.withParams [] = conn := by
  simp [withParams]

theorem setAlgo_eq (v : Bytes) :
    conn.setAlgo v = { conn with
      compressionAlgo := (Param.algoNamed v).getD conn.compressionAlgo } := by
  unfold setAlgo Param.algoNamed
  split_ifs <;> rfl

theorem setParam_text (p : Param) : conn.setParam p.text = conn.withParams [p] := by
  rw [setParam, p.splitToken_text]
  by_cases hintegrity : p.key = ascii "integrity"
  · have halgo : p.algo = none := by
      rw [Param.algo, hintegrity]
      exact if_neg (by decide)
    by_cases hvalue : p.read = [] ∨ p.read = ascii "1" ∨ p.read = ascii "true"
    · simp [hintegrity, setIntegrity, withParams, Param.Checks, hvalue, halgo]
    · simp [hintegrity, setIntegrity, withParams, Param.Checks, hvalue, halgo]
  · have hchecks : ¬p.Checks := fun h => hintegrity h.1
    by_cases halgo : p.key = ascii "compressionAlgo" ∨ p.key = ascii "algo"
    · cases hnamed : Param.algoNamed p.read <;>
        simp [hintegrity, halgo, setAlgo_eq, withParams, hchecks, Param.algo, hnamed]
    · simp [hintegrity, halgo, withParams, hchecks, Param.algo]

theorem withParams_cons (p : Param) (params : List Param) :
    (conn.withParams [p]).withParams params = conn.withParams (p :: params) := by
  have hflags : ∀ a b : UInt8, a ||| b ||| b = a ||| b := fun a b => by
    rw [UInt8.or_assoc, UInt8.or_self]
  have halgo : ((p :: params).filterMap Param.algo).getLast?.getD conn.compressionAlgo =
      (params.filterMap Param.algo).getLast?.getD (p.algo.getD conn.compressionAlgo) := by
    rw [List.filterMap_cons]
    cases p.algo with
    | none => rfl
    | some a =>
      rw [List.getLast?_cons]
      rfl
  have hone : ([p].filterMap Param.algo).getLast?.getD conn.compressionAlgo =
      p.algo.getD conn.compressionAlgo := by
    rw [List.filterMap_cons]
    cases p.algo <;> rfl
  simp only [withParams, halgo, hone, List.exists_mem_cons_iff, List.not_mem_nil, false_and,
    exists_false, or_false]
  by_cases hp : p.Checks <;> by_cases hps : ∃ q ∈ params, q.Checks <;> simp [hp, hps, hflags]

end Conn

def queryText (params : List Param) : Bytes := [byte '&'].intercalate (params.map Param.text)

theorem setQuery_queryText (conn : Conn) (params : List Param) :
    conn.setQuery (queryText params) = conn.withParams params := by
  induction params generalizing conn with
  | nil =>
    rw [conn.withParams_nil, Conn.setQuery]
    rfl
  | cons p params ih =>
    cases params with
    | nil =>
      have htext : queryText [p] = p.text := by simp [queryText]
      rw [htext, Conn.setQuery, ← conn.setParam_text p]
      split_ifs with hnil
      · -- an empty token is not read, and would say nothing
        rw [hnil]
        rfl
      · rw [find_byte_none p.amp_notMem_text]
    | cons q rest =>
      have htext : queryText (p :: q :: rest) = p.text ++ byte '&' :: queryText (q :: rest) := by
        simp [queryText, List.intercalate]
      rw [htext, Conn.setQuery, if_neg (by simp), find_byte p.amp_notMem_text]
      simp only [List.take_left, drop_behind]
      rw [← conn.withParams_cons p, ← ih, ← conn.setParam_text p]

inductive Scheme where
  | dicker
  | dickers
  deriving DecidableEq

def Scheme.text : Scheme → Bytes
  | dicker => ascii "dicker"
  | dickers => ascii "dickers"

structure Plain (s : Bytes) : Prop where
  colon : byte ':' ∉ s
  atSign : byte '@' ∉ s

theorem Plain.at_notMem_hostport {host port : Bytes} (hhost : Plain host) (hport : Plain port) :
    byte '@' ∉ host ++ byte ':' :: port := by
  have hcolon : byte '@' ≠ byte ':' := by decide
  simp [hhost.atSign, hport.atSign, hcolon]

structure Url where
  scheme : Scheme
  sid : Bytes
  secret : Bytes
  host : Bytes
  port : Bytes
  query : Option (List Param)
  sid_ne : sid ≠ []
  sid_length : sid.length ≤ kSessionIdSize
  sid_plain : Plain sid
  host_plain : Plain host
  port_plain : Plain port
  sid_question : byte '?' ∉ sid
  secret_question : byte '?' ∉ secret
  host_question : byte '?' ∉ host
  port_question : byte '?' ∉ port

namespace Url
variable (u : Url)

def params : List Param := u.query.getD []

def userinfo : Bytes := u.sid ++ byte ':' :: u.secret

def hostport : Bytes := u.host ++ byte ':' :: u.port

def authority : Bytes := u.userinfo ++ byte '@' :: u.hostport

def afterScheme : Bytes :=
  match u.query with
  | some params => u.authority ++ byte '?' :: queryText params
  | none => u.authority

def text : Bytes := u.scheme.text ++ (ascii "://" ++ u.afterScheme)

theorem colon_notMem_scheme (scheme : Scheme) : byte ':' ∉ scheme.text := by
  cases scheme <;> decide

theorem question_notMem_authority : byte '?' ∉ u.authority := by
  have hcolon : byte '?' ≠ byte ':' := by decide
  have hat : byte '?' ≠ byte '@' := by decide
  simp [authority, userinfo, hostport, u.sid_question, u.secret_question,
    u.host_question, u.port_question, hcolon, hat]

theorem at_notMem_hostport : byte '@' ∉ u.hostport := u.host_plain.at_notMem_hostport u.port_plain

theorem splitQuery_afterScheme :
    Conn.splitQuery u.afterScheme = (u.authority, queryText u.params) := by
  have hplain := u.question_notMem_authority
  cases hquery : u.query with
  | some ps => simp [Conn.splitQuery, afterScheme, params, hquery, find_byte hplain]
  | none =>
    simp [Conn.splitQuery, afterScheme, params, hquery, find_byte_none hplain]
    rfl

end Url

namespace Conn
variable (conn : Conn) (u : Url)

theorem setScheme_text : conn.setScheme u.text = { conn with tls := u.scheme = .dickers } := by
  have htls : (u.scheme.text = ascii "dickers") ↔ u.scheme = .dickers := by
    cases u.scheme <;> decide
  rw [setScheme, Url.text, find_scheme (Url.colon_notMem_scheme _)]
  simp only [List.take_left, htls]

theorem setUserinfo_text : conn.setUserinfo u.userinfo =
    { conn with
      key := u.secret
      sessionId := paddedId u.sid
      sessionId_length := length_paddedId u.sid } := by
  rw [setUserinfo, Url.userinfo, find_byte u.sid_plain.colon]
  simp [u.sid_ne]

theorem setHostport_text :
    conn.setHostport u.hostport = { conn with host := u.host, port := u.port } := by
  rw [setHostport, Url.hostport, rfind_byte u.port_plain.colon]
  simp

end Conn

theorem parse_text (conn : Conn) (u : Url) : conn.parse u.text =
    Conn.withParams { conn with
      tls := u.scheme = .dickers
      key := u.secret
      sessionId := Conn.paddedId u.sid
      sessionId_length := Conn.length_paddedId u.sid
      host := u.host
      port := u.port } u.params := by
  have hdrop : dropScheme u.text = u.afterScheme := dropScheme_text (Url.colon_notMem_scheme _)
  have hat : rfind '@' u.authority = some u.userinfo.length := rfind_byte u.at_notMem_hostport
  have htake : u.authority.take u.userinfo.length = u.userinfo := List.take_left ..
  have hbehind : u.authority.drop (u.userinfo.length + 1) = u.hostport := drop_behind ..
  rw [Conn.parse, hdrop, u.splitQuery_afterScheme]
  simp only [hat, htake, hbehind]
  rw [Conn.setScheme_text, Conn.setUserinfo_text, Conn.setHostport_text, setQuery_queryText]

structure ProxyUrl where
  user : Bytes
  pass : Bytes
  host : Bytes
  port : Bytes
  user_plain : byte ':' ∉ user
  host_plain : Plain host
  port_plain : Plain port

namespace ProxyUrl
variable (u : ProxyUrl)

def auth : Bytes := u.user ++ byte ':' :: u.pass

def hostport : Bytes := u.host ++ byte ':' :: u.port

def text : Bytes := ascii "socks5" ++ (ascii "://" ++ (u.auth ++ byte '@' :: u.hostport))

theorem splitAuth_text : splitAuth (u.auth ++ byte '@' :: u.hostport) = (u.auth, u.hostport) := by
  rw [splitAuth, hostport, rfind_byte (u.host_plain.at_notMem_hostport u.port_plain)]
  simp

theorem setAuth_auth (p : Proxy) :
    p.setAuth u.auth = { p with user := u.user, pass := u.pass } := by
  rw [Proxy.setAuth, auth, if_neg (by simp), find_byte u.user_plain]
  simp

theorem setHostport_hostport (p : Proxy) :
    p.setHostport u.hostport = { p with host := u.host, port := u.port } := by
  rw [Proxy.setHostport, hostport, rfind_byte u.port_plain.colon]
  simp

end ProxyUrl

theorem parseProxy_text (u : ProxyUrl) :
    parseProxy u.text = ⟨!u.host.isEmpty, u.host, u.port, u.user, u.pass⟩ := by
  have hne : u.text ≠ [] := by simp [ProxyUrl.text, ascii]
  have hdrop : dropScheme u.text = u.auth ++ byte '@' :: u.hostport := dropScheme_text (by decide)
  rw [parseProxy, if_neg hne, hdrop, u.splitAuth_text]
  simp only [u.setAuth_auth, u.setHostport_hostport]

/-- The URLs of a server and of a proxy are read as they are spelled. -/
theorem urls_read_as_spelled :
    (∀ randomSessionId (u : Url), let conn := (Conn.start randomSessionId).parse u.text
      conn.tls = decide (u.scheme = .dickers) ∧
      conn.sessionId = u.sid ++ List.replicate (kSessionIdSize - u.sid.length) 0 ∧
      conn.key = u.secret ∧ conn.host = u.host ∧ conn.port = u.port ∧
      conn.flags = (if ∃ p ∈ u.params, p.key = ascii "integrity" ∧
        (p.read = [] ∨ p.read = ascii "1" ∨ p.read = ascii "true")
        then HandshakeFlag.integrityChecks.toByte else 0) ∧
      conn.compressionAlgo = (u.params.filterMap Param.algo).getLast?.getD .zstd) ∧
    ∀ u : ProxyUrl, let p := parseProxy u.text
      p.user = u.user ∧ p.pass = u.pass ∧ p.host = u.host ∧ p.port = u.port := by
  constructor
  · intro randomSessionId u
    have hpadded : Conn.paddedId u.sid = u.sid ++
        List.replicate (kSessionIdSize - u.sid.length) 0 := by
      rw [Conn.paddedId, List.take_of_length_le u.sid_length]
    rw [parse_text]
    refine ⟨rfl, hpadded, rfl, rfl, rfl, ?_, rfl⟩
    simp only [Conn.withParams, Conn.start, Param.Checks, UInt8.zero_or]
  · intro u
    rw [parseProxy_text]
    exact ⟨rfl, rfl, rfl, rfl⟩

example : ∃ u : Url, u.text = ascii "dickers://id:a@b:c://d@host:80?algo=lz4&integrity&x=?=" :=
  ⟨{ scheme := .dickers
     sid := ascii "id"
     secret := ascii "a@b:c://d"
     host := ascii "host"
     port := ascii "80"
     query := some [⟨ascii "algo", some (ascii "lz4"), by decide, by decide, by decide⟩,
       ⟨ascii "integrity", none, by decide, by decide, by decide⟩,
       ⟨ascii "x", some (ascii "?="), by decide, by decide, by decide⟩]
     sid_ne := by decide
     sid_length := by decide
     sid_plain := ⟨by decide, by decide⟩
     host_plain := ⟨by decide, by decide⟩
     port_plain := ⟨by decide, by decide⟩
     sid_question := by decide
     secret_question := by decide
     host_question := by decide
     port_question := by decide }, by decide +kernel⟩

end Dicker.Client.ConnUrl
