import Dicker.Client.ConnUrl
import Dicker.Lib.Loop

/-! Asking a SOCKS5 proxy for a connection (client/net.h). -/

namespace Dicker.Client.Socks5
open Lib Program
open ConnUrl (Proxy)
open Server (ascii)

structure CString where
  bytes : Bytes
  nul : 0 ∉ bytes

def isDigit (b : UInt8) : Bool := 0x30 ≤ b && b ≤ 0x39

def decimal (digits : Bytes) : ℕ := digits.foldl (fun n d => 10 * n + (d.toNat - 0x30)) 0

def portNumber (port : Bytes) : Option ℕ :=
  if port ≠ [] ∧ port.all isDigit then some (decimal port) else none

/-- `std::atoi`, which is not defined by the standard where the number does not fit an `int`. -/
structure Atoi where
  read : Bytes → ℤ
  numeral : ∀ port n, portNumber port = some n → n < 2 ^ 31 → read port = n

def isSpace (b : UInt8) : Bool := b == 0x20 || 0x09 ≤ b && b ≤ 0x0D

def readSign : Bytes → Bool × Bytes
  | [] => (false, [])
  | c :: s => if c = 0x2D then (true, s) else if c = 0x2B then (false, s) else (false, c :: s)

/-- As `strtol` reads it, cut to an `int`. -/
def strtol (s : Bytes) : ℤ :=
  let (negative, s) := readSign (s.dropWhile isSpace)
  let n : ℤ := decimal (s.takeWhile isDigit)
  Int.bmod (if negative then max (-n) (-2 ^ 63) else min n (2 ^ 63 - 1)) (2 ^ 32)

theorem sign_of_isDigit : ∀ c, isDigit c = true → isSpace c = false ∧ c ≠ 0x2D ∧ c ≠ 0x2B := by
  decide +kernel

theorem strtol_numeral {port : Bytes} {n : ℕ} (h : portNumber port = some n) (hn : n < 2 ^ 31) :
    strtol port = n := by
  rw [portNumber] at h
  split_ifs at h with hport
  cases port with
  | nil => exact absurd rfl hport.1
  | cons c s =>
    have hdigits : ∀ d ∈ c :: s, isDigit d = true := List.all_eq_true.mp hport.2
    obtain ⟨hspace, hminus, hplus⟩ := sign_of_isDigit c (hdigits c List.mem_cons_self)
    have hsign : readSign ((c :: s).dropWhile isSpace) = (false, c :: s) := by
      rw [List.dropWhile_cons_of_neg (by simp [hspace]), readSign, if_neg hminus, if_neg hplus]
    have htake : (c :: s).takeWhile isDigit = c :: s := List.takeWhile_eq_self_iff.mpr hdigits
    rw [strtol, hsign]
    simp only [htake, Option.some.inj h, Bool.false_eq_true, if_false]
    rw [min_eq_left (by omega), Int.bmod_eq_of_le (by omega) (by omega)]

def Atoi.glibc : Atoi where
  read := strtol
  numeral _ _ := strtol_numeral

/-- The three places that call `sendAll`. -/
inductive SocksOp where
  | greet (data : Bytes)
  | auth (data : Bytes)
  | request (data : Bytes)

abbrev SocksOp.Ans : SocksOp → Type := fun _ => Bool

abbrev Socks := Program SocksOp SocksOp.Ans

def greeting : Bytes := [0x05, 0x02, 0x00, 0x02]

def authMessage (px : Proxy) : Bytes :=
  [0x01] ++ [UInt8.ofNat px.user.length] ++ px.user ++ [UInt8.ofNat px.pass.length] ++ px.pass

def authenticate (px : Proxy) : Socks Bool := do
  if !(← perform (.auth (authMessage px))) then
    return false
  match ← readExact 2 with
  | none => return false
  | some ar => return ar.getD 1 0 == 0x00

variable (atoi : Atoi)

def connectRequest (host port : CString) : Bytes :=
  let p16 := UInt16.ofInt (atoi.read port.bytes)
  [0x05, 0x01, 0x00, 0x03, UInt8.ofNat host.bytes.length] ++ host.bytes ++
    [(p16 >>> 8).toUInt8, (p16 &&& 0xff).toUInt8]

def boundLength (rep : Bytes) : Socks (Option ℕ) := do
  if rep.getD 3 0 = 0x01 then
    return some 4
  if rep.getD 3 0 = 0x04 then
    return some 16
  if rep.getD 3 0 = 0x03 then
    return (← readExact 1).map fun l => (l.getD 0 0).toNat
  return none

def drainReply (rep : Bytes) : Socks Bool := do
  match ← boundLength rep with
  | none => return false
  | some skip => return (← readExact (skip + 2)).isSome

def requestConnect (host port : CString) : Socks Bool := do
  if 255 < host.bytes.length then
    return false
  if !(← perform (.request (connectRequest atoi host port))) then
    return false
  match ← readExact 4 with
  | none => return false
  | some rep =>
    if rep.getD 1 0 ≠ 0x00 then
      return false
    drainReply rep

def socks5Connect (px : Proxy) (host port : CString) : Socks Bool := do
  if !(← perform (.greet greeting)) then
    return false
  match ← readExact 2 with
  | none => return false
  | some sel =>
    if sel.getD 0 0 ≠ 0x05 then
      return false
    if sel.getD 1 0 = 0x02 then
      if !(← authenticate px) then
        return false
      requestConnect atoi host port
    else if sel.getD 1 0 ≠ 0x00 then
      return false
    else
      requestConnect atoi host port

/-! ## What the messages say -/

def readString (least : ℕ) : Bytes → Option (Bytes × Bytes)
  | [] => none
  | len :: rest =>
    if least ≤ len.toNat ∧ len.toNat ≤ rest.length then
      some (rest.take len.toNat, rest.drop len.toNat) else none

def readAuth : Bytes → Option (Bytes × Bytes)
  | [] => none
  | ver :: rest =>
    if ver = 0x01 then
      match readString 1 rest with
      | none => none
      | some (user, rest) =>
        match readString 1 rest with
        | some (pass, []) => some (user, pass)
        | _ => none
    else none

def readRequest : Bytes → Option (Bytes × ℕ)
  | ver :: cmd :: rsv :: atyp :: rest =>
    if ver = 0x05 ∧ cmd = 0x01 ∧ rsv = 0x00 ∧ atyp = 0x03 then
      match readString 0 rest with
      | some (host, [high, low]) => some (host, 256 * high.toNat + low.toNat)
      | _ => none
    else none
  | _ => none

section
variable {least : ℕ} {s data : Bytes}

theorem readString_append (hleast : least ≤ s.length) (hmost : s.length ≤ 255) (rest : Bytes) :
    readString least (UInt8.ofNat s.length :: (s ++ rest)) = some (s, rest) := by
  have hlen : (UInt8.ofNat s.length).toNat = s.length := by
    rw [UInt8.toNat_ofNat', Nat.mod_eq_of_lt (by omega)]
  have hfits : s.length ≤ (s ++ rest).length := by
    rw [List.length_append]
    exact Nat.le_add_right ..
  rw [readString, hlen, if_pos ⟨hleast, hfits⟩, List.take_left, List.drop_left]

theorem length_of_readString {rest : Bytes} (h : readString least data = some (s, rest)) :
    least ≤ s.length ∧ s.length ≤ 255 := by
  cases data with
  | nil => exact nomatch h
  | cons len tail =>
    rw [readString] at h
    split_ifs at h with hlen
    simp only [Option.some.injEq, Prod.mk.injEq] at h
    rw [← h.1, List.length_take_of_le hlen.2]
    exact ⟨hlen.1, Nat.le_of_lt_succ len.toNat_lt⟩

end

def AuthEncodable (px : Proxy) : Prop :=
  (1 ≤ px.user.length ∧ px.user.length ≤ 255) ∧ 1 ≤ px.pass.length ∧ px.pass.length ≤ 255

def TargetEncodable (host port : CString) : Prop :=
  host.bytes.length ≤ 255 ∧ ∃ n < 65536, portNumber port.bytes = some n

theorem readAuth_authMessage {px : Proxy} (h : AuthEncodable px) :
    readAuth (authMessage px) = some (px.user, px.pass) := by
  have hpass := readString_append h.2.1 h.2.2 []
  rw [List.append_nil] at hpass
  have huser := readString_append h.1.1 h.1.2 (UInt8.ofNat px.pass.length :: px.pass)
  have hmessage : authMessage px =
      0x01 :: UInt8.ofNat px.user.length :: (px.user ++ UInt8.ofNat px.pass.length :: px.pass) := by
    simp [authMessage]
  rw [hmessage, readAuth, if_pos rfl, huser]
  simp only [hpass]

theorem authEncodable_of_readAuth {px : Proxy} {data : Bytes}
    (h : readAuth data = some (px.user, px.pass)) : AuthEncodable px := by
  cases data with
  | nil => exact nomatch h
  | cons ver rest =>
    rw [readAuth] at h
    split_ifs at h
    split at h
    · exact nomatch h
    next user behind huser =>
    split at h
    · next pass hpass =>
      simp only [Option.some.injEq, Prod.mk.injEq] at h
      rw [AuthEncodable, ← h.1, ← h.2]
      exact ⟨length_of_readString huser, length_of_readString hpass⟩
    · exact nomatch h

theorem port_bytes (p : UInt16) :
    256 * (p >>> 8).toUInt8.toNat + (p &&& 0xff).toUInt8.toNat = p.toNat := by
  have hlow : (p &&& 0xff).toNat = p.toNat % 256 := Nat.and_two_pow_sub_one_eq_mod p.toNat 8
  have hhigh : (p >>> 8).toNat = p.toNat / 256 := Nat.shiftRight_eq_div_pow p.toNat 8
  have hp := p.toNat_lt
  rw [UInt16.toNat_toUInt8, UInt16.toNat_toUInt8, hlow, hhigh]
  omega

theorem readRequest_connectRequest {host port : CString} (hhost : host.bytes.length ≤ 255) :
    readRequest (connectRequest atoi host port) =
      some (host.bytes, (UInt16.ofInt (atoi.read port.bytes)).toNat) := by
  have hstring := readString_append (Nat.zero_le _) hhost
    [((UInt16.ofInt (atoi.read port.bytes)) >>> 8).toUInt8,
      ((UInt16.ofInt (atoi.read port.bytes)) &&& 0xff).toUInt8]
  have hrequest : connectRequest atoi host port = 0x05 :: 0x01 :: 0x00 :: 0x03 ::
      UInt8.ofNat host.bytes.length :: (host.bytes ++
        [((UInt16.ofInt (atoi.read port.bytes)) >>> 8).toUInt8,
          ((UInt16.ofInt (atoi.read port.bytes)) &&& 0xff).toUInt8]) := by
    simp [connectRequest]
  rw [hrequest, readRequest, if_pos ⟨rfl, rfl, rfl, rfl⟩, hstring]
  simp only [port_bytes]

theorem readRequest_port {host port : CString} (hhost : host.bytes.length ≤ 255) :
    (∃ n, portNumber port.bytes = some n ∧ readRequest (connectRequest atoi host port) =
      some (host.bytes, n)) ↔
      ∃ n < 65536, portNumber port.bytes = some n := by
  rw [readRequest_connectRequest atoi hhost]
  constructor
  · rintro ⟨n, hn, hread⟩
    have heq : (UInt16.ofInt (atoi.read port.bytes)).toNat = n :=
      congrArg Prod.snd (Option.some.inj hread)
    exact ⟨n, heq ▸ UInt16.toNat_lt _, hn⟩
  · rintro ⟨n, hlt, hn⟩
    refine ⟨n, hn, ?_⟩
    rw [atoi.numeral _ n hn (by omega)]
    have hof : (UInt16.ofInt (n : ℤ)).toNat = n := by
      simp only [UInt16.ofInt, UInt16.toNat_ofNat']
      omega
    rw [hof]

/-! ## What is sent -/

section
variable {atoi} {px : Proxy} {host port : CString} {val b : Bool} {op : SocksOp}
  {t : List (Entry SocksOp SocksOp.Ans)}

inductive Sendable (atoi : Atoi) (px : Proxy) (host port : CString) : SocksOp → Prop where
  | greet : Sendable atoi px host port (.greet greeting)
  | auth : Sendable atoi px host port (.auth (authMessage px))
  | request (h : host.bytes.length ≤ 255) :
      Sendable atoi px host port (.request (connectRequest atoi host port))

structure Sends (atoi : Atoi) (px : Proxy) (host port : CString) (val : Bool)
    (t : List (Entry SocksOp SocksOp.Ans)) : Prop where
  sendable : ∀ op b, .did op b ∈ t → Sendable atoi px host port op
  refused : 255 < host.bytes.length → val = false

theorem Sends.stop : Sends atoi px host port false [] where
  sendable _ _ h := nomatch h
  refused _ := rfl

theorem Sends.did (h : Sends atoi px host port val t) (hop : Sendable atoi px host port op) :
    Sends atoi px host port val (.did op b :: t) where
  sendable op' b' hmem := by
    rcases List.mem_cons.mp hmem with heq | hmem
    · cases heq
      exact hop
    · exact h.sendable op' b' hmem
  refused := h.refused

theorem Sends.got (h : Sends atoi px host port val t) (z : Bytes) :
    Sends atoi px host port val (.got z :: t) where
  sendable op' b' hmem :=
    h.sendable op' b' ((List.mem_cons.mp hmem).resolve_left (fun heq => nomatch heq))
  refused := h.refused

theorem Sends.append {val' : Bool} {u : List (Entry SocksOp SocksOp.Ans)}
    (h : Sends atoi px host port val' t) (hu : Sends atoi px host port val u) :
    Sends atoi px host port val (t ++ u) where
  sendable op b hmem := (List.mem_append.mp hmem).elim (h.sendable op b) (hu.sendable op b)
  refused := hu.refused

theorem drainReply_wp (hhost : host.bytes.length ≤ 255) (rep : Bytes) :
    (drainReply rep).wp (Sends atoi px host port) := by
  have hquiet : ∀ val, Sends atoi px host port val [] :=
    fun val => ⟨fun _ _ h => (nomatch h), fun h => absurd h (by omega)⟩
  have hread : ∀ n (f : Option Bytes → Bool), (read n fun r => ret (f r)).wp
      (Sends atoi px host port) :=
    fun n f => ⟨fun z _ => (hquiet _).got z, hquiet _⟩
  unfold drainReply boundLength
  split_ifs with hv4 hv6 hname
  · exact hread _ _
  · exact hread _ _
  · refine ⟨fun z _ => ?_, hquiet _⟩
    exact wp_mono (hread _ _) fun _ _ h => h.got z
  · exact hquiet _

theorem requestConnect_wp : (requestConnect atoi host port).wp (Sends atoi px host port) := by
  unfold requestConnect
  split_ifs with hlen
  · exact .stop
  have hhost : host.bytes.length ≤ 255 := Nat.le_of_not_lt hlen
  intro b
  cases b with
  | false => exact Sends.stop.did (.request hhost)
  | true =>
    refine ⟨fun rep _ => ?_, Sends.stop.did (.request hhost)⟩
    change (if rep.getD 1 0 ≠ 0x00 then ret false else drainReply rep).wp _
    split_ifs with hrep
    · exact (Sends.stop.got rep).did (.request hhost)
    · exact wp_mono (drainReply_wp hhost rep) fun _ _ h => (h.got rep).did (.request hhost)

variable (atoi px host port) in
theorem authenticate_wp : (authenticate px).wp fun _ t => Sends atoi px host port false t := by
  intro b
  cases b with
  | false => exact Sends.stop.did .auth
  | true => exact ⟨fun ar _ => (Sends.stop.got ar).did .auth, Sends.stop.did .auth⟩

variable (atoi px host port) in
theorem socks5Connect_wp : (socks5Connect atoi px host port).wp (Sends atoi px host port) := by
  have hauth : (authenticate px >>= fun ok => if !ok then ret false
      else requestConnect atoi host port).wp (Sends atoi px host port) := by
    refine wp_bind (wp_mono (authenticate_wp atoi px host port) fun ok t ht => ?_)
    cases ok with
    | false => exact ht.append .stop
    | true => exact wp_mono requestConnect_wp fun _ _ h => ht.append h
  intro b
  cases b with
  | false => exact Sends.stop.did .greet
  | true =>
    refine ⟨fun sel _ => ?_, Sends.stop.did .greet⟩
    change (if sel.getD 0 0 ≠ 0x05 then ret false else if sel.getD 1 0 = 0x02 then _
      else if sel.getD 1 0 ≠ 0x00 then ret false else requestConnect atoi host port).wp _
    split_ifs
    · exact (Sends.stop.got sel).did .greet
    · exact wp_mono hauth fun _ _ h => (h.got sel).did .greet
    · exact (Sends.stop.got sel).did .greet
    · exact wp_mono requestConnect_wp fun _ _ h => (h.got sel).did .greet

def taking (_ : SocksOp) (s : Unit) : Bool × Unit := (true, s)

theorem auth_sent : .did (.auth (authMessage px)) true ∈
    ((socks5Connect atoi px host port).run taking () [0x05, 0x02]).trace := by
  have htrace : ((socks5Connect atoi px host port).run taking () [0x05, 0x02]).trace =
      [.did (.greet greeting) true, .got [0x05, 0x02], .did (.auth (authMessage px)) true] := rfl
  rw [htrace]
  simp

theorem request_sent (hhost : host.bytes.length ≤ 255) :
    .did (.request (connectRequest atoi host port)) true ∈
    ((socks5Connect atoi px host port).run taking () [0x05, 0x00]).trace := by
  have hrun : (socks5Connect atoi px host port).run taking () [0x05, 0x00] =
      ((requestConnect atoi host port).run taking () []).after
        [.did (.greet greeting) true, .got [0x05, 0x00]] := rfl
  rw [hrun, requestConnect, if_neg (by omega)]
  simp [perform_bind, run_call, taking]

end

structure SaysConfigured (px : Proxy) (host port : CString) (val : Bool)
    (t : List (Entry SocksOp SocksOp.Ans)) : Prop where
  auth : ∀ data b, .did (.auth data) b ∈ t → readAuth data = some (px.user, px.pass)
  request : ∀ data b, .did (.request data) b ∈ t →
    ∃ n, portNumber port.bytes = some n ∧ readRequest data = some (host.bytes, n)
  noAuth : ¬AuthEncodable px → .got [0x05, 0x02] ∈ t.take 2 → val = false
  noRequest : ¬TargetEncodable host port → val = false

/-- A user of 256 bytes is announced with the length 0, and port 70000 asked for as 4464. -/
theorem requests_misstated :
    (∃ replies data, .did (.auth data) true ∈ ((socks5Connect .glibc
        ⟨true, ascii "p", ascii "1080", List.replicate 256 0x75, ascii "x"⟩ ⟨ascii "h", by decide⟩
        ⟨ascii "80", by decide⟩).run taking () replies).trace ∧ readAuth data = none) ∧
    ∃ replies data, .did (.request data) true ∈ ((socks5Connect .glibc
        ⟨true, ascii "p", ascii "1080", ascii "u", ascii "x"⟩ ⟨ascii "h", by decide⟩
        ⟨ascii "70000", by decide⟩).run taking () replies).trace ∧
          readRequest data = some (ascii "h", 4464) := by
  refine ⟨⟨[0x05, 0x02], _, auth_sent, ?_⟩, [0x05, 0x00], _, request_sent (by decide), ?_⟩
  · decide +kernel
  · decide +kernel

/-- What was configured is said to every proxy exactly if the credentials have 1 to 255 bytes each
and the port is one, or the host too long to be asked for. -/
theorem says_configured_iff (px : Proxy) (host port : CString) :
    (∀ {σ : Type} (sendAll : (op : SocksOp) → σ → op.Ans × σ) (s : σ) (replies : Bytes),
      let o := (socks5Connect atoi px host port).run sendAll s replies
      SaysConfigured px host port o.val o.trace) ↔
    ((1 ≤ px.user.length ∧ px.user.length ≤ 255) ∧ 1 ≤ px.pass.length ∧ px.pass.length ≤ 255) ∧
      (255 < host.bytes.length ∨ ∃ n < 65536, portNumber port.bytes = some n) := by
  constructor
  · intro h
    have hauth := (h taking () [0x05, 0x02]).auth _ _ auth_sent
    refine ⟨authEncodable_of_readAuth hauth, ?_⟩
    rcases Nat.lt_or_ge 255 host.bytes.length with hlong | hhost
    · exact .inl hlong
    · exact .inr ((readRequest_port atoi hhost).mp
        ((h taking () [0x05, 0x00]).request _ _ (request_sent hhost)))
  · rintro ⟨hauth, htarget⟩ σ sendAll s replies
    have hsends := wp_run sendAll (socks5Connect_wp atoi px host port) s replies
    refine ⟨fun data b hmem => ?_, fun data b hmem => ?_,
      fun hno => absurd hauth hno, fun hno => ?_⟩
    · cases hsends.sendable _ _ hmem
      exact readAuth_authMessage hauth
    · cases hsends.sendable _ _ hmem with
      | request hhost => exact (readRequest_port atoi hhost).mpr (htarget.resolve_left (by omega))
    · apply hsends.refused
      by_contra hlong
      exact hno ⟨Nat.le_of_not_lt hlong, htarget.resolve_left hlong⟩

end Dicker.Client.Socks5
