import Dicker.Shared.Sha256
import Dicker.Server.FileSink

/-! The encrypted files of the server (server/db.cxx): sealing under AES-GCM, the hexadecimal lines
of the session log, and the JSON rows. -/

namespace Dicker.Server

/-! ## Libraries -/

inductive Json where
  | string (text : Bytes)
  | unsigned (n : UInt64)
  | array (items : List Json)
  | object (fields : List (String × Json))
  | other

/-- `nlohmann::json`. `parse` gives `none` for what it discards. -/
structure JsonLibrary where
  dump : Json → Bytes
  parse : Bytes → Option Json

/-- `dump` and `parse` keep the fields of an object, in whichever order. -/
def JsonLibrary.Keeps (json : JsonLibrary) (fields : List (String × Json)) : Prop :=
  ∃ fields', json.parse (json.dump (.object fields)) = some (.object fields') ∧
    ∀ key, fields'.lookup key = fields.lookup key

abbrev Block (n : ℕ) := { bytes : Bytes // bytes.length = n }

def kNonceSize : ℕ := 12
def kTagSize : ℕ := 16

theorem length_zeroTag : (List.replicate 16 (0 : UInt8)).length = kTagSize := rfl

/-- AES-256-GCM under the key that is derived from the secret. -/
structure AesGcm where
  encrypt : Block kNonceSize → Bytes → Bytes × Block kTagSize
  decrypt : Block kNonceSize → Block kTagSize → Bytes → Option Bytes

namespace AesGcm
variable {aes : AesGcm}

/-- It opens what was sealed under the key, and rejects anything else. -/
def Opens (aes : AesGcm) (used : List (Block kNonceSize × Bytes)) : Prop :=
  ∀ nonce tag cipher plain, aes.decrypt nonce tag cipher = some plain ↔
    (nonce, plain) ∈ used ∧ aes.encrypt nonce plain = (cipher, tag)

def RoundTrips (aes : AesGcm) : Prop :=
  ∀ nonce plain, aes.decrypt nonce (aes.encrypt nonce plain).2
    (aes.encrypt nonce plain).1 = some plain

/-! ## Sealing -/

/-- `gcm_seal`. There is no nonce when the random generator or the cipher fails. -/
def gcmSeal (aes : AesGcm) (nonce : Option (Block kNonceSize)) (plain : Bytes) : Option Bytes :=
  nonce.map fun nonce => nonce.1 ++ (aes.encrypt nonce plain).2.1 ++ (aes.encrypt nonce plain).1

def gcmOpen (aes : AesGcm) (sealed : Bytes) : Option Bytes :=
  if h : sealed.length < kNonceSize + kTagSize then none
  else aes.decrypt ⟨sealed.take kNonceSize,
    List.length_take_of_le (Nat.le_of_add_right_le (Nat.not_lt.mp h))⟩
    ⟨(sealed.drop kNonceSize).take kTagSize,
      List.length_take_of_le (by rw [List.length_drop]; omega)⟩
    (sealed.drop (kNonceSize + kTagSize))

theorem gcmOpen_layOut (nonce : Block kNonceSize) (tag : Block kTagSize) (cipher : Bytes) :
    aes.gcmOpen (nonce.1 ++ tag.1 ++ cipher) = aes.decrypt nonce tag cipher := by
  obtain ⟨nonce, hnonce⟩ := nonce
  obtain ⟨tag, htag⟩ := tag
  have hlen : (nonce ++ tag).length = kNonceSize + kTagSize := by
    rw [List.length_append, hnonce, htag]
  have hlong : ¬(nonce ++ tag ++ cipher).length < kNonceSize + kTagSize := by
    rw [List.length_append, hlen]
    exact Nat.not_lt.mpr (Nat.le_add_right _ _)
  have hfirst : (nonce ++ tag ++ cipher).take kNonceSize = nonce := by
    rw [List.append_assoc, List.take_left' hnonce]
  have hsecond : ((nonce ++ tag ++ cipher).drop kNonceSize).take kTagSize = tag := by
    rw [List.append_assoc, List.drop_left' hnonce, List.take_left' htag]
  unfold gcmOpen
  rw [dif_neg hlong]
  congr 1
  · exact Subtype.ext hfirst
  · exact Subtype.ext hsecond
  · exact List.drop_left' hlen

variable {sealed plain : Bytes}

theorem layOut_of_length (h : ¬sealed.length < kNonceSize + kTagSize) :
    ∃ (nonce : Block kNonceSize) (tag : Block kTagSize) (cipher : Bytes), sealed = nonce.1 ++
      tag.1 ++ cipher := by
  refine ⟨⟨sealed.take kNonceSize, List.length_take_of_le
    (Nat.le_of_add_right_le (Nat.not_lt.mp h))⟩,
    ⟨(sealed.drop kNonceSize).take kTagSize,
      List.length_take_of_le (by rw [List.length_drop]; omega)⟩,
    sealed.drop (kNonceSize + kTagSize), ?_⟩
  rw [List.append_assoc, ← List.drop_drop, List.take_append_drop, List.take_append_drop]

theorem Opens.gcmOpen_iff {used : List (Block kNonceSize × Bytes)} (h : aes.Opens used) :
    aes.gcmOpen sealed = some plain ↔ ∃ nonce, (nonce, plain) ∈ used ∧
      aes.gcmSeal (some nonce) plain = some sealed := by
  constructor
  · intro hopen
    by_cases hshort : sealed.length < kNonceSize + kTagSize
    · rw [gcmOpen, dif_pos hshort] at hopen
      cases hopen
    · obtain ⟨nonce, tag, cipher, rfl⟩ := layOut_of_length hshort
      rw [gcmOpen_layOut] at hopen
      obtain ⟨hused, henc⟩ := (h nonce tag cipher plain).mp hopen
      refine ⟨nonce, hused, ?_⟩
      rw [gcmSeal, Option.map_some, henc]
  · rintro ⟨nonce, hused, hseal⟩
    obtain rfl := Option.some.inj hseal
    rw [gcmOpen_layOut]
    exact (h nonce _ _ plain).mpr ⟨hused, rfl⟩

theorem RoundTrips.gcmOpen_seal (h : aes.RoundTrips) {nonce : Option (Block kNonceSize)}
    (hseal : aes.gcmSeal nonce plain = some sealed) : aes.gcmOpen sealed = some plain := by
  obtain ⟨nonce, -, rfl⟩ := Option.map_eq_some_iff.mp hseal
  rw [gcmOpen_layOut]
  exact h nonce plain

theorem gcmSeal_ne_nil {nonce : Option (Block kNonceSize)}
    (h : aes.gcmSeal nonce plain = some sealed) : sealed ≠ [] := by
  obtain ⟨nonce, -, rfl⟩ := Option.map_eq_some_iff.mp h
  intro hnil
  have hlen := nonce.2
  rw [List.append_assoc, List.append_eq_nil_iff] at hnil
  rw [hnil.1] at hlen
  exact absurd hlen (by decide)

def ofList (used : List (Block kNonceSize × Bytes)) : AesGcm where
  encrypt _ plain := (plain, ⟨List.replicate 16 0, length_zeroTag⟩)
  decrypt nonce tag cipher :=
    if (nonce, cipher) ∈ used ∧ tag.1 = List.replicate 16 0 then some cipher else none

theorem ofList_opens (used : List (Block kNonceSize × Bytes)) : (ofList used).Opens used := by
  intro nonce tag cipher plain
  show (if _ then some cipher else none) = some plain ↔ _ ∧ (plain, _) = (cipher, tag)
  rw [Option.ite_none_right_eq_some, Prod.mk.injEq, Option.some.injEq]
  constructor
  · rintro ⟨⟨hused, htag⟩, rfl⟩
    exact ⟨hused, rfl, Subtype.ext htag.symm⟩
  · rintro ⟨hused, rfl, rfl⟩
    exact ⟨⟨hused, rfl⟩, rfl⟩

def bare : AesGcm :=
  ⟨fun _ plain => (plain, ⟨List.replicate 16 0, length_zeroTag⟩), fun _ _ cipher => some cipher⟩

theorem bare_roundTrips : bare.RoundTrips := fun _ _ => rfl

end AesGcm

/-! ## Hexadecimal lines -/

def hexEncode (bytes : Bytes) : Bytes :=
  bytes.flatMap fun (byte : UInt8) =>
    [digits.getD (byte >>> 4).toNat 0, digits.getD (byte &&& 0x0F).toNat 0]

def nibble (c : UInt8) : Option UInt8 :=
  if 0x30 ≤ c ∧ c ≤ 0x39 then some (c - 0x30)
  else if 0x61 ≤ c ∧ c ≤ 0x66 then some (c - 0x61 + 10)
  else if 0x41 ≤ c ∧ c ≤ 0x46 then some (c - 0x41 + 10)
  else none

def hexDecodeLoop : Bytes → Option Bytes
  | hi :: lo :: rest =>
    match nibble hi, nibble lo with
    | some hi, some lo => (hexDecodeLoop rest).map fun out => (hi <<< 4 ||| lo) :: out
    | _, _ => none
  | _ => some []

def hexDecode (text : Bytes) : Option Bytes :=
  if text.length % 2 ≠ 0 then none else hexDecodeLoop text

theorem nibble_digits : ∀ n : Fin 16, nibble (digits.getD n 0) = some (UInt8.ofNat n) := by decide

theorem digits_nibble :
    ∀ c ∈ digits, ∃ n : Fin 16, nibble c = some (UInt8.ofNat n) ∧ digits.getD n 0 = c := by
  decide +kernel

theorem join_nibbles :
    ∀ n : Fin 256, UInt8.ofNat n >>> 4 <<< 4 ||| UInt8.ofNat n &&& 0x0F = UInt8.ofNat n := by
  decide +kernel

theorem split_nibbles : ∀ n m : Fin 16, ((UInt8.ofNat n <<< 4 ||| UInt8.ofNat m) >>> 4).toNat = n ∧
    ((UInt8.ofNat n <<< 4 ||| UInt8.ofNat m) &&& 0x0F).toNat = m := by
  decide +kernel

theorem nibble_digit {n : UInt8} (h : n.toNat < 16) : nibble (digits.getD n.toNat 0) = some n := by
  have hn := nibble_digits ⟨n.toNat, h⟩
  rwa [UInt8.ofNat_toNat] at hn

theorem hexEncode_length (bytes : Bytes) : (hexEncode bytes).length = 2 * bytes.length := by
  induction bytes with
  | nil => rfl
  | cons byte bytes ih =>
    rw [hexEncode, List.flatMap_cons, List.length_append, ← hexEncode, ih, List.length_cons]
    exact (Nat.add_comm ..).trans (Nat.mul_succ 2 _).symm

theorem high_lt (byte : UInt8) : (byte >>> 4).toNat < 16 := by
  rw [UInt8.toNat_shiftRight, Nat.shiftRight_eq_div_pow]
  exact Nat.div_lt_of_lt_mul byte.toNat_lt

theorem low_lt (byte : UInt8) : (byte &&& 0x0F).toNat < 16 := by
  rw [UInt8.toNat_and]
  exact Nat.lt_of_le_of_lt Nat.and_le_right (by decide)

theorem hexEncode_cons (byte : UInt8) (bytes : Bytes) : hexEncode (byte :: bytes) =
    digits.getD (byte >>> 4).toNat 0 :: digits.getD (byte &&& 0x0F).toNat 0 :: hexEncode bytes :=
  rfl

theorem hexDecodeLoop_hexEncode (bytes : Bytes) : hexDecodeLoop (hexEncode bytes) = some bytes := by
  induction bytes with
  | nil => rfl
  | cons byte bytes ih =>
    have hbyte := join_nibbles ⟨byte.toNat, byte.toNat_lt⟩
    rw [UInt8.ofNat_toNat] at hbyte
    rw [hexEncode_cons, hexDecodeLoop, nibble_digit (high_lt byte), nibble_digit (low_lt byte), ih]
    show some (_ :: bytes) = _
    rw [hbyte]

theorem hexDecode_hexEncode (bytes : Bytes) : hexDecode (hexEncode bytes) = some bytes := by
  have heven : ¬(hexEncode bytes).length % 2 ≠ 0 := by
    rw [hexEncode_length, Nat.mul_mod_right]
    exact fun h => h rfl
  rw [hexDecode, if_neg heven, hexDecodeLoop_hexEncode]

theorem hexEncode_digits {bytes : Bytes} {c : UInt8} (h : c ∈ hexEncode bytes) : c ∈ digits := by
  have hdigit : ∀ n < 16, digits.getD n 0 ∈ digits := by decide
  obtain ⟨byte, -, hc⟩ := List.mem_flatMap.mp h
  rcases List.mem_cons.mp hc with rfl | hc
  · exact hdigit _ (high_lt byte)
  · rw [List.mem_singleton.mp hc]
    exact hdigit _ (low_lt byte)

theorem hexEncode_of_hexDecodeLoop :
    ∀ {text bytes : Bytes}, (∀ c ∈ text, c ∈ digits) → text.length % 2 = 0 →
    hexDecodeLoop text = some bytes → text = hexEncode bytes
  | [], _, _, _, h => by
    obtain rfl := Option.some.inj h
    rfl
  | [_], _, _, heven, _ => absurd heven Nat.one_ne_zero
  | hi :: lo :: rest, bytes, hlower, heven, h => by
    obtain ⟨n, hn, rfl⟩ := digits_nibble hi (hlower hi List.mem_cons_self)
    obtain ⟨m, hm, rfl⟩ := digits_nibble lo (hlower lo (List.mem_cons_of_mem _ List.mem_cons_self))
    rw [hexDecodeLoop, hn, hm] at h
    obtain ⟨out, hout, rfl⟩ := Option.map_eq_some_iff.mp h
    rw [List.length_cons, List.length_cons, Nat.add_assoc, Nat.add_mod_right] at heven
    have hrest := hexEncode_of_hexDecodeLoop
      (fun c hc => hlower c (List.mem_cons_of_mem _ (List.mem_cons_of_mem _ hc))) heven hout
    obtain ⟨hhigh, hlow⟩ := split_nibbles n m
    rw [hexEncode_cons, hhigh, hlow, ← hrest]

theorem hexEncode_of_hexDecode {text bytes : Bytes} (hlower : ∀ c ∈ text, c ∈ digits)
    (h : hexDecode text = some bytes) : text = hexEncode bytes := by
  unfold hexDecode at h
  split_ifs at h with hodd
  exact hexEncode_of_hexDecodeLoop hlower (not_ne_iff.mp hodd) h

end Dicker.Server
