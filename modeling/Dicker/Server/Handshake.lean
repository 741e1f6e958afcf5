import Dicker.Server.FileSink
import Dicker.Shared.Sha256

/-! The check of a handshake request (server/handshake.cxx). -/

namespace Dicker.Server
open Crypto

structure HandshakeRequest where
  version : UInt16
  flags : UInt8
  algo : CompressionAlgo
  sessionId : Bytes
  deriving DecidableEq

def algoSupported (algo : CompressionAlgo) : Bool := algo == .lz4 || algo == .zstd

/-- `buffer` holds at least `kHandshakeRequestSize` bytes. The status of a request that
passes is `Ok`. -/
def parseAndVerifyHandshake (key buffer : Bytes) : Except HandshakeStatus HandshakeRequest :=
  if buffer.take kMagic.length ≠ kMagic then .error .badMagic
  else
    let expectedHmac := hmacSha256 key (buffer.take kHandshakeSignedPrefixSize)
    let providedHmac := (buffer.drop kHandshakeSignedPrefixSize).take kHmacSize
    if !constantTimeEqual expectedHmac providedHmac then .error .authFailed
    else
      let version := readU16Le (buffer.drop kMagic.length)
      if version < kMinProtocolVersion ∨ kProtocolVersion < version then .error .badVersion
      else
        match CompressionAlgo.ofByte (buffer.getD (kMagic.length + 3) 0) with
        | none => .error .badAlgo
        | some algo =>
          if algoSupported algo then
            .ok ⟨version, buffer.getD (kMagic.length + 2) 0, algo,
              (buffer.drop (kMagic.length + 4)).take kSessionIdSize⟩
          else .error .badAlgo

def sessionHex (sessionId : Bytes) : Bytes :=
  sessionId.flatMap fun (byte : UInt8) =>
    [digits.getD (byte >>> 4).toNat 0, digits.getD (byte &&& 0x0F).toNat 0]

/-! ## What passes -/

structure Authentic (key buffer : Bytes) : Prop where
  magic : buffer.take kMagic.length = kMagic
  hmac : (buffer.drop kHandshakeSignedPrefixSize).take kHmacSize =
    hmacSha256 key (buffer.take kHandshakeSignedPrefixSize)
  version : kMinProtocolVersion ≤ readU16Le (buffer.drop kMagic.length) ∧
    readU16Le (buffer.drop kMagic.length) ≤ kProtocolVersion
  algo : CompressionAlgo.ofByte (buffer.getD (kMagic.length + 3) 0) = some .lz4 ∨
    CompressionAlgo.ofByte (buffer.getD (kMagic.length + 3) 0) = some .zstd

variable {buffer key fields : Bytes}

theorem provided_length (h : kHandshakeRequestSize ≤ buffer.length) :
    ((buffer.drop kHandshakeSignedPrefixSize).take kHmacSize).length = kSha256DigestSize := by
  rw [List.length_take, List.length_drop]
  have hsize : kHandshakeRequestSize = kHandshakeSignedPrefixSize + kHmacSize := rfl
  have hdigest : kSha256DigestSize = kHmacSize := rfl
  omega

theorem parse_eq_ok {algo : CompressionAlgo} (hsize : kHandshakeRequestSize ≤ buffer.length)
    (hmagic : buffer.take kMagic.length = kMagic)
    (hmac : (buffer.drop kHandshakeSignedPrefixSize).take kHmacSize =
      hmacSha256 key (buffer.take kHandshakeSignedPrefixSize))
    (hversion : kMinProtocolVersion ≤ readU16Le (buffer.drop kMagic.length) ∧
      readU16Le (buffer.drop kMagic.length) ≤ kProtocolVersion)
    (halgo : CompressionAlgo.ofByte (buffer.getD (kMagic.length + 3) 0) = some algo)
    (hsupported : algo = .lz4 ∨ algo = .zstd) :
    parseAndVerifyHandshake key buffer = .ok ⟨readU16Le (buffer.drop kMagic.length),
      buffer.getD (kMagic.length + 2) 0, algo,
        (buffer.drop (kMagic.length + 4)).take kSessionIdSize⟩ := by
  have hct := (constantTimeEqual_iff ((hmacSha256_length key
    (buffer.take kHandshakeSignedPrefixSize)).trans (provided_length hsize).symm)).mpr hmac.symm
  have hver : ¬(readU16Le (buffer.drop kMagic.length) < kMinProtocolVersion ∨
      kProtocolVersion < readU16Le (buffer.drop kMagic.length)) := by
    rw [not_or, UInt16.not_lt, UInt16.not_lt]
    exact hversion
  unfold parseAndVerifyHandshake
  rw [if_neg (not_not.mpr hmagic)]
  simp only [hct, Bool.not_true, Bool.false_eq_true, if_false, if_neg hver, halgo]
  rcases hsupported with rfl | rfl <;> rfl

theorem parse_ok_iff (h : kHandshakeRequestSize ≤ buffer.length) :
    (∃ request, parseAndVerifyHandshake key buffer = .ok request) ↔ Authentic key buffer := by
  have heq := constantTimeEqual_iff
    ((hmacSha256_length key (buffer.take kHandshakeSignedPrefixSize)).trans
      (provided_length h).symm)
  constructor
  · rintro ⟨request, hok⟩
    unfold parseAndVerifyHandshake at hok
    dsimp only at hok
    split_ifs at hok with hmagic hmac hversion
    split at hok
    next => cases hok
    next algo halgo =>
      split_ifs at hok with hsupported
      refine ⟨not_not.mp hmagic, ?_, ?_, ?_⟩
      · rw [Bool.not_eq_true', Bool.not_eq_false] at hmac
        exact (heq.mp hmac).symm
      · rw [not_or, UInt16.not_lt, UInt16.not_lt] at hversion
        exact hversion
      · rw [halgo]
        cases algo with
        | none => cases hsupported
        | lz4 => exact .inl rfl
        | zstd => exact .inr rfl
  · rintro ⟨hmagic, hmac, hversion, halgo⟩
    rcases halgo with halgo | halgo
    · exact ⟨_, parse_eq_ok h hmagic hmac hversion halgo (.inl rfl)⟩
    · exact ⟨_, parse_eq_ok h hmagic hmac hversion halgo (.inr rfl)⟩

theorem parse_error {status : HandshakeStatus}
    (h : parseAndVerifyHandshake key buffer = .error status) :
    status ≠ .ok ∧ status ≠ .serverError := by
  unfold parseAndVerifyHandshake at h
  dsimp only at h
  split_ifs at h with hmagic hmac hversion
  · cases h
    decide
  · cases h
    decide
  · cases h
    decide
  · split at h
    next =>
      cases h
      decide
    next =>
      split_ifs at h
      cases h
      decide

theorem parse_magic {request : HandshakeRequest}
    (h : parseAndVerifyHandshake key buffer = .ok request) :
    buffer.take kMagic.length = kMagic := by
  unfold parseAndVerifyHandshake at h
  split_ifs at h with hmagic
  all_goals exact not_not.mp hmagic

theorem parse_take :
    parseAndVerifyHandshake key (buffer.take kHandshakeRequestSize) =
      parseAndVerifyHandshake key buffer := by
  have htake : ∀ n ≤ kHandshakeRequestSize, (buffer.take kHandshakeRequestSize).take n =
      buffer.take n := fun n hn => by rw [List.take_take, Nat.min_eq_left hn]
  have hgetD : ∀ i < kHandshakeRequestSize, (buffer.take kHandshakeRequestSize).getD i 0 =
      buffer.getD i 0 := fun i hi => by
    rw [List.getD_eq_getElem?_getD, List.getElem?_take_of_lt hi, List.getD_eq_getElem?_getD]
  have hversion : readU16Le ((buffer.take kHandshakeRequestSize).drop kMagic.length) =
      readU16Le (buffer.drop kMagic.length) := by
    unfold readU16Le
    simp only [List.getD_eq_getElem?_getD, List.getElem?_drop]
    simp only [← List.getD_eq_getElem?_getD]
    rw [hgetD _ (by decide), hgetD _ (by decide)]
  have hfield : ∀ m n, m + n ≤ kHandshakeRequestSize →
      ((buffer.take kHandshakeRequestSize).drop m).take n = (buffer.drop m).take n := by
    intro m n hmn
    rw [List.drop_take, List.take_take, Nat.min_eq_left (by omega)]
  unfold parseAndVerifyHandshake
  rw [htake _ (by decide), htake _ (by decide), hfield _ _ (by decide), hfield _ _ (by decide),
    hversion, hgetD _ (by decide), hgetD _ (by decide)]

theorem parse_append {data : Bytes} (hsize : kHandshakeRequestSize ≤ buffer.length) :
    parseAndVerifyHandshake key (buffer ++ data) = parseAndVerifyHandshake key buffer := by
  rw [← parse_take, List.take_append_of_le_length hsize, parse_take]

theorem Authentic.append (h : Authentic key buffer) (hsize : kHandshakeRequestSize ≤ buffer.length)
    (data : Bytes) : Authentic key (buffer ++ data) := by
  have hsize' : kHandshakeRequestSize ≤ (buffer ++ data).length := by
    rw [List.length_append]
    omega
  rw [← parse_ok_iff hsize', parse_append hsize, parse_ok_iff hsize]
  exact h

def signed (key fields : Bytes) : Bytes := fields ++ hmacSha256 key fields

section
variable (key) (rest : Bytes) (h : fields.length = kHandshakeSignedPrefixSize)
include h

theorem signed_length : (signed key fields).length = kHandshakeRequestSize := by
  rw [signed, List.length_append, hmacSha256_length, h]
  rfl

theorem signed_take {n : ℕ} (hn : n ≤ kHandshakeSignedPrefixSize) :
    (signed key fields ++ rest).take n = fields.take n := by
  rw [signed, List.append_assoc, List.take_append_of_le_length (h ▸ hn)]

theorem signed_hmac :
    ((signed key fields ++ rest).drop kHandshakeSignedPrefixSize).take kHmacSize =
      hmacSha256 key fields := by
  rw [signed, List.append_assoc, ← h, List.drop_left]
  exact List.take_left' (hmacSha256_length key fields)

theorem signed_getD {i : ℕ} (hi : i < kHandshakeSignedPrefixSize) :
    (signed key fields ++ rest).getD i 0 = fields.getD i 0 := by
  rw [signed, List.append_assoc]
  exact List.getD_append fields (hmacSha256 key fields ++ rest) 0 i (h ▸ hi)

theorem signed_version :
    readU16Le ((signed key fields ++ rest).drop kMagic.length) =
      readU16Le (fields.drop kMagic.length) := by
  have hget : ∀ i < kHandshakeSignedPrefixSize - kMagic.length,
      ((signed key fields ++ rest).drop kMagic.length).getD i 0 =
        (fields.drop kMagic.length).getD i 0 := by
    intro i hi
    rw [List.getD_eq_getElem?_getD, List.getD_eq_getElem?_getD, List.getElem?_drop,
      List.getElem?_drop, ← List.getD_eq_getElem?_getD, ← List.getD_eq_getElem?_getD]
    exact signed_getD key rest h (by omega)
  unfold readU16Le
  rw [hget 0 (by decide), hget 1 (by decide)]

theorem parse_signed {algo : CompressionAlgo} (hmagic : fields.take kMagic.length = kMagic)
    (hversion : kMinProtocolVersion ≤ readU16Le (fields.drop kMagic.length) ∧
      readU16Le (fields.drop kMagic.length) ≤ kProtocolVersion)
    (halgo : CompressionAlgo.ofByte (fields.getD (kMagic.length + 3) 0) = some algo)
    (hsupported : algo = .lz4 ∨ algo = .zstd) :
    parseAndVerifyHandshake key (signed key fields ++ rest) =
      .ok ⟨readU16Le (fields.drop kMagic.length),
      fields.getD (kMagic.length + 2) 0, algo,
        (fields.drop (kMagic.length + 4)).take kSessionIdSize⟩ := by
  have hsize : kHandshakeRequestSize ≤ (signed key fields ++ rest).length := by
    rw [List.length_append, signed_length key h]
    exact Nat.le_add_right _ _
  have hsession : ((signed key fields ++ rest).drop (kMagic.length + 4)).take kSessionIdSize =
      (fields.drop (kMagic.length + 4)).take kSessionIdSize := by
    rw [signed, List.append_assoc, List.drop_append_of_le_length (by rw [h]; decide),
      List.take_append_of_le_length (by rw [List.length_drop, h]; decide)]
  have hprefix : (signed key fields ++ rest).take kHandshakeSignedPrefixSize = fields := by
    rw [signed_take key rest h le_rfl, ← h, List.take_length]
  rw [← signed_take key rest h (by decide)] at hmagic
  rw [← signed_version key rest h] at hversion
  rw [← signed_getD key rest h (by decide)] at halgo
  have hmac := (signed_hmac key rest h).trans (congrArg (hmacSha256 key) hprefix.symm)
  rw [parse_eq_ok hsize hmagic hmac hversion halgo hsupported, signed_version key rest h,
    signed_getD key rest h (by decide), hsession]

theorem parse_signed_badVersion (hmagic : fields.take kMagic.length = kMagic)
    (hversion : readU16Le (fields.drop kMagic.length) < kMinProtocolVersion ∨
      kProtocolVersion < readU16Le (fields.drop kMagic.length)) :
    parseAndVerifyHandshake key (signed key fields ++ rest) = .error .badVersion := by
  have hsigned := signed_hmac key rest h
  have hct : constantTimeEqual (hmacSha256 key fields) (hmacSha256 key fields) = true :=
    (constantTimeEqual_iff rfl).mpr rfl
  rw [← signed_take key rest h (by decide)] at hmagic
  rw [← signed_version key rest h] at hversion
  unfold parseAndVerifyHandshake
  rw [if_neg (not_not.mpr hmagic)]
  dsimp only
  rw [hsigned, signed_take key rest h le_rfl, ← h, List.take_length, hct, Bool.not_true,
    if_neg Bool.false_ne_true, if_pos hversion]

end

end Dicker.Server
