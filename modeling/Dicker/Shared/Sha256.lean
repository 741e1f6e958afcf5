import Dicker.Shared.Wire

/-! SHA-256 and the keyed hash over it (shared/sha256.h, shared/hmac_sha256.h). -/

namespace Dicker.Crypto

def kSha256DigestSize : ℕ := 32

def kSha256BlockSize : ℕ := 64

def kRoundConstants : List UInt32 := [
  0x428a2f98, 0x71374491, 0xb5c0fbcf, 0xe9b5dba5, 0x3956c25b, 0x59f111f1, 0x923f82a4, 0xab1c5ed5,
  0xd807aa98, 0x12835b01, 0x243185be, 0x550c7dc3, 0x72be5d74, 0x80deb1fe, 0x9bdc06a7, 0xc19bf174,
  0xe49b69c1, 0xefbe4786, 0x0fc19dc6, 0x240ca1cc, 0x2de92c6f, 0x4a7484aa, 0x5cb0a9dc, 0x76f988da,
  0x983e5152, 0xa831c66d, 0xb00327c8, 0xbf597fc7, 0xc6e00bf3, 0xd5a79147, 0x06ca6351, 0x14292967,
  0x27b70a85, 0x2e1b2138, 0x4d2c6dfc, 0x53380d13, 0x650a7354, 0x766a0abb, 0x81c2c92e, 0x92722c85,
  0xa2bfe8a1, 0xa81a664b, 0xc24b8b70, 0xc76c51a3, 0xd192e819, 0xd6990624, 0xf40e3585, 0x106aa070,
  0x19a4c116, 0x1e376c08, 0x2748774c, 0x34b0bcb5, 0x391c0cb3, 0x4ed8aa4a, 0x5b9cca4f, 0x682e6ff3,
  0x748f82ee, 0x78a5636f, 0x84c87814, 0x8cc70208, 0x90befffa, 0xa4506ceb, 0xbef9a3f7, 0xc67178f2]

def rotateRight (value bits : UInt32) : UInt32 := (value >>> bits) ||| (value <<< (32 - bits))

structure Words where
  a : UInt32
  b : UInt32
  c : UInt32
  d : UInt32
  e : UInt32
  f : UInt32
  g : UInt32
  h : UInt32

structure Sha256 where
  state : Words
  bitCount : UInt64
  buffer : Bytes

def Sha256.reset : Sha256 :=
  ⟨⟨0x6a09e667, 0xbb67ae85, 0x3c6ef372, 0xa54ff53a, 0x510e527f, 0x9b05688c, 0x1f83d9ab, 0x5be0cd19⟩,
    0, []⟩

def blockWords : Bytes → List UInt32
  | p :: q :: r :: s :: rest =>
    ((p.toUInt32 <<< 24) ||| (q.toUInt32 <<< 16) ||| (r.toUInt32 <<< 8) ||| s.toUInt32) ::
      blockWords rest
  | _ => []

def extendSchedule : ℕ → List UInt32 → List UInt32
  | 0, w => w
  | n + 1, w =>
    let i := w.length
    let w15 := w.getD (i - 15) 0
    let w2 := w.getD (i - 2) 0
    let s0 := rotateRight w15 7 ^^^ rotateRight w15 18 ^^^ (w15 >>> 3)
    let s1 := rotateRight w2 17 ^^^ rotateRight w2 19 ^^^ (w2 >>> 10)
    extendSchedule n (w ++ [w.getD (i - 16) 0 + s0 + w.getD (i - 7) 0 + s1])

def round (v : Words) (kw : UInt32 × UInt32) : Words :=
  let bigS1 := rotateRight v.e 6 ^^^ rotateRight v.e 11 ^^^ rotateRight v.e 25
  let choose := (v.e &&& v.f) ^^^ (~~~v.e &&& v.g)
  let temp1 := v.h + bigS1 + choose + kw.1 + kw.2
  let bigS0 := rotateRight v.a 2 ^^^ rotateRight v.a 13 ^^^ rotateRight v.a 22
  let majority := (v.a &&& v.b) ^^^ (v.a &&& v.c) ^^^ (v.b &&& v.c)
  let temp2 := bigS0 + majority
  ⟨temp1 + temp2, v.a, v.b, v.c, v.d + temp1, v.e, v.f, v.g⟩

def processBlock (state : Words) (block : Bytes) : Words :=
  let w := extendSchedule 48 (blockWords block)
  let v := (kRoundConstants.zip w).foldl round state
  ⟨state.a + v.a, state.b + v.b, state.c + v.c, state.d + v.d,
    state.e + v.e, state.f + v.f, state.g + v.g, state.h + v.h⟩

/-- One byte into the buffer, which is processed when it is full. `update` copies as many
bytes at a time as fit, to the same effect. -/
def Sha256.absorb (s : Sha256) (byte : UInt8) : Sha256 :=
  if s.buffer.length + 1 = kSha256BlockSize then
    { s with state := processBlock s.state (s.buffer ++ [byte]), buffer := [] }
  else { s with buffer := s.buffer ++ [byte] }

def Sha256.update (s : Sha256) (data : Bytes) : Sha256 :=
  data.foldl absorb { s with bitCount := s.bitCount + UInt64.ofNat data.length * 8 }

def Sha256.padZeros : ℕ → Sha256 → Sha256
  | 0, s => s
  | n + 1, s =>
    if s.buffer.length ≠ kSha256BlockSize - 8 then padZeros n (s.update [0x00]) else s

def lengthBlock (totalBits : UInt64) : Bytes :=
  (List.range 8).map fun i => (totalBits >>> UInt64.ofNat (56 - i * 8)).toUInt8

def wordBytes (w : UInt32) : Bytes :=
  [(w >>> 24).toUInt8, (w >>> 16).toUInt8, (w >>> 8).toUInt8, w.toUInt8]

def Sha256.finish (s : Sha256) : Bytes :=
  let totalBits := s.bitCount
  let v := (((s.update [0x80]).padZeros kSha256BlockSize).update (lengthBlock totalBits)).state
  wordBytes v.a ++ wordBytes v.b ++ wordBytes v.c ++ wordBytes v.d ++
    wordBytes v.e ++ wordBytes v.f ++ wordBytes v.g ++ wordBytes v.h

def sha256 (data : Bytes) : Bytes := (Sha256.reset.update data).finish

@[simp] theorem Sha256.finish_length (s : Sha256) : s.finish.length = kSha256DigestSize := rfl

def blockKey (key : Bytes) : Bytes :=
  let k := if kSha256BlockSize < key.length then sha256 key else key
  k ++ List.replicate (kSha256BlockSize - k.length) 0

def hmacSha256 (key message : Bytes) : Bytes :=
  let innerPad := (blockKey key).map (· ^^^ 0x36)
  let outerPad := (blockKey key).map (· ^^^ 0x5c)
  let innerDigest := ((Sha256.reset.update innerPad).update message).finish
  ((Sha256.reset.update outerPad).update innerDigest).finish

@[simp] theorem hmacSha256_length (key message : Bytes) :
    (hmacSha256 key message).length = kSha256DigestSize := rfl

def constantTimeEqual (a b : Bytes) : Bool :=
  (List.zipWith (· ^^^ ·) a b).foldl (· ||| ·) 0 == 0

theorem foldl_or_eq_zero (d : UInt8) (ds : Bytes) :
    ds.foldl (· ||| ·) d = 0 ↔ d = 0 ∧ ∀ x ∈ ds, x = 0 := by
  induction ds generalizing d with
  | nil => simp
  | cons x ds ih =>
    rw [List.foldl_cons, ih, List.forall_mem_cons, UInt8.or_eq_zero_iff, and_assoc]

theorem constantTimeEqual_iff {a b : Bytes} (h : a.length = b.length) :
    constantTimeEqual a b = true ↔ a = b := by
  unfold constantTimeEqual
  rw [beq_iff_eq, foldl_or_eq_zero]
  simp only [true_and]
  induction a generalizing b with
  | nil => exact ⟨fun _ => (List.eq_nil_of_length_eq_zero h.symm).symm, fun _ => nofun⟩
  | cons x a ih =>
    obtain ⟨y, b, rfl⟩ := List.exists_cons_of_length_eq_add_one h.symm
    rw [List.zipWith_cons_cons, List.forall_mem_cons, UInt8.xor_eq_zero_iff, ih (Nat.succ.inj h),
      List.cons.injEq]

example : sha256 [0x61, 0x62, 0x63] =
    [0xba, 0x78, 0x16, 0xbf, 0x8f, 0x01, 0xcf, 0xea, 0x41, 0x41, 0x40, 0xde, 0x5d, 0xae, 0x22, 0x23,
      0xb0, 0x03, 0x61, 0xa3, 0x96, 0x17, 0x7a, 0x9c, 0xb4, 0x10, 0xff, 0x61, 0xf2, 0x00,
        0x15, 0xad] := by
  decide +kernel

end Dicker.Crypto
