import Mathlib

/-! SHA-256 as FIPS 180-4 defines it, over strings of bits, and the keyed hash of RFC 2104 over any
hash of byte strings. -/

namespace Lib.Fips180

/-! ## Strings of bits -/

def value (bits : List Bool) : ℕ := bits.foldl (fun n b => 2 * n + b.toNat) 0

def digits (w n : ℕ) : List Bool := (List.range w).map fun i => n.testBit (w - 1 - i)

def ofBytes (bytes : List UInt8) : List Bool := bytes.flatMap fun b => digits 8 b.toNat

def toBytes : List Bool → List UInt8
  | b₀ :: b₁ :: b₂ :: b₃ :: b₄ :: b₅ :: b₆ :: b₇ :: rest =>
    UInt8.ofNat (value [b₀, b₁, b₂, b₃, b₄, b₅, b₆, b₇]) :: toBytes rest
  | _ => []

/-! ## Section 4: functions and constants -/

abbrev Word := BitVec 32

def rotr (n : ℕ) (x : Word) : Word := x.rotateRight n

def shr (n : ℕ) (x : Word) : Word := x >>> n

def ch (x y z : Word) : Word := (x &&& y) ^^^ (~~~x &&& z)

def maj (x y z : Word) : Word := (x &&& y) ^^^ (x &&& z) ^^^ (y &&& z)

def bigSigma0 (x : Word) : Word := rotr 2 x ^^^ rotr 13 x ^^^ rotr 22 x

def bigSigma1 (x : Word) : Word := rotr 6 x ^^^ rotr 11 x ^^^ rotr 25 x

def sigma0 (x : Word) : Word := rotr 7 x ^^^ rotr 18 x ^^^ shr 3 x

def sigma1 (x : Word) : Word := rotr 17 x ^^^ rotr 19 x ^^^ shr 10 x

def primes : List ℕ := (List.range 312).filter Nat.Prime

/-- The first 32 bits of the fractional part of a `k`-th root. -/
def rootFraction (k n : ℕ) : Word := BitVec.ofNat 32 (Nat.nthRoot k (n * 2 ^ (32 * k)))

def constant (t : ℕ) : Word := rootFraction 3 (primes.getD t 0)

structure Work where
  a : Word
  b : Word
  c : Word
  d : Word
  e : Word
  f : Word
  g : Word
  h : Word
  deriving DecidableEq

/-! ## Section 5: preprocessing -/

def zeros (len : ℕ) : ℕ := ((448 - (len + 1) : ℤ) % 512).toNat

def pad (message : List Bool) : List Bool :=
  message ++ true :: List.replicate (zeros message.length) false ++ digits 64 message.length

def initial : Work where
  a := rootFraction 2 (primes.getD 0 0)
  b := rootFraction 2 (primes.getD 1 0)
  c := rootFraction 2 (primes.getD 2 0)
  d := rootFraction 2 (primes.getD 3 0)
  e := rootFraction 2 (primes.getD 4 0)
  f := rootFraction 2 (primes.getD 5 0)
  g := rootFraction 2 (primes.getD 6 0)
  h := rootFraction 2 (primes.getD 7 0)

/-! ## Section 6: computation -/

def blockWord (block : List Bool) (t : ℕ) : Word :=
  BitVec.ofNat 32 (value ((block.drop (32 * t)).take 32))

def schedule (block : List Bool) (t : ℕ) : Word :=
  if t < 16 then blockWord block t
  else sigma1 (schedule block (t - 2)) + schedule block (t - 7) + sigma0 (schedule block (t - 15)) +
    schedule block (t - 16)
termination_by t

def step (k w : Word) (v : Work) : Work :=
  let t1 := v.h + bigSigma1 v.e + ch v.e v.f v.g + k + w
  let t2 := bigSigma0 v.a + maj v.a v.b v.c
  ⟨t1 + t2, v.a, v.b, v.c, v.d + t1, v.e, v.f, v.g⟩

def Work.add (v u : Work) : Work :=
  ⟨v.a + u.a, v.b + u.b, v.c + u.c, v.d + u.d, v.e + u.e, v.f + u.f, v.g + u.g, v.h + u.h⟩

def compress (hash : Work) (block : List Bool) : Work :=
  ((List.range 64).foldl (fun v t => step (constant t) (schedule block t) v) hash).add hash

def block (padded : List Bool) (i : ℕ) : List Bool := (padded.drop (512 * i)).take 512

def Work.bits (v : Work) : List Bool :=
  digits 32 v.a.toNat ++ digits 32 v.b.toNat ++ digits 32 v.c.toNat ++ digits 32 v.d.toNat ++
    digits 32 v.e.toNat ++ digits 32 v.f.toNat ++ digits 32 v.g.toNat ++ digits 32 v.h.toNat

def sha256 (message : List Bool) : List Bool :=
  let padded := pad message
  ((List.range (padded.length / 512)).foldl
    (fun hash i => compress hash (block padded i)) initial).bits

def sha256Bytes (message : List UInt8) : List UInt8 := toBytes (sha256 (ofBytes message))

/-! ## Constants -/

theorem rootFraction_eq {k n whole fraction : ℕ} (hk : k ≠ 0)
    (hlow : (whole * 2 ^ 32 + fraction) ^ k ≤ n * 2 ^ (32 * k))
    (hhigh : n * 2 ^ (32 * k) < (whole * 2 ^ 32 + fraction + 1) ^ k) :
    rootFraction k n = BitVec.ofNat 32 fraction := by
  have hroot : Nat.nthRoot k (n * 2 ^ (32 * k)) = whole * 2 ^ 32 + fraction := by
    apply le_antisymm
    · apply Nat.le_of_lt_succ
      by_contra hge
      have hpow := (Nat.le_nthRoot_iff hk).mp (Nat.le_of_not_lt hge)
      exact absurd hhigh (Nat.not_lt.mpr hpow)
    · exact (Nat.le_nthRoot_iff hk).mpr hlow
  rw [rootFraction, hroot]
  apply BitVec.eq_of_toNat_eq
  rw [BitVec.toNat_ofNat, BitVec.toNat_ofNat, Nat.mul_comm, Nat.mul_add_mod]

/-! ## Values and digits -/

theorem value_foldl (bits : List Bool) (n : ℕ) :
    bits.foldl (fun n b => 2 * n + b.toNat) n = n * 2 ^ bits.length + value bits := by
  induction bits generalizing n with
  | nil => simp [value]
  | cons b bits ih =>
    rw [value, List.foldl_cons, List.foldl_cons, ih, ih, List.length_cons, pow_succ]
    ring

theorem value_cons (b : Bool) (bits : List Bool) :
    value (b :: bits) = b.toNat * 2 ^ bits.length + value bits := by
  rw [value, List.foldl_cons, value_foldl]
  simp

theorem value_append (xs ys : List Bool) :
    value (xs ++ ys) = value xs * 2 ^ ys.length + value ys := by
  rw [value, List.foldl_append, value_foldl]
  rfl

theorem value_lt (bits : List Bool) : value bits < 2 ^ bits.length := by
  induction bits with
  | nil => exact Nat.one_pos
  | cons b bits ih =>
    have hb := b.toNat_le
    rw [value_cons, List.length_cons, pow_succ]
    nlinarith

theorem eq_of_value_eq {xs ys : List Bool} (hlen : xs.length = ys.length)
    (h : value xs = value ys) :
    xs = ys := by
  induction xs generalizing ys with
  | nil => exact (List.eq_nil_of_length_eq_zero hlen.symm).symm
  | cons x xs ih =>
    cases ys with
    | nil => exact absurd hlen (by simp)
    | cons y ys =>
      have hlen' : xs.length = ys.length := Nat.succ.inj hlen
      have hx := value_lt xs
      have hy := value_lt ys
      rw [value_cons, value_cons, hlen'] at h
      rw [hlen'] at hx
      have hhead : x = y := by
        cases x <;> cases y <;> simp only [Bool.toNat_true, Bool.toNat_false] at h <;>
          first | rfl | omega
      subst hhead
      rw [ih hlen' (by omega)]

@[simp]
theorem length_digits (w n : ℕ) : (digits w n).length = w := by
  simp [digits]

theorem digits_succ (w n : ℕ) : digits (w + 1) n = n.testBit w :: digits w n := by
  rw [digits, List.range_succ_eq_map, List.map_cons, List.map_map, digits]
  congr 1
  refine List.map_congr_left fun i hi => ?_
  rw [Function.comp_apply]
  congr 1
  omega

theorem value_digits (w n : ℕ) : value (digits w n) = n % 2 ^ w := by
  induction w with
  | zero => simp [digits, value, Nat.mod_one]
  | succ w ih =>
    rw [digits_succ, value_cons, length_digits, ih, Nat.mod_pow_succ, Nat.toNat_testBit]
    ring

theorem digits_eq {w n : ℕ} {bits : List Bool} (hlen : bits.length = w)
    (h : value bits = n % 2 ^ w) :
    digits w n = bits := eq_of_value_eq (by rw [length_digits, hlen]) (by rw [value_digits, h])

theorem ofBytes_cons (b : UInt8) (bytes : List UInt8) :
    ofBytes (b :: bytes) = digits 8 b.toNat ++ ofBytes bytes := rfl

@[simp]
theorem ofBytes_append (xs ys : List UInt8) : ofBytes (xs ++ ys) = ofBytes xs ++ ofBytes ys :=
  List.flatMap_append

@[simp]
theorem length_ofBytes (bytes : List UInt8) : (ofBytes bytes).length = 8 * bytes.length := by
  induction bytes with
  | nil => rfl
  | cons b bytes ih =>
    rw [ofBytes_cons, List.length_append, length_digits, ih, List.length_cons]
    ring

theorem drop_ofBytes (n : ℕ) (bytes : List UInt8) :
    (ofBytes bytes).drop (8 * n) = ofBytes (bytes.drop n) := by
  induction n generalizing bytes with
  | zero => rfl
  | succ n ih =>
    cases bytes with
    | nil => exact List.drop_nil
    | cons b bytes =>
      rw [ofBytes_cons, List.drop_succ_cons, ← ih, List.drop_append, length_digits]
      rw [List.drop_of_length_le (by rw [length_digits]; omega), List.nil_append]
      congr 1

theorem take_ofBytes (n : ℕ) (bytes : List UInt8) :
    (ofBytes bytes).take (8 * n) = ofBytes (bytes.take n) := by
  induction n generalizing bytes with
  | zero => rfl
  | succ n ih =>
    cases bytes with
    | nil => exact List.take_nil
    | cons b bytes =>
      rw [ofBytes_cons, List.take_succ_cons, ofBytes_cons, ← ih, List.take_append, length_digits]
      rw [List.take_of_length_le (by rw [length_digits]; omega)]
      congr 1

theorem value_byte (b : UInt8) : value (digits 8 b.toNat) = b.toNat := by
  rw [value_digits, Nat.mod_eq_of_lt b.toNat_lt]

theorem value_ofBytes_cons (b : UInt8) (bytes : List UInt8) :
    value (ofBytes (b :: bytes)) = b.toNat * 256 ^ bytes.length + value (ofBytes bytes) := by
  rw [ofBytes_cons, value_append, value_byte, length_ofBytes, pow_mul]
  norm_num

theorem toBytes_ofBytes (bytes : List UInt8) : toBytes (ofBytes bytes) = bytes := by
  induction bytes with
  | nil => rfl
  | cons b bytes ih =>
    have hbyte : UInt8.ofNat (value (digits 8 b.toNat)) = b := by
      rw [value_byte]
      exact UInt8.ofNat_toNat
    rw [ofBytes_cons]
    change UInt8.ofNat (value (digits 8 b.toNat)) :: toBytes (ofBytes bytes) = b :: bytes
    rw [hbyte, ih]

end Lib.Fips180

namespace Lib.Rfc2104

def blockKey (hash : List UInt8 → List UInt8) (blockSize : ℕ) (key : List UInt8) : List UInt8 :=
  let k := if blockSize < key.length then hash key else key
  k ++ List.replicate (blockSize - k.length) 0

def hmac (hash : List UInt8 → List UInt8) (blockSize : ℕ) (key text : List UInt8) : List UInt8 :=
  let k := blockKey hash blockSize key
  let ipad := List.replicate blockSize 0x36
  let opad := List.replicate blockSize 0x5c
  hash (List.zipWith (· ^^^ ·) k opad ++ hash (List.zipWith (· ^^^ ·) k ipad ++ text))

end Lib.Rfc2104
