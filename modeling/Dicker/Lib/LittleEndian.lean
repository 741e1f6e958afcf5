import Mathlib

/-! Little-endian digits of a natural number in bytes, and the machine words
built from them by shifting and or-ing. -/

namespace Lib

def toLE : ℕ → ℕ → List UInt8
  | 0, _ => []
  | w + 1, v => UInt8.ofNat v :: toLE w (v / 256)

def ofLE : List UInt8 → ℕ
  | [] => 0
  | b :: bs => b.toNat + 256 * ofLE bs

theorem ofLE_toLE (w v : ℕ) : ofLE (toLE w v) = v % 256 ^ w := by
  induction w generalizing v with
  | zero => simp only [toLE, ofLE, pow_zero, Nat.mod_one]
  | succ w ih =>
    have hb : (UInt8.ofNat v).toNat = v % 256 := UInt8.toNat_ofNat'
    rw [toLE, ofLE, ih, hb, pow_succ', Nat.mod_mul]

theorem ofLE_toLE_of_lt {w v : ℕ} (hv : v < 256 ^ w) : ofLE (toLE w v) = v := by
  rw [ofLE_toLE, Nat.mod_eq_of_lt hv]

/-! ## Or-ing a byte in above every digit so far adds it -/

theorem or_byte_toNat {x k n : ℕ} (hx : x < 2 ^ k) (hk : k + 8 ≤ n) (b : UInt8) :
    x ||| (b.toNat <<< k) % 2 ^ n = x + b.toNat * 2 ^ k := by
  have hlt : b.toNat * 2 ^ k < 2 ^ n := by
    calc b.toNat * 2 ^ k < 2 ^ 8 * 2 ^ k := Nat.mul_lt_mul_of_pos_right b.toNat_lt (by positivity)
      _ = 2 ^ (k + 8) := by rw [← pow_add, Nat.add_comm]
      _ ≤ 2 ^ n := Nat.pow_le_pow_right (by decide) hk
  rw [Nat.shiftLeft_eq, Nat.mod_eq_of_lt hlt, ← Nat.shiftLeft_eq, Nat.or_comm,
    ← Nat.shiftLeft_add_eq_or_of_lt hx, Nat.add_comm]

theorem UInt16.or_byte {acc : UInt16} {k : UInt16} (b : UInt8) (hk : k.toNat ≤ 8)
    (ha : acc.toNat < 2 ^ k.toNat) :
    (acc ||| b.toUInt16 <<< k).toNat = acc.toNat + b.toNat * 2 ^ k.toNat := by
  rw [UInt16.toNat_or, UInt16.toNat_shiftLeft, Nat.mod_eq_of_lt (by omega : k.toNat < 16)]
  exact or_byte_toNat ha (by omega) b

theorem UInt32.or_byte {acc : UInt32} {k : UInt32} (b : UInt8) (hk : k.toNat ≤ 24)
    (ha : acc.toNat < 2 ^ k.toNat) :
    (acc ||| b.toUInt32 <<< k).toNat = acc.toNat + b.toNat * 2 ^ k.toNat := by
  rw [UInt32.toNat_or, UInt32.toNat_shiftLeft, Nat.mod_eq_of_lt (by omega : k.toNat < 32)]
  exact or_byte_toNat ha (by omega) b

theorem UInt64.or_byte {acc : UInt64} {k : UInt64} (b : UInt8) (hk : k.toNat ≤ 56)
    (ha : acc.toNat < 2 ^ k.toNat) :
    (acc ||| b.toUInt64 <<< k).toNat = acc.toNat + b.toNat * 2 ^ k.toNat := by
  rw [UInt64.toNat_or, UInt64.toNat_shiftLeft, Nat.mod_eq_of_lt (by omega : k.toNat < 64)]
  exact or_byte_toNat ha (by omega) b

end Lib
