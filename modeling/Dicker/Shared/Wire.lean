import Dicker.Lib.LittleEndian

/-! The integer codec both programs share (shared/wire.h). -/

namespace Dicker
open Lib

abbrev Bytes := List UInt8

def readU16Le (p : Bytes) : UInt16 :=
  (p.getD 0 0).toUInt16 ||| ((p.getD 1 0).toUInt16 <<< 8)

def readU32Le (p : Bytes) : UInt32 :=
  (p.getD 0 0).toUInt32 ||| ((p.getD 1 0).toUInt32 <<< 8) |||
    ((p.getD 2 0).toUInt32 <<< 16) ||| ((p.getD 3 0).toUInt32 <<< 24)

def readU64Le (p : Bytes) : UInt64 :=
  (p.getD 0 0).toUInt64 ||| ((p.getD 1 0).toUInt64 <<< 8) |||
    ((p.getD 2 0).toUInt64 <<< 16) ||| ((p.getD 3 0).toUInt64 <<< 24) |||
    ((p.getD 4 0).toUInt64 <<< 32) ||| ((p.getD 5 0).toUInt64 <<< 40) |||
    ((p.getD 6 0).toUInt64 <<< 48) ||| ((p.getD 7 0).toUInt64 <<< 56)

def writeU16Le (v : UInt16) : Bytes := [v.toUInt8, (v >>> 8).toUInt8]

def writeU32Le (v : UInt32) : Bytes :=
  [v.toUInt8, (v >>> 8).toUInt8, (v >>> 16).toUInt8, (v >>> 24).toUInt8]

def writeU64Le (v : UInt64) : Bytes :=
  [v.toUInt8, (v >>> 8).toUInt8, (v >>> 16).toUInt8, (v >>> 24).toUInt8,
    (v >>> 32).toUInt8, (v >>> 40).toUInt8, (v >>> 48).toUInt8, (v >>> 56).toUInt8]

@[simp] theorem writeU16Le_length (v : UInt16) : (writeU16Le v).length = 2 := rfl

@[simp] theorem writeU32Le_length (v : UInt32) : (writeU32Le v).length = 4 := rfl

@[simp] theorem writeU64Le_length (v : UInt64) : (writeU64Le v).length = 8 := rfl

/-! ## Reading is the little-endian value -/

theorem readU16Le_toNat (a b : UInt8) (rest : Bytes) :
    (readU16Le (a :: b :: rest)).toNat = ofLE [a, b] := by
  have h0 := a.toNat_lt
  have e1 : (a.toUInt16 ||| b.toUInt16 <<< 8).toNat = _ :=
    UInt16.or_byte (k := 8) b (by decide) (by simpa using h0)
  simp only [readU16Le, List.getD_cons_zero, List.getD_cons_succ, ofLE, e1]
  simp
  omega

theorem readU32Le_toNat (a b c d : UInt8) (rest : Bytes) :
    (readU32Le (a :: b :: c :: d :: rest)).toNat = ofLE [a, b, c, d] := by
  have h0 := a.toNat_lt
  have h1 := b.toNat_lt
  have h2 := c.toNat_lt
  have e1 : (a.toUInt32 ||| b.toUInt32 <<< 8).toNat = _ :=
    UInt32.or_byte (k := 8) b (by decide) (by simpa using h0)
  have e2 := UInt32.or_byte (k := 16) c (by decide) (by rw [e1]; simp; omega)
  have e3 := UInt32.or_byte (k := 24) d (by decide) (by rw [e2, e1]; simp; omega)
  simp only [readU32Le, List.getD_cons_zero, List.getD_cons_succ, ofLE, e1, e2, e3]
  simp
  omega

theorem readU64Le_toNat (a b c d e f g i : UInt8) (rest : Bytes) :
    (readU64Le (a :: b :: c :: d :: e :: f :: g :: i :: rest)).toNat =
      ofLE [a, b, c, d, e, f, g, i] := by
  have h0 := a.toNat_lt
  have h1 := b.toNat_lt
  have h2 := c.toNat_lt
  have h3 := d.toNat_lt
  have h4 := e.toNat_lt
  have h5 := f.toNat_lt
  have h6 := g.toNat_lt
  have e1 : (a.toUInt64 ||| b.toUInt64 <<< 8).toNat = _ :=
    UInt64.or_byte (k := 8) b (by decide) (by simpa using h0)
  have e2 := UInt64.or_byte (k := 16) c (by decide) (by rw [e1]; simp; omega)
  have e3 := UInt64.or_byte (k := 24) d (by decide) (by rw [e2, e1]; simp; omega)
  have e4 := UInt64.or_byte (k := 32) e (by decide) (by rw [e3, e2, e1]; simp; omega)
  have e5 := UInt64.or_byte (k := 40) f (by decide) (by rw [e4, e3, e2, e1]; simp; omega)
  have e6 := UInt64.or_byte (k := 48) g (by decide) (by rw [e5, e4, e3, e2, e1]; simp; omega)
  have e7 := UInt64.or_byte (k := 56) i (by decide) (by rw [e6, e5, e4, e3, e2, e1]; simp; omega)
  simp only [readU64Le, List.getD_cons_zero, List.getD_cons_succ, ofLE, e1, e2, e3, e4, e5, e6, e7]
  simp
  omega

theorem writeU16Le_eq (v : UInt16) : writeU16Le v = toLE 2 v.toNat := by
  simp only [writeU16Le, toLE]
  simp [← UInt8.toNat_inj, Nat.shiftRight_eq_div_pow]

theorem writeU32Le_eq (v : UInt32) : writeU32Le v = toLE 4 v.toNat := by
  simp only [writeU32Le, toLE, Nat.div_div_eq_div_mul]
  simp [← UInt8.toNat_inj, Nat.shiftRight_eq_div_pow]

theorem writeU64Le_eq (v : UInt64) : writeU64Le v = toLE 8 v.toNat := by
  simp only [writeU64Le, toLE, Nat.div_div_eq_div_mul]
  simp [← UInt8.toNat_inj, Nat.shiftRight_eq_div_pow]

/-! ## Round trips -/

theorem readU16Le_writeU16Le (v : UInt16) (rest : Bytes) :
    readU16Le (writeU16Le v ++ rest) = v := by
  rw [← UInt16.toNat_inj]
  refine (readU16Le_toNat _ _ rest).trans ?_
  exact (congrArg ofLE (writeU16Le_eq v)).trans (ofLE_toLE_of_lt v.toNat_lt)

theorem readU32Le_writeU32Le (v : UInt32) (rest : Bytes) :
    readU32Le (writeU32Le v ++ rest) = v := by
  rw [← UInt32.toNat_inj]
  refine (readU32Le_toNat _ _ _ _ rest).trans ?_
  exact (congrArg ofLE (writeU32Le_eq v)).trans (ofLE_toLE_of_lt v.toNat_lt)

theorem readU64Le_writeU64Le (v : UInt64) (rest : Bytes) :
    readU64Le (writeU64Le v ++ rest) = v := by
  rw [← UInt64.toNat_inj]
  refine (readU64Le_toNat _ _ _ _ _ _ _ _ rest).trans ?_
  exact (congrArg ofLE (writeU64Le_eq v)).trans (ofLE_toLE_of_lt v.toNat_lt)

theorem readU64Le_self (v : UInt64) : readU64Le (writeU64Le v) = v :=
  readU64Le_writeU64Le v []

theorem readU32Le_self (v : UInt32) : readU32Le (writeU32Le v) = v :=
  readU32Le_writeU32Le v []

theorem readU16Le_self (v : UInt16) : readU16Le (writeU16Le v) = v :=
  readU16Le_writeU16Le v []

end Dicker
