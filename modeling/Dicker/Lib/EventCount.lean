import Mathlib

/-! Counters that wrap, and gates: counters that a thread reads before it looks once more at what it
waits for, and then sleeps on for as long as they have the value it read. -/

namespace Lib

/-! ## Words of unbounded counts -/

section
variable {m n : ℕ}

theorem UInt64.ofNat_sub_ofNat (hle : m ≤ n) (hlt : n < m + 2 ^ 64) :
    (UInt64.ofNat n - UInt64.ofNat m).toNat = n - m := by
  rw [UInt64.toNat_sub, UInt64.toNat_ofNat', UInt64.toNat_ofNat']
  omega

theorem UInt64.ofNat_eq_iff (hle : m ≤ n) (hlt : n < m + 2 ^ 64) :
    UInt64.ofNat m = UInt64.ofNat n ↔ m = n := by
  rw [← UInt64.toNat_inj, UInt64.toNat_ofNat', UInt64.toNat_ofNat']
  omega

theorem UInt64.ofNat_succ (n : ℕ) : UInt64.ofNat n + 1 = UInt64.ofNat (n + 1) := by
  rw [UInt64.ofNat_add]
  rfl

theorem UInt32.ofNat_succ (n : ℕ) : UInt32.ofNat n + 1 = UInt32.ofNat (n + 1) := by
  rw [UInt32.ofNat_add]
  rfl

theorem UInt32.ofNat_ne (hlt : m < n) (hnear : n < m + 2 ^ 32) :
    UInt32.ofNat m ≠ UInt32.ofNat n := by
  rw [ne_eq, ← UInt32.toNat_inj, UInt32.toNat_ofNat', UInt32.toNat_ofNat']
  omega

theorem UInt64.toNat_mask {k : ℕ} (hk : k < 64) (n : ℕ) :
    (UInt64.ofNat n &&& (UInt64.ofNat (2 ^ k) - 1)).toNat = n % 2 ^ k := by
  have hpow : 2 ^ k < 2 ^ 64 := Nat.pow_lt_pow_right (by decide) hk
  have hpos : 0 < 2 ^ k := Nat.two_pow_pos k
  have hmask : (UInt64.ofNat (2 ^ k) - 1).toNat = 2 ^ k - 1 := by
    rw [UInt64.toNat_sub, UInt64.toNat_ofNat', Nat.mod_eq_of_lt hpow, UInt64.toNat_one]
    omega
  rw [UInt64.toNat_and, hmask, Nat.and_two_pow_sub_one_eq_mod, UInt64.toNat_ofNat',
    Nat.mod_mod_of_dvd _ (Nat.pow_dvd_pow 2 hk.le)]

theorem mod_ne_mod {size : ℕ} (hlt : m < n) (hnear : n < m + size) : m % size ≠ n % size := by
  intro heq
  have hdvd : size ∣ n - m := (Nat.modEq_iff_dvd' hlt.le).mp heq
  exact absurd (Nat.le_of_dvd (by omega) hdvd) (by omega)

end

/-! ## Gates -/

def Saw (g : UInt32) (bumps low : ℕ) (P : ℕ → Prop) : Prop :=
  ∃ base, g = UInt32.ofNat base ∧ base ≤ bumps ∧ low ≤ base + 1 ∧ P base

section
variable {g : UInt32} {bumps bumps' low : ℕ} {P P' : ℕ → Prop}

theorem saw_now (hlow : low ≤ bumps + 1) (hP : P bumps) : Saw (UInt32.ofNat bumps) bumps low P :=
  ⟨bumps, rfl, le_rfl, hlow, hP⟩

theorem Saw.mono (h : Saw g bumps low P) (hbumps : bumps ≤ bumps')
    (hP : ∀ base ≤ bumps, P base → P' base) : Saw g bumps' low P' := by
  obtain ⟨base, hg, hle, hlow, hbase⟩ := h
  exact ⟨base, hg, hle.trans hbumps, hlow, hP base hle hbase⟩

theorem Saw.ne_of_lt (h : Saw g bumps low fun base => base < bumps)
    (hround : bumps + 1 < low + 2 ^ 32) : UInt32.ofNat bumps ≠ g := by
  obtain ⟨base, rfl, -, hlow, hlt⟩ := h
  exact (UInt32.ofNat_ne hlt (by omega)).symm

end

end Lib
