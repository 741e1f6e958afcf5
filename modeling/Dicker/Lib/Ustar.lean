import Mathlib

/-! The ustar archive format: blocks of 512 bytes, octal fields, the checksum of a header, and a
strict reader of whole archives. -/

namespace Lib.Ustar

/-! ## Parts of a block -/

section
variable {α : Type}

def slice (b : List α) (pos n : ℕ) : List α := (b.drop pos).take n

def overwrite (b : List α) (pos : ℕ) (data : List α) : List α :=
  b.take pos ++ data ++ b.drop (pos + data.length)

variable {b data : List α} {pos : ℕ}

@[simp] theorem overwrite_length (h : pos + data.length ≤ b.length) :
    (overwrite b pos data).length = b.length := by
  unfold overwrite
  simp only [List.length_append, List.length_take, List.length_drop]
  omega

theorem slice_overwrite (h : pos + data.length ≤ b.length) :
    slice (overwrite b pos data) pos data.length = data := by
  have hpos : (b.take pos).length = pos := List.length_take_of_le (by omega)
  unfold slice overwrite
  rw [List.append_assoc, List.drop_left' hpos, List.take_left]

theorem slice_overwrite_before {p n : ℕ} (h : pos + data.length ≤ b.length)
    (hbefore : p + n ≤ pos) :
    slice (overwrite b pos data) p n = slice b p n := by
  have hpos : (b.take pos).length = pos := List.length_take_of_le (by omega)
  unfold slice overwrite
  rw [List.append_assoc, List.drop_append_of_le_length (by omega),
    List.take_append_of_le_length (by rw [List.length_drop]; omega), List.drop_take, List.take_take,
    Nat.min_eq_left (by omega)]

theorem slice_overwrite_behind {p n : ℕ} (h : pos + data.length ≤ b.length)
    (hbehind : pos + data.length ≤ p) : slice (overwrite b pos data) p n = slice b p n := by
  have hpos : (b.take pos ++ data).length = pos + data.length := by
    rw [List.length_append, List.length_take_of_le (by omega)]
  unfold slice overwrite
  rw [List.drop_append, hpos, List.drop_eq_nil_of_le (hpos.trans_le hbehind),
    List.nil_append, List.drop_drop]
  congr 2
  omega

theorem overwrite_overwrite {data' : List α} (h : pos + data.length ≤ b.length)
    (hlen : data'.length = data.length) :
    overwrite (overwrite b pos data) pos data' = overwrite b pos data' := by
  have hpos : (b.take pos).length = pos := List.length_take_of_le (by omega)
  have hdata : (b.take pos ++ data).length = pos + data'.length := by
    rw [List.length_append, hpos, hlen]
  have hfront : (overwrite b pos data).take pos = b.take pos := by
    unfold overwrite
    rw [List.append_assoc, List.take_left' hpos]
  have hback : (overwrite b pos data).drop (pos + data'.length) = b.drop (pos + data'.length) := by
    unfold overwrite
    rw [List.drop_left' hdata, hlen]
  rw [overwrite, hfront, hback]
  rfl

theorem overwrite_append {data' : List α} (h : pos + data.length ≤ b.length) :
    overwrite (overwrite b pos data) (pos + data.length) data' =
      overwrite b pos (data ++ data') := by
  have hpos : (b.take pos ++ data).length = pos + data.length := by
    rw [List.length_append, List.length_take_of_le (by omega)]
  have hfront : (overwrite b pos data).take (pos + data.length) = b.take pos ++ data := by
    unfold overwrite
    rw [List.take_left' hpos]
  have hback : (overwrite b pos data).drop (pos + data.length + data'.length) =
      b.drop (pos + (data ++ data').length) := by
    unfold overwrite
    rw [List.drop_append, hpos, List.drop_eq_nil_of_le (by omega), List.nil_append, List.drop_drop]
    congr 1
    rw [List.length_append]
    omega
  rw [overwrite, hfront, hback, overwrite]
  simp only [List.append_assoc]

def written (b : List α) (writes : List (ℕ × List α)) : List α :=
  writes.foldl (fun b w => overwrite b w.1 w.2) b

def Fits (n : ℕ) (writes : List (ℕ × List α)) : Prop := ∀ w ∈ writes, w.1 + w.2.length ≤ n

def Apart (pos n : ℕ) (writes : List (ℕ × List α)) : Prop :=
  ∀ w ∈ writes, pos + n ≤ w.1 ∨ w.1 + w.2.length ≤ pos

variable {writes : List (ℕ × List α)}

theorem written_length (h : Fits b.length writes) : (written b writes).length = b.length := by
  induction writes generalizing b with
  | nil => rfl
  | cons w writes ih =>
    have hw := overwrite_length (h w List.mem_cons_self)
    rw [written, List.foldl_cons]
    refine (ih ?_).trans hw
    rw [hw]
    exact fun v hv => h v (List.mem_cons_of_mem _ hv)

theorem slice_written_apart {p n : ℕ} (h : Fits b.length writes) (hapart : Apart p n writes) :
    slice (written b writes) p n = slice b p n := by
  induction writes generalizing b with
  | nil => rfl
  | cons w writes ih =>
    have hw := h w List.mem_cons_self
    rw [written, List.foldl_cons]
    refine (ih ?_ fun v hv => hapart v (List.mem_cons_of_mem _ hv)).trans ?_
    · rw [overwrite_length hw]
      exact fun v hv => h v (List.mem_cons_of_mem _ hv)
    · rcases hapart w List.mem_cons_self with hbefore | hbehind
      · exact slice_overwrite_before hw hbefore
      · exact slice_overwrite_behind hw hbehind

theorem slice_written {i : ℕ} (h : Fits b.length writes) (hget : writes[i]? = some (pos, data))
    (hapart : Apart pos data.length (writes.drop (i + 1))) :
    slice (written b writes) pos data.length = data := by
  obtain ⟨hi, hget⟩ := List.getElem?_eq_some_iff.mp hget
  have hsplit : writes = writes.take i ++ (pos, data) :: writes.drop (i + 1) := by
    rw [← hget, ← List.drop_eq_getElem_cons hi, List.take_append_drop]
  have hfront : (written b (writes.take i)).length = b.length :=
    written_length fun v hv => h v (List.mem_of_mem_take hv)
  have hdata : pos + data.length ≤ (written b (writes.take i)).length :=
    hfront ▸ h _ (hget ▸ List.getElem_mem hi)
  have hwritten : written b writes = written (overwrite (written b (writes.take i)) pos data)
      (writes.drop (i + 1)) := by
    conv_lhs => rw [hsplit]
    unfold written
    rw [List.foldl_append]
    rfl
  rw [hwritten, slice_written_apart ?_ hapart, slice_overwrite hdata]
  rw [overwrite_length hdata, hfront]
  exact fun v hv => h v (List.mem_of_mem_drop hv)

theorem slice_add (b : List α) (pos m n : ℕ) :
    slice b pos (m + n) = slice b pos m ++ slice b (pos + m) n := by
  unfold slice
  rw [List.take_add, List.drop_drop]

end

/-! ## Octal numbers -/

def octalDigits : ℕ → ℕ → List UInt8
  | 0, _ => []
  | k + 1, v => octalDigits k (v / 8) ++ [UInt8.ofNat (0x30 + v % 8)]

def octalValue (digits : List UInt8) : ℕ := digits.foldl (fun v d => 8 * v + (d.toNat - 0x30)) 0

def isOctal (d : UInt8) : Bool := 0x30 ≤ d && d < 0x38

def octal (field : List UInt8) : Option ℕ :=
  let digits := (field.dropWhile (· == 0x20)).takeWhile fun b => b != 0 && b != 0x20
  if digits.all isOctal then some (octalValue digits) else none

theorem digit_toNat (v : ℕ) : (UInt8.ofNat (0x30 + v % 8)).toNat = 0x30 + v % 8 := by
  rw [UInt8.toNat_ofNat']
  omega

theorem isOctal_digit (v : ℕ) : isOctal (UInt8.ofNat (0x30 + v % 8)) = true := by
  have hv := digit_toNat v
  unfold isOctal
  rw [Bool.and_eq_true, decide_eq_true_eq, decide_eq_true_eq, UInt8.le_iff_toNat_le,
    UInt8.lt_iff_toNat_lt, hv]
  constructor
  · exact Nat.le_add_right _ _
  · show 0x30 + v % 8 < 0x38
    omega

@[simp] theorem octalDigits_length (k v : ℕ) : (octalDigits k v).length = k := by
  induction k generalizing v with
  | zero => rfl
  | succ k ih => rw [octalDigits, List.length_append, ih, List.length_singleton]

theorem octalDigits_all (k v : ℕ) : ∀ d ∈ octalDigits k v, isOctal d = true := by
  induction k generalizing v with
  | zero => exact fun d hd => absurd hd List.not_mem_nil
  | succ k ih =>
    intro d hd
    rcases List.mem_append.mp hd with hd | hd
    · exact ih _ d hd
    · rw [List.mem_singleton.mp hd]
      exact isOctal_digit v

theorem octalValue_concat (digits : List UInt8) (d : UInt8) :
    octalValue (digits ++ [d]) = 8 * octalValue digits + (d.toNat - 0x30) := by
  unfold octalValue
  rw [List.foldl_append]
  rfl

theorem octalValue_octalDigits (k v : ℕ) : octalValue (octalDigits k v) = v % 8 ^ k := by
  induction k generalizing v with
  | zero => exact (Nat.mod_one v).symm
  | succ k ih =>
    rw [octalDigits, octalValue_concat, ih, digit_toNat, Nat.add_sub_cancel_left,
      pow_succ', Nat.mod_mul]
    omega

theorem octal_of_digits {digits rest : List UInt8} (hdigits : ∀ d ∈ digits, isOctal d = true)
    (hne : digits ≠ []) (hrest : rest.head? = some 0 ∨ rest.head? = some 0x20) :
    octal (digits ++ rest) = some (octalValue digits) := by
  have hplain : ∀ d ∈ digits, (d != 0 && d != 0x20) = true := by
    intro d hd
    have hoctal := hdigits d hd
    unfold isOctal at hoctal
    rw [Bool.and_eq_true, decide_eq_true_eq, UInt8.le_iff_toNat_le] at hoctal
    rw [Bool.and_eq_true, bne_iff_ne, bne_iff_ne]
    constructor <;> rintro rfl <;> exact absurd hoctal.1 (by decide)
  have hstart : (digits ++ rest).dropWhile (· == 0x20) = digits ++ rest := by
    obtain ⟨d, ds, rfl⟩ := List.exists_cons_of_ne_nil hne
    have hd := hplain d List.mem_cons_self
    rw [Bool.and_eq_true, bne_iff_ne, bne_iff_ne] at hd
    rw [List.cons_append, List.dropWhile_cons_of_neg]
    rw [beq_iff_eq]
    exact hd.2
  have hend : rest.takeWhile (fun b => b != 0 && b != 0x20) = [] := by
    cases rest with
    | nil => rfl
    | cons r rest =>
      rcases hrest with hr | hr <;> cases hr <;> rfl
  unfold octal
  simp only [hstart, List.takeWhile_append_of_pos hplain, hend, List.append_nil,
    List.all_eq_true.mpr hdigits, if_true]

/-! ## Headers -/

structure Header where
  name : List UInt8
  size : ℕ
  deriving DecidableEq

def text (field : List UInt8) : List UInt8 := field.takeWhile (· != 0)

def checksum (b : List UInt8) : ℕ := ((overwrite b 148 (List.replicate 8 0x20)).map UInt8.toNat).sum

def magic : List UInt8 := [0x75, 0x73, 0x74, 0x61, 0x72, 0, 0x30, 0x30]

def joinName (front name : List UInt8) : List UInt8 :=
  if front = [] then name else front ++ 0x2F :: name

def header (b : List UInt8) : Option Header :=
  if slice b 257 8 = magic ∧ slice b 156 1 = [0x30] ∧ octal (slice b 148 8) = some (checksum b) then
    (octal (slice b 124 12)).map fun size =>
      ⟨joinName (text (slice b 345 155)) (text (slice b 0 100)), size⟩
  else none

theorem text_padded {s : List UInt8} (hs : 0 ∉ s) (n : ℕ) : text (s ++ List.replicate n 0) = s := by
  have hplain : ∀ c ∈ s, (c != 0) = true := by
    intro c hc
    rw [bne_iff_ne]
    rintro rfl
    exact hs hc
  have hend : (List.replicate n (0 : UInt8)).takeWhile (· != 0) = [] := by
    cases n with
    | zero => rfl
    | succ n => rfl
  unfold text
  rw [List.takeWhile_append_of_pos hplain, hend, List.append_nil]

/-! ## Archives -/

structure Member where
  name : List UInt8
  size : ℕ
  contents : List UInt8
  deriving DecidableEq

def pad (size : ℕ) : ℕ := (512 - size % 512) % 512

def trailer : List UInt8 := List.replicate 1024 0

def read (b : List UInt8) : Option (List Member) :=
  if b = trailer then some []
  else if b.length < 512 then none
  else match header (b.take 512) with
    | none => none
    | some h =>
      if (b.drop 512).length < h.size + pad h.size then none
      else (read (b.drop (512 + (h.size + pad h.size)))).map
        (⟨h.name, h.size, (b.drop 512).take h.size⟩ :: ·)
termination_by b.length
decreasing_by
  rw [List.length_drop]
  omega

end Lib.Ustar
