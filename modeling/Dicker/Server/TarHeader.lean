import Dicker.Lib.Ustar
import Dicker.Shared.Wire

/-! The tar headers that `ArchiveStreamer` writes (server/archive.cxx): the octal fields, the split
of long names and the checksum, read back by the format's own rules. -/

namespace Dicker.Server
open Lib Ustar

/-! ## Numbers -/

/-- The loop of `set_octal`, which fills its digits from the last one on. -/
def octalLoop : ℕ → UInt64 → Bytes
  | 0, _ => []
  | k + 1, v => octalLoop k (v >>> 3) ++ [0x30 + (v &&& 7).toUInt8]

/-- `set_octal`: the `n` bytes that it writes. -/
def setOctal (n : ℕ) (v : UInt64) : Bytes := octalLoop (n - 1) v ++ [0]

theorem octalLoop_eq (k : ℕ) (v : UInt64) : octalLoop k v = octalDigits k v.toNat := by
  induction k generalizing v with
  | zero => rfl
  | succ k ih =>
    have hshift : (v >>> 3).toNat = v.toNat / 8 := by
      rw [UInt64.toNat_shiftRight]
      exact Nat.shiftRight_eq_div_pow v.toNat 3
    have hand : (v &&& 7).toNat = v.toNat % 8 := by
      rw [UInt64.toNat_and]
      exact Nat.and_two_pow_sub_one_eq_mod v.toNat 3
    have hdigit : 0x30 + (v &&& 7).toUInt8 = UInt8.ofNat (0x30 + v.toNat % 8) := by
      rw [← UInt8.toNat_inj, digit_toNat, UInt8.toNat_add, UInt64.toNat_toUInt8, hand]
      show (0x30 + v.toNat % 8 % 256) % 256 = 0x30 + v.toNat % 8
      omega
    rw [octalLoop, ih, hshift, hdigit, octalDigits]

@[simp] theorem setOctal_length {n : ℕ} (hn : 0 < n) (v : UInt64) : (setOctal n v).length = n := by
  rw [setOctal, octalLoop_eq, List.length_append, octalDigits_length, List.length_singleton]
  omega

theorem octal_setOctal {n : ℕ} (hn : 1 < n) (v : UInt64) :
    octal (setOctal n v) = some (v.toNat % 8 ^ (n - 1)) := by
  have hne : octalDigits (n - 1) v.toNat ≠ [] := by
    rw [← List.length_pos_iff, octalDigits_length]
    omega
  rw [setOctal, octalLoop_eq, octal_of_digits (octalDigits_all _ _) hne (.inl rfl),
    octalValue_octalDigits]

/-- `printf` with `%0<width>o`. -/
def formatOctal (width v : ℕ) : Bytes :=
  let digits := (Nat.digits 8 v).reverse.map fun d => UInt8.ofNat (0x30 + d)
  List.replicate (width - digits.length) 0x30 ++ digits

theorem formatOctal_eq {width v : ℕ} (hv : v < 8 ^ width) :
    formatOctal width v = octalDigits width v := by
  induction width generalizing v with
  | zero =>
    rw [Nat.lt_one_iff.mp hv]
    rfl
  | succ width ih =>
    have hdiv : v / 8 < 8 ^ width := Nat.div_lt_of_lt_mul (by rwa [pow_succ'] at hv)
    rw [octalDigits, ← ih hdiv]
    unfold formatOctal
    rcases Nat.eq_zero_or_pos v with rfl | hpos
    · show List.replicate (width + 1) 0x30 ++ [] = List.replicate width 0x30 ++ [] ++ [0x30]
      rw [List.append_nil, List.append_nil, List.replicate_succ']
    · rw [Nat.digits_def' (by decide) hpos]
      simp only [List.reverse_cons, List.map_append, List.map_cons, List.map_nil,
        List.length_append, List.length_singleton, Nat.add_sub_add_right, List.append_assoc]

/-! ## Names -/

def splitLoop (name : Bytes) (n : ℕ) : Option ℕ :=
  (List.range n).foldl (fun split p =>
    if name[p]? = some 0x2F ∧ name.length - (p + 1) ≤ 100 ∧ p ≤ 155 then some p else split) none

/-- `field_name` and `field_prefix`. -/
def fieldsOf (name : Bytes) : Bytes × Bytes :=
  if 100 < name.length then
    match splitLoop name name.length with
    | some p => (name.drop (p + 1), name.take p)
    -- best effort: the end of the name
    | none => (name.drop (name.length - 100), [])
  else (name, [])

def SplitsAt (name : Bytes) (p : ℕ) : Prop :=
  name[p]? = some 0x2F ∧ name.length - (p + 1) ≤ 100 ∧ p ≤ 155

def Representable (name : Bytes) : Prop := name.length ≤ 100 ∨ ∃ p, SplitsAt name p

theorem splitLoop_succ (name : Bytes) (n : ℕ) : splitLoop name (n + 1) =
    if name[n]? = some 0x2F ∧ name.length - (n + 1) ≤ 100 ∧ n ≤ 155 then some n
      else splitLoop name n := by
  unfold splitLoop
  rw [List.range_succ, List.foldl_append]
  rfl

theorem splitsAt_of_splitLoop {name : Bytes} {n p : ℕ} (h : splitLoop name n = some p) :
    SplitsAt name p := by
  induction n with
  | zero => exact nomatch h
  | succ n ih =>
    rw [splitLoop_succ] at h
    split_ifs at h with hp
    · cases h
      exact hp
    · exact ih h

theorem splitLoop_isSome {name : Bytes} {n p : ℕ} (h : SplitsAt name p) (hp : p < n) :
    (splitLoop name n).isSome := by
  induction n with
  | zero => exact absurd hp (Nat.not_lt_zero p)
  | succ n ih =>
    rw [splitLoop_succ]
    split_ifs with hn
    · rfl
    · rcases Nat.lt_succ_iff_lt_or_eq.mp hp with hlt | rfl
      · exact ih hlt
      · exact absurd h hn

theorem fieldsOf_fits (name : Bytes) :
    (fieldsOf name).1.length ≤ 100 ∧ (fieldsOf name).2.length ≤ 155 := by
  unfold fieldsOf
  split_ifs with hlong
  · cases hsplit : splitLoop name name.length with
    | none => exact ⟨by rw [List.length_drop]; omega, Nat.zero_le _⟩
    | some p =>
      obtain ⟨-, hsuffix, hp⟩ := splitsAt_of_splitLoop hsplit
      refine ⟨?_, ?_⟩
      · rw [List.length_drop]
        exact hsuffix
      · exact (List.length_take_le p name).trans hp
  · exact ⟨Nat.not_lt.mp hlong, Nat.zero_le _⟩

theorem joinName_fieldsOf {name : Bytes} (h : Representable name) (hhead : name.head? ≠ some 0x2F) :
    joinName (fieldsOf name).2 (fieldsOf name).1 = name := by
  unfold fieldsOf
  split_ifs with hlong
  · obtain ⟨p, hp⟩ := h.resolve_left (Nat.not_le.mpr hlong)
    have hbound : p < name.length := (List.getElem?_eq_some_iff.mp hp.1).1
    obtain ⟨q, hq⟩ := Option.isSome_iff_exists.mp (splitLoop_isSome hp hbound)
    obtain ⟨hslash, -, -⟩ := splitsAt_of_splitLoop hq
    obtain ⟨hqlen, hget⟩ := List.getElem?_eq_some_iff.mp hslash
    have hq0 : q ≠ 0 := by
      rintro rfl
      rw [List.head?_eq_getElem?] at hhead
      exact hhead hslash
    have hne : name.take q ≠ [] := by
      rw [← List.length_pos_iff, List.length_take]
      omega
    rw [hq]
    show joinName (name.take q) (name.drop (q + 1)) = name
    rw [joinName, if_neg hne, ← hget, ← List.drop_eq_getElem_cons hqlen, List.take_append_drop]
  · exact if_pos rfl

theorem mem_of_mem_fieldsOf {name : Bytes} {c : UInt8}
    (h : c ∈ (fieldsOf name).1 ∨ c ∈ (fieldsOf name).2) : c ∈ name := by
  unfold fieldsOf at h
  split_ifs at h
  · cases hsplit : splitLoop name name.length with
    | none =>
      rw [hsplit] at h
      exact h.elim List.mem_of_mem_drop fun h => absurd h List.not_mem_nil
    | some p =>
      rw [hsplit] at h
      exact h.elim List.mem_of_mem_drop List.mem_of_mem_take
  · exact h.elim id fun h => absurd h List.not_mem_nil

/-! ## The header -/

/-- What `emit_header` writes into the zeroed block before it sums it up. -/
def headerWrites (name : Bytes) (size : UInt64) : List (ℕ × Bytes) :=
  [(0, (fieldsOf name).1.take 100), (345, (fieldsOf name).2.take 155),
    (100, setOctal 8 0o644), (108, setOctal 8 0), (116, setOctal 8 0),
    (124, setOctal 12 size), (136, setOctal 12 0), (156, [0x30]),
    (257, [0x75, 0x73, 0x74, 0x61, 0x72]), (263, [0x30]), (264, [0x30]),
    (148, List.replicate 8 0x20)]

def headerBlock (name : Bytes) (size : UInt64) : Bytes :=
  written (List.replicate 512 0) (headerWrites name size)

def emitHeader (name : Bytes) (size : UInt64) : Bytes :=
  let h := headerBlock name size
  let sum := (h.map UInt8.toNat).sum
  let h := overwrite h 148 ((formatOctal 6 (sum &&& 0x1FFFFF)).take 6)
  let h := overwrite h 154 [0]
  overwrite h 155 [0x20]

section
variable (name : Bytes) (size : UInt64)

theorem headerWrites_fit :
    Fits (List.replicate 512 (0 : UInt8)).length (headerWrites name size) := by
  have hname : ((fieldsOf name).1.take 100).length ≤ 100 := List.length_take_le _ _
  have hprefix : ((fieldsOf name).2.take 155).length ≤ 155 := List.length_take_le _ _
  simp only [Fits, headerWrites, List.forall_mem_cons, setOctal_length, Nat.ofNat_pos,
    List.length_cons, List.length_nil, List.length_replicate]
  refine ⟨by omega, by omega, ?_⟩
  simp

theorem headerBlock_length : (headerBlock name size).length = 512 :=
  (written_length (headerWrites_fit name size)).trans (List.length_replicate ..)

theorem headerBlock_field {i pos : ℕ} {data : Bytes}
    (hget : (headerWrites name size)[i]? = some (pos, data))
    (hapart : Apart pos data.length ((headerWrites name size).drop (i + 1))) :
    slice (headerBlock name size) pos data.length = data :=
  slice_written (headerWrites_fit name size) hget hapart

theorem headerBlock_zeros {pos n : ℕ} (hpos : pos + n ≤ 512)
    (hapart : Apart pos n (headerWrites name size)) :
    slice (headerBlock name size) pos n = List.replicate n 0 := by
  rw [headerBlock, slice_written_apart (headerWrites_fit name size) hapart, slice,
    List.drop_replicate, List.take_replicate, Nat.min_eq_left (by omega)]

theorem headerBlock_size : slice (headerBlock name size) 124 12 = setOctal 12 size := by
  have hget : (headerWrites name size)[5]? = some (124, setOctal 12 size) := rfl
  have hfield := headerBlock_field name size hget
  rw [setOctal_length (by decide)] at hfield
  apply hfield
  simp [Apart, headerWrites, setOctal_length]

theorem headerBlock_typeflag : slice (headerBlock name size) 156 1 = [0x30] := by
  have hget : (headerWrites name size)[7]? = some (156, [0x30]) := rfl
  apply headerBlock_field name size hget
  simp [Apart, headerWrites]

theorem headerBlock_magic : slice (headerBlock name size) 257 8 = magic := by
  have hname : ((fieldsOf name).1.take 100).length ≤ 100 := List.length_take_le _ _
  have hustar : slice (headerBlock name size) 257 5 = [0x75, 0x73, 0x74, 0x61, 0x72] := by
    have hget : (headerWrites name size)[8]? = some (257, [0x75, 0x73, 0x74, 0x61, 0x72]) := rfl
    apply headerBlock_field name size hget
    simp [Apart, headerWrites]
  have hnul : slice (headerBlock name size) 262 1 = [0] := by
    apply headerBlock_zeros name size (by decide)
    simp only [Apart, headerWrites, List.forall_mem_cons, setOctal_length, Nat.ofNat_pos]
    refine ⟨.inr (by omega), ?_⟩
    simp
  have hmajor : slice (headerBlock name size) 263 1 = [0x30] := by
    have hget : (headerWrites name size)[9]? = some (263, [0x30]) := rfl
    apply headerBlock_field name size hget
    simp [Apart, headerWrites]
  have hminor : slice (headerBlock name size) 264 1 = [0x30] := by
    have hget : (headerWrites name size)[10]? = some (264, [0x30]) := rfl
    apply headerBlock_field name size hget
    simp [Apart, headerWrites]
  rw [slice_add _ 257 5 3, slice_add _ 262 1 2, slice_add _ 263 1 1, hustar, hnul, hmajor, hminor]
  rfl

theorem headerBlock_text {i pos n : ℕ} {data : Bytes}
    (hget : (headerWrites name size)[i]? = some (pos, data)) (hn : data.length ≤ n)
    (hpos : pos + n ≤ 512) (hbehind : Apart pos data.length ((headerWrites name size).drop (i + 1)))
    (hrest : Apart (pos + data.length) (n - data.length) (headerWrites name size)) :
    slice (headerBlock name size) pos n = data ++ List.replicate (n - data.length) 0 := by
  have hsum : n = data.length + (n - data.length) := by omega
  conv_lhs => rw [hsum]
  rw [slice_add, headerBlock_field name size hget hbehind,
    headerBlock_zeros name size (by omega) hrest]

theorem headerBlock_name : slice (headerBlock name size) 0 100 =
    (fieldsOf name).1 ++ List.replicate (100 - (fieldsOf name).1.length) 0 := by
  obtain ⟨hname, -⟩ := fieldsOf_fits name
  have hget : (headerWrites name size)[0]? = some (0, (fieldsOf name).1) := by
    show some (0, (fieldsOf name).1.take 100) = _
    rw [List.take_of_length_le hname]
  apply headerBlock_text name size hget hname (by decide)
  · simp only [Apart, headerWrites, Nat.reduceAdd, List.drop_succ_cons, List.drop_zero,
      List.forall_mem_cons, setOctal_length, Nat.ofNat_pos]
    refine ⟨.inl (by omega), .inl (by omega), ?_⟩
    simp
    omega
  · simp only [Apart, headerWrites, List.take_of_length_le hname,
      List.forall_mem_cons, setOctal_length, Nat.ofNat_pos, Nat.zero_add]
    refine ⟨.inr le_rfl, .inl (by omega), .inl (by omega), ?_⟩
    simp
    omega

theorem headerBlock_prefix : slice (headerBlock name size) 345 155 =
    (fieldsOf name).2 ++ List.replicate (155 - (fieldsOf name).2.length) 0 := by
  obtain ⟨hname, hprefix⟩ := fieldsOf_fits name
  have hget : (headerWrites name size)[1]? = some (345, (fieldsOf name).2) := by
    show some (345, (fieldsOf name).2.take 155) = _
    rw [List.take_of_length_le hprefix]
  apply headerBlock_text name size hget hprefix (by decide)
  · simp [Apart, headerWrites, setOctal_length]
  · simp only [Apart, headerWrites, List.take_of_length_le hname, List.take_of_length_le hprefix,
      List.forall_mem_cons, setOctal_length, Nat.ofNat_pos]
    refine ⟨.inr (by omega), .inr le_rfl, .inr (by omega), ?_⟩
    simp
    omega

/-! ## The checksum -/

theorem headerBlock_spaces :
    overwrite (headerBlock name size) 148 (List.replicate 8 0x20) = headerBlock name size := by
  have hfit := headerWrites_fit name size
  have hinit : (written (List.replicate 512 0) ((headerWrites name size).dropLast)).length = 512 :=
    (written_length fun w hw => hfit w (List.mem_of_mem_dropLast hw)).trans
      (List.length_replicate ..)
  have hlast : headerBlock name size =
      overwrite (written (List.replicate 512 0) ((headerWrites name size).dropLast)) 148
        (List.replicate 8 0x20) := rfl
  rw [hlast, overwrite_overwrite ?_ rfl]
  rw [hinit]
  decide

theorem sum_lt {block : Bytes} (h : block.length = 512) : (block.map UInt8.toNat).sum < 8 ^ 6 := by
  have hbyte : ∀ n ∈ block.map UInt8.toNat, n ≤ 255 := by
    intro n hn
    obtain ⟨c, -, rfl⟩ := List.mem_map.mp hn
    exact Nat.le_of_lt_succ c.toNat_lt
  have hsum := List.sum_le_card_nsmul _ 255 hbyte
  rw [List.length_map, h] at hsum
  exact lt_of_le_of_lt hsum (by decide)

def checksumField : Bytes :=
  octalDigits 6 ((headerBlock name size).map UInt8.toNat).sum ++ [0, 0x20]

theorem checksumField_length : (checksumField name size).length = 8 := by
  rw [checksumField, List.length_append, octalDigits_length]
  rfl

theorem checksumField_fits :
    148 + (checksumField name size).length ≤ (headerBlock name size).length := by
  rw [checksumField_length, headerBlock_length]
  decide

theorem emitHeader_eq :
    emitHeader name size = overwrite (headerBlock name size) 148 (checksumField name size) := by
  have hlen := headerBlock_length name size
  have hsum := sum_lt hlen
  unfold emitHeader checksumField
  dsimp only
  generalize ((headerBlock name size).map UInt8.toNat).sum = sum at hsum
  have hmask : sum &&& 0x1FFFFF = sum :=
    (Nat.and_two_pow_sub_one_eq_mod sum 21).trans (Nat.mod_eq_of_lt (hsum.trans (by decide)))
  have hdigits : (octalDigits 6 sum).length = 6 := octalDigits_length 6 sum
  have hnul : overwrite (overwrite (headerBlock name size) 148 (octalDigits 6 sum)) 154 [0] =
      overwrite (headerBlock name size) 148 (octalDigits 6 sum ++ [0]) := by
    rw [← overwrite_append (by rw [hlen, hdigits]; decide), hdigits]
  have hspace : overwrite (overwrite (headerBlock name size) 148 (octalDigits 6 sum ++ [0]))
      155 [0x20] = overwrite (headerBlock name size) 148 (octalDigits 6 sum ++ [0] ++ [0x20]) := by
    have hseven : (octalDigits 6 sum ++ [(0 : UInt8)]).length = 7 := by
      rw [List.length_append, hdigits]; rfl
    generalize octalDigits 6 sum ++ [(0 : UInt8)] = front at hseven
    rw [← overwrite_append (by rw [hlen, hseven]; decide), hseven]
  rw [hmask, formatOctal_eq hsum, List.take_of_length_le hdigits.le, hnul, hspace,
    List.append_assoc]
  rfl

theorem emitHeader_length : (emitHeader name size).length = 512 := by
  rw [emitHeader_eq, overwrite_length (checksumField_fits name size), headerBlock_length]

theorem emitHeader_slice {pos n : ℕ} (h : pos + n ≤ 148 ∨ 156 ≤ pos) :
    slice (emitHeader name size) pos n = slice (headerBlock name size) pos n := by
  rw [emitHeader_eq]
  rcases h with hbefore | hbehind
  · exact slice_overwrite_before (checksumField_fits name size) hbefore
  · apply slice_overwrite_behind (checksumField_fits name size)
    rwa [checksumField_length]

theorem emitHeader_checksum :
    octal (slice (emitHeader name size) 148 8) = some (checksum (emitHeader name size)) := by
  have hfits := checksumField_fits name size
  have hlen := checksumField_length name size
  have hslice : slice (emitHeader name size) 148 8 = checksumField name size := by
    have hself := slice_overwrite hfits
    rwa [← emitHeader_eq, hlen] at hself
  have hspaces : (List.replicate 8 (0x20 : UInt8)).length = (checksumField name size).length :=
    hlen.symm
  have hsum : checksum (emitHeader name size) = ((headerBlock name size).map UInt8.toNat).sum := by
    rw [checksum, emitHeader_eq, overwrite_overwrite hfits hspaces, headerBlock_spaces]
  have hne : octalDigits 6 ((headerBlock name size).map UInt8.toNat).sum ≠ [] := by
    rw [← List.length_pos_iff, octalDigits_length]
    decide
  rw [hslice, hsum, checksumField, octal_of_digits (octalDigits_all _ _) hne (.inl rfl),
    octalValue_octalDigits, Nat.mod_eq_of_lt (sum_lt (headerBlock_length name size))]

theorem emitHeader_size :
    octal (slice (emitHeader name size) 124 12) = some (size.toNat % 8 ^ 11) := by
  rw [emitHeader_slice name size (.inl (by decide)), headerBlock_size, octal_setOctal (by decide)]

theorem header_emitHeader (hnul : 0 ∉ name) : header (emitHeader name size) =
    some ⟨joinName (fieldsOf name).2 (fieldsOf name).1, size.toNat % 8 ^ 11⟩ := by
  have hname : text (slice (emitHeader name size) 0 100) = (fieldsOf name).1 := by
    rw [emitHeader_slice name size (.inl (by decide)), headerBlock_name,
      text_padded fun h => hnul (mem_of_mem_fieldsOf (.inl h))]
  have hprefix : text (slice (emitHeader name size) 345 155) = (fieldsOf name).2 := by
    rw [emitHeader_slice name size (.inr (by decide)), headerBlock_prefix,
      text_padded fun h => hnul (mem_of_mem_fieldsOf (.inr h))]
  have hmagic : slice (emitHeader name size) 257 8 = magic := by
    rw [emitHeader_slice name size (.inr (by decide)), headerBlock_magic]
  have htype : slice (emitHeader name size) 156 1 = [0x30] := by
    rw [emitHeader_slice name size (.inr (by decide)), headerBlock_typeflag]
  rw [header, if_pos ⟨hmagic, htype, emitHeader_checksum name size⟩,
    emitHeader_size, hname, hprefix]
  rfl

end

end Dicker.Server
