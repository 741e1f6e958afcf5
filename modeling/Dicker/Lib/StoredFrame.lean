import Dicker.Lib.LittleEndian
import Dicker.Lib.StreamCodec

/-! Frames of a compressor that stores its blocks as they are: a magic, the blocks with their sizes
in front of them, an end mark. A stream is decoded as far as it goes, a frame only as a whole. -/

namespace Lib

structure StoredFormat where
  magic : List UInt8
  width : ℕ
  maxBlock : ℕ
  header : ℕ → List UInt8
  /-- The size that a header has, if it is that of a stored block. -/
  size : List UInt8 → Option ℕ
  endMark : List UInt8
  width_pos : 0 < width
  maxBlock_pos : 0 < maxBlock
  length_header : ∀ n, (header n).length = width
  length_endMark : endMark.length = width
  size_header : ∀ {n}, n ≤ maxBlock → size (header n) = some n

namespace StoredFormat
variable (f : StoredFormat)

def block (data : List UInt8) : List UInt8 := f.header data.length ++ data

def frame (parts : List (List UInt8)) : List UInt8 := f.magic ++ parts.flatMap f.block

theorem frame_append (parts more : List (List UInt8)) :
    f.frame (parts ++ more) = f.frame parts ++ more.flatMap f.block := by
  rw [frame, frame, List.append_assoc, List.flatMap_append]

/-! ## A stream, as far as it goes -/

def blocks (w : List UInt8) : List UInt8 :=
  if f.width ≤ w.length then
    match f.size (w.take f.width) with
    | some n => (w.drop f.width).take n ++ blocks (w.drop (f.width + n))
    | none => []
  else []
termination_by w.length
decreasing_by
  have hpos := f.width_pos
  rw [List.length_drop]
  omega

def decoded (w : List UInt8) : List UInt8 :=
  if f.magic <+: w then f.blocks (w.drop f.magic.length) else []

section
variable {f} {w : List UInt8} {n : ℕ}

theorem blocks_short (h : w.length < f.width) : f.blocks w = [] := by
  rw [blocks, if_neg (Nat.not_le.mpr h)]

theorem blocks_nil : f.blocks [] = [] := blocks_short f.width_pos

theorem blocks_some (hle : f.width ≤ w.length) (hsize : f.size (w.take f.width) = some n) :
    f.blocks w = (w.drop f.width).take n ++ f.blocks (w.drop (f.width + n)) := by
  rw [blocks, if_pos hle, hsize]

theorem blocks_none (hsize : f.size (w.take f.width) = none) : f.blocks w = [] := by
  rw [blocks, hsize]
  exact ite_self _

theorem blocks_block (data rest : List UInt8) (h : data.length ≤ f.maxBlock) :
    f.blocks (f.block data ++ rest) = data ++ f.blocks rest := by
  have hlen := f.length_header data.length
  have hsize : f.size ((f.block data ++ rest).take f.width) = some data.length := by
    rw [block, List.append_assoc, List.take_left' hlen, f.size_header h]
  have hle : f.width ≤ (f.block data ++ rest).length := by
    rw [block, List.length_append, List.length_append, hlen]
    omega
  have hdrop : (f.block data ++ rest).drop f.width = data ++ rest := by
    rw [block, List.append_assoc, List.drop_left' hlen]
  rw [blocks_some hle hsize, ← List.drop_drop, hdrop, List.take_left, List.drop_left]

end

variable {parts : List (List UInt8)}

theorem blocks_flatMap (h : ∀ p ∈ parts, p.length ≤ f.maxBlock) (rest : List UInt8) :
    f.blocks (parts.flatMap f.block ++ rest) = parts.flatten ++ f.blocks rest := by
  induction parts with
  | nil => rfl
  | cons p parts ih =>
    rw [List.flatMap_cons, List.append_assoc, blocks_block p _ (h p List.mem_cons_self),
      ih fun q hq => h q (List.mem_cons_of_mem _ hq), List.flatten_cons, List.append_assoc]

theorem decoded_frame (h : ∀ p ∈ parts, p.length ≤ f.maxBlock) :
    f.decoded (f.frame parts) = parts.flatten := by
  have hblocks := f.blocks_flatMap h []
  rw [List.append_nil, blocks_nil, List.append_nil] at hblocks
  rw [decoded, frame, if_pos (List.prefix_append _ _), List.drop_left, hblocks]

theorem blocks_mono (w z : List UInt8) : f.blocks w <+: f.blocks (w ++ z) := by
  induction w using blocks.induct f with
  | case1 w hle n hsize ih =>
    have htake : (w ++ z).take f.width = w.take f.width := List.take_append_of_le_length hle
    have hdrop : (w ++ z).drop f.width = w.drop f.width ++ z := List.drop_append_of_le_length hle
    rw [blocks_some hle hsize, blocks_some (hle.trans (List.prefix_append w z).length_le)
      (htake ▸ hsize), hdrop]
    rcases Nat.le_total n (w.drop f.width).length with hall | hpart
    · have hrest : (w ++ z).drop (f.width + n) = w.drop (f.width + n) ++ z := by
        rw [← List.drop_drop, hdrop, List.drop_append_of_le_length hall, List.drop_drop]
      rw [List.take_append_of_le_length hall, hrest]
      exact (List.prefix_append_right_inj _).mpr ih
    · -- the stream ends inside the block
      have hnone : w.drop (f.width + n) = [] := by
        rw [← List.drop_drop]
        exact List.drop_eq_nil_of_le hpart
      rw [hnone, blocks_nil, List.append_nil, List.take_of_length_le hpart, List.take_append,
        List.take_of_length_le hpart, List.append_assoc]
      exact List.prefix_append _ _
  | case2 w hle hsize =>
    rw [blocks_none hsize]
    exact List.nil_prefix
  | case3 w hlt =>
    rw [blocks_short (Nat.lt_of_not_le hlt)]
    exact List.nil_prefix

theorem decoded_mono (w z : List UInt8) : f.decoded w <+: f.decoded (w ++ z) := by
  unfold decoded
  split_ifs with hw hwz
  · rw [List.drop_append_of_le_length hw.length_le]
    exact f.blocks_mono _ _
  · exact absurd (hw.trans (List.prefix_append _ _)) hwz
  · exact List.nil_prefix
  · exact List.nil_prefix

def decoding : Decoding UInt8 := ⟨f.decoded, f.decoded_mono⟩

theorem length_blocks (w : List UInt8) : (f.blocks w).length ≤ w.length - f.width := by
  induction w using blocks.induct f with
  | case1 w hle n hsize ih =>
    rw [List.length_drop] at ih
    rw [blocks_some hle hsize, List.length_append, List.length_take, List.length_drop]
    omega
  | case2 w hle hsize =>
    rw [blocks_none hsize]
    exact Nat.zero_le _
  | case3 w hlt =>
    rw [blocks_short (Nat.lt_of_not_le hlt)]
    exact Nat.zero_le _

theorem length_blocks_append (w z : List UInt8) :
    (f.blocks (w ++ z)).length ≤ (f.blocks w).length + z.length := by
  induction w using blocks.induct f with
  | case1 w hle n hsize ih =>
    have htake : (w ++ z).take f.width = w.take f.width := List.take_append_of_le_length hle
    have hall := f.length_blocks ((w ++ z).drop (f.width + n))
    rw [blocks_some hle hsize, blocks_some (hle.trans (List.prefix_append w z).length_le)
      (htake ▸ hsize)]
    rcases Nat.le_total (f.width + n) w.length with hwhole | hpart
    · rw [List.drop_append_of_le_length hwhole] at hall ⊢
      simp only [List.length_append, List.length_take, List.length_drop] at ih ⊢
      omega
    · simp only [List.length_append, List.length_take, List.length_drop] at hall ⊢
      omega
  | case2 w hle hsize =>
    have htake : (w ++ z).take f.width = w.take f.width := List.take_append_of_le_length hle
    rw [blocks_none (htake ▸ hsize)]
    exact Nat.zero_le _
  | case3 w hlt =>
    have hall := f.length_blocks (w ++ z)
    rw [List.length_append] at hall
    omega

/-- A stored byte costs at least a byte. -/
theorem length_fresh (w z : List UInt8) : (f.decoding.fresh w z).length ≤ z.length := by
  have hall : (f.decoded (w ++ z)).length ≤ (f.decoded w).length + z.length := by
    by_cases hw : f.magic <+: w
    · rw [decoded, decoded, if_pos hw, if_pos (hw.trans (List.prefix_append _ _)),
        List.drop_append_of_le_length hw.length_le]
      exact f.length_blocks_append _ _
    · rw [decoded]
      split_ifs with hwz
      · have hshort : w.length < f.magic.length :=
          Nat.lt_of_not_le fun hle =>
            hw (List.prefix_of_prefix_length_le hwz (List.prefix_append w z) hle)
        have hblocks := f.length_blocks ((w ++ z).drop f.magic.length)
        rw [List.length_drop, List.length_append] at hblocks
        omega
      · exact Nat.zero_le _
  have hsum := congrArg List.length (f.decoding.decoded_append w z)
  rw [List.length_append] at hsum
  change (f.decoded (w ++ z)).length = (f.decoded w).length + _ at hsum
  omega

theorem fresh_start (h : ∀ p ∈ parts, p.length ≤ f.maxBlock) :
    f.decoding.fresh [] (f.frame parts) = parts.flatten := by
  have hnone : f.decoded [] = [] := by
    rw [decoded, List.drop_nil, blocks_nil, ite_self]
  change (f.decoded (f.frame parts)).drop (f.decoded []).length = _
  rw [hnone, f.decoded_frame h]
  rfl

theorem fresh_blocks {more : List (List UInt8)} (h : ∀ p ∈ parts ++ more, p.length ≤ f.maxBlock) :
    f.decoding.fresh (f.frame parts) (more.flatMap f.block) = more.flatten := by
  change (f.decoded (f.frame parts ++ more.flatMap f.block)).drop
    (f.decoded (f.frame parts)).length = _
  rw [← f.frame_append, f.decoded_frame h,
    f.decoded_frame fun p hp => h p (List.mem_append_left _ hp),
      List.flatten_append, List.drop_left]

/-! ## A whole frame -/

def body (w : List UInt8) : Option (List UInt8) :=
  if w = f.endMark then some []
  else if f.width ≤ w.length then
    match f.size (w.take f.width) with
    | some n =>
      if f.width + n ≤ w.length then (body (w.drop (f.width + n))).map
        ((w.drop f.width).take n ++ ·) else none
    | none => none
  else none
termination_by w.length
decreasing_by
  have hpos := f.width_pos
  rw [List.length_drop]
  omega

def unframe (w : List UInt8) : Option (List UInt8) :=
  if f.magic <+: w then f.body (w.drop f.magic.length) else none

theorem body_block {data rest : List UInt8} (h : data.length ≤ f.maxBlock) (hrest : rest ≠ []) :
    f.body (f.block data ++ rest) = (f.body rest).map (data ++ ·) := by
  have hlen := f.length_header data.length
  have hwhole : (f.block data ++ rest).length = f.width + data.length + rest.length := by
    rw [block, List.length_append, List.length_append, hlen]
  have hsize : f.size ((f.block data ++ rest).take f.width) = some data.length := by
    rw [block, List.append_assoc, List.take_left' hlen, f.size_header h]
  have hdrop : (f.block data ++ rest).drop f.width = data ++ rest := by
    rw [block, List.append_assoc, List.drop_left' hlen]
  have hmore : f.block data ++ rest ≠ f.endMark := by
    intro heq
    have hpos := List.length_pos_iff.mpr hrest
    rw [heq, f.length_endMark] at hwhole
    omega
  rw [body, if_neg hmore, if_pos (by omega), hsize]
  dsimp only
  rw [if_pos (by omega), ← List.drop_drop, hdrop, List.take_left, List.drop_left]

theorem unframe_frame (h : ∀ p ∈ parts, p.length ≤ f.maxBlock) :
    f.unframe (f.frame parts ++ f.endMark) = some parts.flatten := by
  have hne : ∀ parts : List (List UInt8), parts.flatMap f.block ++ f.endMark ≠ [] := fun _ =>
    List.append_ne_nil_of_right_ne_nil _ (List.length_pos_iff.mp (f.length_endMark ▸ f.width_pos))
  have hbody : f.body (parts.flatMap f.block ++ f.endMark) = some parts.flatten := by
    induction parts with
    | nil =>
      rw [body]
      exact if_pos rfl
    | cons p parts ih =>
      rw [List.flatMap_cons, List.append_assoc, f.body_block (h p List.mem_cons_self) (hne parts),
        ih fun q hq => h q (List.mem_cons_of_mem _ hq)]
      rfl
  rw [unframe, frame, List.append_assoc, if_pos (List.prefix_append _ _), List.drop_left, hbody]

end StoredFormat

/-! ## LZ4 and Zstandard -/

def lz4Frame : StoredFormat where
  magic := [0x04, 0x22, 0x4D, 0x18, 0x40, 0x40, 0xC0]
  width := 4
  maxBlock := 65536
  header n := toLE 4 (0x80000000 + n)
  size b := if 0x80000000 ≤ ofLE b then some (ofLE b - 0x80000000) else none
  endMark := [0, 0, 0, 0]
  width_pos := by decide
  maxBlock_pos := by decide
  length_header _ := rfl
  length_endMark := rfl
  size_header {n} hn := by
    rw [ofLE_toLE_of_lt (by omega), if_pos (by omega), Nat.add_sub_cancel_left]

def zstdFrame : StoredFormat where
  magic := [0x28, 0xB5, 0x2F, 0xFD, 0x00, 0x58]
  width := 3
  maxBlock := 131072
  header n := toLE 3 (8 * n)
  size b := if ofLE b % 8 = 0 then some (ofLE b / 8) else none
  -- the last block, stored and empty
  endMark := [1, 0, 0]
  width_pos := by decide
  maxBlock_pos := by decide
  length_header _ := rfl
  length_endMark := rfl
  size_header {n} hn := by
    rw [ofLE_toLE_of_lt (by omega), if_pos (by omega), Nat.mul_div_cancel_left n (by decide)]

end Lib
