import Mathlib

/-! Files as lists, written at positions. Writes that all agree with one image make, in any
order, the same file of them. -/

namespace Lib
variable {α : Type}

def Hits (offset : ℕ) (data : List α) (p : ℕ) : Prop := offset ≤ p ∧ p < offset + data.length

def Agrees (image : List α) (offset : ℕ) (data : List α) : Prop :=
  ∀ p, Hits offset data p → data[p - offset]? = image[p]?

structure Painted (image old : List α) (done : ℕ → Prop) (f : List α) : Prop where
  bounded : ∀ p, done p → p < image.length
  front : ∀ p, done p → f[p]? = image[p]?
  back : ∀ p, image.length ≤ p → f[p]? = old[p]?

variable {image old f data : List α} {offset p : ℕ} {done : ℕ → Prop}

theorem Agrees.bounded (h : Agrees image offset data) (hp : Hits offset data p) :
    p < image.length := by
  have hget := h p hp
  have hin : p - offset < data.length := by
    obtain ⟨hlow, hhigh⟩ := hp
    omega
  rw [List.getElem?_eq_getElem hin] at hget
  by_contra hout
  rw [List.getElem?_eq_none (Nat.not_lt.mp hout)] at hget
  exact nomatch hget

theorem Painted.eq (h : Painted image old done f) (hall : ∀ p < image.length, done p) :
    f = image ++ old.drop image.length := by
  refine List.ext_getElem? fun p => ?_
  rcases Nat.lt_or_ge p image.length with hp | hp
  · rw [List.getElem?_append_left hp]
    exact h.front p (hall p hp)
  · rw [List.getElem?_append_right hp, List.getElem?_drop, Nat.add_sub_cancel' hp]
    exact h.back p hp

/-! ## Writing -/

variable [Zero α]

/-- `pwrite`: a file that is too short is filled up with zeros. -/
def pwrite (f : List α) (offset : ℕ) (data : List α) : List α :=
  if data = [] then f
  else (f ++ List.replicate (offset - f.length) 0).take offset ++ data ++
    f.drop (offset + data.length)

theorem padded_length (f : List α) (offset : ℕ) :
    ((f ++ List.replicate (offset - f.length) 0).take offset).length = offset := by
  rw [List.length_take, List.length_append, List.length_replicate]
  omega

theorem pwrite_inside (hp : Hits offset data p) :
    (pwrite f offset data)[p]? = data[p - offset]? := by
  obtain ⟨hlow, hhigh⟩ := hp
  have hlen := padded_length f offset
  have hne : data ≠ [] := by
    rintro rfl
    exact absurd hhigh (Nat.not_lt.mpr hlow)
  unfold pwrite
  rw [if_neg hne, List.append_assoc, List.getElem?_append_right (hlen.trans_le hlow), hlen,
    List.getElem?_append_left (by omega)]

theorem pwrite_behind (hhigh : offset + data.length ≤ p) : (pwrite f offset data)[p]? = f[p]? := by
  have hlen := padded_length f offset
  unfold pwrite
  split_ifs
  · rfl
  · rw [List.getElem?_append_right (by rw [List.length_append, hlen]; exact hhigh),
      List.length_append, hlen, List.getElem?_drop]
    congr 1
    omega

theorem pwrite_before (hlow : p < offset) (hp : p < f.length) :
    (pwrite f offset data)[p]? = f[p]? := by
  have hlen := padded_length f offset
  unfold pwrite
  split_ifs
  · rfl
  · rw [List.append_assoc, List.getElem?_append_left (hlen.symm ▸ hlow),
      List.getElem?_take_of_lt hlow, List.getElem?_append_left hp]

theorem pwrite_hole (hlow : p < offset) (hp : f.length ≤ p) (hne : data ≠ []) :
    (pwrite f offset data)[p]? = some 0 := by
  have hlen := padded_length f offset
  unfold pwrite
  rw [if_neg hne, List.append_assoc, List.getElem?_append_left (hlen.symm ▸ hlow),
    List.getElem?_take_of_lt hlow, List.getElem?_append_right hp,
      List.getElem?_replicate_of_lt (by omega)]

def Kept (f g : List α) (p : ℕ) : Prop := g[p]? = f[p]? ∨ f.length ≤ p ∧ g[p]? = some 0

theorem kept_refl (f : List α) (p : ℕ) : Kept f f p := .inl rfl

theorem Kept.trans {g h : List α} (hfg : Kept f g p) (hgh : Kept g h p) : Kept f h p := by
  rcases hfg with hsame | ⟨hout, hzero⟩
  · rcases hgh with hsame' | ⟨hout, hzero⟩
    · exact .inl (hsame'.trans hsame)
    · rw [List.getElem?_eq_none hout] at hsame
      exact .inr ⟨List.getElem?_eq_none_iff.mp hsame.symm, hzero⟩
  · rcases hgh with hsame' | ⟨hout', _⟩
    · exact .inr ⟨hout, hsame'.trans hzero⟩
    · rw [List.getElem?_eq_none hout'] at hzero
      exact nomatch hzero

theorem Kept.eq_of_some {g : List α} (h : Kept f g p) {a : α} (hp : f[p]? = some a) :
    g[p]? = some a := by
  rcases h with hsame | ⟨hout, _⟩
  · exact hsame.trans hp
  · rw [List.getElem?_eq_none hout] at hp
    exact nomatch hp

theorem pwrite_kept (hp : ¬Hits offset data p) : Kept f (pwrite f offset data) p := by
  by_cases hne : data = []
  · rw [hne, pwrite, if_pos rfl]
    exact kept_refl f p
  rcases Nat.lt_or_ge p offset with hlow | hlow
  · rcases Nat.lt_or_ge p f.length with hin | hout
    · exact .inl (pwrite_before hlow hin)
    · exact .inr ⟨hout, pwrite_hole hlow hout hne⟩
  · exact .inl (pwrite_behind (Nat.not_lt.mp fun hhigh => hp ⟨hlow, hhigh⟩))

theorem pwrite_grows (hne : data ≠ []) (hout : f.length ≤ offset) :
    (pwrite f offset data).length = offset + data.length := by
  unfold pwrite
  rw [if_neg hne, List.length_append, List.length_append, padded_length, List.length_drop]
  omega

theorem pwrite_length_le (f data : List α) (offset : ℕ) :
    (pwrite f offset data).length ≤ max f.length (offset + data.length) := by
  unfold pwrite
  split_ifs
  · exact le_max_left _ _
  · rw [List.length_append, List.length_append, padded_length, List.length_drop]
    omega

theorem pwrite_end (f data : List α) : pwrite f f.length data = f ++ data := by
  unfold pwrite
  split_ifs with hnil
  · rw [hnil, List.append_nil]
  · rw [Nat.sub_self, List.replicate_zero, List.append_nil, List.take_length,
      List.drop_eq_nil_of_le (Nat.le_add_right _ _), List.append_nil]

theorem Painted.write (h : Painted image old done f) (ha : Agrees image offset data) :
    Painted image old (fun p => done p ∨ Hits offset data p) (pwrite f offset data) := by
  refine ⟨fun p hp => hp.elim (h.bounded p) ha.bounded, fun p hp => ?_, fun p hp => ?_⟩
  · by_cases hhit : Hits offset data p
    · rw [pwrite_inside hhit]
      exact ha p hhit
    · have hdone := hp.resolve_right hhit
      have hfront := h.front p hdone
      rcases Nat.lt_or_ge p offset with hlow | hlow
      · have hin : p < f.length := by
          by_contra hout
          rw [List.getElem?_eq_none (Nat.not_lt.mp hout),
            List.getElem?_eq_getElem (h.bounded p hdone)] at hfront
          exact nomatch hfront
        rw [pwrite_before hlow hin]
        exact hfront
      · rw [pwrite_behind (Nat.not_lt.mp fun hlt => hhit ⟨hlow, hlt⟩)]
        exact hfront
  · by_cases hne : data = []
    · rw [hne, pwrite, if_pos rfl]
      exact h.back p hp
    · -- the last byte of the write is one of the image
      have hpos := List.length_pos_iff.mpr hne
      have hlast : Hits offset data (offset + (data.length - 1)) := ⟨Nat.le_add_right _ _, by omega⟩
      have hlt := ha.bounded hlast
      rw [pwrite_behind (by omega)]
      exact h.back p hp

end Lib
