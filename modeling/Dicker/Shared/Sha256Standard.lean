import Dicker.Lib.Fips180
import Dicker.Lib.LittleEndian
import Dicker.Shared.Sha256

/-! The hash of shared/sha256.h is the one of the standard, however a message is handed to it, and
so is the keyed hash over it. -/

namespace Dicker.Crypto
open Lib Fips180

/-! ## A block -/

variable {n : ℕ} {bits : List Bool}

theorem prime_iff (hn : n < 324) :
    Nat.Prime n ↔ 2 ≤ n ∧ ∀ p ∈ [2, 3, 5, 7, 11, 13, 17], p ∣ n → p = n := by
  constructor
  · intro h
    refine ⟨h.two_le, fun p hp hdvd => ?_⟩
    have hone : p ≠ 1 := by
      rintro rfl
      exact absurd hp (by decide)
    exact (h.eq_one_or_self_of_dvd p hdvd).resolve_left hone
  · rintro ⟨htwo, hall⟩
    by_contra hnot
    have hfactor := Nat.minFac_prime (n := n) (by omega)
    have hsq := Nat.minFac_sq_le_self (by omega) hnot
    have hlt : n.minFac < 18 := by nlinarith
    have hmem : ∀ p < 18, Nat.Prime p → p ∈ [2, 3, 5, 7, 11, 13, 17] := by decide
    have hself := hall _ (hmem _ hlt hfactor) n.minFac_dvd
    exact hnot (hself ▸ hfactor)

theorem primes_eq :
    primes = [2, 3, 5, 7, 11, 13, 17, 19, 23, 29, 31, 37, 41, 43, 47, 53, 59, 61, 67, 71, 73, 79,
      83, 89, 97, 101, 103, 107, 109, 113, 127, 131, 137, 139, 149, 151, 157, 163, 167, 173, 179,
      181, 191, 193, 197, 199, 211, 223, 227, 229, 233, 239, 241, 251, 257, 263, 269, 271, 277,
      281, 283, 293, 307, 311] := by
  have htrial : primes = (List.range 312).filter fun n => 2 ≤ n ∧
      ∀ p ∈ [2, 3, 5, 7, 11, 13, 17], p ∣ n → p = n :=
    List.filter_congr fun n hn => by
      have hlt : n < 312 := List.mem_range.mp hn
      rw [decide_eq_decide]
      exact prime_iff (by omega)
  rw [htrial]
  decide +kernel

theorem constants_root : ∀ pk ∈ primes.zip kRoundConstants, ∃ whole < 7,
    (whole * 2 ^ 32 + pk.2.toNat) ^ 3 ≤ pk.1 * 2 ^ (32 * 3) ∧
      pk.1 * 2 ^ (32 * 3) < (whole * 2 ^ 32 + pk.2.toNat + 1) ^ 3 := by
  rw [primes_eq]
  decide +kernel

theorem constants_eq : kRoundConstants.map UInt32.toBitVec = (List.range 64).map constant := by
  have hlength : primes.length = kRoundConstants.length := by rw [primes_eq]; rfl
  have hfst : (primes.zip kRoundConstants).map Prod.fst = primes :=
    List.map_fst_zip (le_of_eq hlength)
  have hsnd : (primes.zip kRoundConstants).map Prod.snd = kRoundConstants :=
    List.map_snd_zip (le_of_eq hlength.symm)
  have hprimes : (List.range 64).map (primes.getD · 0) = primes := by
    rw [primes_eq]
    decide +kernel
  have hroots : (primes.zip kRoundConstants).map (fun pk => pk.2.toBitVec) =
      (primes.zip kRoundConstants).map fun pk => rootFraction 3 pk.1 := by
    refine List.map_congr_left fun pk hpk => ?_
    obtain ⟨whole, -, hlow, hhigh⟩ := constants_root pk hpk
    rw [rootFraction_eq (by decide) hlow hhigh]
    exact BitVec.eq_of_toNat_eq (by rw [BitVec.toNat_ofNat, Nat.mod_eq_of_lt pk.2.toNat_lt]; rfl)
  calc kRoundConstants.map UInt32.toBitVec
      = ((primes.zip kRoundConstants).map Prod.snd).map UInt32.toBitVec :=
        congrArg (List.map UInt32.toBitVec) hsnd.symm
    _ = (primes.zip kRoundConstants).map fun pk => rootFraction 3 pk.1 := by
        rw [List.map_map]
        exact hroots
    _ = ((primes.zip kRoundConstants).map Prod.fst).map (rootFraction 3) := by
        rw [List.map_map]
        rfl
    _ = ((List.range 64).map (primes.getD · 0)).map (rootFraction 3) := by rw [hfst, hprimes]
    _ = (List.range 64).map constant := by
        rw [List.map_map]
        rfl

def Words.work (v : Words) : Work :=
  ⟨v.a.toBitVec, v.b.toBitVec, v.c.toBitVec, v.d.toBitVec, v.e.toBitVec, v.f.toBitVec,
    v.g.toBitVec, v.h.toBitVec⟩

theorem work_reset : Sha256.reset.state.work = initial := by
  rw [initial, primes_eq]
  decide +kernel

theorem work_round (v : Words) (kw : UInt32 × UInt32) :
    (round v kw).work = step kw.1.toBitVec kw.2.toBitVec v.work := rfl

theorem work_rounds (kws : List (UInt32 × UInt32)) (v : Words) :
    (kws.foldl round v).work = kws.foldl
    (fun u kw => step kw.1.toBitVec kw.2.toBitVec u) v.work := by
  induction kws generalizing v with
  | nil => rfl
  | cons kw kws ih =>
    rw [List.foldl_cons, List.foldl_cons, ih, work_round]

theorem or_reverse (a b c d : UInt32) : a ||| b ||| c ||| d = d ||| c ||| b ||| a := by
  ac_rfl

theorem toBitVec_word (p q r s : UInt8) :
    ((p.toUInt32 <<< 24) ||| (q.toUInt32 <<< 16) ||| (r.toUInt32 <<< 8) ||| s.toUInt32).toBitVec =
      BitVec.ofNat 32 (value (ofBytes [p, q, r, s])) := by
  have hp := p.toNat_lt
  have hq := q.toNat_lt
  have hr := r.toNat_lt
  have hs := s.toNat_lt
  have h₁ : (s.toUInt32 ||| r.toUInt32 <<< 8).toNat = s.toNat + r.toNat * 2 ^ 8 :=
    UInt32.or_byte r (by decide) hs
  have h₂ : (s.toUInt32 ||| r.toUInt32 <<< 8 ||| q.toUInt32 <<< 16).toNat =
      (s.toUInt32 ||| r.toUInt32 <<< 8).toNat + q.toNat * 2 ^ 16 :=
    UInt32.or_byte q (by decide) (by rw [h₁]; change _ < 2 ^ 16; omega)
  have h₃ : (s.toUInt32 ||| r.toUInt32 <<< 8 ||| q.toUInt32 <<< 16 ||| p.toUInt32 <<< 24).toNat =
      (s.toUInt32 ||| r.toUInt32 <<< 8 ||| q.toUInt32 <<< 16).toNat + p.toNat * 2 ^ 24 :=
    UInt32.or_byte p (by decide) (by rw [h₂, h₁]; change _ < 2 ^ 24; omega)
  have hvalue : value (ofBytes [p, q, r, s]) = p.toNat * 2 ^ 24 + q.toNat * 2 ^ 16 +
      r.toNat * 2 ^ 8 + s.toNat := by
    simp only [value_ofBytes_cons, List.length_cons, List.length_nil]
    change _ + (_ + (_ + (_ + 0))) = _
    ring
  apply BitVec.eq_of_toNat_eq
  rw [or_reverse, UInt32.toNat_toBitVec, h₃, h₂, h₁, hvalue, BitVec.toNat_ofNat,
    Nat.mod_eq_of_lt (by omega)]
  ring

theorem blockWord_zero (p q r s : UInt8) (rest : Bytes) :
    blockWord (ofBytes (p :: q :: r :: s :: rest)) 0 =
      BitVec.ofNat 32 (value (ofBytes [p, q, r, s])) := by
  exact congrArg (fun bits => BitVec.ofNat 32 (value bits))
    (take_ofBytes 4 (p :: q :: r :: s :: rest))

theorem blockWord_succ (p q r s : UInt8) (rest : Bytes) (t : ℕ) :
    blockWord (ofBytes (p :: q :: r :: s :: rest)) (t + 1) = blockWord (ofBytes rest) t := by
  have hdrop : ∀ bytes : Bytes, ∀ t, (ofBytes bytes).drop (32 * t) =
      ofBytes (bytes.drop (4 * t)) := by
    intro bytes t
    rw [← drop_ofBytes, ← Nat.mul_assoc]
  rw [blockWord, blockWord, hdrop, hdrop]
  rfl

theorem blockWords_eq {bytes : Bytes} (h : bytes.length = 4 * n) :
    (blockWords bytes).map UInt32.toBitVec = (List.range n).map (blockWord (ofBytes bytes)) := by
  induction n generalizing bytes with
  | zero =>
    rw [List.eq_nil_of_length_eq_zero h]
    rfl
  | succ n ih =>
    match bytes, h with
    | p :: q :: r :: s :: rest, h =>
      have hrest : rest.length = 4 * n := by
        simp only [List.length_cons] at h
        omega
      have hbehind : (List.range n).map
          (blockWord (ofBytes (p :: q :: r :: s :: rest)) ∘ Nat.succ) =
          (List.range n).map (blockWord (ofBytes rest)) :=
        List.map_congr_left fun t _ => blockWord_succ p q r s rest t
      rw [blockWords, List.map_cons, ih hrest, toBitVec_word, List.range_succ_eq_map,
        List.map_cons, List.map_map, blockWord_zero, hbehind]
    | [], h | [_], h | [_, _], h | [_, _, _], h => simp at h <;> omega

theorem schedule_of_lt {t : ℕ} (h : t < 16) : schedule bits t = blockWord bits t := by
  rw [schedule, if_pos h]

theorem schedule_of_ge {t : ℕ} (h : 16 ≤ t) : schedule bits t =
    sigma1 (schedule bits (t - 2)) + schedule bits (t - 7) + sigma0 (schedule bits (t - 15)) +
      schedule bits (t - 16) := by
  rw [schedule, if_neg (by omega)]

theorem extendSchedule_eq (n : ℕ) {m : ℕ} {w : List UInt32} (hm : 16 ≤ m)
    (h : w.map UInt32.toBitVec = (List.range m).map (schedule bits)) :
    (extendSchedule n w).map UInt32.toBitVec = (List.range (m + n)).map (schedule bits) := by
  induction n generalizing m w with
  | zero => exact h
  | succ n ih =>
    have hlen : w.length = m := by simpa using congrArg List.length h
    have hget : ∀ i < m, (w.getD i 0).toBitVec = schedule bits i := by
      intro i hi
      have hi' := congrArg (·[i]?) h
      simp only [List.getElem?_map, List.getElem?_range hi, Option.map_some] at hi'
      obtain ⟨x, hx, hxi⟩ := Option.map_eq_some_iff.mp hi'
      rw [List.getD_eq_getElem?_getD, hx]
      exact hxi
    rw [extendSchedule, ← Nat.succ_add_eq_add_succ]
    apply ih (Nat.le_succ_of_le hm)
    rw [List.map_append, h, List.range_succ, List.map_append, List.map_singleton,
      List.map_singleton, hlen, schedule_of_ge hm, ← hget _ (by omega : m - 2 < m),
      ← hget _ (by omega : m - 7 < m), ← hget _ (by omega : m - 15 < m),
        ← hget _ (by omega : m - 16 < m)]
    congr 2
    change (w.getD (m - 16) 0).toBitVec + sigma0 (w.getD (m - 15) 0).toBitVec +
      (w.getD (m - 7) 0).toBitVec + sigma1 (w.getD (m - 2) 0).toBitVec = _
    abel

theorem work_processBlock (state : Words) {bytes : Bytes} (h : bytes.length = kSha256BlockSize) :
    (processBlock state bytes).work = compress state.work (ofBytes bytes) := by
  have hwords : (blockWords bytes).map UInt32.toBitVec =
      (List.range 16).map (schedule (ofBytes bytes)) := by
    rw [blockWords_eq (n := 16) h]
    exact List.map_congr_left fun t ht => (schedule_of_lt (List.mem_range.mp ht)).symm
  have hschedule := extendSchedule_eq 48 (le_refl 16) hwords
  have hrounds :
      ((kRoundConstants.zip (extendSchedule 48 (blockWords bytes))).foldl round state).work =
      (List.range 64).foldl (fun v t => step (constant t) (schedule (ofBytes bytes) t) v)
        state.work := by
    have hzip : (kRoundConstants.zip (extendSchedule 48 (blockWords bytes))).map
        (Prod.map UInt32.toBitVec UInt32.toBitVec) =
        (List.range 64).map fun t => (constant t, schedule (ofBytes bytes) t) := by
      rw [← List.zip_map, constants_eq, hschedule, List.zip_map']
    rw [work_rounds]
    have hfold :=
      congrArg (List.foldl (fun u (kw : Word × Word) => step kw.1 kw.2 u) state.work) hzip
    rwa [List.foldl_map, List.foldl_map] at hfold
  rw [compress, ← hrounds]
  simp only [processBlock, Words.work, Work.add, UInt32.toBitVec_add, add_comm]

/-! ## What has been absorbed -/

namespace Sha256
variable {s : Sha256} {data : Bytes}

theorem foldl_absorb_of_lt (h : s.buffer.length + data.length < kSha256BlockSize) :
    data.foldl absorb s = { s with buffer := s.buffer ++ data } := by
  induction data generalizing s with
  | nil => rw [List.append_nil]; rfl
  | cons b data ih =>
    rw [List.length_cons] at h
    have habsorb : s.absorb b = { s with buffer := s.buffer ++ [b] } := if_neg (by omega)
    rw [List.foldl_cons, habsorb, ih (by rw [List.length_append, List.length_singleton]; omega)]
    simp

theorem foldl_absorb_of_eq (hne : data ≠ [])
    (h : s.buffer.length + data.length = kSha256BlockSize) :
    data.foldl absorb s = { s with
      state := processBlock s.state (s.buffer ++ data), buffer := [] } := by
  obtain ⟨front, b, rfl⟩ := (List.eq_nil_or_concat' data).resolve_left hne
  rw [List.length_append, List.length_singleton] at h
  have hfront : front.foldl absorb s = { s with buffer := s.buffer ++ front } :=
    foldl_absorb_of_lt (by omega)
  rw [List.foldl_append, hfront, List.foldl_cons, List.foldl_nil, absorb,
    if_pos (by rw [List.length_append]; omega), List.append_assoc]

def setCount (s : Sha256) (n : UInt64) : Sha256 := { s with bitCount := n }

@[simp]
theorem state_setCount (s : Sha256) (n : UInt64) : (s.setCount n).state = s.state := rfl

@[simp]
theorem buffer_setCount (s : Sha256) (n : UInt64) : (s.setCount n).buffer = s.buffer := rfl

@[simp]
theorem setCount_setCount (s : Sha256) (n m : UInt64) :
    (s.setCount n).setCount m = s.setCount m := rfl

theorem foldl_absorb_setCount (s : Sha256) (n : UInt64) (data : Bytes) :
    data.foldl absorb (s.setCount n) = (data.foldl absorb s).setCount n := by
  induction data generalizing s with
  | nil => rfl
  | cons b data ih =>
    have habsorb : (s.setCount n).absorb b = (s.absorb b).setCount n := by
      unfold absorb setCount
      split_ifs <;> rfl
    rw [List.foldl_cons, habsorb, ih, List.foldl_cons]

theorem update_eq (s : Sha256) (data : Bytes) :
    s.update data = (data.foldl absorb s).setCount (s.bitCount + UInt64.ofNat data.length * 8) :=
  foldl_absorb_setCount s _ data

theorem length_absorb (h : s.buffer.length < kSha256BlockSize) (b : UInt8) :
    (s.absorb b).buffer.length = (s.buffer.length + 1) % kSha256BlockSize := by
  unfold absorb
  split_ifs with hfull
  · rw [hfull]
    rfl
  · rw [List.length_append, List.length_singleton, Nat.mod_eq_of_lt (by omega)]

theorem length_foldl_absorb (h : s.buffer.length < kSha256BlockSize) (data : Bytes) :
    (data.foldl absorb s).buffer.length = (s.buffer.length + data.length) % kSha256BlockSize := by
  induction data generalizing s with
  | nil => exact (Nat.mod_eq_of_lt h).symm
  | cons b data ih =>
    have hb := length_absorb h b
    have hlt : (s.absorb b).buffer.length < kSha256BlockSize := hb ▸ Nat.mod_lt _ (by decide)
    rw [List.foldl_cons, ih hlt, hb, List.length_cons, Nat.mod_add_mod]
    congr 1
    omega

theorem foldl_absorb_blocks (hbuffer : s.buffer = []) (n : ℕ)
    (h : kSha256BlockSize * n ≤ data.length) :
    ((data.take (kSha256BlockSize * n)).foldl absorb s).buffer = [] ∧
      ((data.take (kSha256BlockSize * n)).foldl absorb s).state.work =
        (List.range n).foldl (fun hash i => compress hash (block (ofBytes data) i))
          s.state.work := by
  induction n with
  | zero => exact ⟨hbuffer, rfl⟩
  | succ n ih =>
    obtain ⟨hempty, hwork⟩ := ih (by rw [Nat.mul_succ] at h; omega)
    have htake : data.take (kSha256BlockSize * (n + 1)) =
        data.take (kSha256BlockSize * n) ++
          (data.drop (kSha256BlockSize * n)).take kSha256BlockSize := by
      rw [Nat.mul_succ, List.take_add]
    have hlen : ((data.drop (kSha256BlockSize * n)).take kSha256BlockSize).length =
        kSha256BlockSize := by
      rw [Nat.mul_succ] at h
      rw [List.length_take, List.length_drop]
      omega
    have hblock : block (ofBytes data) n =
        ofBytes ((data.drop (kSha256BlockSize * n)).take kSha256BlockSize) := by
      rw [← take_ofBytes, ← drop_ofBytes, block, ← Nat.mul_assoc]
      rfl
    have hne : (data.drop (kSha256BlockSize * n)).take kSha256BlockSize ≠ [] := by
      intro hnil
      rw [hnil] at hlen
      exact absurd hlen (by decide)
    have hfull := foldl_absorb_of_eq (s := (data.take (kSha256BlockSize * n)).foldl absorb s) hne
      (by rw [hempty, hlen]; rfl)
    rw [htake, List.foldl_append, hfull, List.range_succ, List.foldl_append,
      hempty, List.nil_append, work_processBlock _ hlen, hwork, ← hblock]
    exact ⟨rfl, rfl⟩

theorem work_foldl_absorb (hbuffer : s.buffer = []) (h : kSha256BlockSize ∣ data.length) :
    (data.foldl absorb s).state.work = (List.range ((ofBytes data).length / 512)).foldl
      (fun hash i => compress hash (block (ofBytes data) i)) s.state.work := by
  obtain ⟨n, hn⟩ := h
  have hblocks := (foldl_absorb_blocks hbuffer n hn.ge).2
  have hcount : (ofBytes data).length / 512 = n := by
    rw [length_ofBytes, hn, kSha256BlockSize]
    omega
  rwa [List.take_of_length_le hn.le, ← hcount] at hblocks

/-! ## The padding -/

def missing (len : ℕ) : ℕ := (120 - len) % 64

theorem padZeros_eq (h : s.buffer.length < kSha256BlockSize) (hn : missing s.buffer.length ≤ n) :
    ∃ c, s.padZeros n =
      ((List.replicate (missing s.buffer.length) 0).foldl absorb s).setCount c := by
  induction n generalizing s with
  | zero =>
    rw [Nat.le_zero.mp hn]
    exact ⟨s.bitCount, rfl⟩
  | succ n ih =>
    rw [padZeros]
    split_ifs with hdone
    · -- a zero more
      have hlen := length_absorb h 0x00
      have hmissing : missing s.buffer.length = missing (s.absorb 0x00).buffer.length + 1 := by
        simp only [hlen, missing, kSha256BlockSize] at hdone h ⊢
        omega
      obtain ⟨m, hupdate⟩ : ∃ m, s.update [0x00] =
          (s.absorb 0x00).setCount m := ⟨_, update_eq s [0x00]⟩
      rw [hupdate, hmissing, List.replicate_succ, List.foldl_cons]
      obtain ⟨c, hc⟩ := ih (s := (s.absorb 0x00).setCount m) (hlen ▸ Nat.mod_lt _ (by decide))
        (by rw [buffer_setCount]; omega)
      exact ⟨c, by rw [hc, foldl_absorb_setCount, setCount_setCount, buffer_setCount]⟩
    · have hzero : missing s.buffer.length = 0 := by
        simp only [ne_eq, not_not] at hdone
        rw [hdone]
        rfl
      rw [hzero]
      exact ⟨s.bitCount, rfl⟩

def padding (len : ℕ) (totalBits : UInt64) : Bytes :=
  0x80 :: (List.replicate (missing ((len + 1) % kSha256BlockSize)) 0 ++ lengthBlock totalBits)

theorem state_finish (h : s.buffer.length < kSha256BlockSize) :
    (((s.update [0x80]).padZeros kSha256BlockSize).update (lengthBlock s.bitCount)).state =
      ((padding s.buffer.length s.bitCount).foldl absorb s).state := by
  obtain ⟨m, hupdate⟩ : ∃ m, s.update [0x80] = (s.absorb 0x80).setCount m := ⟨_, update_eq s [0x80]⟩
  have hlen := length_absorb h 0x80
  have hfuel : missing (s.absorb 0x80).buffer.length ≤ kSha256BlockSize :=
    (Nat.mod_lt _ (by decide)).le
  obtain ⟨c, hc⟩ :=
    padZeros_eq (s := (s.absorb 0x80).setCount m) (hlen ▸ Nat.mod_lt _ (by decide)) hfuel
  have hpadding : (padding s.buffer.length s.bitCount).foldl absorb s =
      (lengthBlock s.bitCount).foldl absorb
      ((List.replicate (missing (s.absorb 0x80).buffer.length) 0).foldl absorb
        (s.absorb 0x80)) := by
    rw [padding, List.foldl_cons, List.foldl_append, hlen]
  rw [hpadding, hupdate, hc, update_eq, foldl_absorb_setCount, foldl_absorb_setCount,
    foldl_absorb_setCount]
  simp only [state_setCount, buffer_setCount]

/-! ## The padded message -/

theorem ofBytes_zeros (k : ℕ) : ofBytes (List.replicate k 0) = List.replicate (8 * k) false := by
  induction k with
  | zero => rfl
  | succ k ih =>
    rw [List.replicate_succ, ofBytes_cons, ih, Nat.mul_succ, Nat.add_comm, List.replicate_add]
    rfl

theorem ofBytes_lengthBlock (n : UInt64) : ofBytes (lengthBlock n) = digits 64 n.toNat := by
  have hn := n.toNat_lt
  refine (digits_eq (by rw [length_ofBytes]; rfl) ?_).symm
  rw [Nat.mod_eq_of_lt hn]
  have hbyte : ∀ k ≤ 7, (n >>> UInt64.ofNat (8 * k)).toUInt8.toNat = n.toNat / 256 ^ k % 256 := by
    intro k hk
    rw [UInt64.toNat_toUInt8, UInt64.toNat_shiftRight, UInt64.toNat_ofNat',
      Nat.shiftRight_eq_div_pow]
    have hmod : 8 * k % 2 ^ 64 % 64 = 8 * k := by omega
    rw [hmod, pow_mul]
    rfl
  have hbytes : lengthBlock n =
      [(n >>> UInt64.ofNat (8 * 7)).toUInt8, (n >>> UInt64.ofNat (8 * 6)).toUInt8,
      (n >>> UInt64.ofNat (8 * 5)).toUInt8, (n >>> UInt64.ofNat (8 * 4)).toUInt8,
      (n >>> UInt64.ofNat (8 * 3)).toUInt8, (n >>> UInt64.ofNat (8 * 2)).toUInt8,
      (n >>> UInt64.ofNat (8 * 1)).toUInt8, (n >>> UInt64.ofNat (8 * 0)).toUInt8] := rfl
  have hsum : n.toNat = n.toNat % 256 ^ 8 := (Nat.mod_eq_of_lt hn).symm
  rw [Nat.mod_pow_succ, Nat.mod_pow_succ, Nat.mod_pow_succ, Nat.mod_pow_succ, Nat.mod_pow_succ,
    Nat.mod_pow_succ, Nat.mod_pow_succ, Nat.mod_pow_succ, pow_zero, Nat.mod_one] at hsum
  rw [hbytes]
  simp only [value_ofBytes_cons, List.length_cons, List.length_nil, hbyte _ (by decide : 7 ≤ 7),
    hbyte _ (by decide : 6 ≤ 7), hbyte _ (by decide : 5 ≤ 7), hbyte _ (by decide : 4 ≤ 7),
    hbyte _ (by decide : 3 ≤ 7), hbyte _ (by decide : 2 ≤ 7), hbyte _ (by decide : 1 ≤ 7),
    hbyte _ (by decide : 0 ≤ 7)]
  change _ + (_ + (_ + (_ + (_ + (_ + (_ + (_ + 0))))))) = _
  refine Eq.trans ?_ hsum.symm
  ring_nf

theorem zeros_eq (len : ℕ) :
    zeros (8 * len) = 7 + 8 * missing ((len % kSha256BlockSize + 1) % kSha256BlockSize) := by
  obtain ⟨q, r, hr, rfl⟩ : ∃ q r, r < 64 ∧ len = 64 * q + r :=
    ⟨len / 64, len % 64, Nat.mod_lt _ (by decide), by omega⟩
  have hrest : (64 * q + r) % kSha256BlockSize = r := by
    rw [kSha256BlockSize]
    omega
  have hzeros : zeros (8 * (64 * q + r)) = (959 - 8 * r) % 512 := by
    unfold zeros
    omega
  rw [hrest, hzeros, missing, kSha256BlockSize]
  rcases Nat.lt_or_ge r 63 with hlt | hge
  · rw [Nat.mod_eq_of_lt (by omega : r + 1 < 64)]
    omega
  · have hlast : r = 63 := by omega
    rw [hlast]

theorem ofBytes_padding (message : Bytes) {totalBits : UInt64}
    (hbits : totalBits = UInt64.ofNat (8 * message.length)) :
    ofBytes (message ++ padding (message.length % kSha256BlockSize) totalBits) =
      pad (ofBytes message) := by
  have hlength : digits 64 totalBits.toNat = digits 64 (8 * message.length) := by
    refine digits_eq (length_digits ..) ?_
    rw [value_digits, hbits, UInt64.toNat_ofNat', Nat.mod_mod]
  have hone : digits 8 (0x80 : UInt8).toNat = true :: List.replicate 7 false := by decide +kernel
  rw [pad, length_ofBytes, zeros_eq, padding, ofBytes_append, ofBytes_cons,
    ofBytes_append, ofBytes_zeros, ofBytes_lengthBlock, hlength, hone, List.replicate_add]
  simp only [List.cons_append, List.append_assoc]

theorem length_padded (len : ℕ) (totalBits : UInt64) :
    kSha256BlockSize ∣ len + (padding (len % kSha256BlockSize) totalBits).length := by
  have hblock : (lengthBlock totalBits).length = 8 := rfl
  rw [padding, List.length_cons, List.length_append, List.length_replicate, hblock]
  simp only [missing, kSha256BlockSize]
  omega

theorem ofBytes_wordBytes (w : UInt32) : ofBytes (wordBytes w) = digits 32 w.toNat := by
  have hw := w.toNat_lt
  refine (digits_eq (by rw [length_ofBytes]; rfl) ?_).symm
  have hbyte : ∀ k ≤ 3, (w >>> UInt32.ofNat (8 * k)).toUInt8.toNat = w.toNat / 256 ^ k % 256 := by
    intro k hk
    rw [UInt32.toNat_toUInt8, UInt32.toNat_shiftRight, UInt32.toNat_ofNat',
      Nat.shiftRight_eq_div_pow]
    have hmod : 8 * k % 2 ^ 32 % 32 = 8 * k := by omega
    rw [hmod, pow_mul]
    rfl
  have hbytes : wordBytes w = [(w >>> UInt32.ofNat (8 * 3)).toUInt8,
      (w >>> UInt32.ofNat (8 * 2)).toUInt8, (w >>> UInt32.ofNat (8 * 1)).toUInt8, w.toUInt8] := rfl
  have hlast : w.toUInt8.toNat = w.toNat % 256 := UInt32.toNat_toUInt8 w
  rw [hbytes]
  simp only [value_ofBytes_cons, List.length_cons, List.length_nil, hbyte _ (by decide : 3 ≤ 3),
    hbyte _ (by decide : 2 ≤ 3), hbyte _ (by decide : 1 ≤ 3), hlast]
  change _ + (_ + (_ + (_ + 0))) = _
  omega

theorem ofBytes_words (v : Words) :
    ofBytes (wordBytes v.a ++ wordBytes v.b ++ wordBytes v.c ++ wordBytes v.d ++
    wordBytes v.e ++ wordBytes v.f ++ wordBytes v.g ++ wordBytes v.h) = v.work.bits := by
  simp only [ofBytes_append, ofBytes_wordBytes]
  rfl

structure Holds (s : Sha256) (message : Bytes) : Prop where
  bits : s.bitCount = UInt64.ofNat (8 * message.length)
  absorbed : ∃ n, s = (message.foldl absorb reset).setCount n

theorem holds_reset : Holds reset [] := ⟨rfl, 0, rfl⟩

variable {message : Bytes}

theorem Holds.update (h : Holds s message) (data : Bytes) :
    Holds (s.update data) (message ++ data) := by
  obtain ⟨hbits, n, hs⟩ := h
  constructor
  · have hcount : (s.update data).bitCount = s.bitCount + UInt64.ofNat data.length * 8 := by
      rw [update_eq]
      rfl
    rw [hcount, hbits, List.length_append]
    apply UInt64.toNat_inj.mp
    simp only [UInt64.toNat_add, UInt64.toNat_mul, UInt64.toNat_ofNat']
    change (_ + _ % _ * 8 % _) % _ = _
    omega
  · have hfold : data.foldl absorb s = ((message ++ data).foldl absorb reset).setCount n := by
      rw [hs, foldl_absorb_setCount, List.foldl_append]
    rw [update_eq, hfold, setCount_setCount]
    exact ⟨_, rfl⟩

theorem Holds.finish (h : Holds s message) : s.finish = sha256Bytes message := by
  obtain ⟨hbits, n, hs⟩ := h
  have hempty : (reset.buffer : Bytes) = [] := rfl
  have hlen : s.buffer.length = message.length % kSha256BlockSize := by
    rw [hs, buffer_setCount, length_foldl_absorb (by decide), hempty, List.length_nil, Nat.zero_add]
  have hroom : s.buffer.length < kSha256BlockSize := hlen ▸ Nat.mod_lt _ (by decide)
  have hstate : ∀ data : Bytes, (data.foldl absorb s).state =
      ((message ++ data).foldl absorb reset).state := by
    intro data
    rw [hs, foldl_absorb_setCount, state_setCount, List.foldl_append]
  have hdigest : ofBytes s.finish = Fips180.sha256 (ofBytes message) := by
    have hdvd := length_padded message.length s.bitCount
    rw [← List.length_append] at hdvd
    rw [Sha256.finish, ofBytes_words, state_finish hroom, hlen, hstate,
      work_foldl_absorb hempty hdvd, ofBytes_padding message hbits, work_reset]
    rfl
  rw [sha256Bytes, ← hdigest, toBytes_ofBytes]

theorem Holds.updates (h : Holds s message) (pieces : List Bytes) :
    Holds (pieces.foldl Sha256.update s) (message ++ pieces.flatten) := by
  induction pieces generalizing s message with
  | nil =>
    rw [List.flatten_nil, List.append_nil]
    exact h
  | cons piece pieces ih =>
    rw [List.foldl_cons, List.flatten_cons, ← List.append_assoc]
    exact ih (h.update piece)

theorem finish_updates (pieces : List Bytes) :
    (pieces.foldl update reset).finish = sha256Bytes pieces.flatten :=
  (holds_reset.updates pieces).finish

end Sha256

/-! ## The loop of `update` -/

structure Hasher where
  val : Sha256
  room : val.buffer.length < kSha256BlockSize

namespace Hasher

def fill (s : Hasher) (piece : Bytes) (h : s.val.buffer.length + piece.length ≤ kSha256BlockSize) :
    Hasher :=
  if hfull : s.val.buffer.length + piece.length = kSha256BlockSize then
    ⟨{ s.val with state := processBlock s.val.state (s.val.buffer ++ piece), buffer := [] },
      Nat.succ_pos 63⟩
  else
    ⟨{ s.val with buffer := s.val.buffer ++ piece }, by rw [List.length_append]; omega⟩

def copy (s : Hasher) (data : Bytes) : Hasher :=
  if data = [] then s
  else
    let take := min data.length (kSha256BlockSize - s.val.buffer.length)
    have hroom := s.room
    (s.fill (data.take take) (by rw [List.length_take]; omega)).copy (data.drop take)
termination_by data.length
decreasing_by
  have hpos := List.length_pos_iff.mpr ‹data ≠ []›
  rw [List.length_drop]
  omega

def reset : Hasher := ⟨Sha256.reset, by decide⟩

def update (s : Hasher) (data : Bytes) : Hasher :=
  copy ⟨s.val.setCount (s.val.bitCount + UInt64.ofNat data.length * 8), s.room⟩ data

theorem fill_val (s : Hasher) {piece : Bytes} (hne : piece ≠ [])
    (h : s.val.buffer.length + piece.length ≤ kSha256BlockSize) :
    (s.fill piece h).val = piece.foldl Sha256.absorb s.val := by
  by_cases hfull : s.val.buffer.length + piece.length = kSha256BlockSize
  · rw [fill, dif_pos hfull, Sha256.foldl_absorb_of_eq hne hfull]
  · rw [fill, dif_neg hfull, Sha256.foldl_absorb_of_lt (by omega)]

theorem copy_val (s : Hasher) (data : Bytes) :
    (s.copy data).val = data.foldl Sha256.absorb s.val := by
  induction hn : data.length using Nat.strong_induction_on generalizing s data with
  | _ n ih =>
    rw [copy]
    split_ifs with hnil
    · rw [hnil]
      rfl
    · have hpos := List.length_pos_iff.mpr hnil
      have hroom := s.room
      have htake : data.take (min data.length (kSha256BlockSize - s.val.buffer.length)) ≠ [] := by
        apply List.ne_nil_of_length_pos
        rw [List.length_take]
        omega
      rw [ih _ (by rw [List.length_drop]; omega) _ _ rfl, fill_val _ htake, ← List.foldl_append,
        List.take_append_drop]

theorem update_val (s : Hasher) (data : Bytes) : (s.update data).val = s.val.update data :=
  copy_val _ data

theorem updates_val (s : Hasher) (pieces : List Bytes) :
    (pieces.foldl update s).val = pieces.foldl Sha256.update s.val := by
  induction pieces generalizing s with
  | nil => rfl
  | cons piece pieces ih => rw [List.foldl_cons, List.foldl_cons, ih, update_val]

end Hasher

/-! ## The keyed hash -/

theorem sha256_eq (data : Bytes) : sha256 data = sha256Bytes data :=
  (Sha256.holds_reset.update data).finish

theorem blockKey_eq (key : Bytes) :
    blockKey key = Rfc2104.blockKey sha256Bytes kSha256BlockSize key := by
  rw [blockKey, sha256_eq]
  rfl

theorem length_blockKey (key : Bytes) : (blockKey key).length = kSha256BlockSize := by
  have hdigest : (sha256 key).length = kSha256DigestSize := Sha256.finish_length _
  rw [blockKey, List.length_append, List.length_replicate]
  split_ifs with hlong
  · rw [hdigest]
    rfl
  · omega

theorem map_xor_eq (k : Bytes) (c : UInt8) :
    k.map (· ^^^ c) = List.zipWith (· ^^^ ·) k (List.replicate k.length c) := by
  induction k with
  | nil => rfl
  | cons b k ih =>
    rw [List.map_cons, ih, List.length_cons, List.replicate_succ, List.zipWith_cons_cons]

theorem hmacSha256_eq (key message : Bytes) :
    hmacSha256 key message = Rfc2104.hmac sha256Bytes kSha256BlockSize key message := by
  have htwo : ∀ front rest : Bytes, ((Sha256.reset.update front).update rest).finish =
      sha256Bytes (front ++ rest) :=
    fun front rest => ((Sha256.holds_reset.update front).update rest).finish
  rw [hmacSha256, htwo, htwo, map_xor_eq, map_xor_eq, length_blockKey, blockKey_eq, Rfc2104.hmac]

/-- However a message is split, its digest is that of FIPS 180-4, and the keyed hash is that of RFC
2104. -/
theorem hashes_standard :
    (∀ pieces : List Bytes, (pieces.foldl Hasher.update Hasher.reset).val.finish =
      sha256Bytes pieces.flatten) ∧
    ∀ key message, hmacSha256 key message =
      Rfc2104.hmac sha256Bytes kSha256BlockSize key message := by
  refine ⟨fun pieces => ?_, hmacSha256_eq⟩
  rw [Hasher.updates_val]
  exact Sha256.finish_updates pieces

end Dicker.Crypto
