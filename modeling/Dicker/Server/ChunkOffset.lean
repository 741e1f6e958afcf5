import Dicker.Server.FileStore

/-! Where the bytes of a chunk land (server/file_sink.cxx, `UnitSink::write`). The offset is an
unsigned sum that becomes an `int64_t`, and a negative one means the current position of the
descriptor. -/

namespace Dicker.Server
open Lib Program

/-- A file has no position that an `int64_t` cannot name, and a write takes no more than it is
given. -/
def Fair : FsEntry → Prop
  | .did (.write data offset) result =>
    result ≤ data.length ∧ (0 < result → 0 ≤ offset → offset + result ≤ 2 ^ 63)
  | _ => True

def Stored.bytes (s : Stored) : Bytes := s.contents.getD []

theorem apply_write (s : Stored) (data : Bytes) (position : ℕ) {result : ℤ}
    (hresult : ¬result ≤ 0) :
    fileStore.apply s (.did (.write data position) result) =
      { s with contents := some (pwrite s.bytes position (data.take result.toNat)) } := by
  change (if result ≤ 0 then s else if _ then _ else _) = _
  rw [if_neg hresult, if_neg (Int.not_lt.mpr (Int.natCast_nonneg position))]
  rfl

structure CallLands (q : ℕ) (piece : Bytes) (ok : Bool) (s s' : Stored) : Prop where
  elsewhere : ∀ p, ¬Hits q piece p → Kept s.bytes s'.bytes p
  inside : ∀ p, Hits q piece p → s'.bytes[p]? = piece[p - q]? ∨ s'.bytes[p]? = s.bytes[p]?
  complete : ok = true → ∀ p, Hits q piece p → s'.bytes[p]? = piece[p - q]?
  representable : piece ≠ [] → 2 ^ 63 < q + piece.length → ok = false ∧ s'.contents = s.contents

def UnitLands (u : AcceptedUnit) : ℕ → List Bytes → Stored → Prop
  | _, [], _ => True
  | n, piece :: pieces, s =>
    (serve 0 (storeQuery u n piece)).wp fun r t => (∀ e ∈ t, Fair e) →
      CallLands (u.offset.toNat + n) piece r.1 s (t.foldl fileStore.apply s) ∧
        (r.1 = true → UnitLands u (n + piece.length) pieces (t.foldl fileStore.apply s))

/-! ## Offsets that are representable -/

structure Lands (q : ℕ) (piece : Bytes) (written : ℕ) (ok : Bool) (f f' : Bytes) : Prop where
  elsewhere : ∀ p, ¬(q + written ≤ p ∧ p < q + piece.length) → Kept f f' p
  inside : ∀ p, q + written ≤ p → p < q + piece.length → f'[p]? = piece[p - q]? ∨ f'[p]? = f[p]?
  complete : ok = true → ∀ p, q + written ≤ p → p < q + piece.length → f'[p]? = piece[p - q]?

section
variable {q : ℕ} {piece : Bytes}

theorem Lands.step {written taken : ℕ} {ok : Bool} {f f' : Bytes} (hpos : 0 < taken)
    (htaken : written + taken ≤ piece.length)
    (h : Lands q piece (written + taken) ok
      (pwrite f (q + written) ((piece.drop written).take taken)) f') :
    Lands q piece written ok f f' := by
  have hlen : ((piece.drop written).take taken).length = taken := by
    rw [List.length_take, List.length_drop]
    omega
  have hnow : ∀ p, q + written ≤ p → p < q + written + taken → f'[p]? = piece[p - q]? := by
    intro p hlow hhigh
    have hhit : Hits (q + written) ((piece.drop written).take taken) p := ⟨hlow, by omega⟩
    have hbyte : (pwrite f (q + written) ((piece.drop written).take taken))[p]? =
        some piece[p - q] := by
      rw [pwrite_inside hhit, List.getElem?_take_of_lt (by omega), List.getElem?_drop,
        ← List.getElem?_eq_getElem]
      congr 1
      omega
    rw [(h.elsewhere p (by omega)).eq_of_some hbyte]
    exact (List.getElem?_eq_getElem _).symm
  have hother : ∀ p, ¬(q + written ≤ p ∧ p < q + written + taken) →
      Kept f (pwrite f (q + written) ((piece.drop written).take taken)) p := by
    intro p hp
    refine pwrite_kept fun hhit => hp ⟨hhit.1, ?_⟩
    have hhigh := hhit.2
    omega
  refine ⟨fun p hp => ?_, fun p hlow hhigh => ?_, fun hok p hlow hhigh => ?_⟩
  · exact (hother p (by omega)).trans (h.elsewhere p (by omega))
  · by_cases hp : p < q + written + taken
    · exact .inl (hnow p hlow hp)
    · have hbehind : (pwrite f (q + written) ((piece.drop written).take taken))[p]? = f[p]? :=
        pwrite_behind (by omega)
      exact (h.inside p (by omega) hhigh).imp_right fun hsame => hsame.trans hbehind
  · by_cases hp : p < q + written + taken
    · exact hnow p hlow hp
    · exact h.complete hok p (by omega) hhigh

theorem lands_nothing {written : ℕ} (ok : Bool) (f : Bytes)
    (h : ok = true → piece.length ≤ written) :
    Lands q piece written ok f f :=
  ⟨fun p _ => kept_refl f p, fun p _ _ => .inr rfl,
    fun hok p hlow hhigh => by have hlen := h hok; omega⟩

theorem writeFdAll_lands (hq : q + piece.length ≤ 2 ^ 63) (written : ℕ) :
    (writeFdAll piece q written).wp fun ok t => (∀ e ∈ t, Fair e) → ∀ s : Stored,
      Lands q piece written ok s.bytes (t.foldl fileStore.apply s).bytes := by
  induction hn : piece.length - written using Nat.strong_induction_on generalizing written with
  | _ n ih =>
    unfold writeFdAll
    by_cases hlt : written < piece.length
    · rw [if_pos hlt, if_neg (Int.not_lt.mpr (Int.natCast_nonneg q)), ← Nat.cast_add,
        int64_natCast (by omega)]
      intro (result : ℤ)
      beta_reduce
      by_cases hresult : result ≤ 0
      · rw [if_pos hresult]
        intro _ s
        have hsame : fileStore.apply s (.did (.write ((piece.drop written).take kMaxSingleWrite)
            ((q + written : ℕ) : ℤ)) result) = s := if_pos hresult
        rw [List.foldl_cons, List.foldl_nil, hsame]
        exact lands_nothing false _ nofun
      · rw [if_neg hresult]
        have hpos : 0 < result.toNat := Int.pos_iff_toNat_pos.mp (Int.not_le.mp hresult)
        refine wp_mono (ih _ (by omega) (written + result.toNat) rfl) fun ok t h hfair s => ?_
        have hshort : result ≤ ((piece.drop written).take kMaxSingleWrite).length :=
          (hfair _ List.mem_cons_self).1
        rw [List.length_take, List.length_drop] at hshort
        have hwritten : (fileStore.apply s (.did (.write ((piece.drop written).take kMaxSingleWrite)
            ((q + written : ℕ) : ℤ)) result)).bytes =
            pwrite s.bytes (q + written) ((piece.drop written).take result.toNat) := by
          rw [apply_write s _ _ hresult, List.take_take, Nat.min_eq_left (by omega)]
          rfl
        refine Lands.step hpos (by omega) ?_
        rw [← hwritten]
        exact h (fun e he => hfair e (List.mem_cons_of_mem _ he)) _
    · rw [if_neg hlt]
      intro _ s
      exact lands_nothing true _ fun _ => Nat.not_lt.mp hlt

theorem writeFdAll_nil (offset : ℤ) : writeFdAll [] offset 0 = ret true := by
  unfold writeFdAll
  exact if_neg (Nat.lt_irrefl 0)

end

variable {n : ℕ} {piece : Bytes} {s : Stored}

section
variable {u : AcceptedUnit} (hu : u.type = .chunk)
include hu

theorem serve_piece (n : ℕ) (piece : Bytes) : serve 0 (storeQuery u n piece) =
    writeFdAll piece (u.offset + UInt64.ofNat n).toBitVec.toInt 0 >>= fun ok => ret (ok, 0) := by
  have hstore : storeQuery u n piece = .writeAt (u.offset + UInt64.ofNat n) piece := if_pos hu
  rw [hstore]
  rfl

theorem callLands_of_le (hfits : piece = [] ∨ u.offset.toNat + n + piece.length ≤ 2 ^ 63) :
    (serve 0 (storeQuery u n piece)).wp fun r t => (∀ e ∈ t, Fair e) → ∀ s,
      CallLands (u.offset.toNat + n) piece r.1 s (t.foldl fileStore.apply s) := by
  rw [serve_piece hu]
  by_cases hnil : piece = []
  · subst hnil
    rw [writeFdAll_nil]
    intro _ s
    have hnone : ∀ p, ¬Hits (u.offset.toNat + n) ([] : Bytes) p := fun p hp =>
      absurd hp.2 (Nat.not_lt.mpr hp.1)
    exact ⟨fun p _ => kept_refl _ p, fun p hp => absurd hp (hnone p),
      fun _ p hp => absurd hp (hnone p), fun h => absurd rfl h⟩
  · have hle := hfits.resolve_left hnil
    have hpos := List.length_pos_iff.mpr hnil
    rw [toInt_offset u.offset (by omega)]
    refine wp_bind (wp_mono (writeFdAll_lands hle 0) fun ok t h hfair s => ?_)
    rw [List.append_nil] at hfair ⊢
    have hlands := h hfair s
    exact ⟨hlands.elsewhere, fun p hp => hlands.inside p hp.1 hp.2,
      fun hok p hp => hlands.complete hok p hp.1 hp.2, fun _ hlt => absurd hlt (Nat.not_lt.mpr hle)⟩

theorem unitLands_of_le {pieces : List Bytes}
    (hfits : pieces.flatten = [] ∨ u.offset.toNat + n + pieces.flatten.length ≤ 2 ^ 63)
    (s : Stored) :
    UnitLands u n pieces s := by
  induction pieces generalizing n s with
  | nil => trivial
  | cons piece pieces ih =>
    rw [List.flatten_cons, List.append_eq_nil_iff, List.length_append] at hfits
    have hnow : piece = [] ∨ u.offset.toNat + n + piece.length ≤ 2 ^ 63 :=
      hfits.imp And.left fun h => by omega
    have hnext : pieces.flatten = [] ∨ u.offset.toNat + (n + piece.length) +
        pieces.flatten.length ≤ 2 ^ 63 :=
      hfits.imp And.right fun h => by omega
    refine wp_mono (callLands_of_le hu hnow) fun r t h hfair => ?_
    exact ⟨h hfair s, fun _ => ih hnext _⟩

end

/-! ## Offsets that are not -/

def takesWhole : (op : FsOp) → Unit → op.Ans × Unit
  | .openSequential, _ | .openOffset, _ => (true, ())
  | .write data _, _ => ((data.length : ℤ), ())

def takesOne : (op : FsOp) → Bool → op.Ans × Bool
  | .openSequential, full | .openOffset, full => (true, full)
  | .write _ _, full => (if full then 0 else (1 : ℤ), true)

def Within (stop : ℕ) (e : FsEntry) : Prop := ∀ s : Stored, s.bytes.length ≤ stop →
  (fileStore.apply s e).bytes.length ≤ stop ∧ (fileStore.apply s e).cursor = s.cursor

theorem within_foldl {stop : ℕ} {t : List FsEntry} (h : ∀ e ∈ t, Within stop e)
    (hs : s.bytes.length ≤ stop) :
    (t.foldl fileStore.apply s).bytes.length ≤ stop ∧
    (t.foldl fileStore.apply s).cursor = s.cursor := by
  induction t generalizing s with
  | nil => exact ⟨hs, rfl⟩
  | cons e t ih =>
    obtain ⟨hlen, hcursor⟩ := h e List.mem_cons_self s hs
    obtain ⟨hlen', hcursor'⟩ := ih (fun e he => h e (List.mem_cons_of_mem _ he)) hlen
    exact ⟨hlen', hcursor'.trans hcursor⟩

theorem within_write {stop position : ℕ} {data : Bytes} (h : position + data.length ≤ stop)
    (result : ℤ) : Within stop (.did (.write data position) result) := by
  intro s hs
  by_cases hresult : result ≤ 0
  · have hsame : fileStore.apply s (.did (.write data position) result) = s := if_pos hresult
    rw [hsame]
    exact ⟨hs, rfl⟩
  · rw [apply_write s data position hresult]
    refine ⟨(pwrite_length_le ..).trans (max_le hs ?_), rfl⟩
    have hle := List.length_take_le' result.toNat data
    omega

theorem writeFdAll_whole {q : ℕ} (hq : q + piece.length ≤ 2 ^ 63) (written : ℕ) :
    ((writeFdAll piece q written).run takesWhole () []).val = true ∧
      ∀ e ∈ ((writeFdAll piece q written).run takesWhole () []).trace, Fair e ∧
        Within (q + piece.length) e := by
  induction hn : piece.length - written using Nat.strong_induction_on generalizing written with
  | _ n ih =>
    unfold writeFdAll
    by_cases hlt : written < piece.length
    · rw [if_pos hlt, if_neg (Int.not_lt.mpr (Int.natCast_nonneg q)), ← Nat.cast_add,
        int64_natCast (by omega), run_call]
      generalize hdata : (piece.drop written).take kMaxSingleWrite = data
      have hpos : 0 < data.length := by
        rw [← hdata, List.length_take, List.length_drop]
        exact Nat.lt_min.mpr ⟨by decide, Nat.sub_pos_of_lt hlt⟩
      have hle : data.length ≤ piece.length - written := by
        rw [← hdata, List.length_take, List.length_drop]
        exact Nat.min_le_right _ _
      have hanswer : takesWhole (.write data ((q + written : ℕ) : ℤ)) () =
          ((data.length : ℤ), ()) := rfl
      rw [hanswer]
      have hsome : ¬((data.length : ℕ) : ℤ) ≤ 0 := by omega
      dsimp only
      rw [if_neg hsome, Int.toNat_natCast]
      obtain ⟨hval, htrace⟩ := ih _ (by omega) (written + data.length) rfl
      refine ⟨hval, fun e he => ?_⟩
      rcases List.mem_cons.mp he with rfl | he
      · refine ⟨⟨le_rfl, fun _ _ => ?_⟩, within_write (by omega) _⟩
        omega
      · exact htrace e he
    · rw [if_neg hlt]
      exact ⟨rfl, fun e he => absurd he List.not_mem_nil⟩

theorem writeFdAll_one (hne : piece ≠ []) (offset : ℤ) :
    ∃ rest, ((writeFdAll piece offset 0).run takesOne false []).trace =
        .did (.write (piece.take kMaxSingleWrite) (if offset < 0 then -1 else int64 offset))
          (1 : ℤ) :: rest ∧
      ∀ e ∈ rest, ∃ data position, e = .did (.write data position) (0 : ℤ) := by
  have hpos := List.length_pos_iff.mpr hne
  unfold writeFdAll
  rw [if_pos hpos, run_call, List.drop_zero, Nat.cast_zero, Int.add_zero]
  refine ⟨((writeFdAll piece offset 1).run takesOne true []).trace, rfl, ?_⟩
  unfold writeFdAll
  by_cases hmore : 1 < piece.length
  · rw [if_pos hmore]
    intro e he
    exact ⟨_, _, List.mem_singleton.mp he⟩
  · rw [if_neg hmore]
    exact fun e he => absurd he List.not_mem_nil

theorem toInt_neg (offset : UInt64) (hlow : 2 ^ 63 ≤ offset.toNat + n)
    (hhigh : offset.toNat + n < 2 ^ 64) : (offset + UInt64.ofNat n).toBitVec.toInt < 0 := by
  have hnat : (offset + UInt64.ofNat n).toNat = offset.toNat + n := by
    rw [UInt64.toNat_add, UInt64.toNat_ofNat']
    omega
  rw [BitVec.toInt_eq_toNat_cond, UInt64.toNat_toBitVec, hnat]
  split_ifs <;> omega

theorem foldl_refused {t : List FsEntry}
    (h : ∀ e ∈ t, ∃ data position, e = .did (.write data position) (0 : ℤ)) (s : Stored) :
    t.foldl fileStore.apply s = s := by
  induction t generalizing s with
  | nil => rfl
  | cons e t ih =>
    obtain ⟨data, position, rfl⟩ := h e List.mem_cons_self
    exact ih (fun e he => h e (List.mem_cons_of_mem _ he)) s

section
variable {u : AcceptedUnit}

theorem first_byte (hstart : u.offset.toNat + n ≤ 2 ^ 63 ∨ n = 0) {data : Bytes} (hdata : data ≠ [])
    (hlen : s.bytes.length ≤ u.offset.toNat + n) (hcursor : s.bytes.length ≤ s.cursor)
    {position : ℤ} (hposition : position = if (u.offset + UInt64.ofNat n).toBitVec.toInt < 0 then -1
      else int64 (u.offset + UInt64.ofNat n).toBitVec.toInt) :
    Fair (.did (.write data position) (1 : ℤ)) ∧ ∃ place, s.bytes.length ≤ place ∧
      (fileStore.apply s (.did (.write data position) (1 : ℤ))).contents =
        some (pwrite s.bytes place (data.take 1)) := by
  have hshort : (1 : ℤ) ≤ data.length := by
    have hpos := List.length_pos_iff.mpr hdata
    omega
  have hlt := u.offset.toNat_lt
  rcases Nat.lt_or_ge (u.offset.toNat + n) (2 ^ 63) with hsmall | hlarge
  · rw [toInt_offset u.offset hsmall, if_neg (Int.not_lt.mpr (Int.natCast_nonneg _)),
      int64_natCast hsmall] at hposition
    subst hposition
    refine ⟨⟨hshort, fun _ _ => by omega⟩, u.offset.toNat + n, hlen, ?_⟩
    rw [apply_write s data _ (by decide)]
    rfl
  · rw [if_pos (toInt_neg u.offset hlarge (by omega))] at hposition
    subst hposition
    exact ⟨⟨hshort, fun _ h => absurd h (by decide)⟩, s.cursor, hcursor, rfl⟩

variable (hu : u.type = .chunk)
include hu

theorem representable_of_callLands (hne : piece ≠ []) (hstart : u.offset.toNat + n ≤ 2 ^ 63 ∨ n = 0)
    (hlen : s.bytes.length ≤ u.offset.toNat + n) (hcursor : s.bytes.length ≤ s.cursor)
    (h : (serve 0 (storeQuery u n piece)).wp fun r t => (∀ e ∈ t, Fair e) →
      CallLands (u.offset.toNat + n) piece r.1 s (t.foldl fileStore.apply s)) :
    u.offset.toNat + n + piece.length ≤ 2 ^ 63 := by
  by_contra hbeyond
  have hdata : piece.take kMaxSingleWrite ≠ [] := by
    rw [ne_eq, List.take_eq_nil_iff]
    exact fun h => h.elim (by decide) hne
  rw [serve_piece hu] at h
  have hrun := wp_run takesOne h false []
  obtain ⟨rest, htrace, hrest⟩ := writeFdAll_one hne (u.offset + UInt64.ofNat n).toBitVec.toInt
  rw [run_bind, Outcome.after_trace, htrace, run_ret, List.append_nil] at hrun
  obtain ⟨hfair, place, hplace, hwritten⟩ := first_byte hstart hdata hlen hcursor rfl
  have hsame := ((hrun ?_).representable hne (Nat.not_le.mp hbeyond)).2
  · rw [List.foldl_cons, foldl_refused hrest, hwritten] at hsame
    have hbyte : (piece.take kMaxSingleWrite).take 1 ≠ [] := by
      rw [ne_eq, List.take_eq_nil_iff]
      exact fun h => h.elim (by decide) hdata
    have hgrown := pwrite_grows hbyte hplace
    have hbytes : s.bytes = pwrite s.bytes place ((piece.take kMaxSingleWrite).take 1) := by
      conv_lhs => rw [Stored.bytes, ← hsame, Option.getD_some]
    rw [← hbytes] at hgrown
    have hpos := List.length_pos_iff.mpr hbyte
    omega
  · intro e he
    rcases List.mem_cons.mp he with rfl | he
    · exact hfair
    · obtain ⟨data, position, rfl⟩ := hrest e he
      exact ⟨Int.natCast_nonneg _, fun h => absurd h (lt_irrefl _)⟩

theorem le_of_unitLands {pieces : List Bytes} (hstart : u.offset.toNat + n ≤ 2 ^ 63 ∨ n = 0)
    (hlen : s.bytes.length ≤ u.offset.toNat + n) (hcursor : s.bytes.length ≤ s.cursor)
    (hfar : 2 ^ 63 ≤ s.cursor) (h : UnitLands u n pieces s) :
    pieces.flatten = [] ∨ u.offset.toNat + n + pieces.flatten.length ≤ 2 ^ 63 := by
  induction pieces generalizing n s with
  | nil => exact .inl rfl
  | cons piece pieces ih =>
    rw [List.flatten_cons]
    by_cases hne : piece = []
    · subst hne
      have hrest : UnitLands u n pieces s := by
        have hcall : (serve 0 (storeQuery u n [])).wp _ := h
        rw [serve_piece hu, writeFdAll_nil] at hcall
        exact (hcall fun e he => absurd he List.not_mem_nil).2 rfl
      exact ih hstart hlen hcursor hfar hrest
    · have hle := representable_of_callLands hu hne hstart hlen hcursor
        (wp_mono h fun r t hr hfair => (hr hfair).1)
      have hpos := List.length_pos_iff.mpr hne
      obtain ⟨hval, htrace⟩ := writeFdAll_whole hle 0
      have hcall : (serve 0 (storeQuery u n piece)).wp _ := h
      rw [serve_piece hu, toInt_offset u.offset (by omega)] at hcall
      have hrun := wp_run takesWhole hcall () []
      rw [run_bind, Outcome.after_trace, Outcome.after_val, run_ret, hval, List.append_nil] at hrun
      obtain ⟨hlen', hcursor'⟩ := within_foldl (fun e he => (htrace e he).2)
        (hlen.trans (Nat.le_add_right _ piece.length))
      have hnext :=
        ih (n := n + piece.length) (.inl (by omega))
          (by rw [← Nat.add_assoc]; exact hlen') (by omega)
        (by omega) ((hrun fun e he => (htrace e he).1).2 rfl)
      rw [List.length_append]
      rcases hnext with hnil | hnext
      · rw [hnil, List.length_nil]
        exact .inr (by omega)
      · exact .inr (by omega)

/-- The bytes of a chunk land at their offset or nowhere, for every state of the file, if and only
if there are none or the last of them has a position that an `int64_t` can name. -/
theorem unit_lands_iff (pieces : List Bytes) : (∀ s, UnitLands u 0 pieces s) ↔
    pieces.flatten = [] ∨ u.offset.toNat + pieces.flatten.length ≤ 2 ^ 63 := by
  constructor
  · intro h
    exact le_of_unitLands hu (.inr rfl) (Nat.zero_le _) (Nat.zero_le _) le_rfl (h ⟨some [], 2 ^ 63⟩)
  · exact unitLands_of_le hu (n := 0)

end

theorem unit_lands_at_five :
    (⟨.chunk, [0x61], 5⟩ : AcceptedUnit).type = .chunk ∧
      ∀ s, UnitLands ⟨.chunk, [0x61], 5⟩ 0 [[1, 2], [3]] s :=
  ⟨rfl, (unit_lands_iff rfl [[1, 2], [3]]).mpr (.inr (by decide))⟩

def farChunk : AcceptedUnit := ⟨.chunk, [0x61], 0x8000000000000000⟩

theorem farChunk_offset : farChunk.offset.toNat = 2 ^ 63 := rfl

def threeBytes : Stored := ⟨some [1, 2, 3], 0⟩

theorem farChunk_run : (serve 0 (storeQuery farChunk 0 [9])).run takesWhole () [] =
    ⟨(true, 0), (), [], [.did (.write [9] (-1)) (1 : ℤ)]⟩ := by
  have hwrite : (writeFdAll [9] (farChunk.offset + UInt64.ofNat 0).toBitVec.toInt 0).run
      takesWhole () [] = ⟨true, (), [], [.did (.write [9] (-1)) (1 : ℤ)]⟩ := by
    unfold writeFdAll
    have hneg :=
      toInt_neg farChunk.offset (n := 0) farChunk_offset.ge (by rw [farChunk_offset]; decide)
    rw [if_pos (by decide), if_pos hneg, run_call]
    change ((writeFdAll [9] _ 1).run takesWhole () []).after _ = _
    unfold writeFdAll
    rw [if_neg (by decide)]
    rfl
  rw [serve_piece rfl, run_bind, hwrite]
  rfl

/-- It overwrites the first byte of the file, and counts as written. -/
theorem far_chunk_misplaced :
    ((serve 0 (storeQuery farChunk 0 [9])).run takesWhole () []).val.1 = true ∧
    ((serve 0 (storeQuery farChunk 0 [9])).run takesWhole () []).trace.foldl
      fileStore.apply threeBytes = ⟨some [9, 2, 3], 1⟩ ∧
    ¬UnitLands farChunk 0 [[9]] threeBytes := by
  refine ⟨by rw [farChunk_run], by rw [farChunk_run]; decide, fun h => ?_⟩
  have hcall := wp_run takesWhole h () []
  rw [farChunk_run] at hcall
  have hfair : ∀ e ∈ [(.did (.write [9] (-1)) (1 : ℤ) : FsEntry)], Fair e := by
    intro e he
    rw [List.mem_singleton.mp he]
    exact ⟨le_rfl, fun _ h => absurd h (by decide)⟩
  have hbeyond : 2 ^ 63 < farChunk.offset.toNat + 0 + [(9 : UInt8)].length := by
    rw [farChunk_offset]
    decide
  exact absurd ((hcall hfair).1.representable (by decide) hbeyond).1 (by decide)

end Dicker.Server
