import Dicker.Server.Download

/-! How many bytes `refill_raw` stages. Every pass of its loop adds a bounded amount, but for the
one that finds the file shorter than it was. -/

namespace Dicker.Server
open Lib Program Ustar

/-- The staging while an archive is streamed: passes of `refill_raw`, each of which keeps to `ok`,
and `next` taking all that is there. -/
inductive Staged (ok : Staging → ArchiveLog → Prop) (s₀ : Staging) : Staging → Prop
  | start : Staged ok s₀ s₀
  | pass {s s' : Staging} {t : ArchiveLog} (h : Staged ok s₀ s) (hwant : s.wanting = true)
    (hpass : (refillPass s).Yields s' t) (hok : ok s t) : Staged ok s₀ s'
  | taken {s : Staging} (h : Staged ok s₀ s) (hfull : s.wanting = false) :
      Staged ok s₀ (s.consumed s.avail.length)

def ShortRead (t : ArchiveLog) : Prop :=
  ∃ want got, Entry.did (ArchiveOp.read want) got ∈ t ∧ got.1.length < want

def Tame (s : Staging) (t : ArchiveLog) : Prop :=
  ShortRead t → s.avail.length + s.curRemaining ≤ kRawTarget + kReadSize

/-! ## The code's runs -/

variable {s s' : Staging} {t : ArchiveLog}

section
variable {z : CStream} {s₀ : Staging}

abbrev AnyRun (s₀ s : Staging) : Prop := Staged (fun _ _ => True) s₀ s

theorem AnyRun.refill (h : AnyRun s₀ s) (hs' : (refillRaw s).Yields s' t) :
    AnyRun s₀ s' ∧ s'.wanting = false := by
  refine refillLoop.yields_loop (I := fun m _ => AnyRun s₀ m) ?_ (t := []) h hs'
  intro m v m' w hm hmore hm'
  exact hm.pass hmore hm' trivial

theorem AnyRun.nextPass {p p' : ArchiveStreamer z × Bytes} (h : AnyRun s₀ p.1.toStaging)
    (hp' : (nextPass z p).Yields p' t) : AnyRun s₀ p'.1.toStaging := by
  obtain ⟨staged, t₁, t₂, hstaged, ⟨rfl, rfl⟩, rfl⟩ := Yields.of_bind hp'
  obtain ⟨hrun, hfull⟩ := h.refill hstaged
  have hcompresses := compressStaged_compresses z p.1 staged p.2
  generalize compressStaged z p.1 staged p.2 = p' at hcompresses
  cases hcompresses with
  | failed zcs out' => exact hrun
  | ended _ _ _ => exact hrun.taken hfull
  | continued _ _ => exact hrun.taken hfull

theorem AnyRun.next {s : ArchiveStreamer z} {r : NextResult z} (h : AnyRun s₀ s.toStaging)
    (hr : (s.next z).Yields r t) : AnyRun s₀ r.streamer.toStaging := by
  unfold ArchiveStreamer.next at hr
  split_ifs at hr
  · obtain ⟨rfl, rfl⟩ := hr
    exact h
  · obtain ⟨p, t₁, t₂, hp, ⟨rfl, rfl⟩, rfl⟩ := Yields.of_bind hr
    refine ((nextLoop z).yields_loop (I := fun m _ => AnyRun s₀ m.1.toStaging) ?_ (t := []) h hp).1
    intro m v m' w hm _ hm'
    exact hm.nextPass hm'

theorem AnyRun.download {s : ArchiveStreamer z} (h : AnyRun s₀ s.toStaging) {d : Download z}
    (hd : (download z s).Yields d t) : AnyRun s₀ d.streamer.toStaging := by
  refine ((downloadLoop z).yields_loop (I := fun m _ => AnyRun s₀ m.streamer.toStaging) ?_
    (t := []) h hd).1
  intro m v m' w hm _ hm'
  obtain ⟨r, t₁, t₂, hr, ⟨rfl, rfl⟩, rfl⟩ := Yields.of_bind hm'
  exact hm.next hr

end

/-! ## What a pass adds -/

structure Staging.Sane (s : Staging) : Prop where
  rawPos_le : s.rawPos ≤ s.raw.length
  pad_lt : s.padRemaining < 512

theorem Staging.append_avail (h : s.rawPos ≤ s.raw.length) (bytes : Bytes) (c : TarCursor) :
    (s.append bytes c).avail.length = s.avail.length + bytes.length := by
  show ((s.raw ++ bytes).drop s.rawPos).length = (s.raw.drop s.rawPos).length + bytes.length
  rw [List.drop_append_of_le_length h, List.length_append]

theorem Staging.Sane.append (h : s.Sane) (bytes : Bytes) {c : TarCursor}
    (hc : c.padRemaining < 512) :
    (s.append bytes c).Sane := by
  refine ⟨?_, hc⟩
  show s.rawPos ≤ (s.raw ++ bytes).length
  rw [List.length_append]
  exact h.rawPos_le.trans (Nat.le_add_right _ _)

theorem padding_lt (n : ℕ) : (512 - n % 512) % 512 < 512 := Nat.mod_lt _ (by decide)

theorem Staging.Sane.pass (h : s.Sane) (hs' : (refillPass s).Yields s' t) : s'.Sane := by
  obtain ⟨bytes, hpass, heq⟩ := pass_of_yields hs'
  rw [heq]
  apply h.append
  generalize s'.toTarCursor = c' at hpass
  cases hpass with
  | trailer | skip | data | shrunk | finish => exact h.pad_lt
  | header => exact padding_lt _
  | padding => exact Nat.zero_lt_succ _

theorem Staging.Sane.consumed (h : s.Sane) : (s.consumed s.avail.length).Sane := by
  refine ⟨s.consumed_rawPos h.rawPos_le, ?_⟩
  rw [s.consumed_cursor]
  exact h.pad_lt

theorem Staged.sane {ok : Staging → ArchiveLog → Prop} {s₀ : Staging} (h : Staged ok s₀ s)
    (h₀ : s₀.Sane) : s.Sane := by
  induction h with
  | start => exact h₀
  | pass _ _ hpass _ ih => exact ih.pass hpass
  | taken _ _ ih => exact ih.consumed

theorem pass_adds (h : s.Sane) (hs' : (refillPass s).Yields s' t) :
    s'.avail.length ≤ s.avail.length + kReadSize ∧ ¬ShortRead t ∨
      s'.avail.length = s.avail.length + s.curRemaining ∧ ShortRead t := by
  have hnone : ∀ {bytes : Bytes} {c : TarCursor} {t : ArchiveLog}, bytes.length ≤
      kReadSize → ¬ShortRead t →
      (s.append bytes c).avail.length ≤ s.avail.length + kReadSize ∧ ¬ShortRead t ∨
        (s.append bytes c).avail.length = s.avail.length + s.curRemaining ∧ ShortRead t := by
    intro bytes c t hbytes hshort
    rw [s.append_avail h.rawPos_le]
    exact .inl ⟨Nat.add_le_add_left hbytes _, hshort⟩
  have hopen : ∀ (path : Bytes) (opened : (ArchiveOp.openFile path).Ans),
      ¬ShortRead [Entry.did (ArchiveOp.openFile path) opened] := by
    rintro path opened ⟨want, got, hmem, -⟩
    exact nomatch List.mem_singleton.mp hmem
  have hquiet : ¬ShortRead [] := fun ⟨_, _, hmem, _⟩ => absurd hmem List.not_mem_nil
  unfold refillPass at hs'
  cases hget : s.entries[s.idx]? with
  | none =>
    rw [hget] at hs'
    obtain ⟨rfl, rfl⟩ := hs'
    refine hnone ?_ hquiet
    split_ifs
    · exact Nat.zero_le _
    · rw [trailer, List.length_replicate]
      decide
  | some entry =>
    rw [hget] at hs'
    dsimp only at hs'
    split_ifs at hs' with hpending hdata hpad
    · -- a file that does not open is skipped, one that does puts its header in
      obtain ⟨opened, t', hs', rfl⟩ := hs'
      cases opened with
      | false =>
        obtain ⟨rfl, rfl⟩ := hs'
        exact hnone (Nat.zero_le _) (hopen _ _)
      | true =>
        obtain ⟨rfl, rfl⟩ := hs'
        refine hnone ?_ (hopen _ _)
        rw [emitHeader_length]
        decide
    · obtain ⟨⟨got, hlen⟩, t', ⟨rfl, rfl⟩, rfl⟩ := hs'
      have hrest : got.length ≤ s.curRemaining := hlen.trans (Nat.min_le_left _ _)
      unfold Staging.readInto
      split_ifs with hshort
      · -- the only branch whose amount no constant bounds: zeros for all that was declared
        refine .inr ⟨?_, _, _, List.mem_cons_self, hshort⟩
        rw [s.append_avail h.rawPos_le, List.length_append, List.length_replicate,
          Nat.add_sub_cancel' hrest]
      · refine hnone (hlen.trans (Nat.min_le_right _ _)) ?_
        rintro ⟨want, got', hmem, hlt⟩
        cases List.mem_singleton.mp hmem
        exact hshort hlt
    · obtain ⟨rfl, rfl⟩ := hs'
      refine hnone ?_ hquiet
      rw [List.length_replicate]
      exact h.pad_lt.le.trans (by decide)
    · obtain ⟨rfl, rfl⟩ := hs'
      exact hnone (Nat.zero_le _) hquiet

theorem Staging.wanting_lt (h : s.wanting = true) : s.avail.length < kRawTarget := by
  unfold wanting at h
  rw [Bool.and_eq_true, decide_eq_true_eq] at h
  exact h.1

theorem pass_bounded_iff (h : s.Sane) (hwant : s.wanting = true)
    (hs' : (refillPass s).Yields s' t) :
    s'.avail.length ≤ kRawTarget + kReadSize ↔ Tame s t := by
  have hroom := Staging.wanting_lt hwant
  rcases pass_adds h hs' with ⟨hle, hfull⟩ | ⟨heq, hshort⟩
  · refine ⟨fun _ hshort => absurd hshort hfull, fun _ => ?_⟩
    exact hle.trans (Nat.add_le_add_right hroom.le _)
  · rw [heq]
    exact ⟨fun hle _ => hle, fun htame => htame hshort⟩

theorem begin_staging {z : CStream} {isDirectory : Bool} {items : List DirItem} {front : Bytes}
    {s : ArchiveStreamer z} (hs : ArchiveStreamer.begin z isDirectory items front = some s) :
    s.Sane ∧ s.avail = [] := by
  unfold ArchiveStreamer.begin at hs
  split_ifs at hs
  obtain ⟨zcs, -, rfl⟩ := Option.map_eq_some_iff.mp hs
  exact ⟨⟨Nat.le_refl 0, Nat.zero_lt_succ _⟩, rfl⟩

/-- Every download goes through such stagings. As long as no file comes back short with more bytes
to fill up than fit, they are bounded, and a pass breaks the bound just where one does. -/
theorem staging_bounded_iff {z : CStream} {isDirectory : Bool} {items : List DirItem}
    {front : Bytes} {s₀ : ArchiveStreamer z}
    (hs : ArchiveStreamer.begin z isDirectory items front = some s₀) :
    ((download z s₀).wp fun d _ => AnyRun s₀.toStaging d.streamer.toStaging) ∧
    (∀ s, Staged Tame s₀.toStaging s → s.avail.length ≤ kRawTarget + kReadSize) ∧
    ∀ s s' t, AnyRun s₀.toStaging s → s.wanting = true → (refillPass s).Yields s' t →
      (s'.avail.length ≤ kRawTarget + kReadSize ↔ Tame s t) := by
  obtain ⟨hsane, hempty⟩ := begin_staging hs
  refine ⟨?_, fun s h => ?_, fun s s' t h hwant hs' => pass_bounded_iff (h.sane hsane) hwant hs'⟩
  · apply wp_of_yields
    intro d t hd
    exact AnyRun.download .start hd
  · induction h with
    | start =>
      rw [hempty]
      exact Nat.zero_le _
    | pass h hwant hpass htame _ => exact (pass_bounded_iff (h.sane hsane) hwant hpass).mpr htame
    | taken h _ _ =>
      rw [Staging.consumed_avail]
      exact Nat.zero_le _

theorem staging_bounded_small :
    ∃ s₀, ArchiveStreamer.begin storing true [smallItem] [0x30] = some s₀ ∧
    ∀ s, Staged Tame s₀.toStaging s → s.avail.length ≤ kRawTarget + kReadSize := by
  have hs : ArchiveStreamer.begin storing true [smallItem] [0x30] = some _ := rfl
  exact ⟨_, hs, (staging_bounded_iff hs).2.1⟩

def gibItem : DirItem := { smallItem with fileSize := some 0x40000000 }

def gibEntry : ArchiveEntry := ⟨[0x61], [0x30, 0x2F, 0x61], 0x40000000⟩

def gibStart : Staging := ⟨⟨[gibEntry], 0, true, 0, 0, false, false⟩, [], 0⟩

def gibOpened : Staging :=
  ⟨⟨[gibEntry], 0, false, 0x40000000, 0, false, false⟩, emitHeader gibEntry.name gibEntry.size, 0⟩

theorem gibOpened_avail : gibOpened.avail.length = 512 := emitHeader_length _ _

/-- It is emptied before it is read: the second pass stages a GiB of zeros behind the header. -/
theorem emptied_file_staged : ∃ s₀, ArchiveStreamer.begin storing true [gibItem] [0x30] = some s₀ ∧
    ∃ s, AnyRun s₀.toStaging s ∧ s.avail.length = 512 + 0x40000000 ∧
      kRawTarget + kReadSize < s.avail.length := by
  have hbegin : ArchiveStreamer.begin storing true [gibItem] [0x30] =
      some ⟨gibStart, false, true, false⟩ := by
    have hsorted : [gibEntry].mergeSort (fun a b => decide (a.name ≤ b.name)) = [gibEntry] :=
      List.mergeSort_singleton _
    rw [gibStart, ← hsorted]
    rfl
  have hopened : AnyRun gibStart gibOpened :=
    Staged.start.pass rfl ⟨true, [], ⟨rfl, rfl⟩, rfl⟩ trivial
  have hwant : gibOpened.wanting = true := by
    unfold Staging.wanting
    rw [gibOpened_avail]
    rfl
  have hread : (refillPass gibOpened).Yields (gibOpened.readInto kReadSize [])
      [.did (.read kReadSize) ⟨[], Nat.zero_le _⟩] := ⟨⟨[], Nat.zero_le _⟩, [], ⟨rfl, rfl⟩, rfl⟩
  have hstaged : (gibOpened.readInto kReadSize []).avail.length = 512 + 0x40000000 := by
    show (gibOpened.append (List.replicate 0x40000000 0) _).avail.length = _
    rw [gibOpened.append_avail (Nat.zero_le _), gibOpened_avail, List.length_replicate]
  refine ⟨_, hbegin, _, hopened.pass hwant hread trivial, hstaged, ?_⟩
  rw [hstaged]
  decide

end Dicker.Server
