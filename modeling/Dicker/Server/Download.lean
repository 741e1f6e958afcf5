import Dicker.Lib.StoredFrame
import Dicker.Server.Archive

/-! What an archive download delivers: the chunks of `next`, decompressed, are a tar of the files
that could be opened, and where the size field of a header stops being true. -/

namespace Dicker.Server
open Lib Program Ustar

/-! ## The compressed stream -/

inductive CStream.Fed (z : CStream) (s : z.State) : Bytes → Bytes → z.State → Prop
  | start : Fed z s [] [] s
  | call {taken out input made : Bytes} {n rc : ℕ} {s' s'' : z.State} (h : Fed z s taken out s')
    (hcall : z.compressStream2 s' input false = (some (n, made, rc), s'')) :
    Fed z s (taken ++ input.take n) (out ++ made) s''

inductive CStream.Ended (z : CStream) : z.State → Bytes → Prop
  | last {s s' : z.State} {n : ℕ} {made : Bytes}
      (hcall : z.compressStream2 s [] true = (some (n, made, 0), s')) :
    Ended z s made
  | more {s s' : z.State} {n rc : ℕ} {made out : Bytes}
    (hcall : z.compressStream2 s [] true = (some (n, made, rc), s')) (hrc : rc ≠ 0)
    (h : Ended z s' out) :
    Ended z s (made ++ out)

/-- No call fails, and a finished stream decompresses to what was taken. -/
structure CStream.Lossless (z : CStream) (decompress : Bytes → Option Bytes) : Prop where
  accepts : ∀ s input ending, (z.compressStream2 s input ending).1 ≠ none
  round_trip : ∀ {s s' : z.State} {taken out out' : Bytes}, z.create = some s →
    z.Fed s taken out s' → z.Ended s' out' → decompress (out ++ out') = some taken

section
variable {z : CStream} {decompress : Bytes → Option Bytes}

theorem compressContinue_fed (hz : z.Lossless decompress) (s : z.State) (input out : Bytes) :
    (compressContinue z s input out).ok = true ∧
      ∃ made, (compressContinue z s input out).out = out ++ made ∧
      ∀ {s₀ taken before}, z.Fed s₀ taken before s →
        z.Fed s₀ (taken ++ input) (before ++ made) (compressContinue z s input out).zcs := by
  induction s, input, out using compressContinue.induct z with
  | case1 s input out s' hcall => exact absurd (congrArg Prod.fst hcall) (hz.accepts s input false)
  | case2 s input out made rc s' hcall =>
    have hstep : compressContinue z s input out = ⟨out ++ made, true, s'⟩ := by
      rw [compressContinue]
      split
      · simp_all
      · simp_all
    rw [hstep]
    refine ⟨rfl, made, rfl, fun hfed => ?_⟩
    have hcall' := hfed.call hcall
    rwa [List.take_length] at hcall'
  | case3 s input out n made rc s' hcall hn ih =>
    have hstep : compressContinue z s input out =
        compressContinue z s' (input.drop n) (out ++ made) := by
      rw [compressContinue]
      split
      · simp_all
      · simp_all
    rw [hstep]
    obtain ⟨hok, made', hout, hfed'⟩ := ih
    refine ⟨hok, made ++ made', by rw [hout, List.append_assoc], fun hfed => ?_⟩
    have hall := hfed' (hfed.call hcall)
    rwa [List.append_assoc, List.take_append_drop, List.append_assoc] at hall

theorem compressEnd_ended (hz : z.Lossless decompress) (s : z.State) (out : Bytes) :
    (compressEnd z s out).ok = true ∧ ∃ made, (compressEnd z s out).out = out ++ made ∧
      z.Ended s made := by
  induction s, out using compressEnd.induct z with
  | case1 s out s' hcall => exact absurd (congrArg Prod.fst hcall) (hz.accepts s [] true)
  | case2 s out n made s' hcall =>
    have hstep : compressEnd z s out = ⟨out ++ made, true, s'⟩ := by
      rw [compressEnd]
      split
      · simp_all
      · simp_all
    rw [hstep]
    exact ⟨rfl, made, rfl, .last hcall⟩
  | case3 s out n made rc s' hcall hrc ih =>
    have hstep : compressEnd z s out = compressEnd z s' (out ++ made) := by
      rw [compressEnd]
      split
      · simp_all
      · simp_all
    rw [hstep]
    obtain ⟨hok, made', hout, hended⟩ := ih
    exact ⟨hok, made ++ made', by rw [hout, List.append_assoc], .more hcall hrc hended⟩

end

/-! ## The tar stream -/

inductive ReadsOf : ArchiveLog → Bytes → Prop
  | nil : ReadsOf [] []
  | concat {t : ArchiveLog} {bytes : Bytes} (h : ReadsOf t bytes) {want : ℕ} {got : Bytes}
      (hlen : got.length ≤ want) :
    ReadsOf (t ++ [.did (.read want) ⟨got, hlen⟩]) (bytes ++ got)

structure Archived where
  entry : ArchiveEntry
  bytes : Bytes

def zeroFilled (n : ℕ) (bytes : Bytes) : Bytes := bytes ++ List.replicate (n - bytes.length) 0

def Archived.piece (f : Archived) : Bytes :=
  emitHeader f.entry.name f.entry.size ++ zeroFilled f.entry.size.toNat f.bytes ++
    List.replicate (pad f.entry.size.toNat) 0

def pieces (files : List Archived) : Bytes := files.flatMap Archived.piece

inductive Streamed : List ArchiveEntry → ArchiveLog → List Archived → Prop
  | nil : Streamed [] [] []
  | skipped {entries : List ArchiveEntry} {t : ArchiveLog} {files : List Archived}
      (h : Streamed entries t files) (entry : ArchiveEntry) :
    Streamed (entries ++ [entry]) (t ++ [.did (.openFile entry.path) false]) files
  | file {entries : List ArchiveEntry} {t reads : ArchiveLog}
      {files : List Archived} {bytes : Bytes}
    (h : Streamed entries t files) (entry : ArchiveEntry) (hreads : ReadsOf reads bytes)
    (hlen : bytes.length ≤ entry.size.toNat) :
    Streamed (entries ++ [entry]) (t ++ .did (.openFile entry.path) true :: reads)
      (files ++ [⟨entry, bytes⟩])

inductive TarStage (entries : List ArchiveEntry) (c : TarCursor) : ArchiveLog → Bytes → Prop
  | between {t : ArchiveLog} {files : List Archived} (hgoing : c.inputDone = false)
    (hpending : c.headerPending = true) (htrailer : c.trailerEmitted = false)
    (hidx : c.idx ≤ entries.length)
    (h : Streamed (entries.take c.idx) t files) : TarStage entries c t (pieces files)
  | data {t reads : ArchiveLog} {files : List Archived} {entry : ArchiveEntry} {bytes : Bytes}
    (hgoing : c.inputDone = false) (hpending : c.headerPending = false)
    (htrailer : c.trailerEmitted = false)
    (hget : entries[c.idx]? = some entry)
    (h : Streamed (entries.take c.idx) t files) (hreads : ReadsOf reads bytes)
    (hlen : bytes.length + c.curRemaining = entry.size.toNat)
    (hpad : c.padRemaining = pad entry.size.toNat) :
    TarStage entries c (t ++ .did (.openFile entry.path) true :: reads)
      (pieces files ++ emitHeader entry.name entry.size ++ bytes)
  | tail {t reads : ArchiveLog} {files : List Archived} {entry : ArchiveEntry} {bytes : Bytes}
    (hgoing : c.inputDone = false) (hpending : c.headerPending = false)
    (htrailer : c.trailerEmitted = false)
    (hget : entries[c.idx]? = some entry)
    (h : Streamed (entries.take c.idx) t files) (hreads : ReadsOf reads bytes)
    (hlen : bytes.length ≤ entry.size.toNat) (hdata : c.curRemaining = 0)
    (hpad : c.padRemaining ≤ pad entry.size.toNat) :
    TarStage entries c (t ++ .did (.openFile entry.path) true :: reads)
      (pieces files ++ emitHeader entry.name entry.size ++ zeroFilled entry.size.toNat bytes ++
        List.replicate (pad entry.size.toNat - c.padRemaining) 0)
  | done {t : ArchiveLog} {files : List Archived} (hdone : c.inputDone = true)
      (h : Streamed entries t files) :
    TarStage entries c t (pieces files ++ trailer)

section
variable {entries : List ArchiveEntry} {c c' : TarCursor} {t u : ArchiveLog} {b bytes : Bytes}

variable {entry : ArchiveEntry}

theorem take_concat {i : ℕ} (hget : entries[i]? = some entry) :
    entries.take (i + 1) = entries.take i ++ [entry] := by
  rw [List.take_add_one, hget]
  rfl

theorem TarStage.full (h : TarStage entries c t b) (hpending : c.headerPending = false)
    (hdone : c.inputDone = false) (hdata : c.curRemaining = 0)
    (hget : entries[c.idx]? = some entry) :
    ∃ t' reads files got, Streamed (entries.take c.idx) t' files ∧ ReadsOf reads got ∧
      got.length ≤ entry.size.toNat ∧ c.trailerEmitted = false ∧
        c.padRemaining ≤ pad entry.size.toNat ∧
      t = t' ++ .did (.openFile entry.path) true :: reads ∧
      b = pieces files ++ emitHeader entry.name entry.size ++ zeroFilled entry.size.toNat got ++
        List.replicate (pad entry.size.toNat - c.padRemaining) 0 := by
  cases h with
  | between _ hpending' => exact absurd (hpending'.symm.trans hpending) (by decide)
  | data _ _ htrailer hget' h hreads hlen hpad =>
    cases hget.symm.trans hget'
    rw [hdata, Nat.add_zero] at hlen
    refine ⟨_, _, _, _, h, hreads, hlen.le, htrailer, hpad.le, rfl, ?_⟩
    rw [zeroFilled, hlen, hpad, Nat.sub_self, Nat.sub_self, List.replicate_zero,
      List.append_nil, List.append_nil]
  | tail _ _ htrailer hget' h hreads hlen _ hpad =>
    cases hget.symm.trans hget'
    exact ⟨_, _, _, _, h, hreads, hlen, htrailer, hpad, rfl, rfl⟩
  | done hdone' => exact absurd (hdone'.symm.trans hdone) (by decide)

theorem TarStage.partly (h : TarStage entries c t b) (hpending : c.headerPending = false)
    (hdone : c.inputDone = false) (hdata : 0 < c.curRemaining)
    (hget : entries[c.idx]? = some entry) :
    ∃ t' reads files got, Streamed (entries.take c.idx) t' files ∧ ReadsOf reads got ∧
      got.length + c.curRemaining = entry.size.toNat ∧ c.trailerEmitted = false ∧
      c.padRemaining = pad entry.size.toNat ∧ t = t' ++ .did (.openFile entry.path) true :: reads ∧
      b = pieces files ++ emitHeader entry.name entry.size ++ got := by
  cases h with
  | between _ hpending' => exact absurd (hpending'.symm.trans hpending) (by decide)
  | data _ _ htrailer hget' h hreads hlen hpad =>
    cases hget.symm.trans hget'
    exact ⟨_, _, _, _, h, hreads, hlen, htrailer, hpad, rfl, rfl⟩
  | tail _ _ _ _ _ _ _ hdata' => exact absurd hdata (by rw [hdata']; exact Nat.lt_irrefl 0)
  | done hdone' => exact absurd (hdone'.symm.trans hdone) (by decide)

theorem TarStage.pending (h : TarStage entries c t b) (hpending : c.headerPending = true)
    (hdone : c.inputDone = false) :
    ∃ files, Streamed (entries.take c.idx) t files ∧ c.trailerEmitted = false ∧
      c.idx ≤ entries.length ∧
      b = pieces files := by
  cases h with
  | between _ _ htrailer hidx h => exact ⟨_, h, htrailer, hidx, rfl⟩
  | data _ hpending' => exact absurd (hpending'.symm.trans hpending) (by decide)
  | tail _ hpending' => exact absurd (hpending'.symm.trans hpending) (by decide)
  | done hdone' => exact absurd (hdone'.symm.trans hdone) (by decide)

theorem TarStage.ended (h : TarStage entries c t b) (hdone : c.inputDone = true) :
    ∃ files, Streamed entries t files ∧ b = pieces files ++ trailer := by
  cases h with
  | between hgoing => exact absurd (hgoing.symm.trans hdone) (by decide)
  | data hgoing => exact absurd (hgoing.symm.trans hdone) (by decide)
  | tail hgoing => exact absurd (hgoing.symm.trans hdone) (by decide)
  | done _ h => exact ⟨_, h, rfl⟩

theorem TarStage.step (hentries : c.entries = entries) (hdone : c.inputDone = false)
    (h : TarStage entries c t b) (hpass : Pass c u bytes c') :
    TarStage entries c' (t ++ u) (b ++ bytes) := by
  subst hentries
  cases hpass with
  | trailer hget =>
    have hend : c.entries.length ≤ c.idx := List.getElem?_eq_none_iff.mp hget
    cases h with
    | between _ _ htrailer hidx h =>
      rw [List.take_of_length_le hend] at h
      rw [htrailer, List.append_nil]
      exact .done rfl h
    | data _ _ _ hget' => exact absurd (hget.symm.trans hget') (by simp)
    | tail _ _ _ hget' => exact absurd (hget.symm.trans hget') (by simp)
    | done hdone' => exact absurd (hdone'.symm.trans hdone) (by decide)
  | @skip entry hget hpending =>
    obtain ⟨files, hfiles, htrailer, hidx, rfl⟩ := h.pending hpending hdone
    have hskip := hfiles.skipped entry
    rw [← take_concat hget] at hskip
    rw [List.append_nil]
    refine .between hdone rfl htrailer ?_ hskip
    exact (List.getElem?_eq_some_iff.mp hget).1
  | @header entry hget hpending =>
    obtain ⟨files, hfiles, htrailer, hidx, rfl⟩ := h.pending hpending hdone
    have hopened :=
      TarStage.data (c := c.opened entry) hdone rfl htrailer hget hfiles .nil (Nat.zero_add _) rfl
    rwa [List.append_nil] at hopened
  | @data entry hget hpending want got hlen hne hrest =>
    obtain ⟨t', reads, files, before, hfiles, hreads, hsize, htrailer, hpad, rfl, rfl⟩ :=
      h.partly hpending hdone (by omega) hget
    have hmore := hreads.concat hlen
    rw [List.append_assoc, List.cons_append, List.append_assoc]
    refine .data hdone hpending htrailer hget hfiles hmore ?_ hpad
    rw [List.length_append]
    dsimp only
    omega
  | @shrunk entry hget hpending want got hlen hpos hrest =>
    obtain ⟨t', reads, files, before, hfiles, hreads, hsize, htrailer, hpad, rfl, rfl⟩ :=
      h.partly hpending hdone hpos hget
    have hmore := hreads.concat hlen
    have hsum : (before ++ got).length ≤ entry.size.toNat := by
      rw [List.length_append]
      omega
    have htail :=
      TarStage.tail (c := { c with curRemaining := 0 }) hdone hpending htrailer hget hfiles
        hmore hsum rfl hpad.le
    have hfilled : zeroFilled entry.size.toNat (before ++ got) =
        before ++ (got ++ List.replicate (c.curRemaining - got.length) 0) := by
      rw [zeroFilled, List.append_assoc, List.length_append]
      congr 3
      omega
    rw [hfilled, hpad, Nat.sub_self, List.replicate_zero, List.append_nil] at htail
    rwa [List.append_assoc, List.cons_append, List.append_assoc, hpad]
  | @padding entry hget hpending hdata hpos =>
    obtain ⟨t', reads, files, got, hfiles, hreads, hlen, htrailer, hpad, rfl, rfl⟩ :=
      h.full hpending hdone hdata hget
    have htail :=
      TarStage.tail (c := { c with padRemaining := 0 }) hdone hpending htrailer hget hfiles
        hreads hlen hdata (Nat.zero_le _)
    rwa [List.append_nil, List.append_assoc _ (List.replicate _ _), List.replicate_append_replicate,
      Nat.sub_add_cancel hpad]
  | @finish entry hget hpending hdata hpad =>
    obtain ⟨t', reads, files, got, hfiles, hreads, hlen, htrailer, -, rfl, rfl⟩ :=
      h.full hpending hdone hdata hget
    have hfile := hfiles.file entry hreads hlen
    rw [← take_concat hget] at hfile
    have hbetween :=
      TarStage.between (c := c.advance) hdone rfl htrailer
        (List.getElem?_eq_some_iff.mp hget).1 hfile
    have hpieces : pieces (files ++ [⟨entry, got⟩]) = pieces files ++
        emitHeader entry.name entry.size ++
        zeroFilled entry.size.toNat got ++ List.replicate (pad entry.size.toNat) 0 := by
      rw [pieces, List.flatMap_append, List.flatMap_singleton, Archived.piece]
      simp only [pieces, List.append_assoc]
    rwa [List.append_nil, List.append_nil, hpad, Nat.sub_zero, ← hpieces]

theorem Pass.entries_eq (hpass : Pass c u bytes c') : c'.entries = c.entries := by
  cases hpass <;> rfl

end

variable {t u : ArchiveLog} {out front id : Bytes} {isDirectory : Bool}
  {items : List DirItem} {e : ArchiveEntry} {item : DirItem}

theorem refillRaw_stage {entries : List ArchiveEntry} {s s' : Staging} {taken : Bytes}
    (hentries : s.entries = entries) (hpos : s.rawPos ≤ s.raw.length)
    (h : TarStage entries s.toTarCursor t (taken ++ s.avail)) (hs' : (refillRaw s).Yields s' u) :
    s'.entries = entries ∧ s'.rawPos ≤ s'.raw.length ∧
      TarStage entries s'.toTarCursor (t ++ u) (taken ++ s'.avail) := by
  refine (refillLoop.yields_loop (I := fun m v => m.entries = entries ∧ m.rawPos ≤ m.raw.length ∧
    TarStage entries m.toTarCursor v (taken ++ m.avail)) ?_ ⟨hentries, hpos, h⟩ hs').1
  rintro m v m' w ⟨hm, hmpos, hstage⟩ hmore hm'
  obtain ⟨bytes, hpass, happend⟩ := pass_of_yields hm'
  have hdone : m.inputDone = false := by
    have hwant : m.wanting = true := hmore
    unfold Staging.wanting at hwant
    rw [Bool.and_eq_true, Bool.not_eq_true'] at hwant
    exact hwant.2
  have hraw : m'.raw = m.raw ++ bytes := by rw [happend]; rfl
  have hrawPos : m'.rawPos = m.rawPos := by rw [happend]; rfl
  have havail : m'.avail = m.avail ++ bytes := by
    unfold Staging.avail
    rw [hraw, hrawPos, List.drop_append_of_le_length hmpos]
  refine ⟨hpass.entries_eq.trans hm, ?_, ?_⟩
  · rw [hraw, hrawPos, List.length_append]
    omega
  · rw [havail, ← List.append_assoc]
    exact hstage.step hm hdone hpass

/-! ## The chunks -/

section
variable {z : CStream} {decompress : Bytes → Option Bytes} {entries : List ArchiveEntry}
  {s₀ : z.State} {s : ArchiveStreamer z}

structure Streaming (entries : List ArchiveEntry) (s₀ : z.State)
    (s : ArchiveStreamer z) (t : ArchiveLog) (out : Bytes) : Prop where
  ok : s.ok = true
  going : s.finished = false
  entries_eq : s.entries = entries
  rawPos_le : s.rawPos ≤ s.raw.length
  fed : ∃ taken, TarStage entries s.toTarCursor t (taken ++ s.avail) ∧ z.Fed s₀ taken out s.zcs

structure Delivered (entries : List ArchiveEntry) (s₀ : z.State)
    (s : ArchiveStreamer z) (t : ArchiveLog) (out : Bytes) : Prop where
  ok : s.ok = true
  finished : s.finished = true
  flushed : ∃ files before made zcs, Streamed entries t files ∧
    z.Fed s₀ (pieces files ++ trailer) before zcs ∧ z.Ended zcs made ∧ out = before ++ made

theorem Streaming.pass (hz : z.Lossless decompress) (h : Streaming entries s₀ s t out)
    {p : ArchiveStreamer z × Bytes} (hp : (nextPass z (s, [])).Yields p u) :
    Streaming entries s₀ p.1 (t ++ u) (out ++ p.2) ∨
      Delivered entries s₀ p.1 (t ++ u) (out ++ p.2) := by
  obtain ⟨staged, t₁, t₂, hstaged, ⟨rfl, rfl⟩, rfl⟩ := Yields.of_bind hp
  obtain ⟨taken, hstage, hfed⟩ := h.fed
  obtain ⟨hentries, hpos, hstage⟩ := refillRaw_stage h.entries_eq h.rawPos_le hstage hstaged
  have hcompresses := compressStaged_compresses z s staged []
  generalize compressStaged z s staged [] = p at hcompresses
  obtain ⟨hokEnd, made, hmade, hended⟩ := compressEnd_ended hz s.zcs []
  obtain ⟨hokContinue, made', hmade', hfed'⟩ := compressContinue_fed hz s.zcs staged.avail []
  rw [List.append_nil]
  cases hcompresses with
  | failed zcs out' hfailed =>
    rw [hokEnd, hokContinue] at hfailed
    exact absurd hfailed (by decide)
  | ended hdone hnil _ =>
    rw [hnil, List.append_nil] at hstage
    obtain ⟨files, hfiles, rfl⟩ := hstage.ended hdone
    rw [hmade]
    exact .inr ⟨rfl, rfl, files, out, made, s.zcs, hfiles, hfed, hended, rfl⟩
  | continued hleft _ =>
    rw [hmade']
    refine .inl ⟨rfl, rfl, ?_, ?_, taken ++ staged.avail, ?_, hfed' hfed⟩
    · exact (congrArg TarCursor.entries (staged.consumed_cursor _)).trans hentries
    · exact staged.consumed_rawPos hpos
    · show TarStage entries (staged.consumed staged.avail.length).toTarCursor (t ++ t₁)
        (taken ++ staged.avail ++ (staged.consumed staged.avail.length).avail)
      rwa [staged.consumed_avail, staged.consumed_cursor, List.append_nil]

theorem Streaming.next (hz : z.Lossless decompress) (h : Streaming entries s₀ s t out)
    {r : NextResult z} (hr : (s.next z).Yields r u) :
    r.more = true ∧ Streaming entries s₀ r.streamer (t ++ u) (out ++ r.out) ∨
      r.more = false ∧ Delivered entries s₀ r.streamer (t ++ u) (out ++ r.out) := by
  unfold ArchiveStreamer.next at hr
  rw [h.ok, h.going] at hr
  obtain ⟨p, t₁, t₂, hp, ⟨rfl, rfl⟩, rfl⟩ := Yields.of_bind hr
  have hloop := ((nextLoop z).yields_loop (I := fun m v => Streaming entries s₀ m.1 v (out ++ m.2) ∨
    Delivered entries s₀ m.1 v (out ++ m.2)) ?_ (t := t) (.inl ?_) hp).1
  · rw [List.append_nil]
    rcases hloop with hgoing | hdone
    · refine .inl ⟨?_, hgoing⟩
      dsimp only
      rw [hgoing.ok, hgoing.going]
      rfl
    · refine .inr ⟨?_, hdone⟩
      dsimp only
      rw [hdone.ok, hdone.finished]
      rfl
  · rintro ⟨m, chunk⟩ v m' w hm hmore hm'
    obtain ⟨rfl, hgoing, -⟩ := (unanswered_iff z _).mp hmore
    rcases hm with hm | hm
    · rw [List.append_nil] at hm
      exact hm.pass hz hm'
    · exact absurd (hgoing.symm.trans hm.finished) (by decide)
  · rwa [List.append_nil]

theorem Streaming.delivers (hz : z.Lossless decompress) (h : Streaming entries s₀ s [] [])
    {d : Download z} (hd : (download z s).Yields d t) :
    Delivered entries s₀ d.streamer t d.chunks.flatten := by
  have hstep : ∀ m v m' w, (m.more = true ∧ Streaming entries s₀ m.streamer v m.chunks.flatten ∨
      m.more = false ∧ Delivered entries s₀ m.streamer v m.chunks.flatten) → m.more = true →
      (downloadPass z m).Yields m' w →
        (m'.more = true ∧ Streaming entries s₀ m'.streamer (v ++ w) m'.chunks.flatten ∨
        m'.more = false ∧ Delivered entries s₀ m'.streamer (v ++ w) m'.chunks.flatten) := by
    intro m v m' w hm hmore hm'
    obtain ⟨r, t₁, t₂, hr, ⟨rfl, rfl⟩, rfl⟩ := Yields.of_bind hm'
    dsimp only
    rw [List.append_nil, List.flatten_append, List.flatten_singleton]
    rcases hm with ⟨-, hm⟩ | ⟨hfalse, -⟩
    · exact hm.next hz hr
    · exact absurd (hmore.symm.trans hfalse) (by decide)
  obtain ⟨hloop, hdone⟩ := (downloadLoop z).yields_loop hstep (t := []) (.inl ⟨rfl, h⟩) hd
  rcases hloop with ⟨hmore, -⟩ | ⟨-, hdelivered⟩
  · exact absurd (hmore.symm.trans hdone) (by decide)
  · exact hdelivered

theorem streaming_begin (hs : ArchiveStreamer.begin z isDirectory items front = some s) :
    z.create = some s.zcs ∧ Streaming s.entries s.zcs s [] [] ∧
      s.entries = (items.filterMap (DirItem.entry front)).mergeSort fun a b =>
        decide (a.name ≤ b.name) := by
  unfold ArchiveStreamer.begin at hs
  split_ifs at hs
  obtain ⟨zcs, hcreate, rfl⟩ := Option.map_eq_some_iff.mp hs
  generalize (items.filterMap (DirItem.entry front)).mergeSort
    (fun a b => decide (a.name ≤ b.name)) = entries
  have hstage : TarStage entries ⟨entries, 0, true, 0, 0, false, false⟩ [] (pieces []) :=
    .between rfl rfl rfl (Nat.zero_le _) .nil
  exact ⟨hcreate, ⟨rfl, rfl, rfl, Nat.le_refl 0, [], hstage, .start⟩, rfl⟩

theorem tar_of_download (hz : z.Lossless decompress)
    (hs : ArchiveStreamer.begin z isDirectory items front = some s) {d : Download z}
    (hd : (download z s).Yields d t) :
    ∃ files, Streamed s.entries t files ∧ decompress d.chunks.flatten =
      some (pieces files ++ trailer) := by
  obtain ⟨hcreate, hstart, -⟩ := streaming_begin hs
  obtain ⟨files, before, made, zcs, hfiles, hfed, hended, hout⟩ := (hstart.delivers hz hd).flushed
  refine ⟨files, hfiles, ?_⟩
  rw [hout]
  exact hz.round_trip hcreate hfed hended

theorem download_tar (hz : z.Lossless decompress)
    (hs : ArchiveStreamer.begin z isDirectory items front = some s) :
    (download z s).wp fun d t => ∃ files, Streamed s.entries t files ∧
      decompress d.chunks.flatten = some (pieces files ++ trailer) :=
  wp_of_yields fun _ _ hd => tar_of_download hz hs hd

theorem next_yields {r : NextResult z} (hr : (s.next z).Yields r t) :
    (r.more = true → r.out ≠ [] ∧ r.streamer.ok = true) ∧
      (r.more = false → r.streamer.next z = .ret ⟨false, [], r.streamer⟩) := by
  unfold ArchiveStreamer.next at hr
  split_ifs at hr with hstop
  · obtain ⟨rfl, rfl⟩ := hr
    refine ⟨fun h => (nomatch h), fun _ => ?_⟩
    unfold ArchiveStreamer.next
    rw [if_pos hstop]
  · obtain ⟨p, t₁, t₂, hp, ⟨rfl, rfl⟩, rfl⟩ := Yields.of_bind hr
    have hanswered : unanswered z p = false := (nextLoop z).loop_done hp
    refine ⟨fun hmore => ⟨fun hnil => ?_, ?_⟩, fun hmore => ?_⟩
    · dsimp only at hmore hnil
      rw [Bool.and_eq_true, Bool.not_eq_true'] at hmore
      rw [(unanswered_iff z p).mpr ⟨hnil, hmore.2, hmore.1⟩] at hanswered
      exact nomatch hanswered
    · exact (Bool.and_eq_true _ _ ▸ hmore).1
    · dsimp only at hmore ⊢
      unfold ArchiveStreamer.next
      rw [if_pos]
      rw [← Bool.not_eq_false', Bool.not_or, Bool.not_not]
      exact hmore

end

/-! ## Reading the tar -/

section
variable {entries : List ArchiveEntry} {files : List Archived} {f : Archived}

theorem Streamed.entry_mem (h : Streamed entries t files) (hf : f ∈ files) :
    f.entry ∈ entries ∧ f.bytes.length ≤ f.entry.size.toNat := by
  induction h with
  | nil => exact absurd hf List.not_mem_nil
  | skipped _ entry ih => exact ⟨List.mem_append_left _ (ih hf).1, (ih hf).2⟩
  | file _ entry _ hlen ih =>
    rcases List.mem_append.mp hf with hf | hf
    · exact ⟨List.mem_append_left _ (ih hf).1, (ih hf).2⟩
    · rw [List.mem_singleton.mp hf]
      exact ⟨List.mem_append_right _ (List.mem_singleton_self _), hlen⟩

theorem zeroFilled_length {n : ℕ} {bytes : Bytes} (h : bytes.length ≤ n) :
    (zeroFilled n bytes).length = n := by
  rw [zeroFilled, List.length_append, List.length_replicate]
  omega

theorem Archived.piece_length (h : f.bytes.length ≤ f.entry.size.toNat) :
    f.piece.length = 512 + (f.entry.size.toNat + pad f.entry.size.toNat) := by
  simp only [piece, List.length_append, emitHeader_length, zeroFilled_length h,
    List.length_replicate, Nat.add_assoc]

end

/-! ## A download of a session -/

def validSessionId (id : Bytes) : Bool :=
  !id.isEmpty && id.length ≤ 64 && id.all fun c => (0x30 ≤ c && c ≤ 0x39) || (0x61 ≤ c && c ≤ 0x66)

theorem validSessionId_head (h : validSessionId id = true) :
    id ≠ [] ∧ ∀ c ∈ id, c ≠ 0 ∧ c ≠ 0x2F := by
  unfold validSessionId at h
  rw [Bool.and_eq_true, Bool.and_eq_true, Bool.not_eq_true', List.isEmpty_eq_false_iff,
    List.all_eq_true] at h
  refine ⟨h.1.1, fun c hc => ?_⟩
  have hhex := h.2 c hc
  constructor <;> rintro rfl <;> exact absurd hhex (by decide)

theorem DirItem.entry_relative (he : item.entry id = some e) :
    ∃ rel, item.relative = some rel ∧ e.name = id ++ 0x2F :: rel := by
  unfold entry at he
  split at he
  · rename_i rel size _ hrel _
    split_ifs at he
    cases he
    exact ⟨rel, hrel, rfl⟩
  · exact nomatch he

theorem DirItem.entry_name (hid : validSessionId id = true) (he : item.entry id = some e) :
    0 ∉ e.name ∧ e.name.head? ≠ some 0x2F := by
  obtain ⟨hne, hhex⟩ := validSessionId_head hid
  obtain ⟨rel, hrel, heq⟩ := entry_relative he
  refine ⟨fun hnul => ?_, fun hslash => ?_⟩
  · rw [heq, List.mem_append, List.mem_cons] at hnul
    rcases hnul with hnul | hnul | hnul
    · exact (hhex 0 hnul).1 rfl
    · exact absurd hnul (by decide)
    · exact item.noNul rel hrel hnul
  · obtain ⟨c, rest, rfl⟩ := List.exists_cons_of_ne_nil hne
    rw [heq] at hslash
    exact (hhex c List.mem_cons_self).2 (Option.some.inj hslash)

theorem begin_perm {z : CStream} {s : ArchiveStreamer z}
    (hs : ArchiveStreamer.begin z isDirectory items front = some s) :
    s.entries.Perm (items.filterMap (DirItem.entry front)) := by
  obtain ⟨-, -, hentries⟩ := streaming_begin hs
  rw [hentries]
  exact List.mergeSort_perm _ _

def storedHead (begun : Bool) : Bytes := if begun then [] else zstdFrame.magic

/-- Zstandard on blocks that it stores. -/
def storing : CStream where
  State := Bool
  create := some false
  compressStream2 begun input ending :=
    let n := min input.length zstdFrame.maxBlock
    (some (n, storedHead begun ++ (if n = 0 then [] else zstdFrame.block (input.take n)) ++
      (if ending ∧ n = input.length then zstdFrame.endMark else []), input.length - n), true)
  held _ := 0
  taken_le h := by
    cases h
    exact Nat.min_le_left _ _
  continue_progress h hlt := by
    cases h
    exact .inl (lt_min (Nat.zero_lt_of_lt hlt) zstdFrame.maxBlock_pos)
  end_progress h hrc := by
    cases h
    exact absurd (Nat.zero_sub _) hrc

theorem storing_fed {s : storing.State} {taken : Bytes} (h : storing.Fed false taken out s) :
    ∃ parts, (∀ p ∈ parts, p.length ≤ zstdFrame.maxBlock) ∧ taken = parts.flatten ∧
      out ++ storedHead s = zstdFrame.frame parts := by
  induction h with
  | start => exact ⟨[], nofun, rfl, rfl⟩
  | @call taken out input made n rc s' s'' _ hcall ih =>
    obtain ⟨parts, hsmall, rfl, hout⟩ := ih
    have hbegun : storedHead true = [] := rfl
    cases hcall
    by_cases hn : min input.length zstdFrame.maxBlock = 0
    · refine ⟨parts, hsmall, ?_, ?_⟩
      · rw [hn, List.take_zero, List.append_nil]
      · rw [if_pos hn, ← hout]
        simp [hbegun]
    · refine ⟨parts ++ [input.take (min input.length zstdFrame.maxBlock)], ?_, ?_, ?_⟩
      · intro p hp
        rcases List.mem_append.mp hp with hp | hp
        · exact hsmall p hp
        · rw [List.mem_singleton.mp hp, List.length_take]
          omega
      · rw [List.flatten_append, List.flatten_singleton]
      · rw [if_neg hn, zstdFrame.frame_append, ← hout]
        simp [hbegun]

theorem storing_ended {s : storing.State} (h : storing.Ended s out) :
    out = storedHead s ++ zstdFrame.endMark := by
  cases h with
  | last hcall =>
    cases hcall
    simp
  | more hcall hrc =>
    cases hcall
    exact absurd (Nat.zero_sub _) hrc

theorem storing_lossless : storing.Lossless zstdFrame.unframe where
  accepts _ _ _ h := nomatch h
  round_trip hcreate hfed hended := by
    cases hcreate
    obtain ⟨parts, hsmall, rfl, hout⟩ := storing_fed hfed
    rw [storing_ended hended, ← List.append_assoc, hout, zstdFrame.unframe_frame hsmall]

def smallItem : DirItem where
  path := [0x61]
  regular := true
  relative := some [0x61]
  fileSize := some 1
  noNul := by
    rintro rel ⟨⟩
    decide

/-- A directory and a name of sixty bytes each. -/
def splitItem : DirItem where
  path := [0x62]
  regular := true
  relative := some (List.replicate 60 0x64 ++ 0x2F :: List.replicate 60 0x66)
  fileSize := some 700
  noNul := by
    rintro rel ⟨⟩
    decide

def splitName : Bytes := [0x30, 0x2F] ++ List.replicate 60 0x64 ++ 0x2F :: List.replicate 60 0x66

theorem splitName_representable : 100 < splitName.length ∧ Representable splitName :=
  ⟨by decide, .inr ⟨62, rfl, by decide, by decide⟩⟩

theorem twoItems_entries : [smallItem, splitItem].filterMap (DirItem.entry [0x30]) =
    [⟨[0x61], [0x30, 0x2F, 0x61], 1⟩, ⟨[0x62], splitName, 700⟩] := rfl

theorem twoItems_representable : ∀ item ∈ [smallItem, splitItem], ∀ e, item.entry [0x30] = some e →
    Representable e.name ∧ e.size.toNat < 8 ^ 11 := by
  intro item hitem e he
  have hmem := List.mem_filterMap.mpr ⟨item, hitem, he⟩
  rw [twoItems_entries, List.mem_cons, List.mem_singleton] at hmem
  rcases hmem with rfl | rfl
  · exact ⟨.inl (by decide), by decide⟩
  · exact ⟨splitName_representable.2, by decide⟩

def Archived.Placed (f : Archived) : Prop :=
  octal (slice f.piece 124 12) = some f.entry.size.toNat ∧
    (octal (slice f.piece 124 12)).map (fun n => 512 + (n + pad n)) = some f.piece.length

theorem Archived.octal_piece (f : Archived) :
    octal (slice f.piece 124 12) = some (f.entry.size.toNat % 8 ^ 11) := by
  have hslice : slice f.piece 124 12 = slice (emitHeader f.entry.name f.entry.size) 124 12 := by
    have hlen := emitHeader_length f.entry.name f.entry.size
    unfold slice piece
    rw [List.append_assoc, List.drop_append_of_le_length (by rw [hlen]; decide),
      List.take_append_of_le_length (by rw [List.length_drop, hlen]; decide)]
  rw [hslice, emitHeader_size]

/-- Every entry is either refused, or its member is placed rightly if and only if the size has at
most eleven octal digits. -/
theorem size_field_iff {z : CStream} {decompress : Bytes → Option Bytes}
    (hz : z.Lossless decompress) {isDirectory : Bool} {items : List DirItem} {front : Bytes}
    {s : ArchiveStreamer z} (hs : ArchiveStreamer.begin z isDirectory items front = some s) :
    (download z s).wp fun d t => ∃ files, Streamed s.entries t files ∧
      decompress d.chunks.flatten = some (pieces files ++ trailer) ∧
      ∀ f ∈ files, f.Placed ↔ f.entry.size.toNat < 8 ^ 11 := by
  refine wp_mono (download_tar hz hs) ?_
  rintro d t ⟨files, hfiles, htar⟩
  refine ⟨files, hfiles, htar, fun f hf => ⟨fun hplaced => ?_, fun hsize => ?_⟩⟩
  · have htold := hplaced.1
    rw [f.octal_piece, Option.some.injEq] at htold
    exact htold ▸ Nat.mod_lt _ (by decide)
  · have htold := f.octal_piece
    rw [Nat.mod_eq_of_lt hsize] at htold
    refine ⟨htold, ?_⟩
    rw [htold, Archived.piece_length (hfiles.entry_mem hf).2]
    rfl

theorem size_field_small : ∃ s, ArchiveStreamer.begin storing true [smallItem] [0x30] = some s ∧
    (download storing s).wp fun _ t => ∃ files, Streamed s.entries t files ∧
      ∀ f ∈ files, f.Placed ↔ f.entry.size.toNat < 8 ^ 11 := by
  have hs : ArchiveStreamer.begin storing true [smallItem] [0x30] = some _ := rfl
  refine ⟨_, hs, wp_mono (size_field_iff storing_lossless hs) ?_⟩
  rintro d t ⟨files, hfiles, -, hplaced⟩
  exact ⟨files, hfiles, hplaced⟩

theorem Streamed.entries_of_opened {entries : List ArchiveEntry} {files : List Archived}
    (h : Streamed entries t files) (hopen : ∀ path a, .did (.openFile path) a ∈ t → a = true) :
    files.map Archived.entry = entries := by
  induction h with
  | nil => rfl
  | skipped _ entry =>
    exact absurd (hopen entry.path false (List.mem_append_right _ List.mem_cons_self))
      Bool.false_ne_true
  | file _ entry _ _ ih =>
    rw [List.map_append, ih fun path a ha => hopen path a (List.mem_append_left _ ha)]
    rfl

def OpensReadily : (op : ArchiveOp) → op.Ans → Prop
  | .openFile _, a => a = true
  | .read _, _ => True

theorem opens_readily (op : ArchiveOp) : ∃ a : op.Ans, OpensReadily op a := by
  cases op with
  | openFile path => exact ⟨true, rfl⟩
  | read want => exact ⟨⟨[], Nat.zero_le want⟩, trivial⟩

def hugeItem : DirItem := { smallItem with fileSize := some 0x200000000 }

/-- It opens, its header says that it is empty, and 8 GiB of data follow. -/
theorem huge_size_lost : ∃ s d t f, ArchiveStreamer.begin storing true [hugeItem] [0x30] = some s ∧
    (download storing s).Yields d t ∧
    zstdFrame.unframe d.chunks.flatten = some (pieces [f] ++ trailer) ∧
    octal (slice f.piece 124 12) = some 0 ∧ f.piece.length = 512 + 8589934592 ∧ ¬f.Placed := by
  have hs : ArchiveStreamer.begin storing true [hugeItem] [0x30] = some _ := rfl
  obtain ⟨d, t, hd, hopened⟩ := Program.exists_yields opens_readily (download storing _)
  obtain ⟨files, hfiles, htar⟩ := tar_of_download storing_lossless hs hd
  have hentries := hfiles.entries_of_opened fun path a ha => hopened (.openFile path) a ha
  rw [List.perm_singleton.mp (begin_perm hs)] at hentries
  obtain ⟨f, rfl, hf⟩ := List.map_eq_singleton_iff.mp hentries
  have hsize : f.entry.size.toNat = 8 ^ 11 := congrArg (fun e => e.size.toNat) hf
  have hoctal := f.octal_piece
  rw [hsize, Nat.mod_self] at hoctal
  refine ⟨_, d, t, f, hs, hd, htar, hoctal, ?_, fun hplaced => ?_⟩
  · rw [Archived.piece_length (hfiles.entry_mem List.mem_cons_self).2, hsize]
    rfl
  · have htold := hoctal.symm.trans hplaced.1
    rw [hsize] at htold
    exact absurd htold (by decide)

end Dicker.Server
