import Dicker.Server.Descriptors
import Dicker.Server.Download

/-! The names of the members of a session's archive: what a reader decodes from the headers that
`emit_header` writes, and when that is the name `begin` chose. -/

namespace Dicker.Server
open Lib Program Ustar

/-! ## What the two fields keep -/

theorem splitLoop_eq_none {name : Bytes} (h : ∀ p, ¬SplitsAt name p) :
    splitLoop name name.length = none := by
  cases hsplit : splitLoop name name.length with
  | none => rfl
  | some p => exact absurd (splitsAt_of_splitLoop hsplit) (h p)

theorem fieldsOf_cut {name : Bytes} (h : ¬Representable name) :
    fieldsOf name = (name.drop (name.length - 100), []) := by
  obtain ⟨hlong, hsplit⟩ := not_or.mp h
  rw [fieldsOf, if_pos (Nat.lt_of_not_le hlong), splitLoop_eq_none (not_exists.mp hsplit)]

theorem joinName_fieldsOf_iff {name : Bytes} (hhead : name.head? ≠ some 0x2F) :
    joinName (fieldsOf name).2 (fieldsOf name).1 = name ↔ Representable name := by
  refine ⟨fun hjoin => ?_, fun h => joinName_fieldsOf h hhead⟩
  by_contra hcut
  have hlong : 100 < name.length := Nat.lt_of_not_le fun hshort => hcut (.inl hshort)
  rw [fieldsOf_cut hcut, joinName, if_pos rfl] at hjoin
  have hlen := congrArg List.length hjoin
  rw [List.length_drop] at hlen
  omega

/-! ## The members of a tar -/

def Archived.memberName (f : Archived) : Option Bytes :=
  (Ustar.header (f.piece.take 512)).map fun h => h.name

structure NamesFaithful (files : List Archived) : Prop where
  own : ∀ f ∈ files, f.memberName = some f.entry.name
  apart : files.Pairwise fun f g => f.memberName ≠ g.memberName

theorem Archived.memberName_eq {f : Archived} (hnul : 0 ∉ f.entry.name) :
    f.memberName = some (joinName (fieldsOf f.entry.name).2 (fieldsOf f.entry.name).1) := by
  have hblock : f.piece.take 512 = emitHeader f.entry.name f.entry.size := by
    rw [piece, List.append_assoc, List.take_append_of_le_length (emitHeader_length _ _).ge,
      List.take_of_length_le (emitHeader_length _ _).le]
  rw [memberName, hblock, header_emitHeader _ _ hnul]
  rfl

theorem Archived.memberName_iff {f : Archived} (hnul : 0 ∉ f.entry.name)
    (hhead : f.entry.name.head? ≠ some 0x2F) :
    f.memberName = some f.entry.name ↔ Representable f.entry.name := by
  rw [memberName_eq hnul, Option.some.injEq, joinName_fieldsOf_iff hhead]

theorem Streamed.sublist {entries : List ArchiveEntry} {t : ArchiveLog} {files : List Archived}
    (h : Streamed entries t files) : (files.map Archived.entry).Sublist entries := by
  induction h with
  | nil => exact List.Sublist.refl []
  | skipped _ entry ih => exact ih.trans (List.sublist_append_left _ _)
  | file _ entry _ _ ih =>
    rw [List.map_append]
    exact ih.append (List.Sublist.refl [entry])

theorem entries_apart {items : List DirItem} (id : Bytes)
    (hitems : items.Pairwise fun a b => ∀ rel, a.relative = some rel → b.relative ≠ some rel) :
    (items.filterMap (DirItem.entry id)).Pairwise fun a b => a.name ≠ b.name := by
  refine hitems.filterMap _ ?_
  intro a b hab e he e' he' hname
  obtain ⟨rel, hrel, heq⟩ := DirItem.entry_relative he
  obtain ⟨rel', hrel', heq'⟩ := DirItem.entry_relative he'
  rw [heq, heq'] at hname
  have hsame : rel = rel' := (List.cons.inj (List.append_cancel_left hname)).2
  exact hab rel hrel (hsame ▸ hrel')

/-- In every download the members are the files under their own names, if and only if every name has
at most a hundred bytes or a '/' that leaves at most a hundred behind it and at most 155 before
it. -/
theorem names_faithful_iff {z : CStream} {decompress : Bytes → Option Bytes}
    (hz : z.Lossless decompress) {isDirectory : Bool} {items : List DirItem} {id : Bytes}
    (hid : validSessionId id = true)
    (hitems : items.Pairwise fun a b => ∀ rel, a.relative = some rel → b.relative ≠ some rel)
    {s : ArchiveStreamer z} (hs : ArchiveStreamer.begin z isDirectory items id = some s) :
    (∀ e ∈ s.entries, ∃ item ∈ items, ∃ rel, item.relative = some rel ∧
      e.name = id ++ 0x2F :: rel) ∧
    (download z s).wp fun d t => ∃ files, Streamed s.entries t files ∧
      decompress d.chunks.flatten = some (pieces files ++ trailer) ∧
      (NamesFaithful files ↔ ∀ f ∈ files, Representable f.entry.name) := by
  have hperm := begin_perm hs
  have hentry : ∀ e ∈ s.entries, ∃ item ∈ items, item.entry id = some e := fun e he =>
    List.mem_filterMap.mp (hperm.mem_iff.mp he)
  refine ⟨fun e he => ?_, wp_mono (download_tar hz hs) ?_⟩
  · obtain ⟨item, hitem, heq⟩ := hentry e he
    exact ⟨item, hitem, DirItem.entry_relative heq⟩
  rintro d t ⟨files, hfiles, htar⟩
  refine ⟨files, hfiles, htar, ?_⟩
  have hown : ∀ f ∈ files, f.memberName = some f.entry.name ↔ Representable f.entry.name := by
    intro f hf
    obtain ⟨item, -, heq⟩ := hentry f.entry (hfiles.entry_mem hf).1
    obtain ⟨hnul, hhead⟩ := DirItem.entry_name hid heq
    exact Archived.memberName_iff hnul hhead
  have hapart : files.Pairwise fun f g => f.entry.name ≠ g.entry.name := by
    have hentries : s.entries.Pairwise fun a b => a.name ≠ b.name :=
      (hperm.pairwise_iff fun {_ _} h => h.symm).mpr (entries_apart id hitems)
    have hopened := hentries.sublist hfiles.sublist
    rwa [List.pairwise_map] at hopened
  constructor
  · intro h f hf
    exact (hown f hf).mp (h.own f hf)
  · intro h
    have hall : ∀ f ∈ files, f.memberName = some f.entry.name := fun f hf =>
      (hown f hf).mpr (h f hf)
    refine ⟨hall, hapart.imp_of_mem ?_⟩
    intro f g hf hg hne heq
    rw [hall f hf, hall g hg] at heq
    exact hne (Option.some.inj heq)

theorem names_faithful_two :
    ∃ s, ArchiveStreamer.begin storing true [smallItem, splitItem] [0x30] = some s ∧
    s.entries.Perm [⟨[0x61], [0x30, 0x2F, 0x61], 1⟩, ⟨[0x62], splitName, 700⟩] ∧
    (download storing s).wp fun _ t => ∃ files, Streamed s.entries t files ∧
      NamesFaithful files := by
  have hs : ArchiveStreamer.begin storing true [smallItem, splitItem] [0x30] = some _ := rfl
  have hperm := begin_perm hs
  have hapart : [smallItem, splitItem].Pairwise fun a b => ∀ rel, a.relative = some rel →
      b.relative ≠ some rel := by
    refine List.pairwise_pair.mpr ?_
    rintro rel ⟨⟩
    decide
  refine ⟨_, hs, twoItems_entries ▸ hperm,
    wp_mono (names_faithful_iff storing_lossless (by decide) hapart hs).2 ?_⟩
  rintro d t ⟨files, hfiles, -, hnames⟩
  refine ⟨files, hfiles, hnames.mpr fun f hf => ?_⟩
  obtain ⟨item, hitem, he⟩ := List.mem_filterMap.mp (hperm.mem_iff.mp (hfiles.entry_mem hf).1)
  exact (twoItems_representable item hitem f.entry he).1

/-! ## Two files, one name -/

def longPath (dir : UInt8) : Bytes := dir :: 0x2F :: List.replicate 120 0x62

def longItem (dir : UInt8) (hdir : dir ≠ 0) : DirItem where
  path := longPath dir
  regular := true
  relative := some (longPath dir)
  fileSize := some 1
  noNul := by
    rintro rel ⟨⟩
    simp [longPath, hdir.symm]

/-- The server takes "a/bb…b" and "c/bb…b" and stores two files; in the archive they are one name,
"b…b" of a hundred bytes. -/
theorem long_names_collide :
    (longPath 0x61).length ≤ kMaxPathLength.toNat ∧ (longPath 0x63).length ≤ kMaxPathLength.toNat ∧
    (resolveSafePath (sessionRoot servedRoot zeroId) (longPath 0x61)).isSome ∧
    (resolveSafePath (sessionRoot servedRoot zeroId) (longPath 0x63)).isSome ∧
    resolveSafePath (sessionRoot servedRoot zeroId) (longPath 0x61) ≠
      resolveSafePath (sessionRoot servedRoot zeroId) (longPath 0x63) ∧
    ∃ a b, (longItem 0x61 (by decide)).entry (sessionIdToHex zeroId) = some a ∧
      (longItem 0x63 (by decide)).entry (sessionIdToHex zeroId) = some b ∧
      (Archived.mk a [0x31]).memberName = some (List.replicate 100 0x62) ∧
      (Archived.mk b [0x31]).memberName = some (List.replicate 100 0x62) := by
  have hcut : ∀ dir : UInt8, dir = 0x61 ∨ dir = 0x63 →
      fieldsOf (sessionIdToHex zeroId ++ 0x2F :: longPath dir) = (List.replicate 100 0x62, []) := by
    rintro dir (rfl | rfl) <;> decide +kernel
  have hnul : ∀ dir : UInt8, dir = 0x61 ∨ dir = 0x63 →
      0 ∉ sessionIdToHex zeroId ++ 0x2F :: longPath dir := by
    rintro dir (rfl | rfl) <;> decide +kernel
  refine ⟨by decide, by decide, by decide +kernel, by decide +kernel, by decide +kernel, _, _,
    rfl, rfl, ?_, ?_⟩
  · rw [Archived.memberName_eq (hnul _ (.inl rfl)), hcut _ (.inl rfl)]
    rfl
  · rw [Archived.memberName_eq (hnul _ (.inr rfl)), hcut _ (.inr rfl)]
    rfl

end Dicker.Server
