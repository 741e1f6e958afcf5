import Mathlib

/-! A file system that can crash. What a file holds is on the disk for sure once it has been synced;
and until the directory is synced, a crash may bring back what a name stood for before. -/

namespace Lib

structure DiskFile where
  data : List UInt8
  synced : Bool
  deriving DecidableEq

/-- `past` is what a crash may bring back in the place of an entry. -/
structure Disk (Name : Type) where
  entry : Name → Option DiskFile
  past : Name → List (Option DiskFile)

namespace Disk
variable {Name : Type}

def read (d : Disk Name) (name : Name) : Option (List UInt8) := (d.entry name).map DiskFile.data

/-- What is found of an entry after a crash: a file that was not synced may hold anything. -/
def Recovers (content : Option (List UInt8)) : Option DiskFile → Prop
  | none => content = none
  | some file => ∃ data, content = some data ∧ (file.synced = true → data = file.data)

def Survives (d : Disk Name) (name : Name) (content : Option (List UInt8)) : Prop :=
  ∃ entry ∈ d.entry name :: d.past name, Recovers content entry

theorem recovers_synced {content : Option (List UInt8)} {data : List UInt8}
    (h : Recovers content (some ⟨data, true⟩)) : content = some data := by
  obtain ⟨data', rfl, hdata⟩ := h
  rw [hdata rfl]

def syncDir (d : Disk Name) : Disk Name := { d with past := fun _ => [] }

def SameBut (name : Name) (d₀ d : Disk Name) : Prop :=
  ∀ other, other ≠ name → d.entry other = d₀.entry other ∧ d.past other = d₀.past other

section
variable {name : Name} {d₀ d : Disk Name}

theorem SameBut.refl (name : Name) (d : Disk Name) : SameBut name d d := fun _ _ => ⟨rfl, rfl⟩

theorem SameBut.survives (h : SameBut name d₀ d) {other : Name} (hother : other ≠ name)
    {content : Option (List UInt8)} :
    d.Survives other content ↔ d₀.Survives other content := by
  obtain ⟨hentry, hpast⟩ := h other hother
  rw [Survives, Survives, hentry, hpast]

theorem SameBut.read (h : SameBut name d₀ d) {other : Name} (hother : other ≠ name) :
    d.read other = d₀.read other := congrArg (Option.map _) (h other hother).1

end

structure Replaced (d₀ : Disk Name) (temp target : Name) (data : List UInt8)
    (d : Disk Name) : Prop where
  entry : d.entry target = some ⟨data, true⟩
  past : ∀ entry ∈ d.past target, entry ∈ d₀.entry target :: d₀.past target
  gone : d.entry temp = none
  others : ∀ name, name ≠ temp → name ≠ target → d.entry name = d₀.entry name

section
variable {temp target : Name} {data : List UInt8} {d₀ d : Disk Name}

theorem Replaced.syncDir (h : Replaced d₀ temp target data d) :
    Replaced d₀ temp target data d.syncDir :=
  ⟨h.entry, fun _ hmem => absurd hmem List.not_mem_nil, h.gone, h.others⟩

theorem Replaced.survives (h : Replaced d₀ temp target data d) {content : Option (List UInt8)}
    (hc : d.Survives target content) : d₀.Survives target content ∨ content = some data := by
  obtain ⟨entry, hmem, hrecovers⟩ := hc
  rcases List.mem_cons.mp hmem with rfl | hmem
  · rw [h.entry] at hrecovers
    exact .inr (recovers_synced hrecovers)
  · exact .inl ⟨entry, h.past entry hmem, hrecovers⟩

theorem Replaced.read (h : Replaced d₀ temp target data d) : d.read target = some data :=
  congrArg (Option.map _) h.entry

end

/-! ## Operations -/

section
variable [DecidableEq Name]

def enter (d : Disk Name) (name : Name) (entry : Option DiskFile) : Disk Name where
  entry := Function.update d.entry name entry
  past := Function.update d.past name (d.entry name :: d.past name)

def create (d : Disk Name) (name : Name) : Disk Name := d.enter name (some ⟨[], false⟩)

def unlink (d : Disk Name) (name : Name) : Disk Name := d.enter name none

def rename (d : Disk Name) (source target : Name) : Disk Name :=
  (d.enter target (d.entry source)).enter source none

def alter (d : Disk Name) (name : Name) (f : DiskFile → DiskFile) : Disk Name :=
  { d with entry := Function.update d.entry name ((d.entry name).map f) }

def append (d : Disk Name) (name : Name) (data : List UInt8) : Disk Name :=
  d.alter name fun file => ⟨file.data ++ data, false⟩

def sync (d : Disk Name) (name : Name) : Disk Name :=
  d.alter name fun file => { file with synced := true }

variable {name other : Name} {d₀ d : Disk Name}

theorem entry_enter (d : Disk Name) (name : Name) (entry : Option DiskFile) :
    (d.enter name entry).entry name = entry := Function.update_self ..

theorem entry_enter_of_ne (h : other ≠ name) (entry : Option DiskFile) :
    (d.enter name entry).entry other = d.entry other := Function.update_of_ne h ..

theorem past_enter (d : Disk Name) (name : Name) (entry : Option DiskFile) :
    (d.enter name entry).past name = d.entry name :: d.past name := Function.update_self ..

theorem past_enter_of_ne (h : other ≠ name) (entry : Option DiskFile) :
    (d.enter name entry).past other = d.past other := Function.update_of_ne h ..

theorem entry_alter (d : Disk Name) (name : Name) (f : DiskFile → DiskFile) :
    (d.alter name f).entry name = (d.entry name).map f := Function.update_self ..

theorem SameBut.enter (h : SameBut name d₀ d) (entry : Option DiskFile) :
    SameBut name d₀ (d.enter name entry) := by
  intro other hother
  obtain ⟨hentry, hpast⟩ := h other hother
  exact ⟨(entry_enter_of_ne hother entry).trans hentry, (past_enter_of_ne hother entry).trans hpast⟩

theorem SameBut.alter (h : SameBut name d₀ d) (f : DiskFile → DiskFile) :
    SameBut name d₀ (d.alter name f) := by
  intro other hother
  obtain ⟨hentry, hpast⟩ := h other hother
  exact ⟨(Function.update_of_ne hother ..).trans hentry, hpast⟩

theorem entry_append {file : DiskFile} (h : d.entry name = some file) (data : List UInt8) :
    (d.append name data).entry name = some ⟨file.data ++ data, false⟩ := by
  rw [append, entry_alter, h, Option.map_some]

theorem entry_sync {file : DiskFile} (h : d.entry name = some file) :
    (d.sync name).entry name = some { file with synced := true } := by
  rw [sync, entry_alter, h, Option.map_some]

theorem SameBut.rename {temp target : Name} (h : SameBut temp d₀ d) (hne : target ≠ temp)
    {data : List UInt8} (hsynced : d.entry temp = some ⟨data, true⟩) :
    Replaced d₀ temp target data (d.rename temp target) where
  entry := by rw [Disk.rename, entry_enter_of_ne hne, entry_enter, hsynced]
  past := by
    obtain ⟨hentry, hpast⟩ := h target hne
    rw [Disk.rename, past_enter_of_ne hne, past_enter, hentry, hpast]
    exact fun _ => id
  gone := entry_enter ..
  others name htemp htarget := by
    rw [Disk.rename, entry_enter_of_ne htemp, entry_enter_of_ne htarget]
    exact (h name htemp).1

end
end Disk
end Lib
