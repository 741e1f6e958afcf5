import Dicker.Lib.Disk
import Dicker.Lib.LexPath
import Dicker.Lib.Thread
import Dicker.Server.Http

/-! `write_file_atomic` (server/db.cxx), call by call. Any call may fail, a write may be short, and
the system may stop between any two of them. -/

namespace Dicker.Server.AtomicWrite
open Lib Thread Host

/-- The system calls. A descriptor is known by the name it was opened with. -/
inductive SysOp where
  | openTemp (name : Bytes)
  | write (name data : Bytes)
  | fsync (name : Bytes)
  | close (name : Bytes)
  | unlink (name : Bytes)
  | rename (source target : Bytes)
  | openDir (dir : LexPath)
  | fsyncDir (dir : LexPath)
  | closeDir (dir : LexPath)

/-- A write answers how much it has written, or `none` if it failed. -/
abbrev SysOp.Ans : SysOp → Type
  | openTemp _ | fsync _ | rename _ _ | openDir _ | fsyncDir _ => Bool
  | write _ data => Option { n : ℕ // 1 ≤ n ∧ n ≤ data.length }
  | close _ | unlink _ | closeDir _ => Unit

abbrev DiskM := Thread (Disk Bytes) SysOp SysOp.Ans

def sys (op : SysOp) : DiskM op.Ans := perform op

def writeLoop (temp bytes : Bytes) (off : ℕ) : DiskM Bool :=
  if off < bytes.length then do
    match ← sys (.write temp (bytes.drop off)) with
    | none => return false
    | some n => writeLoop temp bytes (off + n)
  else return true
termination_by bytes.length - off
decreasing_by exact Nat.sub_lt_sub_left ‹_› (Nat.lt_add_of_pos_right n.2.1)

def tempPath (path : Bytes) (pid : ℕ) : Bytes := path ++ ascii ".tmp." ++ ascii (toString pid)

def parentDir (path : Bytes) : LexPath :=
  let parent := (LexPath.parse path).parentPath
  if parent.isEmpty then LexPath.parse dot else parent

def writeFileAtomic (path : Bytes) (pid : ℕ) (bytes : Bytes) : DiskM (Except String Unit) := do
  let temp := tempPath path pid
  if !(← sys (.openTemp temp)) then
    return .error "open temp failed"
  if !(← writeLoop temp bytes 0) then
    sys (.close temp)
    sys (.unlink temp)
    return .error "write temp failed"
  if !(← sys (.fsync temp)) then
    sys (.close temp)
    sys (.unlink temp)
    return .error "fsync temp failed"
  sys (.close temp)
  if !(← sys (.rename temp path)) then
    sys (.unlink temp)
    return .error "rename failed"
  if ← sys (.openDir (parentDir path)) then
    let _ ← sys (.fsyncDir (parentDir path))
    sys (.closeDir (parentDir path))
  return .ok ()

def effect : (op : SysOp) → op.Ans → Disk Bytes → Disk Bytes
  | .openTemp name, true, d => d.create name
  | .write name data, some n, d => d.append name (data.take n)
  | .fsync name, true, d => d.sync name
  | .unlink name, _, d => d.unlink name
  | .rename source target, true, d => d.rename source target
  | .fsyncDir _, true, d => d.syncDir
  | _, _, d => d

def host : Host (Disk Bytes) SysOp SysOp.Ans Unit Empty where
  allowed _ _ _ _ := True
  own := effect
  shared _ _ w := w
  fires _ _ _ := False
  takes e := e.elim
  clears e := e.elim
  handler e := e.elim
  others _ _ := False

def Reaches (path : Bytes) (pid : ℕ) (bytes : Bytes) (d₀ d : Disk Bytes) : Prop :=
  ∃ code, Relation.ReflTransGen host.Step
    ⟨some (writeFileAtomic path pid bytes >>= fun _ => .ret ()), d₀, ()⟩ ⟨code, d, ()⟩

def Returns (path : Bytes) (pid : ℕ) (bytes : Bytes) (d₀ : Disk Bytes)
    (result : Except String Unit) (d : Disk Bytes) : Prop :=
  host.Exec (writeFileAtomic path pid bytes) d₀ () result d ()

theorem tempPath_ne (path : Bytes) (pid : ℕ) : path ≠ tempPath path pid := by
  intro heq
  have hlen := congrArg List.length heq
  rw [tempPath, List.length_append, List.length_append] at hlen
  have hdot : (ascii ".tmp.").length = 5 := by decide +kernel
  omega

/-! ## What every call keeps -/

section
variable {d₀ d : Disk Bytes} {temp target bytes : Bytes} {α : Type}

def Whole (d₀ : Disk Bytes) (temp target bytes : Bytes) (d : Disk Bytes) : Prop :=
  Disk.SameBut temp d₀ d ∨ Disk.Replaced d₀ temp target bytes d

variable (d₀ temp target bytes) in
abbrev Ensures (p : DiskM α) (Q : α → Disk Bytes → Prop) (d : Disk Bytes) : Prop :=
  host.vc (fun _ _ _ _ => True) (fun d _ => Whole d₀ temp target bytes d) p Q d

theorem ensures_sys {op : SysOp} {k : op.Ans → DiskM α} {Q : α → Disk Bytes → Prop}
    (h : ∀ a, Whole d₀ temp target bytes (effect op a d) ∧
      Ensures d₀ temp target bytes (k a) Q (effect op a d)) :
    Ensures d₀ temp target bytes (sys op >>= k) Q d := fun a _ _ _ => ⟨⟨trivial, (h a).1⟩, (h a).2⟩

theorem writeLoop_ensures {off : ℕ} (hsame : Disk.SameBut temp d₀ d)
    (hentry : d.entry temp = some ⟨bytes.take off, false⟩) :
    Ensures d₀ temp target bytes (writeLoop temp bytes off)
      (fun ok d => Disk.SameBut temp d₀ d ∧
        (ok = true → d.entry temp = some ⟨bytes, false⟩)) d := by
  induction hsize : bytes.length - off using Nat.strong_induction_on generalizing off d with
  | h size ih =>
    rw [writeLoop]
    split_ifs with hoff
    · refine ensures_sys fun answer => ?_
      cases answer with
      | none => exact ⟨.inl hsame, hsame, nofun⟩
      | some n =>
        have hsame' := hsame.alter fun file => ⟨file.data ++ (bytes.drop off).take n, false⟩
        have hentry' := Disk.entry_append hentry ((bytes.drop off).take n)
        rw [← List.take_add] at hentry'
        have hn := n.2.1
        exact ⟨.inl hsame', ih _ (by omega) hsame' hentry' rfl⟩
    · refine ⟨hsame, fun _ => ?_⟩
      rwa [List.take_of_length_le (Nat.not_lt.mp hoff)] at hentry

theorem remove_ensures {Q : Except String Unit → Disk Bytes → Prop} {err : String}
    (hsame : Disk.SameBut temp d₀ d)
    (hQ : ∀ d, Disk.SameBut temp d₀ d → d.entry temp = none → Q (.error err) d) :
    Ensures d₀ temp target bytes (sys (.unlink temp) >>= fun _ => .ret (.error err)) Q d :=
  ensures_sys fun _ => ⟨.inl (hsame.enter none), hQ _ (hsame.enter none) (Disk.entry_enter ..)⟩

end

def Ended (d₀ : Disk Bytes) (temp target bytes : Bytes) : Except String Unit → Disk Bytes → Prop
  | .ok (), d => Disk.Replaced d₀ temp target bytes d
  | .error _, d => Disk.SameBut temp d₀ d ∧ (d.entry temp = none ∨ d = d₀)

theorem writeFileAtomic_ensures (path : Bytes) (pid : ℕ) (bytes : Bytes) (d₀ : Disk Bytes) :
    Ensures d₀ (tempPath path pid) path bytes (writeFileAtomic path pid bytes)
      (Ended d₀ (tempPath path pid) path bytes) d₀ := by
  have hne := tempPath_ne path pid
  unfold writeFileAtomic
  generalize tempPath path pid = temp at hne ⊢
  have hstart := Disk.SameBut.refl temp d₀
  refine ensures_sys fun opened => ?_
  cases opened with
  | false => exact ⟨.inl hstart, hstart, .inr rfl⟩
  | true =>
    have hcreated := hstart.enter (some ⟨[], false⟩)
    refine ⟨.inl hcreated, vc_bind (vc_mono (writeLoop_ensures hcreated (Disk.entry_enter ..)) ?_)⟩
    rintro (_ | _) d ⟨hsame, hwritten⟩
    · refine ensures_sys fun _ =>
        ⟨.inl hsame, remove_ensures hsame fun d hsame hgone => ⟨hsame, .inl hgone⟩⟩
    · refine ensures_sys fun synced => ?_
      cases synced with
      | false =>
        refine ⟨.inl hsame, ensures_sys fun _ => ⟨.inl hsame, ?_⟩⟩
        exact remove_ensures hsame fun d hsame hgone => ⟨hsame, .inl hgone⟩
      | true =>
        have hsame' : Disk.SameBut temp d₀ (d.sync temp) := hsame.alter _
        have hsynced := Disk.entry_sync (hwritten rfl)
        refine ⟨.inl hsame', ensures_sys fun _ => ⟨.inl hsame', ensures_sys fun renamed => ?_⟩⟩
        cases renamed with
        | false =>
          exact ⟨.inl hsame', remove_ensures hsame' fun d hsame hgone => ⟨hsame, .inl hgone⟩⟩
        | true =>
          -- from here on it is the target that the calls find, and none of them fails the function
          have hreplaced := hsame'.rename hne hsynced
          refine ⟨.inr hreplaced, ensures_sys fun opened => ?_⟩
          cases opened with
          | false => exact ⟨.inr hreplaced, hreplaced⟩
          | true =>
            refine ⟨.inr hreplaced, ensures_sys fun durable => ?_⟩
            cases durable with
            | false => exact ⟨.inr hreplaced, ensures_sys fun _ => ⟨.inr hreplaced, hreplaced⟩⟩
            | true =>
              exact ⟨.inr hreplaced.syncDir, ensures_sys fun _ =>
                ⟨.inr hreplaced.syncDir, hreplaced.syncDir⟩⟩

section
variable {path bytes : Bytes} {pid : ℕ} {d₀ d : Disk Bytes} {result : Except String Unit}

theorem Reaches.whole (h : Reaches path pid bytes d₀ d) :
    Whole d₀ (tempPath path pid) path bytes d := by
  obtain ⟨code, hsteps⟩ := h
  have hstable : ∀ d, host.Stable fun _ => Whole d₀ (tempPath path pid) path bytes d :=
    fun _ _ _ _ (hother : False) => hother.elim
  have hinit : host.Proceeds (fun _ _ _ _ => True)
      (fun d _ => Whole d₀ (tempPath path pid) path bytes d)
      (fun _ => True) ⟨some (writeFileAtomic path pid bytes >>= fun _ => .ret ()), d₀, ()⟩ := by
    refine ⟨_, fun _ _ h => h, hstable, .inl (.refl _ _), ?_⟩
    exact vc_bind (vc_mono (writeFileAtomic_ensures path pid bytes d₀) fun _ _ _ _ _ => trivial)
  have hend := hinit.reaches hstable (fun e => e.elim) hsteps
  exact hend.holds.1

theorem Returns.ended (h : Returns path pid bytes d₀ result d) :
    Ended d₀ (tempPath path pid) path bytes result d :=
  (Exec.ends h (writeFileAtomic_ensures path pid bytes d₀) (.inl (.refl _ _))).1

end

/-! ## With given answers -/

/-- What the calls answer. `write_file_atomic` makes none of them twice. -/
abbrev Syscalls := (op : SysOp) → op.Ans

def succeeding : Syscalls
  | .write _ data => if h : 1 ≤ data.length then some ⟨data.length, h, Nat.le_refl _⟩ else none
  | .openTemp _ | .fsync _ | .rename _ _ | .openDir _ | .fsyncDir _ => true
  | .close _ | .unlink _ | .closeDir _ => ()

section
variable (path bytes : Bytes) (pid : ℕ) (d : Disk Bytes)

theorem returns_answered (calls : Syscalls) : Returns path pid bytes d
    (host.answered calls (writeFileAtomic path pid bytes) d).1
    (host.answered calls (writeFileAtomic path pid bytes) d).2 :=
  exec_answered (fun _ _ _ => trivial) calls _ d

theorem writeLoop_succeeding (temp : Bytes) :
    (host.answered succeeding (writeLoop temp bytes 0) d).1 = true := by
  have hdone : ∀ off d, bytes.length ≤ off →
      host.answered succeeding (writeLoop temp bytes off) d = (true, d) := by
    intro off d hoff
    rw [writeLoop, if_neg (Nat.not_lt.mpr hoff)]
    rfl
  rcases Nat.eq_zero_or_pos bytes.length with hsize | hsize
  · rw [hdone 0 d hsize.le]
  · have hfirst : (host.answered succeeding (sys (.write temp (bytes.drop 0))) d).1 =
        some ⟨bytes.length, hsize, Nat.le_refl _⟩ := dif_pos hsize
    rw [writeLoop, if_pos hsize, answered_bind, hfirst]
    exact congrArg Prod.fst (hdone _ _ (Nat.le_add_left _ _))

theorem writeFileAtomic_succeeding :
    (host.answered succeeding (writeFileAtomic path pid bytes) d).1 = .ok () := by
  unfold writeFileAtomic
  dsimp only
  rw [answered_bind]
  change (host.answered succeeding (writeLoop (tempPath path pid) bytes 0 >>= _) _).1 = _
  rw [answered_bind, writeLoop_succeeding]
  rfl

theorem returns_ok : ∃ d', Returns path pid bytes d (.ok ()) d' := by
  have h := returns_answered path bytes pid d succeeding
  rw [writeFileAtomic_succeeding] at h
  exact ⟨_, h⟩

end

theorem exec_sys {α : Type} {op : SysOp} {k : op.Ans → DiskM α} {a : α} {d₀ d : Disk Bytes} :
    host.Exec (sys op >>= k) d₀ () a d () ↔ ∃ b, host.Exec (k b) (effect op b d₀) () a d () := by
  refine exec_call.trans ⟨?_, ?_⟩
  · rintro ⟨b, -, hk⟩
    exact ⟨b, hk⟩
  · rintro ⟨b, hk⟩
    exact ⟨b, trivial, hk⟩

/-- At every moment the target is wholly what it was or wholly the new contents, also after a crash;
and it is replaced if the function returns true and unchanged if it returns false. -/
theorem write_atomic (path : Bytes) (pid : ℕ) (bytes : Bytes) (d₀ : Disk Bytes) :
    (∀ d, Reaches path pid bytes d₀ d →
      (d.read path = d₀.read path ∨ d.read path = some bytes) ∧
      (∀ content, d.Survives path content → d₀.Survives path content ∨ content = some bytes) ∧
      ∀ other, other ≠ path → other ≠ tempPath path pid → d.read other = d₀.read other) ∧
    ∀ result d, Returns path pid bytes d₀ result d →
      (result = .ok () → d.read path = some bytes ∧ d.read (tempPath path pid) = none) ∧
      (result ≠ .ok () → d.read path = d₀.read path ∧
        (d.read (tempPath path pid) = none ∨ d = d₀)) ∧
      (d₀.read path ≠ some bytes → (result = .ok () ↔ d.read path = some bytes)) := by
  have hne := tempPath_ne path pid
  refine ⟨fun d hd => ?_, fun result d hd => ?_⟩
  · rcases hd.whole with hsame | hreplaced
    · refine ⟨.inl (hsame.read hne), fun content hc => .inl ((hsame.survives hne).mp hc),
        fun other _ hother => ?_⟩
      exact hsame.read hother
    · refine ⟨.inr hreplaced.read, fun content => hreplaced.survives, fun other hpath hother => ?_⟩
      exact congrArg (Option.map _) (hreplaced.others other hother hpath)
  · have hended := hd.ended
    cases result with
    | error err =>
      obtain ⟨hsame, htemp⟩ := hended
      have hread := hsame.read hne
      refine ⟨nofun, fun _ => ⟨hread, htemp.imp_left fun hgone => ?_⟩,
        fun hold => ⟨nofun, fun hnew => ?_⟩⟩
      · rw [Disk.read, hgone]
        rfl
      · exact absurd (hread.symm.trans hnew) hold
    | ok u =>
      have hread := Disk.Replaced.read hended
      refine ⟨fun _ => ⟨hread, ?_⟩, fun hne => absurd rfl hne,
        fun _ => ⟨fun _ => hread, fun _ => rfl⟩⟩
      rw [Disk.read, hended.gone]
      rfl

def oneFile (path data : Bytes) : Disk Bytes where
  entry name := if name = path then some ⟨data, true⟩ else none
  past _ := []

theorem write_atomic_small :
    ∃ d, Returns [0x61] 1 [2] (oneFile [0x61] [1]) (.ok ()) d ∧ d.read [0x61] = some [2] := by
  obtain ⟨d, hd⟩ := returns_ok [0x61] [2] 1 (oneFile [0x61] [1])
  exact ⟨d, hd, ((write_atomic [0x61] 1 [2] (oneFile [0x61] [1])).2 _ d hd).1 rfl |>.1⟩

/-- A file that has the new contents already has them also if the write fails. -/
theorem failed_write_same_contents :
    ∃ d, Returns [0x61] 1 [1] (oneFile [0x61] [1]) (.error "write temp failed") d ∧
    d.read [0x61] = some [1] := by
  have hreturns : ∃ d, Returns [0x61] 1 [1] (oneFile [0x61] [1])
      (.error "write temp failed") d := by
    have hloop : ∀ d, host.Exec (writeLoop (tempPath [0x61] 1) [1] 0) d () false d () := by
      intro d
      rw [writeLoop, if_pos (by decide)]
      exact exec_sys.mpr ⟨none, .ret false d ()⟩
    refine ⟨((oneFile [0x61] [1]).create (tempPath [0x61] 1)).unlink (tempPath [0x61] 1),
      exec_sys.mpr ⟨true, ?_⟩⟩
    refine (hloop _).bind (exec_sys.mpr ⟨(), exec_sys.mpr ⟨(), ?_⟩⟩)
    exact .ret _ _ ()
  obtain ⟨d, hd⟩ := hreturns
  have hsame : Disk.SameBut (tempPath [0x61] 1) (oneFile [0x61] [1]) d := hd.ended.1
  exact ⟨d, hd, hsame.read (tempPath_ne [0x61] 1)⟩

end Dicker.Server.AtomicWrite
