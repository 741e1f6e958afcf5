import Dicker.Lib.Truncated
import Dicker.Server.ConsumerMain

/-! A stream that breaks off. Once a read has failed, `consumer_main` reports no unit as uploaded
any more, so that whatever it has reported so it would also have reported on the rest of the
stream. -/

namespace Dicker.Server
open Lib Program Machine

def ReportsOk : Entry Op Op.Ans → Prop
  | .did (.event (.finished _ _ _ _ _ ok _)) _ => ok = true
  | _ => False

abbrev GivesUp {α : Type} (gives : α → Prop) (p : Consume α) : Prop :=
  p.Quits (fun e => ¬ReportsOk e) gives

section
variable {D α : Type} {gives : α → Prop}

theorem wp_nothing {a : α} (ha : gives a) :
    (pure a : Consume α).wp fun a t => gives a ∧
      ∀ e ∈ t, ¬ReportsOk e := ⟨ha, fun _ he => absurd he List.not_mem_nil⟩

theorem consumerMain_givesUp (c : Consumer D) : GivesUp IsDone (consumerMain c) :=
  .readExact (wp_nothing trivial) fun _ => .ite (fun _ => trivial) fun _ => trivial

theorem decideProbe_givesUp (c : Consumer D) (key : UInt64) (probe : Probe) :
    GivesUp (fun _ => False) (decideProbe c key probe) :=
  fun _ => .ite (fun _ _ => trivial) fun _ _ _ => trivial

theorem handleProbe_givesUp (c : Consumer D) : GivesUp (fun o => o = none) (handleProbe c) := by
  refine .readExact (wp_nothing rfl) fun head => ?_
  dsimp only
  cases (UnitType.ofByte (head.getD 8 0)).filter fun t => t = .file ∨ t = .chunk with
  | none => exact trivial
  | some type =>
    refine .ite (fun _ => trivial) fun _ => .readExact (wp_nothing rfl) fun path => ?_
    refine .readExact (wp_nothing rfl) fun sizes => ?_
    have hdecided (probe : Probe) :
        GivesUp (fun o => o = none) (decideProbe c (readU64Le head) probe >>=
          fun c => pure (some c)) :=
      .silent_bind (decideProbe_givesUp c _ _) fun _ => trivial
    refine .ite (fun _ => ?_) fun _ => ?_
    · exact .readExact (wp_nothing rfl) fun hash => hdecided _
    · exact hdecided _

theorem openUnit_givesUp (c : Consumer D) (type : UnitType) (path : Bytes) (offset : UInt64) :
    GivesUp IsDone (openUnit c type path offset) := by
  refine fun _ => .ite (fun _ => ?_) fun _ => ?_
  all_goals
    intro valid
    cases valid with
    | true => exact trivial
    | false => exact fun _ => trivial

theorem acceptedUnit_givesUp (c : Consumer D) : GivesUp IsDone (acceptedUnit c) := by
  refine .readExact (wp_nothing trivial) fun keyBytes => ?_
  dsimp only
  cases c.accepted (readU64Le keyBytes) with
  | none => exact fun _ => trivial
  | some found => exact openUnit_givesUp _ _ _ _

theorem plainUnit_givesUp (c : Consumer D) (type : UnitType) :
    GivesUp IsDone (plainUnit c type) := by
  refine .readExact (wp_nothing trivial) fun pathLenBytes => ?_
  refine .ite (fun _ => trivial) fun _ => .readExact (wp_nothing trivial) fun path => ?_
  refine .ite (fun _ => ?_) fun _ => openUnit_givesUp _ _ _ _
  exact .readExact (wp_nothing trivial) fun offsetBytes => openUnit_givesUp _ _ _ _

theorem handleUnit_givesUp (c : Consumer D) : GivesUp IsDone (handleUnit c) := by
  refine .readExact (wp_nothing trivial) fun typeByte => ?_
  dsimp only
  cases UnitType.ofByte (typeByte.getD 0 0) with
  | none => exact trivial
  | some type =>
    cases type with
    | file => exact .ite (fun _ _ => trivial) fun _ => plainUnit_givesUp c .file
    | chunk => exact .ite (fun _ _ => trivial) fun _ => plainUnit_givesUp c .chunk
    | probe =>
      refine .ite (fun _ => trivial) fun _ =>
        .bind (handleProbe_givesUp c) (fun found hnone => ?_) fun found => ?_
      · rw [hnone]
        exact wp_nothing trivial
      · cases found with
        | none => exact trivial
        | some c' => exact trivial
    | accepted => exact .ite (fun _ => trivial) fun _ => acceptedUnit_givesUp c
    | endOfSession => exact trivial

theorem closeUnit_failed (c : Consumer D) (u : OpenUnit) (unitDone : Bool) (failure : String) :
    (closeUnit c u false unitDone failure).wp fun v t => IsDone v ∧ ∀ e ∈ t, ¬ReportsOk e := by
  have hquiet (path : Bytes) (type : UnitType) (offset wire : UInt64)
      (running : UInt64) (a : Unit) :
      ¬ReportsOk (.did (.event (.finished path type offset wire running false failure)) a) :=
        Bool.false_ne_true
  have hclose (a : Unit) : ¬ReportsOk (.did (.event .close) a) := id
  by_cases hfile : u.type = .file
  · simpa [closeUnit, hfile, IsDone] using fun a => ⟨hclose a, hquiet _ _ _ _ _ a⟩
  · simpa [closeUnit, hfile, IsDone] using hquiet _ _ _ _ _

variable (dec : StreamDecompressor) (xxh64 : Bytes → UInt64)

theorem finishUnit_failed (c : Consumer D) (u : OpenUnit) (failure : String) :
    (finishUnit xxh64 c u false false failure).wp fun v t => IsDone v ∧ ∀ e ∈ t, ¬ReportsOk e :=
  closeUnit_failed c u false failure

theorem closeUnit_givesUp (c : Consumer D) (u : OpenUnit) (unitOk unitDone : Bool)
    (failure : String) : GivesUp IsDone (closeUnit c u unitOk unitDone failure) := by
  refine .ite (fun _ => ?_) fun _ => ?_
  · intro _
    refine .ite (fun _ => ?_) fun _ => ?_ <;> exact fun _ => trivial
  · refine .ite (fun _ => ?_) fun _ => ?_ <;> exact fun _ => trivial

theorem finishUnit_givesUp (c : Consumer D) (u : OpenUnit) (unitOk unitDone : Bool)
    (failure : String) : GivesUp IsDone (finishUnit xxh64 c u unitOk unitDone failure) := by
  have htrailer : GivesUp (fun v : Bool × String => v.1 = false)
      (checkTrailer xxh64 c u unitOk unitDone failure) :=
    .ite (fun _ => .readExact (wp_nothing rfl) fun _ => .ite (fun _ => trivial) fun _ => trivial)
      fun _ => trivial
  refine .bind htrailer (fun v hv => ?_) fun v => closeUnit_givesUp c u v.1 unitDone v.2
  obtain ⟨ok, reason⟩ := v
  cases hv
  exact closeUnit_failed c u unitDone reason

theorem writeAll_givesUp (s : UnitSink) (pieces : List Bytes) :
    GivesUp (fun _ => False) (s.writeAll pieces) := by
  induction pieces generalizing s with
  | nil => exact trivial
  | cons piece pieces ih =>
    refine .silent_bind (.ite (fun _ => ?_) fun _ => ?_) fun v =>
      .ite (fun _ => ih _) fun _ => trivial
    all_goals exact fun _ => trivial

theorem handleBlock_givesUp (c : Consumer dec.State) (u : OpenUnit) :
    GivesUp IsDone (handleBlock dec xxh64 c u) := by
  refine .readExact (finishUnit_failed xxh64 c u _) fun blockType => ?_
  refine .ite (fun _ => finishUnit_givesUp ..) fun _ =>
    .ite (fun _ => finishUnit_givesUp ..) fun _ => ?_
  refine .readExact (finishUnit_failed xxh64 c u _) fun blockLenBytes => ?_
  refine .ite (fun _ => finishUnit_givesUp ..) fun _ =>
    .readExact (finishUnit_failed xxh64 c u _) fun input => ?_
  refine .silent_bind (.silent_bind (writeAll_givesUp u.sink _) fun v => trivial) fun v => ?_
  obtain ⟨d, sink⟩ := v
  cases d with
  | none => exact finishUnit_givesUp ..
  | some d => exact trivial

theorem handleRound_givesUp (st : Head dec.State) : GivesUp IsDone (handleRound dec xxh64 st) := by
  cases st with
  | unit c => exact handleUnit_givesUp c
  | block c u => exact handleBlock_givesUp dec xxh64 c u

end

theorem Backend.sequential_cut (b : Backend) (mode : UInt8) (integrityChecks : Bool)
    (xs more : Bytes) :
    CutFrom (fun e => ¬ReportsOk e) (b.sequential mode integrityChecks (xs ++ more)).trace
      (b.sequential mode integrityChecks xs).trace :=
  conclude_cut (handleRound_givesUp b.dec b.xxh64) (consumerMain_givesUp _) xs more

end Dicker.Server
