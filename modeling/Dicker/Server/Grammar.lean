import Dicker.Lib.Simulation
import Dicker.Server.Receiver

/-! The upload stream as arch.md describes it, and a reference decoder for it. The
bytes are parsed first, field by field and without side effects: headers, and the
body of a unit as a whole. The decoder then replays what was parsed against the
filter, the decoder state and the file sink. -/

namespace Dicker.Server
open Lib Program

/-! ## Fields -/

inductive Flaw where
  | truncated
  | malformed
  | unprobed
  deriving DecidableEq

def Flaw.reason : Flaw → String
  | truncated => "connection lost"
  | malformed | unprobed => "protocol error"

abbrev Grammar := StateT Bytes (Except (Flaw × Bytes))

def field (n : ℕ) : Grammar Bytes := fun xs =>
  if n ≤ xs.length then .ok (xs.take n, xs.drop n) else .error (.truncated, [])

def require (p : Prop) [Decidable p] (flaw : Flaw) : Grammar Unit := fun xs =>
  if p then .ok ((), xs) else .error (flaw, xs)

def byteField : Grammar UInt8 := do return (← field 1).getD 0 0

def PathLength (n : UInt16) : Prop := 1 ≤ n ∧ n ≤ kMaxPathLength

instance (n : UInt16) : Decidable (PathLength n) := inferInstanceAs (Decidable (_ ∧ _))

def pathField : Grammar Bytes := do
  let n := readU16Le (← field 2)
  require (PathLength n) .malformed
  field n.toNat

variable {xs rest : Bytes}

theorem field_of_le {n : ℕ} (hn : n ≤ xs.length) :
    field n xs = .ok (xs.take n, xs.drop n) := if_pos hn

theorem field_of_lt {n : ℕ} (hn : xs.length < n) :
    field n xs = .error (.truncated, []) := if_neg (Nat.not_le.mpr hn)

theorem require_pos {p : Prop} [Decidable p] (hp : p) (flaw : Flaw) (xs : Bytes) :
    require p flaw xs = .ok ((), xs) := if_pos hp

theorem require_neg {p : Prop} [Decidable p] (hp : ¬p) (flaw : Flaw) (xs : Bytes) :
    require p flaw xs = .error (flaw, xs) := if_neg hp

section
variable {α β : Type} {g : Grammar α} {f : α → Grammar β} {a : α}

theorem bind_of_ok (hg : g xs = .ok (a, rest)) : (g >>= f) xs = f a rest := by
  change (g xs).bind _ = _
  rw [hg]
  rfl

theorem bind_of_error {e : Flaw × Bytes} (hg : g xs = .error e) : (g >>= f) xs = .error e := by
  change (g xs).bind _ = _
  rw [hg]
  rfl

def Forward (g : Grammar α) : Prop :=
  ∀ xs a rest, g xs = .ok (a, rest) → rest.length ≤ xs.length

theorem forward_pure (a : α) : Forward (pure a : Grammar α) := by
  intro xs a rest hx
  cases hx
  exact le_rfl

theorem Forward.bind (hg : Forward g) (hf : ∀ a, Forward (f a)) : Forward (g >>= f) := by
  intro xs b rest hx
  rcases hgx : g xs with e | ⟨a, ys⟩
  · rw [bind_of_error hgx] at hx
    cases hx
  · rw [bind_of_ok hgx] at hx
    exact (hf a ys b rest hx).trans (hg xs a ys hgx)

end

theorem forward_field (n : ℕ) : Forward (field n) := by
  intro xs z rest hx
  rcases Nat.lt_or_ge xs.length n with hn | hn
  · rw [field_of_lt hn] at hx
    cases hx
  · rw [field_of_le hn] at hx
    cases hx
    exact List.length_drop ▸ Nat.sub_le _ _

theorem forward_require (p : Prop) [Decidable p] (flaw : Flaw) : Forward (require p flaw) := by
  intro xs u rest hx
  by_cases hp : p
  · rw [require_pos hp] at hx
    cases hx
    exact le_rfl
  · rw [require_neg hp] at hx
    cases hx

theorem byteField_cons (b : UInt8) (xs : Bytes) : byteField (b :: xs) = .ok (b, xs) := rfl

theorem byteField_nil : byteField [] = .error (.truncated, []) := rfl

theorem byteField_bind_lt {β : Type} {f : UInt8 → Grammar β} (hf : ∀ b, Forward (f b)) {b : β}
    (hx : (byteField >>= f) xs = .ok (b, rest)) : rest.length < xs.length := by
  cases xs with
  | nil =>
    rw [bind_of_error byteField_nil] at hx
    cases hx
  | cons a xs =>
    rw [bind_of_ok (byteField_cons a xs)] at hx
    exact Nat.lt_succ_of_le (hf a xs b rest hx)

theorem forward_pathField : Forward pathField :=
  (forward_field 2).bind fun _ => (forward_require _ _).bind fun _ => forward_field _

/-! ## Headers -/

inductive Announced where
  | plain (u : AcceptedUnit)
  | byKey (key : UInt64)

inductive Header where
  | endOfSession
  | probe (key : UInt64) (probe : Probe)
  | unit (a : Announced)

def hashField (hashFirst : Bool) : Grammar Bytes :=
  if hashFirst then field kProbeHashSize else pure []

def probeHeader (hashFirst : Bool) : Grammar Header := do
  let fixed ← field 11
  let kind := UnitType.ofByte (fixed.getD 8 0)
  let n := readU16Le (fixed.drop 9)
  require (kind = some .file ∨ kind = some .chunk) .malformed
  require (PathLength n) .malformed
  let path ← field n.toNat
  let sizes ← field 32
  let hash ← hashField hashFirst
  return .probe (readU64Le fixed)
    { path := path, type := if kind = some .file then .file else .chunk,
      offset := readU64Le sizes, length := readU64Le (sizes.drop 8),
      fileSize := readU64Le (sizes.drop 16), mtime := (readU64Le (sizes.drop 24)).toInt64,
      hash := hash }

def offsetField (type : UnitType) : Grammar UInt64 :=
  if type = .chunk then do return readU64Le (← field 8) else pure 0

def plainHeader (type : UnitType) : Grammar Header := do
  let path ← pathField
  return .unit (.plain ⟨type, path, ← offsetField type⟩)

def headerOf (accept hashFirst : Bool) : Option UnitType → Grammar Header
  | some .endOfSession => pure .endOfSession
  | some .file => do
    require (accept = false) .unprobed
    plainHeader .file
  | some .chunk => do
    require (accept = false) .unprobed
    plainHeader .chunk
  | some .probe => do
    require (accept = true) .malformed
    probeHeader hashFirst
  | some .accepted => do
    require (accept = true) .malformed
    return .unit (.byKey (readU64Le (← field 8)))
  | none => do
    require False .malformed
    return .endOfSession

def header (accept hashFirst : Bool) : Grammar Header := do
  headerOf accept hashFirst (UnitType.ofByte (← byteField))

theorem forward_probeHeader (hashFirst : Bool) : Forward (probeHeader hashFirst) := by
  refine (forward_field 11).bind fun _ => (forward_require _ _).bind fun _ =>
    (forward_require _ _).bind fun _ => (forward_field _).bind fun _ =>
      (forward_field 32).bind fun _ => Forward.bind ?_ fun _ => forward_pure _
  cases hashFirst
  · exact forward_pure _
  · exact forward_field _

theorem forward_offsetField (type : UnitType) : Forward (offsetField type) := by
  unfold offsetField
  split_ifs
  · exact (forward_field 8).bind fun _ => forward_pure _
  · exact forward_pure _

theorem forward_plainHeader (type : UnitType) : Forward (plainHeader type) :=
  forward_pathField.bind fun _ => (forward_offsetField type).bind fun _ => forward_pure _

theorem forward_headerOf (accept hashFirst : Bool) (t : Option UnitType) :
    Forward (headerOf accept hashFirst t) := by
  rcases t with _ | t
  · exact (forward_require _ _).bind fun _ => forward_pure _
  cases t with
  | file => exact (forward_require _ _).bind fun _ => forward_plainHeader _
  | chunk => exact (forward_require _ _).bind fun _ => forward_plainHeader _
  | probe => exact (forward_require _ _).bind fun _ => forward_probeHeader hashFirst
  | accepted =>
    exact (forward_require _ _).bind fun _ => (forward_field 8).bind fun _ => forward_pure _
  | endOfSession => exact forward_pure _

theorem header_rest_lt {accept hashFirst : Bool} {hd : Header}
    (hx : header accept hashFirst xs = .ok (hd, rest)) : rest.length < xs.length :=
  byteField_bind_lt (fun _ => forward_headerOf accept hashFirst _) hx

/-! ## Bodies -/

def block : Grammar (Option Bytes) := do
  let tag ← byteField
  if tag = BlockType.endOfUnit.toByte then
    return none
  require (tag = BlockType.data.toByte) .malformed
  let n := readU32Le (← field 4)
  require (1 ≤ n ∧ n ≤ kMaxBlockSize) .malformed
  return some (← field n.toNat)

structure Body where
  blocks : List (Bytes × Bytes)
  ending : Except (Flaw × Bytes) Bytes

theorem block_rest_lt {p : Option Bytes} (hx : block xs = .ok (p, rest)) :
    rest.length < xs.length := by
  refine byteField_bind_lt (fun b => ?_) hx
  split_ifs
  · exact forward_pure _
  · exact (forward_require _ _).bind fun _ => (forward_field 4).bind fun _ =>
      (forward_require _ _).bind fun _ => (forward_field _).bind fun _ => forward_pure _

def body (xs : Bytes) : Body :=
  match _hx : block xs with
  | .error e => ⟨[], .error e⟩
  | .ok (none, rest) => ⟨[], .ok rest⟩
  | .ok (some payload, rest) => ⟨(payload, rest) :: (body rest).blocks, (body rest).ending⟩
termination_by xs.length
decreasing_by all_goals exact block_rest_lt _hx

theorem body_of_error {e : Flaw × Bytes} (hx : block xs = .error e) : body xs = ⟨[], .error e⟩ := by
  rw [body]
  split <;> simp_all

theorem body_of_none (hx : block xs = .ok (none, rest)) : body xs = ⟨[], .ok rest⟩ := by
  rw [body]
  split <;> simp_all

theorem body_of_some {payload : Bytes} (hx : block xs = .ok (some payload, rest)) :
    body xs = ⟨(payload, rest) :: (body rest).blocks, (body rest).ending⟩ := by
  rw [body]
  split <;> simp_all

def afterUnit (integrity : Bool) (xs : Bytes) : Bytes :=
  match (body xs).ending with
  | .error _ => []
  | .ok rest => if integrity then rest.drop 8 else rest

theorem body_ending_length (xs rest : Bytes) (hx : (body xs).ending = .ok rest) :
    rest.length ≤ xs.length := by
  induction hn : xs.length using Nat.strong_induction_on generalizing xs with
  | _ n ih =>
    rcases hb : block xs with e | ⟨_ | payload, rest'⟩
    · rw [body_of_error hb] at hx
      cases hx
    · rw [body_of_none hb] at hx
      cases hx
      exact hn ▸ (block_rest_lt hb).le
    · rw [body_of_some hb] at hx
      have hlt := block_rest_lt hb
      exact (ih _ (hn ▸ hlt) rest' hx rfl).trans (hn ▸ hlt.le)

theorem afterUnit_length_le (integrity : Bool) (xs : Bytes) :
    (afterUnit integrity xs).length ≤ xs.length := by
  unfold afterUnit
  split
  · exact Nat.zero_le _
  · rename_i rest hx
    have hle := body_ending_length xs rest hx
    split_ifs
    · exact (List.length_drop ▸ Nat.sub_le _ _).trans hle
    · exact hle

/-! ## The reference decoder -/

structure Upload where
  unit : AcceptedUnit
  opened : Bool
  /-- the payloads handed to the codec -/
  payloads : List Bytes
  /-- the pieces handed to the file -/
  pieces : List Bytes
  /-- the end-of-unit block was read -/
  ended : Bool
  trailer : Option UInt64
  reason : String

namespace Upload
variable (xxh64 : Bytes → UInt64) (integrity : Bool) (u : Upload)

def compressedBytes : UInt64 := UInt64.ofNat u.payloads.flatten.length

def written : Bytes := u.pieces.flatten

def ok : Bool :=
  u.opened && u.ended && (!integrity || u.trailer == some (xxh64 u.written))

def started : Event := .started u.unit.path u.unit.type u.unit.offset

def finished : Event :=
  .finished u.unit.path u.unit.type u.unit.offset u.compressedBytes
    (UInt64.ofNat u.written.length) (u.ok xxh64 integrity) u.reason

end Upload

def storeQuery (u : AcceptedUnit) (n : ℕ) (piece : Bytes) : Query :=
  if u.type = .chunk then .writeAt (u.offset + UInt64.ofNat n) piece else .write piece

def store (u : AcceptedUnit) (pieces : List Bytes) : List Bytes → Consume (Bool × List Bytes)
  | [] => return (true, pieces)
  | piece :: more => do
    let stored ← ask (storeQuery u pieces.flatten.length piece)
    if stored then store u (pieces ++ [piece]) more else return (false, pieces ++ [piece])

section
variable (dec : StreamDecompressor) (xxh64 : Bytes → UInt64)

structure Fed where
  state : Except Bytes dec.State
  payloads : List Bytes
  pieces : List Bytes

def feed (u : AcceptedUnit) (d : dec.State) (payloads pieces : List Bytes) :
    List (Bytes × Bytes) → Consume (Fed dec)
  | [] => return ⟨.ok d, payloads, pieces⟩
  | (payload, rest) :: blocks => do
    let (stored, pieces) ← store u pieces (dec.decompress d payload).1
    match if stored then (dec.decompress d payload).2 else none with
    | none => return ⟨.error rest, payloads ++ [payload], pieces⟩
    | some d => feed u d (payloads ++ [payload]) pieces blocks

def judge (integrity : Bool) (u : AcceptedUnit) (ending : Except (Flaw × Bytes) Bytes)
    (fed : Fed dec) : Upload × Except Bytes dec.State :=
  match fed.state, ending with
  | .error rest, _ =>
    (⟨u, true, fed.payloads, fed.pieces, false, none, "decode error"⟩, .error rest)
  | .ok _, .error (flaw, rest) =>
    (⟨u, true, fed.payloads, fed.pieces, false, none, flaw.reason⟩, .error rest)
  | .ok d, .ok rest =>
    if integrity then
      match field 8 rest with
      | .error (flaw, rest) =>
        (⟨u, true, fed.payloads, fed.pieces, true, none, flaw.reason⟩, .error rest)
      | .ok (trailer, rest) =>
        if readU64Le trailer = xxh64 fed.pieces.flatten then
          (⟨u, true, fed.payloads, fed.pieces, true, some (readU64Le trailer), ""⟩, .ok d)
        else
          (⟨u, true, fed.payloads, fed.pieces, true, some (readU64Le trailer),
            "checksum mismatch"⟩, .error rest)
    else (⟨u, true, fed.payloads, fed.pieces, true, none, ""⟩, .ok d)

def conclude (integrity : Bool) (u : AcceptedUnit) (ending : Except (Flaw × Bytes) Bytes)
    (fed : Fed dec) : Consume (Upload × Except Bytes dec.State) := do
  let verdict := judge dec xxh64 integrity u ending fed
  if u.type = .file then
    tell .close
  tell (verdict.1.finished xxh64 integrity)
  return verdict

def decodeUnit (integrity : Bool) (u : AcceptedUnit) (d : dec.State) (xs : Bytes) :
    Consume (Upload × Except Bytes dec.State) := do
  let rejected : Upload := ⟨u, false, [], [], false, none, "rejected"⟩
  tell rejected.started
  let opened ← ask (if u.type = .file then .openSequential u.path else .openOffset u.path)
  if opened then
    let fed ← feed dec u d [] [] (body xs).blocks
    conclude dec xxh64 integrity u (body xs).ending fed
  else
    tell (rejected.finished xxh64 integrity)
    return (rejected, .error xs)

inductive Report where
  | skipped (probe : Probe)
  | uploaded (u : Upload)

def writesFrom (u : AcceptedUnit) : ℕ → List Bytes → List Op
  | _, [] => []
  | n, piece :: pieces => .query (storeQuery u n piece) :: writesFrom u (n + piece.length) pieces

def Report.ops (integrity : Bool) : Report → List Op
  | skipped probe => [.event (.skipped probe.path probe.type probe.offset probe.length)]
  | uploaded u =>
    .event u.started :: (writesFrom u.unit 0 u.pieces ++ [.event (u.finished xxh64 integrity)])

def Announced.resolve (accepted : UInt64 → Option AcceptedUnit) :
    Announced → Except UInt64 (AcceptedUnit × (UInt64 → Option AcceptedUnit))
  | plain u => .ok (u, accepted)
  | byKey key =>
    match accepted key with
    | none => .error key
    | some u => .ok (u, Function.update accepted key none)

/-- The reference decoder: what became of each unit, in order, and the stream that is
left when it stops, which is after the end of the session, a flaw, an unknown key, or
a unit that was not ok. -/
def decodeUpload (mode : UInt8) (integrity : Bool) (accepted : UInt64 → Option AcceptedUnit)
    (d : dec.State) (xs : Bytes) : Consume (List Report × Bytes) :=
  match _hx : header (hasMode mode .accept) (hasMode mode .hashFirst) xs with
  | .error (flaw, rest) => do
    if flaw = .unprobed then
      tell .unitWithoutProbe
    return ([], rest)
  | .ok (.endOfSession, rest) => return ([], rest)
  | .ok (.probe key probe, rest) => do
    let wanted ← ask (.filter probe)
    if wanted then
      tell (.post (ProbeDecision.accept.toByte :: writeU64Le key))
      decodeUpload mode integrity
        (Function.update accepted key (some ⟨probe.type, probe.path, probe.offset⟩)) d rest
    else
      tell (.skipped probe.path probe.type probe.offset probe.length)
      tell (.post (ProbeDecision.reject.toByte :: writeU64Le key))
      let (reports, stop) ← decodeUpload mode integrity accepted d rest
      return (.skipped probe :: reports, stop)
  | .ok (.unit a, rest) =>
    match a.resolve accepted with
    | .error key => do
      tell (.unknownKey key)
      return ([], rest)
    | .ok (u, accepted) => do
      let (upload, next) ← decodeUnit dec xxh64 integrity u d rest
      match next with
      | .error stop => return ([.uploaded upload], stop)
      | .ok d =>
        let (reports, stop) ← decodeUpload mode integrity accepted d (afterUnit integrity rest)
        return (.uploaded upload :: reports, stop)
termination_by xs.length
decreasing_by
  · exact header_rest_lt _hx
  · exact header_rest_lt _hx
  · exact (afterUnit_length_le _ _).trans_lt (header_rest_lt _hx)

end
end Dicker.Server
