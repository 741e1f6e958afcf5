import Dicker.Server.Conformance
import Dicker.Shared.Frame

/-! What `handle_upload` does with a stream that is as it should be: how one unit is
taken in, block by block, and exactly which calls are made for it. -/

namespace Dicker.Server
open Lib Program

def Fits (payloads : List Bytes) : Prop :=
  ∀ p ∈ payloads, p ≠ [] ∧ p.length ≤ kMaxBlockSize.toNat

def decodeAll (dec : StreamDecompressor) (d : dec.State) :
    List Bytes → Option (List Bytes × dec.State)
  | [] => some ([], d)
  | p :: ps =>
    (dec.decompress d p).2.bind fun d' =>
      (decodeAll dec d' ps).map fun r => ((dec.decompress d p).1 ++ r.1, r.2)

def wrote (u : AcceptedUnit) : ℕ → List Bytes → Log
  | _, [] => []
  | n, piece :: pieces =>
    .did (.query (storeQuery u n piece)) true :: wrote u (n + piece.length) pieces

theorem wrote_append (u : AcceptedUnit) (n : ℕ) (ps qs : List Bytes) :
    wrote u n (ps ++ qs) = wrote u n ps ++ wrote u (n + ps.flatten.length) qs := by
  induction ps generalizing n with
  | nil => rfl
  | cons p ps ih =>
    simp only [List.cons_append, wrote, ih, List.flatten_cons, List.length_append, Nat.add_assoc]

theorem calls_wrote (u : AcceptedUnit) (n : ℕ) (ps : List Bytes) :
    calls (wrote u n ps) = wrote u n ps := by
  induction ps generalizing n with
  | nil => rfl
  | cons p ps ih => simp only [wrote, calls_did, ih]

def openQuery (u : AcceptedUnit) : Query :=
  if u.type = .file then .openSequential u.path else .openOffset u.path

def closing (u : AcceptedUnit) : Log :=
  if u.type = .file then [.did (.event .close) ()] else []

section
variable {σ : Type} {h : (op : Op) → σ → op.Ans × σ}

def Stores (h : (op : Op) → σ → op.Ans × σ) : Prop :=
  ∀ u n piece s, (h (.query (storeQuery u n piece)) s).1 = true

variable {u : AcceptedUnit} {integrity : Bool} {pieces payloads : List Bytes} {D : Type} {s : σ}

theorem writeAll_exec (hstore : Stores h) (more : List Bytes) {sink : UnitSink}
    (hs : Received u integrity sink pieces) (s : σ) :
    ∃ sink' s', Exec h (sink.writeAll more) s [] (true, sink') s'
        (wrote u pieces.flatten.length more) ∧
      Received u integrity sink' (pieces ++ more) := by
  induction more generalizing sink pieces s with
  | nil => exact ⟨sink, s, Exec.ret _ s, by rwa [List.append_nil]⟩
  | cons piece more ih =>
    obtain ⟨sink', s', hexec, hs'⟩ := ih (hs.next piece)
      (h (.query (storeQuery u pieces.flatten.length piece)) s).2
    refine ⟨sink', s', ?_, by rwa [List.append_assoc] at hs'⟩
    rw [UnitSink.writeAll, hs.write_eq piece, call_bind]
    refine Exec.call_eq (hstore u _ piece s) ?_
    rw [List.flatten_append, List.flatten_singleton, List.length_append] at hexec
    exact hexec

variable {dec : StreamDecompressor} (xxh64 : Bytes → UInt64)
  {c : Consumer dec.State} {d : dec.State} {o : OpenUnit} {p : Probe}

theorem readU32Le_ofNat {n : ℕ} (hn : n ≤ kMaxBlockSize.toNat) :
    (readU32Le (writeU32Le (UInt32.ofNat n))).toNat = n := by
  rw [readU32Le_self, UInt32.toNat_ofNat']
  have hmax : kMaxBlockSize.toNat < 2 ^ 32 := by decide
  exact Nat.mod_eq_of_lt (hn.trans_lt hmax)

theorem handleBlock_exec (hstore : Stores h) (ho : Tracks c o u payloads pieces) {payload : Bytes}
    (hne : payload ≠ []) (hlen : payload.length ≤ kMaxBlockSize.toNat)
    (hd : (dec.decompress c.decompressor payload).2 = some d) (s : σ) :
    ∃ o' s' t, Exec h (handleBlock dec xxh64 c o) s (dataBlock payload)
        (.again (.block { c with decompressor := d } o')) s' t ∧
      Tracks { c with decompressor := d } o' u (payloads ++ [payload])
        (pieces ++ (dec.decompress c.decompressor payload).1) ∧
      calls t = wrote u pieces.flatten.length (dec.decompress c.decompressor payload).1 := by
  obtain ⟨sink', s', hexec, hs'⟩ := writeAll_exec hstore
    (dec.decompress c.decompressor payload).1 ho.sink s
  have hread := readU32Le_ofNat hlen
  have hrange : ¬(readU32Le (writeU32Le (UInt32.ofNat payload.length)) = 0 ∨
      kMaxBlockSize < readU32Le (writeU32Le (UInt32.ofNat payload.length))) := by
    rw [← UInt32.toNat_inj, UInt32.lt_iff_toNat_lt, hread]
    have hpos := List.length_pos_iff.mpr hne
    rintro (h0 | h1)
    · simp only [UInt32.toNat_zero] at h0
      omega
    · omega
  refine ⟨{ o with
      unitWire := o.unitWire + (readU32Le (writeU32Le (UInt32.ofNat payload.length))).toUInt64
      sink := sink' }, s',
    .got [BlockType.data.toByte] :: .got (writeU32Le (UInt32.ofNat payload.length)) ::
      .got payload :: wrote u pieces.flatten.length (dec.decompress c.decompressor payload).1,
    ?_, ⟨ho.unit, hs', ?_⟩, ?_⟩
  · have hbytes : dataBlock payload = [BlockType.data.toByte] ++
        (writeU32Le (UInt32.ofNat payload.length) ++ payload) := rfl
    rw [hbytes, handleBlock, readExact_bind]
    refine Exec.read rfl ?_
    dsimp only
    rw [if_neg (by decide), if_neg (by decide), readExact_bind]
    refine Exec.read rfl ?_
    dsimp only
    rw [if_neg hrange, readExact_bind]
    refine Exec.read_last hread.symm ?_
    have hdec : Exec h (decompress dec c.decompressor payload o.sink) s [] (some d, sink') s'
        (wrote u pieces.flatten.length (dec.decompress c.decompressor payload).1) :=
      hexec.bind_ret (by simp only [if_true, hd]; rfl)
    exact hdec.bind_ret rfl
  · rw [ho.wire, List.flatten_append, List.flatten_singleton, List.length_append,
      UInt64.ofNat_add, ← UInt64.ofNat_uInt32ToNat, hread]
  · simp only [calls_got, calls_wrote]

theorem blocks_rounds (hstore : Stores h) (ho : Tracks c o u payloads pieces) {more ps : List Bytes}
    (hmore : Fits more) (hd : decodeAll dec c.decompressor more = some (ps, d)) (s : σ) :
    ∃ o' s' t, (handleUpload dec xxh64).Rounds h (.block c o) s (more.flatMap dataBlock)
        (.block { c with decompressor := d } o') s' t ∧
      Tracks { c with decompressor := d } o' u (payloads ++ more) (pieces ++ ps) ∧
      calls t = wrote u pieces.flatten.length ps := by
  induction more generalizing c o payloads pieces ps s with
  | nil =>
    cases hd
    refine ⟨o, s, [], .refl _ s, ?_, rfl⟩
    rwa [List.append_nil, List.append_nil]
  | cons payload more ih =>
    obtain ⟨d₁, hd₁, hrest⟩ := Option.bind_eq_some_iff.mp hd
    obtain ⟨⟨ps', d'⟩, hd', heq⟩ := Option.map_eq_some_iff.mp hrest
    cases heq
    obtain ⟨hne, hlen⟩ := hmore payload List.mem_cons_self
    obtain ⟨o₁, s₁, t₁, hexec, ho₁, ht₁⟩ := handleBlock_exec xxh64 hstore ho hne hlen hd₁ s
    obtain ⟨o', s', t', hrounds, ho', ht'⟩ := ih ho₁
      (fun p hp => hmore p (List.mem_cons_of_mem _ hp)) hd' s₁
    refine ⟨o', s', t₁ ++ t', .step hexec hrounds, ?_, ?_⟩
    · rwa [List.append_assoc, List.append_assoc] at ho'
    · rw [calls_append, ht₁, ht', wrote_append, List.flatten_append, List.length_append]

theorem closeUnit_exec (c : Consumer dec.State) (o : OpenUnit) (failure : String) (s : σ) :
    ∃ s', Exec h (closeUnit c o true true failure) s []
      (.again (.unit { c with
        unitsDone := c.unitsDone + 1, bytesTotal := c.bytesTotal + o.sink.running })) s'
      (closing ⟨o.type, o.path, o.baseOffset⟩ ++ [.did (.event
        (.finished o.path o.type o.baseOffset o.unitWire o.sink.running true "")) ()]) := by
  unfold closeUnit closing
  split_ifs with hb hf hf
  · cases hb
  · cases hb
  · exact ⟨_, Exec.call (Exec.call (Exec.ret _ _))⟩
  · exact ⟨_, Exec.call (Exec.ret _ _)⟩

def goodEnd (u : AcceptedUnit) (payloads pieces : List Bytes) : Log :=
  closing u ++ [.did (.event (.finished u.path u.type u.offset
    (UInt64.ofNat payloads.flatten.length) (UInt64.ofNat pieces.flatten.length) true "")) ()]

theorem calls_goodEnd (u : AcceptedUnit) (payloads pieces : List Bytes) :
    calls (goodEnd u payloads pieces) = goodEnd u payloads pieces := by
  unfold goodEnd closing
  split_ifs <;> rfl

theorem endOfUnit_exec (ho : Tracks c o u payloads pieces) (s : σ) :
    ∃ s' t, Exec h (handleBlock dec xxh64 c o) s
        ([BlockType.endOfUnit.toByte] ++ trailerBytes xxh64 c.integrityChecks pieces.flatten)
        (.again (.unit { c with
          unitsDone := c.unitsDone + 1, bytesTotal := c.bytesTotal + o.sink.running })) s' t ∧
      calls t = goodEnd u payloads pieces := by
  obtain ⟨s', hclose⟩ := closeUnit_exec (h := h) c o "connection lost" s
  have hlog : closing ⟨o.type, o.path, o.baseOffset⟩ ++ [.did (.event
      (.finished o.path o.type o.baseOffset o.unitWire o.sink.running true "")) ()] =
      goodEnd u payloads pieces := by
    rw [goodEnd, ho.wire, ho.sink.running, ho.unit]
  rw [hlog] at hclose
  by_cases hi : c.integrityChecks = true
  · refine ⟨s', .got [BlockType.endOfUnit.toByte] ::
      .got (writeU64Le (xxh64 pieces.flatten)) :: _, ?_, calls_goodEnd u payloads pieces⟩
    rw [trailerBytes, if_pos hi, handleBlock, readExact_bind]
    refine Exec.read rfl ?_
    dsimp only
    rw [if_pos (by decide), finishUnit, checkTrailer_on dec xxh64 o _ hi, read_bind]
    refine Exec.read_last (writeU64Le_length _) ?_
    dsimp only
    rw [ho.sink.checksum hi, if_pos (readU64Le_self _)]
    exact hclose
  · refine ⟨s', .got [BlockType.endOfUnit.toByte] :: _, ?_, calls_goodEnd u payloads pieces⟩
    rw [trailerBytes, if_neg hi, handleBlock, readExact_bind]
    refine Exec.read rfl ?_
    dsimp only
    rw [if_pos (by decide), finishUnit, checkTrailer_off dec xxh64 o _ hi]
    exact hclose

/-! ## Headers -/

def opening (u : AcceptedUnit) : Log :=
  [.did (.event (.started u.path u.type u.offset)) (), .did (.query (openQuery u)) true]

structure Openable (h : (op : Op) → σ → op.Ans × σ) (u : AcceptedUnit) : Prop where
  kind : u.type = .file ∨ u.type = .chunk
  opens : ∀ s, (h (.query (openQuery u)) s).1 = true

theorem openUnit_eq (c : Consumer D) (u : AcceptedUnit) :
    openUnit c u.type u.path u.offset =
      call (.event (.started u.path u.type u.offset)) fun _ =>
        call (Op.query (openQuery u)) fun valid =>
          if valid then
            .ret (.again (.block c
              { type := u.type, path := u.path, baseOffset := u.offset, unitWire := 0,
                sink := ⟨u.type = .chunk, u.offset, 0, c.integrityChecks, []⟩ }))
          else
            call (.event (.finished u.path u.type u.offset 0 0 false "rejected")) fun _ =>
              .ret (.done c) := by
  unfold openUnit openQuery
  by_cases hf : u.type = .file
  · rw [if_pos hf, if_pos hf]
    rfl
  · rw [if_neg hf, if_neg hf]
    rfl

theorem openUnit_exec (hu : Openable h u) (c : Consumer dec.State) (s : σ) :
    ∃ o s', Exec h (openUnit c u.type u.path u.offset) s [] (.again (.block c o)) s' (opening u) ∧
      Tracks c o u [] [] := by
  refine ⟨⟨u.type, u.path, u.offset, ⟨u.type = .chunk, u.offset, 0, c.integrityChecks, []⟩, 0⟩,
    (h (.query (openQuery u)) (h (.event (.started u.path u.type u.offset)) s).2).2, ?_,
    ⟨rfl, ⟨rfl, rfl, rfl, rfl, fun _ => rfl⟩, rfl⟩⟩
  rw [openUnit_eq]
  exact Exec.call (Exec.call_eq (hu.opens _) (Exec.ret _ _))

def plainBytes (u : AcceptedUnit) : Bytes :=
  u.type.toByte :: (writeU16Le (UInt16.ofNat u.path.length) ++ u.path ++
    if u.type = .chunk then writeU64Le u.offset else [])

def PathFits (path : Bytes) : Prop := 1 ≤ path.length ∧ path.length ≤ kMaxPathLength.toNat

theorem readU16Le_ofNat {path : Bytes} (hp : PathFits path) :
    (readU16Le (writeU16Le (UInt16.ofNat path.length))).toNat = path.length := by
  have hmax : kMaxPathLength.toNat < 2 ^ 16 := by decide
  rw [readU16Le_self, UInt16.toNat_ofNat']
  exact Nat.mod_eq_of_lt (hp.2.trans_lt hmax)

theorem pathLen_good {path : Bytes} (hp : PathFits path) {n : UInt16} (hn : n.toNat = path.length) :
    ¬(n = 0 ∨ kMaxPathLength < n) := by
  rw [← UInt16.toNat_inj, UInt16.lt_iff_toNat_lt, hn, UInt16.toNat_zero]
  have h1 := hp.1
  have h2 := hp.2
  omega

theorem handleUnit_plain {type : UnitType} (hkind : type = .file ∨ type = .chunk)
    (hmode : ¬hasMode c.mode .accept = true) {s' : σ} {y : Bytes}
    {v : Next (Head dec.State) (Consumer dec.State)} {t : Log}
    (hp : Exec h (plainUnit c type) s y v s' t) :
    Exec h (handleUnit c) s ([type.toByte] ++ y) v s' (.got [type.toByte] :: t) := by
  refine Exec.read rfl ?_
  rcases hkind with rfl | rfl
  · change Exec h (if hasMode c.mode .accept = true then _ else plainUnit c .file) s y v s' t
    rwa [if_neg hmode]
  · change Exec h (if hasMode c.mode .accept = true then _ else plainUnit c .chunk) s y v s' t
    rwa [if_neg hmode]

theorem plainHeader_exec (hkind : u.type = .file ∨ u.type = .chunk) (hpath : PathFits u.path)
    (hoffset : u.type = .file → u.offset = 0) (hmode : ¬hasMode c.mode .accept = true) {s' : σ}
    {v : Next (Head dec.State) (Consumer dec.State)} {t : Log}
    (hopen : Exec h (openUnit c u.type u.path u.offset) s [] v s' t) :
    ∃ t', Exec h (handleUnit c) s (plainBytes u) v s' t' ∧ calls t' = calls t := by
  have hlen := readU16Le_ofNat hpath
  have hbytes : plainBytes u = [u.type.toByte] ++ (writeU16Le (UInt16.ofNat u.path.length) ++
      (u.path ++ if u.type = .chunk then writeU64Le u.offset else [])) := by
    rw [plainBytes, List.append_assoc]
    rfl
  refine ⟨.got [u.type.toByte] :: .got (writeU16Le (UInt16.ofNat u.path.length)) ::
    .got u.path :: ((if u.type = .chunk then [.got (writeU64Le u.offset)] else []) ++ t), ?_, ?_⟩
  · rw [hbytes]
    refine handleUnit_plain hkind hmode ?_
    rw [plainUnit, readExact_bind]
    refine Exec.read rfl ?_
    dsimp only
    rw [if_neg (pathLen_good hpath hlen), readExact_bind]
    refine Exec.read hlen.symm ?_
    dsimp only
    by_cases hc : u.type = .chunk
    · rw [if_pos hc, if_pos hc, if_pos hc, readExact_bind]
      refine Exec.read_last (writeU64Le_length _) ?_
      dsimp only
      rw [readU64Le_self]
      exact hopen
    · rw [if_neg hc, if_neg hc, if_neg hc]
      have hf : u.type = .file := hkind.resolve_right hc
      rwa [hoffset hf] at hopen
  · split_ifs <;> rfl

theorem plainUnit_exec (hu : Openable h u) (hpath : PathFits u.path)
    (hoffset : u.type = .file → u.offset = 0) (hmode : ¬hasMode c.mode .accept = true) (s : σ) :
    ∃ o s' t, Exec h (handleUnit c) s (plainBytes u) (.again (.block c o)) s' t ∧
      Tracks c o u [] [] ∧ calls t = opening u := by
  obtain ⟨o, s', hopen, ho⟩ := openUnit_exec hu c s
  obtain ⟨t, hhead, ht⟩ := plainHeader_exec hu.kind hpath hoffset hmode hopen
  exact ⟨o, s', t, hhead, ho, ht⟩

theorem acceptedUnit_exec (hu : Openable h u) {key : UInt64} (hkey : c.accepted key = some u)
    (hmode : hasMode c.mode .accept = true) (s : σ) :
    ∃ o s' t, Exec h (handleUnit c) s (UnitType.accepted.toByte :: writeU64Le key)
        (.again (.block { c with accepted := Function.update c.accepted key none } o)) s' t ∧
      Tracks { c with accepted := Function.update c.accepted key none } o u [] [] ∧
      calls t = opening u := by
  obtain ⟨o, s', hopen, ho⟩ := openUnit_exec hu
    { c with accepted := Function.update c.accepted key none } s
  refine ⟨o, s', .got [UnitType.accepted.toByte] :: .got (writeU64Le key) :: opening u, ?_, ho, rfl⟩
  refine Exec.read (z := [UnitType.accepted.toByte]) (y := writeU64Le key) rfl ?_
  change Exec h (if (!hasMode c.mode .accept) = true then _ else acceptedUnit c) s _ _ s' _
  rw [hmode, if_neg (by decide), acceptedUnit, readExact_bind]
  refine Exec.read_last (writeU64Le_length _) ?_
  simp only [readU64Le_self, hkey]
  exact hopen

/-! ## Units -/

def unitLog (u : AcceptedUnit) (payloads pieces : List Bytes) : Log :=
  opening u ++ (wrote u 0 pieces ++ goodEnd u payloads pieces)

def Consumer.took {D : Type} (c : Consumer D) (d : D) (written : Bytes) : Consumer D :=
  { c with decompressor := d, unitsDone := c.unitsDone + 1,
           bytesTotal := c.bytesTotal + UInt64.ofNat written.length }

theorem unit_rounds (hstore : Stores h) {c₀ : Consumer dec.State} {s₁ : σ} {header : Bytes}
    {t₀ : Log} (hhead : Exec h (handleUnit c₀) s header (.again (.block c o)) s₁ t₀)
    (ho : Tracks c o u [] []) (ht₀ : calls t₀ = opening u) (hfits : Fits payloads)
    (hd : decodeAll dec c.decompressor payloads = some (pieces, d)) :
    ∃ s' t, (handleUpload dec xxh64).Rounds h (.unit c₀) s
        (unitBytes xxh64 c.integrityChecks header payloads pieces.flatten)
        (.unit (c.took d pieces.flatten)) s' t ∧
      calls t = unitLog u payloads pieces := by
  obtain ⟨o', s₂, t₁, hblocks, ho', ht₁⟩ := blocks_rounds xxh64 hstore ho hfits hd s₁
  obtain ⟨s', t₂, hend, ht₂⟩ := endOfUnit_exec (h := h) xxh64 ho' s₂
  rw [ho'.sink.running] at hend
  refine ⟨s', t₀ ++ (t₁ ++ t₂), .step hhead (hblocks.trans (.single hend)), ?_⟩
  rw [calls_append, calls_append, ht₀, ht₁, ht₂]
  rfl

def goodUpload (xxh64 : Bytes → UInt64) (integrity : Bool) (u : AcceptedUnit)
    (payloads pieces : List Bytes) : Upload :=
  ⟨u, true, payloads, pieces, true, if integrity then some (xxh64 pieces.flatten) else none, ""⟩

theorem goodUpload_ok (xxh64 : Bytes → UInt64) (integrity : Bool) (u : AcceptedUnit)
    (payloads pieces : List Bytes) :
    (goodUpload xxh64 integrity u payloads pieces).ok xxh64 integrity = true := by
  cases integrity
  · rfl
  · exact beq_self_eq_true _

def Upload.log (xxh64 : Bytes → UInt64) (integrity : Bool) (u : Upload) : Log :=
  opening u.unit ++ (wrote u.unit 0 u.pieces ++
    (closing u.unit ++ [.did (.event (u.finished xxh64 integrity)) ()]))

theorem log_goodUpload (xxh64 : Bytes → UInt64) (integrity : Bool) (u : AcceptedUnit)
    (payloads pieces : List Bytes) :
    (goodUpload xxh64 integrity u payloads pieces).log xxh64 integrity =
      unitLog u payloads pieces := by
  rw [Upload.log, Upload.finished, goodUpload_ok]
  rfl

theorem unitOps_wrote (u : AcceptedUnit) (n : ℕ) (pieces : List Bytes) :
    unitOps (wrote u n pieces) = writesFrom u n pieces := by
  induction pieces generalizing n with
  | nil => rfl
  | cons p pieces ih =>
    rw [wrote, writesFrom, ← ih]
    exact unitOps_storeQuery u n p true _

theorem unitOps_unitLog (xxh64 : Bytes → UInt64) (integrity : Bool) (u : AcceptedUnit)
    (payloads pieces : List Bytes) :
    unitOps (unitLog u payloads pieces) =
      Report.ops xxh64 integrity (.uploaded (goodUpload xxh64 integrity u payloads pieces)) := by
  have hquery : IsUnitOp (.query (openQuery u)) = false := by
    unfold openQuery
    split_ifs <;> rfl
  have hopen : unitOps (opening u) = [.event (.started u.path u.type u.offset)] := by
    simp only [opening, unitOps, hquery, Bool.false_eq_true, if_false]
    rfl
  have hend : unitOps (goodEnd u payloads pieces) =
      [.event ((goodUpload xxh64 integrity u payloads pieces).finished xxh64 integrity)] := by
    rw [Upload.finished, goodUpload_ok]
    unfold goodEnd closing
    split_ifs <;> rfl
  rw [unitLog, unitOps_append, unitOps_append, hopen, hend, unitOps_wrote]
  rfl

theorem endOfSession_exec (c : Consumer dec.State) (s : σ) :
    Exec h (handleUnit c) s [UnitType.endOfSession.toByte] (.done c) s
      [.got [UnitType.endOfSession.toByte]] :=
  Exec.read (z := [UnitType.endOfSession.toByte]) rfl (Exec.ret _ s)

/-! ## Probes -/

def decisionLog (key : UInt64) (p : Probe) (accepted : Bool) : Log :=
  .did (.query (.filter p)) accepted ::
    ((if accepted then [] else [.did (.event (.skipped p.path p.type p.offset p.length)) ()]) ++
      [.did (.event (.post (replyBytes key accepted))) ()])

def Consumer.decided {D : Type} (c : Consumer D) (key : UInt64) (p : Probe) (accepted : Bool) :
    Consumer D :=
  if accepted then
    { c with accepted := Function.update c.accepted key (some ⟨p.type, p.path, p.offset⟩) }
  else c

theorem decideProbe_exec (c : Consumer D) (key : UInt64) (p : Probe) (s : σ) :
    ∃ s', Exec h (decideProbe c key p) s [] (c.decided key p (h (.query (.filter p)) s).1) s'
      (decisionLog key p (h (.query (.filter p)) s).1) := by
  cases hb : (h (.query (.filter p)) s).1 with
  | true => exact ⟨_, Exec.call_eq hb (Exec.call (Exec.ret _ _))⟩
  | false => exact ⟨_, Exec.call_eq hb (Exec.call (Exec.call (Exec.ret _ _)))⟩

structure ProbeFits (hashFirst : Bool) (p : Probe) : Prop where
  kind : p.type = .file ∨ p.type = .chunk
  path : PathFits p.path
  hash : p.hash.length = if hashFirst then kProbeHashSize else 0

def probeBytes (key : UInt64) (p : Probe) : Bytes :=
  UnitType.probe.toByte :: (writeU64Le key ++ [p.type.toByte] ++
    writeU16Le (UInt16.ofNat p.path.length) ++ p.path ++ writeU64Le p.offset ++
    writeU64Le p.length ++ writeU64Le p.fileSize ++ writeU64Le p.mtime.toUInt64 ++ p.hash)

def probeFixed (key : UInt64) (p : Probe) : Bytes :=
  writeU64Le key ++ [p.type.toByte] ++ writeU16Le (UInt16.ofNat p.path.length)

def probeSizes (p : Probe) : Bytes :=
  writeU64Le p.offset ++ (writeU64Le p.length ++ (writeU64Le p.fileSize ++
    writeU64Le p.mtime.toUInt64))

theorem readProbe_eq {hash : Bytes} (hh : p.hash = hash) :
    (⟨p.path, p.type, readU64Le (probeSizes p), readU64Le ((probeSizes p).drop 8),
      readU64Le ((probeSizes p).drop 16), (readU64Le ((probeSizes p).drop 24)).toInt64,
      hash⟩ : Probe) = p := by
  have h0 : readU64Le (probeSizes p) = p.offset := readU64Le_writeU64Le _ _
  have h1 : readU64Le ((probeSizes p).drop 8) = p.length := readU64Le_writeU64Le p.length _
  have h2 : readU64Le ((probeSizes p).drop 16) = p.fileSize := readU64Le_writeU64Le p.fileSize _
  have h3 : readU64Le ((probeSizes p).drop 24) = p.mtime.toUInt64 :=
    readU64Le_writeU64Le p.mtime.toUInt64 []
  rw [h0, h1, h2, h3, ← hh]
  rfl

theorem handleProbe_exec {c : Consumer D} (hp : ProbeFits (hasMode c.mode .hashFirst) p)
    (key : UInt64) (s : σ) :
    ∃ s' t, Exec h (handleProbe c) s (probeFixed key p ++ (p.path ++ (probeSizes p ++ p.hash)))
        (some (c.decided key p (h (.query (.filter p)) s).1)) s' t ∧
      calls t = decisionLog key p (h (.query (.filter p)) s).1 := by
  obtain ⟨s', hdecide⟩ := decideProbe_exec (h := h) c key p s
  have hlen := readU16Le_ofNat hp.path
  have hkind : (UnitType.ofByte p.type.toByte).filter (fun t => t = .file ∨ t = .chunk) =
      some p.type := by
    rcases hp.kind with hk | hk <;> rw [hk] <;> rfl
  have hkey : readU64Le (probeFixed key p) = key := by
    rw [probeFixed, List.append_assoc, readU64Le_writeU64Le]
  have h8 : (probeFixed key p).getD 8 0 = p.type.toByte := rfl
  have h9 : (probeFixed key p).drop 9 = writeU16Le (UInt16.ofNat p.path.length) := rfl
  refine ⟨s', .got (probeFixed key p) :: .got p.path :: .got (probeSizes p) ::
    ((if hasMode c.mode .hashFirst then [.got p.hash] else []) ++
      decisionLog key p (h (.query (.filter p)) s).1), ?_, ?_⟩
  · rw [handleProbe, readExact_bind]
    refine Exec.read rfl ?_
    dsimp only
    rw [h8, hkind]
    dsimp only
    rw [h9, if_neg (pathLen_good hp.path hlen), readExact_bind]
    refine Exec.read hlen.symm ?_
    dsimp only
    rw [readExact_bind]
    refine Exec.read rfl ?_
    dsimp only
    by_cases hh : hasMode c.mode .hashFirst = true
    · have hhash : p.hash.length = kProbeHashSize := hp.hash.trans (if_pos hh)
      rw [if_pos hh, if_pos hh, readExact_bind]
      refine Exec.read_last hhash ?_
      dsimp only
      rw [readProbe_eq rfl, hkey]
      exact hdecide.bind_ret rfl
    · have hhash : p.hash = [] := List.eq_nil_of_length_eq_zero (hp.hash.trans (if_neg hh))
      rw [if_neg hh, if_neg hh, pure_eq, ret_bind]
      dsimp only
      rw [readProbe_eq hhash, hkey, hhash]
      exact hdecide.bind_ret rfl
  · split_ifs <;> cases (h (.query (.filter p)) s).1 <;> rfl

theorem probe_exec (hmode : hasMode c.mode .accept = true)
    (hp : ProbeFits (hasMode c.mode .hashFirst) p) (key : UInt64) (s : σ) :
    ∃ s' t, Exec h (handleUnit c) s (probeBytes key p)
        (.again (.unit (c.decided key p (h (.query (.filter p)) s).1))) s' t ∧
      calls t = decisionLog key p (h (.query (.filter p)) s).1 := by
  obtain ⟨s', t, hprobe, ht⟩ := handleProbe_exec (h := h) hp key s
  have hbytes : probeBytes key p = [UnitType.probe.toByte] ++
      (probeFixed key p ++ (p.path ++ (probeSizes p ++ p.hash))) := by
    simp only [probeBytes, probeFixed, probeSizes, List.append_assoc]
    rfl
  refine ⟨s', .got [UnitType.probe.toByte] :: t, ?_, ht⟩
  rw [hbytes]
  refine Exec.read rfl ?_
  change Exec h (if (!hasMode c.mode .accept) = true then _ else handleProbe c >>= _) s _ _ s' t
  rw [hmode, if_neg (by decide)]
  exact hprobe.bind_ret rfl

end
end Dicker.Server
