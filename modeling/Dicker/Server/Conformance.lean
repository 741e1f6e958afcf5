import Dicker.Server.Grammar

/-! `handle_upload` against the reference decoder: on every stream it makes the same
calls and stops at the same byte. -/

namespace Dicker.Server
open Lib Program

section
variable (dec : StreamDecompressor) (xxh64 : Bytes → UInt64)

/-! ## The reference decoder, header by header -/

variable {a : Announced} {key : UInt64} {sink : UnitSink} {xs : Bytes} {q : Consume Bytes}

section
variable (mode : UInt8) (integrity : Bool) (accepted : UInt64 → Option AcceptedUnit) (d : dec.State)

def proceed (after : Bytes) (v : Upload × Except Bytes dec.State) :
    Consume (List Report × Bytes) :=
  match v.2 with
  | .error stop => ret ([.uploaded v.1], stop)
  | .ok d => do
    let (reports, stop) ← decodeUpload dec xxh64 mode integrity accepted d after
    return (.uploaded v.1 :: reports, stop)

abbrev headerFor (mode : UInt8) : Grammar Header :=
  header (hasMode mode .accept) (hasMode mode .hashFirst)

variable {mode} {rest : Bytes}

theorem decodeUpload_of_error {flaw : Flaw} (hx : headerFor mode xs = .error (flaw, rest)) :
    decodeUpload dec xxh64 mode integrity accepted d xs =
      if flaw = .unprobed then call (.event .unitWithoutProbe) fun _ => ret ([], rest)
      else ret ([], rest) := by
  rw [decodeUpload]
  split <;> simp_all

theorem decodeUpload_of_endOfSession (hx : headerFor mode xs = .ok (.endOfSession, rest)) :
    decodeUpload dec xxh64 mode integrity accepted d xs = ret ([], rest) := by
  rw [decodeUpload]
  split <;> simp_all

theorem decodeUpload_of_unknown (hx : headerFor mode xs = .ok (.unit a, rest))
    (ha : a.resolve accepted = .error key) :
    decodeUpload dec xxh64 mode integrity accepted d xs =
      call (.event (.unknownKey key)) fun _ => ret ([], rest) := by
  rw [decodeUpload]
  split <;> simp_all

theorem decodeUpload_of_unit {u : AcceptedUnit} {accepted' : UInt64 → Option AcceptedUnit}
    (hx : headerFor mode xs = .ok (.unit a, rest)) (ha : a.resolve accepted = .ok (u, accepted')) :
    decodeUpload dec xxh64 mode integrity accepted d xs =
      decodeUnit dec xxh64 integrity u d rest >>=
        proceed dec xxh64 mode integrity accepted' (afterUnit integrity rest) := by
  rw [decodeUpload]
  split <;> simp_all
  rfl

theorem decodeUpload_of_probe {probe : Probe}
    (hx : headerFor mode xs = .ok (.probe key probe, rest)) :
    decodeUpload dec xxh64 mode integrity accepted d xs =
      call (.query (.filter probe)) fun wanted =>
        if wanted then
          call (.event (.post (ProbeDecision.accept.toByte :: writeU64Le key))) fun _ =>
            decodeUpload dec xxh64 mode integrity
              (Function.update accepted key (some ⟨probe.type, probe.path, probe.offset⟩)) d rest
        else
          call (.event (.skipped probe.path probe.type probe.offset probe.length)) fun _ =>
            call (.event (.post (ProbeDecision.reject.toByte :: writeU64Le key))) fun _ =>
              decodeUpload dec xxh64 mode integrity accepted d rest >>= fun r =>
                ret (.skipped probe :: r.1, r.2) := by
  rw [decodeUpload]
  split <;> simp_all

end

/-! ## The sink -/

structure Received (u : AcceptedUnit) (integrity : Bool) (sink : UnitSink)
    (pieces : List Bytes) : Prop where
  isChunk : sink.isChunk = decide (u.type = .chunk)
  baseOffset : sink.baseOffset = u.offset
  integrity_eq : sink.integrity = integrity
  running : sink.running = UInt64.ofNat pieces.flatten.length
  checksum : integrity = true → sink.checksum = pieces.flatten

variable {u : AcceptedUnit} {integrity : Bool} {β : Type}

def UnitSink.next (sink : UnitSink) (piece : Bytes) : UnitSink :=
  { sink with
    checksum := if sink.integrity then sink.checksum ++ piece else sink.checksum
    running := sink.running + UInt64.ofNat piece.length }

theorem Received.next {pieces : List Bytes} (hs : Received u integrity sink pieces)
    (piece : Bytes) :
    Received u integrity (sink.next piece) (pieces ++ [piece]) where
  isChunk := hs.isChunk
  baseOffset := hs.baseOffset
  integrity_eq := hs.integrity_eq
  running := by
    simp only [UnitSink.next, hs.running, List.flatten_append, List.length_append,
      List.flatten_singleton, UInt64.ofNat_add]
  checksum := by
    intro hi
    change (if sink.integrity then sink.checksum ++ piece else sink.checksum) = _
    rw [hs.integrity_eq, if_pos hi, hs.checksum hi, List.flatten_append, List.flatten_singleton]

theorem Received.write_eq {pieces : List Bytes} (hs : Received u integrity sink pieces)
    (piece : Bytes) :
    sink.write piece = call (Op.query (storeQuery u pieces.flatten.length piece))
      fun ok => ret (ok, sink.next piece) := by
  have hquery : storeQuery u pieces.flatten.length piece =
      if sink.isChunk then .writeAt (sink.baseOffset + sink.running) piece else .write piece := by
    simp only [storeQuery, hs.isChunk, hs.baseOffset, hs.running, decide_eq_true_eq]
  rw [hquery, UnitSink.write]
  by_cases hc : sink.isChunk = true
  · rw [if_pos hc, if_pos hc]
    rfl
  · rw [if_neg hc, if_neg hc]
    rfl

theorem UnitSink.writeAll_sim {Q : Bool × UnitSink → Bytes → Consume β → Prop}
    {k : Bool × List Bytes → Consume β} (more : List Bytes) {pieces : List Bytes}
    (hs : Received u integrity sink pieces)
    (hQ : ∀ ok sink' pieces', Received u integrity sink' pieces' →
      Q (ok, sink') xs (k (ok, pieces'))) :
    (sink.writeAll more).Sim Q xs (store u pieces more >>= k) := by
  induction more generalizing sink pieces with
  | nil => exact hQ true sink pieces hs
  | cons piece more ih =>
    rw [UnitSink.writeAll, store, hs.write_eq piece, ask_bind, call_bind, call_bind, sim_call]
    intro ok
    cases ok with
    | false => exact hQ false _ _ (hs.next piece)
    | true => exact ih (hs.next piece)

/-! ## The end of a unit -/

variable {dec} in
structure Tracks (c : Consumer dec.State) (o : OpenUnit) (u : AcceptedUnit)
    (payloads pieces : List Bytes) : Prop where
  unit : u = ⟨o.type, o.path, o.baseOffset⟩
  sink : Received u c.integrityChecks o.sink pieces
  wire : o.unitWire = UInt64.ofNat payloads.flatten.length

def resume (c : Consumer dec.State) (after : Bytes) (v : Upload × Except Bytes dec.State) :
    Consume Bytes :=
  match v.2 with
  | .error stop => ret stop
  | .ok d => decodeUpload dec xxh64 c.mode c.integrityChecks c.accepted d after >>= fun r => ret r.2

abbrev decodesOn (c : Consumer dec.State) (xs : Bytes) : Consume Bytes :=
  decodeUpload dec xxh64 c.mode c.integrityChecks c.accepted c.decompressor xs >>= fun r => ret r.2

def Follows : Head dec.State → Bytes → Consume Bytes → Prop
  | .unit c, xs, q => q = decodesOn dec xxh64 c xs
  | .block c o, xs, q => ∃ u payloads pieces, Tracks c o u payloads pieces ∧
    q = feed dec u c.decompressor payloads pieces (body xs).blocks >>= fun fed =>
      conclude dec xxh64 c.integrityChecks u (body xs).ending fed >>=
        resume dec xxh64 c (afterUnit c.integrityChecks xs)

def Meets (v : Next (Head dec.State) (Consumer dec.State)) (rest : Bytes) (q : Consume Bytes) :
    Prop :=
  match v with
  | .again st => Follows dec xxh64 st rest q
  | .done _ => ∃ stop, q = ret stop ∧ rest = stop

section
variable {c : Consumer dec.State} {o : OpenUnit} {fed : Fed dec} {after : Bytes}
  {ending : Except (Flaw × Bytes) Bytes}

variable {rest ys : Bytes}

theorem closeUnit_sim_error {v : Upload} {ok done : Bool} {reason : String} (hu : u.type = o.type)
    (hok : (!ok || !done) = true)
    (hj : judge dec xxh64 c.integrityChecks u ending fed = (v, .error rest))
    (hv : v.finished xxh64 c.integrityChecks =
      .finished o.path o.type o.baseOffset o.unitWire o.sink.running false reason) :
    (closeUnit c o ok done reason).Sim (Meets dec xxh64) rest
      (conclude dec xxh64 c.integrityChecks u ending fed >>= resume dec xxh64 c after) := by
  have hstop : Meets dec xxh64 (.done c) rest (resume dec xxh64 c after (v, .error rest)) :=
    ⟨rest, rfl, rfl⟩
  rw [closeUnit, conclude, hj, hu, hv, if_pos hok]
  by_cases hf : o.type = .file
  · simp only [hf, if_true, tell_bind, call_bind, pure_eq, ret_bind, sim_call, sim_ret]
    exact fun _ _ => hstop
  · simp only [hf, if_false, tell_bind, call_bind, pure_eq, ret_bind, sim_call, sim_ret]
    exact fun _ => hstop

theorem closeUnit_sim_ok {v : Upload} {d : dec.State} {reason : String}
    (hu : u.type = o.type) (hd : c.decompressor = d)
    (hj : judge dec xxh64 c.integrityChecks u ending fed = (v, .ok d))
    (hv : v.finished xxh64 c.integrityChecks =
      .finished o.path o.type o.baseOffset o.unitWire o.sink.running true "") :
    (closeUnit c o true true reason).Sim (Meets dec xxh64) after
      (conclude dec xxh64 c.integrityChecks u ending fed >>= resume dec xxh64 c after) := by
  have hnext : ∀ units bytes, Meets dec xxh64
      (.again (.unit { c with unitsDone := units, bytesTotal := bytes })) after
      (resume dec xxh64 c after (v, .ok d)) := by
    intro units bytes
    change _ = _
    rw [← hd]
    rfl
  rw [closeUnit, conclude, hj, hu, hv]
  by_cases hf : o.type = .file
  · simp only [hf, if_true, if_false, Bool.not_true, Bool.or_self, Bool.false_eq_true, tell_bind,
      call_bind, pure_eq, ret_bind, sim_call, sim_ret]
    exact fun _ _ => hnext _ _
  · simp only [hf, if_false, Bool.not_true, Bool.or_self, Bool.false_eq_true, tell_bind,
      call_bind, pure_eq, ret_bind, sim_call, sim_ret]
    exact fun _ => hnext _ _

variable {payloads pieces : List Bytes}

theorem finished_eq (ho : Tracks c o u payloads pieces) (ended : Bool) (trailer : Option UInt64)
    (reason : String) :
    (⟨u, true, payloads, pieces, ended, trailer, reason⟩ : Upload).finished xxh64
        c.integrityChecks =
      .finished o.path o.type o.baseOffset o.unitWire o.sink.running
        ((⟨u, true, payloads, pieces, ended, trailer, reason⟩ : Upload).ok xxh64
          c.integrityChecks) reason := by
  cases ho.unit
  simp only [Upload.finished, Upload.compressedBytes, Upload.written, ho.sink.running, ho.wire]

theorem flawed_sim (ho : Tracks c o u payloads pieces) (flaw : Flaw) (rest : Bytes) :
    (finishUnit xxh64 c o false false flaw.reason).Sim (Meets dec xxh64) rest
      (conclude dec xxh64 c.integrityChecks u (.error (flaw, rest))
        ⟨.ok c.decompressor, payloads, pieces⟩ >>= resume dec xxh64 c after) :=
  closeUnit_sim_error dec xxh64 (by rw [ho.unit]) rfl rfl
    (finished_eq dec xxh64 ho false none flaw.reason)

theorem decodeError_sim (ho : Tracks c o u payloads pieces) (rest : Bytes) :
    (finishUnit xxh64 c o false false "decode error").Sim (Meets dec xxh64) rest
      (conclude dec xxh64 c.integrityChecks u ending ⟨.error rest, payloads, pieces⟩ >>=
        resume dec xxh64 c after) :=
  closeUnit_sim_error dec xxh64 (by rw [ho.unit]) rfl rfl
    (finished_eq dec xxh64 ho false none "decode error")

section
variable (u : AcceptedUnit) (d : dec.State) (payloads pieces : List Bytes)

theorem judge_plain (hi : ¬integrity = true) (rest : Bytes) :
    judge dec xxh64 integrity u (.ok rest) ⟨.ok d, payloads, pieces⟩ =
      (⟨u, true, payloads, pieces, true, none, ""⟩, .ok d) := by
  simp only [judge, if_neg hi]

theorem judge_truncated (hi : integrity = true) (hn : rest.length < 8) :
    judge dec xxh64 integrity u (.ok rest) ⟨.ok d, payloads, pieces⟩ =
      (⟨u, true, payloads, pieces, true, none, Flaw.truncated.reason⟩, .error []) := by
  simp only [judge, if_pos hi, field_of_lt hn]

theorem judge_match (hi : integrity = true) (hn : 8 ≤ rest.length)
    (hsum : readU64Le (rest.take 8) = xxh64 pieces.flatten) :
    judge dec xxh64 integrity u (.ok rest) ⟨.ok d, payloads, pieces⟩ =
      (⟨u, true, payloads, pieces, true, some (readU64Le (rest.take 8)), ""⟩, .ok d) := by
  simp only [judge, if_pos hi, field_of_le hn, if_pos hsum]

theorem judge_mismatch (hi : integrity = true) (hn : 8 ≤ rest.length)
    (hsum : readU64Le (rest.take 8) ≠ xxh64 pieces.flatten) :
    judge dec xxh64 integrity u (.ok rest) ⟨.ok d, payloads, pieces⟩ =
      (⟨u, true, payloads, pieces, true, some (readU64Le (rest.take 8)), "checksum mismatch"⟩,
        .error (rest.drop 8)) := by
  simp only [judge, if_pos hi, field_of_le hn, if_neg hsum]

end

theorem checkTrailer_off (o : OpenUnit) (failure : String) (hi : ¬c.integrityChecks = true) :
    checkTrailer xxh64 c o true true failure = ret (true, failure) := by
  simp only [checkTrailer, Bool.and_self, Bool.true_and, if_neg hi, pure_eq]

theorem checkTrailer_on (o : OpenUnit) (failure : String) (hi : c.integrityChecks = true) :
    checkTrailer xxh64 c o true true failure = read 8 fun
      | none => ret (false, failure)
      | some z => if readU64Le z = xxh64 o.sink.checksum then ret (true, failure)
        else ret (false, "checksum mismatch") := by
  simp only [checkTrailer, Bool.and_self, Bool.true_and, if_pos hi, readExact_bind, pure_eq]
  congr 1
  funext r
  cases r with
  | none => rfl
  | some z => exact ite_not _ _ _

theorem endOfUnit_sim (ho : Tracks c o u payloads pieces) (rest : Bytes) :
    (finishUnit xxh64 c o true true "connection lost").Sim (Meets dec xxh64) rest
      (conclude dec xxh64 c.integrityChecks u (.ok rest) ⟨.ok c.decompressor, payloads, pieces⟩ >>=
        resume dec xxh64 c (if c.integrityChecks then rest.drop 8 else rest)) := by
  have htype : u.type = o.type := by rw [ho.unit]
  have hfin := finished_eq dec xxh64 ho true
  rw [finishUnit]
  by_cases hi : c.integrityChecks = true
  · have hsum := ho.sink.checksum hi
    rw [checkTrailer_on dec xxh64 o _ hi, if_pos hi, read_bind]
    rcases Nat.lt_or_ge rest.length 8 with hn | hn
    · have hj := judge_truncated dec xxh64 u c.decompressor payloads pieces hi hn
      rw [sim_read_of_lt hn]
      refine closeUnit_sim_error dec xxh64 htype rfl hj ((hfin none _).trans ?_)
      simp [Upload.ok, hi, Flaw.reason]
    · rw [sim_read_of_le hn, hsum]
      by_cases heq : readU64Le (rest.take 8) = xxh64 pieces.flatten
      · have hj := judge_match dec xxh64 u c.decompressor payloads pieces hi hn heq
        simp only [heq, if_true, ret_bind]
        refine closeUnit_sim_ok dec xxh64 htype rfl hj ((hfin _ "").trans ?_)
        simp [Upload.ok, Upload.written, heq]
      · have hj := judge_mismatch dec xxh64 u c.decompressor payloads pieces hi hn heq
        simp only [heq, if_false, ret_bind]
        refine closeUnit_sim_error dec xxh64 htype rfl hj ((hfin _ _).trans ?_)
        simp [Upload.ok, Upload.written, hi, heq]
  · have hj := judge_plain dec xxh64 u c.decompressor payloads pieces hi rest
    rw [checkTrailer_off dec xxh64 o _ hi, if_neg hi, ret_bind]
    refine closeUnit_sim_ok dec xxh64 htype rfl hj ((hfin none "").trans ?_)
    simp [Upload.ok, hi]

/-! ## One block -/

theorem block_nil : block [] = .error (.truncated, []) := rfl

theorem block_endOfUnit (ys : Bytes) :
    block (BlockType.endOfUnit.toByte :: ys) = .ok (none, ys) := rfl

theorem block_unknown {b : UInt8} (h0 : b ≠ BlockType.endOfUnit.toByte)
    (h1 : b ≠ BlockType.data.toByte) (ys : Bytes) : block (b :: ys) = .error (.malformed, ys) := by
  rw [block, bind_of_ok (byteField_cons b ys), if_neg h0]
  exact bind_of_error (require_neg h1 _ ys)

theorem block_data (ys : Bytes) :
    block (BlockType.data.toByte :: ys) = (field 4 >>= fun z =>
      require (1 ≤ readU32Le z ∧ readU32Le z ≤ kMaxBlockSize) .malformed >>= fun _ =>
        field (readU32Le z).toNat >>= fun payload => pure (some payload)) ys := by
  rw [block, bind_of_ok (byteField_cons _ ys), if_neg (by decide)]
  exact bind_of_ok (require_pos rfl _ ys)

theorem blockLen_bad_iff (n : UInt32) :
    (n = 0 ∨ kMaxBlockSize < n) ↔ ¬(1 ≤ n ∧ n ≤ kMaxBlockSize) := by
  rw [not_and_or, UInt32.not_le, UInt32.not_le, UInt32.lt_iff_toNat_lt, UInt32.lt_iff_toNat_lt,
    ← UInt32.toNat_inj]
  simp only [UInt32.reduceToNat]
  omega

theorem decompress_sim {input : Bytes} {len : UInt32} (ho : Tracks c o u payloads pieces)
    (hb : block xs = .ok (some input, rest)) (hlen : input.length = len.toNat) :
    (decompress dec c.decompressor input o.sink >>= fun r =>
      match r.1 with
      | none => finishUnit xxh64 c { o with unitWire := o.unitWire + len.toUInt64, sink := r.2 }
          false false "decode error"
      | some d => ret (.again (.block { c with decompressor := d }
          { o with unitWire := o.unitWire + len.toUInt64, sink := r.2 }))).Sim (Meets dec xxh64)
      rest (feed dec u c.decompressor payloads pieces (body xs).blocks >>= fun fed =>
        conclude dec xxh64 c.integrityChecks u (body xs).ending fed >>=
          resume dec xxh64 c (afterUnit c.integrityChecks xs)) := by
  have hafter : afterUnit c.integrityChecks xs = afterUnit c.integrityChecks rest := by
    rw [afterUnit, afterUnit, body_of_some hb]
  have hwire : o.unitWire + len.toUInt64 = UInt64.ofNat (payloads ++ [input]).flatten.length := by
    rw [ho.wire, List.flatten_append, List.length_append, List.flatten_singleton, hlen,
      UInt64.ofNat_add, UInt64.ofNat_uInt32ToNat]
  rw [hafter, body_of_some hb, feed, decompress]
  simp only [bind_bind]
  refine Sim.bind (UnitSink.writeAll_sim _ ho.sink fun ok sink pieces' hs' => ?_)
  simp only [pure_eq, ret_bind]
  cases (if ok = true then (dec.decompress c.decompressor input).2 else none) with
  | none =>
    exact decodeError_sim dec xxh64 (o := { o with unitWire := _, sink := sink })
      ⟨ho.unit, hs', hwire⟩ rest
  | some d => exact ⟨u, payloads ++ [input], pieces', ⟨ho.unit, hs', hwire⟩, rfl⟩

theorem handleBlock_sim (hq : Follows dec xxh64 (.block c o) xs q) :
    (handleBlock dec xxh64 c o).Sim (Meets dec xxh64) xs q := by
  obtain ⟨u, payloads, pieces, ho, rfl⟩ := hq
  have hflaw : ∀ flaw rest, block xs = .error (flaw, rest) →
      (finishUnit xxh64 c o false false flaw.reason).Sim (Meets dec xxh64) rest
        (feed dec u c.decompressor payloads pieces (body xs).blocks >>= fun fed =>
          conclude dec xxh64 c.integrityChecks u (body xs).ending fed >>=
            resume dec xxh64 c (afterUnit c.integrityChecks xs)) := by
    intro flaw rest hb
    rw [body_of_error hb]
    exact flawed_sim dec xxh64 ho flaw rest
  unfold handleBlock
  rw [readExact_bind]
  cases xs with
  | nil =>
    rw [sim_read_of_lt Nat.one_pos]
    exact hflaw .truncated [] block_nil
  | cons b ys =>
    rw [sim_read_of_le (by simp)]
    simp only [List.take_succ_cons, List.take_zero, List.getD_cons_zero, List.drop_succ_cons,
      List.drop_zero]
    by_cases h0 : b = BlockType.endOfUnit.toByte
    · subst h0
      rw [if_pos rfl, afterUnit, body_of_none (block_endOfUnit ys)]
      exact endOfUnit_sim dec xxh64 ho ys
    rw [if_neg h0]
    by_cases h1 : b = BlockType.data.toByte
    · subst h1
      rw [if_neg (not_not.mpr rfl), readExact_bind]
      have hdata := block_data ys
      rcases Nat.lt_or_ge ys.length 4 with h4 | h4
      · rw [sim_read_of_lt h4]
        exact hflaw .truncated [] (hdata.trans (bind_of_error (field_of_lt h4)))
      · rw [sim_read_of_le h4]
        rw [bind_of_ok (field_of_le h4)] at hdata
        dsimp only
        by_cases hlen : 1 ≤ readU32Le (ys.take 4) ∧ readU32Le (ys.take 4) ≤ kMaxBlockSize
        · rw [bind_of_ok (require_pos hlen _ _)] at hdata
          rw [if_neg ((blockLen_bad_iff _).not.mpr (not_not.mpr hlen)), readExact_bind]
          rcases Nat.lt_or_ge (ys.drop 4).length (readU32Le (ys.take 4)).toNat with hn | hn
          · rw [sim_read_of_lt hn]
            exact hflaw .truncated [] (hdata.trans (bind_of_error (field_of_lt hn)))
          · rw [sim_read_of_le hn]
            rw [bind_of_ok (field_of_le hn)] at hdata
            exact decompress_sim dec xxh64 ho hdata (List.length_take_of_le hn)
        · rw [if_pos ((blockLen_bad_iff _).mpr hlen)]
          exact hflaw .malformed _ (hdata.trans (bind_of_error (require_neg hlen _ _)))
    · rw [if_pos h1]
      exact hflaw .malformed ys (block_unknown h0 h1 ys)

/-! ## One header -/

theorem proceed_stop (accepted : UInt64 → Option AcceptedUnit)
    (v : Upload × Except Bytes dec.State) :
    (proceed dec xxh64 c.mode c.integrityChecks accepted after v >>= fun r => ret r.2) =
      resume dec xxh64 { c with accepted := accepted } after v := by
  obtain ⟨upload, stop | d⟩ := v
  · rfl
  · simp only [proceed, resume, bind_bind, pure_eq, ret_bind]

theorem openUnit_sim (type : UnitType) (path : Bytes) (offset : UInt64) (xs : Bytes) :
    (openUnit c type path offset).Sim (Meets dec xxh64) xs
      (decodeUnit dec xxh64 c.integrityChecks ⟨type, path, offset⟩ c.decompressor xs >>=
        resume dec xxh64 c (afterUnit c.integrityChecks xs)) := by
  have hfresh : Received ⟨type, path, offset⟩ c.integrityChecks
      ⟨type = .chunk, offset, 0, c.integrityChecks, []⟩ [] :=
    ⟨rfl, rfl, rfl, rfl, fun _ => rfl⟩
  have hopen : ∀ opened : Bool,
      (if opened = true then
        ret (Next.again (Head.block c ⟨type, path, offset,
          ⟨type = .chunk, offset, 0, c.integrityChecks, []⟩, 0⟩))
      else call (.event (.finished path type offset 0 0 false "rejected")) fun _ =>
        ret (Next.done c)).Sim (Meets dec xxh64) xs
      ((if opened = true then
        feed dec ⟨type, path, offset⟩ c.decompressor [] [] (body xs).blocks >>= fun fed =>
          conclude dec xxh64 c.integrityChecks ⟨type, path, offset⟩ (body xs).ending fed
      else call (.event (.finished path type offset 0 0 false "rejected")) fun _ =>
        ret (⟨⟨type, path, offset⟩, false, [], [], false, none, "rejected"⟩, .error xs)) >>=
        resume dec xxh64 c (afterUnit c.integrityChecks xs)) := by
    intro opened
    cases opened with
    | false =>
      simp only [Bool.false_eq_true, if_false, call_bind, sim_call, ret_bind, sim_ret]
      exact fun _ => ⟨xs, rfl, rfl⟩
    | true =>
      simp only [if_true, bind_bind]
      exact ⟨_, [], [], ⟨rfl, hfresh, rfl⟩, rfl⟩
  have hrejected :
      (⟨⟨type, path, offset⟩, false, [], [], false, none, "rejected"⟩ : Upload).finished
      xxh64 c.integrityChecks = .finished path type offset 0 0 false "rejected" := rfl
  rw [openUnit, decodeUnit]
  simp only [hrejected, Upload.started, tell_bind, ask_bind, call_bind, sim_call, pure_eq]
  intro _
  by_cases hf : type = .file
  · rw [if_pos hf, if_pos hf, sim_call]
    exact hopen
  · rw [if_neg hf, if_neg hf, sim_call]
    exact hopen

theorem stops_sim {flaw : Flaw} (hflaw : flaw ≠ .unprobed)
    (hx : headerFor c.mode xs = .error (flaw, rest)) :
    Meets dec xxh64 (.done c) rest (decodesOn dec xxh64 c xs) := by
  rw [decodesOn, decodeUpload_of_error dec xxh64 _ _ _ hx, if_neg hflaw]
  exact ⟨rest, rfl, rfl⟩

theorem unprobed_sim (hx : headerFor c.mode xs = .error (.unprobed, rest)) :
    (tell .unitWithoutProbe >>= fun _ => pure (.done c)).Sim (Meets dec xxh64) rest
      (decodesOn dec xxh64 c xs) := by
  rw [decodesOn, decodeUpload_of_error dec xxh64 _ _ _ hx, if_pos rfl, tell_bind,
    call_bind, sim_call]
  exact fun _ => ⟨rest, rfl, rfl⟩

theorem header_cons (accept hashFirst : Bool) (b : UInt8) (ys : Bytes) :
    header accept hashFirst (b :: ys) = headerOf accept hashFirst (UnitType.ofByte b) ys :=
  bind_of_ok (byteField_cons b ys)

theorem pathLen_bad_iff (n : UInt16) : (n = 0 ∨ kMaxPathLength < n) ↔ ¬PathLength n := by
  rw [PathLength, not_and_or, UInt16.not_le, UInt16.not_le, UInt16.lt_iff_toNat_lt,
    UInt16.lt_iff_toNat_lt, ← UInt16.toNat_inj]
  simp only [UInt16.reduceToNat]
  omega

theorem announced_sim {accepted : UInt64 → Option AcceptedUnit}
    (hx : headerFor c.mode xs = .ok (.unit a, rest))
    (ha : a.resolve c.accepted = .ok (u, accepted)) :
    (openUnit { c with accepted := accepted } u.type u.path u.offset).Sim (Meets dec xxh64) rest
      (decodesOn dec xxh64 c xs) := by
  rw [decodesOn, decodeUpload_of_unit dec xxh64 _ _ _ hx ha, bind_bind]
  simp only [proceed_stop]
  exact openUnit_sim dec xxh64 (c := { c with accepted := accepted }) u.type u.path u.offset rest

theorem plainUnit_sim {type : UnitType} (hx : headerFor c.mode xs = plainHeader type ys) :
    (plainUnit c type).Sim (Meets dec xxh64) ys (decodesOn dec xxh64 c xs) := by
  have hstop : ∀ flaw rest, flaw ≠ Flaw.unprobed → plainHeader type ys = .error (flaw, rest) →
      Meets dec xxh64 (.done c) rest _ :=
    fun _ _ hflaw he => stops_sim dec xxh64 hflaw (hx.trans he)
  rw [plainHeader] at hstop hx
  rw [plainUnit, readExact_bind]
  rcases Nat.lt_or_ge ys.length 2 with h2 | h2
  · rw [sim_read_of_lt h2]
    exact hstop .truncated [] (by decide) (bind_of_error (bind_of_error (field_of_lt h2)))
  have hpath : pathField ys = (require (PathLength (readU16Le (ys.take 2))) .malformed >>=
      fun _ => field (readU16Le (ys.take 2)).toNat) (ys.drop 2) := bind_of_ok (field_of_le h2)
  rw [sim_read_of_le h2]
  dsimp only
  by_cases hlen : PathLength (readU16Le (ys.take 2))
  · rw [if_neg ((pathLen_bad_iff _).not.mpr (not_not.mpr hlen)), readExact_bind]
    rw [bind_of_ok (require_pos hlen _ _)] at hpath
    rcases Nat.lt_or_ge (ys.drop 2).length (readU16Le (ys.take 2)).toNat with hn | hn
    · rw [sim_read_of_lt hn]
      exact hstop .truncated [] (by decide) (bind_of_error (hpath.trans (field_of_lt hn)))
    rw [sim_read_of_le hn]
    rw [field_of_le hn] at hpath
    rw [bind_of_ok hpath] at hstop hx
    by_cases hc : type = .chunk
    · rw [offsetField, if_pos hc] at hstop hx
      dsimp only
      rw [if_pos hc, readExact_bind]
      rcases Nat.lt_or_ge ((ys.drop 2).drop (readU16Le (ys.take 2)).toNat).length 8 with h8 | h8
      · rw [sim_read_of_lt h8]
        exact hstop .truncated [] (by decide) (bind_of_error (bind_of_error (field_of_lt h8)))
      · rw [sim_read_of_le h8]
        rw [bind_of_ok (bind_of_ok (field_of_le h8))] at hx
        exact announced_sim dec xxh64 hx rfl
    · rw [offsetField, if_neg hc] at hx
      dsimp only
      rw [if_neg hc]
      exact announced_sim dec xxh64 hx rfl
  · rw [if_pos ((pathLen_bad_iff _).mpr hlen)]
    rw [bind_of_error (require_neg hlen _ _)] at hpath
    exact hstop .malformed _ (by decide) (bind_of_error hpath)

theorem acceptedUnit_sim
    (hx : headerFor c.mode xs = (field 8 >>= fun z => pure (.unit (.byKey (readU64Le z)))) ys) :
    (acceptedUnit c).Sim (Meets dec xxh64) ys (decodesOn dec xxh64 c xs) := by
  rw [acceptedUnit, readExact_bind]
  rcases Nat.lt_or_ge ys.length 8 with h8 | h8
  · rw [sim_read_of_lt h8]
    exact stops_sim dec xxh64 (by decide) (hx.trans (bind_of_error (field_of_lt h8)))
  rw [bind_of_ok (field_of_le h8)] at hx
  rw [sim_read_of_le h8]
  dsimp only
  cases hkey : c.accepted (readU64Le (ys.take 8)) with
  | none =>
    rw [decodesOn, decodeUpload_of_unknown dec xxh64 _ _ _ hx (by rw [Announced.resolve, hkey])]
    simp only [tell_bind, call_bind, sim_call, pure_eq, sim_ret, ret_bind]
    exact fun _ => ⟨_, rfl, rfl⟩
  | some found => exact announced_sim dec xxh64 hx (by rw [Announced.resolve, hkey])

theorem decideProbe_sim {probe : Probe} (hx : headerFor c.mode xs = .ok (.probe key probe, rest)) :
    (decideProbe c key probe).Sim (fun c' ys q => Meets dec xxh64 (.again (.unit c')) ys q) rest
      (decodesOn dec xxh64 c xs) := by
  rw [decodesOn, decodeUpload_of_probe dec xxh64 _ _ _ hx, decideProbe, ask_bind,
    call_bind, sim_call]
  intro wanted
  cases wanted with
  | true =>
    simp only [if_true, tell_bind, call_bind, sim_call, pure_eq, sim_ret]
    exact fun _ => rfl
  | false =>
    simp only [Bool.false_eq_true, if_false, tell_bind, call_bind, sim_call, pure_eq, sim_ret,
      bind_bind, ret_bind]
    exact fun _ _ => rfl

def afterProbe (c : Consumer dec.State) :
    Option (Consumer dec.State) → Next (Head dec.State) (Consumer dec.State)
  | none => .done c
  | some c' => .again (.unit c')

theorem handleProbe_sim (hx : headerFor c.mode xs = probeHeader (hasMode c.mode .hashFirst) ys) :
    (handleProbe c).Sim (fun r => Meets dec xxh64 (afterProbe dec c r)) ys
      (decodesOn dec xxh64 c xs) := by
  have hstop : ∀ flaw rest, flaw ≠ Flaw.unprobed →
      probeHeader (hasMode c.mode .hashFirst) ys = .error (flaw, rest) →
      Meets dec xxh64 (afterProbe dec c none) rest _ :=
    fun _ _ hflaw he => stops_sim dec xxh64 hflaw (hx.trans he)
  rw [probeHeader] at hstop hx
  rw [handleProbe, readExact_bind]
  -- one read of the source is one field of the grammar: either both go on, or both stop with the
  -- same flaw
  rcases Nat.lt_or_ge ys.length 11 with h11 | h11
  · rw [sim_read_of_lt h11]
    exact hstop .truncated [] (by decide) (bind_of_error (field_of_lt h11))
  rw [bind_of_ok (field_of_le h11)] at hstop hx
  rw [sim_read_of_le h11]
  dsimp only
  generalize ys.take 11 = fixed at *
  generalize ys.drop 11 = zs at *
  generalize UnitType.ofByte (fixed.getD 8 0) = kind at *
  by_cases hkind : kind = some .file ∨ kind = some .chunk
  swap
  · have hnone : kind.filter (fun t => t = .file ∨ t = .chunk) = none := by
      rcases kind with _ | t
      · rfl
      · rw [Option.filter_some, if_neg (by simpa using hkind)]
    rw [hnone]
    exact hstop .malformed zs (by decide) (bind_of_error (require_neg hkind _ _))
  rw [bind_of_ok (require_pos hkind _ _)] at hstop hx
  obtain ⟨t, ht, htype⟩ : ∃ t, kind.filter (fun t => t = .file ∨ t = .chunk) = some t ∧
      (if kind = some .file then UnitType.file else .chunk) = t := by
    rcases hkind with rfl | rfl <;> exact ⟨_, rfl, rfl⟩
  rw [ht]
  simp only [htype] at hstop hx
  dsimp only
  by_cases hlen : PathLength (readU16Le (fixed.drop 9))
  swap
  · rw [if_pos ((pathLen_bad_iff _).mpr hlen)]
    exact hstop .malformed zs (by decide) (bind_of_error (require_neg hlen _ _))
  rw [bind_of_ok (require_pos hlen _ _)] at hstop hx
  rw [if_neg ((pathLen_bad_iff _).not.mpr (not_not.mpr hlen)), readExact_bind]
  rcases Nat.lt_or_ge zs.length (readU16Le (fixed.drop 9)).toNat with hn | hn
  · rw [sim_read_of_lt hn]
    exact hstop .truncated [] (by decide) (bind_of_error (field_of_lt hn))
  rw [bind_of_ok (field_of_le hn)] at hstop hx
  rw [sim_read_of_le hn]
  dsimp only
  generalize zs.drop (readU16Le (fixed.drop 9)).toNat = ws at *
  rw [readExact_bind]
  rcases Nat.lt_or_ge ws.length 32 with h32 | h32
  · rw [sim_read_of_lt h32]
    exact hstop .truncated [] (by decide) (bind_of_error (field_of_lt h32))
  rw [bind_of_ok (field_of_le h32)] at hstop hx
  rw [sim_read_of_le h32]
  dsimp only
  by_cases hh : hasMode c.mode .hashFirst = true
  · simp only [hashField, if_pos hh] at hstop hx
    rw [if_pos hh, readExact_bind]
    rcases Nat.lt_or_ge (ws.drop 32).length kProbeHashSize with hn | hn
    · rw [sim_read_of_lt hn]
      exact hstop .truncated [] (by decide) (bind_of_error (field_of_lt hn))
    rw [bind_of_ok (field_of_le hn)] at hx
    rw [sim_read_of_le hn]
    exact Sim.bind (decideProbe_sim dec xxh64 hx)
  · simp only [hashField, if_neg hh] at hx
    rw [if_neg hh, pure_eq, ret_bind]
    exact Sim.bind (decideProbe_sim dec xxh64 hx)

theorem handleUnit_sim (hq : Follows dec xxh64 (.unit c) xs q) :
    (handleUnit c).Sim (Meets dec xxh64) xs q := by
  subst hq
  rw [handleUnit, readExact_bind]
  cases xs with
  | nil =>
    rw [sim_read_of_lt Nat.one_pos]
    exact stops_sim dec xxh64 (show Flaw.truncated ≠ .unprobed by decide) rfl
  | cons b ys =>
    have hx := header_cons (hasMode c.mode .accept) (hasMode c.mode .hashFirst) b ys
    have hbad : Flaw.malformed ≠ .unprobed := by decide
    rw [sim_read_of_le (by simp)]
    simp only [List.take_succ_cons, List.take_zero, List.getD_cons_zero, List.drop_succ_cons,
      List.drop_zero]
    generalize UnitType.ofByte b = tag at *
    rcases tag with _ | t
    · exact stops_sim dec xxh64 hbad (hx.trans (bind_of_error (require_neg id _ _)))
    by_cases hm : hasMode c.mode .accept = true
    · have hm' : ¬hasMode c.mode .accept = false := by simp [hm]
      cases t with
      | endOfSession =>
        rw [decodesOn, decodeUpload_of_endOfSession dec xxh64 _ _ _ hx]
        exact ⟨ys, rfl, rfl⟩
      | file =>
        dsimp only
        rw [if_pos hm]
        exact unprobed_sim dec xxh64 (hx.trans (bind_of_error (require_neg hm' _ _)))
      | chunk =>
        dsimp only
        rw [if_pos hm]
        exact unprobed_sim dec xxh64 (hx.trans (bind_of_error (require_neg hm' _ _)))
      | probe =>
        simp only [hm, Bool.not_true, Bool.false_eq_true, if_false]
        refine Sim.bind ((handleProbe_sim dec xxh64
          (hx.trans (bind_of_ok (require_pos hm _ _)))).mono fun r zs q hq => ?_)
        cases r <;> exact hq
      | accepted =>
        simp only [hm, Bool.not_true, Bool.false_eq_true, if_false]
        exact acceptedUnit_sim dec xxh64 (hx.trans (bind_of_ok (require_pos hm _ _)))
    · have hm' : hasMode c.mode .accept = false := by simpa using hm
      cases t with
      | endOfSession =>
        rw [decodesOn, decodeUpload_of_endOfSession dec xxh64 _ _ _ hx]
        exact ⟨ys, rfl, rfl⟩
      | file =>
        dsimp only
        rw [if_neg hm]
        exact plainUnit_sim dec xxh64 (hx.trans (bind_of_ok (require_pos hm' _ _)))
      | chunk =>
        dsimp only
        rw [if_neg hm]
        exact plainUnit_sim dec xxh64 (hx.trans (bind_of_ok (require_pos hm' _ _)))
      | probe =>
        simp only [hm', Bool.not_false, if_true]
        exact stops_sim dec xxh64 hbad (hx.trans (bind_of_error (require_neg hm _ _)))
      | accepted =>
        simp only [hm', Bool.not_false, if_true]
        exact stops_sim dec xxh64 hbad (hx.trans (bind_of_error (require_neg hm _ _)))

end

/-! ## What the reference decoder reports -/

def IsUnitOp : Op → Bool
  | .event (.started ..) | .event (.finished ..) | .event (.skipped ..) => true
  | .query (.write _) | .query (.writeAt ..) => true
  | _ => false

def unitOps : Log → List Op
  | [] => []
  | .got _ :: t => unitOps t
  | .did op _ :: t => if IsUnitOp op then op :: unitOps t else unitOps t

theorem unitOps_append (t e : Log) : unitOps (t ++ e) = unitOps t ++ unitOps e := by
  induction t with
  | nil => rfl
  | cons x t ih =>
    cases x with
    | got z => exact ih
    | did op a =>
      simp only [List.cons_append, unitOps, ih]
      split_ifs <;> rfl

theorem unitOps_calls (t : Log) : unitOps (calls t) = unitOps t := by
  induction t with
  | nil => rfl
  | cons x t ih =>
    cases x with
    | got z => exact ih
    | did op a => simp only [calls, unitOps, ih]

theorem unitOps_storeQuery (u : AcceptedUnit) (n : ℕ) (piece : Bytes)
    (a : (Op.query (storeQuery u n piece)).Ans) (t : Log) :
    unitOps (.did (.query (storeQuery u n piece)) a :: t) =
      .query (storeQuery u n piece) :: unitOps t := by
  have hop : IsUnitOp (.query (storeQuery u n piece)) = true := by
    unfold storeQuery
    split_ifs <;> rfl
  exact if_pos hop

theorem writesFrom_append (u : AcceptedUnit) (n : ℕ) (ps qs : List Bytes) :
    writesFrom u n (ps ++ qs) = writesFrom u n ps ++ writesFrom u (n + ps.flatten.length) qs := by
  induction ps generalizing n with
  | nil => rfl
  | cons p ps ih =>
    simp only [List.cons_append, writesFrom, ih, List.flatten_cons, List.length_append,
      Nat.add_assoc]

def Wrote (u : AcceptedUnit) (pieces pieces' : List Bytes) (t : Log) : Prop :=
  ∃ more, pieces' = pieces ++ more ∧ unitOps t = writesFrom u pieces.flatten.length more

theorem Wrote.trans {u : AcceptedUnit} {p p' p'' : List Bytes} {t e : Log}
    (h : Wrote u p p' t) (h' : Wrote u p' p'' e) : Wrote u p p'' (t ++ e) := by
  obtain ⟨m, rfl, ht⟩ := h
  obtain ⟨m', rfl, he⟩ := h'
  refine ⟨m ++ m', List.append_assoc .., ?_⟩
  rw [unitOps_append, ht, he, writesFrom_append, List.flatten_append, List.length_append]

theorem store_wrote (u : AcceptedUnit) (pieces more : List Bytes) :
    (store u pieces more).wp fun v t => Wrote u pieces v.2 t := by
  induction more generalizing pieces with
  | nil => exact ⟨[], (List.append_nil _).symm, rfl⟩
  | cons piece more ih =>
    rw [store, ask_bind, wp_call]
    intro stored
    have hone : ∀ a, Wrote u pieces (pieces ++ [piece])
        [.did (.query (storeQuery u pieces.flatten.length piece)) a] :=
      fun a => ⟨[piece], rfl, unitOps_storeQuery u _ piece a []⟩
    cases stored with
    | false => exact hone false
    | true => exact wp_mono (ih _) fun v t hv => (hone true).trans hv

theorem feed_wrote (u : AcceptedUnit) (d : dec.State) (payloads pieces : List Bytes)
    (blocks : List (Bytes × Bytes)) :
    (feed dec u d payloads pieces blocks).wp fun v t => Wrote u pieces v.pieces t := by
  induction blocks generalizing d payloads pieces with
  | nil => exact ⟨[], (List.append_nil _).symm, rfl⟩
  | cons b blocks ih =>
    obtain ⟨payload, rest⟩ := b
    rw [feed]
    refine wp_bind (wp_mono (store_wrote u pieces _) fun v t hv => ?_)
    obtain ⟨stored, pieces'⟩ := v
    dsimp only
    cases (if stored = true then (dec.decompress d payload).2 else none) with
    | none => exact hv.trans ⟨[], (List.append_nil _).symm, rfl⟩
    | some d => exact wp_mono (ih d _ pieces') fun w e he => hv.trans he

theorem judge_unit (integrity : Bool) (u : AcceptedUnit) (ending : Except (Flaw × Bytes) Bytes)
    (fed : Fed dec) : (judge dec xxh64 integrity u ending fed).1.unit = u ∧
      (judge dec xxh64 integrity u ending fed).1.pieces = fed.pieces := by
  unfold judge
  split
  · exact ⟨rfl, rfl⟩
  · exact ⟨rfl, rfl⟩
  · split_ifs
    · split
      · exact ⟨rfl, rfl⟩
      · split_ifs <;> exact ⟨rfl, rfl⟩
    · exact ⟨rfl, rfl⟩

theorem conclude_reported (integrity : Bool) (u : AcceptedUnit)
    (ending : Except (Flaw × Bytes) Bytes) (fed : Fed dec) :
    (conclude dec xxh64 integrity u ending fed).wp fun v t =>
      v.1.unit = u ∧ v.1.pieces = fed.pieces ∧
        unitOps t = [.event (v.1.finished xxh64 integrity)] := by
  obtain ⟨hunit, hpieces⟩ := judge_unit dec xxh64 integrity u ending fed
  unfold conclude
  split_ifs
  · exact fun _ _ => ⟨hunit, hpieces, rfl⟩
  · exact fun _ => ⟨hunit, hpieces, rfl⟩

theorem decodeUnit_reported (integrity : Bool) (u : AcceptedUnit) (d : dec.State) (xs : Bytes) :
    (decodeUnit dec xxh64 integrity u d xs).wp fun v t =>
      unitOps t = (Report.uploaded v.1).ops xxh64 integrity := by
  have hquery : IsUnitOp (.query (if u.type = .file then .openSequential u.path
      else .openOffset u.path)) = false := by
    split_ifs <;> rfl
  have hopen : ∀ (a : Unit) (b : Bool) (t : Log),
      unitOps (.did (.event (.started u.path u.type u.offset)) a ::
        .did (.query (if u.type = .file then .openSequential u.path else .openOffset u.path))
          b :: t) =
      .event (.started u.path u.type u.offset) :: unitOps t := by
    intro a b t
    refine congrArg (List.cons _) ?_
    rw [unitOps, if_neg (by rw [hquery]; decide)]
  unfold decodeUnit
  simp only [tell_bind, ask_bind, wp_call]
  intro a opened
  cases opened with
  | false => exact fun _ => hopen _ _ _
  | true =>
    refine wp_bind (wp_mono (feed_wrote dec u d [] [] (body xs).blocks) fun fed t ht => ?_)
    refine wp_mono (conclude_reported dec xxh64 integrity u _ fed) fun v e hv => ?_
    obtain ⟨hunit, hpieces, he⟩ := hv
    obtain ⟨more, hmore, ht⟩ := ht
    rw [List.nil_append] at hmore
    refine (hopen _ _ _).trans ?_
    rw [unitOps_append, ht, he, Report.ops, Upload.started, hunit, hpieces, hmore]
    rfl

theorem decodeUpload_reported (mode : UInt8) (integrity : Bool)
    (accepted : UInt64 → Option AcceptedUnit) (d : dec.State) (xs : Bytes) :
    (decodeUpload dec xxh64 mode integrity accepted d xs).wp fun v t =>
      unitOps t = v.1.flatMap (Report.ops xxh64 integrity) := by
  induction hn : xs.length using Nat.strong_induction_on generalizing accepted d xs with
  | _ n ih =>
    subst hn
    rcases hx : headerFor mode xs with ⟨flaw, rest⟩ | ⟨hd, rest⟩
    · rw [decodeUpload_of_error dec xxh64 _ _ _ hx]
      split_ifs
      · exact fun _ => rfl
      · exact rfl
    have hlt := header_rest_lt hx
    cases hd with
    | endOfSession =>
      rw [decodeUpload_of_endOfSession dec xxh64 _ _ _ hx]
      exact rfl
    | probe key probe =>
      rw [decodeUpload_of_probe dec xxh64 _ _ _ hx]
      intro wanted
      cases wanted with
      | true => exact fun _ => wp_mono (ih _ hlt _ d rest rfl) fun v t hv => hv
      | false =>
        intro _ _
        refine wp_bind (wp_mono (ih _ hlt accepted d rest rfl) fun v t hv => ?_)
        rw [wp_ret, List.append_nil]
        exact congrArg (List.cons _) hv
    | unit a =>
      rcases ha : a.resolve accepted with key | ⟨u, accepted'⟩
      · rw [decodeUpload_of_unknown dec xxh64 _ _ _ hx ha]
        exact fun _ => rfl
      · rw [decodeUpload_of_unit dec xxh64 _ _ _ hx ha]
        refine wp_bind (wp_mono (decodeUnit_reported dec xxh64 integrity u d rest) fun v t hv => ?_)
        obtain ⟨upload, stop | d'⟩ := v
        · exact (congrArg unitOps (List.append_nil t)).trans (hv.trans (List.append_nil _).symm)
        · have hle := afterUnit_length_le integrity rest
          refine wp_bind (wp_mono (ih _ (hle.trans_lt hlt) accepted' d' _ rfl) fun w e hw => ?_)
          obtain ⟨reports, stop⟩ := w
          dsimp only
          rw [pure_eq, wp_ret, List.append_nil, unitOps_append, hv, hw]
          rfl

/-! ## The whole stream -/

inductive Alternating : List Op → Prop
  | nil : Alternating []
  | skipped {path : Bytes} {type : UnitType} {offset length : UInt64} {t : List Op} :
      Alternating t → Alternating (.event (.skipped path type offset length) :: t)
  | unit {path : Bytes} {type : UnitType} {offset compressedBytes bytes : UInt64} {ok : Bool}
      {reason : String} {writes t : List Op} (hw : ∀ op ∈ writes, ∃ q, op = .query q) :
      Alternating t → Alternating (.event (.started path type offset) :: (writes ++
        .event (.finished path type offset compressedBytes bytes ok reason) :: t))

theorem writesFrom_query (u : AcceptedUnit) (n : ℕ) (pieces : List Bytes) :
    ∀ op ∈ writesFrom u n pieces, ∃ q, op = .query q := by
  induction pieces generalizing n with
  | nil => simp [writesFrom]
  | cons p pieces ih =>
    intro op hop
    rcases List.mem_cons.mp hop with rfl | hop
    · exact ⟨_, rfl⟩
    · exact ih _ op hop

theorem alternating_reports (integrity : Bool) (reports : List Report) :
    Alternating (reports.flatMap (Report.ops xxh64 integrity)) := by
  induction reports with
  | nil => exact .nil
  | cons r reports ih =>
    cases r with
    | skipped probe => exact .skipped ih
    | uploaded u =>
      rw [List.flatMap_cons, Report.ops, List.cons_append, List.append_assoc]
      exact .unit (writesFrom_query u.unit 0 u.pieces) ih

theorem handleRound_sim {st : Head dec.State} (hq : Follows dec xxh64 st xs q) :
    (handleRound dec xxh64 st).Sim (Meets dec xxh64) xs q := by
  cases st with
  | unit c => exact handleUnit_sim dec xxh64 hq
  | block c o => exact handleBlock_sim dec xxh64 hq

/-- On every stream `handle_upload` ends, having made the calls of the reference
decoder, reported the units it reports, and stopped where it stops. -/
theorem handleUpload_decodes {σ : Type} (h : (op : Op) → σ → op.Ans × σ) (mode : UInt8)
    (integrity : Bool) (d : dec.State) (s : σ) (stream : Bytes) :
    let o := (handleUpload dec xxh64).eval h (.unit (Consumer.start mode integrity d)) s stream
    let r := (decodeUpload dec xxh64 mode integrity (fun _ => none) d stream).run h s []
    unitOps o.trace = r.val.1.flatMap (Report.ops xxh64 integrity) ∧
    Alternating (unitOps o.trace) ∧
    calls o.trace = r.trace ∧ o.env = r.env ∧ o.rest = r.val.2 ∧
    ∀ n, stream.length < n → (handleUpload dec xxh64).loop h n
      (.unit (Consumer.start mode integrity d)) s stream = some o := by
  intro o r
  have hstart : Follows dec xxh64 (.unit (Consumer.start mode integrity d)) stream
      (decodeUpload dec xxh64 mode integrity (fun _ => none) d stream >>= fun r => ret r.2) := rfl
  obtain ⟨hrest, henv, hcalls⟩ := Machine.eval_sim (handleUpload dec xxh64)
    (P := fun _ rest stop => rest = stop)
    (fun st xs q hq => (handleRound_sim dec xxh64 hq).mono fun v ys q hv => by
      cases v <;> exact hv) h hstart s
  have hrun : ∀ q : Consume (List Report × Bytes), (q >>= fun r => ret r.2).run h s [] =
      ⟨(q.run h s []).val.2, (q.run h s []).env, (q.run h s []).rest, (q.run h s []).trace⟩ := by
    intro q
    rw [run_bind, run_ret, Outcome.after, List.append_nil]
  have hunits : unitOps o.trace = r.val.1.flatMap (Report.ops xxh64 integrity) := by
    rw [← unitOps_calls, hcalls, hrun]
    exact wp_run h (decodeUpload_reported dec xxh64 mode integrity _ d stream) s []
  rw [hrun] at hrest henv hcalls
  refine ⟨hunits, ?_, hcalls, henv, hrest, fun n hn => Machine.loop_eq_eval _ h _ s hn⟩
  rw [hunits]
  exact alternating_reports xxh64 integrity r.val.1

end
end Dicker.Server
