import Dicker.Client.Compressor
import Dicker.Server.FileSink
import Dicker.Server.Intake

/-! An upload without accept mode, from end to end: what a worker puts on the wire for
its tasks is taken in by `handle_upload` as exactly these tasks. -/

namespace Dicker.System
open Lib Program Client Server

def announced (t : Task) : AcceptedUnit := ⟨t.type, t.pathname.bytes, t.offset⟩

theorem unitHeader_eq (t : Task) : unitHeader t = plainBytes (announced t) := rfl

/-- The codec along a sequence of units, each given by its blocks: no output outgrows
the buffer, and once a unit is flushed all its bytes have been written. Both states
carry over to the next unit. -/
def Lossless (enc : StreamCompressor) (dec : StreamDecompressor) (e : enc.State) (d : dec.State) :
    List (List Bytes) → Prop
  | [] => True
  | blocks :: units =>
    (∀ out ∈ (outputs enc e blocks).1, out.length ≤ OUT_BUF_SIZE) ∧
    ∃ pieces d', decodeAll dec d (outputs enc e blocks).1 = some (pieces, d') ∧
      pieces.flatten = blocks.flatten ∧ Lossless enc dec (outputs enc e blocks).2 d' units

structure Acceptable (root : LexPath) (t : Task) : Prop where
  kind : t.type = .file ∨ t.type = .chunk
  named : 1 ≤ t.pathname.bytes.length
  resolves : (resolveSafePath root t.pathname.bytes).isSome
  whole : t.type = .file → t.offset = 0

/-- A file sink whose disk never fails: only a path can keep a file from being opened. -/
structure Sound {σ : Type} (root : LexPath) (h : (op : Server.Op) → σ → op.Ans × σ) : Prop where
  openSequential : ∀ path s,
    (h (.query (.openSequential path)) s).1 = (resolveSafePath root path).isSome
  openOffset : ∀ path s, (h (.query (.openOffset path)) s).1 = (resolveSafePath root path).isSome
  stores : Stores h

section
variable {σ : Type} {h : (op : Server.Op) → σ → op.Ans × σ} {root : LexPath}

theorem Sound.openable (hsink : Sound root h) {t : Task} (ht : Acceptable root t) :
    Openable h (announced t) where
  kind := ht.kind
  opens := by
    intro s
    unfold openQuery
    by_cases hf : (announced t).type = .file
    · rw [if_pos hf, hsink.openSequential]
      exact ht.resolves
    · rw [if_neg hf, hsink.openOffset]
      exact ht.resolves

theorem pathFits_pathname {path : Pathname} (hp : 1 ≤ path.bytes.length) : PathFits path.bytes := by
  have hlt := path.length_lt
  have hcap : PATH_CAP ≤ kMaxPathLength.toNat := by decide
  exact ⟨hp, by omega⟩

theorem mem_outputs_ne_nil (enc : StreamCompressor) (e : enc.State) (blocks : List Bytes) :
    ∀ out ∈ (outputs enc e blocks).1, out ≠ [] := by
  have hkeep : ∀ bs : Bytes, ∀ out ∈ nonempty bs, out ≠ [] := by
    intro bs out hout
    unfold nonempty at hout
    split_ifs at hout with hpos
    · rw [List.mem_singleton.mp hout]
      exact List.length_pos_iff.mp hpos
    · cases hout
  induction blocks generalizing e with
  | nil => exact hkeep _
  | cons data blocks ih =>
    intro out hout
    rcases List.mem_append.mp hout with hout | hout
    · exact hkeep _ out hout
    · exact ih _ out hout

theorem fits_outputs {enc : StreamCompressor} {e : enc.State} {blocks : List Bytes}
    (hlen : ∀ out ∈ (outputs enc e blocks).1, out.length ≤ OUT_BUF_SIZE) :
    Fits (outputs enc e blocks).1 := by
  intro out hout
  have hbuf : OUT_BUF_SIZE ≤ kMaxBlockSize.toNat := by decide
  exact ⟨mem_outputs_ne_nil enc e blocks out hout, (hlen out hout).trans hbuf⟩

def Delivers (xxh64 : Bytes → UInt64) (integrity : Bool) (src : Source) (u : Upload) : Prop :=
  u.unit = announced src.task ∧ u.ok xxh64 integrity = true ∧ u.written = src.blocks.flatten

/-- All calls of the consumer for these uploads: the events, the opening of the file with its
path, every write, and the closing. -/
def uploadCalls (xxh64 : Bytes → UInt64) (integrity : Bool) (uploads : List Upload) : Server.Log :=
  uploads.flatMap (Upload.log xxh64 integrity)

def uploadOps (xxh64 : Bytes → UInt64) (integrity : Bool) (uploads : List Upload) :
    List Server.Op :=
  uploads.flatMap fun u => Report.ops xxh64 integrity (.uploaded u)

theorem plainStream_rounds (hsink : Sound root h) (k : Codecs) {dec : StreamDecompressor}
    (sources : List Source) (hall : ∀ src ∈ sources, Acceptable root src.task)
    {c : Consumer dec.State} (hmode : ¬hasMode c.mode .accept = true) {e : k.enc.State}
    (hcodec : Lossless k.enc dec e c.decompressor (sources.map Source.blocks)) (s : σ) :
    ∃ c' s' t uploads, (handleUpload dec k.xxh64).Rounds h (.unit c) s
        (plainStream k c.integrityChecks e sources) (.unit c') s' t ∧
      List.Forall₂ (Delivers k.xxh64 c.integrityChecks) sources uploads ∧
      calls t = uploadCalls k.xxh64 c.integrityChecks uploads := by
  induction sources generalizing c e s with
  | nil => exact ⟨c, s, [], [], .refl _ s, .nil, rfl⟩
  | cons src sources ih =>
    obtain ⟨hlen, pieces, d, hd, hpieces, hrest⟩ := hcodec
    have hsrc := hall src List.mem_cons_self
    obtain ⟨o, s₁, t₀, hhead, ho, ht₀⟩ := plainUnit_exec (hsink.openable hsrc)
      (pathFits_pathname hsrc.named) hsrc.whole hmode s
    obtain ⟨s₂, t₁, hunit, ht₁⟩ := unit_rounds k.xxh64 hsink.stores hhead ho ht₀
      (fits_outputs hlen) hd
    obtain ⟨c', s', t, uploads, hrounds, hdel, ht⟩ := ih
      (fun x hx => hall x (List.mem_cons_of_mem _ hx))
      (c := c.took d src.blocks.flatten) hmode hrest s₂
    rw [hpieces] at hunit
    refine ⟨c', s', t₁ ++ t, goodUpload k.xxh64 c.integrityChecks (announced src.task)
      (outputs k.enc e src.blocks).1 pieces :: uploads, hunit.trans hrounds,
      .cons ⟨rfl, goodUpload_ok .., hpieces⟩ hdel, ?_⟩
    rw [calls_append, ht, ht₁, ← log_goodUpload k.xxh64 c.integrityChecks]
    rfl

end

/-- Whatever follows it on the stream, what a worker sends for its tasks is taken in as
exactly these tasks, and the server stops right behind it. -/
theorem upload_round_trip {σ τ : Type} {hc : (op : Client.Op) → σ → op.Ans × σ}
    {hs : (op : Server.Op) → τ → op.Ans × τ} {root : LexPath} (hcoop : Cooperative hc)
    (hsink : Sound root hs) (k : Codecs) (dec : StreamDecompressor) (w : Worker k.enc.State)
    (hw : w.acceptMode = false) (mode : UInt8) (hmode : hasMode mode .accept = false)
    (d : dec.State) (sources : List Source)
    (hall : ∀ src ∈ sources, Acceptable root src.task)
    (hcodec : Lossless k.enc dec w.compressor d (sources.map Source.blocks)) (sc : σ) (ss : τ)
    (extra : Bytes) :
    let client := (session k w sources).run hc sc []
    let server := (handleUpload dec k.xxh64).eval hs
      (.unit (Consumer.start mode w.integrity d)) ss (sent client.trace ++ extra)
    server.rest = extra ∧
    ∃ uploads, List.Forall₂ (Delivers k.xxh64 w.integrity) sources uploads ∧
      calls server.trace = uploadCalls k.xxh64 w.integrity uploads := by
  intro client server
  obtain ⟨w', sc', t, hclient, hsent⟩ := session_exec_plain hcoop k sources hw sc
  have hrun := hclient.run_eq []
  have hstream : sent client.trace =
      plainStream k w.integrity w.compressor sources ++ [UnitType.endOfSession.toByte] := by
    rw [← hsent]
    exact congrArg (fun o => sent o.trace) hrun
  obtain ⟨c', ss', t', uploads, hrounds, hdel, ht'⟩ := plainStream_rounds hsink k sources hall
    (c := Consumer.start mode w.integrity d) (by rw [Consumer.start, hmode]; decide) hcodec ss
  have hserver : server = ⟨c', ss', extra, t' ++ [.got [UnitType.endOfSession.toByte]]⟩ := by
    change (handleUpload dec k.xxh64).eval hs _ ss (sent client.trace ++ extra) = _
    rw [hstream, List.append_assoc]
    refine (hrounds.eval_eq _).trans ?_
    rw [Machine.eval_exec_done _ hs (endOfSession_exec c' ss') extra]
    rfl
  rw [hserver]
  refine ⟨rfl, uploads, hdel, ?_⟩
  rw [calls_append, ht']
  exact List.append_nil _

/-! ### A session of two short units

Blocks this short are stored by LZ4. XXH64 is given for inputs of less than four bytes. -/

def rotl (x : UInt64) (r : UInt64) : UInt64 := (x <<< r) ||| (x >>> (64 - r))

def xxh64Short (input : Bytes) : UInt64 :=
  let acc := input.foldl (fun acc b => rotl (acc ^^^ (b.toUInt64 * 2870177450012600261)) 11 *
    11400714785074694791) (2870177450012600261 + UInt64.ofNat input.length)
  let acc := (acc ^^^ (acc >>> 33)) * 14029467366897019727
  let acc := (acc ^^^ (acc >>> 29)) * 1609587929392839161
  acc ^^^ (acc >>> 32)

def shortCodecs : Codecs :=
  ⟨storedLz4.compressor, xxh64Short, fun _ => ⟨List.replicate 32 0, length_zeroHash⟩⟩

def shortSources : List Source :=
  [⟨workerTask .file [0x61] 0 3 3 0, [[1, 2], [3]], [], 1, by decide⟩,
   ⟨workerTask .chunk [0x62] 4 1 9 0, [[5]], [], 0, by decide⟩]

def openNetwork : (op : Client.Op) → Unit → op.Ans × Unit
  | .enqueue _, s | .await, s => (true, s)
  | .event _, s | .setPending _, s => ((), s)

def soundDisk (root : LexPath) : (op : Server.Op) → Unit → op.Ans × Unit
  | .query (.openSequential path), s | .query (.openOffset path), s =>
    ((resolveSafePath root path).isSome, s)
  | .query (.filter _), s | .query (.write _), s | .query (.writeAt _ _), s => (true, s)
  | .event _, s => ((), s)

theorem openNetwork_cooperative : Cooperative openNetwork := ⟨fun _ _ => rfl, fun _ => rfl⟩

theorem soundDisk_sound (root : LexPath) : Sound root (soundDisk root) where
  openSequential _ _ := rfl
  openOffset _ _ := rfl
  stores u n piece s := by
    by_cases hc : u.type = .chunk
    · rw [storeQuery, if_pos hc]
      rfl
    · rw [storeQuery, if_neg hc]
      rfl

def shortWorker : Worker shortCodecs.enc.State := ⟨true, false, false, 0, [], unstarted⟩

theorem shortSources_acceptable : ∀ src ∈ shortSources, Acceptable servedRoot src.task := by
  intro src hsrc
  simp only [shortSources, List.mem_cons, List.not_mem_nil, or_false] at hsrc
  rcases hsrc with rfl | rfl
  · exact ⟨.inl rfl, by decide, by decide, fun _ => rfl⟩
  · exact ⟨.inr rfl, by decide, by decide, fun hf => absurd hf (by decide)⟩

theorem shortSources_lossless : Lossless shortCodecs.enc storedLz4Decoder shortWorker.compressor
    false (shortSources.map Source.blocks) :=
  ⟨by decide, [[1, 2, 3]], true, rfl, rfl, by decide, [[5]], true, rfl, rfl, trivial⟩

theorem upload_round_trip_short :
    let client := (session shortCodecs shortWorker shortSources).run openNetwork () []
    let server := (handleUpload storedLz4Decoder xxh64Short).eval (soundDisk servedRoot)
      (.unit (Consumer.start 0 true false)) () (sent client.trace ++ [])
    server.rest = [] ∧
    ∃ uploads, List.Forall₂ (Delivers xxh64Short true) shortSources uploads ∧
      calls server.trace = uploadCalls xxh64Short true uploads := by
  exact upload_round_trip openNetwork_cooperative (soundDisk_sound servedRoot) shortCodecs
    storedLz4Decoder shortWorker rfl 0 rfl false shortSources shortSources_acceptable
    shortSources_lossless () () []

end Dicker.System
