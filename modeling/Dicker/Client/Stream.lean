import Dicker.Client.Worker
import Dicker.Lib.Simulation
import Dicker.Shared.Frame

/-! What a worker does when the network takes everything it is given: the exact log of
each step, and the bytes that the log puts on the wire. -/

namespace Dicker.Client
open Lib Program

abbrev Log := List (Entry Op Op.Ans)

def Op.bytes : Op → Bytes
  | enqueue data => data
  | _ => []

def sent (t : Log) : Bytes := emitted Op.bytes t

@[simp] theorem sent_nil : sent [] = [] := rfl

@[simp] theorem sent_did (op : Op) (a : op.Ans) (t : Log) :
    sent (.did op a :: t) = op.bytes ++ sent t := rfl

@[simp] theorem sent_append (t t' : Log) : sent (t ++ t') = sent t ++ sent t' :=
  emitted_append Op.bytes t t'

structure Cooperative {σ : Type} (h : (op : Op) → σ → op.Ans × σ) : Prop where
  enqueue : ∀ data s, (h (.enqueue data) s).1 = true
  await : ∀ s, (h .await s).1 = true

/-! ## One unit -/

def nonempty (out : Bytes) : List Bytes := if 0 < out.length then [out] else []

@[simp] theorem nonempty_flatten (out : Bytes) : (nonempty out).flatten = out := by
  unfold nonempty
  split_ifs with hpos
  · exact List.flatten_singleton
  · exact (List.eq_nil_of_length_eq_zero (Nat.eq_zero_of_not_pos hpos)).symm

def outputs (enc : StreamCompressor) (e : enc.State) : List Bytes → List Bytes × enc.State
  | [] => (nonempty (enc.flush e).1, (enc.flush e).2)
  | data :: blocks =>
    (nonempty (enc.update e data).1 ++ (outputs enc (enc.update e data).2 blocks).1,
      (outputs enc (enc.update e data).2 blocks).2)

def enqueued (data : Bytes) : Entry Op Op.Ans := .did (.enqueue data) true

def blockLog (out : Bytes) : Log :=
  [enqueued (BlockType.data.toByte :: writeU32Le (UInt32.ofNat out.length)), enqueued out]

def trailerLog (xxh64 : Bytes → UInt64) (integrity : Bool) (written : Bytes) : Log :=
  if integrity then [enqueued (writeU64Le (xxh64 written))] else []

def uploadLog (xxh64 : Bytes → UInt64) (integrity : Bool) (header : Bytes) (outs : List Bytes)
    (written : Bytes) : Log :=
  enqueued header :: (outs.flatMap blockLog ++
    enqueued [BlockType.endOfUnit.toByte] :: trailerLog xxh64 integrity written)

theorem sent_uploadLog (xxh64 : Bytes → UInt64) (integrity : Bool) (header : Bytes)
    (outs : List Bytes) (written : Bytes) :
    sent (uploadLog xxh64 integrity header outs written) =
      unitBytes xxh64 integrity header outs written := by
  have hblocks : sent (outs.flatMap blockLog) = outs.flatMap dataBlock := by
    induction outs with
    | nil => rfl
    | cons out outs ih =>
      rw [List.flatMap_cons, List.flatMap_cons, sent_append, ih]
      simp only [blockLog, enqueued, sent_did, sent_nil, Op.bytes, List.append_nil]
      rfl
  have htrailer : sent (trailerLog xxh64 integrity written) =
      trailerBytes xxh64 integrity written := by
    unfold trailerLog trailerBytes
    split_ifs
    · exact List.append_nil _
    · rfl
  simp only [uploadLog, enqueued, sent_did, sent_append, hblocks, htrailer, Op.bytes]
  rfl

def sendLog (xxh64 : Bytes → UInt64) (integrity : Bool) (src : Source) (header : Bytes)
    (outs : List Bytes) : Log :=
  let t := src.task
  .did (.event (.started t.pathname.bytes t.type t.offset t.length t.fileSize)) () ::
    (uploadLog xxh64 integrity header outs src.blocks.flatten ++
      [.did (.event (.finished t.pathname.bytes t.type t.offset t.length t.fileSize
        (UInt64.ofNat outs.flatten.length) true)) ()])

theorem sent_sendLog (xxh64 : Bytes → UInt64) (integrity : Bool) (src : Source) (header : Bytes)
    (outs : List Bytes) :
    sent (sendLog xxh64 integrity src header outs) =
      unitBytes xxh64 integrity header outs src.blocks.flatten := by
  rw [sendLog, sent_did, sent_append, sent_uploadLog]
  exact List.append_nil _

section
variable {σ : Type} {h : (op : Op) → σ → op.Ans × σ} (hcoop : Cooperative h) (k : Codecs)
include hcoop

theorem enqueue_exec {α : Type} (data : Bytes) {f : Bool → Send α} {s s' : σ} {y : Bytes} {a : α}
    {t : Log} (hf : Exec h (f true) (h (.enqueue data) s).2 y a s' t) :
    Exec h (call (.enqueue data) f) s y a s' (enqueued data :: t) := by
  exact Exec.call_eq (hcoop.enqueue data s) hf

theorem await_exec {α : Type} {f : Bool → Send α} {s s' : σ} {y : Bytes} {a : α} {t : Log}
    (hf : Exec h (f true) (h .await s).2 y a s' t) :
    Exec h (call .await f) s y a s' (.did .await true :: t) := by
  exact Exec.call_eq (hcoop.await s) hf

theorem sendOutput_exec (out : Bytes) (s : σ) :
    ∃ s', Exec h (sendOutput out) s [] true s' ((nonempty out).flatMap blockLog) := by
  unfold sendOutput nonempty
  split_ifs with hpos
  · exact ⟨_, enqueue_exec hcoop _ (enqueue_exec hcoop out (Exec.ret true _))⟩
  · exact ⟨s, Exec.ret true s⟩

theorem finishUpload_exec (w : Worker k.enc.State) (src : Source) (e : k.enc.State) (n : UInt64)
    (s : σ) :
    ∃ s', Exec h (finishUpload k w src ⟨true, e, n⟩) s []
      ⟨true, (outputs k.enc e []).2, n + UInt64.ofNat (outputs k.enc e []).1.flatten.length⟩ s'
      ((outputs k.enc e []).1.flatMap blockLog ++ enqueued [BlockType.endOfUnit.toByte] ::
        trailerLog k.xxh64 w.integrity src.blocks.flatten) := by
  obtain ⟨s₁, hflush⟩ := sendOutput_exec hcoop (k.enc.flush e).1 s
  have hrest : ∃ s', Exec h (do
      if !(← enqueue [BlockType.endOfUnit.toByte]) then
        return ⟨false, (k.enc.flush e).2, n + UInt64.ofNat (k.enc.flush e).1.length⟩
      if w.integrity then
        if !(← enqueue (writeU64Le (k.xxh64 src.blocks.flatten))) then
          return ⟨false, (k.enc.flush e).2, n + UInt64.ofNat (k.enc.flush e).1.length⟩
      return (⟨true, (k.enc.flush e).2, n + UInt64.ofNat (k.enc.flush e).1.length⟩ : Uploaded k))
      s₁ [] ⟨true, (k.enc.flush e).2, n + UInt64.ofNat (k.enc.flush e).1.length⟩ s'
      (enqueued [BlockType.endOfUnit.toByte] ::
        trailerLog k.xxh64 w.integrity src.blocks.flatten) := by
    unfold trailerLog
    split_ifs
    · exact ⟨_, enqueue_exec hcoop _ (enqueue_exec hcoop _ (Exec.ret _ _))⟩
    · exact ⟨_, enqueue_exec hcoop _ (Exec.ret _ _)⟩
  obtain ⟨s', hrest⟩ := hrest
  refine ⟨s', ?_⟩
  rw [outputs, nonempty_flatten]
  exact hflush.bind hrest

theorem uploadBlocks_exec (w : Worker k.enc.State) (src : Source) (blocks : List Bytes)
    (e : k.enc.State) (n : UInt64) (s : σ) :
    ∃ s', Exec h (uploadBlocks k e n blocks >>= fun u =>
        if !u.ok then Program.ret u else finishUpload k w src u) s []
      ⟨true, (outputs k.enc e blocks).2,
        n + UInt64.ofNat (outputs k.enc e blocks).1.flatten.length⟩ s'
      ((outputs k.enc e blocks).1.flatMap blockLog ++ enqueued [BlockType.endOfUnit.toByte] ::
        trailerLog k.xxh64 w.integrity src.blocks.flatten) := by
  induction blocks generalizing e n s with
  | nil => exact finishUpload_exec hcoop k w src e n s
  | cons data blocks ih =>
    obtain ⟨s₁, hout⟩ := sendOutput_exec hcoop (k.enc.update e data).1 s
    obtain ⟨s', hrest⟩ := ih (k.enc.update e data).2
      (n + UInt64.ofNat (k.enc.update e data).1.length) s₁
    refine ⟨s', ?_⟩
    rw [outputs, uploadBlocks, bind_bind, List.flatMap_append, List.append_assoc,
      List.flatten_append, List.length_append, nonempty_flatten, UInt64.ofNat_add,
        ← UInt64.add_assoc]
    exact hout.bind_nil hrest

theorem upload_exec (w : Worker k.enc.State) (src : Source) (header : Bytes) (s : σ) :
    ∃ s', Exec h (upload k w src header) s []
      ⟨true, (outputs k.enc w.compressor src.blocks).2,
        UInt64.ofNat (outputs k.enc w.compressor src.blocks).1.flatten.length⟩ s'
      (uploadLog k.xxh64 w.integrity header (outputs k.enc w.compressor src.blocks).1
        src.blocks.flatten) := by
  obtain ⟨s', hblocks⟩ := uploadBlocks_exec hcoop k w src src.blocks w.compressor 0
    (h (.enqueue header) s).2
  rw [UInt64.zero_add] at hblocks
  exact ⟨s', enqueue_exec hcoop header hblocks⟩

theorem send_exec (w : Worker k.enc.State) (src : Source) (header : Bytes) (s : σ) :
    ∃ s', Exec h (send k w src header) s []
      (true, { w with compressor := (outputs k.enc w.compressor src.blocks).2 }) s'
      (sendLog k.xxh64 w.integrity src header (outputs k.enc w.compressor src.blocks).1) := by
  obtain ⟨s₁, hup⟩ := upload_exec hcoop k w src header
    (h (.event (.started src.task.pathname.bytes src.task.type src.task.offset src.task.length
      src.task.fileSize)) s).2
  exact ⟨_, Exec.call (hup.bind (Exec.call (Exec.ret _ _)))⟩

/-! ## Without accept mode -/

omit hcoop in
def plainStream (integrity : Bool) (e : k.enc.State) : List Source → Bytes
  | [] => []
  | src :: sources =>
    unitBytes k.xxh64 integrity (unitHeader src.task) (outputs k.enc e src.blocks).1
        src.blocks.flatten ++
      plainStream integrity (outputs k.enc e src.blocks).2 sources

theorem processAll_exec_plain (sources : List Source) {w : Worker k.enc.State}
    (hmode : w.acceptMode = false) (s : σ) :
    ∃ w' s' t, Exec h (processAll k w sources) s [] (true, w') s' t ∧
      sent t = plainStream k w.integrity w.compressor sources := by
  induction sources generalizing w s with
  | nil => exact ⟨w, s, [], Exec.ret _ s, rfl⟩
  | cons src sources ih =>
    obtain ⟨s₁, hsend⟩ := send_exec hcoop k w src (unitHeader src.task) s
    obtain ⟨w', s', t, hrest, ht⟩ :=
      ih (w := { w with compressor := (outputs k.enc w.compressor src.blocks).2 }) hmode s₁
    refine ⟨w', s', sendLog k.xxh64 w.integrity src (unitHeader src.task)
      (outputs k.enc w.compressor src.blocks).1 ++ t, ?_, ?_⟩
    · rw [processAll, process, hmode]
      exact hsend.bind_nil hrest
    · rw [sent_append, sent_sendLog, ht]
      rfl

theorem session_exec_plain (sources : List Source) {w : Worker k.enc.State}
    (hmode : w.acceptMode = false) (s : σ) :
    ∃ w' s' t, Exec h (session k w sources) s [] (true, w') s' t ∧
      sent t = plainStream k w.integrity w.compressor sources ++
        [UnitType.endOfSession.toByte] := by
  obtain ⟨w', s₁, t, hall, ht⟩ := processAll_exec_plain hcoop k sources hmode s
  refine ⟨w', _, t ++ [enqueued [UnitType.endOfSession.toByte]],
    hall.bind_nil (enqueue_exec hcoop _ (Exec.ret _ _)), ?_⟩
  rw [sent_append, ht]
  rfl

/-! ## Accept mode -/

omit hcoop in
def PendingUnit.undecided (u : PendingUnit) : PendingUnit := { u with accepted := false }

omit hcoop in
def PendingUnit.reply (u : PendingUnit) : Bytes := replyBytes u.key u.accepted

omit hcoop in
def probeLog (w : Worker k.enc.State) (src : Source) : Log :=
  [.did (.setPending (w.pending ++ [⟨w.nextKey, src, false⟩])) (), enqueued (probeFrame k w src)]

theorem probe_exec (w : Worker k.enc.State) (src : Source) (s : σ) :
    ∃ s', Exec h (probe k w src) s []
      (true, { w with nextKey := w.nextKey + 1, pending := w.pending ++ [⟨w.nextKey, src, false⟩] })
      s' (probeLog k w src) :=
  ⟨_, Exec.call (enqueue_exec hcoop _ (Exec.ret _ _))⟩

omit hcoop in
theorem readReplies_exec (us : List PendingUnit) (s : σ) :
    Exec h (readReplies (us.map PendingUnit.undecided)) s (us.flatMap PendingUnit.reply) (some us) s
      (us.map fun u => .got u.reply) := by
  induction us with
  | nil => exact Exec.ret _ s
  | cons u us ih =>
    have haccepted : decide (u.reply.getD 0 0 = ProbeDecision.accept.toByte) = u.accepted := by
      obtain ⟨key, source, accepted⟩ := u
      cases accepted <;> rfl
    have hkey : readU64Le (u.reply.drop 1) = u.undecided.key := readU64Le_self u.key
    rw [List.flatMap_cons, List.map_cons, readReplies, readExact_bind]
    refine Exec.read rfl ?_
    dsimp only
    rw [if_neg (not_not.mpr hkey), haccepted]
    exact ih.bind_ret rfl

omit hcoop in
def skippedEvent (t : Task) : Event :=
  .skipped t.pathname.bytes t.type t.offset t.length t.fileSize

omit hcoop in
def resolvedLog (integrity : Bool) (e : k.enc.State) : List PendingUnit → Log
  | [] => []
  | u :: us =>
    if u.accepted then
      sendLog k.xxh64 integrity u.source (acceptedHeader u.key)
          (outputs k.enc e u.source.blocks).1 ++
        resolvedLog integrity (outputs k.enc e u.source.blocks).2 us
    else .did (.event (skippedEvent u.source.task)) () :: resolvedLog integrity e us

omit hcoop in
def resolvedState (e : k.enc.State) : List PendingUnit → k.enc.State
  | [] => e
  | u :: us =>
    resolvedState (if u.accepted then (outputs k.enc e u.source.blocks).2 else e) us

theorem sendAccepted_exec (us : List PendingUnit) (w : Worker k.enc.State) (s : σ) :
    ∃ s', Exec h (sendAccepted k w us) s []
      (true, { w with compressor := resolvedState k w.compressor us }) s'
      (resolvedLog k w.integrity w.compressor us) := by
  induction us generalizing w s with
  | nil => exact ⟨s, Exec.ret _ s⟩
  | cons u us ih =>
    rw [resolvedLog, resolvedState, sendAccepted]
    cases hu : u.accepted with
    | true =>
      obtain ⟨s₁, hsend⟩ := send_exec hcoop k w u.source (acceptedHeader u.key) s
      obtain ⟨s', hrest⟩ :=
        ih { w with compressor := (outputs k.enc w.compressor u.source.blocks).2 } s₁
      exact ⟨s', hsend.bind_nil hrest⟩
    | false =>
      obtain ⟨s', hrest⟩ := ih w (h (.event (skippedEvent u.source.task)) s).2
      exact ⟨s', Exec.call hrest⟩

def resolveLog (integrity : Bool) (e : k.enc.State) (us : List PendingUnit) : Log :=
  .did .await true :: ((us.map fun u => .got u.reply) ++
    (resolvedLog k integrity e us ++ [.did (.setPending []) ()]))

theorem resolve_exec (us : List PendingUnit) {w : Worker k.enc.State}
    (hw : w.pending = us.map PendingUnit.undecided) (s : σ) :
    ∃ s', Exec h (resolve k w) s (us.flatMap PendingUnit.reply)
      (true, { w with compressor := resolvedState k w.compressor us, pending := [] }) s'
      (resolveLog k w.integrity w.compressor us) := by
  obtain ⟨s₂, hsend⟩ := sendAccepted_exec hcoop k us w (h .await s).2
  have hreplies := readReplies_exec (h := h) us (h .await s).2
  refine ⟨(h (.setPending []) s₂).2, ?_⟩
  rw [resolve, await_bind, resolveLog, hw]
  refine await_exec hcoop ?_
  refine hreplies.bind_nil ?_
  exact hsend.bind_nil (Exec.call (Exec.ret _ _))

end
end Dicker.Client
