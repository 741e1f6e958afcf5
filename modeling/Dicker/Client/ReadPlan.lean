import Dicker.Client.ReadAhead

/-! What the reader's program does with the files it finds: which entries it puts into the ready
ring, and that it gives a buffer back before the first block of a request or not at all, unless the
file is short. -/

namespace Dicker.Client.ReadAhead
open Lib Program StorageReader

/-! ## The program, call by call -/

variable {len : ℕ} {off : UInt64} {file : File} {got : Bytes}

theorem readAt_bind (hlen : len ≠ 0) (off : UInt64)
    (f : { bytes : Bytes // bytes.length ≤ len } → Reader Unit) :
    readAt len off >>= f = call (StorageReader.Op.pread len off) fun got =>
      if _hgot : got.1 = [] then f ⟨[], Nat.zero_le _⟩
      else
        readAt (len - got.1.length) (off + UInt64.ofNat got.1.length) >>= fun rest =>
          f ⟨got.1 ++ rest.1, by
            rw [List.length_append]
            exact (Nat.add_le_add_left rest.2 _).trans (Nat.add_sub_of_le got.2).le⟩ := by
  rw [readAt, dif_neg hlen, call_bind]
  congr 1
  funext got
  split_ifs
  · rfl
  · rw [bind_bind]
    rfl

theorem readAt_zero_bind (off : UInt64) (f : { bytes : Bytes // bytes.length ≤ 0 } → Reader Unit) :
    readAt 0 off >>= f = f ⟨[], le_rfl⟩ := by
  rw [readAt, dif_pos rfl]
  rfl

theorem readBlocks_bind {remaining : ℕ} (hremaining : remaining ≠ 0) (off : UInt64)
    (f : Unit → Reader Unit) :
    readBlocks off remaining >>= f = call StorageReader.Op.popSpare fun popped =>
      if popped then
        readAt (min remaining READ_BLOCK) off >>= fun got =>
          if got.1 = [] then call .pushSpare fun _ => f ()
          else
            call (.pushReady got.1) fun pushed =>
              if pushed then
                readBlocks (off + UInt64.ofNat got.1.length) (remaining - got.1.length) >>= f
              else f ()
      else f () := by
  rw [readBlocks, dif_neg hremaining, call_bind]
  congr 1
  funext popped
  split_ifs
  · rw [bind_bind]
    congr 1
    funext got
    split_ifs
    · rfl
    · rw [call_bind]
      congr 1
      funext pushed
      split_ifs <;> rfl
  · rfl

def finish : Reader Unit :=
  call .closeFile fun _ => call .releaseDisk fun _ => call .pushEof fun _ => .ret ()

theorem process_eq (req : ReadRequest) :
    StorageReader.process req = call .acquireDisk fun _ =>
      call (.openFile req.pathname.bytes) fun opened =>
      if opened then readBlocks req.offset req.length.toNat >>= fun _ => finish else finish := by
  refine congrArg (call StorageReader.Op.acquireDisk)
    (funext fun _ => congrArg (call _) (funext fun opened => ?_))
  cases opened <;> rfl

/-! ## What is read -/

def File.at (file : File) (off : UInt64) (len : ℕ) : Bytes := (file.bytes.drop off.toNat).take len

theorem Brings.off_add (h : Brings file len off got) (hgot : got ≠ []) :
    (off + UInt64.ofNat got.length).toNat = off.toNat + got.length := by
  have hle := h.content.length_le
  have hpos := List.length_pos_iff.mpr hgot
  have hfits := file.fits
  rw [List.length_drop] at hle
  rw [UInt64.toNat_add, UInt64.toNat_ofNat', Nat.mod_eq_of_lt (by omega),
    Nat.mod_eq_of_lt (by omega)]

theorem Brings.at_eq (h : Brings file len off got) (hlen : got.length ≤ len) (hgot : got ≠ []) :
    got ++ file.at (off + UInt64.ofNat got.length) (len - got.length) = file.at off len := by
  obtain ⟨t, ht⟩ := h.content
  have hrest : file.bytes.drop (off.toNat + got.length) = t := by
    rw [← List.drop_drop, ← ht, List.drop_left]
  rw [File.at, File.at, h.off_add hgot, hrest, ← ht, List.take_append, List.take_of_length_le hlen]

theorem Brings.at_nil (h : Brings file len off []) (hlen : 0 < len) : file.at off len = [] := by
  rw [File.at, List.drop_of_length_le (h.ended hlen rfl), List.take_nil]

/-! ## Plans -/

structure Plan where
  fd : Option File
  /-- What has been read into the buffer in the reader's hand. -/
  held : Option Bytes
  /-- Nothing has been put into the ready ring. -/
  fresh : Bool
  out : List (Option Bytes)

namespace Plan

def Allows (v : Plan) : StorageReader.Op → Prop
  | .popSpare => v.held = none
  | .pread _ _ => v.fd.isSome ∧ v.held.isSome
  | .pushSpare => v.held.isSome ∧ v.fresh
  | .pushReady block =>
    v.held = some block ∧ block.length ≤ READ_BLOCK ∧ v.out.head? = some (some block)
  | .pushEof => v.held = none ∧ v.out = [none]
  | .acquireDisk | .openFile _ | .closeFile | .releaseDisk => True

def Answers (files : Files) (v : Plan) : (op : StorageReader.Op) → op.Ans → Prop
  | .openFile path, opened => opened = (files path).isSome
  | .popSpare, done | .pushSpare, done | .pushReady _, done | .pushEof, done => done = true
  | .pread len off, got => ∀ file, v.fd = some file → Brings file len off got.1
  | .acquireDisk, _ | .closeFile, _ | .releaseDisk, _ => True

def after (files : Files) (v : Plan) : (op : StorageReader.Op) → op.Ans → Plan
  | .openFile path, _ => { v with fd := files path }
  | .closeFile, _ => { v with fd := none }
  | .popSpare, _ => { v with held := some [] }
  | .pread _ _, got => { v with held := v.held.map (· ++ got.1) }
  | .pushSpare, _ => { v with held := none }
  | .pushReady _, _ => { v with held := none, fresh := false, out := v.out.tail }
  | .pushEof, _ => { v with fresh := false, out := v.out.tail }
  | .acquireDisk, _ | .releaseDisk, _ => v

end Plan

def Follows (files : Files) : Reader Unit → Plan → Prop
  | .ret _, v => v.held = none ∧ v.out = []
  | .read _ _, _ => False
  | .call op k, v =>
    v.out ≠ [] ∧ v.Allows op ∧ ∀ b, v.Answers files op b → Follows files (k b) (v.after files op b)

section Program
variable {files : Files} {fill : Bytes} {fresh : Bool} {out : List (Option Bytes)}

theorem Follows.readAt (hout : out ≠ []) (len : ℕ) (off : UInt64) (fill : Bytes)
    (f : { bytes : Bytes // bytes.length ≤ len } → Reader Unit)
    (h : ∀ got, got.1 = file.at off len →
      Follows files (f got) ⟨some file, some (fill ++ got.1), fresh, out⟩) :
    Follows files (StorageReader.readAt len off >>= f) ⟨some file, some fill, fresh, out⟩ := by
  induction len using Nat.strong_induction_on generalizing off fill with
  | _ len ih =>
    rcases Nat.eq_zero_or_pos len with rfl | hlen
    · rw [readAt_zero_bind]
      simpa only [List.append_nil] using h ⟨[], le_rfl⟩ rfl
    rw [readAt_bind hlen.ne']
    refine ⟨hout, ⟨rfl, rfl⟩, fun got hgot => ?_⟩
    have hbrings := hgot file rfl
    change Follows files _ ⟨some file, some (fill ++ got.1), fresh, out⟩
    beta_reduce
    split_ifs with hnil
    · rw [hnil] at hbrings ⊢
      exact h ⟨[], Nat.zero_le _⟩ (hbrings.at_nil hlen).symm
    · refine ih _ (rest_lt hlen.ne' hnil) _ (fill ++ got.1) _ fun rest hrest => ?_
      rw [List.append_assoc]
      refine h ⟨got.1 ++ rest.1, _⟩ ?_
      change got.1 ++ rest.1 = _
      rw [hrest]
      exact hbrings.at_eq got.2 hnil

theorem blocksOf_nil : blocksOf [] = [] := by rw [blocksOf, dif_pos rfl]

theorem blocksOf_of_ne {data : Bytes} (h : data ≠ []) :
    blocksOf data = data.take READ_BLOCK :: blocksOf (data.drop READ_BLOCK) := by
  rw [blocksOf, dif_neg h]

theorem blocksOf_at {remaining : ℕ} (hgot : got = file.at off (min remaining READ_BLOCK))
    (hne : got ≠ []) :
    blocksOf (file.at off remaining) =
      got :: blocksOf (file.at (off + UInt64.ofNat got.length) (remaining - got.length)) := by
  have hbrings : Brings file (min remaining READ_BLOCK) off got :=
    ⟨hgot ▸ List.take_prefix _ _, fun _ h => absurd h hne⟩
  have hlen : got.length = min (min remaining READ_BLOCK) (file.bytes.drop off.toNat).length := by
    rw [hgot, File.at, List.length_take]
  have htake : (file.at off remaining).take READ_BLOCK = got := by
    rw [hgot, File.at, File.at, List.take_take, Nat.min_comm]
  have hdrop : (file.at off remaining).drop READ_BLOCK =
      file.at (off + UInt64.ofNat got.length) (remaining - got.length) := by
    rw [File.at, File.at, hbrings.off_add hne, ← List.drop_drop]
    generalize file.bytes.drop off.toNat = c at hlen
    rw [List.drop_take]
    rcases Nat.lt_or_ge got.length READ_BLOCK with hlt | hge
    · -- the block is not full: the range or the file ends with it
      rcases Nat.lt_or_ge got.length remaining with hfile | hrange
      · rw [List.drop_of_length_le (l := c) (by omega), List.drop_of_length_le (l := c) (by omega),
          List.take_nil, List.take_nil]
      · rw [Nat.sub_eq_zero_of_le hrange, Nat.sub_eq_zero_of_le (by omega),
          List.take_zero, List.take_zero]
    · rw [show got.length = READ_BLOCK by omega]
  have hrange : file.at off remaining ≠ [] := by
    intro h
    rw [h, List.take_nil] at htake
    exact hne htake.symm
  rw [blocksOf_of_ne hrange, htake, hdrop]

theorem at_eq_nil_iff (hlen : 0 < len) : file.at off len = [] ↔ file.bytes.length ≤ off.toNat := by
  rw [File.at, List.take_eq_nil_iff, List.drop_eq_nil_iff, or_iff_right hlen.ne']

theorem Follows.readBlocks {f : Reader Unit} (hout : out ≠ [])
    (hf : ∀ fresh, Follows files f ⟨some file, none, fresh, out⟩) (remaining : ℕ) (off : UInt64)
    (fresh : Bool)
    (hwhole : fresh = true ∧ file.bytes.length ≤ off.toNat ∨
      off.toNat + remaining ≤ file.bytes.length) :
    Follows files (StorageReader.readBlocks off remaining >>= fun _ => f)
      ⟨some file, none, fresh, (blocksOf (file.at off remaining)).map some ++ out⟩ := by
  induction remaining using Nat.strong_induction_on generalizing off fresh with
  | _ remaining ih =>
    rcases Nat.eq_zero_or_pos remaining with rfl | hpos
    · rw [StorageReader.readBlocks, dif_pos rfl, File.at, List.take_zero, blocksOf_nil]
      exact hf fresh
    have hblock : 0 < min remaining READ_BLOCK := lt_min hpos (by decide)
    have hrest : (blocksOf (file.at off remaining)).map some ++ out ≠ [] :=
      List.append_ne_nil_of_right_ne_nil _ hout
    rw [readBlocks_bind hpos.ne']
    refine ⟨hrest, rfl, ?_⟩
    rintro _ rfl
    refine Follows.readAt hrest _ off [] _ fun got hgot => ?_
    split_ifs with hnil
    · have hend := (at_eq_nil_iff hblock).mp (hgot.symm.trans hnil)
      have hnone : file.at off remaining = [] := (at_eq_nil_iff hpos).mpr hend
      rw [hnone, blocksOf_nil]
      rcases hwhole with ⟨hfresh, -⟩ | hwhole
      · exact ⟨hout, ⟨rfl, hfresh⟩, fun _ _ => hf fresh⟩
      · omega
    · have hinside : ¬file.bytes.length ≤ off.toNat :=
        fun h => hnil (hgot.trans ((at_eq_nil_iff hblock).mpr h))
      have hbrings : Brings file (min remaining READ_BLOCK) off got.1 :=
        ⟨hgot ▸ List.take_prefix _ _, fun _ h => absurd h hnil⟩
      have hadd := hbrings.off_add hnil
      have hle := got.2
      rw [blocksOf_at hgot hnil] at hrest ⊢
      refine ⟨hrest, ⟨rfl, hle.trans (Nat.min_le_right _ _), rfl⟩, ?_⟩
      rintro _ rfl
      refine ih _ (rest_lt hpos.ne' hnil) _ false (.inr ?_)
      have hwhole := hwhole.resolve_left fun h => hinside h.2
      omega

theorem follows_finish (fd : Option File) (fresh : Bool) :
    Follows files finish ⟨fd, none, fresh, [none]⟩ := by
  refine ⟨List.cons_ne_nil _ _, trivial, fun _ _ => ⟨List.cons_ne_nil _ _, trivial, fun _ _ => ?_⟩⟩
  exact ⟨List.cons_ne_nil _ _, ⟨rfl, rfl⟩, fun _ _ => ⟨rfl, rfl⟩⟩

theorem follows_process {req : ReadRequest} (hshort : ¬Short files req) (fd : Option File) :
    Follows files (StorageReader.process req) ⟨fd, none, true, stream files req⟩ := by
  have hne : stream files req ≠ [] := List.append_ne_nil_of_right_ne_nil _ (List.cons_ne_nil _ _)
  rw [process_eq]
  refine ⟨hne, trivial, fun _ _ => ⟨hne, trivial, ?_⟩⟩
  rintro _ rfl
  change Follows files _ ⟨files req.pathname.bytes, none, true, stream files req⟩
  unfold stream content
  cases hfile : files req.pathname.bytes with
  | none =>
    rw [blocksOf_nil]
    exact follows_finish none true
  | some file =>
    refine Follows.readBlocks (List.cons_ne_nil _ _) (follows_finish (some file)) _ _ true ?_
    by_contra hno
    rw [not_or, not_and] at hno
    exact hshort ⟨file, hfile, Nat.not_le.mp (hno.1 rfl), Nat.not_le.mp hno.2⟩

end Program

end Dicker.Client.ReadAhead
