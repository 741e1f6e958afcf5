import Dicker.Client.ReadBuffers
import Dicker.Client.Semaphore

/-! All readers and workers of a run, and the semaphore between the readers (`diskLimit` of
client/storage.h): any number of pairs as in `ReadAhead`, whose readers share the permits. Each
worker has a finite number of units to read. A reader has a file open only while it holds a
permit. -/

namespace Dicker.Client
open Lib Program StorageReader ReadAhead Relation

/-- The constructor of `Storage`: `static_cast<int>` of a `size_t`. -/
def diskLimit (diskConcurrency : UInt64) : Int32 :=
  if diskConcurrency < 1 then 1 else Int32.ofNat diskConcurrency.toNat

structure DiskPool (ι : Type) where
  pairs : ι → ReadAhead.State
  limit : Semaphore ι
  todo : ι → List ReadRequest

def AtLimit (p : Reader Unit) : Prop := ∃ k, p = call .acquireDisk k ∨ p = call .releaseDisk k

namespace DiskPool
variable {ι : Type} [DecidableEq ι]

def start (n : Int32) (bufs : ι → Index → Bytes) (todo : ι → List ReadRequest) : DiskPool ι :=
  ⟨fun i => .start (bufs i), .start n, todo⟩

def sets (p : DiskPool ι) (i : ι) (s : ReadAhead.State) : DiskPool ι :=
  { p with pairs := Function.update p.pairs i s }

/-- A step of any thread. `acquire` returns to a reader that holds a permit, and `release` to one
that has given it back and woken a sleeper. -/
inductive Step (files : Files) (spurious : Prop) : DiskPool ι → DiskPool ι → Prop where
  | begins (p : DiskPool ι) (i : ι) (req : ReadRequest) (rest : List ReadRequest) (pc : WorkerPc)
      (htodo : p.todo i = req :: rest) (hidle : (p.pairs i).worker = .idle)
      (hpc : WorkerPc.Move (· = req) .idle pc) :
      Step files spurious p { p.sets i { p.pairs i with worker := pc } with
        todo := Function.update p.todo i rest }
  | works (p : DiskPool ι) (i : ι) (s : ReadAhead.State)
      (hstep : ReadAhead.Step files (fun _ => False) (p.pairs i) s)
      (hlimit : AtLimit (p.pairs i).program → s.program = (p.pairs i).program) :
      Step files spurious p (p.sets i s)
  | acquired (p : DiskPool ι) (i : ι) (k : Unit → Reader Unit)
      (h : (p.pairs i).program = call .acquireDisk k)
      (hheld : p.limit.pc i = .holding) :
      Step files spurious p (p.sets i { p.pairs i with program := k () })
  | released (p : DiskPool ι) (i : ι) (k : Unit → Reader Unit)
      (h : (p.pairs i).program = call .releaseDisk k)
      (hheld : p.limit.pc i = .out) :
      Step files spurious p (p.sets i { p.pairs i with program := k () })
  | limits (p : DiskPool ι) (limit : Semaphore ι) (hstep : Semaphore.Step spurious p.limit limit)
      (hacquire : ∀ i, p.limit.pc i = .out → limit.pc i ≠ .out →
        ∃ k, (p.pairs i).program = call .acquireDisk k)
      (hrelease : ∀ i, p.limit.pc i = .holding → limit.pc i ≠ .holding →
        ∃ k, (p.pairs i).program = call .releaseDisk k) :
          Step files spurious p { p with limit := limit }

def Done (p : DiskPool ι) : Prop := ∀ i, p.todo i = [] ∧ (p.pairs i).worker = .idle

end DiskPool

/-! ## The calls between `acquire` and `release` -/

/-- `acquire` and `release` enclose `open` and `close`, and are called in turns; `held` and `opened`
say how the program begins. -/
def Brackets : Bool → Bool → Reader Unit → Prop
  | held, opened, .ret _ => held = false ∧ opened = false
  | _, _, .read _ _ => False
  | held, opened, .call .acquireDisk k => held = false ∧ opened = false ∧ Brackets true false (k ())
  | held, opened, .call .releaseDisk k => held = true ∧ opened = false ∧ Brackets false false (k ())
  | held, _, .call (.openFile _) k => held = true ∧ ∀ b : Bool, Brackets true b (k b)
  | held, _, .call .closeFile k => held = true ∧ Brackets true false (k ())
  | held, opened, .call .popSpare k => ∀ b, Brackets held opened (k b)
  | held, opened, .call (.pread _ _) k => ∀ b, Brackets held opened (k b)
  | held, opened, .call .pushSpare k => ∀ b, Brackets held opened (k b)
  | held, opened, .call (.pushReady _) k => ∀ b, Brackets held opened (k b)
  | held, opened, .call .pushEof k => ∀ b, Brackets held opened (k b)

theorem brackets_finish (opened : Bool) : Brackets true opened ReadAhead.finish :=
  ⟨rfl, rfl, rfl, fun _ => ⟨rfl, rfl⟩⟩

variable {held : Bool} {op : StorageReader.Op} {k : op.Ans → Reader Unit}

theorem brackets_readAt (len : ℕ) (off : UInt64)
    (f : { bytes : Bytes // bytes.length ≤ len } → Reader Unit) {opened : Bool}
    (hf : ∀ got, Brackets held opened (f got)) : Brackets held opened (readAt len off >>= f) := by
  induction len using Nat.strong_induction_on generalizing off with
  | _ len ih =>
    by_cases hlen : len = 0
    · subst hlen
      rw [readAt_zero_bind]
      exact hf _
    · rw [readAt_bind hlen]
      intro got
      dsimp only
      split_ifs with hgot
      · exact hf _
      · exact ih _ (rest_lt hlen hgot) _ _ fun _ => hf _

theorem brackets_readBlocks (off : UInt64) (remaining : ℕ) :
    Brackets true true (readBlocks off remaining >>= fun _ => ReadAhead.finish) := by
  induction remaining using Nat.strong_induction_on generalizing off with
  | _ remaining ih =>
    by_cases hremaining : remaining = 0
    · subst hremaining
      rw [readBlocks, dif_pos rfl]
      exact brackets_finish true
    · rw [readBlocks_bind hremaining]
      intro popped
      dsimp only
      split_ifs
      · refine brackets_readAt _ _ _ fun got => ?_
        split_ifs with hgot
        · exact fun _ => brackets_finish true
        · intro pushed
          dsimp only
          split_ifs
          · exact ih _ (rest_lt hremaining hgot) _
          · exact brackets_finish true
      · exact brackets_finish true

theorem brackets_process (req : ReadRequest) :
    Brackets false false (StorageReader.process req) := by
  rw [process_eq]
  refine ⟨rfl, rfl, rfl, fun opened => ?_⟩
  cases opened with
  | false => exact brackets_finish false
  | true => exact brackets_readBlocks _ _

/-! ## Where a reader is in the semaphore -/

def Fits (held : Bool) (pc : SemPc) : Reader Unit → Prop
  | .call .acquireDisk _ => pc ≠ .notify
  | .call .releaseDisk _ => pc = .holding ∨ pc = .notify ∨ pc = .out
  | _ => pc = if held then .holding else .out

theorem Fits.arrives {opened : Bool} {p : Reader Unit} (h : Brackets held opened p) :
    Fits held (if held then .holding else .out) p := by
  cases p with
  | ret a => exact rfl
  | read n k => exact h.elim
  | call op k =>
    cases op with
    | acquireDisk =>
      rw [h.1]
      exact SemPc.noConfusion
    | releaseDisk =>
      rw [h.1]
      exact .inl rfl
    | _ => exact rfl

section
variable {opened : Bool} {pc pc' : SemPc} {p : Reader Unit}

theorem Fits.acquires (h : Fits held pc p) (hseeks : pc.Seeks) : ∃ k, p = call .acquireDisk k := by
  have hplain (hpc : pc = if held then .holding else .out) : False := by
    rw [hpc] at hseeks
    cases held <;> exact hseeks
  cases p with
  | ret a => exact (hplain h).elim
  | read n k => exact (hplain h).elim
  | call op k =>
    cases op with
    | acquireDisk => exact ⟨k, rfl⟩
    | releaseDisk =>
      rcases h with rfl | rfl | rfl <;> exact hseeks.elim
    | _ => exact (hplain h).elim

theorem Fits.releases (h : Fits held .notify p) : ∃ k, p = call .releaseDisk k := by
  have hplain (hpc : SemPc.notify = if held then .holding else .out) : False := by
    cases held <;> exact SemPc.noConfusion hpc
  cases p with
  | ret a => exact (hplain h).elim
  | read n k => exact (hplain h).elim
  | call op k =>
    cases op with
    | acquireDisk => exact (h rfl).elim
    | releaseDisk => exact ⟨k, rfl⟩
    | _ => exact (hplain h).elim

theorem Fits.stays (h : Fits held pc p) (hstays : pc.Stays pc') : Fits held pc' p := by
  rcases hstays with rfl | ⟨hseeks, hseeks'⟩
  · exact h
  · obtain ⟨k, rfl⟩ := h.acquires hseeks
    rintro rfl
    exact hseeks'

theorem Fits.advances (h : Fits held pc p) (hadvances : pc.Advances pc')
    (hacquire : pc = .out → pc' ≠ .out → ∃ k, p = call .acquireDisk k)
    (hrelease : pc = .holding → pc' ≠ .holding → ∃ k, p = call .releaseDisk k) :
    Fits held pc' p := by
  cases hadvances with
  | enters =>
    obtain ⟨k, rfl⟩ := hacquire rfl SemPc.noConfusion
    exact SemPc.noConfusion
  | takes =>
    obtain ⟨k, rfl⟩ := h.acquires trivial
    exact SemPc.noConfusion
  | gives =>
    obtain ⟨k, rfl⟩ := hrelease rfl SemPc.noConfusion
    exact .inr (.inl rfl)
  | leaves =>
    obtain ⟨k, rfl⟩ := h.releases
    exact .inr (.inr rfl)

def opensAfter : (op : StorageReader.Op) → op.Ans → Bool → Bool
  | .openFile _, b, _ => b
  | .closeFile, _, _ => false
  | _, _, opened => opened

theorem Brackets.after (h : Brackets held opened (call op k)) (hlimit : ¬AtLimit (call op k))
    (b : op.Ans) : Brackets held (opensAfter op b opened) (k b) := by
  cases op with
  | acquireDisk => exact absurd ⟨k, .inl rfl⟩ hlimit
  | releaseDisk => exact absurd ⟨k, .inr rfl⟩ hlimit
  | openFile path =>
    rw [h.1]
    exact h.2 b
  | closeFile =>
    rw [h.1]
    exact h.2
  | _ => exact h b

theorem Brackets.held_of_opened (h : Brackets held true p) : held = true := by
  induction p with
  | ret a => exact nomatch h.2
  | read n k => exact h.elim
  | call op k ih =>
    cases op with
    | acquireDisk => exact nomatch h.2.1
    | releaseDisk => exact h.1
    | openFile path => exact h.1
    | closeFile => exact h.1
    | pread len off => exact ih ⟨[], Nat.zero_le _⟩ (h _)
    | _ => exact ih true (h true)

theorem Fits.plain (h : Fits held pc (call op k)) (hlimit : ¬AtLimit (call op k)) :
    pc = if held then .holding else .out := by
  cases op with
  | acquireDisk => exact absurd ⟨k, .inl rfl⟩ hlimit
  | releaseDisk => exact absurd ⟨k, .inr rfl⟩ hlimit
  | _ => exact h

end

inductive Positioned (s : ReadAhead.State) (pc : SemPc) : Prop where
  | intro (held : Bool) (hbrackets : Brackets held s.fd.isSome s.program)
      (hfits : Fits held pc s.program)

section
variable {files : Files} {asked : ReadRequest → Prop} {s s' : ReadAhead.State} {pc : SemPc}

theorem Positioned.holds (h : Positioned s pc) (hopen : s.fd.isSome = true) : pc = .holding := by
  obtain ⟨held, hbrackets, hfits⟩ := h
  rw [hopen] at hbrackets
  obtain rfl := hbrackets.held_of_opened
  cases hp : s.program with
  | ret a => exact nomatch (hp ▸ hbrackets).1
  | read n k => exact (hp ▸ hbrackets).elim
  | call op k =>
    rw [hp] at hbrackets hfits
    cases op with
    | acquireDisk => exact nomatch hbrackets.1
    | releaseDisk => exact nomatch hbrackets.2.1
    | _ => exact hfits

theorem Positioned.same (h : Positioned s pc) (hfd : s'.fd = s.fd)
    (hprogram : s'.program = s.program) : Positioned s' pc := by
  obtain ⟨held, hbrackets, hfits⟩ := h
  refine ⟨held, ?_, ?_⟩
  · rw [hfd, hprogram]
    exact hbrackets
  · rw [hprogram]
    exact hfits

theorem Positioned.called (h : Positioned s pc) (hp : s.program = call op k)
    (hlimit : ¬AtLimit (call op k)) {b : op.Ans} (hp' : s'.program = k b)
    (hfd : s'.fd.isSome = opensAfter op b s.fd.isSome) : Positioned s' pc := by
  obtain ⟨held, hbrackets, hfits⟩ := h
  rw [hp] at hbrackets hfits
  have hafter := hbrackets.after hlimit b
  rw [hfits.plain hlimit]
  refine ⟨held, ?_, ?_⟩
  · rw [hfd, hp']
    exact hafter
  · rw [hp']
    exact .arrives hafter

theorem not_atLimit (hacquire : op ≠ .acquireDisk) (hrelease : op ≠ .releaseDisk) :
    ¬AtLimit (call op k) := by
  rintro ⟨k', h | h⟩
  · cases h
    exact hacquire rfl
  · cases h
    exact hrelease rfl

theorem call_ne (op : StorageReader.Op) (k : op.Ans → Reader Unit) (b : op.Ans) :
    k b ≠ call op k := by
  intro h
  exact later_wf.irrefl.irrefl _ ⟨op, k, b, rfl, h.symm⟩

theorem Positioned.works (h : Positioned s pc) (hstep : ReadAhead.Step files asked s s')
    (hlimit : AtLimit s.program → s'.program = s.program) : Positioned s' pc := by
  cases hstep with
  | take hidle hreq =>
    obtain ⟨held, hbrackets, hfits⟩ := h
    rw [hidle] at hbrackets hfits
    obtain ⟨rfl, hclosed⟩ := hbrackets
    refine ⟨false, ?_, ?_⟩
    · rw [hclosed]
      exact brackets_process _
    · rw [show pc = .out from hfits]
      exact .arrives (brackets_process _)
  | @acquireDisk k hp => exact absurd ((hlimit ⟨k, .inl hp⟩).trans hp) (call_ne .acquireDisk k ())
  | @releaseDisk k hp => exact absurd ((hlimit ⟨k, .inr hp⟩).trans hp) (call_ne .releaseDisk k ())
  | openFile hp | popSpare hp | pread hp | storeTail hp | pushReady hp | closeFile hp
  | pushEof hp =>
    exact h.called hp (not_atLimit nofun nofun) rfl rfl
  | _ => exact h.same rfl rfl

theorem Positioned.resumes {p : Reader Unit} (hclosed : s.fd.isSome = false)
    (hp : Brackets held false p) :
    Positioned { s with program := p } (if held then .holding else .out) := by
  refine ⟨held, ?_, .arrives hp⟩
  change Brackets held s.fd.isSome p
  rw [hclosed]
  exact hp

end

/-! ## What holds in every state -/

namespace DiskPool
variable {ι : Type} [Fintype ι] [DecidableEq ι] {files : Files} {spurious : Prop} {n : Int32}
  {p p' : DiskPool ι}

structure Inv (files : Files) (n : Int32) (p : DiskPool ι) : Prop where
  pairs : ∀ i, ReadAhead.Inv files (p.pairs i)
  positioned : ∀ i, Positioned (p.pairs i) (p.limit.pc i)
  limit : Semaphore.Conserves n p.limit
  whole : ∀ i, ∀ req ∈ p.todo i, ¬Short files req

omit [DecidableEq ι] in
theorem Inv.start (bufs : ι → Index → Bytes) (todo : ι → List ReadRequest)
    (hwhole : ∀ i, ∀ req ∈ todo i, ¬Short files req) :
    Inv files n (DiskPool.start n bufs todo) where
  pairs i := ReadAhead.Inv.start (bufs i)
  positioned _ := ⟨false, ⟨rfl, rfl⟩, rfl⟩
  limit := Semaphore.conserves_start n
  whole := hwhole

omit [Fintype ι] in
theorem sets_self (p : DiskPool ι) (i : ι) (s : ReadAhead.State) : (p.sets i s).pairs i = s :=
  Function.update_self ..

omit [Fintype ι] in
theorem sets_of_ne (p : DiskPool ι) {i j : ι} (hne : j ≠ i) (s : ReadAhead.State) :
    (p.sets i s).pairs j = p.pairs j := Function.update_of_ne hne ..

theorem Inv.sets (h : Inv files n p) {i : ι} {s : ReadAhead.State} (hs : ReadAhead.Inv files s)
    (hpositioned : Positioned s (p.limit.pc i)) : Inv files n (p.sets i s) := by
  refine ⟨?_, ?_, h.limit, h.whole⟩
  · exact (Function.forall_update_iff p.pairs fun _ s => ReadAhead.Inv files s).mpr
      ⟨hs, fun j _ => h.pairs j⟩
  · exact (Function.forall_update_iff p.pairs fun j s => Positioned s (p.limit.pc j)).mpr
      ⟨hpositioned, fun j _ => h.positioned j⟩

theorem Inv.limits (h : Inv files n p) {limit : Semaphore ι}
    (hstep : Semaphore.Step spurious p.limit limit)
    (hacquire : ∀ i, p.limit.pc i = .out → limit.pc i ≠ .out →
      ∃ k, (p.pairs i).program = call .acquireDisk k)
    (hrelease : ∀ i, p.limit.pc i = .holding → limit.pc i ≠ .holding →
      ∃ k, (p.pairs i).program = call .releaseDisk k) : Inv files n { p with limit := limit } := by
  have hstays (j : ι) (hj : (p.limit.pc j).Stays (limit.pc j)) :
      Positioned (p.pairs j) (limit.pc j) := by
    obtain ⟨held, hbrackets, hfits⟩ := h.positioned j
    exact ⟨held, hbrackets, hfits.stays hj⟩
  refine ⟨h.pairs, ?_, h.limit.step hstep, h.whole⟩
  cases hstep.effect with
  | seeks hall => exact fun j => hstays j (hall j)
  | advances i hi hothers =>
    intro j
    by_cases hj : j = i
    · subst hj
      obtain ⟨held, hbrackets, hfits⟩ := h.positioned j
      exact ⟨held, hbrackets, hfits.advances hi (hacquire j) (hrelease j)⟩
    · exact hstays j (hothers j hj)

theorem Inv.step (h : Inv files n p) (hstep : Step files spurious p p') : Inv files n p' := by
  cases hstep with
  | begins i req rest pc htodo hidle hpc =>
    have hwhole : ¬Short files req := h.whole i req (htodo ▸ List.mem_cons_self)
    have hmoved : ReadAhead.Step files (· = req) (p.pairs i) { p.pairs i with worker := pc } :=
      .of_move hidle hpc
    have hinv := (h.pairs i).step (fun r (hr : r = req) => hr ▸ hwhole) hmoved
    have hset := h.sets (i := i) hinv ((h.positioned i).same rfl rfl)
    refine ⟨hset.pairs, hset.positioned, h.limit, ?_⟩
    refine (Function.forall_update_iff p.todo fun _ l => ∀ r ∈ l, ¬Short files r).mpr
      ⟨fun r hr => ?_, fun j _ => h.whole j⟩
    exact h.whole i r (htodo ▸ List.mem_cons_of_mem _ hr)
  | works i s hstep hlimit =>
    exact h.sets ((h.pairs i).step (fun _ hf => hf.elim) hstep)
      ((h.positioned i).works hstep hlimit)
  | acquired i k hp hheld =>
    have hmoved : ReadAhead.Step files (fun _ => False) (p.pairs i) _ := .acquireDisk hp
    obtain ⟨held, hbrackets, -⟩ := h.positioned i
    rw [hp] at hbrackets
    refine h.sets ((h.pairs i).step (fun _ hf => hf.elim) hmoved) ?_
    rw [hheld]
    exact .resumes hbrackets.2.1 hbrackets.2.2
  | released i k hp hheld =>
    have hmoved : ReadAhead.Step files (fun _ => False) (p.pairs i) _ := .releaseDisk hp
    obtain ⟨held, hbrackets, -⟩ := h.positioned i
    rw [hp] at hbrackets
    refine h.sets ((h.pairs i).step (fun _ hf => hf.elim) hmoved) ?_
    rw [hheld]
    exact .resumes hbrackets.2.1 hbrackets.2.2
  | limits limit hstep hacquire hrelease => exact h.limits hstep hacquire hrelease

theorem Inv.run (h : Inv files n p) (hrun : ReflTransGen (Step files spurious) p p') :
    Inv files n p' := by
  induction hrun with
  | refl => exact h
  | tail _ hstep ih => exact ih.step hstep

end DiskPool

end Dicker.Client
