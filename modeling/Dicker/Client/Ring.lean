import Dicker.Lib.BoundedQueue
import Dicker.Lib.EventCount

/-! The ring between two threads (client/ring.h), one atomic operation a step. The capacity is `2 ^
k`, a `size_t` has 64 bits. What a step leaves behind in an object that is moved from is a
parameter. -/

namespace Dicker.Client.Ring
open Lib

inductive PushPc (α : Type) where
  | rest
  | refused
  | loadTail (v : α)
  | checkClosed (v : α) (tl : UInt64)
  | checkHead (v : α) (tl : UInt64)
  | loadGate (v : α) (tl : UInt64)
  | recheckHead (v : α) (tl : UInt64) (g : UInt32)
  | recheckClosed (v : α) (tl : UInt64) (g : UInt32)
  | wait (v : α) (tl : UInt64) (g : UInt32)
  | write (v : α) (tl : UInt64)
  | storeTail (v : α) (tl : UInt64)
  | bump

inductive PopPc (α : Type) where
  | rest
  | failed
  | loadHead
  | checkTail (hd : UInt64)
  | checkClosed (hd : UInt64)
  | lastTail (hd : UInt64)
  | loadGate (hd : UInt64)
  | recheckTail (hd : UInt64) (g : UInt32)
  | recheckClosed (hd : UInt64) (g : UInt32)
  | wait (hd : UInt64) (g : UInt32)
  | read (hd : UInt64)
  | storeHead (out : α) (hd : UInt64)
  | bump

structure State (α : Type) where
  buf : ℕ → α
  head : UInt64
  tail : UInt64
  notEmptyGate : UInt32
  notFullGate : UInt32
  closed : Bool
  producer : PushPc α
  consumer : PopPc α
  /-- Calls of `close` that have still to increment both gates, and the second one only. -/
  closing : ℕ
  closingLate : ℕ
  -- the history, which no step reads
  pushed : List α
  popped : List α
  emptyBumps : ℕ
  fullBumps : ℕ
  closes : ℕ

variable {α : Type}

def State.start (buf : ℕ → α) : State α where
  buf := buf
  head := 0
  tail := 0
  notEmptyGate := 0
  notFullGate := 0
  closed := false
  producer := .rest
  consumer := .rest
  closing := 0
  closingLate := 0
  pushed := []
  popped := []
  emptyBumps := 0
  fullBumps := 0
  closes := 0

variable (k : Fin 64)

def capacity : UInt64 := UInt64.ofNat (2 ^ k.val)

def slot (i : UInt64) : ℕ := (i &&& (capacity k - 1)).toNat

/-- The steps of `push` that only look; `wait` comes back when the gate has another value. -/
def PushPc.next (s : State α) : PushPc α → Option (PushPc α)
  | loadTail v => some (.checkClosed v s.tail)
  | checkClosed v tl => some (if s.closed then .refused else .checkHead v tl)
  | checkHead v tl => some (if tl - s.head < capacity k then .write v tl else .loadGate v tl)
  | loadGate v tl => some (.recheckHead v tl s.notFullGate)
  | recheckHead v tl g =>
    some (if tl - s.head < capacity k then .checkClosed v tl else .recheckClosed v tl g)
  | recheckClosed v tl g => some (if s.closed then .checkClosed v tl else .wait v tl g)
  | wait v tl g => if s.notFullGate = g then none else some (.checkClosed v tl)
  | _ => none

def pushStep (s : State α) : Option (State α) :=
  match s.producer with
  | .write v tl =>
    some { s with buf := Function.update s.buf (slot k tl) v, producer := .storeTail v tl }
  | .storeTail v tl => some { s with tail := tl + 1, pushed := s.pushed ++ [v], producer := .bump }
  | .bump => some { s with
      notEmptyGate := s.notEmptyGate + 1, emptyBumps := s.emptyBumps + 1, producer := .rest }
  | pc => (pc.next k s).map fun pc => { s with producer := pc }

/-- The steps of `pop` that only look. -/
def PopPc.next (s : State α) : PopPc α → Option (PopPc α)
  | loadHead => some (.checkTail s.head)
  | checkTail hd => some (if hd ≠ s.tail then .read hd else .checkClosed hd)
  | checkClosed hd => some (if s.closed then .lastTail hd else .loadGate hd)
  | lastTail hd => some (if hd = s.tail then .failed else .read hd)
  | loadGate hd => some (.recheckTail hd s.notEmptyGate)
  | recheckTail hd g => some (if hd ≠ s.tail then .checkTail hd else .recheckClosed hd g)
  | recheckClosed hd g => some (if s.closed then .checkTail hd else .wait hd g)
  | wait hd g => if s.notEmptyGate = g then none else some (.checkTail hd)
  | _ => none

def popStep (moved : α → α) (s : State α) : Option (State α) :=
  match s.consumer with
  | .read hd => some { s with
      buf := Function.update s.buf (slot k hd) (moved (s.buf (slot k hd)))
      consumer := .storeHead (s.buf (slot k hd)) hd }
  | .storeHead out hd =>
    some { s with head := hd + 1, popped := s.popped ++ [out], consumer := .bump }
  | .bump => some { s with
      notFullGate := s.notFullGate + 1, fullBumps := s.fullBumps + 1, consumer := .rest }
  | pc => (pc.next s).map fun pc => { s with consumer := pc }

/-- The first step of `close`. -/
def State.close (s : State α) : State α :=
  { s with closed := true, closing := s.closing + 1, closes := s.closes + 1 }

def State.closeEmpty (s : State α) : State α :=
  { s with
    notEmptyGate := s.notEmptyGate + 1
    emptyBumps := s.emptyBumps + 1
    closing := s.closing - 1
    closingLate := s.closingLate + 1 }

def State.closeFull (s : State α) : State α :=
  { s with
    notFullGate := s.notFullGate + 1, fullBumps := s.fullBumps + 1,
      closingLate := s.closingLate - 1 }

/-- One producer, one consumer and any number of calls of `close`. -/
inductive Step (moved : α → α) : State α → State α → Prop where
  | push (s : State α) (v : α) (h : s.producer = .rest ∨ s.producer = .refused) :
      Step moved s { s with producer := .loadTail v }
  | produce (s s' : State α) (h : pushStep k s = some s') : Step moved s s'
  | pop (s : State α) (h : s.consumer = .rest ∨ s.consumer = .failed) :
      Step moved s { s with consumer := .loadHead }
  | consume (s s' : State α) (h : popStep k moved s = some s') : Step moved s s'
  | close (s : State α) : Step moved s s.close
  | closeEmpty (s : State α) (h : 0 < s.closing) : Step moved s s.closeEmpty
  | closeFull (s : State α) (h : 0 < s.closingLate) : Step moved s s.closeFull

def Reachable (moved : α → α) (s : State α) : Prop :=
  ∃ buf, Relation.ReflTransGen (Step k moved) (State.start buf) s

/-! ## What holds in every state -/

def PushPc.bumping : PushPc α → ℕ
  | bump => 1
  | _ => 0

def PopPc.bumping : PopPc α → ℕ
  | bump => 1
  | _ => 0

def PopPc.took : PopPc α → ℕ
  | storeHead _ _ => 1
  | _ => 0

section
variable (s : State α)

structure Core : Prop where
  tail : s.tail = UInt64.ofNat s.pushed.length
  head : s.head = UInt64.ofNat s.popped.length
  room : s.pushed.length ≤ s.popped.length + 2 ^ k.val
  order : s.popped <+: s.pushed
  slots : ∀ n x, s.popped.length + s.consumer.took ≤ n → s.pushed[n]? = some x →
    s.buf (n % 2 ^ k.val) = x
  emptyGate : s.notEmptyGate = UInt32.ofNat s.emptyBumps
  fullGate : s.notFullGate = UInt32.ofNat s.fullBumps
  emptyCount : s.emptyBumps + s.closing + s.producer.bumping = s.pushed.length + s.closes
  fullCount : s.fullBumps + s.closing + s.closingLate + s.consumer.bumping =
    s.popped.length + s.closes
  closes : s.closing + s.closingLate ≤ s.closes

def Free : Prop := s.pushed.length < s.popped.length + 2 ^ k.val

def FreeKnown (base : ℕ) : Prop := Free k s → base < s.fullBumps + s.consumer.bumping

def ClosedKnownFull (base : ℕ) : Prop :=
  s.closed = true → base < s.fullBumps + s.closing + s.closingLate

def PushOk : PushPc α → Prop
  | .rest | .refused | .loadTail _ | .bump => True
  | .checkClosed _ tl | .checkHead _ tl | .loadGate _ tl => tl = s.tail
  | .recheckHead _ tl g =>
    tl = s.tail ∧ Saw g s.fullBumps (s.pushed.length - 2 ^ k.val) fun _ => True
  | .recheckClosed _ tl g =>
    tl = s.tail ∧ Saw g s.fullBumps (s.pushed.length - 2 ^ k.val) (FreeKnown k s)
  | .wait _ tl g => tl = s.tail ∧
      Saw g s.fullBumps (s.pushed.length - 2 ^ k.val) fun base => FreeKnown k s base ∧
        ClosedKnownFull s base
  | .write _ tl => tl = s.tail ∧ Free k s
  | .storeTail v tl => tl = s.tail ∧ Free k s ∧ s.buf (s.pushed.length % 2 ^ k.val) = v

def Filled : Prop := s.popped.length < s.pushed.length

def FilledKnown (base : ℕ) : Prop := Filled s → base < s.emptyBumps + s.producer.bumping

def ClosedKnownEmpty (base : ℕ) : Prop := s.closed = true → base < s.emptyBumps + s.closing

def PopOk : PopPc α → Prop
  | .rest | .failed | .loadHead | .bump => True
  | .checkTail hd | .checkClosed hd | .loadGate hd => hd = s.head
  | .lastTail hd => hd = s.head ∧ s.closed = true
  | .recheckTail hd g => hd = s.head ∧ Saw g s.emptyBumps s.popped.length fun _ => True
  | .recheckClosed hd g => hd = s.head ∧ Saw g s.emptyBumps s.popped.length (FilledKnown s)
  | .wait hd g => hd = s.head ∧
      Saw g s.emptyBumps s.popped.length fun base => FilledKnown s base ∧ ClosedKnownEmpty s base
  | .read hd => hd = s.head ∧ Filled s
  | .storeHead out hd => hd = s.head ∧ s.pushed[s.popped.length]? = some out

structure Inv : Prop where
  core : Core k s
  producer : PushOk k s s.producer
  consumer : PopOk s s.consumer

end

/-! ## What the other threads may do -/

section
variable {k} {s s' : State α}

structure PushRely (k : Fin 64) (s s' : State α) : Prop where
  producer : s'.producer = s.producer
  tail : s'.tail = s.tail
  pushed : s'.pushed = s.pushed
  buf : Free k s → s'.buf (s.pushed.length % 2 ^ k.val) = s.buf (s.pushed.length % 2 ^ k.val)
  popped : s.popped.length ≤ s'.popped.length
  bumps : s.fullBumps ≤ s'.fullBumps
  freed : s.popped.length < s'.popped.length → s.fullBumps < s'.fullBumps + s'.consumer.bumping
  due : s.fullBumps + s.consumer.bumping ≤ s'.fullBumps + s'.consumer.bumping
  closers : s.fullBumps + s.closing + s.closingLate ≤ s'.fullBumps + s'.closing + s'.closingLate
  closed : s'.closed = true → s.closed = true ∨ s.fullBumps <
    s'.fullBumps + s'.closing + s'.closingLate

variable {base : ℕ}

theorem FreeKnown.rely (hbase : base ≤ s.fullBumps) (h : FreeKnown k s base)
    (hrely : PushRely k s s') : FreeKnown k s' base := by
  intro hfree
  by_cases hbefore : Free k s
  · exact (h hbefore).trans_le hrely.due
  · have hmore : s.popped.length < s'.popped.length := by
      simp only [Free, hrely.pushed] at hfree hbefore
      omega
    exact hbase.trans_lt (hrely.freed hmore)

theorem ClosedKnownFull.rely (hbase : base ≤ s.fullBumps) (h : ClosedKnownFull s base)
    (hrely : PushRely k s s') : ClosedKnownFull s' base := by
  intro hclosed
  rcases hrely.closed hclosed with hbefore | hnow
  · exact (h hbefore).trans_le hrely.closers
  · exact hbase.trans_lt hnow

theorem Free.rely (h : Free k s) (hrely : PushRely k s s') : Free k s' := by
  have hpopped := hrely.popped
  simp only [Free, hrely.pushed] at h ⊢
  omega

theorem PushOk.rely (h : PushOk k s s.producer) (hrely : PushRely k s s') :
    PushOk k s' s'.producer := by
  rw [hrely.producer]
  cases hpc : s.producer with
  | rest | refused | loadTail _ | bump => exact trivial
  | checkClosed v tl | checkHead v tl | loadGate v tl =>
    rw [hpc] at h
    exact h.trans hrely.tail.symm
  | recheckHead v tl g =>
    rw [hpc] at h
    rw [PushOk, hrely.pushed, hrely.tail]
    exact ⟨h.1, h.2.mono hrely.bumps fun _ _ h => h⟩
  | recheckClosed v tl g =>
    rw [hpc] at h
    rw [PushOk, hrely.pushed, hrely.tail]
    exact ⟨h.1, h.2.mono hrely.bumps fun _ hle h => h.rely hle hrely⟩
  | wait v tl g =>
    rw [hpc] at h
    rw [PushOk, hrely.pushed, hrely.tail]
    exact ⟨h.1, h.2.mono hrely.bumps fun _ hle h => ⟨h.1.rely hle hrely, h.2.rely hle hrely⟩⟩
  | write v tl =>
    rw [hpc] at h
    exact ⟨h.1.trans hrely.tail.symm, h.2.rely hrely⟩
  | storeTail v tl =>
    rw [hpc] at h
    refine ⟨h.1.trans hrely.tail.symm, h.2.1.rely hrely, ?_⟩
    rw [hrely.pushed, hrely.buf h.2.1]
    exact h.2.2

structure PopRely (s s' : State α) : Prop where
  consumer : s'.consumer = s.consumer
  head : s'.head = s.head
  popped : s'.popped = s.popped
  pushed : s.pushed <+: s'.pushed
  bumps : s.emptyBumps ≤ s'.emptyBumps
  filled : s.pushed.length < s'.pushed.length → s.emptyBumps < s'.emptyBumps + s'.producer.bumping
  due : s.emptyBumps + s.producer.bumping ≤ s'.emptyBumps + s'.producer.bumping
  closers : s.emptyBumps + s.closing ≤ s'.emptyBumps + s'.closing
  closed : s'.closed = true → s.closed = true ∨ s.emptyBumps < s'.emptyBumps + s'.closing
  stays : s.closed = true → s'.closed = true

theorem FilledKnown.rely (hbase : base ≤ s.emptyBumps) (h : FilledKnown s base)
    (hrely : PopRely s s') : FilledKnown s' base := by
  intro hfilled
  by_cases hbefore : Filled s
  · exact (h hbefore).trans_le hrely.due
  · have hmore : s.pushed.length < s'.pushed.length := by
      simp only [Filled, hrely.popped] at hfilled hbefore
      omega
    exact hbase.trans_lt (hrely.filled hmore)

theorem ClosedKnownEmpty.rely (hbase : base ≤ s.emptyBumps) (h : ClosedKnownEmpty s base)
    (hrely : PopRely s s') : ClosedKnownEmpty s' base := by
  intro hclosed
  rcases hrely.closed hclosed with hbefore | hnow
  · exact (h hbefore).trans_le hrely.closers
  · exact hbase.trans_lt hnow

theorem PopOk.rely (h : PopOk s s.consumer) (hrely : PopRely s s') : PopOk s' s'.consumer := by
  rw [hrely.consumer]
  cases hpc : s.consumer with
  | rest | failed | loadHead | bump => exact trivial
  | checkTail hd | checkClosed hd | loadGate hd =>
    rw [hpc] at h
    exact h.trans hrely.head.symm
  | lastTail hd =>
    rw [hpc] at h
    exact ⟨h.1.trans hrely.head.symm, hrely.stays h.2⟩
  | recheckTail hd g =>
    rw [hpc] at h
    rw [PopOk, hrely.popped, hrely.head]
    exact ⟨h.1, h.2.mono hrely.bumps fun _ _ h => h⟩
  | recheckClosed hd g =>
    rw [hpc] at h
    rw [PopOk, hrely.popped, hrely.head]
    exact ⟨h.1, h.2.mono hrely.bumps fun _ hle h => h.rely hle hrely⟩
  | wait hd g =>
    rw [hpc] at h
    rw [PopOk, hrely.popped, hrely.head]
    exact ⟨h.1, h.2.mono hrely.bumps fun _ hle h => ⟨h.1.rely hle hrely, h.2.rely hle hrely⟩⟩
  | read hd =>
    rw [hpc] at h
    refine ⟨h.1.trans hrely.head.symm, ?_⟩
    rw [Filled, hrely.popped]
    exact Nat.lt_of_lt_of_le h.2 hrely.pushed.length_le
  | storeHead out hd =>
    rw [hpc] at h
    refine ⟨h.1.trans hrely.head.symm, ?_⟩
    obtain ⟨more, hmore⟩ := hrely.pushed
    rw [hrely.popped, ← hmore, List.getElem?_append_left (List.getElem?_eq_some_iff.mp h.2).1]
    exact h.2

end

/-! ## Steps -/

section
variable {k} {s s' : State α} {moved : α → α}

theorem Core.le (h : Core k s) : s.popped.length ≤ s.pushed.length := h.order.length_le

theorem capacity_toNat : (capacity k).toNat = 2 ^ k.val := by
  rw [capacity, UInt64.toNat_ofNat', Nat.mod_eq_of_lt (Nat.pow_lt_pow_right (by decide) k.isLt)]

theorem Core.near (h : Core k s) : s.pushed.length < s.popped.length + 2 ^ 64 := by
  have hpow : 2 ^ k.val < 2 ^ 64 := Nat.pow_lt_pow_right (by decide) k.isLt
  have hroom := h.room
  omega

theorem Core.free_iff (h : Core k s) : s.tail - s.head < capacity k ↔ Free k s := by
  have hle := h.le
  rw [UInt64.lt_iff_toNat_lt, capacity_toNat, h.tail, h.head,
    UInt64.ofNat_sub_ofNat hle h.near, Free]
  omega

theorem Core.filled_iff (h : Core k s) : s.head ≠ s.tail ↔ Filled s := by
  have hle := h.le
  rw [h.tail, h.head, ne_eq, UInt64.ofNat_eq_iff hle h.near, Filled]
  omega

theorem slot_ofNat (n : ℕ) : slot k (UInt64.ofNat n) = n % 2 ^ k.val := UInt64.toNat_mask k.isLt n

/-! ### The producer -/

variable {pc : PushPc α} {tl : UInt64} {v : α}

theorem next_bumping {pc' : PushPc α} (h : pc.next k s = some pc') :
    pc.bumping = 0 ∧ pc'.bumping = 0 := by
  cases pc <;> simp only [PushPc.next, Option.some.injEq, reduceCtorEq] at h
  case wait v tl g =>
    split_ifs at h
    cases h
    exact ⟨rfl, rfl⟩
  all_goals
    subst h
    first | exact ⟨rfl, rfl⟩ | (split_ifs <;> exact ⟨rfl, rfl⟩)

theorem push_next (h : Inv k s) (hnext : s.producer.next k s = some pc) : PushOk k s pc := by
  have hok := h.producer
  cases hpc : s.producer with
  | rest | refused | write v tl | storeTail v tl | bump =>
    rw [hpc] at hnext
    exact nomatch hnext
  | loadTail v =>
    rw [hpc] at hnext
    cases hnext
    exact rfl
  | checkClosed v tl =>
    rw [hpc] at hnext hok
    cases hnext
    split_ifs
    · exact trivial
    · exact hok
  | checkHead v tl =>
    rw [hpc] at hnext hok
    obtain rfl : tl = s.tail := hok
    cases hnext
    split_ifs with hfree
    · exact ⟨rfl, h.core.free_iff.mp hfree⟩
    · exact rfl
  | loadGate v tl =>
    rw [hpc] at hnext hok
    cases hnext
    have hlow : s.pushed.length - 2 ^ k.val ≤ s.fullBumps + 1 := by
      have hroom := h.core.room
      have hcount := h.core.fullCount
      have hcloses := h.core.closes
      have hone : s.consumer.bumping ≤ 1 := by
        cases s.consumer <;> simp [PopPc.bumping]
      omega
    rw [h.core.fullGate]
    exact ⟨hok, saw_now hlow trivial⟩
  | recheckHead v tl g =>
    rw [hpc] at hnext hok
    obtain ⟨rfl, hsaw⟩ := hok
    cases hnext
    split_ifs with hfree
    · exact rfl
    · refine ⟨rfl, hsaw.mono le_rfl fun base _ _ hnow => ?_⟩
      exact absurd (h.core.free_iff.mpr hnow) hfree
  | recheckClosed v tl g =>
    rw [hpc] at hnext hok
    cases hnext
    split_ifs with hclosed
    · exact hok.1
    · exact ⟨hok.1, hok.2.mono le_rfl fun base _ hfree => ⟨hfree, fun hnow => absurd hnow hclosed⟩⟩
  | wait v tl g =>
    rw [hpc] at hnext hok
    rw [PushPc.next] at hnext
    split_ifs at hnext
    cases hnext
    exact hok.1

theorem pushStep_cases (h : pushStep k s = some s') :
    (∃ pc, s.producer.next k s = some pc ∧ s' = { s with producer := pc }) ∨
    (∃ v tl, s.producer = .write v tl ∧
      s' = { s with buf := Function.update s.buf (slot k tl) v, producer := .storeTail v tl }) ∨
    (∃ v tl, s.producer = .storeTail v tl ∧
      s' = { s with tail := tl + 1, pushed := s.pushed ++ [v], producer := .bump }) ∨
    (s.producer = .bump ∧ s' = { s with
      notEmptyGate := s.notEmptyGate + 1, emptyBumps := s.emptyBumps + 1, producer := .rest }) := by
  rw [pushStep] at h
  split at h
  · next v tl hpc => exact .inr (.inl ⟨v, tl, hpc, (Option.some.inj h).symm⟩)
  · next v tl hpc => exact .inr (.inr (.inl ⟨v, tl, hpc, (Option.some.inj h).symm⟩))
  · next hpc => exact .inr (.inr (.inr ⟨hpc, (Option.some.inj h).symm⟩))
  · obtain ⟨pc, hnext, hs'⟩ := Option.map_eq_some_iff.mp h
    exact .inl ⟨pc, hnext, hs'.symm⟩

theorem Core.setProducer (h : Core k s) (hpc : pc.bumping = s.producer.bumping) :
    Core k { s with producer := pc } :=
  { h with emptyCount := by rw [← h.emptyCount]; exact congrArg (s.emptyBumps + s.closing + ·) hpc }

theorem popRely_setProducer (hpc : pc.bumping = s.producer.bumping) :
    PopRely s { s with producer := pc } where
  consumer := rfl
  head := rfl
  popped := rfl
  pushed := List.prefix_refl _
  bumps := le_rfl
  filled h := absurd h (lt_irrefl _)
  due := le_of_eq (congrArg (s.emptyBumps + ·) hpc.symm)
  closers := le_rfl
  closed := .inl
  stays := id

theorem Inv.setProducer (h : Inv k s) (hpc : pc.bumping = s.producer.bumping)
    (hok : PushOk k s pc) :
    Inv k { s with producer := pc } :=
  ⟨h.core.setProducer hpc, hok, h.consumer.rely (popRely_setProducer hpc)⟩

theorem Inv.write (h : Inv k s) (hpc : s.producer = .write v tl) :
    Inv k { s with buf := Function.update s.buf (slot k tl) v, producer := .storeTail v tl } := by
  have hok := h.producer
  rw [hpc] at hok
  obtain ⟨rfl, hfree⟩ := hok
  have hslot : slot k s.tail = s.pushed.length % 2 ^ k.val := by rw [h.core.tail, slot_ofNat]
  have hbump : (PushPc.storeTail v s.tail).bumping = s.producer.bumping := by rw [hpc]; rfl
  refine ⟨{ h.core.setProducer hbump with slots := ?_ }, ⟨rfl, hfree, ?_⟩,
    PopOk.rely h.consumer { popRely_setProducer hbump with }⟩
  · intro n x (hn : s.popped.length + s.consumer.took ≤ n) hx
    have hlt := (List.getElem?_eq_some_iff.mp hx).1
    have hother : n % 2 ^ k.val ≠ s.pushed.length % 2 ^ k.val :=
      mod_ne_mod hlt (hfree.trans_le (by omega))
    change Function.update s.buf (slot k s.tail) v (n % 2 ^ k.val) = x
    rw [hslot, Function.update_of_ne hother]
    exact h.core.slots n x hn hx
  · change Function.update s.buf (slot k s.tail) v (s.pushed.length % 2 ^ k.val) = v
    rw [hslot, Function.update_self]

theorem Inv.storeTail (h : Inv k s) (hpc : s.producer = .storeTail v tl) :
    Inv k { s with tail := tl + 1, pushed := s.pushed ++ [v], producer := .bump } := by
  have hok := h.producer
  rw [hpc] at hok
  obtain ⟨rfl, hfree, hbuf⟩ := hok
  have hidle : s.producer.bumping = 0 := by rw [hpc]; rfl
  have hlength : (s.pushed ++ [v]).length = s.pushed.length + 1 := List.length_append
  refine ⟨{ h.core with tail := ?_, room := ?_, order := ?_, slots := ?_, emptyCount := ?_ },
    trivial, ?_⟩
  · change s.tail + 1 = UInt64.ofNat (s.pushed ++ [v]).length
    rw [hlength, h.core.tail, UInt64.ofNat_succ]
  · change (s.pushed ++ [v]).length ≤ _
    rw [hlength]
    exact hfree
  · exact h.core.order.trans (List.prefix_append _ _)
  · intro n x (hn : s.popped.length + s.consumer.took ≤ n) (hx : (s.pushed ++ [v])[n]? = some x)
    rcases Nat.lt_trichotomy n s.pushed.length with hlt | heq | hgt
    · rw [List.getElem?_append_left hlt] at hx
      exact h.core.slots n x hn hx
    · rw [heq, List.getElem?_concat_length] at hx
      rw [heq, ← Option.some.inj hx]
      exact hbuf
    · rw [List.getElem?_eq_none (by omega)] at hx
      exact nomatch hx
  · have hcount := h.core.emptyCount
    change s.emptyBumps + s.closing + 1 = (s.pushed ++ [v]).length + s.closes
    omega
  · refine h.consumer.rely
      { consumer := rfl, head := rfl, popped := rfl, pushed := List.prefix_append _ _,
        bumps := le_rfl, filled := fun _ => Nat.lt_succ_self _, due := ?_, closers := le_rfl,
          closed := .inl, stays := id }
    rw [hidle]
    exact Nat.le_succ _

theorem Inv.bumpEmpty (h : Inv k s) (hpc : s.producer = .bump) :
    Inv k { s with
      notEmptyGate := s.notEmptyGate + 1, emptyBumps := s.emptyBumps + 1, producer := .rest } := by
  have hdue : s.producer.bumping = 1 := by rw [hpc]; rfl
  refine ⟨{ h.core with emptyGate := ?_, emptyCount := ?_ }, trivial, ?_⟩
  · change s.notEmptyGate + 1 = UInt32.ofNat (s.emptyBumps + 1)
    rw [h.core.emptyGate, UInt32.ofNat_succ]
  · have hcount := h.core.emptyCount
    change s.emptyBumps + 1 + s.closing + 0 = s.pushed.length + s.closes
    omega
  · refine h.consumer.rely
      { consumer := rfl, head := rfl, popped := rfl, pushed := List.prefix_refl _,
        bumps := Nat.le_succ _, filled := fun h => absurd h (lt_irrefl _), due := ?_, closers := ?_,
          closed := .inl, stays := id }
    · rw [hdue]
      exact le_rfl
    · exact Nat.add_le_add_right (Nat.le_succ _) _

theorem Inv.produce (h : Inv k s) (hstep : pushStep k s = some s') : Inv k s' := by
  obtain ⟨pc, hnext, rfl⟩ | ⟨v, tl, hpc, rfl⟩ | ⟨v, tl, hpc, rfl⟩ | ⟨hpc, rfl⟩ :=
    pushStep_cases hstep
  · obtain ⟨hbefore, hbehind⟩ := next_bumping hnext
    exact h.setProducer (hbehind.trans hbefore.symm) (push_next h hnext)
  · exact h.write hpc
  · exact h.storeTail hpc
  · exact h.bumpEmpty hpc

/-! ### The consumer -/

theorem pop_next_bumping {pc pc' : PopPc α} (h : pc.next s = some pc') :
    (pc.bumping = 0 ∧ pc.took = 0) ∧ pc'.bumping = 0 ∧ pc'.took = 0 := by
  cases pc <;> simp only [PopPc.next, Option.some.injEq, reduceCtorEq] at h
  case wait hd g =>
    split_ifs at h
    cases h
    exact ⟨⟨rfl, rfl⟩, rfl, rfl⟩
  all_goals
    subst h
    first | exact ⟨⟨rfl, rfl⟩, rfl, rfl⟩ | (split_ifs <;> exact ⟨⟨rfl, rfl⟩, rfl, rfl⟩)

theorem pop_next (h : Inv k s) {pc : PopPc α} (hnext : s.consumer.next s = some pc) :
    PopOk s pc := by
  have hok := h.consumer
  cases hpc : s.consumer with
  | rest | failed | read hd | storeHead out hd | bump =>
    rw [hpc] at hnext
    exact nomatch hnext
  | loadHead =>
    rw [hpc] at hnext
    cases hnext
    exact rfl
  | checkTail hd =>
    rw [hpc] at hnext hok
    obtain rfl : hd = s.head := hok
    cases hnext
    split_ifs with hempty
    · exact ⟨rfl, h.core.filled_iff.mp hempty⟩
    · exact rfl
  | checkClosed hd =>
    rw [hpc] at hnext hok
    cases hnext
    split_ifs with hclosed
    · exact ⟨hok, hclosed⟩
    · exact hok
  | lastTail hd =>
    rw [hpc] at hnext hok
    obtain ⟨rfl, hclosed⟩ := hok
    cases hnext
    split_ifs with hempty
    · exact trivial
    · exact ⟨rfl, h.core.filled_iff.mp hempty⟩
  | loadGate hd =>
    rw [hpc] at hnext hok
    cases hnext
    have hlow : s.popped.length ≤ s.emptyBumps + 1 := by
      have hle := h.core.le
      have hcount := h.core.emptyCount
      have hcloses := h.core.closes
      have hone : s.producer.bumping ≤ 1 := by
        cases s.producer <;> simp [PushPc.bumping]
      omega
    rw [h.core.emptyGate]
    exact ⟨hok, saw_now hlow trivial⟩
  | recheckTail hd g =>
    rw [hpc] at hnext hok
    obtain ⟨rfl, hsaw⟩ := hok
    cases hnext
    split_ifs with hempty
    · exact rfl
    · refine ⟨rfl, hsaw.mono le_rfl fun base _ _ hnow => ?_⟩
      exact absurd (h.core.filled_iff.mpr hnow) hempty
  | recheckClosed hd g =>
    rw [hpc] at hnext hok
    cases hnext
    split_ifs with hclosed
    · exact hok.1
    · exact ⟨hok.1, hok.2.mono le_rfl fun base _ hfilled =>
        ⟨hfilled, fun hnow => absurd hnow hclosed⟩⟩
  | wait hd g =>
    rw [hpc] at hnext hok
    rw [PopPc.next] at hnext
    split_ifs at hnext
    cases hnext
    exact hok.1

theorem popStep_cases (h : popStep k moved s = some s') :
    (∃ pc, s.consumer.next s = some pc ∧ s' = { s with consumer := pc }) ∨
    (∃ hd, s.consumer = .read hd ∧ s' = { s with
      buf := Function.update s.buf (slot k hd) (moved (s.buf (slot k hd)))
      consumer := .storeHead (s.buf (slot k hd)) hd }) ∨
    (∃ out hd, s.consumer = .storeHead out hd ∧
      s' = { s with head := hd + 1, popped := s.popped ++ [out], consumer := .bump }) ∨
    (s.consumer = .bump ∧ s' = { s with
      notFullGate := s.notFullGate + 1, fullBumps := s.fullBumps + 1, consumer := .rest }) := by
  rw [popStep] at h
  split at h
  · next hd hpc => exact .inr (.inl ⟨hd, hpc, (Option.some.inj h).symm⟩)
  · next out hd hpc => exact .inr (.inr (.inl ⟨out, hd, hpc, (Option.some.inj h).symm⟩))
  · next hpc => exact .inr (.inr (.inr ⟨hpc, (Option.some.inj h).symm⟩))
  · obtain ⟨pc, hnext, hs'⟩ := Option.map_eq_some_iff.mp h
    exact .inl ⟨pc, hnext, hs'.symm⟩

theorem pushRely_setConsumer {pc : PopPc α} (hpc : pc.bumping = s.consumer.bumping) :
    PushRely k s { s with consumer := pc } where
  producer := rfl
  tail := rfl
  pushed := rfl
  buf _ := rfl
  popped := le_rfl
  bumps := le_rfl
  freed h := absurd h (lt_irrefl _)
  due := le_of_eq (congrArg (s.fullBumps + ·) hpc.symm)
  closers := le_rfl
  closed := .inl

theorem Inv.setConsumer (h : Inv k s) {pc : PopPc α} (hpc : pc.bumping = s.consumer.bumping)
    (htook : pc.took = s.consumer.took) (hok : PopOk s pc) : Inv k { s with consumer := pc } := by
  refine ⟨{ h.core with slots := ?_, fullCount := ?_ },
    h.producer.rely (pushRely_setConsumer hpc), hok⟩
  · intro n x (hn : s.popped.length + pc.took ≤ n) hx
    exact h.core.slots n x (htook ▸ hn) hx
  · rw [← h.core.fullCount]
    exact congrArg (s.fullBumps + s.closing + s.closingLate + ·) hpc

theorem Core.slot_head (h : Core k s) (hfilled : Filled s) (htook : s.consumer.took = 0) :
    s.pushed[s.popped.length]? = some (s.buf (slot k s.head)) := by
  have hx := List.getElem?_eq_getElem (l := s.pushed) hfilled
  rw [h.head, slot_ofNat, hx, h.slots _ _ (by omega) hx]

theorem Inv.read (h : Inv k s) {hd : UInt64} (hpc : s.consumer = .read hd) :
    Inv k { s with
      buf := Function.update s.buf (slot k hd) (moved (s.buf (slot k hd)))
      consumer := .storeHead (s.buf (slot k hd)) hd } := by
  have hok := h.consumer
  rw [hpc] at hok
  obtain ⟨rfl, hfilled⟩ := hok
  have htook : s.consumer.took = 0 := by rw [hpc]; rfl
  have hidle : s.consumer.bumping = 0 := by rw [hpc]; rfl
  have hslot : slot k s.head = s.popped.length % 2 ^ k.val := by rw [h.core.head, slot_ofNat]
  have hkeep : ∀ n, s.popped.length < n → n < s.popped.length + 2 ^ k.val →
      Function.update s.buf (slot k s.head) (moved (s.buf (slot k s.head))) (n % 2 ^ k.val) =
        s.buf (n % 2 ^ k.val) := by
    intro n hlt hnear
    rw [hslot, Function.update_of_ne (mod_ne_mod hlt hnear).symm]
  refine ⟨{ h.core with slots := ?_, fullCount := ?_ }, ?_, ⟨rfl, h.core.slot_head hfilled htook⟩⟩
  · intro n x (hn : s.popped.length + 1 ≤ n) (hx : s.pushed[n]? = some x)
    have hlt := (List.getElem?_eq_some_iff.mp hx).1
    have hroom := h.core.room
    exact (hkeep n hn (by omega)).trans (h.core.slots n x (by omega) hx)
  · have hcount := h.core.fullCount
    rw [hidle] at hcount
    exact hcount
  · have hrely : PushRely k s { s with consumer := .storeHead (s.buf (slot k s.head)) s.head } :=
      pushRely_setConsumer hidle.symm
    exact h.producer.rely { hrely with buf := fun hfree => hkeep _ hfilled hfree }

theorem Inv.storeHead (h : Inv k s) {out : α} {hd : UInt64} (hpc : s.consumer = .storeHead out hd) :
    Inv k { s with head := hd + 1, popped := s.popped ++ [out], consumer := .bump } := by
  have hok := h.consumer
  rw [hpc] at hok
  obtain ⟨rfl, hnext⟩ := hok
  have htook : s.consumer.took = 1 := by rw [hpc]; rfl
  have hidle : s.consumer.bumping = 0 := by rw [hpc]; rfl
  have hlength : (s.popped ++ [out]).length = s.popped.length + 1 := List.length_append
  refine ⟨{ h.core with head := ?_, room := ?_, order := ?_, slots := ?_, fullCount := ?_ },
    ?_, trivial⟩
  · change s.head + 1 = UInt64.ofNat (s.popped ++ [out]).length
    rw [hlength, h.core.head, UInt64.ofNat_succ]
  · have hroom := h.core.room
    change s.pushed.length ≤ (s.popped ++ [out]).length + 2 ^ k.val
    omega
  · obtain ⟨rest, hrest⟩ := h.core.order
    change s.popped ++ [out] <+: s.pushed
    rw [← hrest, List.getElem?_append_right le_rfl, Nat.sub_self] at hnext
    obtain ⟨behind, rfl⟩ : ∃ behind, rest = out :: behind := by
      cases rest with
      | nil => exact nomatch hnext
      | cons x behind => exact ⟨behind, by rw [Option.some.inj hnext]⟩
    exact ⟨behind, by rw [← hrest, List.append_assoc, List.singleton_append]⟩
  · intro n x (hn : (s.popped ++ [out]).length + 0 ≤ n) hx
    exact h.core.slots n x (by omega) hx
  · have hcount := h.core.fullCount
    change s.fullBumps + s.closing + s.closingLate + 1 = (s.popped ++ [out]).length + s.closes
    omega
  · refine h.producer.rely
      { producer := rfl, tail := rfl, pushed := rfl, buf := fun _ => rfl,
        popped := ?_, bumps := le_rfl, freed := fun _ => Nat.lt_succ_self _, due := ?_,
          closers := le_rfl, closed := .inl }
    · exact hlength ▸ Nat.le_succ _
    · rw [hidle]
      exact Nat.le_succ _

theorem Inv.bumpFull (h : Inv k s) (hpc : s.consumer = .bump) :
    Inv k { s with
      notFullGate := s.notFullGate + 1, fullBumps := s.fullBumps + 1, consumer := .rest } := by
  have hdue : s.consumer.bumping = 1 := by rw [hpc]; rfl
  have htook : s.consumer.took = 0 := by rw [hpc]; rfl
  refine ⟨{ h.core with slots := ?_, fullGate := ?_, fullCount := ?_ }, ?_, trivial⟩
  · intro n x (hn : s.popped.length + 0 ≤ n) hx
    exact h.core.slots n x (htook ▸ hn) hx
  · change s.notFullGate + 1 = UInt32.ofNat (s.fullBumps + 1)
    rw [h.core.fullGate, UInt32.ofNat_succ]
  · have hcount := h.core.fullCount
    change s.fullBumps + 1 + s.closing + s.closingLate + 0 = s.popped.length + s.closes
    omega
  · refine h.producer.rely
      { producer := rfl, tail := rfl, pushed := rfl, buf := fun _ => rfl, popped := le_rfl,
        bumps := Nat.le_succ _, freed := fun h => absurd h (lt_irrefl _), due := ?_,
          closers := ?_, closed := .inl }
    · rw [hdue]
      exact le_rfl
    · exact Nat.add_le_add_right (Nat.add_le_add_right (Nat.le_succ _) _) _

theorem Inv.consume (h : Inv k s) (hstep : popStep k moved s = some s') : Inv k s' := by
  obtain ⟨pc, hnext, rfl⟩ | ⟨hd, hpc, rfl⟩ | ⟨out, hd, hpc, rfl⟩ | ⟨hpc, rfl⟩ := popStep_cases hstep
  · obtain ⟨hbefore, hbehind⟩ := pop_next_bumping hnext
    exact h.setConsumer (hbehind.1.trans hbefore.1.symm) (hbehind.2.trans hbefore.2.symm)
      (pop_next h hnext)
  · exact h.read hpc
  · exact h.storeHead hpc
  · exact h.bumpFull hpc

/-! ### Closing -/

theorem Inv.close (h : Inv k s) : Inv k s.close := by
  refine ⟨{ h.core with emptyCount := ?_, fullCount := ?_, closes := ?_ }, ?_, ?_⟩
  · have hcount := h.core.emptyCount
    change s.emptyBumps + (s.closing + 1) + s.producer.bumping = s.pushed.length + (s.closes + 1)
    omega
  · have hcount := h.core.fullCount
    change s.fullBumps + (s.closing + 1) + s.closingLate + s.consumer.bumping =
      s.popped.length + (s.closes + 1)
    omega
  · have hcloses := h.core.closes
    change s.closing + 1 + s.closingLate ≤ s.closes + 1
    omega
  · refine h.producer.rely
      { producer := rfl, tail := rfl, pushed := rfl, buf := fun _ => rfl,
        popped := le_rfl, bumps := le_rfl, freed := fun h => absurd h (lt_irrefl _), due := le_rfl,
          closers := ?_, closed := fun _ => .inr ?_ }
    · change _ ≤ s.fullBumps + (s.closing + 1) + s.closingLate
      omega
    · change _ < s.fullBumps + (s.closing + 1) + s.closingLate
      omega
  · refine h.consumer.rely
      { consumer := rfl, head := rfl, popped := rfl, pushed := List.prefix_refl _, bumps := le_rfl,
        filled :=
          fun h => absurd h (lt_irrefl _), due := le_rfl, closers := ?_, closed := fun _ => .inr ?_,
        stays := fun _ => rfl }
    · change _ ≤ s.emptyBumps + (s.closing + 1)
      omega
    · change _ < s.emptyBumps + (s.closing + 1)
      omega

theorem Inv.closeEmpty (h : Inv k s) (hclosing : 0 < s.closing) : Inv k s.closeEmpty := by
  refine ⟨{ h.core with emptyGate := ?_, emptyCount := ?_, fullCount := ?_, closes := ?_ }, ?_, ?_⟩
  · change s.notEmptyGate + 1 = UInt32.ofNat (s.emptyBumps + 1)
    rw [h.core.emptyGate, UInt32.ofNat_succ]
  · have hcount := h.core.emptyCount
    change s.emptyBumps + 1 + (s.closing - 1) + s.producer.bumping = s.pushed.length + s.closes
    omega
  · have hcount := h.core.fullCount
    change s.fullBumps + (s.closing - 1) + (s.closingLate + 1) + s.consumer.bumping =
      s.popped.length + s.closes
    omega
  · have hcloses := h.core.closes
    change s.closing - 1 + (s.closingLate + 1) ≤ s.closes
    omega
  · refine h.producer.rely
      { producer := rfl, tail := rfl, pushed := rfl, buf := fun _ => rfl,
        popped := le_rfl, bumps := le_rfl, freed := fun h => absurd h (lt_irrefl _), due := le_rfl,
          closers := ?_, closed := .inl }
    change _ ≤ s.fullBumps + (s.closing - 1) + (s.closingLate + 1)
    omega
  · refine h.consumer.rely
      { consumer := rfl, head := rfl, popped := rfl, pushed := List.prefix_refl _,
        bumps := Nat.le_succ _, filled := fun h => absurd h (lt_irrefl _), due := ?_, closers := ?_,
          closed := .inl, stays := id }
    · exact Nat.add_le_add_right (Nat.le_succ _) _
    · change _ ≤ s.emptyBumps + 1 + (s.closing - 1)
      omega

theorem Inv.closeFull (h : Inv k s) (hlate : 0 < s.closingLate) : Inv k s.closeFull := by
  refine ⟨{ h.core with fullGate := ?_, fullCount := ?_, closes := ?_ }, ?_, ?_⟩
  · change s.notFullGate + 1 = UInt32.ofNat (s.fullBumps + 1)
    rw [h.core.fullGate, UInt32.ofNat_succ]
  · have hcount := h.core.fullCount
    change s.fullBumps + 1 + s.closing + (s.closingLate - 1) + s.consumer.bumping =
      s.popped.length + s.closes
    omega
  · have hcloses := h.core.closes
    change s.closing + (s.closingLate - 1) ≤ s.closes
    omega
  · refine h.producer.rely
      { producer := rfl, tail := rfl, pushed := rfl, buf := fun _ => rfl, popped := le_rfl,
        bumps := Nat.le_succ _, freed := fun h => absurd h (lt_irrefl _), due := ?_,
          closers := ?_, closed := .inl }
    · exact Nat.add_le_add_right (Nat.le_succ _) _
    · change _ ≤ s.fullBumps + 1 + s.closing + (s.closingLate - 1)
      omega
  · exact h.consumer.rely
      { consumer := rfl, head := rfl, popped := rfl, pushed := List.prefix_refl _, bumps := le_rfl,
        filled := fun h => absurd h (lt_irrefl _), due := le_rfl, closers := le_rfl,
          closed := .inl, stays := id }

/-! ## Runs -/

theorem inv_start (buf : ℕ → α) : Inv k (State.start buf) where
  core :=
    { tail := rfl, head := rfl, room := Nat.zero_le _, order := List.prefix_refl _
      slots := fun _ _ _ hx => (nomatch hx)
      emptyGate := rfl, fullGate := rfl, emptyCount := rfl, fullCount := rfl, closes := le_rfl }
  producer := trivial
  consumer := trivial

theorem Inv.step (h : Inv k s) (hstep : Step k moved s s') : Inv k s' := by
  cases hstep with
  | push v hrest =>
    exact h.setProducer (by rcases hrest with hpc | hpc <;> rw [hpc] <;> rfl) trivial
  | produce _ hs' => exact h.produce hs'
  | pop hrest =>
    exact h.setConsumer (by rcases hrest with hpc | hpc <;> rw [hpc] <;> rfl)
      (by rcases hrest with hpc | hpc <;> rw [hpc] <;> rfl) trivial
  | consume _ hs' => exact h.consume hs'
  | close => exact h.close
  | closeEmpty hclosing => exact h.closeEmpty hclosing
  | closeFull hlate => exact h.closeFull hlate

theorem Reachable.inv (h : Reachable k moved s) : Inv k s := by
  obtain ⟨buf, hrun⟩ := h
  induction hrun with
  | refl => exact inv_start buf
  | tail _ hstep ih => exact ih.step hstep

def State.queue (s : State α) : BoundedQueue α := ⟨s.pushed.drop s.popped.length, s.closed⟩

theorem refines_produce (h : Inv k s) (hstep : pushStep k s = some s') :
    s'.queue = s.queue ∨ BoundedQueue.Step (2 ^ k.val) s.queue s'.queue := by
  obtain ⟨pc, -, rfl⟩ | ⟨v, tl, -, rfl⟩ | ⟨v, tl, hpc, rfl⟩ | ⟨-, rfl⟩ := pushStep_cases hstep
  · exact .inl rfl
  · exact .inl rfl
  · -- the item can be seen from here on
    have hok := h.producer
    rw [hpc] at hok
    have hlen : s.queue.items.length < 2 ^ k.val := by
      have hfree := hok.2.1
      have hle := h.core.le
      rw [State.queue, List.length_drop]
      rw [Free] at hfree
      omega
    have hitems : (s.pushed ++ [v]).drop s.popped.length = s.queue.items ++ [v] :=
      List.drop_append_of_le_length h.core.le
    refine .inr ?_
    change BoundedQueue.Step _ s.queue ⟨(s.pushed ++ [v]).drop s.popped.length, s.closed⟩
    rw [hitems]
    exact .enqueue s.queue v hlen
  · exact .inl rfl

theorem refines_consume (h : Inv k s) (hstep : popStep k moved s = some s') :
    s'.queue = s.queue ∨ BoundedQueue.Step (2 ^ k.val) s.queue s'.queue := by
  obtain ⟨pc, -, rfl⟩ | ⟨hd, -, rfl⟩ | ⟨out, hd, hpc, rfl⟩ | ⟨-, rfl⟩ := popStep_cases hstep
  · exact .inl rfl
  · exact .inl rfl
  · have hok := h.consumer
    rw [hpc] at hok
    obtain ⟨hlt, hget⟩ := List.getElem?_eq_some_iff.mp hok.2
    have hitems : s.queue.items = out :: s.pushed.drop (s.popped.length + 1) := by
      rw [State.queue, ← hget]
      exact List.drop_eq_getElem_cons hlt
    refine .inr ?_
    change BoundedQueue.Step _ s.queue ⟨s.pushed.drop (s.popped ++ [out]).length, s.closed⟩
    rw [List.length_append]
    exact .dequeue s.queue out _ hitems
  · exact .inl rfl

theorem refines (h : Inv k s) (hstep : Step k moved s s') :
    s'.queue = s.queue ∨ BoundedQueue.Step (2 ^ k.val) s.queue s'.queue := by
  cases hstep with
  | push | pop | closeEmpty | closeFull => exact .inl rfl
  | produce _ hs' => exact refines_produce h hs'
  | consume _ hs' => exact refines_consume h hs'
  | close => exact .inr (.close _)

theorem Reachable.refines (h : Reachable k moved s) :
    Relation.ReflTransGen (BoundedQueue.Step (2 ^ k.val)) .empty s.queue := by
  obtain ⟨buf, hrun⟩ := h
  induction hrun with
  | refl => exact .refl
  | tail hrun hstep ih =>
    rcases Ring.refines (Reachable.inv ⟨buf, hrun⟩) hstep with hsame | hqueue
    · rw [hsame]
      exact ih
    · exact ih.tail hqueue

/-! ## No wake-up is lost -/

def ProducerLost (k : Fin 64) (s : State α) : Prop :=
  ∃ v tl g, s.producer = .wait v tl g ∧ s.notFullGate = g ∧
    (tl - s.head < capacity k ∨ s.closed = true) ∧
    s.consumer ≠ .bump ∧ s.closing = 0 ∧ s.closingLate = 0

def ConsumerLost (s : State α) : Prop :=
  ∃ hd g, s.consumer = .wait hd g ∧ s.notEmptyGate = g ∧ (hd ≠ s.tail ∨ s.closed = true) ∧
    s.producer ≠ .bump ∧ s.closing = 0

theorem PushPc.bumping_of_ne (h : pc ≠ .bump) : pc.bumping = 0 := by
  cases pc <;> first | rfl | exact absurd rfl h

theorem PopPc.bumping_of_ne {pc : PopPc α} (h : pc ≠ .bump) : pc.bumping = 0 := by
  cases pc <;> first | rfl | exact absurd rfl h

theorem Inv.not_producerLost (h : Inv k s) (hbound : 2 ^ k.val + s.closes + 1 < 2 ^ 32) :
    ¬ProducerLost k s := by
  rintro ⟨v, tl, g, hpc, hgate, hwake, hconsumer, hclosing, hlate⟩
  have hok := h.producer
  rw [hpc] at hok
  obtain ⟨rfl, hsaw⟩ := hok
  have hstale : Saw g s.fullBumps (s.pushed.length - 2 ^ k.val) fun base => base < s.fullBumps := by
    refine hsaw.mono le_rfl fun base _ hknown => ?_
    rcases hwake with hfree | hclosed
    · have hlt := hknown.1 (h.core.free_iff.mp hfree)
      rwa [PopPc.bumping_of_ne hconsumer] at hlt
    · have hlt := hknown.2 hclosed
      rwa [hclosing, hlate] at hlt
  refine hstale.ne_of_lt ?_ (h.core.fullGate ▸ hgate)
  have hcount := h.core.fullCount
  have hle := h.core.le
  omega

theorem Inv.not_consumerLost (h : Inv k s) (hbound : 2 ^ k.val + s.closes + 1 < 2 ^ 32) :
    ¬ConsumerLost s := by
  rintro ⟨hd, g, hpc, hgate, hwake, hproducer, hclosing⟩
  have hok := h.consumer
  rw [hpc] at hok
  obtain ⟨rfl, hsaw⟩ := hok
  have hstale : Saw g s.emptyBumps s.popped.length fun base => base < s.emptyBumps := by
    refine hsaw.mono le_rfl fun base _ hknown => ?_
    rcases hwake with hfilled | hclosed
    · have hlt := hknown.1 (h.core.filled_iff.mp hfilled)
      rwa [PushPc.bumping_of_ne hproducer] at hlt
    · have hlt := hknown.2 hclosed
      rwa [hclosing] at hlt
  refine hstale.ne_of_lt ?_ (h.core.emptyGate ▸ hgate)
  have hcount := h.core.emptyCount
  have hroom := h.core.room
  omega

theorem PopPc.next_failed {pc : PopPc α} (h : pc.next s = some .failed) :
    pc = .lastTail s.tail := by
  cases pc with
  | lastTail hd =>
    have hpc := Option.some.inj h
    split_ifs at hpc with hempty
    rw [hempty]
  | checkTail hd | checkClosed hd | recheckTail hd g | recheckClosed hd g =>
    have hpc := Option.some.inj h
    split_ifs at hpc
  | wait hd g =>
    rw [PopPc.next] at h
    split_ifs at h
    exact nomatch Option.some.inj h
  | loadHead | loadGate hd => exact nomatch Option.some.inj h
  | rest | failed | read hd | storeHead out hd | bump => exact nomatch h

theorem Inv.failed (h : Inv k s) (hstep : Step k moved s s') (hfailed : s'.consumer = .failed)
    (hbefore : s.consumer ≠ .failed) : s.closed = true ∧ s.popped = s.pushed := by
  have hplace : s.consumer = .lastTail s.tail := by
    cases hstep with
    | push | close | closeEmpty | closeFull => exact absurd hfailed hbefore
    | pop => exact nomatch hfailed
    | produce _ hs' =>
      obtain ⟨pc, -, rfl⟩ | ⟨v, tl, -, rfl⟩ | ⟨v, tl, -, rfl⟩ | ⟨-, rfl⟩ := pushStep_cases hs' <;>
        exact absurd hfailed hbefore
    | consume _ hs' =>
      obtain ⟨pc, hnext, rfl⟩ | ⟨hd, -, rfl⟩ | ⟨out, hd, -, rfl⟩ | ⟨-, rfl⟩ := popStep_cases hs'
      · obtain rfl : pc = .failed := hfailed
        exact PopPc.next_failed hnext
      all_goals exact nomatch hfailed
  have hok := h.consumer
  rw [hplace] at hok
  have hempty : ¬Filled s := fun hfilled => h.core.filled_iff.mpr hfilled hok.1.symm
  exact ⟨hok.2, h.core.order.eq_of_length_le (Nat.le_of_not_lt hempty)⟩

theorem Inv.slot_ne (h : Inv k s) (hpc : s.producer = .write v tl) {n : ℕ}
    (hle : s.popped.length ≤ n) (hlt : n < s.pushed.length) :
    slot k (UInt64.ofNat n) ≠ slot k tl := by
  have hok := h.producer
  rw [hpc] at hok
  obtain ⟨rfl, hfree⟩ := hok
  rw [h.core.tail, slot_ofNat, slot_ofNat]
  exact mod_ne_mod hlt (hfree.trans_le (by omega))

theorem Reachable.turns {turn : State α → Option (State α)}
    (hturn : ∀ s s', turn s = some s' → Step k moved s s') (h : Reachable k moved s) (n : ℕ)
    (hs : (Option.bind · turn)^[n] (some s) = some s') : Reachable k moved s' := by
  induction n generalizing s' with
  | zero =>
    cases hs
    exact h
  | succ n ih =>
    rw [Function.iterate_succ_apply'] at hs
    obtain ⟨t, ht, hnext⟩ := Option.bind_eq_some_iff.mp hs
    obtain ⟨buf, hrun⟩ := ih ht
    exact ⟨buf, hrun.tail (hturn t s' hnext)⟩

end

/-! ## Gates that come round -/

def closedTimes (n : ℕ) : State Unit :=
  { State.start (fun _ => ()) with
    consumer := .wait 0 0
    closed := decide (0 < n)
    notEmptyGate := UInt32.ofNat n
    notFullGate := UInt32.ofNat n
    emptyBumps := n
    fullBumps := n
    closes := n }

theorem closedTimes_succ (n : ℕ) :
    (closedTimes n).close.closeEmpty.closeFull = closedTimes (n + 1) := by
  have hgate := UInt32.ofNat_succ n
  have hclosed : decide (0 < n + 1) = true := decide_eq_true (Nat.succ_pos n)
  simp only [closedTimes, State.close, State.closeEmpty, State.closeFull,
    State.start, hgate, hclosed, Nat.add_sub_cancel]

theorem reachable_closedTimes (n : ℕ) : Reachable 3 id (closedTimes n) := by
  induction n with
  | zero =>
    have hcalled : Reachable 3 id { State.start (fun _ => ()) with consumer := .loadHead } :=
      ⟨fun _ => (), .single (.pop _ (.inl rfl))⟩
    have hconsume : ∀ s s' : State Unit, popStep 3 id s = some s' → Step 3 id s s' :=
      fun _ _ h => .consume _ _ h
    exact hcalled.turns hconsume 6 rfl
  | succ n ih =>
    obtain ⟨buf, ih⟩ := ih
    have hclose : Step 3 id (closedTimes n) (closedTimes n).close := .close _
    have hempty : Step 3 id (closedTimes n).close (closedTimes n).close.closeEmpty :=
      .closeEmpty _ (Nat.succ_pos _)
    have hfull : Step 3 id (closedTimes n).close.closeEmpty
        (closedTimes n).close.closeEmpty.closeFull :=
      .closeFull _ (Nat.succ_pos _)
    rw [← closedTimes_succ]
    exact ⟨buf, .tail (.tail (.tail ih hclose) hempty) hfull⟩

/-- After 2^32 calls of `close` the gate has the value that the consumer sleeps on. -/
theorem wakeup_lost_after_round : ∃ s : State Unit, Reachable 3 id s ∧ ConsumerLost s := by
  have hgate : UInt32.ofNat (2 ^ 32) = 0 := by decide
  have hclosed : decide (0 < 2 ^ 32) = true := by decide
  exact ⟨closedTimes (2 ^ 32), reachable_closedTimes _, 0, 0, rfl, hgate, .inr hclosed, nofun, rfl⟩

/-- The ring is a bounded queue, and loses no wake-up while the gates cannot come round. -/
theorem ring_bounded_fifo (k : Fin 64) (moved : α → α) (s : State α) (h : Reachable k moved s) :
    s.popped <+: s.pushed ∧
    (∀ v tl, s.producer = .write v tl → ∀ n, s.popped.length ≤ n → n < s.pushed.length →
      slot k (UInt64.ofNat n) ≠ slot k tl) ∧
    s.pushed.length ≤ s.popped.length + 2 ^ k.val ∧
    (∀ s', Step k moved s s' → s'.consumer = .failed → s.consumer ≠ .failed →
      s.closed = true ∧ s.popped = s.pushed) ∧
    (2 ^ k.val + s.closes + 1 < 2 ^ 32 → ¬ProducerLost k s ∧ ¬ConsumerLost s) ∧
    Relation.ReflTransGen (BoundedQueue.Step (2 ^ k.val)) .empty s.queue ∧
    ∀ s', Step k moved s s' → s'.queue = s.queue ∨
      BoundedQueue.Step (2 ^ k.val) s.queue s'.queue := by
  have hinv := h.inv
  refine ⟨hinv.core.order, fun v tl hpc n => hinv.slot_ne hpc, hinv.core.room,
    fun s' => hinv.failed, fun hbound => ?_, h.refines, fun s' => refines hinv⟩
  exact ⟨hinv.not_producerLost hbound, hinv.not_consumerLost hbound⟩

/-- One item is pushed and popped, the consumer sleeps, another is pushed and the ring is closed. -/
theorem ring_bounded_fifo_woken :
    ∃ s : State ℕ, Reachable 3 id s ∧ s.pushed = [7, 8] ∧ s.consumer = .wait 1 1 ∧
    s.popped <+: [7, 8] ∧ s.popped.length = 1 ∧ ¬ConsumerLost s ∧
    Relation.ReflTransGen (BoundedQueue.Step 8) .empty ⟨[8], true⟩ := by
  have hproduce : ∀ s s' : State ℕ, pushStep 3 s = some s' →
      Step 3 id s s' := fun _ _ h => .produce _ _ h
  have hconsume : ∀ s s' : State ℕ, popStep 3 id s = some s' →
      Step 3 id s s' := fun _ _ h => .consume _ _ h
  have hseven : Reachable 3 id { State.start (fun _ => 0) with producer := .loadTail 7 } :=
    ⟨fun _ => 0, .single (.push _ 7 (.inl rfl))⟩
  obtain ⟨buf, hpushed⟩ := hseven.turns hproduce 6 rfl
  have hpopping : Reachable 3 id _ := ⟨buf, hpushed.tail (.pop _ (.inl rfl))⟩
  obtain ⟨buf, hpopped⟩ := hpopping.turns hconsume 5 rfl
  have hagain : Reachable 3 id _ := ⟨buf, hpopped.tail (.pop _ (.inl rfl))⟩
  obtain ⟨buf, hasleep⟩ := hagain.turns hconsume 6 rfl
  have height : Reachable 3 id _ := ⟨buf, hasleep.tail (.push _ 8 (.inl rfl))⟩
  obtain ⟨buf, hboth⟩ := height.turns hproduce 6 rfl
  have hclosed : Reachable 3 id _ :=
    ⟨buf, ((hboth.tail (.close _)).tail (.closeEmpty _ (Nat.succ_pos _))).tail
    (.closeFull _ (Nat.succ_pos _))⟩
  obtain ⟨horder, -, -, -, hwoken, hqueue, -⟩ := ring_bounded_fifo 3 id _ hclosed
  exact ⟨_, hclosed, rfl, rfl, horder, rfl, (hwoken (by decide)).2, hqueue⟩

end Dicker.Client.Ring
