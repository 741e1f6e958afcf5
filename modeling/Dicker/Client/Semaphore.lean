import Dicker.Lib.Crowd

/-! The counting semaphore that limits the disk reads (`Semaphore` of client/storage.h), for any
number of threads. A thread takes a permit by a compare-and-swap, or sleeps while there is none;
whoever gives one back wakes one sleeper. No permit is lost or made, and no thread sleeps for ever
while there is one. -/

namespace Dicker.Client
open Lib Relation

/-- Where a thread is: in `acquire` from `load` to `asleep`, in `release` at `notify`. -/
inductive SemPc where
  | out
  | load
  /-- in the inner loop, with the value `p` -/
  | compare (p : Int32)
  /-- about to compare the value with 0, in `wait(0)` -/
  | check
  | asleep
  | holding
  /-- between `fetch_add` and `notify_one` -/
  | notify
deriving DecidableEq

structure Semaphore (ι : Type) where
  permits : Int32
  pc : ι → SemPc

namespace Semaphore
variable {ι : Type} [DecidableEq ι]

def start (n : Int32) : Semaphore ι := ⟨n, fun _ => .out⟩

def goes (s : Semaphore ι) (i : ι) (pc : SemPc) : Semaphore ι :=
  { s with pc := Function.update s.pc i pc }

def counts (s : Semaphore ι) (p : Int32) : Semaphore ι := { s with permits := p }

/-- A step of one thread. A weak compare-and-swap may fail for no reason, and a sleeper may wake for
none; both only where `spurious` allows it. -/
inductive Step (spurious : Prop) : Semaphore ι → Semaphore ι → Prop where
  | enter (s : Semaphore ι) (i : ι) (h : s.pc i = .out) : Step spurious s (s.goes i .load)
  | load (s : Semaphore ι) (i : ι) (h : s.pc i = .load) :
      Step spurious s (s.goes i (.compare s.permits))
  | take (s : Semaphore ι) (i : ι) (h : s.pc i = .compare s.permits) (hpos : 0 < s.permits) :
      Step spurious s ((s.goes i .holding).counts (s.permits - 1))
  | retry (s : Semaphore ι) (i : ι) (p : Int32) (h : s.pc i = .compare p) (hpos : 0 < p)
      (hfails : s.permits ≠ p ∨ spurious) : Step spurious s (s.goes i (.compare s.permits))
  | exhausted (s : Semaphore ι) (i : ι) (p : Int32) (h : s.pc i = .compare p) (hnone : ¬0 < p) :
      Step spurious s (s.goes i .check)
  | passes (s : Semaphore ι) (i : ι) (h : s.pc i = .check) (hchanged : s.permits ≠ 0) :
      Step spurious s (s.goes i .load)
  | sleeps (s : Semaphore ι) (i : ι) (h : s.pc i = .check) (hzero : s.permits = 0) :
      Step spurious s (s.goes i .asleep)
  | wakes (s : Semaphore ι) (i : ι) (h : s.pc i = .asleep) (hspurious : spurious) :
      Step spurious s (s.goes i .check)
  | release (s : Semaphore ι) (i : ι) (h : s.pc i = .holding) :
      Step spurious s ((s.goes i .notify).counts (s.permits + 1))
  | notifies (s : Semaphore ι) (i j : ι) (h : s.pc i = .notify) (hsleeps : s.pc j = .asleep) :
      Step spurious s ((s.goes i .out).goes j .check)
  | nobody (s : Semaphore ι) (i : ι) (h : s.pc i = .notify) (hawake : ∀ j, s.pc j ≠ .asleep) :
      Step spurious s (s.goes i .out)

end Semaphore

variable {pc : SemPc} {p : Int32}

namespace SemPc

def holds : SemPc → ℕ
  | holding => 1
  | out | load | compare _ | check | asleep | notify => 0

def sleeping : SemPc → ℕ
  | asleep => 1
  | out | load | compare _ | check | holding | notify => 0

def onTheWay : SemPc → ℕ
  | load | compare _ | check | notify => 1
  | out | asleep | holding => 0

theorem sleeping_pos_iff : 0 < pc.sleeping ↔ pc = .asleep := by
  cases pc <;> simp [sleeping]

theorem holds_pos_iff : 0 < pc.holds ↔ pc = .holding := by
  cases pc <;> simp [holds]

theorem onTheWay_le (pc : SemPc) : pc.onTheWay ≤ 1 := by
  cases pc <;> simp [onTheWay]

end SemPc

namespace Semaphore
variable {ι : Type} [Fintype ι] {spurious : Prop} {s s' : Semaphore ι} {n : Int32} {i : ι}

/-! ## The count -/

theorem toInt_pos_iff : 0 < p ↔ 0 < p.toInt := by
  rw [Int32.lt_iff_toInt_lt, Int32.toInt_zero]

theorem toInt_nonneg_iff : 0 ≤ p ↔ 0 ≤ p.toInt := by
  rw [Int32.le_iff_toInt_le, Int32.toInt_zero]

theorem toInt_pred (h : 0 < p) : (p - 1).toInt = p.toInt - 1 := by
  have hpos := toInt_pos_iff.mp h
  have hlt := p.toInt_lt
  rw [Int32.toInt_sub, Int32.toInt_one]
  exact Int.bmod_eq_of_le (by omega) (by omega)

theorem toInt_succ (h : p.toInt + 1 < 2 ^ 31) : (p + 1).toInt = p.toInt + 1 := by
  have hge := p.le_toInt
  rw [Int32.toInt_add, Int32.toInt_one]
  exact Int.bmod_eq_of_le (by omega) (by omega)

structure Conserves (n : Int32) (s : Semaphore ι) : Prop where
  count : s.permits.toInt + tally SemPc.holds s.pc = n.toInt
  held : 0 ≤ s.permits.toInt ∨ tally SemPc.holds s.pc = 0
  awake : 0 < tally SemPc.sleeping s.pc → s.permits.toInt ≤ tally SemPc.onTheWay s.pc

theorem conserves_start (n : Int32) : Conserves n (start n : Semaphore ι) := by
  have hnone (w : SemPc → ℕ) (h : w .out = 0) : tally w (start n : Semaphore ι).pc = 0 := by
    simp only [tally, start, h, Finset.sum_const_zero]
  have hholds := hnone SemPc.holds rfl
  refine ⟨?_, .inr hholds, fun hpos => absurd hpos (hnone SemPc.sleeping rfl).not_gt⟩
  rw [hholds]
  exact add_zero _

section
variable [DecidableEq ι]

theorem tally_goes (w : SemPc → ℕ) (s : Semaphore ι) (i : ι) (pc : SemPc) :
    tally w (s.goes i pc).pc + w (s.pc i) = tally w s.pc + w pc := tally_update w s.pc i pc

theorem Conserves.goes (h : Conserves n s) (hholds : pc.holds = (s.pc i).holds)
    (hawake : s.permits = 0 ∨ (pc.sleeping = 0 ∧ pc.onTheWay = 1)) : Conserves n (s.goes i pc) := by
  have hcount := tally_goes SemPc.holds s i pc
  have hsleep := tally_goes SemPc.sleeping s i pc
  have hway := tally_goes SemPc.onTheWay s i pc
  have hpermits : (s.goes i pc).permits = s.permits := rfl
  have hbefore := h.count
  have hheld := h.held
  rw [hholds] at hcount
  refine ⟨by rw [hpermits]; omega, by rw [hpermits]; omega, fun hpos => ?_⟩
  rw [hpermits]
  rcases hawake with hzero | ⟨hno, hyes⟩
  · rw [hzero, Int32.toInt_zero]
    exact Int.natCast_nonneg _
  · have hbound := h.awake (by omega)
    have hbit := (s.pc i).onTheWay_le
    omega

theorem Conserves.exchange (h : Conserves n s) (i : ι) (pc : SemPc) (p : Int32)
    (hcount : p.toInt + pc.holds = s.permits.toInt + (s.pc i).holds) (hge : 0 ≤ p.toInt)
    (hawake : pc.sleeping = 0) (hway : p.toInt + (s.pc i).onTheWay ≤
      s.permits.toInt + pc.onTheWay) :
    Conserves n ((s.goes i pc).counts p) := by
  have hholds := tally_goes SemPc.holds s i pc
  have hsleep := tally_goes SemPc.sleeping s i pc
  have hmoved := tally_goes SemPc.onTheWay s i pc
  have hpermits : ((s.goes i pc).counts p).permits = p := rfl
  have hpc : ((s.goes i pc).counts p).pc = (s.goes i pc).pc := rfl
  have hbefore := h.count
  refine ⟨by rw [hpermits, hpc]; omega, .inl hge, fun hpos => ?_⟩
  rw [hpc] at hpos
  rw [hpermits, hpc]
  have hbound := h.awake (by omega)
  omega

theorem Conserves.take (h : Conserves n s) (hi : s.pc i = .compare s.permits)
    (hpos : 0 < s.permits) :
    Conserves n ((s.goes i .holding).counts (s.permits - 1)) := by
  have hpermits := toInt_pred hpos
  have hge := toInt_pos_iff.mp hpos
  refine h.exchange i .holding (s.permits - 1) ?_ (by omega) rfl ?_
  · rw [hi, hpermits]
    simp only [SemPc.holds]
    omega
  · rw [hi, hpermits]
    simp only [SemPc.onTheWay]
    omega

theorem Conserves.release (h : Conserves n s) (hi : s.pc i = .holding) :
    Conserves n ((s.goes i .notify).counts (s.permits + 1)) := by
  have hone : 0 < tally SemPc.holds s.pc := tally_pos_iff.mpr ⟨i, SemPc.holds_pos_iff.mpr hi⟩
  have hcount := h.count
  have hheld := h.held
  have hlt := n.toInt_lt
  have hpermits := toInt_succ (p := s.permits) (by omega)
  refine h.exchange i .notify (s.permits + 1) ?_ (by omega) rfl ?_
  · rw [hi, hpermits]
    simp only [SemPc.holds]
    omega
  · rw [hi, hpermits]
    simp only [SemPc.onTheWay]
    omega

theorem Conserves.notifies (h : Conserves n s) {j : ι} (hi : s.pc i = .notify)
    (hj : s.pc j = .asleep) : Conserves n ((s.goes i .out).goes j .check) := by
  have hne : j ≠ i := by
    rintro rfl
    exact SemPc.noConfusion (hi.symm.trans hj)
  have hj' : (s.goes i .out).pc j = .asleep := (Function.update_of_ne hne _ _).trans hj
  have hholds := tally_goes SemPc.holds s i .out
  have hholds' := tally_goes SemPc.holds (s.goes i .out) j .check
  have hsleep := tally_goes SemPc.sleeping s i .out
  have hsleep' := tally_goes SemPc.sleeping (s.goes i .out) j .check
  have hway := tally_goes SemPc.onTheWay s i .out
  have hway' := tally_goes SemPc.onTheWay (s.goes i .out) j .check
  rw [hi] at hholds hsleep hway
  rw [hj'] at hholds' hsleep' hway'
  simp only [SemPc.holds] at hholds hholds'
  simp only [SemPc.sleeping] at hsleep hsleep'
  simp only [SemPc.onTheWay] at hway hway'
  have hpermits : ((s.goes i .out).goes j .check).permits = s.permits := rfl
  have hbefore := h.count
  have hheld := h.held
  refine ⟨by rw [hpermits]; omega, by rw [hpermits]; omega, fun _ => ?_⟩
  have hbound := h.awake (by omega)
  rw [hpermits]
  omega

theorem Conserves.nobody (h : Conserves n s) (hi : s.pc i = .notify)
    (hawake : ∀ j, s.pc j ≠ .asleep) : Conserves n (s.goes i .out) := by
  have hholds := tally_goes SemPc.holds s i .out
  have hsleep := tally_goes SemPc.sleeping s i .out
  rw [hi] at hholds hsleep
  simp only [SemPc.holds] at hholds
  simp only [SemPc.sleeping] at hsleep
  have hnone : ¬0 < tally SemPc.sleeping s.pc := by
    rw [tally_pos_iff]
    rintro ⟨j, hj⟩
    exact hawake j (SemPc.sleeping_pos_iff.mp hj)
  have hpermits : (s.goes i .out).permits = s.permits := rfl
  have hbefore := h.count
  have hheld := h.held
  exact ⟨by rw [hpermits]; omega, by rw [hpermits]; omega, fun hpos => absurd (by omega) hnone⟩

theorem Conserves.step (h : Conserves n s) (hstep : Step spurious s s') : Conserves n s' := by
  cases hstep with
  | enter i hi | load i hi | retry i p hi | exhausted i p hi | passes i hi | wakes i hi =>
    exact h.goes (by rw [hi]; rfl) (.inr ⟨rfl, rfl⟩)
  | sleeps i hi hzero => exact h.goes (by rw [hi]; rfl) (.inl hzero)
  | take i hi hpos => exact h.take hi hpos
  | release i hi => exact h.release hi
  | notifies i j hi hj => exact h.notifies hi hj
  | nobody i hi hawake => exact h.nobody hi hawake

theorem conserves_of_run (hrun : ReflTransGen (Step spurious) (start n) s) : Conserves n s := by
  induction hrun with
  | refl => exact conserves_start n
  | tail _ hstep ih => exact ih.step hstep

end

theorem Conserves.holders_le (h : Conserves n s) : tally SemPc.holds s.pc ≤ n.toInt.toNat := by
  have hcount := h.count
  rcases h.held with hge | hzero
  · omega
  · rw [hzero]
    exact Nat.zero_le _

theorem Conserves.held_of_asleep (h : Conserves n s) (hi : s.pc i = .asleep) (hn : 0 ≤ n) :
    tally SemPc.holds s.pc = n.toInt.toNat ∨ 0 < tally SemPc.onTheWay s.pc := by
  have hbound := h.awake (tally_pos_iff.mpr ⟨i, SemPc.sleeping_pos_iff.mpr hi⟩)
  have hn' := toInt_nonneg_iff.mp hn
  have hcount := h.count
  have hheld := h.held
  omega

end Semaphore

/-! ## What a step does to each thread -/

namespace SemPc

def Seeks : SemPc → Prop
  | load | compare _ | check | asleep => True
  | out | holding | notify => False

def Stays (pc pc' : SemPc) : Prop := pc' = pc ∨ (pc.Seeks ∧ pc'.Seeks)

inductive Advances : SemPc → SemPc → Prop where
  | enters : Advances out load
  | takes (p : Int32) : Advances (compare p) holding
  | gives : Advances holding notify
  | leaves : Advances notify out

def retries (permits : Int32) : SemPc → ℕ
  | load => if permits = 0 then 3 else 1
  | compare p =>
    if 0 < p then if p = permits then 0 else if permits = 0 then 3 else 1
      else if permits = 0 then 2 else 3
  | check => if permits = 0 then 1 else 2
  | out | asleep | holding | notify => 0

theorem Stays.refl (pc : SemPc) : Stays pc pc := .inl rfl

end SemPc

namespace Semaphore
variable {ι : Type} [Fintype ι] [DecidableEq ι] {spurious : Prop} {s s' : Semaphore ι} {i : ι}

inductive Effect (spurious : Prop) (s s' : Semaphore ι) : Prop where
  | advances (i : ι) (h : (s.pc i).Advances (s'.pc i)) (hothers : ∀ j ≠ i, (s.pc j).Stays (s'.pc j))
  | seeks (hall : ∀ j, (s.pc j).Stays (s'.pc j)) (hpermits : s'.permits = s.permits)
      (hless : ¬spurious → 0 ≤ s.permits →
        tally (SemPc.retries s.permits) s'.pc < tally (SemPc.retries s.permits) s.pc)

theorem pos_of_nonneg (hge : 0 ≤ p) (hne : p ≠ 0) : 0 < p := by
  rw [toInt_nonneg_iff] at hge
  rw [ne_eq, ← Int32.toInt_inj, Int32.toInt_zero] at hne
  rw [toInt_pos_iff]
  omega

omit [Fintype ι] in
theorem goes_self (s : Semaphore ι) (i : ι) (pc : SemPc) : (s.goes i pc).pc i = pc :=
  Function.update_self ..

omit [Fintype ι] in
theorem goes_of_ne (s : Semaphore ι) {j : ι} (hne : j ≠ i) (pc : SemPc) :
    (s.goes i pc).pc j = s.pc j := Function.update_of_ne hne ..

theorem effect_seeks {pc' : SemPc} (hi : s.pc i = pc) (hpc : pc.Seeks) (hpc' : pc'.Seeks)
    (hless : ¬spurious → 0 ≤ s.permits → pc'.retries s.permits < pc.retries s.permits) :
    Effect spurious s (s.goes i pc') := by
  refine .seeks ((Function.forall_update_iff s.pc fun j pc => (s.pc j).Stays pc).mpr
    ⟨?_, fun j _ => .refl _⟩) rfl fun hno hge => ?_
  · rw [hi]
    exact .inr ⟨hpc, hpc'⟩
  · have hcount := tally_goes (SemPc.retries s.permits) s i pc'
    have hlt := hless hno hge
    rw [hi] at hcount
    omega

theorem effect_advances {pc' : SemPc} (hi : s.pc i = pc) (h : pc.Advances pc') (p : Int32) :
    Effect spurious s ((s.goes i pc').counts p) := by
  refine .advances i ?_ fun j hj => ?_
  · change (s.pc i).Advances ((s.goes i pc').pc i)
    rw [goes_self, hi]
    exact h
  · change (s.pc j).Stays ((s.goes i pc').pc j)
    rw [goes_of_ne s hj]
    exact .refl _

theorem Step.effect (hstep : Step spurious s s') : Effect spurious s s' := by
  cases hstep with
  | enter i hi => exact effect_advances hi .enters s.permits
  | take i hi hpos => exact effect_advances hi (.takes _) _
  | release i hi => exact effect_advances hi .gives _
  | nobody i hi => exact effect_advances hi .leaves s.permits
  | notifies i j hi hj =>
    have hne : j ≠ i := by
      rintro rfl
      exact SemPc.noConfusion (hi.symm.trans hj)
    refine .advances i ?_ fun k hk => ?_
    · rw [goes_of_ne _ hne.symm, goes_self, hi]
      exact .leaves
    · by_cases hkj : k = j
      · subst hkj
        rw [goes_self, hj]
        exact .inr ⟨trivial, trivial⟩
      · rw [goes_of_ne _ hkj, goes_of_ne _ hk]
        exact .refl _
  | load i hi =>
    refine effect_seeks hi trivial trivial fun _ hge => ?_
    by_cases hzero : s.permits = 0
    · simp [SemPc.retries, hzero]
    · simp [SemPc.retries, hzero, pos_of_nonneg hge hzero]
  | retry i p hi hpos hfails =>
    refine effect_seeks hi trivial trivial fun hno hge => ?_
    have hne := hfails.resolve_right hno
    by_cases hzero : s.permits = 0
    · simp [SemPc.retries, hzero, hpos, (hzero ▸ hne).symm]
    · simp [SemPc.retries, hzero, hpos, pos_of_nonneg hge hzero, hne.symm]
  | exhausted i p hi hnone =>
    refine effect_seeks hi trivial trivial fun _ hge => ?_
    simp only [SemPc.retries, if_neg hnone]
    split_ifs <;> decide
  | passes i hi hchanged =>
    refine effect_seeks hi trivial trivial fun _ _ => ?_
    simp [SemPc.retries, hchanged]
  | sleeps i hi hzero =>
    refine effect_seeks hi trivial trivial fun _ _ => ?_
    simp [SemPc.retries, hzero]
  | wakes i hi hspurious => exact effect_seeks hi trivial trivial fun hno => absurd hspurious hno

/-- Whatever threads do with it and in whatever order, with compare-and-swaps that fail and sleepers
that wake for no reason: the permits that are free and those that are held make up the limit, no
more threads than that hold one, and a thread sleeps only while all of them are held or another one
is about to take one or to wake a thread. -/
theorem permits_conserved {ι : Type} [Fintype ι] [DecidableEq ι] (n : Int32) (hn : 0 ≤ n)
    (s : Semaphore ι) (hrun : ReflTransGen (Step True) (start n) s) :
    s.permits.toInt + tally SemPc.holds s.pc = n.toInt ∧ tally SemPc.holds s.pc ≤ n.toInt.toNat ∧
    ∀ i, s.pc i = .asleep → tally SemPc.holds s.pc = n.toInt.toNat ∨
      (s.permits.toInt ≤ tally SemPc.onTheWay s.pc ∧ ∃ j, 0 < (s.pc j).onTheWay) := by
  have h := conserves_of_run hrun
  refine ⟨h.count, h.holders_le, fun i hi => ?_⟩
  refine (h.held_of_asleep hi hn).imp_right fun hway => ⟨?_, tally_pos_iff.mp hway⟩
  exact h.awake (tally_pos_iff.mpr ⟨i, SemPc.sleeping_pos_iff.mpr hi⟩)

theorem permits_conserved_two :
    ∃ s : Semaphore (Fin 2), ReflTransGen (Step True) (start 1) s ∧ s.pc 0 = .holding ∧
    s.pc 1 = .asleep ∧ s.permits = 0 ∧ tally SemPc.holds s.pc ≤ 1 := by
  have hloaded : ReflTransGen (Step True) (start 1 : Semaphore (Fin 2)) _ :=
    (ReflTransGen.single (Step.enter _ 0 rfl)).tail (.load _ 0 rfl)
  have htaken := hloaded.tail (.take _ 0 rfl (by decide))
  have hloaded' := (htaken.tail (.enter _ 1 rfl)).tail (.load _ 1 rfl)
  have hrun := (hloaded'.tail (.exhausted _ 1 _ rfl (by decide))).tail (.sleeps _ 1 rfl rfl)
  exact ⟨_, hrun, rfl, rfl, rfl, (permits_conserved 1 (by decide) _ hrun).2.1⟩

end Semaphore
end Dicker.Client
