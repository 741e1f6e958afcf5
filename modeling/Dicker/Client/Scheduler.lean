import Dicker.Client.Task

/-! How the client cuts a file into units (client/scheduler.h). -/

namespace Dicker.Client.Scheduler

structure Config where
  bigFileThreshold : UInt64
  chunkSize : UInt64

def chunkTasks (path : Bytes) (size chunkSize : UInt64) (mtime : Int64) :
    ℕ → UInt64 → Option (List Task)
  | 0, _ => none
  | fuel + 1, offset =>
    if offset < size then
      (chunkTasks path size chunkSize mtime fuel (offset + chunkSize)).map
        (workerTask .chunk path offset (min chunkSize (size - offset)) size mtime :: ·)
    else some []

/-- The units of a file, in the order they are dispatched; `none` if the loop does not end. -/
def enqueue (cfg : Config) (path : Bytes) (size : UInt64) (mtime : Int64) : Option (List Task) :=
  if cfg.bigFileThreshold ≤ size then chunkTasks path size cfg.chunkSize mtime (size.toNat + 1) 0
  else some [workerTask .file path 0 size size mtime]

structure Tiles (start size : ℕ) (tasks : List Task) : Prop where
  chunk : ∀ t ∈ tasks, t.type = .chunk
  inside : ∀ t ∈ tasks, t.offset.toNat + t.length.toNat ≤ size
  covers : ∀ p, start ≤ p → p < size → ∃ t ∈ tasks, t.offset.toNat ≤ p ∧
    p < t.offset.toNat + t.length.toNat

variable {start : ℕ} {tasks : List Task} {size : UInt64} {cfg : Config}

theorem Tiles.nil {size : ℕ} (h : size ≤ start) : Tiles start size [] :=
  ⟨fun _ ht => absurd ht List.not_mem_nil, fun _ ht => absurd ht List.not_mem_nil,
    fun _ hlow hhigh => absurd (h.trans hlow) (Nat.not_le.mpr hhigh)⟩

theorem Tiles.cons {size : ℕ} {t : Task} (htype : t.type = .chunk)
    (hoffset : t.offset.toNat = start) (hinside : start + t.length.toNat ≤ size)
    (h : Tiles (start + t.length.toNat) size tasks) : Tiles start size (t :: tasks) where
  chunk u hu := by
    rcases List.mem_cons.mp hu with rfl | hu
    · exact htype
    · exact h.chunk u hu
  inside u hu := by
    rcases List.mem_cons.mp hu with rfl | hu
    · rw [hoffset]
      exact hinside
    · exact h.inside u hu
  covers p hlow hhigh := by
    rcases Nat.lt_or_ge p (start + t.length.toNat) with hp | hp
    · exact ⟨t, List.mem_cons_self, hoffset.trans_le hlow, by omega⟩
    · obtain ⟨u, hu, hcovers⟩ := h.covers p hp hhigh
      exact ⟨u, List.mem_cons_of_mem _ hu, hcovers⟩

theorem chunk_toNat (chunkSize : UInt64) {offset : UInt64} (hlt : offset < size) :
    (min chunkSize (size - offset)).toNat = min chunkSize.toNat (size.toNat - offset.toNat) := by
  have hrest : (size - offset).toNat = size.toNat - offset.toNat :=
    UInt64.toNat_sub_of_le size offset (UInt64.le_of_lt hlt)
  change (if chunkSize ≤ size - offset then chunkSize else size - offset).toNat = _
  split_ifs with hle
  · exact (Nat.min_eq_left (hrest ▸ UInt64.le_iff_toNat_le.mp hle)).symm
  · rw [hrest]
    refine (Nat.min_eq_right (Nat.le_of_lt ?_)).symm
    exact hrest ▸ UInt64.lt_iff_toNat_lt.mp (UInt64.not_le.mp hle)

theorem chunkTasks_tiles (path : Bytes) {chunkSize : UInt64} (mtime : Int64)
    (hsize : size.toNat < 2 ^ 63) (hchunk : 1 ≤ chunkSize.toNat) (fuel : ℕ) (offset : UInt64)
    (hfuel : size.toNat - offset.toNat < fuel)
    (hstep : offset.toNat = 0 ∨ chunkSize.toNat ≤ offset.toNat) :
    ∃ tasks, chunkTasks path size chunkSize mtime fuel offset = some tasks ∧
      Tiles offset.toNat size.toNat tasks := by
  induction fuel generalizing offset with
  | zero => exact absurd hfuel (Nat.not_lt_zero _)
  | succ fuel ih =>
    unfold chunkTasks
    split_ifs with hlt
    · have hlt' : offset.toNat < size.toNat := UInt64.lt_iff_toNat_lt.mp hlt
      have hc := chunkSize.toNat_lt
      -- the offset cannot wrap: only the first chunk can be larger than what fits
      have hnext : (offset + chunkSize).toNat = offset.toNat + chunkSize.toNat := by
        rw [UInt64.toNat_add]
        refine Nat.mod_eq_of_lt ?_
        omega
      obtain ⟨tasks, htasks, htiles⟩ := ih (offset + chunkSize) (by omega) (by omega)
      have hlen := chunk_toNat chunkSize hlt
      refine ⟨_, by rw [htasks]; rfl, Tiles.cons rfl rfl ?_ ?_⟩
      · change offset.toNat + (min chunkSize (size - offset)).toNat ≤ size.toNat
        omega
      · refine ⟨htiles.chunk, htiles.inside, fun p hlow hhigh => htiles.covers p ?_ hhigh⟩
        change offset.toNat + (min chunkSize (size - offset)).toNat ≤ p at hlow
        omega
    · refine ⟨[], rfl, Tiles.nil ?_⟩
      exact Nat.not_lt.mp fun h => hlt (UInt64.lt_iff_toNat_lt.mpr h)

theorem chunkTasks_stuck (path : Bytes) {offset : UInt64} (mtime : Int64) (hlt : offset < size)
    (fuel : ℕ) : chunkTasks path size 0 mtime fuel offset = none := by
  induction fuel with
  | zero => rfl
  | succ fuel ih =>
    unfold chunkTasks
    rw [if_pos hlt, UInt64.add_zero, ih]
    rfl

theorem enqueue_chunks (path : Bytes) (mtime : Int64) (hsize : size.toNat < 2 ^ 63)
    (hbig : cfg.bigFileThreshold ≤ size) (hchunk : 1 ≤ cfg.chunkSize.toNat) :
    ∃ tasks, enqueue cfg path size mtime = some tasks ∧ Tiles 0 size.toNat tasks := by
  unfold enqueue
  rw [if_pos hbig]
  exact chunkTasks_tiles path mtime hsize hchunk _ 0 (Nat.lt_succ_self _) (.inl rfl)

theorem enqueue_empty (path : Bytes) (mtime : Int64) (hbig : cfg.bigFileThreshold ≤ 0) :
    enqueue cfg path 0 mtime = some [] := by
  unfold enqueue chunkTasks
  rw [if_pos hbig, if_neg (UInt64.lt_irrefl 0)]

theorem tiles_of_enqueue {path : Bytes} {mtime : Int64}
    (henqueue : enqueue cfg path size mtime = some tasks) (hsize : size.toNat < 2 ^ 63)
    (hbig : cfg.bigFileThreshold ≤ size) : Tiles 0 size.toNat tasks := by
  by_cases hchunk : 1 ≤ cfg.chunkSize.toNat
  · obtain ⟨tasks', htasks, htiles⟩ := enqueue_chunks path mtime hsize hbig hchunk
    cases henqueue.symm.trans htasks
    exact htiles
  · have hzero : cfg.chunkSize = 0 := UInt64.toNat_inj.mp (Nat.lt_one_iff.mp (Nat.not_le.mp hchunk))
    unfold enqueue at henqueue
    rw [if_pos hbig, hzero] at henqueue
    by_cases hlt : 0 < size
    · rw [chunkTasks_stuck path mtime hlt] at henqueue
      exact nomatch henqueue
    · unfold chunkTasks at henqueue
      rw [if_neg hlt] at henqueue
      cases henqueue
      exact Tiles.nil (Nat.not_lt.mp fun h => hlt (UInt64.lt_iff_toNat_lt.mpr h))

/-! ## Units that partition the file -/

inductive Consecutive : ℕ → ℕ → List Task → Prop where
  | nil (stop : ℕ) : Consecutive stop stop []
  | cons {start stop : ℕ} {t : Task} {tasks : List Task} (hstart : t.offset.toNat = start)
      (h : Consecutive (start + t.length.toNat) stop tasks) : Consecutive start stop (t :: tasks)

theorem Consecutive.of_cons {stop : ℕ} {t : Task} (h : Consecutive start stop (t :: tasks)) :
    t.offset.toNat = start ∧ Consecutive (start + t.length.toNat) stop tasks := by
  cases h with
  | cons hstart h => exact ⟨hstart, h⟩

structure Partitions (cfg : Config) (size : UInt64) (tasks : List Task) : Prop where
  consecutive : Consecutive 0 size.toNat tasks
  bounded : cfg.bigFileThreshold ≤ size → ∀ t ∈ tasks, t.length ≤ cfg.chunkSize
  nonempty : tasks ≠ []

def Steps (size chunkSize : UInt64) : Prop :=
  ∀ k, k * chunkSize.toNat < size.toNat → (k + 1) * chunkSize.toNat < 2 ^ 64

theorem steps_iff {chunkSize : UInt64} (hchunk : 0 < chunkSize.toNat) (hsize : 0 < size.toNat) :
    Steps size chunkSize ↔
      (size.toNat + chunkSize.toNat - 1) / chunkSize.toNat * chunkSize.toNat < 2 ^ 64 := by
  have hlast : (size.toNat + chunkSize.toNat - 1) / chunkSize.toNat =
      (size.toNat - 1) / chunkSize.toNat + 1 := by
    rw [← Nat.add_div_right _ hchunk]
    congr 1
    omega
  rw [hlast]
  constructor
  · intro h
    refine h _ ((Nat.div_mul_le_self _ _).trans_lt ?_)
    omega
  · intro h k hk
    refine (Nat.mul_le_mul_right _ (Nat.succ_le_succ ?_)).trans_lt h
    rw [Nat.le_div_iff_mul_le hchunk]
    omega

section
variable {path : Bytes} {chunkSize offset : UInt64} {mtime : Int64}

theorem chunkTasks_consecutive (path : Bytes) (mtime : Int64) (hchunk : 0 < chunkSize.toNat)
    (hsteps : Steps size chunkSize) (fuel k : ℕ) (offset : UInt64)
    (hk : offset.toNat = k * chunkSize.toNat) (hfuel : size.toNat - offset.toNat < fuel) :
    ∃ tasks, chunkTasks path size chunkSize mtime fuel offset = some tasks ∧
      Consecutive (min offset.toNat size.toNat) size.toNat tasks ∧
      (∀ t ∈ tasks, t.length ≤ chunkSize) ∧ (offset < size → tasks ≠ []) := by
  induction fuel generalizing offset k with
  | zero => exact absurd hfuel (Nat.not_lt_zero _)
  | succ fuel ih =>
    unfold chunkTasks
    split_ifs with hlt
    · have hlt' : offset.toNat < size.toNat := UInt64.lt_iff_toNat_lt.mp hlt
      have hroom := hsteps k (hk ▸ hlt')
      have hnext : (offset + chunkSize).toNat = offset.toNat + chunkSize.toNat := by
        rw [UInt64.toNat_add]
        refine Nat.mod_eq_of_lt ?_
        rwa [hk, ← Nat.succ_mul]
      obtain ⟨tasks, htasks, hconsecutive, hbounded, _⟩ := ih (k + 1) (offset + chunkSize)
        (by rw [hnext, hk, Nat.succ_mul]) (by omega)
      have hlen := chunk_toNat chunkSize hlt
      refine ⟨_, by rw [htasks]; rfl, ?_, ?_, fun _ => List.cons_ne_nil _ _⟩
      · rw [Nat.min_eq_left hlt'.le]
        refine .cons rfl ?_
        rw [hnext] at hconsecutive
        change Consecutive (offset.toNat + (min chunkSize (size - offset)).toNat) _ _
        rw [hlen]
        convert hconsecutive using 1
        omega
      · intro t ht
        rcases List.mem_cons.mp ht with rfl | ht
        · refine UInt64.le_iff_toNat_le.mpr ?_
          change (min chunkSize (size - offset)).toNat ≤ _
          rw [hlen]
          exact Nat.min_le_left _ _
        · exact hbounded t ht
    · have hge : size.toNat ≤ offset.toNat :=
        Nat.not_lt.mp fun h => hlt (UInt64.lt_iff_toNat_lt.mpr h)
      refine ⟨[], rfl, ?_, fun t ht => absurd ht List.not_mem_nil, fun h => absurd h hlt⟩
      rw [Nat.min_eq_right hge]
      exact .nil _

theorem steps_of_consecutive (hchunk : 0 < chunkSize.toNat) {fuel k : ℕ}
    (hk : offset.toNat = k * chunkSize.toNat) (hlt : offset < size)
    (htasks : chunkTasks path size chunkSize mtime fuel offset = some tasks)
    (h : Consecutive offset.toNat size.toNat tasks) :
    ∀ j, k ≤ j → j * chunkSize.toNat < size.toNat → (j + 1) * chunkSize.toNat < 2 ^ 64 := by
  induction fuel generalizing offset k tasks with
  | zero => exact nomatch htasks
  | succ fuel ih =>
    have hlt' : offset.toNat < size.toNat := UInt64.lt_iff_toNat_lt.mp hlt
    have hlen := chunk_toNat chunkSize hlt
    have hsize := size.toNat_lt
    have hcarry := UInt64.toNat_add offset chunkSize
    have hbound := chunkSize.toNat_lt
    unfold chunkTasks at htasks
    rw [if_pos hlt] at htasks
    obtain ⟨rest, hrest, rfl⟩ := Option.map_eq_some_iff.mp htasks
    obtain ⟨_, hconsecutive⟩ := h.of_cons
    change Consecutive (offset.toNat + (min chunkSize (size - offset)).toNat) _ rest at hconsecutive
    rw [hlen] at hconsecutive
    by_cases hmore : offset.toNat + chunkSize.toNat < size.toNat
    · -- there is another chunk, and it is where it should be
      have hnext : (offset + chunkSize).toNat = offset.toNat + chunkSize.toNat := by omega
      have hlater := ih (k := k + 1) (by rw [hnext, hk, Nat.succ_mul])
        (UInt64.lt_iff_toNat_lt.mpr (hnext.trans_lt hmore)) hrest
        (by rw [hnext]; convert hconsecutive using 1; omega)
      intro j hj hlast
      rcases Nat.eq_or_lt_of_le hj with rfl | hj
      · rw [Nat.succ_mul, ← hk]
        omega
      · exact hlater j hj hlast
    · -- the last chunk: a wrapped offset would begin another one
      have hdone : size.toNat ≤ (offset + chunkSize).toNat := by
        by_contra hwrapped
        have hwrapped' : offset + chunkSize < size :=
          UInt64.lt_iff_toNat_lt.mpr (Nat.not_le.mp hwrapped)
        cases fuel with
        | zero => exact nomatch hrest
        | succ fuel =>
          unfold chunkTasks at hrest
          rw [if_pos hwrapped'] at hrest
          obtain ⟨rest', _, rfl⟩ := Option.map_eq_some_iff.mp hrest
          have hstart := hconsecutive.of_cons.1
          change (offset + chunkSize).toNat = _ at hstart
          omega
      intro j hj hlast
      have hjk : j = k := by
        by_contra hne
        have hge : (k + 1) * chunkSize.toNat ≤ j * chunkSize.toNat :=
          Nat.mul_le_mul_right _ (Nat.lt_of_le_of_ne hj (Ne.symm hne))
        rw [Nat.succ_mul, ← hk] at hge
        omega
      rw [hjk, Nat.succ_mul, ← hk]
      omega

end

/-- The units of a file partition it if and only if it is small, or it is not empty, there is a
chunk size and the last offset of the loop does not wrap. -/
theorem partitions_iff (cfg : Config) (path : Bytes) (size : UInt64) (mtime : Int64) :
    (∃ tasks, enqueue cfg path size mtime = some tasks ∧ Partitions cfg size tasks) ↔
      size < cfg.bigFileThreshold ∨ (0 < size.toNat ∧ 0 < cfg.chunkSize.toNat ∧
        (size.toNat + cfg.chunkSize.toNat - 1) / cfg.chunkSize.toNat * cfg.chunkSize.toNat <
          2 ^ 64) := by
  by_cases hbig : cfg.bigFileThreshold ≤ size
  · rw [or_iff_right (UInt64.not_lt.mpr hbig)]
    unfold enqueue
    rw [if_pos hbig]
    constructor
    · rintro ⟨tasks, htasks, hpartitions⟩
      have hsize : 0 < size := by
        by_contra hzero
        unfold chunkTasks at htasks
        rw [if_neg hzero] at htasks
        exact hpartitions.nonempty (Option.some.inj htasks).symm
      have hchunk : 0 < cfg.chunkSize.toNat := by
        by_contra hzero
        have hstuck : cfg.chunkSize = 0 := UInt64.toNat_inj.mp (Nat.eq_zero_of_not_pos hzero)
        rw [hstuck, chunkTasks_stuck path mtime hsize] at htasks
        exact nomatch htasks
      have hsize' := UInt64.lt_iff_toNat_lt.mp hsize
      refine ⟨hsize', hchunk, (steps_iff hchunk hsize').mp fun k => ?_⟩
      exact steps_of_consecutive hchunk (k := 0) (by rw [Nat.zero_mul]; rfl) hsize htasks
        hpartitions.consecutive k (Nat.zero_le k)
    · rintro ⟨hsize, hchunk, hroom⟩
      obtain ⟨tasks, htasks, hconsecutive, hbounded, hnonempty⟩ :=
        chunkTasks_consecutive path mtime hchunk
        ((steps_iff hchunk hsize).mpr hroom) (size.toNat + 1) 0 0 (by rw [Nat.zero_mul]; rfl)
        (Nat.lt_succ_self _)
      refine ⟨tasks, htasks, ?_, fun _ => hbounded, hnonempty (UInt64.lt_iff_toNat_lt.mpr hsize)⟩
      rwa [UInt64.toNat_zero, Nat.min_eq_left (Nat.zero_le _)] at hconsecutive
  · have hsmall : size < cfg.bigFileThreshold := UInt64.not_le.mp hbig
    refine ⟨fun _ => .inl hsmall, fun _ => ?_⟩
    unfold enqueue
    rw [if_neg hbig]
    refine ⟨_, rfl, ?_, fun h => absurd h hbig, List.cons_ne_nil _ _⟩
    refine .cons rfl ?_
    change Consecutive (0 + size.toNat) _ _
    rw [Nat.zero_add]
    exact .nil _

theorem partitions_three :
    ∃ tasks, enqueue ⟨4, 2⟩ [97] 5 0 = some tasks ∧ Partitions ⟨4, 2⟩ 5 tasks :=
  (partitions_iff ⟨4, 2⟩ [97] 5 0).mpr (.inr (by decide))

/-- Without a chunk size the loop never ends; an empty file that counts as big has no units. -/
theorem partitions_fail :
    (∀ fuel, chunkTasks [97] 1 0 0 fuel 0 = none) ∧ enqueue ⟨1, 0⟩ [97] 1 0 = none ∧
    enqueue ⟨0, 1⟩ [97] 0 0 = some [] := ⟨chunkTasks_stuck [97] 0 (by decide), rfl, rfl⟩

end Dicker.Client.Scheduler
