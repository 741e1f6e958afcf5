import Dicker.Client.Scheduler

/-! Which worker a unit goes to (client/scheduler.h, client/affinity.h). `selectWorker` looks
for a running worker that is not busy and whose last file was like this one; `dispatch` tries
the workers from there on. -/

namespace Dicker.Client.Scheduler

/-! ## Affinity -/

abbrev AffinityKey := UInt32

inductive Flavor where
  | none | opaqueData | prose | structured | tabular | code | logs | generic

structure AffinityVector where
  structural : UInt8
  tokens : UInt8
  records : UInt8
  opaqueBit : Bool
  cold : Bool

def kOpaqueBit : UInt32 := (1 : UInt32) <<< 24
def kColdBit : UInt32 := (1 : UInt32) <<< 25
def kColdCost : ℕ := 16
def kWallCost : ℕ := 1 <<< 20

def packAffinity (v : AffinityVector) : AffinityKey :=
  v.structural.toUInt32 ||| (v.tokens.toUInt32 <<< 8) ||| (v.records.toUInt32 <<< 16) |||
    (if v.opaqueBit then kOpaqueBit else 0) ||| (if v.cold then kColdBit else 0)

def unpackAffinity (key : AffinityKey) : AffinityVector where
  structural := key.toUInt8
  tokens := (key >>> 8).toUInt8
  records := (key >>> 16).toUInt8
  opaqueBit := key &&& kOpaqueBit != 0
  cold := key &&& kColdBit != 0

def affinityOf : Flavor → AffinityKey
  | .none => packAffinity ⟨0, 0, 0, false, true⟩
  | .opaqueData => packAffinity ⟨0, 0, 0, true, false⟩
  | .prose => packAffinity ⟨0, 0, 0, false, false⟩
  | .structured => packAffinity ⟨9, 0, 0, false, false⟩
  | .tabular => packAffinity ⟨3, 0, 9, false, false⟩
  | .code => packAffinity ⟨2, 9, 2, false, false⟩
  | .logs => packAffinity ⟨2, 0, 8, false, false⟩
  | .generic => packAffinity ⟨1, 0, 1, false, false⟩

def affinityNone : AffinityKey := affinityOf .none

def square (a b : UInt8) : ℕ := (((a.toNat : ℤ) - b.toNat) ^ 2).toNat

def distance (incoming resident : AffinityKey) : ℕ :=
  let left := unpackAffinity incoming
  let right := unpackAffinity resident
  if right.cold then kColdCost
  else if left.opaqueBit ≠ right.opaqueBit then kWallCost
  else if left.opaqueBit ∧ right.opaqueBit then 0
  else square left.structural right.structural + square left.tokens right.tokens +
    square left.records right.records

theorem square_le (a b : UInt8) : square a b ≤ 255 ^ 2 := by
  have ha := a.toNat_lt
  have hb := b.toNat_lt
  have habs : |(a.toNat : ℤ) - b.toNat| ≤ 255 := abs_le.mpr ⟨by omega, by omega⟩
  have hsq : ((a.toNat : ℤ) - b.toNat) ^ 2 ≤ 255 ^ 2 := sq_le_sq.mpr (habs.trans (le_abs_self 255))
  exact Int.toNat_le.mpr hsq

theorem distance_le (incoming resident : AffinityKey) : distance incoming resident ≤ kWallCost := by
  unfold distance
  dsimp only
  split_ifs
  · decide
  · exact le_rfl
  · exact Nat.zero_le _
  · have hs := square_le (unpackAffinity incoming).structural (unpackAffinity resident).structural
    have ht := square_le (unpackAffinity incoming).tokens (unpackAffinity resident).tokens
    have hr := square_le (unpackAffinity incoming).records (unpackAffinity resident).records
    have hwall : 255 ^ 2 + 255 ^ 2 + 255 ^ 2 ≤ kWallCost := by decide
    omega

/-! ## Selection -/

inductive WorkerState where
  | pending | ready | failed
  deriving DecidableEq

/-- A worker and its channel as the scheduler sees them. `initialised` is what `awaitInit`
answers; `last` is the history: the key of the last small file assigned to it. -/
structure WorkerChan where
  state : WorkerState
  initialised : Bool
  stopped : Bool
  occupancy : ℕ
  warm : AffinityKey
  last : AffinityKey

def busyThreshold : ℕ := 32

def nobody : UInt64 := -1

structure Selection where
  chosen : UInt64
  minIdx : UInt64
  minCap : ℕ
  chosenDistance : ℕ

def Selection.weigh (sel : Selection) (w : WorkerChan) (i : ℕ) : Selection :=
  if w.occupancy < sel.minCap then { sel with
    minIdx := UInt64.ofNat i, minCap := w.occupancy } else sel

def Selection.compare (sel : Selection) (incoming : AffinityKey) (w : WorkerChan) (i : ℕ) :
    Selection :=
  if distance incoming w.warm < sel.chosenDistance then
    { sel with chosenDistance := distance incoming w.warm, chosen := UInt64.ofNat i }
  else sel

/-- One round of the loop of `selectWorker`. -/
def consider (incoming : AffinityKey) (sel : Selection) (worker : WorkerChan × ℕ) : Selection :=
  if worker.1.stopped then sel
  else if busyThreshold ≤ worker.1.occupancy then sel.weigh worker.1 worker.2
  else (sel.weigh worker.1 worker.2).compare incoming worker.1 worker.2

def select (workers : List WorkerChan) (incoming : AffinityKey) : Selection :=
  workers.zipIdx.foldl (consider incoming) ⟨nobody, nobody, 128, kWallCost + 1⟩

def selectWorker (workers : List WorkerChan) (incoming : AffinityKey) : UInt64 :=
  if (select workers incoming).chosen ≠ nobody then (select workers incoming).chosen
  else (select workers incoming).minIdx

def WorkerChan.Available (w : WorkerChan) : Prop := w.stopped = false ∧ w.occupancy < busyThreshold

instance (w : WorkerChan) : Decidable w.Available := inferInstanceAs (Decidable (_ ∧ _))

structure Nearest (workers : List WorkerChan) (cost : WorkerChan → ℕ) (i : ℕ)
    (w : WorkerChan) : Prop where
  at_index : workers[i]? = some w
  available : w.Available
  least : ∀ (j : ℕ) v, workers[j]? = some v → v.Available → cost w ≤ cost v
  first : ∀ (j : ℕ) v, workers[j]? = some v → v.Available → j < i → cost w < cost v

section
variable {incoming : AffinityKey} {workers : List WorkerChan} {w v : WorkerChan}
  {cost : WorkerChan → ℕ} {i j d cap : ℕ} {c : UInt64}

theorem getElem?_concat_iff : (workers ++ [w])[j]? = some v ↔
    workers[j]? = some v ∨ (j = workers.length ∧ v = w) := by
  rcases Nat.lt_trichotomy j workers.length with hj | rfl | hj
  · rw [List.getElem?_append_left hj]
    exact ⟨.inl, fun h => h.resolve_right fun h => absurd h.1 hj.ne⟩
  · rw [List.getElem?_append_right le_rfl, Nat.sub_self, List.getElem?_eq_none le_rfl]
    simp [eq_comm]
  · rw [List.getElem?_eq_none (by simp; omega), List.getElem?_eq_none hj.le]
    simp only [reduceCtorEq, false_or, false_iff, not_and]
    exact fun h => absurd h hj.ne'

theorem Nearest.concat (h : Nearest workers cost i w) (hv : v.Available → cost w ≤ cost v) :
    Nearest (workers ++ [v]) cost i w where
  at_index := getElem?_concat_iff.mpr (.inl h.at_index)
  available := h.available
  least j u hu ha := by
    rcases getElem?_concat_iff.mp hu with hu | ⟨_, rfl⟩
    · exact h.least j u hu ha
    · exact hv ha
  first j u hu ha hj := by
    rcases getElem?_concat_iff.mp hu with hu | ⟨rfl, rfl⟩
    · exact h.first j u hu ha hj
    · have hi := (List.getElem?_eq_some_iff.mp h.at_index).1
      omega

theorem nearest_last (hw : w.Available)
    (hothers : ∀ (j : ℕ) v, workers[j]? = some v → v.Available → cost w < cost v) :
    Nearest (workers ++ [w]) cost workers.length w where
  at_index := getElem?_concat_iff.mpr (.inr ⟨rfl, rfl⟩)
  available := hw
  least j v hv ha := by
    rcases getElem?_concat_iff.mp hv with hv | ⟨_, rfl⟩
    · exact (hothers j v hv ha).le
    · exact le_rfl
  first j v hv ha hj := by
    rcases getElem?_concat_iff.mp hv with hv | ⟨rfl, _⟩
    · exact hothers j v hv ha
    · exact absurd hj (Nat.lt_irrefl _)

variable (incoming workers) in
inductive Chosen : UInt64 → ℕ → Prop where
  | nobody (hnone : ∀ w ∈ workers, ¬w.Available) : Chosen nobody (kWallCost + 1)
  | worker {i : ℕ} {w : WorkerChan} (h : Nearest workers (fun w => distance incoming w.warm) i w) :
      Chosen (UInt64.ofNat i) (distance incoming w.warm)

variable (workers) in
inductive Least : UInt64 → ℕ → Prop where
  | nobody (hfull : ∀ w ∈ workers, w.stopped = false → 128 ≤ w.occupancy) : Least nobody 128
  | worker {i : ℕ} {w : WorkerChan} (hi : workers[i]? = some w) (hrunning : w.stopped = false)
      (hroom : w.occupancy < 128) : Least (UInt64.ofNat i) w.occupancy

theorem Chosen.skip (h : Chosen incoming workers c d) (hw : ¬w.Available) :
    Chosen incoming (workers ++ [w]) c d := by
  cases h with
  | nobody hnone =>
    refine .nobody fun v hv => ?_
    rcases List.mem_append.mp hv with hv | hv
    · exact hnone v hv
    · exact List.mem_singleton.mp hv ▸ hw
  | worker h => exact .worker (h.concat fun ha => absurd ha hw)

theorem Chosen.take (h : Chosen incoming workers c d) (hw : w.Available)
    (hlt : distance incoming w.warm < d) :
    Chosen incoming (workers ++ [w]) (UInt64.ofNat workers.length) (distance incoming w.warm) := by
  refine .worker (nearest_last hw fun j v hv ha => ?_)
  cases h with
  | nobody hnone => exact absurd ha (hnone v (List.mem_of_getElem? hv))
  | worker h => exact hlt.trans_le (h.least j v hv ha)

theorem Chosen.keep (h : Chosen incoming workers c d) (hge : d ≤ distance incoming w.warm) :
    Chosen incoming (workers ++ [w]) c d := by
  cases h with
  | nobody hnone => exact absurd (distance_le incoming w.warm) (Nat.not_le.mpr hge)
  | worker h => exact .worker (h.concat fun _ => hge)

theorem Least.skip (h : Least workers c cap) (hw : w.stopped = false → cap ≤ w.occupancy) :
    Least (workers ++ [w]) c cap := by
  cases h with
  | nobody hfull =>
    refine .nobody fun v hv => ?_
    rcases List.mem_append.mp hv with hv | hv
    · exact hfull v hv
    · exact List.mem_singleton.mp hv ▸ hw
  | worker hi hrunning hroom => exact .worker (getElem?_concat_iff.mpr (.inl hi)) hrunning hroom

theorem Least.take (h : Least workers c cap) (hw : w.stopped = false) (hlt : w.occupancy < cap) :
    Least (workers ++ [w]) (UInt64.ofNat workers.length) w.occupancy := by
  refine .worker (getElem?_concat_iff.mpr (.inr ⟨rfl, rfl⟩)) hw ?_
  cases h with
  | nobody => exact hlt
  | worker _ _ hroom => exact hlt.trans hroom

structure Selected (incoming : AffinityKey) (workers : List WorkerChan)
    (sel : Selection) : Prop where
  chosen : Chosen incoming workers sel.chosen sel.chosenDistance
  least : Least workers sel.minIdx sel.minCap

variable {sel : Selection}

theorem Least.weigh (h : Least workers sel.minIdx sel.minCap) (hw : w.stopped = false) :
    Least (workers ++ [w]) (sel.weigh w workers.length).minIdx
      (sel.weigh w workers.length).minCap := by
  unfold Selection.weigh
  split_ifs with hlt
  · exact h.take hw hlt
  · exact h.skip fun _ => Nat.not_lt.mp hlt

theorem Chosen.compare (h : Chosen incoming workers sel.chosen sel.chosenDistance)
    (hw : w.Available) :
    Chosen incoming (workers ++ [w]) (sel.compare incoming w workers.length).chosen
      (sel.compare incoming w workers.length).chosenDistance := by
  unfold Selection.compare
  split_ifs with hlt
  · exact h.take hw hlt
  · exact h.keep (Nat.not_lt.mp hlt)

theorem Selected.consider (h : Selected incoming workers sel) (w : WorkerChan) :
    Selected incoming (workers ++ [w]) (consider incoming sel (w, workers.length)) := by
  have hweighed : ∀ w : WorkerChan, (sel.weigh w workers.length).chosen = sel.chosen ∧
      (sel.weigh w workers.length).chosenDistance = sel.chosenDistance := by
    intro w
    unfold Selection.weigh
    split_ifs <;> exact ⟨rfl, rfl⟩
  have hcompared : ((sel.weigh w workers.length).compare incoming w workers.length).minIdx =
        (sel.weigh w workers.length).minIdx ∧
      ((sel.weigh w workers.length).compare incoming w workers.length).minCap =
        (sel.weigh w workers.length).minCap := by
    unfold Selection.compare
    split_ifs <;> exact ⟨rfl, rfl⟩
  have hchosen := h.chosen
  rw [← (hweighed w).1, ← (hweighed w).2] at hchosen
  unfold Scheduler.consider
  split_ifs with hstopped hbusy
  · exact ⟨h.chosen.skip fun ha => absurd (ha.1.symm.trans hstopped) Bool.false_ne_true,
      h.least.skip fun hf => absurd (hf.symm.trans hstopped) Bool.false_ne_true⟩
  · exact ⟨hchosen.skip fun ha => absurd ha.2 (Nat.not_lt.mpr hbusy),
      h.least.weigh (Bool.eq_false_iff.mpr hstopped)⟩
  · refine ⟨hchosen.compare ⟨Bool.eq_false_iff.mpr hstopped, Nat.not_le.mp hbusy⟩, ?_⟩
    rw [hcompared.1, hcompared.2]
    exact h.least.weigh (Bool.eq_false_iff.mpr hstopped)

theorem select_selected (workers : List WorkerChan) (incoming : AffinityKey) :
    Selected incoming workers (select workers incoming) := by
  induction workers using List.reverseRecOn with
  | nil =>
    exact ⟨.nobody fun _ hw => absurd hw List.not_mem_nil,
      .nobody fun _ hw => absurd hw List.not_mem_nil⟩
  | append_singleton workers w ih =>
    have hstep : select (workers ++ [w]) incoming =
        consider incoming (select workers incoming) (w, workers.length) := by
      unfold select
      rw [List.zipIdx_append, List.foldl_append, Nat.zero_add]
      rfl
    rw [hstep]
    exact ih.consider w

theorem ofNat_ne_nobody (hlen : workers.length < 2 ^ 64) (hi : workers[i]? = some w) :
    UInt64.ofNat i ≠ nobody ∧ (UInt64.ofNat i).toNat = i := by
  have hlt := (List.getElem?_eq_some_iff.mp hi).1
  have hnat : (UInt64.ofNat i).toNat = i := by
    rw [UInt64.toNat_ofNat']
    exact Nat.mod_eq_of_lt (hlt.trans hlen)
  refine ⟨fun h => ?_, hnat⟩
  have hnobody : (UInt64.ofNat i).toNat = 2 ^ 64 - 1 := congrArg UInt64.toNat h
  omega

theorem selectWorker_nearest (incoming : AffinityKey) (hlen : workers.length < 2 ^ 64)
    (havailable : ∃ w ∈ workers, w.Available) :
    ∃ w, Nearest workers (fun w => distance incoming w.warm)
      (selectWorker workers incoming).toNat w := by
  have hchosen := (select_selected workers incoming).chosen
  unfold selectWorker
  generalize (select workers incoming).chosen = c at hchosen ⊢
  generalize (select workers incoming).chosenDistance = d at hchosen
  cases hchosen with
  | nobody hnone =>
    obtain ⟨w, hw, ha⟩ := havailable
    exact absurd ha (hnone w hw)
  | @worker i w h =>
    obtain ⟨hne, hnat⟩ := ofNat_ne_nobody hlen h.at_index
    rw [if_pos hne, hnat]
    exact ⟨w, h⟩

theorem selectWorker_cases (incoming : AffinityKey) (hlen : workers.length < 2 ^ 64) :
    (selectWorker workers incoming = nobody ∧ ∀ w ∈ workers, w.stopped = false →
      128 ≤ w.occupancy) ∨
      ((selectWorker workers incoming).toNat < workers.length ∧
        ∃ w ∈ workers, w.stopped = false ∧ w.occupancy < 128) := by
  obtain ⟨hchosen, hleast⟩ := select_selected workers incoming
  unfold selectWorker
  generalize (select workers incoming).chosen = c at hchosen ⊢
  generalize (select workers incoming).chosenDistance = d at hchosen
  generalize (select workers incoming).minIdx = m at hleast ⊢
  generalize (select workers incoming).minCap = cap at hleast
  cases hchosen with
  | @worker i w h =>
    obtain ⟨hne, hnat⟩ := ofNat_ne_nobody hlen h.at_index
    rw [if_pos hne, hnat]
    exact .inr ⟨(List.getElem?_eq_some_iff.mp h.at_index).1, w, List.mem_of_getElem? h.at_index,
      h.available.1, h.available.2.trans (by decide)⟩
  | nobody =>
    rw [if_neg (not_not.mpr rfl)]
    cases hleast with
    | nobody hfull => exact .inl ⟨rfl, hfull⟩
    | @worker i w hi hrunning hroom =>
      rw [(ofNat_ne_nobody hlen hi).2]
      exact .inr ⟨(List.getElem?_eq_some_iff.mp hi).1, w, List.mem_of_getElem? hi, hrunning, hroom⟩

end

/-! ## Dispatch -/

/-- A visit of `dispatch`: the worker is asked how it came up, and takes the task if it came up
well and still runs. A running channel waits for room. -/
def WorkerChan.visited (w : WorkerChan) : WorkerChan × Bool :=
  let state := if w.state = .pending then (if w.initialised then .ready else .failed) else w.state
  ({ w with state := state }, state != .failed && !w.stopped)

def WorkerChan.healthy (w : WorkerChan) : Bool :=
  (w.state == .ready || (w.state == .pending && w.initialised)) && !w.stopped

def visit (n : ℕ) (startIdx : UInt64) (k : ℕ) : ℕ :=
  ((startIdx + UInt64.ofNat k) % UInt64.ofNat n).toNat

/-- The loop of `dispatch` from round `k` on. -/
def dispatchFrom (startIdx : UInt64) : ℕ → ℕ → List WorkerChan → List WorkerChan × Option ℕ
  | _, 0, workers => (workers, none)
  | k, left + 1, workers =>
    let i := visit workers.length startIdx k
    match workers[i]? with
    | none => (workers, none)
    | some w =>
      if w.visited.2 then (workers.set i w.visited.1, some i)
      else dispatchFrom startIdx (k + 1) left (workers.set i w.visited.1)

def dispatch (workers : List WorkerChan) (startIdx : UInt64) : List WorkerChan × Option ℕ :=
  dispatchFrom startIdx 0 workers.length workers

theorem visited_healthy (w : WorkerChan) :
    w.visited.2 = w.healthy ∧ w.visited.1.healthy = w.healthy := by
  obtain ⟨state, initialised, stopped, _, _, _⟩ := w
  cases state <;> cases initialised <;> cases stopped <;> exact ⟨rfl, rfl⟩

variable {i : ℕ} {workers : List WorkerChan}

section
variable {startIdx : UInt64} {n : ℕ}

theorem visit_eq (hn : n < 2 ^ 64) {k : ℕ} (hk : k < 2 ^ 64) :
    visit n startIdx k = (startIdx.toNat + k) % 2 ^ 64 % n := by
  unfold visit
  rw [UInt64.toNat_mod, UInt64.toNat_add, UInt64.toNat_ofNat', UInt64.toNat_ofNat',
    Nat.mod_eq_of_lt hk, Nat.mod_eq_of_lt hn]

theorem visit_lt (hn : n < 2 ^ 64) (hpos : 0 < n) (k : ℕ) : visit n startIdx k < n := by
  unfold visit
  rw [UInt64.toNat_mod, UInt64.toNat_ofNat' (n := n), Nat.mod_eq_of_lt hn]
  exact Nat.mod_lt _ hpos

theorem set_visited {w : WorkerChan} (hi : workers[i]? = some w) :
    (workers.set i w.visited.1).map WorkerChan.healthy = workers.map WorkerChan.healthy := by
  rw [List.map_set, (visited_healthy w).2]
  refine List.ext_getElem? fun j => ?_
  rw [List.getElem?_set]
  split_ifs with hij hlt
  · rw [← hij, List.getElem?_map, hi]
    rfl
  · rw [List.getElem?_eq_none (by omega)]
  · rfl

theorem dispatchFrom_isSome (hn : n < 2 ^ 64) (hpos : 0 < n) (hlen : workers.length = n)
    (k left : ℕ) :
    (dispatchFrom startIdx k left workers).2.isSome = true ↔
      ∃ j < left, (workers.map WorkerChan.healthy)[visit n startIdx (k + j)]? = some true := by
  induction left generalizing k workers with
  | zero => simp [dispatchFrom]
  | succ left ih =>
    obtain ⟨w, hw⟩ : ∃ w, workers[visit n startIdx k]? = some w :=
      ⟨_, List.getElem?_eq_getElem ((visit_lt hn hpos k).trans_eq hlen.symm)⟩
    have hfirst : (workers.map WorkerChan.healthy)[visit n startIdx k]? = some w.healthy := by
      rw [List.getElem?_map, hw]
      rfl
    unfold dispatchFrom
    dsimp only
    rw [hlen, hw]
    dsimp only
    rw [(visited_healthy w).1]
    split_ifs with hhealthy
    · exact ⟨fun _ => ⟨0, Nat.succ_pos _, by rw [Nat.add_zero, hfirst, hhealthy]⟩, fun _ => rfl⟩
    · rw [ih (List.length_set.trans hlen), set_visited hw]
      constructor
      · rintro ⟨j, hj, hvisit⟩
        exact ⟨j + 1, Nat.succ_lt_succ hj, by rwa [Nat.add_right_comm] at hvisit⟩
      · rintro ⟨j, hj, hvisit⟩
        cases j with
        | zero =>
          rw [Nat.add_zero, hfirst] at hvisit
          exact absurd (Option.some.inj hvisit) hhealthy
        | succ j => exact ⟨j, Nat.lt_of_succ_lt_succ hj, by rwa [Nat.add_right_comm]⟩

theorem visit_covers (hn : n < 2 ^ 63) (hstart : startIdx.toNat < n) (hi : i < n) :
    ∃ k < n, visit n startIdx k = i := by
  have hvisit : ∀ k < n, visit n startIdx k = (startIdx.toNat + k) % n := by
    intro k hk
    rw [visit_eq (by omega) (by omega), Nat.mod_eq_of_lt (a := startIdx.toNat + k) (by omega)]
  rcases Nat.lt_or_ge i startIdx.toNat with hlt | hge
  · refine ⟨i + n - startIdx.toNat, by omega, ?_⟩
    rw [hvisit _ (by omega), show startIdx.toNat + (i + n - startIdx.toNat) = i + n by omega,
      Nat.add_mod_right, Nat.mod_eq_of_lt hi]
  · refine ⟨i - startIdx.toNat, by omega, ?_⟩
    rw [hvisit _ (by omega), Nat.add_sub_cancel' hge, Nat.mod_eq_of_lt hi]

theorem visit_nobody (hn : n < 2 ^ 63) (hpos : 0 < n) :
    (∀ i < n, ∃ k < n, visit n nobody k = i) ↔ n ∣ 2 ^ 64 := by
  have hfirst : visit n nobody 0 = (2 ^ 64 - 1) % n := visit_eq (by omega) (by omega)
  have hnext : ∀ k < n, 0 < k → visit n nobody k = k - 1 := by
    intro k hk hk'
    have hwrap : (nobody.toNat + k) % 2 ^ 64 = k - 1 := by
      change (2 ^ 64 - 1 + k) % 2 ^ 64 = k - 1
      omega
    rw [visit_eq (by omega) (by omega), hwrap, Nat.mod_eq_of_lt (by omega)]
  have hdvd : (2 ^ 64 - 1) % n = n - 1 ↔ n ∣ 2 ^ 64 := by
    obtain ⟨m, rfl⟩ := Nat.exists_eq_succ_of_ne_zero hpos.ne'
    rw [Nat.dvd_iff_mod_eq_zero]
    exact Nat.succ_mod_succ_eq_zero_iff.symm
  rw [← hdvd]
  constructor
  · intro h
    obtain ⟨k, hk, hvisit⟩ := h (n - 1) (by omega)
    rcases Nat.eq_zero_or_pos k with rfl | hpos'
    · rw [← hfirst, hvisit]
    · rw [hnext k hk hpos'] at hvisit
      omega
  · intro h i hi
    by_cases hlast : i = n - 1
    · exact ⟨0, hpos, by rw [hfirst, h, hlast]⟩
    · exact ⟨i + 1, by omega, by rw [hnext (i + 1) (by omega) (Nat.succ_pos i), Nat.add_sub_cancel]⟩

def HasRoom (workers : List WorkerChan) : Prop :=
  ∃ w ∈ workers, w.stopped = false ∧ w.occupancy < 128

theorem selectWorker_covers_iff (hlen : workers.length < 2 ^ 63) (hne : workers ≠ [])
    (incoming : AffinityKey) :
    (∀ i < workers.length, ∃ k < workers.length,
      visit workers.length (selectWorker workers incoming) k = i) ↔
      HasRoom workers ∨ workers.length ∣ 2 ^ 64 := by
  rcases selectWorker_cases incoming (hlen.trans (by decide)) with ⟨hnobody, hfull⟩ | ⟨hlt, hroom⟩
  · have hnone : ¬HasRoom workers := fun ⟨w, hw, hrunning, hroom⟩ =>
      absurd (hfull w hw hrunning) (Nat.not_le.mpr hroom)
    rw [hnobody, visit_nobody hlen (List.length_pos_iff.mpr hne), or_iff_right hnone]
  · exact ⟨fun _ => .inl hroom, fun _ i hi => visit_covers hlen hlt hi⟩

end

/-- `dispatch` goes through all workers if and only if somebody has room, or the number of
workers goes into the range of an index; then a task is refused only if nobody is healthy. -/
theorem healthy_worker_found (workers : List WorkerChan) (hne : workers ≠ [])
    (hlen : workers.length < 2 ^ 63) (incoming : AffinityKey) :
    ((∀ i < workers.length, ∃ k < workers.length,
      visit workers.length (selectWorker workers incoming) k = i) ↔
      HasRoom workers ∨ workers.length ∣ 2 ^ 64) ∧
    (HasRoom workers ∨ workers.length ∣ 2 ^ 64 →
      ((dispatch workers (selectWorker workers incoming)).2.isSome = true ↔
        ∃ w ∈ workers, w.healthy = true)) := by
  have hcovers := selectWorker_covers_iff hlen hne incoming
  refine ⟨hcovers, fun hcond => ?_⟩
  have hn : workers.length < 2 ^ 64 := hlen.trans (by decide)
  unfold dispatch
  rw [dispatchFrom_isSome hn (List.length_pos_iff.mpr hne) rfl]
  constructor
  · rintro ⟨k, _, hvisit⟩
    obtain ⟨w, hw, hhealthy⟩ := List.mem_map.mp (List.mem_of_getElem? hvisit)
    exact ⟨w, hw, hhealthy⟩
  · rintro ⟨w, hw, hhealthy⟩
    obtain ⟨i, hi, hget⟩ := List.getElem_of_mem hw
    obtain ⟨k, hk, hvisit⟩ := hcovers.mpr hcond i hi
    refine ⟨k, hk, ?_⟩
    rw [Nat.zero_add, hvisit, List.getElem?_map, List.getElem?_eq_getElem hi, hget]
    exact congrArg some hhealthy

theorem healthy_worker_found_third :
    (dispatch [⟨.failed, false, false, 0, 0, 0⟩, ⟨.pending, false, false, 0, 0, 0⟩,
      ⟨.ready, true, false, 5, 0, 0⟩]
      (selectWorker [⟨.failed, false, false, 0, 0, 0⟩, ⟨.pending, false, false, 0, 0, 0⟩,
        ⟨.ready, true, false, 5, 0, 0⟩] 0)).2.isSome = true :=
  ((healthy_worker_found _ (List.cons_ne_nil _ _) (by decide) 0).2
    (.inl ⟨_, List.mem_cons_self, rfl, by decide⟩)).mpr
      ⟨⟨.ready, true, false, 5, 0, 0⟩, by simp, rfl⟩

/-- Two of three connections have ended and the queue of the third is full: it is never asked. -/
theorem last_worker_missed :
    (⟨.ready, true, false, 128, 0, 0⟩ : WorkerChan).healthy = true ∧
    (dispatch [⟨.ready, true, true, 0, 0, 0⟩, ⟨.ready, true, true, 0, 0, 0⟩,
      ⟨.ready, true, false, 128, 0, 0⟩]
      (selectWorker [⟨.ready, true, true, 0, 0, 0⟩, ⟨.ready, true, true, 0, 0, 0⟩,
        ⟨.ready, true, false, 128, 0, 0⟩] 0)).2 = none := by
  decide

/-! ## Runs -/

/-- Only what the scheduler keeps of its workers is fixed here: they take tasks, come up, fail
and stop as they like. -/
inductive Step : List WorkerChan → List WorkerChan → Prop where
  | drift {workers workers' : List WorkerChan}
      (h : workers'.map (fun w => (w.warm, w.last)) = workers.map fun w => (w.warm, w.last)) :
      Step workers workers'
  | chunk (workers : List WorkerChan) (n : ℕ) :
      Step workers (dispatch workers (UInt64.ofNat (n % workers.length))).1
  | file (workers : List WorkerChan) (key : AffinityKey) {i : ℕ}
      (hi : (dispatch workers (selectWorker workers key)).2 = some i) :
      Step workers ((dispatch workers (selectWorker workers key)).1.modify i fun w =>
        { w with last := key })

/-- A worker that has received nothing; `NONE` is 0. -/
def WorkerChan.Fresh (w : WorkerChan) : Prop := w.warm = 0 ∧ w.last = affinityNone

def Unwarmed (workers : List WorkerChan) : Prop := ∀ w ∈ workers, w.warm = 0

theorem Unwarmed.dispatchFrom (h : Unwarmed workers) (startIdx : UInt64) (k left : ℕ) :
    Unwarmed (dispatchFrom startIdx k left workers).1 := by
  induction left generalizing k workers with
  | zero => exact h
  | succ left ih =>
    unfold Scheduler.dispatchFrom
    dsimp only
    cases hw : workers[visit workers.length startIdx k]? with
    | none => exact h
    | some w =>
      have hset : Unwarmed (workers.set (visit workers.length startIdx k) w.visited.1) := by
        intro v hv
        rcases List.mem_or_eq_of_mem_set hv with hv | rfl
        · exact h v hv
        · exact h w (List.mem_of_getElem? hw)
      dsimp only
      split_ifs
      · exact hset
      · exact ih hset _

theorem Unwarmed.step {workers' : List WorkerChan} (h : Unwarmed workers)
    (hstep : Step workers workers') : Unwarmed workers' := by
  cases hstep with
  | drift hsame =>
    intro w hw
    have hmem : (w.warm, w.last) ∈ workers.map fun w => (w.warm, w.last) :=
      hsame ▸ List.mem_map_of_mem hw
    obtain ⟨v, hv, heq⟩ := List.mem_map.mp hmem
    exact (congrArg Prod.fst heq).symm.trans (h v hv)
  | chunk n => exact h.dispatchFrom _ _ _
  | file key hi =>
    intro w hw
    obtain ⟨j, hj⟩ := List.mem_iff_getElem?.mp hw
    rw [List.getElem?_modify] at hj
    obtain ⟨v, hv, rfl⟩ := Option.map_eq_some_iff.mp hj
    have hwarm :=
      h.dispatchFrom (selectWorker workers key) 0 workers.length v (List.mem_of_getElem? hv)
    split_ifs <;> exact hwarm

theorem unwarmed_of_run {start : List WorkerChan} (hfresh : ∀ w ∈ start, w.Fresh)
    (hrun : Relation.ReflTransGen Step start workers) : Unwarmed workers := by
  induction hrun with
  | refl => exact fun w hw => (hfresh w hw).1
  | tail _ hstep ih => exact ih.step hstep

def IsFirst (workers : List WorkerChan) (i : ℕ) (w : WorkerChan) : Prop :=
  workers[i]? = some w ∧ w.Available ∧ ∀ (j : ℕ) v, workers[j]? = some v → v.Available → i ≤ j

theorem nearest_of_unwarmed {key : AffinityKey} {w : WorkerChan} (hwarm : Unwarmed workers)
    (h : Nearest workers (fun w => distance key w.warm) i w) : IsFirst workers i w := by
  refine ⟨h.at_index, h.available, fun j v hv ha => ?_⟩
  by_contra hlt
  have hnear := h.first j v hv ha (Nat.not_le.mp hlt)
  rw [hwarm w (List.mem_of_getElem? h.at_index), hwarm v (List.mem_of_getElem? hv)] at hnear
  exact absurd hnear (Nat.lt_irrefl _)

/-- In every state of every run a file goes to the nearest of the available workers, by what they
last received, if and only if the first of them is such a one. -/
theorem routes_by_last_iff {start workers : List WorkerChan} (hfresh : ∀ w ∈ start, w.Fresh)
    (hrun : Relation.ReflTransGen Step start workers) (hlen : workers.length < 2 ^ 64)
    (havailable : ∃ w ∈ workers, w.Available) (key : AffinityKey) :
    (∃ w, Nearest workers (fun w => distance key w.last) (selectWorker workers key).toNat w) ↔
      ∀ i w, IsFirst workers i w → ∀ v ∈ workers, v.Available →
        distance key w.last ≤ distance key v.last := by
  obtain ⟨w₀, hnear⟩ := selectWorker_nearest key hlen havailable
  have hfirst := nearest_of_unwarmed (unwarmed_of_run hfresh hrun) hnear
  generalize (selectWorker workers key).toNat = i₀ at hnear hfirst ⊢
  constructor
  · rintro ⟨w, hw⟩ i w' hfirst' v hv ha
    have hi : i = i₀ :=
      le_antisymm (hfirst'.2.2 i₀ w₀ hfirst.1 hfirst.2.1) (hfirst.2.2 i w' hfirst'.1 hfirst'.2.1)
    have hsame : w' = w := Option.some.inj (hfirst'.1.symm.trans (hi ▸ hw.at_index))
    obtain ⟨j, hj⟩ := List.mem_iff_getElem?.mp hv
    exact hsame ▸ hw.least j v hj ha
  · intro h
    refine ⟨w₀, hfirst.1, hfirst.2.1, fun j v hv ha =>
      h i₀ w₀ hfirst v (List.mem_of_getElem? hv) ha, ?_⟩
    intro j v hv ha hj
    exact absurd (hfirst.2.2 j v hv ha) (Nat.not_le.mpr hj)

def freshWorker (occupancy : ℕ) : WorkerChan := ⟨.ready, true, false, occupancy, 0, affinityNone⟩

theorem routes_by_last_again :
    ∃ workers, Relation.ReflTransGen Step [freshWorker 0, freshWorker 0] workers ∧
    workers.map WorkerChan.last = [affinityOf .structured, affinityNone] ∧
    ∃ w, Nearest workers (fun w => distance (affinityOf .structured) w.last)
      (selectWorker workers (affinityOf .structured)).toNat w := by
  have hrun : Relation.ReflTransGen Step [freshWorker 0, freshWorker 0]
      [{ freshWorker 0 with last := affinityOf .structured }, freshWorker 0] :=
    .single (Step.file [freshWorker 0, freshWorker 0] (affinityOf .structured) (i := 0) (by decide))
  refine ⟨_, hrun, rfl,
    (routes_by_last_iff (by simp [WorkerChan.Fresh, freshWorker]) hrun (by decide)
    ⟨_, List.mem_cons_self, by decide⟩ _).mpr fun i w hfirst v _ _ => ?_⟩
  have hi : i = 0 := Nat.le_zero.mp (hfirst.2.2 0 _ rfl (by decide))
  subst hi
  cases hfirst.1
  exact le_trans (by decide) (Nat.zero_le _)

/-- The first worker is busy and a JSON file goes to the second; the next one goes to the first. -/
theorem last_file_forgotten :
    ∃ workers, Relation.ReflTransGen Step [freshWorker 0, freshWorker 0] workers ∧
      selectWorker workers (affinityOf .structured) = 0 ∧
      workers.map (fun w => distance (affinityOf .structured) w.last) = [16, 0] ∧
      ∀ w ∈ workers, w.Available := by
  refine ⟨[freshWorker 0, { freshWorker 0 with last := affinityOf .structured }],
    ?_, by decide, by decide, by decide⟩
  have hbusy : Step [freshWorker 0, freshWorker 0] [freshWorker 32, freshWorker 0] := .drift rfl
  have hfile : Step [freshWorker 32, freshWorker 0]
      [freshWorker 32, { freshWorker 0 with last := affinityOf .structured }] :=
    Step.file [freshWorker 32, freshWorker 0] (affinityOf .structured) (i := 1) (by decide)
  have hfree : Step [freshWorker 32, { freshWorker 0 with last := affinityOf .structured }]
      [freshWorker 0, { freshWorker 0 with last := affinityOf .structured }] := .drift rfl
  exact ((Relation.ReflTransGen.single hbusy).tail hfile).tail hfree

end Dicker.Client.Scheduler
