import Dicker.Client.DiskPool

/-! Progress of the readers and workers of a run: in every order of their steps all units are read,
if the disk limit is a positive `int`; if it is not, none ever is. -/

namespace Dicker.Client
open Lib Program StorageReader ReadAhead Relation

/-! ## Every run comes to an end -/

namespace ReadAhead
variable {files : Files} {s s' : State}

def WorkerPc.unit : WorkerPc → ℕ
  | header _ => 8
  | submit _ _ => 7
  | next _ | hashBlock _ | block _ | blockHeader _ | blockData _ | recycle _ _ _ => 6
  | flush => 5
  | flushHeader => 4
  | flushData => 3
  | endOfUnit => 2
  | checksum => 1
  | idle => 0

theorem Step.unit_le (hstep : Step files (fun _ => False) s s') (hreading : s.worker.Reading) :
    s'.worker.unit ≤ s.worker.unit := by
  cases hstep with
  | move hmove =>
    cases hw : s.worker <;> rw [hw] at hmove hreading <;> cases hmove <;>
      first | exact hreading.elim | exact le_rfl
  | submit hworker =>
    rw [hworker] at hreading
    exact hreading.elim
  | @next job fb rest hworker hready =>
    rw [hworker]
    change (WorkerPc.gets job fb).unit ≤ 6
    cases job <;> cases hfb : fb.eof <;> simp [WorkerPc.gets, WorkerPc.unit, hfb]
  | recycleLoad hworker | recycleWrite hworker | recycleStore hworker =>
    rw [hworker]
    exact le_rfl
  | _ => exact le_rfl

theorem Inv.quiet (h : Inv files s) (hreading : ¬s.worker.Reading) :
    s.ready = [] ∧ s.requests = [] ∧ s.program = .ret () := by
  obtain ⟨v, -, -, -, hphase⟩ := h.reader
  cases hphase with
  | quiet _ hready hrequests hprogram => exact ⟨hready, hrequests, hprogram⟩
  | waiting hworker => exact absurd (hworker ▸ trivial) hreading
  | served hserved => exact absurd hserved.reading hreading

theorem Inv.unit_lt (h : Inv files s) (hstep : Step files (fun _ => False) s s')
    (hreading : ¬s.worker.Reading) : s'.worker.unit < s.worker.unit := by
  obtain ⟨-, hrequests, hprogram⟩ := h.quiet hreading
  cases hstep with
  | take hidle hreq => cases hrequests.symm.trans hreq
  | acquireDisk hp | openFile hp | popSpare hp | pread hp | loadTail hp | storeTail hp
  | pushReady hp | closeFile hp | releaseDisk hp | pushEof hp => cases hprogram.symm.trans hp
  | writeSlot hstage =>
    obtain ⟨k, _, _, hp, -⟩ := h.pushing (hstage ▸ nofun)
    cases hprogram.symm.trans hp
  | move hmove =>
    cases hw : s.worker <;> rw [hw] at hmove hreading <;> cases hmove <;>
      first | exact absurd trivial hreading | exact absurd ‹False› id | simp [WorkerPc.unit]
  | submit hworker =>
    rw [hworker]
    exact Nat.lt_succ_self _
  | next hworker | recycleLoad hworker | recycleWrite hworker | recycleStore hworker =>
    exact absurd (hworker ▸ trivial) hreading

theorem Inv.sinks (h : Inv files s) (hstep : Step files (fun _ => False) s s') (m m' : ℕ) :
    Prod.Lex (· < ·) (Prod.Lex RankLt (· < ·)) (s'.worker.unit, s'.rank, m')
      (s.worker.unit, s.rank, m) := by
  by_cases hreading : s.worker.Reading
  · rcases (hstep.unit_le hreading).lt_or_eq with hlt | heq
    · exact .left _ _ hlt
    · rw [heq]
      exact .right _ (.left _ _ (hstep.rank_lt hreading))
  · exact .left _ _ (h.unit_lt hstep hreading)

end ReadAhead

namespace DiskPool
variable {ι : Type} [Fintype ι] [DecidableEq ι] {files : Files} {n : Int32} {p p' : DiskPool ι}

def phase : Reader Unit → SemPc → ℕ
  | .call .acquireDisk _, .out => 2
  | .call .acquireDisk _, .holding => 0
  | .call .acquireDisk _, _ => 1
  | .call .releaseDisk _, .holding => 2
  | .call .releaseDisk _, .notify => 1
  | _, _ => 0

abbrev Rank := ℕ × ℕ × (ℕ × Reader Unit × ℕ) × ℕ

def RankLt : Rank → Rank → Prop :=
  Prod.Lex (· < ·) (Prod.Lex (· < ·) (Prod.Lex ReadAhead.RankLt (· < ·)))

theorem rankLt_wf : WellFounded RankLt :=
  wellFounded_lt.prod_lex (wellFounded_lt.prod_lex (ReadAhead.rankLt_wf.prod_lex wellFounded_lt))

def rank (p : DiskPool ι) (i : ι) : Rank :=
  ((p.todo i).length, (p.pairs i).worker.unit, (p.pairs i).rank,
    phase (p.pairs i).program (p.limit.pc i))

def measure (p : DiskPool ι) : (ι → Rank) × ℕ :=
  (p.rank, tally (SemPc.retries p.limit.permits) p.limit.pc)

variable {i : ι} {limit : Semaphore ι}

omit [Fintype ι] in
theorem rank_sets_of_ne (p : DiskPool ι) {j : ι} (hne : j ≠ i) (s : ReadAhead.State) :
    (p.sets i s).rank j = p.rank j := by
  unfold rank
  rw [sets_of_ne p hne]
  rfl

omit [DecidableEq ι] in
theorem rank_of_stays (h : Inv files n p) {j : ι} (hj : (p.limit.pc j).Stays (limit.pc j)) :
    ({ p with limit := limit } : DiskPool ι).rank j = p.rank j := by
  have hphase : phase (p.pairs j).program (limit.pc j) =
      phase (p.pairs j).program (p.limit.pc j) := by
    rcases hj with hsame | ⟨hseeks, hseeks'⟩
    · rw [hsame]
    · obtain ⟨held, -, hfits⟩ := h.positioned j
      obtain ⟨k, hk⟩ := hfits.acquires hseeks
      have hone {pc : SemPc} (hpc : pc.Seeks) : phase (call .acquireDisk k) pc = 1 := by
        cases pc <;> first | rfl | exact hpc.elim
      rw [hk, hone hseeks, hone hseeks']
  unfold rank
  rw [← hphase]

omit [DecidableEq ι] in
theorem phase_lt (h : Inv files n p) (hi : (p.limit.pc i).Advances (limit.pc i))
    (hacquire : p.limit.pc i = .out → limit.pc i ≠ .out →
      ∃ k, (p.pairs i).program = call .acquireDisk k)
    (hrelease : p.limit.pc i = .holding → limit.pc i ≠ .holding →
      ∃ k, (p.pairs i).program = call .releaseDisk k) :
    phase (p.pairs i).program (limit.pc i) < phase (p.pairs i).program (p.limit.pc i) := by
  obtain ⟨held, -, hfits⟩ := h.positioned i
  generalize p.limit.pc i = pc at *
  generalize limit.pc i = pc' at *
  cases hi with
  | enters =>
    obtain ⟨k, hk⟩ := hacquire rfl SemPc.noConfusion
    rw [hk]
    exact Nat.lt_succ_self 1
  | takes =>
    obtain ⟨k, hk⟩ := hfits.acquires trivial
    rw [hk]
    exact Nat.zero_lt_one
  | gives =>
    obtain ⟨k, hk⟩ := hrelease rfl SemPc.noConfusion
    rw [hk]
    exact Nat.lt_succ_self 1
  | leaves =>
    obtain ⟨k, hk⟩ := hfits.releases
    rw [hk]
    exact Nat.zero_lt_one

omit [DecidableEq ι] in
theorem Inv.permits_nonneg (h : Inv files n p) (hn : 0 < n) : 0 ≤ p.limit.permits := by
  have hcount := h.limit.count
  have hheld := h.limit.held
  have hn' := Semaphore.toInt_pos_iff.mp hn
  rw [Semaphore.toInt_nonneg_iff]
  omega

theorem Inv.sinks (h : Inv files n p) (hn : 0 < n) (hstep : Step files False p p') :
    Prod.Lex (Sinks RankLt) (· < ·) p'.measure p.measure := by
  cases hstep with
  | begins i req rest pc htodo hidle hpc =>
    refine .left _ _ ⟨i, .left _ _ ?_, fun j hj => ?_⟩
    · change (Function.update p.todo i rest i).length < (p.todo i).length
      rw [Function.update_self, htodo]
      exact Nat.lt_succ_self _
    · have hpair := rank_sets_of_ne p hj { p.pairs i with worker := pc }
      unfold rank at hpair ⊢
      rw [← hpair]
      exact congrArg (fun l : List ReadRequest => (l.length, _)) (Function.update_of_ne hj _ _)
  | works i s hstep hlimit =>
    refine .left _ _ ⟨i, ?_, fun j hj => rank_sets_of_ne p hj s⟩
    unfold rank
    rw [sets_self]
    exact .right _ ((h.pairs i).sinks hstep _ _)
  | acquired i k hp | released i k hp =>
    refine .left _ _ ⟨i, ?_, fun j hj => rank_sets_of_ne p hj _⟩
    unfold rank
    rw [sets_self]
    exact .right _ (.right _ (.left _ _ (rank_lt_of_call hp rfl rfl)))
  | limits limit hstep hacquire hrelease =>
    cases hstep.effect with
    | advances i hi hothers =>
      refine .left _ _ ⟨i, ?_, fun j hj => rank_of_stays h (hothers j hj)⟩
      exact .right _ (.right _ (.right _ (phase_lt h hi (hacquire i) (hrelease i))))
    | seeks hall hpermits hless =>
      have hsame : ({ p with limit := limit } : DiskPool ι).rank = p.rank :=
        funext fun j => rank_of_stays h (hall j)
      unfold measure
      rw [hsame, hpermits]
      exact .right _ (hless not_false (h.permits_nonneg hn))

/-! ## None of them is stuck -/

omit [Fintype ι] in
theorem step_of_limit (i : ι) (hstep : Semaphore.Step False p.limit limit)
    (hothers : ∀ j ≠ i, (p.limit.pc j).Stays (limit.pc j))
    (hacquire : p.limit.pc i = .out → ∃ k, (p.pairs i).program = call .acquireDisk k)
    (hrelease : p.limit.pc i = .holding → ∃ k, (p.pairs i).program = call .releaseDisk k) :
    ∃ p', Step files False p p' := by
  have hstays {pc : SemPc} (hpc : ¬pc.Seeks) (j : ι) (hj : p.limit.pc j = pc)
      (hleft : limit.pc j ≠ pc) : j = i := by
    by_contra hne
    rcases hothers j hne with hsame | ⟨hseeks, -⟩
    · exact hleft (hsame.trans hj)
    · exact hpc (hj ▸ hseeks)
  refine ⟨_, .limits p limit hstep (fun j hout hleft => ?_) fun j hholding hleft => ?_⟩
  · obtain rfl := hstays id j hout hleft
    exact hacquire hout
  · obtain rfl := hstays id j hholding hleft
    exact hrelease hholding

omit [Fintype ι] in
theorem stays_goes (s : Semaphore ι) (i : ι) (pc : SemPc) (j : ι) (hj : j ≠ i) :
    (s.pc j).Stays ((s.goes i pc).pc j) := by
  rw [Semaphore.goes_of_ne s hj]
  exact .refl _

omit [Fintype ι] in
theorem enabled_of_onTheWay (hi : 0 < (p.limit.pc i).onTheWay) : ∃ p', Step files False p p' := by
  have hfree {limit : Semaphore ι} (hstep : Semaphore.Step False p.limit limit)
      (hothers : ∀ j ≠ i, (p.limit.pc j).Stays (limit.pc j)) : ∃ p', Step files False p p' := by
    refine step_of_limit i hstep hothers (fun hpc => ?_) fun hpc => ?_ <;>
    · rw [hpc] at hi
      exact absurd hi (Nat.lt_irrefl 0)
  cases hpc : p.limit.pc i with
  | out | asleep | holding =>
    rw [hpc] at hi
    exact absurd hi (Nat.lt_irrefl 0)
  | load => exact hfree (.load _ i hpc) (stays_goes _ i _)
  | check =>
    by_cases hzero : p.limit.permits = 0
    · exact hfree (.sleeps _ i hpc hzero) (stays_goes _ i _)
    · exact hfree (.passes _ i hpc hzero) (stays_goes _ i _)
  | compare q =>
    by_cases hpos : 0 < q
    · by_cases hsame : p.limit.permits = q
      · subst hsame
        exact hfree (.take _ i hpc hpos) (stays_goes _ i .holding)
      · exact hfree (.retry _ i q hpc hpos (.inl hsame)) (stays_goes _ i _)
    · exact hfree (.exhausted _ i q hpc hpos) (stays_goes _ i _)
  | notify =>
    by_cases hsleeper : ∃ j, p.limit.pc j = .asleep
    · obtain ⟨j, hj⟩ := hsleeper
      refine hfree (.notifies _ i j hpc hj) fun k hk => ?_
      by_cases hkj : k = j
      · subst hkj
        rw [Semaphore.goes_self, hj]
        exact .inr ⟨trivial, trivial⟩
      · rw [Semaphore.goes_of_ne _ hkj]
        exact stays_goes _ i _ k hk
    · exact hfree (.nobody _ i hpc (not_exists.mp hsleeper)) (stays_goes _ i _)

omit [DecidableEq ι] in
theorem Inv.reading (h : Inv files n p) (hprogram : (p.pairs i).program ≠ .ret ()) :
    (p.pairs i).worker.Reading := by
  by_contra hreading
  exact hprogram ((h.pairs i).quiet hreading).2.2

theorem Inv.enabled_of_holding (h : Inv files n p) (hi : p.limit.pc i = .holding) :
    ∃ p', Step files False p p' := by
  obtain ⟨held, hbrackets, hfits⟩ := h.positioned i
  by_cases hlimit : AtLimit (p.pairs i).program
  · obtain ⟨k, hk | hk⟩ := hlimit
    · exact ⟨_, .acquired p i k hk hi⟩
    · refine step_of_limit i (.release _ i hi) (stays_goes _ i .notify)
        (fun hout => ?_) fun _ => ⟨k, hk⟩
      exact SemPc.noConfusion (hi.symm.trans hout)
  · have hprogram : (p.pairs i).program ≠ .ret () := by
      intro hret
      rw [hret] at hbrackets hfits
      rw [hbrackets.1] at hfits
      exact SemPc.noConfusion (hi.symm.trans hfits)
    obtain ⟨s, hstep⟩ := (h.pairs i).enabled (h.reading hprogram)
    exact ⟨_, .works p i s hstep fun hat => absurd hat hlimit⟩

theorem Inv.enabled_of_asleep (h : Inv files n p) (hn : 0 < n) (hi : p.limit.pc i = .asleep) :
    ∃ p', Step files False p p' := by
  have hn' := Semaphore.toInt_pos_iff.mp hn
  rcases h.limit.held_of_asleep hi (Semaphore.toInt_nonneg_iff.mpr hn'.le) with hheld | hway
  · have hpos : 0 < tally SemPc.holds p.limit.pc := by omega
    obtain ⟨j, hj⟩ := tally_pos_iff.mp hpos
    exact h.enabled_of_holding (SemPc.holds_pos_iff.mp hj)
  · obtain ⟨j, hj⟩ := tally_pos_iff.mp hway
    exact enabled_of_onTheWay hj

theorem Inv.enabled_of_reading (h : Inv files n p) (hn : 0 < n) (hi : (p.pairs i).worker.Reading) :
    ∃ p', Step files False p p' := by
  by_cases hlimit : AtLimit (p.pairs i).program
  · obtain ⟨held, hbrackets, hfits⟩ := h.positioned i
    cases hpc : p.limit.pc i with
    | asleep => exact h.enabled_of_asleep hn hpc
    | holding => exact h.enabled_of_holding hpc
    | load | compare | check
    | notify => exact enabled_of_onTheWay (i := i) (by rw [hpc]; exact Nat.zero_lt_one)
    | out =>
      obtain ⟨k, hk | hk⟩ := hlimit
      · refine step_of_limit i (.enter _ i hpc) (stays_goes _ i _)
          (fun _ => ⟨k, hk⟩) fun hholding => ?_
        exact SemPc.noConfusion (hpc.symm.trans hholding)
      · exact ⟨_, .released p i k hk hpc⟩
  · obtain ⟨s, hstep⟩ := (h.pairs i).enabled hi
    exact ⟨_, .works p i s hstep fun hat => absurd hat hlimit⟩

theorem Inv.enabled_of_idle (h : Inv files n p) (hi : ¬(p.pairs i).worker.Reading)
    (hleft : p.todo i ≠ [] ∨ (p.pairs i).worker ≠ .idle) : ∃ p', Step files False p p' := by
  obtain ⟨-, hrequests, hprogram⟩ := (h.pairs i).quiet hi
  have hworks {s : ReadAhead.State} (hstep : ReadAhead.Step files (fun _ => False) (p.pairs i) s)  :
      ∃ p', Step files False p p' := by
    refine ⟨_, .works p i s hstep fun hat => ?_⟩
    obtain ⟨k, hk | hk⟩ := hat
    · cases hprogram.symm.trans hk
    · cases hprogram.symm.trans hk
  cases hworker : (p.pairs i).worker with
  | idle =>
    cases htodo : p.todo i with
    | nil => exact absurd hworker (hleft.resolve_left (not_not.mpr htodo))
    | cons req rest => exact ⟨_, .begins p i req rest _ htodo hworker (.hashUnit rfl)⟩
  | header req => exact hworks (.of_move hworker (.header req))
  | submit job req => exact hworks (.submit hworker (by rw [hrequests]; decide))
  | flush => exact hworks (.of_move hworker .flushed)
  | flushHeader => exact hworks (.of_move hworker .flushHeader)
  | flushData => exact hworks (.of_move hworker .flushData)
  | endOfUnit => exact hworks (.of_move hworker .endOfUnitLast)
  | checksum => exact hworks (.of_move hworker .checksum)
  | next | hashBlock | block | blockHeader | blockData | recycle =>
    rw [hworker] at hi
    exact absurd trivial hi

theorem Inv.enabled (h : Inv files n p) (hn : 0 < n) (hleft : ¬p.Done) :
    ∃ p', Step files False p p' := by
  obtain ⟨i, hi⟩ := not_forall.mp hleft
  by_cases hreading : (p.pairs i).worker.Reading
  · exact h.enabled_of_reading hn hreading
  · refine h.enabled_of_idle hreading ?_
    rw [not_and_or] at hi
    exact hi

/-! ## Whole runs -/

omit [DecidableEq ι] in
theorem Inv.open_le (h : Inv files n p) :
    tally (fun s => s.fd.isSome.toNat) p.pairs ≤ n.toInt.toNat := by
  refine le_trans (tally_le fun i => ?_) h.limit.holders_le
  cases hopen : (p.pairs i).fd.isSome with
  | false => exact Nat.zero_le _
  | true =>
    rw [(h.positioned i).holds hopen]
    exact le_rfl

def Obtained (files : Files) (s : ReadAhead.State)
    (R : List (Option Bytes) → List (Option Bytes) → Prop) : Prop :=
  ∀ j req, s.submitted[j]? = some req → R (s.obtained j) (stream files req)

/-- Any number of workers with any units, none of whose files ends inside its range. However their
threads and those of their readers run, no more files are open at a time than the limit says, each
buffer is in one place, and no worker gets anything but the blocks of its own units. Wherever they
have come, compare-and-swaps that failed and sleepers that woke for no reason included, all runs
without any more of these come to an end at which every unit has been read in full. -/
theorem pool_serves {ι : Type} [Fintype ι] [DecidableEq ι] (files : Files)
    (diskConcurrency : UInt64) (bufs : ι → Index → Bytes) (todo : ι → List ReadRequest)
    (hwhole : ∀ i, ∀ req ∈ todo i, ¬Short files req) (hlimit : 0 < diskLimit diskConcurrency)
    (p : DiskPool ι)
    (hrun : ReflTransGen (Step files True) (start (diskLimit diskConcurrency) bufs todo) p) :
    tally (fun s => s.fd.isSome.toNat) p.pairs ≤ (diskLimit diskConcurrency).toInt.toNat ∧
    (∀ i, (∀ k, (p.pairs i).owned.count k = 1) ∧ Obtained files (p.pairs i) (· <+: ·)) ∧
    Inevitable (Step files False) (fun p => p.Done ∧
      ∀ i, Obtained files (p.pairs i) (· = ·)) p := by
  have h := (Inv.start (n := diskLimit diskConcurrency) bufs todo hwhole).run hrun
  have hsound {p : DiskPool ι} (h : Inv files (diskLimit diskConcurrency) p) (i : ι) :
      Sound files (fun _ => False) (p.pairs i) := (h.pairs i).sound fun _ hf => hf.elim
  refine ⟨h.open_le, fun i => ⟨(hsound h i).owned, (hsound h i).obtained⟩, ?_⟩
  refine Inevitable.of_rank ((sinks_wf rankLt_wf).prod_lex wellFounded_lt) measure
    (fun p h hleft => ?_)
    (fun _ _ h hstep => h.step hstep) (fun _ _ h _ hstep _ => h.sinks hlimit hstep) h
  refine h.enabled hlimit fun hdone => hleft ⟨hdone, fun i j req hj => ?_⟩
  refine (hsound h i).finished j req hj fun _ hreading => ?_
  rw [(hdone i).2] at hreading
  exact hreading

omit [Fintype ι] in
theorem works_of_ret {spurious : Prop} (p : DiskPool ι) (i : ι) {s : ReadAhead.State}
    (hret : (p.pairs i).program = .ret ())
    (hstep : ReadAhead.Step files (fun _ => False) (p.pairs i) s) :
    Step files spurious p (p.sets i s) := by
  refine .works p i s hstep fun hat => ?_
  rw [hret] at hat
  obtain ⟨k, hk | hk⟩ := hat
  · cases hk
  · cases hk

theorem pool_serves_two : ∃ p : DiskPool (Fin 2),
    ReflTransGen (Step oneByte True)
      (start (diskLimit 1) (fun _ _ => []) fun _ => [StorageReader.submit .file [97] 0 1]) p ∧
    p.limit.pc 0 = .compare p.limit.permits ∧
    Inevitable (Step oneByte False) (fun p => p.Done ∧
      ∀ i, Obtained oneByte (p.pairs i) (· = ·)) p := by
  have hbegun : ReflTransGen (Step oneByte True) (start (diskLimit 1) (fun _ _ => [])
      fun _ => [StorageReader.submit .file [97] 0 1] : DiskPool (Fin 2)) _ :=
    .single (.begins _ 0 (StorageReader.submit .file [97] 0 1) [] _ rfl rfl (.hashUnit rfl))
  have hasked := (hbegun.tail (works_of_ret _ 0 rfl (.submit rfl (by decide)))).tail
    (works_of_ret _ 0 rfl (.take rfl rfl))
  have hlooks {p : DiskPool (Fin 2)} (k : Unit → Reader Unit)
      (hk : (p.pairs 0).program = call .acquireDisk k)
      {pc : SemPc} (hstep : Semaphore.Step True p.limit (p.limit.goes 0 pc))
      (hpc : p.limit.pc 0 ≠ .holding) :
      Step oneByte True p { p with limit := p.limit.goes 0 pc } := by
    have hone (i : Fin 2) {q : SemPc} (hi : p.limit.pc i = q)
        (hleft : (p.limit.goes 0 pc).pc i ≠ q) : i = 0 := by
      by_contra hne
      exact hleft ((Semaphore.goes_of_ne p.limit hne pc).trans hi)
    refine .limits p _ hstep (fun i hout hleft => ?_) fun i hholding hleft => ?_
    · obtain rfl := hone i hout hleft
      exact ⟨k, hk⟩
    · obtain rfl := hone i hholding hleft
      exact absurd hholding hpc
  have hfailed := ((hasked.tail (hlooks _ rfl (.enter _ 0 rfl) nofun)).tail
    (hlooks _ rfl (.load _ 0 rfl) nofun)).tail
    (hlooks _ rfl (.retry _ 0 1 rfl (by decide) (.inr trivial)) nofun)
  refine ⟨_, hfailed, rfl,
    (pool_serves oneByte 1 _ _ (fun i req hreq => ?_) (by decide) _ hfailed).2.2⟩
  rintro ⟨file, hfile, -, hshort⟩
  rw [List.mem_singleton.mp hreq] at hfile hshort
  cases hfile
  exact absurd hshort (by decide)

/-! ## A limit that is no `int` -/

theorem diskLimit_pos_iff (diskConcurrency : UInt64) : 0 < diskLimit diskConcurrency ↔
    diskConcurrency = 0 ∨ (0 < diskConcurrency.toNat % 2 ^ 32 ∧
      diskConcurrency.toNat % 2 ^ 32 < 2 ^ 31) := by
  unfold diskLimit
  by_cases hzero : diskConcurrency = 0
  · subst hzero
    decide
  · have hpos : ¬diskConcurrency < 1 := by
      rw [UInt64.lt_iff_toNat_lt, UInt64.toNat_one, Nat.lt_one_iff, ← UInt64.toNat_zero,
        UInt64.toNat_inj]
      exact hzero
    rw [if_neg hpos, Semaphore.toInt_pos_iff, Int32.toInt_ofNat', Int.bmod_def]
    simp only [hzero, false_or, Int32.size]
    omega

structure Stalled (s : ReadAhead.State) : Prop where
  program : s.program = .ret () ∨ ∃ k, s.program = call .acquireDisk k
  closed : s.fd = none
  ready : s.ready = []
  stage : s.stage = .start
  obtained : ∀ j, s.obtained j = []

theorem Stalled.works {asked : ReadRequest → Prop} {s s' : ReadAhead.State} (h : Stalled s)
    (hstep : ReadAhead.Step files asked s s')
    (hlimit : AtLimit s.program → s'.program = s.program) :
    Stalled s' := by
  have hno {op : StorageReader.Op} {k : op.Ans → Reader Unit} (hp : s.program = call op k)
      (hop : op ≠ .acquireDisk) : False := by
    rcases h.program with hret | ⟨k', hk'⟩
    · cases hret.symm.trans hp
    · cases hk'.symm.trans hp
      exact hop rfl
  cases hstep with
  | @take req rest hidle hreq => exact { h with program := .inr ⟨_, process_eq req⟩ }
  | @acquireDisk k hp => exact absurd ((hlimit ⟨k, .inl hp⟩).trans hp) (call_ne .acquireDisk k ())
  | openFile hp | popSpare hp | pread hp | loadTail hp | storeTail hp | pushReady hp
  | closeFile hp | releaseDisk hp | pushEof hp => exact (hno hp nofun).elim
  | writeSlot hstage => cases h.stage.symm.trans hstage
  | next hworker hready => cases h.ready.symm.trans hready
  | _ => exact { h with }

structure AllStalled (n : Int32) (p : DiskPool ι) : Prop where
  pairs : ∀ i, Stalled (p.pairs i)
  limit : Semaphore.Conserves n p.limit

theorem AllStalled.sets (h : AllStalled n p) {s : ReadAhead.State} (hs : Stalled s) :
    AllStalled n (p.sets i s) :=
  ⟨(Function.forall_update_iff p.pairs fun _ s => Stalled s).mpr
    ⟨hs, fun j _ => h.pairs j⟩, h.limit⟩

theorem AllStalled.step {spurious : Prop} (h : AllStalled n p) (hn : ¬0 < n)
    (hstep : Step files spurious p p') : AllStalled n p' := by
  cases hstep with
  | begins i req rest pc htodo hidle hpc =>
    obtain ⟨hprogram, hclosed, hready, hstage, hobtained⟩ := h.pairs i
    have hset :=
      h.sets (i := i) (s := { p.pairs i with worker := pc })
        ⟨hprogram, hclosed, hready, hstage, hobtained⟩
    exact ⟨hset.pairs, h.limit⟩
  | works i s hstep hlimit => exact h.sets ((h.pairs i).works hstep hlimit)
  | acquired i k hp hheld =>
    have hpos : 0 < tally SemPc.holds p.limit.pc :=
      tally_pos_iff.mpr ⟨i, SemPc.holds_pos_iff.mpr hheld⟩
    have hle := h.limit.holders_le
    rw [Semaphore.toInt_pos_iff] at hn
    omega
  | released i k hp hheld =>
    rcases (h.pairs i).program with hret | ⟨k', hk'⟩
    · cases hret.symm.trans hp
    · cases hk'.symm.trans hp
  | limits limit hstep => exact ⟨h.pairs, h.limit.step hstep⟩

/-- With a number that is 0 or negative as an `int`, and is not 0 itself, no reader ever opens a
file and no worker ever gets a block or the end of a unit, whatever the order of the steps. -/
theorem limit_stalls {ι : Type} [Fintype ι] [DecidableEq ι] (files : Files)
    (diskConcurrency : UInt64) (hne : diskConcurrency ≠ 0)
    (hwraps : diskConcurrency.toNat % 2 ^ 32 = 0 ∨ 2 ^ 31 ≤ diskConcurrency.toNat % 2 ^ 32)
    (bufs : ι → Index → Bytes) (todo : ι → List ReadRequest) (p : DiskPool ι)
    (hrun : ReflTransGen (Step files True) (start (diskLimit diskConcurrency) bufs todo) p)
    (i : ι) :
    (p.pairs i).fd = none ∧ ∀ j, (p.pairs i).obtained j = [] := by
  have hn : ¬0 < diskLimit diskConcurrency := by
    rw [diskLimit_pos_iff]
    rintro (hzero | ⟨hpos, hlt⟩)
    · exact hne hzero
    · omega
  have hstart : AllStalled (diskLimit diskConcurrency)
      (start (diskLimit diskConcurrency) bufs todo) :=
    ⟨fun _ => ⟨.inl rfl, rfl, rfl, rfl, fun _ => rfl⟩, Semaphore.conserves_start _⟩
  have hstalled : AllStalled (diskLimit diskConcurrency) p := by
    induction hrun with
    | refl => exact hstart
    | tail _ hstep ih => exact ih.step hn hstep
  exact ⟨(hstalled.pairs i).closed, (hstalled.pairs i).obtained⟩

theorem limit_stalls_half : ∃ p : DiskPool (Fin 1),
    ReflTransGen (Step oneByte True)
      (start (diskLimit 2147483648) (fun _ _ => []) fun _ => [twoBytes]) p ∧
    (p.pairs 0).worker = .next .hash ∧ ∀ j, (p.pairs 0).obtained j = [] := by
  have hbegun : ReflTransGen (Step oneByte True)
      (start (diskLimit 2147483648) (fun _ _ => []) fun _ => [twoBytes] : DiskPool (Fin 1)) _ :=
    .single (.begins _ 0 twoBytes [] _ rfl rfl (.hashUnit rfl))
  have hrun := hbegun.tail (works_of_ret _ 0 rfl (.submit rfl (by decide)))
  exact ⟨_, hrun, rfl,
    (limit_stalls oneByte 2147483648 (by decide) (.inr (by decide)) _ _ _ hrun 0).2⟩

end DiskPool
end Dicker.Client
