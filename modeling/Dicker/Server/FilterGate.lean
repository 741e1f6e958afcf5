import Dicker.Server.Receiver

/-! In accept mode no file is opened that the filter has not let through. The
ledger relates the map `accepted_` to the log of the connection: every entry of
the map stands for a probe that the filter accepted and that no opening has used
so far. -/

namespace Dicker.Server
open Lib Program

inductive Opens : Query → AcceptedUnit → Prop where
  | file (path : Bytes) (offset : UInt64) : Opens (.openSequential path) ⟨.file, path, offset⟩
  | chunk (path : Bytes) (offset : UInt64) : Opens (.openOffset path) ⟨.chunk, path, offset⟩

def IsOpen : Entry Op Op.Ans → Prop
  | .did (.query (.openSequential _)) _ | .did (.query (.openOffset _)) _ => True
  | _ => False

def OpenAt (t : Log) (i : ℕ) : Prop := ∃ e, t[i]? = some e ∧ IsOpen e

def AcceptedAt (t : Log) (i : ℕ) (u : AcceptedUnit) : Prop :=
  ∃ probe : Probe, t[i]? = some (.did (.query (.filter probe)) true) ∧
    probe.type = u.type ∧ probe.path = u.path ∧ probe.offset = u.offset

def OpenedFor (t : Log) (i j : ℕ) : Prop :=
  ∃ q b u, t[i]? = some (.did (.query q) b) ∧ Opens q u ∧ 0 < i ∧
    t[i - 1]? = some (.did (.event (.started u.path u.type u.offset)) ()) ∧ j < i ∧ AcceptedAt t j u

structure Ledger (accepted : UInt64 → Option AcceptedUnit) (t : Log) (probeOf : ℕ → ℕ)
    (entryOf : UInt64 → ℕ) : Prop where
  opened : ∀ i, OpenAt t i → OpenedFor t i (probeOf i)
  once : ∀ i j, OpenAt t i → OpenAt t j → probeOf i = probeOf j → i = j
  held : ∀ k u, accepted k = some u → AcceptedAt t (entryOf k) u ∧
    (u.type = .file ∨ u.type = .chunk)
  unused : ∀ k u i, accepted k = some u → OpenAt t i → probeOf i ≠ entryOf k
  distinct : ∀ k k' u u', accepted k = some u → accepted k' = some u' →
    entryOf k = entryOf k' → k = k'

/-! ## Growing the log -/

variable {t e : Log} {i : ℕ} {u : AcceptedUnit} {accepted : UInt64 → Option AcceptedUnit}
  {entryOf : UInt64 → ℕ} {probeOf : ℕ → ℕ} {key : UInt64} {D : Type} {c : Consumer D}
  {v : Next (Head D) (Consumer D)}

theorem getElem?_append_some {x : Entry Op Op.Ans} (h : t[i]? = some x) :
    (t ++ e)[i]? = some x := by
  rw [List.getElem?_append_left (List.getElem?_eq_some_iff.mp h).1, h]

theorem AcceptedAt.append (h : AcceptedAt t i u) (e : Log) : AcceptedAt (t ++ e) i u := by
  obtain ⟨p, hp, hu⟩ := h
  exact ⟨p, getElem?_append_some hp, hu⟩

theorem AcceptedAt.lt (h : AcceptedAt t i u) : i < t.length := by
  obtain ⟨p, hp, -⟩ := h
  exact (List.getElem?_eq_some_iff.mp hp).1

theorem OpenedFor.append {j : ℕ} (h : OpenedFor t i j) (e : Log) : OpenedFor (t ++ e) i j := by
  obtain ⟨q, b, u, hq, ho, hi, hs, hj, ha⟩ := h
  exact ⟨q, b, u, getElem?_append_some hq, ho, hi, getElem?_append_some hs, hj, ha.append e⟩

def Quiet (e : Log) : Prop := ∀ x ∈ e, ¬ IsOpen x

@[simp] theorem quiet_nil : Quiet [] := by simp [Quiet]

@[simp] theorem quiet_cons (x : Entry Op Op.Ans) (e : Log) :
    Quiet (x :: e) ↔ ¬ IsOpen x ∧ Quiet e := by simp [Quiet]

theorem quiet_append {u v : Log} (hu : Quiet u) (hv : Quiet v) : Quiet (u ++ v) := by
  intro x hx
  rcases List.mem_append.mp hx with hx | hx
  · exact hu x hx
  · exact hv x hx

theorem OpenAt.of_append_quiet (he : Quiet e) (h : OpenAt (t ++ e) i) : OpenAt t i := by
  obtain ⟨x, hx, ho⟩ := h
  rcases lt_or_ge i t.length with hi | hi
  · exact ⟨x, (List.getElem?_append_left hi).symm.trans hx, ho⟩
  · rw [List.getElem?_append_right hi] at hx
    exact absurd ho (he x (List.mem_of_getElem? hx))

theorem Ledger.append_quiet (h : Ledger accepted t probeOf entryOf) (he : Quiet e) :
    Ledger accepted (t ++ e) probeOf entryOf where
  opened i hi := (h.opened i (hi.of_append_quiet he)).append e
  once i j hi hj := h.once i j (hi.of_append_quiet he) (hj.of_append_quiet he)
  held k u hk := ⟨(h.held k u hk).1.append e, (h.held k u hk).2⟩
  unused k u i hk hi := h.unused k u i hk (hi.of_append_quiet he)
  distinct := h.distinct

theorem Ledger.accept (h : Ledger accepted t probeOf entryOf) (key : UInt64) {probe : Probe}
    (ht : probe.type = .file ∨ probe.type = .chunk) :
    Ledger (Function.update accepted key (some ⟨probe.type, probe.path, probe.offset⟩))
      (t ++ [.did (.query (.filter probe)) true]) probeOf
      (Function.update entryOf key t.length) := by
  have hq : Quiet [.did (.query (.filter probe)) true] := by
    intro x hx
    rw [List.mem_singleton.mp hx]
    exact id
  have h' := h.append_quiet hq
  have hold : ∀ k u, accepted k = some u → entryOf k ≠ t.length := fun k u hk =>
    ((h.held k u hk).1.lt).ne
  refine ⟨h'.opened, h'.once, ?_, ?_, ?_⟩
  · intro k u hk
    by_cases hkk : k = key
    · subst hkk
      obtain rfl : _ = u := by simpa using hk
      refine ⟨⟨probe, ?_, rfl, rfl, rfl⟩, ht⟩
      rw [Function.update_self, List.getElem?_concat_length]
    · rw [Function.update_of_ne hkk] at hk ⊢
      exact h'.held k u hk
  · intro k u i hk hi
    by_cases hkk : k = key
    · subst hkk
      rw [Function.update_self]
      obtain ⟨_, _, _, _, _, _, _, _, ha⟩ := h.opened i (hi.of_append_quiet hq)
      exact ha.lt.ne
    · rw [Function.update_of_ne hkk] at hk ⊢
      exact h'.unused k u i hk hi
  · intro k k' u u' hk hk' he
    by_cases hkk : k = key <;> by_cases hkk' : k' = key
    · rw [hkk, hkk']
    · rw [hkk, Function.update_self, Function.update_of_ne hkk'] at he
      rw [Function.update_of_ne hkk'] at hk'
      exact absurd he.symm (hold k' u' hk')
    · rw [hkk', Function.update_self, Function.update_of_ne hkk] at he
      rw [Function.update_of_ne hkk] at hk
      exact absurd he (hold k u hk)
    · rw [Function.update_of_ne hkk] at hk he
      rw [Function.update_of_ne hkk'] at hk' he
      exact h.distinct k k' u u' hk hk' he

theorem OpenAt.lt (h : OpenAt t i) : i < t.length := by
  obtain ⟨x, hx, -⟩ := h
  exact (List.getElem?_eq_some_iff.mp hx).1

theorem OpenAt.of_concat {e : Entry Op Op.Ans} (h : OpenAt (t ++ [e]) i) :
    OpenAt t i ∨ i = t.length := by
  have hi := h.lt
  rw [List.length_append, List.length_singleton] at hi
  obtain ⟨x, hx, ho⟩ := h
  rcases Nat.lt_succ_iff_lt_or_eq.mp hi with hi | hi
  · exact Or.inl ⟨x, (List.getElem?_append_left hi).symm.trans hx, ho⟩
  · exact Or.inr hi

theorem Ledger.open (h : Ledger accepted t probeOf entryOf) (hk : accepted key = some u) {q : Query}
    (hq : Opens q u) (hs : t.getLast? = some (.did (.event (.started u.path u.type u.offset)) ()))
    (b : Bool) :
    Ledger (Function.update accepted key none) (t ++ [.did (.query q) b])
      (Function.update probeOf t.length (entryOf key)) entryOf := by
  have hne : ∀ i, OpenAt t i → i ≠ t.length := fun i hi => hi.lt.ne
  have hkey : ∀ {k v}, Function.update accepted key none k = some v → k ≠ key ∧
      accepted k = some v := by
    intro k v hv
    by_cases hkk : k = key
    · rw [hkk, Function.update_self] at hv
      exact absurd hv (by simp)
    · rw [Function.update_of_ne hkk] at hv
      exact ⟨hkk, hv⟩
  have hpos : 0 < t.length := List.length_pos_iff.mpr (by rintro rfl; simp at hs)
  have hlast : t[t.length - 1]? = some (.did (.event (.started u.path u.type u.offset)) ()) := by
    rw [← hs, List.getLast?_eq_getElem?]
  refine ⟨?_, ?_, ?_, ?_, ?_⟩
  · intro i hi
    rcases hi.of_concat with hi | rfl
    · rw [Function.update_of_ne (hne i hi)]
      exact (h.opened i hi).append _
    · rw [Function.update_self]
      exact ⟨q, b, u, List.getElem?_concat_length, hq, hpos, getElem?_append_some hlast,
        (h.held key u hk).1.lt, (h.held key u hk).1.append _⟩
  · intro i j hi hj he
    rcases hi.of_concat with hi | rfl <;> rcases hj.of_concat with hj | rfl
    · rw [Function.update_of_ne (hne i hi), Function.update_of_ne (hne j hj)] at he
      exact h.once i j hi hj he
    · rw [Function.update_of_ne (hne i hi), Function.update_self] at he
      exact absurd he (h.unused key u i hk hi)
    · rw [Function.update_of_ne (hne j hj), Function.update_self] at he
      exact absurd he.symm (h.unused key u j hk hj)
    · rfl
  · intro k v hv
    exact ⟨(h.held k v (hkey hv).2).1.append _, (h.held k v (hkey hv).2).2⟩
  · intro k v i hv hi
    rcases hi.of_concat with hi | rfl
    · rw [Function.update_of_ne (hne i hi)]
      exact h.unused k v i (hkey hv).2 hi
    · rw [Function.update_self]
      exact fun he => (hkey hv).1 (h.distinct k key v u (hkey hv).2 hk he.symm)
  · intro k k' v v' hv hv'
    exact h.distinct k k' v v' (hkey hv).2 (hkey hv').2

/-! ## The rounds -/

def Held {D : Type} (c : Consumer D) (t : Log) : Prop :=
  ∃ probeOf entryOf, Ledger c.accepted t probeOf entryOf

theorem Held.quiet (h : Held c t) (he : Quiet e) : Held c (t ++ e) := by
  obtain ⟨f, g, hl⟩ := h
  exact ⟨f, g, hl.append_quiet he⟩

theorem decideProbe_held (h : Held c t) (key : UInt64) {probe : Probe}
    (ht : probe.type = .file ∨ probe.type = .chunk) :
    (decideProbe c key probe).wp fun c' u => Held c' (t ++ u) ∧ c'.mode = c.mode := by
  unfold decideProbe
  rw [ask_bind, wp_call]
  rintro (_ | _)
  · rintro ⟨⟩ ⟨⟩
    exact ⟨h.quiet (by simp [IsOpen]), rfl⟩
  · rintro ⟨⟩
    obtain ⟨f, g, hl⟩ := h
    refine ⟨⟨f, Function.update g key t.length, ?_⟩, rfl⟩
    have hpost :
        Quiet [.did (.event (.post (ProbeDecision.accept.toByte :: writeU64Le key))) ()] := by
      simp [IsOpen]
    have hl' := (hl.accept key ht).append_quiet hpost
    rwa [List.append_assoc] at hl'

theorem handleProbe_held (h : Held c t) :
    (handleProbe c).wp fun r u => Held (r.getD c) (t ++ u) ∧ (r.getD c).mode = c.mode := by
  have hgot : ∀ zs : List Bytes, Held c (t ++ zs.map .got) := fun zs =>
    h.quiet (by simp [Quiet, IsOpen])
  simp only [handleProbe, readExact_bind, wp_read, pure_eq, wp_ret]
  refine ⟨fun head _ => ?_, hgot [], rfl⟩
  split
  · next type htype =>
    have ht : type = .file ∨ type = .chunk := by simpa using (Option.filter_eq_some_iff.mp htype).2
    split_ifs
    · exact ⟨hgot [head], rfl⟩
    · refine ⟨fun path _ => ⟨fun sizes _ => ⟨fun hash _ => ?_, hgot [head, path, sizes], rfl⟩,
        hgot [head, path], rfl⟩, hgot [head], rfl⟩
      apply wp_bind
      refine wp_mono (decideProbe_held (hgot [head, path, sizes, hash]) _ ht) fun c' u hc => ?_
      simpa using hc
    · refine ⟨fun path _ => ⟨fun sizes _ => ?_, hgot [head, path], rfl⟩, hgot [head], rfl⟩
      simp only [ret_bind]
      apply wp_bind
      refine wp_mono (decideProbe_held (hgot [head, path, sizes]) _ ht) fun c' u hc => ?_
      simpa using hc
  · exact ⟨hgot [head], rfl⟩

def Gated {D : Type} (st : Head D) (t : Log) : Prop :=
  match st with
  | .unit c | .block c _ => hasMode c.mode .accept = true ∧ Held c t

def Authorised (t : Log) : Prop :=
  ∃ probeOf : ℕ → ℕ, (∀ i, OpenAt t i → OpenedFor t i (probeOf i)) ∧
    ∀ i j, OpenAt t i → OpenAt t j → probeOf i = probeOf j → i = j

theorem Held.authorised (h : Held c t) : Authorised t := by
  obtain ⟨f, g, hl⟩ := h
  exact ⟨f, hl.opened, hl.once⟩

theorem Authorised.quiet (h : Authorised t) (he : Quiet e) : Authorised (t ++ e) := by
  obtain ⟨f, h1, h2⟩ := h
  exact ⟨f, fun i hi => (h1 i (hi.of_append_quiet he)).append e,
    fun i j hi hj => h2 i j (hi.of_append_quiet he) (hj.of_append_quiet he)⟩

def Keeps {D : Type} (t : Log) (v : Next (Head D) (Consumer D)) (u : Log) : Prop :=
  match v with
  | .again st => Gated st (t ++ u)
  | .done _ => Authorised (t ++ u)

theorem Keeps.got {u : Log} {z : Bytes} (h : Keeps (t ++ [.got z]) v u) :
    Keeps t v (.got z :: u) := by
  unfold Keeps at h ⊢
  simpa only [List.append_assoc, List.singleton_append] using h

theorem openUnit_keeps (hm : hasMode c.mode .accept = true) (h : Held c t)
    (hu : c.accepted key = some u) :
    (openUnit { c with accepted := Function.update c.accepted key none } u.type u.path
      u.offset).wp (Keeps t) := by
  obtain ⟨f, g, hl⟩ := h
  set s : Entry Op Op.Ans := .did (.event (.started u.path u.type u.offset)) () with hs
  have hl' : Ledger c.accepted (t ++ [s]) f g := hl.append_quiet (by simp [IsOpen, hs])
  have hopen : ∀ q, Opens q u → ∀ b, Held { c with accepted := Function.update c.accepted key none }
      (t ++ [s, .did (.query q) b]) := by
    intro q hq b
    have hl'' := hl'.open hu hq (by rw [List.getLast?_concat]) b
    rw [List.append_assoc] at hl''
    exact ⟨_, _, hl''⟩
  have hrejected : ∀ q, Opens q u → Authorised (t ++ [s, .did (.query q) false,
      .did (.event (.finished u.path u.type u.offset 0 0 false "rejected")) ()]) := by
    intro q hq
    have ha := (hopen q hq false).authorised.quiet
      (e := [.did (.event (.finished u.path u.type u.offset 0 0 false "rejected")) ()])
      (by simp [IsOpen])
    rwa [List.append_assoc] at ha
  obtain ⟨type, path, offset⟩ := u
  unfold openUnit
  rcases (hl.held key _ hu).2 with rfl | rfl
  · rintro ⟨⟩ (_ | _)
    · rintro ⟨⟩
      exact hrejected _ (.file path offset)
    · exact ⟨hm, hopen _ (.file path offset) true⟩
  · rintro ⟨⟩ (_ | _)
    · rintro ⟨⟩
      exact hrejected _ (.chunk path offset)
    · exact ⟨hm, hopen _ (.chunk path offset) true⟩

theorem acceptedUnit_keeps (hm : hasMode c.mode .accept = true) (h : Held c t) :
    (acceptedUnit c).wp (Keeps t) := by
  simp only [acceptedUnit, readExact_bind, wp_read, pure_eq, wp_ret]
  refine ⟨fun key _ => ?_, h.authorised.quiet (by simp)⟩
  have hk : Held c (t ++ [.got key]) := h.quiet (by simp [IsOpen])
  split
  · rintro ⟨⟩
    exact h.authorised.quiet (by simp [IsOpen])
  · next found hfound => exact wp_mono (openUnit_keeps hm hk hfound) fun v u hv => hv.got

def Passive {D : Type} (c : Consumer D) (v : Next (Head D) (Consumer D)) (u : Log) : Prop :=
  Quiet u ∧ match v with
    | .again (.unit c') | .again (.block c' _) => c'.mode = c.mode ∧ c'.accepted = c.accepted
    | .done _ => True

theorem Passive.keeps {u : Log} (hm : hasMode c.mode .accept = true) (h : Held c t)
    (hv : Passive c v u) : Keeps t v u := by
  obtain ⟨hq, hv⟩ := hv
  match v, hv with
  | .again (.unit c'), ⟨h1, h2⟩ =>
    refine ⟨h1 ▸ hm, ?_⟩
    unfold Held
    rw [h2]
    exact h.quiet hq
  | .again (.block c' _), ⟨h1, h2⟩ =>
    refine ⟨h1 ▸ hm, ?_⟩
    unfold Held
    rw [h2]
    exact h.quiet hq
  | .done _, _ => exact h.authorised.quiet hq

theorem writeAll_quiet (s : UnitSink) (pieces : List Bytes) :
    (s.writeAll pieces).wp fun _ u => Quiet u := by
  induction pieces generalizing s with
  | nil => exact quiet_nil
  | cons piece pieces ih =>
    unfold UnitSink.writeAll
    apply wp_bind
    have hw : (s.write piece).wp fun _ u => Quiet u := by
      unfold UnitSink.write
      split_ifs <;> exact fun b => by simp [IsOpen]
    refine wp_mono hw fun r u hu => ?_
    obtain ⟨ok, s'⟩ := r
    cases ok with
    | true => exact wp_mono (ih s') fun _ v hv => quiet_append hu hv
    | false => exact quiet_append hu quiet_nil

theorem checkTrailer_quiet (xxh64 : Bytes → UInt64) (c : Consumer D) (u : OpenUnit)
    (unitOk unitDone : Bool) (failure : String) :
    (checkTrailer xxh64 c u unitOk unitDone failure).wp fun _ t => Quiet t := by
  unfold checkTrailer
  split_ifs
  · refine ⟨fun z _ => ?_, quiet_nil⟩
    simp only [bind_ret]
    split_ifs <;> simp [IsOpen]
  · exact quiet_nil

theorem finishUnit_passive (xxh64 : Bytes → UInt64) (c : Consumer D) (u : OpenUnit)
    (unitOk unitDone : Bool) (failure : String) :
    (finishUnit xxh64 c u unitOk unitDone failure).wp (Passive c) := by
  unfold finishUnit
  apply wp_bind
  refine wp_mono (checkTrailer_quiet xxh64 c u unitOk unitDone failure) fun r t ht => ?_
  have hq : ∀ e : Log, Quiet e → Quiet (t ++ e) := fun e he => quiet_append ht he
  obtain ⟨ok, failure⟩ := r
  dsimp only
  unfold closeUnit
  split_ifs
  · rintro ⟨⟩ ⟨⟩
    exact ⟨hq _ (by simp [IsOpen]), trivial⟩
  · rintro ⟨⟩
    exact ⟨hq _ (by simp [IsOpen]), trivial⟩
  · rintro ⟨⟩ ⟨⟩
    exact ⟨hq _ (by simp [IsOpen]), rfl, rfl⟩
  · rintro ⟨⟩
    exact ⟨hq _ (by simp [IsOpen]), rfl, rfl⟩

theorem Passive.after {u : Log} (h : Passive c v u) (he : Quiet e) :
    Passive c v (e ++ u) := ⟨quiet_append he h.1, h.2⟩

theorem handleBlock_passive (dec : StreamDecompressor) (xxh64 : Bytes → UInt64)
    (c : Consumer dec.State) (u : OpenUnit) :
    (handleBlock dec xxh64 c u).wp (Passive c) := by
  have hfinish : ∀ (e : Log), Quiet e → ∀ u ok done failure,
      (finishUnit xxh64 c u ok done failure).wp fun v t => Passive c v (e ++ t) :=
    fun e he u ok done failure =>
      wp_mono (finishUnit_passive xxh64 c u ok done failure) fun v t hv => hv.after he
  simp only [handleBlock, readExact_bind, wp_read]
  refine ⟨fun b _ => ?_, hfinish [] quiet_nil u _ _ _⟩
  have hb : Quiet [.got b] := by simp [IsOpen]
  split_ifs
  · exact hfinish _ hb u _ _ _
  · exact hfinish _ hb u _ _ _
  · refine ⟨fun l _ => ?_, hfinish _ hb u _ _ _⟩
    have hl : Quiet [.got b, .got l] := by simp [IsOpen]
    dsimp only
    split_ifs
    · exact hfinish _ hl u _ _ _
    · refine ⟨fun input _ => ?_, hfinish _ hl u _ _ _⟩
      have hi : Quiet [.got b, .got l, .got input] := by simp [IsOpen]
      apply wp_bind
      apply wp_bind
      refine wp_mono (writeAll_quiet u.sink _) fun r t ht => ?_
      have hr : Quiet ([.got b, .got l, .got input] ++ t) := quiet_append hi ht
      simp only [pure_eq, wp_ret, List.append_nil]
      split
      · exact hfinish _ hr _ _ _ _
      · exact ⟨by simpa using hr, rfl, rfl⟩

theorem handleRound_keeps (dec : StreamDecompressor) (xxh64 : Bytes → UInt64)
    (st : Head dec.State) (t : Log) (h : Gated st t) : (handleRound dec xxh64 st).wp (Keeps t) := by
  cases st with
  | block c u =>
    exact wp_mono (handleBlock_passive dec xxh64 c u) fun v e hv => hv.keeps h.1 h.2
  | unit c =>
    obtain ⟨hm, h⟩ := h
    change (handleUnit c).wp (Keeps t)
    simp only [handleUnit, readExact_bind, wp_read, hm]
    refine ⟨fun b _ => ?_, h.authorised.quiet quiet_nil⟩
    have hb : Held c (t ++ [.got b]) := h.quiet (by simp [IsOpen])
    split
    · exact hb.authorised
    · apply wp_bind
      refine wp_mono (handleProbe_held hb) fun r u hr => ?_
      rw [List.append_assoc] at hr
      cases r with
      | none => simpa [Keeps] using hr.1.authorised
      | some c' =>
        have hm' : c'.mode = c.mode := hr.2
        simpa [Keeps, Gated, hm', hm] using hr.1
    · exact wp_mono (acceptedUnit_keeps hm hb) fun v u hv => hv.got
    · rintro ⟨⟩
      exact h.authorised.quiet (by simp [IsOpen])
    · rintro ⟨⟩
      exact h.authorised.quiet (by simp [IsOpen])
    · exact hb.authorised

theorem held_start (mode : UInt8) (integrityChecks : Bool) (d : D) :
    Held (Consumer.start mode integrityChecks d) [] := by
  have hno : ∀ i, ¬ OpenAt [] i := fun i hi => absurd hi.lt (by simp)
  refine ⟨id, fun _ => 0, fun i hi => absurd hi (hno i),
    fun i _ hi => absurd hi (hno i), ?_, ?_, ?_⟩
  · intro k u hk
    exact absurd hk (by simp [Consumer.start])
  · intro k u i hk
    exact absurd hk (by simp [Consumer.start])
  · intro k k' u u' hk
    exact absurd hk (by simp [Consumer.start])

section
variable (dec : StreamDecompressor) (xxh64 : Bytes → UInt64) {σ : Type}
  (h : (op : Op) → σ → op.Ans × σ)

theorem plain_header_stops {c : Consumer dec.State} (hm : hasMode c.mode .accept = true) (s : σ)
    {b : UInt8} (hb : b = UnitType.file.toByte ∨ b = UnitType.chunk.toByte) (rest : Bytes) :
    (handleUpload dec xxh64).eval h (.unit c) s (b :: rest) =
      ⟨c, (h (.event .unitWithoutProbe) s).2, rest,
        [.got [b], .did (.event .unitWithoutProbe) ()]⟩ := by
  have he : Exec h ((handleUpload dec xxh64).body (.unit c)) s ([b] ++ []) (.done c)
      (h (.event .unitWithoutProbe) s).2 [.got [b], .did (.event .unitWithoutProbe) ()] := by
    change Exec h (handleUnit c) s _ _ _ _
    unfold handleUnit
    refine Exec.read rfl ?_
    rcases hb with rfl | rfl <;>
    · simp only [bind_ret, hm]
      exact Exec.call (Exec.ret _ _)
  exact Machine.eval_exec_done _ h he rest

theorem unknown_key_stops {c : Consumer dec.State} (hm : hasMode c.mode .accept = true) (s : σ)
    (hk : c.accepted key = none) (rest : Bytes) :
    (handleUpload dec xxh64).eval h (.unit c) s
        (UnitType.accepted.toByte :: (writeU64Le key ++ rest)) =
      ⟨c, (h (.event (.unknownKey key)) s).2, rest,
        [.got [UnitType.accepted.toByte], .got (writeU64Le key),
          .did (.event (.unknownKey key)) ()]⟩ := by
  have he : Exec h ((handleUpload dec xxh64).body (.unit c)) s
      ([UnitType.accepted.toByte] ++ (writeU64Le key ++ [])) (.done c)
      (h (.event (.unknownKey key)) s).2
      [.got [UnitType.accepted.toByte], .got (writeU64Le key),
        .did (.event (.unknownKey key)) ()] := by
    have hread : readU64Le (writeU64Le key) = key := by
      simpa using readU64Le_writeU64Le key []
    change Exec h (handleUnit c) s _ _ _ _
    unfold handleUnit
    refine Exec.read rfl ?_
    simp only [bind_ret, hm]
    unfold acceptedUnit
    refine Exec.read (writeU64Le_length key) ?_
    simp only [bind_ret, hread, hk]
    exact Exec.call (Exec.ret _ _)
  simpa using Machine.eval_exec_done _ h he rest

/-- In accept mode nothing is opened but on the strength of an accepted probe, and no
two openings share one; a plain header or an unknown key ends the loop with nothing
opened. -/
theorem filter_not_bypassed (mode : UInt8) (hm : hasMode mode .accept = true)
    (integrityChecks : Bool) (d : dec.State) (s : σ) (stream : Bytes) :
    Authorised ((handleUpload dec xxh64).eval h
      (.unit (Consumer.start mode integrityChecks d)) s stream).trace ∧
    (∀ c : Consumer dec.State, c.mode = mode → ∀ (s : σ) (b : UInt8) (rest : Bytes),
      b = UnitType.file.toByte ∨ b = UnitType.chunk.toByte →
      (handleUpload dec xxh64).eval h (.unit c) s (b :: rest) =
        ⟨c, (h (.event .unitWithoutProbe) s).2, rest,
          [.got [b], .did (.event .unitWithoutProbe) ()]⟩) ∧
    (∀ c : Consumer dec.State, c.mode = mode → ∀ (s : σ) (key : UInt64) (rest : Bytes),
      c.accepted key = none →
      (handleUpload dec xxh64).eval h (.unit c) s
          (UnitType.accepted.toByte :: (writeU64Le key ++ rest)) =
        ⟨c, (h (.event (.unknownKey key)) s).2, rest,
          [.got [UnitType.accepted.toByte], .got (writeU64Le key),
            .did (.event (.unknownKey key)) ()]⟩) := by
  refine ⟨?_, ?_, ?_⟩
  · have hstart : Gated (.unit (Consumer.start mode integrityChecks d)) [] :=
      ⟨hm, held_start mode integrityChecks d⟩
    have hrun := Machine.eval_invariant (handleUpload dec xxh64) h (I := Gated) (P := Authorised)
      (fun st t ht => wp_mono (handleRound_keeps dec xxh64 st t ht) fun v u hv => by
        cases v <;> exact hv) hstart s stream
    rwa [List.nil_append] at hrun
  · rintro c rfl s b rest hb
    exact plain_header_stops dec xxh64 h hm s hb rest
  · rintro c rfl s key rest hk
    exact unknown_key_stops dec xxh64 h hm s hk rest

end

def probedSession : Bytes :=
  [2, 7, 0, 0, 0, 0, 0, 0, 0, 0, 1, 0, 0x61] ++ List.replicate 32 0 ++
    [3, 7, 0, 0, 0, 0, 0, 0, 0, 0, 0xFF]

theorem filter_not_bypassed_probedSession :
    hasMode 1 .accept = true ∧
    OpenAt ((handleUpload storedLz4Decoder (fun _ => 0)).eval (constantly true)
      (.unit (Consumer.start 1 false false)) () probedSession).trace 9 ∧
    Authorised ((handleUpload storedLz4Decoder (fun _ => 0)).eval (constantly true)
      (.unit (Consumer.start 1 false false)) () probedSession).trace :=
  ⟨by decide, ⟨.did (.query (.openSequential [0x61])) true, rfl, trivial⟩,
    (filter_not_bypassed storedLz4Decoder (fun _ => 0) (constantly true) 1 (by decide) false
      false () probedSession).1⟩

end Dicker.Server
