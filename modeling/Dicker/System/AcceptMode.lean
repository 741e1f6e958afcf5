import Dicker.Lib.Network
import Dicker.System.Exchange

/-! An accept-mode connection: a worker and the consumer thread of its connection, with
the network between them. The run in which every byte arrives at once is followed task
by task; as the steps of a network commute, what it leaves in the two logs is what every
run leaves there. -/

namespace Dicker.System
open Lib Program Client Server Relation

/-- A worker. `await` is the only call that waits for its outbox. -/
def clientNode (k : Codecs) {σ : Type} (h : (op : Client.Op) → σ → op.Ans × σ) :
    Node Client.Op Client.Op.Ans σ (Bool × Worker k.enc.State) where
  handle := h
  emits := Client.Op.bytes
  waits
    | .await => true
    | _ => false
  resume _ := none

/-- What `post` puts into the outbox of the connection. -/
def posted : Server.Op → Bytes
  | .event (.post data) => data
  | _ => []

def serverNode (dec : StreamDecompressor) (xxh64 : Bytes → UInt64) {τ : Type}
    (h : (op : Server.Op) → τ → op.Ans × τ) :
    Node Server.Op Server.Op.Ans τ (Next (Head dec.State) (Consumer dec.State)) where
  handle := h
  emits := posted
  waits _ := false
  resume
    | .again st => some (handleRound dec xxh64 st)
    | .done _ => none

section
variable {τ : Type} {h : (op : Server.Op) → τ → op.Ans × τ} {k : Codecs}
  {dec : StreamDecompressor}

theorem posted_decisionLog (key : UInt64) (p : Probe) (accepted : Bool) :
    emitted posted (decisionLog key p accepted) = replyBytes key accepted := by
  cases accepted <;> rfl

theorem posted_unitLog (u : AcceptedUnit) (payloads pieces : List Bytes) :
    emitted posted (unitLog u payloads pieces) = [] := by
  have hwrote : ∀ n, emitted posted (wrote u n pieces) = [] := by
    induction pieces with
    | nil => exact fun _ => rfl
    | cons piece pieces ih => exact fun n => ih _
  rw [unitLog, emitted_append, emitted_append, hwrote]
  obtain ⟨type, path, offset⟩ := u
  cases type <;> rfl

theorem Lossless.next {enc : StreamCompressor} {e : enc.State} {d d' : dec.State}
    {blocks pieces : List Bytes} (hd : decodeAll dec d (outputs enc e blocks).1 = some (pieces, d'))
    {units : List (List Bytes)} (h : Lossless enc dec e d (blocks :: units)) :
    Lossless enc dec (outputs enc e blocks).2 d' units := by
  obtain ⟨-, pieces', d'', hd', -, hrest⟩ := h
  rw [hd, Option.some_inj, Prod.mk.injEq] at hd'
  rw [hd'.2]
  exact hrest

variable {c : Consumer dec.State} {w : Worker k.enc.State} {us : List PendingUnit}
  {rest : List Source} {src : Source}

theorem resolved_rounds (hstore : Stores h) (hashFirst : Bool) (us : List PendingUnit)
    (hopen : ∀ u ∈ us, Openable h (unitOf u)) (hmode : hasMode c.mode .accept = true)
    (hkeys : (us.map (·.key)).Nodup)
    (haccepted : ∀ u ∈ us, u.accepted = true → c.accepted u.key = some (unitOf u)) {e : k.enc.State}
    {M : List (List Bytes) → Prop} (hM : M [])
    (hcodec : ∀ more, M more → Lossless k.enc dec e c.decompressor
      ((acceptedSources us).map Source.blocks ++ more)) (s : τ) :
    ∃ c' s' t, (handleUpload dec k.xxh64).Rounds h (.unit c) s
        (sent (resolvedLog k c.integrityChecks e us)) (.unit c') s' t ∧
      c'.mode = c.mode ∧ c'.integrityChecks = c.integrityChecks ∧
      (∀ more, M more → Lossless k.enc dec (resolvedState k e us) c'.decompressor more) ∧
      Served k hashFirst c.integrityChecks [] us t ∧ emitted posted t = [] := by
  induction us generalizing c e s with
  | nil => exact ⟨c, s, [], .refl _ s, rfl, rfl, hcodec, Served.nil .., rfl⟩
  | cons u us ih =>
    have hopen' := fun v hv => hopen v (List.mem_cons_of_mem u hv)
    rw [List.map_cons, List.nodup_cons] at hkeys
    cases hu : u.accepted with
    | false =>
      have hsources : acceptedSources (u :: us) = acceptedSources us := by
        rw [acceptedSources, List.filter_cons_of_neg (by rw [hu]; decide)]
        rfl
      rw [hsources] at hcodec
      obtain ⟨c', s', t, hrounds, hm, hi, hcodec', hserved, hemit⟩ := ih hopen' hmode hkeys.2
        (fun v hv => haccepted v (List.mem_cons_of_mem u hv)) hcodec s
      refine ⟨c', s', t, ?_, hm, hi, ?_, (Served.rejected k hashFirst _ hu).trans hserved, hemit⟩
      · rw [resolvedLog, if_neg (by rw [hu]; decide)]
        exact hrounds
      · rw [resolvedState, if_neg (by rw [hu]; decide)]
        exact hcodec'
    | true =>
      have hsources : acceptedSources (u :: us) = u.source :: acceptedSources us := by
        rw [acceptedSources, List.filter_cons_of_pos hu]
        rfl
      rw [hsources] at hcodec
      obtain ⟨hlen, pieces, d, hd, hpieces, -⟩ := hcodec [] hM
      have hrest := fun more hmore => (hcodec more hmore).next hd
      obtain ⟨o, s₁, t₀, hhead, ho, ht₀⟩ := acceptedUnit_exec (hopen u List.mem_cons_self)
        (haccepted u List.mem_cons_self hu) hmode s
      obtain ⟨s₂, t₁, hunit, ht₁⟩ := unit_rounds k.xxh64 hstore hhead ho ht₀
        (fits_outputs hlen) hd
      have haccepted' : ∀ v ∈ us, v.accepted = true →
          Function.update c.accepted u.key none v.key = some (unitOf v) := by
        intro v hv hva
        have hne : v.key ≠ u.key := fun heq => hkeys.1 (heq ▸ List.mem_map_of_mem hv)
        rw [Function.update_of_ne hne]
        exact haccepted v (List.mem_cons_of_mem u hv) hva
      obtain ⟨c', s', t, hrounds, hm, hi, hcodec', hserved, hemit⟩ := ih hopen'
        (c := Consumer.took { c with accepted := Function.update c.accepted u.key none } d
          pieces.flatten) hmode hkeys.2 haccepted' hrest s₂
      have hfirst : Served k hashFirst c.integrityChecks [] [u] t₁ := by
        refine Served.of_calls ?_
        rw [ht₁]
        exact Served.unit k hashFirst _ hu hpieces
      refine ⟨c', s', t₁ ++ t, ?_, hm, hi, ?_, hfirst.trans hserved, ?_⟩
      · rw [resolvedLog, if_pos hu, sent_append, sent_sendLog, ← hpieces]
        exact hunit.trans hrounds
      · rw [resolvedState, if_pos hu]
        exact hcodec'
      · rw [emitted_append, ← emitted_calls, ht₁, posted_unitLog, hemit]
        rfl

/-! ## Between tasks -/

structure InStep (h : (op : Server.Op) → τ → op.Ans × τ) (w : Worker k.enc.State)
    (c : Consumer dec.State) (us : List PendingUnit) (rest : List Source) : Prop where
  acceptMode : w.acceptMode = true
  mode : hasMode c.mode .accept = true
  hashFirst : w.hashFirst = hasMode c.mode .hashFirst
  integrity : w.integrity = c.integrityChecks
  pending : w.pending = us.map PendingUnit.undecided
  /-- the keys are the last ones given out -/
  recent : ∀ u ∈ us, ∃ j, 1 ≤ j ∧ j ≤ us.length ∧ u.key + UInt64.ofNat j = w.nextKey
  nodup : (us.map (·.key)).Nodup
  accepted : ∀ u ∈ us, u.accepted = true → c.accepted u.key = some (unitOf u)
  openable : ∀ u ∈ us, Openable h (unitOf u)
  codec : ∀ sub, sub.Sublist (rest.map Source.blocks) →
    Lossless k.enc dec w.compressor c.decompressor ((acceptedSources us).map Source.blocks ++ sub)

theorem InStep.fresh (hi : InStep h w c us rest) (hroom : us.length < kProbeWindow) :
    ∀ u ∈ us, u.key ≠ w.nextKey := by
  intro u hu heq
  obtain ⟨j, h1, hj, hkey⟩ := hi.recent u hu
  rw [heq] at hkey
  have hzero : UInt64.ofNat j = 0 := by
    have hsub := congrArg (· - w.nextKey) hkey
    simpa using hsub
  have hlt : j < 2 ^ 64 := by
    have hwindow : kProbeWindow < 2 ^ 64 := by decide
    omega
  have hnat := congrArg UInt64.toNat hzero
  rw [UInt64.toNat_ofNat', Nat.mod_eq_of_lt hlt] at hnat
  exact absurd hnat (by rw [UInt64.toNat_zero]; omega)

def probed (w : Worker k.enc.State) (src : Source) : Worker k.enc.State :=
  { w with nextKey := w.nextKey + 1, pending := w.pending ++ [⟨w.nextKey, src, false⟩] }

def probedUnit (w : Worker k.enc.State) (src : Source) (b : Bool) : PendingUnit :=
  ⟨w.nextKey, src, b⟩

theorem InStep.probe (hi : InStep h w c us (src :: rest)) (hroom : us.length < kProbeWindow)
    (hopen : Openable h (announced src.task)) (b : Bool) :
    InStep h (probed w src) (c.decided w.nextKey (probeOf k w.hashFirst src) b)
      (us ++ [probedUnit w src b]) rest where
  acceptMode := hi.acceptMode
  mode := by cases b <;> exact hi.mode
  hashFirst := by cases b <;> exact hi.hashFirst
  integrity := by cases b <;> exact hi.integrity
  pending := by
    rw [List.map_append, ← hi.pending]
    rfl
  recent := by
    intro u hu
    rw [List.length_append]
    rcases List.mem_append.mp hu with hu | hu
    · obtain ⟨j, h1, hj, hkey⟩ := hi.recent u hu
      refine ⟨j + 1, by omega, Nat.add_le_add_right hj 1, ?_⟩
      rw [UInt64.ofNat_add, ← UInt64.add_assoc, hkey]
      rfl
    · rw [List.mem_singleton.mp hu]
      exact ⟨1, le_rfl, Nat.le_add_left 1 _, rfl⟩
  nodup := by
    rw [List.map_append, List.nodup_append]
    refine ⟨hi.nodup, List.nodup_singleton _, ?_⟩
    intro key hkey key' hkey'
    obtain ⟨u, hu, rfl⟩ := List.mem_map.mp hkey
    rw [List.mem_singleton.mp hkey']
    exact hi.fresh hroom u hu
  accepted := by
    intro u hu hua
    rcases List.mem_append.mp hu with hold | hnew
    · have hkey := hi.accepted u hold hua
      cases b with
      | false => exact hkey
      | true => exact (Function.update_of_ne (hi.fresh hroom u hold) _ _).trans hkey
    · rw [List.mem_singleton.mp hnew] at hua ⊢
      cases b with
      | false => cases hua
      | true => exact Function.update_self ..
  openable := by
    intro u hu
    rcases List.mem_append.mp hu with hu | hu
    · exact hi.openable u hu
    · rw [List.mem_singleton.mp hu]
      exact hopen
  codec := by
    intro sub hsub
    rw [acceptedSources_append, List.map_append, List.append_assoc]
    cases b with
    | false => exact hi.codec sub (hsub.trans (List.sublist_cons_self _ _))
    | true => exact hi.codec (src.blocks :: sub) (hsub.cons_cons _)

/-! ## The run in which every byte arrives at once -/

variable {σ : Type} {hc : (op : Client.Op) → σ → op.Ans × σ}

abbrev ConnStep (k : Codecs) (dec : StreamDecompressor) (hc : (op : Client.Op) → σ → op.Ans × σ)
    (hs : (op : Server.Op) → τ → op.Ans × τ) :=
  Net.Step (clientNode k hc) (serverNode dec k.xxh64 hs)

/-- The rest of the client's program, once a step has said whether it goes on and with what. -/
abbrev AfterSend (k : Codecs) := Bool × Worker k.enc.State → Send (Bool × Worker k.enc.State)

def waiting (p : Send (Bool × Worker k.enc.State)) (s : σ) (t : Client.Log)
    (c : Consumer dec.State) (s' : τ) (t' : Server.Log) (back : Bytes) :
    Net Client.Op Client.Op.Ans σ (Bool × Worker k.enc.State) Server.Op Server.Op.Ans τ
      (Next (Head dec.State) (Consumer dec.State)) :=
  ⟨⟨p, s, t⟩, ⟨handleUnit c, s', t'⟩, .arrived [], .arrived back⟩

theorem turn_run {γ : Type} {p : Send γ} {s s₁ : σ} {y : Bytes} {v : γ} {t : Client.Log}
    (hclient : Exec hc p s y v s₁ t) {c₁ : Consumer dec.State} {s' s₁' : τ} {t' : Server.Log}
    (hserver : (handleUpload dec k.xxh64).Rounds h (.unit c) s' (sent t) (.unit c₁) s₁' t')
    (f : γ → Send (Bool × Worker k.enc.State)) (cl : Client.Log) (sl : Server.Log) (z : Bytes) :
    ReflTransGen (ConnStep k dec hc h) (waiting (p >>= f) s cl c s' sl (y ++ z))
      (waiting (f v) s₁ (cl ++ t) c₁ s₁' (sl ++ t') (z ++ emitted posted t')) := by
  have hleft := Net.left_exec (A := clientNode k hc) (B := serverNode dec k.xxh64 h) f hclient
    ⟨handleUnit c, s', sl⟩ cl [] z
  have hright := Net.right_rounds (A := clientNode k hc) (B := serverNode dec k.xxh64 h)
    (m := handleUpload dec k.xxh64) (fun _ => rfl) hserver ⟨f v, s₁, cl ++ t⟩ sl z []
  rw [List.append_nil] at hright
  exact hleft.trans hright

theorem probeFits_probeOf
    (hkind : (announced src.task).type = .file ∨ (announced src.task).type = .chunk)
    (hnamed : 1 ≤ src.task.pathname.bytes.length) (hashFirst : Bool) :
    ProbeFits hashFirst (probeOf k hashFirst src) where
  kind := hkind
  path := pathFits_pathname hnamed
  hash := by
    cases hashFirst
    · rfl
    · exact (k.blake3 src.hashed.flatten).length_eq

theorem probe_run (hcoop : Cooperative hc) (hi : InStep h w c us (src :: rest))
    (hroom : us.length < kProbeWindow) (hopen : Openable h (announced src.task))
    (hnamed : 1 ≤ src.task.pathname.bytes.length) (f : AfterSend k) (s : σ) (s' : τ)
    (cl : Client.Log) (sl : Server.Log) :
    ∃ b c₁ s₁ s₁' t t',
      ReflTransGen (ConnStep k dec hc h)
        (waiting (probe k w src >>= f) s cl c s' sl (us.flatMap PendingUnit.reply))
        (waiting (f (true, probed w src)) s₁ (cl ++ t) c₁ s₁' (sl ++ t')
          ((us ++ [probedUnit w src b]).flatMap PendingUnit.reply)) ∧
      InStep h (probed w src) c₁ (us ++ [probedUnit w src b]) rest ∧
      Asked (us.map PendingUnit.undecided)
        ((us ++ [probedUnit w src b]).map PendingUnit.undecided) [] t ∧
      Served k w.hashFirst w.integrity [probedUnit w src b] [] t' := by
  obtain ⟨s₁, hclient⟩ := probe_exec hcoop k w src s
  have hfits : ProbeFits (hasMode c.mode .hashFirst) (probeOf k w.hashFirst src) := by
    rw [← hi.hashFirst]
    exact probeFits_probeOf hopen.kind hnamed w.hashFirst
  obtain ⟨s₁', t', hserver, ht'⟩ := Server.probe_exec (h := h) hi.mode hfits w.nextKey s'
  obtain ⟨b, hb⟩ : ∃ b : Bool, (h (.query (.filter (probeOf k w.hashFirst src))) s').1 = b :=
    ⟨_, rfl⟩
  rw [hb] at hserver ht'
  have hundecided : (us ++ [probedUnit w src b]).map PendingUnit.undecided =
      w.pending ++ [(probedUnit w src b).undecided] := by
    rw [List.map_append, ← hi.pending]
    rfl
  have hsent : sent (probeLog k w src) = probeBytes w.nextKey (probeOf k w.hashFirst src) :=
    List.append_nil _
  rw [← hsent] at hserver
  have hrun := turn_run hclient (.single (m := handleUpload dec k.xxh64) hserver) f cl sl
    (us.flatMap PendingUnit.reply)
  rw [← emitted_calls, ht', posted_decisionLog] at hrun
  refine ⟨b, _, s₁, s₁', probeLog k w src, t', ?_, hi.probe hroom hopen b, ?_, ?_⟩
  · rw [List.flatMap_append, List.flatMap_singleton]
    exact hrun
  · rw [hundecided, ← hi.pending]
    refine Asked.probe (u := probedUnit w src b) (probeFrame k w src) ?_
    rw [List.length_append, hi.pending, List.length_map]
    exact hroom
  · refine Served.of_calls ?_
    rw [ht']
    exact Served.probe k w.hashFirst w.integrity (probedUnit w src b)

theorem resolve_run (hcoop : Cooperative hc) (hstore : Stores h) (hi : InStep h w c us rest)
    (f : AfterSend k) (s : σ) (s' : τ) (cl : Client.Log) (sl : Server.Log) :
    ∃ w₁ c₁ s₁ s₁' t t',
      ReflTransGen (ConnStep k dec hc h)
        (waiting (resolve k w >>= f) s cl c s' sl (us.flatMap PendingUnit.reply))
        (waiting (f (true, w₁)) s₁ (cl ++ t) c₁ s₁' (sl ++ t') []) ∧
      InStep h w₁ c₁ [] rest ∧ w₁.nextKey = w.nextKey ∧ w₁.hashFirst = w.hashFirst ∧
      w₁.integrity = w.integrity ∧
      Asked (us.map PendingUnit.undecided) [] us t ∧
      Served k w.hashFirst w.integrity [] us t' := by
  obtain ⟨s₁, hclient⟩ := resolve_exec hcoop k us hi.pending s
  obtain ⟨c₁, s₁', t', hserver, hmode, hint, hcodec, hserved, hemit⟩ := resolved_rounds hstore
    w.hashFirst us hi.openable hi.mode hi.nodup hi.accepted
    (M := fun sub => sub.Sublist (rest.map Source.blocks)) (List.nil_sublist _) hi.codec s'
  rw [← hi.integrity] at hserver hserved hint
  have hsent : sent (resolveLog k w.integrity w.compressor us) =
      sent (resolvedLog k w.integrity w.compressor us) := by
    have hgots : ∀ vs : List PendingUnit, sent (vs.map fun u => .got u.reply) = [] := by
      intro vs
      induction vs with
      | nil => rfl
      | cons v vs ih => exact ih
    rw [resolveLog, sent_did, sent_append, sent_append, hgots]
    exact List.append_nil _
  rw [← hsent] at hserver
  have hrun := turn_run hclient hserver f cl sl []
  rw [hemit, List.append_nil] at hrun
  refine ⟨_, c₁, s₁, s₁', _, t', hrun, ?_, rfl, rfl, rfl, Asked.resolve .., hserved⟩
  exact {
    acceptMode := hi.acceptMode
    mode := by rw [hmode]; exact hi.mode
    hashFirst := by rw [hmode]; exact hi.hashFirst
    integrity := hint.symm
    pending := rfl
    recent := by intro u hu; cases hu
    nodup := List.nodup_nil
    accepted := by intro u hu; cases hu
    openable := by intro u hu; cases hu
    codec := hcodec }

def keyed (key : UInt64) : List Source → List Bool → List PendingUnit
  | [], _ => []
  | _ :: _, [] => []
  | src :: sources, b :: bs => ⟨key, src, b⟩ :: keyed (key + 1) sources bs

def onward (rest : List Source) (f : AfterSend k)
    (r : Bool × Worker k.enc.State) : Send (Bool × Worker k.enc.State) :=
  (if r.1 then processAll k r.2 rest else .ret (false, r.2)) >>= f

def probedThen (src : Source) (rest : List Source)
    (f : AfterSend k) (r : Bool × Worker k.enc.State) : Send (Bool × Worker k.enc.State) :=
  (if !r.1 then Program.ret (false, r.2)
    else if kProbeWindow ≤ r.2.pending.length ∨ src.occupancy = 0 then resolve k r.2
    else .ret (true, r.2)) >>= onward rest f

theorem processAll_cons (hw : w.acceptMode = true) (src : Source) (rest : List Source)
    (f : AfterSend k) :
    (processAll k w (src :: rest) >>= f) = (probe k w src >>= probedThen src rest f) := by
  rw [processAll, process, hw, bind_bind]
  exact bind_bind ..

theorem probedThen_resolve (hw : kProbeWindow ≤ w.pending.length ∨ src.occupancy = 0)
    (rest : List Source) (f : AfterSend k) :
    probedThen src rest f (true, w) = (resolve k w >>= onward rest f) := by
  change (if kProbeWindow ≤ w.pending.length ∨ src.occupancy = 0 then resolve k w
    else Program.ret (true, w)) >>= onward rest f = _
  rw [if_pos hw]

theorem probedThen_wait (hw : ¬(kProbeWindow ≤ w.pending.length ∨ src.occupancy = 0))
    (rest : List Source) (f : AfterSend k) :
    probedThen src rest f (true, w) = (processAll k w rest >>= f) := by
  change (if kProbeWindow ≤ w.pending.length ∨ src.occupancy = 0 then resolve k w
    else Program.ret (true, w)) >>= onward rest f = _
  rw [if_neg hw]
  rfl

theorem processAll_run (hcoop : Cooperative hc) (hstore : Stores h) (rest : List Source)
    (hopen : ∀ src ∈ rest, Openable h (announced src.task))
    (hnamed : ∀ src ∈ rest, 1 ≤ src.task.pathname.bytes.length)
    (hlast : ∀ src ∈ rest.getLast?, src.occupancy = 0) (hi : InStep h w c us rest)
    (hroom : us.length < kProbeWindow) (hus : rest = [] → us = []) (f : AfterSend k) (s : σ)
    (s' : τ) (cl : Client.Log) (sl : Server.Log) :
    ∃ bs w₁ c₁ s₁ s₁' t t', bs.length = rest.length ∧
      ReflTransGen (ConnStep k dec hc h)
        (waiting (processAll k w rest >>= f) s cl c s' sl (us.flatMap PendingUnit.reply))
        (waiting (f (true, w₁)) s₁ (cl ++ t) c₁ s₁' (sl ++ t') []) ∧
      w₁.pending = [] ∧
      Asked (us.map PendingUnit.undecided) [] (us ++ keyed w.nextKey rest bs) t ∧
      Served k w.hashFirst w.integrity (keyed w.nextKey rest bs)
        (us ++ keyed w.nextKey rest bs) t' := by
  induction rest generalizing w c us s s' cl sl with
  | nil =>
    obtain rfl := hus rfl
    refine ⟨[], w, c, s, s', [], [], rfl, ?_, hi.pending, Asked.nil [], Served.nil ..⟩
    rw [List.append_nil, List.append_nil]
    exact .refl
  | cons src rest ih =>
    obtain ⟨b, c₁, s₁, s₁', t₁, t₁', hprobe, hi₁, hasked₁, hserved₁⟩ := probe_run hcoop hi hroom
      (hopen src List.mem_cons_self) (hnamed src List.mem_cons_self) (probedThen src rest f)
      s s' cl sl
    have hopen' := fun x hx => hopen x (List.mem_cons_of_mem src hx)
    have hnamed' := fun x hx => hnamed x (List.mem_cons_of_mem src hx)
    have hlast' : ∀ x ∈ rest.getLast?, x.occupancy = 0 := by
      intro x hx
      refine hlast x ?_
      rw [List.getLast?_cons, Option.mem_def.mp hx]
      rfl
    rw [processAll_cons hi.acceptMode]
    have hunits : ∀ bs, us ++ keyed w.nextKey (src :: rest) (b :: bs) =
        us ++ [probedUnit w src b] ++ keyed (w.nextKey + 1) rest bs := fun bs => by
      rw [List.append_assoc]
      rfl
    by_cases hcond : kProbeWindow ≤ (probed w src).pending.length ∨ src.occupancy = 0
    · -- the window is full, or no task is waiting: everything is resolved
      rw [probedThen_resolve hcond] at hprobe
      obtain ⟨w₂, c₂, s₂, s₂', t₂, t₂', hresolve, hi₂, hkey, hhash, hint, hasked₂, hserved₂⟩ :=
        resolve_run hcoop hstore hi₁ (onward rest f) s₁ s₁' (cl ++ t₁) (sl ++ t₁')
      obtain ⟨bs, w₃, c₃, s₃, s₃', t₃, t₃', hlen, hrest, hpending, hasked₃, hserved₃⟩ :=
        ih hopen' hnamed' hlast' hi₂ (by decide) (fun _ => rfl) s₂ s₂' (cl ++ t₁ ++ t₂)
          (sl ++ t₁' ++ t₂')
      rw [hkey] at hasked₃ hserved₃
      rw [hhash, hint] at hserved₃
      have hasked := (hasked₁.trans hasked₂).trans hasked₃
      have hserved := (hserved₁.trans hserved₂).trans hserved₃
      refine ⟨b :: bs, w₃, c₃, s₃, s₃', t₁ ++ t₂ ++ t₃, t₁' ++ t₂' ++ t₃',
        congrArg Nat.succ hlen, ?_, hpending, ?_, ?_⟩
      · rw [← List.append_assoc, ← List.append_assoc, ← List.append_assoc, ← List.append_assoc]
        exact (hprobe.trans hresolve).trans hrest
      · rw [hunits]
        exact hasked
      · rw [hunits]
        exact hserved
    · -- the next task is taken up, with one more unit pending
      rw [probedThen_wait hcond] at hprobe
      have hlen₁ : (probed w src).pending.length = (us ++ [probedUnit w src b]).length := by
        rw [hi₁.pending, List.length_map]
      have hroom₁ : (us ++ [probedUnit w src b]).length < kProbeWindow := by
        rw [← hlen₁]
        exact Nat.lt_of_not_le fun hle => hcond (.inl hle)
      have hne : rest ≠ [] := by
        rintro rfl
        exact hcond (.inr (hlast src rfl))
      obtain ⟨bs, w₃, c₃, s₃, s₃', t₃, t₃', hlen, hrest, hpending, hasked₃, hserved₃⟩ :=
        ih hopen' hnamed' hlast' hi₁ hroom₁ (fun hnil => absurd hnil hne) s₁ s₁' (cl ++ t₁)
          (sl ++ t₁')
      refine ⟨b :: bs, w₃, c₃, s₃, s₃', t₁ ++ t₃, t₁' ++ t₃', congrArg Nat.succ hlen, ?_,
        hpending, ?_, ?_⟩
      · rw [← List.append_assoc, ← List.append_assoc]
        exact hprobe.trans hrest
      · rw [hunits]
        exact hasked₁.trans hasked₃
      · rw [hunits]
        exact hserved₁.trans hserved₃

def closed (w : Worker k.enc.State) (s : σ) (t : Client.Log) (c : Consumer dec.State) (s' : τ)
    (t' : Server.Log) :
    Net Client.Op Client.Op.Ans σ (Bool × Worker k.enc.State) Server.Op Server.Op.Ans τ
      (Next (Head dec.State) (Consumer dec.State)) :=
  ⟨⟨.ret (true, w), s, t⟩, ⟨.ret (.done c), s', t'⟩, .arrived [], .arrived []⟩

variable (hc h) in
theorem closed_stuck (w : Worker k.enc.State) (s : σ) (t : Client.Log) (c : Consumer dec.State)
    (s' : τ) (t' : Server.Log) : Stuck (ConnStep k dec hc h) (closed w s t c s' t') := by
  intro y hstep
  cases hstep with
  | left hp => cases hp with | resume ha => cases ha
  | right hq => cases hq with | resume ha => cases ha
  | there hm => cases hm
  | back hm => cases hm

theorem finish_run (hcoop : Cooperative hc) (w : Worker k.enc.State) (c : Consumer dec.State)
    (s : σ) (s' : τ) (cl : Client.Log) (sl : Server.Log) :
    ∃ s₁, ReflTransGen (ConnStep k dec hc h)
      (waiting (finish >>= fun _ => Program.ret (true, w)) s cl c s' sl [])
      (closed w s₁ (cl ++ [enqueued [UnitType.endOfSession.toByte]]) c s'
        (sl ++ [.got [UnitType.endOfSession.toByte]])) := by
  have hclient : Exec hc finish s [] true (hc (.enqueue [UnitType.endOfSession.toByte]) s).2
      [enqueued [UnitType.endOfSession.toByte]] := enqueue_exec hcoop _ (Exec.ret true _)
  have hleft := Net.left_exec (A := clientNode k hc) (B := serverNode dec k.xxh64 h)
    (fun _ => Program.ret (true, w)) hclient ⟨handleUnit c, s', sl⟩ cl [] []
  have hright := Net.right_exec (A := clientNode k hc) (B := serverNode dec k.xxh64 h) Program.ret
    (endOfSession_exec c s') ⟨.ret (true, w), (hc (.enqueue [UnitType.endOfSession.toByte]) s).2,
      cl ++ [enqueued [UnitType.endOfSession.toByte]]⟩ sl [] []
  rw [bind_ret_right] at hright
  exact ⟨_, hleft.trans hright⟩

end

/-! ## Agreement -/

def connected {σ τ : Type} (k : Codecs) (dec : StreamDecompressor) (w : Worker k.enc.State)
    (mode : UInt8) (d : dec.State) (sources : List Source) (s : σ) (s' : τ) :
    Net Client.Op Client.Op.Ans σ (Bool × Worker k.enc.State) Server.Op Server.Op.Ans τ
      (Next (Head dec.State) (Consumer dec.State)) :=
  ⟨⟨session k w sources, s, []⟩, ⟨handleUnit (Consumer.start mode w.integrity d), s', []⟩,
    .arrived [], .arrived []⟩

structure Agreement (k : Codecs) (hashFirst integrity : Bool) (us : List PendingUnit)
    (cl : Client.Log) (sl : Server.Log) : Prop where
  asked : Asked [] [] us cl
  served : Served k hashFirst integrity us us sl

/-- On an accept-mode connection there are decisions, one for each task, and two logs that
agree on them, such that in every run the logs grow into these, and no run ends before. -/
theorem acceptMode_agreement {σ τ : Type} {hc : (op : Client.Op) → σ → op.Ans × σ}
    {hs : (op : Server.Op) → τ → op.Ans × τ} (hcoop : Cooperative hc) (hstore : Stores hs)
    (k : Codecs) (dec : StreamDecompressor) (w : Worker k.enc.State) (hw : w.acceptMode = true)
    (hpending : w.pending = []) (mode : UInt8) (hmode : hasMode mode .accept = true)
    (hhash : w.hashFirst = hasMode mode .hashFirst) (d : dec.State) (sources : List Source)
    (hopen : ∀ src ∈ sources, Openable hs (announced src.task))
    (hnamed : ∀ src ∈ sources, 1 ≤ src.task.pathname.bytes.length)
    (hlast : ∀ src ∈ sources.getLast?, src.occupancy = 0)
    (hcodec : ∀ sub, sub.Sublist (sources.map Source.blocks) →
      Lossless k.enc dec w.compressor d sub) (s : σ) (s' : τ) :
    ∃ bs w' cl sl n, bs.length = sources.length ∧ w'.pending = [] ∧
      Agreement k w.hashFirst w.integrity (keyed w.nextKey sources bs) cl sl ∧
      ∀ x, ReflTransGen (ConnStep k dec hc hs) (connected k dec w mode d sources s s') x →
        x.left.log <+: cl ∧ x.right.log <+: sl ∧
        (Stuck (ConnStep k dec hc hs) x →
          x.left.prog = .ret (true, w') ∧ x.left.log = cl ∧ x.right.log = sl) ∧
        ∀ m y, Steps (ConnStep k dec hc hs) m x y → m ≤ n := by
  have hi : InStep hs w (Consumer.start mode w.integrity d) [] sources := {
    acceptMode := hw
    mode := hmode
    hashFirst := hhash
    integrity := rfl
    pending := hpending
    recent := by intro u hu; cases hu
    nodup := List.nodup_nil
    accepted := by intro u hu; cases hu
    openable := by intro u hu; cases hu
    codec := hcodec }
  obtain ⟨bs, w', c, s₁, s₁', t, t', hlen, hrun, hpending', hasked, hserved⟩ :=
    processAll_run hcoop hstore sources hopen hnamed hlast hi (by decide) (fun _ => rfl)
      (fun r => finish >>= fun _ => .ret r) s s' [] []
  -- one run to the end is enough: the steps commute, so that every other run is on its way to the
  -- same end
  obtain ⟨s₂, hend⟩ := finish_run (h := hs) hcoop w' c s₁ s₁' t t'
  have hall : ReflTransGen (ConnStep k dec hc hs) (connected k dec w mode d sources s s') _ :=
    hrun.trans hend
  obtain ⟨n, hsteps⟩ := Lib.Steps.of_reflTransGen hall
  have hstuck := closed_stuck hs hc w' s₂
    (t ++ [enqueued [UnitType.endOfSession.toByte]]) c s₁'
    (t' ++ [.got [UnitType.endOfSession.toByte]])
  refine ⟨bs, w', t ++ [enqueued [UnitType.endOfSession.toByte]],
    t' ++ [.got [UnitType.endOfSession.toByte]], n, hlen, hpending', ⟨?_, ?_⟩, ?_⟩
  · have hfinish : Asked [] [] [] [enqueued [UnitType.endOfSession.toByte]] :=
      (Sends.enqueued fun x hx => ⟨_, List.mem_singleton.mp hx⟩).asked []
    have htotal := Asked.trans hasked hfinish
    rwa [List.append_nil] at htotal
  · have hfinish : Served k w.hashFirst w.integrity [] [] [.got [UnitType.endOfSession.toByte]] :=
      Served.of_calls (Served.nil ..)
    have htotal := hserved.trans hfinish
    rwa [List.append_nil, List.append_nil] at htotal
  · intro x hx
    obtain ⟨m, hm, hrest⟩ := hsteps.complete Net.Step.diamond hstuck hx
    obtain ⟨hl, hr⟩ := Net.log_prefix hrest.reflTransGen
    refine ⟨hl, hr, fun hx' => ?_, fun m' y hy => ?_⟩
    · have heq := hrest.eq_of_stuck hx'
      rw [← heq]
      exact ⟨rfl, rfl, rfl⟩
    · exact (hrest.le_of_steps Net.Step.diamond hstuck hy).trans hm

/-! ### A session of two short units, one of which is not wanted -/

def pickyDisk (root : LexPath) : (op : Server.Op) → Bool → op.Ans × Bool
  | .query (.filter _), s => (s, !s)
  | .query (.openSequential path), s | .query (.openOffset path), s =>
    ((resolveSafePath root path).isSome, s)
  | .query (.write _), s | .query (.writeAt _ _), s => (true, s)
  | .event _, s => ((), s)

theorem pickyDisk_stores (root : LexPath) : Stores (pickyDisk root) := by
  intro u n piece s
  by_cases hc : u.type = .chunk
  · rw [storeQuery, if_pos hc]
    rfl
  · rw [storeQuery, if_neg hc]
    rfl

def askingWorker : Worker shortCodecs.enc.State := ⟨true, true, false, 0, [], unstarted⟩

theorem acceptMode_agreement_short :
    ∃ bs w' cl sl n, bs.length = shortSources.length ∧ w'.pending = [] ∧
      Agreement shortCodecs false true (keyed 0 shortSources bs) cl sl ∧
      ∀ x, ReflTransGen (ConnStep shortCodecs storedLz4Decoder openNetwork (pickyDisk servedRoot))
          (connected shortCodecs storedLz4Decoder askingWorker 1 false shortSources () true) x →
        x.left.log <+: cl ∧ x.right.log <+: sl ∧
        (Stuck (ConnStep shortCodecs storedLz4Decoder openNetwork (pickyDisk servedRoot)) x →
          x.left.prog = .ret (true, w') ∧ x.left.log = cl ∧ x.right.log = sl) ∧
        ∀ m y, Steps (ConnStep shortCodecs storedLz4Decoder openNetwork (pickyDisk servedRoot))
          m x y → m ≤ n := by
  refine acceptMode_agreement openNetwork_cooperative (pickyDisk_stores servedRoot) shortCodecs
    storedLz4Decoder askingWorker rfl rfl 1 rfl rfl false shortSources ?_ ?_ ?_ ?_ () true
  · intro src hsrc
    simp only [shortSources, List.mem_cons, List.not_mem_nil, or_false] at hsrc
    rcases hsrc with rfl | rfl
    · exact ⟨.inl rfl, by decide⟩
    · exact ⟨.inr rfl, by decide⟩
  · intro src hsrc
    simp only [shortSources, List.mem_cons, List.not_mem_nil, or_false] at hsrc
    rcases hsrc with rfl | rfl <;> decide
  · intro src hsrc
    cases hsrc
    rfl
  · intro sub hsub
    have hmem : sub ∈ [[], [[[1, 2], [3]]], [[[5]]], [[[1, 2], [3]], [[5]]]] :=
      List.mem_sublists.mpr hsub
    simp only [List.mem_cons, List.not_mem_nil, or_false] at hmem
    rcases hmem with rfl | rfl | rfl | rfl
    · exact trivial
    · exact ⟨by decide, [[1, 2, 3]], true, rfl, rfl, trivial⟩
    · exact ⟨by decide, [[5]], true, rfl, rfl, trivial⟩
    · exact ⟨by decide, [[1, 2, 3]], true, rfl, rfl, by decide, [[5]], true, rfl, rfl, trivial⟩

end Dicker.System
