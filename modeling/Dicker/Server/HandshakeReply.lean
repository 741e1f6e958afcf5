import Dicker.Server.Authentication
import Dicker.Server.OutboxRuns

/-! The replies to a handshake request. A connection whose request was refused stays in
`Handshaking` until the reply has been written; each piece of data that comes meanwhile is
answered once more, since the whole request is still in the buffer. -/

namespace Dicker.Server
namespace Runtime
open Lib Host Connection

def Served (s : LoopState) (w : World) : Prop :=
  s.conn.state = .streaming ∨ s.conn.consumerStarted = true ∨
    w.consumer ≠ .notStarted ∨ s.uv.pushed ≠ []

structure Replied (config : ServerConfig) (G : Granted) (s : LoopState) (w : World) : Prop where
  early : s.uv.replies ≠ [] → kHandshakeRequestSize ≤ s.uv.plaintext.length
  status : ∀ r ∈ s.uv.replies, Status config s.uv.plaintext r.1
  data : ∀ r ∈ s.uv.replies, ∃ conn, r.2 = handshakeReply r.1 conn
  failed : ∀ r ∈ s.uv.replies, r.1 = .serverError → G.fails
  served : Served s w → ∃ r ∈ s.uv.replies, r.1 = .ok

variable {config : ServerConfig} {G : Granted} {maxRead : ℕ} {s s' : LoopState} {w w' : World}

theorem Replied.mono (h : Replied config G s w) {c : Connection} {u : Uv}
    (hplaintext : u.plaintext = s.uv.plaintext) (hreplies : u.replies = s.uv.replies)
    (hserved : Served ⟨c, u⟩ w' → Served s w) : Replied config G ⟨c, u⟩ w' where
  early := by
    rw [hreplies, hplaintext]
    exact h.early
  status := by
    rw [hreplies, hplaintext]
    exact h.status
  data := by
    rw [hreplies]
    exact h.data
  failed := by
    rw [hreplies]
    exact h.failed
  served hs := by
    rw [hreplies]
    exact h.served (hserved hs)

theorem served_assigned {c : Connection} {u : Uv}
    (hstate : c.state = .streaming → s.conn.state = .streaming)
    (hstarted : c.consumerStarted = s.conn.consumerStarted) (hpushed : u.pushed = s.uv.pushed)
    (hconsumer : w'.consumer = w.consumer) (h : Served ⟨c, u⟩ w') : Served s w := by
  rcases h with h | h | h | h
  · exact .inl (hstate h)
  · exact .inr (.inl (hstarted.symm.trans h))
  · exact .inr (.inr (.inl (hconsumer ▸ h)))
  · exact .inr (.inr (.inr (hpushed ▸ h)))

theorem replied_plain (h : Replied config G s w) {op : LoopOp} (hop : op.Plain) (a : op.Ans) :
    Replied config G (own op a s) (shared op a w) := by
  cases op with
  | close | push | bufferedBytes | closeChannel | startConsumer | delete | getOrCreateSink
  | recordSession => exact hop.elim
  | write request => cases a <;> exact h.mono rfl rfl (served_assigned id rfl rfl rfl)
  | _ => exact h.mono rfl rfl (served_assigned id rfl rfl rfl)

theorem Status.append {plaintext data : Bytes} {status : HandshakeStatus}
    (hsize : kHandshakeRequestSize ≤ plaintext.length) :
    Status config (plaintext ++ data) status ↔ Status config plaintext status := by
  unfold Status
  rw [parse_append hsize]

theorem replied_keeps (hm : Move config G s w s' w') (h : Replied config G s w) :
    Replied config G s' w' := by
  cases hm with
  | closing hc =>
    cases hc with
    | counts | finalizes | closes => exact h.mono rfl rfl (served_assigned id rfl rfl rfl)
    | plain op a hop => exact replied_plain h hop a
  | quiet | detects | buffers | agrees | names | pauses | resumes | looks | deletes
  | closesChannel =>
    exact h.mono rfl rfl (served_assigned id rfl rfl rfl)
  | marks => exact h.mono rfl rfl (served_assigned nofun rfl rfl rfl)
  | receives _ data late =>
    have hgrown : s.uv.replies ≠ [] → kHandshakeRequestSize ≤ (s.uv.plaintext ++ data).length := by
      intro hne
      rw [List.length_append]
      exact Nat.le_add_right_of_le (h.early hne)
    refine ⟨hgrown, fun r hr => ?_, h.data, h.failed, h.served⟩
    exact (Status.append (h.early (List.ne_nil_of_mem hr))).mpr (h.status r hr)
  | replies _ status hstate hsize hstatus hfails =>
    have hall : ∀ {P : HandshakeStatus × Bytes → Prop}, (∀ r ∈ s.uv.replies, P r) →
        P (status, handshakeReply status s.conn) →
        ∀ r ∈ s.uv.replies ++ [(status, handshakeReply status s.conn)], P r := by
      intro P hold hnew r hr
      rcases List.mem_append.mp hr with hr | hr
      · exact hold r hr
      · exact List.mem_singleton.mp hr ▸ hnew
    refine ⟨fun _ => hsize, hall h.status hstatus, hall h.data ⟨s.conn, rfl⟩,
      hall h.failed hfails, fun hs => ?_⟩
    obtain ⟨r, hr, hok⟩ := h.served hs
    exact ⟨r, List.mem_append_left _ hr, hok⟩
  | records _ op a hop =>
    rcases hop with ⟨_, rfl⟩ | ⟨_, rfl⟩
    · exact h.mono rfl rfl (served_assigned id rfl rfl rfl)
    · exact h.mono rfl rfl (served_assigned id rfl rfl rfl)
  | streams _ _ _ _ _ hok => exact { h with served := fun _ => hok }
  | starts _ _ hstate => exact { h with served := fun _ => h.served (.inl hstate) }
  | startsConsumer _ _ hstate => exact { h with served := fun _ => h.served (.inl hstate) }
  | pushes _ data _ hconsumer =>
    have hok := h.served (.inr (.inl hconsumer))
    unfold own uvOwn
    dsimp only
    split_ifs
    · exact { h with served := fun _ => hok }
    · exact { h with served := fun _ => hok }

theorem replied_stable (h : Replied config G s w) (hstep : ConsumerStep maxRead w w') :
    Replied config G s w' := by
  have hserved : w.consumer ≠ .notStarted → Replied config G s w' :=
    fun hw => { h with served := fun _ => h.served (.inr (.inr (.inl hw))) }
  cases hstep with
  | call _ _ hw => exact hserved (by rw [hw]; nofun)
  | run _ hw => exact hserved (by rw [hw]; nofun)
  | post _ _ hw => exact hserved (by rw [hw]; nofun)
  | finish _ hw => exact hserved (by rw [hw]; nofun)

theorem replied_starts (e : Callback) (h : Replied config G s w) :
    Replied config G (takes e s) (clears e w) := by
  cases e <;> exact h.mono rfl rfl (served_assigned id rfl rfl rfl)

theorem replied_of_runs {cond : LoopCond}
    (hgrants : ∀ A, Keeps (Move config G) A → Grants config maxRead cond G A)
    (hlimit : ∀ n, G.limit n) {c : LoopRun}
    (hc : Relation.ReflTransGen (hostIf config maxRead cond).Step (init config) c) :
    Replied config G c.own c.world ∧ (c.code = none → Idle config c.own) := by
  have hnone : ∀ {r : HandshakeStatus × Bytes}, r ∉ freshUv.replies := List.not_mem_nil
  have hfresh : Replied config G ⟨.fresh, freshUv⟩ (freshWorld config) := by
    refine ⟨fun hne => absurd rfl hne, fun _ hr => absurd hr hnone, fun _ hr => absurd hr hnone,
      fun _ hr => absurd hr hnone, ?_⟩
    rintro (h | h | h | h)
    · exact nomatch h
    · exact nomatch h
    · exact absurd rfl h
    · exact absurd rfl h
  have h := holds_of_runs hgrants hlimit (fun _ _ _ _ hm _ h => replied_keeps hm h)
    (fun _ _ _ _ h hstep => replied_stable h hstep)
    (fun e _ _ _ h _ => replied_starts e h) hfresh hc
  exact ⟨h.1.2, h.2⟩

theorem Idle.not_http (h : Idle config s) (hmagic : s.uv.plaintext.take kMagic.length = kMagic) :
    s.conn.httpMode = false := by
  refine Bool.eq_false_iff.mpr fun ht => h.base.http ht ?_
  rw [hmagic]

theorem Idle.replies_length (h : Idle config s)
    (hmagic : s.uv.plaintext.take kMagic.length = kMagic)
    (hsize : kHandshakeRequestSize ≤ s.uv.plaintext.length) (hstate : s.conn.state ≠ .closing) :
    s.uv.replies.length = s.uv.late + 1 := by
  have hhttp := h.not_http hmagic
  cases hs : s.conn.state with
  | handshaking => exact ((h.base.handshaking hs).answered hhttp hsize).1
  | streaming => exact (h.base.streaming hs).2.2.2.1.count
  | closing => exact absurd hs hstate

theorem handshakeReply_refused {status status' : HandshakeStatus} {conn : Connection}
    (h : handshakeReply status conn = kMagic ++ [status'.toByte]) : status = status' := by
  have hbyte : status.toByte = status'.toByte := by
    unfold handshakeReply at h
    rw [List.append_assoc] at h
    exact (List.cons.inj (List.append_cancel_left h)).1
  cases status <;> cases status' <;> first | rfl | exact absurd hbyte (by decide)

/-- A refusal is the only reply that is handed over, and the end of it, as long as no data is
handled between the complete request and the teardown. -/
theorem one_reply_iff (config : ServerConfig) (maxRead : ℕ) (τ : Outbox.History) (c : LoopRun)
    (hrun : (host config maxRead).Run (init config) τ c)
    (hspeaks : c.own.uv.plaintext.take kMagic.length <+: kMagic) :
    (c.own.uv.plaintext.length < kHandshakeRequestSize → Outbox.sentReplies c.own = []) ∧
    (∀ r ∈ Outbox.sentReplies c.own, ∃ status conn, r = handshakeReply status conn ∧
      Status config (c.own.uv.plaintext.take kHandshakeRequestSize) status) ∧
    (c.code = none → kHandshakeRequestSize ≤ c.own.uv.plaintext.length →
      c.own.conn.state ≠ .closing →
      ((Outbox.sentReplies c.own).length = 1 ↔ c.own.uv.late = 0)) ∧
    (c.code = none → c.own.uv.late = 0 → (Outbox.sentReplies c.own).length ≤ 1 ∧
      ∀ status ≠ HandshakeStatus.ok, kMagic ++ [status.toByte] ∈ Outbox.sentReplies c.own →
        ¬Served c.own c.world) ∧
    (c.code = none → c.own.conn.teardownStarted = false →
      Outbox.takenReplies τ = Outbox.sentReplies c.own) := by
  have hgrants : ∀ A, Keeps (Move config free) A →
      Grants config maxRead (fun _ _ _ => True) free A :=
    fun _ hA => grants_true hA (fun _ => trivial) trivial
  have hc : Reaches config maxRead (init config) c := reaches_iff_run.mpr ⟨τ, hrun⟩
  obtain ⟨h, hidle⟩ := replied_of_runs hgrants (fun _ => trivial) hc.restrict
  have hsent : Outbox.sentReplies c.own <+: c.own.uv.replies.map Prod.snd :=
    (Outbox.inOrder_of_run hrun).sent hspeaks
  refine ⟨fun hshort => ?_, fun data hmem => ?_, fun hcode hsize hstate => ?_,
    fun hcode hlate => ?_, fun hcode => ?_⟩
  · have hnone : c.own.uv.replies = [] := by
      by_contra hne
      exact absurd (h.early hne) (Nat.not_le.mpr hshort)
    rw [hnone] at hsent
    exact List.prefix_nil.mp hsent
  · obtain ⟨r, hr, rfl⟩ := List.mem_map.mp (hsent.subset hmem)
    obtain ⟨conn, hdata⟩ := h.data r hr
    have hstatus := h.status r hr
    refine ⟨r.1, conn, hdata, ?_⟩
    unfold Status at hstatus ⊢
    rwa [parse_take]
  · have hmagic : c.own.uv.plaintext.take kMagic.length = kMagic := by
      refine hspeaks.eq_of_length ?_
      rw [List.length_take]
      exact Nat.min_eq_left (le_trans (by decide) hsize)
    rw [(Outbox.replies_of_run hrun hcode hspeaks).1, List.length_map,
      (hidle hcode).replies_length hmagic hsize hstate]
    exact Nat.succ_inj
  · have hcount := (hidle hcode).base.answers.count
    rw [hlate] at hcount
    rw [(Outbox.replies_of_run hrun hcode hspeaks).1, List.length_map]
    refine ⟨hcount, fun status hrefused hmem hserved => ?_⟩
    obtain ⟨r, hr, hbytes⟩ := List.mem_map.mp hmem
    obtain ⟨conn, hdata⟩ := h.data r hr
    obtain ⟨r', hr', hok⟩ := h.served hserved
    obtain ⟨x, hx⟩ := List.length_eq_one_iff.mp (le_antisymm hcount (List.length_pos_of_mem hr))
    rw [hx, List.mem_singleton] at hr hr'
    have hstatus : r.1 = status := handshakeReply_refused (hdata.symm.trans hbytes)
    exact hrefused (hstatus ▸ hr ▸ hr' ▸ hok)
  · exact (Outbox.replies_of_run hrun hcode hspeaks).2

def futureRequest (key : Bytes) : Bytes :=
  signed key (kMagic ++ [3, 0, 0, 1] ++ List.replicate kSessionIdSize 0)

theorem futureRequest_length (key : Bytes) : (futureRequest key).length = kHandshakeRequestSize :=
  signed_length key rfl

theorem parse_futureRequest (key rest : Bytes) :
    parseAndVerifyHandshake key (futureRequest key ++ rest) = .error .badVersion :=
  parse_signed_badVersion key rest rfl rfl (.inr (by decide))

theorem futureRequest_magic (key rest : Bytes) :
    (futureRequest key ++ rest).take kMagic.length = kMagic := signed_take key rest rfl (by decide)

theorem refused_once_run (config : ServerConfig) (maxRead : ℕ) :
    Reaches config maxRead (init config)
    ⟨none, replying .badVersion (whole (futureRequest config.key)), freshWorld config⟩ := by
  have hcond : ∀ (op : LoopOp) (_ : LoopState) (a : op.Ans), LoopOp.Succeeds op a → True :=
    fun _ _ _ _ => trivial
  have hparse := parse_futureRequest config.key []
  have hmagic := futureRequest_magic config.key []
  rw [List.append_nil] at hparse hmagic
  exact reaches_of_restricted (first_run hcond (futureRequest_length _).ge hmagic
    (exec_rejected hparse (exec_reply .badVersion rfl trivial)))

theorem one_reply_future :
    ∃ c τ, (host sampleConfig 64).Run (init sampleConfig) τ c ∧ c.own.uv.late = 0 ∧
      (Outbox.sentReplies c.own).length = 1 ∧ ¬Served c.own c.world ∧
      Outbox.takenReplies τ = [kMagic ++ [HandshakeStatus.badVersion.toByte]] := by
  obtain ⟨τ, hrun⟩ := reaches_iff_run.mp (refused_once_run sampleConfig 64)
  have hmagic := futureRequest_magic sampleConfig.key []
  rw [List.append_nil] at hmagic
  obtain ⟨-, -, hone, hend, htaken⟩ :=
    one_reply_iff sampleConfig 64 τ _ hrun (hmagic ▸ List.prefix_refl _)
  exact ⟨_, τ, hrun, rfl, (hone rfl (futureRequest_length _).ge nofun).mpr rfl,
    (hend rfl rfl).2 .badVersion nofun (List.mem_singleton.mpr rfl), htaken rfl rfl⟩

/-- One more byte before the refusal has been written, and it is sent again. -/
theorem refused_twice :
    ∃ c, Reaches sampleConfig 64 (init sampleConfig) c ∧ c.code = none ∧
      c.own.uv.plaintext.take kMagic.length = kMagic ∧
      Outbox.sentReplies c.own = [kMagic ++ [HandshakeStatus.badVersion.toByte],
        kMagic ++ [HandshakeStatus.badVersion.toByte]] := by
  have hrun := refused_once_run sampleConfig 64
  have hmagic := futureRequest_magic sampleConfig.key
  have hs : Refused (futureRequest sampleConfig.key)
      (takes (.read [0] []) (replying .badVersion (whole (futureRequest sampleConfig.key)))) :=
    ⟨rfl, rfl, rfl, rfl, rfl, by simpa using hmagic [], (futureRequest_length _).ge⟩
  have hfires : (hostIf sampleConfig 64 fun _ _ _ => True).fires (.read [0] [])
      (replying .badVersion (whole (futureRequest sampleConfig.key))) (freshWorld sampleConfig) :=
    ⟨rfl, rfl, List.cons_ne_nil 0 []⟩
  have hplain := congrArg Connection.tlsActive (hs.buffering [0])
  have hagain := reaches_of_restricted (Exec.event hfires (hs.exec
    (exec_rejected (parse_futureRequest sampleConfig.key [0])
      (exec_reply .badVersion hplain trivial))))
  exact ⟨_, hrun.trans hagain, rfl, hmagic [0], rfl⟩

end Runtime
end Dicker.Server
