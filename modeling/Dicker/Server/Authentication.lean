import Dicker.Server.Opening

/-! Nothing is done for a peer before its request has been checked: no stream, no consumer,
no sink, no session row. -/

namespace Dicker.Server
open Lib

def LoopOp.Touches : LoopOp → Prop
  | getOrCreateSink _ | recordSession _ | startConsumer => True
  | _ => False

namespace Runtime
open Host Connection

def Acted (s : LoopState) (w : World) : Prop :=
  s.conn.state = .streaming ∨ s.conn.consumerStarted = true ∨ w.consumer ≠ .notStarted ∨
    ∃ op ∈ s.uv.log, op.Touches

structure Authenticated (config : ServerConfig) (s : LoopState) (w : World) : Prop where
  plain : s.conn.tlsActive = false → s.uv.plaintext <+: s.uv.received
  acted : Acted s w →
    kHandshakeRequestSize ≤ s.uv.plaintext.length ∧ Authentic config.key s.uv.plaintext

variable {config : ServerConfig} {s : LoopState} {w w' : World}

theorem Authenticated.mono (h : Authenticated config s w) {c : Connection} {u : Uv}
    (hactive : c.tlsActive = s.conn.tlsActive) (hplaintext : u.plaintext = s.uv.plaintext)
    (hreceived : u.received = s.uv.received) (hacted : Acted ⟨c, u⟩ w' → Acted s w) :
    Authenticated config ⟨c, u⟩ w' where
  plain := by
    rw [hactive, hplaintext, hreceived]
    exact h.plain
  acted ha := by
    rw [hplaintext]
    exact h.acted (hacted ha)

theorem acted_logged {c : Connection} {u : Uv} (op : LoopOp) (hop : ¬op.Touches)
    (hlog : u.log = s.uv.log ++ [op]) (hstate : c.state = .streaming → s.conn.state = .streaming)
    (hstarted : c.consumerStarted = s.conn.consumerStarted) (hconsumer : w'.consumer = w.consumer)
    (h : Acted ⟨c, u⟩ w') : Acted s w := by
  rcases h with h | h | h | ⟨o, hmem, ho⟩
  · exact .inl (hstate h)
  · exact .inr (.inl (hstarted.symm.trans h))
  · exact .inr (.inr (.inl (hconsumer ▸ h)))
  · rw [hlog] at hmem
    rcases List.mem_append.mp hmem with hmem | hmem
    · exact .inr (.inr (.inr ⟨o, hmem, ho⟩))
    · exact absurd (List.mem_singleton.mp hmem ▸ ho) hop

theorem acted_assigned {c : Connection} {u : Uv} (hlog : u.log = s.uv.log)
    (hstate : c.state = .streaming → s.conn.state = .streaming)
    (hstarted : c.consumerStarted = s.conn.consumerStarted) (h : Acted ⟨c, u⟩ w) : Acted s w := by
  rcases h with h | h | h | ⟨o, hmem, ho⟩
  · exact .inl (hstate h)
  · exact .inr (.inl (hstarted.symm.trans h))
  · exact .inr (.inr (.inl h))
  · exact .inr (.inr (.inr ⟨o, hlog ▸ hmem, ho⟩))

theorem authenticated_plain (h : Authenticated config s w) {op : LoopOp} (hop : op.Plain)
    (a : op.Ans) : Authenticated config (own op a s) (shared op a w) := by
  cases op with
  | close | push | bufferedBytes | closeChannel | startConsumer | delete | getOrCreateSink
  | recordSession => exact hop.elim
  | write request =>
    cases a <;> exact h.mono rfl rfl rfl (acted_logged _ (by exact id) rfl id rfl rfl)
  | _ => exact h.mono rfl rfl rfl (acted_logged _ (by exact id) rfl id rfl rfl)

theorem authenticated_keeps {s' : LoopState} (hm : Move config free s w s' w')
    (h : Authenticated config s w) : Authenticated config s' w' := by
  cases hm with
  | closing hc =>
    cases hc with
    | counts | finalizes => exact h.mono rfl rfl rfl (acted_assigned rfl id rfl)
    | plain op a hop => exact authenticated_plain h hop a
    | closes => exact h.mono rfl rfl rfl (acted_logged _ (by exact id) rfl id rfl rfl)
  | quiet | buffers | replies | agrees | names | pauses | resumes =>
    exact h.mono rfl rfl rfl (acted_assigned rfl id rfl)
  | marks => exact h.mono rfl rfl rfl (acted_assigned rfl nofun rfl)
  | closesChannel | looks | deletes =>
    exact h.mono rfl rfl rfl (acted_logged _ (by exact id) rfl id rfl rfl)
  | pushes _ data =>
    unfold own uvOwn
    dsimp only
    split_ifs
    · exact h.mono rfl rfl rfl (acted_logged (.push data) (by exact id) rfl id rfl rfl)
    · exact h.mono rfl rfl rfl (acted_logged (.push data) (by exact id) rfl id rfl rfl)
  | detects _ detected active hactive =>
    refine ⟨fun hf => h.plain ?_, fun ha => h.acted (acted_assigned rfl id rfl ha)⟩
    exact Bool.eq_false_iff.mpr fun ht => absurd (hf.symm.trans (hactive ht)) Bool.false_ne_true
  | receives _ data late hplain =>
    refine ⟨fun hf => (hplain hf) ▸ List.prefix_refl _, fun ha => ?_⟩
    obtain ⟨hsize, hauthentic⟩ := h.acted (acted_assigned rfl id rfl ha)
    refine ⟨?_, hauthentic.append hsize data⟩
    change kHandshakeRequestSize ≤ (s.uv.plaintext ++ data).length
    rw [List.length_append]
    omega
  | records _ op a hop hsize hauthentic =>
    rcases hop with ⟨_, rfl⟩ | ⟨_, rfl⟩
    · exact ⟨h.plain, fun _ => ⟨hsize, hauthentic⟩⟩
    · exact ⟨h.plain, fun _ => ⟨hsize, hauthentic⟩⟩
  | streams _ _ _ hsize hauthentic => exact ⟨h.plain, fun _ => ⟨hsize, hauthentic⟩⟩
  | starts _ _ _ hsize hauthentic => exact ⟨h.plain, fun _ => ⟨hsize, hauthentic⟩⟩
  | startsConsumer _ _ _ _ _ hsize hauthentic => exact ⟨h.plain, fun _ => ⟨hsize, hauthentic⟩⟩

theorem authenticated_stable {maxRead : ℕ} (h : Authenticated config s w)
    (hstep : ConsumerStep maxRead w w') : Authenticated config s w' := by
  have hacted : w.consumer ≠ .notStarted → Authenticated config s w' :=
    fun hw => ⟨h.plain, fun _ => h.acted (.inr (.inr (.inl hw)))⟩
  cases hstep with
  | call _ _ hw => exact hacted (by rw [hw]; nofun)
  | run _ hw => exact hacted (by rw [hw]; nofun)
  | post _ _ hw => exact hacted (by rw [hw]; nofun)
  | finish _ hw => exact hacted (by rw [hw]; nofun)

theorem authenticated_starts (e : Callback) (h : Authenticated config s w) :
    Authenticated config (takes e s) (clears e w) := by
  cases e with
  | read data answers =>
    refine ⟨fun hf => (h.plain hf).trans (List.prefix_append _ data), fun ha => ?_⟩
    exact h.acted (acted_assigned rfl id rfl ha)
  | resume | close | outbox => exact ⟨h.plain, h.acted⟩
  | _ => exact h.mono rfl rfl rfl (acted_assigned rfl id rfl)

theorem authenticated_of_reaches {maxRead : ℕ} {c : LoopRun}
    (hc : Reaches config maxRead (init config) c) : Authenticated config c.own c.world := by
  have hfresh : Authenticated config ⟨.fresh, freshUv⟩ (freshWorld config) := by
    refine ⟨fun _ => List.prefix_refl _, ?_⟩
    rintro (h | h | h | ⟨op, hmem, _⟩)
    · exact nomatch h
    · exact nomatch h
    · exact absurd rfl h
    · exact absurd hmem List.not_mem_nil
  exact (holds_of_reaches (fun _ _ _ _ hm _ h => authenticated_keeps hm h)
    (fun _ _ _ _ h hstep => authenticated_stable h hstep)
    (fun e _ _ _ h _ => authenticated_starts e h) hfresh hc).1.2

/-- A connection that does anything for its peer has been sent, in its first bytes, the magic,
a version and an algorithm that are spoken here, and the HMAC of them under the key. -/
theorem nothing_before_authentication (config : ServerConfig) (maxRead : ℕ) (c : LoopRun)
    (hc : Reaches config maxRead (init config) c) (hacted : Acted c.own c.world) :
    kHandshakeRequestSize ≤ c.own.uv.plaintext.length ∧ Authentic config.key c.own.uv.plaintext ∧
      (c.own.conn.tlsActive = false → kHandshakeRequestSize ≤ c.own.uv.received.length ∧
        Authentic config.key c.own.uv.received) := by
  have h := authenticated_of_reaches hc
  obtain ⟨hsize, hauthentic⟩ := h.acted hacted
  refine ⟨hsize, hauthentic, fun hplain => ?_⟩
  obtain ⟨more, hreceived⟩ := h.plain hplain
  rw [← hreceived, List.length_append]
  exact ⟨Nat.le_add_right_of_le hsize, hauthentic.append hsize more⟩

def sampleConfig : ServerConfig := ⟨[0x6B], 1024, 256, false, false⟩

theorem nothing_before_authentication_plain :
    ∃ c, Reaches sampleConfig 64 (init sampleConfig) c ∧ Acted c.own c.world ∧
      Authentic sampleConfig.key c.own.uv.received := by
  have hrun := plain_reaches sampleConfig 64
  have h := nothing_before_authentication sampleConfig 64 _ hrun (.inl rfl)
  exact ⟨_, hrun, .inl rfl, (h.2.2 rfl).2⟩

end Runtime
end Dicker.Server
