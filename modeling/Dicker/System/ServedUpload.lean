import Dicker.Server.ConsumerEnds
import Dicker.Server.CutShort
import Dicker.System.Handshake
import Dicker.System.RoundTrip

/-! An upload through a server with two threads. Whatever part of a worker's stream has arrived, in
whatever pieces, and wherever the two threads of the connection are, the units that have been
reported as uploaded are the worker's first ones, with their contents. -/

namespace Dicker.System
open Lib Program Client Server Server.Runtime

variable {σ : Type} {hc : (op : Client.Op) → σ → op.Ans × σ} {k : Codecs} {b : Backend}
  {config : ServerConfig}
  {algo : CompressionAlgo} {conn : Conn} {version : UInt16}
    {w : Worker k.enc.State} {root : LexPath}
  {sources : List Source}

structure Compatible (k : Codecs) (b : Backend) (config : ServerConfig)
    (algo : CompressionAlgo) (conn : Conn)
    (version : UInt16) (w : Worker k.enc.State) (root : LexPath)
    (sources : List Source) : Prop where
  supported : algo = .lz4 ∨ algo = .zstd
  spoken : version = 1 ∨ version = 2
  key : conn.key = config.key
  mode : hasMode (config.modeFor version) .accept = false
  worker : w.acceptMode = false
  integrity : w.integrity = hasFlag conn.flags .integrityChecks
  xxh64 : b.xxh64 = k.xxh64
  sink : Sound root b.handle
  tasks : ∀ src ∈ sources, Acceptable root src.task
  codec : Lossless k.enc b.dec w.compressor b.decompressor (sources.map Source.blocks)

def uploadWire (k : Codecs) (hc : (op : Client.Op) → σ → op.Ans × σ)
    (algo : CompressionAlgo) (conn : Conn)
    (version : UInt16) (w : Worker k.enc.State) (sources : List Source) (sc : σ) : Bytes :=
  handshake algo conn version ++ sent ((session k w sources).run hc sc []).trace

theorem uploadWire_behind (sc : σ) :
    (uploadWire k hc algo conn version w sources sc).drop kHandshakeRequestSize =
    [Cmd.upload.toByte] ++ sent ((session k w sources).run hc sc []).trace := by
  rw [uploadWire, handshake_eq, List.append_assoc,
    List.drop_left' (signed_length _ (handshakeFields_length algo conn version))]

theorem sequential_uploads (hcoop : Cooperative hc)
    (h : Compatible k b config algo conn version w root sources) (sc : σ) :
    ∃ uploads, List.Forall₂ (Delivers k.xxh64 w.integrity) sources uploads ∧
      calls (b.sequential (config.modeFor version) (hasFlag conn.flags .integrityChecks)
        ((uploadWire k hc algo conn version w sources sc).drop kHandshakeRequestSize)).trace =
        uploadCalls k.xxh64 w.integrity uploads := by
  obtain ⟨w', sc', t, hclient, hsent⟩ := session_exec_plain hcoop k sources h.worker sc
  have hstream : sent ((session k w sources).run hc sc []).trace =
      plainStream k w.integrity w.compressor sources ++ [UnitType.endOfSession.toByte] := by
    rw [← hsent]
    exact congrArg (fun o => sent o.trace) (hclient.run_eq [])
  obtain ⟨c, s, t', uploads, hrounds, hdelivers, hops⟩ :=
    plainStream_rounds h.sink k sources h.tasks
    (c := Consumer.start (config.modeFor version) w.integrity b.decompressor)
    (by rw [Consumer.start, h.mode]; exact Bool.false_ne_true) h.codec b.store
  refine ⟨uploads, hdelivers, ?_⟩
  rw [uploadWire_behind, hstream, ← h.integrity]
  have hstart : b.sequential (config.modeFor version) w.integrity ([Cmd.upload.toByte] ++
      (plainStream k w.integrity w.compressor sources ++ [UnitType.endOfSession.toByte])) =
      (b.machine.eval b.handle
        (.unit (Consumer.start (config.modeFor version) w.integrity b.decompressor)) b.store
        (plainStream k w.integrity w.compressor sources ++ [UnitType.endOfSession.toByte])).after
        [.got [Cmd.upload.toByte]] := Machine.conclude_of_again rfl
  rw [← h.xxh64] at hrounds
  have heval : b.machine.eval b.handle
      (.unit (Consumer.start (config.modeFor version) w.integrity b.decompressor))
      b.store (plainStream k w.integrity w.compressor sources ++
        [UnitType.endOfSession.toByte]) = _ :=
    hrounds.eval_eq [UnitType.endOfSession.toByte]
  have hend : b.machine.eval b.handle (.unit c) s ([UnitType.endOfSession.toByte] ++ []) =
      ⟨c, s, [], [.got [UnitType.endOfSession.toByte]]⟩ :=
        Machine.eval_exec_done _ _ (endOfSession_exec c s) []
  rw [List.append_nil] at hend
  rw [hstart, Outcome.after_trace, heval, hend, calls_append, Outcome.after_trace,
    calls_append, hops]
  exact List.append_nil _

/-- However far the two threads of the connection have come, and however much of the worker's stream
has arrived: while the channel is open the sink has been given the beginning of the worker's units;
up to each report of an uploaded unit so it has even if the stream broke off behind it; and a
consumer that ended on its own, or had all of the stream, has stored every unit. -/
theorem upload_served (hcoop : Cooperative hc)
    (h : Compatible k b config algo conn version w root sources) (sc : σ) (t : Threads b)
    (p : b.Thread) (ht : Threads.Reaches b config t) (hp : t.consumer = some p)
    (hwire : t.loop.own.uv.plaintext <+: uploadWire k hc algo conn version w sources sc) :
    ∃ uploads, List.Forall₂ (Delivers k.xxh64 w.integrity) sources uploads ∧
      (t.loop.world.channel.closed = false →
        calls p.log <+: uploadCalls k.xxh64 w.integrity uploads) ∧
      (∀ l e, l ++ [e] <+: p.log → ReportsOk e →
        calls (l ++ [e]) <+: uploadCalls k.xxh64 w.integrity uploads) ∧
      (t.loop.world.consumer = .finished → t.loop.world.channel.closed = false ∨
          t.loop.own.uv.pushed = (uploadWire k hc algo conn version w sources sc).drop
            kHandshakeRequestSize →
        calls p.log = uploadCalls k.xxh64 w.integrity uploads) := by
  obtain ⟨uploads, hdelivers, hops⟩ := sequential_uploads hcoop h sc
  have hholds := Threads.holds_of_reaches ht
  have hserves := hholds.present p hp
  obtain ⟨request, hparsed, hcontinues⟩ := hserves.session
  obtain ⟨later, hlater⟩ := hwire
  have hrequest : request = ⟨version, conn.flags, algo, conn.sessionId⟩ := by
    have hread :=
      parse_handshake algo conn version (sent ((session k w sources).run hc sc []).trace)
      h.supported h.spoken
    rw [← uploadWire, ← hlater, parse_append hserves.size, h.key, hparsed] at hread
    exact Except.ok.inj hread
  subst hrequest
  obtain ⟨rest, hrest⟩ : t.loop.own.uv.pushed <+:
      (uploadWire k hc algo conn version w sources sc).drop kHandshakeRequestSize := by
    refine hholds.delivery.1.pushed.trans ?_
    rw [← hlater, List.drop_append_of_le_length hserves.size]
    exact List.prefix_append _ _
  rw [← hrest] at hops
  have hopen (hclosed : t.loop.world.channel.closed = false) :=
    hcontinues.logged hserves.placed rest
    fun hc => absurd (hclosed.symm.trans hc) Bool.false_ne_true
  have hnow := hcontinues.logged hserves.placed [] fun _ => rfl
  rw [List.append_nil] at hnow
  have hfront {l : Server.Log} (hl : l <+:
      (b.sequential (config.modeFor version) (hasFlag conn.flags .integrityChecks)
      (t.loop.own.uv.pushed ++ rest)).trace) :
      calls l <+: uploadCalls k.xxh64 w.integrity uploads := by
    obtain ⟨u, hu⟩ := hl
    rw [← hops, ← hu, calls_append]
    exact List.prefix_append _ _
  refine ⟨uploads, hdelivers, fun hclosed => hfront (hopen hclosed).1,
    fun l e hl hok => hfront ?_, ?_⟩
  · -- what has been reported as uploaded would have been reported on the rest of the stream, too
    exact (b.sequential_cut _ _ _ rest).front_of_loud (not_not.mpr hok) (hl.trans hnow.1)
  · rintro hfinished (hclosed | hall)
    · rw [((hopen hclosed).2 hfinished).1, hops]
    · have hnone : rest = [] := List.self_eq_append_right.mp (hall.trans hrest.symm)
      rw [(hnow.2 hfinished).1, ← hops, hnone, List.append_nil]

def shortBackend : Backend := ⟨storedLz4Decoder, xxh64Short, Unit, soundDisk servedRoot, false, ()⟩

def uploadConfig : ServerConfig := ⟨[0x6B], 1024, 256, false, false⟩

theorem stored_compatible {sources : List Source}
    (htasks : ∀ src ∈ sources, Acceptable servedRoot src.task)
    (hcodec : Lossless storedLz4.compressor storedLz4Decoder unstarted false
      (sources.map Source.blocks)) :
    Compatible shortCodecs shortBackend uploadConfig .lz4 sampleConn 2 shortWorker
      servedRoot sources where
  supported := .inl rfl
  spoken := .inr rfl
  key := rfl
  mode := by decide
  worker := rfl
  integrity := by decide
  xxh64 := rfl
  sink := soundDisk_sound servedRoot
  tasks := htasks
  codec := hcodec

theorem short_compatible :
    Compatible shortCodecs shortBackend uploadConfig .lz4 sampleConn 2 shortWorker servedRoot
    shortSources :=
  stored_compatible shortSources_acceptable shortSources_lossless

theorem upload_served_short :
    ∃ t p, Threads.Reaches shortBackend uploadConfig t ∧ t.consumer = some p ∧
    t.loop.world.consumer = .finished ∧
    ∃ uploads, List.Forall₂ (Delivers xxh64Short true) shortSources uploads ∧
      calls p.log = uploadCalls xxh64Short true uploads := by
  let stream := sent ((session shortCodecs shortWorker shortSources).run openNetwork () []).trace
  let request := signed sampleConn.key (handshakeFields .lz4 sampleConn 2)
  have hlen : request.length = kHandshakeRequestSize := signed_length _ (handshakeFields_length ..)
  have hparse : parseAndVerifyHandshake uploadConfig.key request =
      .ok ⟨2, 1, .lz4, sampleConn.sessionId⟩ := by
    have h := parse_handshake .lz4 sampleConn 2 [] (.inl rfl) (.inr rfl)
    rw [handshake_eq, List.append_assoc, parse_append hlen.ge] at h
    exact h
  have hlow : ([Cmd.upload.toByte] ++ stream).length < uploadConfig.channelHighWater := by decide
  obtain ⟨s, hloop, hplaintext, hpushed, hreading, hlive, hup, hconsumer⟩ :=
    Threads.delivered_alone uploadConfig hlen hparse (List.cons_ne_nil _ _) hlow
  obtain ⟨s', hloop', hplaintext', hpushed'⟩ :=
    Threads.hangup_alone hloop hreading (hlive.opened .tcp) hup hconsumer
  rcases Threads.reaches_of_loop shortBackend hloop' with ⟨hfresh, -⟩ | ⟨-, _, -, hstart⟩
  · exact absurd hfresh (by rintro ⟨⟩)
  obtain ⟨_, hending⟩ := (Threads.holds_of_reaches hstart).exists_ending rfl (by rintro ⟨⟩)
  obtain ⟨t, hrun, hown, hfinished⟩ := hending.exists_finished
  have ht : Threads.Reaches shortBackend uploadConfig t := hstart.trans hrun
  obtain ⟨p, hp⟩ : ∃ p, t.consumer = some p := by
    cases hc : t.consumer with
    | none =>
      exact absurd (hfinished.symm.trans ((Threads.holds_of_reaches ht).absent hc).1) (by rintro ⟨⟩)
    | some p => exact ⟨p, rfl⟩
  have hwire : t.loop.own.uv.plaintext =
      uploadWire shortCodecs openNetwork .lz4 sampleConn 2 shortWorker shortSources () := by
    rw [hown, uploadWire, handshake_eq, List.append_assoc]
    exact hplaintext'.trans hplaintext
  obtain ⟨uploads, hdelivers, -, -, hall⟩ :=
    upload_served openNetwork_cooperative short_compatible () t p ht hp (hwire ▸ List.prefix_refl _)
  refine ⟨t, p, ht, hp, hfinished, uploads, hdelivers, hall hfinished (.inr ?_)⟩
  rw [hown, uploadWire_behind]
  exact hpushed'.trans hpushed

end Dicker.System
