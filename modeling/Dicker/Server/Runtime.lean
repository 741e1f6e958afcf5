import Dicker.Server.ByteChannel
import Dicker.Server.Connection

/-! A connection at run time: libuv calls it back on the loop thread, while the consumer
thread reads from its channel, posts replies and ends. What the consumer asks for is left
open here, up to the size of one read. -/

namespace Dicker.Server
open Lib

/-- `between` holds what its last `read_exact` returned. -/
inductive ConsumerThread where
  | notStarted
  | between (lastRead : Bool)
  | reading (r : Reader)
  | finished

/-- What the two threads share. `returned` and `lost` are the history of the calls that
returned true and false. -/
structure World where
  channel : ByteChannel
  consumer : ConsumerThread
  resumePending : Bool
  closePending : Bool
  outboxPending : Bool
  outbox : Bytes
  returned : Bytes
  lost : Bytes

/-- `read_exact` up to its return or its next wait. -/
def World.ran (w : World) (r : Reader) : World :=
  let result := w.channel.readLoop r
  let w' := { w with channel := result.1, resumePending := w.resumePending || result.2.2 }
  if result.2.1.out.length < result.2.1.count then
    if result.1.closed then
      { w' with consumer := .between false, lost := w.lost ++ result.2.1.out }
    else { w' with consumer := .reading result.2.1 }
  else { w' with consumer := .between true, returned := w.returned ++ result.2.1.out }

/-- The consumer thread; its last act is to signal `close_async_`. -/
inductive ConsumerStep (maxRead : ℕ) : World → World → Prop
  | call (w : World) (lastRead : Bool) (count : ℕ) (hw : w.consumer = .between lastRead)
      (hcount : count ≤ maxRead) :
      ConsumerStep maxRead w { w with consumer := .reading (Reader.start count) }
  | run (w : World) (r : Reader) (hw : w.consumer = .reading r) : ConsumerStep maxRead w (w.ran r)
  | post (w : World) (lastRead : Bool) (data : Bytes) (hw : w.consumer = .between lastRead) :
      ConsumerStep maxRead w { w with outbox := w.outbox ++ data, outboxPending := true }
  | finish (w : World) (lastRead : Bool) (hw : w.consumer = .between lastRead) :
      ConsumerStep maxRead w { w with consumer := .finished, closePending := true }

/-- What libuv calls back for. A segment comes with the answers wolfSSL will give on it. -/
inductive Callback where
  | read (data : Bytes) (answers : List SslAnswer)
  | readError
  | written (request : WriteRequest) (failed : Bool)
  | resume
  | close
  | outbox
  | handleClosed (handle : Handle)

abbrev LoopRun := Loop LoopState LoopOp LoopOp.Ans World

abbrev LoopHost := Host LoopState LoopOp LoopOp.Ans World Callback

abbrev LoopCond := (op : LoopOp) → LoopState → op.Ans → Prop

namespace Runtime

def allowed : (op : LoopOp) → LoopState → World → op.Ans → Prop
  | .isClosing handle, s, _, a => a = decide (s.uv.handles handle ≠ .opened)
  | .bufferedBytes, _, w, a => a = w.channel.buffered
  | .takeOutbox, _, w, a => a = w.outbox
  -- the loop thread waits here for the other one
  | .joinConsumer, _, w, _ => w.consumer = .finished
  | _, _, _, _ => True

def uvOwn : (op : LoopOp) → op.Ans → Uv → Uv
  | .readStart, _, u => { u with reading := decide (u.handles .tcp = .opened) }
  | .readStop, _, u => { u with reading := false }
  | .write request, taken, u => if taken then { u with writes := u.writes ++ [request] } else u
  | .close handle, _, u =>
    { u with
      handles := Function.update u.handles handle .closing
      reading := u.reading && handle != .tcp }
  | .push data, _, u =>
    if u.channelClosed then u else { u with pushed := u.pushed ++ data, look := .due }
  | .closeChannel, _, u => { u with channelClosed := true }
  | .bufferedBytes, buffered, u => { u with look := .seen buffered }
  | _, _, u => u

def own (op : LoopOp) (a : op.Ans) (s : LoopState) : LoopState :=
  { s with uv := { uvOwn op a s.uv with log := s.uv.log ++ [op] } }

theorem own_push {s : LoopState} (h : s.uv.channelClosed = false) (data : Bytes) :
    own (.push data) () s = { s with uv := { s.uv with
      pushed := s.uv.pushed ++ data
      look := .due
      log := s.uv.log ++ [.push data] } } := by
  simp only [own, uvOwn, h, Bool.false_eq_true, if_false]

def shared : (op : LoopOp) → op.Ans → World → World
  | .push data, _, w => { w with channel := w.channel.push data }
  | .closeChannel, _, w => { w with channel := w.channel.close }
  | .startConsumer, _, w => { w with consumer := .between true }
  | .takeOutbox, _, w => { w with outbox := [] }
  | _, _, w => w

/-- Nothing is read from a stopped or closing stream, an async handle calls back only while
it is open, and a handle is closed once its writes have been called back. -/
def fires : Callback → LoopState → World → Prop
  | .read data _, s, _ => s.uv.reading = true ∧ s.uv.handles .tcp = .opened ∧ data ≠ []
  | .readError, s, _ => s.uv.reading = true ∧ s.uv.handles .tcp = .opened
  | .written request _, s, _ => request ∈ s.uv.writes
  | .resume, s, w => w.resumePending = true ∧ s.uv.handles .resumeAsync = .opened
  | .close, s, w => w.closePending = true ∧ s.uv.handles .closeAsync = .opened
  | .outbox, s, w => w.outboxPending = true ∧ s.uv.handles .outboxAsync = .opened
  | .handleClosed handle, s, _ =>
    s.uv.handles handle = .closing ∧ (handle = .tcp → s.uv.writes = [])

def uvTakes : Callback → Uv → Uv
  | .read data _, u => { u with received := u.received ++ data }
  | .readError, u => { u with reading := false }
  | .written request _, u => { u with writes := u.writes.erase request }
  | .handleClosed handle, u => { u with handles := Function.update u.handles handle .closed }
  | _, u => u

def isResume : Callback → Bool
  | .resume => true
  | _ => false

def takes (e : Callback) (s : LoopState) : LoopState :=
  { s with uv := { uvTakes e s.uv with look := .untouched, resuming := isResume e } }

def clears : Callback → World → World
  | .resume, w => { w with resumePending := false }
  | .close, w => { w with closePending := false }
  | .outbox, w => { w with outboxPending := false }
  | _, w => w

def handler (config : ServerConfig) : Callback → LoopM Unit
  | .read data answers => Connection.handleRaw config data answers
  | .readError => Connection.beginTeardown
  | .written request failed => Connection.onWrite failed request.callback
  | .resume => Connection.onResumeAsync
  | .close => Connection.onCloseAsync
  | .outbox => Connection.onOutboxAsync
  | .handleClosed _ => Connection.onHandleClosed

def host (config : ServerConfig) (maxRead : ℕ) : LoopHost where
  allowed := allowed
  own := own
  shared := shared
  fires := fires
  takes := takes
  clears := clears
  handler := handler config
  others := ConsumerStep maxRead

def freshUv : Uv := ⟨false, [], fun _ => .opened, [], [], [], false, .untouched, false, 0, [], []⟩

def freshWorld (config : ServerConfig) : World :=
  ⟨.create config.channelLowWater, .notStarted, false, false, false, [], [], []⟩

def init (config : ServerConfig) : LoopRun :=
  ⟨some Connection.accept, ⟨.fresh, freshUv⟩, freshWorld config⟩

def Reaches (config : ServerConfig) (maxRead : ℕ) : LoopRun → LoopRun → Prop :=
  Relation.ReflTransGen (host config maxRead).Step

/-- The runtime on the runs whose answers satisfy `cond`. -/
abbrev hostIf (config : ServerConfig) (maxRead : ℕ) (cond : LoopCond) : LoopHost :=
  (host config maxRead).restrict cond

theorem Reaches.restrict {config : ServerConfig} {maxRead : ℕ} {c c' : LoopRun}
    (h : Reaches config maxRead c c') :
    Relation.ReflTransGen (hostIf config maxRead fun _ _ _ => True).Step c c' :=
  Relation.ReflTransGen.mono
    (fun _ _ (hs : (host config maxRead).Step _ _) => hs.restrict fun _ _ _ => trivial) c c' h

end Runtime
end Dicker.Server
