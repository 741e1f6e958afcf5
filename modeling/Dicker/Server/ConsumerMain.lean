import Dicker.Lib.Resumable
import Dicker.Server.Receiver

/-! What the consumer thread runs: `consumer_main` and behind it `handle_upload`
(server/connection.cxx), on the connection's own decompressor and sink. -/

namespace Dicker.Server
open Lib Program

/-- `Connection::consumer_main` up to `handle_upload`. -/
def consumerMain {D : Type} (c : Consumer D) : Consume (Next (Head D) (Consumer D)) := do
  let some cmd ← readExact 1 | return .done c
  if cmd.getD 0 0 = Cmd.upload.toByte then
    return .again (.unit c)
  else
    return .done c

structure Backend where
  dec : StreamDecompressor
  xxh64 : Bytes → UInt64
  Store : Type
  handle : (op : Op) → Store → op.Ans × Store
  decompressor : dec.State
  store : Store

namespace Backend

abbrev Code (b : Backend) : Type := Consume (Next (Head b.dec.State) (Consumer b.dec.State))

abbrev Thread (b : Backend) : Type :=
  Process Op Op.Ans b.Store (Next (Head b.dec.State) (Consumer b.dec.State))

abbrev End (b : Backend) : Type := Outcome b.Store Op Op.Ans (Consumer b.dec.State)

abbrev machine (b : Backend) : Machine Op Op.Ans (Head b.dec.State) (Consumer b.dec.State) :=
  handleUpload b.dec b.xxh64

def main (b : Backend) (mode : UInt8) (integrityChecks : Bool) : b.Thread :=
  ⟨consumerMain (Consumer.start mode integrityChecks b.decompressor), b.store, []⟩

def sequential (b : Backend) (mode : UInt8) (integrityChecks : Bool) (xs : Bytes) : b.End :=
  b.machine.conclude b.handle (b.main mode integrityChecks) xs

end Backend

end Dicker.Server
