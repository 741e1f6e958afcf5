import Dicker.Shared.Protocol

/-! The client's unit of work (client/task.h). -/

namespace Dicker.Client

def PATH_CAP : ℕ := 256

/-- The `char pathname[PATH_CAP]` of a task, up to its terminator. -/
structure Pathname where
  bytes : Bytes
  length_lt : bytes.length < PATH_CAP
  terminated : (0 : UInt8) ∉ bytes

/-- `strncpy` of at most `PATH_CAP - 1` characters, then the terminator. -/
def Pathname.copy (path : Bytes) : Pathname where
  bytes := (path.takeWhile (· ≠ 0)).take (PATH_CAP - 1)
  length_lt := by
    rw [List.length_take]
    exact (Nat.min_le_left _ _).trans_lt (by decide)
  terminated := by
    intro h
    have hne := List.mem_takeWhile_imp (List.mem_of_mem_take h)
    simp at hne

theorem Pathname.copy_bytes {path : Bytes} (hlen : path.length < PATH_CAP)
    (hnul : (0 : UInt8) ∉ path) : (Pathname.copy path).bytes = path := by
  have htake : path.takeWhile (· ≠ 0) = path := by
    rw [List.takeWhile_eq_self_iff]
    intro c hc
    exact decide_eq_true (ne_of_mem_of_not_mem hc hnul)
  change (path.takeWhile (· ≠ 0)).take (PATH_CAP - 1) = path
  rw [htake, List.take_of_length_le (Nat.le_sub_one_of_lt hlen)]

structure Task where
  type : UnitType
  pathname : Pathname
  offset : UInt64
  length : UInt64
  fileSize : UInt64
  mtime : Int64

/-- The constructor of `WorkerTask`. -/
def workerTask (type : UnitType) (path : Bytes) (offset length fileSize : UInt64)
    (mtime : Int64) : Task :=
  ⟨type, Pathname.copy path, offset, length, fileSize, mtime⟩

end Dicker.Client
