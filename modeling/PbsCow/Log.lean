import PbsCow.BufCache

namespace PbsCow.Log
open Bcache (MAXOPBLOCKS LOGSIZE)
set_option autoImplicit true

/-- `struct log` in memory; `block` has the first `lh.n` entries of `lh.block`. -/
structure State where
  size : Int
  outstanding : Int
  committing : Bool
  block : List Nat

inductive Panic where
  | tooBigATransaction
  | outsideOfTrans
  | committing

abbrev Sys := StateT State (Except Panic)

/-- One turn of the loop of `begin_op`; the result says whether the operation may begin. -/
def beginOp : Sys Bool := do
  let log ← get
  if log.committing then return false
  if log.block.length + (log.outstanding + 1) * MAXOPBLOCKS > LOGSIZE then return false
  set { log with outstanding := log.outstanding + 1 }
  return true

/-- `end_op` up to the commit; the result is `do_commit`. -/
def endOp : Sys Bool := do
  modify fun log => { log with outstanding := log.outstanding - 1 }
  let log ← get
  if log.committing then throw .committing
  if log.outstanding = 0 then
    set { log with committing := true }
    return true
  return false

/-- `commit`, which leaves the log empty. -/
def commit : Sys Unit := modify fun log => { log with block := [] }

/-- The rest of `end_op`. -/
def endCommit : Sys Unit := modify fun log => { log with committing := false }

def logWrite (blockno : Nat) : Sys Unit := do
  let log ← get
  if LOGSIZE ≤ log.block.length ∨ log.size - 1 ≤ log.block.length then throw .tooBigATransaction
  if log.outstanding < 1 then throw .outsideOfTrans
  if blockno ∉ log.block then
    set { log with block := log.block ++ [blockno] }

end PbsCow.Log
