import Xv6.Lib.Count
import Xv6.Lib.Run
import Xv6.Log.Crash

/-!
# Operations on the log

File-system operations by `n` processes, each of the form `begin_op`, any number of writes, `end_op`. A write is `bread`, a change of
the block and `log_write`, with the buffer locked. The last `end_op` commits, one disk write at a time.

`past` and `cur` are histories: the writes of the committed groups of operations, and those since the last commit, in the order of
`log_write`. `bs` and `fresh` say which blocks an operation has logged, and how many of them it has added to the header.
-/

namespace Xv6.Log

open Function (update)
open Run
open Bytes (Mem)

abbrev MAXOPBLOCKS : Nat := 10
abbrev LOGSIZE : Nat := MAXOPBLOCKS * 3

structure Write where
  op : Nat
  b : Nat
  v : Mem

inductive Pc where
  | idle
  | inOp (op : Nat) (bs : List Nat) (fresh : Nat)
  /-- In `commit`, with these writes left. -/
  | commit (ws : Writes)

structure State (n : Nat) where
  disk : Nat → Mem
  /-- The blocks as the buffer cache shows them. -/
  cache : Nat → Mem
  /-- `log.lh.block[0], …, log.lh.block[log.lh.n-1]`. -/
  block : List Nat
  outstanding : Nat
  committing : Bool
  pc : Fin n → Pc
  nextOp : Nat
  past : List (List Write)
  cur : List Write

variable {n : Nat}

/-- Log absorption: the blocks of the header when `b` is logged. -/
def absorb (b : Nat) (block : List Nat) : List Nat := if b ∈ block then block else block ++ [b]

namespace State

variable (s : State n) (start : Nat) (p : Fin n)

def beginOp : Except Stop (State n) :=
  match s.pc p with
  | .idle =>
    if s.committing then .error .blocked
    -- this op might exhaust log space; wait for commit
    else if s.block.length + (s.outstanding + 1) * MAXOPBLOCKS > LOGSIZE then .error .blocked
    else .ok { s with outstanding := s.outstanding + 1, pc := update s.pc p (.inOp s.nextOp [] 0), nextOp := s.nextOp + 1 }
  | _ => .error .blocked

/-- Change the home block `b` to `v` and log it; `log.size` is `sb.nlog`, that is `LOGSIZE`. -/
def logWrite (b : Nat) (v : Mem) : Except Stop (State n) :=
  match s.pc p with
  | .inOp op bs fresh =>
    if ¬(Outside start LOGSIZE b ∧ b < 2 ^ 32) then .error .blocked
    else if s.block.length ≥ LOGSIZE ∨ s.block.length ≥ LOGSIZE - 1 then .error (.panic "too big a transaction")
    else if s.outstanding < 1 then .error (.panic "log_write outside of trans")
    else .ok { s with
      cache := update s.cache b v
      block := absorb b s.block
      pc := update s.pc p (.inOp op (b :: bs) (if b ∈ s.block then fresh else fresh + 1))
      cur := s.cur ++ [⟨op, b, v⟩] }
  | _ => .error .blocked

def endOp : Except Stop (State n) :=
  match s.pc p with
  | .inOp _ _ _ =>
    if s.committing then .error (.panic "log.committing")
    else if s.outstanding - 1 = 0 then
      .ok { s with outstanding := 0, committing := true, pc := update s.pc p (.commit (commit s.disk s.cache start s.block)) }
    else .ok { s with outstanding := s.outstanding - 1, pc := update s.pc p .idle }
  | _ => .error .blocked

def commitStep : Except Stop (State n) :=
  match s.pc p with
  | .commit (w :: ws) => .ok { s with disk := update s.disk w.1 w.2, pc := update s.pc p (.commit ws) }
  | .commit [] =>
    .ok { s with block := [], committing := false, pc := update s.pc p .idle, past := s.past ++ [s.cur], cur := [] }
  | _ => .error .blocked

end State

inductive Event (n : Nat) where
  | beginOp (p : Fin n)
  | logWrite (p : Fin n) (b : Nat) (v : Mem)
  | endOp (p : Fin n)
  | commitStep (p : Fin n)

def next (start : Nat) (s : State n) : Event n → Except Stop (State n)
  | .beginOp p => s.beginOp p
  | .logWrite p b v => s.logWrite start p b v
  | .endOp p => s.endOp start p
  | .commitStep p => s.commitStep p

/-- After recovery: the log is empty and the cache shows the disk. -/
structure Start (start : Nat) (s : State n) : Prop where
  head : headN (s.disk start) = 0
  cache : s.cache = s.disk
  block : s.block = []
  outstanding : s.outstanding = 0
  committing : s.committing = false
  pc : ∀ p, s.pc p = .idle
  past : s.past = []
  cur : s.cur = []

end Xv6.Log
