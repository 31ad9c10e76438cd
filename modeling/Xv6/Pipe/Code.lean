import Xv6.Lib.RingBuf
import Xv6.Lib.Run

/-!
# Pipes (`pipe.c`)

`pipewrite`, `piperead` and `pipeclose` on one pipe by `n` processes, with the parts of `sleep`, `wakeup` and `kill` that they depend
on. A process in a call has a program counter (`Pc`); `step` runs it to its next point of interest. Apart from `killed`, which is
read once in each round of a loop, a process with `pi->lock` works on fields that the lock protects; so a round is one step.
`sleep` takes `p->lock` before it releases `pi->lock` and gives it up when the process is `SLEEPING`: in between, the process
is `falling` and a `wakeup` or `kill` has to wait.
-/

namespace Xv6.Pipe

open Run

abbrev PIPESIZE : Nat := 512

/-- `struct pipe`, without its lock. -/
structure Buf where
  data : Nat → UInt8
  /-- number of bytes read -/
  nread : BitVec 32
  /-- number of bytes written -/
  nwrite : BitVec 32
  /-- read fd is still open -/
  readopen : Bool
  /-- write fd is still open -/
  writeopen : Bool

/-- `pi->data[pi->nwrite++ % PIPESIZE] = ch`. -/
def Buf.put (b : Buf) (ch : UInt8) : Buf :=
  { b with data := Function.update b.data (b.nwrite.toNat % PIPESIZE) ch, nwrite := b.nwrite + 1 }

/-- What `pi->data[pi->nread++ % PIPESIZE]` does to the pipe. -/
def Buf.take (b : Buf) : Buf := { b with nread := b.nread + 1 }

/-- The channels that processes sleep on: `&pi->nread` and `&pi->nwrite`. -/
inductive Chan where
  | nread
  | nwrite
  deriving DecidableEq

/-- A process: it runs (or could run), is about to sleep, or sleeps. -/
inductive RunState where
  | awake
  | falling (c : Chan)
  | SLEEPING (c : Chan)
  deriving DecidableEq

/-- A call of `pipewrite` with the argument `n`; `src i` is what `copyin` finds at `addr + i`. -/
structure WriteCall where
  src : Nat → Option UInt8
  n : Int

/-- A call of `piperead` with the argument `n`; `dst i` says whether `copyout` to `addr + i` succeeds. -/
structure ReadCall where
  dst : Nat → Bool
  n : Int

/-- Where a process is in a call. `i` counts bytes as in the source and `k` is the index of a loop of `wakeup`. -/
inductive Pc where
  /-- Not in a call on this pipe. -/
  | user
  /-- At `acquire(&pi->lock)`, at the start of `pipewrite` or at the end of `sleep`. -/
  | wAcquire (c : WriteCall) (i : Nat)
  /-- At the head of the loop of `pipewrite`; `i0` is the value of `i` when the lock was acquired. -/
  | wLoop (c : WriteCall) (i0 i : Nat)
  /-- In `wakeup(&pi->nread)`, with the pipe full. -/
  | wFull (c : WriteCall) (i k : Nat)
  /-- In `wakeup(&pi->nread)`, after the loop. -/
  | wDone (i k : Nat)
  | rAcquire (c : ReadCall)
  /-- At the head of the first loop of `piperead`. -/
  | rWait (c : ReadCall)
  /-- At the head of the second loop; `got` are the bytes copied out so far. -/
  | rLoop (c : ReadCall) (i : Nat) (got : List UInt8)
  /-- In `wakeup(&pi->nwrite)`. -/
  | rDone (got : List UInt8) (k : Nat)
  | cAcquire (writable : Bool)
  /-- In the `wakeup` of `pipeclose`. -/
  | cWake (writable : Bool) (k : Nat)

structure Task where
  pc : Pc
  state : RunState
  killed : Bool

/-- The pipe, its lock and the processes. The last three fields are histories that no code reads. -/
structure State (n : Nat) where
  buf : Buf
  lock : Option (Fin n)
  task : Fin n → Task
  /-- The bytes put into `data[]`. -/
  written : List UInt8
  /-- The bytes taken out of `data[]`. -/
  taken : List UInt8
  /-- The bytes that `piperead` has reported as read. -/
  reported : List UInt8

variable {n : Nat}

def State.set (s : State n) (p : Fin n) (t : Task) : State n := { s with task := Function.update s.task p t }

def State.goto (s : State n) (p : Fin n) (pc : Pc) : State n := s.set p { s.task p with pc := pc }

def State.leave (s : State n) (p : Fin n) : State n := { s.goto p .user with lock := none }

/-- `sleep(chan, &pi->lock)`, up to the point where `pi->lock` is released; `pc` is where the process goes on. -/
def State.sleep (s : State n) (p : Fin n) (c : Chan) (pc : Pc) : State n :=
  { s.set p { s.task p with pc := pc, state := .falling c } with lock := none }

def State.acquire (s : State n) (p : Fin n) (pc : Pc) : Except Stop (State n) :=
  match s.lock with
  | none => .ok { s.goto p pc with lock := some p }
  | some _ => .error .blocked

def State.wake (s : State n) (c : Chan) (q : Fin n) : State n :=
  if (s.task q).state = .SLEEPING c then s.set q { s.task q with state := .awake } else s

/-- A round of the loop of `wakeup(chan)` by process `p`, which skips itself and waits for a process that holds its own lock
on its way to sleep. `next` is where the loop goes on, and `fin` the state after it. -/
def State.wakeup (s : State n) (p : Fin n) (c : Chan) (k : Nat) (next : Nat → Pc) (fin : State n) : Except Stop (State n) :=
  if h : k < n then
    if (⟨k, h⟩ : Fin n) = p then .ok (s.goto p (next (k + 1)))
    else
      match (s.task ⟨k, h⟩).state with
      | .falling _ => .error .blocked
      | _ => .ok ((s.wake c ⟨k, h⟩).goto p (next (k + 1)))
  else .ok fin

def State.pipewriteLoop (s : State n) (p : Fin n) (c : WriteCall) (i0 i : Nat) : State n :=
  if (i : Int) < c.n then
    if !s.buf.readopen || (s.task p).killed then s.leave p
    else if s.buf.nwrite = s.buf.nread + BitVec.ofNat 32 PIPESIZE then s.goto p (.wFull c i 0)
    else
      match c.src i with
      | none => s.goto p (.wDone i 0)
      | some ch =>
        { s.goto p (.wLoop c i0 (i + 1)) with
          buf := s.buf.put ch
          written := s.written ++ [ch] }
  else s.goto p (.wDone i 0)

def State.pipereadWait (s : State n) (p : Fin n) (c : ReadCall) : State n :=
  if s.buf.nread = s.buf.nwrite ∧ s.buf.writeopen = true then
    if (s.task p).killed then s.leave p else s.sleep p .nread (.rAcquire c)
  else s.goto p (.rLoop c 0 [])

def State.pipereadLoop (s : State n) (p : Fin n) (c : ReadCall) (i : Nat) (got : List UInt8) : State n :=
  if (i : Int) < c.n then
    if s.buf.nread = s.buf.nwrite then s.goto p (.rDone got 0)
    else
      let ch := s.buf.data (s.buf.nread.toNat % PIPESIZE)
      { s.goto p (if c.dst i then .rLoop c (i + 1) (got ++ [ch]) else .rDone got 0) with
        buf := s.buf.take
        taken := s.taken ++ [ch] }
  else s.goto p (.rDone got 0)

/-- The first part of `pipeclose`, with the lock just acquired. -/
def State.pipecloseFlag (s : State n) (writable : Bool) : State n :=
  { s with buf := if writable then { s.buf with writeopen := false } else { s.buf with readopen := false } }

def closeChan (writable : Bool) : Chan := if writable then .nread else .nwrite

def State.step (s : State n) (p : Fin n) : Except Stop (State n) :=
  match (s.task p).state with
  | .falling c => .ok (s.set p { s.task p with state := .SLEEPING c })
  | .SLEEPING _ => .error .blocked
  | .awake =>
    match (s.task p).pc with
    | .user => .error .blocked
    | .wAcquire c i => s.acquire p (.wLoop c i i)
    | .wLoop c i0 i => .ok (s.pipewriteLoop p c i0 i)
    | .wFull c i k => s.wakeup p .nread k (.wFull c i) (s.sleep p .nwrite (.wAcquire c i))
    | .wDone i k => s.wakeup p .nread k (.wDone i) (s.leave p)
    | .rAcquire c => s.acquire p (.rWait c)
    | .rWait c => .ok (s.pipereadWait p c)
    | .rLoop c i got => .ok (s.pipereadLoop p c i got)
    | .rDone got k => s.wakeup p .nwrite k (.rDone got)
        { s.leave p with reported := s.reported ++ got }
    | .cAcquire writable => (s.acquire p (.cWake writable 0)).map fun s => s.pipecloseFlag writable
    | .cWake writable k => s.wakeup p (closeChan writable) k (.cWake writable) (s.leave p)

inductive Event (n : Nat) where
  | write (p : Fin n) (c : WriteCall)
  | read (p : Fin n) (c : ReadCall)
  | close (p : Fin n) (writable : Bool)
  | step (p : Fin n)
  | kill (p : Fin n)
  /-- The slot is reused for a new process, which is not killed. -/
  | reuse (p : Fin n)

def State.call (s : State n) (p : Fin n) (pc : Pc) : Except Stop (State n) :=
  match (s.task p).pc with
  | .user => .ok (s.goto p pc)
  | _ => .error .blocked

def State.next (s : State n) : Event n → Except Stop (State n)
  | .write p c => s.call p (.wAcquire c 0)
  | .read p c => s.call p (.rAcquire c)
  | .close p writable => s.call p (.cAcquire writable)
  | .step p => s.step p
  | .kill p =>
    match (s.task p).state with
    | .falling _ => .error .blocked
    | _ => .ok (s.set p { s.task p with killed := true, state := .awake })
  | .reuse p =>
    match (s.task p).pc with
    | .user => .ok (s.set p { s.task p with killed := false })
    | _ => .error .blocked

/-- After `pipealloc`. The data is what the page held. -/
def init (n : Nat) (data : Nat → UInt8) : State n where
  buf := ⟨data, 0, 0, true, true⟩
  lock := none
  task := fun _ => ⟨.user, .awake, false⟩
  written := []
  taken := []
  reported := []

def steps (p : Fin n) (k : Nat) : List (Event n) := List.replicate k (.step p)

end Xv6.Pipe
