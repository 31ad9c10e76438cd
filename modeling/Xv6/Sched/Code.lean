import Xv6.Lib.Run
import Xv6.Proc.Code

/-!
# Scheduling (`proc.c`, `swtch.S`)

Processes, the scheduler threads of the CPUs and the locks between them, in atomic steps: an `acquire`, a `release`, a change of
the process table under the lock that protects it, and the two halves of `swtch`. A kernel thread is a process in the kernel, or
the scheduler of a CPU; `Pos` lists the points between the steps of their code.

Of the code that calls `sleep` and `wakeup`, `wait` and `exit` are given; any other kernel code appears as the steps that it can
make: it takes and releases spinlocks, sleeps and wakes up. Interrupt handlers do the same, on a process outside of the calls given
here or on an idle scheduler. Process numbers do not wrap.

Some histories stand beside the fields of the source: the time, when a thread acquired a lock last, whether a process has been made
`RUNNABLE` since it called `sleep`, when and by whom it was made, its exit status, and the children that `wait` has freed.
-/

namespace Xv6.Sched

open Function (update)
open Run

/-- The spinlocks other than `p->lock`. -/
inductive Lk where
  | wait
  | other (a : Nat)
  deriving DecidableEq

inductive Lock (n : Nat) where
  | proc (p : Fin n)
  | lk (l : Lk)
  deriving DecidableEq

inductive Chan (n : Nat) where
  | proc (p : Fin n)
  | other (a : Nat)
  deriving DecidableEq

inductive Thr (n m : Nat) where
  | proc (p : Fin n)
  | cpu (c : Fin m)
  deriving DecidableEq

/-- `struct proc`; a null pointer is 0 or `none`. -/
structure Proc (n : Nat) where
  state : ProcState := .UNUSED
  chan : Option (Chan n) := none
  killed : Bool := false
  xstate : Int := 0
  pid : Int := 0
  parent : Option (Fin n) := none
  sz : Nat := 0
  pagetable : Nat := 0
  trapframe : Nat := 0
  /-- The process has been made `RUNNABLE` since it called `sleep`. -/
  woken : Bool := false
  /-- When the process was made. -/
  born : Nat := 0
  /-- Who made it. -/
  forker : Option (Fin n) := none
  /-- The argument of its `exit`. -/
  status : Option Int := none

def Proc.freed {n : Nat} (x : Proc n) : Proc n :=
  { x with trapframe := 0, pagetable := 0, sz := 0, pid := 0, parent := none, chan := none, killed := false, xstate := 0,
           state := .UNUSED }

/-- A call of `sleep`: its arguments, the other locks that the caller holds, when it was called, and the argument of the `wait`
it was called from. -/
structure Sleep (n : Nat) where
  chan : Chan n
  lk : Lk
  rest : List Nat
  since : Nat
  inWait : Option Nat

inductive SleepStage where
  | lock | release | set | sched | wake | unlock | relock | ret
  deriving DecidableEq

inductive YieldStage where
  | lock | set | sched | unlock
  deriving DecidableEq

/-- Where a call of `wakeup` returns to. -/
inductive Ret where
  | kern (held : List Nat)
  | reparent (i : Nat) (status : Int)
  | exit (status : Int)

inductive Pos (n : Nat) where
  /-- Other code, in the kernel with some locks held or in user space. -/
  | kern (held : List Nat)
  -- `wakeup`; `start` is when it was called
  | wakeup (chan : Chan n) (i : Nat) (start : Nat) (ret : Ret)
  | wakeupTest (chan : Chan n) (q : Fin n) (start : Nat) (ret : Ret)
  | wakeupUnlock (chan : Chan n) (q : Fin n) (start : Nat) (ret : Ret)
  | sleep (stage : SleepStage) (x : Sleep n)
  | yield (stage : YieldStage)
  | forkret
  | kill (pid : Int) (i : Nat)
  | killTest (pid : Int) (q : Fin n)
  | killUnlock (pid : Int) (q : Fin n) (found : Bool)
  -- `fork`, with `allocproc`
  | allocproc (i : Nat)
  | allocTest (q : Fin n)
  | allocSkip (q : Fin n)
  | allocMem (q : Fin n)
  | allocContext (q : Fin n)
  | forkCopy (q : Fin n)
  | forkFree (q : Fin n)
  | forkFreed (q : Fin n)
  | forkUnlock (q : Fin n)
  | forkWait (q : Fin n)
  | forkParent (q : Fin n)
  | forkWaitUnlock (q : Fin n)
  | forkLock (q : Fin n)
  | forkRun (q : Fin n)
  | forkDone (q : Fin n)
  -- `exit`
  | exitWait (status : Int)
  | reparent (i : Nat) (status : Int)
  | exitLock (status : Int)
  | exitSet (status : Int)
  | exitUnlock
  | exitSched
  | zombie
  -- `wait`
  | waitLock (addr : Nat)
  | waitScan (i : Nat) (havekids : Bool) (addr : Nat)
  | waitTest (q : Fin n) (addr : Nat)
  | waitUnlock (q : Fin n) (addr : Nat)
  | waitFail (q : Fin n)
  | waitFree (q : Fin n) (pid : Int) (stored : Nat × Option Int)
  | waitFreed (q : Fin n) (pid : Int)
  | waitNone
  | waitKilled (addr : Nat)
  | waitKilledRead (addr : Nat)
  | waitKilledUnlock (addr : Nat) (k : Bool)
  | waitSleep (addr : Nat)
  | waitReturn (r : Int)
  -- `scheduler`
  | schedScan (i : Nat)
  | schedTest (q : Fin n)
  | schedSet (q : Fin n)
  | schedSwtch (q : Fin n)
  | schedBack (q : Fin n)
  | schedUnlock (q : Fin n)

/-- A child that a call of `wait` has freed: the entry before `freeproc`, what `wait` returns, its argument and what it has stored
there. -/
structure Reap (n : Nat) where
  waiter : Option (Fin n)
  child : Proc n
  pid : Int
  stored : Nat × Option Int

structure State (n m : Nat) where
  proc : Fin n → Proc n
  initproc : Fin n
  nextpid : Int
  /-- The holders of the locks. -/
  lock : Lock n → Option (Fin m)
  /-- `c->proc`. -/
  cproc : Fin m → Option (Fin n)
  /-- The thread that a CPU executes; with `true`, the CPU is in `swtch` and is going to load the context of that thread. -/
  cur : Fin m → Thr n m × Bool
  /-- Where a thread is; for one that is not executed, the point that its context leads to. -/
  pos : Thr n m → Pos n
  /-- The context is completely saved. -/
  saved : Thr n m → Bool
  now : Nat
  acqAt : Thr n m → Lk → Nat
  reaps : List (Reap n)

variable {n m : Nat}

/-! ### The code -/

/-- What the environment decides at a step: which call a thread makes, and whether memory operations succeed. -/
inductive Choice (n : Nat) where
  | go
  | acquire (a : Nat)
  | release (a : Nat)
  | wakeup (chan : Chan n)
  | sleep (chan : Chan n) (a : Nat)
  | yield
  | fork
  | exit (status : Int)
  | wait (addr : Nat)
  | kill (pid : Int)
  | exec (pagetable sz : Nat)
  /-- An interrupt on an idle CPU, and the return from it. -/
  | intr
  | iret (i : Nat)
  /-- What `kalloc` and `proc_pagetable` return in `allocproc`. -/
  | mem (trapframe pagetable : Nat)
  /-- Whether a copy succeeds. -/
  | copy (ok : Bool)

/-- What a step of a thread does; the thread goes on at the point given. -/
inductive Effect (n m : Nat) where
  | tau (next : Pos n)
  | acquire (l : Lock n) (next : Pos n)
  | release (l : Lock n) (next : Pos n)
  | set (q : Fin n) (x : Proc n) (next : Pos n)
  /-- `allocpid`, and the slot is taken. -/
  | alloc (q : Fin n) (next : Pos n)
  /-- The context of a new process is set to `forkret`. -/
  | context (q : Fin n) (next : Pos n)
  | reap (q : Fin n) (pid : Int) (stored : Nat × Option Int) (next : Pos n)
  | setCpu (v : Option (Fin n)) (next : Pos n)
  | toProc (q : Fin n) (next : Pos n)
  | toSched (next : Pos n)
  | blocked
  | panic (msg : String)

def Ret.next : Ret → Pos n
  | .kern held => .kern held
  | .reparent i status => .reparent i status
  | .exit status => .exitLock status

/-- The code of a thread on a CPU with `c->proc = me`. -/
def code (s : State n m) (me : Option (Fin n)) (ch : Choice n) : Pos n → Effect n m
  | .kern held =>
    match ch, me with
    | .acquire a, _ => .acquire (.lk (.other a)) (.kern (a :: held))
    | .release a, _ => if a ∈ held then .release (.lk (.other a)) (.kern (held.filter (· ≠ a))) else .blocked
    | .wakeup chan, _ => .tau (.wakeup chan 0 s.now (.kern held))
    | .sleep chan a, some p =>
      if a ∈ held then
        .set p { s.proc p with woken := false } (.sleep .lock ⟨chan, .other a, held.filter (· ≠ a), s.now, none⟩)
      else .blocked
    | .iret i, none => if held = [] then .tau (.schedScan i) else .blocked
    | .yield, some _ => if held = [] then .tau (.yield .lock) else .blocked
    | .fork, some _ => if held = [] then .tau (.allocproc 0) else .blocked
    | .exit status, some p =>
      if held = [] then
        if p = s.initproc then .panic "init exiting"
        else .set p { s.proc p with status := some status } (.exitWait status)
      else .blocked
    | .wait addr, some _ => if held = [] then .tau (.waitLock addr) else .blocked
    | .kill pid, some _ => if held = [] then .tau (.kill pid 0) else .blocked
    | .exec pagetable sz, some p =>
      if held = [] then .set p { s.proc p with pagetable := pagetable, sz := sz } (.kern []) else .blocked
    | _, _ => .blocked
  | .wakeup chan i start ret =>
    if h : i < n then
      if me = some ⟨i, h⟩ then .tau (.wakeup chan (i + 1) start ret)
      else .acquire (.proc ⟨i, h⟩) (.wakeupTest chan ⟨i, h⟩ start ret)
    else .tau ret.next
  | .wakeupTest chan q start ret =>
    if (s.proc q).state = .SLEEPING ∧ (s.proc q).chan = some chan then
      .set q { s.proc q with state := .RUNNABLE, woken := true } (.wakeupUnlock chan q start ret)
    else .tau (.wakeupUnlock chan q start ret)
  | .wakeupUnlock chan q start ret => .release (.proc q) (.wakeup chan (q + 1) start ret)
  | .sleep stage x =>
    match stage, me with
    | .lock, some p => .acquire (.proc p) (.sleep .release x)
    | .release, some _ => .release (.lk x.lk) (.sleep .set x)
    | .set, some p => .set p { s.proc p with chan := some x.chan, state := .SLEEPING } (.sleep .sched x)
    | .sched, some _ => if x.rest = [] then .toSched (.sleep .wake x) else .panic "sched locks"
    | .wake, some p => .set p { s.proc p with chan := none } (.sleep .unlock x)
    | .unlock, some p => .release (.proc p) (.sleep .relock x)
    | .relock, some _ => .acquire (.lk x.lk) (.sleep .ret x)
    | .ret, some _ =>
      match x.inWait, x.lk with
      | some addr, .wait => .tau (.waitScan 0 false addr)
      | none, .other a => .tau (.kern [a])
      | _, _ => .blocked
    | _, none => .blocked
  | .yield stage =>
    match stage, me with
    | .lock, some p => .acquire (.proc p) (.yield .set)
    | .set, some p => .set p { s.proc p with state := .RUNNABLE } (.yield .sched)
    | .sched, some _ => .toSched (.yield .unlock)
    | .unlock, some p => .release (.proc p) (.kern [])
    | _, none => .blocked
  | .forkret =>
    match me with
    | some p => .release (.proc p) (.kern [])
    | none => .blocked
  | .kill pid i =>
    if h : i < n then .acquire (.proc ⟨i, h⟩) (.killTest pid ⟨i, h⟩) else .tau (.kern [])
  | .killTest pid q =>
    if (s.proc q).pid = pid then
      if (s.proc q).state = .SLEEPING then
        .set q { s.proc q with killed := true, state := .RUNNABLE, woken := true } (.killUnlock pid q true)
      else .set q { s.proc q with killed := true } (.killUnlock pid q true)
    else .tau (.killUnlock pid q false)
  | .killUnlock pid q found => .release (.proc q) (if found then .kern [] else .kill pid (q + 1))
  | .allocproc i =>
    if h : i < n then .acquire (.proc ⟨i, h⟩) (.allocTest ⟨i, h⟩) else .tau (.kern [])
  | .allocTest q => if (s.proc q).state = .UNUSED then .alloc q (.allocMem q) else .tau (.allocSkip q)
  | .allocSkip q => .release (.proc q) (.allocproc (q + 1))
  | .allocMem q =>
    match ch with
    | .mem trapframe pagetable =>
      if trapframe = 0 then .set q { s.proc q with trapframe := 0 } (.forkFree q)
      else .set q { s.proc q with trapframe := trapframe, pagetable := pagetable }
        (if pagetable = 0 then .forkFree q else .allocContext q)
    | _ => .blocked
  | .allocContext q => .context q (.forkCopy q)
  | .forkCopy q =>
    match ch, me with
    | .copy ok, some p =>
      if ok then .set q { s.proc q with sz := (s.proc p).sz, forker := some p } (.forkUnlock q) else .tau (.forkFree q)
    | _, _ => .blocked
  | .forkFree q => .set q (s.proc q).freed (.forkFreed q)
  | .forkFreed q => .release (.proc q) (.kern [])
  | .forkUnlock q => .release (.proc q) (.forkWait q)
  | .forkWait q => .acquire (.lk .wait) (.forkParent q)
  | .forkParent q =>
    match me with
    | some p => .set q { s.proc q with parent := some p } (.forkWaitUnlock q)
    | none => .blocked
  | .forkWaitUnlock q => .release (.lk .wait) (.forkLock q)
  | .forkLock q => .acquire (.proc q) (.forkRun q)
  | .forkRun q => .set q { s.proc q with state := .RUNNABLE } (.forkDone q)
  | .forkDone q => .release (.proc q) (.kern [])
  | .exitWait status => .acquire (.lk .wait) (.reparent 0 status)
  | .reparent i status =>
    match me with
    | some p =>
      if h : i < n then
        if (s.proc ⟨i, h⟩).parent = some p then
          .set ⟨i, h⟩ { s.proc ⟨i, h⟩ with parent := some s.initproc }
            (.wakeup (.proc s.initproc) 0 s.now (.reparent (i + 1) status))
        else .tau (.reparent (i + 1) status)
      else
        match (s.proc p).parent with
        | some r => .tau (.wakeup (.proc r) 0 s.now (.exit status))
        -- `wakeup(0)`: nobody sleeps on a null pointer
        | none => .tau (.exitLock status)
    | none => .blocked
  | .exitLock status =>
    match me with
    | some p => .acquire (.proc p) (.exitSet status)
    | none => .blocked
  | .exitSet status =>
    match me with
    | some p => .set p { s.proc p with xstate := status, state := .ZOMBIE } .exitUnlock
    | none => .blocked
  | .exitUnlock => .release (.lk .wait) .exitSched
  | .exitSched => .toSched .zombie
  | .zombie => .panic "zombie exit"
  | .waitLock addr => .acquire (.lk .wait) (.waitScan 0 false addr)
  | .waitScan i havekids addr =>
    if h : i < n then
      if (s.proc ⟨i, h⟩).parent = me then .acquire (.proc ⟨i, h⟩) (.waitTest ⟨i, h⟩ addr)
      else .tau (.waitScan (i + 1) havekids addr)
    else if havekids then .tau (.waitKilled addr) else .tau .waitNone
  | .waitTest q addr =>
    if (s.proc q).state = .ZOMBIE then
      match ch with
      | .copy ok =>
        if addr ≠ 0 ∧ ok = false then .tau (.waitFail q)
        else .tau (.waitFree q (s.proc q).pid (addr, if addr ≠ 0 then some (s.proc q).xstate else none))
      | _ => .blocked
    else .tau (.waitUnlock q addr)
  | .waitUnlock q addr => .release (.proc q) (.waitScan (q + 1) true addr)
  | .waitFail q => .release (.proc q) (.waitReturn (-1))
  | .waitFree q pid stored => .reap q pid stored (.waitFreed q pid)
  | .waitFreed q pid => .release (.proc q) (.waitReturn pid)
  | .waitNone => .tau (.waitReturn (-1))
  | .waitKilled addr =>
    match me with
    | some p => .acquire (.proc p) (.waitKilledRead addr)
    | none => .blocked
  | .waitKilledRead addr =>
    match me with
    | some p => .tau (.waitKilledUnlock addr (s.proc p).killed)
    | none => .blocked
  | .waitKilledUnlock addr k =>
    match me with
    | some p =>
      if k then .release (.proc p) (.waitReturn (-1)) else .release (.proc p) (.waitSleep addr)
    | none => .blocked
  | .waitSleep addr =>
    match me with
    | some p => .set p { s.proc p with woken := false } (.sleep .lock ⟨.proc p, .wait, [], s.now, some addr⟩)
    | none => .blocked
  | .waitReturn _ => .release (.lk .wait) (.kern [])
  | .schedScan i =>
    match ch with
    | .intr => .tau (.kern [])
    | _ => if h : i < n then .acquire (.proc ⟨i, h⟩) (.schedTest ⟨i, h⟩) else .tau (.schedScan 0)
  | .schedTest q =>
    if (s.proc q).state = .RUNNABLE then .set q { s.proc q with state := .RUNNING } (.schedSet q) else .tau (.schedUnlock q)
  | .schedSet q => .setCpu (some q) (.schedSwtch q)
  | .schedSwtch q => .toProc q (.schedBack q)
  | .schedBack q => .setCpu none (.schedUnlock q)
  | .schedUnlock q => .release (.proc q) (.schedScan (q + 1))

namespace State

variable (s : State n m)

def go (t : Thr n m) (P : Pos n) : State n m := { s with pos := update s.pos t P, now := s.now + 1 }

def setProc (q : Fin n) (x : Proc n) : State n m := { s with proc := update s.proc q x }

def setLock (l : Lock n) (v : Option (Fin m)) : State n m := { s with lock := update s.lock l v }

def noteAcquire (t : Thr n m) : Lock n → State n m
  | .lk l => { s with acqAt := update s.acqAt t (update (s.acqAt t) l s.now) }
  | .proc _ => s

def setContext (q : Fin n) : State n m :=
  { s with pos := update s.pos (.proc q) .forkret, saved := update s.saved (.proc q) true }

def save (c : Fin m) (t t' : Thr n m) : State n m :=
  { s with saved := update s.saved t true, cur := update s.cur c (t', true) }

def load (c : Fin m) (t : Thr n m) : State n m :=
  { s with saved := update s.saved t false, cur := update s.cur c (t, false), now := s.now + 1 }

end State

def Effect.apply (s : State n m) (c : Fin m) (t : Thr n m) : Effect n m → Except Stop (State n m)
  | .tau P => .ok (s.go t P)
  | .acquire l P => if s.lock l = none then .ok (((s.setLock l (some c)).noteAcquire t l).go t P) else .error .blocked
  | .release l P => .ok ((s.setLock l none).go t P)
  | .set q x P => .ok ((s.setProc q x).go t P)
  | .alloc q P =>
    .ok ({ s.setProc q { s.proc q with pid := s.nextpid, state := .USED, born := s.now, forker := none, status := none } with
      nextpid := s.nextpid + 1 }.go t P)
  | .context q P => .ok ((s.setContext q).go t P)
  | .reap q pid stored P =>
    .ok ({ s.setProc q (s.proc q).freed with reaps := ⟨s.cproc c, s.proc q, pid, stored⟩ :: s.reaps }.go t P)
  | .setCpu v P => .ok ({ s with cproc := update s.cproc c v }.go t P)
  | .toProc q P => .ok ((s.save c t (.proc q)).go t P)
  | .toSched P => .ok ((s.save c t (.cpu c)).go t P)
  | .blocked => .error .blocked
  | .panic msg => .error (.panic msg)

def next (s : State n m) (e : Fin m × Choice n) : Except Stop (State n m) :=
  if (s.cur e.1).2 then .ok (s.load e.1 (s.cur e.1).1)
  else (code s (s.cproc e.1) e.2 (s.pos (s.cur e.1).1)).apply s e.1 (s.cur e.1).1

/-- The state after `userinit`, when the CPUs enter `scheduler`: only the first process is there, and it can run. -/
def boot (initproc : Fin n) (pagetable trapframe : Nat) : State n m where
  proc := update (fun _ => {}) initproc
    { state := .RUNNABLE, pid := 1, sz := PGSIZE, pagetable := pagetable, trapframe := trapframe }
  initproc := initproc
  nextpid := 2
  lock := fun _ => none
  cproc := fun _ => none
  cur := fun c => (.cpu c, false)
  pos
    | .proc _ => .forkret
    | .cpu _ => .schedScan 0
  saved
    | .proc p => decide (p = initproc)
    | .cpu _ => false
  now := 1
  acqAt := fun _ _ => 0
  reaps := []

end Xv6.Sched
