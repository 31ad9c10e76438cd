import Mathlib.Data.List.FinRange
import Mathlib.Logic.Function.Basic
import Xv6.Vm.Code

/-!
# Processes (`proc.c`)

The process table and the calls that create, grow and free the memory of processes. A process is named by its slot
in `proc[]`; the calls that run on behalf of the current process take that slot. A pointer field that is null
holds 0. The fields that say where a process runs or sleeps and its open files are left out: nothing here
reads them.
-/

namespace Xv6

abbrev NPROC : Nat := 64

abbrev Pid := Fin NPROC

inductive ProcState where
  | UNUSED | USED | SLEEPING | RUNNABLE | RUNNING | ZOMBIE
  deriving DecidableEq, Repr

structure Proc where
  state : ProcState := .UNUSED
  pid : Int := 0
  parent : Option Pid := none
  killed : Bool := false
  xstate : Int := 0
  /-- Size of process memory in bytes. -/
  sz : Nat := 0
  pagetable : Nat := 0
  trapframe : Nat := 0
  /-- Process name (debugging): the bytes before the terminating 0. -/
  name : List UInt8 := []

structure Kernel where
  phys : Phys
  proc : Pid → Proc
  nextpid : Int
  initproc : Option Pid

abbrev KernM := Kern Kernel

def onPhys {α : Type} (x : PhysM α) : KernM α := fun κ => do
  let (a, σ) ← x κ.phys
  return (a, { κ with phys := σ })

def setProc (i : Pid) (f : Proc → Proc) : KernM Unit :=
  modify fun κ => { κ with proc := Function.update κ.proc i (f (κ.proc i)) }

def procPagetable (trapframe : Nat) : PhysM (Option Nat) := do
  match ← uvmcreate with
  | none => return none
  | some pagetable =>
    if (← mappages pagetable TRAMPOLINE PGSIZE trampoline (PTE_R ||| PTE_X)) < 0 then
      uvmfree pagetable 0
      return none
    else if (← mappages pagetable TRAPFRAME PGSIZE trapframe (PTE_R ||| PTE_W)) < 0 then
      uvmunmap pagetable TRAMPOLINE 1 false
      uvmfree pagetable 0
      return none
    else return some pagetable

def procFreepagetable (pagetable sz : Nat) : PhysM Unit := do
  uvmunmap pagetable TRAMPOLINE 1 false
  uvmunmap pagetable TRAPFRAME 1 false
  uvmfree pagetable sz

/-- Store a register in a trapframe page; `off` is the offset of the field in `struct trapframe`. -/
def setTrapframe (trapframe off w : Nat) : PhysM Unit :=
  modify fun s => { s with mem := Bytes.storeLE s.mem (trapframe + off) 8 w }

def safestrcpy (s : List UInt8) (n : Nat) : List UInt8 := s.take (n - 1)

abbrev nameSize : Nat := 16

abbrev trapframeSize : Nat := 288

def findProc (f : Pid → Bool) : Option Pid := (List.finRange NPROC).find? f

def allocpid : KernM Int := do
  let pid := (← get).nextpid
  modify fun κ => { κ with nextpid := Int.bmod (pid + 1) (2 ^ 32) }
  return pid

def freeproc (i : Pid) : KernM Unit := do
  let p := (← get).proc i
  if p.trapframe ≠ 0 then onPhys (kfree p.trapframe)
  setProc i fun p => { p with trapframe := 0 }
  if p.pagetable ≠ 0 then onPhys (procFreepagetable p.pagetable p.sz)
  setProc i fun _ => {}

def allocproc : KernM (Option Pid) := do
  let κ ← get
  match findProc fun i => (κ.proc i).state = .UNUSED with
  | none => return none
  | some i =>
    let pid ← allocpid
    setProc i fun p => { p with pid := pid, state := .USED }
    match ← onPhys kalloc with
    | none =>
      setProc i fun p => { p with trapframe := 0 }
      freeproc i
      return none
    | some trapframe =>
      setProc i fun p => { p with trapframe := trapframe }
      match ← onPhys (procPagetable trapframe) with
      | none =>
        setProc i fun p => { p with pagetable := 0 }
        freeproc i
        return none
      | some pagetable =>
        setProc i fun p => { p with pagetable := pagetable }
        return some i

def initcode : List UInt8 := [
  0x17, 0x05, 0x00, 0x00, 0x13, 0x05, 0x45, 0x02, 0x97, 0x05, 0x00, 0x00, 0x93, 0x85, 0x35, 0x02,
  0x93, 0x08, 0x70, 0x00, 0x73, 0x00, 0x00, 0x00, 0x93, 0x08, 0x20, 0x00, 0x73, 0x00, 0x00, 0x00,
  0xef, 0xf0, 0x9f, 0xff, 0x2f, 0x69, 0x6e, 0x69, 0x74, 0x00, 0x00, 0x24, 0x00, 0x00, 0x00, 0x00,
  0x00, 0x00, 0x00, 0x00]

def userinit : KernM Unit := do
  match ← allocproc with
  | none => panic "userinit: null"
  | some i =>
    modify fun κ => { κ with initproc := some i }
    let p := (← get).proc i
    onPhys (uvmfirst p.pagetable (fun k => initcode.getD k 0) initcode.length)
    setProc i fun p => { p with sz := PGSIZE }
    onPhys (setTrapframe p.trapframe 24 0)
    onPhys (setTrapframe p.trapframe 48 PGSIZE)
    setProc i fun p => { p with name := safestrcpy "initcode".toUTF8.toList nameSize, state := .RUNNABLE }

def addInt (sz : Nat) (n : Int) : Nat := ((sz + n) % 2 ^ 64).toNat

def growproc (i : Pid) (n : Int) : KernM Int := do
  let p := (← get).proc i
  if n > 0 then
    let sz ← onPhys (uvmalloc p.pagetable p.sz (addInt p.sz n) PTE_W)
    if sz = 0 then return -1 else
    setProc i fun p => { p with sz := sz }
    return 0
  else if n < 0 then
    let sz ← onPhys (uvmdealloc p.pagetable p.sz (addInt p.sz n))
    setProc i fun p => { p with sz := sz }
    return 0
  else return 0

def fork (i : Pid) : KernM Int := do
  match ← allocproc with
  | none => return -1
  | some j =>
    let p := (← get).proc i
    let np := (← get).proc j
    if (← onPhys (uvmcopy p.pagetable np.pagetable p.sz)) < 0 then
      freeproc j
      return -1
    else
      setProc j fun np => { np with sz := p.sz }
      -- copy saved user registers, and cause fork to return 0 in the child
      onPhys (memmove np.trapframe p.trapframe trapframeSize)
      onPhys (setTrapframe np.trapframe 112 0)
      setProc j fun np => { np with name := safestrcpy p.name nameSize, parent := some i }
      setProc j fun np => { np with state := .RUNNABLE }
      return np.pid

def reparent (i : Pid) : KernM Unit := modify fun κ => { κ with
  proc := fun j => if (κ.proc j).parent = some i then { κ.proc j with parent := κ.initproc } else κ.proc j }

/-- Exit the process `i`, which stays in the table until its parent waits for it. -/
def exit (i : Pid) (status : Int) : KernM Unit := do
  if (← get).initproc = some i then panic "init exiting" else
  reparent i
  setProc i fun p => { p with xstate := status, state := .ZOMBIE }

def intBytes (x : Int) : Nat → UInt8 := fun k => UInt8.ofNat ((x % 2 ^ 32).toNat / 256 ^ k)

/-- One scan of `wait`: the result, or `none` if the process goes to sleep. -/
def wait (i : Pid) (addr : Nat) : KernM (Option Int) := do
  let κ ← get
  match findProc fun j => (κ.proc j).parent = some i ∧ (κ.proc j).state = .ZOMBIE with
  | some j =>
    let r ← if addr ≠ 0 then onPhys (copyout (κ.proc i).pagetable addr (intBytes (κ.proc j).xstate) 4) else pure 0
    if r < 0 then return some (-1) else
    freeproc j
    return some (κ.proc j).pid
  | none =>
    if (findProc fun j => (κ.proc j).parent = some i) = none ∨ (κ.proc i).killed then return some (-1)
    else return none

end Xv6
