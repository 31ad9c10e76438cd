import Mathlib.Data.List.FinRange
import Xv6.Lib.Bytes
import Xv6.Lib.Prog
import Xv6.Proc.Code

/-!
# The state of the file system

The inode table, the file table, the open files of the processes, and the disk as the buffer cache shows it: the dinodes, the bitmap
and the blocks. There is one device, so device numbers are left out. The superblock is that of the mounted image.

Three histories stand beside the fields of the source. `irefs p i` counts the references to inode table entry `i` that process `p`
has taken (`iget`, `idup`) and not yet dropped (`iput`) or stored in a file or a current directory; it is negative for one that was
dropped before the pointer to it was cleared. `frefs` and `ends` count references to files and ends of pipes in the same way.
-/

namespace Xv6.Fs

open Run Prog

abbrev NINODE : Nat := 50
abbrev NFILE : Nat := 100
abbrev NOFILE : Nat := 16
abbrev NDEV : Int := 10
abbrev ROOTINO : Nat := 1
abbrev BSIZE : Nat := 1024
abbrev NDIRECT : Nat := 12
abbrev NINDIRECT : Nat := BSIZE / 4
abbrev MAXFILE : Nat := NDIRECT + NINDIRECT
abbrev BPB : Nat := BSIZE * 8
abbrev DIRSIZ : Nat := 14
abbrev DIRENT : Nat := 16
abbrev MAXOPBLOCKS : Nat := 10
abbrev LOGSIZE : Nat := MAXOPBLOCKS * 3

inductive InodeType where
  | free | T_DIR | T_FILE | T_DEVICE
  deriving DecidableEq, Repr

def short (x : Int) : Int := Int.bmod x 65536

/-- `struct dinode`; of `addrs` only the elements `0, …, NDIRECT` are used. -/
structure Dinode where
  type : InodeType := .free
  major : Int := 0
  minor : Int := 0
  nlink : Int := 0
  size : Nat := 0
  addrs : Nat → Nat := fun _ => 0

structure Inode (n : Nat) where
  inum : Nat := 0
  ref : Int := 0
  /-- The holder of the sleep lock. -/
  lock : Option (Fin n) := none
  valid : Bool := false
  /-- The copy of the dinode. -/
  d : Dinode := {}
  /-- An `iput` has found that it drops the last reference to a file without links, and has not decremented `ref` yet. -/
  freeing : Bool := false

inductive FileType where
  | FD_NONE | FD_PIPE | FD_INODE | FD_DEVICE
  deriving DecidableEq, Repr

structure File where
  type : FileType := .FD_NONE
  ref : Int := 0
  readable : Bool := false
  writable : Bool := false
  /-- The address of the pipe's page. -/
  pipe : Nat := 0
  ip : Option (Fin NINODE) := none
  off : Nat := 0
  major : Int := 0

structure Pipe where
  readopen : Bool := true
  writeopen : Bool := true
  deriving DecidableEq

/-- The fields of `struct proc` that the file system uses, and the register that holds the result of a system call. -/
structure Proc where
  state : ProcState := .UNUSED
  ofile : Fin NOFILE → Option (Fin NFILE) := fun _ => none
  cwd : Option (Fin NINODE) := none
  a0 : Int := 0

/-- The fields of `struct superblock` that are used here, and the first data block. -/
structure Superblock where
  size : Nat
  ninodes : Nat
  datastart : Nat

structure State (n : Nat) where
  sb : Superblock
  itable : Fin NINODE → Inode n
  dinode : Nat → Dinode
  /-- The bits of the free map. -/
  bitmap : Nat → Bool
  block : Nat → Bytes.Mem
  ftable : Fin NFILE → File
  proc : Fin n → Proc
  initproc : Fin n
  /-- The pipes by the addresses of their pages. -/
  pipe : Nat → Option Pipe
  /-- `log.outstanding`. -/
  outstanding : Nat
  irefs : Fin n → Fin NINODE → Int
  frefs : Fin n → Fin NFILE → Int
  ends : Fin n → Nat × Bool → Int

variable {n : Nat} {α : Type}

def bump [DecidableEq α] (m : Fin n → α → Int) (p : Fin n) (a : α) (k : Int) : Fin n → α → Int :=
  fun q b => if q = p ∧ b = a then m q b + k else m q b

namespace State

variable (s : State n) (p : Fin n)

def setInode (i : Fin NINODE) (x : Inode n) : State n := { s with itable := Function.update s.itable i x }

def setFile (f : Fin NFILE) (x : File) : State n := { s with ftable := Function.update s.ftable f x }

def setProc (q : Fin n) (x : Proc) : State n := { s with proc := Function.update s.proc q x }

def noteInode (i : Fin NINODE) (k : Int) : State n := { s with irefs := bump s.irefs p i k }

def noteFile (f : Fin NFILE) (k : Int) : State n := { s with frefs := bump s.frefs p f k }

def noteEnd (e : Nat × Bool) (k : Int) : State n := { s with ends := bump s.ends p e k }

end State

abbrev FsM (n : Nat) := Prog (State n)

def panic (msg : String) : FsM n α := atomic fun _ => .error (.panic msg)

def look (f : State n → α) : FsM n α := atomic fun s => .ok (s, f s)

def change (f : State n → State n) : FsM n Unit := atomic fun s => .ok (f s, ())

def forEach (l : List α) (body : α → FsM n Unit) : FsM n Unit :=
  match l with
  | [] => pure ()
  | a :: l => do
    body a
    forEach l body

/-! ### Transactions (`log.c`)

Of the log only the number of operations in progress is kept. `begin_op` waits while the log could not hold the
blocks of one more operation; how many blocks the log already holds is left out. -/

def beginOp : FsM n Unit := atomic fun s =>
  if (s.outstanding + 1) * MAXOPBLOCKS > LOGSIZE then .error .blocked
  else .ok ({ s with outstanding := s.outstanding + 1 }, ())

def endOp : FsM n Unit := change fun s => { s with outstanding := s.outstanding - 1 }

end Xv6.Fs
