import Xv6.Fs.Inode

/-!
# Open files and pipes (`file.c`, `pipe.c`)

The file table, the closing of files and pipes, and writing. What passes through a pipe or a device is left out: the result
of such a write is a parameter.
-/

namespace Xv6.Fs

open Run Prog

variable {n : Nat} (p : Fin n)

def filealloc : FsM n (Option (Fin NFILE)) := atomic fun s =>
  match (List.finRange NFILE).find? fun f => decide ((s.ftable f).ref = 0) with
  | some f => .ok ((s.setFile f { s.ftable f with ref := 1 }).noteFile p f 1, some f)
  | none => .ok (s, none)

/-- The end of the pipe at page `pi` that a file with the given `writable` flag is. -/
def pipeEnd (pi : Nat) (writable : Bool) : Nat × Bool := (pi, writable)

def Pipe.close (x : Pipe) (writable : Bool) : Pipe :=
  if writable then { x with writeopen := false } else { x with readopen := false }

/-- `pipeclose`, with the `kfree` of the page when both ends are closed; a page that holds no pipe is a free page. -/
def pipeclose (pi : Nat) (writable : Bool) : FsM n Unit := atomic fun s =>
  match s.pipe pi with
  | none => .error (.panic "pipeclose: free page")
  | some x =>
    let x := x.close writable
    let s := s.noteEnd p (pipeEnd pi writable) (-1)
    if x.readopen = false ∧ x.writeopen = false then .ok ({ s with pipe := Function.update s.pipe pi none }, ())
    else .ok ({ s with pipe := Function.update s.pipe pi (some x) }, ())

/-- The last reference to `f` is dropped: what the process has to release is noted. -/
def State.fileRelease (s : State n) (f : Fin NFILE) : State n :=
  let x := s.ftable f
  let s := (s.setFile f { x with ref := 0, type := .FD_NONE }).noteFile p f (-1)
  match x.type, x.ip with
  | .FD_PIPE, _ => s.noteEnd p (pipeEnd x.pipe x.writable) 1
  | .FD_INODE, some i | .FD_DEVICE, some i => s.noteInode p i 1
  | _, _ => s

section

variable {s : State n} {p : Fin n} {f : Fin NFILE}

theorem State.fileRelease_none (h : (s.ftable f).type = .FD_NONE) :
    s.fileRelease p f = (s.setFile f { s.ftable f with ref := 0, type := .FD_NONE }).noteFile p f (-1) := by
  simp only [State.fileRelease, h]

end

/-- The first part of `fileclose`: the copy `ff` of the file if it was the last reference. -/
def State.fileDrop (s : State n) (f : Fin NFILE) : Except Stop (State n × Option File) :=
  let x := s.ftable f
  if x.ref < 1 then .error (.panic "fileclose")
  else if x.ref - 1 > 0 then .ok ((s.setFile f { x with ref := x.ref - 1 }).noteFile p f (-1), none)
  else .ok (s.fileRelease p f, some x)

def fileclose (f : Fin NFILE) : FsM n Unit := do
  match ← atomic fun s => s.fileDrop p f with
  | none => return ()
  | some ff =>
    match ff.type with
    | .FD_PIPE => pipeclose p ff.pipe ff.writable
    | .FD_INODE | .FD_DEVICE =>
      match ff.ip with
      | none => panic "kerneltrap"
      | some i =>
        beginOp
        iput p i
        endOp
    | .FD_NONE => return ()

def ilockFile (ip : Option (Fin NINODE)) : FsM n (Fin NINODE) := do
  match ip with
  | none => panic "ilock"
  | some i =>
    ilock p i
    return i

def advance (f : Fin NFILE) (r : Nat) : FsM n Unit :=
  change fun s => s.setFile f { s.ftable f with off := ((s.ftable f).off + r) % 2 ^ 32 }

def maxWrite : Nat := ((MAXOPBLOCKS - 1 - 1 - 2) / 2) * BSIZE

/-- The loop of `filewrite`: the number of bytes written. Every pass but the last one writes a byte at least. -/
def filewriteLoop (f : Fin NFILE) (ip : Option (Fin NINODE)) (src : Nat → Option UInt8) (len : Nat) :
    Nat → Nat → FsM n Nat
  | 0, done => pure done
  | fuel + 1, done => do
    if done < len then
      let n1 := min (len - done) maxWrite
      beginOp
      let i ← ilockFile p ip
      let off ← look fun s => (s.ftable f).off
      let r ← writei i (fun k => src (done + k)) off n1
      if r > 0 then advance f r.toNat
      iunlock p i
      endOp
      if r = n1 then filewriteLoop f ip src len fuel (done + n1)
      else return done
    else return done

/-- `filewrite`; `src` is the source, and `other` is the result of writing to a pipe or a device. -/
def filewrite (f : Fin NFILE) (src : Nat → Option UInt8) (len : Int) (other : Int) : FsM n Int := do
  let x ← look fun s => s.ftable f
  if x.writable = false then return -1
  else
    match x.type with
    | .FD_PIPE => return other
    | .FD_DEVICE => if x.major < 0 ∨ x.major ≥ NDEV then return -1 else return other
    | .FD_INODE =>
      let done ← filewriteLoop p f x.ip src len.toNat len.toNat 0
      return if (done : Int) = len then len else -1
    | .FD_NONE => panic "filewrite"

end Xv6.Fs
