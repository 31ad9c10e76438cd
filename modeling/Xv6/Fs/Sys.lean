import Xv6.Fs.Dir
import Xv6.Fs.File

/-!
# System calls (`sysfile.c`)

The system calls on paths. A string argument is `none` when it cannot be fetched.
-/

namespace Xv6.Fs

open Run Prog

variable {n : Nat} (p : Fin n)

/-- A string that was fetched from the process: the bytes before the terminating 0. -/
abbrev Path := { path : List UInt8 // 0 ∉ path }

def State.setSlot (s : State n) (q : Fin n) (fd : Fin NOFILE) (f : Option (Fin NFILE)) : State n :=
  s.setProc q { s.proc q with ofile := Function.update (s.proc q).ofile fd f }

/-- `fdalloc`: the slot takes over a reference to the file. -/
def fdalloc (f : Fin NFILE) : FsM n (Option (Fin NOFILE)) := atomic fun s =>
  match (List.finRange NOFILE).find? fun fd => decide ((s.proc p).ofile fd = none) with
  | some fd => .ok ((s.setSlot p fd (some f)).noteFile p f (-1), some fd)
  | none => .ok (s, none)

def addLink (i : Fin NINODE) (k : Int) : FsM n Unit := do
  store i fun d => { d with nlink := short (d.nlink + k) }
  iupdate i

def linkUndo (ip : Fin NINODE) : FsM n Int := do
  ilock p ip
  addLink ip (-1)
  iunlockput p ip
  endOp
  return -1

def inumOf (i : Fin NINODE) : FsM n Nat := look fun s => (s.itable i).inum

def sysLink (old new : Option Path) : FsM n Int := do
  match old, new with
  | some old, some new =>
    beginOp
    match ← namei p old.val with
    | none =>
      endOp
      return -1
    | some ip =>
      ilock p ip
      let d ← load ip
      if d.type = .T_DIR then
        iunlockput p ip
        endOp
        return -1
      else
        addLink ip 1
        iunlock p ip
        match ← nameiparent p new.val with
        | none => linkUndo p ip
        | some (dp, name) =>
          ilock p dp
          let inum ← inumOf ip
          let r ← dirlink p dp name inum
          iunlockput p dp
          if r < 0 then linkUndo p ip
          else
            iput p ip
            endOp
            return 0
  | _, _ => return -1

def isdiremptyLoop (i : Fin NINODE) (size : Nat) : Nat → Nat → FsM n Bool
  | 0, _ => pure true
  | fuel + 1, off => do
    if off < size then
      let de ← readDirent i off "isdirempty: readi"
      if de.inum ≠ 0 then return false
      else isdiremptyLoop i size fuel (off + DIRENT)
    else return true

def isdirempty (i : Fin NINODE) : FsM n Bool := do
  let size := (← load i).size
  isdiremptyLoop i size (size / DIRENT + 1) (2 * DIRENT)

def dot : UInt8 := 46

def unlinkBad (dp : Fin NINODE) : FsM n Int := do
  iunlockput p dp
  endOp
  return -1

def sysUnlink (path : Option Path) : FsM n Int := do
  match path with
  | none => return -1
  | some path =>
    beginOp
    match ← nameiparent p path.val with
    | none =>
      endOp
      return -1
    | some (dp, name) =>
      ilock p dp
      if name = [dot] ∨ name = [dot, dot] then unlinkBad p dp
      else
        match ← dirlookup p dp name with
        | none => unlinkBad p dp
        | some (ip, off) =>
          ilock p ip
          let d ← load ip
          if d.nlink < 1 then panic "unlink: nlink < 1"
          else
            let empty ← if d.type = .T_DIR then isdirempty ip else pure true
            if empty = false then
              iunlockput p ip
              unlinkBad p dp
            else
              let r ← writei dp (fun _ => some 0) off DIRENT
              if r ≠ DIRENT then panic "unlink: writei"
              else
                if d.type = .T_DIR then addLink dp (-1)
                iunlockput p dp
                addLink ip (-1)
                iunlockput p ip
                endOp
                return 0

def createFail (ip dp : Fin NINODE) : FsM n (Option (Fin NINODE)) := do
  store ip fun d => { d with nlink := 0 }
  iupdate ip
  iunlockput p ip
  iunlockput p dp
  return none

def create (path : Path) (type : InodeType) (major minor : Int) : FsM n (Option (Fin NINODE)) := do
  match ← nameiparent p path.val with
  | none => return none
  | some (dp, name) =>
    ilock p dp
    match ← dirlookup p dp name with
    | some (ip, _) =>
      iunlockput p dp
      ilock p ip
      let d ← load ip
      if type = .T_FILE ∧ (d.type = .T_FILE ∨ d.type = .T_DEVICE) then return some ip
      else
        iunlockput p ip
        return none
    | none =>
      match ← ialloc p type with
      | none =>
        iunlockput p dp
        return none
      | some ip =>
        ilock p ip
        store ip fun d => { d with major := short major, minor := short minor, nlink := 1 }
        iupdate ip
        let inum ← inumOf ip
        let dots ←
          if type = .T_DIR then do
            let r ← dirlink p ip [dot] inum
            if r < 0 then pure false
            else
              let parent ← inumOf dp
              let r ← dirlink p ip [dot, dot] parent
              pure (decide (¬ r < 0))
          else pure true
        if dots = false then createFail p ip dp
        else
          let r ← dirlink p dp name inum
          if r < 0 then createFail p ip dp
          else
            if type = .T_DIR then addLink dp 1
            iunlockput p dp
            return some ip

abbrev O_WRONLY : Nat := 0x001
abbrev O_RDWR : Nat := 0x002
abbrev O_CREATE : Nat := 0x200
abbrev O_TRUNC : Nat := 0x400

def hasMode (omode bit : Nat) : Bool := omode &&& bit ≠ 0

def setOpen (f : Fin NFILE) (i : Fin NINODE) (d : Dinode) (omode : Nat) : FsM n Unit :=
  change fun s =>
    let x := s.ftable f
    let x := if d.type = .T_DEVICE then { x with type := .FD_DEVICE, major := d.major }
      else { x with type := .FD_INODE, off := 0 }
    (s.setFile f { x with
      ip := some i
      readable := !hasMode omode O_WRONLY
      writable := hasMode omode O_WRONLY || hasMode omode O_RDWR }).noteInode p i (-1)

def openFail (ip : Fin NINODE) : FsM n Int := do
  iunlockput p ip
  endOp
  return -1

/-- `sys_open` from the point on where it has the inode, or none. -/
def openRest (omode : Nat) : Option (Fin NINODE) → FsM n Int
  | none => do
    endOp
    return -1
  | some ip => do
    let d ← load ip
    if d.type = .T_DEVICE ∧ (d.major < 0 ∨ d.major ≥ NDEV) then openFail p ip
    else
      match ← filealloc p with
      | none => openFail p ip
      | some f =>
        match ← fdalloc p f with
        | none =>
          fileclose p f
          openFail p ip
        | some fd =>
          setOpen p f ip d omode
          if hasMode omode O_TRUNC ∧ d.type = .T_FILE then itrunc ip
          iunlock p ip
          endOp
          return fd.val

def sysMake (path : Option Path) (type : InodeType) (major minor : Int) : FsM n Int := do
  beginOp
  match path with
  | none =>
    endOp
    return -1
  | some path =>
    match ← create p path type major minor with
    | none =>
      endOp
      return -1
    | some ip =>
      iunlockput p ip
      endOp
      return 0

def sysMkdir (path : Option Path) : FsM n Int := sysMake p path .T_DIR 0 0

def sysMknod (path : Option Path) (major minor : Int) : FsM n Int := sysMake p path .T_DEVICE major minor

def State.setCwd (s : State n) (q : Fin n) (i : Option (Fin NINODE)) : State n :=
  s.setProc q { s.proc q with cwd := i }

def sysChdir (path : Option Path) : FsM n Int := do
  beginOp
  match path with
  | none =>
    endOp
    return -1
  | some path =>
    match ← namei p path.val with
    | none =>
      endOp
      return -1
    | some ip =>
      ilock p ip
      let d ← load ip
      if d.type ≠ .T_DIR then
        iunlockput p ip
        endOp
        return -1
      else
        iunlock p ip
        match ← look fun s => (s.proc p).cwd with
        | none => panic "kerneltrap"
        | some cwd =>
          iput p cwd
          endOp
          change fun s => ((s.setCwd p (some ip)).noteInode p cwd 1).noteInode p ip (-1)
          return 0

end Xv6.Fs
