import Xv6.Fs.Inode

/-!
# Directories and paths (`fs.c`)

A name is the list of the bytes before its terminating 0, at most `DIRSIZ` of them, and a path is the list of its bytes.
-/

namespace Xv6.Fs

open Run Prog

variable {n : Nat}

structure Dirent where
  inum : Nat
  name : List UInt8
  deriving DecidableEq

def Dirent.ofBytes (b : Nat → UInt8) : Dirent where
  inum := (b 0).toNat + 256 * (b 1).toNat
  name := ((List.range DIRSIZ).map fun k => b (2 + k)).takeWhile (· ≠ 0)

/-- The bytes of the entry that `dirlink` writes; `inum` is stored in a `ushort` and `strncpy` pads the name with zeros. -/
def direntBytes (name : List UInt8) (inum : Nat) (k : Nat) : UInt8 :=
  if k = 0 then UInt8.ofNat inum
  else if k = 1 then UInt8.ofNat (inum / 256)
  else (name.take DIRSIZ).getD (k - 2) 0

def kernelDst : Nat → Nat → Bool := fun _ _ => true

def readDirent (i : Fin NINODE) (off : Nat) (msg : String) : FsM n Dirent := do
  let (r, bytes) ← readi i kernelDst off DIRENT
  if r = DIRENT then return Dirent.ofBytes fun k => bytes.getD k 0
  else panic msg

variable (p : Fin n)

def dirlookupLoop (i : Fin NINODE) (name : List UInt8) (size : Nat) : Nat → Nat → FsM n (Option (Fin NINODE × Nat))
  | 0, _ => pure none
  | fuel + 1, off => do
    if off < size then
      let de ← readDirent i off "dirlookup read"
      if de.inum ≠ 0 ∧ name = de.name then
        let ip ← iget p de.inum
        return some (ip, off)
      else dirlookupLoop i name size fuel (off + DIRENT)
    else return none

/-- `dirlookup`: the inode and the offset of the entry. -/
def dirlookup (i : Fin NINODE) (name : List UInt8) : FsM n (Option (Fin NINODE × Nat)) := do
  let d ← load i
  if d.type ≠ .T_DIR then panic "dirlookup not DIR"
  else dirlookupLoop p i name d.size (d.size / DIRENT + 1) 0

/-- The second loop of `dirlink`: the offset of an empty entry, or the end of the directory. -/
def dirlinkLoop (i : Fin NINODE) (size : Nat) : Nat → Nat → FsM n Nat
  | 0, off => pure off
  | fuel + 1, off => do
    if off < size then
      let de ← readDirent i off "dirlink read"
      if de.inum = 0 then return off
      else dirlinkLoop i size fuel (off + DIRENT)
    else return off

def dirlink (i : Fin NINODE) (name : List UInt8) (inum : Nat) : FsM n Int := do
  match ← dirlookup p i name with
  | some (ip, _) =>
    iput p ip
    return -1
  | none =>
    let size := (← load i).size
    let off ← dirlinkLoop i size (size / DIRENT + 1) 0
    let r ← writei i (fun k => some (direntBytes name inum k)) off DIRENT
    if r = DIRENT then return 0 else return -1

def slash : UInt8 := 47

/-- `skipelem`: the rest of the path and its first element. -/
def skipelem (path : List UInt8) : Option (List UInt8 × List UInt8) :=
  match path.dropWhile (· = slash) with
  | [] => none
  | c :: s =>
    let elem := (c :: s).takeWhile (· ≠ slash)
    some (((c :: s).dropWhile (· ≠ slash)).dropWhile (· = slash), elem.take DIRSIZ)

/-- The loop of `namex`; every pass takes an element off the path. -/
def namexLoop (nameiparent : Bool) : Nat → List UInt8 → Fin NINODE → FsM n (Option (Fin NINODE × List UInt8))
  | 0, _, _ => pure none
  | fuel + 1, path, ip => do
    match skipelem path with
    | none =>
      if nameiparent then
        iput p ip
        return none
      else return some (ip, [])
    | some (rest, name) =>
      ilock p ip
      let d ← load ip
      if d.type ≠ .T_DIR then
        iunlockput p ip
        return none
      else if nameiparent ∧ rest = [] then
        iunlock p ip
        return some (ip, name)
      else
        match ← dirlookup p ip name with
        | none =>
          iunlockput p ip
          return none
        | some (next, _) =>
          iunlockput p ip
          namexLoop nameiparent fuel rest next

/-- `namex`: the inode and, for the parent, the last element of the path. -/
def namex (path : List UInt8) (nameiparent : Bool) : FsM n (Option (Fin NINODE × List UInt8)) := do
  if path.head? = some slash then
    let ip ← iget p ROOTINO
    namexLoop p nameiparent (path.length + 1) path ip
  else
    match ← look fun s => (s.proc p).cwd with
    | none => panic "kerneltrap"
    | some ip =>
      idup p ip
      namexLoop p nameiparent (path.length + 1) path ip

def namei (path : List UInt8) : FsM n (Option (Fin NINODE)) := do
  match ← namex p path false with
  | none => return none
  | some (ip, _) => return some ip

def nameiparent (path : List UInt8) : FsM n (Option (Fin NINODE × List UInt8)) := namex p path true

end Xv6.Fs
