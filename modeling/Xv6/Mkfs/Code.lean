import Xv6.Fs.Dir
import Xv6.Kalloc

/-!
# Making a file system image (`mkfs.c`)

`mkfs` writes the image sector by sector. The image is kept as the bytes of its sectors; `struct dinode` is a block of 64 bytes
with its fields at their offsets, in the byte order of the target. A failed `assert` and `die` stop the program with a message.
-/

namespace Xv6.Mkfs

open Bytes (Mem loadLE storeLE)
open Xv6.Fs (BSIZE NDIRECT NINDIRECT MAXFILE BPB DIRSIZ DIRENT LOGSIZE ROOTINO wordAt direntBytes slash)

abbrev FSSIZE : Nat := 2000
abbrev NINODES : Nat := 200
abbrev DINODE : Nat := 64
abbrev IPB : Nat := BSIZE / DINODE
abbrev FSMAGIC : Nat := 0x10203040

abbrev nbitmap : Nat := FSSIZE / BPB + 1
abbrev ninodeblocks : Nat := NINODES / IPB + 1
abbrev nlog : Nat := LOGSIZE
abbrev nmeta : Nat := 2 + nlog + ninodeblocks + nbitmap
abbrev inodestart : Nat := 2 + nlog
abbrev bmapstart : Nat := 2 + nlog + ninodeblocks

abbrev T_DIR : Nat := 1
abbrev T_FILE : Nat := 2

structure Img where
  disk : Nat → Mem
  freeinode : Nat
  freeblock : Nat

abbrev MkM := Kern Img

def iblock (i : Nat) : Nat := i / IPB + inodestart

def wsect (sec : Nat) (buf : Mem) : MkM Unit := modify fun s => { s with disk := Function.update s.disk sec buf }

def rsect (sec : Nat) : MkM Mem := do
  if sec < FSSIZE then return (← get).disk sec else panic "read"

def dtype (din : Mem) : Nat := loadLE din 0 2
def dsize (din : Mem) : Nat := loadLE din 8 4
def daddr (din : Mem) (k : Nat) : Nat := loadLE din (12 + 4 * k) 4

def setSize (din : Mem) (size : Nat) : Mem := storeLE din 8 4 size
def setAddr (din : Mem) (k a : Nat) : Mem := storeLE din (12 + 4 * k) 4 a

def winode (inum : Nat) (din : Mem) : MkM Unit := do
  let buf ← rsect (iblock inum)
  wsect (iblock inum) (Bytes.write buf (inum % IPB * DINODE) DINODE din)

def dinAt (disk : Nat → Mem) (inum : Nat) : Mem := fun k => disk (iblock inum) (inum % IPB * DINODE + k)

def rinode (inum : Nat) : MkM Mem := do
  let buf ← rsect (iblock inum)
  return fun k => buf (inum % IPB * DINODE + k)

def ialloc (type : Nat) : MkM Nat := do
  let inum := (← get).freeinode
  modify fun s => { s with freeinode := s.freeinode + 1 }
  winode inum (storeLE (storeLE (fun _ => 0) 0 2 type) 6 2 1)
  return inum

def freeMap (used : Nat) : Mem := fun k =>
  UInt8.ofNat (((List.range 8).filter fun j => 8 * k + j < used).foldl (fun x j => x + 2 ^ j) 0)

def balloc (used : Nat) : MkM Unit := do
  if used < BPB then wsect bmapstart (freeMap used)
  else panic "assert"

def nextBlock : MkM Nat := do
  let b := (← get).freeblock
  modify fun s => { s with freeblock := s.freeblock + 1 }
  return b

def indirectBlock (din : Mem) : MkM Mem := do
  if daddr din NDIRECT = 0 then return setAddr din NDIRECT (← nextBlock) else return din

/-- The part of `iappend` that finds block `fbn` of a file, and allocates it if need be: the block, and the dinode. -/
def findBlock (din : Mem) (fbn : Nat) : MkM (Nat × Mem) := do
  if fbn < NDIRECT then
    if daddr din fbn = 0 then
      let b ← nextBlock
      return (b, setAddr din fbn b)
    else return (daddr din fbn, din)
  else
    let din ← indirectBlock din
    let indirect ← rsect (daddr din NDIRECT)
    if wordAt indirect (fbn - NDIRECT) = 0 then
      let b ← nextBlock
      wsect (daddr din NDIRECT) (storeLE indirect (4 * (fbn - NDIRECT)) 4 b)
      return (b, din)
    else return (wordAt indirect (fbn - NDIRECT), din)

/-- The loop of `iappend` over the bytes that are left. Every pass appends a byte at least, so as many passes are enough as there
are bytes. -/
def iappendLoop : Nat → List UInt8 → Nat → Mem → MkM (Nat × Mem)
  | 0, _, off, din => return (off, din)
  | fuel + 1, p, off, din => do
    if p = [] then return (off, din)
    else
      let fbn := off / BSIZE
      if fbn < MAXFILE then
        let (x, din) ← findBlock din fbn
        let n1 := min p.length ((fbn + 1) * BSIZE - off)
        let buf ← rsect x
        wsect x (Bytes.write buf (off - fbn * BSIZE) n1 fun k => p.getD k 0)
        iappendLoop fuel (p.drop n1) (off + n1) din
      else panic "assert"

def iappend (inum : Nat) (p : List UInt8) : MkM Unit := do
  let din ← rinode inum
  let (off, din) ← iappendLoop p.length p (dsize din) din
  winode inum (setSize din off)

/-- An input file: its argument and what the calls of `read` deliver. -/
structure Input where
  arg : List UInt8
  reads : List (List UInt8)

def shortname (arg : List UInt8) : List UInt8 := if "user/".toUTF8.toList <+: arg then arg.drop 5 else arg

def skipUnderscore (name : List UInt8) : List UInt8 := if name.head? = some 95 then name.drop 1 else name

def Input.name (f : Input) : List UInt8 := skipUnderscore (shortname f.arg)

def Input.bytes (f : Input) : List UInt8 := f.reads.flatten

def dirent (inum : Nat) (name : List UInt8) : List UInt8 := (List.range DIRENT).map (direntBytes name inum)

def addReads (inum : Nat) : List (List UInt8) → MkM Unit
  | [] => pure ()
  | buf :: l => do
    iappend inum buf
    addReads inum l

def addFile (rootino : Nat) (f : Input) : MkM Unit := do
  if slash ∈ shortname f.arg then panic "assert"
  else if f.name.length > DIRSIZ then panic "assert"
  else
    let inum ← ialloc T_FILE
    iappend rootino (dirent inum f.name)
    addReads inum f.reads

def addFiles (rootino : Nat) : List Input → MkM Unit
  | [] => pure ()
  | f :: fs => do
    addFile rootino f
    addFiles rootino fs

def superblock : Mem := fun k =>
  UInt8.ofNat ([FSMAGIC, FSSIZE, FSSIZE - nmeta, NINODES, nlog, 2, inodestart, bmapstart].getD (k / 4) 0 / 256 ^ (k % 4))

def fixRoot (rootino : Nat) : MkM Unit := do
  let din ← rinode rootino
  winode rootino (setSize din ((dsize din / BSIZE + 1) * BSIZE))

def main (files : List Input) : MkM Unit := do
  wsect 1 superblock
  let rootino ← ialloc T_DIR
  if rootino = ROOTINO then
    iappend rootino (dirent rootino [46])
    iappend rootino (dirent rootino [46, 46])
    addFiles rootino files
    fixRoot rootino
    balloc (← get).freeblock
  else panic "assert"

def start : Img := ⟨fun _ _ => 0, 1, nmeta⟩

def fileBlock (disk : Nat → Mem) (inum bn : Nat) : Nat :=
  if bn < NDIRECT then daddr (dinAt disk inum) bn
  else if daddr (dinAt disk inum) NDIRECT = 0 then 0
  else wordAt (disk (daddr (dinAt disk inum) NDIRECT)) (bn - NDIRECT)

def NoHoles (disk : Nat → Mem) (inum : Nat) : Prop :=
  ∀ bn, bn * BSIZE < dsize (dinAt disk inum) → fileBlock disk inum bn ≠ 0

end Xv6.Mkfs
