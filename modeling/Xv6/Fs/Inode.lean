import Xv6.Fs.State

/-!
# Blocks and inodes (`fs.c`)

The functions on blocks and inodes as programs of atomic steps: what the source does while it holds `itable.lock` or one buffer, a
sleep lock operation, or an access to the fields of an inode whose sleep lock is held, which may join the buffer operation next to it.
-/

namespace Xv6.Fs

open Function (update)
open Run Prog

variable {n : Nat}

/-- The first of the `k` blocks from `b` on whose bit is clear. -/
def firstFree (bitmap : Nat → Bool) (b : Nat) : Nat → Option Nat
  | 0 => none
  | k + 1 => if bitmap b then firstFree bitmap (b + 1) k else some b

/-- One pass of the loop of `balloc`: look for a free block in the bitmap block that starts with block `b`, and mark it. -/
def State.ballocIn (s : State n) (b : Nat) : State n × Option Nat :=
  match firstFree s.bitmap b (min BPB (s.sb.size - b)) with
  | some x => ({ s with bitmap := update s.bitmap x true }, some x)
  | none => (s, none)

def bzero (bno : Nat) : FsM n Unit :=
  change fun s => { s with block := update s.block bno fun _ => 0 }

def ballocLoop : List Nat → FsM n Nat
  | [] => pure 0
  | b :: bs => do
    match ← atomic fun s => .ok (s.ballocIn b) with
    | some x =>
      bzero x
      return x
    | none => ballocLoop bs

def balloc : FsM n Nat := do
  let size ← look fun s => s.sb.size
  ballocLoop ((List.range ((size + BPB - 1) / BPB)).map (· * BPB))

def State.bfree (s : State n) (b : Nat) : Except Stop (State n) :=
  if s.bitmap b then .ok { s with bitmap := update s.bitmap b false }
  else .error (.panic "freeing free block")

variable (p : Fin n)

def State.cached (s : State n) (inum : Nat) : Option (Fin NINODE) :=
  (List.finRange NINODE).find? fun i => decide ((s.itable i).ref > 0 ∧ (s.itable i).inum = inum)

def State.empty (s : State n) : Option (Fin NINODE) :=
  (List.finRange NINODE).find? fun i => decide ((s.itable i).ref = 0)

def iget (inum : Nat) : FsM n (Fin NINODE) := atomic fun s =>
  match s.cached inum with
  | some i => .ok ((s.setInode i { s.itable i with ref := (s.itable i).ref + 1 }).noteInode p i 1, i)
  | none =>
    match s.empty with
    | none => .error (.panic "iget: no inodes")
    | some i =>
      .ok ((s.setInode i { s.itable i with inum := inum, ref := 1, valid := false }).noteInode p i 1, i)

def idup (i : Fin NINODE) : FsM n Unit :=
  change fun s => (s.setInode i { s.itable i with ref := (s.itable i).ref + 1 }).noteInode p i 1

/-- The passes of the loop of `ialloc`: the first free dinode among those given is marked. -/
def iallocLoop (type : InodeType) : List Nat → FsM n (Option (Fin NINODE))
  | [] => pure none
  | inum :: l => do
    if ← atomic fun s =>
        if (s.dinode inum).type = .free then
          .ok ({ s with dinode := update s.dinode inum { type := type } }, true)
        else .ok (s, false) then
      return some (← iget p inum)
    else iallocLoop type l

def ialloc (type : InodeType) : FsM n (Option (Fin NINODE)) := do
  let ninodes ← look fun s => s.sb.ninodes
  iallocLoop p type (List.range' 1 (ninodes - 1))

def load (i : Fin NINODE) : FsM n Dinode := look fun s => (s.itable i).d

def store (i : Fin NINODE) (f : Dinode → Dinode) : FsM n Unit :=
  change fun s => s.setInode i { s.itable i with d := f (s.itable i).d }

def iupdate (i : Fin NINODE) : FsM n Unit :=
  change fun s => { s with dinode := update s.dinode (s.itable i).inum (s.itable i).d }

def ilock (i : Fin NINODE) : FsM n Unit := do
  atomic fun s =>
    if (s.itable i).ref < 1 then .error (.panic "ilock")
    else if (s.itable i).lock = none then .ok (s.setInode i { s.itable i with lock := some p }, ())
    else .error .blocked
  atomic fun s =>
    if (s.itable i).valid then .ok (s, ())
    else if (s.dinode (s.itable i).inum).type = .free then .error (.panic "ilock: no type")
    else .ok (s.setInode i { s.itable i with d := s.dinode (s.itable i).inum, valid := true }, ())

def iunlock (i : Fin NINODE) : FsM n Unit := atomic fun s =>
  if (s.itable i).lock ≠ some p ∨ (s.itable i).ref < 1 then .error (.panic "iunlock")
  else .ok (s.setInode i { s.itable i with lock := none }, ())

def wordAt (b : Bytes.Mem) (k : Nat) : Nat := Bytes.loadLE b (4 * k) 4

def Dinode.setAddr (k a : Nat) (d : Dinode) : Dinode := { d with addrs := update d.addrs k a }

def bmap (i : Fin NINODE) (bn : Nat) : FsM n Nat := do
  if bn < NDIRECT then
    let addr := (← load i).addrs bn
    if addr = 0 then
      let addr ← balloc
      if addr = 0 then return 0
      else
        store i (Dinode.setAddr bn addr)
        return addr
    else return addr
  else if bn - NDIRECT < NINDIRECT then
    let ind := (← load i).addrs NDIRECT
    let ind ←
      if ind = 0 then do
        let addr ← balloc
        if addr = 0 then pure 0
        else
          store i (Dinode.setAddr NDIRECT addr)
          pure addr
      else pure ind
    if ind = 0 then return 0
    else
      let addr ← look fun s => wordAt (s.block ind) (bn - NDIRECT)
      if addr = 0 then
        let addr ← balloc
        if addr = 0 then return 0
        else
          change fun s =>
            { s with block := update s.block ind (Bytes.storeLE (s.block ind) (4 * (bn - NDIRECT)) 4 addr) }
          return addr
      else return addr
  else panic "bmap: out of range"

def truncAddr (i : Fin NINODE) (k : Nat) : FsM n Unit := atomic fun s =>
  if (s.itable i).d.addrs k = 0 then .ok (s, ())
  else
    match s.bfree ((s.itable i).d.addrs k) with
    | .ok s' => .ok (s'.setInode i { s.itable i with d := (s.itable i).d.setAddr k 0 }, ())
    | .error e => .error e

/-- Free the block that element `j` of the indirect block `ind` names. -/
def truncEntry (ind j : Nat) : FsM n Unit := atomic fun s =>
  if wordAt (s.block ind) j = 0 then .ok (s, ())
  else
    match s.bfree (wordAt (s.block ind) j) with
    | .ok s' => .ok (s', ())
    | .error e => .error e

def itrunc (i : Fin NINODE) : FsM n Unit := do
  forEach (List.range NDIRECT) (truncAddr i)
  let ind := (← load i).addrs NDIRECT
  if ind ≠ 0 then
    forEach (List.range NINDIRECT) (truncEntry ind)
    truncAddr i NDIRECT
  store i fun d => { d with size := 0 }
  iupdate i

/-- The first part of `iput`: whether the inode is to be freed. If not, the reference is dropped at once. -/
def State.iputCheck (s : State n) (i : Fin NINODE) : Except Stop (State n × Bool) :=
  if (s.itable i).ref = 1 ∧ (s.itable i).valid = true ∧ (s.itable i).d.nlink = 0 then
    -- `acquiresleep` would have to sleep with `itable.lock` held
    if (s.itable i).lock = none then
      .ok (s.setInode i { s.itable i with lock := some p, freeing := true }, true)
    else .error (.panic "sched locks")
  else .ok ((s.setInode i { s.itable i with ref := (s.itable i).ref - 1 }).noteInode p i (-1), false)

def iput (i : Fin NINODE) : FsM n Unit := do
  if ← atomic fun s => s.iputCheck p i then
    itrunc i
    store i fun d => { d with type := .free }
    iupdate i
    change fun s => s.setInode i { s.itable i with valid := false, lock := none }
    change fun s =>
      (s.setInode i { s.itable i with ref := (s.itable i).ref - 1, freeing := false }).noteInode p i (-1)
  else pure ()

def iunlockput (i : Fin NINODE) : FsM n Unit := do
  iunlock p i
  iput p i

/-- The loop of `readi`: the number of bytes read or -1, and the bytes. `dst t m` says that `m` bytes can be copied out to
the destination from position `t` on. Every pass reads a byte at least, so `fuel = n` passes are enough. -/
def readiLoop (i : Fin NINODE) (dst : Nat → Nat → Bool) (len : Nat) :
    Nat → Nat → Nat → List UInt8 → FsM n (Int × List UInt8)
  | 0, _, tot, bytes => pure (tot, bytes)
  | fuel + 1, off, tot, bytes => do
    if tot < len then
      let addr ← bmap i (off / BSIZE)
      if addr = 0 then return (tot, bytes)
      else
        let m := min (len - tot) (BSIZE - off % BSIZE)
        let chunk ← look fun s => (List.range m).map fun k => s.block addr (off % BSIZE + k)
        if dst tot m then readiLoop i dst len fuel (off + m) (tot + m) (bytes ++ chunk)
        else return (-1, bytes)
    else return (tot, bytes)

def readi (i : Fin NINODE) (dst : Nat → Nat → Bool) (off len : Nat) : FsM n (Int × List UInt8) := do
  let size := (← load i).size
  if off > size ∨ (off + len) % 2 ^ 32 < off then return (0, [])
  else
    let len := if off + len > size then size - off else len
    readiLoop i dst len len off 0 []

def copied (src : Nat → Option UInt8) (t : Nat) : Nat → Nat
  | 0 => 0
  | m + 1 => if (src t).isSome then copied src (t + 1) m + 1 else 0

def writeiLoop (i : Fin NINODE) (src : Nat → Option UInt8) (len : Nat) : Nat → Nat → Nat → FsM n (Nat × Nat)
  | 0, off, tot => pure (tot, off)
  | fuel + 1, off, tot => do
    if tot < len then
      let addr ← bmap i (off / BSIZE)
      if addr = 0 then return (tot, off)
      else
        let m := min (len - tot) (BSIZE - off % BSIZE)
        -- the bytes before the first one that cannot be read are copied in either case
        change fun s => { s with
          block := update s.block addr
            (Bytes.write (s.block addr) (off % BSIZE) (copied src tot m) fun k => (src (tot + k)).getD 0) }
        if copied src tot m = m then writeiLoop i src len fuel (off + m) (tot + m)
        else return (tot, off)
    else return (tot, off)

/-- `writei`; `src` is the source, byte by byte, as far as it can be read. -/
def writei (i : Fin NINODE) (src : Nat → Option UInt8) (off len : Nat) : FsM n Int := do
  let size := (← load i).size
  if off > size ∨ (off + len) % 2 ^ 32 < off then return -1
  else if (off + len) % 2 ^ 32 > MAXFILE * BSIZE then return -1
  else
    let (tot, off) ← writeiLoop i src len len off 0
    store i fun d => { d with size := if off > d.size then off else d.size }
    iupdate i
    return tot

end Xv6.Fs
