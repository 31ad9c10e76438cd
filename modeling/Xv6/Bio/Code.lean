import Mathlib.Data.List.FinRange
import Xv6.Lib.DList
import Xv6.Lib.Run

/-!
# The buffer cache (`bio.c`)

`bread`, `bwrite`, `brelse`, `bpin` and `bunpin` by `n` processes, over block contents of an arbitrary type `β`. What a
process does while it holds `bcache.lock` is one step; so are its waits for the sleep lock of a buffer and its accesses to the disk.
The disk is `virtio_disk_rw` on whole blocks: it looks at `b->blockno` only, and computes the sector in 32 bits.
-/

namespace Xv6.Bio

open Function (update)
open Run DList

abbrev NBUF : Nat := 30

/-- `struct buf`, with the process that holds the sleep lock and without the links. -/
structure Buf (β : Type) (n : Nat) where
  /-- has data been read from disk? -/
  valid : Bool
  dev : BitVec 32
  blockno : BitVec 32
  lock : Option (Fin n)
  refcnt : BitVec 32
  data : β

/-- A node of the list of buffers; `none` is `&bcache.head`. -/
abbrev Node := Option (Fin NBUF)

/-- Where a process is in `bread` or `brelse`. -/
inductive Pc where
  | idle
  /-- In `bread(dev, blockno)`, at `acquiresleep(&b->lock)`. -/
  | wait (b : Fin NBUF) (dev blockno : BitVec 32)
  /-- In `bread`, with the sleep lock of `b` acquired. -/
  | locked (b : Fin NBUF) (dev blockno : BitVec 32)
  /-- `bread(dev, blockno)` has returned `b`. -/
  | ret (b : Fin NBUF) (dev blockno : BitVec 32)
  /-- In `brelse(b)`, with the sleep lock released. -/
  | rel (b : Fin NBUF)
  deriving DecidableEq

/-- The cache, the disk and the processes. The last three fields are histories that no code reads. -/
structure State (β : Type) (n : Nat) where
  buf : Fin NBUF → Buf β n
  links : Links Node
  /-- The blocks of the disk by their first sector. -/
  disk : BitVec 32 → β
  pc : Fin n → Pc
  /-- The contents that the latest holder to modify each block left. -/
  mem : BitVec 32 → β
  /-- The buffers that were modified and not written since. -/
  dirty : Fin NBUF → Bool
  /-- How many times each buffer is pinned. -/
  pins : Fin NBUF → Nat

variable {β : Type} {n : Nat}

def sector (blockno : BitVec 32) : BitVec 32 := blockno * 2

def binit : Links Node :=
  (List.finRange NBUF).foldl (fun k b => k.insertAfter none (some b)) ⟨fun _ => none, fun _ => none⟩

/-- After `binit`, with the other fields of the buffers zero and `zero` for the contents of a zeroed buffer. -/
def init (n : Nat) (zero : β) (disk : BitVec 32 → β) : State β n where
  buf := fun _ => ⟨false, 0, 0, none, 0, zero⟩
  links := binit
  disk := disk
  pc := fun _ => .idle
  mem := fun blockno => disk (sector blockno)
  dirty := fun _ => false
  pins := fun _ => 0

def State.setBuf (s : State β n) (b : Fin NBUF) (x : Buf β n) : State β n :=
  { s with buf := update s.buf b x }

def State.goto (s : State β n) (p : Fin n) (pc : Pc) : State β n := { s with pc := update s.pc p pc }

def Pc.Free : Pc → Prop
  | .idle | .ret .. => True
  | .wait .. | .locked .. | .rel _ => False

instance (pc : Pc) : Decidable pc.Free := by
  cases pc <;> unfold Pc.Free <;> infer_instance

def State.matching (s : State β n) (dev blockno : BitVec 32) : Node → Bool
  | none => false
  | some b => (s.buf b).dev = dev ∧ (s.buf b).blockno = blockno

def State.unused (s : State β n) : Node → Bool
  | none => false
  | some b => (s.buf b).refcnt = 0

/-- The critical section of `bget`. A walk that does not come back to the head never ends, and the process is stuck. -/
def State.bget (s : State β n) (p : Fin n) (dev blockno : BitVec 32) : Except Stop (State β n) :=
  match scan s.links.next none (s.matching dev blockno) (NBUF + 1) (s.links.next none) with
  | some (some (some b)) =>
    .ok ((s.setBuf b { s.buf b with refcnt := (s.buf b).refcnt + 1 }).goto p (.wait b dev blockno))
  | some _ =>
    match scan s.links.prev none s.unused (NBUF + 1) (s.links.prev none) with
    | some (some (some b)) =>
      .ok { (s.setBuf b
          { s.buf b with dev := dev, blockno := blockno, valid := false, refcnt := 1 }).goto p (.wait b dev blockno) with
        dirty := update s.dirty b false }
    | some _ => .error (.panic "bget: no buffers")
    | none => .error .blocked
  | none => .error .blocked

def State.acquiresleep (s : State β n) (p : Fin n) (b : Fin NBUF) (dev blockno : BitVec 32) :
    Except Stop (State β n) :=
  match (s.buf b).lock with
  | none => .ok ((s.setBuf b { s.buf b with lock := some p }).goto p (.locked b dev blockno))
  | some _ => .error .blocked

/-- The contents of `b` after the rest of `bread`: `if(!b->valid) { virtio_disk_rw(b, 0); b->valid = 1; }`. -/
def State.filled (s : State β n) (b : Fin NBUF) : Buf β n :=
  if (s.buf b).valid then s.buf b
  else { s.buf b with data := s.disk (sector (s.buf b).blockno), valid := true }

def State.breadFill (s : State β n) (p : Fin n) (b : Fin NBUF) (dev blockno : BitVec 32) : State β n :=
  (s.setBuf b (s.filled b)).goto p (.ret b dev blockno)

def State.bwrite (s : State β n) (p : Fin n) (b : Fin NBUF) : Except Stop (State β n) :=
  if (s.buf b).lock = some p then
    .ok { s with
      disk := update s.disk (sector (s.buf b).blockno) (s.buf b).data
      dirty := update s.dirty b false }
  else .error (.panic "bwrite")

def State.brelse (s : State β n) (p : Fin n) (b : Fin NBUF) : Except Stop (State β n) :=
  if (s.buf b).lock = some p then .ok ((s.setBuf b { s.buf b with lock := none }).goto p (.rel b))
  else .error (.panic "brelse")

def State.brelseUnref (s : State β n) (p : Fin n) (b : Fin NBUF) : State β n :=
  let refcnt := (s.buf b).refcnt - 1
  { (s.setBuf b { s.buf b with refcnt := refcnt }).goto p .idle with
    links := if refcnt = 0 then (s.links.unlink (some b)).insertAfter none (some b) else s.links }

def State.bpin (s : State β n) (b : Fin NBUF) : State β n :=
  { s.setBuf b { s.buf b with refcnt := (s.buf b).refcnt + 1 } with pins := update s.pins b (s.pins b + 1) }

def State.bunpin (s : State β n) (b : Fin NBUF) : State β n :=
  { s.setBuf b { s.buf b with refcnt := (s.buf b).refcnt - 1 } with pins := update s.pins b (s.pins b - 1) }

def State.modify (s : State β n) (p : Fin n) (b : Fin NBUF) (v : β) : Except Stop (State β n) :=
  if (s.buf b).lock = some p then
    .ok { s.setBuf b { s.buf b with data := v } with
      mem := update s.mem (s.buf b).blockno v
      dirty := update s.dirty b true }
  else .error .blocked

/-- What can happen next; all but `step` are calls by a process that is not in one. -/
inductive Event (β : Type) (n : Nat) where
  | bread (p : Fin n) (dev blockno : BitVec 32)
  | modify (p : Fin n) (b : Fin NBUF) (v : β)
  | bwrite (p : Fin n) (b : Fin NBUF)
  | brelse (p : Fin n) (b : Fin NBUF)
  | bpin (p : Fin n) (b : Fin NBUF)
  | bunpin (p : Fin n) (b : Fin NBUF)
  | step (p : Fin n)

def State.call (s : State β n) (p : Fin n) (f : Except Stop (State β n)) : Except Stop (State β n) :=
  if (s.pc p).Free then f else .error .blocked

def State.step (s : State β n) (p : Fin n) : Except Stop (State β n) :=
  match s.pc p with
  | .wait b dev blockno => s.acquiresleep p b dev blockno
  | .locked b dev blockno => .ok (s.breadFill p b dev blockno)
  | .rel b => .ok (s.brelseUnref p b)
  | .idle | .ret .. => .error .blocked

def State.next (s : State β n) : Event β n → Except Stop (State β n)
  | .bread p dev blockno => s.call p (s.bget p dev blockno)
  | .modify p b v => s.call p (s.modify p b v)
  | .bwrite p b => s.call p (s.bwrite p b)
  | .brelse p b => s.call p (s.brelse p b)
  | .bpin p b => s.call p (.ok (s.bpin b))
  | .bunpin p b => s.call p (.ok (s.bunpin b))
  | .step p => s.step p

end Xv6.Bio
