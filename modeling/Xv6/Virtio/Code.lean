import Xv6.Bio.Code
import Xv6.Lib.RingBuf

/-!
# The driver of the disk (`virtio_disk.c`)

`virtio_disk_rw` by `n` processes, `virtio_disk_intr`, and a device that works beside them without any lock. What the driver does
under `vdisk_lock` between two accesses to what it shares with the device is one step. The ring slot of a request and the index
that publishes it are written in two steps, and so are the device's transfer and its entry in the used ring. The callers hold the
sleep lock of the buffer, so a call starts only if no other call is in progress for it.

`Request`, `calls` and `finished` are histories that no code reads: an entry of a ring carries the request it was made for, and
`finished` collects the requests that the device has put in the used ring.
-/

namespace Xv6.Virtio

open Function (update)
open Run
open Xv6.Bio (NBUF)

abbrev NUM : Nat := 8
abbrev BSIZE : Nat := 1024
abbrev VRING_DESC_F_NEXT : Nat := 1
abbrev VRING_DESC_F_WRITE : Nat := 2

inductive Addr where
  | null
  | req (i : Nat)
  | data (b : Fin NBUF)
  | status (i : Nat)
  deriving DecidableEq

structure Desc where
  addr : Addr := .null
  len : Nat := 0
  flags : Nat := 0
  next : Nat := 0
  deriving DecidableEq

/-- `struct virtio_blk_req`; the type is `VIRTIO_BLK_T_OUT` if `write` is set. -/
structure Req where
  write : Bool := false
  sector : BitVec 32 := 0
  deriving DecidableEq

structure Info where
  b : Option (Fin NBUF) := none
  status : Nat := 0
  deriving DecidableEq

structure Request (n : Nat) where
  p : Fin n
  call : Nat
  b : Fin NBUF
  deriving DecidableEq

structure Entry (n : Nat) where
  id : Nat := 0
  req : Option (Request n) := none
  deriving DecidableEq

structure Chain where
  i₀ : Nat
  i₁ : Nat
  i₂ : Nat
  deriving DecidableEq

/-- Where a call of `virtio_disk_rw` is. -/
inductive Phase where
  /-- In the loop that allocates the descriptors. -/
  | alloc
  /-- The descriptors are formatted. -/
  | announce (idx : Chain)
  /-- The slot of the avail ring is written. -/
  | publish (idx : Chain)
  /-- In the loop that waits for the device. -/
  | wait (idx : Chain)
  deriving DecidableEq

/-- What the process does there: it waits for `vdisk_lock`, holds it, or sleeps. -/
inductive At where
  | acquire
  | running
  | asleep
  deriving DecidableEq

inductive Pc where
  | idle
  | rw (b : Fin NBUF) (write : Bool) (ph : Phase) (pos : At)
  deriving DecidableEq

/-- What a process sleeps on: `&disk.free[0]` or a buffer. -/
inductive Chan where
  | free
  | buf (b : Fin NBUF)
  deriving DecidableEq

def Phase.chan (b : Fin NBUF) : Phase → Option Chan
  | .alloc => some .free
  | .wait _ => some (.buf b)
  | _ => none

inductive Holder (n : Nat) where
  | proc (p : Fin n)
  | intr
  deriving DecidableEq

structure State (β : Type) (n : Nat) where
  desc : Nat → Desc
  free : Nat → Bool
  info : Nat → Info
  ops : Nat → Req
  /-- The avail ring, from the place that the device has reached to `avail->idx`. -/
  avail : RingBuf 16 (Entry n)
  /-- The used ring, from `disk.used_idx` to `used->idx`. -/
  used : RingBuf 16 (Entry n)
  /-- `b->disk`. -/
  disk : Fin NBUF → Bool
  blockno : Fin NBUF → BitVec 32
  data : Fin NBUF → β
  /-- The holder of `vdisk_lock`. -/
  lock : Option (Holder n)
  pc : Fin n → Pc
  calls : Fin n → Nat
  /-- The chains that the device works on. -/
  taken : List (Entry n)
  /-- The chains that it has done with and not yet put in the used ring. -/
  worked : List (Entry n)
  /-- The blocks of the disk by their first sector. -/
  media : BitVec 32 → β
  finished : List (Request n)

variable {β : Type} {n : Nat}

namespace State

variable (s : State β n)

/-- The processes that sleep on `chan` go on to reacquire the lock. -/
def wakeup (chan : Chan) : State β n :=
  { s with pc := fun q =>
      match s.pc q with
      | .rw b w ph .asleep => if ph.chan b = some chan then .rw b w ph .acquire else .rw b w ph .asleep
      | x => x }

def allocDesc : Option (State β n × Nat) :=
  match (List.range NUM).find? s.free with
  | some i => some ({ s with free := update s.free i false }, i)
  | none => none

def freeDesc (i : Nat) : Except Stop (State β n) :=
  if i ≥ NUM then .error (.panic "free_desc 1")
  else if s.free i then .error (.panic "free_desc 2")
  else .ok (wakeup { s with desc := update s.desc i {}, free := update s.free i true } .free)

/-- Free a chain of descriptors. Every pass frees one, so a pass for each of them and one more are enough. -/
def freeChain : Nat → State β n → Nat → Except Stop (State β n)
  | 0, _, _ => .error (.panic "free_desc 2")
  | fuel + 1, s, i =>
    let flag := (s.desc i).flags
    let nxt := (s.desc i).next
    match s.freeDesc i with
    | .error e => .error e
    | .ok s => if flag &&& VRING_DESC_F_NEXT ≠ 0 then freeChain fuel s nxt else .ok s

def alloc3Desc : Except Stop (State β n × Option Chain) :=
  match s.allocDesc with
  | none => .ok (s, none)
  | some (s₁, i₀) =>
    match s₁.allocDesc with
    | none => (s₁.freeDesc i₀).map fun s => (s, none)
    | some (s₂, i₁) =>
      match s₂.allocDesc with
      | none => ((s₂.freeDesc i₀).bind fun s => s.freeDesc i₁).map fun s => (s, none)
      | some (s₃, i₂) => .ok (s₃, some ⟨i₀, i₁, i₂⟩)

def format (b : Fin NBUF) (write : Bool) (idx : Chain) : State β n :=
  { s with
    ops := update s.ops idx.i₀ ⟨write, s.blockno b * 2⟩
    desc := update (update (update s.desc
      idx.i₀ ⟨.req idx.i₀, 16, VRING_DESC_F_NEXT, idx.i₁⟩)
      idx.i₁ ⟨.data b, BSIZE, (if write then 0 else VRING_DESC_F_WRITE) ||| VRING_DESC_F_NEXT, idx.i₂⟩)
      idx.i₂ ⟨.status idx.i₀, 1, VRING_DESC_F_WRITE, 0⟩
    info := update s.info idx.i₀ ⟨some b, 0xff⟩
    disk := update s.disk b true }

def setPc (p : Fin n) (x : Pc) : State β n := { s with pc := update s.pc p x }

def step (p : Fin n) : Except Stop (State β n) :=
  match s.pc p with
  | .idle => .error .blocked
  | .rw _ _ _ .asleep => .error .blocked
  | .rw b w ph .acquire =>
    if s.lock = none then .ok { s.setPc p (.rw b w ph .running) with lock := some (.proc p) } else .error .blocked
  | .rw b w .alloc .running =>
    match s.alloc3Desc with
    | .error e => .error e
    | .ok (s, none) => .ok { s.setPc p (.rw b w .alloc .asleep) with lock := none }
    | .ok (s, some idx) => .ok ((s.format b w idx).setPc p (.rw b w (.announce idx) .running))
  | .rw b w (.announce idx) .running =>
    -- tell the device the first index in our chain of descriptors
    .ok { s.setPc p (.rw b w (.publish idx) .running) with
      avail := { s.avail with
        data := update s.avail.data (s.avail.tail.toNat % NUM) ⟨idx.i₀, some ⟨p, s.calls p, b⟩⟩ } }
  | .rw b w (.publish idx) .running =>
    -- tell the device another avail ring entry is available
    .ok { s.setPc p (.rw b w (.wait idx) .running) with avail := { s.avail with tail := s.avail.tail + 1 } }
  | .rw b w (.wait idx) .running =>
    if s.disk b then .ok { s.setPc p (.rw b w (.wait idx) .asleep) with lock := none }
    else
      match freeChain (NUM + 1) { s with info := update s.info idx.i₀ { s.info idx.i₀ with b := none } } idx.i₀ with
      | .error e => .error e
      | .ok s => .ok { s.setPc p .idle with lock := none }

/-- One pass of the loop of `virtio_disk_intr`, or the end of it. -/
def intr : Except Stop (State β n) :=
  if s.lock ≠ some .intr then .error .blocked
  else if s.used.head = s.used.tail then .ok { s with lock := none }
  else
    let id := (s.used.front NUM).id
    if (s.info id).status ≠ 0 then .error (.panic "virtio_disk_intr status")
    else
      match (s.info id).b with
      | none => .error (.panic "kerneltrap")
      | some b =>
        -- disk is done with buf
        let s := wakeup { s with disk := update s.disk b false } (.buf b)
        .ok { s with used := s.used.take }

def devTake : Except Stop (State β n) :=
  if s.avail.head = s.avail.tail then .error .blocked
  else .ok { s with avail := s.avail.take, taken := s.avail.front NUM :: s.taken }

def devWork (e : Entry n) : Except Stop (State β n) :=
  if e ∉ s.taken then .error .blocked
  else
    let d₀ := s.desc e.id
    let d₁ := s.desc d₀.next
    let d₂ := s.desc d₁.next
    match d₀.addr, d₁.addr, d₂.addr with
    | .req i, .data b, .status j =>
      let sector := (s.ops i).sector
      .ok { s with
        media := if (s.ops i).write then update s.media sector (s.data b) else s.media
        data := if (s.ops i).write then s.data else update s.data b (s.media sector)
        info := update s.info j { s.info j with status := 0 }
        taken := s.taken.erase e
        worked := e :: s.worked }
    | _, _, _ => .error (.panic "device")

def devDone (e : Entry n) : Except Stop (State β n) :=
  if e ∉ s.worked then .error .blocked
  else .ok { s with used := s.used.put NUM e, worked := s.worked.erase e, finished := e.req.toList ++ s.finished }

end State

inductive Event (n : Nat) where
  /-- A process that holds the sleep lock of the buffer calls `virtio_disk_rw`. -/
  | call (p : Fin n) (b : Fin NBUF) (write : Bool)
  | step (p : Fin n)
  /-- `kill` makes a sleeping process runnable. -/
  | wake (p : Fin n)
  /-- `virtio_disk_intr` is called and acquires the lock. -/
  | irq
  | intr
  | devTake
  | devWork (e : Entry n)
  | devDone (e : Entry n)

def Pc.buf : Pc → Option (Fin NBUF)
  | .idle => none
  | .rw b _ _ _ => some b

def next (s : State β n) : Event n → Except Stop (State β n)
  | .call p b w =>
    if s.pc p = .idle ∧ ∀ q, (s.pc q).buf ≠ some b then
      .ok { s.setPc p (.rw b w .alloc .acquire) with calls := update s.calls p (s.calls p + 1) }
    else .error .blocked
  | .step p => s.step p
  | .wake p =>
    match s.pc p with
    | .rw b w ph .asleep => .ok (s.setPc p (.rw b w ph .acquire))
    | _ => .error .blocked
  | .irq => if s.lock = none then .ok { s with lock := some .intr } else .error .blocked
  | .intr => s.intr
  | .devTake => s.devTake
  | .devWork e => s.devWork e
  | .devDone e => s.devDone e

/-- After `virtio_disk_init`, with any buffers and any disk, and with the indices of the rings anywhere. -/
structure Start (s : State β n) : Prop where
  free : ∀ i, i < NUM → s.free i = true
  avail : s.avail.head = s.avail.tail
  used : s.used.head = s.used.tail
  lock : s.lock = none
  pc : ∀ p, s.pc p = .idle
  taken : s.taken = []
  worked : s.worked = []

end Xv6.Virtio
