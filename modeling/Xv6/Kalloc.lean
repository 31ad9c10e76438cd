import Xv6.Lib.Bytes
import Xv6.Lib.Wp
import Xv6.Riscv

/-!
# The physical allocators (`kalloc.c`)

`kmem` is a list of free 4 KiB pages below the superpage pool, and `supermem` a stack of free 2 MiB superpages in the pool of
`NSUPERPAGES` superpages below `PHYSTOP`. `kmem.freelist` is held as the list of its pages, head first, and the array
`supermem.superpages` with its count `nfree` as the list of the `nfree` live slots, last slot first.
-/

namespace Xv6

open Bytes (Mem fill)

structure Phys where
  mem : Mem
  /-- `kmem.freelist`. -/
  freelist : List Nat
  /-- `supermem.superpages[nfree-1], …, supermem.superpages[0]`. -/
  superpages : List Nat

/-- Kernel code over a state: it returns, or stops in `panic` with a message. -/
abbrev Kern (σ α : Type) := StateT σ (Except String) α

abbrev PhysM := Kern Phys

abbrev NSUPERPAGES : Nat := 60

abbrev superBase : Nat := PHYSTOP - NSUPERPAGES * SUPERPGSIZE

def panic {σ α : Type} (msg : String) : Kern σ α := throw msg

def loadPte (a : Nat) : PhysM Nat := do return Bytes.loadLE (← get).mem a 8

def storePte (a w : Nat) : PhysM Unit := modify fun s => { s with mem := Bytes.storeLE s.mem a 8 w }

def memset (a : Nat) (c : UInt8) (n : Nat) : PhysM Unit :=
  modify fun s => { s with mem := fill s.mem a n c }

def memmove (dst src n : Nat) : PhysM Unit :=
  modify fun s => { s with mem := Bytes.copy s.mem dst src n }

def memmoveFrom (dst : Nat) (src : Nat → UInt8) (n : Nat) : PhysM Unit :=
  modify fun s => { s with mem := Bytes.write s.mem dst n src }

def kfree (pa : Nat) : PhysM Unit := do
  if pa % PGSIZE ≠ 0 ∨ pa < kernelEnd ∨ pa ≥ PHYSTOP then panic "kfree" else
  -- Fill with junk to catch dangling refs.
  memset pa 1 PGSIZE
  modify fun s => { s with freelist := pa :: s.freelist }

def kalloc : PhysM (Option Nat) := do
  match (← get).freelist with
  | [] => return none
  | r :: rest =>
    modify fun s => { s with freelist := rest }
    memset r 5 PGSIZE
    return some r

def freerangeLoop (paEnd p : Nat) : PhysM Unit := do
  if _ : p + PGSIZE ≤ paEnd then
    kfree p
    freerangeLoop paEnd (p + PGSIZE)
  else pure ()
termination_by paEnd - p
decreasing_by simp only [PGSIZE] at *; omega

def freerange (paStart paEnd : Nat) : PhysM Unit := freerangeLoop paEnd (pgroundup paStart)

def superalloc : PhysM (Option Nat) := do
  match (← get).superpages with
  | [] => return none
  | pg :: rest =>
    modify fun s => { s with superpages := rest }
    memset pg 5 SUPERPGSIZE
    return some pg

def superfree (pa : Nat) : PhysM Unit := do
  if pa % SUPERPGSIZE ≠ 0 then panic "superfree: pa not 2MiB aligned" else
  if pa < superBase ∨ pa ≥ PHYSTOP then panic "superfree: pa outside of superpage pool range" else
  memset pa 1 SUPERPGSIZE
  if (← get).superpages.length ≥ NSUPERPAGES then panic "superfree: superpage pool overflow" else
  modify fun s => { s with superpages := pa :: s.superpages }

/-- The loop of `superinit` over the slots still to fill; `top` is the lowest superpage taken so far. -/
def superinitLoop : Nat → Nat → PhysM Unit
  | 0, _ => pure ()
  | i + 1, top => do
    let top := (top - SUPERPGSIZE) / SUPERPGSIZE * SUPERPGSIZE
    modify fun s => { s with superpages := top :: s.superpages }
    superinitLoop i top

def superinit : PhysM Unit := do
  modify fun s => { s with superpages := [] }
  superinitLoop NSUPERPAGES PHYSTOP

def kinit : PhysM Unit := do
  superinit
  freerange kernelEnd superBase

section

open Hoare

variable {σ : Phys} {E : String → Prop} {a w n dst src pa : Nat} {c : UInt8} {Q : Unit → Phys → Prop}

theorem wp_panic {τ α : Type} {s : τ} {Q : α → τ → Prop} {msg : String} : wp (panic msg) Q E s ↔ E msg := Iff.rfl

theorem wp_loadPte {Q : Nat → Phys → Prop} : wp (loadPte a) Q E σ ↔ Q (Bytes.loadLE σ.mem a 8) σ := Iff.rfl

theorem wp_storePte :
    wp (storePte a w) Q E σ ↔ Q () { σ with mem := Bytes.storeLE σ.mem a 8 w } := Iff.rfl

theorem wp_memset :
    wp (memset a c n) Q E σ ↔ Q () { σ with mem := fill σ.mem a n c } := Iff.rfl

theorem wp_memmove :
    wp (memmove dst src n) Q E σ ↔ Q () { σ with mem := Bytes.copy σ.mem dst src n } := Iff.rfl

theorem wp_memmoveFrom {buf : Nat → UInt8} :
    wp (memmoveFrom dst buf n) Q E σ ↔ Q () { σ with mem := Bytes.write σ.mem dst n buf } := Iff.rfl

theorem wp_kalloc {Q : Option Nat → Phys → Prop} :
    wp kalloc Q E σ ↔ (σ.freelist = [] → Q none σ) ∧ ∀ r rest, σ.freelist = r :: rest →
      Q (some r) { σ with mem := fill σ.mem r PGSIZE 5, freelist := rest } := by
  rcases σ with ⟨m, l, s⟩
  rcases l with _ | ⟨r, rest⟩
  · simp only [kalloc, wp_bind, wp_get, wp_pure]; simp
  · simp only [kalloc, wp_bind, wp_get, wp_pure, wp_modify, wp_memset]; simp

theorem wp_superalloc {Q : Option Nat → Phys → Prop} :
    wp superalloc Q E σ ↔ (σ.superpages = [] → Q none σ) ∧ ∀ r rest, σ.superpages = r :: rest →
      Q (some r) { σ with mem := fill σ.mem r SUPERPGSIZE 5, superpages := rest } := by
  rcases σ with ⟨m, l, s⟩
  rcases s with _ | ⟨r, rest⟩
  · simp only [superalloc, wp_bind, wp_get, wp_pure]; simp
  · simp only [superalloc, wp_bind, wp_get, wp_pure, wp_modify, wp_memset]; simp

theorem wp_kfree (h1 : pa % PGSIZE = 0) (h2 : kernelEnd ≤ pa) (h3 : pa < PHYSTOP) :
    wp (kfree pa) Q E σ ↔ Q () { σ with mem := fill σ.mem pa PGSIZE 1, freelist := pa :: σ.freelist } := by
  unfold kfree
  rw [if_neg (by lia), wp_bind, wp_memset, wp_modify]

theorem wp_superfree (h1 : pa % SUPERPGSIZE = 0) (h2 : superBase ≤ pa) (h3 : pa < PHYSTOP)
    (h4 : σ.superpages.length < NSUPERPAGES) :
    wp (superfree pa) Q E σ ↔
      Q () { σ with mem := fill σ.mem pa SUPERPGSIZE 1, superpages := pa :: σ.superpages } := by
  unfold superfree
  rw [if_neg (by lia), if_neg (by lia), wp_bind, wp_memset, wp_bind, wp_get, if_neg (by lia), wp_modify]

end

end Xv6
