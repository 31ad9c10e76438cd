import Mathlib.Algebra.Group.Nat.Defs
import Mathlib.Logic.Function.Basic

/-!
# The allocator of user programs (`umalloc.c`)

A header is two words, the link `s.ptr` and the number `s.size` of units of 16 bytes, and is given by its address. `base` is the
address of the static header. The search of `free` and the loop of `malloc` have no bound of their own: `fuel` bounds them, and a
longer loop is `none`.
-/

namespace Xv6.Malloc

/-- The headers, and the static variable `freep`, which is 0 before the first call. -/
structure Heap where
  ptr : Nat → Nat
  size : Nat → Nat
  freep : Nat

def Heap.setPtr (h : Heap) (a v : Nat) : Heap := { h with ptr := Function.update h.ptr a v }

def Heap.setSize (h : Heap) (a n : Nat) : Heap := { h with size := Function.update h.size a n }

def freeLoop (h : Heap) (bp : Nat) : Nat → Nat → Option Nat
  | 0, _ => none
  | fuel + 1, p =>
    if bp > p ∧ bp < h.ptr p then some p
    else if p ≥ h.ptr p ∧ (bp > p ∨ bp < h.ptr p) then some p
    else freeLoop h bp fuel (h.ptr p)

def joinNext (h : Heap) (p bp : Nat) : Heap :=
  if bp + 16 * h.size bp = h.ptr p then
    (h.setSize bp ((h.size bp + h.size (h.ptr p)) % 2 ^ 32)).setPtr bp (h.ptr (h.ptr p))
  else h.setPtr bp (h.ptr p)

def joinPrev (h : Heap) (p bp : Nat) : Heap :=
  if p + 16 * h.size p = bp then (h.setSize p ((h.size p + h.size bp) % 2 ^ 32)).setPtr p (h.ptr bp)
  else h.setPtr p bp

def free (h : Heap) (fuel ap : Nat) : Option Heap :=
  let bp := ap - 16
  (freeLoop h bp fuel h.freep).map fun p => { joinPrev (joinNext h p bp) p bp with freep := p }

def nunits (nbytes : Nat) : Nat := (nbytes + 16 - 1) / 16 + 1

def coreUnits (nu : Nat) : Nat := if nu < 4096 then 4096 else nu

def asInt (x : Nat) : Int := (BitVec.ofNat 32 x).toInt

variable {κ : Type}

def morecore (sbrk : κ → Int → Option Nat × κ) (h : Heap) (k : κ) (fuel nu : Nat) : Option (Option Nat × Heap × κ) :=
  match sbrk k (asInt (coreUnits nu * 16)) with
  | (none, k) => some (none, h, k)
  | (some p, k) => (free (h.setSize p (coreUnits nu)) fuel (p + 16)).map fun h => (some h.freep, h, k)

def take (h : Heap) (nunits prevp p : Nat) : Nat × Heap :=
  if h.size p = nunits then (p + 16, { h.setPtr prevp (h.ptr p) with freep := prevp })
  else
    let rest := h.size p - nunits
    (p + 16 * rest + 16, { (h.setSize p rest).setSize (p + 16 * rest) nunits with freep := prevp })

/-- The loop of `malloc`; the null pointer is 0. -/
def mallocLoop (sbrk : κ → Int → Option Nat × κ) (nunits : Nat) : Nat → Heap → κ → Nat → Nat → Option (Nat × Heap × κ)
  | 0, _, _, _, _ => none
  | fuel + 1, h, k, prevp, p =>
    if h.size p ≥ nunits then some ((take h nunits prevp p).1, (take h nunits prevp p).2, k)
    else if p = h.freep then
      match morecore sbrk h k fuel nunits with
      | none => none
      | some (none, h, k) => some (0, h, k)
      | some (some p, h, k) => mallocLoop sbrk nunits fuel h k p (h.ptr p)
    else mallocLoop sbrk nunits fuel h k p (h.ptr p)

def begin (base : Nat) (h : Heap) : Heap :=
  if h.freep = 0 then { (h.setPtr base base).setSize base 0 with freep := base } else h

def malloc (sbrk : κ → Int → Option Nat × κ) (base : Nat) (h : Heap) (k : κ) (fuel nbytes : Nat) : Option (Nat × Heap × κ) :=
  let h := begin base h
  mallocLoop sbrk (nunits nbytes) fuel h k h.freep (h.ptr h.freep)

end Xv6.Malloc
