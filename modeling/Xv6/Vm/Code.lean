import Xv6.Kalloc

/-!
# Page tables and user memory (`vm.c`)

The functions of `vm.c` over physical memory. A `pte_t *` is the physical address of the entry, a null pointer
is `none`; a page table is the address of its root page. The loops whose step is a page or a superpage recurse
on the address; `mappages` recurses on the number of pages left, which is one exactly when `a == last`.
-/

namespace Xv6

def walkLoop (va : Nat) (alloc : Bool) : Nat → Nat → PhysM (Option Nat)
  | 0, pagetable => return some (pagetable + 8 * px 0 va)
  | level + 1, pagetable => do
    let pte := pagetable + 8 * px (level + 1) va
    let e ← loadPte pte
    if hasFlag e PTE_V then
      if pteLeaf e then return some pte
      else walkLoop va alloc level (pte2pa e)
    else if !alloc then return none
    else
      match ← kalloc with
      | none => return none
      | some pagetable =>
        memset pagetable 0 PGSIZE
        storePte pte (pa2pte pagetable ||| PTE_V)
        walkLoop va alloc level pagetable

def walk (pagetable va : Nat) (alloc : Bool) : PhysM (Option Nat) :=
  if va ≥ MAXVA then panic "walk" else walkLoop va alloc 2 pagetable

def superwalk (pagetable va : Nat) (alloc : Bool) : PhysM (Option Nat) := do
  if va ≥ MAXVA then panic "superwalk" else
  let pte := pagetable + 8 * px 2 va
  let e ← loadPte pte
  if hasFlag e PTE_V then return some (pte2pa e + 8 * px 1 va)
  else if !alloc then return none
  else
    match ← kalloc with
    | none => return none
    | some pagetable =>
      memset pagetable 0 PGSIZE
      storePte pte (pa2pte pagetable ||| PTE_V)
      return some (pagetable + 8 * px 1 va)

def walkaddr (pagetable va : Nat) : PhysM Nat := do
  if va ≥ MAXVA then return 0 else
  match ← walk pagetable va false with
  | none => return 0
  | some pte =>
    let e ← loadPte pte
    if !hasFlag e PTE_V then return 0
    else if !hasFlag e PTE_U then return 0
    else return pte2pa e

def mappagesLoop (pagetable perm : Nat) : Nat → Nat → Nat → PhysM Int
  | 0, _, _ => return 0
  | n + 1, a, pa => do
    match ← walk pagetable a true with
    | none => return -1
    | some pte =>
      if hasFlag (← loadPte pte) PTE_V then panic "mappages: remap" else
      storePte pte (mkPte pa perm)
      mappagesLoop pagetable perm n (a + PGSIZE) (pa + PGSIZE)

def mappages (pagetable va size pa perm : Nat) : PhysM Int :=
  if va % PGSIZE ≠ 0 then panic "mappages: va not aligned"
  else if size % PGSIZE ≠ 0 then panic "mappages: size not aligned"
  else if size = 0 then panic "mappages: size"
  else mappagesLoop pagetable perm (size / PGSIZE) va pa

def supermappages (pagetable va pa perm : Nat) : PhysM Int := do
  if va % SUPERPGSIZE ≠ 0 then panic "supermappages: va not aligned" else
  match ← superwalk pagetable va true with
  | none => return -1
  | some pte =>
    if hasFlag (← loadPte pte) PTE_V then panic "supermappages: remap" else
    storePte pte (mkPte pa perm)
    return 0

def freeIf (doFree : Bool) (free : PhysM Unit) : PhysM Unit := if doFree then free else pure ()

/-- The part of the body of `uvmunmap`'s loop for a page that no superpage maps at `a`. -/
def uvmunmapPage (pagetable a : Nat) (doFree : Bool) : PhysM Unit := do
  match ← walk pagetable a false with
  | none => panic "uvmunmap: walk"
  | some pte =>
    let e ← loadPte pte
    if !hasFlag e PTE_V then panic "uvmunmap: not mapped"
    else if pteFlags e = PTE_V then panic "uvmunmap: not a leaf"
    else
      freeIf doFree (kfree (pte2pa e))
      storePte pte 0

def superPteAt (pagetable a : Nat) : PhysM (Option (Nat × Nat)) := do
  if a % SUPERPGSIZE ≠ 0 then return none else
  match ← superwalk pagetable a false with
  | none => return none
  | some spte =>
    let e ← loadPte spte
    if hasFlag e PTE_V && hasFlag e PTE_R then return some (spte, e) else return none

def uvmunmapLoop (pagetable last : Nat) (doFree : Bool) (a : Nat) : PhysM Unit := do
  if _ : a < last then
    match ← superPteAt pagetable a with
    | some (spte, e) =>
      freeIf doFree (superfree (pte2pa e))
      storePte spte 0
      uvmunmapLoop pagetable last doFree (a + SUPERPGSIZE)
    | none =>
      uvmunmapPage pagetable a doFree
      uvmunmapLoop pagetable last doFree (a + PGSIZE)
  else pure ()
termination_by last - a
decreasing_by all_goals lia

def uvmunmap (pagetable va npages : Nat) (doFree : Bool) : PhysM Unit :=
  if va % PGSIZE ≠ 0 then panic "uvmunmap: not aligned"
  else uvmunmapLoop pagetable ((va + npages * PGSIZE) % 2 ^ 64) doFree va

def uvmcreate : PhysM (Option Nat) := do
  match ← kalloc with
  | none => return none
  | some pagetable =>
    memset pagetable 0 PGSIZE
    return some pagetable

/-- Load `sz` bytes of `initcode` into address 0 for the first process. The code does not look at the results
of `kalloc` and `mappages`; `none` would be a write through a null pointer. -/
def uvmfirst (pagetable : Nat) (src : Nat → UInt8) (sz : Nat) : PhysM Unit := do
  if sz ≥ PGSIZE then panic "uvmfirst: more than a page" else
  match ← kalloc with
  | none => panic "uvmfirst: null"
  | some mem =>
    memset mem 0 PGSIZE
    let _ ← mappages pagetable 0 PGSIZE mem (PTE_W ||| PTE_R ||| PTE_X ||| PTE_U)
    memmoveFrom mem src sz

def throughInt (x : Nat) : Nat := if x % 2 ^ 32 < 2 ^ 31 then x % 2 ^ 32 else x % 2 ^ 32 + (2 ^ 64 - 2 ^ 32)

def uvmdealloc (pagetable oldsz newsz : Nat) : PhysM Nat := do
  if newsz ≥ oldsz then return oldsz
  else if pgroundup newsz < pgroundup oldsz then
    let npages := throughInt ((pgroundup oldsz - pgroundup newsz) / PGSIZE)
    uvmunmap pagetable (pgroundup newsz) npages true
    return newsz
  else return newsz

def uvmallocLoop (pagetable oldsz newsz xperm a : Nat) : PhysM Nat := do
  if _ : a < newsz then
    if a % SUPERPGSIZE = 0 ∧ newsz - a ≥ SUPERPGSIZE then
      match ← superalloc with
      | none =>
        let _ ← uvmdealloc pagetable a oldsz
        return 0
      | some mem =>
        memset mem 0 SUPERPGSIZE
        if (← supermappages pagetable a mem (PTE_R ||| PTE_W ||| PTE_U ||| xperm)) ≠ 0 then
          superfree mem
          let _ ← uvmdealloc pagetable a oldsz
          return 0
        else uvmallocLoop pagetable oldsz newsz xperm (a + SUPERPGSIZE)
    else
      match ← kalloc with
      | none =>
        let _ ← uvmdealloc pagetable a oldsz
        return 0
      | some mem =>
        memset mem 0 PGSIZE
        if (← mappages pagetable a PGSIZE mem (PTE_R ||| PTE_U ||| xperm)) ≠ 0 then
          kfree mem
          let _ ← uvmdealloc pagetable a oldsz
          return 0
        else uvmallocLoop pagetable oldsz newsz xperm (a + PGSIZE)
  else return newsz
termination_by newsz - a
decreasing_by all_goals lia

def uvmalloc (pagetable oldsz newsz xperm : Nat) : PhysM Nat :=
  if newsz < oldsz then return oldsz
  else uvmallocLoop pagetable (pgroundup oldsz) newsz xperm (pgroundup oldsz)

@[irreducible] def ptes : List Nat := List.range 512

/-- `freewalk`, with a bound on the depth of the recursion: a page table has three levels. -/
def freewalk : Nat → Nat → PhysM Unit
  | 0, _ => panic "freewalk: out of fuel"
  | depth + 1, pagetable => do
    ptes.forM fun i => do
      let pte ← loadPte (pagetable + 8 * i)
      if hasFlag pte PTE_V && !pteLeaf pte then
        freewalk depth (pte2pa pte)
        storePte (pagetable + 8 * i) 0
      else if hasFlag pte PTE_V then panic "freewalk: leaf"
      else pure ()
    kfree pagetable

def uvmfree (pagetable sz : Nat) : PhysM Unit := do
  if sz > 0 then uvmunmap pagetable 0 (pgroundup sz / PGSIZE) true
  freewalk 3 pagetable

def uvmcopyErr (new i : Nat) : PhysM Int := do
  uvmunmap new 0 (i / PGSIZE) true
  return -1

def uvmcopyLoop (old new sz i : Nat) : PhysM Int := do
  if _ : i < sz then
    match ← superPteAt old i with
    | some (_, e) =>
      match ← superalloc with
      | none => uvmcopyErr new i
      | some mem =>
        memmove mem (pte2pa e) SUPERPGSIZE
        if (← supermappages new i mem (pteFlags e)) ≠ 0 then
          superfree mem
          uvmcopyErr new i
        else uvmcopyLoop old new sz (i + SUPERPGSIZE)
    | none =>
      match ← walk old i false with
      | none => panic "uvmcopy: pte should exist"
      | some pte =>
        let e ← loadPte pte
        if !hasFlag e PTE_V then panic "uvmcopy: page not present" else
        match ← kalloc with
        | none => uvmcopyErr new i
        | some mem =>
          memmove mem (pte2pa e) PGSIZE
          if (← mappages new i PGSIZE mem (pteFlags e)) ≠ 0 then
            kfree mem
            uvmcopyErr new i
          else uvmcopyLoop old new sz (i + PGSIZE)
  else return 0
termination_by sz - i
decreasing_by all_goals lia

def uvmcopy (old new sz : Nat) : PhysM Int := uvmcopyLoop old new sz 0

def uvmclear (pagetable va : Nat) : PhysM Unit := do
  match ← walk pagetable va false with
  | none => panic "uvmclear"
  | some pte =>
    let e ← loadPte pte
    storePte pte (e &&& (2 ^ 64 - 1 - PTE_U))

def copyout (pagetable dstva : Nat) (src : Nat → UInt8) (len : Nat) : PhysM Int := do
  if _ : len > 0 then
    let va0 := pgrounddown dstva
    if va0 ≥ MAXVA then return -1 else
    match ← walk pagetable va0 false with
    | none => return -1
    | some pte =>
      -- forbid copyout over read-only user text pages.
      if !hasFlag (← loadPte pte) PTE_W then return -1 else
      let pa0 ← walkaddr pagetable va0
      if pa0 = 0 then return -1 else
      let n := min (PGSIZE - (dstva - va0)) len
      memmoveFrom (pa0 + (dstva - va0)) src n
      copyout pagetable (va0 + PGSIZE) (fun i => src (n + i)) (len - n)
  else return 0
termination_by len
decreasing_by
  have : dstva - pgrounddown dstva < PGSIZE := by unfold pgrounddown; lia
  lia

/-- Copy `len` bytes at the user address `srcva` to the kernel buffer `dst` from index `k` on; the result is the
return value and the buffer. -/
def copyin (pagetable : Nat) (dst : Nat → UInt8) (k srcva len : Nat) : PhysM (Int × (Nat → UInt8)) := do
  if _ : len > 0 then
    let va0 := pgrounddown srcva
    let pa0 ← walkaddr pagetable va0
    if pa0 = 0 then return (-1, dst) else
    let n := min (PGSIZE - (srcva - va0)) len
    let mem := (← get).mem
    copyin pagetable (Bytes.write dst k n fun i => mem (pa0 + (srcva - va0) + i)) (k + n) (va0 + PGSIZE) (len - n)
  else return (0, dst)
termination_by len
decreasing_by
  have : srcva - pgrounddown srcva < PGSIZE := by unfold pgrounddown; lia
  lia

/-- The inner loop of `copyinstr`: at most `n` bytes of a page, up to a NUL; the result says whether there was one, and is
the buffer. -/
def copyinstrPage (mem : Bytes.Mem) : Nat → Nat → (Nat → UInt8) → Nat → Bool × (Nat → UInt8)
  | 0, _, dst, _ => (false, dst)
  | n + 1, p, dst, k =>
    if mem p = 0 then (true, Function.update dst k 0)
    else copyinstrPage mem n (p + 1) (Function.update dst k (mem p)) (k + 1)

/-- Copy a null-terminated string at the user address `srcva`, of `max` bytes at most, to the kernel buffer `dst` from index `k`
on. -/
def copyinstr (pagetable : Nat) (dst : Nat → UInt8) (k srcva max : Nat) : PhysM (Int × (Nat → UInt8)) := do
  if _ : max > 0 then
    let va0 := pgrounddown srcva
    let pa0 ← walkaddr pagetable va0
    if pa0 = 0 then return (-1, dst) else
    let n := min (PGSIZE - (srcva - va0)) max
    let mem := (← get).mem
    let page := copyinstrPage mem n (pa0 + (srcva - va0)) dst k
    if page.1 then return (0, page.2)
    else copyinstr pagetable page.2 (k + n) (va0 + PGSIZE) (max - n)
  else return (-1, dst)
termination_by max
decreasing_by
  have : srcva - pgrounddown srcva < PGSIZE := by unfold pgrounddown; lia
  lia

end Xv6
