import Xv6.Proc.Write

/-!
# Running a program (`exec.c`)

`exec` builds the memory image of a program beside the current one and replaces the old image once nothing can fail any more.
A program is given by the content of its file; the structs `elfhdr` and `proghdr` are little-endian fields at their offsets.

`exec` does not panic, whatever the file and the arguments, and on every way out the blocks of the new image are back in the
allocators or belong to an address space of the size that goes with it.
-/

namespace Xv6

open Function (update_of_ne)
open Bytes (Mem write)
open Hoare Ledger

abbrev ELF_MAGIC : Nat := 0x464C457F

abbrev ELF_PROG_LOAD : Nat := 1

abbrev MAXARG : Nat := 32

abbrev USERSTACK : Nat := 1

abbrev elfhdrSize : Nat := 64

abbrev proghdrSize : Nat := 56

/-- The bytes that `readi` delivers: at most `n` from offset `off`; both are `uint`s. -/
def readFile (file : List UInt8) (off n : Nat) : List UInt8 :=
  if off > file.length ∨ (off + n) % 2 ^ 32 < off then [] else (file.drop off).take n

/-- The little-endian number in the `n` bytes at offset `off` of a struct. -/
def field (bytes : List UInt8) (off n : Nat) : Nat := Bytes.loadLE (fun k => bytes.getD k 0) off n

def sub64 (a b : Nat) : Nat := (a + 2 ^ 64 - b) % 2 ^ 64

def flags2perm (flags : Nat) : Nat :=
  let perm := if flags &&& 1 ≠ 0 then PTE_X else 0
  if flags &&& 2 ≠ 0 then perm ||| PTE_W else perm

/-- The loop of `loadseg` from the offset `i`. The `uint` counter does not wrap: the pages it has passed are mapped. -/
def loadsegLoop (pagetable va : Nat) (file : List UInt8) (offset sz i : Nat) : PhysM Int := do
  if _ : i < sz then
    let pa ← walkaddr pagetable ((va + i) % 2 ^ 64)
    if pa = 0 then panic "loadseg: address should exist" else
    let n := if sz - i < PGSIZE then sz - i else PGSIZE
    let buf := readFile file ((offset + i) % 2 ^ 32) n
    memmoveFrom pa (fun k => buf.getD k 0) buf.length
    if buf.length ≠ n then return -1
    else loadsegLoop pagetable va file offset sz (i + PGSIZE)
  else return 0
termination_by sz - i
decreasing_by lia

def loadseg (pagetable va : Nat) (file : List UInt8) (offset sz : Nat) : PhysM Int :=
  loadsegLoop pagetable va file offset sz 0

/-- The loop of `exec` over the program headers that are left: whether it got through, and `sz`. -/
def execLoad (pagetable : Nat) (file : List UInt8) : Nat → Nat → Nat → PhysM (Bool × Nat)
  | 0, _, sz => return (true, sz)
  | phnum + 1, off, sz => do
    let ph := readFile file off proghdrSize
    if ph.length ≠ proghdrSize then return (false, sz) else
    if field ph 0 4 ≠ ELF_PROG_LOAD then execLoad pagetable file phnum ((off + proghdrSize) % 2 ^ 32) sz else
    let vaddr := field ph 16 8
    let filesz := field ph 32 8
    let memsz := field ph 40 8
    if memsz < filesz then return (false, sz) else
    if (vaddr + memsz) % 2 ^ 64 < vaddr then return (false, sz) else
    if vaddr % PGSIZE ≠ 0 then return (false, sz) else
    let sz1 ← uvmalloc pagetable sz ((vaddr + memsz) % 2 ^ 64) (flags2perm (field ph 4 4))
    if sz1 = 0 then return (false, sz) else
    if (← loadseg pagetable vaddr file (field ph 8 8 % 2 ^ 32) (filesz % 2 ^ 32)) < 0 then return (false, sz1) else
    execLoad pagetable file phnum ((off + proghdrSize) % 2 ^ 32) sz1

/-- The loop of `exec` over the argument strings: push each one, and collect the stack addresses in `ustack`. -/
def execArgs (pagetable stackbase : Nat) : List (List UInt8) → Nat → List Nat → PhysM (Option (Nat × List Nat))
  | [], sp, ustack => return some (sp, ustack)
  | arg :: argv, sp, ustack => do
    if ustack.length ≥ MAXARG then return none else
    let sp := sub64 sp (arg.length + 1)
    -- riscv sp must be 16-byte aligned
    let sp := sp - sp % 16
    if sp < stackbase then return none else
    if (← copyout pagetable sp (fun k => arg.getD k 0) (arg.length + 1)) < 0 then return none else
    execArgs pagetable stackbase argv sp (ustack ++ [sp])

def wordBytes (ws : List Nat) : Nat → UInt8 := fun k => UInt8.ofNat (ws.getD (k / 8) 0 / 256 ^ (k % 8))

/-- The part of `exec` that fills the stack: the stack pointer, or `none` for `goto bad`. -/
def execStack (pagetable stackbase sp : Nat) (argv : List (List UInt8)) : PhysM (Option Nat) := do
  match ← execArgs pagetable stackbase argv sp [] with
  | none => return none
  | some (sp, ustack) =>
    -- push the array of argv[] pointers
    let sp := sub64 sp ((ustack.length + 1) * 8)
    let sp := sp - sp % 16
    if sp < stackbase then return none else
    if (← copyout pagetable sp (wordBytes (ustack ++ [0])) ((ustack.length + 1) * 8)) < 0 then return none else
    return some sp

/-- The part of `exec` before the arguments, which sets up the program, the stack page and its guard: the page table and the size,
or `none` once `bad` has freed them. -/
def execSetup (trapframe : Nat) (file : List UInt8) : PhysM (Option (Nat × Nat)) := do
  let elf := readFile file 0 elfhdrSize
  if elf.length ≠ elfhdrSize then return none else
  if field elf 0 4 ≠ ELF_MAGIC then return none else
  match ← procPagetable trapframe with
  | none => return none
  | some pagetable =>
    let (ok, sz) ← execLoad pagetable file (field elf 56 2) (field elf 32 8 % 2 ^ 32) 0
    if !ok then
      procFreepagetable pagetable sz
      return none
    else
    -- Allocate some pages at the next page boundary, and make the first inaccessible as a stack guard.
    let sz := pgroundup sz
    let sz1 ← uvmalloc pagetable sz ((sz + (USERSTACK + 1) * PGSIZE) % 2 ^ 64) PTE_W
    if sz1 = 0 then
      procFreepagetable pagetable sz
      return none
    else
    uvmclear pagetable (sub64 sz1 ((USERSTACK + 1) * PGSIZE))
    return some (pagetable, sz1)

/-- The rest of the new image, which is the stack. -/
def execFill (argv : List (List UInt8)) : Option (Nat × Nat) → PhysM (Option (Nat × Nat × Nat))
  | none => return none
  | some (pagetable, sz1) => do
    match ← execStack pagetable (sub64 sz1 (USERSTACK * PGSIZE)) sz1 argv with
    | none =>
      procFreepagetable pagetable sz1
      return none
    | some sp => return some (pagetable, sz1, sp)

/-- The new image of `exec`: its page table, size and stack pointer, or `none` once `bad` has freed it. -/
def execImage (trapframe : Nat) (file : List UInt8) (argv : List (List UInt8)) : PhysM (Option (Nat × Nat × Nat)) := do
  execFill argv (← execSetup trapframe file)

def lastElem (path : List UInt8) : List UInt8 := (path.reverse.takeWhile (· ≠ 47)).reverse

/-- `exec` of the program in the file that the path names, `none` if `namei` does not find it. -/
def exec (i : Pid) (path : List UInt8) (file : Option (List UInt8)) (argv : List (List UInt8)) : KernM Int := do
  match file with
  | none => return -1
  | some file =>
    let p := (← get).proc i
    match ← onPhys (execImage p.trapframe file argv) with
    | none => return -1
    | some (pagetable, sz, sp) =>
      onPhys (setTrapframe p.trapframe 120 sp)
      -- Save program name for debugging, and commit to the user image.
      setProc i fun p => { p with name := safestrcpy (lastElem path) nameSize, pagetable := pagetable, sz := sz }
      onPhys (setTrapframe p.trapframe 24 (field (readFile file 0 elfhdrSize) 24 8))
      onPhys (setTrapframe p.trapframe 48 sp)
      onPhys (procFreepagetable p.pagetable p.sz)
      return argv.length

variable {σ σ' σ0 σ'' : Phys} {A A' A1 : Space} {h : List Block} {m : Mem} {E : String → Prop}
  {n k w va tf sz lo newsz xperm : Nat} {file : List UInt8} {off flags u l len i x y n1 n' phnum : Nat} {s : Segment}

theorem readFile_length_le (file : List UInt8) (off n : Nat) : (readFile file off n).length ≤ n := by
  unfold readFile
  split
  · exact Nat.zero_le n
  · exact List.length_take_le _ _

/-- The user may access the pages below `n`. -/
def Space.UserTo (A : Space) (n : Nat) : Prop :=
  ∀ k < n, ∀ l w, A.leafAt (k * PGSIZE) = some (l, w) → hasFlag w PTE_U = true

structure Wrote (A : Space) (σ σ' : Phys) : Prop where
  freelist : σ'.freelist = σ.freelist
  superpages : σ'.superpages = σ.superpages
  agree : AgreeOff A.frames σ.mem σ'.mem

theorem Wrote.refl : Wrote A σ σ := ⟨rfl, rfl, AgreeOff.refl⟩

theorem Wrote.trans (h1 : Wrote A σ σ') (h2 : Wrote A σ' σ'') : Wrote A σ σ'' :=
  ⟨h2.freelist.trans h1.freelist, h2.superpages.trans h1.superpages, h1.agree.trans h2.agree⟩

theorem Wrote.evolves (hW : Wrote A σ σ') (hL : Live σ A h) : Evolves 0 σ A h σ' A h :=
  hL.touch hW.freelist hW.superpages hW.agree

theorem Space.Tiled.leafAt (hT : A.Tiled 0 n) (hk : k < n) : ∃ l w, A.leafAt (k * PGSIZE) = some (l, w) := by
  have hkp : k * PGSIZE / PGSIZE = k := Nat.mul_div_cancel k (by decide)
  have hks : k * PGSIZE / SUPERPGSIZE = k / 512 := by rw [← page_div, hkp]
  rcases hT k (Nat.zero_le k) hk with ⟨w, hw⟩ | ⟨w, hw, -⟩
  · obtain ⟨q, hq⟩ := A.pg_dir hw
    exact ⟨0, w, by simp only [Space.leafAt, hks, hkp, hq, hw, Option.map_some]⟩
  · exact ⟨1, w, by simp only [Space.leafAt, hks, hw]⟩

theorem Image.write_user (hI : Image A n tf) {src : Nat → UInt8}
    (hl : A.leafAt va = some (l, w)) (hu : hasFlag w PTE_U = true) (hlen : len ≤ PGSIZE) :
    AgreeOff A.frames m (write m (pte2pa w) len src) := by
  intro a h1 h2
  apply Bytes.write_outside
  by_contra hc
  have hal := (Space.leafAt_pte hl).pageAddr.1
  exact hI.user_frame hl hu (a := a) (by unfold pgrounddown; lia) ⟨h1, h2⟩

theorem loadsegLoop_spec (hI : Image A n tf) (hU : A.UserTo n) (hL : Live σ A h) (hva : va % PGSIZE = 0)
    (hfit : va + sz ≤ n * PGSIZE) (hi : i % PGSIZE = 0) :
    wp (loadsegLoop A.root va file off sz i) (fun _ σ' => Wrote A σ σ') E σ := by
  induction hd : sz - i using Nat.strong_induction_on generalizing i σ with
  | _ d ih =>
    subst hd
    unfold loadsegLoop
    by_cases hlt : i < sz
    · have hle := hI.le
      have hk : (va + i) / PGSIZE < n := by lia
      have hpg : (va + i) / PGSIZE * PGSIZE = va + i := by lia
      obtain ⟨l, w, hl⟩ := hI.sized.tiled.leafAt hk
      have hu := hU _ hk l w hl
      rw [hpg] at hl
      have hlp := Space.leafAt_pte hl
      rw [dif_pos hlt, wp_bind, wp_walkaddr hL.rep, Nat.mod_eq_of_lt (by lia), Space.walkaddr, hl]
      simp only [hu, if_true, if_neg (Nat.ne_of_gt hlp.pos), wp_bind, wp_memmoveFrom]
      have hlen : (readFile file ((off + i) % 2 ^ 32) (if sz - i < PGSIZE then sz - i else PGSIZE)).length ≤ PGSIZE :=
        (readFile_length_le ..).trans (by split <;> omega)
      generalize readFile file ((off + i) % 2 ^ 32) (if sz - i < PGSIZE then sz - i else PGSIZE) = buf at hlen ⊢
      have hag : AgreeOff A.frames σ.mem (write σ.mem (pte2pa w) buf.length fun k => buf.getD k 0) :=
        hI.write_user hl hu hlen
      have hW : Wrote A σ { σ with mem := write σ.mem (pte2pa w) buf.length fun k => buf.getD k 0 } := by
        refine ⟨rfl, rfl, ?_⟩
        dsimp only
        exact hag
      rw [wp_ite]
      refine ⟨fun _ => wp_pure.2 hW, fun _ => ?_⟩
      refine wp_post (ih (sz - (i + PGSIZE)) (by lia) (hW.evolves hL).live (i := i + PGSIZE) (by lia) rfl) ?_
      intro _ σ' hW'
      exact hW.trans hW'
    · rw [dif_neg hlt, wp_pure]
      exact Wrote.refl

theorem loadseg_spec (hI : Image A n tf) (hU : A.UserTo n) (hL : Live σ A h) (hva : va % PGSIZE = 0)
    (hfit : va + sz ≤ n * PGSIZE) (off : Nat) :
    wp (loadseg A.root va file off sz) (fun _ σ' => Wrote A σ σ') E σ :=
  loadsegLoop_spec hI hU hL hva hfit rfl

theorem user_of_flags (hf : pteFlags w = x ||| PTE_U ||| y ||| PTE_V) : hasFlag w PTE_U = true := by
  have hU : hasFlag (pteFlags w) PTE_U = hasFlag w PTE_U := hasFlag_pteFlags (k := 4) (by decide)
  have h1 := hasFlag_or (x ||| PTE_U ||| y) PTE_V 4
  have h2 := hasFlag_or (x ||| PTE_U) y 4
  have h3 := hasFlag_or x PTE_U 4
  rw [← hU, hf]
  rw [h3] at h2
  rw [h2] at h1
  refine h1.trans ?_
  rw [show hasFlag PTE_U (2 ^ 4) = true from rfl, Bool.or_true, Bool.true_or, Bool.true_or]

theorem Grown.userTo (hG : Grown lo n newsz xperm A A') (hA : A.Sized lo) (hU : A.UserTo lo) : A'.UserTo n := by
  intro k hk l w hl
  have hkp : k * PGSIZE / PGSIZE = k := Nat.mul_div_cancel k (by decide)
  have hks : k * PGSIZE / SUPERPGSIZE = k / 512 := by rw [← page_div, hkp]
  simp only [Space.leafAt, hks, hkp] at hl
  by_cases hW : Whole lo newsz (k / 512) ∧ k / 512 * 512 < n
  · obtain ⟨-, u, hu, hf⟩ := hG.dir_new _ hW.1 hW.2
    rw [hu, Option.some.injEq, Prod.mk.injEq] at hl
    exact user_of_flags (hl.2 ▸ hf)
  have hdir := hG.dir_same _ hW
  rcases hd : A'.dir (k / 512) with _ | q | u
  · rw [hd] at hl
    obtain ⟨u, hu, -⟩ := Option.map_eq_some_iff.1 hl
    obtain ⟨q, hq⟩ := A'.pg_dir hu
    rw [hd] at hq; cases hq
  · rw [hd] at hl
    obtain ⟨u, hu, he⟩ := Option.map_eq_some_iff.1 hl
    obtain ⟨-, rfl⟩ := Prod.mk.inj he
    rcases Nat.lt_or_ge k lo with hlt | hge
    · rw [hG.pg_same k (.inl hlt)] at hu
      obtain ⟨q', hq'⟩ := A.pg_dir hu
      exact hU k hlt 0 u (by simp only [Space.leafAt, hks, hkp, hq', hu, Option.map_some])
    · obtain ⟨u', hu', hf⟩ := hG.pg_new k hge hk fun hc => hW ⟨hc, by omega⟩
      rw [hu, Option.some.injEq] at hu'
      exact user_of_flags (hu' ▸ hf)
  · rw [hd, Option.some.injEq, Prod.mk.injEq] at hl
    rcases hdir with he | ⟨-, -, q, hq⟩
    · have hle := hA.dir_le (k / 512) u (by rw [← he, hd])
      exact hU k (by omega) 1 w (by simp only [Space.leafAt, hks, ← he, hd, hl.2])
    · rw [hd] at hq; cases hq

/-- The address space `A` of a process that is being made, with the size `sz`. -/
structure Made (tf sz : Nat) (σ0 : Phys) (h : List Block) (σ : Phys) (A : Space) : Prop where
  live : Live σ A h
  keeps : Keeps 0 σ0 Holdings.none h σ A.holdings h
  image : Image A (npages sz) tf

/-- The image that `exec` is building: no page-table page above `sz` can be in the way of a superpage. -/
structure Building (tf sz : Nat) (σ0 : Phys) (h : List Block) (σ : Phys) (A : Space) : Prop
    extends Made tf sz σ0 h σ A where
  user : A.UserTo (npages sz)
  tables : ∀ v q, A.dir v = .table q → v * SUPERPGSIZE < sz ∨ v = topChunk

theorem Made.evolves (hM : Made tf sz σ0 h σ A) (hE : Evolves 0 σ A h σ' A' h) (hI : Image A' (npages newsz) tf) :
    Made tf newsz σ0 h σ' A' := ⟨hE.live, hM.keeps.trans hE.keeps, hI⟩

theorem Building.wrote (hB : Building tf sz σ0 h σ A) (hW : Wrote A σ σ') : Building tf sz σ0 h σ' A where
  toMade := hB.toMade.evolves (hW.evolves hB.live) hB.image
  user := hB.user
  tables := hB.tables

theorem Image.grown (hI : Image A lo tf) (hG : Growing lo (npages newsz) newsz xperm σ A h σ' A')
    (hlo : lo ≤ npages newsz) : Image A' (npages newsz) tf := by
  have hS := hG.sized hI.sized hlo
  have hle := hG.live.tiled_bound hS.tiled
  refine hI.of_high (by lia) hS fun k hk => hG.pg_same k (.inr (by lia))

theorem Image.restored (hI : Image A lo tf) (hR : Restored lo newsz A A') : Image A' lo tf := by
  refine hI.of_high hI.le ⟨?_, ?_, ?_⟩ fun k _ => by rw [hR.pg]
  · intro k h1 h2
    rcases hI.sized.tiled k h1 h2 with ⟨w, hw⟩ | ⟨w, hw, hrest⟩
    · exact .inl ⟨w, by rw [hR.pg]; exact hw⟩
    · refine .inr ⟨w, ?_, hrest⟩
      rcases hR.dir (k / 512) with he | ⟨-, hn, -⟩
      · rw [he]; exact hw
      · rw [hn] at hw; cases hw
  · intro k h1 h2
    rw [hR.pg]; exact hI.sized.pg_none k h1 h2
  · intro v w hw
    rcases hR.dir v with he | ⟨-, -, q, hq⟩
    · exact hI.sized.dir_le v w (he ▸ hw)
    · rw [hq] at hw; cases hw

theorem Building.uvmalloc_spec (hB : Building tf sz σ0 h σ A) (hx : xperm < 1024) (hle : sz ≤ newsz) :
    wp (uvmalloc A.root sz newsz xperm) (fun r σ' =>
      (r = newsz ∧ ∃ A', A'.root = A.root ∧ Building tf newsz σ0 h σ' A' ∧ Grown (npages sz) (npages newsz) newsz xperm A A') ∨
      (r = 0 ∧ ∃ A', A'.root = A.root ∧ Made tf sz σ0 h σ' A')) E σ := by
  have hS := hB.image.sized
  refine wp_post (Xv6.uvmalloc_spec hB.live hS hB.image.le hx hle ?_) ?_
  · -- a page-table page in the way would lie below `sz`
    intro v q hW hv hq
    have h1 := hW.1
    rcases hB.tables v q hq with hlt | rfl
    · rw [npages_eq] at h1; lia
    · exact absurd hv (by decide)
  · rintro r σ' (⟨rfl, A', hG⟩ | ⟨rfl, -, A', hE, hR⟩)
    · refine .inl ⟨rfl, A', hG.root, ⟨?_, hG.toGrown.userTo hS hB.user, fun v q hq => ?_⟩, hG.toGrown⟩
      · exact ⟨hG.live, hB.keeps.trans (hG.keeps.mono (Nat.zero_le _)), hB.image.grown hG (npages_mono hle)⟩
      · by_cases hW : Whole (npages sz) r v ∧ v * 512 < npages r
        · obtain ⟨-, w, hw, -⟩ := hG.dir_new v hW.1 hW.2
          rw [hw] at hq; cases hq
        · rcases hG.dir_same v hW with he | ⟨hP, -, -⟩
          · rcases hB.tables v q (he ▸ hq) with hlt | hv
            · exact .inl (by omega)
            · exact .inr hv
          · exact .inl hP.2.2
    · exact .inr ⟨rfl, A', hE.root, hE.live, hB.keeps.trans (hE.keeps.mono (Nat.zero_le _)), hB.image.restored hR⟩

theorem field_lt (bytes : List UInt8) (off n : Nat) : field bytes off n < 256 ^ n := Bytes.loadLE_lt _ _ _

theorem flags2perm_lt (flags : Nat) : flags2perm flags < 1024 := by
  unfold flags2perm
  split <;> split <;> decide

/-- The pages that a program header of type LOAD asks for: from page `lo`, where the image ends so far, to `newsz`, with the
flags of the header. -/
structure Segment where
  lo : Nat
  newsz : Nat
  flags : Nat

def segments (file : List UInt8) : Nat → Nat → Nat → List Segment
  | 0, _, _ => []
  | phnum + 1, off, sz =>
    let ph := readFile file off proghdrSize
    let off := (off + proghdrSize) % 2 ^ 32
    if field ph 0 4 ≠ ELF_PROG_LOAD then segments file phnum off sz else
    let newsz := (field ph 16 8 + field ph 40 8) % 2 ^ 64
    ⟨npages sz, newsz, field ph 4 4⟩ :: segments file phnum off (max sz newsz)

def fileSegments (file : List UInt8) : List Segment :=
  let elf := readFile file 0 elfhdrSize
  segments file (field elf 56 2) (field elf 32 8 % 2 ^ 32) 0

/-- The pages of a segment are mapped with the permissions that `uvmalloc` gave them. -/
structure Space.Granted (A : Space) (s : Segment) : Prop where
  pg : ∀ k, s.lo ≤ k → k < npages s.newsz → ¬Whole s.lo s.newsz (k / 512) →
    ∃ w, A.pg k = some w ∧ pteFlags w = PTE_R ||| PTE_U ||| flags2perm s.flags ||| PTE_V
  dir : ∀ v, Whole s.lo s.newsz v →
    ∃ w, A.dir v = .leaf w ∧ pteFlags w = PTE_R ||| PTE_W ||| PTE_U ||| flags2perm s.flags ||| PTE_V

theorem Grown.granted (hG : Grown lo (npages newsz) newsz (flags2perm flags) A A') :
    A'.Granted ⟨lo, newsz, flags⟩ where
  pg := hG.pg_new
  dir v hW := (hG.dir_new v hW (by have := hW.2; unfold npages; lia)).2

theorem Space.Granted.grown (hS : A.Granted s) (hG : Grown lo n newsz xperm A A') (hle : npages s.newsz ≤ lo) :
    A'.Granted s where
  pg k h1 h2 hW := by
    rw [hG.pg_same k (.inl (by omega))]
    exact hS.pg k h1 h2 hW
  dir v hW := by
    obtain ⟨w, hw, hf⟩ := hS.dir v hW
    have hsame : A'.dir v = A.dir v := by
      by_cases hv : Whole lo newsz v ∧ v * 512 < n
      · exact absurd ((hG.dir_new v hv.1 hv.2).1.symm.trans hw) (by simp)
      · rcases hG.dir_same v hv with h | ⟨-, h, -⟩
        · exact h
        · exact absurd (h.symm.trans hw) (by simp)
    exact ⟨w, hsame.trans hw, hf⟩

theorem Space.Granted.update (hS : A.Granted s) (hd : A'.dir = A.dir)
    (hp : A'.pg = Function.update A.pg k (some u)) (hle : npages s.newsz ≤ k) : A'.Granted s where
  pg j h1 h2 hW := by
    rw [hp, update_of_ne (by omega)]
    exact hS.pg j h1 h2 hW
  dir v hW := by
    rw [hd]
    exact hS.dir v hW

theorem Space.granted_below (hlt : newsz < sz) : A.Granted ⟨npages sz, newsz, flags⟩ where
  pg k h1 h2 := absurd (npages_mono hlt.le) (by dsimp only at h1 h2; omega)
  dir v hW := absurd hW.2 (by have := hW.1; unfold npages at this; dsimp only at this ⊢; lia)

/-- An image of `n` pages has been loaded with further segments, and has `n'` pages now. -/
structure Loads (segs : List Segment) (n n' : Nat) (A A' : Space) : Prop where
  le : n ≤ n'
  old : ∀ s : Segment, npages s.newsz ≤ n → A.Granted s → A'.Granted s
  new : ∀ s ∈ segs, npages s.newsz ≤ n' ∧ A'.Granted s

theorem Loads.nil : Loads [] n n A A := ⟨le_rfl, fun _ _ hs => hs, by simp⟩

theorem Loads.cons {segs : List Segment} (h : Loads segs n1 n' A1 A')
    (hs : A1.Granted s) (hn : npages s.newsz ≤ n1) (hle : n ≤ n1)
    (hold : ∀ t : Segment, npages t.newsz ≤ n → A.Granted t → A1.Granted t) : Loads (s :: segs) n n' A A' where
  le := hle.trans h.le
  old t ht hA := h.old t (ht.trans hle) (hold t ht hA)
  new t ht := by
    rcases List.mem_cons.1 ht with rfl | ht
    · exact ⟨hn.trans h.le, h.old t hn hs⟩
    · exact h.new t ht

theorem execLoad_spec (hB : Building tf sz σ0 h σ A) :
    wp (execLoad A.root file phnum off sz) (fun r σ' => ∃ A', A'.root = A.root ∧ Made tf r.2 σ0 h σ' A' ∧
      (r.1 = true → Building tf r.2 σ0 h σ' A' ∧ Loads (segments file phnum off sz) (npages sz) (npages r.2) A A')) E σ := by
  induction phnum generalizing off sz σ A with
  | zero => exact wp_pure.2 ⟨A, rfl, hB.toMade, fun _ => ⟨hB, Loads.nil⟩⟩
  | succ phnum ih =>
    -- every `goto bad` before `uvmalloc` leaves the image as it is
    have bad : wp (pure (false, sz) : PhysM (Bool × Nat)) (fun r σ' => ∃ A', A'.root = A.root ∧ Made tf r.2 σ0 h σ' A' ∧
        (r.1 = true → Building tf r.2 σ0 h σ' A' ∧ Loads (segments file (phnum + 1) off sz) (npages sz) (npages r.2) A A')) E σ :=
      wp_pure.2 ⟨A, rfl, hB.toMade, by simp⟩
    unfold execLoad
    unfold segments at bad ⊢
    generalize readFile file off proghdrSize = ph at bad ⊢
    simp only [wp_ite]
    refine ⟨fun _ => bad, fun _ => ⟨fun hno => ?_, fun hload => ⟨fun _ => bad, fun hmem => ⟨fun _ => bad, fun hwrap =>
      ⟨fun _ => bad, fun hal => ?_⟩⟩⟩⟩⟩
    · simp only [if_pos hno]
      exact ih hB
    simp only [if_neg hload] at bad ⊢
    rw [wp_bind]
    have hal' : field ph 16 8 % PGSIZE = 0 := by omega
    have hv := field_lt ph 16 8
    have hm := field_lt ph 40 8
    generalize field ph 16 8 = vaddr at *
    generalize field ph 32 8 = filesz at *
    generalize hnew : (vaddr + field ph 40 8) % 2 ^ 64 = newsz at *
    generalize field ph 40 8 = memsz at *
    generalize hflags : field ph 4 4 = flags at *
    -- the segment lies below the size that `uvmalloc` returns
    have load : ∀ {r : Nat} {σ1 : Phys} {A1 : Space}, A1.root = A.root → Building tf r σ0 h σ1 A1 → r = max sz newsz →
        A1.Granted ⟨npages sz, newsz, flags⟩ → (∀ t : Segment, npages t.newsz ≤ npages sz → A.Granted t → A1.Granted t) →
        wp (do
          if (← loadseg A.root vaddr file (field ph 8 8 % 2 ^ 32) (filesz % 2 ^ 32)) < 0 then return (false, r) else
          execLoad A.root file phnum ((off + proghdrSize) % 2 ^ 32) r) (fun r σ' => ∃ A', A'.root = A.root ∧
            Made tf r.2 σ0 h σ' A' ∧ (r.1 = true → Building tf r.2 σ0 h σ' A' ∧
              Loads (⟨npages sz, newsz, flags⟩ :: segments file phnum ((off + proghdrSize) % 2 ^ 32) (max sz newsz))
                (npages sz) (npages r.2) A A')) E σ1 := by
      intro r σ1 A1 hroot hB1 hr hseg hold
      have hfit : vaddr + filesz % 2 ^ 32 ≤ npages r * PGSIZE := by
        rw [npages_eq]
        lia
      rw [wp_bind, ← hroot]
      refine wp_post (loadseg_spec hB1.image hB1.user hB1.live hal' hfit _) ?_
      intro r' σ2 hW
      have hB2 := hB1.wrote hW
      rw [wp_ite]
      refine ⟨fun _ => wp_pure.2 ⟨A1, rfl, hB2.toMade, by simp⟩, fun _ => ?_⟩
      refine wp_post (ih hB2) ?_
      rintro r'' σ3 ⟨A', hroot', hM', hload'⟩
      refine ⟨A', hroot', hM', fun hok => ⟨(hload' hok).1, ?_⟩⟩
      rw [← hr]
      exact (hload' hok).2.cons hseg (npages_mono (by dsimp only; omega)) (npages_mono (by omega)) hold
    rcases Nat.lt_or_ge newsz sz with hlt | hge
    · rw [uvmalloc, if_pos hlt, wp_pure, wp_ite]
      exact ⟨fun hz => absurd hz (by omega), fun _ => load rfl hB (by omega) (Space.granted_below hlt) fun _ _ hA => hA⟩
    · refine wp_post (hB.uvmalloc_spec (flags2perm_lt _) hge) ?_
      rintro r σ1 (⟨rfl, A1, hroot, hB1, hG⟩ | ⟨rfl, A1, hroot, hM1⟩)
      · rw [wp_ite]
        refine ⟨fun hz => ?_, fun _ => load hroot hB1 (by omega) hG.granted fun t ht hA => hA.grown hG ht⟩
        subst hz
        obtain rfl : sz = 0 := by omega
        exact wp_pure.2 ⟨A1, hroot, hB1.toMade, by simp⟩
      · rw [if_pos rfl]
        exact wp_pure.2 ⟨A1, hroot, hM1, by simp⟩

section

variable {argv : List (List UInt8)} {stackbase sp a b : Nat} {ustack : List Nat}

theorem execArgs_spec (hI : Image A n tf) (hL : Live σ A h) (htf : ∀ x, A.tbl x ≠ some tf) (hpa : PageAddr tf) :
    wp (execArgs A.root stackbase argv sp ustack) (fun _ σ' => Wrote A σ σ') E σ := by
  induction argv generalizing sp ustack σ with
  | nil => exact wp_pure.2 Wrote.refl
  | cons arg argv ih =>
    unfold execArgs
    simp only [wp_ite]
    refine ⟨fun _ => wp_pure.2 Wrote.refl, fun _ => ⟨fun _ => wp_pure.2 Wrote.refl, fun _ => ?_⟩⟩
    rw [wp_bind]
    refine wp_post (copyout_image_spec hI hL htf hpa _ _) ?_
    rintro r σ1 ⟨-, hf, hs, ha⟩
    have hW : Wrote A σ σ1 := ⟨hf, hs, ha⟩
    rw [wp_ite]
    refine ⟨fun _ => wp_pure.2 hW, fun _ => wp_post (ih (hW.evolves hL).live) ?_⟩
    intro _ σ' hW'
    exact hW.trans hW'

theorem execStack_spec (hI : Image A n tf) (hL : Live σ A h) (htf : ∀ x, A.tbl x ≠ some tf) (hpa : PageAddr tf) :
    wp (execStack A.root stackbase sp argv) (fun _ σ' => Wrote A σ σ') E σ := by
  unfold execStack
  rw [wp_bind]
  refine wp_post (execArgs_spec hI hL htf hpa) ?_
  rintro (_ | ⟨sp, ustack⟩) σ1 hW
  · exact wp_pure.2 hW
  · simp only [wp_ite]
    refine ⟨fun _ => wp_pure.2 hW, fun _ => ?_⟩
    rw [wp_bind]
    refine wp_post (copyout_image_spec hI (hW.evolves hL).live htf hpa _ _) ?_
    rintro r σ2 ⟨-, hf, hs, ha⟩
    have hW2 : Wrote A σ σ2 := hW.trans ⟨hf, hs, ha⟩
    rw [wp_ite]
    exact ⟨fun _ => wp_pure.2 hW2, fun _ => wp_pure.2 hW2⟩

end

theorem Building.pgroundup (hB : Building tf sz σ0 h σ A) (hsz : sz ≤ MAXVA) :
    Building tf (pgroundup sz) σ0 h σ A := by
  have hn : npages (Xv6.pgroundup sz) = npages sz := by rw [pgroundup_npages hsz, npages_mul]
  have hge : sz ≤ Xv6.pgroundup sz := by rw [pgroundup_npages hsz, npages_eq]; lia
  refine ⟨⟨hB.live, hB.keeps, hn ▸ hB.image⟩, hn ▸ hB.user, fun v q hq => ?_⟩
  rcases hB.tables v q hq with hlt | hv
  · exact .inl (by omega)
  · exact .inr hv

theorem Made.bad_spec {α : Type} (hM : Made tf sz σ0 h σ A) {Q : Option α → Phys → Prop}
    (hQ : ∀ σ', Sep σ' Holdings.none h → Keeps 0 σ0 Holdings.none h σ' Holdings.none h → Q none σ') :
    wp (do procFreepagetable A.root sz; return none) Q E σ := by
  rw [wp_bind]
  refine wp_post (procFreepagetable_spec hM.live hM.image) ?_
  intro _ σ' hD
  exact wp_pure.2 (hQ σ' hD.sep (hM.keeps.trans hD.keeps))

theorem Image.cleared (hI : Image A n tf) (hk : k < n) (hd : A'.dir = A.dir)
    (hp : A'.pg = Function.update A.pg k (some u)) : Image A' n tf := by
  have hku : k < userPages := lt_of_lt_of_le hk hI.le
  refine hI.of_high hI.le ⟨?_, ?_, ?_⟩ fun j hj => by rw [hp, update_of_ne (by omega)]
  · intro j h1 h2
    by_cases hj : j = k
    · exact .inl ⟨u, by rw [hp, hj, Function.update_self]⟩
    · rw [hp, update_of_ne hj, hd]
      exact hI.sized.tiled j h1 h2
  · intro j h1 h2
    rw [hp, update_of_ne (by omega)]
    exact hI.sized.pg_none j h1 h2
  · intro v y hy
    exact hI.sized.dir_le v y (hd ▸ hy)

theorem sub64_eq (hb : b ≤ a) (ha : a < 2 ^ 64) : sub64 a b = a - b := by
  unfold sub64
  omega

/-- What `execSetup` has made: an image that ends with a guard page and a page for the stack. -/
structure SetUp (tf : Nat) (file : List UInt8) (n : Nat) (σ0 : Phys) (h : List Block) (σ : Phys) (A : Space) : Prop
    extends Made tf ((n + 2) * PGSIZE) σ0 h σ A where
  tbl : ∀ x, A.tbl x ≠ some tf
  tables : ∀ v q, A.dir v = .table q → v * SUPERPGSIZE < (n + 2) * PGSIZE ∨ v = topChunk
  granted : ∀ s ∈ fileSegments file, A.Granted s
  stack : ∃ w, A.pg (n + 1) = some w ∧ pteFlags w = PTE_R ||| PTE_U ||| PTE_W ||| PTE_V

theorem execSetup_spec (hs : Sep σ Holdings.none h) (hpa : PageAddr tf) (hh : ¬σ.Free (.page tf)) :
    wp (execSetup tf file) (fun r σ' =>
      (r = none ∧ Sep σ' Holdings.none h ∧ Keeps 0 σ Holdings.none h σ' Holdings.none h) ∨
      ∃ A n, r = some (A.root, (n + 2) * PGSIZE) ∧ SetUp tf file n σ h σ' A) E σ := by
  unfold execSetup
  simp only [wp_ite]
  refine ⟨fun _ => wp_pure.2 (.inl ⟨rfl, hs, Keeps.refl⟩), fun _ => ⟨fun _ => wp_pure.2 (.inl ⟨rfl, hs, Keeps.refl⟩),
    fun _ => ?_⟩⟩
  rw [wp_bind]
  refine wp_post (procPagetable_spec hs hpa) ?_
  rintro r σ1 (⟨rfl, -, hs1, hk1⟩ | ⟨A1, rfl, hC⟩)
  · exact wp_pure.2 (.inl ⟨rfl, hs1, hk1⟩)
  have hB1 : Building tf 0 σ h σ1 A1 := by
    refine ⟨⟨hC.live, hC.keeps, by rw [npages_zero]; exact hC.fresh.image⟩, fun k hk => ?_, fun v q hq =>
      Or.inr (hC.fresh.tables v q hq)⟩
    rw [npages_zero] at hk
    exact absurd hk (Nat.not_lt_zero k)
  simp only [wp_bind]
  refine wp_post (execLoad_spec hB1) ?_
  rintro ⟨ok, sz⟩ σ2 ⟨A2, hroot2, hM2, hB2⟩
  rw [← hroot2]
  rcases ok with _ | _
  · exact hM2.bad_spec fun σ' hs' hk' => .inl ⟨rfl, hs', hk'⟩
  obtain ⟨hB2, hload⟩ := hB2 rfl
  have hbound := hM2.live.tiled_bound hM2.image.sized.tiled
  have hmax : sz ≤ MAXVA := by rw [npages_eq] at hbound; lia
  have hB2' := hB2.pgroundup hmax
  have hup := pgroundup_npages hmax
  simp only [Bool.not_true, Bool.false_eq_true, if_false, wp_bind]
  generalize pgroundup sz = sz' at *
  have hn' : npages sz' = npages sz := by rw [hup, npages_mul]
  generalize hnew : (sz' + (USERSTACK + 1) * PGSIZE) % 2 ^ 64 = newsz
  have hnewsz : newsz = (npages sz + 2) * PGSIZE := by lia
  have hnn : npages newsz = npages sz + 2 := by rw [hnewsz, npages_mul]
  refine wp_post (hB2'.uvmalloc_spec (by decide) (by lia)) ?_
  rintro r σ3 (⟨hr, A3, hroot3, hB3, hG3⟩ | ⟨hr, A3, hroot3, hM3⟩)
  · subst hr
    rw [if_neg (by lia), wp_bind, ← hroot3, sub64_eq (by lia) (by lia),
      show r - (USERSTACK + 1) * PGSIZE = npages sz * PGSIZE by lia]
    -- the two stack pages are too few for a superpage
    have hpages : ∀ k, npages sz ≤ k → k < npages sz + 2 →
        ∃ w, A3.pg k = some w ∧ pteFlags w = PTE_R ||| PTE_U ||| PTE_W ||| PTE_V := fun k h1 h2 =>
      hG3.pg_new k (hn'.le.trans h1) (by omega) fun hW => by
        have h3 := hW.1
        have h4 := hW.2
        lia
    obtain ⟨w, hw, -⟩ := hpages (npages sz) le_rfl (by omega)
    refine wp_post (uvmclear_spec hB3.live (by lia) hw) ?_
    rintro _ σ4 ⟨A4, u, hE, hd, hp⟩
    have hI4 : Image A4 (npages r) tf := hB3.image.cleared (by omega) hd hp
    have hM4 := hB3.toMade.evolves hE hI4
    rw [← hE.root]
    subst hnewsz
    refine wp_pure.2 (.inr ⟨A4, npages sz, rfl, hM4, fun x hx => ?_, fun v q hq => hB3.tables v q (hd ▸ hq), fun s hs => ?_, ?_⟩)
    · have hplace : A4.holdings (.table x) = some (.page tf) := by rw [Space.holdings_table, hx]; rfl
      -- the image is made of blocks that were free
      have hheld : Block.page tf ∈ held (Owns 0 σ Holdings.none h) := by
        rw [← hM4.keeps.held_eq 0 le_rfl]
        exact ⟨.at (.table x), Place.from_zero _, hplace⟩
      obtain ⟨_ | _ | y, ho⟩ := hheld
      · exact hh ho
      · exact hE.live.sep.placed_not_hand hplace ho
      · cases ho.2
    · obtain ⟨hle, hseg⟩ := hload.new s hs
      exact (hseg.grown hG3 (hle.trans hn'.ge)).update hd hp hle
    · rw [hp, update_of_ne (by omega)]
      exact hpages _ (by omega) (by omega)
  · rw [if_pos hr, ← hroot3]
    exact hM3.bad_spec fun σ' hs' hk' => .inl ⟨rfl, hs', hk'⟩

theorem execImage_spec (hs : Sep σ Holdings.none h) (hpa : PageAddr tf)
    (hh : ¬σ.Free (.page tf)) :
    wp (execImage tf file argv) (fun r σ' =>
      (r = none ∧ Sep σ' Holdings.none h ∧ Keeps 0 σ Holdings.none h σ' Holdings.none h) ∨
      ∃ A sz sp, r = some (A.root, sz, sp) ∧ Made tf sz σ h σ' A ∧
        (∀ v q, A.dir v = .table q → v * SUPERPGSIZE < sz ∨ v = topChunk) ∧ ∀ s ∈ fileSegments file, A.Granted s) E σ := by
  unfold execImage
  rw [wp_bind]
  refine wp_post (execSetup_spec hs hpa hh) ?_
  rintro r σ1 (⟨rfl, hs1, hk1⟩ | ⟨A, n, rfl, hS⟩)
  · exact wp_pure.2 (.inl ⟨rfl, hs1, hk1⟩)
  · unfold execFill
    rw [wp_bind]
    refine wp_post (execStack_spec hS.image hS.live hS.tbl hpa) ?_
    rintro (_ | sp) σ2 hW
    · exact (hS.toMade.evolves (hW.evolves hS.live) hS.image).bad_spec fun σ' hs' hk' => .inl ⟨rfl, hs', hk'⟩
    · exact wp_pure.2 (.inr ⟨A, _, sp, rfl, hS.toMade.evolves (hW.evolves hS.live) hS.image, hS.tables, hS.granted⟩)

/-- An ELF header without program headers. -/
def bareElf : List UInt8 := [0x7f, 0x45, 0x4c, 0x46] ++ List.replicate 60 0

theorem execSetup_bareElf (hs : Sep σ Holdings.none h) (hpa : PageAddr tf) (hfree : 11 < σ.freelist.length) :
    wp (execSetup tf bareElf) (fun r _ => ∃ q sz, r = some (q, sz)) (fun _ => False) σ := by
  have hnum : field (readFile bareElf 0 elfhdrSize) 56 2 = 0 := by decide
  unfold execSetup
  rw [if_neg (by decide), if_neg (by decide), wp_bind]
  refine wp_post (procPagetable_spec hs hpa) ?_
  rintro r σ1 (⟨rfl, hshort, -⟩ | ⟨A, rfl, hC⟩)
  · omega
  obtain ⟨used, hused, hlen⟩ := hC.freelist
  have hall := congrArg List.length hused
  rw [List.length_append] at hall
  have hsteps : growSteps (2 * PGSIZE) 0 ≤ 2 := growSteps_le.trans (by rw [npages_eq]; decide)
  have hI := hC.fresh.image
  simp only [wp_bind, hnum, execLoad]
  rw [wp_pure]
  simp only [Bool.not_true, Bool.false_eq_true, if_false, wp_bind, show pgroundup 0 = 0 from rfl,
    show (0 + (USERSTACK + 1) * PGSIZE) % 2 ^ 64 = 2 * PGSIZE from rfl]
  refine wp_post (Xv6.uvmalloc_spec hC.live (by rw [npages_zero]; exact hI.sized) (by rw [npages_zero]; exact Nat.zero_le _) (by decide)
    (Nat.zero_le _) fun v q hW => ?_) ?_
  · have := hW.2
    lia
  rw [npages_zero]
  rintro r σ2 (⟨rfl, A', hG⟩ | ⟨-, hshort, -⟩)
  · rw [if_neg (by decide), wp_bind, ← hG.root, show sub64 (2 * PGSIZE) ((USERSTACK + 1) * PGSIZE) = 0 * PGSIZE from rfl]
    obtain ⟨w, hw, -⟩ := hG.pg_new 0 le_rfl (by rw [npages_eq]; decide) fun hW => by
      have := hW.2
      lia
    exact wp_post (uvmclear_spec hG.live (by decide) hw) fun _ _ _ => wp_pure.2 ⟨_, _, rfl⟩
  · rw [Nat.zero_mul, growSupers_page (by decide) (by decide), growSupers_page (by decide) (by decide), growSupers,
      if_neg (by decide)] at hshort
    omega

end Xv6
