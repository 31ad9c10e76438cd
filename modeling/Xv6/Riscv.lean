import Mathlib.Data.Nat.Bitwise
import Mathlib.Tactic.Common

/-!
# Addresses and page-table entries

The constants and macros of `riscv.h` and `memlayout.h`. Addresses, sizes and entries are 64-bit words, held as natural numbers;
a macro that can leave the 64 bits is reduced modulo `2 ^ 64`.
-/

namespace Xv6

abbrev PGSIZE : Nat := 4096

abbrev SUPERPGSIZE : Nat := 2097152

abbrev MAXVA : Nat := 274877906944

abbrev PHYSTOP : Nat := 0x88000000

/-- The trampoline page is the highest page of every address space. -/
abbrev TRAMPOLINE : Nat := MAXVA - PGSIZE

abbrev TRAPFRAME : Nat := TRAMPOLINE - PGSIZE

/-- The linker symbol `end` of `kernel.sym`: the first address after the kernel. -/
abbrev kernelEnd : Nat := 0x80020fd0

/-- The linker symbol `trampoline` of `kernel.sym`. -/
abbrev trampoline : Nat := 0x80006000

abbrev PTE_V : Nat := 1

abbrev PTE_R : Nat := 2

abbrev PTE_W : Nat := 4

abbrev PTE_X : Nat := 8

abbrev PTE_U : Nat := 16

def pgroundup (sz : Nat) : Nat := (sz + PGSIZE - 1) % 2 ^ 64 / PGSIZE * PGSIZE

def pgrounddown (a : Nat) : Nat := a / PGSIZE * PGSIZE

def hasFlag (pte f : Nat) : Bool := pte &&& f != 0

/-- `PTE_LEAF`: an entry with one of the bits R, W, X maps memory, any other valid entry points to a table. -/
def pteLeaf (pte : Nat) : Bool := hasFlag pte PTE_R || hasFlag pte PTE_W || hasFlag pte PTE_X

def pa2pte (pa : Nat) : Nat := (pa >>> 12) <<< 10

def pte2pa (pte : Nat) : Nat := ((pte >>> 10) <<< 12) % 2 ^ 64

def pteFlags (pte : Nat) : Nat := pte &&& 0x3FF

/-- The 9-bit index of `va` into the page-table page of the given level. -/
def px (level va : Nat) : Nat := (va >>> (12 + 9 * level)) &&& 0x1FF

theorem px_eq (level va : Nat) : px level va = va / 2 ^ (12 + 9 * level) % 512 := by
  unfold px
  rw [Nat.shiftRight_eq_div_pow, show (0x1FF : Nat) = 2 ^ 9 - 1 from rfl, Nat.and_two_pow_sub_one_eq_mod]

theorem pgroundup_eq {sz : Nat} (h : sz ≤ MAXVA) : pgroundup sz = (sz + 4095) / 4096 * 4096 := by
  simp only [pgroundup, PGSIZE, MAXVA] at *
  rw [Nat.mod_eq_of_lt (by omega)]; rfl

theorem pte2pa_eq (pte : Nat) : pte2pa pte = pte / 1024 * 4096 % 2 ^ 64 := by
  unfold pte2pa
  rw [Nat.shiftRight_eq_div_pow, Nat.shiftLeft_eq]

theorem pa2pte_eq (pa : Nat) : pa2pte pa = pa / 4096 * 1024 := by
  unfold pa2pte
  rw [Nat.shiftRight_eq_div_pow, Nat.shiftLeft_eq]

theorem pteFlags_eq (pte : Nat) : pteFlags pte = pte % 1024 := by
  unfold pteFlags
  rw [show (0x3FF : Nat) = 2 ^ 10 - 1 from rfl, Nat.and_two_pow_sub_one_eq_mod]

theorem hasFlag_eq_testBit (pte k : Nat) : hasFlag pte (2 ^ k) = pte.testBit k := by
  unfold hasFlag
  rw [Nat.and_two_pow]
  cases pte.testBit k <;> simp

theorem hasFlag_or (x y k : Nat) : hasFlag (x ||| y) (2 ^ k) = (hasFlag x (2 ^ k) || hasFlag y (2 ^ k)) := by
  simp only [hasFlag_eq_testBit, Nat.testBit_or]

def mkPte (pa perm : Nat) : Nat := pa2pte pa ||| perm ||| PTE_V

theorem mkPte_eq {pa perm : Nat} (h : perm < 1024) : mkPte pa perm = pa / 4096 * 1024 + (perm ||| PTE_V) := by
  have hlt : perm ||| PTE_V < 2 ^ 10 := Nat.or_lt_two_pow h (by decide)
  have e : pa2pte pa = 2 ^ 10 * (pa / 4096) := by rw [pa2pte_eq]; omega
  unfold mkPte
  rw [Nat.or_assoc, e, ← Nat.two_pow_add_eq_or_of_lt hlt, Nat.mul_comm]

theorem mkPte_pa {pa perm : Nat} (h : perm < 1024) (hpa : pa % 4096 = 0) (hlt : pa < 2 ^ 56) :
    pte2pa (mkPte pa perm) = pa := by
  have hlt' : perm ||| PTE_V < 2 ^ 10 := Nat.or_lt_two_pow h (by decide)
  rw [pte2pa_eq, mkPte_eq h, show (pa / 4096 * 1024 + (perm ||| PTE_V)) / 1024 = pa / 4096 by omega]
  omega

theorem mkPte_lt {pa perm : Nat} (h : perm < 1024) (hlt : pa < 2 ^ 56) : mkPte pa perm < 2 ^ 64 := by
  have hlt' : perm ||| PTE_V < 2 ^ 10 := Nat.or_lt_two_pow h (by decide)
  rw [mkPte_eq h]
  omega

theorem mkPte_flags {pa perm : Nat} (h : perm < 1024) : pteFlags (mkPte pa perm) = perm ||| PTE_V := by
  have hlt' : perm ||| PTE_V < 2 ^ 10 := Nat.or_lt_two_pow h (by decide)
  rw [pteFlags_eq, mkPte_eq h]
  omega

theorem hasFlag_pteFlags {pte k : Nat} (hk : k < 10) : hasFlag (pteFlags pte) (2 ^ k) = hasFlag pte (2 ^ k) := by
  rw [hasFlag_eq_testBit, hasFlag_eq_testBit, pteFlags_eq, show (1024 : Nat) = 2 ^ 10 from rfl,
    Nat.testBit_mod_two_pow]
  simp [hk]

theorem hasFlag_mkPte {pa perm k : Nat} (h : perm < 1024) (hk : k < 10) :
    hasFlag (mkPte pa perm) (2 ^ k) = hasFlag (perm ||| PTE_V) (2 ^ k) := by
  rw [← hasFlag_pteFlags hk, mkPte_flags h]

end Xv6
