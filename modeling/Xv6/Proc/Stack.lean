import Xv6.Proc.Replace
import Xv6.Vm.Fetch

/-!
# The initial stack of a program

`exec` pushes the argument strings on the stack page, each one 16-byte aligned, and below them the array of pointers to them.
-/

namespace Xv6

open Bytes (Mem loadLE storeLE)
open Hoare Ledger

variable {κ κ' : Kernel} {P A : Space} {h : List Block} {σ σ' σ1 σ2 σ3 : Phys} {m m' m1 : Mem} {i : Pid} {E : String → Prop}
  {n k w tf base sp pa lo mid hi : Nat} {ustack : List Nat} {file : List UInt8} {argv : List (List UInt8)}
  {strings : List (Nat × List UInt8)}

def padded (n : Nat) : Nat := (n + 15) / 16 * 16

def argRoom (argv : List (List UInt8)) : Nat := (argv.map fun arg => padded (arg.length + 1)).sum

/-- The room that the argument strings and the pointers to them take. -/
def stackRoom (argv : List (List UInt8)) : Nat := argRoom argv + padded (8 * (argv.length + 1))

/-- The strings with their addresses when they are pushed one after the other from `sp` on. -/
def placeArgs : Nat → List (List UInt8) → List (Nat × List UInt8)
  | _, [] => []
  | sp, arg :: argv => (sp - padded (arg.length + 1), arg) :: placeArgs (sp - padded (arg.length + 1)) argv

theorem argRoom_cons (arg : List UInt8) (argv : List (List UInt8)) :
    argRoom (arg :: argv) = padded (arg.length + 1) + argRoom argv := rfl

theorem argRoom_mod (argv : List (List UInt8)) : argRoom argv % 16 = 0 := by
  induction argv with
  | nil => rfl
  | cons arg argv ih =>
    rw [argRoom_cons]
    unfold padded
    omega

theorem placeArgs_snd (sp : Nat) (argv : List (List UInt8)) : (placeArgs sp argv).map Prod.snd = argv := by
  induction argv generalizing sp with
  | nil => rfl
  | cons arg argv ih => rw [placeArgs, List.map_cons, ih]

theorem placeArgs_length (sp : Nat) (argv : List (List UInt8)) : (placeArgs sp argv).length = argv.length := by
  rw [← List.length_map Prod.snd, placeArgs_snd]

theorem placeArgs_inside (hroom : argRoom argv ≤ sp) :
    ∀ p ∈ placeArgs sp argv, sp - argRoom argv ≤ p.1 ∧ p.1 + (p.2.length + 1) ≤ sp := by
  induction argv generalizing sp with
  | nil => intro p hp; cases hp
  | cons arg argv ih =>
    rw [argRoom_cons] at hroom ⊢
    intro p hp
    rcases List.mem_cons.1 hp with rfl | hp
    · unfold padded at *
      dsimp only
      omega
    · have := ih (by omega) p hp
      omega

def Apart (p q : Nat × Nat) : Prop := p.1 + p.2 ≤ q.1 ∨ q.1 + q.2 ≤ p.1

def extents (strings : List (Nat × List UInt8)) : List (Nat × Nat) := strings.map fun p => (p.1, p.2.length + 1)

theorem placeArgs_apart (hroom : argRoom argv ≤ sp) : (extents (placeArgs sp argv)).Pairwise Apart := by
  induction argv generalizing sp with
  | nil => exact List.Pairwise.nil
  | cons arg argv ih =>
    rw [argRoom_cons] at hroom
    refine List.Pairwise.cons (fun q hq => ?_) (ih (by omega))
    obtain ⟨p, hp, rfl⟩ := List.mem_map.1 hq
    have := (placeArgs_inside (by omega) p hp).2
    exact .inr this

/-- The strings are in the page at `pa`, which the user sees at `base`; outside the part from `lo` to `hi` nothing has changed. -/
structure Pushed (base pa lo hi : Nat) (strings : List (Nat × List UInt8)) (m m' : Mem) : Prop where
  same : ∀ a, a < pa + (lo - base) ∨ pa + (hi - base) ≤ a → m' a = m a
  bytes : ∀ p ∈ strings, ∀ x ≤ p.2.length, m' (pa + (p.1 + x - base)) = p.2.getD x 0

theorem Pushed.cons {arg : List UInt8} (hbase : base ≤ lo) (hlo : lo ≤ mid) (hmid : mid + (arg.length + 1) ≤ hi)
    (hm1 : m1 = Bytes.write m (pa + (mid - base)) (arg.length + 1) fun k => arg.getD k 0)
    (hP : Pushed base pa lo mid strings m1 m') : Pushed base pa lo hi ((mid, arg) :: strings) m m' where
  same a ha := by
    rw [hP.same a (by omega), hm1, Bytes.write_outside (by omega)]
  bytes p hp x hx := by
    rcases List.mem_cons.1 hp with rfl | hp
    · dsimp only at hx ⊢
      rw [hP.same _ (by omega), hm1, Bytes.write_inside (by omega) (by omega)]
      congr 1
      omega
    · exact hP.bytes p hp x hx

/-- The page `k` is the stack page, at the physical address `pte2pa w`. -/
structure StackPage (A : Space) (n tf k w : Nat) : Prop where
  image : Image A n tf
  tbl : ∀ x, A.tbl x ≠ some tf
  addr : PageAddr tf
  entry : A.pg k = some w
  flags : pteFlags w = PTE_R ||| PTE_U ||| PTE_W ||| PTE_V

section

variable (hS : StackPage A n tf k w)
include hS

theorem StackPage.leaf {a : Nat} (ha : a / PGSIZE = k) : A.leafAt a = some (0, w) := by
  obtain ⟨q, hq⟩ := A.pg_dir hS.entry
  have hdir : a / SUPERPGSIZE = k / 512 := by lia
  unfold Space.leafAt
  rw [hdir, hq, ha, hS.entry]
  rfl

theorem StackPage.user : hasFlag w PTE_U = true ∧ hasFlag w PTE_W = true := by
  have hU : hasFlag (pteFlags w) PTE_U = hasFlag w PTE_U := hasFlag_pteFlags (k := 4) (by decide)
  have hW : hasFlag (pteFlags w) PTE_W = hasFlag w PTE_W := hasFlag_pteFlags (k := 2) (by decide)
  rw [← hU, ← hW, hS.flags]
  decide

theorem StackPage.frame : A.holdings (.page k) = some (.page (pte2pa w)) := by
  rw [Space.holdings, if_pos (hS.image.pg_user hS.entry hS.user.1), hS.entry]
  rfl

theorem copyout_stack (hL : Live σ A h) {off len : Nat} (src : Nat → UInt8) (hlen : 0 < len)
    (hfit : off + len ≤ PGSIZE) :
    wp (copyout A.root (k * PGSIZE + off) src len) (fun r σ' => r = 0 ∧ Wrote A σ σ' ∧
      σ'.mem = Bytes.write σ.mem (pte2pa w + off) len src) E σ := by
  have hleaf : A.leafAt (k * PGSIZE + off) = some (0, w) := hS.leaf (by lia)
  have hmod : (k * PGSIZE + off) % PGSIZE = off := by lia
  have huser : ∀ x < len, A.UserByte true (k * PGSIZE + off + x) := fun x hx => by
    rw [Space.userByte_add (by rw [hmod]; omega)]
    exact ⟨0, w, hleaf, hS.user.1, fun _ => hS.user.2⟩
  have hkaddr : ∀ x < len, A.kaddr (k * PGSIZE + off + x) = some (pte2pa w + off + x) := fun x hx => by
    rw [Space.kaddr_add hleaf (by rw [hmod]; omega), hmod]
  refine wp_mono (wp_and (copyout_spec (hS.image.framesOffTables hL hS.tbl hS.addr) _ src len hL.rep)
    (copyout_image_spec (E := E) hS.image hL hS.tbl hS.addr src len)) ?_ fun _ hc => hc.1.elim
  rintro r σ' ⟨hpost, -, hf, hs, ha⟩
  have hr := hpost.ret_iff.2 huser
  refine ⟨hr, ⟨hf, hs, ha⟩, funext fun x => ?_⟩
  by_cases hx : pte2pa w + off ≤ x ∧ x < pte2pa w + off + len
  · rw [Bytes.write_inside hx.1 hx.2]
    refine hpost.data hr (fun a ha b hb hab => ?_) (x - (pte2pa w + off)) (by omega) x ?_
    · rw [hkaddr a ha, hkaddr b hb, Option.some.injEq] at hab
      omega
    · rw [hkaddr _ (by omega)]
      congr 1
      omega
  · rw [Bytes.write_outside (by omega)]
    refine hpost.frame x fun y hy _ hc => ?_
    rw [hkaddr y hy, Option.some.injEq] at hc
    omega

end

theorem push_eq {x : Nat} (hsp : sp % 16 = 0) (hx : x ≤ sp) (hlt : sp < 2 ^ 64) :
    sub64 sp x - sub64 sp x % 16 = sp - padded x ∧ x ≤ padded x ∧ padded x ≤ sp ∧ (sp - padded x) % 16 = 0 := by
  rw [sub64_eq hx hlt]
  unfold padded
  omega

theorem execArgs_stack (hS : StackPage A n tf k w) (hk : 1 ≤ k) (hL : Live σ A h) (hsp : sp % 16 = 0) (hlo : k * PGSIZE ≤ sp)
    (hhi : sp ≤ (k + 1) * PGSIZE) (hmax : (k + 1) * PGSIZE ≤ MAXVA) (hmany : ustack.length + argv.length < MAXARG)
    (hlen : ∀ arg ∈ argv, arg.length < PGSIZE) :
    wp (execArgs A.root (k * PGSIZE) argv sp ustack) (fun r σ' => Wrote A σ σ' ∧
      if argRoom argv ≤ sp - k * PGSIZE then
        r = some (sp - argRoom argv, ustack ++ (placeArgs sp argv).map Prod.fst) ∧
          Pushed (k * PGSIZE) (pte2pa w) (sp - argRoom argv) sp (placeArgs sp argv) σ.mem σ'.mem
      else r = none) E σ := by
  induction argv generalizing sp ustack σ with
  | nil =>
    refine wp_pure.2 ⟨Wrote.refl, ?_⟩
    rw [if_pos (show argRoom [] ≤ _ from Nat.zero_le _), placeArgs, List.map_nil, List.append_nil]
    exact ⟨rfl, fun _ _ => rfl, fun p hp => by cases hp⟩
  | cons arg argv ih =>
    have harg := hlen arg List.mem_cons_self
    obtain ⟨hpush, hpad, hle, hmod⟩ := push_eq (x := arg.length + 1) hsp (by lia) (by lia)
    unfold execArgs
    rw [if_neg (by rw [List.length_cons] at hmany; omega)]
    dsimp only
    rw [hpush, argRoom_cons, placeArgs]
    generalize padded (arg.length + 1) = room at *
    by_cases hfit : sp - room < k * PGSIZE
    · rw [if_pos hfit]
      refine wp_pure.2 ⟨Wrote.refl, ?_⟩
      rw [if_neg (by omega)]
    · rw [if_neg hfit, wp_bind]
      have hin : sp - room - k * PGSIZE + (arg.length + 1) ≤ PGSIZE := by
        rw [Nat.add_mul, Nat.one_mul] at hhi
        omega
      have hout := copyout_stack (E := E) hS hL (fun j => arg.getD j 0) (Nat.succ_pos arg.length) hin
      rw [Nat.add_sub_cancel' (Nat.le_of_not_lt hfit)] at hout
      refine wp_post hout ?_
      rintro r σ1 ⟨rfl, hW, hmem⟩
      rw [if_neg (by decide)]
      have hlo' : k * PGSIZE ≤ sp - room := Nat.le_of_not_lt hfit
      refine wp_post (ih (hW.evolves hL).live hmod hlo' (by omega) ?_ fun a ha => hlen a (List.mem_cons_of_mem arg ha)) ?_
      · rw [List.length_append, List.length_singleton]
        rw [List.length_cons] at hmany
        omega
      · rintro r σ2 ⟨hW2, hres⟩
        refine ⟨hW.trans hW2, ?_⟩
        by_cases hroom : argRoom argv ≤ sp - room - k * PGSIZE
        · rw [if_pos hroom] at hres
          rw [if_pos (by omega), hres.1, List.map_cons, List.append_assoc, List.singleton_append, ← Nat.sub_sub]
          have hend : sp - room + (arg.length + 1) ≤ sp := by omega
          exact ⟨rfl, .cons (Nat.le_sub_of_add_le' (by omega)) (Nat.sub_le ..) hend hmem hres.2⟩
        · rw [if_neg hroom] at hres
          rw [if_neg (by omega)]
          exact hres

structure Filled (base pa sp : Nat) (strings : List (Nat × List UInt8)) (m : Mem) : Prop where
  words : ∀ j ≤ strings.length, ∀ b < 8,
    m (pa + (sp + 8 * j + b - base)) = UInt8.ofNat ((strings.map Prod.fst ++ [0]).getD j 0 / 256 ^ b)
  bytes : ∀ p ∈ strings, ∀ x ≤ p.2.length, m (pa + (p.1 + x - base)) = p.2.getD x 0

theorem execStack_stack (hS : StackPage A n tf k w) (hk : 1 ≤ k) (hL : Live σ A h) (hmax : (k + 1) * PGSIZE ≤ MAXVA)
    (hmany : argv.length < MAXARG) (hlen : ∀ arg ∈ argv, arg.length < PGSIZE) :
    wp (execStack A.root (k * PGSIZE) ((k + 1) * PGSIZE) argv) (fun r σ' => Wrote A σ σ' ∧
      if stackRoom argv ≤ PGSIZE then
        r = some ((k + 1) * PGSIZE - stackRoom argv) ∧
          Filled (k * PGSIZE) (pte2pa w) ((k + 1) * PGSIZE - stackRoom argv) (placeArgs ((k + 1) * PGSIZE) argv) σ'.mem
      else r = none) E σ := by
  unfold execStack
  rw [wp_bind]
  have hroot : (k + 1) * PGSIZE - k * PGSIZE = PGSIZE := by lia
  refine wp_post (execArgs_stack hS hk hL (by lia) (by lia) le_rfl hmax (by simpa using hmany) hlen) ?_
  rintro r σ1 ⟨hW, hres⟩
  rw [hroot, List.nil_append] at hres
  by_cases hroom : argRoom argv ≤ PGSIZE
  · rw [if_pos hroom] at hres
    obtain ⟨rfl, hP⟩ := hres
    have hcount : ((placeArgs ((k + 1) * PGSIZE) argv).map Prod.fst).length = argv.length := by
      rw [List.length_map, placeArgs_length]
    have hmod := argRoom_mod argv
    obtain ⟨hpush, hpad, hle, -⟩ := push_eq (show ((k + 1) * PGSIZE - argRoom argv) % 16 = 0 by lia)
      (show (argv.length + 1) * 8 ≤ _ by lia) (by lia)
    dsimp only
    rw [hcount, hpush]
    have hstack : stackRoom argv = argRoom argv + padded ((argv.length + 1) * 8) := by rw [stackRoom, Nat.mul_comm]
    rw [Nat.sub_sub, ← hstack]
    by_cases hfit : (k + 1) * PGSIZE - stackRoom argv < k * PGSIZE
    · rw [if_pos hfit]
      refine wp_pure.2 ⟨hW, ?_⟩
      rw [if_neg (by omega)]
    · rw [if_neg hfit, wp_bind]
      have hout := copyout_stack (E := E) hS (hW.evolves hL).live
        (wordBytes ((placeArgs ((k + 1) * PGSIZE) argv).map Prod.fst ++ [0])) (show 0 < (argv.length + 1) * 8 by omega)
        (show (k + 1) * PGSIZE - stackRoom argv - k * PGSIZE + _ ≤ PGSIZE by omega)
      rw [Nat.add_sub_cancel' (Nat.le_of_not_lt hfit)] at hout
      refine wp_post hout ?_
      rintro r σ2 ⟨rfl, hW2, hmem⟩
      rw [if_neg (by decide)]
      refine wp_pure.2 ⟨hW.trans hW2, ?_⟩
      rw [if_pos (by omega)]
      refine ⟨rfl, fun j hj b hb => ?_, fun p hp x hx => ?_⟩
      · rw [placeArgs_length] at hj
        rw [hmem, Bytes.write_inside (by omega) (by omega), wordBytes]
        have hidx : pte2pa w + ((k + 1) * PGSIZE - stackRoom argv + 8 * j + b - k * PGSIZE) -
            (pte2pa w + ((k + 1) * PGSIZE - stackRoom argv - k * PGSIZE)) = 8 * j + b := by omega
        rw [hidx, show (8 * j + b) / 8 = j by omega, show (8 * j + b) % 8 = b by omega]
      · have hin := placeArgs_inside (by lia) p hp
        rw [hmem, Bytes.write_outside (by omega)]
        exact hP.bytes p hp x hx
  · rw [if_neg hroom] at hres
    subst hres
    refine wp_pure.2 ⟨hW, ?_⟩
    rw [if_neg (by unfold stackRoom; omega)]

/-- `execArgs` with subtractions that stop the machine where those of the source would wrap. -/
def exactArgs (pagetable stackbase : Nat) : List (List UInt8) → Nat → List Nat → PhysM (Option (Nat × List Nat))
  | [], sp, ustack => return some (sp, ustack)
  | arg :: argv, sp, ustack => do
    if ustack.length ≥ MAXARG then return none else
    if sp < arg.length + 1 then panic "sp" else
    let sp := sp - (arg.length + 1)
    let sp := sp - sp % 16
    if sp < stackbase then return none else
    if (← copyout pagetable sp (fun k => arg.getD k 0) (arg.length + 1)) < 0 then return none else
    exactArgs pagetable stackbase argv sp (ustack ++ [sp])

/-- `execStack` with subtractions that stop the machine where those of the source would wrap. -/
def exactStack (pagetable stackbase sp : Nat) (argv : List (List UInt8)) : PhysM (Option Nat) := do
  match ← exactArgs pagetable stackbase argv sp [] with
  | none => return none
  | some (sp, ustack) =>
    if sp < (ustack.length + 1) * 8 then panic "sp" else
    let sp := sp - (ustack.length + 1) * 8
    let sp := sp - sp % 16
    if sp < stackbase then return none else
    if (← copyout pagetable sp (wordBytes (ustack ++ [0])) ((ustack.length + 1) * 8)) < 0 then return none else
    return some sp

theorem execArgs_exact {root : Nat} (hbase : PGSIZE ≤ base) (hsp : base ≤ sp) (hlt : sp < 2 ^ 64) (hlen : ∀ arg ∈ argv, arg.length < PGSIZE) :
    execArgs root base argv sp ustack = exactArgs root base argv sp ustack := by
  induction argv generalizing sp ustack with
  | nil => rfl
  | cons arg argv ih =>
    have harg := hlen arg List.mem_cons_self
    unfold execArgs exactArgs
    rw [if_neg (show ¬sp < arg.length + 1 by omega)]
    dsimp only
    rw [sub64_eq (by omega) hlt]
    by_cases hfit : sp - (arg.length + 1) - (sp - (arg.length + 1)) % 16 < base
    · rw [if_pos hfit, if_pos hfit]
    · rw [if_neg hfit, if_neg hfit, ih (Nat.le_of_not_lt hfit) (by omega) fun a ha => hlen a (List.mem_cons_of_mem arg ha)]

theorem execStack_exact (hS : StackPage A n tf k w) (hk : 1 ≤ k) (hL : Live σ A h) (hmax : (k + 1) * PGSIZE ≤ MAXVA)
    (hmany : argv.length < MAXARG) (hlen : ∀ arg ∈ argv, arg.length < PGSIZE) :
    (execStack A.root (k * PGSIZE) ((k + 1) * PGSIZE) argv).run σ = (exactStack A.root (k * PGSIZE) ((k + 1) * PGSIZE) argv).run σ := by
  have hmany' : ([] : List Nat).length + argv.length < MAXARG := by simpa using hmany
  obtain ⟨r, σ1, hrun, -, hres⟩ := wp_false_iff.1
    (execArgs_stack (E := fun _ => False) hS hk hL (by lia) (by lia) le_rfl hmax hmany' hlen)
  unfold execStack exactStack
  rw [← execArgs_exact (by lia) (by lia) (by lia) hlen, run_bind_ok hrun, run_bind_ok hrun]
  split at hres
  · next hroom =>
    obtain ⟨rfl, -⟩ := hres
    have hcount : ([] ++ (placeArgs ((k + 1) * PGSIZE) argv).map Prod.fst).length = argv.length := by
      rw [List.nil_append, List.length_map, placeArgs_length]
    dsimp only
    rw [hcount, if_neg (show ¬(k + 1) * PGSIZE - argRoom argv < (argv.length + 1) * 8 by lia), sub64_eq (by lia) (by lia)]
  · subst hres
    rfl

/-- The stack of a program that starts: at `sp` there are pointers to copies of the strings, and a null pointer. -/
structure InitialStack (σ : Phys) (root lo hi sp : Nat) (strings : List (Nat × List UInt8)) : Prop where
  aligned : sp % 16 = 0
  words : ∀ j ≤ strings.length, ∀ b < 8,
    userByte σ root (sp + 8 * j + b) = some (UInt8.ofNat ((strings.map Prod.fst ++ [0]).getD j 0 / 256 ^ b))
  bytes : ∀ p ∈ strings, ∀ x ≤ p.2.length, userByte σ root (p.1 + x) = some (p.2.getD x 0)
  apart : ((sp, 8 * (strings.length + 1)) :: extents strings).Pairwise Apart
  inside : ∀ p ∈ (sp, 8 * (strings.length + 1)) :: extents strings, lo ≤ p.1 ∧ p.1 + p.2 ≤ hi

/-- The process is about to start with the arguments `argv`. -/
def Started (κ : Kernel) (i : Pid) (argv : List (List UInt8)) : Prop :=
  ∃ sp strings, strings.map Prod.snd = argv ∧ loadLE κ.phys.mem ((κ.proc i).trapframe + 48) 8 = sp ∧
    loadLE κ.phys.mem ((κ.proc i).trapframe + 120) 8 = sp ∧
    InitialStack κ.phys (κ.proc i).pagetable ((κ.proc i).sz - USERSTACK * PGSIZE) (κ.proc i).sz sp strings

theorem StackPage.userByte (hS : StackPage A n tf k w) (hr : Rep σ.mem A) {a : Nat} (h1 : k * PGSIZE ≤ a) (h2 : a < (k + 1) * PGSIZE) :
    userByte σ A.root a = some (σ.mem (pte2pa w + (a - k * PGSIZE))) := by
  have hleaf : A.leafAt (pgrounddown a) = some (0, w) := hS.leaf (by unfold pgrounddown; lia)
  obtain ⟨r, σ', hrun, rfl, rfl⟩ := wp_false_iff.1
    ((wp_walkaddr (Q := fun r σ' => r = A.walkaddr (pgrounddown a) ∧ σ' = σ) (E := fun _ => False) hr).2 ⟨rfl, rfl⟩)
  have hwalk : A.walkaddr (pgrounddown a) = pte2pa w := by
    unfold Space.walkaddr
    rw [hleaf]
    exact if_pos hS.user.1
  unfold Xv6.userByte
  rw [hrun, hwalk]
  dsimp only
  rw [if_neg (Nat.ne_of_gt (Space.leafAt_pte hleaf).pos), show a % PGSIZE = a - k * PGSIZE by lia]

theorem Filled.initial (hF : Filled (k * PGSIZE) (pte2pa w) ((k + 1) * PGSIZE - stackRoom argv) (placeArgs ((k + 1) * PGSIZE) argv) m)
    (hS : StackPage A n tf k w) (hr : Rep σ.mem A) (hfit : stackRoom argv ≤ PGSIZE)
    (hkept : Kept m σ.mem (.page (pte2pa w))) :
    InitialStack σ A.root (k * PGSIZE) ((k + 1) * PGSIZE) ((k + 1) * PGSIZE - stackRoom argv) (placeArgs ((k + 1) * PGSIZE) argv) := by
  have hroom : stackRoom argv = argRoom argv + padded (8 * (argv.length + 1)) := rfl
  have hpad : 8 * (argv.length + 1) ≤ padded (8 * (argv.length + 1)) ∧ padded (8 * (argv.length + 1)) % 16 = 0 := by
    unfold padded
    omega
  have hargs := argRoom_mod argv
  have hend : (k + 1) * PGSIZE = k * PGSIZE + PGSIZE := by lia
  have hin : ∀ p ∈ placeArgs ((k + 1) * PGSIZE) argv, _ := placeArgs_inside (by omega)
  have hlen := placeArgs_length ((k + 1) * PGSIZE) argv
  have hmem : ∀ a, k * PGSIZE ≤ a → a < (k + 1) * PGSIZE → userByte σ A.root a = some (m (pte2pa w + (a - k * PGSIZE))) := fun a h1 h2 => by
    rw [hS.userByte hr h1 h2, hkept _ ?_]
    have hal := (Space.leafAt_pte (hS.leaf (a := a) (by lia))).pageAddr.1
    show pgrounddown _ = _
    unfold pgrounddown
    lia
  refine ⟨by lia, fun j hj b hb => ?_, fun p hp x hx => ?_, List.Pairwise.cons (fun q hq => ?_) (placeArgs_apart (by omega)), fun q hq => ?_⟩
  · rw [hmem _ (by omega) (by omega), hF.words j hj b hb]
  · have := hin p hp
    rw [hmem _ (by omega) (by omega), hF.bytes p hp x hx]
  · obtain ⟨p, hp, rfl⟩ := List.mem_map.1 hq
    have := hin p hp
    refine .inl ?_
    dsimp only
    omega
  · rcases List.mem_cons.1 hq with rfl | hq
    · dsimp only
      omega
    · obtain ⟨p, hp, rfl⟩ := List.mem_map.1 hq
      have := hin p hp
      dsimp only
      omega

theorem commit_spec (hW : WellFormed κ i P) (entry : Nat) (name : List UInt8) (r : Int) (hsp : sp < 2 ^ 64)
    (hM : Made (κ.proc i).trapframe ((k + 1) * PGSIZE) κ.phys [.page (κ.proc i).trapframe] σ A)
    (hS : StackPage A n (κ.proc i).trapframe k w) :
    wp (do
        onPhys (setTrapframe (κ.proc i).trapframe 120 sp)
        setProc i fun p => { p with name := name, pagetable := A.root, sz := (k + 1) * PGSIZE }
        onPhys (setTrapframe (κ.proc i).trapframe 24 entry)
        onPhys (setTrapframe (κ.proc i).trapframe 48 sp)
        onPhys (procFreepagetable (κ.proc i).pagetable (κ.proc i).sz)
        return r) (fun r' κ' => r' = r ∧
      loadLE κ'.phys.mem ((κ'.proc i).trapframe + 48) 8 = sp ∧ loadLE κ'.phys.mem ((κ'.proc i).trapframe + 120) 8 = sp ∧
      (κ'.proc i).pagetable = A.root ∧ (κ'.proc i).sz = (k + 1) * PGSIZE ∧ Rep κ'.phys.mem A ∧
      Kept σ.mem κ'.phys.mem (.page (pte2pa w))) (fun _ => False) { κ with phys := σ } := by
  obtain ⟨hP, hroot, hI⟩ := hW
  generalize htf : (κ.proc i).trapframe = tf at *
  have hhand : Block.page tf ∈ [Block.page tf] := List.mem_cons_self
  have hok : (Block.page tf).Ok := hP.sep.ok .hand _ hhand
  unfold setTrapframe
  simp only [wp_bind, wp_onPhys, wp_modify, wp_setProc]
  have hkeep : ∀ {τ : Mem} (off v : Nat), off + 8 ≤ PGSIZE → Kept τ (storeLE τ (tf + off) 8 v) (.page (pte2pa w)) := by
    intro τ off v hoff
    have hag : AgreeOff {.page tf} τ (storeLE τ (tf + off) 8 v) :=
      AgreeOff.write_page hok.1 (Set.mem_singleton _) (Nat.le_add_right _ _) (by omega)
    refine hag.kept (fun c hc => ?_) (hM.live.sep.placed_ok hS.frame) fun hc => ?_
    · rw [Set.mem_singleton_iff.1 hc]
      exact hok
    · exact hM.live.sep.placed_not_hand hS.frame (Set.mem_singleton_iff.1 hc ▸ hhand)
  have hE := hM.live.setRegs hhand sp entry sp
  have hkept := ((hkeep (τ := σ.mem) 120 sp (by decide)).trans (hkeep 24 entry (by decide))).trans (hkeep 48 sp (by decide))
  have hbeside := hP.beside hE.live.sep (hM.keeps.trans hE.keeps)
  have hbeside' : Live _ P [] := ⟨hbeside.rep, hbeside.sep.drop_hand⟩
  rw [← hroot]
  -- without the trapframe page in the ledger, the registers stay too
  refine wp_mono (wp_and (procFreepagetable_spec (E := fun _ => False) hbeside hI)
    (procFreepagetable_spec (E := fun _ => False) hbeside' hI)) ?_ fun _ hf => hf.1
  rintro _ σ' ⟨hD, hD'⟩
  obtain ⟨hL', -⟩ := hP.replace (hM.keeps.trans hE.keeps) hE.live hD
  have hstack : Kept _ σ'.mem (.page (pte2pa w)) := hD.keeps.agree.kept (fun c hc => hbeside.sep.held_ok hc)
    (hM.live.sep.placed_ok hS.frame) fun hc => by
      rcases mem_held_iff.1 hc with hf | hb | ⟨x, hx⟩
      · exact hE.live.sep.placed_not_free hS.frame hf
      · exact hE.live.sep.placed_not_hand hS.frame hb
      · exact hP.sep.beside (hM.keeps.trans hE.keeps) hx (mem_held_iff.2 (.inr (.inr ⟨_, hS.frame⟩)))
  have htrap : Kept _ σ'.mem (.page tf) := hD'.keeps.agree.kept (fun c hc => hbeside'.sep.held_ok hc) hok fun hc => by
      rcases mem_held_iff.1 hc with hf | hb | ⟨x, hx⟩
      · exact hbeside.sep.hand_not_free hhand hf
      · cases hb
      · exact hbeside.sep.placed_not_hand hx hhand
  have hload : ∀ off, off + 8 ≤ PGSIZE → loadLE σ'.mem (tf + off) 8 =
      loadLE (storeLE (storeLE (storeLE σ.mem (tf + 120) 8 sp) (tf + 24) 8 entry) (tf + 48) 8 sp) (tf + off) 8 :=
    fun off hoff => Bytes.loadLE_congr fun x h1 h2 => htrap x (by
      have := hok.1
      show pgrounddown x = tf
      unfold pgrounddown
      lia)
  have hmod : sp % 256 ^ 8 = sp := Nat.mod_eq_of_lt hsp
  refine wp_pure.2 ?_
  simp only [Function.update_self, htf]
  refine ⟨trivial, ?_, ?_, trivial, trivial, hL'.rep, hkept.trans hstack⟩
  · rw [hload 48 (by decide), Bytes.loadLE_storeLE, hmod]
  · rw [hload 120 (by decide), Bytes.loadLE_storeLE_outside (by omega), Bytes.loadLE_storeLE_outside (by omega), Bytes.loadLE_storeLE, hmod]

/-- What `exec` has done with the arguments once the image and the stack page are set up. -/
structure Arranged (argv : List (List UInt8)) (r : Int) (pagetable sz : Nat) (σ : Phys) : Prop where
  fails_iff : r = -1 ↔ PGSIZE < stackRoom argv
  exact : USERSTACK * PGSIZE ≤ sz ∧ (execStack pagetable (sub64 sz (USERSTACK * PGSIZE)) sz argv).run σ =
    (exactStack pagetable (sz - USERSTACK * PGSIZE) sz argv).run σ

theorem exec_stack_spec (hW : WellFormed κ i P) (path : List UInt8) (file : Option (List UInt8)) (hmany : argv.length < MAXARG)
    (hlen : ∀ arg ∈ argv, arg.length < PGSIZE) :
    wp (exec i path file argv) (fun r κ' => (r = -1 ∨ r = argv.length ∧ Started κ' i argv) ∧
      ∀ bytes pagetable sz σ, file = some bytes → (execSetup (κ.proc i).trapframe bytes).run κ.phys = .ok (some (pagetable, sz), σ) →
        Arranged argv r pagetable sz σ) (fun _ => False) κ := by
  have hP := hW.live
  have hhand : Block.page (κ.proc i).trapframe ∈ [Block.page (κ.proc i).trapframe] := List.mem_cons_self
  have hok := hP.sep.ok .hand _ hhand
  unfold exec
  rcases file with _ | file
  · exact wp_pure.2 ⟨.inl rfl, by simp⟩
  obtain ⟨r1, σ1, hrun1, hset⟩ := (wp_false_iff (x := execSetup (κ.proc i).trapframe file)).1 (execSetup_spec hP.sep.drop hok.pageAddr (hP.sep.hand_not_free hhand))
  simp only [wp_bind, wp_get, wp_onPhys, execImage]
  rw [wp_of_ok hrun1]
  rcases hset with ⟨rfl, -⟩ | ⟨A, n, rfl, hS⟩
  · refine wp_pure.2 (wp_pure.2 ⟨.inl rfl, fun bytes pagetable sz σ hb hrun => ?_⟩)
    cases hb
    rw [hrun1] at hrun
    cases hrun
  obtain ⟨w, hw, hflags⟩ := hS.stack
  have hpage : StackPage A _ (κ.proc i).trapframe (n + 1) w := ⟨hS.image, hS.tbl, hok.pageAddr, hw, hflags⟩
  have hbound := hS.live.tiled_bound hS.image.sized.tiled
  rw [npages_mul] at hbound
  have hmax : (n + 1 + 1) * PGSIZE ≤ MAXVA := by lia
  have hbase : sub64 ((n + 2) * PGSIZE) (USERSTACK * PGSIZE) = (n + 1) * PGSIZE := by
    rw [sub64_eq (by lia) (by lia)]
    lia
  have hexact := execStack_exact hpage (Nat.le_add_left 1 n) hS.live hmax hmany hlen
  have harr : ∀ {r : Int}, (r = -1 ↔ PGSIZE < stackRoom argv) → ∀ bytes pagetable sz σ, some file = some bytes →
      (execSetup (κ.proc i).trapframe bytes).run κ.phys = .ok (some (pagetable, sz), σ) → Arranged argv r pagetable sz σ := by
    intro r hr bytes pagetable sz σ hb hrun
    cases hb
    rw [hrun1] at hrun
    cases hrun
    refine ⟨hr, by lia, ?_⟩
    rw [hbase, show (n + 2) * PGSIZE - USERSTACK * PGSIZE = (n + 1) * PGSIZE by lia]
    exact hexact
  unfold execFill
  rw [wp_bind, hbase]
  refine wp_post (execStack_stack hpage (Nat.le_add_left 1 n) hS.live hmax hmany hlen) ?_
  rintro r σ2 ⟨hwrote, hres⟩
  have hM := hS.toMade.evolves (hwrote.evolves hS.live) hS.image
  by_cases hfit : stackRoom argv ≤ PGSIZE
  · rw [if_pos hfit] at hres
    obtain ⟨rfl, hfill⟩ := hres
    refine wp_pure.2 ?_
    refine wp_post (commit_spec hW (field (readFile file 0 elfhdrSize) 24 8) (safestrcpy (lastElem path) nameSize) argv.length (show (n + 1 + 1) * PGSIZE - stackRoom argv < 2 ^ 64 by lia)
      hM hpage) ?_
    rintro _ κ1 ⟨rfl, hsp, ha1, hroot, hsz, hrep, hkept⟩
    refine ⟨.inr ⟨rfl, _, placeArgs ((n + 1 + 1) * PGSIZE) argv, placeArgs_snd _ _, hsp, ha1, ?_⟩, harr ?_⟩
    · rw [hroot, hsz, show (n + 1 + 1) * PGSIZE - USERSTACK * PGSIZE = (n + 1) * PGSIZE by lia]
      exact hfill.initial hpage hrep hfit hkept
    · exact ⟨fun hc => by omega, fun hc => by omega⟩
  · rw [if_neg hfit] at hres
    subst hres
    refine hM.bad_spec fun σ' hs' hk' => wp_pure.2 ⟨.inl rfl, harr ⟨fun _ => by omega, fun _ => rfl⟩⟩

/-- The initial stack that `exec` makes of at most `MAXARG - 1` arguments, each shorter than a page: if `exec` succeeds the process
finds them there, 16-byte aligned, between the guard page and the end of the image; once the image and the stack page are set up it
fails if and only if they do not fit. -/
theorem exec_initial_stack (hW : WellFormed κ i P) (path : List UInt8) (file : Option (List UInt8)) (argv : List (List UInt8))
    (hmany : argv.length ≤ MAXARG - 1) (hlen : ∀ arg ∈ argv, arg.length < PGSIZE) :
    ∃ r κ', (exec i path file argv).run κ = .ok (r, κ') ∧ (r = -1 ∨ r = argv.length ∧ Started κ' i argv) ∧
      ∀ bytes pagetable sz σ, file = some bytes → (execSetup (κ.proc i).trapframe bytes).run κ.phys = .ok (some (pagetable, sz), σ) →
        Arranged argv r pagetable sz σ :=
  wp_false_iff.1 (exec_stack_spec hW path file (lt_of_le_of_lt hmany (by decide)) hlen)

/-- The first process can run a program that is only an ELF header. -/
theorem exists_bareElf : ∃ (w : World) (i : Pid) (P : Space), WellFormed w.kernel i P ∧
    ∃ pagetable sz σ, (execSetup (w.kernel.proc i).trapframe bareElf).run w.kernel.phys = .ok (some (pagetable, sz), σ) := by
  obtain ⟨w, i, P, -, hA, -⟩ := exists_first (fun _ _ => True) fun _ => trivial
  obtain ⟨S, hK, hS⟩ := hA.inv
  have hW := hK.wellFormed hS
  have hok := hW.live.sep.ok .hand _ List.mem_cons_self
  obtain ⟨_, σ, hset, pagetable, sz, rfl⟩ := wp_false_iff.1
    (execSetup_bareElf hW.live.sep.drop hok.pageAddr (lt_of_lt_of_le (by decide) hA.freelist))
  exact ⟨w, i, P, hW, pagetable, sz, σ, hset⟩

/-- The stack holds 16 bytes for each of the arguments `hi` and `x`, and 32 for the pointers. -/
theorem exec_initial_stack_first : ∃ (w : World) (i : Pid) (P : Space), WellFormed w.kernel i P ∧
    ∃ κ', (exec i [] (some bareElf) [[104, 105], [120]]).run w.kernel = .ok (2, κ') ∧ Started κ' i [[104, 105], [120]] ∧
      ∃ pagetable sz σ, (execSetup (w.kernel.proc i).trapframe bareElf).run w.kernel.phys = .ok (some (pagetable, sz), σ) ∧
        Arranged [[104, 105], [120]] 2 pagetable sz σ := by
  obtain ⟨w, i, P, hW, pagetable, sz, σ, hset⟩ := exists_bareElf
  obtain ⟨r, κ', hrun, hres, harr⟩ := exec_initial_stack hW [] (some bareElf) [[104, 105], [120]] (by decide) (by decide)
  have hfit := harr bareElf pagetable sz σ rfl hset
  rcases hres with rfl | ⟨rfl, hstart⟩
  · exact absurd (hfit.fails_iff.1 rfl) (by decide)
  · exact ⟨w, i, P, hW, κ', hrun, hstart, pagetable, sz, σ, hset, hfit⟩

theorem exec_all_or_nothing_first : ∃ (w : World) (i : Pid) (P : Space), WellFormed w.kernel i P ∧
    ∃ κ', (exec i [] (some bareElf) [[104, 105]]).run w.kernel = .ok (1, κ') ∧ ∃ A, Replaced w.kernel i P κ' A := by
  obtain ⟨w, i, P, hW, pagetable, sz, σ, hset⟩ := exists_bareElf
  obtain ⟨r, κ', hrun, hres⟩ := exec_all_or_nothing hW [] (some bareElf) [[104, 105]]
  have hstack := (wp_of_ok hrun).1 (exec_stack_spec hW [] (some bareElf) (by decide) (by decide))
  rcases hres with ⟨rfl, -⟩ | ⟨rfl, hA⟩
  · exact absurd ((hstack.2 bareElf pagetable sz σ rfl hset).fails_iff.1 rfl) (by decide)
  · exact ⟨w, i, P, hW, κ', hrun, hA⟩

end Xv6
