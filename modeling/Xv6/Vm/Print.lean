import Mathlib.Data.List.TakeWhile
import Xv6.Printf.Code
import Xv6.Vm.Built
import Xv6.Vm.Free
import Xv6.Vm.Isolate

/-!
# Printing a page table (`vmprint` in `vm.c`)

`vmprint` reads the page table only, so it is a function of the memory. Its recursion has no bound of its own: `fuel` bounds the
depth, and a deeper recursion is `none`.
-/

namespace Xv6

open Bytes (Mem loadLE)

/-- A line: the depth, and the address, the entry and the physical address that are printed. -/
structure PteLine where
  depth : Nat
  va : Nat
  pte : Nat
  pa : Nat
  deriving DecidableEq

def ptrText (x : Nat) : List UInt8 := Printf.printptrWith Printf.lower (BitVec.ofNat 64 x)

def pxShift (depth : Nat) : Nat := 30 - 9 * depth

def vmprintRecurse (m : Mem) : Nat → Nat → Nat → Nat → Option (List PteLine)
  | 0, _, _, _ => none
  | fuel + 1, pagetable, depth, vaRecursive =>
    (ptes.mapM fun i =>
      let pte := pteAt m pagetable i
      if !hasFlag pte PTE_V then some []
      else
        let va := vaRecursive ||| (i <<< pxShift depth)
        let line : PteLine := ⟨depth, va, pte, pte2pa pte⟩
        if hasFlag pte PTE_V && !pteLeaf pte then (vmprintRecurse m fuel (pte2pa pte) (depth + 1) va).map (line :: ·)
        else some [line]).map List.flatten

def vmprint (m : Mem) (fuel pagetable : Nat) : Option (List UInt8 × List PteLine) :=
  (vmprintRecurse m fuel pagetable 0 0).map ("page table ".toUTF8.toList ++ ptrText pagetable ++ "\n".toUTF8.toList, ·)

variable {m : Mem} {T : Skeleton} {σ : Phys} {i j k n p va va' d d' a depth fuel root : Nat} {l x : PteLine}
  {α β : Type} {d a va' d' : Nat} {lines sub pre post : List PteLine}

def pteLine (depth va e : Nat) : PteLine := ⟨depth, va, e, pte2pa e⟩

/-- The order of the lines: by address, and a table before what it holds. -/
def Before (x y : PteLine) : Prop := x.va < y.va ∨ x.va = y.va ∧ x.depth < y.depth

def entryAt (m : Mem) (root va : Nat) : Nat → Option Nat
  | 0 => some (root + 8 * px 2 va)
  | d + 1 => (entryAt m root va d).bind fun a =>
    let e := loadLE m a 8
    if hasFlag e PTE_V && !pteLeaf e then some (pte2pa e + 8 * px (1 - d) va) else none

def leastVa (depth va : Nat) : Nat := va / 2 ^ pxShift depth * 2 ^ pxShift depth

theorem entryAt_succ : entryAt m root va (d + 1) = some a ↔ ∃ b, entryAt m root va d = some b ∧
    hasFlag (loadLE m b 8) PTE_V = true ∧ pteLeaf (loadLE m b 8) = false ∧
    pte2pa (loadLE m b 8) + 8 * px (1 - d) va = a := by
  simp only [entryAt, Option.bind_eq_some_iff, Option.ite_none_right_eq_some, Bool.and_eq_true, Bool.not_eq_true', Option.some.injEq,
    and_assoc]

theorem entryAt_above (h : entryAt m root va (d + n + 1) = some a) : ∃ b, entryAt m root va d = some b ∧
    hasFlag (loadLE m b 8) PTE_V = true ∧ pteLeaf (loadLE m b 8) = false := by
  induction n generalizing a with
  | zero =>
    obtain ⟨b, hb, hv, hl, -⟩ := entryAt_succ.1 h
    exact ⟨b, hb, hv, hl⟩
  | succ n ih =>
    obtain ⟨b, hb, -⟩ := entryAt_succ.1 h
    exact ih hb

theorem mapM_flatten {f : α → Option (List β)} {g : α → List β} : ∀ {l : List α}, (∀ x ∈ l, f x = some (g x)) →
    (l.mapM f).map List.flatten = some (l.flatMap g) := by
  intro l
  induction l with
  | nil => intro _; rfl
  | cons x l ih =>
    intro h
    obtain ⟨ys, hys, hflat⟩ := Option.map_eq_some_iff.1 (ih fun y hy => h y (List.mem_cons_of_mem x hy))
    simp [h x (List.mem_cons_self ..), hys, hflat]

theorem or_shift (hi : i < 512) (hva : va % 2 ^ (pxShift depth + 9) = 0) :
    va ||| (i <<< pxShift depth) = va + i * 2 ^ pxShift depth := by
  obtain ⟨x, rfl⟩ := Nat.dvd_of_mod_eq_zero hva
  have hlt : i <<< pxShift depth < 2 ^ (pxShift depth + 9) := by
    rw [Nat.shiftLeft_eq, Nat.pow_add, Nat.mul_comm]
    exact Nat.mul_lt_mul_of_pos_left hi (Nat.two_pow_pos _)
  rw [← Nat.two_pow_add_eq_or_of_lt hlt, Nat.shiftLeft_eq]

theorem dvd_of_aligned (hal : va % 2 ^ (pxShift d + 9) = 0) : 2 ^ pxShift d ∣ va :=
  (Nat.pow_dvd_pow 2 (Nat.le_add_right _ 9)).trans (Nat.dvd_of_mod_eq_zero hal)

def At (m : Mem) (root d va p : Nat) : Prop :=
  ∀ i va', i < 512 → va + i * 2 ^ pxShift d ≤ va' → va' < va + (i + 1) * 2 ^ pxShift d → entryAt m root va' d = some (p + 8 * i)

/-- The lines `ls` are those of the valid entries from the given depth on for the addresses from `va` to `top`. -/
structure Lists (m : Mem) (root d va top : Nat) (ls : List PteLine) : Prop where
  sorted : ls.Pairwise Before
  range : ∀ l ∈ ls, va ≤ l.va ∧ l.va < top ∧ d ≤ l.depth ∧ l.depth ≤ 2
  entry : ∀ l ∈ ls, ∃ a, leastVa l.depth l.va = l.va ∧ entryAt m root l.va l.depth = some a ∧
    hasFlag (loadLE m a 8) PTE_V = true ∧ l = pteLine l.depth l.va (loadLE m a 8)
  all : ∀ va' d' a, va ≤ va' → va' < top → d ≤ d' → entryAt m root va' d' = some a → hasFlag (loadLE m a 8) PTE_V = true →
    pteLine d' (leastVa d' va') (loadLE m a 8) ∈ ls

theorem at_root (m : Mem) (root : Nat) : At m root 0 0 root := by
  intro i va' hi h1 h2
  rw [entryAt, px_eq]
  simp only [pxShift] at h1 h2
  rw [show va' / 2 ^ (12 + 9 * 2) % 512 = i by omega]

theorem At.next (h : At m root d va p) (hd : d < 2) (hal : va % 2 ^ (pxShift d + 9) = 0) (hi : i < 512)
    (hv : hasFlag (pteAt m p i) PTE_V = true) (hl : pteLeaf (pteAt m p i) = false) :
    At m root (d + 1) (va + i * 2 ^ pxShift d) (pte2pa (pteAt m p i)) := by
  intro j va' hj h1 h2
  have hd : d = 0 ∨ d = 1 := by omega
  have hup : entryAt m root va' d = some (p + 8 * i) := by
    refine h i va' hi ?_ ?_
    · exact Nat.le_trans (Nat.le_add_right _ _) h1
    · rcases hd with rfl | rfl <;> simp only [pxShift] at h2 ⊢ <;> omega
  refine entryAt_succ.2 ⟨_, hup, hv, hl, ?_⟩
  have hpx : px (1 - d) va' = j := by
    rw [px_eq]
    rcases hd with rfl | rfl <;> simp only [pxShift] at h1 h2 hal ⊢ <;> omega
  rw [hpx]
  rfl

theorem lists_entry (hA : At m root d va p) (hd : d ≤ 2) (hal : va % 2 ^ (pxShift d + 9) = 0) (hi : i < 512)
    (hsub : hasFlag (pteAt m p i) PTE_V = true → pteLeaf (pteAt m p i) = false → Lists m root (d + 1) (va + i * 2 ^ pxShift d) (va + (i + 1) * 2 ^ pxShift d) sub)
    (hleaf : pteLeaf (pteAt m p i) = true → sub = []) :
    Lists m root d (va + i * 2 ^ pxShift d) (va + (i + 1) * 2 ^ pxShift d)
      (if hasFlag (pteAt m p i) PTE_V then pteLine d (va + i * 2 ^ pxShift d) (pteAt m p i) :: sub else []) := by
  have hrange : ∀ {va' d' a}, va + i * 2 ^ pxShift d ≤ va' → va' < va + (i + 1) * 2 ^ pxShift d → d ≤ d' →
      entryAt m root va' d' = some a → a = p + 8 * i ∧ d' = d ∨
        hasFlag (pteAt m p i) PTE_V = true ∧ pteLeaf (pteAt m p i) = false ∧ d + 1 ≤ d' := by
    intro va' d' a h1 h2 hle h
    have hup := hA i va' hi h1 h2
    rcases Nat.lt_or_eq_of_le hle with hlt | rfl
    · obtain ⟨b, hb, hv, hl⟩ := entryAt_above (n := d' - d - 1) (a := a) (by rw [show d + (d' - d - 1) + 1 = d' by omega]; exact h)
      obtain rfl := Option.some.inj (hb.symm.trans hup)
      exact .inr ⟨hv, hl, hlt⟩
    · exact .inl ⟨Option.some.inj (h.symm.trans hup), rfl⟩
  have hpos : 2 ^ pxShift d > 0 := Nat.two_pow_pos _
  have hmul : va + (i + 1) * 2 ^ pxShift d = va + i * 2 ^ pxShift d + 2 ^ pxShift d := by rw [Nat.succ_mul, Nat.add_assoc]
  split
  next hv =>
    have hsub' : ∀ x ∈ sub, va + i * 2 ^ pxShift d ≤ x.va ∧ x.va < va + (i + 1) * 2 ^ pxShift d ∧ d + 1 ≤ x.depth ∧ x.depth ≤ 2 := by
      intro x hx
      cases hl : pteLeaf (pteAt m p i)
      · exact (hsub hv hl).range x hx
      · rw [hleaf hl] at hx
        cases hx
    refine ⟨List.pairwise_cons.2 ⟨fun x hx => ?_, ?_⟩, fun x hx => ?_, fun x hx => ?_, fun va' d' a h1 h2 hle h hval => ?_⟩
    · obtain ⟨h1, -, h2, -⟩ := hsub' x hx
      rcases Nat.lt_or_eq_of_le h1 with h1 | h1
      · exact .inl h1
      · exact .inr ⟨h1, h2⟩
    · cases hl : pteLeaf (pteAt m p i)
      · exact (hsub hv hl).sorted
      · rw [hleaf hl]
        exact List.Pairwise.nil
    · rcases List.mem_cons.1 hx with rfl | hx
      · exact ⟨Nat.le_refl _, by rw [hmul]; exact Nat.lt_add_of_pos_right hpos, Nat.le_refl _, hd⟩
      · have := hsub' x hx
        exact ⟨this.1, this.2.1, by omega, this.2.2.2⟩
    · rcases List.mem_cons.1 hx with rfl | hx
      · refine ⟨p + 8 * i, ?_, hA i _ hi (Nat.le_refl _) (by rw [hmul]; exact Nat.lt_add_of_pos_right hpos), hv, rfl⟩
        exact Nat.div_mul_cancel (Nat.dvd_add (dvd_of_aligned hal) (Nat.dvd_mul_left _ _))
      · cases hl : pteLeaf (pteAt m p i)
        · exact (hsub hv hl).entry x hx
        · rw [hleaf hl] at hx
          cases hx
    · rcases hrange h1 h2 hle h with ⟨rfl, rfl⟩ | ⟨-, hl, hlt⟩
      · have hleast : leastVa d' va' = va + i * 2 ^ pxShift d' := by
          obtain ⟨x, rfl⟩ := dvd_of_aligned hal
          have hdiv : va' / 2 ^ pxShift d' = x + i := by
            refine Nat.div_eq_of_lt_le ?_ ?_
            · rw [Nat.add_mul, Nat.mul_comm x]
              exact h1
            · rw [Nat.succ_mul, Nat.add_mul, Nat.mul_comm x, Nat.add_assoc, ← Nat.succ_mul]
              exact h2
          rw [leastVa, hdiv, Nat.add_mul, Nat.mul_comm x]
        rw [hleast]
        exact List.mem_cons_self ..
      · exact List.mem_cons_of_mem _ ((hsub hv hl).all va' d' a h1 h2 hlt h hval)
  next hv =>
    refine ⟨List.Pairwise.nil, fun x hx => (by cases hx), fun x hx => (by cases hx), fun va' d' a h1 h2 hle h hval => ?_⟩
    rcases hrange h1 h2 hle h with ⟨rfl, rfl⟩ | ⟨hval, -⟩
    · exact absurd hval hv
    · exact absurd hval hv

theorem lists_flatMap {g : Nat → List PteLine}
    (h : ∀ i, i < 512 → Lists m root d (va + i * 2 ^ pxShift d) (va + (i + 1) * 2 ^ pxShift d) (g i)) :
    Lists m root d va (va + 512 * 2 ^ pxShift d) (ptes.flatMap g) := by
  have hsorted : ptes.Pairwise (· < ·) := by
    unfold ptes
    exact List.pairwise_lt_range
  refine ⟨List.pairwise_flatMap.2 ⟨fun i hi => (h i (mem_ptes.1 hi)).sorted, ?_⟩, fun l hl => ?_, fun l hl => ?_,
    fun va' d' a h1 h2 hle he hv => ?_⟩
  · refine hsorted.imp_of_mem fun {i j} hi hj hij x hx y hy => .inl ?_
    have h1 := ((h i (mem_ptes.1 hi)).range x hx).2.1
    have h2 := ((h j (mem_ptes.1 hj)).range y hy).1
    have h3 : (i + 1) * 2 ^ pxShift d ≤ j * 2 ^ pxShift d := Nat.mul_le_mul_right _ hij
    omega
  · obtain ⟨i, hi, hl⟩ := List.mem_flatMap.1 hl
    obtain ⟨h1, h2, h3, h4⟩ := (h i (mem_ptes.1 hi)).range l hl
    have h5 : (i + 1) * 2 ^ pxShift d ≤ 512 * 2 ^ pxShift d := Nat.mul_le_mul_right _ (mem_ptes.1 hi)
    exact ⟨by omega, by omega, h3, h4⟩
  · obtain ⟨i, hi, hl⟩ := List.mem_flatMap.1 hl
    exact (h i (mem_ptes.1 hi)).entry l hl
  · have hpos : 0 < 2 ^ pxShift d := Nat.two_pow_pos _
    have hi : (va' - va) / 2 ^ pxShift d < 512 := Nat.div_lt_of_lt_mul (by rw [Nat.mul_comm]; omega)
    have hdm := Nat.div_add_mod (va' - va) (2 ^ pxShift d)
    rw [Nat.mul_comm] at hdm
    refine List.mem_flatMap.2 ⟨_, mem_ptes.2 hi, (h _ hi).all va' d' a ?_ ?_ hle he hv⟩
    · omega
    · rw [Nat.succ_mul]
      omega

theorem recurse_step (hA : At m root d va p) (hd : d ≤ 2) (hal : va % 2 ^ (pxShift d + 9) = 0)
    (h : ∀ i, i < 512 → hasFlag (pteAt m p i) PTE_V = true → pteLeaf (pteAt m p i) = false → ∃ sub,
      (∀ fuel, vmprintRecurse m (fuel + k) (pte2pa (pteAt m p i)) (d + 1) (va + i * 2 ^ pxShift d) = some sub) ∧
      Lists m root (d + 1) (va + i * 2 ^ pxShift d) (va + (i + 1) * 2 ^ pxShift d) sub) :
    ∃ ls, (∀ fuel, vmprintRecurse m (fuel + k + 1) p d va = some ls) ∧ Lists m root d va (va + 512 * 2 ^ pxShift d) ls := by
  have hex : ∀ i, ∃ sub, i < 512 → (hasFlag (pteAt m p i) PTE_V = true → pteLeaf (pteAt m p i) = false →
      (∀ fuel, vmprintRecurse m (fuel + k) (pte2pa (pteAt m p i)) (d + 1) (va + i * 2 ^ pxShift d) = some sub) ∧
      Lists m root (d + 1) (va + i * 2 ^ pxShift d) (va + (i + 1) * 2 ^ pxShift d) sub) ∧ (pteLeaf (pteAt m p i) = true → sub = []) := by
    intro i
    by_cases hc : i < 512 ∧ hasFlag (pteAt m p i) PTE_V = true ∧ pteLeaf (pteAt m p i) = false
    · obtain ⟨sub, hsub⟩ := h i hc.1 hc.2.1 hc.2.2
      exact ⟨sub, fun _ => ⟨fun _ _ => hsub, fun hl => by rw [hc.2.2] at hl; cases hl⟩⟩
    · exact ⟨[], fun hi => ⟨fun hv hl => absurd ⟨hi, hv, hl⟩ hc, fun _ => rfl⟩⟩
  choose sub hsub using hex
  refine ⟨_, fun fuel => mapM_flatten fun i hi => ?_, lists_flatMap fun i hi =>
    lists_entry hA hd hal hi (fun hv hl => ((hsub i hi).1 hv hl).2) (hsub i hi).2⟩
  have hi := mem_ptes.1 hi
  simp only [or_shift hi hal]
  cases hv : hasFlag (pteAt m p i) PTE_V
  · rfl
  · cases hl : pteLeaf (pteAt m p i)
    · rw [((hsub i hi).1 hv hl).1]
      rfl
    · rw [(hsub i hi).2 hl]
      rfl

theorem vmprintRecurse_lists (hdeep : ∀ va', va' < 2 ^ 39 → entryAt m root va' 3 = none) (k : Nat) :
    ∀ {d va p}, d + k = 2 → va % 2 ^ (pxShift d + 9) = 0 → va + 512 * 2 ^ pxShift d ≤ 2 ^ 39 → At m root d va p →
      ∃ ls, (∀ fuel, vmprintRecurse m (fuel + k + 1) p d va = some ls) ∧ Lists m root d va (va + 512 * 2 ^ pxShift d) ls := by
  induction k with
  | zero =>
    intro d va p hd hal htop hA
    obtain rfl : d = 2 := hd
    refine recurse_step (k := 0) hA (by decide) hal fun i hi hv hl => ?_
    simp only [pxShift] at htop
    have hup := hA i _ hi (Nat.le_refl _) (by simp only [pxShift]; omega)
    have hfour := entryAt_succ.2 ⟨_, hup, hv, hl, rfl⟩
    rw [hdeep _ (by simp only [pxShift]; omega)] at hfour
    cases hfour
  | succ k ih =>
    intro d va p hd hal htop hA
    have hcases : d = 0 ∨ d = 1 := by omega
    refine recurse_step hA (by omega) hal fun i hi hv hl => ?_
    have htop' : va + i * 2 ^ pxShift d + 512 * 2 ^ pxShift (d + 1) = va + (i + 1) * 2 ^ pxShift d := by
      rcases hcases with rfl | rfl <;> simp only [pxShift] <;> omega
    have hnext := ih (d := d + 1) (by omega) ?_ ?_ (hA.next (by omega) hal hi hv hl)
    · rwa [htop'] at hnext
    · rw [show pxShift (d + 1) + 9 = pxShift d by rcases hcases with rfl | rfl <;> rfl, Nat.add_mul_mod_self_right]
      exact Nat.mod_eq_zero_of_dvd (dvd_of_aligned hal)
    · rw [htop']
      exact Nat.le_trans (Nat.add_le_add_left (Nat.mul_le_mul_right _ hi) va) htop

theorem entryAt_one (hT : T.Holds m) (hva : va < MAXVA) :
    entryAt m T.root va 1 = (T.l1 (va / SUPERPGSIZE / 512)).map (· + 8 * (va / SUPERPGSIZE % 512)) := by
  have hlt := gib_lt hva
  simp only [entryAt, Option.bind_some, px_two hva, px_one, Nat.sub_zero]
  rcases hp : T.l1 (va / SUPERPGSIZE / 512) with _ | p
  · have hv := hT.root_none (by omega) hp
    unfold pteAt at hv
    rw [hv]
    rfl
  · obtain ⟨hv, hl, hpa⟩ := hT.root_some hp
    unfold pteAt at hv hl hpa
    rw [hv, hl, hpa]
    rfl

theorem entryAt_two (hT : T.Holds m) (hva : va < MAXVA) :
    entryAt m T.root va 2 = (T.l0 (va / SUPERPGSIZE)).map (· + 8 * (va / PGSIZE % 512)) := by
  rw [entryAt, entryAt_one hT hva]
  rcases hp : T.l1 (va / SUPERPGSIZE / 512) with _ | p
  · rcases hq : T.l0 (va / SUPERPGSIZE) with _ | q
    · rfl
    · obtain ⟨p, hp'⟩ := hT.l0_l1 hq
      rw [hp] at hp'
      cases hp'
  · simp only [Option.map_some, Option.bind_some, Nat.sub_self, px_zero]
    rcases hq : T.l0 (va / SUPERPGSIZE) with _ | q
    · have hleaf := hT.dir_none hp hq
      unfold pteAt at hleaf
      rw [if_neg]
      · rfl
      · rw [Bool.and_eq_true, Bool.not_eq_true']
        rintro ⟨hv, hl⟩
        rw [hleaf hv] at hl
        cases hl
    · obtain ⟨hv, hl, hpa⟩ := hT.dir_some hp hq
      unfold pteAt at hv hl hpa
      rw [hv, hl, hpa]
      rfl

theorem entryAt_deep (hT : T.Holds m) (hL : Leafy T m) (hva : va < MAXVA) (d : Nat) : entryAt m T.root va (d + 3) = none := by
  induction d with
  | zero =>
    rw [entryAt, entryAt_two hT hva]
    rcases hq : T.l0 (va / SUPERPGSIZE) with _ | q
    · rfl
    · have hleaf := hL _ q (va / PGSIZE % 512) hq (Nat.mod_lt _ (by decide))
      unfold pteAt at hleaf
      rw [Option.map_some, Option.bind_some, if_neg]
      rw [Bool.and_eq_true, Bool.not_eq_true']
      rintro ⟨hv, hl⟩
      rw [hleaf hv] at hl
      cases hl
  | succ d ih => rw [entryAt, ih, Option.bind_none]

/-- The table and the index of the entry at the given depth on the walk of `va`. -/
private def nodeAt (va : Nat) : Nat → Node × Nat
  | 0 => (.root, va / SUPERPGSIZE / 512)
  | 1 => (.l1 (va / SUPERPGSIZE / 512), va / SUPERPGSIZE % 512)
  | _ => (.l0 (va / SUPERPGSIZE), va / PGSIZE % 512)

theorem entryAt_nodeAt (hT : T.Holds m) (hL : Leafy T m) (hva : va < MAXVA) (h : entryAt m T.root va d = some a) :
    d < 3 ∧ ∃ p, T.tbl (nodeAt va d).1 = some p ∧ a = p + 8 * (nodeAt va d).2 ∧ (nodeAt va d).2 < 512 := by
  match d with
  | 0 =>
    have hlt := gib_lt hva
    rw [entryAt, px_two hva] at h
    exact ⟨by decide, T.root, rfl, (Option.some.inj h).symm, by simp only [nodeAt]; omega⟩
  | 1 =>
    rw [entryAt_one hT hva] at h
    obtain ⟨p, hp, rfl⟩ := Option.map_eq_some_iff.1 h
    exact ⟨by decide, p, hp, rfl, Nat.mod_lt _ (by decide)⟩
  | 2 =>
    rw [entryAt_two hT hva] at h
    obtain ⟨q, hq, rfl⟩ := Option.map_eq_some_iff.1 h
    exact ⟨by decide, q, hq, rfl, Nat.mod_lt _ (by decide)⟩
  | d + 3 =>
    rw [entryAt_deep hT hL hva] at h
    cases h

theorem nodeAt_inj (hd : d < 3) (hd' : d' < 3) (h : nodeAt va d = nodeAt va' d') :
    d = d' ∧ leastVa d va = leastVa d' va' := by
  have hd : d = 0 ∨ d = 1 ∨ d = 2 := by omega
  have hd' : d' = 0 ∨ d' = 1 ∨ d' = 2 := by omega
  rcases hd with rfl | rfl | rfl <;> rcases hd' with rfl | rfl | rfl <;>
    simp only [nodeAt, Prod.mk.injEq, reduceCtorEq, Node.l1.injEq, Node.l0.injEq, false_and, true_and] at h <;>
    refine ⟨rfl, ?_⟩ <;> simp only [leastVa, pxShift, SUPERPGSIZE, PGSIZE] at h ⊢ <;> omega

theorem entryAt_inj (hT : T.Holds m) (hL : Leafy T m) (hva : va < MAXVA) (hva' : va' < MAXVA)
    (h : entryAt m T.root va d = some a) (h' : entryAt m T.root va' d' = some a) : d = d' ∧ leastVa d va = leastVa d' va' := by
  obtain ⟨hd, p, hp, rfl, hi⟩ := entryAt_nodeAt hT hL hva h
  obtain ⟨hd', p', hp', heq, hi'⟩ := entryAt_nodeAt hT hL hva' h'
  have hal := (hT.page hp).1
  have hal' := (hT.page hp').1
  obtain ⟨rfl, hidx⟩ : p = p' ∧ (nodeAt va d).2 = (nodeAt va' d').2 := by
    simp only [PGSIZE] at hal hal'
    omega
  exact nodeAt_inj hd hd' (Prod.ext (hT.inj hp hp') hidx)

theorem leastVa_le (d va : Nat) : leastVa d va ≤ va := Nat.div_mul_le_self va _

theorem entryAt_lt (hT : T.Holds m) (hva : va < 2 ^ 39) (h : entryAt m T.root va d = some a)
    (hv : hasFlag (loadLE m a 8) PTE_V = true) : va < MAXVA := by
  obtain ⟨b, hb, hvb⟩ : ∃ b, entryAt m T.root va 0 = some b ∧ hasFlag (loadLE m b 8) PTE_V = true := by
    cases d with
    | zero => exact ⟨a, h, hv⟩
    | succ d =>
      obtain ⟨b, hb, hvb, -⟩ := entryAt_above (d := 0) (n := d) (by rw [Nat.zero_add]; exact h)
      exact ⟨b, hb, hvb⟩
  obtain rfl := Option.some.inj hb
  by_contra hmax
  have hpx : 256 ≤ px 2 va ∧ px 2 va < 512 := by
    rw [px_eq]
    simp only [MAXVA] at hmax
    omega
  have hnone : T.l1 (px 2 va) = none := by
    rcases hp : T.l1 (px 2 va) with _ | p
    · rfl
    · have := hT.l1_lt hp
      omega
  have hinv := hT.root_none hpx.2 hnone
  unfold pteAt at hinv
  rw [hinv] at hvb
  cases hvb

theorem walk_leaf (hva : va < MAXVA) (hd : d ≤ 2) (h : entryAt σ.mem root va d = some a)
    (hv : hasFlag (loadLE σ.mem a 8) PTE_V = true) (hl : pteLeaf (loadLE σ.mem a 8) = true) :
    (walk root va false).run σ = .ok (some a, σ) := by
  rw [walk_run hva]
  match d with
  | 0 =>
    obtain rfl := Option.some.inj h
    rw [walkSlot, hv, hl]
    rfl
  | 1 =>
    obtain ⟨b, hb, hvb, hlb, rfl⟩ := entryAt_succ.1 h
    obtain rfl := Option.some.inj hb
    rw [walkSlot, hvb, hlb]
    show Except.ok (Option.map Prod.snd (walkSlot σ.mem va 1 _), σ) = _
    rw [walkSlot, hv, hl]
    rfl
  | 2 =>
    obtain ⟨c, hc, hvc, hlc, rfl⟩ := entryAt_succ.1 h
    obtain ⟨b, hb, hvb, hlb, rfl⟩ := entryAt_succ.1 hc
    obtain rfl := Option.some.inj hb
    rw [walkSlot, hvb, hlb]
    show Except.ok (Option.map Prod.snd (walkSlot σ.mem va 1 _), σ) = _
    rw [walkSlot, hvc, hlc]
    rfl

/-- The entry of `x` lies in the subtree of that of `l`. -/
def Under (l x : PteLine) : Prop := l.depth < x.depth ∧ leastVa l.depth x.va = l.va

/-- Of two lines in order, the second lies in the subtree of the first as long as its address is in the range of the first. -/
theorem under_iff (hl : leastVa l.depth l.va = l.va) (hx : leastVa x.depth x.va = x.va) (hd : l.depth < 3)
    (hdx : x.depth < 3) (h : Before l x) : Under l x ↔ x.va < l.va + 2 ^ pxShift l.depth := by
  have hd : l.depth = 0 ∨ l.depth = 1 ∨ l.depth = 2 := by omega
  have hdx : x.depth = 0 ∨ x.depth = 1 ∨ x.depth = 2 := by omega
  unfold Before at h
  unfold Under
  rcases hd with hd | hd | hd <;> rcases hdx with hdx | hdx | hdx <;> rw [hd] at hl h ⊢ <;> rw [hdx] at hx h ⊢ <;>
    simp only [leastVa, pxShift] at hl hx ⊢ <;> omega

theorem subtree_follows (hs : lines.Pairwise Before)
    (hal : ∀ x ∈ lines, leastVa x.depth x.va = x.va ∧ x.depth < 3) (heq : lines = pre ++ l :: post) :
    ∃ sub rest, post = sub ++ rest ∧ (∀ x ∈ sub, Under l x) ∧ ∀ x ∈ pre ++ rest, ¬Under l x := by
  subst heq
  obtain ⟨-, hpost, hpre⟩ := List.pairwise_append.1 hs
  obtain ⟨hafter, hpost⟩ := List.pairwise_cons.1 hpost
  obtain ⟨hl, hd⟩ := hal l (by simp)
  have hiff : ∀ x ∈ post, Under l x ↔ x.va < l.va + 2 ^ pxShift l.depth := fun x hx =>
    under_iff hl (hal x (by simp [hx])).1 hd (hal x (by simp [hx])).2 (hafter x hx)
  refine ⟨post.takeWhile (decide <| ·.va < l.va + 2 ^ pxShift l.depth), post.dropWhile (decide <| ·.va < l.va + 2 ^ pxShift l.depth),
    (List.takeWhile_append_dropWhile ..).symm, fun x hx => ?_, fun x hx => ?_⟩
  · have hlt := List.mem_takeWhile_imp hx
    exact (hiff x (List.takeWhile_subset _ hx)).2 (of_decide_eq_true hlt)
  · rcases List.mem_append.1 hx with hx | hx
    · have hb := hpre x hx l (List.mem_cons_self ..)
      have hle := leastVa_le l.depth x.va
      rintro ⟨hlt, he⟩
      unfold Before at hb
      omega
    · rw [hiff x (List.dropWhile_subset _ hx), Nat.not_lt]
      rcases hdrop : post.dropWhile (decide <| ·.va < l.va + 2 ^ pxShift l.depth) with _ | ⟨y, ys⟩
      · rw [hdrop] at hx
        cases hx
      · have hy : ¬y.va < l.va + 2 ^ pxShift l.depth := by
          have := List.head_dropWhile_not (decide <| ·.va < l.va + 2 ^ pxShift l.depth) (l := post) (by rw [hdrop]; simp)
          simpa [hdrop] using this
        have hsub := hpost.sublist (List.dropWhile_sublist (decide <| ·.va < l.va + 2 ^ pxShift l.depth))
        rw [hdrop] at hx hsub
        rcases List.mem_cons.1 hx with rfl | hx
        · omega
        · have hb := (List.pairwise_cons.1 hsub).1 x hx
          unfold Before at hb
          omega

/-- `vmprint` ends on every built page table, and prints one line for each valid entry, in the order of the addresses and each
table entry directly before its subtree. The address of a line is the least one of its entry. -/
theorem vmprint_lists_entries (root : Nat) (σ : Phys) (hB : Built root σ) :
    ∃ lines, (∀ fuel, 3 ≤ fuel → vmprint σ.mem fuel root =
        some ("page table ".toUTF8.toList ++ ptrText root ++ "\n".toUTF8.toList, lines)) ∧
      (∀ va d a, va < MAXVA → entryAt σ.mem root va d = some a → hasFlag (loadLE σ.mem a 8) PTE_V = true →
        pteLine d (leastVa d va) (loadLE σ.mem a 8) ∈ lines) ∧
      (∀ l ∈ lines, ∃ a, l.va < MAXVA ∧ entryAt σ.mem root l.va l.depth = some a ∧ loadLE σ.mem a 8 = l.pte ∧
        hasFlag l.pte PTE_V = true ∧ l.pa = pte2pa l.pte ∧
        (∀ va' d', va' < MAXVA → entryAt σ.mem root va' d' = some a → d' = l.depth ∧ l.va ≤ va') ∧
        (pteLeaf l.pte = true → (walk root l.va false).run σ = .ok (some a, σ))) ∧
      lines.Pairwise Before ∧
      ∀ pre l post, lines = pre ++ l :: post →
        ∃ sub rest, post = sub ++ rest ∧ (∀ x ∈ sub, Under l x) ∧ ∀ x ∈ pre ++ rest, ¬Under l x := by
  obtain ⟨T, hS, rfl⟩ := hB.sound
  have hT := hS.holds
  have hL := hS.leafy
  have hdeep : ∀ va', va' < 2 ^ 39 → entryAt σ.mem T.root va' 3 = none := by
    intro va' hva'
    rcases he : entryAt σ.mem T.root va' 3 with _ | a
    · rfl
    · obtain ⟨b, hb, hv, -⟩ := entryAt_above (d := 0) (n := 2) he
      rw [entryAt_deep hT hL (entryAt_lt hT hva' hb hv) 0] at he
      cases he
  obtain ⟨ls, hrun, hls⟩ := vmprintRecurse_lists hdeep 2 (d := 0) rfl rfl (by decide) (at_root σ.mem T.root)
  have hlt : ∀ l ∈ ls, l.va < MAXVA := fun l hl => by
    obtain ⟨a, -, ha, hv, -⟩ := hls.entry l hl
    exact entryAt_lt hT (Nat.lt_of_lt_of_eq (hls.range l hl).2.1 (by decide)) ha hv
  refine ⟨ls, fun fuel hf => ?_, fun va d a hva h hv => hls.all va d a (Nat.zero_le _) ?_ (Nat.zero_le _) h hv, fun l hl => ?_,
    hls.sorted, fun pre l post heq => subtree_follows hls.sorted (fun x hx => ?_) heq⟩
  · obtain ⟨f, rfl⟩ : ∃ f, fuel = f + 3 := ⟨fuel - 3, by omega⟩
    rw [vmprint, hrun]
    rfl
  · exact Nat.lt_trans hva (by decide)
  · obtain ⟨a, -, ha, hv, heq⟩ := hls.entry l hl
    have hpte : loadLE σ.mem a 8 = l.pte := by rw [heq]; rfl
    have hpa : l.pa = pte2pa l.pte := by rw [heq]; rfl
    refine ⟨a, hlt l hl, ha, hpte, hpte ▸ hv, hpa, fun va' d' hva' h' => ?_,
      fun hleaf => walk_leaf (hlt l hl) (hls.range l hl).2.2.2 ha hv (hpte ▸ hleaf)⟩
    obtain ⟨hd, hle⟩ := entryAt_inj hT hL hva' (hlt l hl) h' ha
    have := leastVa_le d' va'
    have := (hls.entry l hl).choose_spec.1
    exact ⟨hd, by omega⟩
  · exact ⟨(hls.entry x hx).choose_spec.1, Nat.lt_succ_of_le (hls.range x hx).2.2.2⟩

/-- The third page is mapped, read-only for the user: three lines, of which the last is that of its entry. -/
theorem vmprint_lists_entries_twoPages :
    ∃ σ lines, (mappages 0x80021000 0x2000 PGSIZE 0x80400000 (PTE_R ||| PTE_U)).run twoPages = .ok (0, σ) ∧
      vmprint σ.mem 3 0x80021000 = some ("page table ".toUTF8.toList ++ ptrText 0x80021000 ++ "\n".toUTF8.toList, lines) ∧
      lines.Pairwise Before ∧ pteLine 2 0x2000 0x20100013 ∈ lines := by
  obtain ⟨σ, hrun, ha, hw⟩ : ∃ σ, (mappages 0x80021000 0x2000 PGSIZE 0x80400000 (PTE_R ||| PTE_U)).run twoPages = .ok (0, σ) ∧
      entryAt σ.mem 0x80021000 0x2000 2 = some 0x80023010 ∧ loadLE σ.mem 0x80023010 8 = 0x20100013 :=
    ⟨_, rfl, by decide +kernel, by decide +kernel⟩
  have hB : Built 0x80021000 σ := .mappages (.zeroed twoPages_tidy) (by decide) (by decide) (by decide) hrun
  obtain ⟨lines, hprint, hall, -, hsorted, -⟩ := vmprint_lists_entries 0x80021000 σ hB
  have hmem := hall 0x2000 2 0x80023010 (by decide) ha (by rw [hw]; decide)
  rw [hw] at hmem
  exact ⟨σ, lines, hrun, hprint 3 (by decide), hsorted, hmem⟩

def oneWord : Phys := ⟨fun x => if x = 0x80400000 then 3 else 0, [0x80022000, 0x80023000], []⟩

theorem mem_of_mapM {f : α → Option β} : ∀ {l : List α} {ys : List β}, l.mapM f = some ys →
    ∀ x ∈ l, ∃ y ∈ ys, f x = some y := by
  intro l
  induction l with
  | nil => intro _ _ x hx; cases hx
  | cons x l ih =>
    intro ys h z hz
    simp only [List.mapM_cons, Option.bind_eq_bind, Option.bind_eq_some_iff, Option.pure_def, Option.some.injEq] at h
    obtain ⟨y, hy, ys, hys, rfl⟩ := h
    rcases List.mem_cons.1 hz with rfl | hz
    · exact ⟨y, List.mem_cons_self .., hy⟩
    · obtain ⟨w, hw, hf⟩ := ih hys z hz
      exact ⟨w, List.mem_cons_of_mem y hw, hf⟩

theorem vmprintRecurse_entry (h : vmprintRecurse m fuel p depth va = some lines)
    (hv : hasFlag (pteAt m p 0) PTE_V = true) : pteLine depth va (pteAt m p 0) ∈ lines ∧ (pteLeaf (pteAt m p 0) = false →
      ∃ fuel' sub, vmprintRecurse m fuel' (pte2pa (pteAt m p 0)) (depth + 1) va = some sub ∧ ∀ x ∈ sub, x ∈ lines) := by
  cases fuel with
  | zero => cases h
  | succ fuel =>
    obtain ⟨lss, hlss, rfl⟩ := Option.map_eq_some_iff.1 h
    obtain ⟨ls, hls, hf⟩ := mem_of_mapM hlss 0 (mem_ptes.2 (by decide))
    simp only [hv, Bool.not_true, Bool.false_eq_true, if_false, Nat.zero_shiftLeft, Nat.or_zero, Bool.true_and] at hf
    cases hl : pteLeaf (pteAt m p 0)
    · rw [hl, Bool.not_false, if_pos rfl] at hf
      obtain ⟨sub, hsub, rfl⟩ := Option.map_eq_some_iff.1 hf
      exact ⟨List.mem_flatten.2 ⟨_, hls, List.mem_cons_self ..⟩,
        fun _ => ⟨fuel, sub, hsub, fun x hx => List.mem_flatten.2 ⟨_, hls, List.mem_cons_of_mem _ hx⟩⟩⟩
    · rw [hl, Bool.not_true, if_neg Bool.false_ne_true] at hf
      obtain rfl := Option.some.inj hf
      exact ⟨List.mem_flatten.2 ⟨_, hls, List.mem_singleton.2 rfl⟩, by simp⟩

/-- Without one of the bits R, W and X the entry that `mappages` stores is taken for a pointer to a table: if `vmprint` ends at
all, it has printed the first word of the mapped page as an entry of a fourth level. -/
theorem vmprint_enters_page :
    ∃ σ, (mappages 0x80021000 0 PGSIZE 0x80400000 PTE_U).run oneWord = .ok (0, σ) ∧
      (walk 0x80021000 0 false).run σ = .ok (some 0x80023000, σ) ∧ loadLE σ.mem 0x80023000 8 = 0x20100011 ∧
      ∀ fuel text lines, vmprint σ.mem fuel 0x80021000 = some (text, lines) → pteLine 3 0 3 ∈ lines := by
  obtain ⟨σ, hrun, hwalk, e0, e1, e2, e3⟩ : ∃ σ, (mappages 0x80021000 0 PGSIZE 0x80400000 PTE_U).run oneWord = .ok (0, σ) ∧
      (walk 0x80021000 0 false).run σ = .ok (some 0x80023000, σ) ∧ pteAt σ.mem 0x80021000 0 = 0x20008801 ∧
      pteAt σ.mem 0x80022000 0 = 0x20008c01 ∧ pteAt σ.mem 0x80023000 0 = 0x20100011 ∧ pteAt σ.mem 0x80400000 0 = 3 :=
    ⟨_, rfl, rfl, by decide +kernel, by decide +kernel, by decide +kernel, by decide +kernel⟩
  refine ⟨σ, hrun, hwalk, e2, fun fuel text lines h => ?_⟩
  obtain ⟨ls0, h0, heq⟩ := Option.map_eq_some_iff.1 h
  obtain rfl := (Prod.mk.inj heq).2
  obtain ⟨_, ls1, h1, hin1⟩ := (vmprintRecurse_entry h0 (by rw [e0]; decide)).2 (by rw [e0]; decide)
  rw [e0, show pte2pa 0x20008801 = 0x80022000 by decide] at h1
  obtain ⟨_, ls2, h2, hin2⟩ := (vmprintRecurse_entry h1 (by rw [e1]; decide)).2 (by rw [e1]; decide)
  rw [e1, show pte2pa 0x20008c01 = 0x80023000 by decide] at h2
  obtain ⟨_, ls3, h3, hin3⟩ := (vmprintRecurse_entry h2 (by rw [e2]; decide)).2 (by rw [e2]; decide)
  rw [e2, show pte2pa 0x20100011 = 0x80400000 by decide] at h3
  have hline := (vmprintRecurse_entry h3 (by rw [e3]; decide)).1
  rw [e3] at hline
  exact hin1 _ (hin2 _ (hin3 _ hline))

end Xv6
