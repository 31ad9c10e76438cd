import Xv6.Vm.Walk

/-!
# Copying between user and kernel memory

`copyout` and `copyin` translate one page at a time with `walkaddr`, which for a level-1 leaf returns the first 4 KiB of the
superpage, whatever page of it was asked for: `kaddr` is the byte that the kernel reaches, and `mmu` that of the MMU.
-/

namespace Xv6

open Bytes (Mem write write_outside)
open Hoare

variable {m : Mem} {A : Space} {va p level a w l x i len n : Nat} {σ σ' : Phys} {wr : Bool} {src dst : Nat → UInt8}
  {k : Nat}

def Space.mmu (A : Space) (va : Nat) : Option Nat :=
  (A.leafAt va).map fun (l, w) => pte2pa w + va % 2 ^ (12 + 9 * l)

/-- The byte that `copyout` and `copyin` reach for `va`. -/
def Space.kaddr (A : Space) (va : Nat) : Option Nat :=
  (A.leafAt va).map fun (_, w) => pte2pa w + va % PGSIZE

/-- `va` is mapped for the user, and for writing if asked. -/
def Space.UserByte (A : Space) (wr : Bool) (va : Nat) : Prop :=
  ∃ l w, A.leafAt va = some (l, w) ∧ hasFlag w PTE_U = true ∧ (wr = true → hasFlag w PTE_W = true)

def Space.FramesDisjoint (A : Space) : Prop := ∀ n n' p, A.frame n = some p → A.frame n' = some p → n = n'

def Space.FramesOffTables (A : Space) : Prop := ∀ n p x, A.frame n = some p → A.tbl x ≠ some p

theorem points_next {e : Nat} (h : Points e p) (hp : PageAddr p) :
    e / 1024 % 2 ^ 44 * 4096 = p ∧ hasFlag e PTE_V = true ∧ hasFlag e PTE_R = false ∧ hasFlag e PTE_W = false ∧
      hasFlag e PTE_X = false := by
  obtain ⟨hv, hl, hpa⟩ := h
  rw [pte2pa_eq] at hpa
  simp only [pteLeaf, Bool.or_eq_false_iff] at hl
  have := hp.2.2
  exact ⟨by omega, hv, hl.1.1, hl.1.2, hl.2⟩

theorem sv39Leaf_invalid
    (h : hasFlag (pteAt m a (va / 2 ^ (12 + 9 * level) % 512)) PTE_V = false) : sv39Leaf m va level a = none := by
  unfold sv39Leaf
  simp [h]

theorem sv39Leaf_points (hp : PageAddr p)
    (h : Points (pteAt m a (va / 2 ^ (12 + 9 * (level + 1)) % 512)) p) :
    sv39Leaf m va (level + 1) a = sv39Leaf m va level p := by
  obtain ⟨hpa, hv, hr, hw, hx⟩ := points_next h hp
  rw [sv39Leaf]
  simp only [hv, hr, hw, hx, hpa, Bool.not_true, Bool.not_false, Bool.true_and, Bool.or_self, Bool.false_eq_true,
    ↓reduceIte]

theorem sv39Leaf_leaf (hw : LeafPte w) (hal : w / 1024 % 2 ^ (9 * level) = 0)
    (h : pteAt m a (va / 2 ^ (12 + 9 * level) % 512) = w) : sv39Leaf m va level a = some (level, w) := by
  have hbad : (!hasFlag w PTE_R && hasFlag w PTE_W) = false := by
    rcases hW : hasFlag w PTE_W with _ | _
    · simp
    · simp [hw.write hW]
  have hleaf : (hasFlag w PTE_R || hasFlag w PTE_X) = true := by
    rcases hw.perm with h | h <;> simp [h]
  have hlt : w / 1024 % 2 ^ 44 = w / 1024 := by have := hw.lt; omega
  unfold sv39Leaf
  simp only [h, hw.valid, hbad, hleaf, hlt, hal, Bool.not_true, Bool.or_self, Bool.false_eq_true, ↓reduceIte]

theorem Rep.sv39Leaf_eq (h : Rep m A) (hva : va < MAXVA) : sv39Leaf m va 2 A.root = A.leafAt va := by
  have e2 : va / 2 ^ (12 + 9 * 2) % 512 = va / SUPERPGSIZE / 512 := by
    simp only [MAXVA, SUPERPGSIZE] at *; omega
  have e1 : va / 2 ^ (12 + 9 * 1) % 512 = va / SUPERPGSIZE % 512 := rfl
  have e0 : va / 2 ^ (12 + 9 * 0) % 512 = va / PGSIZE % 512 := rfl
  have hlt : va / SUPERPGSIZE / 512 < 512 := by simp only [MAXVA, SUPERPGSIZE] at *; omega
  -- a missing table leaves the address unmapped
  have hnone : A.dir (va / SUPERPGSIZE) = .none → A.leafAt va = none := by
    intro hd
    rcases hl : A.leafAt va with _ | ⟨l, w⟩
    · rfl
    · simp only [Space.leafAt, hd, Option.map_eq_some_iff] at hl
      obtain ⟨u, hu, -⟩ := hl
      obtain ⟨q, hq⟩ := A.pg_dir hu
      rw [page_div, hd] at hq; cases hq
  rcases hp : A.l1 (va / SUPERPGSIZE / 512) with _ | p
  · rw [sv39Leaf_invalid (by rw [e2]; exact h.root_none hlt hp), hnone]
    by_contra hc
    obtain ⟨p, hp'⟩ := A.dir_l1 hc
    rw [hp] at hp'; cases hp'
  · rw [sv39Leaf_points (A.tbl_page (x := .l1 _) hp) (by rw [e2]; exact h.root_some hp)]
    rcases hd : A.dir (va / SUPERPGSIZE) with _ | q | w
    · rw [sv39Leaf_invalid (by rw [e1]; exact h.dir_none hp hd), hnone hd]
    · rw [sv39Leaf_points (A.tbl_page (Space.tbl_l0 hd)) (by rw [e1]; exact h.dir_table hp hd)]
      have hd' : A.dir (va / PGSIZE / 512) = .table q := by rw [page_div]; exact hd
      rcases hg : A.pg (va / PGSIZE) with _ | w
      · rw [sv39Leaf_invalid (by rw [e0]; exact h.pg_none hd' hg)]
        simp [Space.leafAt, hd, hg]
      · rw [sv39Leaf_leaf (A.pg_leaf hg) (by simp [Nat.mod_one]) (by rw [e0]; exact h.pg_some hd' hg)]
        simp [Space.leafAt, hd, hg]
    · have hw := A.dir_leaf hd
      have hal : w / 1024 % 2 ^ (9 * 1) = 0 := by
        have h1 := hw.aligned
        rw [hw.pa_eq] at h1
        simp only [SUPERPGSIZE] at h1
        omega
      rw [sv39Leaf_leaf hw.toLeafPte hal (by rw [e1]; exact h.dir_leaf hp hd)]
      simp [Space.leafAt, hd]

theorem Rep.sv39_eq (h : Rep m A) (hva : va < 2 ^ 64) : sv39 m A.root va = A.mmu va := by
  unfold sv39 Space.mmu
  by_cases hlt : va < MAXVA
  · rw [if_pos (.inl (by simpa using hlt)), h.sv39Leaf_eq hlt]
    rcases hl : A.leafAt va with _ | ⟨l, w⟩
    · simp only [Option.map_none]
    · have hw := Space.leafAt_pte hl
      have hlt44 : w / 1024 % 2 ^ 44 = w / 1024 := by have := hw.lt; omega
      simp only [Option.map_some, hw.pa_eq, hlt44]
  · have hl : A.leafAt va = none := by
      rcases hl : A.leafAt va with _ | ⟨l, w⟩
      · rfl
      · exact absurd (Space.leafAt_lt hl) hlt
    rw [hl]
    split
    · -- a high half address: the root entries above 255 are invalid
      rename_i hc
      simp only [MAXVA] at hlt
      rcases hc with hc | hc
      · omega
      · rw [sv39Leaf_invalid]
        · simp only [Option.map_none]
        · apply h.root_none (Nat.mod_lt _ (by decide))
          rcases hr : A.l1 (va / 2 ^ (12 + 9 * 2) % 512) with _ | p
          · rfl
          · have := A.l1_lt hr; omega
    · rfl

theorem Space.frame_of_leafAt (h : A.leafAt va = some (l, w)) :
    ∃ n, A.frame n = some (pte2pa w) ∧ ((∀ u, A.dir (n / 512) ≠ .leaf u) ∨ n % 512 = 0) := by
  unfold Space.leafAt at h
  split at h
  · rename_i hd
    simp only [Option.some.injEq, Prod.mk.injEq] at h
    obtain ⟨-, rfl⟩ := h
    refine ⟨va / SUPERPGSIZE * 512, ?_, .inr (by omega)⟩
    rw [Space.frame, show va / SUPERPGSIZE * 512 / 512 = va / SUPERPGSIZE by omega, hd]
    simp
  · rename_i hd
    simp only [Option.map_eq_some_iff, Prod.mk.injEq] at h
    obtain ⟨u, hu, -, rfl⟩ := h
    obtain ⟨q, hq⟩ := A.pg_dir hu
    refine ⟨va / PGSIZE, ?_, .inl (by rw [hq]; simp)⟩
    simp [Space.frame, hq, hu]

theorem Space.kaddr_off_tables (va : Nat) (hoff : A.FramesOffTables) (h : A.kaddr va = some x) (k : Node) :
    A.tbl k ≠ some (pgrounddown x) := by
  simp only [Space.kaddr, Option.map_eq_some_iff, Prod.exists] at h
  obtain ⟨l, w, hl, rfl⟩ := h
  obtain ⟨n, hn, -⟩ := Space.frame_of_leafAt hl
  have hpa := (Space.leafAt_pte hl).pageAddr.1
  rw [show pgrounddown (pte2pa w + va % PGSIZE) = pte2pa w by unfold pgrounddown; lia]
  exact hoff n _ k hn

theorem Space.leafAt_add (h : va % PGSIZE + i < PGSIZE) : A.leafAt (va + i) = A.leafAt va :=
  Space.leafAt_page (by lia)

theorem Space.kaddr_add (hl : A.leafAt va = some (l, w)) (h : va % PGSIZE + i < PGSIZE) :
    A.kaddr (va + i) = some (pte2pa w + va % PGSIZE + i) := by
  simp only [Space.kaddr, Space.leafAt_add h, hl, Option.map_some, Option.some.injEq]
  lia

theorem Space.userByte_add (h : va % PGSIZE + i < PGSIZE) :
    A.UserByte wr (va + i) ↔ A.UserByte wr va := by
  unfold Space.UserByte
  rw [Space.leafAt_add h]

structure CopyoutPost (A : Space) (va : Nat) (src : Nat → UInt8) (len : Nat) (σ : Phys) (r : Int) (σ' : Phys) :
    Prop where
  freelist : σ'.freelist = σ.freelist
  superpages : σ'.superpages = σ.superpages
  ret : r = 0 ∨ r = -1
  ret_iff : r = 0 ↔ ∀ i < len, A.UserByte true (va + i)
  frame : ∀ x, (∀ i < len, A.UserByte true (va + i) → A.kaddr (va + i) ≠ some x) → σ'.mem x = σ.mem x
  data : r = 0 → (∀ i < len, ∀ j < len, A.kaddr (va + i) = A.kaddr (va + j) → i = j) →
    ∀ i < len, ∀ x, A.kaddr (va + i) = some x → σ'.mem x = src i

theorem copyoutPost_fail (hlen : 0 < len) (h : ¬A.UserByte true va) :
    CopyoutPost A va src len σ (-1) σ where
  freelist := rfl
  superpages := rfl
  ret := Or.inr rfl
  ret_iff := by
    constructor
    · intro hc; cases hc
    · intro hall; exact absurd (hall 0 hlen) h
  frame := fun _ _ => rfl
  data := fun hc => by cases hc

theorem copyoutPost_step {r : Int} (hlen : 0 < len)
    (hl : A.leafAt va = some (l, w)) (hu : hasFlag w PTE_U = true) (hw : hasFlag w PTE_W = true)
    (hn : n = min (PGSIZE - va % PGSIZE) len)
    (h : CopyoutPost A (pgrounddown va + PGSIZE) (fun i => src (n + i)) (len - n)
      { σ with mem := write σ.mem (pte2pa w + va % PGSIZE) n src } r σ') :
    CopyoutPost A va src len σ r σ' := by
  have hpos : 0 < n := by lia
  have hin : ∀ {i}, i < n → va % PGSIZE + i < PGSIZE := fun hi => by lia
  -- the address of byte `i` beyond the first page
  have hnext : ∀ {i}, n ≤ i → i < len → pgrounddown va + PGSIZE + (i - n) = va + i := by
    intro i h1 h2
    unfold pgrounddown
    lia
  have hkin : ∀ {i}, i < n → A.kaddr (va + i) = some (pte2pa w + va % PGSIZE + i) := fun hi =>
    Space.kaddr_add hl (hin hi)
  refine ⟨h.freelist, h.superpages, h.ret, ?_, ?_, ?_⟩
  · rw [h.ret_iff]
    constructor
    · intro hall i hi
      by_cases hin' : i < n
      · rw [Space.userByte_add (hin hin')]; exact ⟨l, w, hl, hu, fun _ => hw⟩
      · have := hall (i - n) (by omega)
        rwa [hnext (by omega) hi] at this
    · intro hall j hj
      have := hall (n + j) (by omega)
      rwa [← hnext (Nat.le_add_right n j) (by omega), Nat.add_sub_cancel_left] at this
  · intro x hx
    rw [h.frame x fun j hj => ?_]
    · refine write_outside ?_
      by_contra hc
      have hi : x - (pte2pa w + va % PGSIZE) < n := by omega
      have hub : A.UserByte true (va + (x - (pte2pa w + va % PGSIZE))) := by
        rw [Space.userByte_add (hin hi)]; exact ⟨l, w, hl, hu, fun _ => hw⟩
      exact hx _ (by omega) hub ((hkin hi).trans (congrArg some (by omega)))
    · have := hx (n + j) (by omega)
      rwa [← hnext (Nat.le_add_right n j) (by omega), Nat.add_sub_cancel_left] at this
  · intro hr hinj i hi x hx
    by_cases hin' : i < n
    · -- no later byte lands on a byte of the first page
      rw [h.frame x fun j hj _ hc => ?_]
      · rw [hkin hin', Option.some.injEq] at hx
        subst hx
        show write _ _ _ _ _ = _
        rw [Bytes.write_inside (by omega) (by omega), Nat.add_sub_cancel_left]
      · have hj' := hnext (Nat.le_add_right n j) (show n + j < len by omega)
        rw [Nat.add_sub_cancel_left] at hj'
        rw [hj'] at hc
        have := hinj i hi (n + j) (by omega) (hx.trans hc.symm)
        omega
    · have hd := h.data hr (fun a ha b hb hab => ?_) (i - n) (by omega) x
        (by rw [hnext (by omega) hi]; exact hx)
      · rwa [show n + (i - n) = i by omega] at hd
      · have ha' := hnext (Nat.le_add_right n a) (show n + a < len by omega)
        have hb' := hnext (Nat.le_add_right n b) (show n + b < len by omega)
        rw [Nat.add_sub_cancel_left] at ha' hb'
        rw [ha', hb'] at hab
        have := hinj (n + a) (by omega) (n + b) (by omega) hab
        omega

theorem copyout_spec (hoff : A.FramesOffTables) (va : Nat) (src : Nat → UInt8) (len : Nat) (h : Rep σ.mem A) :
    wp (copyout A.root va src len) (CopyoutPost A va src len σ) (fun _ => False) σ := by
  induction len using Nat.strong_induction_on generalizing va src σ with
  | _ len ih =>
  unfold copyout
  split
  · rename_i hlen
    have hpage : pgrounddown va / PGSIZE = va / PGSIZE := by unfold pgrounddown; lia
    have hleaf : A.leafAt (pgrounddown va) = A.leafAt va := Space.leafAt_page hpage
    have hoffs : va - pgrounddown va = va % PGSIZE := by unfold pgrounddown; lia
    have fail : ¬A.UserByte true va → wp (pure (-1) : PhysM Int) (CopyoutPost A va src len σ) (fun _ => False) σ :=
      fun hf => wp_pure.2 (copyoutPost_fail hlen hf)
    by_cases hmax : pgrounddown va ≥ MAXVA
    · rw [if_pos hmax]
      apply fail
      rintro ⟨l, w, hl, -⟩
      rw [← hleaf] at hl
      have := Space.leafAt_lt hl
      omega
    · rw [if_neg hmax, wp_bind, wp_walk_false h (by omega)]
      rcases hl : A.leafAt va with _ | ⟨l, w⟩
      · -- not mapped: every way out returns -1
        have hno : ¬A.UserByte true va := by rintro ⟨l, w, hc, -⟩; rw [hl] at hc; cases hc
        rcases A.slot (pgrounddown va) with _ | a
        · exact fail hno
        · simp only [wp_bind, wp_loadPte, wp_ite]
          refine ⟨fun _ => fail hno, fun _ => ?_⟩
          rw [wp_walkaddr h, Space.walkaddr, hleaf, hl]
          exact ⟨fun _ => fail hno, fun hc => absurd rfl hc⟩
      · obtain ⟨a, ha, he⟩ := h.slot_load (hleaf.trans hl)
        rw [ha]
        simp only [wp_bind, wp_loadPte, wp_ite, he]
        refine ⟨fun hw => fail ?_, fun hw => ?_⟩
        · rintro ⟨l', w', hc, -, hW⟩
          rw [hl, Option.some.injEq, Prod.mk.injEq] at hc
          rw [hc.2, hW rfl] at hw; simp at hw
        · rw [wp_walkaddr h, Space.walkaddr, hleaf, hl]
          by_cases hu : hasFlag w PTE_U
          · have hlp := Space.leafAt_pte hl
            simp only [hu, if_true, wp_memmoveFrom, hoffs]
            refine ⟨fun hc => absurd hc (Nat.ne_of_gt hlp.pos), fun _ => ?_⟩
            refine wp_post (ih (len - min (PGSIZE - va % PGSIZE) len) (by lia) _ _ ?_) fun r σ' hpost =>
              copyoutPost_step hlen hl hu (by simpa using hw) rfl hpost
            refine h.frame fun x hx => ?_
            obtain ⟨k, hk⟩ := hx
            apply write_outside
            by_contra hc
            refine Space.kaddr_off_tables (va + (x - (pte2pa w + va % PGSIZE))) hoff ?_ k hk
            rw [Space.kaddr_add hl (by lia)]
            exact congrArg some (by omega)
          · simp only [hu, Bool.false_eq_true, if_false]
            refine ⟨fun _ => fail ?_, fun hc => absurd trivial hc⟩
            rintro ⟨l', w', hc, hU, -⟩
            rw [hl, Option.some.injEq, Prod.mk.injEq] at hc
            rw [hc.2] at hu; exact hu hU
  · rename_i hlen
    refine wp_pure.2 ⟨rfl, rfl, .inl rfl, ?_, fun _ _ => rfl, ?_⟩
    · exact ⟨fun _ i hi => absurd hi (by omega), fun _ => rfl⟩
    · intro _ _ i hi; omega

/-- What `copyin` has done when it returns `r` and leaves the buffer `buf`. -/
structure CopyinPost (A : Space) (va : Nat) (dst : Nat → UInt8) (k len : Nat) (σ : Phys) (r : Int × (Nat → UInt8))
    (σ' : Phys) : Prop where
  state : σ' = σ
  ret : r.1 = 0 ∨ r.1 = -1
  ret_iff : r.1 = 0 ↔ ∀ i < len, A.UserByte false (va + i)
  before : ∀ j < k, r.2 j = dst j
  data : r.1 = 0 → ∀ i < len, ∀ x, A.kaddr (va + i) = some x → r.2 (k + i) = σ.mem x

theorem copyinPost_fail (hlen : 0 < len) (h : ¬A.UserByte false va) :
    CopyinPost A va dst k len σ (-1, dst) σ where
  state := rfl
  ret := Or.inr rfl
  ret_iff := by
    constructor
    · intro hc; cases hc
    · intro hall; exact absurd (hall 0 hlen) h
  before := fun _ _ => rfl
  data := fun hc => by cases hc

theorem copyinPost_step {r : Int × (Nat → UInt8)}
    (hlen : 0 < len) (hl : A.leafAt va = some (l, w)) (hu : hasFlag w PTE_U = true)
    (hn : n = min (PGSIZE - va % PGSIZE) len)
    (h : CopyinPost A (pgrounddown va + PGSIZE)
      (write dst k n fun i => σ.mem (pte2pa w + va % PGSIZE + i)) (k + n) (len - n) σ r σ') :
    CopyinPost A va dst k len σ r σ' := by
  have hpos : 0 < n := by lia
  have hin : ∀ {i}, i < n → va % PGSIZE + i < PGSIZE := fun hi => by lia
  have hnext : ∀ {i}, n ≤ i → i < len → pgrounddown va + PGSIZE + (i - n) = va + i := by
    intro i h1 h2
    unfold pgrounddown
    lia
  refine ⟨h.state, h.ret, ?_, ?_, ?_⟩
  · rw [h.ret_iff]
    constructor
    · intro hall i hi
      by_cases hin' : i < n
      · rw [Space.userByte_add (hin hin')]; exact ⟨l, w, hl, hu, by simp⟩
      · have := hall (i - n) (by omega)
        rwa [hnext (by omega) hi] at this
    · intro hall j hj
      have := hall (n + j) (by omega)
      rwa [← hnext (Nat.le_add_right n j) (by omega), Nat.add_sub_cancel_left] at this
  · intro j hj
    rw [h.before j (by omega), write_outside (by omega)]
  · intro hr i hi x hx
    by_cases hin' : i < n
    · rw [Space.kaddr_add hl (hin hin'), Option.some.injEq] at hx
      rw [h.before _ (by omega), Bytes.write_inside (by omega) (by omega), Nat.add_sub_cancel_left, hx]
    · have hd := h.data hr (i - n) (by omega) x (by rw [hnext (by omega) hi]; exact hx)
      rwa [show k + n + (i - n) = k + i by omega] at hd

theorem copyin_spec (va : Nat) (dst : Nat → UInt8) (k len : Nat) (h : Rep σ.mem A) :
    wp (copyin A.root dst k va len) (CopyinPost A va dst k len σ) (fun _ => False) σ := by
  induction len using Nat.strong_induction_on generalizing va dst k with
  | _ len ih =>
  unfold copyin
  split
  · rename_i hlen
    have hpage : pgrounddown va / PGSIZE = va / PGSIZE := by unfold pgrounddown; lia
    have hleaf : A.leafAt (pgrounddown va) = A.leafAt va := Space.leafAt_page hpage
    have hoffs : va - pgrounddown va = va % PGSIZE := by unfold pgrounddown; lia
    rw [wp_bind, wp_walkaddr h, Space.walkaddr, hleaf]
    rcases hl : A.leafAt va with _ | ⟨l, w⟩
    · refine wp_pure.2 (copyinPost_fail hlen ?_)
      rintro ⟨l, w, hc, -⟩
      rw [hl] at hc; cases hc
    · by_cases hu : hasFlag w PTE_U
      · have hlp := Space.leafAt_pte hl
        simp only [hu, if_true, if_neg (Nat.ne_of_gt hlp.pos), wp_bind, wp_get, hoffs]
        exact wp_post (ih (len - min (PGSIZE - va % PGSIZE) len) (by lia) _ _ _) fun r σ' hpost =>
          copyinPost_step hlen hl hu rfl hpost
      · simp only [hu, Bool.false_eq_true, if_true, if_false]
        refine wp_pure.2 (copyinPost_fail hlen ?_)
        rintro ⟨l', w', hc, hU, -⟩
        rw [hl, Option.some.injEq, Prod.mk.injEq] at hc
        rw [hc.2] at hu; exact hu hU
  · rename_i hlen
    refine wp_pure.2 ⟨rfl, .inl rfl, ?_, fun _ _ => rfl, ?_⟩
    · exact ⟨fun _ i hi => absurd hi (by omega), fun _ => rfl⟩
    · intro _ i hi; omega

theorem Space.mmu_eq_frame (va : Nat) : A.mmu va = (A.frame (va / PGSIZE)).map fun p => p + va % PGSIZE := by
  unfold Space.mmu Space.leafAt Space.frame
  rw [page_div]
  rcases A.dir (va / SUPERPGSIZE) with _ | q | w
  · simp only [Option.map_map]; rfl
  · simp only [Option.map_map]; rfl
  · simp only [Option.map_some, Option.some.injEq, PGSIZE]
    omega

theorem Space.frame_aligned (h : A.frame n = some p) : p % PGSIZE = 0 := by
  unfold Space.frame at h
  split at h
  · rename_i hd
    have := (A.dir_leaf hd).toLeafPte.pageAddr.1
    simp only [Option.some.injEq] at h
    lia
  · simp only [Option.map_eq_some_iff] at h
    obtain ⟨w, hw, rfl⟩ := h
    exact (A.pg_leaf hw).pageAddr.1

theorem Space.mmu_inj (h : A.FramesDisjoint) {va vb : Nat} (ha : A.mmu va = some x) (hb : A.mmu vb = some x) :
    va = vb := by
  rw [Space.mmu_eq_frame, Option.map_eq_some_iff] at ha hb
  obtain ⟨p, hp, rfl⟩ := ha
  obtain ⟨q, hq, he⟩ := hb
  have hp0 := Space.frame_aligned hp
  have hq0 := Space.frame_aligned hq
  have hpq : p = q := by lia
  have := h _ _ _ hp (hpq ▸ hq)
  lia

/-- The kernel and the MMU agree on the bytes of a range, if it stays in the first 4 KiB of each superpage. -/
def Space.FirstPages (A : Space) (va len : Nat) : Prop :=
  ∀ i < len, ∀ w, A.dir ((va + i) / SUPERPGSIZE) = .leaf w → (va + i) % SUPERPGSIZE < PGSIZE

theorem Space.FirstPages.kaddr_eq (h : A.FirstPages va len) (hi : i < len) :
    A.kaddr (va + i) = A.mmu (va + i) := by
  unfold Space.kaddr Space.mmu
  rcases hl : A.leafAt (va + i) with _ | ⟨l, w⟩
  · rfl
  · simp only [Option.map_some, Option.some.injEq]
    unfold Space.leafAt at hl
    split at hl
    · rename_i hd
      have := h i hi _ hd
      simp only [Option.some.injEq, Prod.mk.injEq] at hl
      rw [← hl.1]
      simp only [PGSIZE, SUPERPGSIZE] at *
      omega
    · simp only [Option.map_eq_some_iff, Prod.mk.injEq] at hl
      obtain ⟨-, -, rfl, -⟩ := hl
      rfl

theorem kaddr_ne_mmu (vb : Nat) (hdis : A.FramesDisjoint) (hd : A.dir (va / SUPERPGSIZE) = .leaf w)
    (hge : PGSIZE ≤ va % SUPERPGSIZE) (hx : A.mmu va = some x) : A.kaddr vb ≠ some x := by
  intro hk
  simp only [Space.kaddr, Option.map_eq_some_iff, Prod.exists] at hk
  obtain ⟨l, u, hl, hux⟩ := hk
  obtain ⟨n, hn, hcase⟩ := Space.frame_of_leafAt hl
  rw [Space.mmu_eq_frame, Option.map_eq_some_iff] at hx
  obtain ⟨p, hp, rfl⟩ := hx
  have hp' := hp
  rw [Space.frame, page_div, hd, Option.some.injEq] at hp'
  have h1 := (A.dir_leaf hd).toLeafPte.pageAddr.1
  have h2 := (Space.leafAt_pte hl).pageAddr.1
  have hup : pte2pa u = p := by lia
  rw [hup] at hn
  have hnn := hdis _ _ _ hp hn
  rw [← hnn] at hcase
  rcases hcase with hne | h0
  · exact hne w (by rw [page_div]; exact hd)
  · lia

/-- `copyout` stores byte `i` of the source where the MMU finds `va + i`, and changes nothing else: for the address
space `A`, the range of `len` bytes at `va` and every memory that holds `A`. -/
def CopyoutCorrect (A : Space) (va len : Nat) : Prop :=
  ∀ (σ σ' : Phys) (src : Nat → UInt8), Rep σ.mem A → (copyout A.root va src len).run σ = .ok (0, σ') →
    (∀ i < len, ∃ x, sv39 σ.mem A.root (va + i) = some x ∧ σ'.mem x = src i) ∧
    ∀ x, (∀ i < len, sv39 σ.mem A.root (va + i) ≠ some x) → σ'.mem x = σ.mem x

/-- `copyin` fetches into byte `i` of the buffer the byte that the MMU finds at `va + i`. -/
def CopyinCorrect (A : Space) (va len : Nat) : Prop :=
  ∀ (σ σ' : Phys) (dst buf : Nat → UInt8), Rep σ.mem A → (copyin A.root dst 0 va len).run σ = .ok ((0, buf), σ') →
    ∀ i < len, ∃ x, sv39 σ.mem A.root (va + i) = some x ∧ buf i = σ.mem x

theorem Space.UserByte.lt (h : A.UserByte wr va) : va < 2 ^ 64 := by
  obtain ⟨l, w, hl, -⟩ := h
  have := Space.leafAt_lt hl
  simp only [MAXVA] at this
  omega

theorem Space.UserByte.mmu (h : A.UserByte wr va) : ∃ x, A.mmu va = some x := by
  obtain ⟨l, w, hl, -⟩ := h
  exact ⟨_, by rw [Space.mmu, hl]; rfl⟩

theorem Space.UserByte.read (h : A.UserByte wr va) : A.UserByte false va := by
  obtain ⟨l, w, hl, hu, -⟩ := h
  exact ⟨l, w, hl, hu, by simp⟩

theorem copyoutCorrect_of_firstPages (hdis : A.FramesDisjoint) (hoff : A.FramesOffTables)
    (h : (∀ i < len, A.UserByte true (va + i)) → A.FirstPages va len) : CopyoutCorrect A va len := by
  intro σ σ' src hrep hrun
  have hpost := wp_ok (copyout_spec hoff _ src len hrep) hrun
  have huser := hpost.ret_iff.1 rfl
  have hk : ∀ i < len, A.kaddr (va + i) = sv39 σ.mem A.root (va + i) := fun i hi => by
    rw [(h huser).kaddr_eq hi, hrep.sv39_eq (huser i hi).lt]
  constructor
  · intro i hi
    obtain ⟨x, hx⟩ := (huser i hi).mmu
    have hsv : sv39 σ.mem A.root (va + i) = some x := by rw [hrep.sv39_eq (huser i hi).lt, hx]
    refine ⟨x, hsv, hpost.data rfl ?_ i hi x ((hk i hi).trans hsv)⟩
    intro a ha b hb hab
    obtain ⟨y, hy⟩ := (huser a ha).mmu
    rw [(h huser).kaddr_eq ha, (h huser).kaddr_eq hb, hy] at hab
    have := Space.mmu_inj hdis hy hab.symm
    omega
  · intro x hx
    exact hpost.frame x fun i hi _ => by rw [hk i hi]; exact hx i hi

theorem copyinCorrect_of_firstPages
    (h : (∀ i < len, A.UserByte false (va + i)) → A.FirstPages va len) : CopyinCorrect A va len := by
  intro σ σ' dst buf hrep hrun i hi
  have hpost := wp_ok (copyin_spec _ dst 0 len hrep) hrun
  have huser := hpost.ret_iff.1 rfl
  obtain ⟨x, hx⟩ := (huser i hi).mmu
  refine ⟨x, by rw [hrep.sv39_eq (huser i hi).lt, hx], ?_⟩
  have := hpost.data rfl i hi x (((h huser).kaddr_eq hi).trans hx)
  rwa [Nat.zero_add] at this

/-- A range that leaves the first 4 KiB of a superpage: a source for which `copyout` leaves the byte where the MMU
looks for it as it was. -/
theorem firstPages_of_copyoutCorrect (hdis : A.FramesDisjoint) (hoff : A.FramesOffTables)
    (hrep : Rep σ.mem A) (h : CopyoutCorrect A va len) (huser : ∀ i < len, A.UserByte true (va + i)) :
    A.FirstPages va len := by
  intro i hi w hd
  by_contra hge
  obtain ⟨x, hx⟩ := (huser i hi).mmu
  obtain ⟨r, σ', hrun, hpost⟩ := wp_false_iff.1 (copyout_spec hoff va (fun _ => σ.mem x + 1) len hrep)
  rw [hpost.ret_iff.2 huser] at hrun
  obtain ⟨y, hy, hdata⟩ := (h σ σ' _ hrep hrun).1 i hi
  rw [hrep.sv39_eq (huser i hi).lt, hx, Option.some.injEq] at hy
  subst hy
  rw [hpost.frame x fun j _ _ => kaddr_ne_mmu _ hdis hd (by omega) hx] at hdata
  simp at hdata

theorem firstPages_of_copyinCorrect (hdis : A.FramesDisjoint) (hoff : A.FramesOffTables)
    (hrep : Rep σ.mem A) (h : CopyinCorrect A va len) (huser : ∀ i < len, A.UserByte false (va + i)) :
    A.FirstPages va len := by
  intro i hi w hd
  by_contra hge
  obtain ⟨x, hx⟩ := (huser i hi).mmu
  obtain ⟨l, u, hl, -⟩ := huser i hi
  obtain ⟨y, hy⟩ : ∃ y, A.kaddr (va + i) = some y := ⟨_, by rw [Space.kaddr, hl]; rfl⟩
  have hxy : y ≠ x := fun he => kaddr_ne_mmu (va + i) hdis hd (by omega) hx (hy.trans (congrArg some he))
  have hpage : ∀ k, A.tbl k ≠ some (pgrounddown x) := by
    intro k hk
    rw [Space.mmu_eq_frame, Option.map_eq_some_iff] at hx
    obtain ⟨p, hp, rfl⟩ := hx
    have hp0 : p % PGSIZE = 0 := Space.frame_aligned hp
    rw [show pgrounddown (p + (va + i) % PGSIZE) = p by unfold pgrounddown; lia] at hk
    exact hoff _ _ k hp hk
  have hrep' : Rep (write σ.mem x 1 fun _ => σ.mem y + 1) A := by
    refine hrep.frame fun z ⟨k, hk⟩ => write_outside ?_
    by_contra hc
    rw [show z = x by omega] at hk
    exact hpage k hk
  obtain ⟨⟨r, buf⟩, σ', hrun, hpost⟩ := wp_false_iff.1
    (copyin_spec (σ := { σ with mem := write σ.mem x 1 fun _ => σ.mem y + 1 }) va (fun _ => 0) 0 len hrep')
  have hr : r = 0 := hpost.ret_iff.2 huser
  subst hr
  obtain ⟨z, hz, hdata⟩ := h _ σ' _ buf hrep' hrun i hi
  rw [hrep'.sv39_eq (huser i hi).lt, hx, Option.some.injEq] at hz
  subst hz
  have hbuf := hpost.data rfl i hi y hy
  rw [Nat.zero_add] at hbuf
  have hne : write σ.mem x 1 (fun _ => σ.mem y + 1) y = write σ.mem x 1 (fun _ => σ.mem y + 1) x :=
    hbuf.symm.trans hdata
  rw [write_outside (by omega), Bytes.write_inside (Nat.le_refl _) (by omega)] at hne
  simp at hne

/-- For an address space with disjoint frames, `copyout` and `copyin` agree with the MMU on a range of user memory
exactly when the range stays within the first 4 KiB of every superpage it meets (or is not mapped for the user
throughout, so that the calls fail). -/
theorem copy_agrees_with_mmu_iff (A : Space) (σ : Phys) (hrep : Rep σ.mem A) (hdis : A.FramesDisjoint)
    (hoff : A.FramesOffTables) (va len : Nat) :
    (CopyoutCorrect A va len ∧ CopyinCorrect A va len) ↔
      ((∀ i < len, A.UserByte false (va + i)) → A.FirstPages va len) := by
  constructor
  · intro h
    exact firstPages_of_copyinCorrect hdis hoff hrep h.2
  · intro h
    refine ⟨copyoutCorrect_of_firstPages hdis hoff fun hu => h fun i hi => (hu i hi).read, ?_⟩
    exact copyinCorrect_of_firstPages h

section

variable (perm : Nat) (hperm : SuperPte (mkPte superBase perm))

def superSpaceWith : Space :=
  ((Space.empty 0x80021000 (by unfold PageAddr; decide)).addL1 0 0x80022000 (by decide) (by unfold PageAddr; decide)
      (by rintro (_ | i | v) <;> simp [Tree.tbl, Space.empty])).setDir 0
    (.leaf (mkPte superBase perm)) ⟨0x80022000, rfl⟩ (by intro q hq; cases hq) hperm

def superMem : Mem :=
  Bytes.storeLE (Bytes.storeLE (Bytes.fill (Bytes.fill (fun _ => 0) 0x80021000 PGSIZE 0) 0x80022000 PGSIZE 0)
    0x80021000 8 (pa2pte 0x80022000 ||| PTE_V)) 0x80022000 8 (mkPte superBase perm)

theorem superMem_rep : Rep (superMem perm) (superSpaceWith perm hperm) := by
  have h := Rep.addL1 (i := 0) (p := 0x80022000) (Rep.empty (m := fun _ => 0) (show PageAddr 0x80021000 by unfold PageAddr; decide))
    (by decide) rfl (by unfold PageAddr; decide) (by rintro (_ | i | v) <;> simp [Tree.tbl, Space.empty])
  exact h.setSuper (v := 0) (q := 0x80022000) (w := mkPte superBase perm) rfl (by intro q hq; cases hq) hperm

theorem superSpaceWith_dir (v : Nat) :
    (superSpaceWith perm hperm).dir v = if v = 0 then .leaf (mkPte superBase perm) else .none :=
  Function.update_apply (fun _ => Dir.none) 0 _ v

theorem superSpaceWith_tbl {x : Node} (hx : (superSpaceWith perm hperm).tbl x = some p) :
    p = 0x80021000 ∨ p = 0x80022000 := by
  have hl1 : (superSpaceWith perm hperm).l1 = Function.update (fun _ => none) 0 (some 0x80022000) := rfl
  rcases x with _ | i | v
  · exact .inl (Option.some.inj hx).symm
  · by_cases hi : i = 0
    · rw [Tree.tbl, hl1, hi, Function.update_self, Option.some.injEq] at hx
      exact .inr hx.symm
    · rw [Tree.tbl, hl1, Function.update_of_ne hi] at hx; cases hx
  · rw [Tree.tbl, superSpaceWith_dir] at hx
    split at hx
    · rename_i hd
      split at hd <;> cases hd
    · cases hx

theorem superSpaceWith_frame (hlt : perm < 1024) (h : (superSpaceWith perm hperm).frame n = some p) :
    n < 512 ∧ p = superBase + n * PGSIZE := by
  rw [Space.frame, superSpaceWith_dir] at h
  by_cases hn : n / 512 = 0
  · rw [if_pos hn, Option.some.injEq, mkPte_pa hlt (by decide) (by decide)] at h
    exact ⟨by omega, by rw [← h, Nat.mod_eq_of_lt (by omega)]⟩
  · rw [if_neg hn] at h
    cases h

end

def superSpace : Space := superSpaceWith (PTE_R ||| PTE_W ||| PTE_U) (by constructor <;> (try constructor) <;> decide)

def superPhys : Phys := ⟨superMem (PTE_R ||| PTE_W ||| PTE_U), [], []⟩

theorem superPhys_rep : Rep superPhys.mem superSpace := superMem_rep _ _

theorem superSpace_framesDisjoint : superSpace.FramesDisjoint := by
  intro n n' p h h'
  have := superSpaceWith_frame _ _ (by decide) h
  have := superSpaceWith_frame _ _ (by decide) h'
  lia

theorem superSpace_framesOffTables : superSpace.FramesOffTables := by
  intro n p x h hx
  obtain ⟨-, rfl⟩ := superSpaceWith_frame _ _ (by decide) h
  rcases superSpaceWith_tbl _ _ hx with hp | hp <;> lia

theorem superSpace_user (hi : i < SUPERPGSIZE) (wr : Bool) : superSpace.UserByte wr i := by
  have hdir : superSpace.dir (i / SUPERPGSIZE) = .leaf (mkPte superBase (PTE_R ||| PTE_W ||| PTE_U)) := by
    rw [Nat.div_eq_of_lt hi]; rfl
  refine ⟨1, mkPte superBase (PTE_R ||| PTE_W ||| PTE_U), ?_, by decide, fun _ => by decide⟩
  rw [Space.leafAt, hdir]

/-- The calls agree with the MMU on the first 4 KiB of the superpage of `superSpace`. -/
theorem copy_agrees_superSpace_first_page :
    CopyoutCorrect superSpace 0 4096 ∧ CopyinCorrect superSpace 0 4096 := by
  refine (copy_agrees_with_mmu_iff superSpace superPhys superPhys_rep superSpace_framesDisjoint
    superSpace_framesOffTables 0 4096).2 fun _ i hi w _ => ?_
  lia

/-- One byte at address 4096 of a superpage: both calls return 0 and both reach the wrong byte. -/
theorem copy_disagrees_superSpace :
    superSpace.FramesDisjoint ∧ superSpace.FramesOffTables ∧ Rep superPhys.mem superSpace ∧
      ¬CopyoutCorrect superSpace 4096 1 ∧ ¬CopyinCorrect superSpace 4096 1 := by
  have huser : ∀ wr, ∀ i < 1, superSpace.UserByte wr (4096 + i) := fun wr i hi =>
    superSpace_user (by lia) wr
  have hno : ¬superSpace.FirstPages 4096 1 := by
    intro h
    have := h 0 (by decide) _ (show superSpace.dir ((4096 + 0) / SUPERPGSIZE) = .leaf _ from rfl)
    revert this; decide
  refine ⟨superSpace_framesDisjoint, superSpace_framesOffTables, superPhys_rep, fun h => hno ?_, fun h => hno ?_⟩
  · exact firstPages_of_copyoutCorrect superSpace_framesDisjoint superSpace_framesOffTables superPhys_rep h (huser true)
  · exact firstPages_of_copyinCorrect superSpace_framesDisjoint superSpace_framesOffTables superPhys_rep h (huser false)

end Xv6
