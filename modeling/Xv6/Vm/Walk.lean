import Xv6.Vm.Space

/-!
# What the page walkers find

The translation of an address by the MMU (`sv39`), and the read-only walkers of `vm.c`, on a memory that holds an
address space: `walk`, `superwalk` and `walkaddr` without `alloc` return what the tree says and change nothing.
-/

namespace Xv6

open Bytes (Mem)
open Hoare

/-- The leaf that the Sv39 page walk finds for `va` from the page-table page at `a` of the given level: its level
and its entry. -/
def sv39Leaf (m : Mem) (va : Nat) : Nat → Nat → Option (Nat × Nat)
  | level, a =>
    let e := pteAt m a (va / 2 ^ (12 + 9 * level) % 512)
    if !hasFlag e PTE_V || (!hasFlag e PTE_R && hasFlag e PTE_W) then none
    else if hasFlag e PTE_R || hasFlag e PTE_X then
      -- a superpage must be aligned
      if e / 1024 % 2 ^ 44 % 2 ^ (9 * level) = 0 then some (level, e) else none
    else match level with
      | 0 => none
      | level + 1 => sv39Leaf m va level (e / 1024 % 2 ^ 44 * 4096)

/-- The address that the MMU translates `va` to: a leaf of level `l` keeps the low `12 + 9 l` bits. -/
def sv39 (m : Mem) (root va : Nat) : Option Nat :=
  if va < 2 ^ 38 ∨ 2 ^ 64 - 2 ^ 38 ≤ va ∧ va < 2 ^ 64 then
    (sv39Leaf m va 2 root).map fun (level, e) => e / 1024 % 2 ^ 44 * 4096 + va % 2 ^ (12 + 9 * level)
  else none

variable {m : Mem} {A : Space} {va l w : Nat} {σ : Phys} {E : String → Prop} {Q : Option Nat → Phys → Prop}

/-- The leaf that maps `va`: its level and its entry. -/
def Space.leafAt (A : Space) (va : Nat) : Option (Nat × Nat) :=
  match A.dir (va / SUPERPGSIZE) with
  | .leaf w => some (1, w)
  | _ => (A.pg (va / PGSIZE)).map fun w => (0, w)

/-- The address of the entry that `walk` without `alloc` returns. -/
def Space.slot (A : Space) (va : Nat) : Option Nat :=
  (A.l1 (va / SUPERPGSIZE / 512)).bind fun p =>
    match A.dir (va / SUPERPGSIZE) with
    | .none => none
    | .leaf _ => some (p + 8 * (va / SUPERPGSIZE % 512))
    | .table q => some (q + 8 * (va / PGSIZE % 512))

def Space.superSlot (A : Space) (va : Nat) : Option Nat :=
  (A.l1 (va / SUPERPGSIZE / 512)).map fun p => p + 8 * (va / SUPERPGSIZE % 512)

theorem px_two (h : va < MAXVA) : px 2 va = va / SUPERPGSIZE / 512 := by
  rw [px_eq]; simp only [MAXVA, SUPERPGSIZE] at *; omega

theorem px_one (va : Nat) : px 1 va = va / SUPERPGSIZE % 512 := by rw [px_eq]; rfl

theorem px_zero (va : Nat) : px 0 va = va / PGSIZE % 512 := by rw [px_eq]; rfl

theorem page_div (va : Nat) : va / PGSIZE / 512 = va / SUPERPGSIZE := by
  simp only [SUPERPGSIZE, PGSIZE]; omega

theorem Space.slot_table {q : Nat} (h : A.dir (va / SUPERPGSIZE) = .table q) :
    A.slot va = some (q + 8 * (va / PGSIZE % 512)) := by
  obtain ⟨p, hp⟩ := A.dir_l1 (v := va / SUPERPGSIZE) (by rw [h]; simp)
  simp [Space.slot, hp, h]

theorem Space.leafAt_lt (h : A.leafAt va = some (l, w)) : va < MAXVA := by
  have hdir : A.dir (va / SUPERPGSIZE) ≠ .none := by
    intro hn
    rw [Space.leafAt, hn] at h
    simp only [Option.map_eq_some_iff] at h
    obtain ⟨u, hu, -⟩ := h
    obtain ⟨q, hq⟩ := A.pg_dir hu
    rw [page_div, hn] at hq; cases hq
  obtain ⟨p, hp⟩ := A.dir_l1 hdir
  have := A.l1_lt hp
  simp only [SUPERPGSIZE, MAXVA] at *
  omega

theorem Space.leafAt_pte (h : A.leafAt va = some (l, w)) : LeafPte w := by
  unfold Space.leafAt at h
  split at h
  · rename_i hd
    simp only [Option.some.injEq, Prod.mk.injEq] at h
    exact h.2 ▸ (A.dir_leaf hd).toLeafPte
  · simp only [Option.map_eq_some_iff, Prod.mk.injEq] at h
    obtain ⟨u, hu, -, rfl⟩ := h
    exact A.pg_leaf hu

theorem Space.leafAt_page {va vb : Nat} (h : va / PGSIZE = vb / PGSIZE) : A.leafAt va = A.leafAt vb := by
  have h' : va / SUPERPGSIZE = vb / SUPERPGSIZE := by rw [← page_div, ← page_div, h]
  rw [Space.leafAt, Space.leafAt, h, h']

theorem wp_walk_false (h : Rep σ.mem A) (hva : va < MAXVA) :
    wp (walk A.root va false) Q E σ ↔ Q (A.slot va) σ := by
  have hlt : va / SUPERPGSIZE / 512 < 512 := by simp only [MAXVA, SUPERPGSIZE] at *; omega
  unfold walk
  rw [if_neg (by lia), walkLoop, px_two hva, wp_bind, wp_loadPte]
  rcases hp : A.l1 (va / SUPERPGSIZE / 512) with _ | p
  · have hv := h.root_none hlt hp
    unfold pteAt at hv
    simp [hv, Space.slot, hp, wp_pure]
  · obtain ⟨hv, hl, hpa⟩ := h.root_some hp
    unfold pteAt at hv hl hpa
    rw [if_pos hv, hl, if_neg Bool.false_ne_true, hpa, walkLoop, px_one, wp_bind, wp_loadPte]
    rcases hd : A.dir (va / SUPERPGSIZE) with _ | q | w
    · have hv := h.dir_none hp hd
      unfold pteAt at hv
      simp [hv, Space.slot, hp, hd, wp_pure]
    · obtain ⟨hv, hl, hpa⟩ := h.dir_table hp hd
      unfold pteAt at hv hl hpa
      rw [if_pos hv, hl, if_neg Bool.false_ne_true, hpa, walkLoop, px_zero, wp_pure, Space.slot_table hd]
    · have he := h.dir_leaf hp hd
      unfold pteAt at he
      have hw := A.dir_leaf hd
      rw [he, if_pos hw.valid, if_pos hw.leaf, wp_pure]
      simp [Space.slot, hp, hd]

theorem wp_superwalk_false (h : Rep σ.mem A) (hva : va < MAXVA) :
    wp (superwalk A.root va false) Q E σ ↔ Q (A.superSlot va) σ := by
  have hlt : va / SUPERPGSIZE / 512 < 512 := by simp only [MAXVA, SUPERPGSIZE] at *; omega
  unfold superwalk
  rw [if_neg (by lia), px_two hva, px_one, wp_bind, wp_loadPte]
  rcases hp : A.l1 (va / SUPERPGSIZE / 512) with _ | p
  · have hv := h.root_none hlt hp
    unfold pteAt at hv
    simp [hv, Space.superSlot, hp, wp_pure]
  · obtain ⟨hv, hl, hpa⟩ := h.root_some hp
    unfold pteAt at hv hpa
    rw [if_pos hv, hpa, wp_pure]
    simp [Space.superSlot, hp]

theorem Rep.slot_load (h : Rep m A) (hl : A.leafAt va = some (l, w)) :
    ∃ a, A.slot va = some a ∧ Bytes.loadLE m a 8 = w := by
  unfold Space.leafAt at hl
  split at hl
  · rename_i hd
    obtain ⟨p, hp⟩ := A.dir_l1 (v := va / SUPERPGSIZE) (by rw [hd]; simp)
    simp only [Option.some.injEq, Prod.mk.injEq] at hl
    obtain ⟨-, rfl⟩ := hl
    exact ⟨_, by simp [Space.slot, hp, hd], h.dir_leaf hp hd⟩
  · simp only [Option.map_eq_some_iff, Prod.mk.injEq] at hl
    obtain ⟨u, hu, -, rfl⟩ := hl
    obtain ⟨q, hq⟩ := A.pg_dir hu
    have hpg := h.pg_some hq hu
    rw [page_div] at hq
    exact ⟨_, Space.slot_table hq, hpg⟩

theorem Rep.slot_load_none (h : Rep m A) (hl : A.leafAt va = none) {a : Nat} (ha : A.slot va = some a) :
    hasFlag (Bytes.loadLE m a 8) PTE_V = false := by
  unfold Space.leafAt at hl
  split at hl
  · cases hl
  · rename_i hleaf
    simp only [Option.map_eq_none_iff] at hl
    rcases hd : A.dir (va / SUPERPGSIZE) with _ | q | w
    · simp [Space.slot, hd] at ha
    · rw [Space.slot_table hd, Option.some.injEq] at ha
      subst ha
      rw [← page_div] at hd
      exact h.pg_none hd hl
    · exact absurd hd (hleaf w)

/-- `walkaddr` on the tree: the frame of the leaf, whatever its level. -/
def Space.walkaddr (A : Space) (va : Nat) : Nat :=
  match A.leafAt va with
  | some (_, w) => if hasFlag w PTE_U then pte2pa w else 0
  | none => 0

theorem wp_walkaddr {Q : Nat → Phys → Prop} (h : Rep σ.mem A) :
    wp (walkaddr A.root va) Q E σ ↔ Q (A.walkaddr va) σ := by
  unfold walkaddr
  by_cases hva : va < MAXVA
  · rw [if_neg (by lia), wp_bind, wp_walk_false h hva]
    rcases hl : A.leafAt va with _ | ⟨l, w⟩
    · rcases ha : A.slot va with _ | a
      · simp [wp_pure, Space.walkaddr, hl]
      · have hv := h.slot_load_none hl ha
        simp [wp_bind, wp_loadPte, wp_pure, hv, Space.walkaddr, hl]
    · obtain ⟨a, ha, he⟩ := h.slot_load hl
      have hv := (Space.leafAt_pte hl).valid
      by_cases hu : hasFlag w PTE_U
      · simp [ha, wp_bind, wp_loadPte, wp_pure, he, hv, hu, Space.walkaddr, hl]
      · simp [ha, wp_bind, wp_loadPte, wp_pure, he, hv, hu, Space.walkaddr, hl]
  · have hl : A.leafAt va = none := by
      rcases hl : A.leafAt va with _ | ⟨l, w⟩
      · rfl
      · exact absurd (Space.leafAt_lt hl) hva
    rw [if_pos (by lia), wp_pure]
    simp [Space.walkaddr, hl]

end Xv6
