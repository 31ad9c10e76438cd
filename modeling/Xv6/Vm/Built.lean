import Xv6.Vm.Refine

/-!
# The page tables that `mappages` and `supermappages` build

Calls with the permissions of a leaf keep the page table a tree of three levels: the entries of a level-0 table that are valid
map pages, and no other entry is taken for a pointer.
-/

namespace Xv6

open Bytes (Mem)
open Hoare

variable {σ σ' : Phys} {T T' : Skeleton} {E : String → Prop} {i n p q v w va pa perm N root : Nat} {m m' : Mem}

theorem Leafy.setPage (h : Leafy T m) (hT : T.Holds m) (hq : T.l0 v = some q) (hi : i < 512) (hw : w < 2 ^ 64)
    (hleaf : pteLeaf w = true) : Leafy T (Bytes.storeLE m (q + 8 * i) 8 w) := by
  intro u r k hr hk hval
  have hentry := pteAt_store (m := m) (hT.page (x := .l0 v) hq).1 (hT.page (x := .l0 u) hr).1 hi hk hw
  rw [hentry] at hval ⊢
  split
  · exact hleaf
  · rename_i hne
    rw [if_neg hne] at hval
    exact h u r k hr hk hval

/-- The memory holds the tree, apart from the free pages, and its level-0 entries are leaves. -/
structure Sound (σ : Phys) (T : Skeleton) : Prop extends Tidy σ T where
  leafy : Leafy T σ.mem

def SomeRWX (perm : Nat) : Prop := perm < 1024 ∧ pteLeaf perm = true

instance (perm : Nat) : Decidable (SomeRWX perm) := inferInstanceAs (Decidable (_ ∧ _))

theorem SomeRWX.pteLeaf (h : SomeRWX perm) (pa : Nat) : Xv6.pteLeaf (mkPte pa perm) = true := by
  obtain ⟨-, hR, hW, hX⟩ := flags_mkPte pa h.1
  unfold Xv6.pteLeaf
  rw [hR, hW, hX]
  exact h.2

theorem mappagesLoop_sound (hS : Sound σ T) (hN : (N + n) * PGSIZE ≤ MAXVA) (hperm : SomeRWX perm) (hpa : pa + n * PGSIZE ≤ 2 ^ 56) :
    wp (mappagesLoop T.root perm n (N * PGSIZE) pa) (fun _ σ' => ∃ T', Sound σ' T' ∧ T'.root = T.root) (fun _ => True) σ := by
  induction n generalizing σ T N pa with
  | zero => exact ⟨T, hS, rfl⟩
  | succ n ih =>
    rw [mappagesLoop, wp_bind]
    refine wp_post (walk_becomes hS.toTidy (by lia)) ?_
    rintro r σ1 ⟨T1, hB, hL, hend⟩
    have hS1 : Sound σ1 T1 := ⟨hB.tidy, hL hS.leafy⟩
    have hroot := hB.root
    cases r with
    | none => exact ⟨T1, hS1, hroot⟩
    | some a =>
      rw [wp_bind, wp_loadPte]
      split
      next => trivial
      next hv =>
        obtain ⟨q, hq, rfl⟩ := hend.resolve_right hv
        have hlt : mkPte pa perm < 2 ^ 64 := mkPte_lt hperm.1 (by lia)
        have hq' : T1.l0 (N * PGSIZE / PGSIZE / 512) = some q := by rw [page_div]; exact hq
        have hset := hS1.holds.setPage hq' hlt rfl
        have hS2 : Sound { σ1 with mem := Bytes.storeLE σ1.mem (q + 8 * (N * PGSIZE / PGSIZE % 512)) 8 (mkPte pa perm) } T1 :=
          ⟨(Becomes.store hS1.toTidy hset.1 fun _ => rfl).tidy,
            hS1.leafy.setPage hS1.holds hq (Nat.mod_lt _ (by decide)) hlt (hperm.pteLeaf pa)⟩
        rw [wp_bind, wp_storePte, show N * PGSIZE + PGSIZE = (N + 1) * PGSIZE by lia]
        have hrest : pa + PGSIZE + n * PGSIZE ≤ 2 ^ 56 := by lia
        have hstep := ih (N := N + 1) hS2 (by lia) hrest
        rw [hroot] at hstep
        exact hstep

theorem supermappages_sound (hS : Sound σ T) (hva : va < MAXVA) (hperm : SomeRWX perm) (hpa : pa < 2 ^ 56) :
    wp (supermappages T.root va pa perm) (fun _ σ' => ∃ T', Sound σ' T' ∧ T'.root = T.root) (fun _ => True) σ := by
  unfold supermappages
  split
  next => trivial
  next =>
    rw [wp_bind]
    refine wp_post (superwalk_becomes hS.toTidy hva) ?_
    rintro r σ1 ⟨T1, hB, hL, hend⟩
    have hS1 : Sound σ1 T1 := ⟨hB.tidy, hL hS.leafy⟩
    have hroot := hB.root
    rcases hend with rfl | ⟨p, hp, rfl⟩
    · exact ⟨T1, hS1, hroot⟩
    · rw [wp_bind, wp_loadPte]
      split
      next => trivial
      next hv =>
        have hl0 : T1.l0 (va / SUPERPGSIZE) = none := by
          rcases hq : T1.l0 (va / SUPERPGSIZE) with _ | q
          · rfl
          · exact absurd (hS1.holds.dir_some hp hq).1 hv
        have hlt := mkPte_lt hperm.1 hpa
        have hset := hS1.holds.setSuper hp hl0 hlt (fun _ => hperm.pteLeaf pa) rfl
        rw [wp_bind, wp_storePte, wp_pure]
        exact ⟨T1, ⟨(Becomes.store hS1.toTidy hset.1 fun _ => rfl).tidy,
          hS1.leafy.store_above (x := .l1 _) hS1.holds hp (by simp) (Nat.mod_lt _ (by decide)) hlt⟩, hroot⟩

/-- The states of a page table that starts as a zeroed root page and is filled by `mappages` and `supermappages` below `MAXVA`;
in between, the rest of the kernel may change everything but the page-table pages, and take and free other pages. -/
inductive Built (root : Nat) : Phys → Prop
  | zeroed {σ : Phys} : Tidy σ ⟨root, fun _ => none, fun _ => none⟩ → Built root σ
  | mappages {σ σ' : Phys} {va size pa perm : Nat} {r : Int} : Built root σ → va + size ≤ MAXVA → pa + size ≤ 2 ^ 56 → SomeRWX perm →
      (mappages root va size pa perm).run σ = .ok (r, σ') → Built root σ'
  | supermappages {σ σ' : Phys} {va pa perm : Nat} {r : Int} : Built root σ → va < MAXVA → pa < 2 ^ 56 → SomeRWX perm →
      (supermappages root va pa perm).run σ = .ok (r, σ') → Built root σ'
  | other {σ σ' : Phys} : Built root σ → (∀ T : Skeleton, T.root = root → Tidy σ T →
      (∀ {x p j}, T.tbl x = some p → j < 512 → pteAt σ'.mem p j = pteAt σ.mem p j) ∧
      (∀ p ∈ σ'.freelist, PageAddr p ∧ T.Fresh p) ∧ σ'.freelist.Nodup) → Built root σ'

theorem Built.sound (h : Built root σ) : ∃ T, Sound σ T ∧ T.root = root := by
  induction h with
  | zeroed hT => exact ⟨_, ⟨hT, fun _ _ _ h => by cases h⟩, rfl⟩
  | mappages _ hmax hpa hperm hrun ih =>
    obtain ⟨T, hS, rfl⟩ := ih
    rename_i size pa perm r _
    unfold Xv6.mappages at hrun
    split at hrun
    next => cases hrun
    next hva =>
      split at hrun
      next => cases hrun
      next =>
        split at hrun
        next => cases hrun
        next =>
          rename_i va _ _ _
          obtain ⟨N, rfl⟩ : ∃ N, va = N * PGSIZE := ⟨va / PGSIZE, by lia⟩
          exact wp_ok (mappagesLoop_sound hS (by lia) hperm (by lia)) hrun
  | supermappages _ hmax hpa hperm hrun ih =>
    obtain ⟨T, hS, rfl⟩ := ih
    exact wp_ok (supermappages_sound hS hmax hperm hpa) hrun
  | other _ hkeep ih =>
    obtain ⟨T, hS, hroot⟩ := ih
    obtain ⟨hm, hfree, hnd⟩ := hkeep T hroot hS.toTidy
    exact ⟨T, ⟨⟨(hS.holds.congr hm).1, hfree, hnd⟩, hS.leafy.congr fun {v _ _} hq hj => hm (x := .l0 v) hq hj⟩, hroot⟩

end Xv6
