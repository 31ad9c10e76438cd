import Mathlib.Algebra.Order.BigOperators.Group.Finset
import Mathlib.Data.Fintype.BigOperators

/-!
# Counting over the entries of a table

When one entry of a finite table changes, a sum over the table changes by what the entry contributes.
-/

namespace Count

variable {ι α : Type} [Fintype ι]

theorem sum_change [DecidableEq ι] {f g : ι → ℕ} (i : ι) (h : ∀ j, j ≠ i → f j = g j) :
    ∑ j, f j + g i = ∑ j, g j + f i := by
  have hf := Finset.add_sum_erase Finset.univ f (Finset.mem_univ i)
  have hg := Finset.add_sum_erase Finset.univ g (Finset.mem_univ i)
  have hrest : ∑ j ∈ Finset.univ.erase i, f j = ∑ j ∈ Finset.univ.erase i, g j :=
    Finset.sum_congr rfl fun j hj => h j (Finset.ne_of_mem_erase hj)
  omega

theorem sum_update [DecidableEq ι] (f : α → ℕ) (g : ι → α) (i : ι) (x : α) :
    ∑ j, f (Function.update g i x j) + f (g i) = ∑ j, f (g j) + f x := by
  have h := sum_change (f := fun j => f (Function.update g i x j)) (g := fun j => f (g j)) i fun j hj => by
    rw [Function.update_of_ne hj]
  rwa [Function.update_self] at h

theorem le_sum (f : ι → ℕ) (i : ι) : f i ≤ ∑ j, f j := Finset.single_le_sum (fun _ _ => Nat.zero_le _) (Finset.mem_univ i)

end Count
