import Mathlib.Data.Set.Insert

/-!
# Ledgers of owners

A ledger is a relation `R i a`: the owner `i` holds the item `a`. It is exclusive if no item has two owners.
Moving one item from an owner to another keeps a ledger exclusive and does not change the set of items held.
-/

namespace Ledger

variable {ι α : Type} {R R' : ι → α → Prop} {i j k : ι} {a : α}

def Exclusive (R : ι → α → Prop) : Prop := ∀ ⦃i j a⦄, R i a → R j a → i = j

def held (R : ι → α → Prop) : Set α := {a | ∃ i, R i a}

/-- `R'` is `R` with the item `a` moved to the owner `k`. -/
def MovedTo (R : ι → α → Prop) (a : α) (k : ι) (R' : ι → α → Prop) : Prop :=
  ∀ i b, R' i b ↔ b ≠ a ∧ R i b ∨ b = a ∧ i = k

theorem mem_held (h : R i a) : a ∈ held R := ⟨i, h⟩

theorem Exclusive.mono (h : Exclusive R) (hR : ∀ i b, R' i b → R i b) : Exclusive R' := fun _ _ _ hi hj =>
  h (hR _ _ hi) (hR _ _ hj)

theorem MovedTo.of_exclusive (h : Exclusive R) (hj : R j a) (hjk : j ≠ k)
    (hfrom : ∀ b, R' j b ↔ R j b ∧ b ≠ a) (hto : ∀ b, R' k b ↔ R k b ∨ b = a)
    (hrest : ∀ i, i ≠ j → i ≠ k → ∀ b, R' i b ↔ R i b) : MovedTo R a k R' := by
  intro i b
  by_cases hik : i = k
  · subst hik
    rw [hto]
    by_cases hb : b = a
    · simp [hb]
    · simp [hb]
  · by_cases hij : i = j
    · subst hij
      rw [hfrom]; simp [hik, and_comm]
    · rw [hrest i hij hik]
      have hne : R i b → b ≠ a := fun hi hb => hij (h (hb ▸ hi) hj)
      simp only [hik, and_false, or_false]
      exact ⟨fun hi => ⟨hne hi, hi⟩, And.right⟩

theorem Exclusive.movedTo (h : Exclusive R) (hm : MovedTo R a k R') : Exclusive R' := by
  intro i j b hi hj
  rw [hm] at hi hj
  rcases hi with ⟨hne, hi⟩ | ⟨he, hi⟩ <;> rcases hj with ⟨hne', hj⟩ | ⟨he', hj⟩
  · exact h hi hj
  · exact absurd he' hne
  · exact absurd he hne'
  · rw [hi, hj]

theorem MovedTo.held_eq (hm : MovedTo R a k R') (ha : a ∈ held R) : held R' = held R := by
  ext b
  constructor
  · rintro ⟨i, hi⟩
    rw [hm] at hi
    rcases hi with ⟨-, hi⟩ | ⟨rfl, -⟩
    · exact ⟨i, hi⟩
    · exact ha
  · rintro ⟨i, hi⟩
    by_cases hb : b = a
    · exact ⟨k, (hm k b).2 (Or.inr ⟨hb, rfl⟩)⟩
    · exact ⟨i, (hm i b).2 (Or.inl ⟨hb, hi⟩)⟩

theorem MovedTo.forall_held {P : α → Prop} (hm : MovedTo R a k R') (ha : a ∈ held R) (h : ∀ i b, R i b → P b) :
    ∀ i b, R' i b → P b := by
  intro i b hi
  obtain ⟨j, hj⟩ : b ∈ held R := (hm.held_eq ha) ▸ mem_held hi
  exact h j b hj

end Ledger
