import Mathlib.Data.List.Basic
import Mathlib.Data.List.Pairwise

/-!
# Chains of links and blocks of cells

A linked list is a list of nodes each of which has a link to the next one. A block is a run of cells of `z` bytes each; the
cells of a list of blocks say what the blocks cover, without regard to their order or to where one ends and the next begins.
-/

namespace Chain

section Links

variable {α : Type*} {ptr ptr' : α → α} {l l1 l2 : List α} {a b c x : α}

/-- Each node is linked to the next one, and the last one to `b`. -/
def Links (ptr : α → α) : List α → α → Prop
  | [], _ => True
  | a :: l, b => ptr a = l.headD b ∧ Links ptr l b

theorem headD_append : (l1 ++ l2).headD b = l1.headD (l2.headD b) := by
  cases l1 <;> rfl

theorem links_append : Links ptr (l1 ++ l2) b ↔ Links ptr l1 (l2.headD b) ∧ Links ptr l2 b := by
  induction l1 with
  | nil => exact (iff_of_eq (true_and _)).symm
  | cons a l1 ih => rw [List.cons_append, Links, Links, ih, headD_append, and_assoc]

theorem Links.congr (h : Links ptr l b) (hptr : ∀ x ∈ l, ptr' x = ptr x) : Links ptr' l b := by
  induction l with
  | nil => trivial
  | cons a l ih =>
    exact ⟨(hptr a (List.mem_cons_self ..)).trans h.1, ih h.2 fun x hx => hptr x (List.mem_cons_of_mem a hx)⟩

theorem Links.mem_or (h : Links ptr l b) (hx : x ∈ l) : ptr x ∈ l ∨ ptr x = b := by
  induction l with
  | nil => cases hx
  | cons a l ih =>
    rcases List.mem_cons.1 hx with rfl | hx
    · rw [h.1]
      cases l with
      | nil => exact Or.inr rfl
      | cons c l => exact Or.inl (by simp)
    · exact (ih h.2 hx).imp_left (List.mem_cons_of_mem a)

theorem Links.rotate (h : Links ptr (b :: l) b) (hx : x ∈ b :: l) :
    ∃ l', Links ptr (x :: l') x ∧ (x :: l').Perm (b :: l) := by
  obtain ⟨l1, l2, heq⟩ := List.append_of_mem hx
  rw [heq] at h
  obtain ⟨h1, h2⟩ := links_append.1 h
  refine ⟨l2 ++ l1, ?_, ?_⟩
  · have hb : l1.headD x = b := by
      cases l1 with
      | nil => exact (List.cons.inj heq).1.symm
      | cons c l1 => exact (List.cons.inj heq).1.symm
    rw [← List.cons_append]
    exact links_append.2 ⟨by rw [hb]; exact h2, h1⟩
  · rw [heq, ← List.cons_append]
    exact List.perm_append_comm

end Links

variable {z a b m n x : Nat} {l l' : List Nat}

/-- The cells of the block of `n` cells at `a`. -/
def cells (z a n : Nat) : List Nat := (List.range n).map (a + z * ·)

theorem cells_add : cells z a (m + n) = cells z a m ++ cells z (a + z * m) n := by
  unfold cells
  rw [List.range_add, List.map_append, List.map_map]
  congr 1
  refine List.map_congr_left fun i _ => ?_
  simp only [Function.comp]
  rw [Nat.mul_add, Nat.add_assoc]

theorem mem_cells : x ∈ cells z a n ↔ ∃ i, i < n ∧ x = a + z * i := by
  simp [cells, eq_comm]

@[simp] theorem length_cells : (cells z a n).length = n := by simp [cells]

/-- The cells of the blocks at the given addresses, of the given sizes. -/
def blocks (z : Nat) (size : Nat → Nat) (l : List Nat) : List Nat := l.flatMap fun a => cells z a (size a)

section Blocks

variable {size size' : Nat → Nat}

theorem blocks_append : blocks z size (l ++ l') = blocks z size l ++ blocks z size l' := List.flatMap_append

theorem blocks_cons : blocks z size (a :: l) = cells z a (size a) ++ blocks z size l := List.flatMap_cons

theorem blocks_congr (h : ∀ a ∈ l, size' a = size a) : blocks z size' l = blocks z size l :=
  List.flatMap_congr fun a ha => by rw [h a ha]

theorem cells_subset_blocks (ha : a ∈ l) (hx : x ∈ cells z a (size a)) : x ∈ blocks z size l :=
  List.mem_flatMap.2 ⟨a, ha, hx⟩

end Blocks

def Apart (z x y : Nat) : Prop := x + z ≤ y ∨ y + z ≤ x

theorem Apart.symm {y : Nat} (h : Apart z x y) : Apart z y x := Or.symm h

theorem pairwise_cells : (cells z a n).Pairwise (Apart z) := by
  unfold cells
  rw [List.pairwise_map]
  refine List.pairwise_lt_range.imp fun {i j} hij => Or.inl ?_
  have := Nat.mul_le_mul_left z hij
  rw [Nat.mul_succ] at this
  omega

theorem blocks_apart (hz : 0 < z) (hm : 0 < m) (hn : 0 < n) (h : ∀ x ∈ cells z a m, ∀ y ∈ cells z b n, Apart z x y) :
    a + z * m ≤ b ∨ b + z * n ≤ a := by
  by_contra hcon
  obtain ⟨h1, h2⟩ := not_or.1 hcon
  -- the block that starts later starts inside a cell of the other one
  rcases Nat.le_total a b with hab | hab
  · have hlt : (b - a) / z < m := Nat.div_lt_of_lt_mul (by omega)
    have := h (a + z * ((b - a) / z)) (mem_cells.2 ⟨_, hlt, rfl⟩) b (mem_cells.2 ⟨0, hn, rfl⟩)
    have hdm := Nat.div_add_mod (b - a) z
    have hmod := Nat.mod_lt (b - a) hz
    unfold Apart at this
    omega
  · have hlt : (a - b) / z < n := Nat.div_lt_of_lt_mul (by omega)
    have := h a (mem_cells.2 ⟨0, hm, rfl⟩) (b + z * ((a - b) / z)) (mem_cells.2 ⟨_, hlt, rfl⟩)
    have hdm := Nat.div_add_mod (a - b) z
    have hmod := Nat.mod_lt (a - b) hz
    unfold Apart at this
    omega

end Chain
