import Mathlib.Data.Nat.ModEq
import Mathlib.Data.Nat.Bitwise
import Mathlib.Logic.Function.Basic

/-!
# Ring buffers with free-running counters

A ring of `c` cells with two `w`-bit counters that are never reduced modulo `c`: `head` counts what has been taken out and
`tail` what has been put in. When `c` divides `2 ^ w` a counter still names the right cell after it has wrapped, and the
ring holds a queue of at most `c` elements.
-/

/-- A ring buffer; the cells in use are the residues of the counters modulo the capacity. -/
structure RingBuf (w : Nat) (α : Type) where
  data : Nat → α
  head : BitVec w
  tail : BitVec w

namespace RingBuf

variable {w c : Nat} {α : Type} {r : RingBuf w α} {x : α}

/-- How many elements the ring holds. -/
def size (r : RingBuf w α) : Nat := (r.tail - r.head).toNat

/-- The elements of the ring, the oldest first. -/
def toList (c : Nat) (r : RingBuf w α) : List α := (List.range r.size).map fun j => r.data ((r.head.toNat + j) % c)

def front (c : Nat) (r : RingBuf w α) : α := r.data (r.head.toNat % c)

def put (c : Nat) (r : RingBuf w α) (x : α) : RingBuf w α :=
  { r with data := Function.update r.data (r.tail.toNat % c) x, tail := r.tail + 1 }

def take (r : RingBuf w α) : RingBuf w α := { r with head := r.head + 1 }

/-- Takes back the element that was put in last. -/
def unput (r : RingBuf w α) : RingBuf w α := { r with tail := r.tail - 1 }

theorem length_toList : (r.toList c).length = r.size := by simp [toList]

theorem size_lt : r.size < 2 ^ w := BitVec.isLt _

theorem head_eq_tail_iff : r.head = r.tail ↔ r.size = 0 := by
  unfold size
  constructor
  · intro h
    simp [h]
  · intro h
    have h0 : r.tail - r.head = 0 := BitVec.eq_of_toNat_eq (by simpa using h)
    exact (BitVec.sub_eq_iff_eq_add.1 h0).symm ▸ (BitVec.zero_add _).symm

theorem tail_eq : r.tail = r.head + BitVec.ofNat w r.size := by
  unfold size
  rw [BitVec.ofNat_toNat, BitVec.setWidth_eq, BitVec.add_comm, BitVec.sub_add_cancel]

theorem tail_eq_add_iff (hc : c < 2 ^ w) : r.tail = r.head + BitVec.ofNat w c ↔ r.size = c := by
  constructor
  · intro h
    unfold size
    rw [h, BitVec.add_comm, BitVec.add_sub_cancel, BitVec.toNat_ofNat, Nat.mod_eq_of_lt hc]
  · intro h
    rw [← h]
    exact tail_eq

theorem cell_add (hc : c ∣ 2 ^ w) (a : BitVec w) (k j : Nat) :
    ((a + BitVec.ofNat w k).toNat + j) % c = (a.toNat + k + j) % c := by
  rw [BitVec.toNat_add, BitVec.toNat_ofNat, Nat.add_mod_mod, Nat.add_mod, Nat.mod_mod_of_dvd _ hc, ← Nat.add_mod]

theorem size_put (h : r.size + 1 < 2 ^ w) : (r.put c x).size = r.size + 1 := by
  have ht : (r.put c x).tail = r.head + BitVec.ofNat w (r.size + 1) := by
    show r.tail + 1 = _
    rw [tail_eq, BitVec.ofNat_add, BitVec.add_assoc]
    rfl
  have hput : (r.put c x).head = r.head := rfl
  rw [← hput] at ht
  exact (tail_eq_add_iff h).1 ht

theorem size_take (h : r.size ≠ 0) : r.take.size + 1 = r.size := by
  have hlt := r.size_lt
  have ht : r.take.tail = r.take.head + BitVec.ofNat w (r.size - 1) := by
    show r.tail = r.head + 1 + _
    rw [BitVec.add_assoc, show (1 : BitVec w) = BitVec.ofNat w 1 from rfl, ← BitVec.ofNat_add,
      show 1 + (r.size - 1) = r.size by omega]
    exact tail_eq
  have := (tail_eq_add_iff (by omega)).1 ht
  omega

theorem tail_cell (hc : c ∣ 2 ^ w) : r.tail.toNat % c = (r.head.toNat + r.size) % c := by
  have := cell_add hc r.head r.size 0
  rwa [← tail_eq] at this

theorem cell_ne_tail (hc : c ∣ 2 ^ w) (h : r.size < c) {j : Nat} (hj : j < r.size) :
    (r.head.toNat + j) % c ≠ r.tail.toNat % c := by
  intro heq
  have : j ≡ r.size [MOD c] := Nat.ModEq.add_left_cancel' r.head.toNat (heq.trans (tail_cell hc))
  rw [Nat.ModEq, Nat.mod_eq_of_lt (by omega), Nat.mod_eq_of_lt h] at this
  omega

theorem data_put_of_lt (hc : c ∣ 2 ^ w) (h : r.size < c) {j : Nat} (hj : j < r.size) :
    (r.put c x).data ((r.head.toNat + j) % c) = r.data ((r.head.toNat + j) % c) :=
  Function.update_of_ne (cell_ne_tail hc h hj) _ _

theorem toList_put (hc : c ∣ 2 ^ w) (hcw : c < 2 ^ w) (h : r.size < c) :
    (r.put c x).toList c = r.toList c ++ [x] := by
  unfold toList
  rw [size_put (by omega), List.range_succ, List.map_append, List.map_singleton]
  congr 1
  · apply List.map_congr_left
    intro j hj
    exact data_put_of_lt hc h (List.mem_range.1 hj)
  · show [Function.update r.data _ x ((r.head.toNat + r.size) % c)] = [x]
    rw [tail_cell hc, Function.update_self]

theorem toList_take (hc : c ∣ 2 ^ w) (h : r.size ≠ 0) : r.toList c = r.front c :: r.take.toList c := by
  unfold toList
  rw [← size_take h, List.range_succ_eq_map, List.map_cons, List.map_map]
  congr 1
  apply List.map_congr_left
  intro j _
  show r.data ((r.head.toNat + (j + 1)) % c) = r.data (((r.head + 1).toNat + j) % c)
  rw [show (1 : BitVec w) = BitVec.ofNat w 1 from rfl, cell_add hc, Nat.add_assoc, Nat.add_comm 1 j]

theorem size_unput (h : r.size ≠ 0) : r.unput.size + 1 = r.size := by
  have hlt := r.size_lt
  have ht : r.unput.tail = r.unput.head + BitVec.ofNat w (r.size - 1) := by
    show r.tail - 1 = r.head + _
    rw [BitVec.sub_eq_iff_eq_add, BitVec.add_assoc, show (1 : BitVec w) = BitVec.ofNat w 1 from rfl, ← BitVec.ofNat_add,
      show r.size - 1 + 1 = r.size by omega]
    exact tail_eq
  have := (tail_eq_add_iff (by omega)).1 ht
  omega

theorem toList_unput (hc : c ∣ 2 ^ w) (h : r.size ≠ 0) :
    r.toList c = r.unput.toList c ++ [r.data (r.unput.tail.toNat % c)] := by
  rw [tail_cell hc]
  unfold toList
  rw [← size_unput h, List.range_succ, List.map_append, List.map_singleton]
  rfl

end RingBuf
