import Mathlib.Data.Nat.Bitwise
import Mathlib.Tactic.Common

/-!
# Byte memories

A memory is a total function from addresses to bytes. Every store is a `write` of a block of bytes; `loadLE` reads a
little-endian number back.
-/

namespace Bytes

abbrev Mem := Nat → UInt8

/-- Store the bytes `src 0, …, src (n-1)` at `a`. -/
def write (m : Mem) (a n : Nat) (src : Nat → UInt8) : Mem :=
  fun x => if a ≤ x ∧ x < a + n then src (x - a) else m x

/-- Store `n` copies of the byte `c` at `a`. -/
def fill (m : Mem) (a n : Nat) (c : UInt8) : Mem := write m a n fun _ => c

/-- Copy `n` bytes from `src` to `dst`, reading the source before the first byte is written. -/
def copy (m : Mem) (dst src n : Nat) : Mem := write m dst n fun i => m (src + i)

/-- Store the `n` low bytes of `w` at `a`, least significant first. -/
def storeLE (m : Mem) (a n w : Nat) : Mem := write m a n fun i => UInt8.ofNat (w / 256 ^ i)

/-- The little-endian number in the `n` bytes at `a`. -/
def loadLE (m : Mem) (a : Nat) : Nat → Nat
  | 0 => 0
  | n + 1 => (m a).toNat + 256 * loadLE m (a + 1) n

variable {m m' : Mem} {a b n k w x : Nat} {src : Nat → UInt8} {c : UInt8}

theorem write_inside (h1 : a ≤ x) (h2 : x < a + n) : write m a n src x = src (x - a) := by
  unfold write; rw [if_pos ⟨h1, h2⟩]

theorem write_outside (h : x < a ∨ a + n ≤ x) : write m a n src x = m x := by
  unfold write; rw [if_neg (by omega)]

theorem write_congr {src' : Nat → UInt8} (h : ∀ i < n, src i = src' i) : write m a n src = write m a n src' := by
  funext x
  unfold write
  split
  · exact h _ (by omega)
  · rfl

theorem fill_inside (h1 : a ≤ x) (h2 : x < a + n) : fill m a n c x = c := write_inside h1 h2

theorem fill_outside (h : x < a ∨ a + n ≤ x) : fill m a n c x = m x := write_outside h

theorem copy_inside (h1 : a ≤ x) (h2 : x < a + n) : copy m a b n x = m (b + (x - a)) := write_inside h1 h2

theorem storeLE_outside (h : x < a ∨ a + n ≤ x) : storeLE m a n w x = m x := write_outside h

theorem loadLE_congr (h : ∀ x, a ≤ x → x < a + n → m x = m' x) : loadLE m a n = loadLE m' a n := by
  induction n generalizing a with
  | zero => rfl
  | succ n ih =>
    simp only [loadLE]
    rw [h a (Nat.le_refl _) (by omega), ih fun x h1 h2 => h x (by omega) (by omega)]

theorem loadLE_write_outside (h : b + k ≤ a ∨ a + n ≤ b) : loadLE (write m a n src) b k = loadLE m b k :=
  loadLE_congr fun _ _ _ => write_outside (by omega)

theorem loadLE_storeLE_outside (h : b + k ≤ a ∨ a + n ≤ b) : loadLE (storeLE m a n w) b k = loadLE m b k :=
  loadLE_write_outside h

theorem loadLE_lt (m : Mem) (a n : Nat) : loadLE m a n < 256 ^ n := by
  induction n generalizing a with
  | zero => simp [loadLE]
  | succ n ih =>
    have := ih (a + 1)
    have := UInt8.toNat_lt (m a)
    simp only [loadLE, Nat.pow_succ]
    omega

theorem loadLE_digits (h : ∀ i < n, m (a + i) = UInt8.ofNat (w / 256 ^ i)) :
    loadLE m a n = w % 256 ^ n := by
  induction n generalizing a w with
  | zero => simp [loadLE, Nat.mod_one]
  | succ n ih =>
    have h0 : m a = UInt8.ofNat w := by simpa using h 0 (by omega)
    have h1 : loadLE m (a + 1) n = w / 256 % 256 ^ n := by
      apply ih
      intro i hi
      rw [Nat.add_assoc, Nat.add_comm 1 i, h (i + 1) (by omega), Nat.pow_succ, Nat.mul_comm, Nat.div_div_eq_div_mul]
    rw [loadLE, h0, h1, UInt8.toNat_ofNat', Nat.pow_succ (n := 256) (m := n), Nat.mul_comm (256 ^ n) 256, Nat.mod_mul]

theorem loadLE_storeLE (m : Mem) (a n w : Nat) : loadLE (storeLE m a n w) a n = w % 256 ^ n := by
  apply loadLE_digits
  intro i hi
  unfold storeLE
  rw [write_inside (by omega) (by omega), Nat.add_sub_cancel_left]

theorem loadLE_zero (h : ∀ x, a ≤ x → x < a + n → m x = 0) : loadLE m a n = 0 := by
  have h : ∀ i < n, m (a + i) = UInt8.ofNat (0 / 256 ^ i) := by
    intro i hi
    rw [h _ (by omega) (by omega)]; simp
  rw [loadLE_digits h, Nat.zero_mod]

theorem loadLE_fill_zero (h1 : a ≤ b) (h2 : b + k ≤ a + n) : loadLE (fill m a n 0) b k = 0 :=
  loadLE_zero fun _ _ _ => fill_inside (by omega) (by omega)

end Bytes
