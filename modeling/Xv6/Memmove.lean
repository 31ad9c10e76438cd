import Mathlib.Logic.Function.Basic
import Xv6.Lib.Bytes

/-!
# `memmove` of the kernel and of the user library

Both versions copy the bytes one by one and in place, forwards or backwards; they differ in the test that picks the direction.
Pointers are 64-bit words, so a pointer to the end of a range that reaches the top of the address space is 0.
-/

namespace Xv6.Memmove

open Function (update update_of_ne)
open Bytes (Mem copy copy_inside)

/-- `while(n-- > 0) *d++ = *s++;` -/
def forward : Nat → Nat → Nat → Mem → Mem
  | 0, _, _, m => m
  | n + 1, d, s, m => forward n ((d + 1) % 2 ^ 64) ((s + 1) % 2 ^ 64) (update m d (m s))

/-- `while(n-- > 0) *--d = *--s;` -/
def backward : Nat → Nat → Nat → Mem → Mem
  | 0, _, _, m => m
  | n + 1, d, s, m =>
    let d' := (d + 2 ^ 64 - 1) % 2 ^ 64
    let s' := (s + 2 ^ 64 - 1) % 2 ^ 64
    backward n d' s' (update m d' (m s'))

/-- `memmove` of `string.c`: the pointer it returns, and the memory after it. -/
def Kernel.memmove (m : Mem) (dst src n : Nat) : Nat × Mem :=
  if n = 0 then (dst, m)
  else if src < dst ∧ (src + n) % 2 ^ 64 > dst then (dst, backward n ((dst + n) % 2 ^ 64) ((src + n) % 2 ^ 64) m)
  else (dst, forward n dst src m)

/-- `memmove` of `ulib.c`, where the length is an `int`. -/
def User.memmove (m : Mem) (dst src : Nat) (n : Int) : Nat × Mem :=
  if src > dst then (dst, forward n.toNat dst src m)
  else (dst, backward n.toNat ((dst + n) % 2 ^ 64).toNat ((src + n) % 2 ^ 64).toNat m)

variable {m m' : Mem} {dst src d s n : Nat}

theorem copy_outside {x : Nat} (h : x < d ∨ d + n ≤ x) : copy m d s n x = m x := Bytes.write_outside h

theorem copy_zero : copy m d s 0 = m := by
  funext x
  exact copy_outside (by omega)

theorem copy_first (h : d ≤ s ∨ s + n < d) :
    copy (update m d (m s)) (d + 1) (s + 1) n = copy m d s (n + 1) := by
  funext x
  by_cases hx : x = d
  · rw [copy_outside (by omega), copy_inside (by omega) (by omega), hx, Function.update_self, Nat.sub_self, Nat.add_zero]
  · by_cases hin : d + 1 ≤ x ∧ x < d + 1 + n
    · rw [copy_inside hin.1 hin.2, copy_inside (by omega) (by omega), update_of_ne (by omega)]
      congr 1
      omega
    · rw [copy_outside (by omega), copy_outside (by omega), update_of_ne hx]

theorem copy_last (h : s ≤ d) :
    copy (update m (d + n) (m (s + n))) d s n = copy m d s (n + 1) := by
  funext x
  by_cases hx : x = d + n
  · rw [copy_outside (by omega), copy_inside (by omega) (by omega), hx, Function.update_self, Nat.add_sub_cancel_left]
  · by_cases hin : d ≤ x ∧ x < d + n
    · rw [copy_inside hin.1 hin.2, copy_inside (by omega) (by omega), update_of_ne (by omega)]
    · rw [copy_outside (by omega), copy_outside (by omega), update_of_ne hx]

/-- Forwards, no byte is overwritten before it is read if the destination is not inside the source, behind its start. -/
theorem forward_eq_copy (hd : d + n ≤ 2 ^ 64) (hs : s + n ≤ 2 ^ 64) (h : d ≤ s ∨ s + n ≤ d) :
    forward n d s m = copy m d s n := by
  induction n generalizing d s m with
  | zero => exact copy_zero.symm
  | succ n ih =>
    rw [forward, ← copy_first (by omega)]
    rcases n with _ | n
    · exact copy_zero.symm
    · rw [Nat.mod_eq_of_lt (show d + 1 < 2 ^ 64 by omega), Nat.mod_eq_of_lt (show s + 1 < 2 ^ 64 by omega)]
      exact ih (by omega) (by omega) (by omega)

theorem backward_eq_copy (hd : d + n ≤ 2 ^ 64) (hs : s + n ≤ 2 ^ 64) (h : s ≤ d) :
    backward n ((d + n) % 2 ^ 64) ((s + n) % 2 ^ 64) m = copy m d s n := by
  induction n generalizing m with
  | zero => exact copy_zero.symm
  | succ n ih =>
    -- the pointer to the end is decremented before the byte is read, also if it is 0
    have hdec : ∀ {a}, a + (n + 1) ≤ 2 ^ 64 → ((a + (n + 1)) % 2 ^ 64 + 2 ^ 64 - 1) % 2 ^ 64 = a + n := by
      intro a ha
      rcases Nat.lt_or_eq_of_le ha with hlt | heq
      · rw [Nat.mod_eq_of_lt hlt]
        omega
      · rw [heq]
        omega
    rw [backward, hdec hd, hdec hs, ← copy_last h]
    have := ih (m := update m (d + n) (m (s + n))) (by omega) (by omega)
    rwa [Nat.mod_eq_of_lt (by omega), Nat.mod_eq_of_lt (by omega)] at this

theorem Kernel.memmove_eq_copy (hd : dst + n ≤ 2 ^ 64) (hs : src + n ≤ 2 ^ 64) :
    Kernel.memmove m dst src n = (dst, copy m dst src n) := by
  unfold Kernel.memmove
  split
  · rename_i hn
    rw [hn, copy_zero]
  · split
    · rw [backward_eq_copy hd hs (by omega)]
    · rename_i hn hdir
      -- the end of the source is not 0 where the test reads it: a destination behind the source would wrap around
      have hsrc : src < dst → src + n < 2 ^ 64 := by omega
      rw [forward_eq_copy hd hs]
      by_contra hcon
      refine hdir ⟨by omega, ?_⟩
      rw [Nat.mod_eq_of_lt (hsrc (by omega))]
      omega

theorem User.memmove_eq_copy (hd : dst + n ≤ 2 ^ 64) (hs : src + n ≤ 2 ^ 64) :
    User.memmove m dst src n = (dst, copy m dst src n) := by
  unfold User.memmove
  split
  · rw [Int.toNat_natCast, forward_eq_copy hd hs (by omega)]
  · have hend : ∀ a : Nat, (((a : Int) + (n : Int)) % 2 ^ 64).toNat = (a + n) % 2 ^ 64 := by
      intro a
      omega
    rw [Int.toNat_natCast, hend, hend, backward_eq_copy hd hs (by omega)]

/-- The `n` bytes at `dst` are those that were at `src`, and all others are as they were. -/
structure Moved (m : Mem) (dst src n : Nat) (m' : Mem) : Prop where
  bytes : ∀ i < n, m' (dst + i) = m (src + i)
  others : ∀ x, x < dst ∨ dst + n ≤ x → m' x = m x

theorem moved_copy : Moved m dst src n (copy m dst src n) where
  bytes i hi := by rw [copy_inside (by omega) (by omega), Nat.add_sub_cancel_left]
  others x hx := copy_outside hx

/-- Whatever the position of the two ranges, both versions move the bytes. -/
theorem memmove_moves (m : Mem) {dst src n : Nat} (hd : dst + n ≤ 2 ^ 64) (hs : src + n ≤ 2 ^ 64) :
    Moved m dst src n (Kernel.memmove m dst src n).2 ∧ Moved m dst src n (User.memmove m dst src n).2 := by
  rw [Kernel.memmove_eq_copy hd hs, User.memmove_eq_copy hd hs]
  exact ⟨moved_copy, moved_copy⟩

/-- Two bytes are moved up by one, at the top of the address space. -/
theorem memmove_moves_top : Moved (fun x => UInt8.ofNat x) (2 ^ 64 - 2) (2 ^ 64 - 3) 2
      (Kernel.memmove (fun x => UInt8.ofNat x) (2 ^ 64 - 2) (2 ^ 64 - 3) 2).2 ∧
    Moved (fun x => UInt8.ofNat x) (2 ^ 64 - 2) (2 ^ 64 - 3) 2
      (User.memmove (fun x => UInt8.ofNat x) (2 ^ 64 - 2) (2 ^ 64 - 3) 2).2 :=
  memmove_moves _ (by decide) (by decide)

end Xv6.Memmove
