import Mathlib.Data.Nat.Digits.Lemmas

/-!
# Positional numerals

The numeral of a number in a base is the list of its digits, the most significant first. It has no leading zero, and zero has
one digit.
-/

namespace Numeral

variable {b n k : Nat} {l : List Nat}

/-- The digits of `n`, the most significant first. -/
def digits (b n : Nat) : List Nat := if n = 0 then [0] else (Nat.digits b n).reverse

/-- `l` is the numeral of `n`: the canonical list of digits that has this value. -/
structure IsNumeral (b : Nat) (l : List Nat) (n : Nat) : Prop where
  lt : ∀ d ∈ l, d < b
  ne_nil : l ≠ []
  lead : l.head? = some 0 → l = [0]
  value : Nat.ofDigits b l.reverse = n

theorem digits_zero : digits b 0 = [0] := if_pos rfl

theorem digits_of_pos (hn : n ≠ 0) : digits b n = (Nat.digits b n).reverse := if_neg hn

theorem digits_eq (hb : 1 < b) (n : Nat) : digits b n = if n / b = 0 then [n % b] else digits b (n / b) ++ [n % b] := by
  by_cases hn : n = 0
  · simp [hn, digits_zero]
  · rw [digits_of_pos hn, Nat.digits_eq_cons_digits_div hb hn, List.reverse_cons]
    split
    · rename_i hdiv
      rw [hdiv, Nat.digits_zero, List.reverse_nil, List.nil_append]
    · rename_i hdiv
      rw [digits_of_pos hdiv]

theorem isNumeral_digits (hb : 1 < b) (n : Nat) : IsNumeral b (digits b n) n := by
  by_cases hn : n = 0
  · subst hn
    rw [digits_zero]
    exact ⟨by simp; omega, by simp, by simp, by simp⟩
  · rw [digits_of_pos hn]
    have hne : Nat.digits b n ≠ [] := Nat.digits_ne_nil_iff_ne_zero.2 hn
    refine ⟨fun d hd => Nat.digits_lt_base hb (List.mem_reverse.1 hd), by simpa using hne, fun h => ?_, ?_⟩
    · rw [List.head?_reverse, List.getLast?_eq_getLast_of_ne_nil hne] at h
      exact absurd (Option.some.inj h) (Nat.getLast_digit_ne_zero b hn)
    · rw [List.reverse_reverse, Nat.ofDigits_digits]

theorem IsNumeral.eq_digits (hb : 1 < b) (h : IsNumeral b l n) : l = digits b n := by
  by_cases hlead : l.head? = some 0
  · have hl := h.lead hlead
    subst hl
    have hn : n = 0 := by rw [← h.value]; simp
    rw [hn, digits_zero]
  · have hval := Nat.digits_ofDigits b hb l.reverse (fun d hd => h.lt d (List.mem_reverse.1 hd)) (by
      intro hne
      rw [List.getLast_reverse]
      exact fun h0 => hlead (by rw [List.head?_eq_some_head h.ne_nil, h0]))
    rw [h.value] at hval
    have hn : n ≠ 0 := by
      rintro rfl
      exact h.ne_nil (List.reverse_eq_nil_iff.1 (hval.symm.trans (Nat.digits_zero b)))
    rw [digits_of_pos hn, hval, List.reverse_reverse]

theorem digits_injective (hb : 1 < b) : Function.Injective (digits b) := by
  intro n n' h
  rw [← (isNumeral_digits hb n).value, h, (isNumeral_digits hb n').value]

theorem digits_lt (hb : 1 < b) : ∀ d ∈ digits b n, d < b := (isNumeral_digits hb n).lt

theorem length_digits_le_iff (hb : 1 < b) (hk : 0 < k) : (digits b n).length ≤ k ↔ n < b ^ k := by
  by_cases hn : n = 0
  · subst hn
    rw [digits_zero]
    exact iff_of_true hk (Nat.pow_pos (by omega))
  · rw [digits_of_pos hn, List.length_reverse, Nat.digits_length_le_iff hb]

end Numeral
