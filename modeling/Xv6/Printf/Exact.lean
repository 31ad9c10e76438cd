import Xv6.Printf.Code

/-!
# What the conversions print

`printint` prints the canonical numeral of the number that it is given, when this fits into its buffer of 16 characters. That is
not always the argument: the kernel extends an `int` with its sign under the unsigned conversions too, and the user library cuts
every argument to 32 bits.
-/

namespace Xv6.Printf

open Numeral (IsNumeral)

/-- The text of a number: a minus if it is negative, and the characters of its digits. -/
def shown (digits : List UInt8) (base : Base) (v : Int) : Str :=
  (if v < 0 then [45] else []) ++ (Numeral.digits base.val v.natAbs).map (digitAt digits)

/-- The text is the canonical numeral of `v`. -/
def Shows (digits : List UInt8) (base : Base) (text : Str) (v : Int) : Prop :=
  ∃ ds, IsNumeral base.val ds v.natAbs ∧ text = (if v < 0 then [45] else []) ++ ds.map (digitAt digits)

/-- The table has different characters for the digits, and the minus is none of them. -/
structure Table (digits : List UInt8) : Prop where
  injOn : ∀ d < 16, ∀ d' < 16, digitAt digits d = digitAt digits d' → d = d'
  minus : ∀ d < 16, digitAt digits d ≠ 45

theorem table_lower : Table lower := ⟨by decide, by decide⟩

theorem table_upper : Table upper := ⟨by decide, by decide⟩

variable {digits : List UInt8} {base : Base} {v v' : Int} {text : Str} {w : Nat} {sign : Bool} {xx : BitVec w}

theorem Base.val_le (base : Base) : base.val ≤ 16 := by cases base <;> decide

theorem shows_iff : Shows digits base text v ↔ text = shown digits base v := by
  constructor
  · rintro ⟨ds, hds, rfl⟩
    rw [hds.eq_digits base.one_lt, shown]
  · rintro rfl
    exact ⟨_, Numeral.isNumeral_digits base.one_lt _, rfl⟩

theorem map_digitAt_injective (ht : Table digits) : ∀ {l l' : List Nat}, (∀ d ∈ l, d < 16) → (∀ d ∈ l', d < 16) →
    l.map (digitAt digits) = l'.map (digitAt digits) → l = l' := by
  intro l
  induction l with
  | nil => simp
  | cons d l ih =>
    intro l' hl hl' h
    cases l' with
    | nil => simp at h
    | cons d' l' =>
      obtain ⟨hd, htl⟩ : digitAt digits d = digitAt digits d' ∧ l.map (digitAt digits) = l'.map (digitAt digits) := by
        simpa using h
      rw [ht.injOn d (hl d (by simp)) d' (hl' d' (by simp)) hd,
        ih (fun x hx => hl x (by simp [hx])) (fun x hx => hl' x (by simp [hx])) htl]

theorem shown_injective (ht : Table digits) : Function.Injective (shown digits base) := by
  intro v v' h
  have hlt : ∀ (v : Int), ∀ d ∈ Numeral.digits base.val v.natAbs, d < 16 := fun v d hd =>
    Nat.lt_of_lt_of_le (Numeral.digits_lt base.one_lt d hd) base.val_le
  have hminus : ∀ (v : Int), 45 ∉ (Numeral.digits base.val v.natAbs).map (digitAt digits) := by
    intro v hmem
    obtain ⟨d, hd, h45⟩ := List.mem_map.1 hmem
    exact ht.minus d (hlt v d hd) h45
  have hsame : ∀ {l : List UInt8} {v : Int}, (Numeral.digits base.val v.natAbs).map (digitAt digits) ≠ 45 :: l := by
    intro l v heq
    exact hminus v (heq ▸ List.mem_cons_self ..)
  unfold shown at h
  by_cases hv : v < 0 <;> by_cases hv' : v' < 0 <;> simp only [hv, hv', if_true, if_false, List.nil_append] at h
  · have := Numeral.digits_injective base.one_lt (map_digitAt_injective ht (hlt v) (hlt v') (List.append_cancel_left h))
    omega
  · exact absurd h.symm hsame
  · exact absurd h hsame
  · have := Numeral.digits_injective base.one_lt (map_digitAt_injective ht (hlt v) (hlt v') h)
    omega

theorem storeDigits_eq (x : Nat) (buf : Str) : storeDigits digits base x buf =
    if buf.length + (Numeral.digits base.val x).length ≤ BUFSIZE then
      some (buf ++ ((Numeral.digits base.val x).map (digitAt digits)).reverse)
    else none := by
  induction x using Nat.strongRecOn generalizing buf with
  | _ x ih =>
    rw [storeDigits, store, Numeral.digits_eq base.one_lt]
    by_cases hdiv : x / base.val = 0
    · by_cases hlt : buf.length < BUFSIZE
      · simp [hdiv, hlt, Nat.succ_le_of_lt hlt]
      · simp [hdiv, hlt]
    · have hx : x / base.val < x := Nat.div_lt_self (by rcases Nat.eq_zero_or_pos x with rfl | h <;> simp_all) base.one_lt
      by_cases hlt : buf.length < BUFSIZE
      · simp only [hlt, if_true, Option.bind_eq_bind, Option.bind_some, ne_eq, hdiv, not_false_eq_true, if_false, ih _ hx]
        simp [Nat.add_assoc, Nat.add_comm]
      · simp only [hlt, if_false, hdiv, List.length_append, List.length_singleton]
        rw [if_neg (by omega)]
        rfl

theorem valueOf_lt_zero_iff : valueOf sign xx < 0 ↔ (sign && decide (xx.toInt < 0)) = true := by
  cases sign
  · simp [valueOf]
  · simp [valueOf]

theorem toNat_abs (sign : Bool) (xx : BitVec w) :
    (if (sign && decide (xx.toInt < 0)) = true then -xx else xx).toNat = (valueOf sign xx).natAbs := by
  have hlt := xx.isLt
  cases sign with
  | false => simp [valueOf]
  | true =>
    simp only [valueOf, Bool.true_and, decide_eq_true_eq, if_true]
    rw [BitVec.toInt_eq_toNat_cond]
    split
    · rw [if_neg (by omega), Int.natAbs_natCast]
    · rw [if_pos (by omega), BitVec.toNat_neg, Nat.mod_eq_of_lt (by omega)]
      omega

theorem printintWith_eq (xx : BitVec w) (sign : Bool) : printintWith digits xx base sign =
    if (shown digits base (valueOf sign xx)).length ≤ BUFSIZE then some (shown digits base (valueOf sign xx)) else none := by
  unfold printintWith shown
  simp only [toNat_abs, storeDigits_eq, valueOf_lt_zero_iff]
  generalize Numeral.digits base.val (valueOf sign xx).natAbs = ds
  by_cases hneg : (sign && decide (xx.toInt < 0)) = true
  · by_cases hfit : ds.length < BUFSIZE
    · simp [hneg, store, hfit, Nat.le_of_lt hfit, Nat.succ_le_of_lt hfit]
    · have hlong : ¬ds.length + 1 ≤ BUFSIZE := by omega
      by_cases hall : ds.length ≤ BUFSIZE <;> simp [hneg, store, hfit, hall]
  · by_cases hfit : ds.length ≤ BUFSIZE <;> simp [hneg, hfit]

variable {c : Conv} {a : BitVec 64} {mem : BitVec 64 → Str}

theorem shown_length_le_iff (digits : List UInt8) : (shown digits base v).length ≤ BUFSIZE ↔ -(base.val ^ 15 : Nat) < v ∧ v < (base.val ^ 16 : Nat) := by
  unfold shown
  by_cases hv : v < 0
  · have := Numeral.length_digits_le_iff (n := v.natAbs) (k := 15) base.one_lt (by decide)
    simp only [hv, if_true, List.length_append, List.length_singleton, List.length_map, BUFSIZE]
    omega
  · have := Numeral.length_digits_le_iff (n := v.natAbs) (k := 16) base.one_lt (by decide)
    simp only [hv, if_false, List.nil_append, List.length_map, BUFSIZE]
    have hpos : 0 < base.val ^ 15 := Nat.pow_pos (by have := base.one_lt; omega)
    omega

theorem printintWith_shows_iff (ht : Table digits) :
    (∃ text, printintWith digits xx base sign = some text ∧ Shows digits base text v) ↔
      valueOf sign xx = v ∧ -(base.val ^ 15 : Nat) < v ∧ v < (base.val ^ 16 : Nat) := by
  simp only [shows_iff, exists_eq_right, printintWith_eq, ← shown_length_le_iff digits]
  constructor
  · intro h
    split at h
    · rename_i hfit
      obtain rfl := shown_injective ht (Option.some.inj h)
      exact ⟨rfl, hfit⟩
    · cases h
  · rintro ⟨rfl, hfit⟩
    exact if_pos hfit

namespace Kernel

theorem printf_conv : printf mem c.text [a] = printArg c.isLong a c.base c.signed := by
  rcases c with ⟨_ | _ | _, _ | _ | _⟩ <;>
    simp [printf, printfLoop, Conv.text, Conv.letter, Conv.base, Conv.signed, Conv.isLong, directive, output,
      Option.bind_map]

def Fits (c : Conv) (a : BitVec 64) : Prop :=
  match c.kind, c.isLong with
  | .d, false => True
  | .d, true => -10 ^ 15 < c.value a ∧ c.value a < 10 ^ 16
  | .u, false => c.value a < 2 ^ 31
  | .u, true => c.value a < 10 ^ 16
  | .x, false => c.value a < 2 ^ 31
  | .x, true => True

theorem toNat_signExtend_eq_iff (x : BitVec 32) : (x.signExtend 64).toNat = x.toNat ↔ x.toNat < 2 ^ 31 := by
  have hlt := x.isLt
  rw [BitVec.toNat_signExtend, BitVec.msb_eq_decide, BitVec.toNat_setWidth, Nat.mod_eq_of_lt (by omega)]
  by_cases h : 2 ^ 31 ≤ x.toNat
  · rw [if_pos (by simpa using h)]
    omega
  · rw [if_neg (by simpa using h)]
    omega

/-- `printf` prints the canonical numeral of its argument and `printint` stays within its buffer exactly for the arguments that
fit. -/
theorem printf_exact_iff (mem : BitVec 64 → Str) (c : Conv) (a : BitVec 64) :
    (∃ text, printf mem c.text [a] = some text ∧ Shows lower c.base text (c.value a)) ↔ Fits c a := by
  have h32 := (a.setWidth 32).isLt
  have h64 := a.isLt
  have hint32 := BitVec.toInt_lt (x := a.setWidth 32)
  have hint32' := BitVec.le_toInt (a.setWidth 32)
  have hext := toNat_signExtend_eq_iff (a.setWidth 32)
  have hsign := BitVec.toInt_signExtend_of_le (x := a.setWidth 32) (show 32 ≤ 64 by decide)
  rw [printf_conv, printArg, printint, printintWith_shows_iff table_lower]
  rcases c with ⟨_ | _ | _, _ | _ | _⟩ <;>
    simp only [Conv.isLong, Conv.signed, Conv.base, Conv.value, Fits, valueOf, Base.val, reduceCtorEq, ne_eq, not_true_eq_false,
      not_false_eq_true, decide_true, decide_false, if_true, if_false, Bool.false_eq_true, true_and,
      iff_true] <;>
    omega

theorem printArg_none {long : Bool}
    (h : (base.val ^ 16 : Nat) ≤ valueOf sign (if long then a else (a.setWidth 32).signExtend 64)) :
    printArg long a base sign = none := by
  rw [printArg, printint, printintWith_eq, if_neg]
  rw [shown_length_le_iff]
  omega

/-- The largest 64-bit number has 20 digits, four of which are stored behind the buffer; the same happens to the `unsigned`
number `0xffffffff` under `%u`, and under `%x` it is printed as if it were `0xffffffffffffffff`. -/
theorem printf_max : printf (fun _ => []) (Conv.mk .long .u).text [0xffffffffffffffff] = none ∧
    printf (fun _ => []) (Conv.mk .int .u).text [0xffffffff] = none ∧
    printf (fun _ => []) (Conv.mk .int .x).text [0xffffffff] =
      printf (fun _ => []) (Conv.mk .long .x).text [0xffffffffffffffff] := by
  simp only [printf_conv]
  exact ⟨printArg_none (by decide), printArg_none (by decide), rfl⟩

end Kernel

namespace User

theorem vprintf_conv : vprintf mem c.text [a] = printArg c.isLong a c.base c.signed := by
  rcases c with ⟨_ | _ | _, _ | _ | _⟩ <;>
    simp [vprintf, vprintfLoop, Conv.text, Conv.letter, Conv.base, Conv.signed, Conv.isLong, directive, output,
      Option.bind_map]

def InRange (c : Conv) (a : BitVec 64) : Prop :=
  match c.kind with
  | .d => -2 ^ 31 ≤ c.value a ∧ c.value a < 2 ^ 31
  | .u => c.value a < 2 ^ 32
  | .x => c.value a < 2 ^ 32

theorem printint_eq (xx : BitVec 32) (sgn : Bool) : printint xx base sgn = some (shown upper base (valueOf sgn xx)) := by
  have hlt := xx.isLt
  have hint := BitVec.toInt_lt (x := xx)
  have hint' := BitVec.le_toInt xx
  rw [printint, printintWith_eq, if_pos]
  rw [shown_length_le_iff]
  cases base <;> cases sgn <;> simp only [valueOf, Base.val, if_true, if_false, Bool.false_eq_true] <;> omega

/-- `vprintf` never makes `printint` write outside of its buffer, and what it prints is the canonical numeral of the argument
exactly when the argument is a 32-bit number. -/
theorem vprintf_exact_iff (mem : BitVec 64 → Str) (c : Conv) (a : BitVec 64) :
    ∃ text, vprintf mem c.text [a] = some text ∧ (Shows upper c.base text (c.value a) ↔ InRange c a) := by
  have h32 := (a.setWidth 32).isLt
  have hcut : (a.setWidth 32).toNat = a.toNat % 2 ^ 32 := BitVec.toNat_setWidth ..
  have hint32 := BitVec.toInt_eq_toNat_cond (a.setWidth 32)
  have hint64 := BitVec.toInt_eq_toNat_cond a
  refine ⟨_, by rw [vprintf_conv, printArg, printint_eq], ?_⟩
  rw [shows_iff, (shown_injective table_upper).eq_iff]
  rcases c with ⟨_ | _ | _, _ | _ | _⟩ <;>
    simp only [Conv.isLong, Conv.signed, Conv.value, InRange, valueOf, reduceCtorEq, ne_eq, not_true_eq_false, not_false_eq_true,
      decide_true, decide_false, if_true, if_false, Bool.false_eq_true, true_iff] <;>
    omega

/-- The high half of a page-table address is lost. -/
theorem vprintf_drops_high : vprintf (fun _ => []) (Conv.mk .long .x).text [0x100000000] = some [48] ∧
    (Conv.mk .long .x).value 0x100000000 = 0x100000000 := by
  constructor
  · rw [vprintf_conv]
    simp [printArg, printint, printintWith, Conv.base, Conv.signed, Base.val, storeDigits, store, digitAt, upper]
  · rfl

end User

namespace User

theorem atoiLoop_digit (n : BitVec 32) {d : Nat} (hd : d < 10) (t : Str) :
    atoiLoop n (digitAt upper d :: t) = atoiLoop (n * 10 + d) t := by
  have hc : (48 ≤ digitAt upper d ∧ digitAt upper d ≤ 57) ∧ ((digitAt upper d).toNat : BitVec 32) = d + 48 := by
    revert d
    decide
  rw [atoiLoop, if_pos hc.1, hc.2]
  congr 1
  bv_omega

theorem atoiLoop_numeral (x : Nat) (t : Str) : atoiLoop 0 ((Numeral.digits 10 x).map (digitAt upper) ++ t) = atoiLoop x t := by
  induction x using Nat.strongRecOn generalizing t with
  | _ x ih =>
    have hmod : x % 10 < 10 := Nat.mod_lt _ (by decide)
    rw [Numeral.digits_eq (by decide)]
    by_cases hdiv : x / 10 = 0
    · rw [if_pos hdiv, List.map_singleton, List.singleton_append, atoiLoop_digit _ hmod, Nat.mod_eq_of_lt (by omega)]
      simp
    · rw [if_neg hdiv, List.map_append, List.append_assoc, ih _ (by omega), List.map_singleton, List.singleton_append,
        atoiLoop_digit _ hmod]
      congr 1
      apply BitVec.eq_of_toNat_eq
      simp
      omega

/-- `atoi` reads back what `%d` and `%u` print, when no digit follows; it takes a negative number for 0. -/
theorem atoi_printint (xx : BitVec 32) (sgn : Bool) (t : Str) (ht : ∀ c ∈ t.head?, ¬(48 ≤ c ∧ c ≤ 57)) :
    ∃ out, printint xx .dec sgn = some out ∧ atoi (out ++ t) = if sgn = true ∧ xx.toInt < 0 then 0 else xx := by
  have hend : ∀ x, atoiLoop x t = x := by
    intro x
    cases t with
    | nil => rfl
    | cons c t => exact if_neg (ht c rfl)
  have hlt := xx.isLt
  have hval : valueOf sgn xx = if sgn = true ∧ xx.toInt < 0 then (xx.toNat - 2 ^ 32 : Int) else (xx.toNat : Int) := by
    cases sgn <;> simp [valueOf, BitVec.toInt_eq_toNat_cond]
    grind
  have hfit : (shown upper .dec (valueOf sgn xx)).length ≤ BUFSIZE := by
    rw [shown_length_le_iff, hval]
    simp only [Base.val]
    split <;> omega
  refine ⟨shown upper .dec (valueOf sgn xx), ?_, ?_⟩
  · rw [printint, printintWith_eq, if_pos hfit]
  · rw [shown, hval, atoi]
    split
    · rw [if_pos (by omega)]
      rfl
    · rw [if_neg (by omega), List.nil_append, Int.natAbs_natCast]
      exact (atoiLoop_numeral _ t).trans ((hend _).trans (by simp))

theorem atoi_printint_signs : (∃ out, printint 42 .dec true = some out ∧ atoi (out ++ [10]) = 42) ∧
    ∃ out, printint (-7) .dec true = some out ∧ atoi (out ++ [10]) = 0 :=
  ⟨atoi_printint 42 true [10] (by rintro c ⟨⟩; decide), atoi_printint (-7) true [10] (by rintro c ⟨⟩; decide)⟩

end User

end Xv6.Printf
