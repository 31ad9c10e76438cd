import Xv6.Lib.Numeral

/-!
# Formatted output (`kernel/printf.c`, `user/printf.c`)

The arguments behind the format are 64-bit slots, of which `va_arg(ap, int)` reads the low half. A format is the list of its
bytes before the NUL. The result is what is printed, or `none` when `printint` stores a character outside of its buffer.
-/

namespace Xv6.Printf

abbrev Str := List UInt8

/-- The bases with which `printint` is called. -/
inductive Base where
  | dec
  | hex
  deriving DecidableEq

def Base.val : Base → Nat
  | .dec => 10
  | .hex => 16

theorem Base.one_lt (base : Base) : 1 < base.val := by cases base <;> decide

abbrev BUFSIZE : Nat := 16

def lower : List UInt8 := [48, 49, 50, 51, 52, 53, 54, 55, 56, 57, 97, 98, 99, 100, 101, 102]

def upper : List UInt8 := [48, 49, 50, 51, 52, 53, 54, 55, 56, 57, 65, 66, 67, 68, 69, 70]

def digitAt (digits : List UInt8) (d : Nat) : UInt8 := digits.getD d 0

def store (buf : Str) (c : UInt8) : Option Str := if buf.length < BUFSIZE then some (buf ++ [c]) else none

def storeDigits (digits : List UInt8) (base : Base) (x : Nat) (buf : Str) : Option Str := do
  let buf ← store buf (digitAt digits (x % base.val))
  if x / base.val ≠ 0 then storeDigits digits base (x / base.val) buf else return buf
termination_by x
decreasing_by
  have := base.one_lt
  exact Nat.div_lt_self (by rcases Nat.eq_zero_or_pos x with rfl | h <;> simp_all) this

/-- The two functions `printint`, which differ in the width of the number and in the table of the digits. -/
def printintWith {w : Nat} (digits : List UInt8) (xx : BitVec w) (base : Base) (sign : Bool) : Option Str := do
  let neg := sign && decide (xx.toInt < 0)
  let x := if neg then -xx else xx
  let buf ← storeDigits digits base x.toNat []
  let buf ← if neg then store buf 45 else some buf
  return buf.reverse

def ptrDigits (digits : List UInt8) (x : BitVec 64) : Nat → Str
  | 0 => []
  | i + 1 => digitAt digits (x >>> 60).toNat :: ptrDigits digits (x <<< 4) i

def printptrWith (digits : List UInt8) (x : BitVec 64) : Str := 48 :: 120 :: ptrDigits digits x 16

/-- What a `%` sequence asks for; `long` says whether the argument is read as a `uint64`. -/
inductive Directive where
  | num (long : Bool) (base : Base) (sign : Bool)
  | ptr
  | str
  | percent
  | unknown
  deriving DecidableEq

def directive (c0 c1 c2 : UInt8) : Directive × Nat :=
  if c0 = 100 then (.num false .dec true, 0)
  else if c0 = 108 ∧ c1 = 100 then (.num true .dec true, 1)
  else if c0 = 108 ∧ c1 = 108 ∧ c2 = 100 then (.num true .dec true, 2)
  else if c0 = 117 then (.num false .dec false, 0)
  else if c0 = 108 ∧ c1 = 117 then (.num true .dec false, 1)
  else if c0 = 108 ∧ c1 = 108 ∧ c2 = 117 then (.num true .dec false, 2)
  else if c0 = 120 then (.num false .hex false, 0)
  else if c0 = 108 ∧ c1 = 120 then (.num true .hex false, 1)
  else if c0 = 108 ∧ c1 = 108 ∧ c2 = 120 then (.num true .hex false, 2)
  else if c0 = 112 then (.ptr, 0)
  else if c0 = 115 then (.str, 0)
  else if c0 = 37 then (.percent, 0)
  else (.unknown, 0)

def null : Str := [40, 110, 117, 108, 108, 41]

def strArg (mem : BitVec 64 → Str) (a : BitVec 64) : Str := if a = 0 then null else mem a

def output (printint : Bool → BitVec 64 → Base → Bool → Option Str) (digits : List UInt8) (mem : BitVec 64 → Str) (c0 : UInt8)
    (ap : List (BitVec 64)) : Directive → Option (Str × List (BitVec 64))
  | .num long base sign => (printint long (ap.headD 0) base sign).map (·, ap.tail)
  | .ptr => some (printptrWith digits (ap.headD 0), ap.tail)
  | .str => some (strArg mem (ap.headD 0), ap.tail)
  | .percent => some ([37], ap)
  | .unknown => some ([37, c0], ap)

namespace Kernel

def printint (xx : BitVec 64) (base : Base) (sign : Bool) : Option Str := printintWith lower xx base sign

/-- The call of `printint` for an argument: `va_arg(ap, int)` is converted to `long long` with its sign. -/
def printArg (long : Bool) (a : BitVec 64) (base : Base) (sign : Bool) : Option Str :=
  printint (if long then a else (a.setWidth 32).signExtend 64) base sign

def printfLoop (mem : BitVec 64 → Str) (fmt : Str) (ap : List (BitVec 64)) : Option Str :=
  match fmt with
  | [] => some []
  | cx :: fmt =>
    if cx ≠ 37 then (printfLoop mem fmt ap).map (cx :: ·)
    else match fmt with
      | [] => some []
      | c0 :: fmt => do
        let d := directive c0 (fmt.getD 0 0) (fmt.getD 1 0)
        let (out, ap) ← output printArg lower mem c0 ap d.1
        return out ++ (← printfLoop mem (fmt.drop d.2) ap)
termination_by fmt.length
decreasing_by all_goals simp; try omega

def printf (mem : BitVec 64 → Str) (fmt : Str) (args : List (BitVec 64)) : Option Str := printfLoop mem fmt args

end Kernel

namespace User

def printint (xx : BitVec 32) (base : Base) (sgn : Bool) : Option Str := printintWith upper xx base sgn

/-- The call of `printint` for an argument: both `va_arg(ap, int)` and the conversion of a `uint64` to the parameter of type
`int` keep the low half. -/
def printArg (_long : Bool) (a : BitVec 64) (base : Base) (sgn : Bool) : Option Str := printint (a.setWidth 32) base sgn

def vprintfLoop (mem : BitVec 64 → Str) (state : Bool) (fmt : Str) (ap : List (BitVec 64)) : Option Str :=
  match fmt with
  | [] => some []
  | c0 :: fmt =>
    if state = false then
      if c0 = 37 then vprintfLoop mem true fmt ap else (vprintfLoop mem false fmt ap).map (c0 :: ·)
    else do
      let d := directive c0 (fmt.getD 0 0) (fmt.getD 1 0)
      let (out, ap) ← output printArg upper mem c0 ap d.1
      return out ++ (← vprintfLoop mem false (fmt.drop d.2) ap)
termination_by fmt.length
decreasing_by all_goals simp; try omega

def vprintf (mem : BitVec 64 → Str) (fmt : Str) (ap : List (BitVec 64)) : Option Str := vprintfLoop mem false fmt ap

/-- The loop of `atoi` (`ulib.c`); an `int` wraps. -/
def atoiLoop (n : BitVec 32) : Str → BitVec 32
  | [] => n
  | c :: s => if 48 ≤ c ∧ c ≤ 57 then atoiLoop (n * 10 + c.toNat - 48) s else n

def atoi (s : Str) : BitVec 32 := atoiLoop 0 s

end User

inductive Size where
  | int
  | long
  | longlong
  deriving DecidableEq

inductive Kind where
  | d
  | u
  | x
  deriving DecidableEq

/-- A conversion of a number: `%d`, `%u`, `%x`, with `l` or with `ll`. -/
structure Conv where
  size : Size
  kind : Kind
  deriving DecidableEq

def Conv.letter (c : Conv) : UInt8 :=
  match c.kind with
  | .d => 100
  | .u => 117
  | .x => 120

def Conv.text (c : Conv) : Str :=
  match c.size with
  | .int => [37, c.letter]
  | .long => [37, 108, c.letter]
  | .longlong => [37, 108, 108, c.letter]

def Conv.base (c : Conv) : Base := if c.kind = .x then .hex else .dec

def Conv.signed (c : Conv) : Bool := c.kind = .d

def Conv.isLong (c : Conv) : Bool := c.size ≠ .int

def valueOf {w : Nat} (sign : Bool) (xx : BitVec w) : Int := if sign then xx.toInt else xx.toNat

def Conv.value (c : Conv) (a : BitVec 64) : Int :=
  if c.isLong then valueOf c.signed a else valueOf c.signed (a.setWidth 32)

end Xv6.Printf
