import Xv6.Lib.RingBuf
import Xv6.Lib.Run

/-!
# Console input (`console.c`)

`consoleintr` and `consoleread` on the input buffer. Both hold `cons.lock` but where a reader sleeps, so an event is a call of
`consoleintr`, or what a reader does until it sleeps or returns. Copies to the reader succeed, and the echo is left out. Next to
the buffer stand the editable queue that it implements (`Line`) and the characters that readers have taken.
-/

namespace Xv6.Console

open Run

abbrev INPUT_BUF_SIZE : Nat := 128

abbrev ctrlP : UInt8 := 16
abbrev ctrlU : UInt8 := 21
abbrev ctrlH : UInt8 := 8
abbrev delete : UInt8 := 127
abbrev ctrlD : UInt8 := 4
abbrev newline : UInt8 := 10
abbrev cr : UInt8 := 13

/-- `cons`, without its lock. -/
structure Cons where
  buf : Nat → UInt8
  /-- Read index -/
  r : BitVec 32
  /-- Write index -/
  w : BitVec 32
  /-- Edit index -/
  e : BitVec 32

/-- The loop for `C('U')`; it makes at most `e - w` passes. -/
def killLoop : Nat → Cons → Cons
  | 0, s => s
  | fuel + 1, s =>
    if s.e ≠ s.w ∧ s.buf ((s.e - 1).toNat % INPUT_BUF_SIZE) ≠ newline then killLoop fuel { s with e := s.e - 1 } else s

/-- `cons.buf[cons.e++ % INPUT_BUF_SIZE] = c`, and the commit of a whole line, of an end-of-file or of a full buffer. -/
def Cons.store (s : Cons) (c : UInt8) : Cons :=
  let s := { s with buf := Function.update s.buf (s.e.toNat % INPUT_BUF_SIZE) c, e := s.e + 1 }
  if c = newline ∨ c = ctrlD ∨ (s.e - s.r).toNat = INPUT_BUF_SIZE then { s with w := s.e } else s

def consoleintr (s : Cons) (c : UInt8) : Cons :=
  if c = ctrlP then s
  else if c = ctrlU then killLoop (s.e - s.w).toNat s
  else if c = ctrlH ∨ c = delete then if s.e ≠ s.w then { s with e := s.e - 1 } else s
  else if c ≠ 0 ∧ (s.e - s.r).toNat < INPUT_BUF_SIZE then s.store (if c = cr then newline else c)
  else s

/-- How far a call of `consoleread` has come. -/
inductive Stage where
  | sleeping
  | returned
  | killed
  deriving DecidableEq

/-- What a reader has done while it held the lock: the buffer, the `n` that is left, the bytes it has copied, and whether it has
taken an end-of-file out of the buffer. -/
structure Turn where
  cons : Cons
  n : Nat
  copied : List UInt8
  eof : Bool
  stage : Stage

def readLoop (target : Nat) : Nat → Cons → Turn
  | 0, s => ⟨s, 0, [], false, .returned⟩
  | n + 1, s =>
    if s.r = s.w then ⟨s, n + 1, [], false, .sleeping⟩
    else
      let c := s.buf (s.r.toNat % INPUT_BUF_SIZE)
      let s' := { s with r := s.r + 1 }
      if c = ctrlD then
        -- Save ^D for next time, to make sure caller gets a 0-byte result.
        if n + 1 < target then ⟨{ s' with r := s'.r - 1 }, n + 1, [], false, .returned⟩
        else ⟨s', n + 1, [], true, .returned⟩
      else if c = newline then ⟨s', n, [c], false, .returned⟩
      else
        let t := readLoop target n s'
        { t with copied := c :: t.copied }

/-- Lines that are committed and not yet read, and the line that is being edited. `committed` is all that was ever committed. -/
structure Line where
  ready : List UInt8
  edit : List UInt8
  committed : List UInt8
  deriving DecidableEq

def Line.add (l : Line) (c : UInt8) : Line :=
  if c = newline ∨ c = ctrlD ∨ l.ready.length + l.edit.length + 1 = INPUT_BUF_SIZE then
    ⟨l.ready ++ (l.edit ++ [c]), [], l.committed ++ (l.edit ++ [c])⟩
  else { l with edit := l.edit ++ [c] }

/-- An input character: erase and kill-line change the line that is being edited only. -/
def Line.input (l : Line) (c : UInt8) : Line :=
  if c = ctrlP then l
  else if c = ctrlU then { l with edit := [] }
  else if c = ctrlH ∨ c = delete then { l with edit := l.edit.dropLast }
  else if c ≠ 0 ∧ l.ready.length + l.edit.length < INPUT_BUF_SIZE then l.add (if c = cr then newline else c)
  else l

/-- A call of `consoleread`: its argument, the `n` that is left and the bytes it has copied. -/
structure Read where
  target : Nat
  n : Nat
  got : List UInt8
  stage : Stage
  deriving DecidableEq

/-- The calls of `consoleread` are numbered; the log has the characters that were taken out of the buffer, with the calls. -/
structure Sys where
  cons : Cons
  calls : Nat
  reads : Nat → Read
  line : Line
  log : List (Nat × UInt8)

inductive Event where
  | intr (c : UInt8)
  | call (n : Nat)
  | wake (k : Nat)
  | kill (k : Nat)
  deriving DecidableEq

def Turn.taken (t : Turn) : List UInt8 := t.copied ++ if t.eof then [ctrlD] else []

def Sys.turn (s : Sys) (k : Nat) (x : Read) : Sys :=
  let t := readLoop x.target x.n s.cons
  { s with
    cons := t.cons
    reads := Function.update s.reads k ⟨x.target, t.n, x.got ++ t.copied, t.stage⟩
    line := { s.line with ready := s.line.ready.drop t.taken.length }
    log := s.log ++ t.taken.map (k, ·) }

def next (s : Sys) : Event → Except Stop Sys
  | .intr c => .ok { s with cons := consoleintr s.cons c, line := s.line.input c }
  | .call n => .ok { s.turn s.calls ⟨n, n, [], .sleeping⟩ with calls := s.calls + 1 }
  | .wake k =>
    if k < s.calls ∧ (s.reads k).stage = .sleeping then .ok (s.turn k (s.reads k)) else .error .blocked
  | .kill k =>
    if k < s.calls ∧ (s.reads k).stage = .sleeping then
      .ok { s with reads := Function.update s.reads k { s.reads k with stage := .killed } }
    else .error .blocked

def start (buf : Nat → UInt8) (i : BitVec 32) : Sys := ⟨⟨buf, i, i, i⟩, 0, fun _ => ⟨0, 0, [], .returned⟩, ⟨[], [], []⟩, []⟩

end Xv6.Console
