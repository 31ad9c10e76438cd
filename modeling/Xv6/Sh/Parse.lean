import Mathlib.Data.List.DropRight
import Mathlib.Order.Basic
import Mathlib.Tactic.Common

/-!
# The parser of the shell (`sh.c`)

A line is the list of its bytes up to the NUL, and a cursor `char *s` into it is the rest of the line. A parser returns what it has
parsed and the rest, which it never makes longer; this is what the recursion terminates by. `parseexec` keeps filling the
`execcmd` that the redirections already wrap, so the redirections of a command are a list until the command is complete.
-/

namespace Xv6.Sh

abbrev Str := List UInt8

def whitespace : Str := [32, 9, 13, 10, 11]

def symbols : Str := [60, 124, 62, 38, 59, 40, 41]

abbrev MAXARGS : Nat := 10

abbrev O_RDONLY : Nat := 0x000

abbrev O_WRONLY : Nat := 0x001

abbrev O_CREATE : Nat := 0x200

abbrev O_TRUNC : Nat := 0x400

/-- What `gettoken` returns: a symbol, `+` for `>>`, `a` for a word, or 0 at the end. -/
inductive Tok where
  | eof
  | bar
  | lparen
  | rparen
  | semi
  | amp
  | lt
  | gt
  | append
  | word
  deriving DecidableEq

structure Redir where
  file : Str
  mode : Nat
  fd : Nat
  deriving DecidableEq

inductive Cmd where
  | exec (argv : List Str)
  | redir (cmd : Cmd) (r : Redir)
  | pipe (left right : Cmd)
  | list (left right : Cmd)
  | back (cmd : Cmd)
  deriving DecidableEq

def skip (s : Str) : Str := s.dropWhile fun c => whitespace.contains c

/-- The switch of `gettoken`: the token, and the rest after it. -/
def scan : Str → Tok × Str
  | [] => (.eof, [])
  | c :: s =>
    if c = 124 then (.bar, s)
    else if c = 40 then (.lparen, s)
    else if c = 41 then (.rparen, s)
    else if c = 59 then (.semi, s)
    else if c = 38 then (.amp, s)
    else if c = 60 then (.lt, s)
    else if c = 62 then (if s.head? = some 62 then (.append, s.tail) else (.gt, s))
    else (.word, (c :: s).dropWhile fun c => !whitespace.contains c && !symbols.contains c)

def gettoken (s : Str) : Tok × Str × Str :=
  let q := skip s
  let eq := (scan q).2
  ((scan q).1, q.take (q.length - eq.length), skip eq)

/-- Whether one of the bytes `toks` comes next; the blanks before it are skipped. -/
def peek (s toks : Str) : Bool × Str :=
  ((skip s).head?.any fun c => toks.contains c, skip s)

theorem skip_length_le (s : Str) : (skip s).length ≤ s.length := (List.dropWhile_suffix _).length_le

theorem scan_shorter {s : Str} (h : s ≠ []) (hs : ∀ c ∈ s.head?, whitespace.contains c = false) :
    (scan s).2.length < s.length := by
  rcases s with _ | ⟨c, s⟩
  · exact absurd rfl h
  · have hc := hs c rfl
    rw [scan]
    split_ifs with h1 h2 h3 h4 h5 h6 h7 h8
    all_goals try simp only [List.length_cons, Nat.lt_succ_self]
    · rw [List.length_tail]
      omega
    · -- a word has at least one byte
      have hsym : symbols.contains c = false := by
        simp only [symbols, List.contains_cons, List.contains_nil, Bool.or_false, Bool.or_eq_false_iff, beq_eq_false_iff_ne]
        exact ⟨h6, h1, h7, h5, h4, h2, h3⟩
      rw [List.dropWhile_cons_of_pos (by rw [hc, hsym]; rfl)]
      exact Nat.lt_succ_of_le (List.dropWhile_suffix _).length_le

theorem skip_head (s : Str) : ∀ c ∈ (skip s).head?, whitespace.contains c = false := by
  intro c hc
  have := List.head?_dropWhile_not (fun c => whitespace.contains c) s
  rw [skip] at hc
  rw [hc] at this
  simpa using this

theorem gettoken_shorter {s : Str} (h : skip s ≠ []) : (gettoken s).2.2.length < s.length :=
  lt_of_le_of_lt (skip_length_le _) (lt_of_lt_of_le (scan_shorter h (skip_head s)) (skip_length_le s))

theorem skip_skip (s : Str) : skip (skip s) = skip s := List.dropWhile_idempotent _ _

theorem gettoken_skip (s : Str) : gettoken (skip s) = gettoken s := by rw [gettoken, skip_skip]; rfl

theorem peek_shorter {s toks : Str} (h : (peek s toks).1 = true) : (gettoken (peek s toks).2).2.2.length < s.length := by
  rw [show (peek s toks).2 = skip s from rfl, gettoken_skip]
  refine gettoken_shorter fun hnil => ?_
  rw [peek, hnil] at h
  cases h

theorem gettoken_eof {s : Str} (h : skip s = []) : (gettoken s).1 = .eof := by
  rw [gettoken, h]
  rfl

theorem gettoken_le (s : Str) : (gettoken s).2.2.length ≤ s.length := by
  by_cases h : skip s = []
  · rw [gettoken, h]
    exact Nat.zero_le _
  · exact (gettoken_shorter h).le

/-- A result and a rest that is not longer than `s`. -/
abbrev Parsed (α : Type) (s : Str) := Except String {p : α × Str // p.2.length ≤ s.length}

def Parsed.weaken {α : Type} {s s' : Str} (h : s'.length ≤ s.length) (x : Parsed α s') : Parsed α s :=
  x.map fun p => ⟨p.1, p.2.trans h⟩

def redirOf : Tok → Str → List Redir
  | .lt, file => [⟨file, O_RDONLY, 0⟩]
  | .gt, file => [⟨file, O_WRONLY ||| O_CREATE ||| O_TRUNC, 1⟩]
  | .append, file => [⟨file, O_WRONLY ||| O_CREATE, 1⟩]
  | _, _ => []

def wrap (cmd : Cmd) (rs : List Redir) : Cmd := rs.foldl .redir cmd

def parseredirs (rs : List Redir) (s : Str) : Parsed (List Redir) s :=
  if h : (peek s [60, 62]).1 = true then
    let tok := gettoken (peek s [60, 62]).2
    let file := gettoken tok.2.2
    have hlt : file.2.2.length < s.length := lt_of_le_of_lt (gettoken_le _) (peek_shorter h)
    if file.1 ≠ .word then .error "missing file for redirection"
    else (parseredirs (rs ++ redirOf tok.1 file.2.1) file.2.2).weaken hlt.le
  else .ok ⟨(rs, (peek s [60, 62]).2), skip_length_le s⟩
termination_by s.length

def parseargs (argv : List Str) (rs : List Redir) (s : Str) : Parsed (List Str × List Redir) s :=
  if (peek s [124, 41, 38, 59]).1 = true then .ok ⟨((argv, rs), (peek s [124, 41, 38, 59]).2), skip_length_le s⟩
  else
    let q := (peek s [124, 41, 38, 59]).2
    let tok := gettoken q
    have hq : q.length ≤ s.length := skip_length_le s
    if h : tok.1 = .eof then .ok ⟨((argv, rs), tok.2.2), (gettoken_le q).trans hq⟩
    else
      have hlt : tok.2.2.length < s.length :=
        lt_of_lt_of_le (gettoken_shorter fun hnil => h (gettoken_eof hnil)) hq
      if tok.1 ≠ .word then .error "syntax"
      else if (argv ++ [tok.2.1]).length ≥ MAXARGS then .error "too many args"
      else do
        let p ← parseredirs rs tok.2.2
        (parseargs (argv ++ [tok.2.1]) p.1.1 p.1.2).weaken (p.2.trans hlt.le)
termination_by s.length
decreasing_by exact lt_of_le_of_lt p.2 hlt

def parseback (cmd : Cmd) (s : Str) : {p : Cmd × Str // p.2.length ≤ s.length} :=
  if h : (peek s [38]).1 = true then
    have hlt := peek_shorter h
    let p := parseback (.back cmd) (gettoken (peek s [38]).2).2.2
    ⟨p.1, p.2.trans hlt.le⟩
  else ⟨(cmd, (peek s [38]).2), skip_length_le s⟩
termination_by s.length

mutual

def parseline (s : Str) : Parsed Cmd s := do
  let p ← parsepipe s
  let b := parseback p.1.1 p.1.2
  have hb : b.1.2.length ≤ s.length := b.2.trans p.2
  if h : (peek b.1.2 [59]).1 = true then
    have hlt := lt_of_lt_of_le (peek_shorter h) hb
    let right ← parseline (gettoken (peek b.1.2 [59]).2).2.2
    return ⟨(.list b.1.1 right.1.1, right.1.2), right.2.trans hlt.le⟩
  else return ⟨(b.1.1, (peek b.1.2 [59]).2), (skip_length_le _).trans hb⟩
termination_by (s.length, 3)

def parsepipe (s : Str) : Parsed Cmd s := do
  let p ← parseexec s
  if h : (peek p.1.2 [124]).1 = true then
    have hlt := lt_of_lt_of_le (peek_shorter h) p.2
    let right ← parsepipe (gettoken (peek p.1.2 [124]).2).2.2
    return ⟨(.pipe p.1.1 right.1.1, right.1.2), right.2.trans hlt.le⟩
  else return ⟨(p.1.1, (peek p.1.2 [124]).2), (skip_length_le _).trans p.2⟩
termination_by (s.length, 2)

def parseexec (s : Str) : Parsed Cmd s :=
  if (peek s [40]).1 = true then (parseblock (peek s [40]).2).weaken (skip_length_le s)
  else do
    let p ← parseredirs [] (peek s [40]).2
    have hp : p.1.2.length ≤ s.length := p.2.trans (skip_length_le s)
    let a ← parseargs [] p.1.1 p.1.2
    return ⟨(wrap (.exec a.1.1.1) a.1.1.2, a.1.2), a.2.trans hp⟩
termination_by (s.length, 1)
decreasing_by
  rcases Nat.lt_or_eq_of_le (skip_length_le s) with hlt | heq
  · exact Prod.Lex.left _ _ hlt
  · rw [show (peek s [40]).2 = skip s from rfl, heq]
    exact Prod.Lex.right _ Nat.zero_lt_one

def parseblock (s : Str) : Parsed Cmd s :=
  if h : (peek s [40]).1 = true then do
    have hlt := peek_shorter h
    let p ← parseline (gettoken (peek s [40]).2).2.2
    if (peek p.1.2 [41]).1 = true then
      let q := gettoken (peek p.1.2 [41]).2
      have hq : q.2.2.length ≤ s.length :=
        ((gettoken_le _).trans (skip_length_le _)).trans (p.2.trans hlt.le)
      let r ← parseredirs [] q.2.2
      return ⟨(wrap p.1.1 r.1.1, r.1.2), r.2.trans hq⟩
    else .error "syntax - missing )"
  else .error "parseblock"
termination_by (s.length, 0)

end

def parsecmd (s : Str) : Except String Cmd := do
  let p ← parseline s
  if (peek p.1.2 []).2 ≠ [] then .error "syntax" else return p.1.1

end Xv6.Sh
