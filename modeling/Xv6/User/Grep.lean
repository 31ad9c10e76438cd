import Xv6.User.Match

/-!
# The loop of `grep` (`grep.c`)

The buffer is kept as the `m` bytes that are in use. How `read` splits the input is given by `offer`: read number `i` delivers
`offer i + 1` bytes, or what fits, or what is left. The output is the list of what the calls of `write` pass on.
-/

namespace Xv6.Grep

abbrev newline : UInt8 := 10

abbrev BUFSIZE : Nat := 1024

def strchr (c : UInt8) : Str → Option Nat
  | [] => none
  | x :: s => if x = 0 then none else if x = c then some 0 else (strchr c s).map (· + 1)

theorem strchr_lt {c : UInt8} : ∀ {s : Str} {k : Nat}, strchr c s = some k → k < s.length := by
  intro s
  induction s with
  | nil => simp [strchr]
  | cons x s ih =>
    intro k h
    rw [strchr] at h
    split at h
    · simp at h
    · split at h
      · obtain rfl : 0 = k := Option.some.inj h
        exact Nat.succ_pos _
      · obtain ⟨k', hk', rfl⟩ := Option.map_eq_some_iff.1 h
        exact Nat.succ_lt_succ (ih hk')

def scanLines (pattern p : Str) : List Str × Str :=
  match _h : strchr newline p with
  | none => ([], p)
  | some q =>
    let (out, rest) := scanLines pattern (p.drop (q + 1))
    (if matchText pattern (p.take q) then p.take (q + 1) :: out else out, rest)
termination_by p.length
decreasing_by
  have := strchr_lt _h
  simp only [List.length_drop]
  omega

def grepLoop (pattern : Str) (offer : Nat → Nat) (i : Nat) (buf input : Str) : List Str :=
  let n := min (min (offer i + 1) (BUFSIZE - buf.length - 1)) input.length
  if 0 < n then
    let (out, rest) := scanLines pattern (buf ++ input.take n)
    out ++ grepLoop pattern offer (i + 1) rest (input.drop n)
  else []
termination_by input.length
decreasing_by
  simp only [List.length_drop]
  omega

def grep (pattern : Str) (offer : Nat → Nat) (input : Str) : List Str := grepLoop pattern offer 0 [] input

/-- The lines that end with a newline, when `acc` has been read of the first. -/
def linesFrom (acc : Str) : Str → List Str
  | [] => []
  | c :: s => if c = newline then acc :: linesFrom [] s else linesFrom (acc ++ [c]) s

def lastFrom (acc : Str) : Str → Str
  | [] => acc
  | c :: s => if c = newline then lastFrom [] s else lastFrom (acc ++ [c]) s

/-- The lines of an input, without their newlines; the last one need not have one. -/
def lines (input : Str) : List Str :=
  linesFrom [] input ++ if lastFrom [] input = [] then [] else [lastFrom [] input]

def printed (pattern : Str) (ls : List Str) : List Str :=
  (ls.filter fun l => matchText pattern l).map (· ++ [newline])

variable {pattern b s s' input buf : Str} {ls ls' : List Str} {k i : Nat} {offer : Nat → Nat}

theorem printed_append : printed pattern (ls ++ ls') = printed pattern ls ++ printed pattern ls' := by
  simp [printed]

theorem linesFrom_append : linesFrom b (s ++ s') = linesFrom b s ++ linesFrom (lastFrom b s) s' := by
  induction s generalizing b with
  | nil => rfl
  | cons c s ih =>
    simp only [List.cons_append, linesFrom, lastFrom]
    split
    · rw [ih, List.cons_append]
    · exact ih

theorem lastFrom_append : lastFrom b (s ++ s') = lastFrom (lastFrom b s) s' := by
  induction s generalizing b with
  | nil => rfl
  | cons c s ih =>
    simp only [List.cons_append, lastFrom]
    split <;> exact ih

theorem linesFrom_of_notMem (hs : newline ∉ s) : linesFrom b s = [] ∧ lastFrom b s = b ++ s := by
  induction s generalizing b with
  | nil => simp [linesFrom, lastFrom]
  | cons c s ih =>
    obtain ⟨hc, hs⟩ : newline ≠ c ∧ newline ∉ s := by simpa using hs
    rw [linesFrom, lastFrom, if_neg (Ne.symm hc), if_neg (Ne.symm hc)]
    simpa using ih (b := b ++ [c]) hs

theorem newline_notMem_lastFrom (hacc : newline ∉ b) : newline ∉ lastFrom b s := by
  induction s generalizing b with
  | nil => exact hacc
  | cons c s ih =>
    rw [lastFrom]
    split
    · exact ih (by simp)
    · rename_i hc
      exact ih (by simpa [hacc] using Ne.symm hc)

theorem length_le_head_linesFrom : ∀ l ∈ (linesFrom b s).head?, b.length ≤ l.length := by
  induction s generalizing b with
  | nil => simp [linesFrom]
  | cons c s ih =>
    rw [linesFrom]
    split
    · simp
    · intro l hl
      have := ih l hl
      simp at this
      omega

theorem length_lt_of_mem_linesFrom : ∀ l ∈ linesFrom b s, l.length < b.length + s.length := by
  induction s generalizing b with
  | nil => simp [linesFrom]
  | cons c s ih =>
    intro l hl
    rw [linesFrom] at hl
    split at hl
    · rcases List.mem_cons.1 hl with rfl | hl
      · simp
      · have := ih l hl
        simp at this ⊢
        omega
    · have := ih l hl
      simp at this ⊢
      omega

theorem length_lastFrom_le : (lastFrom b s).length ≤ b.length + s.length := by
  induction s generalizing b with
  | nil => exact Nat.le_refl _
  | cons c s ih =>
    rw [lastFrom]
    split
    · have := ih (b := [])
      simp at this ⊢
      omega
    · have := ih (b := b ++ [c])
      simp at this ⊢
      omega

theorem zero_notMem_lastFrom (hacc : 0 ∉ b) (hs : 0 ∉ s) : 0 ∉ lastFrom b s := by
  induction s generalizing b with
  | nil => exact hacc
  | cons c s ih =>
    obtain ⟨hc, hs⟩ : 0 ≠ c ∧ 0 ∉ s := by simpa using hs
    rw [lastFrom]
    split
    · exact ih (by simp) hs
    · exact ih (by simp [hacc, hc]) hs

theorem newline_notMem_of_strchr (hs : 0 ∉ s) (h : strchr newline s = none) : newline ∉ s := by
  induction s with
  | nil => simp
  | cons c s ih =>
    obtain ⟨hc, hs⟩ : 0 ≠ c ∧ 0 ∉ s := by simpa using hs
    rw [strchr, if_neg (Ne.symm hc)] at h
    split at h
    · simp at h
    · rename_i hnl
      simpa [Ne.symm hnl] using ih hs (by simpa using h)

theorem linesFrom_of_strchr_some (h : strchr newline s = some k) :
    linesFrom b s = (b ++ s.take k) :: linesFrom [] (s.drop (k + 1)) ∧ lastFrom b s = lastFrom [] (s.drop (k + 1)) ∧
      s.take (k + 1) = s.take k ++ [newline] := by
  induction s generalizing b k with
  | nil => simp [strchr] at h
  | cons c s ih =>
    rw [strchr] at h
    split at h
    · simp at h
    · rw [linesFrom, lastFrom]
      split at h
      · rename_i hnl
        obtain rfl : 0 = k := by simpa using h
        simp [hnl]
      · rename_i hnl
        obtain ⟨k, hk, rfl⟩ := Option.map_eq_some_iff.1 h
        obtain ⟨hlines, hlast, htake⟩ := ih (b := b ++ [c]) hk
        rw [if_neg hnl, if_neg hnl, hlines, hlast]
        simp [htake]

theorem scanLines_eq (hs : 0 ∉ s) : scanLines pattern s = (printed pattern (linesFrom [] s), lastFrom [] s) := by
  induction s using scanLines.induct pattern with
  | case1 s h =>
    obtain ⟨hlines, hlast⟩ := linesFrom_of_notMem (b := []) (newline_notMem_of_strchr hs h)
    rw [scanLines]
    split
    · simp [hlines, hlast, printed]
    · simp_all
  | case2 s q h out rest _ ih =>
    obtain ⟨hlines, hlast, htake⟩ := linesFrom_of_strchr_some (b := []) h
    have hrest := ih fun h0 => hs (List.mem_of_mem_drop h0)
    rw [scanLines]
    split
    · simp_all
    · rename_i q' h'
      obtain rfl : q = q' := Option.some.inj (h.symm.trans h')
      rw [hrest, hlines, hlast, htake]
      simp only [printed, List.nil_append, List.filter_cons]
      split <;> simp

theorem takeWhile_served (h : ∀ l ∈ ls, l.length < BUFSIZE - 1) :
    (ls ++ ls').takeWhile (fun l => l.length < BUFSIZE - 1) = ls ++ ls'.takeWhile fun l => l.length < BUFSIZE - 1 :=
  List.takeWhile_append_of_pos (by simpa using h)

theorem grepLoop_eq (hbuf : 0 ∉ buf) (hnl : newline ∉ buf) (hinput : 0 ∉ input)
    (hlen : buf.length < BUFSIZE) :
    grepLoop pattern offer i buf input = printed pattern ((linesFrom buf input).takeWhile fun l => l.length < BUFSIZE - 1) := by
  induction hN : input.length using Nat.strongRecOn generalizing i buf input with
  | _ N ih =>
    rw [grepLoop]
    generalize hn : min (min (offer i + 1) (BUFSIZE - buf.length - 1)) input.length = n
    split
    · -- the lines of the buffer are printed, and the rest of the input is left with what is behind the last newline
      have htake : 0 ∉ input.take n := fun h => hinput (List.mem_of_mem_take h)
      have hs : 0 ∉ buf ++ input.take n := by simp [hbuf, htake]
      obtain ⟨hno, hself⟩ := linesFrom_of_notMem (b := []) hnl
      have hlines : linesFrom [] (buf ++ input.take n) = linesFrom buf (input.take n) := by
        rw [linesFrom_append, hno, hself, List.nil_append, List.nil_append]
      have hlast : lastFrom [] (buf ++ input.take n) = lastFrom buf (input.take n) := by
        rw [lastFrom_append, hself, List.nil_append]
      have hfit : ∀ l ∈ linesFrom buf (input.take n), l.length < BUFSIZE - 1 := by
        intro l hl
        have := length_lt_of_mem_linesFrom l hl
        rw [List.length_take] at this
        omega
      have hrest := length_lastFrom_le (b := buf) (s := input.take n)
      rw [List.length_take] at hrest
      rw [scanLines_eq hs, hlines, hlast]
      show printed pattern _ ++ grepLoop pattern offer (i + 1) _ _ = _
      rw [ih (input.drop n).length (by rw [List.length_drop]; omega) (zero_notMem_lastFrom hbuf htake)
        (newline_notMem_lastFrom hnl) (fun h => hinput (List.mem_of_mem_drop h)) (by omega) rfl, ← printed_append,
        ← takeWhile_served hfit, ← linesFrom_append, List.take_append_drop]
    · -- the input is at its end, or the buffer is full without a newline
      by_cases hend : input = []
      · simp [hend, linesFrom, printed]
      · have hpos := List.length_pos_iff.2 hend
        have hfull : (linesFrom buf input).takeWhile (fun l => l.length < BUFSIZE - 1) = [] := by
          cases hl : linesFrom buf input with
          | nil => rfl
          | cons l ls =>
            have := length_le_head_linesFrom (b := buf) (s := input) l (by simp [hl])
            exact List.takeWhile_cons_of_neg (by simp only [decide_eq_true_eq]; omega)
        rw [hfull]
        rfl

/-- What `grep` prints of any input, however it is read: the matching lines, up to the first line that does not fit into the
buffer and without a last line that has no newline. -/
theorem grep_eq (hinput : 0 ∉ input) :
    grep pattern offer input = printed pattern ((linesFrom [] input).takeWhile fun l => l.length < BUFSIZE - 1) :=
  grepLoop_eq (by simp) (by simp) hinput (by simp)

/-- The lines that `grep` does not get to: those from the first one on that does not fit into the buffer with its newline, and a
last one without a newline. -/
def unserved (input : Str) : List Str :=
  ((linesFrom [] input).dropWhile fun l => l.length < BUFSIZE - 1) ++ if lastFrom [] input = [] then [] else [lastFrom [] input]

theorem lines_eq (input : Str) :
    lines input = ((linesFrom [] input).takeWhile fun l => l.length < BUFSIZE - 1) ++ unserved input := by
  rw [unserved, ← List.append_assoc, List.takeWhile_append_dropWhile, lines]

theorem printed_eq_nil : printed pattern ls = [] ↔ ∀ l ∈ ls, matchText pattern l = false := by
  simp [printed]

/-- `grep` prints the matching lines of the input in order, each once, if and only if none of the lines that it does not get to
matches; how the input is read makes no difference. -/
theorem grep_prints_matching_lines_iff (pattern : Str) (offer : Nat → Nat) {input : Str} (hinput : 0 ∉ input) :
    grep pattern offer input = ((lines input).filter fun l => matchText pattern l).map (· ++ [newline]) ↔
      ∀ l ∈ unserved input, matchText pattern l = false := by
  rw [← printed_eq_nil, ← printed, lines_eq, printed_append, grep_eq hinput, List.self_eq_append_right]

theorem grep_prints_matching_lines_two : grep [97] (fun i => i) [98, 10, 97, 99, 10] = [[97, 99, 10]] := by
  have hlines : lines [98, 10, 97, 99, 10] = [[98], [97, 99]] := by decide
  rw [(grep_prints_matching_lines_iff [97] (fun i => i) (by decide)).2 (by decide), hlines]
  simp [matchText, matchLoop, matchhere, caret, star, dollar, dot]

/-- The last line of the input `a` matches the pattern `a` and is not printed, because it has no newline; and the line `a`
behind a line of 1023 bytes is not printed, because the full buffer makes `read` return 0. -/
theorem grep_misses_lines : grep [97] (fun _ => 0) [97] = [] ∧ [97] ∈ lines [97] ∧ matchText [97] [97] = true ∧
    grep [97] (fun _ => 0) (List.replicate 1023 98 ++ [10, 97, 10]) = [] ∧
    [97] ∈ lines (List.replicate 1023 98 ++ [10, 97, 10]) := by
  refine ⟨?_, by decide, by simp [matchText, matchLoop, matchhere], ?_, by decide +kernel⟩
  · rw [grep_eq (by decide)]
    rfl
  · rw [grep_eq (by decide +kernel)]
    decide +kernel

end Xv6.Grep
