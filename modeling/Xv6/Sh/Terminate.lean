import Xv6.Sh.Grammar

/-!
# The strings of the command tree (`nulterminate`)

The parser once more, with the pointers it stores in the tree. All of them point into the one buffer that holds the line, and
`nulterminate` ends the strings by writing into it. A parser gets as many steps as its first argument says.
-/

namespace Xv6.Sh.Ptr

abbrev Cursor (line : Str) := {s : Str // s <:+ line}

def wordByte (c : UInt8) : Bool := !whitespace.contains c && !symbols.contains c

/-- The pointers to the first byte of a word and behind its last one. -/
structure Span (line : Str) where
  q : Cursor line
  eq : Cursor line
  word : eq.1 = q.1.dropWhile wordByte

structure Found (line : Str) where
  tok : Tok
  q : Cursor line
  eq : Cursor line
  next : Cursor line
  word : tok = .word → eq.1 = q.1.dropWhile wordByte

structure Redir (line : Str) where
  file : Span line
  mode : Nat
  fd : Nat

inductive Cmd (line : Str) where
  | exec (argv : List (Span line))
  | redir (cmd : Cmd line) (r : Redir line)
  | pipe (left right : Cmd line)
  | list (left right : Cmd line)
  | back (cmd : Cmd line)

variable {line : Str}

theorem scan_suffix (s : Str) : (scan s).2 <:+ s := by
  rcases s with _ | ⟨c, s⟩
  · exact List.suffix_refl _
  · rw [scan]
    split_ifs
    all_goals first
      | exact List.suffix_cons ..
      | exact (List.tail_suffix _).trans (List.suffix_cons ..)
      | exact List.dropWhile_suffix _

theorem scan_word {s : Str} (h : (scan s).1 = .word) : (scan s).2 = s.dropWhile wordByte := by
  rcases s with _ | ⟨c, s⟩
  · cases h
  · rw [scan] at h ⊢
    split_ifs at h ⊢
    rfl

def Cursor.skip (s : Cursor line) : Cursor line := ⟨Sh.skip s.1, (List.dropWhile_suffix _).trans s.2⟩

def gettoken (s : Cursor line) : Found line :=
  let q := s.skip
  let eq : Cursor line := ⟨(scan q.1).2, (scan_suffix _).trans q.2⟩
  ⟨(scan q.1).1, q, eq, eq.skip, scan_word⟩

def redirOf : Tok → Span line → List (Redir line)
  | .lt, file => [⟨file, O_RDONLY, 0⟩]
  | .gt, file => [⟨file, O_WRONLY ||| O_CREATE ||| O_TRUNC, 1⟩]
  | .append, file => [⟨file, O_WRONLY ||| O_CREATE, 1⟩]
  | _, _ => []

def wrap (cmd : Cmd line) (rs : List (Redir line)) : Cmd line := rs.foldl .redir cmd

def parseredirs : Nat → List (Redir line) → Cursor line → Except String (List (Redir line) × Cursor line)
  | 0, _, _ => .error ""
  | k + 1, rs, s =>
    if (peek s.1 [60, 62]).1 then
      let tok := gettoken s.skip
      let file := gettoken tok.next
      if h : file.tok = .word then parseredirs k (rs ++ redirOf tok.tok ⟨file.q, file.eq, file.word h⟩) file.next
      else .error "missing file for redirection"
    else .ok (rs, s.skip)

def parseargs : Nat → List (Span line) → List (Redir line) → Cursor line →
    Except String ((List (Span line) × List (Redir line)) × Cursor line)
  | 0, _, _, _ => .error ""
  | k + 1, argv, rs, s =>
    if (peek s.1 [124, 41, 38, 59]).1 then .ok ((argv, rs), s.skip)
    else
      let tok := gettoken s.skip
      if tok.tok = .eof then .ok ((argv, rs), tok.next)
      else if h : tok.tok = .word then
        if argv.length + 1 ≥ MAXARGS then .error "too many args"
        else (parseredirs k rs tok.next).bind fun p => parseargs k (argv ++ [⟨tok.q, tok.eq, tok.word h⟩]) p.1 p.2
      else .error "syntax"

def parseback : Nat → Cmd line → Cursor line → Cmd line × Cursor line
  | 0, cmd, s => (cmd, s)
  | k + 1, cmd, s => if (peek s.1 [38]).1 then parseback k (.back cmd) (gettoken s.skip).next else (cmd, s.skip)

mutual

def parseline : Nat → Cursor line → Except String (Cmd line × Cursor line)
  | 0, _ => .error ""
  | k + 1, s => (parsepipe k s).bind fun p =>
    let b := parseback k p.1 p.2
    if (peek b.2.1 [59]).1 then (parseline k (gettoken b.2.skip).next).bind fun r => .ok (.list b.1 r.1, r.2)
    else .ok (b.1, b.2.skip)

def parsepipe : Nat → Cursor line → Except String (Cmd line × Cursor line)
  | 0, _ => .error ""
  | k + 1, s => (parseexec k s).bind fun p =>
    if (peek p.2.1 [124]).1 then (parsepipe k (gettoken p.2.skip).next).bind fun r => .ok (.pipe p.1 r.1, r.2)
    else .ok (p.1, p.2.skip)

def parseexec : Nat → Cursor line → Except String (Cmd line × Cursor line)
  | 0, _ => .error ""
  | k + 1, s =>
    if (peek s.1 [40]).1 then parseblock k s.skip
    else (parseredirs k [] s.skip).bind fun p =>
      (parseargs k [] p.1 p.2).bind fun a => .ok (wrap (.exec a.1.1) a.1.2, a.2)

def parseblock : Nat → Cursor line → Except String (Cmd line × Cursor line)
  | 0, _ => .error ""
  | k + 1, s =>
    if (peek s.1 [40]).1 then (parseline k (gettoken s.skip).next).bind fun p =>
      if (peek p.2.1 [41]).1 then
        (parseredirs k [] (gettoken p.2.skip).next).bind fun r => .ok (wrap p.1 r.1, r.2)
      else .error "syntax - missing )"
    else .error "parseblock"

end

def parsecmd (line : Str) : Except String (Cmd line) :=
  (parseline (4 * line.length + 4) ⟨line, List.suffix_refl _⟩).bind fun p => if p.2.skip.1 ≠ [] then .error "syntax" else .ok p.1

def Span.text (t : Span line) : Str := t.q.1.take (t.q.1.length - t.eq.1.length)

def Redir.text (r : Redir line) : Sh.Redir := ⟨r.file.text, r.mode, r.fd⟩

def Cmd.text : Cmd line → Sh.Cmd
  | .exec argv => .exec (argv.map Span.text)
  | .redir c r => .redir c.text r.text
  | .pipe l r => .pipe l.text r.text
  | .list l r => .list l.text r.text
  | .back c => .back c.text

variable {k : Nat}

theorem redirOf_text (t : Tok) (f : Span line) : (redirOf t f).map Redir.text = Sh.redirOf t f.text := by
  cases t <;> rfl

theorem wrap_text (c : Cmd line) (rs : List (Redir line)) : (wrap c rs).text = Sh.wrap c.text (rs.map Redir.text) := by
  induction rs generalizing c with
  | nil => rfl
  | cons r rs ih => exact ih (.redir c r)

/-- The parser with pointers stops where the parser on strings stops, with the strings between the pointers. -/
def Agrees {α β : Type} (f : α → β) (x : Except String (α × Cursor line)) (y : Except String (β × Str)) : Prop :=
  x.map (fun p => (f p.1, p.2.1)) = y

theorem Agrees.bind {α β γ δ : Type} {f : α → β} {g : γ → δ} {x : Except String (α × Cursor line)} {y : Except String (β × Str)}
    {F : α × Cursor line → Except String (γ × Cursor line)} {G : β × Str → Except String (δ × Str)} (h : Agrees f x y)
    (hF : ∀ p : α × Cursor line, y = .ok (f p.1, p.2.1) → Agrees g (F p) (G (f p.1, p.2.1))) : Agrees g (x.bind F) (y.bind G) := by
  subst h
  rcases x with e | p
  · rfl
  · exact hF p rfl

theorem parseredirs_agrees (rs : List (Redir line)) (s : Cursor line) (hk : s.1.length < k) :
    Agrees (List.map Redir.text) (parseredirs k rs s) (Sh.parseredirs (rs.map Redir.text) s.1).out := by
  induction k generalizing rs s with
  | zero => omega
  | succ k ih =>
    rw [parseredirs_out, parseredirs]
    by_cases h : (first (tokens s.1)).IsRedir
    · have hp := (peek_redir s.1).2 h
      rw [if_pos h, if_pos hp]
      by_cases hw : (Sh.gettoken (Sh.gettoken (skip s.1)).2.2).1 = .word
      · have hlt := lt_of_le_of_lt (gettoken_le (Sh.gettoken (skip s.1)).2.2) (peek_shorter hp)
        have hrest := ih (rs ++ redirOf (gettoken s.skip).tok ⟨_, _, (gettoken (gettoken s.skip).next).word hw⟩)
          (gettoken (gettoken s.skip).next).next (lt_of_lt_of_le hlt (Nat.le_of_lt_succ hk))
        rw [List.map_append, redirOf_text] at hrest
        rw [if_neg (not_not.2 hw)]
        exact (dif_pos hw).symm ▸ hrest
      · rw [if_pos hw]
        exact (dif_neg hw).symm ▸ rfl
    · rw [if_neg h, if_neg fun hp => h ((peek_redir s.1).1 hp)]
      rfl

theorem parseargs_agrees (argv : List (Span line)) (rs : List (Redir line)) (s : Cursor line) (hk : s.1.length < k) :
    Agrees (fun p => (p.1.map Span.text, p.2.map Redir.text)) (parseargs k argv rs s) (Sh.parseargs (argv.map Span.text) (rs.map Redir.text) s.1).out := by
  induction k generalizing argv rs s with
  | zero => omega
  | succ k ih =>
    have htok : (gettoken s.skip).tok = first (tokens s.1) := by
      rw [first_tokens, ← gettoken_skip]
      rfl
    rw [parseargs_out, parseargs, List.length_map]
    by_cases hend : (first (tokens s.1)).Ends ∧ first (tokens s.1) ≠ .eof
    · rw [if_pos hend.1, if_neg hend.2, if_pos ((peek_end s.1).2 hend)]
      rfl
    · rw [if_neg fun hp => hend ((peek_end s.1).1 hp)]
      by_cases heof : first (tokens s.1) = .eof
      · rw [if_pos (show Tok.Ends _ from Or.inl heof), if_pos heof, if_pos (htok.trans heof)]
        rfl
      · rw [if_neg fun h => hend ⟨h, heof⟩, if_neg fun h => heof (htok.symm.trans h)]
        by_cases hw : first (tokens s.1) = .word
        · rw [if_neg (not_not.2 hw), dif_pos (htok.trans hw)]
          split
          · rfl
          · have hlt := read_length_lt heof
            refine (parseredirs_agrees rs (gettoken s.skip).next (lt_of_lt_of_le hlt (Nat.le_of_lt_succ hk))).bind fun p hp => ?_
            have hle : p.2.1.length ≤ (Sh.gettoken (skip s.1)).2.2.length := out_le hp
            have hrest := ih (argv ++ [⟨_, _, (gettoken s.skip).word (htok.trans hw)⟩]) p.1 p.2 (by omega)
            rw [List.map_append] at hrest
            exact hrest
        · rw [if_pos hw, dif_neg fun h => hw (htok.symm.trans h)]
          rfl

theorem parseback_agrees (c : Cmd line) (s : Cursor line) (hk : s.1.length < k) :
    ((parseback k c s).1.text, (parseback k c s).2.1) = (Sh.parseback c.text s.1).1 := by
  induction k generalizing c s with
  | zero => omega
  | succ k ih =>
    rw [parseback_out, parseback]
    by_cases h : first (tokens s.1) = .amp
    · have hp := (peek_amp s.1).2 h
      have hlt := peek_shorter hp
      rw [if_pos h, if_pos hp]
      exact ih (.back c) (gettoken s.skip).next (lt_of_lt_of_le hlt (Nat.le_of_lt_succ hk))
    · rw [if_neg h, if_neg fun hp => h ((peek_amp s.1).1 hp)]
      rfl

/-- By induction on the steps: a call goes down from `parseline` to `parseblock` at one place, then reads a byte. -/
theorem parse_agrees (k : Nat) :
    (∀ s : Cursor line, 4 * s.1.length + 4 ≤ k → Agrees Cmd.text (parseline k s) (Sh.parseline s.1).out) ∧
    (∀ s : Cursor line, 4 * s.1.length + 3 ≤ k → Agrees Cmd.text (parsepipe k s) (Sh.parsepipe s.1).out) ∧
    (∀ s : Cursor line, 4 * s.1.length + 2 ≤ k → Agrees Cmd.text (parseexec k s) (Sh.parseexec s.1).out) ∧
    (∀ s : Cursor line, 4 * s.1.length + 1 ≤ k → Agrees Cmd.text (parseblock k s) (Sh.parseblock s.1).out) := by
  induction k with
  | zero => exact ⟨fun _ h => by omega, fun _ h => by omega, fun _ h => by omega, fun _ h => by omega⟩
  | succ k ih =>
    obtain ⟨hline, hpipe, hexec, hblock⟩ := ih
    refine ⟨fun s hk => ?_, fun s hk => ?_, fun s hk => ?_, fun s hk => ?_⟩
    · rw [parseline, parseline_out]
      refine (hpipe s (by omega)).bind fun p hp => ?_
      have hle := out_le hp
      have hb := parseback_agrees (k := k) p.1 p.2 (by omega)
      have hble := (Sh.parseback p.1.text p.2.1).2
      dsimp only
      rw [← hb] at hble ⊢
      dsimp only at hble ⊢
      generalize parseback k p.1 p.2 = b at hble ⊢
      by_cases h : first (tokens b.2.1) = .semi
      · have hs := (peek_semi b.2.1).2 h
        have hlt := peek_shorter hs
        rw [if_pos h, if_pos hs]
        exact (hline (gettoken b.2.skip).next (by change 4 * (Sh.gettoken (peek b.2.1 [59]).2).2.2.length + 4 ≤ k; omega)).bind fun r _ => rfl
      · rw [if_neg h, if_neg fun hp => h ((peek_semi _).1 hp)]
        rfl
    · rw [parsepipe, parsepipe_out]
      refine (hexec s (by omega)).bind fun p hp => ?_
      have hle := out_le hp
      by_cases h : first (tokens p.2.1) = .bar
      · have hs := (peek_bar p.2.1).2 h
        have hlt := peek_shorter hs
        rw [if_pos h, if_pos hs]
        exact (hpipe (gettoken p.2.skip).next (by change 4 * (Sh.gettoken (peek p.2.1 [124]).2).2.2.length + 3 ≤ k; omega)).bind fun r _ => rfl
      · rw [if_neg h, if_neg fun hp => h ((peek_bar _).1 hp)]
        rfl
    · rw [parseexec, parseexec_out]
      have hskip := skip_length_le s.1
      by_cases h : first (tokens s.1) = .lparen
      · rw [if_pos h, if_pos ((peek_lparen s.1).2 h)]
        exact hblock s.skip (by change 4 * (skip s.1).length + 1 ≤ k; omega)
      · rw [if_neg h, if_neg fun hp => h ((peek_lparen _).1 hp)]
        refine (parseredirs_agrees [] s.skip (by change (skip s.1).length < k; omega)).bind fun p hp => ?_
        have hle : p.2.1.length ≤ (skip s.1).length := out_le hp
        refine (parseargs_agrees [] p.1 p.2 (by omega)).bind fun a _ => ?_
        exact congrArg Except.ok (Prod.ext (wrap_text ..) rfl)
    · rw [parseblock, parseblock_out]
      by_cases h : first (tokens s.1) = .lparen
      · have hs := (peek_lparen s.1).2 h
        have hlt := peek_shorter hs
        rw [if_pos h, if_pos hs]
        refine (hline (gettoken s.skip).next (by change 4 * (Sh.gettoken (peek s.1 [40]).2).2.2.length + 4 ≤ k; omega)).bind fun p hp => ?_
        have hle : p.2.1.length ≤ (Sh.gettoken (peek s.1 [40]).2).2.2.length := out_le hp
        by_cases hr : first (tokens p.2.1) = .rparen
        · have hs := (peek_rparen p.2.1).2 hr
          have hlt' := peek_shorter hs
          rw [if_pos hr, if_pos hs]
          refine (parseredirs_agrees [] (gettoken p.2.skip).next
            (by change (Sh.gettoken (peek p.2.1 [41]).2).2.2.length < k; omega)).bind fun r _ => ?_
          exact congrArg Except.ok (Prod.ext (wrap_text ..) rfl)
        · rw [if_neg hr, if_neg fun hp => hr ((peek_rparen _).1 hp)]
          rfl
      · rw [if_neg h, if_neg fun hp => h ((peek_lparen _).1 hp)]
        rfl

theorem parsecmd_text (line : Str) : (parsecmd line).map Cmd.text = Sh.parsecmd line := by
  have h := (parse_agrees (4 * line.length + 4)).1 ⟨line, List.suffix_refl _⟩ le_rfl
  rw [parsecmd, parsecmd_out, ← h]
  rcases parseline (4 * line.length + 4) ⟨line, List.suffix_refl _⟩ with e | p
  · rfl
  · change Except.map Cmd.text (if skip p.2.1 ≠ [] then _ else _) = if skip p.2.1 ≠ [] then _ else _
    split <;> rfl

def Cursor.off (s : Cursor line) : Nat := line.length - s.1.length

def Span.terminate (buf : Nat → UInt8) (t : Span line) : Nat → UInt8 := Function.update buf t.eq.off 0

def nulterminate : Cmd line → (Nat → UInt8) → Nat → UInt8
  | .exec argv, buf => argv.foldl Span.terminate buf
  | .redir c r, buf => r.file.terminate (nulterminate c buf)
  | .pipe l r, buf => nulterminate r (nulterminate l buf)
  | .list l r, buf => nulterminate r (nulterminate l buf)
  | .back c, buf => nulterminate c buf

/-- The tokens of the tree: the arguments and the files of its nodes. -/
def Cmd.spans : Cmd line → List (Span line)
  | .exec argv => argv
  | .redir c r => c.spans ++ [r.file]
  | .pipe l r => l.spans ++ r.spans
  | .list l r => l.spans ++ r.spans
  | .back c => c.spans

def CStr (buf : Nat → UInt8) (a : Nat) (str : Str) : Prop :=
  (∀ i c, str[i]? = some c → buf (a + i) = c ∧ c ≠ 0) ∧ buf (a + str.length) = 0

variable {buf : Nat → UInt8} {t u : Span line} {i : Nat}

theorem nulterminate_eq (c : Cmd line) (buf : Nat → UInt8) : nulterminate c buf = c.spans.foldl Span.terminate buf := by
  induction c generalizing buf with
  | exec argv => rfl
  | redir c r ih => rw [nulterminate, ih, Cmd.spans, List.foldl_append]; rfl
  | pipe l r ihl ihr | list l r ihl ihr => rw [nulterminate, ihl, ihr, Cmd.spans, List.foldl_append]
  | back c ih => exact ih buf

theorem terminate_all (ts : List (Span line)) (buf : Nat → UInt8) (i : Nat) :
    ts.foldl Span.terminate buf i = if ∃ t ∈ ts, t.eq.off = i then 0 else buf i := by
  induction ts generalizing buf with
  | nil => simp
  | cons t ts ih =>
    rw [List.foldl_cons, ih, Span.terminate, Function.update_apply]
    by_cases h : ∃ t ∈ ts, t.eq.off = i
    · simp [h]
    · by_cases hi : i = t.eq.off
      · simp [hi]
      · simp [h, hi, Ne.symm hi]

theorem Cursor.get (s : Cursor line) (i : Nat) : (line)[s.off + i]? = s.1[i]? := by
  obtain ⟨s, pre, rfl⟩ := s
  unfold Cursor.off
  rw [List.length_append, Nat.add_sub_cancel, List.getElem?_append_right (Nat.le_add_right ..), Nat.add_sub_cancel_left]

theorem Span.text_eq (t : Span line) : t.text = t.q.1.takeWhile wordByte := by
  have hq : t.q.1.takeWhile wordByte ++ t.eq.1 = t.q.1 := by rw [t.word, List.takeWhile_append_dropWhile]
  unfold Span.text
  rw [← hq, List.length_append, Nat.add_sub_cancel, List.take_left, hq]

theorem Span.off_eq (t : Span line) : t.q.off + t.text.length = t.eq.off := by
  have hle : t.eq.1.length ≤ t.q.1.length := t.word ▸ (List.dropWhile_suffix _).length_le
  have hline := t.q.2.length_le
  unfold Span.text Cursor.off
  rw [List.length_take]
  omega

theorem Span.get (hi : i < t.text.length) : ∃ c, t.text[i]? = some c ∧ t.q.1[i]? = some c ∧ wordByte c = true := by
  have hpre : t.text <+: t.q.1 := List.take_prefix ..
  refine ⟨t.text[i], List.getElem?_eq_getElem hi, ?_, ?_⟩
  · rw [← List.getElem?_eq_getElem hi]
    obtain ⟨r, hr⟩ := hpre
    rw [← hr, List.getElem?_append_left hi]
  · have hall := List.all_takeWhile (l := t.q.1) (p := wordByte)
    rw [← t.text_eq] at hall
    exact List.all_eq_true.1 hall _ (List.getElem_mem hi)

theorem Span.off_ne (t u : Span line) (hi : i < t.text.length) : u.eq.off ≠ t.q.off + i := by
  intro heq
  obtain ⟨c, -, hc, hword⟩ := Span.get hi
  have hhead := u.eq.get 0
  rw [Nat.add_zero, heq, t.q.get, hc] at hhead
  have := List.head?_dropWhile_not wordByte u.q.1
  rw [← u.word, List.head?_eq_getElem?, ← hhead] at this
  simp [hword] at this

/-- After `nulterminate`, each argument and each file of the tree is the C string of its token, which the end of no token cuts; the
strings make up the tree of the line. -/
theorem nulterminate_isolates {line : Str} {buf : Nat → UInt8} {c : Cmd line} (hbuf : CStr buf 0 line) (h : parsecmd line = .ok c) :
    Sh.parsecmd line = .ok c.text ∧ (∀ t ∈ c.spans, CStr (nulterminate c buf) t.q.off t.text) ∧
      ∀ t ∈ c.spans, ∀ u ∈ c.spans, ∀ b, ∀ i < t.text.length, u.terminate b (t.q.off + i) = b (t.q.off + i) := by
  refine ⟨by rw [← parsecmd_text, h]; rfl, fun t ht => ⟨fun i x hx => ?_, ?_⟩, fun t _ u _ b i hi => ?_⟩
  · have hi : i < t.text.length := (List.getElem?_eq_some_iff.1 hx).1
    obtain ⟨y, hy, hq, -⟩ := Span.get hi
    have hbyte := hbuf.1 (t.q.off + i) y (by rw [t.q.get, hq])
    rw [Nat.zero_add] at hbyte
    rw [nulterminate_eq, terminate_all, if_neg fun ⟨u, _, hu⟩ => t.off_ne u hi hu]
    rw [hx] at hy
    exact Option.some.inj hy ▸ hbyte
  · rw [t.off_eq, nulterminate_eq, terminate_all, if_pos ⟨t, ht, rfl⟩]
  · exact Function.update_of_ne (fun heq => t.off_ne u hi heq.symm) ..

/-- In `a>b`, the symbol between the two tokens is overwritten. -/
theorem nulterminate_isolates_redir : ∃ c, parsecmd [97, 62, 98] = .ok c ∧ c.text = .redir (.exec [[97]]) ⟨[98], 0x601, 1⟩ ∧
    ∀ t ∈ c.spans, CStr (nulterminate c fun i => [97, 62, 98].getD i 0) t.q.off t.text := by
  obtain ⟨c, hc, htext⟩ : ∃ c, parsecmd [97, 62, 98] = .ok c ∧ c.text = .redir (.exec [[97]]) ⟨[98], 0x601, 1⟩ := ⟨_, rfl, rfl⟩
  refine ⟨c, hc, htext, (nulterminate_isolates ⟨fun i x hx => ?_, rfl⟩ hc).2.1⟩
  rcases i with _ | _ | _ | i <;> cases hx <;> decide

end Xv6.Sh.Ptr
