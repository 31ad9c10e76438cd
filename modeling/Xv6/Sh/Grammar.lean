import Mathlib.Logic.Function.Iterate
import Xv6.Sh.Parse

/-!
# The grammar of the shell

The tokens of a line, the grammar over them with the tree of each derivation, and the proof that `parsecmd` returns a tree exactly
if the tokens derive it.
-/

namespace Xv6.Sh

open List (append_assoc append_nil cons_append nil_append)

abbrev Token := Tok × Str

/-- The tokens that `gettoken` finds one after the other. -/
def tokens (s : Str) : List Token :=
  if _h : (gettoken s).1 = .eof then []
  else ((gettoken s).1, (gettoken s).2.1) :: tokens (gettoken s).2.2
termination_by s.length
decreasing_by exact gettoken_shorter fun hnil => _h (gettoken_eof hnil)

def first (ts : List Token) : Tok := (ts.head?.map Prod.fst).getD .eof

def Tok.IsRedir (t : Tok) : Prop := t = .lt ∨ t = .gt ∨ t = .append

/-- `redir*`, with the redirections. -/
inductive Redirs : List Token → List Redir → Prop
  | nil : Redirs [] []
  | cons {o : Token} {f : Str} {ts : List Token} {rs : List Redir} (ho : o.1.IsRedir) (h : Redirs ts rs) :
      Redirs (o :: (.word, f) :: ts) (redirOf o.1 f ++ rs)

/-- `(word redir*)*`, with the words and the redirections. -/
inductive Words : List Token → List Str → List Redir → Prop
  | nil : Words [] [] []
  | cons {w : Str} {rt ts : List Token} {rs new : List Redir} {ws : List Str} (hr : Redirs rt rs) (h : Words ts ws new) :
      Words ((.word, w) :: (rt ++ ts)) (w :: ws) (rs ++ new)

inductive Nonterminal where
  | line
  | pipe
  | exec

/-- The grammar, with the tree of the derivation:

    line := pipe '&'* [';' line]
    pipe := exec ['|' pipe]
    exec := '(' line ')' redir* | redir* (word redir*)*
-/
inductive Derives : Nonterminal → List Token → Cmd → Prop
  | line {ts amps : List Token} {c : Cmd} (h : Derives .pipe ts c) (hamps : ∀ t ∈ amps, t.1 = .amp) :
      Derives .line (ts ++ amps) (Cmd.back^[amps.length] c)
  | lines {m : Token} {ts amps ts' : List Token} {c d : Cmd} (h : Derives .pipe ts c) (hamps : ∀ t ∈ amps, t.1 = .amp)
      (hm : m.1 = .semi) (h' : Derives .line ts' d) :
      Derives .line (ts ++ (amps ++ m :: ts')) (.list (Cmd.back^[amps.length] c) d)
  | pipe {ts : List Token} {c : Cmd} (h : Derives .exec ts c) : Derives .pipe ts c
  | pipes {b : Token} {ts ts' : List Token} {c d : Cmd} (h : Derives .exec ts c) (hb : b.1 = .bar) (h' : Derives .pipe ts' d) :
      Derives .pipe (ts ++ b :: ts') (.pipe c d)
  | block {l r : Token} {ts rt : List Token} {c : Cmd} {rs : List Redir} (hl : l.1 = .lparen) (h : Derives .line ts c) (hr : r.1 = .rparen)
      (hrs : Redirs rt rs) : Derives .exec (l :: (ts ++ r :: rt)) (wrap c rs)
  | simple {rt wt : List Token} {ws : List Str} {rs new : List Redir} (hrs : Redirs rt rs) (hws : Words wt ws new)
      (hlen : ws.length < MAXARGS) :
      Derives .exec (rt ++ wt) (wrap (.exec ws) (rs ++ new))

variable {s s' toks : Str} {ts rest amps rt wt : List Token} {t : Token} {rs new rs' : List Redir}
  {argv ws argv' : List Str} {c d : Cmd} {α β : Type}

theorem tokens_eof (h : (gettoken s).1 = .eof) : tokens s = [] := by rw [tokens, dif_pos h]

theorem tokens_next (h : (gettoken s).1 ≠ .eof) :
    tokens s = ((gettoken s).1, (gettoken s).2.1) :: tokens (gettoken s).2.2 := by rw [tokens, dif_neg h]

theorem first_tokens (s : Str) : first (tokens s) = (gettoken s).1 := by
  by_cases h : (gettoken s).1 = .eof
  · rw [tokens_eof h, h]
    rfl
  · rw [tokens_next h]
    rfl

theorem tokens_skip (s : Str) : tokens (skip s) = tokens s := by
  rw [tokens, gettoken_skip, ← tokens]

def Tok.byte : Tok → Option UInt8
  | .bar => some 124
  | .lparen => some 40
  | .rparen => some 41
  | .semi => some 59
  | .amp => some 38
  | .lt => some 60
  | .gt => some 62
  | .append => some 62
  | .eof => none
  | .word => none

theorem scan_byte (c : UInt8) (s : Str) :
    (scan (c :: s)).1.byte = if symbols.contains c then some c else none := by
  rw [scan]
  split_ifs with h1 h2 h3 h4 h5 h6 h7 h8 h9 h10
  all_goals first | (subst_vars; rfl) | skip
  all_goals simp_all [symbols]

theorem scan_ne_eof (c : UInt8) (s : Str) : (scan (c :: s)).1 ≠ .eof := by
  rw [scan]
  split_ifs <;> simp

theorem skip_of_tokens (h : tokens s = []) : skip s = [] := by
  rcases hs : skip s with _ | ⟨c, r⟩
  · rfl
  · have hne : (gettoken s).1 ≠ .eof := by
      rw [gettoken, hs]
      exact scan_ne_eof c r
    rw [tokens_next hne] at h
    cases h

theorem peek_first (s : Str) (htoks : toks.all symbols.contains = true) :
    (peek s toks).1 = (first (tokens s)).byte.any fun c => toks.contains c := by
  rw [first_tokens, peek, gettoken]
  rcases skip s with _ | ⟨c, r⟩
  · rfl
  · rw [scan_byte]
    by_cases hc : symbols.contains c = true
    · rw [if_pos hc]
      rfl
    · rw [if_neg hc]
      have : toks.contains c = false := by
        rw [Bool.eq_false_iff]
        intro hin
        exact hc (List.all_eq_true.1 htoks c (by simpa using hin))
      simpa using this

def Tok.Ends (t : Tok) : Prop := t = .eof ∨ t = .bar ∨ t = .rparen ∨ t = .amp ∨ t = .semi

instance (t : Tok) : Decidable t.IsRedir := inferInstanceAs (Decidable (_ ∨ _))

instance (t : Tok) : Decidable t.Ends := inferInstanceAs (Decidable (_ ∨ _))

theorem peek_redir (s : Str) : (peek s [60, 62]).1 = true ↔ (first (tokens s)).IsRedir := by
  rw [peek_first s (by decide)]
  cases first (tokens s) <;> decide

theorem peek_end (s : Str) : (peek s [124, 41, 38, 59]).1 = true ↔ (first (tokens s)).Ends ∧ first (tokens s) ≠ .eof := by
  rw [peek_first s (by decide)]
  cases first (tokens s) <;> decide

theorem peek_amp (s : Str) : (peek s [38]).1 = true ↔ first (tokens s) = .amp := by
  rw [peek_first s (by decide)]
  cases first (tokens s) <;> decide

theorem peek_semi (s : Str) : (peek s [59]).1 = true ↔ first (tokens s) = .semi := by
  rw [peek_first s (by decide)]
  cases first (tokens s) <;> decide

theorem peek_bar (s : Str) : (peek s [124]).1 = true ↔ first (tokens s) = .bar := by
  rw [peek_first s (by decide)]
  cases first (tokens s) <;> decide

theorem peek_lparen (s : Str) : (peek s [40]).1 = true ↔ first (tokens s) = .lparen := by
  rw [peek_first s (by decide)]
  cases first (tokens s) <;> decide

theorem peek_rparen (s : Str) : (peek s [41]).1 = true ↔ first (tokens s) = .rparen := by
  rw [peek_first s (by decide)]
  cases first (tokens s) <;> decide

def Parsed.out {α : Type} (x : Parsed α s) : Except String (α × Str) := x.map Subtype.val

theorem Parsed.out_weaken (h : s'.length ≤ s.length) (x : Parsed α s') : (x.weaken h).out = x.out := by
  rcases x with e | p <;> rfl

theorem parseredirs_out (rs : List Redir) (s : Str) : (parseredirs rs s).out =
    if (first (tokens s)).IsRedir then
      if (gettoken (gettoken (skip s)).2.2).1 ≠ .word then .error "missing file for redirection"
      else (parseredirs (rs ++ redirOf (gettoken (skip s)).1 (gettoken (gettoken (skip s)).2.2).2.1)
        (gettoken (gettoken (skip s)).2.2).2.2).out
    else .ok (rs, skip s) := by
  rw [parseredirs]
  by_cases h : (first (tokens s)).IsRedir
  · rw [dif_pos ((peek_redir s).2 h), if_pos h]
    change Parsed.out (if (gettoken (gettoken (skip s)).2.2).1 ≠ .word then _ else _) = _
    split
    · rfl
    · exact Parsed.out_weaken _ _
  · rw [dif_neg (fun hp => h ((peek_redir s).1 hp)), if_neg h]
    rfl

theorem parseargs_out (argv : List Str) (rs : List Redir) (s : Str) : (parseargs argv rs s).out =
    if (first (tokens s)).Ends then
      .ok ((argv, rs), if first (tokens s) = .eof then (gettoken (skip s)).2.2 else skip s)
    else if first (tokens s) ≠ .word then .error "syntax"
    else if argv.length + 1 ≥ MAXARGS then .error "too many args"
    else (parseredirs rs (gettoken (skip s)).2.2).out.bind fun p =>
      (parseargs (argv ++ [(gettoken (skip s)).2.1]) p.1 p.2).out := by
  have htok : (gettoken (skip s)).1 = first (tokens s) := by rw [gettoken_skip, first_tokens]
  rw [parseargs]
  by_cases h : (first (tokens s)).Ends ∧ first (tokens s) ≠ .eof
  · rw [if_pos ((peek_end s).2 h), if_pos h.1, if_neg h.2]
    rfl
  · rw [if_neg (fun hp => h ((peek_end s).1 hp))]
    change Parsed.out (if h : (gettoken (skip s)).1 = .eof then _ else _) = _
    by_cases he : first (tokens s) = .eof
    · rw [dif_pos (htok.trans he), if_pos (show Tok.Ends _ from Or.inl he), if_pos he]
      rfl
    · rw [dif_neg (fun hc => he (htok.symm.trans hc)), if_neg (fun hE => h ⟨hE, he⟩)]
      by_cases hw : first (tokens s) = .word
      · rw [if_neg (not_not.2 hw)]
        change Parsed.out (if (gettoken (skip s)).1 ≠ .word then _
          else if (argv ++ [(gettoken (skip s)).2.1]).length ≥ MAXARGS then _ else _) = _
        rw [if_neg (not_not.2 (htok.trans hw)), List.length_append, List.length_singleton]
        split
        · rfl
        · change Parsed.out (Except.bind (parseredirs rs (gettoken (skip s)).2.2) _) = _
          rcases parseredirs rs (gettoken (skip s)).2.2 with e | p
          · rfl
          · exact Parsed.out_weaken (p.2.trans ((gettoken_le _).trans (skip_length_le s))) _
      · rw [if_pos hw]
        change Parsed.out (if (gettoken (skip s)).1 ≠ .word then _ else _) = _
        rw [if_pos (fun hc => hw (htok.symm.trans hc))]
        rfl

theorem parseback_out (c : Cmd) (s : Str) : (parseback c s).1 =
    if first (tokens s) = .amp then (parseback (.back c) (gettoken (skip s)).2.2).1 else (c, skip s) := by
  rw [parseback]
  by_cases h : first (tokens s) = .amp
  · rw [dif_pos ((peek_amp s).2 h), if_pos h]
    rfl
  · rw [dif_neg (fun hp => h ((peek_amp s).1 hp)), if_neg h]
    rfl

theorem parseline_out (s : Str) : (parseline s).out = (parsepipe s).out.bind fun p =>
    if first (tokens (parseback p.1 p.2).1.2) = .semi then
      (parseline (gettoken (skip (parseback p.1 p.2).1.2)).2.2).out.bind fun r => .ok (.list (parseback p.1 p.2).1.1 r.1, r.2)
    else .ok ((parseback p.1 p.2).1.1, skip (parseback p.1 p.2).1.2) := by
  rw [parseline]
  rcases parsepipe s with e | p
  · rfl
  · change Parsed.out (if h : (peek (parseback p.1.1 p.1.2).1.2 [59]).1 = true then _ else _) =
      if first (tokens (parseback p.1.1 p.1.2).1.2) = .semi then _ else _
    by_cases h : first (tokens (parseback p.1.1 p.1.2).1.2) = .semi
    · rw [dif_pos ((peek_semi _).2 h), if_pos h]
      change Parsed.out (Except.bind (parseline (gettoken (skip (parseback p.1.1 p.1.2).1.2)).2.2) _) =
        Except.bind (parseline (gettoken (skip (parseback p.1.1 p.1.2).1.2)).2.2).out _
      rcases parseline (gettoken (skip (parseback p.1.1 p.1.2).1.2)).2.2 with e | r
      · rfl
      · rfl
    · rw [dif_neg (fun hp => h ((peek_semi _).1 hp)), if_neg h]
      rfl

theorem parsepipe_out (s : Str) : (parsepipe s).out = (parseexec s).out.bind fun p =>
    if first (tokens p.2) = .bar then
      (parsepipe (gettoken (skip p.2)).2.2).out.bind fun r => .ok (.pipe p.1 r.1, r.2)
    else .ok (p.1, skip p.2) := by
  rw [parsepipe]
  rcases parseexec s with e | p
  · rfl
  · change Parsed.out (if h : (peek p.1.2 [124]).1 = true then _ else _) = if first (tokens p.1.2) = .bar then _ else _
    by_cases h : first (tokens p.1.2) = .bar
    · rw [dif_pos ((peek_bar _).2 h), if_pos h]
      change Parsed.out (Except.bind (parsepipe (gettoken (skip p.1.2)).2.2) _) =
        Except.bind (parsepipe (gettoken (skip p.1.2)).2.2).out _
      rcases parsepipe (gettoken (skip p.1.2)).2.2 with e | r
      · rfl
      · rfl
    · rw [dif_neg (fun hp => h ((peek_bar _).1 hp)), if_neg h]
      rfl

theorem parseexec_out (s : Str) : (parseexec s).out =
    if first (tokens s) = .lparen then (parseblock (skip s)).out
    else (parseredirs [] (skip s)).out.bind fun p =>
      (parseargs [] p.1 p.2).out.bind fun a => .ok (wrap (.exec a.1.1) a.1.2, a.2) := by
  rw [parseexec]
  by_cases h : first (tokens s) = .lparen
  · rw [if_pos ((peek_lparen s).2 h), if_pos h]
    exact Parsed.out_weaken _ _
  · rw [if_neg (fun hp => h ((peek_lparen s).1 hp)), if_neg h]
    change Parsed.out (Except.bind (parseredirs [] (skip s)) _) = Except.bind (parseredirs [] (skip s)).out _
    rcases parseredirs [] (skip s) with e | p
    · rfl
    · change Parsed.out (Except.bind (parseargs [] p.1.1 p.1.2) _) = Except.bind (parseargs [] p.1.1 p.1.2).out _
      rcases parseargs [] p.1.1 p.1.2 with e | a
      · rfl
      · rfl

theorem parseblock_out (s : Str) : (parseblock s).out =
    if first (tokens s) = .lparen then (parseline (gettoken (skip s)).2.2).out.bind fun p =>
      if first (tokens p.2) = .rparen then
        (parseredirs [] (gettoken (skip p.2)).2.2).out.bind fun r => .ok (wrap p.1 r.1, r.2)
      else .error "syntax - missing )"
    else .error "parseblock" := by
  rw [parseblock]
  by_cases h : first (tokens s) = .lparen
  · rw [dif_pos ((peek_lparen s).2 h), if_pos h]
    change Parsed.out (Except.bind (parseline (gettoken (skip s)).2.2) _) =
      Except.bind (parseline (gettoken (skip s)).2.2).out _
    rcases parseline (gettoken (skip s)).2.2 with e | p
    · rfl
    · change Parsed.out (if (peek p.1.2 [41]).1 = true then _ else _) = if first (tokens p.1.2) = .rparen then _ else _
      by_cases hr : first (tokens p.1.2) = .rparen
      · rw [if_pos ((peek_rparen _).2 hr), if_pos hr]
        change Parsed.out (Except.bind (parseredirs [] (gettoken (skip p.1.2)).2.2) _) =
          Except.bind (parseredirs [] (gettoken (skip p.1.2)).2.2).out _
        rcases parseredirs [] (gettoken (skip p.1.2)).2.2 with e | r
        · rfl
        · rfl
      · rw [if_neg (fun hp => hr ((peek_rparen _).1 hp)), if_neg hr]
        rfl
  · rw [dif_neg (fun hp => h ((peek_lparen s).1 hp)), if_neg h]
    rfl

theorem tokens_read (h : first (tokens s) ≠ .eof) :
    tokens s = (first (tokens s), (gettoken (skip s)).2.1) :: tokens (gettoken (skip s)).2.2 := by
  rw [first_tokens] at h
  rw [first_tokens, gettoken_skip]
  exact tokens_next h

theorem read_length_lt (h : first (tokens s) ≠ .eof) : (gettoken (skip s)).2.2.length < s.length := by
  rw [first_tokens] at h
  rw [gettoken_skip]
  exact gettoken_shorter fun hnil => h (gettoken_eof hnil)

theorem tokens_end (s : Str) : tokens (if first (tokens s) = .eof then (gettoken (skip s)).2.2 else skip s) = tokens s := by
  split
  next he =>
    have hnil : tokens s = [] := tokens_eof (by rw [← first_tokens]; exact he)
    rw [gettoken_skip, gettoken, skip_of_tokens hnil, hnil]
    exact tokens_eof rfl
  next => exact tokens_skip s

theorem Tok.IsRedir.ne_eof {t : Tok} (h : t.IsRedir) : t ≠ .eof := by
  rintro rfl
  revert h
  decide

theorem out_le {x : Parsed α s} {a : α} (h : x.out = .ok (a, s')) : s'.length ≤ s.length := by
  rcases x with e | ⟨⟨a', s''⟩, hp⟩
  · cases h
  · cases h
    exact hp

theorem parseredirs_sound (h : (parseredirs rs s).out = .ok (rs', s')) :
    ∃ rt new, tokens s = rt ++ tokens s' ∧ Redirs rt new ∧ rs' = rs ++ new := by
  induction hn : s.length using Nat.strong_induction_on generalizing s rs with
  | _ n ih =>
    rw [parseredirs_out] at h
    by_cases hr : (first (tokens s)).IsRedir
    · rw [if_pos hr] at h
      split at h
      next => cases h
      next hw =>
        rw [not_not] at hw
        have hlt := read_length_lt hr.ne_eof
        obtain ⟨rt, new, ht, hrs, rfl⟩ := ih _ (by have := gettoken_le (gettoken (skip s)).2.2; omega) h rfl
        have hfile : tokens (gettoken (skip s)).2.2 = (.word, (gettoken (gettoken (skip s)).2.2).2.1) ::
            tokens (gettoken (gettoken (skip s)).2.2).2.2 := by
          rw [tokens_next (by rw [hw]; simp), hw]
        refine ⟨_ :: _ :: rt, _, ?_, Redirs.cons (o := (first (tokens s), (gettoken (skip s)).2.1))
          (f := (gettoken (gettoken (skip s)).2.2).2.1) hr hrs, ?_⟩
        · rw [tokens_read hr.ne_eof, hfile, ht]
          rfl
        · rw [append_assoc, gettoken_skip, ← first_tokens]
    · rw [if_neg hr] at h
      cases h
      exact ⟨[], [], (tokens_skip s).symm, .nil, (append_nil _).symm⟩

theorem parseargs_sound (h : (parseargs argv rs s).out = .ok ((argv', rs'), s'))
    (hlen : argv.length < MAXARGS) :
    ∃ wt ws new, tokens s = wt ++ tokens s' ∧ Words wt ws new ∧ argv' = argv ++ ws ∧ rs' = rs ++ new ∧ argv'.length < MAXARGS := by
  induction hn : s.length using Nat.strong_induction_on generalizing s argv rs with
  | _ n ih =>
    rw [parseargs_out] at h
    by_cases hE : (first (tokens s)).Ends
    · rw [if_pos hE] at h
      cases h
      exact ⟨[], [], [], (tokens_end s).symm, .nil, (append_nil _).symm, (append_nil _).symm, hlen⟩
    · rw [if_neg hE] at h
      split at h
      next => cases h
      next hw =>
        rw [not_not] at hw
        split at h
        next => cases h
        next hmax =>
          have hne : first (tokens s) ≠ .eof := by rw [hw]; exact fun hc => by cases hc
          rcases hr : (parseredirs rs (gettoken (skip s)).2.2).out with e | ⟨rs1, s1⟩
          · rw [hr] at h
            cases h
          · rw [hr] at h
            obtain ⟨rt, new1, ht1, hrs1, rfl⟩ := parseredirs_sound hr
            have hle := out_le hr
            obtain ⟨wt, ws, new, ht, hws, rfl, rfl, hlen'⟩ := ih s1.length (by have := read_length_lt hne; omega) h
              (by rw [List.length_append, List.length_singleton]; omega) rfl
            refine ⟨_, _, _, ?_, Words.cons (w := (gettoken (skip s)).2.1) hrs1 hws, ?_, ?_, hlen'⟩
            · rw [tokens_read hne, hw, ht1, ht, cons_append, append_assoc]
            · rw [append_assoc]
              rfl
            · rw [append_assoc]

theorem parseback_sound (c : Cmd) (s : Str) : ∃ amps : List Token, tokens s = amps ++ tokens (parseback c s).1.2 ∧
    (∀ t ∈ amps, t.1 = .amp) ∧ (parseback c s).1.1 = Cmd.back^[amps.length] c := by
  obtain ⟨n, hn⟩ : ∃ n, s.length = n := ⟨_, rfl⟩
  induction n using Nat.strong_induction_on generalizing s c with
  | _ n ih =>
    rw [parseback_out]
    by_cases h : first (tokens s) = .amp
    · rw [if_pos h]
      have hne : first (tokens s) ≠ .eof := by rw [h]; exact fun hc => by cases hc
      obtain ⟨amps, ht, hamps, hc⟩ := ih _ (hn ▸ read_length_lt hne) (.back c) (gettoken (skip s)).2.2 rfl
      refine ⟨(.amp, (gettoken (skip s)).2.1) :: amps, ?_, ?_, ?_⟩
      · rw [tokens_read hne, h, cons_append, ← ht]
      · intro t ht'
        rcases List.mem_cons.1 ht' with rfl | ht'
        · rfl
        · exact hamps t ht'
      · rw [hc]
        rfl
    · rw [if_neg h]
      exact ⟨[], (tokens_skip s).symm, (fun t ht => by cases ht), rfl⟩

def parse : Nonterminal → (s : Str) → Parsed Cmd s
  | .line => parseline
  | .pipe => parsepipe
  | .exec => parseexec

theorem bind_ok {x : Except String α} {f : α → Except String β} {b : β} (h : x.bind f = .ok b) :
    ∃ a, x = .ok a ∧ f a = .ok b := by
  rcases x with e | a
  · cases h
  · exact ⟨a, rfl, h⟩

theorem parse_sound (n : Nonterminal) (h : (parse n s).out = .ok (c, s')) :
    ∃ ts, tokens s = ts ++ tokens s' ∧ Derives n ts c := by
  induction hn : s.length using Nat.strong_induction_on generalizing s s' c n with
  | _ k ih =>
    -- `parseexec` before `parsepipe`, `parsepipe` before `parseline`
    have hexec : ∀ {c s'}, (parseexec s).out = .ok (c, s') → ∃ ts, tokens s = ts ++ tokens s' ∧ Derives .exec ts c := by
      intro c s' h
      rw [parseexec_out] at h
      by_cases hp : first (tokens s) = .lparen
      · rw [if_pos hp, parseblock_out, tokens_skip, if_pos hp, skip_skip] at h
        have hne : first (tokens s) ≠ .eof := by rw [hp]; exact fun hc => by cases hc
        obtain ⟨⟨c1, s1⟩, h1, h⟩ := bind_ok h
        obtain ⟨ts, ht, hd⟩ := ih _ (hn ▸ read_length_lt hne) .line h1 rfl
        dsimp only at h
        split at h
        next hr =>
          have hne1 : first (tokens s1) ≠ .eof := by rw [hr]; exact fun hc => by cases hc
          obtain ⟨⟨rs, s2⟩, h2, h⟩ := bind_ok h
          obtain ⟨rt, new, ht2, hrs, rfl⟩ := parseredirs_sound h2
          cases h
          refine ⟨_, ?_, Derives.block (l := (.lparen, (gettoken (skip s)).2.1))
            (r := (.rparen, (gettoken (skip s1)).2.1)) rfl hd rfl hrs⟩
          rw [tokens_read hne, hp, ht, tokens_read hne1, hr, ht2]
          simp
        next => cases h
      · rw [if_neg hp] at h
        obtain ⟨⟨rs, s1⟩, h1, h⟩ := bind_ok h
        obtain ⟨⟨⟨argv, rs'⟩, s2⟩, h2, h⟩ := bind_ok h
        cases h
        obtain ⟨rt, new, ht, hrs, rfl⟩ := parseredirs_sound h1
        obtain ⟨wt, ws, new', ht', hws, rfl, rfl, hlen⟩ := parseargs_sound h2 (by decide)
        rw [tokens_skip] at ht
        exact ⟨rt ++ wt, by rw [ht, ht', append_assoc], Derives.simple hrs hws hlen⟩
    have hpipe : ∀ {c s'}, (parsepipe s).out = .ok (c, s') → ∃ ts, tokens s = ts ++ tokens s' ∧ Derives .pipe ts c := by
      intro c s' h
      rw [parsepipe_out] at h
      obtain ⟨⟨c1, s1⟩, h1, h⟩ := bind_ok h
      obtain ⟨ts, ht, hd⟩ := hexec h1
      dsimp only at h
      split at h
      next hb =>
        have hne : first (tokens s1) ≠ .eof := by rw [hb]; exact fun hc => by cases hc
        obtain ⟨⟨c2, s2⟩, h2, h⟩ := bind_ok h
        obtain ⟨ts2, ht2, hd2⟩ := ih _ (lt_of_lt_of_le (read_length_lt hne) (hn ▸ out_le h1)) .pipe h2 rfl
        cases h
        refine ⟨_, ?_, Derives.pipes (b := (.bar, (gettoken (skip s1)).2.1)) hd rfl hd2⟩
        rw [ht, tokens_read hne, hb, ht2]
        simp
      next =>
        cases h
        exact ⟨ts, by rw [tokens_skip]; exact ht, .pipe hd⟩
    rcases n
    case exec => exact hexec h
    case pipe => exact hpipe h
    case line =>
      rw [parse, parseline_out] at h
      obtain ⟨⟨c1, s1⟩, h1, h⟩ := bind_ok h
      obtain ⟨ts, ht, hd⟩ := hpipe h1
      dsimp only at h
      obtain ⟨amps, hta, hamps, hc⟩ := parseback_sound c1 s1
      have hle := (parseback c1 s1).2
      generalize (parseback c1 s1).1 = b at h hta hc hle
      split at h
      next hb =>
        have hne : first (tokens b.2) ≠ .eof := by rw [hb]; exact fun hc => by cases hc
        obtain ⟨⟨c2, s2⟩, h2, h⟩ := bind_ok h
        obtain ⟨ts2, ht2, hd2⟩ := ih _ (lt_of_lt_of_le (read_length_lt hne) (hle.trans (hn ▸ out_le h1))) .line h2 rfl
        cases h
        rw [hc]
        refine ⟨_, ?_, Derives.lines (m := (.semi, (gettoken (skip b.2)).2.1)) hd hamps rfl hd2⟩
        rw [ht, hta, tokens_read hne, hb, ht2]
        simp
      next =>
        cases h
        rw [hc]
        exact ⟨_, by rw [tokens_skip, ht, hta, append_assoc], .line hd hamps⟩

theorem parsecmd_out (s : Str) :
    parsecmd s = (parseline s).out.bind fun p => if skip p.2 ≠ [] then .error "syntax" else .ok p.1 := by
  unfold parsecmd
  rcases parseline s with e | p
  · rfl
  · rfl

theorem parsecmd_derives (h : parsecmd s = .ok c) : Derives .line (tokens s) c := by
  rw [parsecmd_out] at h
  obtain ⟨⟨c', s'⟩, h1, h2⟩ := bind_ok h
  dsimp only at h2
  split at h2
  next => cases h2
  next hnil =>
    cases h2
    obtain ⟨ts, ht, hd⟩ := parse_sound .line h1
    rw [not_not] at hnil
    rw [ht, tokens_eof (gettoken_eof hnil), append_nil]
    exact hd

end Xv6.Sh
