import Mathlib.Tactic.Common

/-!
# The matcher of `grep` (`grep.c`)

A string is the list of its bytes before the NUL, so that a pointer into it is the rest of the list and `*text == '\0'` says
that the rest is empty. The three functions of the matcher are compared with a reading of the pattern as a list of items,
each of which takes a part of the text.
-/

namespace Xv6.Grep

abbrev Str := List UInt8

abbrev caret : UInt8 := 94
abbrev star : UInt8 := 42
abbrev dollar : UInt8 := 36
abbrev dot : UInt8 := 46

mutual

def matchhere : Str → Str → Bool
  | [], _ => true
  | c :: re, text =>
    if re.head? = some star then matchstar c re.tail text
    else if c = dollar ∧ re = [] then text = []
    else match text with
      | [] => false
      | t :: text => if c = dot ∨ c = t then matchhere re text else false
termination_by re => (re.length, 0, 0)
decreasing_by
  · exact Prod.Lex.left _ _ (by simp only [List.length_cons, List.length_tail]; omega)
  · exact Prod.Lex.left _ _ (by simp only [List.length_cons]; omega)

def matchstar (c : UInt8) (re text : Str) : Bool :=
  if matchhere re text then true
  else match text with
    | [] => false
    | t :: text => if t = c ∨ c = dot then matchstar c re text else false
termination_by (re.length, 1, text.length)
decreasing_by
  · exact Prod.Lex.right _ (Prod.Lex.left _ _ (by omega))
  · exact Prod.Lex.right _ (Prod.Lex.right _ (by simp only [List.length_cons]; omega))

end

def matchLoop (re : Str) : Str → Bool
  | [] => matchhere re []
  | t :: text => if matchhere re (t :: text) then true else matchLoop re text

def matchText (re text : Str) : Bool :=
  if re.head? = some caret then matchhere re.tail text else matchLoop re text

/-- A single character of a pattern, which stands for itself or for any character. -/
inductive Atom where
  | lit (c : UInt8)
  | any
  deriving DecidableEq

def Atom.Has : Atom → UInt8 → Prop
  | .lit c, t => t = c
  | .any, _ => True

inductive Item where
  | one (a : Atom)
  | many (a : Atom)
  | eol
  deriving DecidableEq

def atom (c : UInt8) : Atom := if c = dot then .any else .lit c

/-- A pattern read from left to right: a character directly before a `*` is one item with it, and a `$` is the end of the
text if it is the last character. Every other character stands for itself, a `*` that follows an item or nothing too. -/
def items : Str → List Item
  | [] => []
  | [c] => if c = dollar then [.eol] else [.one (atom c)]
  | c :: d :: re => if d = star then .many (atom c) :: items re else .one (atom c) :: items (d :: re)

/-- The item takes the string `u` when `rest` comes behind it. -/
def Item.Takes : Item → Str → Str → Prop
  | .one a, u, _ => ∃ t, u = [t] ∧ a.Has t
  | .many a, u, _ => ∀ t ∈ u, a.Has t
  | .eol, u, rest => u = [] ∧ rest = []

/-- The items in turn take the string `u` when `rest` comes behind it. -/
def Takes : List Item → Str → Str → Prop
  | [], u, _ => u = []
  | i :: is, u, rest => ∃ v w, u = v ++ w ∧ i.Takes v (w ++ rest) ∧ Takes is w rest

def MatchesHere (is : List Item) (text : Str) : Prop := ∃ u rest, text = u ++ rest ∧ Takes is u rest

/-- Some substring of the text matches the pattern; some prefix of it, when the pattern begins with `^`. -/
def Matches (re text : Str) : Prop :=
  if re.head? = some caret then MatchesHere (items re.tail) text
  else ∃ before u rest, text = before ++ u ++ rest ∧ Takes (items re) u rest

variable {is : List Item} {a : Atom} {c t : UInt8} {re text : Str}

theorem matchesHere_nil : MatchesHere [] text := ⟨[], text, rfl, rfl⟩

theorem matchesHere_eol : MatchesHere [.eol] text ↔ text = [] := by
  constructor
  · rintro ⟨u, rest, rfl, v, w, rfl, ⟨rfl, hrest⟩, rfl⟩
    simpa using hrest
  · rintro rfl
    exact ⟨[], [], rfl, [], [], rfl, ⟨rfl, rfl⟩, rfl⟩

theorem matchesHere_one_nil : ¬MatchesHere (.one a :: is) [] := by
  rintro ⟨u, rest, hnil, v, w, rfl, ⟨t, rfl, _⟩, _⟩
  simp at hnil

theorem matchesHere_one_cons : MatchesHere (.one a :: is) (t :: text) ↔ a.Has t ∧ MatchesHere is text := by
  constructor
  · rintro ⟨u, rest, heq, v, w, rfl, ⟨t', rfl, ha⟩, htakes⟩
    obtain ⟨rfl, rfl⟩ : t = t' ∧ text = w ++ rest := by simpa using heq
    exact ⟨ha, w, rest, rfl, htakes⟩
  · rintro ⟨ha, u, rest, rfl, htakes⟩
    exact ⟨t :: u, rest, rfl, [t], u, rfl, ⟨t, rfl, ha⟩, htakes⟩

theorem matchesHere_many_of (h : MatchesHere is text) : MatchesHere (.many a :: is) text := by
  obtain ⟨u, rest, rfl, htakes⟩ := h
  exact ⟨u, rest, rfl, [], u, rfl, by simp [Item.Takes], htakes⟩

theorem matchesHere_many_nil : MatchesHere (.many a :: is) [] ↔ MatchesHere is [] := by
  refine ⟨?_, matchesHere_many_of⟩
  rintro ⟨u, rest, hnil, v, w, rfl, _, htakes⟩
  obtain ⟨rfl, rfl, rfl⟩ : v = [] ∧ w = [] ∧ rest = [] := by simpa using hnil.symm
  exact ⟨[], [], rfl, htakes⟩

theorem matchesHere_many_cons : MatchesHere (.many a :: is) (t :: text) ↔
    MatchesHere is (t :: text) ∨ a.Has t ∧ MatchesHere (.many a :: is) text := by
  constructor
  · rintro ⟨u, rest, heq, v, w, rfl, hv, htakes⟩
    cases v with
    | nil => exact .inl ⟨w, rest, by simpa using heq, htakes⟩
    | cons t' v =>
      obtain ⟨rfl, rfl⟩ : t = t' ∧ text = v ++ w ++ rest := by simpa using heq
      refine .inr ⟨hv t (List.mem_cons_self ..), v ++ w, rest, rfl, v, w, rfl, ?_, htakes⟩
      exact fun x hx => hv x (List.mem_cons_of_mem _ hx)
  · rintro (h | ⟨ha, u, rest, rfl, v, w, rfl, hv, htakes⟩)
    · exact matchesHere_many_of h
    · refine ⟨t :: (v ++ w), rest, rfl, t :: v, w, rfl, ?_, htakes⟩
      intro x hx
      rcases List.mem_cons.1 hx with rfl | hx
      · exact ha
      · exact hv x hx

theorem atom_has : (atom c).Has t ↔ c = dot ∨ c = t := by
  unfold atom
  split
  · rename_i hc
    simp [Atom.Has, hc]
  · rename_i hc
    simp [Atom.Has, hc, eq_comm]

theorem matchstar_iff (hre : ∀ text, matchhere re text = true ↔ MatchesHere is text) :
    ∀ text, matchstar c re text = true ↔ MatchesHere (.many (atom c) :: is) text := by
  intro text
  induction text with
  | nil => rw [matchstar, matchesHere_many_nil, ← hre]; simp
  | cons t text ih =>
    rw [matchstar, matchesHere_many_cons, ← hre, atom_has, ← ih]
    have hcomm : (t = c ∨ c = dot) = (c = dot ∨ c = t) := by rw [or_comm, eq_comm (a := t)]
    simp only [hcomm]
    split
    · simp [*]
    · split <;> simp [*]

theorem matchhere_star : matchhere (c :: star :: re) text = matchstar c re text := by
  cases text <;> simp [matchhere]

theorem matchhere_eol : matchhere [dollar] text = decide (text = []) := by
  cases text <;> simp [matchhere]

theorem matchhere_one (hstar : re.head? ≠ some star) (heol : ¬(c = dollar ∧ re = []))
    (hre : ∀ text, matchhere re text = true ↔ MatchesHere is text) :
    matchhere (c :: re) text = true ↔ MatchesHere (.one (atom c) :: is) text := by
  cases text with
  | nil =>
    rw [matchhere, if_neg hstar, if_neg heol]
    simp [matchesHere_one_nil]
  | cons t text =>
    rw [matchhere, if_neg hstar, if_neg heol, matchesHere_one_cons, atom_has, ← hre]
    split <;> simp [*]

theorem matchhere_iff : ∀ re text, matchhere re text = true ↔ MatchesHere (items re) text := by
  intro re
  induction re using items.induct with
  | case1 => exact fun text => iff_of_true (by rw [matchhere]) matchesHere_nil
  | case2 =>
    intro text
    rw [matchhere_eol, items, if_pos rfl, matchesHere_eol, decide_eq_true_iff]
  | case3 c hc =>
    intro text
    rw [items, if_neg hc]
    exact matchhere_one (by simp) (by simp [hc]) fun _ => iff_of_true (by rw [matchhere]) matchesHere_nil
  | case4 c re ih =>
    intro text
    rw [matchhere_star, items, if_pos rfl]
    exact matchstar_iff ih text
  | case5 c d re hd ih =>
    intro text
    rw [items, if_neg hd]
    exact matchhere_one (by simpa using hd) (by simp) ih

theorem matchLoop_iff : ∀ text, matchLoop re text = true ↔ ∃ before after, text = before ++ after ∧ matchhere re after = true := by
  intro text
  induction text with
  | nil =>
    rw [matchLoop]
    constructor
    · exact fun h => ⟨[], [], rfl, h⟩
    · rintro ⟨before, after, hnil, h⟩
      obtain ⟨rfl, rfl⟩ : before = [] ∧ after = [] := by simpa using hnil.symm
      exact h
  | cons t text ih =>
    rw [matchLoop]
    split
    · rename_i h
      exact iff_of_true rfl ⟨[], t :: text, rfl, h⟩
    · rename_i hno
      rw [ih]
      constructor
      · rintro ⟨before, after, rfl, h⟩
        exact ⟨t :: before, after, rfl, h⟩
      · rintro ⟨before, after, heq, h⟩
        cases before with
        | nil => exact absurd (by simpa [heq] using h) hno
        | cons t' before =>
          obtain ⟨rfl, rfl⟩ : t = t' ∧ text = before ++ after := by simpa using heq
          exact ⟨before, after, rfl, h⟩

/-- `match` finds exactly what the pattern means, in every text. -/
theorem match_iff_matches (re text : Str) : matchText re text = true ↔ Matches re text := by
  unfold matchText Matches
  split
  · exact matchhere_iff re.tail text
  · rw [matchLoop_iff]
    constructor
    · rintro ⟨before, after, rfl, h⟩
      obtain ⟨u, rest, rfl, htakes⟩ := (matchhere_iff re after).1 h
      exact ⟨before, u, rest, by simp, htakes⟩
    · rintro ⟨before, u, rest, rfl, htakes⟩
      exact ⟨before, u ++ rest, by simp, (matchhere_iff re _).2 ⟨u, rest, rfl, htakes⟩⟩

end Xv6.Grep
