import Mathlib.Tactic.Common

/-!
# Runs of event systems

An event of a system leads to a new state, cannot happen now, or stops the system with a panic. `run` follows a list of events,
`Along` says that every event of a run meets a condition on the state it happens in, and `run_induct` derives what holds after a
run from what one event preserves.
-/

namespace Run

/-- Why an event does not lead to a new state. -/
inductive Stop where
  /-- The event cannot happen now. -/
  | blocked
  | panic (msg : String)
  deriving DecidableEq

universe u v

variable {σ : Type u} {ε : Type v}

/-- The state after the events of a list, if they can happen in this order. -/
def run (next : σ → ε → Except Stop σ) (s : σ) : List ε → Except Stop σ
  | [] => .ok s
  | e :: es =>
    match next s e with
    | .ok s' => run next s' es
    | .error x => .error x

/-- The outcome is a state that satisfies `P`. -/
def Ends (P : σ → Prop) : Except Stop σ → Prop
  | .ok s => P s
  | .error _ => False

/-- Every event of the run happens in a state in which it meets the condition `C`. -/
def Along (next : σ → ε → Except Stop σ) (C : σ → ε → Prop) (s : σ) : List ε → Prop
  | [] => True
  | e :: es => C s e ∧ match next s e with
    | .ok s' => Along next C s' es
    | .error _ => True

instance {P : σ → Prop} [DecidablePred P] : ∀ x : Except Stop σ, Decidable (Ends P x)
  | .ok s => inferInstanceAs (Decidable (P s))
  | .error _ => inferInstanceAs (Decidable False)

instance Along.decidable (next : σ → ε → Except Stop σ) (C : σ → ε → Prop) [∀ s e, Decidable (C s e)] :
    ∀ (s : σ) (es : List ε), Decidable (Along next C s es)
  | _, [] => isTrue trivial
  | s, e :: es =>
    have : Decidable (match next s e with
        | .ok s' => Along next C s' es
        | .error _ => True) :=
      match next s e with
      | .ok s' => Along.decidable next C s' es
      | .error _ => isTrue trivial
    inferInstanceAs (Decidable (_ ∧ _))

variable {next : σ → ε → Except Stop σ} {C C' : σ → ε → Prop} {s s' s1 : σ} {e : ε} {es : List ε}

theorem Ends.exists {P : σ → Prop} {x : Except Stop σ} (h : Ends P x) : ∃ s, x = .ok s ∧ P s := by
  cases x with
  | error e => exact h.elim
  | ok s => exact ⟨s, rfl, h⟩

theorem run_nil_iff : run next s [] = .ok s' ↔ s = s' := by
  rw [run, Except.ok.injEq]

theorem run_cons_iff : run next s (e :: es) = .ok s' ↔ ∃ s1, next s e = .ok s1 ∧ run next s1 es = .ok s' := by
  rw [run]
  cases next s e with
  | error x => exact ⟨nofun, fun ⟨_, h, _⟩ => nomatch h⟩
  | ok s1 => exact ⟨fun h => ⟨s1, rfl, h⟩, fun ⟨_, h, h'⟩ => Except.ok.inj h ▸ h'⟩

theorem along_cons_iff (h : next s e = .ok s1) : Along next C s (e :: es) ↔ C s e ∧ Along next C s1 es := by
  rw [Along, h]

theorem Along.and : ∀ {es : List ε} {s : σ}, Along next C s es → Along next C' s es →
    Along next (fun s e => C s e ∧ C' s e) s es := by
  intro es
  induction es with
  | nil => exact fun _ _ => trivial
  | cons e es ih =>
    intro s h h'
    rw [Along] at h h' ⊢
    refine ⟨⟨h.1, h'.1⟩, ?_⟩
    cases hn : next s e with
    | error x => trivial
    | ok s1 =>
      rw [hn] at h h'
      exact ih h.2 h'.2

theorem run_induct {I : σ → Prop} (hstep : ∀ s e s', C s e → next s e = .ok s' → I s → I s') :
    ∀ {es : List ε} {s s' : σ}, Along next C s es → run next s es = .ok s' → I s → I s' := by
  intro es
  induction es with
  | nil =>
    intro s s' _ h hI
    exact run_nil_iff.1 h ▸ hI
  | cons e es ih =>
    intro s s' hC h hI
    obtain ⟨s1, h1, h2⟩ := run_cons_iff.1 h
    obtain ⟨hC1, hC2⟩ := (along_cons_iff h1).1 hC
    exact ih hC2 h2 (hstep s e s1 hC1 h1 hI)

theorem along_of_forall : ∀ {es : List ε} {s : σ}, (∀ e ∈ es, ∀ s, C s e) → Along next C s es := by
  intro es
  induction es with
  | nil => exact fun _ => trivial
  | cons e es ih =>
    intro s h
    refine ⟨h e (List.mem_cons_self ..) s, ?_⟩
    cases next s e with
    | error x => trivial
    | ok s1 => exact ih fun e' he' => h e' (List.mem_cons_of_mem e he')

theorem along_true : Along next (fun _ _ => True) s es := along_of_forall fun _ _ _ => trivial

end Run
