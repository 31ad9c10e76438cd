import Mathlib.Tactic.Common

/-!
# Weakest preconditions for stateful code that can fail

`wp x Q E s` says that the computation `x`, started in the state `s`, either returns a value and a state that
satisfy `Q` or fails with an error that satisfies `E`. With `E := fun _ => False` it says that `x` does not
fail. The computations are those of `StateT σ (Except ε)`.
-/

namespace Hoare

variable {σ ε α β : Type}

/-- `x` run from `s` returns in `Q` or fails in `E`. -/
def wp (x : StateT σ (Except ε) α) (Q : α → σ → Prop) (E : ε → Prop) (s : σ) : Prop :=
  match x.run s with
  | .ok (a, s') => Q a s'
  | .error e => E e

section

variable {x : StateT σ (Except ε) α} {f : α → StateT σ (Except ε) β} {Q Q' : α → σ → Prop} {R : β → σ → Prop}
  {E E' : ε → Prop} {s s' : σ} {a : α} {e : ε}

theorem wp_of_ok (h : x.run s = .ok (a, s')) : wp x Q E s ↔ Q a s' := by unfold wp; rw [h]

theorem wp_of_error (h : x.run s = .error e) : wp x Q E s ↔ E e := by unfold wp; rw [h]

/-- A program that runs `x` on a part of its own state. -/
theorem wp_zoom {τ : Type} {y : StateT τ (Except ε) α} {R : α → τ → Prop} {t : τ} {f : σ → τ}
    (h : y.run t = (x.run s).map fun r => (r.1, f r.2)) : wp y R E t ↔ wp x (fun a s' => R a (f s')) E s := by
  unfold wp
  rw [h]
  cases x.run s <;> rfl

theorem wp_mono (h : wp x Q E s) (hQ : ∀ a s', Q a s' → Q' a s') (hE : ∀ e, E e → E' e) : wp x Q' E' s := by
  unfold wp at h ⊢
  split at h
  · exact hQ _ _ h
  · exact hE _ h

theorem wp_post (h : wp x Q E s) (hQ : ∀ a s', Q a s' → Q' a s') : wp x Q' E s :=
  wp_mono h hQ fun _ h => h

theorem wp_of_all (hQ : ∀ a s', Q a s') (hE : ∀ e, E e) : wp x Q E s := by
  unfold wp
  split
  · exact hQ _ _
  · exact hE _

theorem wp_false_iff : wp x Q (fun _ => False) s ↔ ∃ a s', x.run s = .ok (a, s') ∧ Q a s' := by
  unfold wp
  rcases x.run s with e | ⟨a, s'⟩ <;> simp

theorem wp_fails_iff : wp x (fun _ _ => False) E s ↔ ∃ e, x.run s = .error e ∧ E e := by
  unfold wp
  rcases x.run s with e | ⟨a, s'⟩ <;> simp

theorem wp_ok (h : wp x Q E s) (hx : x.run s = .ok (a, s')) : Q a s' := (wp_of_ok hx).1 h

theorem wp_and (h : wp x Q E s) (h' : wp x Q' E' s) :
    wp x (fun a s' => Q a s' ∧ Q' a s') (fun e => E e ∧ E' e) s := by
  unfold wp at h h' ⊢
  rcases hx : x.run s with e | ⟨a, s'⟩ <;> rw [hx] at h h' <;> exact ⟨h, h'⟩

theorem wp_pure : wp (pure a : StateT σ (Except ε) α) Q E s ↔ Q a s := Iff.rfl

theorem wp_get {Q : σ → σ → Prop} : wp (get : StateT σ (Except ε) σ) Q E s ↔ Q s s := Iff.rfl

theorem wp_modify {Q : PUnit → σ → Prop} {g : σ → σ} :
    wp (modify g : StateT σ (Except ε) PUnit) Q E s ↔ Q ⟨⟩ (g s) := Iff.rfl

theorem run_bind_ok (h : x.run s = .ok (a, s')) : (x >>= f).run s = (f a).run s' := by
  rw [StateT.run_bind, h]
  rfl

theorem wp_bind : wp (x >>= f) R E s ↔ wp x (fun a s' => wp (f a) R E s') E s := by
  unfold wp
  rw [StateT.run_bind]
  rcases x.run s with e | ⟨a, s'⟩ <;> rfl

theorem wp_ite {c : Prop} [Decidable c] {y : StateT σ (Except ε) α} :
    wp (if c then x else y) Q E s ↔ (c → wp x Q E s) ∧ (¬c → wp y Q E s) := by
  by_cases h : c <;> simp [h]

end

end Hoare
