import Mathlib.Logic.Function.Basic
import Xv6.Lib.Run

/-!
# Concurrent programs over a shared state

A program is a tree of atomic actions on a shared state: each action blocks, panics, or changes the state and returns a
value on which the rest of the program depends. `eval` runs a program alone, and `Ends` says where it ends.
-/

open Run

/-- A program with a result in `α`. -/
inductive Prog (S : Type) : Type → Type 1
  | ret {α : Type} (a : α) : Prog S α
  | act {α β : Type} (f : S → Except Stop (S × β)) (k : β → Prog S α) : Prog S α

namespace Prog

variable {S α β : Type} {x : Prog S α} {g : α → Prog S β} {s t : S}

def bind : Prog S α → (α → Prog S β) → Prog S β
  | ret a, g => g a
  | act f k, g => act f fun b => (k b).bind g

instance : Monad (Prog S) where
  pure := ret
  bind := bind

def atomic (f : S → Except Stop (S × α)) : Prog S α := act f ret

theorem bind_eq (x : Prog S α) (g : α → Prog S β) : x >>= g = x.bind g := rfl

theorem bind_ret (x : Prog S α) : x.bind ret = x := by
  induction x with
  | ret a => rfl
  | act f k ih => exact congrArg (act f) (funext ih)

theorem bind_bind {γ : Type} (x : Prog S α) (g : α → Prog S β) (h : β → Prog S γ) :
    (x.bind g).bind h = x.bind fun a => (g a).bind h := by
  induction x with
  | ret a => rfl
  | act f k ih => exact congrArg (act f) (funext fun b => ih b)

theorem ite_bind {c : Prop} [Decidable c] (x y : Prog S α) (g : α → Prog S β) :
    (if c then x else y) >>= g = if c then x >>= g else y >>= g := apply_ite (· >>= g) c x y

instance : LawfulMonad (Prog S) := .mk' (Prog S) (fun x => bind_ret x) (fun _ _ => rfl) bind_bind

/-- What the program does when no other process takes a step. -/
def eval : Prog S α → S → Except Stop (S × α)
  | ret a, s => .ok (s, a)
  | act f k, s =>
    match f s with
    | .ok (s', b) => (k b).eval s'
    | .error e => .error e

theorem eval_pure (a : α) (s : S) : (pure a : Prog S α).eval s = .ok (s, a) := rfl

theorem eval_bind {a : α} (h : x.eval s = .ok (t, a)) :
    (x >>= g).eval s = (g a).eval t := by
  induction x generalizing s with
  | ret b =>
    cases h
    rfl
  | act f k ih =>
    simp only [eval] at h
    rw [bind_eq, bind, eval]
    split at h
    next s1 b hf => exact ih b h
    next => cases h

theorem eval_bind_error {e : Stop} (h : x.eval s = .error e) :
    (x >>= g).eval s = .error e := by
  induction x generalizing s with
  | ret b => cases h
  | act f k ih =>
    simp only [eval] at h
    rw [bind_eq, bind, eval]
    split at h
    next s1 b hf => exact ih b h
    next =>
      cases h
      rfl

theorem eval_bind_ok {b : β} (h : (x >>= g).eval s = .ok (t, b)) :
    ∃ t' a, x.eval s = .ok (t', a) ∧ (g a).eval t' = .ok (t, b) := by
  induction x generalizing s with
  | ret a => exact ⟨s, a, rfl, h⟩
  | act f k ih =>
    rw [bind_eq, bind, eval] at h
    split at h
    next s1 c hf =>
      obtain ⟨t', a, hrun, hg⟩ := ih c h
      exact ⟨t', a, by rw [eval, hf]; exact hrun, hg⟩
    next => cases h

/-- If the program returns, its result and the state then satisfy `Q`. -/
def Ends (x : Prog S α) (s : S) (Q : S → α → Prop) : Prop := ∀ t a, x.eval s = .ok (t, a) → Q t a

section Ends

variable {x : Prog S α} {g : α → Prog S β} {s t : S} {a : α} {Q Q' : S → α → Prop} {f : S → Except Stop (S × α)}

theorem Ends.mono (h : Ends x s Q) (hQ : ∀ t a, Q t a → Q' t a) : Ends x s Q' := fun t a hrun => hQ t a (h t a hrun)

theorem ends_bind {R : S → β → Prop} (h : Ends x s fun t a => Ends (g a) t R) : Ends (x >>= g) s R := by
  intro t b hrun
  obtain ⟨t', a, hx, hg⟩ := eval_bind_ok hrun
  exact h t' a hx t b hg

theorem ends_of_eval (h : x.eval s = .ok (t, a)) (hQ : Q t a) : Ends x s Q := by
  intro t' a' hrun
  rw [h] at hrun
  cases hrun
  exact hQ

theorem ends_pure (h : Q s a) : Ends (pure a) s Q := ends_of_eval (eval_pure a s) h

theorem ends_any (h : ∀ t a, Q t a) : Ends x s Q := fun t a _ => h t a

theorem ends_atomic (h : ∀ t a, f s = .ok (t, a) → Q t a) : Ends (atomic f) s Q := by
  intro t a hrun
  rw [atomic, eval] at hrun
  split at hrun
  next t' b hf =>
    cases hrun
    exact h _ _ hf
  next => cases hrun

end Ends

end Prog
