import Mathlib.Logic.Function.Basic
import Xv6.Lib.Run

/-!
# Sleep locks (`sleeplock.c`)

`acquiresleep`, `releasesleep` and `holdingsleep` on one lock by `n` processes, in two kinds of steps: taking the spin lock `lk->lk`,
and the critical section after it. `sleep` gives `lk->lk` up while it holds the lock of the process, so a process is `falling`
before it is `SLEEPING`, and `wakeup` waits for it.
-/

namespace Xv6.Sleeplock

open Function (update)
open Run (Stop run)

inductive Pc where
  /-- Not in a call, and without the lock. -/
  | user
  /-- In `acquiresleep`, at `acquire(&lk->lk)` or in `sleep`. -/
  | acquire
  /-- At the head of the loop of `acquiresleep`. -/
  | loop
  /-- `acquiresleep` has returned. -/
  | held
  /-- At the start of `releasesleep`. -/
  | release
  /-- In the loop of `wakeup(lk)`, called by `releasesleep`. -/
  | wake (k : Nat)
  deriving DecidableEq

inductive RunState where
  | awake
  | falling
  | SLEEPING
  deriving DecidableEq

/-- The lock and the processes, with their ids. -/
structure State (n : Nat) where
  lk : Option (Fin n)
  locked : Bool
  pid : Nat
  pids : Fin n → Nat
  pc : Fin n → Pc
  state : Fin n → RunState

variable {n : Nat}

def State.goto (s : State n) (p : Fin n) (lk : Option (Fin n)) (pc : Pc) : State n :=
  { s with lk := lk, pc := update s.pc p pc }

/-- `acquire(&lk->lk)`; blocked while another process has the spin lock. -/
def State.spin (s : State n) (p : Fin n) (pc : Pc) : Except Stop (State n) :=
  match s.lk with
  | none => .ok (s.goto p (some p) pc)
  | some _ => .error .blocked

def State.step (s : State n) (p : Fin n) : Except Stop (State n) :=
  match s.state p, s.pc p with
  | .falling, _ => .ok { s with state := update s.state p .SLEEPING }
  | .awake, .acquire => s.spin p .loop
  | .awake, .loop =>
    if s.locked then .ok { s.goto p none .acquire with state := update s.state p .falling }
    else .ok { s.goto p none .held with locked := true, pid := s.pids p }
  | .awake, .release => (s.spin p (.wake 0)).map fun s => { s with locked := false, pid := 0 }
  | .awake, .wake k =>
    if h : k < n then
      if s.state ⟨k, h⟩ = .falling then .error .blocked
      else .ok { s.goto p s.lk (.wake (k + 1)) with state := update s.state ⟨k, h⟩ .awake }
    else .ok (s.goto p none .user)
  | _, _ => .error .blocked

/-- What `holdingsleep` returns to process `p`. -/
def State.holdingsleep (s : State n) (p : Fin n) : Bool := s.locked && s.pid == s.pids p

inductive Event (n : Nat) where
  | acquiresleep (p : Fin n)
  | releasesleep (p : Fin n)
  | step (p : Fin n)
  | kill (p : Fin n)

/-- Only a process that has the lock releases it. -/
def State.next (s : State n) : Event n → Except Stop (State n)
  | .acquiresleep p => if s.pc p = .user then .ok (s.goto p s.lk .acquire) else .error .blocked
  | .releasesleep p => if s.pc p = .held then .ok (s.goto p s.lk .release) else .error .blocked
  | .step p => s.step p
  | .kill p =>
    match s.state p with
    | .falling => .error .blocked
    | _ => .ok { s with state := update s.state p .awake }

/-- After `initsleeplock`. -/
def init (pids : Fin n → Nat) : State n := ⟨none, false, 0, pids, fun _ => .user, fun _ => .awake⟩

/-- The process has the lock. -/
@[grind]
def Pc.holds : Pc → Bool
  | .held | .release => true
  | _ => false

/-- The process has the spin lock. -/
@[grind]
def Pc.spins : Pc → Bool
  | .loop | .wake _ => true
  | _ => false

/-- From which process on `wakeup` is still to come. -/
@[grind]
def Pc.index (n : Nat) : Pc → Nat
  | .wake k => k
  | _ => n

/-- `o` is the process that has the lock, if there is one. Nobody sleeps on a free lock, except for those that a `wakeup` is still
to come to. -/
structure Inv (s : State n) (o : Option (Fin n)) : Prop where
  spins : ∀ p, (s.pc p).spins ↔ s.lk = some p
  holds : ∀ p, (s.pc p).holds ↔ o = some p
  pid : ∀ p, o = some p → s.locked = true ∧ s.pid = s.pids p
  free : o = none → s.locked = false
  sleep : ∀ p, s.state p ≠ .awake → s.pc p = .acquire ∧
    (s.locked = false → s.lk ≠ none ∧ ∀ q, s.lk = some q → (s.pc q).index n ≤ p)

variable {s s' : State n} {e : Event n} {o : Option (Fin n)} {p : Fin n}

theorem Inv.step (h : Inv s o) (hn : s.step p = .ok s') : ∃ o', Inv s' o' ∧ s'.pids = s.pids := by
  obtain ⟨h1, h2, h3, h4, h5⟩ := h
  simp only [State.step, State.spin, State.goto] at hn
  -- the lock changes hands at the end of `acquiresleep` and at the start of `releasesleep`
  split at hn
  next =>
    cases hn
    exact ⟨o, by constructor <;> grind, rfl⟩
  next hst hpc =>
    split at hn <;> cases hn
    exact ⟨o, by constructor <;> grind, rfl⟩
  next hst hpc =>
    split at hn <;> cases hn
    · exact ⟨o, by constructor <;> grind, rfl⟩
    · exact ⟨some p, by constructor <;> grind, rfl⟩
  next hst hpc =>
    split at hn <;> cases hn
    exact ⟨none, by constructor <;> grind, rfl⟩
  next hst hpc =>
    split at hn
    · split at hn <;> cases hn
      exact ⟨o, by constructor <;> grind, rfl⟩
    · cases hn
      exact ⟨o, by constructor <;> grind, rfl⟩
  next => cases hn

theorem Inv.next (h : Inv s o) (hn : s.next e = .ok s') : ∃ o', Inv s' o' ∧ s'.pids = s.pids := by
  cases e with
  | step p => exact h.step hn
  | _ =>
    obtain ⟨h1, h2, h3, h4, h5⟩ := h
    simp only [State.next, State.goto] at hn
    split at hn <;> cases hn
    exact ⟨o, by constructor <;> grind, rfl⟩

theorem run_inv {pids : Fin n → Nat} {es : List (Event n)} (hrun : run State.next (init pids) es = .ok s) :
    ∃ o, Inv s o ∧ s.pids = pids := by
  have hinit : ∃ o, Inv (init pids) o ∧ (init pids).pids = pids := ⟨none, by constructor <;> grind [init], rfl⟩
  refine Run.run_induct (I := fun s => ∃ o, Inv s o ∧ s.pids = pids) ?_ Run.along_true hrun hinit
  rintro s e s' - hn ⟨o, h, rfl⟩
  exact h.next hn

/-- At most one process has the lock, and `holdingsleep` says which; no wakeup is lost: nobody sleeps on a lock that is free, and
whoever waits for it can take it. -/
theorem sleeplock_excludes {pids : Fin n → Nat} (hpids : pids.Injective) {es : List (Event n)}
    (hrun : run State.next (init pids) es = .ok s) :
    (∀ p q, (s.pc p).holds → (s.pc q).holds → p = q) ∧ (∀ p, s.holdingsleep p = (s.pc p).holds) ∧
    (s.lk = none → s.locked = false → ∀ p, s.state p = .awake ∧ (s.pc p = .acquire →
      ∃ s', run State.next s [.step p, .step p] = .ok s' ∧ (s'.pc p).holds)) := by
  obtain ⟨o, h, rfl⟩ := run_inv hrun
  refine ⟨fun p q hp hq => ?_, fun p => ?_, fun hlk hfree p => ?_⟩
  · exact Option.some.inj (((h.holds p).1 hp).symm.trans ((h.holds q).1 hq))
  · cases o with
    | none =>
      have := h.free rfl
      have := h.holds p
      grind [State.holdingsleep]
    | some q =>
      have := h.pid q rfl
      have := h.holds p
      have := hpids.eq_iff (a := q) (b := p)
      grind [State.holdingsleep]
  · have hawake : s.state p = .awake := by
      by_contra hs
      exact ((h.sleep p hs).2 hfree).1 hlk
    refine ⟨hawake, fun hpc => ?_⟩
    simp [run, State.next, State.step, State.spin, State.goto, hawake, hpc, hlk, hfree, Pc.holds]

/-- Process `q` goes to sleep while `p` has the lock, and takes it after the wakeup. -/
def contended (p q : Fin n) : List (Event n) := [.acquiresleep p, .step p, .step p, .acquiresleep q, .step q, .step q, .releasesleep p,
  .step p, .step q, .step p, .step p, .step p, .step q, .step q]

theorem sleeplock_excludes_contended : ∃ s, run State.next (init Fin.val) (contended 0 1 : List (Event 2)) = .ok s ∧ s.pc 1 = .held ∧
    ∀ p, s.holdingsleep p = (s.pc p).holds := by
  obtain ⟨s, hs, h1⟩ : ∃ s, run State.next (init Fin.val) (contended 0 1 : List (Event 2)) = .ok s ∧ s.pc 1 = .held :=
    Run.Ends.exists (by decide)
  exact ⟨s, hs, h1, (sleeplock_excludes (fun _ _ => Fin.ext) hs).2.1⟩

end Xv6.Sleeplock
