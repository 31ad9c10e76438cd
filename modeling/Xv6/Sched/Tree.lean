import Xv6.Sched.Wakeup

/-!
# The process tree

`fork`, `exit` and `wait` change the parents of processes under `wait_lock`. What a thread has learnt about its children in a loop
is still true at the end of the loop.
-/

namespace Xv6.Sched

open Function (update_apply update_of_ne update_self)
open Run

variable {n m : Nat} {s s' : State n m} {c c' : Fin m} {t w : Thr n m} {p q r : Fin n} {me : Option (Fin n)} {P : Pos n}
  {e : Effect n m} {ch : Choice n} {stage : SleepStage} {x : Sleep n} {chan : Chan n} {i start : Nat}

section

variable (ha : Acts s me P e)
include ha

theorem Acts.parent (h : (e.procs s q).parent = some r) :
    (s.proc q).parent = some r ∨ P = .forkParent q ∧ me = some r ∨
    r = s.initproc ∧ ∃ p i status, me = some p ∧ P = .reparent i status ∧ (s.proc q).parent = some p ∧
      e.goesTo = .wakeup (.proc s.initproc) 0 s.now (.reparent (i + 1) status) := by
  cases ha with
  | forkParent =>
    revert h
    refine update_cases (Q := fun x => x.parent = some r → _) q (fun _ => Or.inl) ?_
    rintro rfl h
    exact .inr (.inl ⟨rfl, h⟩)
  | reparent hi hpar =>
    revert h
    refine update_cases (Q := fun x => x.parent = some r → _) q (fun _ => Or.inl) ?_
    rintro rfl h
    exact .inr (.inr ⟨(Option.some.inj h).symm, _, _, _, rfl, rfl, hpar, rfl⟩)
  | forkFree | waitFree =>
    revert h
    exact update_cases (Q := fun x => x.parent = some r → _) q (fun _ => Or.inl) nofun
  | callSleep | callExit | exec | sleepSet | sleepWake | yieldSet | exitSet | waitSleep | wakeupSet | killWake | killSet | memNone
  | memFail | mem | copy | alloc | forkRun | choose =>
    revert h
    refine update_cases (Q := fun x => x.parent = some r → _) q (fun _ => Or.inl) ?_
    rintro rfl h
    exact .inl h
  | _ => exact .inl h

theorem Acts.keeps_parent (h : (s.proc q).parent = some r) :
    (e.procs s q).parent = some r ∨ .lk .wait ∈ P.locks t ∨ P = .forkFree q := by
  cases ha with
  | forkParent | reparent | waitFree => exact .inr (.inl (by simp [Pos.locks]))
  | forkFree =>
    simp only [Effect.procs, update_apply]
    split
    · rename_i heq
      exact .inr (.inr (by rw [heq]))
    · exact .inl h
  | callSleep | callExit | exec | sleepSet | sleepWake | yieldSet | exitSet | waitSleep | wakeupSet | killWake | killSet | memNone
  | memFail | mem | copy | alloc | forkRun | choose =>
    refine update_cases (Q := fun x => x.parent = some r ∨ _) q (fun _ => .inl h) ?_
    rintro rfl
    exact .inl h
  | _ => exact .inl h

theorem Acts.zombie (h : (e.procs s q).state = .ZOMBIE) :
    (s.proc q).state = .ZOMBIE ∧ (e.procs s q).xstate = (s.proc q).xstate ∨
    me = some q ∧ ∃ status, P = .exitSet status ∧ (e.procs s q).xstate = status := by
  cases ha with
  | exitSet =>
    simp only [Effect.procs, update_apply] at h ⊢
    split at h
    · rename_i hq
      subst hq
      exact .inr ⟨rfl, _, rfl, by rw [if_pos rfl]⟩
    · rename_i hq
      rw [if_neg hq]
      exact .inl ⟨h, rfl⟩
  | forkFree | waitFree | sleepSet | yieldSet | wakeupSet | killWake | alloc | forkRun | choose =>
    simp only [Effect.procs, update_apply] at h ⊢
    split at h
    · cases h
    · rename_i hq
      rw [if_neg hq]
      exact .inl ⟨h, rfl⟩
  | callSleep | callExit | exec | sleepWake | waitSleep | killSet | memNone | memFail | mem | copy | forkParent | reparent =>
    simp only [Effect.procs, update_apply] at h ⊢
    split at h
    · rename_i hq
      subst hq
      rw [if_pos rfl]
      exact .inl ⟨h, rfl⟩
    · rename_i hq
      rw [if_neg hq]
      exact .inl ⟨h, rfl⟩
  | _ => exact .inl ⟨h, rfl⟩

theorem Acts.histories (q : Fin n) (hq : (s.proc q).state ≠ .UNUSED) :
    ((e.procs s q).status = (s.proc q).status ∨ me = some q ∧ P = .kern [] ∧ ∃ v, e.goesTo = .exitWait v) ∧
    ((e.procs s q).forker = (s.proc q).forker ∨ P = .forkCopy q) ∧ (e.procs s q).born = (s.proc q).born := by
  cases ha with
  | callExit =>
    simp only [Effect.procs, update_apply]
    split
    · rename_i heq
      subst heq
      exact ⟨.inr ⟨by trivial, by trivial, _, rfl⟩, .inl rfl, rfl⟩
    · exact ⟨.inl rfl, .inl rfl, rfl⟩
  | copy =>
    simp only [Effect.procs, update_apply]
    split
    · rename_i heq
      subst heq
      exact ⟨.inl rfl, .inr rfl, rfl⟩
    · exact ⟨.inl rfl, .inl rfl, rfl⟩
  | alloc hst =>
    simp only [Effect.procs, update_apply]
    split
    · rename_i heq
      subst heq
      exact absurd hst hq
    · exact ⟨.inl rfl, .inl rfl, rfl⟩
  | callSleep | exec | sleepSet | sleepWake | yieldSet | exitSet | waitSleep | wakeupSet | killWake | killSet | memNone | memFail
  | mem | forkParent | reparent | forkRun | choose | forkFree | waitFree =>
    simp only [Effect.procs, update_apply]
    split
    · rename_i heq
      subst heq
      exact ⟨.inl rfl, .inl rfl, rfl⟩
    · exact ⟨.inl rfl, .inl rfl, rfl⟩
  | _ => exact ⟨.inl rfl, .inl rfl, rfl⟩

theorem Acts.unused (h : (e.procs s q).state = .UNUSED) :
    (s.proc q).state = .UNUSED ∨ (e.procs s q).parent = none := by
  revert h
  cases ha with
  | forkFree | waitFree =>
    exact update_cases (Q := fun x => x.state = .UNUSED → (s.proc q).state = .UNUSED ∨ x.parent = none) q (fun _ => Or.inl)
      fun _ _ => .inr rfl
  | exitSet | sleepSet | yieldSet | wakeupSet | killWake | alloc | forkRun | choose =>
    exact update_cases (Q := fun x => x.state = .UNUSED → (s.proc q).state = .UNUSED ∨ x.parent = none) q (fun _ => Or.inl) nofun
  | callSleep | callExit | exec | sleepWake | waitSleep | killSet | memNone | memFail | mem | copy | forkParent | reparent =>
    refine update_cases (Q := fun x => x.state = .UNUSED → (s.proc q).state = .UNUSED ∨ x.parent = none) q (fun _ => Or.inl) ?_
    rintro rfl h
    exact .inl h
  | _ => exact Or.inl

end

theorem apply_initproc (h : e.apply s c t = .ok s') : s'.initproc = s.initproc := by
  cases e with
  | acquire l P =>
    obtain ⟨-, rfl⟩ := apply_acquire h
    cases l <;> rfl
  | blocked | panic => cases h
  | _ =>
    cases h
    rfl

theorem apply_reaps (h : e.apply s c t = .ok s') :
    s'.reaps = s.reaps ∨ ∃ q pid stored P', e = .reap q pid stored P' ∧ s'.reaps = ⟨s.cproc c, s.proc q, pid, stored⟩ :: s.reaps := by
  cases e with
  | acquire l P =>
    obtain ⟨-, rfl⟩ := apply_acquire h
    cases l <;> exact .inl rfl
  | blocked | panic => cases h
  | reap =>
    cases h
    exact .inr ⟨_, _, _, _, rfl, rfl⟩
  | _ =>
    cases h
    exact .inl rfl

theorem apply_lock {l : Lock n} (h : e.apply s c t = .ok s') (hl : s'.lock l = some c') :
    s.lock l = some c' ∨ c' = c ∧ ∃ P', e = .acquire l P' := by
  cases e with
  | acquire l' P =>
    obtain ⟨-, rfl⟩ := apply_acquire h
    have hl : Function.update s.lock l' (some c) l = some c' := by cases l' <;> exact hl
    by_cases hll : l = l'
    · subst hll
      rw [update_self] at hl
      exact .inr ⟨(Option.some.inj hl).symm, P, rfl⟩
    · rw [update_of_ne hll] at hl
      exact .inl hl
  | release l' P =>
    cases h
    have hl : Function.update s.lock l' none l = some c' := hl
    by_cases hll : l = l'
    · subst hll
      rw [update_self] at hl
      cases hl
    · rw [update_of_ne hll] at hl
      exact .inl hl
  | blocked | panic => cases h
  | _ =>
    cases h
    exact .inl hl

/-! ### What the points of `fork`, `exit` and `wait` know -/

def Ret.exits : Ret → Bool
  | .kern _ => false
  | .reparent .. | .exit _ => true

def Ret.status : Ret → Option Int
  | .kern _ => none
  | .reparent _ status | .exit status => some status

def Ret.orphans (n : Nat) : Ret → Option Nat
  | .kern _ => none
  | .reparent i _ => some i
  | .exit _ => some n

def Ret.tells (chan : Chan n) : Ret → Option (Chan n)
  | .exit _ => some chan
  | _ => none

namespace Pos

def exits : Pos n → Bool
  | exitWait _ | reparent .. | exitLock _ | exitSet _ | exitUnlock | exitSched | zombie => true
  | wakeup _ _ _ ret | wakeupTest _ _ _ ret | wakeupUnlock _ _ _ ret => ret.exits
  | _ => false

def status : Pos n → Option Int
  | exitWait v | reparent _ v | exitLock v | exitSet v => some v
  | wakeup _ _ _ ret | wakeupTest _ _ _ ret | wakeupUnlock _ _ _ ret => ret.status
  | _ => none

def orphans : Pos n → Option Nat
  | reparent i _ => some i
  | exitLock _ | exitSet _ => some n
  | wakeup _ _ _ ret | wakeupTest _ _ _ ret | wakeupUnlock _ _ _ ret => ret.orphans n
  | _ => none

def tells : Pos n → Option (Chan n)
  | wakeup chan _ _ ret | wakeupTest chan _ _ ret | wakeupUnlock chan _ _ ret => ret.tells chan
  | _ => none

def told : Pos n → Bool
  | exitLock _ | exitSet _ => true
  | _ => false

def childless : Pos n → Option Nat
  | waitScan i false _ => some i
  | waitNone => some n
  | _ => none

def alive : Pos n → Option Nat
  | waitScan i _ _ => some i
  | waitTest q _ => some q.val
  | waitUnlock q _ => some (q.val + 1)
  | waitKilled _ | waitKilledRead _ | waitKilledUnlock .. | waitSleep _ => some n
  | _ => none

def child : Pos n → Option (Fin n)
  | waitTest q _ | waitFree q .. => some q
  | _ => none

def returns : Pos n → Option Int
  | waitFreed _ pid => some pid
  | waitReturn r => if r = -1 then none else some r
  | _ => none

def fresh : Pos n → Option (Fin n)
  | allocMem q | allocContext q | forkCopy q => some q
  | _ => none

def made : Pos n → Option (Fin n)
  | forkUnlock q | forkWait q | forkParent q => some q
  | _ => none

end Pos

/-- The process is not going to sleep in `wait`, nor sleeps there. -/
def State.Awake (s : State n m) (r : Fin n) : Prop :=
  ∀ stage x, s.pos (.proc r) = .sleep stage x → x.inWait.isSome = true → (s.proc r).woken = true

structure Family (s : State n m) (p : Fin n) (P : Pos n) : Prop where
  status : ∀ v, P.status = some v → (s.proc p).status = some v
  orphans : ∀ i, P.orphans = some i → ∀ q, q.val < i → (s.proc q).parent ≠ some p
  tells : ∀ chan, P.tells = some chan → ∃ r, chan = .proc r ∧ (s.proc p).parent = some r
  told : P.told = true → ∀ r, (s.proc p).parent = some r → s.Awake r
  childless : ∀ i, P.childless = some i → ∀ q, q.val < i → (s.proc q).parent ≠ some p
  alive : ∀ i, P.alive = some i → ∀ q, q.val < i → (s.proc q).parent = some p → (s.proc q).state ≠ .ZOMBIE
  child : ∀ q, P.child = some q → (s.proc q).parent = some p
  found : ∀ q pid stored, P = .waitFree q pid stored → pid = (s.proc q).pid ∧
    stored.2 = if stored.1 ≠ 0 then some (s.proc q).xstate else none
  returns : ∀ pid, P.returns = some pid → ∃ x, s.reaps.head? = some x ∧ x.waiter = some p ∧ x.pid = pid
  fresh : ∀ q, P.fresh = some q → (s.proc q).parent = none
  made : ∀ q, P.made = some q → (s.proc q).forker = some p

theorem Pos.exits_of_orphans (h : P.orphans.isSome = true) : P.exits = true := by
  cases P with
  | wakeup | wakeupTest | wakeupUnlock =>
    rename_i ret
    cases ret <;> first | rfl | cases h
  | reparent | exitLock | exitSet => rfl
  | _ => cases h

theorem holds_wait (h : P.orphans.isSome = true ∨ P.childless.isSome = true ∨ P.alive.isSome = true ∨ P.child.isSome = true ∨
    P.returns.isSome = true) : .lk .wait ∈ P.locks t := by
  have hret : ∀ ret : Ret, (ret.orphans n).isSome = true → (.lk .wait : Lock n) ∈ (ret.locks : List (Lock n)) := by
    intro ret hr
    cases ret with
    | kern => cases hr
    | _ => exact List.mem_singleton.mpr rfl
  cases P with
  | wakeup | wakeupTest | wakeupUnlock =>
    rcases h with h | h | h | h | h
    · simp [Pos.locks, hret _ h]
    all_goals cases h
  | reparent | exitLock | exitSet | waitScan | waitNone | waitTest | waitUnlock | waitKilled | waitKilledRead | waitKilledUnlock
  | waitSleep | waitFree | waitFreed | waitReturn => simp [Pos.locks]
  | _ => rcases h with h | h | h | h | h <;> cases h

theorem Does.away (hI : Inv s) (hd : Does s s' c ch t me P e) (hc : c' ≠ c)
    (hw : s.lock (.lk .wait) = some c') :
    (∀ q r, (s'.proc q).parent = some r → (s.proc q).parent = some r) ∧
    (∀ q, (s'.proc q).state = .ZOMBIE → (s.proc q).state = .ZOMBIE) ∧ s'.reaps = s.reaps ∧ (∀ r, s.Awake r → s'.Awake r) ∧
    ∀ q r, (s.proc q).parent = some r → P ≠ .forkFree q → (s'.proc q).parent = some r := by
  have hno : (.lk .wait : Lock n) ∉ P.locks t := by
    intro h
    have : s.lock (.lk .wait) = some c := by
      rw [hI.locks, hd.here_eq, hd.cur]
      exact h
    exact hc (Option.some.inj (hw.symm.trans this))
  refine ⟨fun q r h => ?_, fun q h => ?_, ?_, fun r hr stage x hx hin => ?_, fun q r h hfree => ?_⟩
  · rw [hd.procs] at h
    rcases hd.acts.parent h with h | ⟨rfl, -⟩ | ⟨-, p, i, v, -, rfl, -⟩
    · exact h
    · exact absurd (List.mem_singleton.mpr rfl) hno
    · exact absurd (List.mem_singleton.mpr rfl) hno
  · rw [hd.procs] at h
    rcases hd.acts.zombie h with ⟨h, -⟩ | ⟨-, v, rfl, -⟩
    · exact h
    · exact absurd (List.mem_append_right _ (List.mem_singleton.mpr rfl)) hno
  · rcases apply_reaps hd.apply with h | ⟨q, pid, stored, P', he, -⟩
    · exact h
    · have ha := hd.acts
      rw [he] at ha
      cases ha
      exact absurd (by simp [Pos.locks]) hno
  · by_cases ht : t = .proc r
    · subst ht
      rw [hd.pos_self] at hx
      have ha := hd.acts
      rcases ha.sleep hx with ⟨stage', hP, hne, -⟩ | ⟨rfl, -⟩
      · rcases hd.woken (hr stage' x (hd.pos.trans hP) hin) with h | ⟨-, y, hy, -⟩
        · exact h
        · rw [hx] at hy
          cases hy
          exact absurd rfl hne
      · -- a new call of `sleep` in `wait` is made with `wait_lock` held
        cases ha with
        | callSleep =>
          cases hx
          cases hin
        | waitSleep => exact absurd (List.mem_singleton.mpr rfl) hno
        | wakeupRet =>
          rename_i ret _ _
          cases ret <;> cases hx
        | killUnlock =>
          rename_i found
          cases found <;> cases hx
        | _ => cases hx
    · rcases hd.pos_other (Ne.symm ht) with h | h
      · rw [h] at hx
        rcases hd.woken (hr stage x hx hin) with h | ⟨h, -⟩
        · exact h
        · exact absurd h ht
      · rw [h] at hx
        cases hx
  · rw [hd.procs]
    rcases hd.acts.keeps_parent (t := t) h with h | h | h
    · exact h
    · exact absurd h hno
    · exact absurd h hfree

theorem Family.other (hI : Inv s) (hd : Does s s' c ch t me P e) (hc : c' ≠ c)
    (hcur : s.cur c' = (.proc p, false)) (h : Family s p (s.pos (.proc p))) : Family s' p (s.pos (.proc p)) := by
  generalize hP0 : s.pos (.proc p) = P0 at h
  have hhere : s.here c' = P0 := (Inv.here_eq hcur).trans hP0
  have hne : t ≠ .proc p := by
    have := hI.thread_ne hc
    rw [hd.cur, hcur] at this
    exact Ne.symm this
  have hp : (s.proc p).state ≠ .UNUSED := (Pos.left_ne (hI.state c' p (State.inUse_proc (by rw [hcur])))).2
  have hlock : ∀ l, l ∈ P0.locks (.proc p : Thr n m) → s.lock l = some c' := by
    intro l hl
    rw [hI.locks, hhere, hcur]
    exact hl
  have haway := fun hl => hd.away hI hc (hlock (.lk .wait) (holds_wait hl))
  -- the maker of a process is the only one to go on with it
  have hforks : ∀ q, P0.forks = some q → P.forks ≠ some q := by
    intro q hq hq'
    have := hI.forker t (.proc p) q (by rw [hd.pos]; exact hq') (by rw [hP0]; exact hq)
    exact hne this
  have hself : P ≠ .forkFree p := by
    rintro rfl
    have := hd.used hI rfl
    exact (Pos.left_ne (hI.state c' p (State.inUse_proc (by rw [hcur])))).1 this
  have hused : ∀ q, P0.forks = some q → (s.proc q).state = .USED := fun q hq => (hI.forks (.proc p) q (by rw [hP0]; exact hq)).1
  refine ⟨fun v hv => ?_, fun i hi q hq => ?_, fun chan hchan => ?_, fun htold r hr => ?_, fun i hi q hq => ?_,
    fun i hi q hq hpar => ?_, fun q hq => ?_, fun q pid stored hfree => ?_, fun pid hpid => ?_, fun q hq => ?_, fun q hq => ?_⟩
  · rw [hd.procs]
    rcases (hd.acts.histories p hp).1 with heq | ⟨hme, rfl, -⟩
    · rw [heq]
      exact h.status v hv
    · exact absurd (hd.own p hme rfl) hne
  · intro hpar
    exact h.orphans i hi q hq ((haway (.inl (by rw [hi]; rfl))).1 q p hpar)
  · obtain ⟨r, rfl, hr⟩ := h.tells chan hchan
    have horph : P0.orphans.isSome = true := by
      cases P0 with
      | wakeup | wakeupTest | wakeupUnlock =>
        rename_i ret
        cases ret <;> first | rfl | cases hchan
      | _ => cases hchan
    exact ⟨r, rfl, (haway (.inl horph)).2.2.2.2 p r hr hself⟩
  · have horph : P0.orphans.isSome = true := by
      cases P0 <;> first | rfl | cases htold
    have hw := haway (.inl horph)
    exact hw.2.2.2.1 r (h.told htold r (hw.1 p r hr))
  · intro hpar
    exact h.childless i hi q hq ((haway (.inr (.inl (by rw [hi]; rfl)))).1 q p hpar)
  · have hw := haway (.inr (.inr (.inl (by rw [hi]; rfl))))
    exact fun hz => h.alive i hi q hq (hw.1 q p hpar) (hw.2.1 q hz)
  · refine (haway (.inr (.inr (.inr (.inl (by rw [hq]; rfl)))))).2.2.2.2 q p (h.child q hq) ?_
    rintro rfl
    have hq' : s.lock (.proc q) = some c' := hlock _ (by
      cases P0 with
      | waitTest | waitFree =>
        cases hq
        exact List.mem_cons_self ..
      | _ => cases hq)
    have hq'' : s.lock (.proc q) = some c := by
      rw [hI.locks, hd.here_eq]
      exact List.mem_cons_self ..
    exact hc (Option.some.inj (hq'.symm.trans hq''))
  · subst hfree
    have hsame := hd.keeps_locked hI hc (hlock (.proc q) (by simp [Pos.locks]))
    rw [hsame.pid, hsame.xstate]
    exact h.found q pid stored rfl
  · rw [(haway (.inr (.inr (.inr (.inr (by rw [hpid]; rfl)))))).2.2.1]
    exact h.returns pid hpid
  · have hfk : P0.forks = some q := by
      cases P0 <;> first | exact hq | cases hq
    cases hpar : (s'.proc q).parent with
    | none => rfl
    | some r =>
      rw [hd.procs] at hpar
      rcases hd.acts.parent hpar with h' | ⟨rfl, -⟩ | ⟨-, p', i, v, -, -, h', -⟩
      · rw [h.fresh q hq] at h'
        cases h'
      · exact absurd rfl (hforks q hfk)
      · rw [h.fresh q hq] at h'
        cases h'
  · have hfk : P0.forks = some q := by
      cases P0 <;> first | exact hq | cases hq
    rw [hd.procs]
    rcases (hd.acts.histories q (by rw [hused q hfk]; simp)).2.1 with heq | rfl
    · rw [heq]
      exact h.made q hq
    · exact absurd rfl (hforks q hfk)

/-- The calls of `sleep` in `wait`, and when locks were acquired. -/
structure LaterInv (s : State n m) : Prop where
  inWait : ∀ p stage x, s.pos (.proc p) = .sleep stage x → x.inWait.isSome = true → x.chan = .proc p ∧ x.lk = .wait
  -- a lock that another thread holds has been acquired after the call
  later : ∀ c w p stage x, s.cur c = (w, false) → s.lock (.lk x.lk) = some c → w ≠ .proc p → s.pos (.proc p) = .sleep stage x →
    x.since < s.acqAt w x.lk
  before : ∀ w chan i start, (s.pos w).scan = some (chan, i, start) → ∀ l, s.acqAt w l ≤ start

theorem LaterInv.does_inWait (hL : LaterInv s) (hd : Does s s' c ch t me P e)
    (hx : s'.pos (.proc p) = .sleep stage x) (hin : x.inWait.isSome = true) : x.chan = .proc p ∧ x.lk = .wait := by
  by_cases ht : t = .proc p
  · subst ht
    rw [hd.pos_self] at hx
    have hown := hd.own
    have ha := hd.acts
    rcases ha.sleep hx with ⟨stage', hP, -⟩ | ⟨rfl, -⟩
    · exact hL.inWait p stage' x (hd.pos.trans hP) hin
    · cases ha with
      | callSleep =>
        cases hx
        cases hin
      | waitSleep =>
        cases hx
        exact ⟨by rw [Thr.proc.inj (hown _ rfl rfl)], rfl⟩
      | wakeupRet =>
        rename_i ret _ _
        cases ret <;> cases hx
      | killUnlock =>
        rename_i found
        cases found <;> cases hx
      | _ => cases hx
  · rcases hd.pos_other (Ne.symm ht) with h | h
    · rw [h] at hx
      exact hL.inWait p stage x hx hin
    · rw [h] at hx
      cases hx

theorem Acts.sleep_lock (ha : Acts s me P e) (hx : e.goesTo = .sleep .lock x) : .lk x.lk ∈ P.locks t := by
  cases ha with
  | callSleep chan hmem =>
    cases hx
    exact List.mem_map.mpr ⟨_, hmem, rfl⟩
  | waitSleep =>
    cases hx
    exact List.mem_singleton.mpr rfl
  | wakeupRet =>
    rename_i ret _ _
    cases ret <;> cases hx
  | killUnlock =>
    rename_i found
    cases found <;> cases hx
  | _ => cases hx

theorem LaterInv.does_later (hL : LaterInv s) (hW : WakeInv s) (hI : Inv s) (hd : Does s s' c ch t me P e) (hcur : s'.cur c' = (w, false)) (hlock : s'.lock (.lk x.lk) = some c')
    (hw : w ≠ .proc p) (hx : s'.pos (.proc p) = .sleep stage x) : x.since < s'.acqAt w x.lk := by
  by_cases hc : c' = c
  · subst hc
    have hs : e.stays = true := by
      have ha := hd.apply
      cases e with
      | toProc | toSched =>
        obtain rfl := (Except.ok.inj ha).symm
        simp [State.go, State.save] at hcur
      | _ => rfl
    rw [hd.cur_eq hs, hd.cur] at hcur
    obtain ⟨rfl, -⟩ := Prod.mk.inj hcur
    have hx' : s.pos (.proc p) = .sleep stage x := by
      rcases hd.pos_other (Ne.symm hw) with h | h
      · rwa [h] at hx
      · rw [h] at hx
        cases hx
    rcases apply_acqAt hd.apply t x.lk with heq | ⟨-, heq, -⟩
    · rcases apply_lock hd.apply hlock with h | ⟨-, P', he⟩
      · rw [heq]
        exact hL.later c' t p stage x hd.cur h hw hx'
      · have happly := hd.apply
        rw [he] at happly
        obtain ⟨-, rfl⟩ := apply_acquire happly
        have hnow : (((s.setLock (.lk x.lk) (some c')).noteAcquire t (.lk x.lk)).go t P').acqAt t x.lk = s.now := by
          simp [State.go, State.noteAcquire, State.setLock]
        rw [hnow]
        exact hW.since _ _ _ hx'
    · rw [heq]
      exact hW.since _ _ _ hx'
  · rw [hd.cur_ne hc] at hcur
    have hwt : w ≠ t := by
      have := hI.thread_ne hc
      rwa [hcur, hd.cur] at this
    have hlock : s.lock (.lk x.lk) = some c' := by
      rcases apply_lock hd.apply hlock with h | ⟨h, -⟩
      · exact h
      · exact absurd h hc
    have hacq : s'.acqAt w x.lk = s.acqAt w x.lk := by
      rcases apply_acqAt hd.apply w x.lk with h | ⟨h, -⟩
      · exact h
      · exact absurd h hwt
    have hold : ∃ stage', s.pos (.proc p) = .sleep stage' x := by
      by_cases ht : t = .proc p
      · subst ht
        rw [hd.pos_self] at hx
        rcases hd.acts.sleep hx with ⟨stage', hP, -⟩ | ⟨rfl, -⟩
        · exact ⟨stage', hd.pos.trans hP⟩
        · -- the caller of `sleep` holds the lock, so no other CPU does
          have : s.lock (.lk x.lk) = some c := by
            rw [hI.locks, hd.here_eq, hd.cur]
            exact hd.acts.sleep_lock hx
          exact absurd (Option.some.inj (hlock.symm.trans this)) hc
      · rcases hd.pos_other (Ne.symm ht) with h | h
        · exact ⟨stage, h ▸ hx⟩
        · rw [h] at hx
          cases hx
    obtain ⟨stage', hx'⟩ := hold
    rw [hacq]
    exact hL.later c' w p stage' x hcur hlock hw hx'

theorem LaterInv.does_before (hL : LaterInv s) (hW : WakeInv s) (hd : Does s s' c ch t me P e) (hscan : (s'.pos w).scan = some (chan, i, start)) (l : Lk) : s'.acqAt w l ≤ start := by
  by_cases ht : w = t
  · subst ht
    rw [hd.pos_self] at hscan
    have hacq : s'.acqAt w l = s.acqAt w l := by
      rcases apply_acqAt hd.apply w l with h | ⟨-, -, -, P', he⟩
      · exact h
      · rw [hd.acts.acquire_scan he] at hscan
        cases hscan
    rw [hacq]
    have hold : ∀ i, P.scan = some (chan, i, start) → s.acqAt w l ≤ start := fun i h =>
      hL.before w chan i start (by rw [hd.pos]; exact h) l
    rcases hd.acts.scan hscan with ⟨rfl, -⟩ | h | ⟨q, h, -⟩ | ⟨q, ret, h, -⟩
    · exact le_of_lt (hW.clock w l)
    · exact hold _ h
    · exact hold _ h
    · exact hold q.val (by rw [h]; rfl)
  · have hacq : s'.acqAt w l = s.acqAt w l := by
      rcases apply_acqAt hd.apply w l with h | ⟨h, -⟩
      · exact h
      · exact absurd h ht
    rw [hacq]
    rcases hd.pos_other ht with h | h
    · rw [h] at hscan
      exact hL.before w chan i start hscan l
    · rw [h] at hscan
      cases hscan

theorem Inv.load_locks (hI : Inv s) (hcur : s.cur c = (t, true)) (l : Lk) : .lk l ∉ (s.here c).locks (s.cur c).1 := by
  unfold State.here
  cases hI.cpu c with
  | sched b hcur' hproc hload =>
    rw [hcur] at hcur'
    obtain ⟨rfl, rfl⟩ := Prod.mk.inj hcur'
    obtain ⟨q, hq⟩ := hload rfl
    rw [hcur, hq]
    simp [Pos.locks]
  | proc p b hcur' hproc hback hload =>
    rw [hcur] at hcur'
    obtain ⟨rfl, rfl⟩ := Prod.mk.inj hcur'
    have hres := (hload rfl).1
    rw [hcur]
    generalize s.pos (.proc p) = P at hres
    cases P with
    | sleep stage x =>
      cases stage with
      | wake => simp [Pos.locks, Thr.own]
      | _ => cases hres
    | yield stage =>
      cases stage with
      | unlock => simp [Pos.locks, Thr.own]
      | _ => cases hres
    | forkret => simp [Pos.locks, Thr.own]
    | _ => cases hres

theorem LaterInv.next {e : Fin m × Choice n} (hL : LaterInv s) (hW : WakeInv s) (hI : Inv s) (hn : Sched.next s e = .ok s') :
    LaterInv s' := by
  obtain ⟨c, ch⟩ := e
  rcases hI.next_cases hn with ⟨t, hcur, rfl⟩ | ⟨t, me, P, e, hd⟩
  · refine ⟨hL.inWait, fun c' w p stage x hcur' hlock hw hx => ?_, hL.before⟩
    by_cases hc : c' = c
    · -- a CPU that loads a context holds no lock but that of a process
      subst hc
      have hlock : s.lock (.lk x.lk) = some c' := hlock
      rw [hI.locks] at hlock
      exact absurd hlock (hI.load_locks hcur _)
    · have : s.cur c' = (w, false) := (update_of_ne hc _ _).symm.trans hcur'
      exact hL.later c' w p stage x this hlock hw hx
  · exact ⟨fun p stage x hx hin => hL.does_inWait hd hx hin,
      fun c' w p stage x hcur hlock hw hx => hL.does_later hW hI hd hcur hlock hw hx,
      fun w chan i start hscan l => hL.does_before hW hd hscan l⟩

structure TreeInv (s : State n m) : Prop where
  unused : ∀ q, (s.proc q).state = .UNUSED → (s.proc q).parent = none
  parent : ∀ q r, (s.proc q).parent = some r → (s.proc r).live = true
  forker : ∀ q r, (s.proc q).parent = some r → r = s.initproc ∨ (s.proc q).forker = some r
  init : (s.proc s.initproc).live = true ∧ (s.pos (.proc s.initproc)).exits = false
  zombie : ∀ q, (s.proc q).state = .ZOMBIE → (s.proc q).status = some (s.proc q).xstate
  family : ∀ c p, s.cur c = (.proc p, false) → Family s p (s.pos (.proc p))
  -- a process that sleeps in `wait` has a zombie only while `reparent` is going to wake it up
  asleep : ∀ p q stage x, s.pos (.proc p) = .sleep stage x → x.inWait.isSome = true → (s.proc p).woken = false →
    (s.proc q).parent = some p → (s.proc q).state = .ZOMBIE → p = s.initproc ∧
    ∃ c w i start j, s.cur c = (w, false) ∧ w ≠ .proc p ∧ (s.pos w).scan = some (.proc p, i, start) ∧ i ≤ p.val ∧
      (s.pos w).orphans = some j

theorem LaterInv.awake (hL : LaterInv s) (hW : WakeInv s) (hcur : s.cur c = (w, false))
    (hlock : s.lock (.lk .wait) = some c) (hscan : (s.pos w).scan = some (.proc r, i, start)) (hi : r.val < i)
    (hne : w ≠ .proc r) : s.Awake r := by
  intro stage x hx hin
  obtain ⟨hchan, hlk⟩ := hL.inWait r stage x hx hin
  refine hW.scanned w (.proc r) i start hscan r x hne hi hchan ⟨⟨stage, hx⟩, ?_, hL.before w _ i start hscan _⟩
  exact hL.later c w r stage x hcur (by rw [hlk]; exact hlock) hne hx

theorem Does.awake_of_ne (hd : Does s s' c ch (.proc p) me P e) (hr : r ≠ p) (h : s.Awake r) : s'.Awake r := by
  intro stage x hx hin
  have hne : (.proc r : Thr n m) ≠ .proc p := fun heq => hr (Thr.proc.inj heq)
  rcases hd.pos_other hne with hpos | hpos
  · rw [hpos] at hx
    rcases hd.woken (h stage x hx hin) with h | ⟨heq, -⟩
    · exact h
    · exact absurd heq (Ne.symm hne)
  · rw [hpos] at hx
    cases hx

section

variable (hT : TreeInv s) (hI : Inv s) (hd : Does s s' c ch (.proc p) me P e) (hme : me = some p) (h : Family s p P)
  {q : Fin n} {pid : Int}

include hd hme h

theorem Family.own_status {v : Int} (hv : e.goesTo.status = some v) : (s'.proc p).status = some v := by
  have hprocs := hd.procs
  have ha := hd.acts
  cases ha with
  | callExit =>
    cases hv
    cases hme
    rw [hprocs]
    simp [Effect.procs]
  | wakeupSet =>
    rw [hprocs]
    have := h.status v hv
    exact update_cases (Q := fun x => x.status = some v) p (fun _ => this) fun heq => by subst heq; exact this
  | reparent =>
    rw [hprocs]
    have := h.status v hv
    exact update_cases (Q := fun x => x.status = some v) p (fun _ => this) fun heq => by subst heq; exact this
  | wakeupMe | wakeupLock | wakeupSkip | wakeupUnlock | exitWait | reparentSkip | exitWakeup | exitAlone | exitLock =>
    rw [hprocs]
    exact h.status v hv
  | wakeupRet =>
    rename_i ret _ _
    rw [hprocs]
    cases ret with
    | kern => cases hv
    | _ => exact h.status v hv
  | killUnlock =>
    rename_i found
    cases found <;> cases hv
  | _ => cases hv

include hT in
theorem Family.own_orphans (hi : e.goesTo.orphans = some i) (hq : q.val < i) :
    (s'.proc q).parent ≠ some p := by
  intro hpar
  rw [hd.procs] at hpar
  have ha := hd.acts
  cases ha with
  | exitWait =>
    cases hi
    omega
  | reparent hidx hold =>
    cases hi
    cases hme
    simp only [Effect.procs, update_apply] at hpar
    split at hpar
    · -- the new parent is not the process that exits
      have := hT.init.2
      rw [Option.some.inj hpar, hd.pos] at this
      cases this
    · rename_i hne
      have : q.val ≠ _ := fun heq => hne (Fin.ext heq)
      exact h.orphans _ rfl q (by omega) hpar
  | reparentSkip hidx hno =>
    cases hi
    cases hme
    rename_i j _ _
    by_cases heq : q = j
    · exact hno (heq ▸ hpar)
    · have : q.val ≠ j.val := fun h => heq (Fin.ext h)
      exact h.orphans _ rfl q (by omega) hpar
  | exitWakeup hn | exitAlone hn =>
    cases hi
    exact h.orphans _ rfl q (by omega) hpar
  | wakeupSet =>
    refine h.orphans i hi q hq ?_
    revert hpar
    refine update_cases (Q := fun x => x.parent = some p → _) q (fun _ => id) ?_
    rintro rfl
    exact id
  | wakeupMe | wakeupLock | wakeupSkip | wakeupUnlock | exitLock => exact h.orphans i hi q hq hpar
  | wakeupRet =>
    rename_i ret _ _
    cases ret with
    | kern => cases hi
    | _ => exact h.orphans i hi q hq hpar
  | killUnlock =>
    rename_i found
    cases found <;> cases hi
  | _ => cases hi

theorem Family.own_tells (hchan : e.goesTo.tells = some chan) :
    ∃ r, chan = .proc r ∧ (s'.proc p).parent = some r := by
  have hprocs := hd.procs
  have ha := hd.acts
  cases ha with
  | exitWakeup hn hpar =>
    cases hchan
    cases hme
    rw [hprocs]
    exact ⟨_, rfl, hpar⟩
  | wakeupSet =>
    obtain ⟨r, rfl, hr⟩ := h.tells chan hchan
    rw [hprocs]
    exact ⟨r, rfl, update_cases (Q := fun x => x.parent = some r) p (fun _ => hr) fun heq => by subst heq; exact hr⟩
  | wakeupMe | wakeupLock | wakeupSkip | wakeupUnlock =>
    rw [hprocs]
    exact h.tells chan hchan
  | wakeupRet =>
    rename_i ret _ _
    cases ret <;> cases hchan
  | killUnlock =>
    rename_i found
    cases found <;> cases hchan
  | _ => cases hchan

include hI in
theorem Family.own_told (hL : LaterInv s) (hW : WakeInv s) (htold : e.goesTo.told = true)
    (hr : (s'.proc p).parent = some r) : s'.Awake r := by
  have hpos := hd.pos
  have hprocs := hd.procs
  have hlocks := hI.locks c (.lk .wait)
  rw [hd.here_eq, hd.cur] at hlocks
  have ha := hd.acts
  rw [hprocs] at hr
  cases ha with
  | exitAlone hn hno =>
    cases hme
    exact absurd (hno.symm.trans hr) nofun
  | exitLock =>
    have hrp : r ≠ p := by
      rintro rfl
      exact h.orphans n rfl r r.isLt hr
    exact hd.awake_of_ne hrp (h.told rfl r hr)
  | wakeupRet hn =>
    rename_i chan start ret i
    cases ret with
    | exit v =>
      obtain ⟨r', rfl, hr'⟩ := h.tells chan rfl
      obtain rfl : r' = r := Option.some.inj (hr'.symm.trans hr)
      have hrp : r' ≠ p := by
        rintro rfl
        exact h.orphans n rfl r' r'.isLt hr
      refine hd.awake_of_ne hrp (hL.awake hW hd.cur ?_ (by rw [hpos]; rfl) (Nat.lt_of_lt_of_le r'.isLt hn) fun heq => hrp ?_)
      · exact hlocks.mpr (List.mem_singleton.mpr rfl)
      · exact (Thr.proc.inj heq).symm
    | _ => cases htold
  | killUnlock =>
    rename_i found
    cases found <;> cases htold
  | _ => cases htold

theorem Family.own_childless (hi : e.goesTo.childless = some i) (hq : q.val < i) :
    (s'.proc q).parent ≠ some p := by
  have hprocs := hd.procs
  have ha := hd.acts
  cases ha with
  | waitLock | sleepWait =>
    cases hi
    omega
  | waitSkip hidx hno =>
    rename_i j k havekids addr
    cases havekids with
    | true => cases hi
    | false =>
      cases hi
      rw [hprocs]
      by_cases heq : q = j
      · rw [heq, ← hme]
        exact hno
      · have : q.val ≠ j.val := fun h => heq (Fin.ext h)
        exact h.childless _ rfl q (by omega)
  | waitNobody hn =>
    cases hi
    rw [hprocs]
    exact h.childless _ rfl q (by omega)
  | wakeupRet =>
    rename_i ret _ _
    cases ret <;> cases hi
  | killUnlock =>
    rename_i found
    cases found <;> cases hi
  | _ => cases hi

theorem Family.own_alive (hi : e.goesTo.alive = some i) (hq : q.val < i)
    (hpar : (s'.proc q).parent = some p) : (s'.proc q).state ≠ .ZOMBIE := by
  have hprocs := hd.procs
  have ha := hd.acts
  rw [hprocs] at hpar ⊢
  cases ha with
  | waitLock | sleepWait =>
    cases hi
    omega
  | waitSkip hidx hno =>
    rename_i j k havekids addr
    cases hi
    by_cases heq : q = j
    · subst heq
      rw [hme] at hno
      exact absurd hpar hno
    · have : q.val ≠ j.val := fun h => heq (Fin.ext h)
      exact h.alive _ rfl q (by omega) hpar
  | waitChild hidx =>
    cases hi
    subst hidx
    exact h.alive _ rfl q hq hpar
  | waitAlive hst =>
    rename_i j addr
    cases hi
    by_cases heq : q = j
    · subst heq
      exact hst
    · have : q.val ≠ j.val := fun h => heq (Fin.ext h)
      exact h.alive _ rfl q (by omega) hpar
  | waitMore hn =>
    cases hi
    exact h.alive _ rfl q (by omega) hpar
  | waitUnlock | waitKilled | waitKilledRead | waitKilledNo => exact h.alive i hi q hq hpar
  | wakeupRet =>
    rename_i ret _ _
    cases ret <;> cases hi
  | killUnlock =>
    rename_i found
    cases found <;> cases hi
  | _ => cases hi

theorem Family.own_child (hq : e.goesTo.child = some q) : (s'.proc q).parent = some p := by
  have hprocs := hd.procs
  have ha := hd.acts
  rw [hprocs]
  cases ha with
  | waitChild hidx hpar =>
    cases hq
    rw [← hme]
    exact hpar
  | waitFound => exact h.child q hq
  | wakeupRet =>
    rename_i ret _ _
    cases ret <;> cases hq
  | killUnlock =>
    rename_i found
    cases found <;> cases hq
  | _ => cases hq

omit hme h in
theorem Family.own_found {stored : Nat × Option Int} (hq : e.goesTo = .waitFree q pid stored) :
    pid = (s'.proc q).pid ∧ stored.2 = if stored.1 ≠ 0 then some (s'.proc q).xstate else none := by
  have hprocs := hd.procs
  have ha := hd.acts
  rw [hprocs]
  cases ha with
  | waitFound =>
    cases hq
    exact ⟨rfl, rfl⟩
  | wakeupRet =>
    rename_i ret _ _
    cases ret <;> cases hq
  | killUnlock =>
    rename_i found
    cases found <;> cases hq
  | _ => cases hq

theorem Family.own_returns (hpid : e.goesTo.returns = some pid) :
    ∃ x, s'.reaps.head? = some x ∧ x.waiter = some p ∧ x.pid = pid := by
  have hcproc := hd.cproc
  have happly := hd.apply
  have ha := hd.acts
  cases ha with
  | waitFree =>
    cases hpid
    obtain rfl := (Except.ok.inj happly).symm
    exact ⟨_, rfl, hcproc.trans hme, rfl⟩
  | waitFreed =>
    obtain rfl := (Except.ok.inj happly).symm
    simp only [Effect.goesTo, Pos.returns] at hpid
    split at hpid
    · cases hpid
    · cases hpid
      exact h.returns _ rfl
  | wakeupRet =>
    rename_i ret _ _
    cases ret <;> cases hpid
  | killUnlock =>
    rename_i found
    cases found <;> cases hpid
  | _ => cases hpid

include hT in
theorem Family.own_fresh (hq : e.goesTo.fresh = some q) : (s'.proc q).parent = none := by
  have hprocs := hd.procs
  have ha := hd.acts
  rw [hprocs]
  cases ha with
  | alloc hst =>
    cases hq
    simp only [Effect.procs, update_self]
    exact hT.unused q hst
  | mem =>
    cases hq
    simp only [Effect.procs, update_self]
    exact h.fresh q rfl
  | context => exact h.fresh q hq
  | wakeupRet =>
    rename_i ret _ _
    cases ret <;> cases hq
  | killUnlock =>
    rename_i found
    cases found <;> cases hq
  | _ => cases hq

theorem Family.own_made (hq : e.goesTo.made = some q) : (s'.proc q).forker = some p := by
  have hprocs := hd.procs
  have ha := hd.acts
  rw [hprocs]
  cases ha with
  | copy =>
    cases hq
    cases hme
    simp only [Effect.procs, update_self]
  | forkUnlock | forkWait => exact h.made q hq
  | wakeupRet =>
    rename_i ret _ _
    cases ret <;> cases hq
  | killUnlock =>
    rename_i found
    cases found <;> cases hq
  | _ => cases hq

include hT hI in
theorem Family.own (hL : LaterInv s) (hW : WakeInv s) : Family s' p e.goesTo where
  status _ hv := h.own_status hd hme hv
  orphans _ hi _ hq := h.own_orphans hT hd hme hi hq
  tells _ hchan := h.own_tells hd hme hchan
  told htold _ hr := h.own_told hI hd hme hL hW htold hr
  childless _ hi _ hq := h.own_childless hd hme hi hq
  alive _ hi _ hq hpar := h.own_alive hd hme hi hq hpar
  child _ hq := h.own_child hd hme hq
  found _ _ _ hq := Family.own_found hd hq
  returns _ hpid := h.own_returns hd hme hpid
  fresh _ hq := h.own_fresh hT hd hme hq
  made _ hq := h.own_made hd hme hq

end

/-! ### Steps and runs -/

theorem Does.executing (hI : Inv s) (hd : Does s s' c ch t me P e) (hcur : s'.cur c' = (.proc p, false)) :
    c' = c ∧ t = .proc p ∧ e.stays = true ∨
    c' ≠ c ∧ s.cur c' = (.proc p, false) ∧ s'.pos (.proc p) = s.pos (.proc p) := by
  by_cases hc : c' = c
  · subst hc
    left
    have hs : e.stays = true := by
      have ha := hd.apply
      cases e with
      | toProc | toSched =>
        obtain rfl := (Except.ok.inj ha).symm
        simp [State.go, State.save] at hcur
      | _ => rfl
    rw [hd.cur_eq hs, hd.cur] at hcur
    exact ⟨rfl, (Prod.mk.inj hcur).1, hs⟩
  · right
    have hhere := hd.here_ne hI hc
    rw [hd.cur_ne hc] at hcur
    refine ⟨hc, hcur, ?_⟩
    unfold State.here at hhere
    rwa [hd.cur_ne hc, hcur] at hhere

theorem Does.me_eq (hI : Inv s) (hd : Does s s' c ch (.proc p) me P e) : me = some p := by
  cases hI.cpu c with
  | sched b hcur hproc =>
    rw [hd.cur] at hcur
    cases hcur
  | proc r b hcur hproc =>
    rw [hd.cur] at hcur
    cases hcur
    exact hd.cproc.symm.trans hproc

theorem TreeInv.does_family (hT : TreeInv s) (hL : LaterInv s) (hW : WakeInv s) (hI : Inv s) (hd : Does s s' c ch t me P e) (hcur : s'.cur c' = (.proc p, false)) : Family s' p (s'.pos (.proc p)) := by
  rcases hd.executing hI hcur with ⟨rfl, rfl, -⟩ | ⟨hc, hcur, hpos⟩
  · rw [hd.pos_self]
    have h := hT.family c' p hd.cur
    rw [hd.pos] at h
    exact h.own hT hI hd (hd.me_eq hI) hL hW
  · rw [hpos]
    exact (hT.family c' p hcur).other hI hd hc hcur

theorem TreeInv.does_parent (hT : TreeInv s) (hI : Inv s) (hd : Does s s' c ch t me P e) (h : (s'.proc q).parent = some r) :
    (s'.proc r).live = true := by
  rw [hd.procs] at h
  -- only the end of `exit` ends the life of a process, and then it has no children
  have hkeep : (s.proc r).live = true → (∀ v, me = some r → P = .exitSet v → False) → (s'.proc r).live = true := by
    intro hlive hno
    rcases hd.live hI hlive with h | ⟨hme, v, hP⟩
    · exact h
    · exact (hno v hme hP).elim
  rcases hd.acts.parent h with hold | ⟨rfl, hme⟩ | ⟨rfl, p, i, v, -, rfl, -⟩
  · refine hkeep (hT.parent q r hold) fun v hme hP => ?_
    subst hP
    have ht := hd.own r hme rfl
    subst ht
    have hfam := hT.family c r hd.cur
    rw [hd.pos] at hfam
    exact hfam.orphans n rfl q q.isLt hold
  · exact hkeep (by simp [Proc.live, hd.running hI hme rfl rfl]) fun v _ hP => by cases hP
  · exact hkeep hT.init.1 fun v _ hP => by cases hP

theorem TreeInv.does_forker (hT : TreeInv s) (hI : Inv s) (hd : Does s s' c ch t me P e) (h : (s'.proc q).parent = some r) :
    r = s'.initproc ∨ (s'.proc q).forker = some r := by
  rw [hd.procs] at h
  rw [apply_initproc hd.apply]
  rcases hd.acts.parent h with hold | ⟨rfl, hme⟩ | ⟨rfl, -⟩
  · rcases hT.forker q r hold with h | hf
    · exact .inl h
    · right
      have hq : (s.proc q).state ≠ .UNUSED := fun hu => by
        rw [hT.unused q hu] at hold
        cases hold
      rw [hd.procs]
      rcases (hd.acts.histories q hq).2.1 with heq | rfl
      · rw [heq]
        exact hf
      · -- a process that is being copied has no parent yet
        have ha := hd.acts
        generalize hP : Pos.forkCopy q = P at ha
        cases ha with
        | copy | copyFail =>
          cases hP
          have ht := hd.own _ rfl rfl
          subst ht
          have hfam := hT.family c _ hd.cur
          rw [hd.pos] at hfam
          rw [hfam.fresh q rfl] at hold
          cases hold
        | _ => cases hP
  · right
    have ht := hd.own r hme rfl
    subst ht
    have hfam := hT.family c r hd.cur
    rw [hd.pos] at hfam
    have hmade := hfam.made q rfl
    rw [hd.procs]
    rcases (hd.acts.histories q (by rw [hd.used hI rfl]; simp)).2.1 with heq | hP
    · rw [heq]
      exact hmade
    · cases hP
  · exact .inl rfl

theorem Acts.exits (ha : Acts s me P e) (h : e.goesTo.exits = true) :
    P.exits = true ∨ ∃ p, me = some p ∧ p ≠ s.initproc ∧ P = .kern [] := by
  cases ha with
  | callExit status hinit => exact .inr ⟨_, rfl, hinit, rfl⟩
  | exitWait | reparent | reparentSkip | exitWakeup | exitAlone | exitLock | exitSet | exitUnlock | exitSched => exact .inl rfl
  | wakeupMe | wakeupLock | wakeupSet | wakeupSkip | wakeupUnlock => exact .inl h
  | wakeupRet =>
    rename_i ret _ _
    cases ret with
    | kern => cases h
    | _ => exact .inl rfl
  | killUnlock =>
    rename_i found
    cases found <;> cases h
  | _ => cases h

theorem TreeInv.does_init (hT : TreeInv s) (hI : Inv s) (hd : Does s s' c ch t me P e) :
    (s'.proc s'.initproc).live = true ∧ (s'.pos (.proc s'.initproc)).exits = false := by
  rw [apply_initproc hd.apply]
  constructor
  · rcases hd.live hI hT.init.1 with h | ⟨hme, v, rfl⟩
    · exact h
    · have := hT.init.2
      rw [← hd.own _ hme rfl, hd.pos] at this
      cases this
  · by_cases ht : t = .proc s.initproc
    · subst ht
      rw [hd.pos_self]
      refine Bool.eq_false_of_not_eq_true fun hex => ?_
      rcases hd.acts.exits hex with h | ⟨p, hme, hne, rfl⟩
      · have := hT.init.2
        rw [hd.pos, h] at this
        cases this
      · exact hne (Thr.proc.inj (hd.own p hme rfl)).symm
    · rcases hd.pos_other (Ne.symm ht) with h | h
      · rw [h]
        exact hT.init.2
      · rw [h]
        rfl

theorem TreeInv.does_zombie (hT : TreeInv s) (hI : Inv s) (hd : Does s s' c ch t me P e)
    (h : (s'.proc q).state = .ZOMBIE) : (s'.proc q).status = some (s'.proc q).xstate := by
  rw [hd.procs] at h ⊢
  rcases hd.acts.zombie h with ⟨hz, hx⟩ | ⟨hme, v, rfl, hx⟩
  · rw [hx]
    rcases (hd.acts.histories q (by rw [hz]; simp)).1 with heq | ⟨hme, rfl, -⟩
    · rw [heq]
      exact hT.zombie q hz
    · have := hd.running hI hme rfl rfl
      rw [hz] at this
      cases this
  · rw [hx]
    have ht := hd.own q hme rfl
    subst ht
    have hfam := hT.family c q hd.cur
    rw [hd.pos] at hfam
    rcases (hd.acts.histories q (by rw [hd.running hI hme rfl rfl]; simp)).1 with heq | ⟨-, hP, -⟩
    · rw [heq]
      exact hfam.status v rfl
    · cases hP

theorem Acts.scan_next (ha : Acts s me P e) {j : Nat} (hscan : P.scan = some (chan, i, start))
    (horph : P.orphans = some j) : n ≤ i ∨ e.stays = true ∧ e.goesTo.orphans = some j ∧
      ∃ i', e.goesTo.scan = some (chan, i', start) := by
  cases ha with
  | wakeupRet hn =>
    cases hscan
    exact .inl hn
  | wakeupMe | wakeupLock | wakeupSet | wakeupSkip | wakeupUnlock =>
    cases hscan
    exact .inr ⟨rfl, horph, _, rfl⟩
  | _ => cases hscan

theorem TreeInv.old_sleep (hT : TreeInv s) (hI : Inv s) (hd : Does s s' c ch t me P e)
    (hx : s'.pos (.proc p) = .sleep stage x) (hin : x.inWait.isSome = true) (hwoken : (s'.proc p).woken = false)
    (hpar : (s'.proc q).parent = some p) (hz : (s'.proc q).state = .ZOMBIE) :
    ∃ stage', s.pos (.proc p) = .sleep stage' x ∧ (s.proc p).woken = false := by
  have hold : ∀ stage', s.pos (.proc p) = .sleep stage' x → (t = .proc p → stage ≠ .lock) →
      ∃ stage', s.pos (.proc p) = .sleep stage' x ∧ (s.proc p).woken = false := by
    intro stage' hx' hlock
    refine ⟨stage', hx', Bool.eq_false_of_not_eq_true fun hw => ?_⟩
    rcases hd.woken hw with h | ⟨ht, y, hy, -⟩
    · rw [hwoken] at h
      cases h
    · have hpos := hd.pos_self
      rw [ht, hx, hy] at hpos
      cases hpos
      exact hlock ht rfl
  by_cases ht : t = .proc p
  · subst ht
    have hpos := hx
    rw [hd.pos_self] at hpos
    rcases hd.acts.sleep hpos with ⟨stage', hP, hne, -⟩ | ⟨rfl, -⟩
    · exact hold stage' (hd.pos.trans hP) fun _ => hne
    · -- `wait` has looked at all children
      exfalso
      have hfam := hT.family c p hd.cur
      rw [hd.pos] at hfam
      have hme := hd.me_eq hI
      rw [hd.procs] at hpar hz
      have ha := hd.acts
      cases ha with
      | callSleep =>
        cases hpos
        cases hin
      | waitSleep =>
        cases hme
        refine hfam.alive n rfl q q.isLt ?_ ?_
        · revert hpar
          refine update_cases (Q := fun x => x.parent = some p → _) q (fun _ => id) ?_
          rintro rfl
          exact id
        · revert hz
          refine update_cases (Q := fun x => x.state = .ZOMBIE → _) q (fun _ => id) ?_
          rintro rfl
          exact id
      | wakeupRet =>
        rename_i ret _ _
        cases ret <;> cases hpos
      | killUnlock =>
        rename_i found
        cases found <;> cases hpos
      | _ => cases hpos
  · rcases hd.pos_other (Ne.symm ht) with h | h
    · exact hold stage (h ▸ hx) fun h => absurd h ht
    · rw [h] at hx
      cases hx

theorem TreeInv.does_asleep (hT : TreeInv s) (hL' : LaterInv s') (hW' : WakeInv s') (hI : Inv s) (hI' : Inv s')
    (hd : Does s s' c ch t me P e) (hx : s'.pos (.proc p) = .sleep stage x)
    (hin : x.inWait.isSome = true) (hwoken : (s'.proc p).woken = false) (hpar : (s'.proc q).parent = some p)
    (hz : (s'.proc q).state = .ZOMBIE) : p = s'.initproc ∧
    ∃ c w i start j, s'.cur c = (w, false) ∧ w ≠ .proc p ∧ (s'.pos w).scan = some (.proc p, i, start) ∧ i ≤ p.val ∧
      (s'.pos w).orphans = some j := by
  obtain ⟨stage', hx', hwoken'⟩ := hT.old_sleep hI hd hx hin hwoken hpar hz
  rw [apply_initproc hd.apply]
  rw [hd.procs] at hpar hz
  -- a child that exits now has woken up its parent
  have hz' : (s.proc q).state = .ZOMBIE := by
    rcases hd.acts.zombie hz with ⟨h, -⟩ | ⟨hme, v, rfl, -⟩
    · exact h
    · exfalso
      have ht := hd.own q hme rfl
      subst ht
      have hfam := hT.family c q hd.cur
      rw [hd.pos] at hfam
      rcases hd.acts.parent hpar with h | ⟨h, -⟩ | ⟨-, p', i, v', -, h, -⟩
      · rw [hfam.told rfl p h stage' x hx' hin] at hwoken'
        cases hwoken'
      · cases h
      · cases h
  rcases hd.acts.parent hpar with hold | ⟨rfl, -⟩ | ⟨rfl, p', i, v, hme, rfl, -, hgo⟩
  · obtain ⟨hinit, c0, w, i, start, j, hcur, hw, hscan, hi, horph⟩ := hT.asleep p q stage' x hx' hin hwoken' hold hz'
    refine ⟨hinit, ?_⟩
    by_cases hc : c0 = c
    · subst hc
      rw [hd.cur] at hcur
      obtain ⟨rfl, -⟩ := Prod.mk.inj hcur
      rw [hd.pos] at hscan horph
      rcases hd.acts.scan_next hscan horph with hn | ⟨hs, horph', i', hscan'⟩
      · have := p.isLt
        omega
      · have hcur' : s'.cur c0 = (t, false) := by rw [hd.cur_eq hs, hd.cur]
        by_cases hi' : i' ≤ p.val
        · exact ⟨c0, t, i', start, j, hcur', hw, by rw [hd.pos_self]; exact hscan', hi', by rw [hd.pos_self]; exact horph'⟩
        · -- the call of `wakeup` has just been at the process
          have hlock : s'.lock (.lk .wait) = some c0 := by
            rw [hI'.locks, hd.here_self hs]
            exact holds_wait (.inl (by rw [horph']; rfl))
          have := hL'.awake hW' hcur' hlock (by rw [hd.pos_self]; exact hscan') (by omega) hw stage x hx hin
          rw [hwoken] at this
          cases this
    · have hhere := hd.here_ne hI hc
      have hcur' := hd.cur_ne hc
      unfold State.here at hhere
      rw [hcur', hcur] at hhere
      exact ⟨c0, w, i, start, j, by rw [hcur', hcur], hw, by rw [hhere]; exact hscan, hi, by rw [hhere]; exact horph⟩
  · rw [hd.used hI rfl] at hz'
    cases hz'
  · have ht := hd.own p' hme rfl
    subst ht
    have hs : e.stays = true := by
      have ha := hd.acts
      cases ha <;> rfl
    refine ⟨rfl, c, .proc p', 0, s.now, i + 1, by rw [hd.cur_eq hs, hd.cur], fun heq => ?_, ?_, Nat.zero_le _, ?_⟩
    · have := hT.init.2
      rw [← heq, hd.pos] at this
      cases this
    · rw [hd.pos_self, hgo]
      rfl
    · rw [hd.pos_self, hgo]
      rfl

theorem TreeInv.next {e : Fin m × Choice n} (hT : TreeInv s) (hL : LaterInv s) (hW : WakeInv s) (hS : SleepInv s) (hI : Inv s)
    (hn : Sched.next s e = .ok s') : TreeInv s' := by
  have hI' := hI.next hn
  have hW' := hW.next hS hI hn
  have hL' := hL.next hW hI hn
  obtain ⟨c, ch⟩ := e
  rcases hI.next_cases hn with ⟨t, hcur, rfl⟩ | ⟨t, me, P, e, hd⟩
  · refine ⟨hT.unused, hT.parent, hT.forker, hT.init, hT.zombie, fun c' p hcur' => ?_, fun p q stage x hx hin hw hpar hz => ?_⟩
    · by_cases hc : c' = c
      · -- the context of a process leads to a point that knows nothing
        subst hc
        have hload : (s.load c' t).cur c' = (t, false) := update_self ..
        obtain ⟨rfl, -⟩ := Prod.mk.inj (hload.symm.trans hcur')
        have hres : (s.pos (.proc p)).resumes = true := by
          cases hI.cpu c' with
          | sched b hcur'' =>
            rw [hcur] at hcur''
            cases hcur''
          | proc r b hcur'' hproc hback hload =>
            rw [hcur] at hcur''
            obtain ⟨heq, rfl⟩ := Prod.mk.inj hcur''
            rw [Thr.proc.inj heq]
            exact (hload rfl).1
        change Family _ p (s.pos (.proc p))
        generalize s.pos (.proc p) = P at hres
        cases P with
        | sleep | yield | forkret =>
          exact ⟨nofun, nofun, nofun, nofun, nofun, nofun, nofun, nofun, nofun, nofun, nofun⟩
        | _ => cases hres
      · have : s.cur c' = (.proc p, false) := (update_of_ne hc _ _).symm.trans hcur'
        have hfam := hT.family c' p this
        exact ⟨hfam.status, hfam.orphans, hfam.tells, hfam.told, hfam.childless, hfam.alive, hfam.child, hfam.found, hfam.returns,
          hfam.fresh, hfam.made⟩
    · obtain ⟨hinit, c0, w, i, start, j, hcur0, h⟩ := hT.asleep p q stage x hx hin hw hpar hz
      have hc : c0 ≠ c := by
        rintro rfl
        rw [hcur] at hcur0
        cases hcur0
      exact ⟨hinit, c0, w, i, start, j, (update_of_ne hc _ _).trans hcur0, h⟩
  · refine ⟨fun q hq => ?_, fun q r hpar => hT.does_parent hI hd hpar, fun q r hpar => hT.does_forker hI hd hpar,
      hT.does_init hI hd, fun q hq => hT.does_zombie hI hd hq, fun c' p hcur => hT.does_family hL hW hI hd hcur,
      fun p q stage x hx hin hw hpar hz => hT.does_asleep hL' hW' hI hI' hd hx hin hw hpar hz⟩
    cases hpar : (s'.proc q).parent with
    | none => rfl
    | some r =>
      exfalso
      rw [hd.procs] at hq hpar
      rcases hd.acts.unused hq with hu | hnone
      · rcases hd.acts.parent hpar with h | ⟨rfl, -⟩ | ⟨-, p, i, v, -, -, h, -⟩
        · rw [hT.unused q hu] at h
          cases h
        · rw [hd.used hI rfl] at hu
          cases hu
        · rw [hT.unused q hu] at h
          cases h
      · rw [hnone] at hpar
        cases hpar

end Xv6.Sched
