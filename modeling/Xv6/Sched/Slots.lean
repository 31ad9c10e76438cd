import Xv6.Sched.Step

/-!
# Slots of the process table

The fields of a slot change only under the locks that protect them; a
free slot is clean as long as nobody calls `kill(0)`, since a free slot has the pid 0.
-/

namespace Xv6.Sched

open Function (update update_of_ne update_self)
open Run

variable {n m : Nat} {s s' : State n m} {c : Fin m} {t : Thr n m} {p q : Fin n} {me : Option (Fin n)} {P : Pos n}
  {e : Effect n m} {x : Proc n} {ch : Choice n}

/-- The CPU has `c->proc = p`, or executes with the context and the kernel stack of `p`. -/
def State.OnCpu (s : State n m) (c : Fin m) (p : Fin n) : Prop := s.cproc c = some p ∨ (s.cur c).1 = .proc p

/-- The CPU is going to call `freeproc`. -/
def State.Freeing (s : State n m) (c : Fin m) (q : Fin n) : Prop :=
  (s.cur c).2 = false ∧ (s.here c = .forkFree q ∨ ∃ pid stored, s.here c = .waitFree q pid stored)

theorem Inv.onCpu (hI : Inv s) (h : s.OnCpu c p) : s.inUse c = some p := by
  rcases h with h | h
  · cases hI.cpu c with
    | sched b hcur hproc =>
      rw [State.inUse_cpu (d := c) (by rw [hcur])]
      rw [hproc] at h
      revert h
      cases s.pos (.cpu c) <;> simp [Pos.cproc, Pos.uses]
    | proc r b hcur hproc =>
      rw [hproc] at h
      obtain rfl := Option.some.inj h
      exact State.inUse_proc (by rw [hcur])
  · exact State.inUse_proc h

theorem Inv.freeing (hI : Inv s) (h : s.Freeing c q) (c' : Fin m) : ¬ s.OnCpu c' q := by
  obtain ⟨-, hpos⟩ := h
  intro hon
  have hu := hI.onCpu hon
  rcases hpos with hpos | ⟨pid, stored, hpos⟩
  · have hused := (hI.forks (s.cur c).1 q (by change (s.here c).forks = _; rw [hpos]; rfl)).1
    exact hI.unused_of_state (.inl hused) c' hu
  · have hz := hI.frees c q pid stored hpos
    have hlock : s.lock (.proc q) = some c := by
      rw [hI.locks, hpos]
      exact List.mem_cons_self ..
    exact hI.unused hlock (by rw [hpos]; rfl) (by rw [hz]; simp) c' hu

/-- In every run at most one CPU has `c->proc = p` or executes with the context of `p`; a CPU that is going to load the context of
`p` finds it saved, and `p` is `RUNNING`; and when `freeproc(q)` runs, no CPU is on the kernel stack of `q`. -/
theorem no_process_runs_twice {initproc : Fin n} {pagetable trapframe : Nat} {es : List (Fin m × Choice n)}
    (h : run next (boot initproc pagetable trapframe) es = .ok s) :
    (∀ c c' p, s.OnCpu c p → s.OnCpu c' p → c = c') ∧
    (∀ c p, s.cur c = (.proc p, true) → s.saved (.proc p) = true ∧ (s.proc p).state = .RUNNING) ∧
    (∀ c q, s.Freeing c q → ∀ c', ¬ s.OnCpu c' q) := by
  have hI := inv_run h
  refine ⟨fun c c' p h h' => hI.uniq c c' p (hI.onCpu h) (hI.onCpu h'), ?_, fun c q hf => hI.freeing hf⟩
  intro c p hcur
  have hu : s.inUse c = some p := State.inUse_proc (by rw [hcur])
  cases hI.cpu c with
  | sched b hcur' =>
    rw [hcur] at hcur'
    cases hcur'
  | proc r b hcur' hproc hback hload =>
    rw [hcur] at hcur'
    obtain ⟨hp, rfl⟩ := Prod.mk.inj hcur'
    obtain rfl := Thr.proc.inj hp
    obtain ⟨hres, hsaved⟩ := hload rfl
    refine ⟨hsaved, hI.running hu ?_⟩
    unfold State.here
    rw [hcur]
    exact (Pos.resumes_own (m := m) hres p).2.1

def cpu0 : Fin 2 := ⟨0, Nat.two_pos⟩

def cpu1 : Fin 2 := ⟨1, Nat.one_lt_two⟩

/-- The first process forks on one CPU, and another one switches to the child. -/
def forkTwo : List (Fin 2 × Choice 2) :=
  List.replicate 6 (cpu0, .go) ++ (cpu0, .fork) :: List.replicate 5 (cpu0, .go) ++
    [(cpu0, .mem 1 1), (cpu0, .go), (cpu0, .copy true)] ++ List.replicate 7 (cpu0, .go) ++ List.replicate 7 (cpu1, .go)

theorem no_process_runs_twice_forkTwo :
    ∃ s : State 2 2, run next (boot cpu0 1 1) forkTwo = .ok s ∧ s.cur cpu0 = (.proc cpu0, false) ∧ s.cur cpu1 = (.proc cpu1, true) ∧
      (∀ c c' p, s.OnCpu c p → s.OnCpu c' p → c = c') ∧
      (∀ c p, s.cur c = (.proc p, true) → s.saved (.proc p) = true ∧ (s.proc p).state = .RUNNING) ∧
      (∀ c q, s.Freeing c q → ∀ c', ¬ s.OnCpu c' q) := by
  have hends : Ends (fun s : State 2 2 => s.cur cpu0 = (.proc cpu0, false) ∧ s.cur cpu1 = (.proc cpu1, true))
      (run next (boot cpu0 1 1) forkTwo) := by
    decide +kernel
  obtain ⟨s, hrun, hcur, hcur'⟩ := hends.exists
  exact ⟨s, hrun, hcur, hcur', no_process_runs_twice hrun⟩

/-- The runs below are on one CPU. -/
scoped instance oneCpu : NeZero 1 := ⟨Nat.one_ne_zero⟩

def Effect.procs (s : State n m) : Effect n m → Fin n → Proc n
  | .set q x _ => update s.proc q x
  | .alloc q _ =>
    update s.proc q { s.proc q with pid := s.nextpid, state := .USED, born := s.now, forker := none, status := none }
  | .reap q _ _ _ => update s.proc q (s.proc q).freed
  | _ => s.proc

theorem apply_procs (h : e.apply s c t = .ok s') : s'.proc = e.procs s := by
  cases e with
  | acquire l P =>
    obtain ⟨-, rfl⟩ := apply_acquire h
    cases l <;> rfl
  | blocked | panic => cases h
  | _ =>
    cases h
    rfl

def Effect.goesTo : Effect n m → Pos n
  | .tau P | .acquire _ P | .release _ P | .set _ _ P | .alloc _ P | .context _ P | .reap _ _ _ P | .setCpu _ P | .toProc _ P
  | .toSched P => P
  | .blocked | .panic _ => .zombie

theorem apply_pos (h : e.apply s c t = .ok s') : s'.pos t = e.goesTo := by
  cases e with
  | acquire l P =>
    obtain ⟨-, rfl⟩ := apply_acquire h
    exact update_self ..
  | blocked | panic => cases h
  | _ =>
    cases h
    exact update_self ..

theorem apply_pos_ne {t' : Thr n m} (h : e.apply s c t = .ok s') (ht : t' ≠ t) (hctx : ∀ q P, e = .context q P → t' ≠ .proc q) :
    s'.pos t' = s.pos t' := by
  cases e with
  | acquire l P =>
    obtain ⟨-, rfl⟩ := apply_acquire h
    cases l <;> exact update_of_ne ht _ _
  | context q P =>
    cases h
    exact (update_of_ne ht _ _).trans (update_of_ne (hctx q P rfl) _ _)
  | blocked | panic => cases h
  | _ =>
    cases h
    exact update_of_ne ht _ _

structure Proc.SameLocked (x y : Proc n) : Prop where
  state : x.state = y.state
  chan : x.chan = y.chan
  killed : x.killed = y.killed
  xstate : x.xstate = y.xstate
  pid : x.pid = y.pid

theorem Proc.SameLocked.refl (x : Proc n) : x.SameLocked x := ⟨rfl, rfl, rfl, rfl, rfl⟩

theorem sameLocked_update (hx : x.SameLocked (s.proc q)) (r : Fin n) :
    (update s.proc q x r).SameLocked (s.proc r) := by
  by_cases hr : r = q
  · subst hr
    rwa [update_self]
  · rw [update_of_ne hr]
    exact .refl _

theorem sameLocked_of_mem {L : List (Lock n)} (hq : .proc q ∈ L) (r : Fin n) :
    .proc r ∈ L ∨ (update s.proc q x r).SameLocked (s.proc r) := by
  by_cases hr : r = q
  · exact .inl (hr ▸ hq)
  · rw [update_of_ne hr]
    exact .inr (.refl _)

theorem Acts.locked (ha : Acts s me P e) (hme : ∀ p, me = some p → P.cproc = none → t = .proc p) (r : Fin n) :
    .proc r ∈ P.locks t ∨ (e.procs s r).SameLocked (s.proc r) := by
  cases ha with
  | callSleep | callExit | exec | forkParent | reparent | waitSleep =>
    refine .inr (sameLocked_update ?_ r)
    exact ⟨rfl, rfl, rfl, rfl, rfl⟩
  | sleepSet | sleepWake | yieldSet | exitSet =>
    refine sameLocked_of_mem ?_ r
    rw [hme _ rfl rfl]
    exact List.mem_cons_self ..
  | wakeupSet | killWake | killSet | alloc | memNone | memFail | mem | copy | forkFree | forkRun | waitFree | choose =>
    exact sameLocked_of_mem (List.mem_cons_self ..) r
  | _ => exact .inr (.refl _)

/-- CPU `c` makes the step `e` of its thread `t` from the point `P`. -/
structure Does (s s' : State n m) (c : Fin m) (ch : Choice n) (t : Thr n m) (me : Option (Fin n)) (P : Pos n) (e : Effect n m) :
    Prop where
  code : e = code s me ch P
  cur : s.cur c = (t, false)
  pos : s.pos t = P
  cproc : s.cproc c = me
  own : ∀ p, me = some p → P.cproc = none → t = .proc p
  acts : Acts s me P e
  apply : e.apply s c t = .ok s'
  context : ∀ q P', e = .context q P' → ∀ c', (s.cur c').1 ≠ .proc q

theorem Inv.next_cases (hI : Inv s) (hn : Sched.next s (c, ch) = .ok s') :
    (∃ t, s.cur c = (t, true) ∧ s' = s.load c t) ∨ ∃ t me P e, Does s s' c ch t me P e := by
  unfold Sched.next at hn
  split at hn
  · rename_i hload
    exact .inl ⟨(s.cur c).1, by rw [← hload], (Except.ok.inj hn).symm⟩
  · rename_i hrun
    have hcur : s.cur c = ((s.cur c).1, false) := by rw [← Bool.eq_false_of_not_eq_true hrun]
    have hown : ∀ p, s.cproc c = some p → (s.pos (s.cur c).1).cproc = none → (s.cur c).1 = .proc p := by
      intro p hp hno
      cases hI.cpu c with
      | sched b hcur hproc =>
        rw [hcur] at hno
        rw [hproc, hno] at hp
        cases hp
      | proc r b hcur hproc =>
        rw [hproc] at hp
        rw [hcur, Option.some.inj hp]
    refine .inr ⟨_, _, _, _, rfl, hcur, rfl, rfl, hown, code_acts hn, hn, ?_⟩
    intro q P' he c' heq
    have ha := code_acts hn
    rw [he] at ha
    generalize hP : s.pos (s.cur (c, ch).1).1 = P at ha
    generalize s.cproc (c, ch).1 = me at ha
    cases ha
    have hused := (hI.forks _ q (by rw [hP]; rfl)).1
    exact hI.unused_of_state (.inl hused) c' (State.inUse_proc heq)

def Effect.stays : Effect n m → Bool
  | .toProc .. | .toSched _ => false
  | _ => true

namespace Does

variable {P' : Pos n} {c' : Fin m} {t' : Thr n m} {ch : Choice n} (h : Does s s' c ch t me P e)

include h

theorem procs : s'.proc = e.procs s := apply_procs h.apply

theorem pos_self : s'.pos t = e.goesTo := apply_pos h.apply

theorem pos_ne (ht : t' ≠ t) (hctx : ∀ q P, e = .context q P → t' ≠ .proc q) : s'.pos t' = s.pos t' :=
  apply_pos_ne h.apply ht hctx

theorem cur_eq (hs : e.stays = true) : s'.cur = s.cur := by
  have ha := h.apply
  cases e with
  | acquire l P =>
    obtain ⟨-, rfl⟩ := apply_acquire ha
    cases l <;> rfl
  | toProc | toSched => cases hs
  | blocked | panic => cases ha
  | _ =>
    obtain rfl := (Except.ok.inj ha).symm
    rfl

theorem cur_ne (hc : c' ≠ c) : s'.cur c' = s.cur c' := by
  by_cases hs : e.stays = true
  · rw [h.cur_eq hs]
  · have ha := h.apply
    cases e with
    | toProc | toSched =>
      obtain rfl := (Except.ok.inj ha).symm
      exact update_of_ne hc _ _
    | _ => exact absurd rfl hs

theorem here_eq : s.here c = P := (Inv.here_eq h.cur).trans h.pos

theorem here_self (hs : e.stays = true) : s'.here c = e.goesTo := by
  unfold State.here
  rw [h.cur_eq hs, h.cur]
  exact h.pos_self

theorem here_ne (hI : Inv s) (hc : c' ≠ c) : s'.here c' = s.here c' := by
  unfold State.here
  rw [h.cur_ne hc]
  have hne := hI.thread_ne hc
  rw [h.cur] at hne
  exact h.pos_ne hne fun q P he => h.context q P he c'

theorem keeps_locked (hI : Inv s) (hc : c' ≠ c) (hlock : s.lock (.proc q) = some c') : (s'.proc q).SameLocked (s.proc q) := by
  rw [h.procs]
  rcases h.acts.locked h.own q with hmem | hsame
  · have hlock' : s.lock (.proc q) = some c := by
      rw [hI.locks, h.here_eq, h.cur]
      exact hmem
    exact absurd (Option.some.inj (hlock.symm.trans hlock')) hc
  · exact hsame

theorem running (hI : Inv s) (hme : me = some p) (hno : P.cproc = none) (hl : P.leaves = false) : (s.proc p).state = .RUNNING := by
  refine hI.running (State.inUse_proc (by rw [h.cur]; exact h.own p hme hno)) ?_
  rw [h.here_eq]
  exact hl

theorem used (hI : Inv s) (hq : P.forks = some q) : (s.proc q).state = .USED :=
  (hI.forks t q (by rw [h.pos]; exact hq)).1

end Does

theorem Does.here_switch (hI : Inv s) (h : Does s s' c ch t me P e) (hs : e.stays = false) :
    (∃ q, s'.here c = .schedBack q) ∨ (s'.here c).resumes = true := by
  have hI' : Inv s' := by
    have ha := h.acts
    cases hI.cpu c with
    | sched b hcur hproc =>
      rw [h.cur] at hcur
      obtain ⟨rfl, rfl⟩ := Prod.mk.inj hcur
      rw [← h.cproc, hproc, h.pos] at ha
      exact hI.cpuActs h.cur h.pos ha h.apply
    | proc p b hcur hproc =>
      rw [h.cur] at hcur
      obtain ⟨rfl, rfl⟩ := Prod.mk.inj hcur
      rw [← h.cproc, hproc] at ha
      exact hI.procActs h.cur h.pos ha h.apply
  have hcur' : (s'.cur c).2 = true := by
    have ha := h.apply
    cases e with
    | toProc | toSched =>
      obtain rfl := (Except.ok.inj ha).symm
      simp [State.go, State.save]
    | _ => cases hs
  unfold State.here
  cases hI'.cpu c with
  | sched b hcur hproc hload =>
    rw [hcur] at hcur' ⊢
    exact .inl (hload hcur')
  | proc p b hcur hproc hback hload =>
    rw [hcur] at hcur' ⊢
    exact .inr (hload hcur').1

structure Proc.Clean (x : Proc n) : Prop where
  killed : x.killed = false
  chan : x.chan = none
  xstate : x.xstate = 0
  sz : x.sz = 0
  parent : x.parent = none
  pagetable : x.pagetable = 0
  trapframe : x.trapframe = 0
  pid : x.pid = 0

theorem Proc.freed_clean (x : Proc n) : x.freed.Clean := ⟨rfl, rfl, rfl, rfl, rfl, rfl, rfl, rfl⟩

/-- The argument of the call of `kill` that the thread is in. -/
def Pos.killArg : Pos n → Option Int
  | kill pid _ | killTest pid _ | killUnlock pid _ _ => some pid
  | _ => none

def Pos.Knows (s : State n m) : Pos n → Prop
  | allocMem q | allocContext q | forkCopy q => (s.proc q).killed = false
  | killUnlock pid q true => (s.proc q).state ≠ .UNUSED ∧ (s.proc q).pid = pid ∧ (s.proc q).killed = true
  | _ => True

structure SlotInv (s : State n m) : Prop where
  clean : ∀ q, (s.proc q).state = .UNUSED → (s.proc q).Clean
  kill : ∀ t, (s.pos t).killArg ≠ some 0
  knows : ∀ c, (s.here c).Knows s

def NoKillZero (_ : State n m) (e : Fin m × Choice n) : Prop := e.2 ≠ .kill 0

theorem clean_update (hs : ∀ r, (s.proc r).state = .UNUSED → (s.proc r).Clean)
    (hx : x.state = .UNUSED → x.Clean) (r : Fin n) (h : (update s.proc q x r).state = .UNUSED) :
    (update s.proc q x r).Clean := by
  by_cases hr : r = q
  · subst hr
    rw [update_self] at h ⊢
    exact hx h
  · rw [update_of_ne hr] at h ⊢
    exact hs r h

theorem SlotInv.does_clean (hS : SlotInv s) (hI : Inv s) (hd : Does s s' c ch t me P e) (r : Fin n)
    (h : (s'.proc r).state = .UNUSED) : (s'.proc r).Clean := by
  rw [hd.procs] at h ⊢
  have ha := hd.acts
  cases ha with
  | callSleep | callExit | exec | sleepWake | waitSleep =>
    refine clean_update hS.clean (fun hx => ?_) r h
    rw [hd.running hI rfl rfl rfl] at hx
    cases hx
  | memNone | memFail | mem | copy | forkParent =>
    refine clean_update hS.clean (fun hx => ?_) r h
    rw [hd.used hI rfl] at hx
    cases hx
  | killSet hpid =>
    refine clean_update hS.clean (fun hx => ?_) r h
    have hzero := (hS.clean _ hx).pid
    have harg := hS.kill t
    rw [hd.pos] at harg
    exact absurd (by rw [← hpid, hzero]; rfl) harg
  | reparent hi hpar =>
    refine clean_update hS.clean (fun hx => ?_) r h
    have := (hS.clean _ hx).parent
    rw [hpar] at this
    cases this
  | forkFree | waitFree => exact clean_update hS.clean (fun _ => Proc.freed_clean _) r h
  | wakeupSet | killWake | alloc | forkRun | sleepSet | yieldSet | exitSet | choose =>
    exact clean_update hS.clean (fun hx => by cases hx) r h
  | _ => exact hS.clean r h

theorem SlotInv.does_knows (hS : SlotInv s) (hd : Does s s' c ch t me P e) : e.goesTo.Knows s' := by
  have hk := hS.knows c
  rw [hd.here_eq] at hk
  have hp := hd.procs
  have ha := hd.acts
  cases ha with
  | killWake hpid hst =>
    change (s'.proc _).state ≠ _ ∧ _ ∧ _
    rw [hp]
    simp [Effect.procs, hpid]
  | killSet hpid hst =>
    rename_i pid q
    change (s'.proc q).state ≠ .UNUSED ∧ (s'.proc q).pid = pid ∧ (s'.proc q).killed = true
    rw [hp]
    simp only [Effect.procs, update_self]
    refine ⟨fun hun => ?_, hpid, trivial⟩
    have hzero := (hS.clean q hun).pid
    have harg := hS.kill t
    rw [hd.pos] at harg
    exact harg (by rw [← hpid, hzero]; rfl)
  | alloc hst =>
    change (s'.proc _).killed = false
    rw [hp]
    simpa [Effect.procs] using (hS.clean _ hst).killed
  | mem =>
    change (s'.proc _).killed = false
    rw [hp]
    simp only [Effect.procs, update_self]
    exact hk
  | context =>
    change (s'.proc _).killed = false
    rw [hp]
    exact hk
  | wakeupRet =>
    rename_i ret _ _
    cases ret <;> trivial
  | killUnlock =>
    rename_i found
    cases found <;> trivial
  | _ => trivial

theorem does_killArg (harg : P.killArg ≠ some 0) (hzero : ch ≠ .kill 0) (hd : Does s s' c ch t me P e) :
    e.goesTo.killArg ≠ some 0 := by
  have ha := hd.acts
  cases ha with
  | callKill pid =>
    have hcode := hd.code
    intro h
    obtain rfl : pid = 0 := Option.some.inj h
    cases ch with
    | kill pid => exact hzero (by simpa [Sched.code] using hcode.symm)
    | exit status =>
      simp only [Sched.code, if_true] at hcode
      split at hcode <;> cases hcode
    | _ => simp [Sched.code] at hcode
  | killLock | killSkip | killWake | killSet => exact harg
  | killUnlock =>
    rename_i found
    cases found with
    | false => exact harg
    | true => exact fun h => by cases h
  | wakeupRet =>
    rename_i ret _ _
    cases ret <;> exact fun h => by cases h
  | _ => exact fun h => by cases h

theorem Pos.Knows.congr (h : P.Knows s) (hsame : ∀ q, .proc q ∈ P.locks t → (s'.proc q).SameLocked (s.proc q)) :
    P.Knows s' := by
  cases P with
  | allocMem q | allocContext q | forkCopy q =>
    exact (hsame q (List.mem_cons_self ..)).killed.trans h
  | killUnlock pid q found =>
    cases found with
    | false => trivial
    | true =>
      have hq := hsame q (List.mem_cons_self ..)
      obtain ⟨hst, hpid, hk⟩ := h
      exact ⟨by rwa [hq.state], hq.pid.trans hpid, hq.killed.trans hk⟩
  | _ => trivial

theorem SlotInv.next {e : Fin m × Choice n} (hS : SlotInv s) (hI : Inv s) (hzero : NoKillZero s e)
    (hn : Sched.next s e = .ok s') : SlotInv s' := by
  obtain ⟨c, ch⟩ := e
  rcases hI.next_cases hn with ⟨t, hcur, rfl⟩ | ⟨t, me, P, e, hd⟩
  · refine ⟨hS.clean, hS.kill, fun c' => ?_⟩
    have hk := hS.knows c'
    unfold State.here at hk ⊢
    by_cases hc : c' = c
    · subst hc
      simp only [State.load, update_self]
      rwa [hcur] at hk
    · simp only [State.load, update_of_ne hc]
      exact hk
  · refine ⟨fun r hr => hS.does_clean hI hd r hr, fun t' => ?_, fun c' => ?_⟩
    · by_cases ht : t' = t
      · subst ht
        rw [hd.pos_self]
        have harg := hS.kill t'
        rw [hd.pos] at harg
        exact does_killArg harg hzero hd
      · by_cases hctx : ∃ q P', e = .context q P' ∧ t' = .proc q
        · obtain ⟨q, P', rfl, rfl⟩ := hctx
          have hpos : s'.pos (.proc q) = .forkret := by
            obtain rfl := (Except.ok.inj hd.apply).symm
            exact (update_of_ne ht _ _).trans (update_self ..)
          rw [hpos]
          exact fun h => by cases h
        · rw [hd.pos_ne ht fun q P he heq => hctx ⟨q, P, he, heq⟩]
          exact hS.kill t'
    · by_cases hc : c' = c
      · subst hc
        by_cases hs : e.stays = true
        · rw [hd.here_self hs]
          exact hS.does_knows hd
        · rcases hd.here_switch hI (Bool.eq_false_of_not_eq_true hs) with ⟨q, hq⟩ | hres
          · rw [hq]
            trivial
          · revert hres
            cases s'.here c' <;> simp [Pos.resumes, Pos.Knows]
      · rw [hd.here_ne hI hc]
        refine (hS.knows c').congr (t := (s.cur c').1) fun q hq => ?_
        exact hd.keeps_locked hI hc ((hI.locks c' _).2 hq)

theorem slotInv_boot (initproc : Fin n) (pagetable trapframe : Nat) :
    SlotInv (boot initproc pagetable trapframe : State n m) := by
  refine ⟨fun q hq => ?_, fun t => ?_, fun c => trivial⟩
  · by_cases h : q = initproc
    · subst h
      simp [boot] at hq
    · simp only [boot, update_of_ne h]
      exact ⟨rfl, rfl, rfl, rfl, rfl, rfl, rfl, rfl⟩
  · cases t <;> exact fun h => by cases h

/-- In every run without a call of `kill(0)`, a free slot is clean, a process that `allocproc` has returned is not killed, and a call
of `kill` that has found a process has marked one that is not free and has the pid that was asked for. -/
theorem free_slots_clean {initproc : Fin n} {pagetable trapframe : Nat} {es : List (Fin m × Choice n)}
    (hkill : Along next NoKillZero (boot initproc pagetable trapframe) es)
    (h : run next (boot initproc pagetable trapframe) es = .ok s) :
    (∀ q, (s.proc q).state = .UNUSED → (s.proc q).Clean) ∧
    (∀ c q, s.here c = .forkCopy q → (s.proc q).killed = false) ∧
    (∀ c q pid, s.here c = .killUnlock pid q true →
      (s.proc q).state ≠ .UNUSED ∧ (s.proc q).pid = pid ∧ (s.proc q).killed = true) := by
  have hinv : Inv s ∧ SlotInv s :=
    run_induct (I := fun s => Inv s ∧ SlotInv s) (fun _ _ _ hC hn hI => ⟨hI.1.next hn, hI.2.next hI.1 hC hn⟩) hkill h
      ⟨inv_boot .., slotInv_boot ..⟩
  refine ⟨hinv.2.clean, fun c q hq => ?_, fun c q pid hq => ?_⟩
  · have hk := hinv.2.knows c
    rwa [hq] at hk
  · have hk := hinv.2.knows c
    rwa [hq] at hk

instance (s : State n m) (e : Fin m × Choice n) : Decidable (NoKillZero s e) :=
  match e with
  | (_, .kill pid) => decidable_of_iff (pid ≠ 0) (by simp [NoKillZero])
  | (_, .go) | (_, .acquire _) | (_, .release _) | (_, .wakeup _) | (_, .sleep ..) | (_, .yield) | (_, .fork) | (_, .exit _)
  | (_, .wait _) | (_, .exec ..) | (_, .intr) | (_, .iret _) | (_, .mem ..) | (_, .copy _) => isTrue nofun

def toUser : List (Fin 1 × Choice 2) := List.replicate 6 (0, .go)

def killSelf : List (Fin 1 × Choice 2) := toUser ++ [(0, .kill 1), (0, .go), (0, .go)]

theorem free_slots_clean_killSelf :
    ∃ s : State 2 1, run next (boot 0 1 1) killSelf = .ok s ∧ (s.proc 0).killed = true ∧
      (∀ q, (s.proc q).state = .UNUSED → (s.proc q).Clean) ∧
      (∀ c q, s.here c = .forkCopy q → (s.proc q).killed = false) ∧
      (∀ c q pid, s.here c = .killUnlock pid q true →
        (s.proc q).state ≠ .UNUSED ∧ (s.proc q).pid = pid ∧ (s.proc q).killed = true) := by
  have hkill : Along next NoKillZero (boot 0 1 1 : State 2 1) killSelf := by decide +kernel
  have hends : Ends (fun s : State 2 1 => (s.proc 0).killed = true) (run next (boot 0 1 1) killSelf) := by
    decide +kernel
  obtain ⟨s, hrun, hcur⟩ := hends.exists
  exact ⟨s, hrun, hcur, free_slots_clean hkill hrun⟩

def killZero : List (Fin 1 × Choice 2) := toUser ++ (0, .kill 0) :: List.replicate 6 (0, .go)

/-- `kill(0)` finds the free second slot: it marks it and returns 0, and the next process in this slot starts killed. -/
theorem killZero_marks_free_slot :
    Ends (fun s : State 2 1 => (s.proc 1).state = .UNUSED ∧ (s.proc 1).killed = true) (run next (boot 0 1 1) killZero) := by
  decide +kernel

end Xv6.Sched
