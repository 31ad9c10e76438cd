import Xv6.Sched.Tree

/-!
# Reaping

The calls of `wait` that free a child, in the order in which they are made: each child is freed at most once, and by its parent.
-/

namespace Xv6.Sched

open Run

variable {n m : Nat} {s s' : State n m} {c : Fin m} {t : Thr n m} {p q r : Fin n} {me : Option (Fin n)} {P : Pos n}
  {e : Effect n m} {ch : Choice n}

/-- What a call of `wait` that frees a child does: the child has exited, the caller is its parent, who has made it or is the first
process, and it returns the pid of the child and stores the argument of its `exit`. -/
structure Reap.Right (x : Reap n) (initproc : Fin n) : Prop where
  zombie : x.child.state = .ZOMBIE
  waiter : ∃ w, x.waiter = some w ∧ x.child.parent = some w ∧ (w = initproc ∨ x.child.forker = some w)
  pid : x.pid = x.child.pid
  status : x.child.status = some x.child.xstate
  stored : x.stored.2 = if x.stored.1 ≠ 0 then x.child.status else none

/-- Processes are told apart by the time at which they were made. -/
structure ReapInv (s : State n m) : Prop where
  right : ∀ x ∈ s.reaps, x.Right s.initproc
  clock : ∀ q, (s.proc q).born < s.now
  old : ∀ x ∈ s.reaps, x.child.born < s.now
  uniq : ∀ q r, (s.proc q).state ≠ .UNUSED → (s.proc r).state ≠ .UNUSED → (s.proc q).born = (s.proc r).born → q = r
  gone : ∀ q, (s.proc q).state ≠ .UNUSED → ∀ x ∈ s.reaps, x.child.born ≠ (s.proc q).born
  nodup : (s.reaps.map (·.child.born)).Nodup

theorem Does.born (hI : Inv s) (hd : Does s s' c ch t me P e) (q : Fin n) (hq : (s'.proc q).state ≠ .UNUSED) :
    (s.proc q).state ≠ .UNUSED ∧ (s'.proc q).born = (s.proc q).born ∨ P = .allocTest q ∧ (s'.proc q).born = s.now := by
  by_cases hu : (s.proc q).state = .UNUSED
  · right
    have hprocs := hd.procs
    rw [hprocs] at hq ⊢
    have hother : ∀ {x : Proc n} {r : Fin n}, (s.proc r).state ≠ .UNUSED → Function.update s.proc r x q = s.proc q := by
      intro x r hr
      refine Function.update_of_ne (fun h => hr ?_) _ _
      rw [← h]
      exact hu
    have hrun := fun {p : Fin n} (h : me = some p) hno hl => hd.running hI h hno hl
    have hused := fun {q : Fin n} (h : P.forks = some q) => hd.used hI h
    have ha := hd.acts
    cases ha with
    | alloc =>
      simp only [Effect.procs, Function.update_apply] at hq ⊢
      split at hq
      · rename_i heq
        subst heq
        exact ⟨rfl, by rw [if_pos rfl]⟩
      · exact absurd hu hq
    | callSleep | callExit | exec | sleepSet | sleepWake | yieldSet | exitSet | waitSleep =>
      simp only [Effect.procs] at hq
      rw [hother (by rw [hrun rfl rfl rfl]; simp)] at hq
      exact absurd hu hq
    | wakeupSet hst =>
      simp only [Effect.procs] at hq
      rw [hother (by rw [hst]; simp)] at hq
      exact absurd hu hq
    | killWake _ hst =>
      simp only [Effect.procs] at hq
      rw [hother (by rw [hst]; simp)] at hq
      exact absurd hu hq
    | choose hst =>
      simp only [Effect.procs] at hq
      rw [hother (by rw [hst]; simp)] at hq
      exact absurd hu hq
    | memNone | memFail | mem | copy | forkParent | forkRun =>
      simp only [Effect.procs] at hq
      rw [hother (by rw [hused rfl]; simp)] at hq
      exact absurd hu hq
    | killSet | reparent | forkFree | waitFree =>
      simp only [Effect.procs, Function.update_apply] at hq
      split at hq
      · rename_i heq
        subst heq
        exact absurd (by first | exact hu | rfl) hq
      · exact absurd hu hq
    | _ => exact absurd hu hq
  · left
    refine ⟨hu, ?_⟩
    rw [hd.procs]
    exact (hd.acts.histories q hu).2.2

theorem Does.born_lt (hR : ReapInv s) (hd : Does s s' c ch t me P e) (q : Fin n) : (s'.proc q).born < s'.now := by
  rw [apply_now hd.apply]
  have hclock := hR.clock q
  have hprocs := hd.procs
  rw [hprocs]
  have ha := hd.acts
  cases ha with
  | alloc =>
    simp only [Effect.procs, Function.update_apply]
    split
    · exact Nat.lt_succ_self _
    · exact Nat.lt_succ_of_lt hclock
  | callSleep | callExit | exec | sleepSet | sleepWake | yieldSet | exitSet | waitSleep | wakeupSet | killWake | killSet | memNone
  | memFail | mem | copy | forkParent | reparent | forkRun | choose | forkFree | waitFree =>
    refine update_cases (Q := fun x => x.born < s.now + 1) q (fun _ => Nat.lt_succ_of_lt hclock) ?_
    rintro rfl
    exact Nat.lt_succ_of_lt hclock
  | _ => exact Nat.lt_succ_of_lt hclock

theorem ReapInv.does_right (hT : TreeInv s) (hI : Inv s) {pid : Int} {stored : Nat × Option Int} {P' : Pos n}
    (hd : Does s s' c ch t me P (.reap q pid stored P')) :
    Reap.Right ⟨s.cproc c, s.proc q, pid, stored⟩ s.initproc ∧ (s.proc q).state = .ZOMBIE ∧ s'.proc q = (s.proc q).freed := by
  have hcproc := hd.cproc
  have hprocs := hd.procs
  have ha := hd.acts
  obtain ⟨rfl, rfl⟩ : P = .waitFree q pid stored ∧ P' = .waitFreed q pid := by
    cases ha
    exact ⟨rfl, rfl⟩
  have hz := hI.frees c q pid stored hd.here_eq
  -- only a process calls `wait`
  obtain ⟨p, rfl⟩ : ∃ p, t = .proc p := by
    cases t with
    | proc p => exact ⟨p, rfl⟩
    | cpu c' =>
      have := hI.ofCpu c'
      rw [hd.pos] at this
      cases this
  have hme : me = some p := by
    cases hI.cpu c with
    | sched b hcur =>
      rw [hd.cur] at hcur
      cases hcur
    | proc r b hcur hproc =>
      rw [hd.cur] at hcur
      cases hcur
      exact hcproc.symm.trans hproc
  have hfam := hT.family c p hd.cur
  rw [hd.pos] at hfam
  have hpar := hfam.child q rfl
  obtain ⟨hpid, hstored⟩ := hfam.found q pid stored rfl
  have hstatus := hT.zombie q hz
  refine ⟨⟨hz, ⟨p, hcproc.trans hme, hpar, hT.forker q p hpar⟩, hpid, hstatus, ?_⟩, hz, ?_⟩
  · rw [hstored, hstatus]
  · rw [hprocs]
    exact Function.update_self ..

theorem ReapInv.next {e : Fin m × Choice n} (hR : ReapInv s) (hT : TreeInv s) (hI : Inv s) (hn : Sched.next s e = .ok s') :
    ReapInv s' := by
  obtain ⟨c, ch⟩ := e
  rcases hI.next_cases hn with ⟨t, hcur, rfl⟩ | ⟨t, me, P, e, hd⟩
  · exact ⟨hR.right, fun q => Nat.lt_succ_of_lt (hR.clock q), fun x hx => Nat.lt_succ_of_lt (hR.old x hx), hR.uniq, hR.gone, hR.nodup⟩
  · have hinit := apply_initproc hd.apply
    have hnow := apply_now hd.apply
    have hold : ∀ x ∈ s'.reaps, x.child.born < s'.now := by
      intro x hx
      rw [hnow]
      rcases apply_reaps hd.apply with heq | ⟨q, pid, stored, P', rfl, heq⟩
      · exact Nat.lt_succ_of_lt (hR.old x (heq ▸ hx))
      · rw [heq] at hx
        rcases List.mem_cons.mp hx with rfl | hx
        · exact Nat.lt_succ_of_lt (hR.clock q)
        · exact Nat.lt_succ_of_lt (hR.old x hx)
    have huniq : ∀ q r, (s'.proc q).state ≠ .UNUSED → (s'.proc r).state ≠ .UNUSED → (s'.proc q).born = (s'.proc r).born → q = r := by
      intro q r hq hr heq
      rcases hd.born hI q hq with ⟨hq', hqb⟩ | ⟨hqP, hqb⟩
      · rcases hd.born hI r hr with ⟨hr', hrb⟩ | ⟨hrP, hrb⟩
        · exact hR.uniq q r hq' hr' (by rw [← hqb, ← hrb, heq])
        · have := hR.clock q
          omega
      · rcases hd.born hI r hr with ⟨hr', hrb⟩ | ⟨hrP, hrb⟩
        · have := hR.clock r
          omega
        · rw [hqP] at hrP
          cases hrP
          rfl
    rcases apply_reaps hd.apply with heq | ⟨q, pid, stored, P', rfl, heq⟩
    · refine ⟨?_, fun q => hd.born_lt hR q, hold, huniq, fun q hq x hx => ?_, ?_⟩
      · rw [heq, hinit]
        exact hR.right
      · rw [heq] at hx
        rcases hd.born hI q hq with ⟨hq', hqb⟩ | ⟨-, hqb⟩
        · rw [hqb]
          exact hR.gone q hq' x hx
        · have := hR.old x hx
          omega
      · rw [heq]
        exact hR.nodup
    · obtain ⟨hright, hz, hfreed⟩ := ReapInv.does_right hT hI hd
      refine ⟨fun x hx => ?_, fun q => hd.born_lt hR q, hold, huniq, fun r hr x hx => ?_, ?_⟩
      · rw [heq] at hx
        rw [hinit]
        rcases List.mem_cons.mp hx with rfl | hx
        · exact hright
        · exact hR.right x hx
      · rw [heq] at hx
        rcases hd.born hI r hr with ⟨hr', hrb⟩ | ⟨-, hrb⟩
        · rw [hrb]
          rcases List.mem_cons.mp hx with rfl | hx
          · intro hborn
            obtain rfl := hR.uniq q r (by rw [hz]; simp) hr' hborn
            rw [hfreed] at hr
            exact hr rfl
          · exact hR.gone r hr' x hx
        · rcases List.mem_cons.mp hx with rfl | hx
          · have := hR.clock q
            change (s.proc q).born ≠ _
            omega
          · have := hR.old x hx
            omega
      · rw [heq, List.map_cons, List.nodup_cons]
        refine ⟨fun hmem => ?_, hR.nodup⟩
        obtain ⟨x, hx, hborn⟩ := List.mem_map.mp hmem
        exact hR.gone q (by rw [hz]; simp) x hx hborn

section

variable (initproc : Fin n) (pagetable trapframe : Nat)

theorem boot_proc (q : Fin n) : ((boot initproc pagetable trapframe : State n m).proc q).parent = none ∧
    ((boot initproc pagetable trapframe : State n m).proc q).born = 0 ∧
    (((boot initproc pagetable trapframe : State n m).proc q).state = .RUNNABLE ∧ q = initproc ∨
      ((boot initproc pagetable trapframe : State n m).proc q).state = .UNUSED) := by
  by_cases h : q = initproc
  · subst h
    simp [boot]
  · simp [boot, h]

theorem laterInv_boot : LaterInv (boot initproc pagetable trapframe : State n m) := by
  refine ⟨fun p stage x hx => ?_, fun c w p stage x _ hlock => ?_, fun w chan i start h => ?_⟩
  · cases hx
  · cases hlock
  · cases w <;> cases h

theorem treeInv_boot : TreeInv (boot initproc pagetable trapframe : State n m) := by
  have hparent := fun q => (boot_proc (m := m) initproc pagetable trapframe q).1
  refine ⟨fun q _ => hparent q, fun q r h => ?_, fun q r h => ?_, ⟨?_, rfl⟩, fun q hz => ?_, fun c p hcur => ?_, fun p q stage x hx => ?_⟩
  · rw [hparent q] at h
    cases h
  · rw [hparent q] at h
    cases h
  · simp [boot, Proc.live]
  · rcases (boot_proc (m := m) initproc pagetable trapframe q).2.2 with ⟨h, -⟩ | h <;> (rw [h] at hz; cases hz)
  · cases hcur
  · cases hx

theorem reapInv_boot : ReapInv (boot initproc pagetable trapframe : State n m) := by
  have hproc := fun q => (boot_proc (m := m) initproc pagetable trapframe q).2
  refine ⟨fun x hx => ?_, fun q => ?_, fun x hx => ?_, fun q r hq hr _ => ?_, fun q _ x hx => ?_, List.nodup_nil⟩
  · cases hx
  · rw [(hproc q).1]
    exact Nat.one_pos
  · cases hx
  · rcases (hproc q).2 with ⟨-, rfl⟩ | h
    · rcases (hproc r).2 with ⟨-, rfl⟩ | h
      · rfl
      · exact absurd h hr
    · exact absurd h hq
  · cases hx

end

/-- In every run: the parent of a process has not exited, nor is its slot free. The children that calls of `wait` have freed are
different processes, freed by their parents with the right results; `wait` returns the pid of the child it has freed, and fails for
lack of children only if the caller has none. While `wait_lock` is free no process with an exited child sleeps in `wait`. -/
theorem children_reaped_once {initproc : Fin n} {pagetable trapframe : Nat} {es : List (Fin m × Choice n)}
    (h : run next (boot initproc pagetable trapframe) es = .ok s) :
    (∀ q r, (s.proc q).state ≠ .UNUSED → (s.proc q).parent = some r →
      (s.proc r).state ≠ .UNUSED ∧ (s.proc r).state ≠ .ZOMBIE) ∧
    (s.reaps.map (·.child.born)).Nodup ∧ (∀ x ∈ s.reaps, x.Right s.initproc) ∧
    (∀ c p v, s.cur c = (.proc p, false) → s.pos (.proc p) = .waitReturn v → v ≠ -1 →
      ∃ x, s.reaps.head? = some x ∧ x.waiter = some p ∧ x.pid = v) ∧
    (∀ c p, s.cur c = (.proc p, false) → s.pos (.proc p) = .waitNone → ∀ q, (s.proc q).parent ≠ some p) ∧
    ∀ p q stage x, s.pos (.proc p) = .sleep stage x → x.inWait.isSome = true → (s.proc p).state = .SLEEPING →
      (s.proc q).parent = some p → (s.proc q).state = .ZOMBIE → s.lock (.lk .wait) ≠ none ∧ p = s.initproc ∧
      ∃ c w i start, s.cur c = (w, false) ∧ s.lock (.lk .wait) = some c ∧ (s.pos w).exits = true ∧
        (s.pos w).scan = some (.proc p, i, start) ∧ i ≤ p.val := by
  have hall : (Inv s ∧ SleepInv s ∧ WakeInv s) ∧ LaterInv s ∧ TreeInv s ∧ ReapInv s :=
    run_induct (I := fun s => (Inv s ∧ SleepInv s ∧ WakeInv s) ∧ LaterInv s ∧ TreeInv s ∧ ReapInv s)
      (fun _ _ _ _ hn ⟨⟨hI, hS, hW⟩, hL, hT, hR⟩ => ⟨⟨hI.next hn, hS.next hI hn, hW.next hS hI hn⟩, hL.next hW hI hn,
        hT.next hL hW hS hI hn, hR.next hT hI hn⟩) along_true h
      ⟨⟨inv_boot .., sleepInv_boot .., wakeInv_boot ..⟩, laterInv_boot .., treeInv_boot .., reapInv_boot ..⟩
  obtain ⟨⟨hI, hS, hW⟩, hL, hT, hR⟩ := hall
  refine ⟨fun q r _ hpar => ?_, hR.nodup, hR.right, fun c p v hcur hpos hv => ?_, fun c p hcur hpos q => ?_,
    fun p q stage x hx hin hst hpar hz => ?_⟩
  · have := hT.parent q r hpar
    constructor <;> (intro hst; simp [Proc.live, hst] at this)
  · have hfam := hT.family c p hcur
    rw [hpos] at hfam
    exact hfam.returns v (if_neg hv)
  · have hfam := hT.family c p hcur
    rw [hpos] at hfam
    exact hfam.childless n rfl q q.isLt
  · have hwoken : (s.proc p).woken = false := by
      have hok := hS.sleeps p
      rw [hx] at hok
      simp only [Proc.SleepOk] at hok
      split at hok
      · exact hok.1
      · rcases hok with ⟨-, -, hw, -⟩ | ⟨-, hne⟩
        · exact hw
        · exact absurd hst hne
    obtain ⟨hinit, c, w, i, start, j, hcur, -, hscan, hi, horph⟩ := hT.asleep p q stage x hx hin hwoken hpar hz
    have hlock : s.lock (.lk .wait) = some c := by
      rw [hI.locks, hcur]
      unfold State.here
      rw [hcur]
      exact holds_wait (.inl (by rw [horph]; rfl))
    refine ⟨(by rw [hlock]; simp), hinit, c, w, i, start, hcur, hlock, ?_, hscan, hi⟩
    exact Pos.exits_of_orphans (by rw [horph]; rfl)

def waitChild : List (Fin 1 × Choice 2) :=
  forkChild ++ (0, .wait 8) :: List.replicate 23 (0, .go) ++ (0, .exit 3) :: List.replicate 28 (0, .go) ++
    [(0, .copy true), (0, .go), (0, .go)]

theorem children_reaped_once_waitChild :
    ∃ s : State 2 1, run next (boot 0 1 1) waitChild = .ok s ∧ s.reaps.map (fun x => (x.pid, x.stored)) = [(2, 8, some 3)] ∧
      (∀ q r, (s.proc q).state ≠ .UNUSED → (s.proc q).parent = some r →
        (s.proc r).state ≠ .UNUSED ∧ (s.proc r).state ≠ .ZOMBIE) ∧
      (s.reaps.map (·.child.born)).Nodup ∧ (∀ x ∈ s.reaps, x.Right s.initproc) ∧
      (∀ c p v, s.cur c = (.proc p, false) → s.pos (.proc p) = .waitReturn v → v ≠ -1 →
        ∃ x, s.reaps.head? = some x ∧ x.waiter = some p ∧ x.pid = v) := by
  have hends : Ends (fun s : State 2 1 => s.reaps.map (fun x => (x.pid, x.stored)) = [(2, 8, some 3)])
      (run next (boot 0 1 1) waitChild) := by
    decide +kernel
  obtain ⟨s, hrun, hreaps⟩ := hends.exists
  obtain ⟨hparent, hnodup, hright, hreturn, -⟩ := children_reaped_once hrun
  exact ⟨s, hrun, hreaps, hparent, hnodup, hright, hreturn⟩

end Xv6.Sched
