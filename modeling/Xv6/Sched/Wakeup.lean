import Xv6.Sched.Slots

/-!
# Sleep and wakeup

A process that has called `sleep` is found by every `wakeup` of a thread that has acquired the lock since: it takes `p->lock` before
it releases the lock of its caller, and `wakeup` takes the lock of each process in turn.
-/

namespace Xv6.Sched

open Function (update update_of_ne update_self)
open Run

variable {n m : Nat} {s s' : State n m} {c : Fin m} {t w t' : Thr n m} {p q r initproc : Fin n} {me : Option (Fin n)}
  {P P' : Pos n} {e : Effect n m} {ch : Choice n} {y : Proc n} {stage : SleepStage} {x : Sleep n} {chan : Chan n}
  {i start pagetable trapframe : Nat}

/-- The process has not yet changed its state to `SLEEPING`. -/
def SleepStage.early : SleepStage → Bool
  | lock | release | set => true
  | _ => false

/-- What the fields of a process say about the call of `sleep` that it is in. -/
def Proc.SleepOk (x : Proc n) : Pos n → Prop
  | .sleep stage y =>
    if stage.early then x.woken = false ∧ x.state ≠ .SLEEPING
    else x.state = .SLEEPING ∧ x.chan = some y.chan ∧ x.woken = false ∧ (stage = .sched ∨ stage = .wake) ∨
      x.woken = true ∧ x.state ≠ .SLEEPING
  | _ => x.state ≠ .SLEEPING

def Pos.dead : Pos n → Bool
  | forkret | zombie | exitUnlock | exitSched => true
  | _ => false

/-- A point that is not in `sleep`, nor in a scheduler that a process has switched to. -/
def Pos.plain : Pos n → Bool
  | sleep .. | schedBack _ => false
  | _ => true

structure SleepInv (s : State n m) : Prop where
  sleeps : ∀ p, (s.proc p).SleepOk (s.pos (.proc p))
  dead : ∀ p, (s.proc p).live = true ∨ (s.pos (.proc p)).dead = true

theorem Proc.SleepOk.wake {x : Proc n} (h : x.SleepOk P) (hx : x.state = .SLEEPING) (hy : y.state = .RUNNABLE)
    (hw : y.woken = true) : y.SleepOk P := by
  cases P with
  | sleep stage z =>
    simp only [Proc.SleepOk] at h ⊢
    split at h
    · exact absurd hx h.2
    · rename_i he
      rw [if_neg he]
      exact .inr ⟨hw, by rw [hy]; nofun⟩
  | _ => exact absurd hx h

theorem Proc.SleepOk.congr {x : Proc n} (h : x.SleepOk P) (hs : y.state = x.state ∨ x.state ≠ .SLEEPING ∧ y.state ≠ .SLEEPING)
    (hc : y.chan = x.chan) (hw : y.woken = x.woken) : y.SleepOk P := by
  have hne : x.state ≠ .SLEEPING → y.state ≠ .SLEEPING := by
    rcases hs with hs | hs
    · rw [hs]
      exact id
    · exact fun _ => hs.2
  cases P with
  | sleep stage z =>
    simp only [Proc.SleepOk] at h ⊢
    split at h
    · rename_i he
      rw [if_pos he, hw]
      exact ⟨h.1, hne h.2⟩
    · rename_i he
      rw [if_neg he, hc, hw]
      rcases h with ⟨hst, h⟩ | ⟨h, hst⟩
      · refine .inl ⟨?_, h⟩
        rcases hs with hs | hs
        · rw [hs, hst]
        · exact absurd hst hs.1
      · exact .inr ⟨h, hne hst⟩
  | _ => exact hne h

theorem Proc.SleepOk.of_ne {x : Proc n} (hP : P.plain = true) (hx : x.state ≠ .SLEEPING) : x.SleepOk P := by
  cases P with
  | sleep stage y => cases hP
  | _ => exact hx

theorem dead_plain (h : P.dead = true) : P.plain = true := by
  cases P <;> first | rfl | cases h

theorem left_awake {x : ProcState} (h : P.Left x) (hP : P.plain = true) : x ≠ .SLEEPING := by
  cases P with
  | sleep | schedBack => cases hP
  | yield stage => cases stage <;> (rw [h]; simp)
  | _ => rw [h]; simp

theorem update_cases {x : Proc n} {Q : Proc n → Prop} (r : Fin n) (hne : r ≠ q → Q (s.proc r)) (heq : r = q → Q x) :
    Q (update s.proc q x r) := by
  by_cases hr : r = q
  · subst hr
    rw [update_self]
    exact heq rfl
  · rw [update_of_ne hr]
    exact hne hr

theorem SleepInv.other_sleeps (hS : SleepInv s) (hI : Inv s) (hd : Does s s' c ch t me P e)
    (ht : t ≠ .proc r) : (s'.proc r).SleepOk (s.pos (.proc r)) := by
  have hr := hS.sleeps r
  have hdead : (s.proc r).live = false → (s.pos (.proc r)).plain = true := by
    intro hl
    rcases hS.dead r with hlive | hdead
    · rw [hl] at hlive
      cases hlive
    · exact dead_plain hdead
  rw [hd.procs]
  have ha := hd.acts
  cases ha with
  | callSleep | callExit | exec | sleepSet | sleepWake | yieldSet | exitSet | waitSleep =>
    refine update_cases (Q := fun x => x.SleepOk _) r (fun _ => hr) ?_
    rintro rfl
    exact absurd (hd.own _ rfl rfl) ht
  | wakeupSet hst | killWake _ hst =>
    refine update_cases (Q := fun x => x.SleepOk _) r (fun _ => hr) ?_
    rintro rfl
    exact hr.wake hst rfl rfl
  | killSet | memNone | memFail | mem | copy | forkParent | reparent =>
    refine update_cases (Q := fun x => x.SleepOk _) r (fun _ => hr) ?_
    rintro rfl
    exact hr.congr (.inl rfl) rfl rfl
  | alloc hst =>
    refine update_cases (Q := fun x => x.SleepOk _) r (fun _ => hr) ?_
    rintro rfl
    exact hr.congr (.inr ⟨by rw [hst]; nofun, nofun⟩) rfl rfl
  | forkRun =>
    refine update_cases (Q := fun x => x.SleepOk _) r (fun _ => hr) ?_
    rintro rfl
    exact hr.congr (.inr ⟨by rw [hd.used hI rfl]; nofun, nofun⟩) rfl rfl
  | choose hst =>
    refine update_cases (Q := fun x => x.SleepOk _) r (fun _ => hr) ?_
    rintro rfl
    exact hr.congr (.inr ⟨by rw [hst]; nofun, nofun⟩) rfl rfl
  | forkFree =>
    refine update_cases (Q := fun x => x.SleepOk _) r (fun _ => hr) ?_
    rintro rfl
    exact .of_ne (hdead (by simp [Proc.live, hd.used hI rfl])) nofun
  | waitFree =>
    refine update_cases (Q := fun x => x.SleepOk _) r (fun _ => hr) ?_
    rintro rfl
    exact .of_ne (hdead (by simp [Proc.live, hI.frees c _ _ _ hd.here_eq])) nofun
  | _ => exact hr

theorem SleepInv.own_sleeps (hS : SleepInv s) (hI : Inv s) (hI' : Inv s') (hd : Does s s' c ch (.proc p) me P e) :
    (s'.proc p).SleepOk e.goesTo := by
  have hp := hS.sleeps p
  rw [hd.pos] at hp
  have hst : e.stays = true → e.goesTo.Left (s'.proc p).state := by
    intro hs
    rw [← hd.here_self hs]
    exact hI'.state c p (State.inUse_proc (by rw [hd.cur_eq hs, hd.cur]))
  have hown : ∀ r, me = some r → P.cproc = none → r = p := fun r hr hno => (Thr.proc.inj (hd.own r hr hno)).symm
  have hprocs := hd.procs
  have hkind := hI.ofProc p
  rw [hd.pos] at hkind
  have ha := hd.acts
  cases ha with
  | callSleep | waitSleep =>
    obtain rfl := hown _ rfl rfl
    have hl : (s'.proc _).state = .RUNNING := hst rfl
    refine ⟨?_, by rw [hl]; nofun⟩
    rw [hprocs]
    simp [Effect.procs]
  | sleepLock | sleepRelease =>
    rw [hprocs]
    exact hp
  | sleepSet =>
    obtain rfl := hown _ rfl rfl
    rw [hprocs]
    simp only [Effect.procs, update_self]
    exact .inl ⟨rfl, rfl, hp.1, .inl rfl⟩
  | sleepSched =>
    rw [hprocs]
    rcases hp with ⟨h1, h2, h3, -⟩ | h
    · exact .inl ⟨h1, h2, h3, .inr rfl⟩
    · exact .inr h
  | sleepWake =>
    obtain rfl := hown _ rfl rfl
    have hrun := hd.running hI rfl rfl rfl
    rw [hprocs]
    simp only [Effect.procs, update_self]
    rcases hp with ⟨h, -⟩ | h
    · rw [hrun] at h
      cases h
    · exact .inr h
  | sleepUnlock | sleepRelock =>
    obtain rfl := hown _ rfl rfl
    have hrun := hd.running hI rfl rfl rfl
    rcases hp with ⟨h, -⟩ | h
    · rw [hrun] at h
      cases h
    · rw [hprocs]
      exact .inr h
  | yieldSched | exitSched =>
    rw [hprocs]
    exact hp
  | wakeupRet =>
    rename_i ret _ _
    cases ret <;> exact .of_ne rfl (left_awake (hst rfl) rfl)
  | killUnlock =>
    rename_i found
    cases found <;> exact .of_ne rfl (left_awake (hst rfl) rfl)
  | schedSwtch | schedBack | schedSet | schedUnlock | choose | schedSkip | schedLock | schedAgain | intr => cases hkind
  | _ => exact .of_ne rfl (left_awake (hst rfl) rfl)

theorem left_live {x : Proc n} (h : P.Left x.state) (hP : ∀ q, P ≠ .schedBack q) : x.live = true ∨ P.dead = true := by
  cases P with
  | schedBack q => exact absurd rfl (hP q)
  | sleep stage y => cases stage <;> exact .inl (by simp_all [Proc.live, Pos.Left])
  | yield stage => cases stage <;> exact .inl (by simp_all [Proc.live, Pos.Left])
  | exitUnlock | exitSched | zombie | forkret => exact .inr rfl
  | _ => exact .inl (by simp_all [Proc.live, Pos.Left])

theorem Does.live (hI : Inv s) (hd : Does s s' c ch t me P e) (hlive : (s.proc r).live = true) :
    (s'.proc r).live = true ∨ me = some r ∧ ∃ status, P = .exitSet status := by
  rw [hd.procs]
  have ha := hd.acts
  cases ha with
  | exitSet =>
    refine update_cases (Q := fun x => x.live = true ∨ _) r (fun _ => .inl hlive) ?_
    rintro rfl
    exact .inr ⟨rfl, _, rfl⟩
  | sleepSet | yieldSet | wakeupSet | killWake | forkRun | choose =>
    exact update_cases (Q := fun x => x.live = true ∨ _) r (fun _ => .inl hlive) fun _ => .inl rfl
  | callSleep | callExit | exec | sleepWake | waitSleep | killSet | memNone | memFail | mem | copy | forkParent | reparent =>
    refine update_cases (Q := fun x => x.live = true ∨ _) r (fun _ => .inl hlive) ?_
    rintro rfl
    exact .inl hlive
  | alloc hst =>
    refine update_cases (Q := fun x => x.live = true ∨ _) r (fun _ => .inl hlive) ?_
    rintro rfl
    simp [Proc.live, hst] at hlive
  | forkFree =>
    refine update_cases (Q := fun x => x.live = true ∨ _) r (fun _ => .inl hlive) ?_
    rintro rfl
    simp [Proc.live, hd.used hI rfl] at hlive
  | waitFree =>
    refine update_cases (Q := fun x => x.live = true ∨ _) r (fun _ => .inl hlive) ?_
    rintro rfl
    simp [Proc.live, hI.frees c _ _ _ hd.here_eq] at hlive
  | _ => exact .inl hlive

theorem SleepInv.does_dead (hS : SleepInv s) (hI : Inv s) (hI' : Inv s') (hd : Does s s' c ch t me P e) (r : Fin n) :
    (s'.proc r).live = true ∨ (s'.pos (.proc r)).dead = true := by
  by_cases ht : t = .proc r
  · subst ht
    have hback : ∀ q, s'.pos (.proc r) ≠ .schedBack q := by
      intro q hq
      have := hI'.ofProc r
      rw [hq] at this
      cases this
    by_cases hs : e.stays = true
    · refine left_live ?_ hback
      rw [hd.pos_self, ← hd.here_self hs]
      exact hI'.state c r (State.inUse_proc (by rw [hd.cur_eq hs, hd.cur]))
    · have hst := hI.state c r (State.inUse_proc (by rw [hd.cur]))
      rw [hd.here_eq] at hst
      have hkind := hI.ofProc r
      rw [hd.pos] at hkind
      rw [hd.pos_self, hd.procs]
      have ha := hd.acts
      cases ha with
      | sleepSched | yieldSched => exact .inl (by simp only [Pos.Left] at hst; simp [Effect.procs, Proc.live, hst])
      | exitSched => exact .inr rfl
      | schedSwtch => cases hkind
      | _ => exact absurd rfl hs
  · rcases hS.dead r with hlive | hdead
    · rcases hd.live hI hlive with h | ⟨hme, status, rfl⟩
      · exact .inl h
      · exact absurd (hd.own r hme rfl) ht
    · right
      by_cases hctx : ∃ P', e = .context r P'
      · obtain ⟨P', rfl⟩ := hctx
        obtain rfl := (Except.ok.inj hd.apply).symm
        have hpos : update (update s.pos (Thr.proc r) Pos.forkret) t P' (Thr.proc r) = .forkret := by
          rw [update_of_ne (Ne.symm ht), update_self]
        change (update (update s.pos (Thr.proc r) Pos.forkret) t P' (Thr.proc r)).dead = true
        rw [hpos]
        rfl
      · rw [hd.pos_ne (Ne.symm ht) fun q P he heq => hctx ⟨P, by rw [he, Thr.proc.inj heq]⟩]
        exact hdead

theorem SleepInv.next {e : Fin m × Choice n} (hS : SleepInv s) (hI : Inv s) (hn : Sched.next s e = .ok s') : SleepInv s' := by
  obtain ⟨c, ch⟩ := e
  have hI' := hI.next hn
  rcases hI.next_cases hn with ⟨t, hcur, rfl⟩ | ⟨t, me, P, e, hd⟩
  · exact ⟨hS.sleeps, hS.dead⟩
  · refine ⟨fun r => ?_, fun r => ?_⟩
    · by_cases ht : t = .proc r
      · subst ht
        rw [hd.pos_self]
        exact hS.own_sleeps hI hI' hd
      · have hr := hS.other_sleeps hI hd ht
        by_cases hctx : ∃ P', e = .context r P'
        · obtain ⟨P', rfl⟩ := hctx
          have hpos : s'.pos (.proc r) = .forkret := by
            obtain rfl := (Except.ok.inj hd.apply).symm
            exact (update_of_ne (Ne.symm ht) _ _).trans (update_self ..)
          have hused : (s.proc r).state = .USED := by
            have ha := hd.acts
            cases ha
            exact hd.used hI rfl
          rw [hpos, hd.procs]
          exact .of_ne rfl (fun h => by
            change (s.proc r).state = _ at h
            rw [hused] at h
            cases h)
        · rw [hd.pos_ne (Ne.symm ht) fun q P he heq => hctx ⟨P, by rw [he, Thr.proc.inj heq]⟩]
          exact hr
    · exact hS.does_dead hI hI' hd r

theorem sleepInv_boot (initproc : Fin n) (pagetable trapframe : Nat) :
    SleepInv (boot initproc pagetable trapframe : State n m) := by
  refine ⟨fun p => ?_, fun p => .inr rfl⟩
  change ((boot initproc pagetable trapframe : State n m).proc p).state ≠ .SLEEPING
  by_cases h : p = initproc
  · subst h
    simp [boot]
  · simp [boot, h]

/-- The call of `wakeup` that a thread is in: the channel, the first process whose lock is not released yet, and when it was
called. -/
def Pos.scan : Pos n → Option (Chan n × Nat × Nat)
  | wakeup chan i start _ => some (chan, i, start)
  | wakeupTest chan q start _ => some (chan, q.val, start)
  | wakeupUnlock chan q start _ => some (chan, q.val + 1, start)
  | _ => none

/-- The process is in a call of `sleep` that began before thread `w` acquired the lock, which was before its `wakeup`. -/
def State.Waits (s : State n m) (w : Thr n m) (start : Nat) (p : Fin n) (x : Sleep n) : Prop :=
  (∃ stage, s.pos (.proc p) = .sleep stage x) ∧ x.since < s.acqAt w x.lk ∧ s.acqAt w x.lk ≤ start

structure WakeInv (s : State n m) : Prop where
  clock : ∀ t l, s.acqAt t l < s.now
  since : ∀ t stage x, s.pos t = .sleep stage x → x.since < s.now
  start : ∀ t chan i start, (s.pos t).scan = some (chan, i, start) → start < s.now
  /-- Nobody acquires the lock between the call of `sleep` and its release. -/
  held : ∀ p stage x, s.pos (.proc p) = .sleep stage x → stage = .lock ∨ stage = .release →
    ∀ t, t ≠ .proc p → s.acqAt t x.lk ≤ x.since
  scanned : ∀ w chan i start, (s.pos w).scan = some (chan, i, start) → ∀ p x, w ≠ .proc p → p.val < i → x.chan = chan →
    s.Waits w start p x → (s.proc p).woken = true

theorem apply_now (h : e.apply s c t = .ok s') : s'.now = s.now + 1 := by
  cases e with
  | acquire l P =>
    obtain ⟨-, rfl⟩ := apply_acquire h
    cases l <;> rfl
  | blocked | panic => cases h
  | _ =>
    cases h
    rfl

theorem apply_acqAt (h : e.apply s c t = .ok s') (w : Thr n m) (l : Lk) : s'.acqAt w l = s.acqAt w l ∨
    w = t ∧ s'.acqAt w l = s.now ∧ s.lock (.lk l) = none ∧ ∃ P', e = .acquire (.lk l) P' := by
  cases e with
  | acquire l' P =>
    obtain ⟨hfree, rfl⟩ := apply_acquire h
    cases l' with
    | proc q => exact .inl rfl
    | lk l' =>
      change update s.acqAt t (update (s.acqAt t) l' s.now) w l = _ ∨ _ ∧
        update s.acqAt t (update (s.acqAt t) l' s.now) w l = _ ∧ _
      by_cases hw : w = t
      · subst hw
        rw [update_self]
        by_cases hl : l = l'
        · subst hl
          rw [update_self]
          exact .inr ⟨rfl, rfl, hfree, P, rfl⟩
        · rw [update_of_ne hl]
          exact .inl rfl
      · rw [update_of_ne hw]
        exact .inl rfl
  | blocked | panic => cases h
  | _ =>
    cases h
    exact .inl rfl

theorem Acts.sleep (ha : Acts s me P e) (hx : e.goesTo = .sleep stage x) :
    (∃ stage', P = .sleep stage' x ∧ stage ≠ .lock ∧ (stage = .release → stage' = .lock)) ∨ stage = .lock ∧ x.since = s.now := by
  cases ha with
  | callSleep | waitSleep =>
    cases hx
    exact .inr ⟨rfl, rfl⟩
  | sleepLock =>
    cases hx
    exact .inl ⟨_, rfl, nofun, fun _ => rfl⟩
  | sleepRelease | sleepSet | sleepSched | sleepWake | sleepUnlock | sleepRelock =>
    cases hx
    exact .inl ⟨_, rfl, nofun, nofun⟩
  | wakeupRet =>
    rename_i ret _ _
    cases ret <;> cases hx
  | killUnlock =>
    rename_i found
    cases found <;> cases hx
  | _ => cases hx

theorem Acts.scan (ha : Acts s me P e) (hx : e.goesTo.scan = some (chan, i, start)) :
    start = s.now ∧ i = 0 ∨
    P.scan = some (chan, i, start) ∨
    (∃ q : Fin n, P.scan = some (chan, q.val, start) ∧ i = q.val + 1 ∧ me = some q ∧ P.cproc = none) ∨
    ∃ q ret, P = .wakeupTest chan q start ret ∧ i = q.val + 1 := by
  cases ha with
  | wakeup | reparent | exitWakeup =>
    cases hx
    exact .inl ⟨rfl, rfl⟩
  | wakeupMe hi =>
    cases hx
    subst hi
    exact .inr (.inr (.inl ⟨_, rfl, rfl, rfl, rfl⟩))
  | wakeupLock hi =>
    cases hx
    subst hi
    exact .inr (.inl rfl)
  | wakeupSet | wakeupSkip =>
    cases hx
    exact .inr (.inr (.inr ⟨_, _, rfl, rfl⟩))
  | wakeupUnlock =>
    cases hx
    exact .inr (.inl rfl)
  | wakeupRet =>
    rename_i ret _ _
    cases ret <;> cases hx
  | killUnlock =>
    rename_i found
    cases found <;> cases hx
  | _ => cases hx

theorem Acts.acquire_scan (ha : Acts s me P e) {l : Lk} (he : e = .acquire (.lk l) P') :
    e.goesTo.scan = none := by
  cases ha with
  | acquire | sleepRelock | forkWait | exitWait | waitLock => rfl
  | _ => cases he

theorem Does.woken (hd : Does s s' c ch t me P e) (h : (s.proc p).woken = true) :
    (s'.proc p).woken = true ∨ t = .proc p ∧ ∃ x, e.goesTo = .sleep .lock x ∧ x.since = s.now := by
  rw [hd.procs]
  have ha := hd.acts
  cases ha with
  | callSleep | waitSleep =>
    refine update_cases (Q := fun y => y.woken = true ∨ _) p (fun _ => .inl h) ?_
    rintro rfl
    exact .inr ⟨hd.own _ rfl rfl, _, rfl, rfl⟩
  | callExit | exec | sleepSet | sleepWake | yieldSet | exitSet | killSet | memNone | memFail | mem | copy | forkParent | reparent
  | alloc | forkRun | choose | forkFree | waitFree =>
    refine update_cases (Q := fun y => y.woken = true ∨ _) p (fun _ => .inl h) ?_
    rintro rfl
    exact .inl h
  | wakeupSet | killWake => exact update_cases (Q := fun y => y.woken = true ∨ _) p (fun _ => .inl h) fun _ => .inl rfl
  | _ => exact .inl h

theorem SleepInv.on_cpu (hS : SleepInv s) (hI : Inv s)
    (hp : s.pos (.proc p) = .sleep stage x) (hst : stage ≠ .wake) : ∃ c, s.cur c = (.proc p, false) := by
  rcases hS.dead p with hlive | hdead
  · rcases hI.saved p hlive with hon | ⟨hres, -⟩
    · exact hon
    · rw [hp] at hres
      cases stage with
      | wake => exact absurd rfl hst
      | _ => cases hres
  · rw [hp] at hdead
    cases hdead

theorem Does.pos_other (hd : Does s s' c ch t me P e) (ht : t' ≠ t) :
    s'.pos t' = s.pos t' ∨ s'.pos t' = .forkret := by
  by_cases hctx : ∃ q P', e = .context q P' ∧ t' = .proc q
  · obtain ⟨q, P', rfl, rfl⟩ := hctx
    obtain rfl := (Except.ok.inj hd.apply).symm
    exact .inr ((update_of_ne ht _ _).trans (update_self ..))
  · exact .inl (hd.pos_ne ht fun q P he heq => hctx ⟨q, P, he, heq⟩)

theorem WakeInv.does_held (hW : WakeInv s) (hS : SleepInv s) (hI : Inv s) (hd : Does s s' c ch t me P e) (hp : s'.pos (.proc p) = .sleep stage x) (hst : stage = .lock ∨ stage = .release)
    (hw : w ≠ .proc p) : s'.acqAt w x.lk ≤ x.since := by
  by_cases ht : t = .proc p
  · subst ht
    have hsame : s'.acqAt w x.lk = s.acqAt w x.lk := by
      rcases apply_acqAt hd.apply w x.lk with h | ⟨h, -⟩
      · exact h
      · exact absurd h hw
    rw [hsame]
    rw [hd.pos_self] at hp
    rcases hd.acts.sleep hp with ⟨stage', hP, hne, hrel⟩ | ⟨-, hsince⟩
    · refine hW.held p stage' x (hd.pos.trans hP) ?_ w hw
      rcases hst with rfl | rfl
      · exact absurd rfl hne
      · exact .inl (hrel rfl)
    · rw [hsince]
      exact le_of_lt (hW.clock w x.lk)
  · rcases hd.pos_other (Ne.symm ht) with hpos | hpos
    · rw [hpos] at hp
      rcases apply_acqAt hd.apply w x.lk with h | ⟨-, -, hfree, -⟩
      · rw [h]
        exact hW.held p stage x hp hst w hw
      · obtain ⟨c', hc'⟩ := hS.on_cpu hI hp (by rcases hst with rfl | rfl <;> simp)
        have hlock : s.lock (.lk x.lk) = some c' := by
          rw [hI.locks, Inv.here_eq hc', hp, hc']
          rcases hst with rfl | rfl <;> simp [Pos.locks]
        rw [hfree] at hlock
        cases hlock
    · rw [hpos] at hp
      cases hp

theorem WakeInv.does_test (hW : WakeInv s) (hS : SleepInv s) (hI : Inv s) {ret : Ret}
    (hd : Does s s' c ch t me (.wakeupTest chan p start ret) e) (ht : t ≠ .proc p) (hchan : x.chan = chan)
    (hwaits : s.Waits t start p x) : (s'.proc p).woken = true := by
  obtain ⟨⟨stage, hp⟩, hlt, hle⟩ := hwaits
  have hlock : s.lock (.proc p) = some c := by
    rw [hI.locks, hd.here_eq]
    exact List.mem_cons_self ..
  -- the process has given up its own lock, so it is past the change of its state
  have hlate : stage.early = false ∧ stage ≠ .sched := by
    have hno : ∀ c', s.cur c' = (.proc p, false) → s.lock (.proc p) ≠ some c' := by
      intro c' hc' h
      obtain rfl : c = c' := Option.some.inj (hlock.symm.trans h)
      rw [hd.cur] at hc'
      exact ht (Prod.mk.inj hc').1
    have hheld : stage = .lock ∨ stage = .release → False := by
      intro hst
      have := hW.held p stage x hp hst t ht
      omega
    have hown : stage = .set ∨ stage = .sched → False := by
      intro hst
      obtain ⟨c', hc'⟩ := hS.on_cpu hI hp (by rcases hst with rfl | rfl <;> simp)
      refine hno c' hc' ?_
      rw [hI.locks, Inv.here_eq hc', hp, hc']
      rcases hst with rfl | rfl <;> simp [Pos.locks, Thr.own]
    cases stage with
    | lock => exact (hheld (.inl rfl)).elim
    | release => exact (hheld (.inr rfl)).elim
    | set => exact (hown (.inl rfl)).elim
    | sched => exact (hown (.inr rfl)).elim
    | _ => exact ⟨rfl, by simp⟩
  have hok := hS.sleeps p
  rw [hp] at hok
  simp only [Proc.SleepOk, hlate.1, Bool.false_eq_true, if_false] at hok
  have hprocs := hd.procs
  have ha := hd.acts
  cases ha with
  | wakeupSet =>
    rw [hprocs]
    simp [Effect.procs]
  | wakeupSkip hno =>
    rw [hprocs]
    rcases hok with ⟨hst, hc, -⟩ | ⟨hw, -⟩
    · exact absurd ⟨hst, by rw [hc, hchan]⟩ hno
    · exact hw

theorem WakeInv.does_scanned (hW : WakeInv s) (hS : SleepInv s) (hI : Inv s) (hd : Does s s' c ch t me P e) (hscan : (s'.pos w).scan = some (chan, i, start)) (hw : w ≠ .proc p)
    (hp : p.val < i) (hchan : x.chan = chan) (hwaits : s'.Waits w start p x) : (s'.proc p).woken = true := by
  obtain ⟨⟨stage, hpos⟩, hlt, hle⟩ := hwaits
  -- the lock was not acquired in this step
  have hacq : s'.acqAt w x.lk = s.acqAt w x.lk := by
    rcases apply_acqAt hd.apply w x.lk with h | ⟨rfl, -, -, P', he⟩
    · exact h
    · rw [hd.pos_self] at hscan
      rw [hd.acts.acquire_scan he] at hscan
      cases hscan
  rw [hacq] at hlt hle
  -- the call of `sleep` is not new
  have hold : ∃ stage, s.pos (.proc p) = .sleep stage x := by
    by_cases ht : t = .proc p
    · subst ht
      rw [hd.pos_self] at hpos
      rcases hd.acts.sleep hpos with ⟨stage', hP, -⟩ | ⟨-, hsince⟩
      · exact ⟨stage', hd.pos.trans hP⟩
      · have := hW.clock w x.lk
        omega
    · rcases hd.pos_other (Ne.symm ht) with h | h
      · exact ⟨stage, h ▸ hpos⟩
      · rw [h] at hpos
        cases hpos
  have hkeep : (s.proc p).woken = true → (s'.proc p).woken = true := by
    intro h
    rcases hd.woken h with h | ⟨rfl, y, hy, hsince⟩
    · exact h
    · rw [hd.pos_self, hy] at hpos
      cases hpos
      have := hW.clock w x.lk
      omega
  by_cases ht : w = t
  · subst ht
    rw [hd.pos_self] at hscan
    rcases hd.acts.scan hscan with ⟨-, rfl⟩ | h | ⟨q, h, rfl, hme, hno⟩ | ⟨q, ret, rfl, rfl⟩
    · exact absurd hp (Nat.not_lt_zero _)
    · exact hkeep (hW.scanned w chan i start (by rw [hd.pos]; exact h) p x hw hp hchan ⟨hold, hlt, hle⟩)
    · have hq : p ≠ q := by
        rintro rfl
        exact hw (hd.own p hme hno)
      have hlt' : p.val < q.val := by
        have : p.val ≠ q.val := fun h => hq (Fin.ext h)
        omega
      exact hkeep (hW.scanned w chan q.val start (by rw [hd.pos]; exact h) p x hw hlt' hchan ⟨hold, hlt, hle⟩)
    · by_cases hq : p = q
      · subst hq
        exact hW.does_test hS hI hd hw hchan ⟨hold, hlt, hle⟩
      · have hlt' : p.val < q.val := by
          have : p.val ≠ q.val := fun h => hq (Fin.ext h)
          omega
        exact hkeep (hW.scanned w chan q.val start (by rw [hd.pos]; rfl) p x hw hlt' hchan ⟨hold, hlt, hle⟩)
  · have hposw : s'.pos w = s.pos w := by
      rcases hd.pos_other ht with h | h
      · exact h
      · rw [h] at hscan
        cases hscan
    rw [hposw] at hscan
    exact hkeep (hW.scanned w chan i start hscan p x hw hp hchan ⟨hold, hlt, hle⟩)

theorem WakeInv.next {e : Fin m × Choice n} (hW : WakeInv s) (hS : SleepInv s) (hI : Inv s) (hn : Sched.next s e = .ok s') :
    WakeInv s' := by
  obtain ⟨c, ch⟩ := e
  rcases hI.next_cases hn with ⟨t, hcur, rfl⟩ | ⟨t, me, P, e, hd⟩
  · exact ⟨fun t l => Nat.lt_succ_of_lt (hW.clock t l), fun t stage x h => Nat.lt_succ_of_lt (hW.since t stage x h),
      fun t chan i start h => Nat.lt_succ_of_lt (hW.start t chan i start h), hW.held, hW.scanned⟩
  · have hnow := apply_now hd.apply
    refine ⟨fun w l => ?_, fun w stage x hx => ?_, fun w chan i start hx => ?_, fun p stage x hp hst w hw => ?_,
      fun w chan i start hscan p x hw hp hchan hwaits => ?_⟩
    · rw [hnow]
      have := hW.clock w l
      rcases apply_acqAt hd.apply w l with h | ⟨-, h, -⟩ <;> omega
    · rw [hnow]
      by_cases ht : w = t
      · subst ht
        rw [hd.pos_self] at hx
        rcases hd.acts.sleep hx with ⟨stage', hP, -⟩ | ⟨-, hsince⟩
        · have := hW.since w stage' x (hd.pos.trans hP)
          omega
        · omega
      · rcases hd.pos_other ht with h | h
        · rw [h] at hx
          have := hW.since w stage x hx
          omega
        · rw [h] at hx
          cases hx
    · rw [hnow]
      by_cases ht : w = t
      · subst ht
        have hold : ∀ i, P.scan = some (chan, i, start) → start < s.now := fun i h =>
          hW.start w chan i start (by rw [hd.pos]; exact h)
        rw [hd.pos_self] at hx
        rcases hd.acts.scan hx with ⟨h, -⟩ | h | ⟨q, h, -⟩ | ⟨q, ret, h, -⟩
        · omega
        · have := hold _ h
          omega
        · have := hold _ h
          omega
        · have := hold q.val (by rw [h]; rfl)
          omega
      · rcases hd.pos_other ht with h | h
        · rw [h] at hx
          have := hW.start w chan i start hx
          omega
        · rw [h] at hx
          cases hx
    · exact hW.does_held hS hI hd hp hst hw
    · exact hW.does_scanned hS hI hd hscan hw hp hchan hwaits

theorem wakeInv_boot (initproc : Fin n) (pagetable trapframe : Nat) :
    WakeInv (boot initproc pagetable trapframe : State n m) := by
  refine ⟨fun _ _ => Nat.one_pos, fun t => ?_, fun t => ?_, nofun, fun t => ?_⟩ <;> cases t <;> nofun

theorem wake_run {es : List (Fin m × Choice n)}
    (h : run next (boot initproc pagetable trapframe) es = .ok s) : Inv s ∧ SleepInv s ∧ WakeInv s :=
  run_induct (I := fun s => Inv s ∧ SleepInv s ∧ WakeInv s)
    (fun _ _ _ _ hn hI => ⟨hI.1.next hn, hI.2.1.next hI.1 hn, hI.2.2.next hI.2.1 hI.1 hn⟩) along_true h
    ⟨inv_boot .., sleepInv_boot .., wakeInv_boot ..⟩

/-- In every run, when a `wakeup(chan)` of thread `w` has been through the table, every other process that called `sleep(chan, lk)`
before `w` acquired `lk` for this wakeup has been made `RUNNABLE` since, and does not sleep; and `sleep` returns only with `lk`
held. -/
theorem no_wakeup_lost_in_sleep {initproc : Fin n} {pagetable trapframe : Nat} {es : List (Fin m × Choice n)}
    (h : run next (boot initproc pagetable trapframe) es = .ok s) :
    (∀ w chan i start ret, s.pos w = .wakeup chan i start ret → n ≤ i → ∀ p x, w ≠ .proc p → x.chan = chan →
      s.Waits w start p x → (s.proc p).woken = true ∧ (s.proc p).state ≠ .SLEEPING) ∧
    (∀ c p x, s.cur c = (.proc p, false) → s.pos (.proc p) = .sleep .ret x → s.lock (.lk x.lk) = some c) := by
  obtain ⟨hI, hS, hW⟩ := wake_run h
  refine ⟨fun w chan i start ret hpos hi p x hw hchan hwaits => ?_, fun c p x hcur hpos => ?_⟩
  · have hwoken := hW.scanned w chan i start (by rw [hpos]; rfl) p x hw (Nat.lt_of_lt_of_le p.isLt hi) hchan hwaits
    refine ⟨hwoken, ?_⟩
    obtain ⟨⟨stage, hp⟩, -⟩ := hwaits
    have hok := hS.sleeps p
    rw [hp] at hok
    simp only [Proc.SleepOk] at hok
    split at hok
    · exact hok.2
    · rcases hok with ⟨-, -, hno, -⟩ | ⟨-, hst⟩
      · rw [hwoken] at hno
        cases hno
      · exact hst
  · rw [hI.locks, Inv.here_eq hcur, hpos]
    exact List.mem_cons_self ..

def forkChild : List (Fin 1 × Choice 2) :=
  toUser ++ (0, .fork) :: List.replicate 5 (0, .go) ++ [(0, .mem 1 1), (0, .go), (0, .copy true)] ++ List.replicate 7 (0, .go)

def sleepWake : List (Fin 1 × Choice 2) :=
  forkChild ++ [(0, .acquire 5), (0, .sleep (.other 7) 5)] ++ List.replicate 13 (0, .go) ++
    [(0, .acquire 5), (0, .wakeup (.other 7))] ++ List.replicate 4 (0, .go)

theorem no_wakeup_lost_in_sleep_sleepWake :
    ∃ s : State 2 1, run next (boot 0 1 1) sleepWake = .ok s ∧
      (s.pos (.proc 1)).scan = some (.other 7, 2, 39) ∧ (s.proc 0).woken = true ∧
      (∀ w chan i start ret, s.pos w = .wakeup chan i start ret → 2 ≤ i → ∀ p x, w ≠ .proc p → x.chan = chan →
        s.Waits w start p x → (s.proc p).woken = true ∧ (s.proc p).state ≠ .SLEEPING) ∧
      (∀ c p x, s.cur c = (.proc p, false) → s.pos (.proc p) = .sleep .ret x → s.lock (.lk x.lk) = some c) := by
  have hends : Ends (fun s : State 2 1 => (s.pos (.proc 1)).scan = some (.other 7, 2, 39) ∧ (s.proc 0).woken = true)
      (run next (boot 0 1 1) sleepWake) := by
    decide +kernel
  obtain ⟨s, hrun, hscan, hwoken⟩ := hends.exists
  exact ⟨s, hrun, hscan, hwoken, no_wakeup_lost_in_sleep hrun⟩

end Xv6.Sched
