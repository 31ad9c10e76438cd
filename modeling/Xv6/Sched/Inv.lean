import Xv6.Sched.Code

/-!
# Locks and contexts

What the point of its code says about a thread: the locks it holds, the process whose context its CPU is using, whether that
process has already given up the CPU. From this the invariant of the scheduler is stated, and every step of every CPU keeps it.
-/

namespace Xv6.Sched

open Run

variable {n m : Nat} {P : Pos n} {x : ProcState}

def Thr.own : Thr n m → List (Lock n)
  | .proc p => [.proc p]
  | .cpu _ => []

def lks (held : List Nat) : List (Lock n) := held.map fun a => .lk (.other a)

def Ret.locks : Ret → List (Lock n)
  | .kern held => lks held
  | .reparent .. | .exit _ => [.lk .wait]

namespace Pos

def locks (t : Thr n m) : Pos n → List (Lock n)
  | kern held => lks held
  | wakeup _ _ _ ret => ret.locks
  | wakeupTest _ q _ ret | wakeupUnlock _ q _ ret => .proc q :: ret.locks
  | sleep .lock x => .lk x.lk :: lks x.rest
  | sleep .release x => t.own ++ .lk x.lk :: lks x.rest
  | sleep .set x | sleep .sched x => t.own ++ (lks x.rest).filter (· ≠ .lk x.lk)
  | sleep .wake _ | sleep .unlock _ => t.own
  | sleep .relock _ => []
  | sleep .ret x => [.lk x.lk]
  | yield .lock => []
  | yield _ | forkret | exitSched | zombie => t.own
  | kill .. | allocproc _ | forkWait _ | forkLock _ | exitWait _ | waitLock _ | schedScan _ => []
  | killTest _ q | killUnlock _ q _ | allocTest q | allocSkip q | allocMem q | allocContext q | forkCopy q | forkFree q
  | forkFreed q | forkUnlock q | forkRun q | forkDone q | schedTest q | schedSet q | schedSwtch q | schedBack q
  | schedUnlock q => [.proc q]
  | forkParent _ | forkWaitUnlock _ | reparent .. | exitLock _ | waitScan .. | waitNone | waitKilled _ | waitSleep _
  | waitReturn _ => [.lk .wait]
  | exitSet _ | exitUnlock | waitKilledRead _ | waitKilledUnlock .. => t.own ++ [.lk .wait]
  | waitTest q _ | waitUnlock q _ | waitFail q | waitFree q .. | waitFreed q _ => [.proc q, .lk .wait]

def uses : Pos n → Option (Fin n)
  | schedSet q | schedSwtch q | schedBack q => some q
  | _ => none

/-- The process has given up the CPU: its state is changed, and it is on its way back to the scheduler. -/
def leaves : Pos n → Bool
  | sleep .sched _ | yield .sched | exitUnlock | exitSched | schedBack _ => true
  | _ => false

/-- The states that a process can have while its CPU is at this point. -/
def Left : Pos n → ProcState → Prop
  | sleep .sched _, x => x = .SLEEPING
  | yield .sched, x => x = .RUNNABLE
  | exitUnlock, x | exitSched, x => x = .ZOMBIE
  | schedBack _, x => x = .RUNNABLE ∨ x = .SLEEPING ∨ x = .ZOMBIE
  | _, x => x = .RUNNING

theorem left_of_not_leaves (h : P.leaves = false) (hx : P.Left x) : x = .RUNNING := by
  cases P with
  | sleep stage y => cases stage <;> first | exact hx | cases h
  | yield stage => cases stage <;> first | exact hx | cases h
  | _ => first | exact hx | cases h

theorem left_ne (hx : P.Left x) : x ≠ .USED ∧ x ≠ .UNUSED := by
  cases P with
  | sleep stage y => cases stage <;> simp_all [Left]
  | yield stage => cases stage <;> simp_all [Left]
  | schedBack q => rcases hx with rfl | rfl | rfl <;> simp
  | _ => simp_all [Left]

/-- `c->proc` while the scheduler is at this point. -/
def cproc : Pos n → Option (Fin n)
  | schedSwtch q | schedBack q => some q
  | _ => none

def resumes : Pos n → Bool
  | sleep .wake _ | yield .unlock | forkret => true
  | _ => false

def ofCpu : Pos n → Bool
  | kern _ | wakeup _ _ _ (.kern _) | wakeupTest _ _ _ (.kern _) | wakeupUnlock _ _ _ (.kern _) | schedScan _ | schedTest _
  | schedSet _ | schedSwtch _ | schedBack _ | schedUnlock _ => true
  | _ => false

def ofProc : Pos n → Bool
  | schedScan _ | schedTest _ | schedSet _ | schedSwtch _ | schedBack _ | schedUnlock _ => false
  | _ => true

/-- The child that a call of `fork` is making. -/
def forks : Pos n → Option (Fin n)
  | allocMem q | allocContext q | forkCopy q | forkFree q | forkUnlock q | forkWait q | forkParent q | forkWaitUnlock q
  | forkLock q | forkRun q => some q
  | _ => none

def ready : Pos n → Bool
  | forkCopy _ | forkUnlock _ | forkWait _ | forkParent _ | forkWaitUnlock _ | forkLock _ | forkRun _ => true
  | _ => false

end Pos

/-! ### The steps of the code -/

/-- The steps of a thread on a CPU with `c->proc = me`: from which point, what they do, and under which condition. -/
inductive Acts (s : State n m) : Option (Fin n) → Pos n → Effect n m → Prop
  | acquire {me held} (a) : Acts s me (.kern held) (.acquire (.lk (.other a)) (.kern (a :: held)))
  | release {me held a} (ha : a ∈ held) : Acts s me (.kern held) (.release (.lk (.other a)) (.kern (held.filter (· ≠ a))))
  | wakeup {me held} (chan) : Acts s me (.kern held) (.tau (.wakeup chan 0 s.now (.kern held)))
  | callSleep {p held a} (chan) (ha : a ∈ held) : Acts s (some p) (.kern held)
      (.set p { s.proc p with woken := false } (.sleep .lock ⟨chan, .other a, held.filter (· ≠ a), s.now, none⟩))
  | iret (i) : Acts s none (.kern []) (.tau (.schedScan i))
  | callYield {p} : Acts s (some p) (.kern []) (.tau (.yield .lock))
  | callFork {p} : Acts s (some p) (.kern []) (.tau (.allocproc 0))
  | callExit {p} (status) (hinit : p ≠ s.initproc) :
      Acts s (some p) (.kern []) (.set p { s.proc p with status := some status } (.exitWait status))
  | callWait {p} (addr) : Acts s (some p) (.kern []) (.tau (.waitLock addr))
  | callKill {p} (pid) : Acts s (some p) (.kern []) (.tau (.kill pid 0))
  | exec {p} (pagetable sz) : Acts s (some p) (.kern []) (.set p { s.proc p with pagetable := pagetable, sz := sz } (.kern []))
  | wakeupMe {chan start ret q i} (hi : i = q.val) :
      Acts s (some q) (.wakeup chan i start ret) (.tau (.wakeup chan (i + 1) start ret))
  | wakeupLock {me chan start ret q i} (hi : i = q.val) (hne : me ≠ some q) :
      Acts s me (.wakeup chan i start ret) (.acquire (.proc q) (.wakeupTest chan q start ret))
  | wakeupRet {me chan start ret i} (hi : n ≤ i) : Acts s me (.wakeup chan i start ret) (.tau ret.next)
  | wakeupSet {me chan start ret q} (hst : (s.proc q).state = .SLEEPING) (hchan : (s.proc q).chan = some chan) :
      Acts s me (.wakeupTest chan q start ret)
        (.set q { s.proc q with state := .RUNNABLE, woken := true } (.wakeupUnlock chan q start ret))
  | wakeupSkip {me chan start ret q} (hno : ¬ ((s.proc q).state = .SLEEPING ∧ (s.proc q).chan = some chan)) :
      Acts s me (.wakeupTest chan q start ret) (.tau (.wakeupUnlock chan q start ret))
  | wakeupUnlock {me chan start ret q} :
      Acts s me (.wakeupUnlock chan q start ret) (.release (.proc q) (.wakeup chan (q + 1) start ret))
  | sleepLock {p x} : Acts s (some p) (.sleep .lock x) (.acquire (.proc p) (.sleep .release x))
  | sleepRelease {p x} : Acts s (some p) (.sleep .release x) (.release (.lk x.lk) (.sleep .set x))
  | sleepSet {p x} : Acts s (some p) (.sleep .set x)
      (.set p { s.proc p with chan := some x.chan, state := .SLEEPING } (.sleep .sched x))
  | sleepSched {p x} (hrest : x.rest = []) : Acts s (some p) (.sleep .sched x) (.toSched (.sleep .wake x))
  | sleepWake {p x} : Acts s (some p) (.sleep .wake x) (.set p { s.proc p with chan := none } (.sleep .unlock x))
  | sleepUnlock {p x} : Acts s (some p) (.sleep .unlock x) (.release (.proc p) (.sleep .relock x))
  | sleepRelock {p x} : Acts s (some p) (.sleep .relock x) (.acquire (.lk x.lk) (.sleep .ret x))
  | sleepWait {p x addr} (hx : x.inWait = some addr) (hlk : x.lk = .wait) : Acts s (some p) (.sleep .ret x) (.tau (.waitScan 0 false addr))
  | sleepRet {p x a} (hx : x.inWait = none) (hlk : x.lk = .other a) : Acts s (some p) (.sleep .ret x) (.tau (.kern [a]))
  | yieldLock {p} : Acts s (some p) (.yield .lock) (.acquire (.proc p) (.yield .set))
  | yieldSet {p} : Acts s (some p) (.yield .set) (.set p { s.proc p with state := .RUNNABLE } (.yield .sched))
  | yieldSched {p} : Acts s (some p) (.yield .sched) (.toSched (.yield .unlock))
  | yieldUnlock {p} : Acts s (some p) (.yield .unlock) (.release (.proc p) (.kern []))
  | forkret {p} : Acts s (some p) .forkret (.release (.proc p) (.kern []))
  | killLock {me pid q i} (hi : i = q.val) : Acts s me (.kill pid i) (.acquire (.proc q) (.killTest pid q))
  | killNone {me pid i} (hi : n ≤ i) : Acts s me (.kill pid i) (.tau (.kern []))
  | killWake {me pid q} (hpid : (s.proc q).pid = pid) (hst : (s.proc q).state = .SLEEPING) : Acts s me (.killTest pid q)
      (.set q { s.proc q with killed := true, state := .RUNNABLE, woken := true } (.killUnlock pid q true))
  | killSet {me pid q} (hpid : (s.proc q).pid = pid) (hst : (s.proc q).state ≠ .SLEEPING) :
      Acts s me (.killTest pid q) (.set q { s.proc q with killed := true } (.killUnlock pid q true))
  | killSkip {me pid q} (hpid : (s.proc q).pid ≠ pid) : Acts s me (.killTest pid q) (.tau (.killUnlock pid q false))
  | killUnlock {me pid q found} :
      Acts s me (.killUnlock pid q found) (.release (.proc q) (if found then .kern [] else .kill pid (q + 1)))
  | allocLock {me q i} (hi : i = q.val) : Acts s me (.allocproc i) (.acquire (.proc q) (.allocTest q))
  | allocNone {me i} (hi : n ≤ i) : Acts s me (.allocproc i) (.tau (.kern []))
  | alloc {me q} (hst : (s.proc q).state = .UNUSED) : Acts s me (.allocTest q) (.alloc q (.allocMem q))
  | allocSkip {me q} (hst : (s.proc q).state ≠ .UNUSED) : Acts s me (.allocTest q) (.tau (.allocSkip q))
  | allocUnlock {me q} : Acts s me (.allocSkip q) (.release (.proc q) (.allocproc (q + 1)))
  | memNone {me q} : Acts s me (.allocMem q) (.set q { s.proc q with trapframe := 0 } (.forkFree q))
  | memFail {me q trapframe} :
      Acts s me (.allocMem q) (.set q { s.proc q with trapframe := trapframe, pagetable := 0 } (.forkFree q))
  | mem {me q trapframe pagetable} : Acts s me (.allocMem q)
      (.set q { s.proc q with trapframe := trapframe, pagetable := pagetable } (.allocContext q))
  | context {me q} : Acts s me (.allocContext q) (.context q (.forkCopy q))
  | copy {p q} : Acts s (some p) (.forkCopy q)
      (.set q { s.proc q with sz := (s.proc p).sz, forker := some p } (.forkUnlock q))
  | copyFail {p q} : Acts s (some p) (.forkCopy q) (.tau (.forkFree q))
  | forkFree {me q} : Acts s me (.forkFree q) (.set q (s.proc q).freed (.forkFreed q))
  | forkFreed {me q} : Acts s me (.forkFreed q) (.release (.proc q) (.kern []))
  | forkUnlock {me q} : Acts s me (.forkUnlock q) (.release (.proc q) (.forkWait q))
  | forkWait {me q} : Acts s me (.forkWait q) (.acquire (.lk .wait) (.forkParent q))
  | forkParent {p q} : Acts s (some p) (.forkParent q) (.set q { s.proc q with parent := some p } (.forkWaitUnlock q))
  | forkWaitUnlock {me q} : Acts s me (.forkWaitUnlock q) (.release (.lk .wait) (.forkLock q))
  | forkLock {me q} : Acts s me (.forkLock q) (.acquire (.proc q) (.forkRun q))
  | forkRun {me q} : Acts s me (.forkRun q) (.set q { s.proc q with state := .RUNNABLE } (.forkDone q))
  | forkDone {me q} : Acts s me (.forkDone q) (.release (.proc q) (.kern []))
  | exitWait {me status} : Acts s me (.exitWait status) (.acquire (.lk .wait) (.reparent 0 status))
  | reparent {p q i status} (hi : i = q.val) (hpar : (s.proc q).parent = some p) : Acts s (some p) (.reparent i status)
      (.set q { s.proc q with parent := some s.initproc } (.wakeup (.proc s.initproc) 0 s.now (.reparent (i + 1) status)))
  | reparentSkip {p q i status} (hi : i = q.val) (hpar : (s.proc q).parent ≠ some p) :
      Acts s (some p) (.reparent i status) (.tau (.reparent (i + 1) status))
  | exitWakeup {p r i status} (hi : n ≤ i) (hpar : (s.proc p).parent = some r) :
      Acts s (some p) (.reparent i status) (.tau (.wakeup (.proc r) 0 s.now (.exit status)))
  | exitAlone {p i status} (hi : n ≤ i) (hpar : (s.proc p).parent = none) :
      Acts s (some p) (.reparent i status) (.tau (.exitLock status))
  | exitLock {p status} : Acts s (some p) (.exitLock status) (.acquire (.proc p) (.exitSet status))
  | exitSet {p status} :
      Acts s (some p) (.exitSet status) (.set p { s.proc p with xstate := status, state := .ZOMBIE } .exitUnlock)
  | exitUnlock {me} : Acts s me .exitUnlock (.release (.lk .wait) .exitSched)
  | exitSched {me} : Acts s me .exitSched (.toSched .zombie)
  | waitLock {me addr} : Acts s me (.waitLock addr) (.acquire (.lk .wait) (.waitScan 0 false addr))
  | waitChild {me q i havekids addr} (hi : i = q.val) (hpar : (s.proc q).parent = me) :
      Acts s me (.waitScan i havekids addr) (.acquire (.proc q) (.waitTest q addr))
  | waitSkip {me q i havekids addr} (hi : i = q.val) (hpar : (s.proc q).parent ≠ me) :
      Acts s me (.waitScan i havekids addr) (.tau (.waitScan (i + 1) havekids addr))
  | waitNobody {me i addr} (hi : n ≤ i) : Acts s me (.waitScan i false addr) (.tau .waitNone)
  | waitMore {me i addr} (hi : n ≤ i) : Acts s me (.waitScan i true addr) (.tau (.waitKilled addr))
  | waitFail {me q addr} (hst : (s.proc q).state = .ZOMBIE) : Acts s me (.waitTest q addr) (.tau (.waitFail q))
  | waitFound {me q addr} (hst : (s.proc q).state = .ZOMBIE) : Acts s me (.waitTest q addr)
      (.tau (.waitFree q (s.proc q).pid (addr, if addr ≠ 0 then some (s.proc q).xstate else none)))
  | waitAlive {me q addr} (hst : (s.proc q).state ≠ .ZOMBIE) : Acts s me (.waitTest q addr) (.tau (.waitUnlock q addr))
  | waitUnlock {me q addr} : Acts s me (.waitUnlock q addr) (.release (.proc q) (.waitScan (q + 1) true addr))
  | waitFailUnlock {me q} : Acts s me (.waitFail q) (.release (.proc q) (.waitReturn (-1)))
  | waitFree {me q pid stored} : Acts s me (.waitFree q pid stored) (.reap q pid stored (.waitFreed q pid))
  | waitFreed {me q pid} : Acts s me (.waitFreed q pid) (.release (.proc q) (.waitReturn pid))
  | waitNone {me} : Acts s me .waitNone (.tau (.waitReturn (-1)))
  | waitKilled {p addr} : Acts s (some p) (.waitKilled addr) (.acquire (.proc p) (.waitKilledRead addr))
  | waitKilledRead {p addr} : Acts s (some p) (.waitKilledRead addr) (.tau (.waitKilledUnlock addr (s.proc p).killed))
  | waitKilledYes {p addr} : Acts s (some p) (.waitKilledUnlock addr true) (.release (.proc p) (.waitReturn (-1)))
  | waitKilledNo {p addr} : Acts s (some p) (.waitKilledUnlock addr false) (.release (.proc p) (.waitSleep addr))
  | waitSleep {p addr} : Acts s (some p) (.waitSleep addr)
      (.set p { s.proc p with woken := false } (.sleep .lock ⟨.proc p, .wait, [], s.now, some addr⟩))
  | waitReturn {me r} : Acts s me (.waitReturn r) (.release (.lk .wait) (.kern []))
  | intr {me i} : Acts s me (.schedScan i) (.tau (.kern []))
  | schedLock {me q i} (hi : i = q.val) : Acts s me (.schedScan i) (.acquire (.proc q) (.schedTest q))
  | schedAgain {me i} (hi : n ≤ i) : Acts s me (.schedScan i) (.tau (.schedScan 0))
  | choose {me q} (hst : (s.proc q).state = .RUNNABLE) :
      Acts s me (.schedTest q) (.set q { s.proc q with state := .RUNNING } (.schedSet q))
  | schedSkip {me q} (hst : (s.proc q).state ≠ .RUNNABLE) : Acts s me (.schedTest q) (.tau (.schedUnlock q))
  | schedSet {me q} : Acts s me (.schedSet q) (.setCpu (some q) (.schedSwtch q))
  | schedSwtch {me q} : Acts s me (.schedSwtch q) (.toProc q (.schedBack q))
  | schedBack {me q} : Acts s me (.schedBack q) (.setCpu none (.schedUnlock q))
  | schedUnlock {me q} : Acts s me (.schedUnlock q) (.release (.proc q) (.schedScan (q + 1)))

theorem code_acts {s s' : State n m} {c : Fin m} {t : Thr n m} {me : Option (Fin n)} {ch : Choice n}
    (h : (code s me ch P).apply s c t = .ok s') : Acts s me P (code s me ch P) := by
  obtain ⟨e, he⟩ : ∃ e, e = code s me ch P := ⟨_, rfl⟩
  rw [← he] at h ⊢
  cases P with
  | kern held =>
    simp only [code] at he
    split at he <;> (try split at he) <;> (try split at he) <;> subst he <;> try subst held
    all_goals first
      | (cases h; done)
      | (constructor <;> assumption)
  | sleep stage x =>
    cases stage <;> cases me <;> simp only [code] at he <;> (try split at he) <;> subst he
    all_goals first
      | (cases h; done)
      | (constructor <;> assumption)
  | yield stage =>
    cases stage <;> cases me <;> simp only [code] at he <;> subst he
    all_goals first
      | (cases h; done)
      | constructor
  | wakeupTest chan q start ret =>
    simp only [code] at he
    split at he <;> subst he
    · exact .wakeupSet (And.left ‹_›) (And.right ‹_›)
    · exact .wakeupSkip ‹_›
  | killUnlock pid q found =>
    subst he
    constructor
  | waitScan i havekids addr =>
    simp only [code] at he
    split at he
    · rename_i hi
      split at he <;> subst he
      · exact .waitChild rfl ‹_›
      · exact .waitSkip (q := ⟨i, hi⟩) rfl ‹_›
    · cases havekids <;> subst he
      · exact .waitNobody (by omega)
      · exact .waitMore (by omega)
  | waitTest q addr =>
    simp only [code] at he
    split at he
    · split at he
      · split at he <;> subst he
        · exact .waitFail ‹_›
        · exact .waitFound ‹_›
      · subst he
        cases h
    · subst he
      exact .waitAlive ‹_›
  | reparent i status =>
    cases me with
    | none =>
      subst he
      cases h
    | some p =>
      simp only [code] at he
      split at he
      · rename_i hi
        split at he <;> subst he
        · exact .reparent rfl ‹_›
        · exact .reparentSkip (q := ⟨i, hi⟩) rfl ‹_›
      · split at he <;> subst he
        · exact .exitWakeup (by omega) ‹_›
        · exact .exitAlone (by omega) ‹_›
  | waitKilledUnlock addr k =>
    cases k <;> cases me <;> subst he
    all_goals first
      | (cases h; done)
      | constructor
  | allocMem q =>
    simp only [code] at he
    split at he
    · split at he
      · subst he
        exact .memNone
      · split at he <;> subst he
        · subst_vars
          exact .memFail
        · exact .mem
    · subst he
      cases h
  | _ =>
    simp only [code] at he
    (try split at he) <;> (try split at he) <;> (try subst he) <;> (try subst me)
    all_goals first
      | (cases h; done)
      | (constructor <;> first | assumption | rfl | omega)

namespace State

variable (s : State n m)

/-- The process whose context the CPU is using, or is going to use. -/
def inUse (c : Fin m) : Option (Fin n) :=
  match (s.cur c).1 with
  | .proc p => some p
  | .cpu _ => (s.pos (s.cur c).1).uses

def here (c : Fin m) : Pos n := s.pos (s.cur c).1

end State

inductive CpuOk (s : State n m) (c : Fin m) : Prop
  | sched (b : Bool) (hcur : s.cur c = (.cpu c, b)) (hproc : s.cproc c = (s.pos (.cpu c)).cproc)
      (hload : b = true → ∃ q, s.pos (.cpu c) = .schedBack q)
  | proc (p : Fin n) (b : Bool) (hcur : s.cur c = (.proc p, b)) (hproc : s.cproc c = some p)
      (hback : s.pos (.cpu c) = .schedBack p)
      (hload : b = true → (s.pos (.proc p)).resumes = true ∧ s.saved (.proc p) = true)

def Proc.live (x : Proc n) : Bool :=
  match x.state with
  | .RUNNABLE | .RUNNING | .SLEEPING => true
  | _ => false

structure Inv (s : State n m) : Prop where
  ofCpu : ∀ c, (s.pos (.cpu c)).ofCpu = true
  ofProc : ∀ p, (s.pos (.proc p)).ofProc = true
  cpu : ∀ c, CpuOk s c
  locks : ∀ c l, s.lock l = some c ↔ l ∈ (s.here c).locks (s.cur c).1
  uniq : ∀ c c' p, s.inUse c = some p → s.inUse c' = some p → c = c'
  state : ∀ c p, s.inUse c = some p → (s.here c).Left (s.proc p).state
  saved : ∀ p, (s.proc p).live = true → (∃ c, s.cur c = (.proc p, false)) ∨
    (s.pos (.proc p)).resumes = true ∧ s.saved (.proc p) = true
  forks : ∀ t q, (s.pos t).forks = some q → (s.proc q).state = .USED ∧
    ((s.pos t).ready = true → s.pos (.proc q) = .forkret ∧ s.saved (.proc q) = true)
  forker : ∀ t t' q, (s.pos t).forks = some q → (s.pos t').forks = some q → t = t'
  frees : ∀ c q pid stored, s.here c = .waitFree q pid stored → (s.proc q).state = .ZOMBIE

section

variable {s s' : State n m} {c c' : Fin m} {t : Thr n m} {p q : Fin n} {P' : Pos n}

theorem State.inUse_proc (h : (s.cur c).1 = .proc p) : s.inUse c = some p := by
  simp [State.inUse, h]

theorem State.inUse_cpu {d : Fin m} (h : (s.cur c).1 = .cpu d) : s.inUse c = (s.pos (.cpu d)).uses := by
  simp [State.inUse, h]

theorem Inv.leaves_lock (hI : Inv s) (hl : (s.here c).leaves = true) (hu : s.inUse c = some p) :
    s.lock (.proc p) = some c := by
  rw [hI.locks]
  unfold State.here at *
  cases ht : (s.cur c).1 with
  | proc r =>
    rw [State.inUse_proc ht] at hu
    obtain rfl := Option.some.inj hu
    rw [ht] at hl
    have hproc := hI.ofProc r
    revert hl hproc
    cases s.pos (.proc r) with
    | sleep stage x => cases stage <;> simp [Pos.leaves, Pos.locks, Thr.own]
    | yield stage => cases stage <;> simp [Pos.leaves, Pos.locks, Thr.own]
    | _ => simp [Pos.leaves, Pos.locks, Thr.own, Pos.ofProc]
  | cpu d =>
    rw [State.inUse_cpu ht] at hu
    rw [ht] at hl
    revert hl hu
    cases s.pos (.cpu d) <;> simp [Pos.leaves, Pos.locks, Pos.uses]
    rintro rfl
    rfl

theorem Inv.running (hI : Inv s) (hu : s.inUse c = some p) (hl : (s.here c).leaves = false) :
    (s.proc p).state = .RUNNING := by
  exact Pos.left_of_not_leaves hl (hI.state c p hu)

theorem Inv.use_lock (hI : Inv s) (hu : s.inUse c = some p) (hst : (s.proc p).state ≠ .RUNNING) :
    (s.here c).leaves = true ∧ s.lock (.proc p) = some c := by
  cases hl : (s.here c).leaves with
  | true => exact ⟨rfl, hI.leaves_lock hl hu⟩
  | false => exact absurd (hI.running hu hl) hst

/-- A process that is not running, and whose lock is held by a CPU at a point where it does not give up a process, is in use
by nobody. -/
theorem Inv.unused (hI : Inv s) (hlock : s.lock (.proc p) = some c) (hl : (s.here c).leaves = false)
    (hst : (s.proc p).state ≠ .RUNNING) (c' : Fin m) : s.inUse c' ≠ some p := by
  intro hu
  obtain ⟨hleaves, hlock'⟩ := hI.use_lock hu hst
  obtain rfl : c = c' := Option.some.inj (hlock.symm.trans hlock')
  rw [hl] at hleaves
  cases hleaves

theorem Inv.unused_of_state (hI : Inv s) (hst : (s.proc p).state = .USED ∨ (s.proc p).state = .UNUSED) (c : Fin m) :
    s.inUse c ≠ some p := by
  intro hu
  have h := Pos.left_ne (hI.state c p hu)
  rcases hst with hst | hst
  · exact h.1 hst
  · exact h.2 hst

theorem Inv.thread_ne (hI : Inv s) (hne : c' ≠ c) : (s.cur c').1 ≠ (s.cur c).1 := by
  intro heq
  cases hI.cpu c with
  | sched b hcur =>
    cases hI.cpu c' with
    | sched b' hcur' =>
      rw [hcur, hcur'] at heq
      exact hne (Thr.cpu.inj heq)
    | proc p b' hcur' =>
      rw [hcur, hcur'] at heq
      cases heq
  | proc p b hcur =>
    have hu : s.inUse c = some p := State.inUse_proc (by rw [hcur])
    have hu' : s.inUse c' = some p := State.inUse_proc (by rw [heq, hcur])
    exact hne (hI.uniq c' c p hu' hu)

theorem Proc.live_congr {x y : Proc n} (h : x.state = y.state) : x.live = y.live := by
  unfold Proc.live
  rw [h]

def Pos.Fits (P : Pos n) : Thr n m → Prop
  | .proc _ => P.ofProc = true
  | .cpu _ => P.ofCpu = true

/-- What a step of CPU `c`, with thread `t`, may do: of the other threads and CPUs it changes no more than the states of processes
that they do not use. -/
structure Moves (s s' : State n m) (c : Fin m) (t : Thr n m) : Prop where
  other : ∀ c', c' ≠ c → s'.cur c' = s.cur c' ∧ s'.cproc c' = s.cproc c'
  pos : ∀ t', t' ≠ t → s'.pos t' = s.pos t'
  saved : ∀ t', t' ≠ t → s'.saved t' = s.saved t'
  fits : (s'.pos t).Fits t
  cpu : CpuOk s' c
  lock : ∀ c' l, s'.lock l = some c' ↔ if c' = c then l ∈ (s'.here c).locks (s'.cur c).1 else s.lock l = some c'
  use : ∀ p, s'.inUse c = some p → s.inUse c = some p ∨ ∀ c', s.inUse c' ≠ some p
  state : ∀ p, s'.inUse c = some p → (s'.here c).Left (s'.proc p).state
  keeps : ∀ c' q, c' ≠ c → s.inUse c' = some q → (s'.proc q).state = (s.proc q).state
  own : ∀ p, t = .proc p → (s'.proc p).live = true → (∃ c, s'.cur c = (.proc p, false)) ∨ (s'.pos t).resumes = true ∧ s'.saved t = true
  live : ∀ q, Thr.proc q ≠ t → (s'.proc q).live = true → (s.proc q).live = true ∨ (s.pos t).forks = some q ∧ (s.pos t).ready = true
  used : ∀ t' q, t' ≠ t → (s.pos t').forks = some q → (s'.proc q).state = .USED
  forks : ∀ q, (s'.pos t).forks = some q → (s'.proc q).state = .USED ∧
    ((s.pos t).forks = some q ∧ ((s'.pos t).ready = true → (s.pos t).ready = true ∨
      s.pos (.proc q) = .forkret ∧ s.saved (.proc q) = true) ∨ (s.proc q).state = .UNUSED ∧ (s'.pos t).ready = false)
  frees : ∀ q pid stored, s'.here c = .waitFree q pid stored → (s'.proc q).state = .ZOMBIE
  zombie : ∀ c' q pid stored, c' ≠ c → s.here c' = .waitFree q pid stored → (s'.proc q).state = .ZOMBIE

section Moves

variable (hI : Inv s) (hcur : (s.cur c).1 = t)

include hI hcur

theorem Inv.other_thread (hc : c' ≠ c) : (s.cur c').1 ≠ t := hcur ▸ hI.thread_ne hc

theorem Inv.other_cpu (hc : c' ≠ c) : Thr.cpu c' ≠ t := by
  rintro rfl
  cases hI.cpu c with
  | sched b hcur' =>
    rw [hcur'] at hcur
    exact hc (Thr.cpu.inj hcur).symm
  | proc p b hcur' =>
    rw [hcur'] at hcur
    cases hcur

/-- A process that is being made is not the one that runs. -/
theorem Inv.used_thread (hst : (s.proc q).state = .USED) : Thr.proc q ≠ t := fun heq =>
  hI.unused_of_state (.inl hst) c (State.inUse_proc (by rw [hcur, heq]))

section

variable (h : Moves s s' c t)
include h

theorem Moves.here (hc : c' ≠ c) : s'.here c' = s.here c' := by
  unfold State.here
  rw [(h.other c' hc).1, h.pos _ (hI.other_thread hcur hc)]

theorem Moves.inUse (hc : c' ≠ c) : s'.inUse c' = s.inUse c' := by
  unfold State.inUse
  rw [(h.other c' hc).1, h.pos _ (hI.other_thread hcur hc)]

theorem Moves.cpuOk (c' : Fin m) : CpuOk s' c' := by
  by_cases hc : c' = c
  · exact hc ▸ h.cpu
  have hd := hI.other_cpu hcur hc
  cases hI.cpu c' with
  | sched b hcur' hproc hload =>
    refine .sched b (by rw [(h.other c' hc).1, hcur']) ?_ ?_ <;> rw [h.pos _ hd]
    · rw [(h.other c' hc).2, hproc]
    · exact hload
  | proc p b hcur' hproc hback hload =>
    refine .proc p b (by rw [(h.other c' hc).1, hcur']) (by rw [(h.other c' hc).2, hproc]) (by rw [h.pos _ hd, hback]) ?_
    have hp : Thr.proc p ≠ t := by
      have := hI.other_thread hcur hc
      rwa [hcur'] at this
    rw [h.pos _ hp, h.saved _ hp]
    exact hload

theorem Moves.uniq {c1 c2 : Fin m} (h1 : s'.inUse c1 = some p) (h2 : s'.inUse c2 = some p) : c1 = c2 := by
  have hother : ∀ {d}, d ≠ c → s'.inUse c = some p → s'.inUse d = some p → c = d := fun {d} hd hc hu => by
    rw [h.inUse hI hcur hd] at hu
    rcases h.use p hc with hc | hno
    · exact hI.uniq c d p hc hu
    · exact absurd hu (hno d)
  by_cases e1 : c1 = c
  · by_cases e2 : c2 = c
    · rw [e1, e2]
    · subst e1
      exact hother e2 h1 h2
  · by_cases e2 : c2 = c
    · subst e2
      exact (hother e1 h2 h1).symm
    · rw [h.inUse hI hcur e1] at h1
      rw [h.inUse hI hcur e2] at h2
      exact hI.uniq c1 c2 p h1 h2

theorem Moves.saves (hlive : (s'.proc q).live = true) :
    (∃ c, s'.cur c = (.proc q, false)) ∨ (s'.pos (.proc q)).resumes = true ∧ s'.saved (.proc q) = true := by
  by_cases ht : Thr.proc q = t
  · subst ht
    exact h.own q rfl hlive
  rw [h.pos _ ht, h.saved _ ht]
  rcases h.live q ht hlive with hold | ⟨hf, hr⟩
  · rcases hI.saved q hold with ⟨c', hc'⟩ | hsv
    · have hc : c' ≠ c := by
        rintro rfl
        rw [hc'] at hcur
        exact ht hcur
      exact .inl ⟨c', by rw [(h.other c' hc).1, hc']⟩
    · exact .inr hsv
  · obtain ⟨hpos, hsv⟩ := (hI.forks t q hf).2 hr
    exact .inr ⟨by rw [hpos]; rfl, hsv⟩

theorem Moves.child {t' : Thr n m} (hf : (s'.pos t').forks = some q) : (s'.proc q).state = .USED ∧
    ((s'.pos t').ready = true → s'.pos (.proc q) = .forkret ∧ s'.saved (.proc q) = true) := by
  by_cases ht : t' = t
  · subst ht
    obtain ⟨hst, hcase⟩ := h.forks q hf
    refine ⟨hst, fun hr => ?_⟩
    rcases hcase with ⟨hold, hready⟩ | ⟨-, hno⟩
    · obtain ⟨hused, hctx⟩ := hI.forks t' q hold
      have hq := hI.used_thread hcur hused
      rw [h.pos _ hq, h.saved _ hq]
      exact (hready hr).elim hctx id
    · rw [hno] at hr
      cases hr
  · rw [h.pos _ ht] at hf ⊢
    obtain ⟨hused, hctx⟩ := hI.forks t' q hf
    have hq := hI.used_thread hcur hused
    rw [h.pos _ hq, h.saved _ hq]
    exact ⟨h.used t' q ht hf, hctx⟩

theorem Moves.forker {t1 t2 : Thr n m} (h1 : (s'.pos t1).forks = some q) (h2 : (s'.pos t2).forks = some q) :
    t1 = t2 := by
  -- only a new child is not already the child of a call
  have hnew : ∀ {t'}, t' ≠ t → (s'.pos t').forks = some q → (s'.pos t).forks = some q → t' = t := fun {t'} ht hf hf' => by
    rw [h.pos _ ht] at hf
    rcases (h.forks q hf').2 with ⟨hold, -⟩ | ⟨hunused, -⟩
    · exact hI.forker t' t q hf hold
    · have := (hI.forks t' q hf).1
      rw [hunused] at this
      cases this
  by_cases e1 : t1 = t
  · by_cases e2 : t2 = t
    · rw [e1, e2]
    · subst e1
      exact (hnew e2 h2 h1).symm
  · by_cases e2 : t2 = t
    · subst e2
      exact hnew e1 h1 h2
    · rw [h.pos _ e1] at h1
      rw [h.pos _ e2] at h2
      exact hI.forker t1 t2 q h1 h2

theorem Inv.moves : Inv s' := by
  have hfits : ∀ t', (s'.pos t').Fits t' := fun t' => by
    by_cases ht : t' = t
    · exact ht ▸ h.fits
    · rw [h.pos _ ht]
      cases t' with
      | proc p => exact hI.ofProc p
      | cpu d => exact hI.ofCpu d
  refine ⟨fun d => hfits (.cpu d), fun p => hfits (.proc p), h.cpuOk hI hcur, fun c' l => ?_, fun _ _ _ => h.uniq hI hcur, fun c' p hu => ?_,
    fun _ => h.saves hI hcur, fun _ _ => h.child hI hcur, fun _ _ _ => h.forker hI hcur, fun c' q pid stored hfree => ?_⟩
  · rw [h.lock]
    by_cases hc : c' = c
    · rw [if_pos hc, hc]
    · rw [if_neg hc, h.here hI hcur hc, (h.other c' hc).1]
      exact hI.locks c' l
  · by_cases hc : c' = c
    · subst hc
      exact h.state p hu
    · rw [h.inUse hI hcur hc] at hu
      rw [h.here hI hcur hc, h.keeps c' p hc hu]
      exact hI.state c' p hu
  · by_cases hc : c' = c
    · subst hc
      exact h.frees q pid stored hfree
    · rw [h.here hI hcur hc] at hfree
      exact h.zombie c' q pid stored hc hfree

end

end Moves

structure Foreign (s s' : State n m) (t : Thr n m) (P' : Pos n) (q : Fin n) : Prop where
  lock : .proc q ∈ (s.pos t).locks t
  stays : (s.pos t).leaves = false
  state : (s.proc q).state ≠ .RUNNING
  used : (s.proc q).state = .USED → (s.pos t).forks = some q ∧ P'.forks = none
  live : (s'.proc q).live = true → (s.proc q).live = true ∨ (s.pos t).forks = some q ∧ (s.pos t).ready = true

/-- A step of thread `t` that goes on at `P'` on the same CPU. -/
structure Goes (s s' : State n m) (c : Fin m) (t : Thr n m) (P' : Pos n) : Prop where
  cur : s'.cur = s.cur
  cproc : s'.cproc = s.cproc
  pos : s'.pos = Function.update s.pos t P'
  saved : s'.saved = s.saved
  lock : ∀ c' l, s'.lock l = some c' ↔ if c' = c then l ∈ P'.locks t else s.lock l = some c'
  fits : P'.Fits t
  cpu : ∀ d, t = .cpu d → P'.uses = (s.pos t).uses ∧ (∀ x, (s.pos t).Left x → P'.Left x) ∧ P'.cproc = (s.pos t).cproc
  own : ∀ p, t = .proc p → P'.Left (s'.proc p).state
  state : ∀ q, (s'.proc q).state = (s.proc q).state ∨ t = .proc q ∨ Foreign s s' t P' q
  forks : ∀ q, P'.forks = some q → (s'.proc q).state = .USED ∧
    ((s.pos t).forks = some q ∧ (P'.ready = true → (s.pos t).ready = true ∨
      s.pos (.proc q) = .forkret ∧ s.saved (.proc q) = true) ∨ (s.proc q).state = .UNUSED ∧ P'.ready = false)
  frees : ∀ q pid stored, P' = .waitFree q pid stored → (s'.proc q).state = .ZOMBIE

theorem Goes.here (h : Goes s s' c t P') (hcur : s.cur c = (t, false)) : s'.here c = P' := by
  unfold State.here
  rw [h.cur, hcur, h.pos, Function.update_self]

/-- A process that is being changed by thread `t` with its lock held is in use by nobody. -/
theorem Foreign.unused (h : Foreign s s' t P' q) (hI : Inv s) (hcur : s.cur c = (t, false)) (c' : Fin m) :
    s.lock (.proc q) = some c ∧ s.inUse c' ≠ some q := by
  have hhc : s.here c = s.pos t := by
    unfold State.here
    rw [hcur]
  have hlock : s.lock (.proc q) = some c := by
    rw [hI.locks, hhc, hcur]
    exact h.lock
  exact ⟨hlock, hI.unused hlock (by rw [hhc]; exact h.stays) h.state c'⟩

theorem Inv.goes (hI : Inv s) (hcur : s.cur c = (t, false)) (h : Goes s s' c t P') : Inv s' := by
  have hc1 : (s.cur c).1 = t := by rw [hcur]
  have hposne : ∀ t', t' ≠ t → s'.pos t' = s.pos t' := fun t' ht => by rw [h.pos, Function.update_of_ne ht]
  have hposeq : s'.pos t = P' := by rw [h.pos, Function.update_self]
  have huse : s'.inUse c = s.inUse c := by
    unfold State.inUse
    rw [h.cur, hcur]
    cases t with
    | proc p => rfl
    | cpu d => exact (by rw [hposeq]; exact (h.cpu d rfl).1)
  refine hI.moves hc1 ⟨fun c' _ => ⟨by rw [h.cur], by rw [h.cproc]⟩, hposne, fun _ _ => by rw [h.saved], hposeq ▸ h.fits, ?ok, fun c' l => ?lock,
    fun p hp => .inl (huse ▸ hp), fun p hu => ?state, fun c' q hc hu => ?keeps, ?own, fun q ht hlive => ?live, fun t' q ht hf => ?used,
    fun q hf => ?forks, ?frees, fun c' q pid stored hc hfree => ?zombie⟩
  case ok =>
    cases hI.cpu c with
    | sched b hcur' hproc =>
      rw [hcur] at hcur'
      obtain ⟨rfl, rfl⟩ := Prod.mk.inj hcur'
      refine .sched false (by rw [h.cur, hcur]) ?_ (by simp)
      rw [h.cproc, hproc, hposeq, (h.cpu c rfl).2.2]
    | proc p b hcur' hproc hback =>
      rw [hcur] at hcur'
      obtain ⟨rfl, rfl⟩ := Prod.mk.inj hcur'
      exact .proc p false (by rw [h.cur, hcur]) (by rw [h.cproc, hproc]) (by rw [hposne (.cpu c) (by simp), hback]) (by simp)
  case lock => rw [h.lock, h.here hcur, h.cur, hcur]
  case state =>
    rw [huse] at hu
    rw [h.here hcur]
    cases t with
    | proc r =>
      rw [State.inUse_proc hc1] at hu
      obtain rfl := Option.some.inj hu
      exact h.own r rfl
    | cpu d =>
      have hst := hI.state c p hu
      rw [State.here, hcur] at hst
      refine (h.cpu d rfl).2.1 _ ?_
      rcases h.state p with heq | heq | hf
      · rwa [heq]
      · cases heq
      · exact absurd (Pos.left_of_not_leaves hf.stays hst) hf.state
  case keeps =>
    rcases h.state q with heq | heq | hf
    · exact heq
    · exact absurd (hI.uniq c' c q hu (State.inUse_proc (hc1.trans heq))) hc
    · exact absurd hu (hf.unused hI hcur c').2
  case own =>
    rintro p rfl -
    exact .inl ⟨c, by rw [h.cur, hcur]⟩
  case live =>
    rcases h.state q with heq | heq | hf
    · exact .inl (by rwa [← Proc.live_congr heq])
    · exact absurd heq.symm ht
    · exact hf.live hlive
  case used =>
    have hused := (hI.forks t' q hf).1
    rcases h.state q with heq | heq | hfor
    · rwa [heq]
    · exact absurd heq.symm (hI.used_thread hc1 hused)
    · exact absurd (hI.forker t' t q hf (hfor.used hused).1) ht
  case forks =>
    rw [hposeq] at hf ⊢
    exact h.forks q hf
  case frees =>
    rw [h.here hcur]
    exact h.frees
  case zombie =>
    have hz := hI.frees c' q pid stored hfree
    have hlock : s.lock (.proc q) = some c' := by
      rw [hI.locks, hfree]
      simp [Pos.locks]
    rcases h.state q with heq | heq | hf
    · rwa [heq]
    · have hu : s.inUse c = some q := State.inUse_proc (hc1.trans heq)
      exact absurd hu (hI.unused hlock (by rw [hfree]; rfl) (by rw [hz]; simp) c)
    · exact absurd (Option.some.inj (hlock.symm.trans (hf.unused hI hcur c).1)) hc

end

end Xv6.Sched
