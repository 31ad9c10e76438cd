import Xv6.Pipe.Code

/-!
# The moves of the pipe system

`Move s e s'` lists, once and for all, what an event can do to the pipe, its lock and the processes (`next_move`). The
invariants of the other modules are proved by cases on it.
-/

namespace Xv6.Pipe

open Run

variable {n : Nat}

section

variable {s : State n} {p q : Fin n}

theorem State.task_set (t : Task) : (s.set p t).task q = if q = p then t else s.task q :=
  Function.update_apply ..

@[simp] theorem State.task_goto (pc : Pc) :
    (s.goto p pc).task q = if q = p then { s.task p with pc := pc } else s.task q := task_set _

@[simp] theorem State.task_leave :
    (s.leave p).task q = if q = p then { s.task p with pc := .user } else s.task q := task_set _

@[simp] theorem State.task_sleep (c : Chan) (pc : Pc) :
    (s.sleep p c pc).task q = if q = p then { s.task p with pc := pc, state := .falling c } else s.task q :=
  task_set _

theorem State.wake_eq (c : Chan) : s.wake c q = { s with task := (s.wake c q).task } := by
  unfold State.wake
  split <;> rfl

@[simp] theorem State.wake_buf (c : Chan) : (s.wake c q).buf = s.buf := by rw [wake_eq]

@[simp] theorem State.wake_lock (c : Chan) : (s.wake c q).lock = s.lock := by rw [wake_eq]

@[simp] theorem State.wake_written (c : Chan) : (s.wake c q).written = s.written := by rw [wake_eq]

@[simp] theorem State.wake_taken (c : Chan) : (s.wake c q).taken = s.taken := by rw [wake_eq]

@[simp] theorem State.wake_reported (c : Chan) : (s.wake c q).reported = s.reported := by rw [wake_eq]

theorem State.task_wake (c : Chan) : (s.wake c q).task p =
    if p = q ∧ (s.task q).state = .SLEEPING c then { s.task q with state := .awake } else s.task p := by
  unfold State.wake
  by_cases h : (s.task q).state = .SLEEPING c
  · simp [h, task_set]
  · simp [h]

@[simp] theorem State.wake_pc (c : Chan) : ((s.wake c q).task p).pc = (s.task p).pc := by
  rw [task_wake]
  split
  next h => rw [h.1]
  next => rfl

@[simp] theorem State.wake_killed (c : Chan) : ((s.wake c q).task p).killed = (s.task p).killed := by
  rw [task_wake]
  split
  next h => rw [h.1]
  next => rfl

theorem State.wake_of_awake (c : Chan) (h : (s.task q).state = .awake) : s.wake c q = s := by
  unfold State.wake
  rw [h]
  rfl

end

/-! ### The moves -/

/-- `pc` is in a loop of `wakeup(chan)` at process `k`, and `pc'` is the same place at the next process. -/
inductive Pc.Wakes : Pc → Chan → Nat → Pc → Prop
  | wFull (c : WriteCall) (i k : Nat) : Wakes (.wFull c i k) .nread k (.wFull c i (k + 1))
  | wDone (i k : Nat) : Wakes (.wDone i k) .nread k (.wDone i (k + 1))
  | rDone (got : List UInt8) (k : Nat) : Wakes (.rDone got k) .nwrite k (.rDone got (k + 1))
  | cWake (writable : Bool) (k : Nat) : Wakes (.cWake writable k) (closeChan writable) k (.cWake writable (k + 1))

/-- A loop of `wakeup` has seen all processes and the call returns. -/
inductive Pc.Returns (n : Nat) : Pc → Prop
  | wDone (i k : Nat) (h : n ≤ k) : Returns n (.wDone i k)
  | cWake (writable : Bool) (k : Nat) (h : n ≤ k) : Returns n (.cWake writable k)

inductive Pc.Starts : Pc → Prop
  | write (c : WriteCall) : Starts (.wAcquire c 0)
  | read (c : ReadCall) : Starts (.rAcquire c)
  | close (writable : Bool) : Starts (.cAcquire writable)

def Event.IsCall : Event n → Prop
  | .write .. | .read .. | .close .. => True
  | .step _ | .kill _ | .reuse _ => False

def Buf.Empty (b : Buf) : Prop := b.nread = b.nwrite

def Buf.Full (b : Buf) : Prop := b.nwrite = b.nread + BitVec.ofNat 32 PIPESIZE

/-- What the event `e` can do in the state `s`. -/
inductive Move (s : State n) : Event n → State n → Prop
  | call {e p pc} (he : e.IsCall) (hu : (s.task p).pc = .user) (hs : pc.Starts) : Move s e (s.goto p pc)
  | kill {p} (hf : ∀ c, (s.task p).state ≠ .falling c) :
      Move s (.kill p) (s.set p { s.task p with killed := true, state := .awake })
  | reuse {p} (hu : (s.task p).pc = .user) : Move s (.reuse p) (s.set p { s.task p with killed := false })
  | fall {p c} (hf : (s.task p).state = .falling c) :
      Move s (.step p) (s.set p { s.task p with state := .SLEEPING c })
  | lockWrite {p c i} (ha : (s.task p).state = .awake) (hpc : (s.task p).pc = .wAcquire c i) (hl : s.lock = none) :
      Move s (.step p) { s.goto p (.wLoop c i i) with lock := some p }
  | lockRead {p c} (ha : (s.task p).state = .awake) (hpc : (s.task p).pc = .rAcquire c) (hl : s.lock = none) :
      Move s (.step p) { s.goto p (.rWait c) with lock := some p }
  | lockClose {p w} (ha : (s.task p).state = .awake) (hpc : (s.task p).pc = .cAcquire w) (hl : s.lock = none) :
      Move s (.step p) (State.pipecloseFlag { s.goto p (.cWake w 0) with lock := some p } w)
  | quitWrite {p c i0 i} (ha : (s.task p).state = .awake) (hpc : (s.task p).pc = .wLoop c i0 i)
      (hlt : (i : Int) < c.n) (hq : s.buf.readopen = false ∨ (s.task p).killed = true) :
      Move s (.step p) (s.leave p)
  | full {p c i0 i} (ha : (s.task p).state = .awake) (hpc : (s.task p).pc = .wLoop c i0 i)
      (ho : s.buf.readopen = true) (hk : (s.task p).killed = false) (hf : s.buf.Full) :
      Move s (.step p) (s.goto p (.wFull c i 0))
  | endWrite {p c i0 i} (ha : (s.task p).state = .awake) (hpc : (s.task p).pc = .wLoop c i0 i) :
      Move s (.step p) (s.goto p (.wDone i 0))
  | put {p c i0 i ch} (ha : (s.task p).state = .awake) (hpc : (s.task p).pc = .wLoop c i0 i)
      (ho : s.buf.readopen = true) (hk : (s.task p).killed = false) (hf : ¬ s.buf.Full) (hsrc : c.src i = some ch) :
      Move s (.step p)
        { s.goto p (.wLoop c i0 (i + 1)) with buf := s.buf.put ch, written := s.written ++ [ch] }
  | wake {p pc pc' c k} (ha : (s.task p).state = .awake) (hpc : (s.task p).pc = pc) (hw : pc.Wakes c k pc')
      (hk : k < n) (hf : ∀ c', (s.task ⟨k, hk⟩).state ≠ .falling c') :
      Move s (.step p) ((s.wake c ⟨k, hk⟩).goto p pc')
  | sleepWrite {p c i k} (ha : (s.task p).state = .awake) (hpc : (s.task p).pc = .wFull c i k) (hk : n ≤ k) :
      Move s (.step p) (s.sleep p .nwrite (.wAcquire c i))
  | leave {p pc} (ha : (s.task p).state = .awake) (hpc : (s.task p).pc = pc) (hr : pc.Returns n) :
      Move s (.step p) (s.leave p)
  | report {p got k} (ha : (s.task p).state = .awake) (hpc : (s.task p).pc = .rDone got k) (hk : n ≤ k) :
      Move s (.step p) { s.leave p with reported := s.reported ++ got }
  | quitRead {p c} (ha : (s.task p).state = .awake) (hpc : (s.task p).pc = .rWait c) : Move s (.step p) (s.leave p)
  | sleepRead {p c} (ha : (s.task p).state = .awake) (hpc : (s.task p).pc = .rWait c) (he : s.buf.Empty)
      (ho : s.buf.writeopen = true) : Move s (.step p) (s.sleep p .nread (.rAcquire c))
  | startRead {p c} (ha : (s.task p).state = .awake) (hpc : (s.task p).pc = .rWait c) :
      Move s (.step p) (s.goto p (.rLoop c 0 []))
  | endRead {p c i got} (ha : (s.task p).state = .awake) (hpc : (s.task p).pc = .rLoop c i got)
      (hend : ¬ (i : Int) < c.n ∨ s.buf.Empty) : Move s (.step p) (s.goto p (.rDone got 0))
  | take {p c i got} (ha : (s.task p).state = .awake) (hpc : (s.task p).pc = .rLoop c i got)
      (hlt : (i : Int) < c.n) (he : ¬ s.buf.Empty) (hd : c.dst i = true) :
      Move s (.step p)
        { s.goto p (.rLoop c (i + 1) (got ++ [s.buf.data (s.buf.nread.toNat % PIPESIZE)])) with
          buf := s.buf.take, taken := s.taken ++ [s.buf.data (s.buf.nread.toNat % PIPESIZE)] }
  | lose {p c i got} (ha : (s.task p).state = .awake) (hpc : (s.task p).pc = .rLoop c i got)
      (hlt : (i : Int) < c.n) (he : ¬ s.buf.Empty) (hd : c.dst i = false) :
      Move s (.step p)
        { s.goto p (.rDone got 0) with
          buf := s.buf.take, taken := s.taken ++ [s.buf.data (s.buf.nread.toNat % PIPESIZE)] }

section

variable {s s' fin : State n} {e : Event n} {p : Fin n} {next : Nat → Pc} {i i0 : Nat} {c : ReadCall}

theorem wakeup_cases {c : Chan} {k : Nat}
    (ha : (s.task p).state = .awake) (h : s.wakeup p c k next fin = .ok s') :
    (∃ hk : k < n, (∀ c', (s.task ⟨k, hk⟩).state ≠ .falling c') ∧ s' = (s.wake c ⟨k, hk⟩).goto p (next (k + 1))) ∨
      n ≤ k ∧ s' = fin := by
  unfold State.wakeup at h
  split at h
  next hk =>
    left
    split at h
    next heq =>
      rw [Except.ok.injEq] at h
      refine ⟨hk, ?_, ?_⟩
      · rw [heq, ha]
        simp
      · rw [heq, State.wake_of_awake c ha, h]
    next =>
      split at h
      next => cases h
      next hf =>
        rw [Except.ok.injEq] at h
        exact ⟨hk, fun c' hc => hf c' hc, h.symm⟩
  next hk =>
    rw [Except.ok.injEq] at h
    exact .inr ⟨by omega, h.symm⟩

theorem acquire_cases {pc : Pc} (h : s.acquire p pc = .ok s') :
    s.lock = none ∧ s' = { s.goto p pc with lock := some p } := by
  unfold State.acquire at h
  split at h
  next hl =>
    rw [Except.ok.injEq] at h
    exact ⟨hl, h.symm⟩
  next => cases h

theorem call_move {pc : Pc} (he : e.IsCall) (hs : pc.Starts) (h : s.call p pc = .ok s') : Move s e s' := by
  unfold State.call at h
  split at h
  next hu =>
    rw [Except.ok.injEq] at h
    subst h
    exact .call he hu hs
  next => cases h

section

variable (ha : (s.task p).state = .awake)
include ha

theorem pipewriteLoop_move {c : WriteCall} (hpc : (s.task p).pc = .wLoop c i0 i) : Move s (.step p) (s.pipewriteLoop p c i0 i) := by
  unfold State.pipewriteLoop
  split
  next hlt =>
    split
    next hq => exact .quitWrite ha hpc hlt (by simpa using hq)
    next hq =>
      simp only [Bool.or_eq_true, Bool.not_eq_true', not_or, Bool.not_eq_true, Bool.not_eq_false] at hq
      split
      next hf => exact .full ha hpc hq.1 hq.2 hf
      next hf =>
        split
        next => exact .endWrite ha hpc
        next hsrc => exact .put ha hpc hq.1 hq.2 hf hsrc
  next => exact .endWrite ha hpc

theorem pipereadWait_move (hpc : (s.task p).pc = .rWait c) : Move s (.step p) (s.pipereadWait p c) := by
  unfold State.pipereadWait
  split
  next h =>
    split
    next => exact .quitRead ha hpc
    next => exact .sleepRead ha hpc h.1 h.2
  next => exact .startRead ha hpc

theorem pipereadLoop_move {got : List UInt8} (hpc : (s.task p).pc = .rLoop c i got) : Move s (.step p) (s.pipereadLoop p c i got) := by
  unfold State.pipereadLoop
  split
  next hlt =>
    split
    next he => exact .endRead ha hpc (.inr he)
    next he =>
      by_cases hd : c.dst i = true
      · simp only [hd, if_true]
        exact .take ha hpc hlt he hd
      · simp only [hd]
        exact .lose ha hpc hlt he (by simpa using hd)
  next hlt => exact .endRead ha hpc (.inl hlt)

theorem wakeup_move {c : Chan} {k : Nat} (hpc : (s.task p).pc = next k) (hw : (next k).Wakes c k (next (k + 1)))
    (hfin : n ≤ k → Move s (.step p) fin) (h : s.wakeup p c k next fin = .ok s') : Move s (.step p) s' := by
  rcases wakeup_cases ha h with ⟨hk, hf, rfl⟩ | ⟨hk, rfl⟩
  · exact .wake ha hpc hw hk hf
  · exact hfin hk

end

theorem step_move (h : s.step p = .ok s') : Move s (.step p) s' := by
  unfold State.step at h
  split at h
  next c hf =>
    rw [Except.ok.injEq] at h
    subst h
    exact .fall hf
  next => cases h
  next ha =>
    split at h
    next => cases h
    next c i hpc =>
      obtain ⟨hl, rfl⟩ := acquire_cases h
      exact .lockWrite ha hpc hl
    next c i0 i hpc =>
      rw [Except.ok.injEq] at h
      subst h
      exact pipewriteLoop_move ha hpc
    next c i k hpc => exact wakeup_move ha hpc (.wFull c i k) (fun hk => .sleepWrite ha hpc hk) h
    next i k hpc => exact wakeup_move ha hpc (.wDone i k) (fun hk => .leave ha hpc (.wDone i k hk)) h
    next c hpc =>
      obtain ⟨hl, rfl⟩ := acquire_cases h
      exact .lockRead ha hpc hl
    next c hpc =>
      rw [Except.ok.injEq] at h
      subst h
      exact pipereadWait_move ha hpc
    next c i got hpc =>
      rw [Except.ok.injEq] at h
      subst h
      exact pipereadLoop_move ha hpc
    next got k hpc => exact wakeup_move ha hpc (.rDone got k) (fun hk => .report ha hpc hk) h
    next w hpc =>
      cases hacq : s.acquire p (.cWake w 0) with
      | error x =>
        rw [hacq] at h
        cases h
      | ok s1 =>
        rw [hacq] at h
        obtain ⟨hl, rfl⟩ := acquire_cases hacq
        cases h
        exact .lockClose ha hpc hl
    next w k hpc => exact wakeup_move ha hpc (.cWake w k) (fun hk => .leave ha hpc (.cWake w k hk)) h

theorem next_move (h : s.next e = .ok s') : Move s e s' := by
  unfold State.next at h
  split at h
  next p c => exact call_move trivial (.write c) h
  next p c => exact call_move trivial (.read c) h
  next p w => exact call_move trivial (.close w) h
  next p => exact step_move h
  next p =>
    split at h
    next => cases h
    next hf =>
      rw [Except.ok.injEq] at h
      subst h
      exact .kill fun c hc => hf c hc
  next p =>
    split at h
    next hu =>
      rw [Except.ok.injEq] at h
      subst h
      exact .reuse hu
    next => cases h

end

theorem move_induct {I : State n → Prop} (hstep : ∀ s e s', Move s e s' → I s → I s') {es : List (Event n)} (h : run State.next s es = .ok s') (hI : I s) : I s' :=
  run_induct (fun s e s' _ hn => hstep s e s' (next_move hn)) along_true h hI

/-- The places of a call at which the process holds `pi->lock`. -/
def Pc.Holding : Pc → Prop
  | .user | .wAcquire .. | .rAcquire .. | .cAcquire .. => False
  | .wLoop .. | .wFull .. | .wDone .. | .rWait .. | .rLoop .. | .rDone .. | .cWake .. => True

/-- The lock is held by the process that is between its `acquire` and its `release`, which does not sleep. -/
structure Locks (s : State n) : Prop where
  holder : ∀ q, s.lock = some q ↔ (s.task q).pc.Holding
  awake : ∀ q, (s.task q).pc.Holding → (s.task q).state = .awake

theorem Pc.Starts.not_holding {pc : Pc} (h : pc.Starts) : ¬ pc.Holding := by
  cases h <;> exact id

theorem Pc.Wakes.holding {pc pc' : Pc} {c : Chan} {k : Nat} (h : pc.Wakes c k pc') : pc.Holding ∧ pc'.Holding := by
  cases h <;> exact ⟨trivial, trivial⟩

theorem Pc.Returns.holding {pc : Pc} (h : pc.Returns n) : pc.Holding := by
  cases h <;> trivial

section

variable {s s' : State n} {e : Event n} {p : Fin n}

theorem Locks.not_holding (h : Locks s) (hl : s.lock = none) (q : Fin n) : ¬ (s.task q).pc.Holding := by
  rw [← h.holder q, hl]
  exact nofun

theorem Locks.lock_eq (h : Locks s) {pc : Pc} (hpc : (s.task p).pc = pc) (hh : pc.Holding) : s.lock = some p :=
  (h.holder p).2 (hpc ▸ hh)

theorem Locks.keep (h : Locks s) (hl : s'.lock = s.lock)
    (hoff : ∀ q, q ≠ p → (s'.task q).pc = (s.task q).pc ∧ ((s.task q).state = .awake → (s'.task q).state = .awake))
    (hon : (s'.task p).pc.Holding ↔ (s.task p).pc.Holding)
    (haw : (s'.task p).pc.Holding → (s'.task p).state = .awake) : Locks s' := by
  refine ⟨fun q => ?_, fun q hq => ?_⟩
  · rw [hl, h.holder q]
    by_cases hqp : q = p
    · rw [hqp, hon]
    · rw [(hoff q hqp).1]
  · by_cases hqp : q = p
    · subst hqp
      exact haw hq
    · rw [(hoff q hqp).1] at hq
      exact (hoff q hqp).2 (h.awake q hq)

theorem Locks.take (h : Locks s) (hl : s.lock = none) (hl' : s'.lock = some p)
    (hoff : ∀ q, q ≠ p → s'.task q = s.task q) (hon : (s'.task p).pc.Holding)
    (haw : (s'.task p).state = .awake) : Locks s' := by
  refine ⟨fun q => ?_, fun q hq => ?_⟩
  · rw [hl', Option.some.injEq]
    by_cases hqp : q = p
    · subst hqp
      exact ⟨fun _ => hon, fun _ => rfl⟩
    · rw [hoff q hqp]
      exact ⟨fun he => absurd he.symm hqp, fun hh => absurd hh (h.not_holding hl q)⟩
  · by_cases hqp : q = p
    · rw [hqp, haw]
    · rw [hoff q hqp] at hq
      exact absurd hq (h.not_holding hl q)

theorem Locks.drop (h : Locks s) (hl : s.lock = some p) (hl' : s'.lock = none)
    (hoff : ∀ q, q ≠ p → s'.task q = s.task q) (hon : ¬ (s'.task p).pc.Holding) : Locks s' := by
  have hno : ∀ q, ¬ (s'.task q).pc.Holding := by
    intro q
    by_cases hqp : q = p
    · rwa [hqp]
    · rw [hoff q hqp, ← h.holder q, hl, Option.some.injEq]
      exact Ne.symm hqp
  exact ⟨fun q => by rw [hl']; exact ⟨nofun, fun hh => absurd hh (hno q)⟩, fun q hq => absurd hq (hno q)⟩

theorem Move.locks (hm : Move s e s') (h : Locks s) : Locks s' := by
  cases hm with
  | @call _ p pc he hu hs =>
    have hn : ¬ pc.Holding := hs.not_holding
    have hn' : ¬ (s.task p).pc.Holding := by rw [hu]; exact id
    refine h.keep (p := p) rfl (fun q hq => ?_) ?_ ?_ <;> simp_all
  | @kill p hf =>
    refine h.keep (p := p) rfl (fun q hq => ?_) ?_ ?_ <;> simp_all [State.task_set]
  | @reuse p hu =>
    refine h.keep (p := p) rfl (fun q hq => ?_) ?_ ?_ <;> simp_all [State.task_set, Pc.Holding]
  | @fall p c hf =>
    have hn : ¬ (s.task p).pc.Holding := fun hh => by simp [h.awake p hh] at hf
    refine h.keep (p := p) rfl (fun q hq => ?_) ?_ ?_ <;> simp_all [State.task_set]
  | @lockWrite p c i ha hpc hl => refine h.take (p := p) hl rfl (fun q hq => ?_) ?_ ?_ <;> simp_all [Pc.Holding]
  | @lockRead p c ha hpc hl => refine h.take (p := p) hl rfl (fun q hq => ?_) ?_ ?_ <;> simp_all [Pc.Holding]
  | @lockClose p w ha hpc hl =>
    refine h.take (p := p) hl rfl (fun q hq => ?_) ?_ ?_ <;> simp_all [State.pipecloseFlag, Pc.Holding]
  | @quitWrite p c i0 i ha hpc hlt hq =>
    refine h.drop (h.lock_eq hpc trivial) rfl (fun q hq => ?_) ?_ <;> simp_all [Pc.Holding]
  | @full p c i0 i ha hpc ho hk hf => refine h.keep (p := p) rfl (fun q hq => ?_) ?_ ?_ <;> simp_all [Pc.Holding]
  | @endWrite p c i0 i ha hpc => refine h.keep (p := p) rfl (fun q hq => ?_) ?_ ?_ <;> simp_all [Pc.Holding]
  | @put p c i0 i ch ha hpc ho hk hf hsrc =>
    refine h.keep (p := p) rfl (fun q hq => ?_) ?_ ?_ <;> simp_all [Pc.Holding]
  | @wake p pc pc' c k ha hpc hw hk hf =>
    refine h.keep (p := p) (by simp [State.goto, State.set]) (fun q hq => ?_) ?_ ?_
    · rw [State.task_goto, if_neg hq]
      refine ⟨State.wake_pc c, fun haw => ?_⟩
      rw [State.task_wake]
      split
      next => rfl
      next => exact haw
    · simp [hpc, hw.holding]
    · rw [State.task_goto, if_pos rfl, State.task_wake]
      split
      next => simp
      next => simp [ha]
  | @sleepWrite p c i k ha hpc hk =>
    refine h.drop (h.lock_eq hpc trivial) rfl (fun q hq => ?_) ?_ <;> simp_all [Pc.Holding]
  | @leave p pc ha hpc hr =>
    refine h.drop (h.lock_eq hpc hr.holding) rfl (fun q hq => ?_) ?_ <;> simp_all [Pc.Holding]
  | @report p got k ha hpc hk =>
    refine h.drop (h.lock_eq hpc trivial) rfl (fun q hq => ?_) ?_ <;> simp_all [Pc.Holding]
  | @quitRead p c ha hpc =>
    refine h.drop (h.lock_eq hpc trivial) rfl (fun q hq => ?_) ?_ <;> simp_all [Pc.Holding]
  | @sleepRead p c ha hpc he ho =>
    refine h.drop (h.lock_eq hpc trivial) rfl (fun q hq => ?_) ?_ <;> simp_all [Pc.Holding]
  | @startRead p c ha hpc => refine h.keep (p := p) rfl (fun q hq => ?_) ?_ ?_ <;> simp_all [Pc.Holding]
  | @endRead p c i got ha hpc hend => refine h.keep (p := p) rfl (fun q hq => ?_) ?_ ?_ <;> simp_all [Pc.Holding]
  | @take p c i got ha hpc hlt he hd =>
    refine h.keep (p := p) rfl (fun q hq => ?_) ?_ ?_ <;> simp_all [Pc.Holding]
  | @lose p c i got ha hpc hlt he hd =>
    refine h.keep (p := p) rfl (fun q hq => ?_) ?_ ?_ <;> simp_all [Pc.Holding]

end

theorem locks_init (data : Nat → UInt8) : Locks (init n data) :=
  ⟨fun _ => ⟨nofun, nofun⟩, fun _ _ => rfl⟩

end Xv6.Pipe
