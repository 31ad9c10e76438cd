import Xv6.Pipe.Fifo

/-!
# Sleeping on a pipe

While `pi->lock` is free a process that sleeps on the pipe has a reason to: a reader that the pipe is empty and could be written
to, a writer that it is full and could be read (`Waits`). A process that ends the reason still has the `wakeup` for it ahead
(`Pc.WillWake`), except a writer that has put bytes in and is killed: it returns without `wakeup`.
-/

namespace Xv6.Pipe

open Run

variable {n : Nat} {s s' : State n} {e : Event n} {p q : Fin n} {pc : Pc} {c c' : Chan} {k : Nat}

/-- The reason for which a process sleeps on the channel `c`. -/
def Chan.Reason (b : Buf) : Chan → Prop
  | .nread => b.Empty ∧ b.writeopen = true
  | .nwrite => b.Full ∧ b.readopen = true

def RunState.On (c : Chan) (st : RunState) : Prop := st = .falling c ∨ st = .SLEEPING c

/-- The holder of the lock has a `wakeup(c)` ahead that reaches process `q`. -/
def Pc.WillWake (c : Chan) (q : Nat) : Pc → Prop
  | .wLoop _ i0 i => c = .nread ∧ i0 < i
  | .wFull _ _ k => c = .nread ∧ k ≤ q
  | .wDone _ k => c = .nread ∧ k ≤ q
  | .rLoop .. => c = .nwrite
  | .rDone _ k => c = .nwrite ∧ k ≤ q
  | .cWake w k => c = closeChan w ∧ k ≤ q
  | _ => False

/-- What the holder of the lock knows: a writer that has put bytes in found the pipe open and was not killed, and
one that goes to sleep found the pipe full. -/
def Task.Knows (b : Buf) (t : Task) : Prop :=
  match t.pc with
  | .wLoop c i0 i => i0 ≤ i ∧ (i0 < i → b.readopen = true ∧ ((i : Int) < c.n → t.killed = false))
  | .wFull .. => b.Full ∧ b.readopen = true
  | _ => True

/-- The processes that sleep on the pipe have a reason to, or the holder of the lock will wake them up. -/
structure Waits (s : State n) : Prop where
  free : s.lock = none → ∀ q c, (s.task q).state.On c → c.Reason s.buf
  held : ∀ p, s.lock = some p → ∀ q c, (s.task q).state.On c → c.Reason s.buf ∨ (s.task p).pc.WillWake c q
  knows : ∀ p, s.lock = some p → (s.task p).Knows s.buf

/-- A kill does not hit a writer that holds the lock, has put in a byte since it acquired the lock and has more to write. -/
def State.KillsInTime (s : State n) : Event n → Prop
  | .kill p => ∀ c i0 i, (s.task p).pc = .wLoop c i0 i → i0 < i → ¬ (i : Int) < c.n
  | _ => True

def KilledInTime (s : State n) (es : List (Event n)) : Prop := Along State.next State.KillsInTime s es

/-! ### One step -/

theorem Waits.keep (h : Waits s) (hl : s'.lock = s.lock) (hb : s'.buf = s.buf)
    (hon : ∀ q c, (s'.task q).state.On c → (s.task q).state.On c)
    (hpc : ∀ p, s.lock = some p → (s'.task p).pc = (s.task p).pc)
    (hk : ∀ p, s.lock = some p → (s'.task p).Knows s.buf) : Waits s' := by
  refine ⟨fun hf q c hq => ?_, fun p hp q c hq => ?_, fun p hp => ?_⟩
  · rw [hb]
    exact h.free (hl ▸ hf) q c (hon q c hq)
  · rw [hl] at hp
    rw [hb, hpc p hp]
    exact h.held p hp q c (hon q c hq)
  · rw [hb]
    exact hk p (hl ▸ hp)

theorem Waits.take (h : Waits s) (hl : s.lock = none) (hl' : s'.lock = some p)
    (hon : ∀ q c, (s'.task q).state.On c → (s.task q).state.On c)
    (hw : ∀ (q : Fin n) c, c.Reason s.buf → c.Reason s'.buf ∨ (s'.task p).pc.WillWake c q)
    (hk : (s'.task p).Knows s'.buf) : Waits s' := by
  refine ⟨fun hf => ?_, fun p' hp q c hq => ?_, fun p' hp => ?_⟩
  · rw [hl'] at hf
    cases hf
  · obtain rfl : p = p' := Option.some.inj (hl'.symm.trans hp)
    exact hw q c (h.free hl q c (hon q c hq))
  · obtain rfl : p = p' := Option.some.inj (hl'.symm.trans hp)
    exact hk

theorem Waits.work (h : Waits s) (hl : s.lock = some p) (hl' : s'.lock = s.lock)
    (hw : ∀ (q : Fin n) c, (s'.task q).state.On c → (s.task q).state.On c ∧
      (c.Reason s.buf → c.Reason s'.buf ∨ (s'.task p).pc.WillWake c q) ∧
      ((s.task p).pc.WillWake c q → (s'.task p).pc.WillWake c q))
    (hk : (s'.task p).Knows s'.buf) : Waits s' := by
  rw [hl] at hl'
  refine ⟨fun hf => ?_, fun p' hp q c hq => ?_, fun p' hp => ?_⟩
  · rw [hl'] at hf
    cases hf
  · obtain rfl : p = p' := Option.some.inj (hl'.symm.trans hp)
    obtain ⟨hq, hr, hw⟩ := hw q c hq
    exact (h.held p hl q c hq).elim hr fun hww => .inr (hw hww)
  · obtain rfl : p = p' := Option.some.inj (hl'.symm.trans hp)
    exact hk

theorem Waits.drop (h : Waits s) (hl : s.lock = some p) (hl' : s'.lock = none) (hb : s'.buf = s.buf)
    (hon : ∀ q c, (s'.task q).state.On c → (s.task q).state.On c ∨ c.Reason s.buf)
    (hw : ∀ (q : Fin n) c, ¬ (s.task p).pc.WillWake c q) : Waits s' := by
  refine ⟨fun _ q c hq => ?_, fun p' hp => ?_, fun p' hp => ?_⟩
  · rw [hb]
    rcases hon q c hq with hq | hr
    · exact (h.held p hl q c hq).resolve_right (hw q c)
    · exact hr
  · rw [hl'] at hp
    cases hp
  · rw [hl'] at hp
    cases hp

theorem on_goto (h : ((s.goto p pc).task q).state.On c) : (s.task q).state.On c := by
  rw [State.task_goto] at h
  split at h
  next hq => exact hq ▸ h
  next => exact h

theorem on_wake (h : ((s.wake c p).task q).state.On c') :
    (s.task q).state.On c' ∧ ¬ (q = p ∧ (s.task p).state = .SLEEPING c) := by
  rw [State.task_wake] at h
  split at h
  next => rcases h with h | h <;> cases h
  next hn => exact ⟨h, hn⟩

theorem Pc.Wakes.next {pc' : Pc} {q : Nat} (h : pc.Wakes c k pc') (hw : pc.WillWake c' q) :
    c' = c ∧ k ≤ q ∧ (k ≠ q → pc'.WillWake c' q) := by
  cases h <;> simp only [Pc.WillWake] at hw ⊢ <;> refine ⟨hw.1, hw.2, fun hne => ⟨hw.1, by omega⟩⟩

theorem Pc.Returns.not_willWake (h : pc.Returns n) (c : Chan) (q : Fin n) : ¬ pc.WillWake c q := by
  have := q.isLt
  cases h <;> simp only [Pc.WillWake] <;> omega

theorem Pc.Wakes.knows {t t' : Task} {b : Buf} (h : t.pc.Wakes c k t'.pc)
    (hk : t.Knows b) : t'.Knows b := by
  unfold Task.Knows at hk ⊢
  generalize t.pc = pc at h hk
  generalize t'.pc = pc' at h ⊢
  cases h with
  | wFull c i k => exact hk
  | wDone i k => trivial
  | rDone got k => trivial
  | cWake w k => trivial

theorem on_sleep (h : ((s.sleep p c pc).task q).state.On c') : (s.task q).state.On c' ∨ c' = c := by
  rw [State.task_sleep] at h
  split at h
  next =>
    rcases h with h | h <;> cases h
    exact .inr rfl
  next => exact .inl h

theorem Locks.not_holder (hl : Locks s) (hu : (s.task p).pc = .user) : s.lock ≠ some p := by
  intro hp
  have := (hl.holder p).1 hp
  rwa [hu] at this

/-- The process `p`, which does not hold the lock, goes to sleep on no other channel. -/
theorem Waits.away {t : Task} (h : Waits s) (hne : s.lock ≠ some p) (hon : ∀ c, t.state.On c → (s.task p).state.On c) :
    Waits (s.set p t) := by
  have hother : ∀ q, s.lock = some q → q ≠ p := fun q hq he => hne (he ▸ hq)
  refine h.keep rfl rfl (fun q c hq => ?_) (fun q hq => ?_) (fun q hq => ?_)
  · rw [State.task_set] at hq
    split at hq
    next heq => exact heq ▸ hon c hq
    next => exact hq
  · rw [State.task_set, if_neg (hother q hq)]
  · rw [State.task_set, if_neg (hother q hq)]
    exact h.knows q hq

theorem Waits.kill (h : Waits s) (hkill : s.KillsInTime (.kill p)) :
    Waits (s.set p { s.task p with killed := true, state := .awake }) := by
  refine h.keep rfl rfl (fun q c hq => ?_) (fun q hq => ?_) (fun q hq => ?_)
  · rw [State.task_set] at hq
    split at hq
    next => rcases hq with hq | hq <;> cases hq
    next => exact hq
  · rw [State.task_set]
    split <;> simp_all
  · have hk := h.knows q hq
    rw [State.task_set]
    split
    next heq =>
      subst heq
      unfold Task.Knows at hk ⊢
      split
      next c i0 i hpc =>
        simp only at hpc
        rw [hpc] at hk
        exact ⟨hk.1, fun hlt => ⟨(hk.2 hlt).1, fun hn => absurd hn (hkill c i0 i hpc hlt)⟩⟩
      next hpc => rw [hpc] at hk; exact hk
      next => trivial
    next => exact hk

theorem Waits.wake {pc' : Pc} (h : Waits s) (hlock : s.lock = some p) (hw : (s.task p).pc.Wakes c k pc') (hk : k < n)
    (hf : ∀ c', (s.task ⟨k, hk⟩).state ≠ .falling c') : Waits ((s.wake c ⟨k, hk⟩).goto p pc') := by
  refine h.work (p := p) hlock (State.wake_lock c) (fun q c' hq => ?_) ?_
  · obtain ⟨hon, hne⟩ := on_wake (on_goto hq)
    refine ⟨hon, fun hr => .inl ?_, fun hww => ?_⟩
    · show c'.Reason (s.wake c _).buf
      rwa [State.wake_buf]
    · obtain ⟨rfl, hle, hnext⟩ := hw.next hww
      rw [State.task_goto, if_pos rfl]
      refine hnext fun heq => hne ?_
      obtain rfl : q = ⟨k, hk⟩ := Fin.ext heq.symm
      exact ⟨rfl, hon.resolve_left (hf c')⟩
  · show Task.Knows (s.wake c _).buf _
    rw [State.wake_buf]
    refine Pc.Wakes.knows (c := c) (k := k) ?_ (h.knows p hlock)
    simpa using hw

/-- A reader that has taken a byte has the `wakeup` of the writers ahead. -/
theorem Waits.took {r : ReadCall} {i : Nat} {got : List UInt8} (h : Waits s) (hlock : s.lock = some p)
    (hpc : (s.task p).pc = .rLoop r i got) (he : ¬ s.buf.Empty) (hl' : s'.lock = s.lock)
    (hon : ∀ q c, (s'.task q).state.On c → (s.task q).state.On c) (hw : ∀ q, (s'.task p).pc.WillWake .nwrite q)
    (hk : (s'.task p).Knows s'.buf) : Waits s' := by
  refine h.work hlock hl' (fun q c hq => ⟨hon q c hq, fun hr => ?_, fun hww => ?_⟩) hk
  · cases c with
    | nread => exact absurd hr.1 he
    | nwrite => exact .inr (hw q)
  · rw [hpc] at hww
    obtain rfl : c = .nwrite := hww
    exact hw q

theorem Move.waits (hm : Move s e s') (hl : Locks s) (hkill : s.KillsInTime e) (h : Waits s) : Waits s' := by
  cases hm with
  | call he hu hs => exact h.away (hl.not_holder hu) fun c hc => hc
  | kill hf => exact h.kill hkill
  | reuse hu => exact h.away (hl.not_holder hu) fun c hc => hc
  | @fall p c hf =>
    refine h.away (fun hp => ?_) fun c' hc => ?_
    · have := hl.awake p ((hl.holder p).1 hp)
      rw [hf] at this
      cases this
    · rcases hc with hc | hc <;> cases hc
      exact .inl hf
  | @lockWrite p c i ha hpc hf =>
    refine h.take (p := p) hf rfl (fun q c => on_goto) (fun q c hr => .inl hr) ?_
    simp [Task.Knows]
  | @lockRead p c ha hpc hf =>
    refine h.take (p := p) hf rfl (fun q c => on_goto) (fun q c hr => .inl hr) ?_
    simp [Task.Knows]
  | @lockClose p w ha hpc hf =>
    refine h.take (p := p) hf rfl (fun q c => on_goto) (fun q c hr => ?_) ?_
    · by_cases hc : c = closeChan w
      · exact .inr (by simp [State.pipecloseFlag, Pc.WillWake, hc])
      · -- the flag that is cleared is not the one that this process waits on
        cases w <;> cases c <;> first | exact .inl hr | exact absurd rfl hc
    · simp [Task.Knows, State.pipecloseFlag]
  | @quitWrite p c i0 i ha hpc hlt hq =>
    have hlock := hl.lock_eq hpc trivial
    have hk := h.knows p hlock
    simp only [Task.Knows, hpc] at hk
    refine h.drop hlock rfl rfl (fun q c hq => .inl (on_goto hq)) (fun q c hw => ?_)
    rw [hpc] at hw
    obtain ⟨ho, hkilled⟩ := hk.2 hw.2
    rcases hq with hq | hq
    · simp [ho] at hq
    · simp [hkilled hlt] at hq
  | @full p c i0 i ha hpc ho hk hf =>
    refine h.work (hl.lock_eq hpc trivial) rfl (fun q c hq => ⟨on_goto hq, Or.inl, fun hw => ?_⟩) ?_
    · rw [hpc] at hw
      simp [Pc.WillWake, hw.1]
    · simpa [Task.Knows] using ⟨hf, ho⟩
  | @endWrite p c i0 i ha hpc =>
    refine h.work (hl.lock_eq hpc trivial) rfl (fun q c hq => ⟨on_goto hq, Or.inl, fun hw => ?_⟩) ?_
    · rw [hpc] at hw
      simp [Pc.WillWake, hw.1]
    · simp [Task.Knows]
  | @put p c i0 i ch ha hpc ho hk hf hsrc =>
    have hlock := hl.lock_eq hpc trivial
    have hknow := h.knows p hlock
    simp only [Task.Knows, hpc] at hknow
    refine h.work hlock rfl (fun q c hq => ⟨on_goto hq, fun hr => ?_, fun hw => ?_⟩) ?_
    · cases c with
      | nread => exact .inr (by simp [Pc.WillWake]; omega)
      | nwrite => exact absurd hr.1 hf
    · rw [hpc] at hw
      simp [Pc.WillWake, hw.1]
      omega
    · simp [Task.Knows, hk, Buf.put, ho]
      omega
  | wake ha hpc hw hk hf => exact h.wake (hl.lock_eq hpc hw.holding.1) (hpc ▸ hw) hk hf
  | @sleepWrite p c i k ha hpc hk =>
    have hlock := hl.lock_eq hpc trivial
    have hknow := h.knows p hlock
    simp only [Task.Knows, hpc] at hknow
    refine h.drop hlock rfl rfl (fun q c hq => (on_sleep hq).imp_right (by rintro rfl; exact hknow)) (fun q c hw => ?_)
    rw [hpc] at hw
    have := hw.2
    omega
  | @leave p pc ha hpc hr =>
    refine h.drop (hl.lock_eq hpc hr.holding) rfl rfl (fun q c hq => .inl (on_goto hq)) (fun q c => ?_)
    rw [hpc]
    exact hr.not_willWake c q
  | @report p got k ha hpc hk =>
    refine h.drop (hl.lock_eq hpc trivial) rfl rfl (fun q c hq => .inl (on_goto hq)) (fun q c hw => ?_)
    rw [hpc] at hw
    have := hw.2
    omega
  | @quitRead p c ha hpc =>
    refine h.drop (hl.lock_eq hpc trivial) rfl rfl (fun q c hq => .inl (on_goto hq)) (fun q c => ?_)
    rw [hpc]
    exact id
  | @sleepRead p c ha hpc he ho =>
    refine h.drop (hl.lock_eq hpc trivial) rfl rfl (fun q c hq => (on_sleep hq).imp_right (by rintro rfl; exact ⟨he, ho⟩)) (fun q c => ?_)
    rw [hpc]
    exact id
  | @startRead p c ha hpc =>
    refine h.work (hl.lock_eq hpc trivial) rfl (fun q c hq => ⟨on_goto hq, Or.inl, fun hw => ?_⟩) ?_
    · rw [hpc] at hw
      exact hw.elim
    · simp [Task.Knows]
  | @endRead p c i got ha hpc hend =>
    refine h.work (hl.lock_eq hpc trivial) rfl (fun q c hq => ⟨on_goto hq, Or.inl, fun hw => ?_⟩) ?_
    · rw [hpc] at hw
      simpa [Pc.WillWake] using hw
    · simp [Task.Knows]
  | take ha hpc hlt he hd =>
    exact h.took (hl.lock_eq hpc trivial) hpc he rfl (fun q c => on_goto) (by simp [Pc.WillWake]) (by simp [Task.Knows])
  | lose ha hpc hlt he hd =>
    exact h.took (hl.lock_eq hpc trivial) hpc he rfl (fun q c => on_goto) (by simp [Pc.WillWake]) (by simp [Task.Knows])

theorem waits_init (data : Nat → UInt8) : Waits (init n data) := by
  refine ⟨fun _ q c hq => ?_, nofun, nofun⟩
  rcases hq with hq | hq <;> cases hq

theorem waits_of_run {es : List (Event n)} (hk : KilledInTime s es) (h : run State.next s es = .ok s')
    (hl : Locks s) (hw : Waits s) : Waits s' := by
  refine (run_induct (I := fun s => Locks s ∧ Waits s) ?_ hk h ⟨hl, hw⟩).2
  intro s e s' hk hnext ⟨hl, hw⟩
  have hm := next_move hnext
  exact ⟨hm.locks hl, hm.waits hl hk hw⟩

/-- If all kills come in time no wakeup is lost: while `pi->lock` is free, a process sleeps on `&pi->nread` only with the
pipe empty and open for writing, and on `&pi->nwrite` only with the pipe full and open for reading. -/
theorem no_wakeup_lost (data : Nat → UInt8) (es : List (Event n)) (s : State n)
    (h : run State.next (init n data) es = .ok s) (hk : KilledInTime (init n data) es) (hfree : s.lock = none) (q : Fin n) :
    ((s.task q).state = .SLEEPING .nread → s.buf.nread = s.buf.nwrite ∧ s.buf.writeopen = true) ∧
    ((s.task q).state = .SLEEPING .nwrite →
      s.buf.nwrite = s.buf.nread + BitVec.ofNat 32 PIPESIZE ∧ s.buf.readopen = true) := by
  have hw := waits_of_run hk h (locks_init data) (waits_init data)
  exact ⟨fun hq => hw.free hfree q .nread (.inr hq), fun hq => hw.free hfree q .nwrite (.inr hq)⟩

def sleepyRead : List (Event 2) := [.read reader ⟨fun _ => true, 1⟩] ++ steps reader 3

def killedWrite : List (Event 2) :=
  sleepyRead ++ [.write writer ⟨fun _ => some 7, 2⟩] ++ steps writer 2 ++ [.kill writer] ++ steps writer 1

/-- After `killedWrite` the lock is free and the reader still sleeps, with a byte in the pipe. -/
theorem killedWrite_leaves_reader_asleep : ∃ s, run State.next (init 2 fun _ => 0) killedWrite = .ok s ∧ s.lock = none ∧
    (s.task reader).state = .SLEEPING .nread ∧ s.buf.nread ≠ s.buf.nwrite :=
  ⟨_, rfl, rfl, rfl, by decide⟩

theorem no_wakeup_lost_sleepyRead : ∃ s, run State.next (init 2 fun _ => 0) sleepyRead = .ok s ∧
    KilledInTime (init 2 fun _ => 0) sleepyRead ∧ s.lock = none ∧ (s.task reader).state = .SLEEPING .nread ∧
    s.buf.nread = s.buf.nwrite ∧ s.buf.writeopen = true := by
  have hk : KilledInTime (init 2 fun _ => 0) sleepyRead := ⟨trivial, trivial, trivial, trivial, trivial⟩
  exact ⟨_, rfl, hk, rfl, rfl, (no_wakeup_lost (fun _ => 0) sleepyRead _ rfl hk rfl reader).1 rfl⟩

end Xv6.Pipe
