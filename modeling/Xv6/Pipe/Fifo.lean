import Xv6.Pipe.Move

/-!
# A pipe is a bounded queue of bytes

The counters and `data[]` hold the bytes that were written and not yet taken, in order (`Fifo`). What was taken is what
`piperead` reports, up to the bytes whose `copyout` failed (`Gap`): these are gone.
-/

namespace Xv6.Pipe

open List (length_append)
open Run

variable {n : Nat} {s s' : State n} {e : Event n} {p : Fin n} {pc pc' : Pc} {c : Chan} {k : Nat} {es : List (Event n)}

def Buf.ring (b : Buf) : RingBuf 32 UInt8 := ⟨b.data, b.nread, b.nwrite⟩

def Buf.count (b : Buf) : Nat := (b.nwrite - b.nread).toNat

def Buf.cell (b : Buf) (j : Nat) : Nat := (b.nread.toNat + j) % PIPESIZE

def Buf.buffered (b : Buf) : List UInt8 := (List.range b.count).map fun j => b.data (b.cell j)

theorem Buf.buffered_eq (b : Buf) : b.buffered = b.ring.toList PIPESIZE := rfl

theorem Buf.full_iff (b : Buf) : b.Full ↔ b.ring.size = PIPESIZE :=
  RingBuf.tail_eq_add_iff (r := b.ring) (by decide)

theorem Buf.empty_iff (b : Buf) : b.Empty ↔ b.ring.size = 0 := RingBuf.head_eq_tail_iff (r := b.ring)

theorem pipesize_dvd : PIPESIZE ∣ 2 ^ 32 := ⟨8388608, by decide⟩

/-- The pipe holds the bytes that were written and not yet taken, and there is room for them. -/
structure Fifo (s : State n) : Prop where
  bounded : s.buf.ring.size ≤ PIPESIZE
  queue : s.written = s.taken ++ s.buf.buffered
  nread : s.buf.nread = BitVec.ofNat 32 s.taken.length
  nwrite : s.buf.nwrite = BitVec.ofNat 32 s.written.length

theorem Fifo.lt_of_not_full (h : Fifo s) (hf : ¬ s.buf.Full) : s.buf.ring.size < PIPESIZE :=
  lt_of_le_of_ne h.bounded fun he => hf (s.buf.full_iff.2 he)

theorem Fifo.put (h : Fifo s) (hf : ¬ s.buf.Full) {ch : UInt8} (hb : s'.buf = s.buf.put ch)
    (hw : s'.written = s.written ++ [ch]) (ht : s'.taken = s.taken) : Fifo s' := by
  have hlt := h.lt_of_not_full hf
  have hcap : PIPESIZE < 2 ^ 32 := by decide
  have hring : s'.buf.ring = s.buf.ring.put PIPESIZE ch := by rw [hb]; rfl
  refine ⟨?_, ?_, ?_, ?_⟩
  · rw [hring, RingBuf.size_put (by omega)]
    exact hlt
  · rw [Buf.buffered_eq, hring, RingBuf.toList_put pipesize_dvd hcap hlt, hw, ht, h.queue,
      List.append_assoc, Buf.buffered_eq]
  · rw [hb, ht]
    exact h.nread
  · rw [hb, hw, length_append, BitVec.ofNat_add, ← h.nwrite]
    rfl

theorem Fifo.take (h : Fifo s) (he : ¬ s.buf.Empty) (hb : s'.buf = s.buf.take)
    (hw : s'.written = s.written) (ht : s'.taken = s.taken ++ [s.buf.data (s.buf.nread.toNat % PIPESIZE)]) :
    Fifo s' := by
  have hne : s.buf.ring.size ≠ 0 := fun h0 => he (s.buf.empty_iff.2 h0)
  have hring : s'.buf.ring = s.buf.ring.take := by rw [hb]; rfl
  have hlist := RingBuf.toList_take (r := s.buf.ring) pipesize_dvd hne
  refine ⟨?_, ?_, ?_, ?_⟩
  · have := RingBuf.size_take (r := s.buf.ring) hne
    have := h.bounded
    rw [hring]
    omega
  · rw [Buf.buffered_eq, hring, hw, ht, h.queue, Buf.buffered_eq, hlist, List.append_assoc]
    rfl
  · rw [hb, ht, length_append, BitVec.ofNat_add, ← h.nread]
    rfl
  · rw [hb, hw]
    exact h.nwrite

theorem Move.ring_cases (hm : Move s e s') :
    (s'.buf.ring = s.buf.ring ∧ s'.written = s.written ∧ s'.taken = s.taken) ∨
    (¬ s.buf.Full ∧ ∃ ch, s'.buf = s.buf.put ch ∧ s'.written = s.written ++ [ch] ∧ s'.taken = s.taken) ∨
    (¬ s.buf.Empty ∧ s'.buf = s.buf.take ∧ s'.written = s.written ∧
      s'.taken = s.taken ++ [s.buf.data (s.buf.nread.toNat % PIPESIZE)]) := by
  cases hm with
  | put ha hpc ho hk hf hsrc => exact .inr (.inl ⟨hf, _, rfl, rfl, rfl⟩)
  | take ha hpc hlt he hd => exact .inr (.inr ⟨he, rfl, rfl, rfl⟩)
  | lose ha hpc hlt he hd => exact .inr (.inr ⟨he, rfl, rfl, rfl⟩)
  | wake ha hpc hw hk hf => exact .inl ⟨by simp [State.goto, State.set], State.wake_written _, State.wake_taken _⟩
  | @lockClose p w ha hpc hl => exact .inl ⟨by cases w <;> rfl, rfl, rfl⟩
  | _ => exact .inl ⟨rfl, rfl, rfl⟩

theorem Move.fifo (hm : Move s e s') (h : Fifo s) : Fifo s' := by
  rcases hm.ring_cases with ⟨hr, hw, ht⟩ | ⟨hf, ch, hb, hw, ht⟩ | ⟨he, hb, hw, ht⟩
  · have hring := RingBuf.mk.inj hr
    refine ⟨?_, ?_, ?_, ?_⟩
    · rw [hr]
      exact h.bounded
    · rw [Buf.buffered_eq, hr, hw, ht]
      exact h.queue
    · rw [hring.2.1, ht]
      exact h.nread
    · rw [hring.2.2, hw]
      exact h.nwrite
  · exact h.put hf hb hw ht
  · exact h.take he hb hw ht

theorem fifo_init (data : Nat → UInt8) : Fifo (init n data) := by
  refine ⟨?_, ?_, rfl, rfl⟩
  · simp [init, Buf.ring, RingBuf.size]
  · simp [init, Buf.buffered, Buf.count]

theorem Move.unread_kept (hm : Move s e s') (h : Fifo s) (j : Nat) (hj : j < s.buf.count) :
    s'.buf.data (s.buf.cell j) = s.buf.data (s.buf.cell j) := by
  rcases hm.ring_cases with ⟨hr, -, -⟩ | ⟨hf, ch, hb, -, -⟩ | ⟨he, hb, -, -⟩
  · rw [(RingBuf.mk.inj hr).1]
  · rw [hb]
    exact RingBuf.data_put_of_lt (r := s.buf.ring) pipesize_dvd (h.lt_of_not_full hf) hj
  · rw [hb]
    rfl

/-- A pipe is a bounded queue, whatever the processes do and however often the counters have wrapped: at most `PIPESIZE`
bytes are unread, they are the last ones written and sit in `data[]` in order, the bytes taken out are a prefix of those
put in. -/
theorem pipe_is_bounded_fifo (data : Nat → UInt8) (es : List (Event n)) (s : State n)
    (h : run State.next (init n data) es = .ok s) :
    s.buf.count ≤ PIPESIZE ∧
    s.buf.nread = BitVec.ofNat 32 s.taken.length ∧ s.buf.nwrite = BitVec.ofNat 32 s.written.length ∧
    s.buf.buffered = s.written.drop (s.written.length - s.buf.count) ∧
    s.taken <+: s.written ∧ s.written = s.taken ++ s.buf.buffered ∧
    ∀ e s', s.next e = .ok s' → ∀ j < s.buf.count, s'.buf.data (s.buf.cell j) = s.buf.data (s.buf.cell j) := by
  have hf : Fifo s := move_induct (fun s e s' hm => hm.fifo) h (fifo_init data)
  have hlen : s.written.length - s.buf.count = s.taken.length := by
    have : s.buf.buffered.length = s.buf.count := by simp [Buf.buffered]
    rw [hf.queue, length_append, this, Nat.add_sub_cancel]
  refine ⟨hf.bounded, hf.nread, hf.nwrite, ?_, ⟨_, hf.queue.symm⟩, hf.queue, ?_⟩
  · rw [hlen, hf.queue, List.drop_left]
  · intro e s' hn j hj
    exact (next_move hn).unread_kept hf j hj

/-- The two processes of the runs below. -/
def writer : Fin 2 := 0

@[inherit_doc writer] def reader : Fin 2 := 1

def shortRun : List (Event 2) :=
  [.write writer ⟨fun i => some (if i = 0 then 7 else 8), 2⟩] ++ steps writer 7 ++
    [.read reader ⟨fun _ => true, 1⟩] ++ steps reader 3

theorem pipe_is_bounded_fifo_shortRun : ∃ s, run State.next (init 2 fun _ => 0) shortRun = .ok s ∧
    s.buf.count = 1 ∧ s.buf.buffered = [8] ∧ s.written = s.taken ++ s.buf.buffered :=
  ⟨_, rfl, by decide, by decide,
    (pipe_is_bounded_fifo (fun _ => 0) shortRun _ rfl).2.2.2.2.2.1⟩

/-- The bytes that a call of `piperead` has copied out so far. -/
def Pc.got : Pc → List UInt8
  | .rLoop _ _ got => got
  | .rDone got _ => got
  | _ => []

def State.copied (s : State n) : List UInt8 :=
  match s.lock with
  | none => []
  | some p => (s.task p).pc.got

/-- The event is a round of the second loop of `piperead` that takes a byte and cannot copy it out. -/
def State.Faults (s : State n) : Event n → Prop
  | .step p =>
    match (s.task p).pc with
    | .rLoop c i _ => (s.task p).state = .awake ∧ (i : Int) < c.n ∧ s.buf.nread ≠ s.buf.nwrite ∧ c.dst i = false
    | _ => False
  | _ => False

/-- No byte that a reader takes in the run goes to an address that `copyout` refuses. -/
def NoFault (s : State n) (es : List (Event n)) : Prop := Along State.next (fun s e => ¬ s.Faults e) s es

theorem copied_of_lock (h : s.lock = some p) : s.copied = (s.task p).pc.got := by
  unfold State.copied
  rw [h]

theorem copied_of_free (h : s.lock = none) : s.copied = [] := by
  unfold State.copied
  rw [h]

/-- What a move does to the bytes that are taken and to those that are reported or will be. -/
inductive Flow (s : State n) (e : Event n) (s' : State n) : Prop
  | same (ht : s'.taken = s.taken) (hr : s'.reported ++ s'.copied = s.reported ++ s.copied) (hn : ¬ s.Faults e)
  | take (ch : UInt8) (ht : s'.taken = s.taken ++ [ch])
      (hr : s'.reported ++ s'.copied = s.reported ++ s.copied ++ [ch]) (hn : ¬ s.Faults e)
  | lose (ch : UInt8) (ht : s'.taken = s.taken ++ [ch]) (hr : s'.reported ++ s'.copied = s.reported ++ s.copied)
      (hf : s.Faults e)

theorem faults_step_iff : s.Faults (.step p) ↔ ∃ c i got, (s.task p).pc = .rLoop c i got ∧
    (s.task p).state = .awake ∧ (i : Int) < c.n ∧ s.buf.nread ≠ s.buf.nwrite ∧ c.dst i = false := by
  simp only [State.Faults]
  split
  next c i got hpc => simp [hpc]
  next hpc => exact ⟨False.elim, fun ⟨c, i, got, h, _⟩ => hpc c i got h⟩

theorem not_faults_of_pc (hpc : ∀ c i got, (s.task p).pc ≠ .rLoop c i got) : ¬ s.Faults (.step p) := by
  rw [faults_step_iff]
  rintro ⟨c, i, got, h, -⟩
  exact hpc c i got h

theorem not_faults_of_asleep (h : (s.task p).state ≠ .awake) : ¬ s.Faults (.step p) := by
  rw [faults_step_iff]
  rintro ⟨c, i, got, -, ha, -⟩
  exact h ha

theorem Flow.keep (ht : s'.taken = s.taken) (hr : s'.reported = s.reported) (hl : s'.lock = s.lock)
    (hpc : ∀ q, s.lock = some q → (s'.task q).pc.got = (s.task q).pc.got) (hn : ¬ s.Faults e) : Flow s e s' := by
  refine .same ht ?_ hn
  unfold State.copied
  rw [hr, hl]
  split
  next => rfl
  next q hq => rw [hpc q hq]

theorem Flow.lock (hl : s.lock = none) (ht : s'.taken = s.taken) (hr : s'.reported = s.reported)
    (hl' : s'.lock = some p) (hpc : (s'.task p).pc.got = []) (hn : ¬ s.Faults e) : Flow s e s' := by
  refine .same ht ?_ hn
  rw [hr, copied_of_free hl, copied_of_lock hl', hpc]

theorem Flow.release (hl : s.lock = some p) (ht : s'.taken = s.taken)
    (hr : s'.reported = s.reported ++ (s.task p).pc.got) (hl' : s'.lock = none) (hn : ¬ s.Faults e) : Flow s e s' := by
  refine .same ht ?_ hn
  rw [hr, copied_of_free hl', copied_of_lock hl, List.append_nil]

theorem Flow.takeByte (ch : UInt8) (hl : s.lock = some p) (ht : s'.taken = s.taken ++ [ch])
    (hr : s'.reported = s.reported) (hl' : s'.lock = s.lock)
    (hgot : (s'.task p).pc.got = (s.task p).pc.got ++ [ch]) (hn : ¬ s.Faults e) : Flow s e s' := by
  refine .take ch ht ?_ hn
  rw [hr, copied_of_lock hl, copied_of_lock (hl'.trans hl), hgot, List.append_assoc]

theorem Flow.loseByte (ch : UInt8) (hl : s.lock = some p) (ht : s'.taken = s.taken ++ [ch])
    (hr : s'.reported = s.reported) (hl' : s'.lock = s.lock)
    (hgot : (s'.task p).pc.got = (s.task p).pc.got) (hf : s.Faults e) : Flow s e s' := by
  refine .lose ch ht ?_ hf
  rw [hr, copied_of_lock hl, copied_of_lock (hl'.trans hl), hgot]

theorem Pc.Wakes.got (h : pc.Wakes c k pc') : pc'.got = pc.got := by
  cases h <;> rfl

theorem Pc.Wakes.not_rLoop (h : pc.Wakes c k pc') (c' i got) :
    pc ≠ .rLoop c' i got := by
  cases h <;> nofun

theorem Pc.Returns.got (h : pc.Returns n) : pc.got = [] := by
  cases h <;> rfl

theorem Pc.Returns.not_rLoop (h : pc.Returns n) (c' i got) : pc ≠ .rLoop c' i got := by
  cases h <;> nofun

theorem Move.flow (hm : Move s e s') (hl : Locks s) : Flow s e s' := by
  cases hm with
  | @call _ p pc he hu hs =>
    refine .keep rfl rfl rfl (fun q hq => ?_) (by cases e <;> simp_all [Event.IsCall, State.Faults])
    have hqp : q ≠ p := by
      rintro rfl
      have := (hl.holder q).1 hq
      rwa [hu] at this
    rw [State.task_goto, if_neg hqp]
  | @kill p hf =>
    refine .keep rfl rfl rfl (fun q hq => ?_) id
    rw [State.task_set]
    split <;> simp_all
  | @reuse p hu =>
    refine .keep rfl rfl rfl (fun q hq => ?_) id
    rw [State.task_set]
    split <;> simp_all
  | @fall p c hf =>
    refine .keep rfl rfl rfl (fun q hq => ?_) (not_faults_of_asleep (by simp [hf]))
    rw [State.task_set]
    split <;> simp_all
  | @lockWrite p c i ha hpc hf =>
    exact .lock hf rfl rfl rfl (by simp [Pc.got]) (not_faults_of_pc (by simp [hpc]))
  | @lockRead p c ha hpc hf => exact .lock hf rfl rfl rfl (by simp [Pc.got]) (not_faults_of_pc (by simp [hpc]))
  | @lockClose p w ha hpc hf =>
    exact .lock (p := p) hf rfl rfl rfl (by simp [Pc.got, State.pipecloseFlag]) (not_faults_of_pc (by simp [hpc]))
  | @quitWrite p c i0 i ha hpc hlt hq =>
    exact .release (hl.lock_eq hpc trivial) rfl (by simp [hpc, Pc.got]; rfl) rfl (not_faults_of_pc (by simp [hpc]))
  | @full p c i0 i ha hpc ho hk hf =>
    refine .keep rfl rfl rfl (fun q hq => ?_) (not_faults_of_pc (by simp [hpc]))
    rw [State.task_goto]
    split <;> simp_all [Pc.got]
  | @endWrite p c i0 i ha hpc =>
    refine .keep rfl rfl rfl (fun q hq => ?_) (not_faults_of_pc (by simp [hpc]))
    rw [State.task_goto]
    split <;> simp_all [Pc.got]
  | @put p c i0 i ch ha hpc ho hk hf hsrc =>
    refine .keep rfl rfl rfl (fun q hq => ?_) (not_faults_of_pc (by simp [hpc]))
    rw [State.task_goto]
    split <;> simp_all [Pc.got]
  | @wake p pc pc' c k ha hpc hw hk hf =>
    refine .keep (State.wake_taken c) (State.wake_reported c) (State.wake_lock c) (fun q hq => ?_)
      (not_faults_of_pc (hpc ▸ hw.not_rLoop))
    rw [State.task_goto]
    split
    next h => rw [h, hpc, ← hw.got]
    next => rw [State.wake_pc]
  | @sleepWrite p c i k ha hpc hk =>
    exact .release (hl.lock_eq hpc trivial) rfl (by simp [hpc, Pc.got]; rfl) rfl (not_faults_of_pc (by simp [hpc]))
  | @leave p pc ha hpc hr =>
    exact .release (hl.lock_eq hpc hr.holding) rfl (by simp [hpc, hr.got]; rfl) rfl
      (not_faults_of_pc (hpc ▸ hr.not_rLoop))
  | @report p got k ha hpc hk =>
    exact .release (hl.lock_eq hpc trivial) rfl (by simp [hpc, Pc.got]) rfl (not_faults_of_pc (by simp [hpc]))
  | @quitRead p c ha hpc =>
    exact .release (hl.lock_eq hpc trivial) rfl (by simp [hpc, Pc.got]; rfl) rfl (not_faults_of_pc (by simp [hpc]))
  | @sleepRead p c ha hpc he ho =>
    exact .release (hl.lock_eq hpc trivial) rfl (by simp [hpc, Pc.got]; rfl) rfl (not_faults_of_pc (by simp [hpc]))
  | @startRead p c ha hpc =>
    refine .keep rfl rfl rfl (fun q hq => ?_) (not_faults_of_pc (by simp [hpc]))
    rw [State.task_goto]
    split <;> simp_all [Pc.got]
  | @endRead p c i got ha hpc hend =>
    refine .keep rfl rfl rfl (fun q hq => ?_) ?_
    · rw [State.task_goto]
      split <;> simp_all [Pc.got]
    · rw [faults_step_iff]
      rintro ⟨c', i', got', hpc', -, hlt, hne, -⟩
      obtain ⟨rfl, rfl, rfl⟩ := Pc.rLoop.inj (hpc.symm.trans hpc')
      exact hend.elim (fun h => h hlt) (fun h => hne h)
  | @take p c i got ha hpc hlt he hd =>
    refine .takeByte _ (hl.lock_eq hpc trivial) rfl rfl rfl (by simp [Pc.got, hpc]) ?_
    rw [faults_step_iff]
    rintro ⟨c', i', got', hpc', -, -, -, hd'⟩
    obtain ⟨rfl, rfl, rfl⟩ := Pc.rLoop.inj (hpc.symm.trans hpc')
    simp [hd] at hd'
  | @lose p c i got ha hpc hlt he hd =>
    exact .loseByte _ (hl.lock_eq hpc trivial) rfl rfl rfl (by simp [Pc.got, hpc])
      (faults_step_iff.2 ⟨c, i, got, hpc, ha, hlt, he, hd⟩)

/-- While no `copyout` fails, the bytes taken are those reported and those the call in progress has copied out. -/
theorem taken_of_noFault (hn : NoFault s es) (h : run State.next s es = .ok s')
    (hl : Locks s) (heq : s.taken = s.reported ++ s.copied) : s'.taken = s'.reported ++ s'.copied := by
  refine (run_induct (I := fun s => Locks s ∧ s.taken = s.reported ++ s.copied) ?_ hn h ⟨hl, heq⟩).2
  intro s e s' hf hnext ⟨hl, heq⟩
  have hm := next_move hnext
  refine ⟨hm.locks hl, ?_⟩
  cases hm.flow hl with
  | same ht hr _ => rw [ht, hr, heq]
  | take ch ht hr _ => rw [ht, hr, heq]
  | lose ch _ _ hf' => exact absurd hf' hf

theorem behind_of_run : ∀ {s s' : State n} {g : Nat}, Locks s →
    run State.next s es = .ok s' → s.taken.length = (s.reported ++ s.copied).length + g →
    ∃ g', g ≤ g' ∧ (g' = g → NoFault s es) ∧ s'.taken.length = (s'.reported ++ s'.copied).length + g' := by
  induction es with
  | nil =>
    intro s s' g _ h hg
    exact ⟨g, le_rfl, fun _ => trivial, run_nil_iff.1 h ▸ hg⟩
  | cons e es ih =>
    intro s s' g hl h hg
    obtain ⟨s1, h1, h2⟩ := run_cons_iff.1 h
    have hm := next_move h1
    cases hm.flow hl with
    | same ht hr hf =>
      obtain ⟨g', hle, hn, heq⟩ := ih (g := g) (hm.locks hl) h2 (by rw [ht, hr, hg])
      exact ⟨g', hle, fun h => (along_cons_iff h1).2 ⟨hf, hn h⟩, heq⟩
    | take ch ht hr hf =>
      obtain ⟨g', hle, hn, heq⟩ := ih (g := g) (hm.locks hl) h2 (by
        rw [ht, hr, length_append, length_append, hg]; omega)
      exact ⟨g', hle, fun h => (along_cons_iff h1).2 ⟨hf, hn h⟩, heq⟩
    | lose ch ht hr _ =>
      obtain ⟨g', hle, -, heq⟩ := ih (g := g + 1) (hm.locks hl) h2 (by
        rw [ht, hr, length_append, hg]; rfl)
      exact ⟨g', by omega, fun h => by omega, heq⟩

/-- No byte is lost in a run exactly when no `copyout` of a byte that a reader took fails: whenever the lock is free, the
bytes reported as read followed by those still buffered are then the bytes accepted from writers. -/
theorem no_byte_lost_iff (data : Nat → UInt8) (es : List (Event n)) (s : State n)
    (h : run State.next (init n data) es = .ok s) (hfree : s.lock = none) :
    s.reported ++ s.buf.buffered = s.written ↔ NoFault (init n data) es := by
  have hf : Fifo s := move_induct (fun s e s' hm => hm.fifo) h (fifo_init data)
  have hcopied : s.copied = [] := copied_of_free hfree
  constructor
  · intro heq
    obtain ⟨g, -, hn, hlen⟩ := behind_of_run (g := 0) (locks_init data) h rfl
    refine hn ?_
    have := congrArg List.length (heq.trans hf.queue)
    rw [hcopied, List.append_nil] at hlen
    rw [length_append, length_append] at this
    omega
  · intro hn
    have htaken := taken_of_noFault hn h (locks_init data) rfl
    rw [hf.queue, htaken, hcopied, List.append_nil]

def badRead : List (Event 2) :=
  [.write writer ⟨fun _ => some 7, 1⟩] ++ steps writer 6 ++ [.read reader ⟨fun _ => false, 1⟩] ++ steps reader 6

/-- The reader of `badRead` gets no byte, and the next one finds the pipe empty. -/
theorem badRead_loses_byte : ∃ s, run State.next (init 2 fun _ => 0) badRead = .ok s ∧ s.lock = none ∧
    s.written = [7] ∧ s.reported = [] ∧ s.buf.buffered = [] :=
  ⟨_, rfl, rfl, rfl, rfl, by decide⟩

/-- `shortRun` until the reader returns. -/
theorem no_byte_lost_shortRun : ∃ s, run State.next (init 2 fun _ => 0) (shortRun ++ steps reader 4) = .ok s ∧
    s.lock = none ∧ s.reported = [7] ∧ s.buf.buffered = [8] ∧ NoFault (init 2 fun _ => 0) (shortRun ++ steps reader 4) :=
  ⟨_, rfl, rfl, rfl, by decide, (no_byte_lost_iff (fun _ => 0) _ _ rfl rfl).1 (by decide)⟩

end Xv6.Pipe
