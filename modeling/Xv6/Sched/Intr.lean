import Xv6.Lib.Run
import Mathlib.Logic.Function.Basic

/-!
# Interrupt nesting (`spinlock.c`, `proc.c`)

`noff` and `intena` are fields of the CPU, but the sections that they count belong to threads, which leave a CPU in `sched` and
may come back on another one. `acquire` and `release` take part as the `push_off` and the `pop_off` in them. In `push_off` an
interrupt can come between `intr_get` and `intr_off`, and its handler may give up the CPU; so these are two steps. The fields
`depth`, `outer` and `fresh` of a thread are histories.
-/

namespace Xv6.Intr

open Function (update update_of_ne update_self)
open Run

inductive Tid (C P : Type) where
  | sched (c : C)
  | proc (p : P)
  deriving DecidableEq

/-- `struct cpu`, with the bit `SIE` of its `sstatus` and the thread on it. -/
structure Cpu (C P : Type) where
  noff : Nat
  intena : Bool
  intr : Bool
  cur : Tid C P
  deriving DecidableEq

structure Thread where
  /-- The variable `old` of a `push_off` that has called `intr_get`. -/
  old : Option Bool
  /-- The interrupts from which the thread has not returned; each has stopped a `push_off` at this `old`, or other code. -/
  frames : List (Option Bool)
  /-- The variable `intena` of a `sched` that has called `swtch`; without one the thread starts in `forkret`. -/
  intena : Option Bool
  running : Bool
  /-- The number of sections that are open. -/
  depth : Nat
  /-- Whether interrupts were enabled when the outermost section was entered. -/
  outer : Bool
  /-- The first `release` in `forkret` is still to come. -/
  fresh : Bool
  deriving DecidableEq

structure State (C P : Type) where
  cpu : C → Cpu C P
  thr : Tid C P → Thread

inductive Act where
  | intrGet
  | pushOff
  | popOff
  | intrOn
  | intrOff
  | trap
  | sret
  deriving DecidableEq

inductive Event (C P : Type) where
  | act (c : C) (a : Act)
  | sched (c : C)
  | swtch (c : C) (p : P)
  deriving DecidableEq

variable {C P : Type}

def pushOff (x : Cpu C P) (old : Bool) : Cpu C P :=
  { x with intr := false, intena := if x.noff = 0 then old else x.intena, noff := x.noff + 1 }

def popOff (x : Cpu C P) : Except Stop (Cpu C P) :=
  if x.intr then .error (.panic "pop_off - interruptible")
  else if x.noff < 1 then .error (.panic "pop_off")
  else .ok { x with noff := x.noff - 1, intr := if x.noff - 1 = 0 ∧ x.intena = true then true else x.intr }

def actOn (x : Cpu C P) (t : Thread) : Act → Except Stop (Cpu C P × Thread)
  | .intrGet => if t.old = none then .ok (x, { t with old := some x.intr }) else .error .blocked
  | .pushOff =>
    match t.old with
    | none => .error .blocked
    | some old =>
      .ok (pushOff x old, { t with old := none, depth := t.depth + 1, outer := if t.depth = 0 then x.intr else t.outer })
  | .popOff =>
    match popOff x with
    | .error e => .error e
    | .ok x' => .ok (x', { t with depth := t.depth - 1, fresh := t.fresh && decide (t.depth ≠ 1) })
  | .intrOn => .ok ({ x with intr := true }, t)
  | .intrOff => .ok ({ x with intr := false }, t)
  | .trap =>
    if x.intr then .ok ({ x with intr := false }, { t with old := none, frames := t.old :: t.frames }) else .error .blocked
  | .sret =>
    match t.frames with
    | [] => .error .blocked
    | f :: fs => .ok ({ x with intr := true }, { t with old := f, frames := fs })

variable [DecidableEq C] [DecidableEq P]

def State.act (s : State C P) (c : C) (a : Act) : Except Stop (State C P) :=
  match actOn (s.cpu c) (s.thr (s.cpu c).cur) a with
  | .error e => .error e
  | .ok (x, t) => .ok ⟨update s.cpu c x, update s.thr (s.cpu c).cur t⟩

def State.sched (s : State C P) (c : C) : Except Stop (State C P) :=
  match (s.cpu c).cur with
  | .sched _ => .error .blocked
  | .proc p =>
    if (s.cpu c).noff ≠ 1 then .error (.panic "sched locks")
    else if (s.cpu c).intr then .error (.panic "sched interruptible")
    else .ok
      ⟨update s.cpu c { s.cpu c with cur := .sched c },
        update (update s.thr (.proc p)
          { s.thr (.proc p) with intena := some (s.cpu c).intena, running := false }) (.sched c)
          { s.thr (.sched c) with running := true }⟩

/-- The scheduler switches to a process, which continues in `sched` or starts in `forkret`. -/
def State.swtch (s : State C P) (c : C) (p : P) : Except Stop (State C P) :=
  if (s.cpu c).cur = .sched c ∧ (s.thr (.proc p)).running = false then .ok
    ⟨update s.cpu c { s.cpu c with cur := .proc p, intena := (s.thr (.proc p)).intena.getD (s.cpu c).intena },
      update (update s.thr (.sched c) { s.thr (.sched c) with running := false }) (.proc p)
        { s.thr (.proc p) with running := true }⟩
  else .error .blocked

def next (s : State C P) : Event C P → Except Stop (State C P)
  | .act c a => s.act c a
  | .sched c => s.sched c
  | .swtch c p => s.swtch c p

/-- At the start of the schedulers; every process will start in `forkret`, in the section of the scheduler. -/
def start (intr : C → Bool) : State C P where
  cpu c := ⟨0, false, intr c, .sched c⟩
  thr
    | .sched _ => ⟨none, [], none, true, 0, false, false⟩
    | .proc _ => ⟨none, [], none, false, 1, false, true⟩

/-- The sections of a thread are balanced: it only leaves a section that it has entered, and enables or disables interrupts in
other ways and returns from an interrupt only outside of all sections. -/
def Balanced (t : Thread) : Act → Prop
  | .intrGet => True
  | .pushOff => True
  | .popOff => 0 < t.depth ∧ t.old = none
  | .intrOn => t.depth = 0 ∧ t.old = none
  | .intrOff => t.depth = 0 ∧ t.old = none
  | .trap => True
  | .sret => t.depth = 0 ∧ t.old = none

instance (t : Thread) : ∀ a, Decidable (Balanced t a)
  | .intrGet => inferInstanceAs (Decidable True)
  | .pushOff => inferInstanceAs (Decidable True)
  | .popOff => inferInstanceAs (Decidable (_ ∧ _))
  | .intrOn => inferInstanceAs (Decidable (_ ∧ _))
  | .intrOff => inferInstanceAs (Decidable (_ ∧ _))
  | .trap => inferInstanceAs (Decidable True)
  | .sret => inferInstanceAs (Decidable (_ ∧ _))

/-- The sections are balanced, and a thread gives up the CPU with one section open. -/
def Allowed (s : State C P) : Event C P → Prop
  | .act c a => Balanced (s.thr (s.cpu c).cur) a
  | .sched c => (s.thr (s.cpu c).cur).depth = 1 ∧ (s.thr (s.cpu c).cur).old = none
  | .swtch c _ => (s.thr (s.cpu c).cur).depth = 1 ∧ (s.thr (s.cpu c).cur).old = none

instance (s : State C P) : ∀ e, Decidable (Allowed s e)
  | .act _ _ => inferInstanceAs (Decidable (Balanced _ _))
  | .sched _ => inferInstanceAs (Decidable (_ ∧ _))
  | .swtch _ _ => inferInstanceAs (Decidable (_ ∧ _))

structure OnCpu (x : Cpu C P) (t : Thread) : Prop where
  noff : x.noff = t.depth
  off : 0 < t.depth → x.intr = false
  kept : ∀ p, x.cur = .proc p → 0 < t.depth → t.fresh = false → x.intena = t.outer
  pending : ∀ b, t.old = some b → x.intr = b
  frames : ∀ b, some b ∈ t.frames → b = true

/-- A thread that is not on a CPU has left with one section open, and keeps what belongs to this section. -/
structure Parked (i : Tid C P) (t : Thread) : Prop where
  depth : t.depth = 1
  old : t.old = none
  kept : ∀ p, i = .proc p → t.fresh = false → t.intena = some t.outer
  frames : ∀ b, some b ∈ t.frames → b = true

structure Inv (s : State C P) : Prop where
  onCpu : ∀ c, OnCpu (s.cpu c) (s.thr (s.cpu c).cur)
  running : ∀ c, (s.thr (s.cpu c).cur).running = true
  placed : ∀ i, (s.thr i).running = true → ∃ c, (s.cpu c).cur = i
  parked : ∀ i, (s.thr i).running = false → Parked i (s.thr i)
  own : ∀ c c', (s.cpu c).cur = (s.cpu c').cur → c = c'
  mine : ∀ c c', (s.cpu c).cur = .sched c' → c' = c

variable {s s' : State C P} {x x' : Cpu C P} {t t' : Thread} {a : Act} {c : C} {p : P}

omit [DecidableEq C] [DecidableEq P] in
theorem OnCpu.popOff_eq (h : OnCpu x t) (hd : 0 < t.depth) :
    popOff x = .ok { x with noff := t.depth - 1, intr := decide (t.depth = 1) && x.intena } := by
  have hoff := h.off hd
  unfold popOff
  rw [if_neg (by simp [hoff]), if_neg (by rw [h.noff]; omega), h.noff, hoff]
  have hone : t.depth - 1 = 0 ↔ t.depth = 1 := by omega
  by_cases h1 : t.depth = 1 <;> cases hi : x.intena <;> simp [hone, h1]

omit [DecidableEq C] [DecidableEq P] in
theorem OnCpu.pushOff (h : OnCpu x t) {old : Bool} (hold : t.old = some old) : OnCpu (pushOff x old)
    { t with old := none, depth := t.depth + 1, outer := if t.depth = 0 then x.intr else t.outer } where
  noff := congrArg (· + 1) h.noff
  off _ := rfl
  kept p hp _ hf := by
    show (if x.noff = 0 then old else x.intena) = if t.depth = 0 then x.intr else t.outer
    rw [h.noff]
    split
    · exact (h.pending old hold).symm
    · exact h.kept p hp (by omega) hf
  pending _ hb := by cases hb
  frames := h.frames

omit [DecidableEq C] [DecidableEq P] in
theorem OnCpu.popOff (h : OnCpu x t) (hd : 0 < t.depth) (hold : t.old = none) :
    OnCpu { x with noff := t.depth - 1, intr := decide (t.depth = 1) && x.intena }
      { t with depth := t.depth - 1, fresh := t.fresh && decide (t.depth ≠ 1) } where
  noff := rfl
  off hpos := by
    have hne : t.depth ≠ 1 := fun h1 => by simp [h1] at hpos
    simp [hne]
  kept p hp hpos hf := by
    have hne : t.depth ≠ 1 := fun h1 => by simp [h1] at hpos
    exact h.kept p hp hd (by simpa [hne] using hf)
  pending b hb := by simp [hold] at hb
  frames := h.frames

omit [DecidableEq C] [DecidableEq P] in
theorem OnCpu.setIntr (h : OnCpu x t) (hd : t.depth = 0) (b : Bool) {old : Option Bool} (hold : ∀ b', old = some b' → b = b')
    {fs : List (Option Bool)} (hfs : ∀ b, some b ∈ fs → b = true) :
    OnCpu { x with intr := b } { t with old := old, frames := fs } where
  noff := h.noff
  off hpos := absurd hd (Nat.ne_of_gt hpos)
  kept := h.kept
  pending := hold
  frames := hfs

omit [DecidableEq C] [DecidableEq P] in
theorem OnCpu.act (h : OnCpu x t) (hb : Balanced t a) (hact : actOn x t a = .ok (x', t')) :
    OnCpu x' t' ∧ x'.cur = x.cur ∧ t'.running = t.running := by
  unfold actOn at hact
  cases a with
  | intrGet =>
    simp only at hact
    split at hact
    · cases hact
      exact ⟨⟨h.noff, h.off, h.kept, fun b hb => Option.some.inj hb, h.frames⟩, rfl, rfl⟩
    · cases hact
  | pushOff =>
    simp only at hact
    split at hact
    · cases hact
    · rename_i old hold
      cases hact
      exact ⟨h.pushOff hold, rfl, rfl⟩
  | popOff =>
    simp only [h.popOff_eq hb.1] at hact
    cases hact
    exact ⟨h.popOff hb.1 hb.2, rfl, rfl⟩
  | intrOn =>
    cases hact
    exact ⟨h.setIntr hb.1 true (by simp [hb.2]) h.frames, rfl, rfl⟩
  | intrOff =>
    cases hact
    exact ⟨h.setIntr hb.1 false (by simp [hb.2]) h.frames, rfl, rfl⟩
  | trap =>
    simp only at hact
    split at hact
    · rename_i hintr
      cases hact
      have hd : t.depth = 0 := by
        by_contra hne
        rw [h.off (Nat.pos_of_ne_zero hne)] at hintr
        cases hintr
      refine ⟨h.setIntr hd false (fun _ h' => by cases h') ?_, rfl, rfl⟩
      intro b hb
      rcases List.mem_cons.1 hb with hb | hb
      · rw [← h.pending b hb.symm, hintr]
      · exact h.frames b hb
    · cases hact
  | sret =>
    simp only at hact
    split at hact
    · cases hact
    · rename_i f fs hfs
      cases hact
      refine ⟨h.setIntr hb.1 true ?_ ?_, rfl, rfl⟩
      · rintro b rfl
        exact (h.frames b (hfs ▸ List.mem_cons_self ..)).symm
      · exact fun b hb => h.frames b (hfs ▸ List.mem_cons_of_mem f hb)

theorem Inv.act (h : Inv s) (hb : Balanced (s.thr (s.cpu c).cur) a) (hact : s.act c a = .ok s') : Inv s' := by
  unfold State.act at hact
  split at hact
  · cases hact
  · rename_i x t hxt
    cases hact
    obtain ⟨hon, hcur, hrun⟩ := (h.onCpu c).act hb hxt
    have hcur' : ∀ c', (update s.cpu c x c').cur = (s.cpu c').cur := by
      intro c'
      by_cases hc : c' = c
      · rw [hc, update_self, hcur]
      · rw [update_of_ne hc]
    have hrun' : ∀ i, (update s.thr (s.cpu c).cur t i).running = (s.thr i).running := by
      intro i
      by_cases hi : i = (s.cpu c).cur
      · rw [hi, update_self, hrun]
      · rw [update_of_ne hi]
    refine ⟨fun c' => ?_, fun c' => ?_, fun i hi => ?_, fun i hi => ?_, fun c1 c2 => ?_, fun c1 c2 => ?_⟩
    · show OnCpu (update s.cpu c x c') (update s.thr (s.cpu c).cur t (update s.cpu c x c').cur)
      rw [hcur']
      by_cases hc : c' = c
      · rw [hc, update_self, update_self]
        exact hon
      · rw [update_of_ne hc, update_of_ne fun heq => hc (h.own _ _ heq)]
        exact h.onCpu c'
    · show (update s.thr (s.cpu c).cur t _).running = true
      rw [hrun', hcur']
      exact h.running c'
    · obtain ⟨c', hc'⟩ := h.placed i ((hrun' i).symm.trans hi)
      exact ⟨c', (hcur' c').trans hc'⟩
    · have hi' : (s.thr i).running = false := (hrun' i).symm.trans hi
      have hne : i ≠ (s.cpu c).cur := by
        rintro rfl
        rw [h.running c] at hi'
        cases hi'
      show Parked i (update s.thr (s.cpu c).cur t i)
      rw [update_of_ne hne]
      exact h.parked i hi'
    · show (update s.cpu c x c1).cur = (update s.cpu c x c2).cur → _
      rw [hcur', hcur']
      exact h.own c1 c2
    · show (update s.cpu c x c1).cur = _ → _
      rw [hcur']
      exact h.mine c1 c2

theorem Inv.switch {i j : Tid C P} {ti tj : Thread} (h : Inv s) (hi : (s.cpu c).cur = i) (hj : (s.thr j).running = false)
    (hcur : x.cur = j) (hon : OnCpu x tj) (hti : Parked i ti) (hri : ti.running = false) (hrj : tj.running = true)
    (hmine : ∀ c', j = .sched c' → c' = c) :
    Inv ⟨update s.cpu c x, update (update s.thr i ti) j tj⟩ := by
  have hji : j ≠ i := by
    rintro rfl
    rw [← hi, h.running c] at hj
    cases hj
  have hother : ∀ {c'}, c' ≠ c → (s.cpu c').cur ≠ i ∧ (s.cpu c').cur ≠ j := by
    intro c' hc
    refine ⟨fun heq => hc (h.own _ _ (heq.trans hi.symm)), fun heq => ?_⟩
    rw [← heq, h.running c'] at hj
    cases hj
  refine ⟨fun c' => ?_, fun c' => ?_, fun k hk => ?_, fun k hk => ?_, fun c1 c2 heq => ?_, fun c1 c2 heq => ?_⟩
  · by_cases hc : c' = c
    · subst hc
      simpa [hcur] using hon
    · simpa [hc, hother hc] using h.onCpu c'
  · by_cases hc : c' = c
    · subst hc
      simpa [hcur] using hrj
    · simpa [hc, hother hc] using h.running c'
  · by_cases hkj : k = j
    · exact ⟨c, by simp [hcur, hkj]⟩
    · have hki : k ≠ i := by
        rintro rfl
        simp [hkj, hri] at hk
      obtain ⟨c', hc'⟩ := h.placed k (by simpa [hkj, hki] using hk)
      have hc : c' ≠ c := by
        rintro rfl
        exact hki (hc'.symm.trans hi)
      exact ⟨c', by simpa [hc] using hc'⟩
  · have hkj : k ≠ j := by
      rintro rfl
      simp [hrj] at hk
    by_cases hki : k = i
    · subst hki
      simpa [hkj] using hti
    · simpa [hkj, hki] using h.parked k (by simpa [hkj, hki] using hk)
  · by_cases h1 : c1 = c <;> by_cases h2 : c2 = c
    · rw [h1, h2]
    · subst h1
      simp [h2, hcur] at heq
      exact absurd heq.symm (hother h2).2
    · subst h2
      simp [h1, hcur] at heq
      exact absurd heq (hother h1).2
    · simp [h1, h2] at heq
      exact h.own c1 c2 heq
  · by_cases h1 : c1 = c
    · subst h1
      simp [hcur] at heq
      exact hmine c2 heq
    · simp [h1] at heq
      exact h.mine c1 c2 heq

theorem Inv.sched (h : Inv s) (hal : Allowed s (.sched c)) (hs : s.sched c = .ok s') : Inv s' := by
  unfold State.sched at hs
  split at hs
  · cases hs
  · rename_i p hp
    have hcpu := h.onCpu c
    obtain ⟨hd, hold⟩ := hal
    rw [hp] at hcpu hd hold
    split at hs
    · cases hs
    · rename_i hnoff
      split at hs
      · cases hs
      · cases hs
        have hj : (s.thr (.sched c)).running = false := by
          by_contra hrun
          obtain ⟨c', hc'⟩ := h.placed _ (Bool.not_eq_false _ ▸ hrun)
          obtain rfl := h.mine _ _ hc'
          rw [hp] at hc'
          cases hc'
        have hpark := h.parked _ hj
        refine h.switch hp hj rfl ⟨?_, ?_, ?_, ?_, hpark.frames⟩ ⟨hd, hold, ?_, hcpu.frames⟩ rfl rfl ?_
        · exact (hcpu.noff.trans hd).trans hpark.depth.symm
        · exact fun _ => hcpu.off (by omega)
        · exact fun _ h' => by cases h'
        · exact fun b hb => by rw [hpark.old] at hb; cases hb
        · exact fun _ _ hf => congrArg some (hcpu.kept p hp (by omega) hf)
        · exact fun c' h' => by cases h'; rfl

theorem Inv.swtch (h : Inv s) (hal : Allowed s (.swtch c p)) (hs : s.swtch c p = .ok s') : Inv s' := by
  unfold State.swtch at hs
  split at hs
  · rename_i hguard
    cases hs
    have hcpu := h.onCpu c
    obtain ⟨hd, hold⟩ := hal
    rw [hguard.1] at hcpu hd hold
    have hpark := h.parked _ hguard.2
    refine h.switch hguard.1 hguard.2 rfl ⟨?_, ?_, ?_, ?_, hpark.frames⟩ ⟨hd, hold, ?_, hcpu.frames⟩ rfl rfl ?_
    · exact (hcpu.noff.trans hd).trans hpark.depth.symm
    · exact fun _ => hcpu.off (by omega)
    · intro p' hp' _ hf
      have hkept := hpark.kept p rfl hf
      show (s.thr (.proc p)).intena.getD _ = _
      rw [hkept]
      rfl
    · exact fun b hb => by rw [hpark.old] at hb; cases hb
    · exact fun _ h' => by cases h'
    · exact fun _ h' => by cases h'
  · cases hs

theorem Inv.step {e : Event C P} (h : Inv s) (hal : Allowed s e) (hs : next s e = .ok s') : Inv s' := by
  cases e with
  | act c a => exact h.act hal hs
  | sched c => exact h.sched hal hs
  | swtch c p => exact h.swtch hal hs

omit [DecidableEq C] [DecidableEq P] in
theorem inv_start (intr : C → Bool) : Inv (start intr : State C P) where
  onCpu c := ⟨rfl, fun h => absurd h (Nat.lt_irrefl 0), by rintro _ ⟨⟩, by rintro _ ⟨⟩, by rintro _ ⟨⟩⟩
  running c := rfl
  placed i hi := by
    cases i with
    | sched c => exact ⟨c, rfl⟩
    | proc p => cases hi
  parked i hi := by
    cases i with
    | sched c => cases hi
    | proc p => exact ⟨rfl, rfl, by rintro _ _ ⟨⟩, by rintro _ ⟨⟩⟩
  own c c' h := by cases h; rfl
  mine c c' h := by cases h; rfl

theorem inv_run {intr : C → Bool} {es : List (Event C P)} (hal : Along next Allowed (start intr) es)
    (hrun : run next (start intr) es = .ok s) : Inv s :=
  run_induct (fun _ _ _ hal hs h => h.step hal hs) hal hrun (inv_start intr)

/-- After every run interrupts are off on every CPU in a section; and the `pop_off` with which a process leaves its outermost
section, on whatever CPU, does not panic and enables interrupts exactly if they were enabled when it entered this section. -/
theorem interrupts_nest (intr : C → Bool) (es : List (Event C P)) (hal : Along next Allowed (start intr) es)
    (hrun : run next (start intr) es = .ok s) :
    (∀ c, 0 < (s.cpu c).noff → (s.cpu c).intr = false) ∧
    ∀ c p, (s.cpu c).cur = .proc p → (s.thr (.proc p)).depth = 1 → (s.thr (.proc p)).old = none →
      (s.thr (.proc p)).fresh = false →
      ∃ s', next s (.act c .popOff) = .ok s' ∧ (s'.cpu c).noff = 0 ∧
        ((s'.cpu c).intr = true ↔ (s.thr (.proc p)).outer = true) := by
  have h := inv_run hal hrun
  refine ⟨fun c hpos => (h.onCpu c).off ((h.onCpu c).noff ▸ hpos), fun c p hp hd hold hf => ?_⟩
  have hcpu := h.onCpu c
  rw [hp] at hcpu
  have hpop := hcpu.popOff_eq (by omega)
  have hkept := hcpu.kept p hp (by omega) hf
  refine ⟨_, by simp only [next, State.act, hp, actOn, hpop]; rfl, ?_, ?_⟩
  · simp [hd]
  · simp [hd, hkept]

/-- A process enters a section with interrupts enabled on one CPU, gives it up there and leaves the section on the other. -/
def migration : List (Event Bool Unit) :=
  [.act false .intrGet, .act false .pushOff, .swtch false (), .act false .popOff, .act false .intrOn, .act false .intrGet, .act false .pushOff, .sched false,
    .act true .intrGet, .act true .pushOff, .swtch true ()]

theorem interrupts_nest_migration : ∃ s : State Bool Unit, run next (start fun _ => false) migration = .ok s ∧
    (s.cpu true).noff = 1 ∧ (s.cpu true).intr = false ∧ ∃ s', next s (.act true .popOff) = .ok s' ∧ (s'.cpu true).intr = true := by
  obtain ⟨s, hrun, hs⟩ : ∃ s, run next (start fun _ => false) migration = .ok s ∧ (s.cpu true).noff = 1 ∧ (s.cpu true).cur = .proc () ∧
      (s.thr (.proc ())).depth = 1 ∧ (s.thr (.proc ())).old = none ∧ (s.thr (.proc ())).fresh = false ∧
      (s.thr (.proc ())).outer = true := Ends.exists (by decide +kernel)
  obtain ⟨hoff, hpop⟩ := interrupts_nest (fun _ => false) migration (by decide +kernel) hrun
  obtain ⟨s', hs', -, hiff⟩ := hpop true () hs.2.1 hs.2.2.1 hs.2.2.2.1 hs.2.2.2.2.1
  exact ⟨s, hrun, hs.1, hoff true (by rw [hs.1]; decide), s', hs', hiff.2 hs.2.2.2.2.2⟩

end Xv6.Intr
