import Xv6.Sched.Inv

/-!
# Steps of CPUs

Every step of a CPU keeps the invariant of the scheduler.
-/

namespace Xv6.Sched

open List (mem_cons_self)
open Function (update update_of_ne update_self)
open Run

variable {n m : Nat} {s s' z : State n m} {c : Fin m} {t : Thr n m} {p q : Fin n} {P' P Q : Pos n} {x : Proc n}
  {l : Lock n} {e : Effect n m}

structure Static (t : Thr n m) (P P' : Pos n) : Prop where
  fits : P.Fits t → P'.Fits t
  uses : P'.uses = P.uses
  left : ∀ x, P.Left x → P'.Left x
  cproc : P'.cproc = P.cproc
  forks : ∀ q, P'.forks = some q → P.forks = some q ∧ (P'.ready = true → P.ready = true)
  frees : ∀ q pid stored, P' ≠ .waitFree q pid stored

theorem Inv.fits (hI : Inv s) (t : Thr n m) : (s.pos t).Fits t := by
  cases t with
  | proc p => exact hI.ofProc p
  | cpu d => exact hI.ofCpu d

theorem Inv.here_eq (hcur : s.cur c = (t, false)) : s.here c = s.pos t := by
  unfold State.here
  rw [hcur]

theorem Goes.of_static (hI : Inv s) (hcur : s.cur c = (t, false)) (hs : Static t (s.pos t) P') (hc : s'.cur = s.cur)
    (hp : s'.cproc = s.cproc) (hpos : s'.pos = update s.pos t P') (hsv : s'.saved = s.saved)
    (hst : ∀ q, (s'.proc q).state = (s.proc q).state)
    (hlock : ∀ c' l, s'.lock l = some c' ↔ if c' = c then l ∈ P'.locks t else s.lock l = some c') : Goes s s' c t P' where
  cur := hc
  cproc := hp
  pos := hpos
  saved := hsv
  lock := hlock
  fits := hs.fits (hI.fits t)
  cpu := fun _ _ => ⟨hs.uses, hs.left, hs.cproc⟩
  own := by
    rintro p rfl
    have h := hI.state c p (State.inUse_proc (by rw [hcur]))
    rw [Inv.here_eq hcur] at h
    rw [hst]
    exact hs.left _ h
  state := fun q => .inl (hst q)
  forks := by
    intro q hq
    obtain ⟨hf, hr⟩ := hs.forks q hq
    rw [hst]
    exact ⟨(hI.forks t q hf).1, .inl ⟨hf, fun h => .inl (hr h)⟩⟩
  frees := fun q pid stored h => absurd h (hs.frees q pid stored)

theorem Inv.lock_same (hI : Inv s) (hcur : s.cur c = (t, false)) (hl : ∀ l, l ∈ P'.locks t ↔ l ∈ (s.pos t).locks t)
    (c' : Fin m) (l : Lock n) : s.lock l = some c' ↔ if c' = c then l ∈ P'.locks t else s.lock l = some c' := by
  split
  · rename_i hc
    subst hc
    rw [hI.locks, Inv.here_eq hcur, hcur, hl]
  · rfl

theorem Inv.tau (hI : Inv s) (hcur : s.cur c = (t, false)) (hs : Static t (s.pos t) P')
    (hl : ∀ l, l ∈ P'.locks t ↔ l ∈ (s.pos t).locks t) : Inv (s.go t P') :=
  hI.goes hcur (.of_static hI hcur hs rfl rfl rfl rfl (fun _ => rfl) (hI.lock_same hcur hl))

theorem Inv.set (hI : Inv s) (hcur : s.cur c = (t, false)) (hs : Static t (s.pos t) P')
    (hl : ∀ l, l ∈ P'.locks t ↔ l ∈ (s.pos t).locks t) (hx : x.state = (s.proc q).state) :
    Inv ((s.setProc q x).go t P') := by
  refine hI.goes hcur (.of_static hI hcur hs rfl rfl rfl rfl (fun r => ?_) (hI.lock_same hcur hl))
  change (update s.proc q x r).state = _
  by_cases hr : r = q
  · subst hr
    rw [update_self, hx]
  · rw [update_of_ne hr]

theorem Inv.acquire (hI : Inv s) (hcur : s.cur c = (t, false)) (hs : Static t (s.pos t) P')
    (hfree : s.lock l = none) (hl : ∀ l', l' ∈ P'.locks t ↔ l' = l ∨ l' ∈ (s.pos t).locks t) :
    Inv (((s.setLock l (some c)).noteAcquire t l).go t P') := by
  have hlock : ((s.setLock l (some c)).noteAcquire t l).lock = update s.lock l (some c) := by cases l <;> rfl
  refine hI.goes hcur (.of_static hI hcur hs ?_ ?_ ?_ ?_ ?_ fun c' l' => ?_)
  · cases l <;> rfl
  · cases l <;> rfl
  · cases l <;> rfl
  · cases l <;> rfl
  · intro q
    cases l <;> rfl
  · change ((s.setLock l (some c)).noteAcquire t l).lock l' = some c' ↔ _
    rw [hlock]
    by_cases hl' : l' = l
    · subst hl'
      rw [update_self, hfree]
      by_cases hc : c' = c
      · rw [if_pos hc, hc, hl]
        simp
      · rw [if_neg hc]
        exact ⟨fun h => absurd (Option.some.inj h).symm hc, nofun⟩
    · rw [update_of_ne hl']
      by_cases hc : c' = c
      · subst hc
        rw [if_pos rfl, hI.locks, Inv.here_eq hcur, hcur, hl]
        simp [hl']
      · rw [if_neg hc]

theorem Inv.release (hI : Inv s) (hcur : s.cur c = (t, false)) (hs : Static t (s.pos t) P')
    (hheld : l ∈ (s.pos t).locks t) (hl : ∀ l', l' ∈ P'.locks t ↔ l' ≠ l ∧ l' ∈ (s.pos t).locks t) :
    Inv ((s.setLock l none).go t P') := by
  refine hI.goes hcur (.of_static hI hcur hs rfl rfl rfl rfl (fun _ => rfl) fun c' l' => ?_)
  change update s.lock l none l' = some c' ↔ _
  by_cases hl' : l' = l
  · subst hl'
    rw [update_self]
    have hlock : s.lock l' = some c := by
      rw [hI.locks, Inv.here_eq hcur, hcur]
      exact hheld
    by_cases hc : c' = c
    · rw [if_pos hc, hl]
      simp
    · rw [if_neg hc, hlock]
      exact ⟨nofun, fun h => absurd (Option.some.inj h).symm hc⟩
  · rw [update_of_ne hl']
    by_cases hc : c' = c
    · subst hc
      rw [if_pos rfl, hI.locks, Inv.here_eq hcur, hcur, hl]
      simp [hl']
    · rw [if_neg hc]

theorem setProc_state (r : Fin n) :
    (update s.proc q x r).state = if r = q then x.state else (s.proc r).state := by
  by_cases hr : r = q
  · subst hr
    simp
  · simp [hr]

/-- The points before and after a step on process `q`, whose lock is held. -/
structure Beside (t : Thr n m) (q : Fin n) (P P' : Pos n) : Prop where
  fits : P.Fits t → P'.Fits t
  uses : P'.uses = P.uses
  left : P'.Left .RUNNING
  leaves : P.leaves = false
  cproc : P'.cproc = P.cproc
  locks : ∀ l, l ∈ P'.locks t ↔ l ∈ P.locks t
  held : .proc q ∈ P.locks t
  frees : ∀ r pid stored, P' ≠ .waitFree r pid stored

theorem Inv.foreign (hI : Inv s) (hcur : s.cur c = (t, false)) (hc : s'.cur = s.cur) (hp : s'.cproc = s.cproc)
    (hpos : s'.pos = update s.pos t P') (hsv : s'.saved = s.saved) (hlock' : s'.lock = s.lock)
    (hproc : s'.proc = update s.proc q x) (hb : Beside t q (s.pos t) P') (hstate : (s.proc q).state ≠ .RUNNING)
    (hused : (s.proc q).state = .USED → (s.pos t).forks = some q ∧ P'.forks = none)
    (hlive : x.live = true → (s.proc q).live = true ∨ (s.pos t).forks = some q ∧ (s.pos t).ready = true)
    (hforks : ∀ r, P'.forks = some r → r = q ∧ x.state = .USED ∧ (s.proc q).state = .UNUSED ∧ P'.ready = false) : Inv s' := by
  have hst : ∀ r, (s'.proc r).state = if r = q then x.state else (s.proc r).state := by
    intro r
    rw [hproc]
    exact setProc_state r
  refine hI.goes hcur ⟨hc, hp, hpos, hsv, ?_, hb.fits (hI.fits t),
    fun _ _ => ⟨hb.uses, fun x hx => Pos.left_of_not_leaves hb.leaves hx ▸ hb.left, hb.cproc⟩, ?_, ?_,
    ?_, fun q pid stored h => absurd h (hb.frees q pid stored)⟩
  · intro c' l
    rw [hlock']
    exact hI.lock_same hcur hb.locks c' l
  · rintro p rfl
    have hrun := hI.running (State.inUse_proc (by rw [hcur])) (by rw [Inv.here_eq hcur]; exact hb.leaves)
    rw [hst, if_neg (by rintro rfl; exact hstate hrun), hrun]
    exact hb.left
  · intro r
    by_cases hr : r = q
    · subst hr
      refine .inr (.inr ⟨hb.held, hb.leaves, hstate, hused, ?_⟩)
      rw [hproc, update_self]
      exact hlive
    · exact .inl (by rw [hst, if_neg hr])
  · intro r hr
    obtain ⟨rfl, hx, hold, hno⟩ := hforks r hr
    rw [hst, if_pos rfl]
    exact ⟨hx, .inr ⟨hold, hno⟩⟩

theorem Inv.leave (hI : Inv s) (hcur : s.cur c = (.proc p, false)) (hfits : P'.ofProc = true)
    (hx : P'.Left x.state)
    (hl : ∀ l, l ∈ P'.locks (Thr.proc p : Thr n m) ↔ l ∈ (s.pos (.proc p)).locks (Thr.proc p : Thr n m))
    (hforks : P'.forks = none) (hfrees : ∀ q pid stored, P' ≠ .waitFree q pid stored) :
    Inv ((s.setProc p x).go (.proc p) P') := by
  refine hI.goes hcur ⟨rfl, rfl, rfl, rfl, hI.lock_same hcur hl, hfits, nofun, ?_, ?_, ?_, ?_⟩
  · intro r hr
    obtain rfl := Thr.proc.inj hr
    change P'.Left (update s.proc p x p).state
    rw [update_self]
    exact hx
  · intro r
    by_cases hr : r = p
    · exact .inr (.inl (by rw [hr]))
    · left
      change (update s.proc p x r).state = _
      rw [update_of_ne hr]
  · intro r hr
    rw [hforks] at hr
    cases hr
  · exact fun r pid stored h => absurd h (hfrees r pid stored)

/-! ### Steps of the scheduler and context switches -/

/-- A step of CPU `c`, with thread `t`, that may change the thread of the CPU. -/
structure Switches (s s' : State n m) (c : Fin m) (t : Thr n m) : Prop where
  other : ∀ c', c' ≠ c → s'.cur c' = s.cur c' ∧ s'.cproc c' = s.cproc c'
  pos : ∀ t', t' ≠ t → s'.pos t' = s.pos t'
  saved : ∀ t', t' ≠ t → s'.saved t' = s.saved t'
  fits : (s'.pos t).Fits t
  cpu : CpuOk s' c
  lock : s'.lock = s.lock
  locks : ∀ l, l ∈ (s'.here c).locks (s'.cur c).1 ↔ l ∈ (s.here c).locks (s.cur c).1
  use : ∀ p, s'.inUse c = some p → s.inUse c = some p ∨ ∀ c', s.inUse c' ≠ some p
  state : ∀ p, s'.inUse c = some p → (s'.here c).Left (s'.proc p).state
  proc : ∀ q, (s'.proc q).state = (s.proc q).state ∨
    (∀ c', s.inUse c' ≠ some q) ∧ (s.proc q).state = .RUNNABLE ∧ (s'.proc q).state = .RUNNING
  own : ∀ p, t = .proc p → (s'.proc p).live = true → (∃ c, s'.cur c = (.proc p, false)) ∨ (s'.pos t).resumes = true ∧ s'.saved t = true
  forks : (s'.pos t).forks = none
  frees : ∀ q pid stored, s'.here c ≠ .waitFree q pid stored

theorem Inv.switches (hI : Inv s) (hcur : (s.cur c).1 = t) (h : Switches s s' c t) : Inv s' := by
  -- a process in a state other than RUNNABLE keeps it
  have hkeep : ∀ {q x}, (s.proc q).state = x → x ≠ .RUNNABLE → (s'.proc q).state = x := by
    rintro q x rfl hx
    rcases h.proc q with heq | ⟨-, hr, -⟩
    · exact heq
    · exact absurd hr hx
  refine hI.moves hcur ⟨h.other, h.pos, h.saved, h.fits, h.cpu, fun c' l => ?_, h.use, h.state, fun c' q _ hu => ?_, h.own,
    fun q _ hlive => .inl ?_, fun t' q _ hf => hkeep (hI.forks t' q hf).1 (by simp), fun q hf => ?_,
    fun q pid stored hf => absurd hf (h.frees q pid stored), fun c' q pid stored _ hf => hkeep (hI.frees c' q pid stored hf) (by simp)⟩
  · rw [h.lock]
    split
    · next hc => rw [hc, h.locks, hI.locks]
    · rfl
  · rcases h.proc q with heq | ⟨hno, -⟩
    · exact heq
    · exact absurd hu (hno c')
  · rcases h.proc q with heq | ⟨-, hr, -⟩
    · rwa [← Proc.live_congr heq]
    · simp [Proc.live, hr]
  · rw [h.forks] at hf
    cases hf

theorem Inv.cpu_cproc (hI : Inv s) (hcur : s.cur c = (.cpu c, false)) : s.cproc c = (s.pos (.cpu c)).cproc := by
  cases hI.cpu c with
  | sched b hcur' hproc => exact hproc
  | proc p b hcur' =>
    rw [hcur] at hcur'
    cases hcur'

theorem Inv.proc_cproc (hI : Inv s) (hcur : s.cur c = (.proc p, false)) :
    s.cproc c = some p ∧ s.pos (.cpu c) = .schedBack p := by
  cases hI.cpu c with
  | sched b hcur' =>
    rw [hcur] at hcur'
    cases hcur'
  | proc r b hcur' hproc hback =>
    rw [hcur] at hcur'
    obtain rfl := Thr.proc.inj (Prod.mk.inj hcur').1
    exact ⟨hproc, hback⟩

theorem here_update (hcur : (z.cur c).1 = t) (hpos : z.pos = update s.pos t Q) :
    z.here c = Q := by
  unfold State.here
  rw [hcur, hpos, update_self]

theorem Inv.choose (hI : Inv s) (hcur : s.cur c = (.cpu c, false)) (hP : s.pos (.cpu c) = .schedTest q)
    (hst : (s.proc q).state = .RUNNABLE) :
    Inv ((s.setProc q { s.proc q with state := .RUNNING }).go (.cpu c) (.schedSet q)) := by
  have hlock : s.lock (.proc q) = some c := by
    rw [hI.locks, Inv.here_eq hcur, hP]
    simp [Pos.locks]
  have hno : ∀ c', s.inUse c' ≠ some q := hI.unused hlock (by rw [Inv.here_eq hcur, hP]; rfl) (by rw [hst]; simp)
  have hhere := here_update (s := s) (z := (s.setProc q { s.proc q with state := .RUNNING }).go (.cpu c) (.schedSet q))
    (c := c) (t := .cpu c) (Q := .schedSet q) (by change (s.cur c).1 = _; rw [hcur]) rfl
  have huse : ((s.setProc q { s.proc q with state := .RUNNING }).go (.cpu c) (.schedSet q)).inUse c = some q := by
    rw [State.inUse_cpu (d := c) (by change (s.cur c).1 = _; rw [hcur])]
    change (update s.pos (Thr.cpu c) (Pos.schedSet q) (Thr.cpu c)).uses = _
    rw [update_self]
    rfl
  refine hI.switches (t := .cpu c) (by rw [hcur]) ⟨fun _ _ => ⟨rfl, rfl⟩, fun t' ht => update_of_ne ht _ _, fun _ _ => rfl,
    ?_, ?_, rfl, ?_, ?_, ?_, ?_, by simp, ?_, ?_⟩
  · change (update s.pos (Thr.cpu c) (Pos.schedSet q) (Thr.cpu c)).Fits _
    rw [update_self]
    rfl
  · refine .sched false hcur ?_ (by simp)
    change s.cproc c = (update s.pos (Thr.cpu c) (Pos.schedSet q) (Thr.cpu c)).cproc
    rw [update_self, hI.cpu_cproc hcur, hP]
    rfl
  · intro l
    rw [hhere, Inv.here_eq hcur, hP]
    rfl
  · intro p hp
    rw [huse] at hp
    obtain rfl := Option.some.inj hp
    exact .inr hno
  · intro p hp
    rw [huse] at hp
    obtain rfl := Option.some.inj hp
    rw [hhere]
    change (update s.proc q _ q).state = _
    rw [update_self]
  · intro r
    by_cases hr : r = q
    · subst hr
      refine .inr ⟨hno, hst, ?_⟩
      change (update s.proc r _ r).state = _
      rw [update_self]
    · left
      change (update s.proc q _ r).state = _
      rw [update_of_ne hr]
  · change (update s.pos (Thr.cpu c) (Pos.schedSet q) (Thr.cpu c)).forks = _
    rw [update_self]
    rfl
  · intro r pid stored
    rw [hhere]
    exact fun h => by cases h

theorem Inv.setCpu (hI : Inv s) (hcur : s.cur c = (.cpu c, false)) {v : Option (Fin n)} (hcproc : P'.cproc = v)
    (hfits : P'.ofCpu = true) (hlocks : ∀ l, l ∈ P'.locks (Thr.cpu c : Thr n m) ↔ l ∈ (s.pos (.cpu c)).locks (Thr.cpu c : Thr n m))
    (huse : ∀ p, P'.uses = some p → (s.pos (.cpu c)).uses = some p ∧ (s.pos (.cpu c)).leaves = false ∧ P'.Left .RUNNING)
    (hforks : P'.forks = none) (hfrees : ∀ q pid stored, P' ≠ .waitFree q pid stored) :
    Inv ({ s with cproc := update s.cproc c v }.go (.cpu c) P') := by
  have hhere := here_update (s := s) (z := { s with cproc := update s.cproc c v }.go (.cpu c) P')
    (c := c) (t := .cpu c) (Q := P') (by change (s.cur c).1 = _; rw [hcur]) rfl
  have huses : ({ s with cproc := update s.cproc c v }.go (.cpu c) P').inUse c = P'.uses := by
    rw [State.inUse_cpu (d := c) (by change (s.cur c).1 = _; rw [hcur])]
    change (update s.pos (Thr.cpu c) P' (Thr.cpu c)).uses = _
    rw [update_self]
  have hold : ∀ p, P'.uses = some p → s.inUse c = some p := by
    intro p hp
    rw [State.inUse_cpu (d := c) (by rw [hcur])]
    exact (huse p hp).1
  refine hI.switches (t := .cpu c) (by rw [hcur]) ⟨fun c' hc => ⟨rfl, update_of_ne hc _ _⟩,
    fun t' ht => update_of_ne ht _ _, fun _ _ => rfl, ?_, ?_, rfl, ?_, ?_, ?_, fun _ => .inl rfl, nofun, ?_, ?_⟩
  · change (update s.pos (Thr.cpu c) P' (Thr.cpu c)).Fits _
    rw [update_self]
    exact hfits
  · refine .sched false hcur ?_ nofun
    change update s.cproc c v c = (update s.pos (Thr.cpu c) P' (Thr.cpu c)).cproc
    rw [update_self, update_self, hcproc]
  · intro l
    rw [hhere, Inv.here_eq hcur]
    change l ∈ P'.locks (s.cur c).1 ↔ _
    rw [hcur]
    exact hlocks l
  · intro p hp
    rw [huses] at hp
    exact .inl (hold p hp)
  · intro p hp
    rw [huses] at hp
    have hst := hI.running (hold p hp) (by rw [Inv.here_eq hcur]; exact (huse p hp).2.1)
    rw [hhere]
    change P'.Left (s.proc p).state
    rw [hst]
    exact (huse p hp).2.2
  · change (update s.pos (Thr.cpu c) P' (Thr.cpu c)).forks = _
    rw [update_self]
    exact hforks
  · intro r pid stored
    rw [hhere]
    exact hfrees r pid stored

theorem Pos.resumes_own (h : P.resumes = true) (p : Fin n) :
    P.locks (Thr.proc p : Thr n m) = [.proc p] ∧ P.leaves = false ∧ P.Left .RUNNING ∧ ∀ q pid stored, P ≠ .waitFree q pid stored := by
  cases P with
  | sleep stage x => cases stage <;> first | exact ⟨rfl, rfl, rfl, nofun⟩ | cases h
  | yield stage => cases stage <;> first | exact ⟨rfl, rfl, rfl, nofun⟩ | cases h
  | _ => first | exact ⟨rfl, rfl, rfl, nofun⟩ | cases h

theorem Inv.toProc (hI : Inv s) (hcur : s.cur c = (.cpu c, false)) (hP : s.pos (.cpu c) = .schedSwtch q) :
    Inv ((s.save c (.cpu c) (.proc q)).go (.cpu c) (.schedBack q)) := by
  have huse : s.inUse c = some q := by
    rw [State.inUse_cpu (d := c) (by rw [hcur]), hP]
    rfl
  have hrun : (s.proc q).state = .RUNNING := hI.running huse (by rw [Inv.here_eq hcur, hP]; rfl)
  have hsaved : (s.pos (.proc q)).resumes = true ∧ s.saved (.proc q) = true := by
    rcases hI.saved q (by simp [Proc.live, hrun]) with ⟨c', hc'⟩ | hsv
    · obtain rfl := hI.uniq c' c q (State.inUse_proc (by rw [hc'])) huse
      rw [hcur] at hc'
      cases hc'
    · exact hsv
  obtain ⟨hlocks, -, hleft, hfrees⟩ := Pos.resumes_own (m := m) hsaved.1 q
  have hcur' : ((s.save c (.cpu c) (.proc q)).go (.cpu c) (.schedBack q)).cur c = (.proc q, true) := update_self ..
  have hhere : ((s.save c (.cpu c) (.proc q)).go (.cpu c) (.schedBack q)).here c = s.pos (.proc q) := by
    unfold State.here
    rw [hcur']
    change update s.pos (Thr.cpu c) (Pos.schedBack q) (Thr.proc q) = _
    rw [update_of_ne (by nofun)]
  refine hI.switches (t := .cpu c) (by rw [hcur]) ⟨fun c' hc => ⟨update_of_ne hc _ _, rfl⟩,
    fun t' ht => update_of_ne ht _ _, fun t' ht => update_of_ne ht _ _, ?_, ?_, rfl, ?_, ?_, ?_,
    fun _ => .inl rfl, nofun, ?_, ?_⟩
  · change (update s.pos (Thr.cpu c) (Pos.schedBack q) (Thr.cpu c)).Fits _
    rw [update_self]
    rfl
  · refine .proc q true hcur' ?_ ?_ fun _ => ?_
    · change s.cproc c = some q
      rw [hI.cpu_cproc hcur, hP]
      rfl
    · exact update_self ..
    · change (update s.pos (Thr.cpu c) (Pos.schedBack q) (Thr.proc q)).resumes = true ∧
        update s.saved (Thr.cpu c) true (Thr.proc q) = true
      rw [update_of_ne (by nofun), update_of_ne (by nofun)]
      exact hsaved
  · intro l
    rw [hhere, hcur', hlocks, Inv.here_eq hcur, hP]
    rfl
  · intro p hp
    rw [State.inUse_proc (by rw [hcur'])] at hp
    obtain rfl := Option.some.inj hp
    exact .inl huse
  · intro p hp
    rw [State.inUse_proc (by rw [hcur'])] at hp
    obtain rfl := Option.some.inj hp
    rw [hhere]
    change Pos.Left _ (s.proc q).state
    rw [hrun]
    exact hleft
  · change (update s.pos (Thr.cpu c) (Pos.schedBack q) (Thr.cpu c)).forks = _
    rw [update_self]
    rfl
  · intro r pid stored
    rw [hhere]
    exact hfrees r pid stored

theorem Inv.toSched (hI : Inv s) (hcur : s.cur c = (.proc p, false))
    (hlocks : (s.pos (.proc p)).locks (Thr.proc p : Thr n m) = [.proc p])
    (hleft : ∀ x, (s.pos (.proc p)).Left x → x = .RUNNABLE ∨ x = .SLEEPING ∨ x = .ZOMBIE)
    (hfits : P'.ofProc = true) (hforks : P'.forks = none)
    (hres : P'.resumes = true ∨ ∀ x, (s.pos (.proc p)).Left x → x = .ZOMBIE) :
    Inv ((s.save c (.proc p) (.cpu c)).go (.proc p) P') := by
  obtain ⟨hcproc, hback⟩ := hI.proc_cproc hcur
  have huse : s.inUse c = some p := State.inUse_proc (by rw [hcur])
  have hst := hI.state c p huse
  rw [Inv.here_eq hcur] at hst
  have hcur' : ((s.save c (.proc p) (.cpu c)).go (.proc p) P').cur c = (.cpu c, true) := update_self ..
  have hpos' : ((s.save c (.proc p) (.cpu c)).go (.proc p) P').pos (.cpu c) = .schedBack p := by
    change update s.pos (Thr.proc p) P' (Thr.cpu c) = _
    rw [update_of_ne (by nofun), hback]
  have hhere : ((s.save c (.proc p) (.cpu c)).go (.proc p) P').here c = .schedBack p := by
    unfold State.here
    rw [hcur']
    exact hpos'
  have huse' : ((s.save c (.proc p) (.cpu c)).go (.proc p) P').inUse c = some p := by
    rw [State.inUse_cpu (d := c) (by rw [hcur']), hpos']
    rfl
  refine hI.switches (t := .proc p) (by rw [hcur]) ⟨fun c' hc => ⟨update_of_ne hc _ _, rfl⟩,
    fun t' ht => update_of_ne ht _ _, fun t' ht => update_of_ne ht _ _, ?_, ?_, rfl, ?_, ?_, ?_,
    fun _ => .inl rfl, ?_, ?_, ?_⟩
  · change (update s.pos (Thr.proc p) P' (Thr.proc p)).Fits _
    rw [update_self]
    exact hfits
  · refine .sched true hcur' ?_ fun _ => ⟨p, hpos'⟩
    rw [hpos']
    exact hcproc
  · intro l
    rw [hhere, Inv.here_eq hcur, hcur, hlocks]
    rfl
  · intro r hr
    rw [huse'] at hr
    rw [huse, hr]
    exact .inl rfl
  · intro r hr
    rw [huse'] at hr
    obtain rfl := Option.some.inj hr
    rw [hhere]
    exact hleft _ hst
  · intro r hr hlive
    obtain rfl := Thr.proc.inj hr
    right
    change (update s.pos (Thr.proc p) P' (Thr.proc p)).resumes = true ∧
      update s.saved (Thr.proc p) true (Thr.proc p) = true
    rw [update_self, update_self]
    rcases hres with hres | hz
    · exact ⟨hres, rfl⟩
    · change (s.proc p).live = true at hlive
      simp [Proc.live, hz _ hst] at hlive
  · change (update s.pos (Thr.proc p) P' (Thr.proc p)).forks = _
    rw [update_self]
    exact hforks
  · intro r pid stored
    rw [hhere]
    exact fun h => by cases h

theorem Inv.load (hI : Inv s) (hload : s.cur c = (t, true)) : Inv (s.load c t) := by
  have hcur' : (s.load c t).cur c = (t, false) := update_self ..
  have hhere : (s.load c t).here c = s.here c := by
    unfold State.here
    rw [hcur', hload]
    rfl
  have huse : (s.load c t).inUse c = s.inUse c := by
    unfold State.inUse
    rw [hcur', hload]
    rfl
  have hnotFree : ∀ q pid stored, s.here c ≠ .waitFree q pid stored := by
    intro q pid stored
    cases hI.cpu c with
    | sched b hcur hproc hback =>
      rw [hload] at hcur
      obtain ⟨rfl, rfl⟩ := Prod.mk.inj hcur
      obtain ⟨r, hr⟩ := hback rfl
      unfold State.here
      rw [hload, hr]
      nofun
    | proc r b hcur hproc hback hres =>
      rw [hload] at hcur
      obtain ⟨rfl, rfl⟩ := Prod.mk.inj hcur
      unfold State.here
      rw [hload]
      exact (Pos.resumes_own (m := m) (hres rfl).1 r).2.2.2 q pid stored
  have hforks : (s.pos t).forks = none := by
    cases hI.cpu c with
    | sched b hcur hproc hback =>
      rw [hload] at hcur
      obtain ⟨rfl, rfl⟩ := Prod.mk.inj hcur
      obtain ⟨r, hr⟩ := hback rfl
      rw [hr]
      rfl
    | proc r b hcur hproc hback hres =>
      rw [hload] at hcur
      obtain ⟨rfl, rfl⟩ := Prod.mk.inj hcur
      have := (hres rfl).1
      revert this
      cases s.pos (.proc r) <;> simp [Pos.resumes, Pos.forks]
  refine hI.switches (t := t) (by rw [hload]) ⟨fun c' hc => ⟨update_of_ne hc _ _, rfl⟩, fun _ _ => rfl,
    fun t' ht => update_of_ne ht _ _, hI.fits t, ?_, rfl, ?_, ?_, ?_, fun _ => .inl rfl, ?_, hforks, ?_⟩
  · cases hI.cpu c with
    | sched b hcur hproc hback =>
      rw [hload] at hcur
      obtain ⟨rfl, rfl⟩ := Prod.mk.inj hcur
      exact .sched false hcur' hproc nofun
    | proc r b hcur hproc hback hres =>
      rw [hload] at hcur
      obtain ⟨rfl, rfl⟩ := Prod.mk.inj hcur
      exact .proc r false hcur' hproc hback nofun
  · intro l
    rw [hhere, hcur', hload]
  · intro p hp
    rw [huse] at hp
    exact .inl hp
  · intro p hp
    rw [huse] at hp
    rw [hhere]
    exact hI.state c p hp
  · rintro p rfl -
    exact .inl ⟨c, hcur'⟩
  · intro q pid stored
    rw [hhere]
    exact hnotFree q pid stored

theorem Inv.context (hI : Inv s) (hst : (s.proc q).state = .USED) : Inv (s.setContext q) := by
  have hno := hI.unused_of_state (.inl hst)
  have hne : ∀ c, (s.cur c).1 ≠ .proc q := fun c h => hno c (State.inUse_proc h)
  have hp : ∀ t, t ≠ .proc q → update s.pos (.proc q) .forkret t = s.pos t := fun t ht => update_of_ne ht _ _
  have hhere : ∀ c, (s.setContext q).here c = s.here c := fun c => hp _ (hne c)
  have huse : ∀ c, (s.setContext q).inUse c = s.inUse c := by
    intro c
    unfold State.inUse State.setContext
    dsimp only
    rw [hp _ (hne c)]
  have hforks : ∀ t r, (update s.pos (.proc q) Pos.forkret t).forks = some r → t ≠ .proc q ∧ (s.pos t).forks = some r := by
    intro t r ht
    by_cases heq : t = .proc q
    · subst heq
      rw [update_self] at ht
      cases ht
    · rw [hp _ heq] at ht
      exact ⟨heq, ht⟩
  refine ⟨?_, ?_, ?_, ?_, ?_, ?_, ?_, ?_, ?_, ?_⟩
  · intro d
    exact (hp (.cpu d) (by nofun)).symm ▸ hI.ofCpu d
  · intro p
    by_cases heq : p = q
    · subst heq
      change (update s.pos (Thr.proc p) Pos.forkret (Thr.proc p)).ofProc = true
      rw [update_self]
      rfl
    · change (update s.pos (Thr.proc q) Pos.forkret (Thr.proc p)).ofProc = true
      rw [hp _ fun h => heq (Thr.proc.inj h)]
      exact hI.ofProc p
  · intro c
    cases hI.cpu c with
    | sched b hcur hproc hload =>
      refine .sched b hcur ?_ ?_
      · exact (hp (.cpu c) (by nofun)).symm ▸ hproc
      · exact (hp (.cpu c) (by nofun)).symm ▸ hload
    | proc p b hcur hproc hback hload =>
      have hpq : Thr.proc p ≠ (Thr.proc q : Thr n m) := by
        have := hne c
        rwa [hcur] at this
      refine .proc p b hcur hproc ((hp (.cpu c) (by nofun)).symm ▸ hback) fun hb => ?_
      change (update s.pos _ _ _).resumes = true ∧ update s.saved _ _ _ = true
      rw [hp _ hpq, update_of_ne hpq]
      exact hload hb
  · intro c l
    rw [hhere]
    exact hI.locks c l
  · intro c c' p
    rw [huse, huse]
    exact hI.uniq c c' p
  · intro c p hu
    rw [huse] at hu
    rw [hhere]
    exact hI.state c p hu
  · intro p hlive
    by_cases heq : p = q
    · subst heq
      right
      change (update s.pos _ _ _).resumes = true ∧ update s.saved _ _ _ = true
      rw [update_self, update_self]
      exact ⟨rfl, rfl⟩
    · have hpq : Thr.proc p ≠ (Thr.proc q : Thr n m) := fun h => heq (Thr.proc.inj h)
      change (∃ c, s.cur c = _) ∨ (update s.pos _ _ _).resumes = true ∧ update s.saved _ _ _ = true
      rw [hp _ hpq, update_of_ne hpq]
      exact hI.saved p hlive
  · intro t r ht
    obtain ⟨htq, hf⟩ := hforks t r ht
    obtain ⟨hused, hctx⟩ := hI.forks t r hf
    refine ⟨hused, fun hr => ?_⟩
    change (update s.pos (.proc q) Pos.forkret t).ready = true at hr
    rw [hp _ htq] at hr
    change update s.pos _ _ _ = _ ∧ update s.saved _ _ _ = _
    by_cases heq : r = q
    · subst heq
      rw [update_self, update_self]
      exact ⟨rfl, rfl⟩
    · have hrq : Thr.proc r ≠ (Thr.proc q : Thr n m) := fun h => heq (Thr.proc.inj h)
      rw [hp _ hrq, update_of_ne hrq]
      exact hctx hr
  · intro t t' r h h'
    exact hI.forker t t' r (hforks t r h).2 (hforks t' r h').2
  · intro c r pid stored
    rw [hhere]
    exact hI.frees c r pid stored

theorem Inv.contextGo (hI : Inv s) (hcur : s.cur c = (t, false)) (hP : s.pos t = .allocContext q)
    (hctx : s.pos (.proc q) = .forkret ∧ s.saved (.proc q) = true) : Inv (s.go t (.forkCopy q)) := by
  refine hI.goes hcur ⟨rfl, rfl, rfl, rfl, hI.lock_same hcur ?_, ?_, ?_, ?_, fun _ => .inl rfl, ?_, nofun⟩
  · rw [hP]
    exact fun l => Iff.rfl
  · have hfits := hI.fits t
    rw [hP] at hfits
    cases t with
    | proc p => rfl
    | cpu d => cases hfits
  · rintro d rfl
    rw [hP]
    exact ⟨rfl, fun _ => id, rfl⟩
  · rintro p rfl
    exact hI.running (State.inUse_proc (by rw [hcur])) (by rw [Inv.here_eq hcur, hP]; rfl)
  · intro r hr
    obtain rfl := Option.some.inj hr
    have hf : (s.pos t).forks = some q := by rw [hP]; rfl
    exact ⟨(hI.forks t q hf).1, .inl ⟨hf, fun _ => .inr hctx⟩⟩

/-! ### All steps -/

theorem apply_tau (h : (Effect.tau P' : Effect n m).apply s c t = .ok s') : s' = s.go t P' := (Except.ok.inj h).symm

theorem apply_set (h : (Effect.set q x P' : Effect n m).apply s c t = .ok s') : s' = (s.setProc q x).go t P' :=
  (Except.ok.inj h).symm

theorem apply_release (h : (Effect.release l P' : Effect n m).apply s c t = .ok s') :
    s' = (s.setLock l none).go t P' :=
  (Except.ok.inj h).symm

theorem apply_acquire (h : (Effect.acquire l P' : Effect n m).apply s c t = .ok s') :
    s.lock l = none ∧ s' = ((s.setLock l (some c)).noteAcquire t l).go t P' := by
  simp only [Effect.apply] at h
  split at h
  · exact ⟨by assumption, (Except.ok.inj h).symm⟩
  · cases h

theorem mem_release {L : List (Lock n)} (h : l ∉ L) (l' : Lock n) : l' ∈ L ↔ l' ≠ l ∧ l' ∈ l :: L := by
  rw [List.mem_cons]
  constructor
  · intro hl
    exact ⟨fun heq => h (heq ▸ hl), .inr hl⟩
  · rintro ⟨hne, heq | hl⟩
    · exact absurd heq hne
    · exact hl

theorem proc_not_mem_ret (q : Fin n) (ret : Ret) : Lock.proc q ∉ ret.locks := by
  cases ret <;> simp [Ret.locks, lks]

theorem Ret.next_locks (ret : Ret) (t : Thr n m) : (ret.next : Pos n).locks t = ret.locks := by
  cases ret <;> rfl

theorem Ret.static (ret : Ret) (t : Thr n m) (chan : Chan n) (i start : Nat) :
    Static t (.wakeup chan i start ret) ret.next := by
  cases ret <;>
    exact ⟨by cases t <;> simp [Pos.Fits, Pos.ofCpu, Pos.ofProc, Ret.next], rfl, fun _ => id, rfl, by rintro _ ⟨⟩, by rintro _ _ _ ⟨⟩⟩

section

variable (hI : Inv s) (hcur : s.cur c = (t, false)) (hP : s.pos t = P) {held : List Nat} {a : Nat} {e : Effect n m}

include hI hcur hP

theorem Inv.tauStep (h : (Effect.tau P' : Effect n m).apply s c t = .ok s') (hs : Static t P P')
    (hl : ∀ l, l ∈ P'.locks t ↔ l ∈ P.locks t) : Inv s' := by
  subst hP
  exact apply_tau h ▸ hI.tau hcur hs hl

theorem Inv.setStep (h : (Effect.set q x P' : Effect n m).apply s c t = .ok s') (hs : Static t P P')
    (hl : ∀ l, l ∈ P'.locks t ↔ l ∈ P.locks t) (hx : x.state = (s.proc q).state) : Inv s' := by
  subst hP
  exact apply_set h ▸ hI.set hcur hs hl hx

theorem Inv.acquireStep (h : (Effect.acquire l P' : Effect n m).apply s c t = .ok s') (hs : Static t P P')
    (hl : ∀ l', l' ∈ P'.locks t ↔ l' = l ∨ l' ∈ P.locks t) : Inv s' := by
  subst hP
  obtain ⟨hfree, rfl⟩ := apply_acquire h
  exact hI.acquire hcur hs hfree hl

theorem Inv.releaseStep (h : (Effect.release l P' : Effect n m).apply s c t = .ok s') (hs : Static t P P')
    (hheld : l ∈ P.locks t) (hl : ∀ l', l' ∈ P'.locks t ↔ l' ≠ l ∧ l' ∈ P.locks t) : Inv s' := by
  subst hP
  exact apply_release h ▸ hI.release hcur hs hheld hl

/-- The lock that was taken last is released. -/
theorem Inv.releaseLast (h : (Effect.release l P' : Effect n m).apply s c t = .ok s') (hs : Static t P P')
    (hlocks : P.locks t = l :: P'.locks t) (hl : l ∉ P'.locks t) : Inv s' := by
  refine hI.releaseStep hcur hP h hs ?_ fun l' => ?_ <;> rw [hlocks]
  · exact mem_cons_self ..
  · exact mem_release hl l'

theorem Inv.foreignStep (h : (Effect.set q x P' : Effect n m).apply s c t = .ok s') (hb : Beside t q P P')
    (hstate : (s.proc q).state ≠ .RUNNING) (hused : (s.proc q).state = .USED → P.forks = some q)
    (hlive : x.live = true → (s.proc q).live = true ∨ P.forks = some q ∧ P.ready = true) (hforks : P'.forks = none) : Inv s' := by
  subst hP
  obtain rfl := apply_set h
  exact hI.foreign hcur rfl rfl rfl rfl rfl rfl hb hstate (fun hu => ⟨hused hu, hforks⟩) hlive fun r hr => by rw [hforks] at hr; cases hr

end

theorem Inv.releaseKern (hI : Inv s) (hcur : s.cur c = (t, false)) (hP : s.pos t = .kern held) (ha : a ∈ held)
    (h : (Effect.release (.lk (.other a)) (.kern (held.filter (· ≠ a))) : Effect n m).apply s c t = .ok s') : Inv s' := by
  refine hI.releaseStep hcur hP h ⟨fun _ => by cases t <;> rfl, rfl, fun _ => id, rfl, by rintro _ ⟨⟩, by rintro _ _ _ ⟨⟩⟩ ?_ fun l => ?_
  · simpa [Pos.locks, lks] using ha
  · cases l with
    | proc r => simp [Pos.locks, lks]
    | lk l => cases l <;> simp [Pos.locks, lks, and_comm]

theorem Inv.wakeupRet (hI : Inv s) (hcur : s.cur c = (t, false)) {chan : Chan n} {i start : Nat} {ret : Ret}
    (hP : s.pos t = .wakeup chan i start ret) (h : (Effect.tau ret.next : Effect n m).apply s c t = .ok s') : Inv s' := by
  refine hI.tauStep hcur hP h (Ret.static ..) fun l => ?_
  rw [Ret.next_locks]
  rfl

theorem sleepRelease_locks (p : Fin n) (x : Sleep n) (l : Lock n) : l ∈ (Pos.sleep .set x).locks (Thr.proc p : Thr n m) ↔
    l ≠ .lk x.lk ∧ l ∈ (Pos.sleep .release x).locks (Thr.proc p : Thr n m) := by
  simp only [Pos.locks, Thr.own, List.mem_append, List.mem_cons, List.not_mem_nil, or_false, List.mem_filter, decide_eq_true_eq]
  constructor
  · rintro (rfl | ⟨hl, hne⟩)
    · exact ⟨by simp, .inl rfl⟩
    · exact ⟨hne, .inr (.inr hl)⟩
  · rintro ⟨hne, rfl | heq | hl⟩
    · exact .inl rfl
    · exact absurd heq hne
    · exact .inr ⟨hl, hne⟩

theorem exitUnlock_locks (p : Fin n) (l : Lock n) : l ∈ (Pos.exitSched : Pos n).locks (Thr.proc p : Thr n m) ↔
    l ≠ .lk .wait ∧ l ∈ (Pos.exitUnlock : Pos n).locks (Thr.proc p : Thr n m) := by
  simp only [Pos.locks, Thr.own, List.mem_append, List.mem_cons, List.not_mem_nil, or_false]
  constructor
  · rintro rfl
    exact ⟨by simp, .inl rfl⟩
  · rintro ⟨hne, hl | hl⟩
    · exact hl
    · exact absurd hl hne

theorem callSleep_locks (ha : a ∈ held) (p : Fin n) (chan : Chan n) (now : Nat) (l : Lock n) :
    l ∈ (Pos.sleep .lock ⟨chan, .other a, held.filter (· ≠ a), now, none⟩).locks (Thr.proc p : Thr n m) ↔
      l ∈ (Pos.kern held).locks (Thr.proc p : Thr n m) := by
  cases l with
  | proc r => simp [Pos.locks, lks]
  | lk l =>
    cases l with
    | wait => simp [Pos.locks, lks]
    | other b => by_cases hb : b = a <;> simp [Pos.locks, lks, hb, ha]

theorem Inv.procActs (hI : Inv s) (hcur : s.cur c = (.proc p, false))
    (hP : s.pos (.proc p) = P) (ha : Acts s (some p) P e) (h : e.apply s c (.proc p) = .ok s') : Inv s' := by
  have hkind := hI.ofProc p
  rw [hP] at hkind
  have huse : s.inUse c = some p := State.inUse_proc (by rw [hcur])
  cases ha with
  | wakeup | callYield | callFork | callWait | callKill | wakeupMe | wakeupSkip | killNone | killSkip | allocNone | allocSkip
  | reparentSkip | exitWakeup | exitAlone | waitSkip | waitNobody | waitMore | waitFail | waitAlive | waitNone
  | waitKilledRead =>
    exact hI.tauStep hcur hP h ⟨fun _ => rfl, rfl, fun _ => id, rfl, by rintro _ ⟨⟩, by rintro _ _ _ ⟨⟩⟩ fun _ => Iff.rfl
  | wakeupRet => exact hI.wakeupRet hcur hP h
  | sleepWait hx hlk | sleepRet hx hlk => exact hI.tauStep hcur hP h ⟨fun _ => rfl, rfl, fun _ => id, rfl, by rintro _ ⟨⟩, by rintro _ _ _ ⟨⟩⟩ fun l => by simp [Pos.locks, lks, hlk]
  | copyFail =>
    exact hI.tauStep hcur hP h ⟨fun _ => rfl, rfl, fun _ => id, rfl, fun _ hq => ⟨hq, by rintro ⟨⟩⟩, by rintro _ _ _ ⟨⟩⟩ fun _ => Iff.rfl
  | waitFound hst =>
    obtain rfl := apply_tau h
    refine hI.goes hcur ⟨rfl, rfl, rfl, rfl, hI.lock_same hcur ?_, rfl, by rintro _ ⟨⟩, ?_, fun _ => .inl rfl, by rintro _ ⟨⟩, ?_⟩
    · rw [hP]
      exact fun l => Iff.rfl
    · intro r hr
      obtain rfl := Thr.proc.inj hr
      exact hI.running huse (by rw [Inv.here_eq hcur, hP]; rfl)
    · intro r pid stored heq
      cases heq
      exact hst
  | acquire | wakeupLock | sleepLock | sleepRelock | yieldLock | killLock | allocLock | exitWait | exitLock
  | waitLock | waitChild | waitKilled =>
    exact hI.acquireStep hcur hP h ⟨fun _ => rfl, rfl, fun _ => id, rfl, by rintro _ ⟨⟩, by rintro _ _ _ ⟨⟩⟩ fun l => by simp [Pos.locks, Ret.locks, lks, Thr.own]
  | forkWait | forkLock =>
    exact hI.acquireStep hcur hP h ⟨fun _ => rfl, rfl, fun _ => id, rfl, fun _ hq => ⟨hq, fun _ => rfl⟩, by rintro _ _ _ ⟨⟩⟩ fun l => by simp [Pos.locks]
  | release ha => exact hI.releaseKern hcur hP ha h
  | wakeupUnlock => exact hI.releaseLast hcur hP h ⟨fun _ => rfl, rfl, fun _ => id, rfl, by rintro _ ⟨⟩, by rintro _ _ _ ⟨⟩⟩ rfl (proc_not_mem_ret _ _)
  | sleepRelease => exact hI.releaseStep hcur hP h ⟨fun _ => rfl, rfl, fun _ => id, rfl, by rintro _ ⟨⟩, by rintro _ _ _ ⟨⟩⟩ (by simp [Pos.locks]) (sleepRelease_locks p _)
  | killUnlock =>
    rename_i found
    cases found <;> exact hI.releaseLast hcur hP h ⟨fun _ => rfl, rfl, fun _ => id, rfl, by rintro _ ⟨⟩, by rintro _ _ _ ⟨⟩⟩ rfl (by simp [Pos.locks, lks])
  | sleepUnlock | yieldUnlock | forkret | allocUnlock | forkFreed | forkDone | waitReturn | waitUnlock | waitFailUnlock | waitFreed
  | waitKilledYes | waitKilledNo =>
    exact hI.releaseLast hcur hP h ⟨fun _ => rfl, rfl, fun _ => id, rfl, by rintro _ ⟨⟩, by rintro _ _ _ ⟨⟩⟩ rfl (by simp [Pos.locks, lks])
  | forkUnlock | forkWaitUnlock =>
    exact hI.releaseLast hcur hP h ⟨fun _ => rfl, rfl, fun _ => id, rfl, fun _ hq => ⟨hq, fun _ => rfl⟩, by rintro _ _ _ ⟨⟩⟩ rfl (by simp [Pos.locks])
  | exitUnlock => exact hI.releaseStep hcur hP h ⟨fun _ => rfl, rfl, fun _ => id, rfl, by rintro _ ⟨⟩, by rintro _ _ _ ⟨⟩⟩ (by simp [Pos.locks]) (exitUnlock_locks p)
  | callSleep chan ha => exact hI.setStep hcur hP h ⟨fun _ => rfl, rfl, fun _ => id, rfl, by rintro _ ⟨⟩, by rintro _ _ _ ⟨⟩⟩ (callSleep_locks ha p chan s.now) rfl
  | callExit | exec | sleepWake | killSet | reparent | waitSleep => exact hI.setStep hcur hP h ⟨fun _ => rfl, rfl, fun _ => id, rfl, by rintro _ ⟨⟩, by rintro _ _ _ ⟨⟩⟩ (fun _ => Iff.rfl) rfl
  | memNone | memFail | mem | copy | forkParent =>
    exact hI.setStep hcur hP h ⟨fun _ => rfl, rfl, fun _ => id, rfl, fun _ hq => ⟨hq, fun hr => hr⟩, by rintro _ _ _ ⟨⟩⟩ (fun _ => Iff.rfl) rfl
  | wakeupSet hst | killWake _ hst =>
    refine hI.foreignStep hcur hP h ⟨fun _ => rfl, rfl, rfl, rfl, rfl, fun _ => Iff.rfl, mem_cons_self .., by rintro _ _ _ ⟨⟩⟩ (by rw [hst]; simp) (by rw [hst]; simp) ?_ rfl
    exact fun _ => .inl (by simp [Proc.live, hst])
  | alloc hst =>
    cases h
    refine hI.foreign hcur rfl rfl rfl rfl rfl rfl ?_ (by rw [hst]; simp) (by rw [hst]; simp) ?_ ?_
    · rw [hP]
      exact ⟨fun _ => rfl, rfl, rfl, rfl, rfl, fun _ => Iff.rfl, mem_cons_self .., by rintro _ _ _ ⟨⟩⟩
    · exact fun hl => by simp [Proc.live] at hl
    · intro r hr
      exact ⟨(Option.some.inj hr).symm, rfl, hst, rfl⟩
  | forkFree =>
    have hused := (hI.forks (.proc p) _ (by rw [hP]; rfl)).1
    refine hI.foreignStep hcur hP h ⟨fun _ => rfl, rfl, rfl, rfl, rfl, fun _ => Iff.rfl, mem_cons_self .., by rintro _ _ _ ⟨⟩⟩ (by rw [hused]; simp) (fun _ => rfl) ?_ rfl
    exact fun hl => by simp [Proc.live, Proc.freed] at hl
  | forkRun =>
    have hused := (hI.forks (.proc p) _ (by rw [hP]; rfl)).1
    exact hI.foreignStep hcur hP h ⟨fun _ => rfl, rfl, rfl, rfl, rfl, fun _ => Iff.rfl, mem_cons_self .., by rintro _ _ _ ⟨⟩⟩ (by rw [hused]; simp) (fun _ => rfl) (fun _ => .inr ⟨rfl, rfl⟩) rfl
  | waitFree =>
    have hz := hI.frees c _ _ _ ((Inv.here_eq hcur).trans hP)
    cases h
    refine hI.foreign hcur rfl rfl rfl rfl rfl rfl ?_ (by rw [hz]; simp) (by rw [hz]; simp) ?_ (by rintro _ ⟨⟩)
    · rw [hP]
      exact ⟨fun _ => rfl, rfl, rfl, rfl, rfl, fun _ => Iff.rfl, mem_cons_self .., by rintro _ _ _ ⟨⟩⟩
    · exact fun hl => by simp [Proc.live, Proc.freed] at hl
  | sleepSet | yieldSet | exitSet =>
    obtain rfl := apply_set h
    refine hI.leave hcur rfl rfl ?_ rfl (by simp)
    rw [hP]
    exact fun l => Iff.rfl
  | sleepSched hrest =>
    cases h
    refine hI.toSched hcur ?_ ?_ rfl rfl (.inl rfl) <;> rw [hP]
    · simp [Pos.locks, Thr.own, hrest, lks]
    · exact fun _ hx => .inr (.inl hx)
  | yieldSched =>
    cases h
    refine hI.toSched hcur ?_ ?_ rfl rfl (.inl rfl) <;> rw [hP]
    · rfl
    · exact fun _ hx => .inl hx
  | exitSched =>
    cases h
    refine hI.toSched hcur ?_ ?_ rfl rfl (.inr ?_) <;> rw [hP]
    · rfl
    · exact fun _ hx => .inr (.inr hx)
    · exact fun _ hx => hx
  | context =>
    rename_i q
    have hused := (hI.forks (.proc p) q (by rw [hP]; rfl)).1
    have hpq : Thr.proc p ≠ (Thr.proc q : Thr n m) := by
      intro heq
      exact hI.unused_of_state (.inl hused) c (State.inUse_proc (by rw [hcur]; exact heq))
    cases h
    have hJ := hI.context hused
    have hP' : (s.setContext q).pos (.proc p) = .allocContext q := by
      rw [← hP]
      exact update_of_ne hpq _ _
    refine hJ.contextGo hcur hP' ⟨update_self .., update_self ..⟩
  | intr | schedLock | schedAgain | choose | schedSkip | schedSet | schedSwtch | schedBack | schedUnlock => cases hkind

theorem Inv.cpuActs (hI : Inv s) (hcur : s.cur c = (.cpu c, false))
    (hP : s.pos (.cpu c) = P) (ha : Acts s P.cproc P e) (h : e.apply s c (.cpu c) = .ok s') : Inv s' := by
  have hkind := hI.ofCpu c
  rw [hP] at hkind
  generalize hme : P.cproc = me at ha
  cases ha with
  | wakeup | iret | intr | schedAgain | schedSkip => exact hI.tauStep hcur hP h ⟨fun _ => rfl, rfl, fun _ => id, rfl, by rintro _ ⟨⟩, by rintro _ _ _ ⟨⟩⟩ fun _ => Iff.rfl
  | wakeupSkip => exact hI.tauStep hcur hP h ⟨by cases ‹Ret› <;> exact id, rfl, fun _ => id, rfl, by rintro _ ⟨⟩, by rintro _ _ _ ⟨⟩⟩ fun _ => Iff.rfl
  | wakeupRet => exact hI.wakeupRet hcur hP h
  | acquire | schedLock => exact hI.acquireStep hcur hP h ⟨fun _ => rfl, rfl, fun _ => id, rfl, by rintro _ ⟨⟩, by rintro _ _ _ ⟨⟩⟩ fun l => by simp [Pos.locks, lks]
  | wakeupLock => exact hI.acquireStep hcur hP h ⟨by cases ‹Ret› <;> exact id, rfl, fun _ => id, rfl, by rintro _ ⟨⟩, by rintro _ _ _ ⟨⟩⟩ fun l => by simp [Pos.locks]
  | release ha => exact hI.releaseKern hcur hP ha h
  | wakeupUnlock => exact hI.releaseLast hcur hP h ⟨by cases ‹Ret› <;> exact id, rfl, fun _ => id, rfl, by rintro _ ⟨⟩, by rintro _ _ _ ⟨⟩⟩ rfl (proc_not_mem_ret _ _)
  | schedUnlock => exact hI.releaseLast hcur hP h ⟨fun _ => rfl, rfl, fun _ => id, rfl, by rintro _ ⟨⟩, by rintro _ _ _ ⟨⟩⟩ rfl (by simp [Pos.locks])
  | wakeupSet hst =>
    refine hI.foreignStep hcur hP h ⟨by cases ‹Ret› <;> exact id, rfl, rfl, rfl, rfl, fun _ => Iff.rfl, mem_cons_self .., by rintro _ _ _ ⟨⟩⟩ (by rw [hst]; simp) (by rw [hst]; simp) ?_ rfl
    exact fun _ => .inl (by simp [Proc.live, hst])
  | choose hst =>
    obtain rfl := apply_set h
    exact hI.choose hcur hP hst
  | schedSet =>
    cases h
    refine hI.setCpu hcur rfl rfl ?_ ?_ rfl (by simp) <;> rw [hP]
    · exact fun l => Iff.rfl
    · exact fun r hr => ⟨hr, rfl, rfl⟩
  | schedSwtch =>
    cases h
    exact hI.toProc hcur hP
  | schedBack =>
    cases h
    refine hI.setCpu hcur rfl rfl ?_ (by rintro _ ⟨⟩) rfl (by rintro _ _ _ ⟨⟩)
    rw [hP]
    exact fun l => Iff.rfl
  | _ => first | (cases hme; done) | cases hkind

theorem Inv.next {e : Fin m × Choice n} (hI : Inv s) (h : next s e = .ok s') : Inv s' := by
  unfold Sched.next at h
  split at h
  · rename_i hload
    cases h
    exact hI.load (by rw [← hload])
  · rename_i hload
    have hrun : (s.cur e.1).2 = false := Bool.eq_false_of_not_eq_true hload
    have ha := code_acts h
    cases hI.cpu e.1 with
    | sched b hcur hproc =>
      rw [hcur] at hrun h ha
      obtain rfl : b = false := hrun
      rw [hproc] at ha
      exact hI.cpuActs hcur rfl ha (by rwa [hproc] at h)
    | proc p b hcur hproc =>
      rw [hcur] at hrun h ha
      obtain rfl : b = false := hrun
      rw [hproc] at ha
      exact hI.procActs hcur rfl ha (by rwa [hproc] at h)

theorem inv_boot (initproc : Fin n) (pagetable trapframe : Nat) :
    Inv (boot initproc pagetable trapframe : State n m) := by
  have hstate : ∀ q, ((boot initproc pagetable trapframe : State n m).proc q).state =
      if q = initproc then .RUNNABLE else .UNUSED := by
    intro q
    by_cases hq : q = initproc
    · subst hq
      simp [boot]
    · simp [boot, hq]
  refine ⟨fun _ => rfl, fun _ => rfl, fun c => .sched false rfl rfl nofun, ?_, nofun, nofun, ?_, ?_, ?_, nofun⟩
  · intro c l
    exact ⟨nofun, fun hl => by cases hl⟩
  · intro q hlive
    refine .inr ⟨rfl, ?_⟩
    change decide (q = initproc) = true
    by_contra hq
    have hq : q ≠ initproc := by simpa using hq
    have := hstate q
    rw [if_neg hq] at this
    simp [Proc.live, this] at hlive
  · intro t q hf
    cases t <;> cases hf
  · intro t t' q hf
    cases t <;> cases hf

theorem inv_run {initproc : Fin n} {pagetable trapframe : Nat} {es : List (Fin m × Choice n)}
    (h : run next (boot initproc pagetable trapframe) es = .ok s) : Inv s :=
  run_induct (fun _ _ _ _ hn hI => hI.next hn) along_true h (inv_boot ..)

end Xv6.Sched
