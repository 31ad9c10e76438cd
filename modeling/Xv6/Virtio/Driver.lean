import Xv6.Virtio.Step

/-!
# Runs of the driver

The invariant holds in every run, with any interleaving of calls, interrupts and the device, and however often the indices of the
rings wrap.
-/

namespace Xv6.Virtio

open Run
open Xv6.Bio (NBUF)

variable {β : Type} {n : Nat} {s s' s₀ : State β n} {p : Fin n} {c : Chain}

theorem inv_start (h : Start s) : Inv s := by
  have hnone : ∀ {p b w ph}, ¬s.Has p b w ph := by
    intro p b w ph hp
    unfold State.Has at hp
    rw [h.pc] at hp
    cases hp
  have hlist : ∀ {r : RingBuf 16 (Entry n)}, r.head = r.tail → r.toList NUM = [] := fun hr =>
    List.length_eq_zero_iff.mp (RingBuf.length_toList.trans (RingBuf.head_eq_tail_iff.mp hr))
  have hflight : s.flight = [] := by
    unfold State.flight
    rw [hlist h.avail, hlist h.used, h.taken, h.worked]
    rfl
  refine ⟨fun hp => absurd hp hnone, fun hp => absurd hp hnone, fun hi hf => ?_, fun hp => absurd hp hnone, fun {p} => ?_,
    fun hp => absurd hp hnone, ?_, fun e he => ?_, fun e he => ?_, fun e he => ?_, fun hp => absurd hp hnone, fun hp => absurd hp hnone,
    fun hp => absurd hp hnone⟩
  · rw [h.free _ hi] at hf
    cases hf
  · rw [h.pc, h.lock]
    exact ⟨fun h => False.elim h, nofun⟩
  · rw [hflight]
    exact List.nodup_nil
  · rw [hflight] at he
    cases he
  · rw [h.worked, hlist h.used] at he
    cases he
  · rw [hlist h.used] at he
    cases he

theorem inv_run {es : List (Event n)} (hs : Start s₀) (h : run next s₀ es = .ok s) : Inv s := by
  refine run_induct (I := fun s => Inv s) (fun s e s' _ hn hI => ?_) along_true h (inv_start hs)
  have := hI.next e
  rw [hn] at this
  exact this

def State.chainOf (s : State β n) (p : Fin n) : Option Chain := (s.pc p).req.bind fun x => x.2.2.chain

theorem chainOf_eq_some : s.chainOf p = some c ↔ ∃ b w ph, s.Has p b w ph ∧ ph.chain = some c := by
  unfold State.chainOf State.Has
  rcases (s.pc p).req with - | ⟨b, w, ph⟩
  · exact ⟨nofun, fun ⟨_, _, _, h, _⟩ => nomatch h⟩
  · constructor
    · intro h
      exact ⟨b, w, ph, rfl, h⟩
    · rintro ⟨b', w', ph', h, hc⟩
      cases h
      exact hc

theorem Inv.returns (hI : Inv s) {b : Fin NBUF} {w : Bool} (hpc : s.pc p = .rw b w (.wait c) .running)
    (h : s.step p = .ok s') (hidle : s'.pc p = .idle) : ⟨p, s.calls p, b⟩ ∈ s.finished := by
  refine hI.back (has_of_pc hpc) ?_
  by_contra hd
  have hd : s.disk b = true := by simpa using hd
  simp only [State.step, hpc, if_pos hd] at h
  cases h
  change Function.update s.pc p _ p = _ at hidle
  rw [Function.update_self] at hidle
  cases hidle

/-- The driver is safe in every run: each descriptor is free or belongs to one request, which has three; no slot of a ring is written
while it is in use; a process returns only when its own request is complete. -/
theorem driver_safe {es : List (Event n)} {s₀ : State β n} (hs : Start s₀) (h : run next s₀ es = .ok s) :
    (∀ i, i < NUM → (s.free i = true ∧ ∀ p c, s.chainOf p = some c → ¬c.Mem i) ∨
      s.free i = false ∧ ∃! p, ∃ c, s.chainOf p = some c ∧ c.Mem i) ∧
    (∀ p c, s.chainOf p = some c → c.i₀ ≠ c.i₁ ∧ c.i₀ ≠ c.i₂ ∧ c.i₁ ≠ c.i₂ ∧ ∀ i, c.Mem i → i < NUM) ∧
    (∀ p b w c, s.pc p = .rw b w (.announce c) .running →
      ∀ j, j < s.avail.size → (s.avail.head.toNat + j) % NUM ≠ s.avail.tail.toNat % NUM) ∧
    (∀ e ∈ s.worked, ∀ j, j < s.used.size → (s.used.head.toNat + j) % NUM ≠ s.used.tail.toNat % NUM) ∧
    (∀ p b w c s', s.pc p = .rw b w (.wait c) .running → s.step p = .ok s' → s'.pc p = .idle → ⟨p, s.calls p, b⟩ ∈ s.finished) ∧
    (∀ s', s.intr = .ok s' → s.used.head ≠ s.used.tail → ∃ r, (s.used.front NUM).req = some r ∧ r ∈ s.finished ∧
      (s.pc r.p).buf = some r.b ∧ s.calls r.p = r.call ∧ s'.disk = Function.update s.disk r.b false ∧
      s'.pc = (s.wakeup (.buf r.b)).pc) ∧
    ∀ e m, next s e ≠ .error (.panic m) := by
  have hI := inv_run hs h
  refine ⟨fun i hi => ?_, fun p c hp => ?_, fun p b w c hpc j hj => ?_, fun e he j hj => ?_,
    fun p b w c s' hpc hstep hidle => hI.returns hpc hstep hidle, fun s' hintr hne => ?_, fun e m hpanic => ?_⟩
  · cases hf : s.free i with
    | true =>
      refine .inl ⟨rfl, fun p c hp hm => ?_⟩
      obtain ⟨b, w, ph, hp, hc⟩ := chainOf_eq_some.mp hp
      have := (hI.good hp hc).notFree i hm
      rw [hf] at this
      cases this
    | false =>
      obtain ⟨p, b, w, ph, c, hp, hc, hm⟩ := hI.inUse hi hf
      refine .inr ⟨rfl, p, ⟨c, chainOf_eq_some.mpr ⟨b, w, ph, hp, hc⟩, hm⟩, ?_⟩
      rintro q ⟨c', hq, hm'⟩
      obtain ⟨b', w', ph', hq, hc'⟩ := chainOf_eq_some.mp hq
      exact hI.apart hq hc' hp hc hm' hm
  · obtain ⟨b, w, ph, hp, hc⟩ := chainOf_eq_some.mp hp
    have hg := hI.good hp hc
    exact ⟨hg.ne₀₁, hg.ne₀₂, hg.ne₁₂, hg.lt⟩
  · exact RingBuf.cell_ne_tail (by decide) (hI.avail_lt (has_of_pc hpc) (.inl rfl)) hj
  · exact RingBuf.cell_ne_tail (by decide) (hI.used_lt he) hj
  · obtain ⟨p, b, w, c, hlist, hp, hid, hr, hst, hb⟩ := hI.front_used hne
    have hmem : s.used.front NUM ∈ s.used.toList NUM := by
      rw [hlist]
      exact List.mem_cons_self
    refine ⟨⟨p, s.calls p, b⟩, hr, hI.done _ hmem _ hr, ?_, rfl, ?_⟩
    · unfold State.Has at hp
      cases hpc : s.pc p with
      | idle =>
        rw [hpc] at hp
        cases hp
      | rw b' w' ph' pos' =>
        rw [hpc] at hp
        cases hp
        rfl
    · unfold State.intr at hintr
      split at hintr
      · cases hintr
      · simp only [hst, ne_eq, not_true_eq_false, if_false, hb] at hintr
        cases hintr
        exact ⟨rfl, rfl⟩
  · have := hI.next e
    rw [hpanic] at this
    exact this

def fresh : State Nat 1 where
  desc := fun _ => {}
  free := fun _ => true
  info := fun _ => {}
  ops := fun _ => {}
  avail := ⟨fun _ => {}, 65535, 65535⟩
  used := ⟨fun _ => {}, 65535, 65535⟩
  disk := fun _ => false
  blockno := fun _ => 0
  data := fun _ => 7
  lock := none
  pc := fun _ => .idle
  calls := fun _ => 0
  taken := []
  worked := []
  media := fun _ => 0
  finished := []

local instance oneCaller : NeZero 1 := ⟨Nat.one_ne_zero⟩

local instance someBuf : NeZero Bio.NBUF := ⟨by decide⟩

def oneWrite : List (Event 1) :=
  [.call 0 3 true, .step 0, .step 0, .step 0, .step 0, .step 0, .devTake, .devWork ⟨0, some ⟨0, 1, 3⟩⟩, .devDone ⟨0, some ⟨0, 1, 3⟩⟩, .irq,
    .intr, .intr, .step 0]

theorem driver_safe_oneWrite : ∃ s, run next fresh oneWrite = .ok s ∧ ⟨0, 1, 3⟩ ∈ s.finished ∧ ∀ e m, next s e ≠ .error (.panic m) := by
  have hstart : Start fresh := ⟨fun _ _ => rfl, rfl, rfl, rfl, fun _ => rfl, rfl, rfl⟩
  have hrun : Ends (fun s => s.pc 0 = .rw 3 true (.wait ⟨0, 1, 2⟩) .running ∧ s.calls 0 = 1 ∧
      Ends (fun s' => s'.pc 0 = .idle) (s.step 0)) (run next fresh oneWrite) := by decide +kernel
  obtain ⟨s, hs, hpc, hcalls, hstep⟩ := hrun.exists
  obtain ⟨s', hs', hidle⟩ := hstep.exists
  obtain ⟨-, -, -, -, hret, -, hpanic⟩ := driver_safe hstart hs
  have hfin := hret 0 3 true ⟨0, 1, 2⟩ s' hpc hs' hidle
  rw [hcalls] at hfin
  exact ⟨s, hs, hfin, hpanic⟩

end Xv6.Virtio
