import Xv6.Bio.Shape
import Xv6.Lib.Count

/-!
# The cache refines an array of blocks

Clients modify a buffer while they hold it, write or pin it before they release it, and unpin it when it is written
(`Disciplined`); there is one disk with 32-bit sector numbers, and the reference counts do not overflow (`Bounded`).
-/

namespace Xv6.Bio

open Function (update update_apply update_eq_self update_of_ne update_self)
open Run DList

variable {β : Type} {n : Nat}

/-- How the clients of the cache behave: a modified buffer is written or pinned when its holder releases it, and the last
pin of a modified buffer is not given up while nobody holds it. -/
def State.Disciplined (s : State β n) : Event β n → Prop
  | .bread _ dev _ => dev ≠ 0
  | .brelse _ b => s.dirty b = true → 1 ≤ s.pins b
  | .bunpin _ b => 1 ≤ s.pins b ∧ (s.dirty b = true → 2 ≤ s.pins b ∨ (s.buf b).lock.isSome)
  | _ => True

/-- The calls are on one device, with block numbers whose sector fits in 32 bits, and a reference count that is incremented
is not at its maximum. -/
def State.Bounded (dev : BitVec 32) (s : State β n) : Event β n → Prop
  | .bread _ dev' blockno => dev' = dev ∧ blockno.toNat < 2 ^ 31 ∧
      ∀ b, (s.buf b).dev = dev' → (s.buf b).blockno = blockno → (s.buf b).refcnt ≠ BitVec.allOnes 32
  | .bpin _ b => (s.buf b).refcnt ≠ BitVec.allOnes 32
  | _ => True

instance (s : State β n) (e : Event β n) : Decidable (s.Disciplined e) := by
  cases e <;> unfold State.Disciplined <;> infer_instance

instance (dev : BitVec 32) (s : State β n) (e : Event β n) : Decidable (s.Bounded dev e) := by
  cases e <;> unfold State.Bounded <;> infer_instance

/-- The references to `b` of a process that does not hold its lock: it waits for the lock or has just released it. -/
def Pc.refs (b : Fin NBUF) : Pc → Nat
  | .wait b' _ _ => if b' = b then 1 else 0
  | .rel b' => if b' = b then 1 else 0
  | _ => 0

def State.refs (s : State β n) (b : Fin NBUF) : Nat :=
  (if (s.buf b).lock.isSome then 1 else 0) + ∑ p, (s.pc p).refs b + s.pins b

/-- The reference count of a buffer is the number of its references. -/
def Counted (s : State β n) : Prop := ∀ b, (s.buf b).refcnt.toNat = s.refs b

section

variable {s s' : State β n} {e : Event β n} {p : Fin n} {b b' : Fin NBUF} {x dev y : BitVec 32}

@[simp] theorem Pc.refs_wait_self (dev blockno : BitVec 32) : (Pc.wait b dev blockno).refs b = 1 := if_pos rfl

@[simp] theorem Pc.refs_rel_self : (Pc.rel b).refs b = 1 := if_pos rfl

theorem Pc.refs_wait_ne (h : b' ≠ b) (dev blockno : BitVec 32) :
    (Pc.wait b dev blockno).refs b' = 0 := if_neg (Ne.symm h)

theorem Pc.refs_rel_ne (h : b' ≠ b) : (Pc.rel b).refs b' = 0 := if_neg (Ne.symm h)

@[simp] theorem Pc.refs_locked (dev blockno : BitVec 32) : (Pc.locked b dev blockno).refs b' = 0 := rfl

@[simp] theorem Pc.refs_ret (dev blockno : BitVec 32) : (Pc.ret b dev blockno).refs b' = 0 := rfl

@[simp] theorem Pc.refs_idle : Pc.idle.refs b = 0 := rfl

theorem Pc.Free.refs {pc : Pc} (hf : pc.Free) : pc.refs b = 0 := by
  cases pc <;> first | rfl | exact hf.elim

theorem State.refs_goto (pc : Pc) :
    (∑ q, ((update s.pc p pc) q).refs b) + (s.pc p).refs b = ∑ q, (s.pc q).refs b + pc.refs b :=
  Count.sum_update (Pc.refs b) s.pc p pc

theorem toNat_succ (h : x ≠ BitVec.allOnes 32) : (x + 1).toNat = x.toNat + 1 := by
  have hlt := x.isLt
  have hne : x.toNat ≠ 2 ^ 32 - 1 := fun heq => h (BitVec.eq_of_toNat_eq (by simpa using heq))
  have h1 : (1 : BitVec 32).toNat = 1 := rfl
  rw [BitVec.toNat_add, h1]
  omega

theorem toNat_pred (h : x.toNat ≠ 0) : (x - 1).toNat + 1 = x.toNat := by
  have hlt := x.isLt
  have h1 : (1 : BitVec 32).toNat = 1 := rfl
  rw [BitVec.toNat_sub, h1]
  omega

theorem Counted.step (hc : Counted s) (pc : Pc) (hpc : s'.pc = update s.pc p pc)
    (hon : (s'.buf b).refcnt.toNat + (if (s.buf b).lock.isSome then 1 else 0) + (s.pc p).refs b + s.pins b =
      (s.buf b).refcnt.toNat + (if (s'.buf b).lock.isSome then 1 else 0) + pc.refs b + s'.pins b)
    (hoff : ∀ b', b' ≠ b → s'.buf b' = s.buf b' ∧ s'.pins b' = s.pins b' ∧ (s.pc p).refs b' = pc.refs b') :
    Counted s' := by
  intro b'
  have hsum := State.refs_goto (s := s) (p := p) (b := b') pc
  have hcount := hc b'
  unfold State.refs at hcount ⊢
  rw [hpc]
  by_cases hb : b' = b
  · subst hb
    omega
  · obtain ⟨hbuf, hpins, hrefs⟩ := hoff b' hb
    rw [hbuf, hpins]
    omega

theorem Counted.pos (hc : Counted s) (h : (s.pc p).refs b = 1) : (s.buf b).refcnt.toNat ≠ 0 := by
  have hle := Count.le_sum (fun q => (s.pc q).refs b) p
  have hcount := hc b
  unfold State.refs at hcount
  omega

theorem Move.counted (hm : Move s e s') (hd : s.Disciplined e) (hb : s.Bounded dev e)
    (hc : Counted s) : Counted s' := by
  cases hm with
  | @hit p b d blockno hf hd' hn =>
    refine hc.step (b := b) (p := p) (.wait b d blockno) rfl ?_ (fun b' hb' => ?_)
    · have := toNat_succ (hb.2.2 b hd' hn)
      simp only [State.goto, State.setBuf, update_self, Pc.refs_wait_self, hf.refs]
      omega
    · exact ⟨update_of_ne hb' _ _, rfl, by rw [hf.refs, Pc.refs_wait_ne hb']⟩
  | @recycle p b d blockno hf hno hr =>
    refine hc.step (b := b) (p := p) (.wait b d blockno) rfl ?_ (fun b' hb' => ?_)
    · have h0 : (0 : BitVec 32).toNat = 0 := rfl
      have h1 : (1 : BitVec 32).toNat = 1 := rfl
      simp only [State.goto, State.setBuf, update_self, Pc.refs_wait_self, hf.refs, hr]
      omega
    · exact ⟨update_of_ne hb' _ _, rfl, by rw [hf.refs, Pc.refs_wait_ne hb']⟩
  | @acquire p b d blockno hpc hlock =>
    refine hc.step (b := b) (p := p) (.locked b d blockno) rfl ?_ (fun b' hb' => ?_)
    · simp [State.goto, State.setBuf, hpc, hlock]
    · exact ⟨update_of_ne hb' _ _, rfl, by rw [hpc, Pc.refs_wait_ne hb', Pc.refs_locked]⟩
  | @fill p b d blockno hpc =>
    obtain ⟨-, -, hlock, hrefcnt, -⟩ := s.filled_eq b
    refine hc.step (b := b) (p := p) (.ret b d blockno) rfl ?_ (fun b' hb' => ?_)
    · simp [State.breadFill, State.goto, State.setBuf, hpc, hlock, hrefcnt]
    · exact ⟨update_of_ne hb' _ _, rfl, by rw [hpc, Pc.refs_locked, Pc.refs_ret]⟩
  | @modify p b v hf hlock =>
    refine hc.step (b := b) (p := p) (s.pc p) (update_eq_self ..).symm ?_ (fun b' hb' => ?_)
    · simp [State.setBuf]
    · exact ⟨update_of_ne hb' _ _, rfl, rfl⟩
  | bwrite hf hlock => exact hc
  | @brelse p b hf hlock =>
    refine hc.step (b := b) (p := p) (.rel b) rfl ?_ (fun b' hb' => ?_)
    · simp [State.goto, State.setBuf, hlock, hf.refs]
    · exact ⟨update_of_ne hb' _ _, rfl, by rw [hf.refs, Pc.refs_rel_ne hb']⟩
  | @unref p b hpc =>
    have hpos := toNat_pred (hc.pos (p := p) (b := b) (by rw [hpc, Pc.refs_rel_self]))
    refine hc.step (b := b) (p := p) .idle rfl ?_ (fun b' hb' => ?_)
    · simp only [State.brelseUnref, State.goto, State.setBuf, update_self, hpc, Pc.refs_rel_self,
        Pc.refs_idle]
      omega
    · exact ⟨update_of_ne hb' _ _, rfl, by rw [hpc, Pc.refs_rel_ne hb', Pc.refs_idle]⟩
  | @bpin p b =>
    have hmax := toNat_succ hb
    refine hc.step (b := b) (p := p) (s.pc p) (update_eq_self ..).symm ?_ (fun b' hb' => ?_)
    · simp only [State.bpin, State.setBuf, update_self]
      omega
    · exact ⟨update_of_ne hb' _ _, update_of_ne hb' _ _, rfl⟩
  | @bunpin p b =>
    have hpin : 1 ≤ s.pins b := hd.1
    have hcount := hc b
    unfold State.refs at hcount
    have hpos := toNat_pred (x := (s.buf b).refcnt) (by omega)
    refine hc.step (b := b) (p := p) (s.pc p) (update_eq_self ..).symm ?_ (fun b' hb' => ?_)
    · simp only [State.bunpin, State.setBuf, update_self]
      omega
    · exact ⟨update_of_ne hb' _ _, update_of_ne hb' _ _, rfl⟩

/-- What the processes know about the buffers they use, on the device `dev`. -/
structure Calls (dev : BitVec 32) (s : State β n) : Prop where
  /-- A call of `bread` has the buffer of the block it asks for. -/
  block : ∀ p b d blockno, s.pc p = .wait b d blockno ∨ s.pc p = .locked b d blockno ∨ s.pc p = .ret b d blockno →
    (s.buf b).dev = d ∧ (s.buf b).blockno = blockno ∧ d = dev
  holds : ∀ p b d blockno, s.pc p = .locked b d blockno ∨ s.pc p = .ret b d blockno → (s.buf b).lock = some p
  /-- A buffer that is held is valid, except to a `bread` that has not looked at it yet. -/
  held : ∀ p b, (s.buf b).lock = some p → (∃ d blockno, s.pc p = .locked b d blockno) ∨ (s.buf b).valid = true
  /-- A modified buffer is held or pinned. -/
  pinned : ∀ b, s.dirty b = true → (s.buf b).lock.isSome = true ∨ 1 ≤ s.pins b

theorem Counted.zero (hc : Counted s) (h : (s.buf b).refcnt = 0) :
    (s.buf b).lock = none ∧ (∀ p d blockno, s.pc p ≠ .wait b d blockno) ∧ s.pins b = 0 := by
  have hcount := hc b
  have h0 : (0 : BitVec 32).toNat = 0 := rfl
  rw [h, h0] at hcount
  unfold State.refs at hcount
  refine ⟨?_, fun p d blockno hp => ?_, by omega⟩
  · rw [← Option.not_isSome_iff_eq_none]
    intro hs
    rw [if_pos hs] at hcount
    omega
  · have := Count.le_sum (fun q => (s.pc q).refs b) p
    simp only [hp, Pc.refs_wait_self] at this
    omega

theorem Calls.valid_of_free (h : Calls dev s) (hf : (s.pc p).Free)
    (hl : (s.buf b).lock = some p) : (s.buf b).valid = true := by
  refine (h.held p b hl).resolve_left ?_
  rintro ⟨d, blockno, hpc⟩
  rw [hpc] at hf
  exact hf

theorem Calls.keep (h : Calls dev s) (hpc : s'.pc = s.pc)
    (hbuf : ∀ b, (s'.buf b).dev = (s.buf b).dev ∧ (s'.buf b).blockno = (s.buf b).blockno ∧
      (s'.buf b).lock = (s.buf b).lock ∧ (s'.buf b).valid = (s.buf b).valid)
    (hpinned : ∀ b, s'.dirty b = true → (s.buf b).lock.isSome = true ∨ 1 ≤ s'.pins b) : Calls dev s' := by
  refine ⟨fun q b d blockno hq => ?_, fun q b d blockno hq => ?_, fun q b hl => ?_, fun b hd => ?_⟩
  · obtain ⟨hdev, hblock, -, -⟩ := hbuf b
    rw [hpc] at hq
    rw [hdev, hblock]
    exact h.block q b d blockno hq
  · rw [hpc] at hq
    rw [(hbuf b).2.2.1]
    exact h.holds q b d blockno hq
  · obtain ⟨-, -, hlock, hvalid⟩ := hbuf b
    rw [hlock] at hl
    rw [hpc, hvalid]
    exact h.held q b hl
  · rw [(hbuf b).2.2.1]
    exact hpinned b hd

theorem setBuf_same {x : Buf β n} (hdev : x.dev = (s.buf b).dev) (hblock : x.blockno = (s.buf b).blockno)
    (hlock : x.lock = (s.buf b).lock) (hvalid : x.valid = (s.buf b).valid) (b' : Fin NBUF) :
    ((s.setBuf b x).buf b').dev = (s.buf b').dev ∧ ((s.setBuf b x).buf b').blockno = (s.buf b').blockno ∧
      ((s.setBuf b x).buf b').lock = (s.buf b').lock ∧ ((s.setBuf b x).buf b').valid = (s.buf b').valid := by
  by_cases hb : b' = b
  · subst hb
    simp only [State.setBuf, update_self]
    exact ⟨hdev, hblock, hlock, hvalid⟩
  · simp only [State.setBuf, update_of_ne hb, and_self]

theorem Move.calls (hm : Move s e s') (hd : s.Disciplined e) (hb : s.Bounded dev e) (hc : Counted s)
    (h : Calls dev s) : Calls dev s' := by
  cases hm with
  | @hit p b d blockno hf hd' hn =>
    have hdev : d = dev := hb.1
    obtain ⟨hblock, hholds, hheld, hpinned⟩ := h
    clear hb hd hc
    refine ⟨?_, ?_, ?_, ?_⟩ <;> simp only [State.goto, State.setBuf, update_apply] <;> grind [Pc.Free]
  | @recycle p b d blockno hf hno hr =>
    -- nobody refers to the buffer, so no call in progress sees it change
    obtain ⟨hlock, hwait, hpins⟩ := hc.zero hr
    obtain ⟨hblock, hholds, hheld, hpinned⟩ := h
    have hdev : d = dev := hb.1
    clear hb hd hc hno
    refine ⟨?_, ?_, ?_, ?_⟩ <;> simp only [State.goto, State.setBuf, update_apply] <;> grind [Pc.Free]
  | @acquire p b d blockno hpc hlock =>
    obtain ⟨hblock, hholds, hheld, hpinned⟩ := h
    clear hb hd hc
    refine ⟨?_, ?_, ?_, ?_⟩ <;> simp only [State.goto, State.setBuf, update_apply] <;> grind
  | @fill p b d blockno hpc =>
    obtain ⟨hfd, hfn, hfl, -, hfv⟩ := s.filled_eq b
    obtain ⟨hblock, hholds, hheld, hpinned⟩ := h
    clear hb hd hc
    refine ⟨?_, ?_, ?_, ?_⟩ <;>
      simp only [State.breadFill, State.goto, State.setBuf, update_apply] <;> grind
  | @modify p b v hf hlock =>
    refine h.keep rfl (setBuf_same rfl rfl rfl rfl) fun b' hb' => ?_
    simp only [update_apply] at hb'
    split at hb'
    next heq => exact .inl (by rw [heq, hlock]; rfl)
    next => exact h.pinned b' hb'
  | @bwrite p b hf hlock =>
    refine h.keep rfl (fun _ => ⟨rfl, rfl, rfl, rfl⟩) fun b' hb' => h.pinned b' ?_
    simp only [update_apply] at hb'
    split at hb'
    next => cases hb'
    next => exact hb'
  | @brelse p b hf hlock =>
    have hpin : s.dirty b = true → 1 ≤ s.pins b := hd
    obtain ⟨hblock, hholds, hheld, hpinned⟩ := h
    clear hb hd hc
    refine ⟨?_, ?_, ?_, ?_⟩ <;> simp only [State.goto, State.setBuf, update_apply] <;> grind [Pc.Free]
  | @unref p b hpc =>
    obtain ⟨hblock, hholds, hheld, hpinned⟩ := h
    clear hb hd hc
    refine ⟨?_, ?_, ?_, ?_⟩ <;>
      simp only [State.brelseUnref, State.goto, State.setBuf, update_apply] <;> grind
  | @bpin p b =>
    refine h.keep rfl (setBuf_same rfl rfl rfl rfl) fun b' hb' => (h.pinned b' hb').imp_right fun hpin => ?_
    simp only [State.bpin, update_apply]
    split <;> omega
  | @bunpin p b =>
    refine h.keep rfl (setBuf_same rfl rfl rfl rfl) fun b' hb' => ?_
    simp only [State.bunpin, update_apply]
    by_cases heq : b' = b
    · subst heq
      rw [if_pos rfl]
      rcases hd.2 hb' with hpins | hlock
      · exact .inr (by omega)
      · exact .inl hlock
    · rw [if_neg heq]
      exact h.pinned b' hb'

/-- The cache and the disk hold the contents that the clients left, on the device `dev`. -/
structure Coherent (dev : BitVec 32) (s : State β n) : Prop where
  one : ∀ b, (s.buf b).dev = 0 ∨ (s.buf b).dev = dev ∧ (s.buf b).blockno.toNat < 2 ^ 31
  valid : ∀ b, (s.buf b).valid = true → (s.buf b).dev = dev ∧ (s.buf b).data = s.mem (s.buf b).blockno
  dirty : ∀ b, s.dirty b = true → (s.buf b).valid = true
  /-- The disk is behind only for a block with a modified buffer. -/
  disk : ∀ blockno, blockno.toNat < 2 ^ 31 → s.disk (sector blockno) = s.mem blockno ∨
    ∃ b, s.dirty b = true ∧ (s.buf b).blockno = blockno

theorem sector_inj (hx : x.toNat < 2 ^ 31) (hy : y.toNat < 2 ^ 31)
    (h : sector x = sector y) : x = y := by
  have h2 : (2 : BitVec 32).toNat = 2 := rfl
  have := congrArg BitVec.toNat h
  unfold sector at this
  rw [BitVec.toNat_mul, BitVec.toNat_mul, h2] at this
  exact BitVec.eq_of_toNat_eq (by omega)

theorem Coherent.unique (hdev : dev ≠ 0) (hs : Shape s) (h : Coherent dev s) (hb : (s.buf b).dev = dev) (hv : (s.buf b').valid = true)
    (hn : (s.buf b').blockno = (s.buf b).blockno) : b' = b := by
  have hd := (h.valid b' hv).1
  exact hs.ident b' b (hd ▸ hdev) (hd.trans hb.symm) hn

theorem Coherent.filled (hdev : dev ≠ 0) (hs : Shape s) (h : Coherent dev s)
    (hb : (s.buf b).dev = dev) : (s.filled b).data = s.mem (s.buf b).blockno := by
  unfold State.filled
  split
  next hv => exact (h.valid b hv).2
  next hv =>
    have hsmall := ((h.one b).resolve_left (hb ▸ hdev)).2
    rcases h.disk _ hsmall with heq | ⟨b1, hdirty, hblock⟩
    · exact heq
    · -- a modified buffer for the block would be `b` itself, which has not been read
      obtain rfl := h.unique hdev hs hb (h.dirty b1 hdirty) hblock
      exact absurd (h.dirty b1 hdirty) hv

theorem Coherent.keep (h : Coherent dev s) {x : Buf β n}
    (hbuf : s'.buf = update s.buf b x)
    (hx : x.dev = (s.buf b).dev ∧ x.blockno = (s.buf b).blockno ∧ x.valid = (s.buf b).valid ∧ x.data = (s.buf b).data)
    (hmem : s'.mem = s.mem) (hdisk : s'.disk = s.disk)
    (hdirty : s'.dirty = s.dirty) : Coherent dev s' := by
  have hsame : ∀ b', (s'.buf b').dev = (s.buf b').dev ∧ (s'.buf b').blockno = (s.buf b').blockno ∧
      (s'.buf b').valid = (s.buf b').valid ∧ (s'.buf b').data = (s.buf b').data := by
    intro b'
    rw [hbuf, update_apply]
    split
    next heq => rw [heq]; exact hx
    next => exact ⟨rfl, rfl, rfl, rfl⟩
  refine ⟨fun b' => ?_, fun b' hv => ?_, fun b' hv => ?_, fun blockno hlt => ?_⟩
  · rw [(hsame b').1, (hsame b').2.1]
    exact h.one b'
  · rw [(hsame b').2.2.1] at hv
    rw [(hsame b').1, (hsame b').2.1, (hsame b').2.2.2, hmem]
    exact h.valid b' hv
  · rw [hdirty] at hv
    rw [(hsame b').2.2.1]
    exact h.dirty b' hv
  · rw [hdisk, hmem, hdirty]
    refine (h.disk blockno hlt).imp_right ?_
    rintro ⟨b', hd, hn⟩
    exact ⟨b', hd, by rw [(hsame b').2.1, hn]⟩

theorem Move.coherent (hdev : dev ≠ 0) (hm : Move s e s') (hb : s.Bounded dev e) (hs : Shape s)
    (hc : Counted s) (hcalls : Calls dev s) (h : Coherent dev s) : Coherent dev s' := by
  cases hm with
  | @hit p b d blockno hf hd' hn => exact h.keep rfl ⟨rfl, rfl, rfl, rfl⟩ rfl rfl rfl
  | @recycle p b d blockno hf hno hr =>
    obtain ⟨hlock, -, hpins⟩ := hc.zero hr
    have hclean : s.dirty b = false := by
      rw [← Bool.not_eq_true]
      intro hd
      have := hcalls.pinned b hd
      simp [hlock, hpins] at this
    obtain ⟨rfl, hsmall, -⟩ := hb
    obtain ⟨hone, hvalid, hdirty, hdisk⟩ := h
    clear hs hc hcalls hno
    refine ⟨?_, ?_, ?_, ?_⟩ <;> simp only [State.goto, State.setBuf, update_apply] <;> grind
  | @acquire p b d blockno hpc hlock => exact h.keep rfl ⟨rfl, rfl, rfl, rfl⟩ rfl rfl rfl
  | @fill p b d blockno hpc =>
    obtain ⟨hbd, -, rfl⟩ := hcalls.block p b d blockno (.inr (.inl hpc))
    have hdata := h.filled hdev hs hbd
    obtain ⟨hfd, hfn, -, -, hfv⟩ := s.filled_eq b
    obtain ⟨hone, hvalid, hdirty, hdisk⟩ := h
    clear hb hs hc hcalls
    refine ⟨?_, ?_, ?_, ?_⟩ <;>
      simp only [State.breadFill, State.goto, State.setBuf, update_apply] <;> grind
  | @modify p b v hf hlock =>
    have hv := hcalls.valid_of_free hf hlock
    have huniq : ∀ b', _ → _ → b' = b := fun _ => h.unique hdev hs (h.valid b hv).1
    obtain ⟨hone, hvalid, hdirty, hdisk⟩ := h
    clear hb hs hc hcalls
    refine ⟨?_, ?_, ?_, ?_⟩ <;> simp only [State.setBuf, update_apply] <;> grind
  | @bwrite p b hf hlock =>
    have hv := hcalls.valid_of_free hf hlock
    obtain ⟨hbd, hdata⟩ := h.valid b hv
    refine ⟨h.one, h.valid, fun b' hb' => ?_, fun blockno hlt => ?_⟩
    · simp only [update_apply] at hb'
      split at hb'
      next => cases hb'
      next => exact h.dirty b' hb'
    · simp only [update_apply]
      by_cases heq : blockno = (s.buf b).blockno
      · exact .inl (by rw [heq, if_pos rfl, hdata])
      · have hbsmall := ((h.one b).resolve_left (hbd ▸ hdev)).2
        rw [if_neg fun hsec => heq (sector_inj hlt hbsmall hsec)]
        refine (h.disk blockno hlt).imp_right ?_
        rintro ⟨b', hd, hn⟩
        refine ⟨b', ?_, hn⟩
        rw [if_neg, hd]
        rintro rfl
        exact heq hn.symm
  | @brelse p b hf hlock => exact h.keep rfl ⟨rfl, rfl, rfl, rfl⟩ rfl rfl rfl
  | @unref p b hpc => exact h.keep rfl ⟨rfl, rfl, rfl, rfl⟩ rfl rfl rfl
  | @bpin p b => exact h.keep rfl ⟨rfl, rfl, rfl, rfl⟩ rfl rfl rfl
  | @bunpin p b => exact h.keep rfl ⟨rfl, rfl, rfl, rfl⟩ rfl rfl rfl

end

theorem coherent_init (zero : β) (disk : BitVec 32 → β) :
    Counted (init n zero disk) ∧ Calls dev (init n zero disk) ∧ Coherent dev (init n zero disk) := by
  refine ⟨fun b => ?_, ⟨?_, ?_, nofun, nofun⟩, ⟨fun b => .inl rfl, nofun, nofun, fun _ _ => .inl rfl⟩⟩
  · simp [init, State.refs]
  · rintro p b d blockno (h | h | h) <;> cases h
  · rintro p b d blockno (h | h) <;> cases h

theorem Move.recycles (hm : Move s e s') (b : Fin NBUF)
    (h : (s.buf b).refcnt ≠ 0) :
    (s'.buf b).dev = (s.buf b).dev ∧ (s'.buf b).blockno = (s.buf b).blockno := by
  cases hm with
  | @recycle p b' d blockno hf hno hr =>
    have hne : b ≠ b' := by
      rintro rfl
      exact h hr
    simp only [State.goto, State.setBuf, update_of_ne hne, and_self]
  | @fill p b' d blockno hpc =>
    by_cases hb : b = b'
    · subst hb
      simp only [State.breadFill, State.goto, State.setBuf, update_self]
      exact ⟨(s.filled_eq b).1, (s.filled_eq b).2.1⟩
    · simp only [State.breadFill, State.goto, State.setBuf, update_of_ne hb, and_self]
  | bwrite hf hl => exact ⟨rfl, rfl⟩
  | _ =>
    simp only [State.brelseUnref, State.bpin, State.bunpin, State.goto, State.setBuf, update_apply]
    split
    next hb => rw [hb]; exact ⟨rfl, rfl⟩
    next => exact ⟨rfl, rfl⟩

/-- The buffer cache, in any run of disciplined clients: its list is a circular list of all buffers, no two buffers stand
for the same block, and a buffer in use is not recycled. On one device, with sectors that fit in 32 bits and without overflow
of a count, the counts are exact and a `bread` returns what the latest holder to modify the block left. -/
theorem bcache_refines_blocks (zero : β) (disk : BitVec 32 → β) (es : List (Event β n)) (s : State β n)
    (h : run State.next (init n zero disk) es = .ok s)
    (hd : Along State.next State.Disciplined (init n zero disk) es) :
    (∃ l : List (Fin NBUF), l.Nodup ∧ (∀ b, b ∈ l) ∧ Ring s.links none (l.map some)) ∧
    (∀ b b', (s.buf b).dev ≠ 0 → (s.buf b).dev = (s.buf b').dev → (s.buf b).blockno = (s.buf b').blockno → b = b') ∧
    (∀ e s', s.next e = .ok s' → ∀ b, (s.buf b).refcnt ≠ 0 →
      (s'.buf b).dev = (s.buf b).dev ∧ (s'.buf b).blockno = (s.buf b).blockno) ∧
    ∀ dev, dev ≠ 0 → Along State.next (State.Bounded dev) (init n zero disk) es →
      (∀ b, (s.buf b).refcnt.toNat = s.refs b) ∧
      ∀ p b d blockno, s.pc p = .ret b d blockno →
        (s.buf b).lock = some p ∧ (s.buf b).dev = d ∧ (s.buf b).blockno = blockno ∧
        (s.buf b).valid = true ∧ (s.buf b).data = s.mem blockno := by
  have hstep : ∀ (s : State β n) e s', s.Disciplined e → s.next e = .ok s' → Shape s → Shape s' := by
    intro s e s' hd hn hs
    refine (next_move hs hn).shape hs ?_
    rintro p dev blockno rfl
    exact hd
  have hs : Shape s := run_induct hstep hd h (shape_init zero disk)
  refine ⟨?_, hs.ident, fun e s' hn b => (next_move hs hn).recycles b, fun dev hdev hb => ?_⟩
  · obtain ⟨l, hr, hall⟩ := hs.ring
    have hnd := List.nodup_cons.1 hr.nodup
    have hmap : (l.filterMap id).map some = l := by
      rw [List.map_filterMap_some_eq_filter_map_isSome, List.map_id, List.filter_eq_self]
      intro x hx
      cases x with
      | none => exact absurd hx hnd.1
      | some b => rfl
    refine ⟨l.filterMap id, List.Nodup.of_map some (hmap.symm ▸ hnd.2), fun b => ?_, hmap.symm ▸ hr⟩
    exact List.mem_filterMap.2 ⟨some b, hall b, rfl⟩
  · have hinv : Shape s ∧ Counted s ∧ Calls dev s ∧ Coherent dev s := by
      refine run_induct (I := fun s => Shape s ∧ Counted s ∧ Calls dev s ∧ Coherent dev s) ?_ (hd.and hb) h
        ⟨shape_init zero disk, coherent_init zero disk⟩
      intro s e s' ⟨hd, hb⟩ hn ⟨hs, hc, hcalls, hcoh⟩
      have hm := next_move hs hn
      exact ⟨hstep s e s' hd hn hs, hm.counted hd hb hc, hm.calls hd hb hc hcalls,
        hm.coherent hdev hb hs hc hcalls hcoh⟩
    obtain ⟨-, hc, hcalls, hcoh⟩ := hinv
    refine ⟨hc, fun p b d blockno hpc => ?_⟩
    obtain ⟨hbd, hbn, rfl⟩ := hcalls.block p b d blockno (.inr (.inr hpc))
    have hl := hcalls.holds p b d blockno (.inr hpc)
    have hv : (s.buf b).valid = true := hcalls.valid_of_free (by rw [hpc]; trivial) hl
    exact ⟨hl, hbd, hbn, hv, hbn ▸ (hcoh.valid b hv).2⟩

def rereads : List (Event Nat 1) :=
  [.bread 0 1 5, .step 0, .step 0, .modify 0 0 7, .bwrite 0 0, .brelse 0 0, .step 0, .bread 0 1 5, .step 0, .step 0]

theorem rereads_meets : Along State.next State.Disciplined (init 1 0 fun _ => 3) rereads ∧
    Along State.next (State.Bounded 1) (init 1 0 fun _ => 3) rereads := by
  decide +kernel

theorem rereads_ends : Ends (fun s => s.pc 0 = .ret 0 1 5 ∧ (s.buf 1).refcnt = 0) (run State.next (init 1 0 fun _ => 3) rereads) := by
  decide +kernel

theorem bcache_refines_blocks_rereads : ∃ s, run State.next (init 1 0 fun _ => 3) rereads = .ok s ∧
    s.pc 0 = .ret 0 1 5 ∧ (s.buf 0).data = s.mem 5 := by
  obtain ⟨hd, hb⟩ := rereads_meets
  obtain ⟨s, h, hpc, -⟩ := rereads_ends.exists
  have hret := ((bcache_refines_blocks 0 (fun _ => 3) rereads s h hd).2.2.2 1 (by decide) hb).2 0 0 1 5 hpc
  exact ⟨s, h, hpc, hret.2.2.2.2⟩

/-- A process has the same block number of two devices in the cache, modifies and writes it through one of them, releases
both and reads it through the other. -/
def twoDevices : List (Event Nat 1) :=
  [.bread 0 1 5, .step 0, .step 0, .bread 0 2 5, .step 0, .step 0, .modify 0 0 7, .bwrite 0 0, .brelse 0 0, .step 0,
   .brelse 0 1, .step 0, .bread 0 2 5, .step 0, .step 0]

/-- The disk does not know the devices apart, but the cache does: the last `bread` of `twoDevices` returns the contents from
before the modification. -/
theorem twoDevices_returns_old : Along State.next State.Disciplined (init 1 0 fun _ => 3) twoDevices ∧
    Ends (fun s => s.pc 0 = .ret 1 2 5 ∧ s.mem 5 = 7 ∧ s.disk (sector 5) = 7 ∧ (s.buf 1).data = 3)
      (run State.next (init 1 0 fun _ => 3) twoDevices) := by
  decide +kernel

/-- In every run, a `bread` gets a buffer if the block is cached or some buffer is not referenced, and panics otherwise. -/
theorem bread_gets_buffer (zero : β) (disk : BitVec 32 → β) (es : List (Event β n)) (s : State β n)
    (h : run State.next (init n zero disk) es = .ok s) (hd : Along State.next State.Disciplined (init n zero disk) es)
    (p : Fin n) (hp : (s.pc p).Free) (dev blockno : BitVec 32) :
    ((∃ b, (s.buf b).dev = dev ∧ (s.buf b).blockno = blockno ∨ (s.buf b).refcnt = 0) → ∃ s', s.next (.bread p dev blockno) = .ok s') ∧
    ((∀ b, ¬((s.buf b).dev = dev ∧ (s.buf b).blockno = blockno) ∧ (s.buf b).refcnt ≠ 0) →
      s.next (.bread p dev blockno) = .error (.panic "bget: no buffers")) := by
  have hs : Shape s := run_induct (fun s e s' hd hn hs => (next_move hs hn).shape hs (by rintro p dev blockno rfl; exact hd)) hd h
    (shape_init zero disk)
  have hnext : s.next (.bread p dev blockno) = s.bget p dev blockno := if_pos hp
  rw [hnext]
  exact ⟨fun ⟨b, hb⟩ => bget_ok hs hb, bget_panics hs⟩

theorem bread_gets_buffer_rereads : ∃ s s', run State.next (init 1 0 fun _ => 3) rereads = .ok s ∧ s.pc 0 = .ret 0 1 5 ∧
    s.next (.bread 0 1 6) = .ok s' := by
  obtain ⟨s, hrun, hpc, hfree⟩ := rereads_ends.exists
  obtain ⟨s', hs'⟩ := (bread_gets_buffer 0 _ rereads s hrun rereads_meets.1 0 (by rw [hpc]; trivial) 1 6).1 ⟨1, .inr hfree⟩
  exact ⟨s, s', hrun, hpc, hs'⟩

end Xv6.Bio
