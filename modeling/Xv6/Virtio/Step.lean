import Xv6.Virtio.Inv

/-!
# One step of the driver or the device

Every step keeps the invariant, and in a state of the invariant no step panics.
-/

namespace Xv6.Virtio

open List (append_assoc mem_append_right)
open Function (update update_of_ne update_self)
open Run
open Xv6.Bio (NBUF)

variable {β : Type} {n : Nat} {s s' s2 : State β n} {p q : Fin n} {b b' : Fin NBUF} {w w' : Bool} {ph ph' : Phase}
  {c c' : Chain} {i : Nat} {pos pos' : At} {e : Entry n} {x : Pc}

theorem has_of_pc (h : s.pc p = .rw b w ph pos) : s.Has p b w ph := by
  unfold State.Has
  rw [h]
  rfl

theorem has_update (hpc : s'.pc = update s.pc p x) (h : s'.Has q b w ph) :
    q = p ∧ x.req = some (b, w, ph) ∨ q ≠ p ∧ s.Has q b w ph := by
  unfold State.Has at h
  rw [hpc] at h
  by_cases hq : q = p
  · subst hq
    rw [update_self] at h
    exact .inl ⟨rfl, h⟩
  · rw [update_of_ne hq] at h
    exact .inr ⟨hq, h⟩

theorem has_update_ne (hpc : s'.pc = update s.pc p x) (hq : q ≠ p) (h : s.Has q b w ph) : s'.Has q b w ph := by
  unfold State.Has
  rw [hpc, update_of_ne hq]
  exact h

theorem has_update_self (hpc : s'.pc = update s.pc p x) (h : x.req = some (b, w, ph)) : s'.Has p b w ph := by
  unfold State.Has
  rw [hpc, update_self]
  exact h

theorem has_rw (hpc : s'.pc = update s.pc p (.rw b w ph .running)) (h : s'.Has q b' w' ph') :
    (p = q ∧ b = b' ∧ w = w' ∧ ph = ph') ∨ (q ≠ p ∧ s.Has q b' w' ph') := by
  rcases has_update hpc h with ⟨rfl, h⟩ | h
  · cases h
    exact .inl ⟨rfl, rfl, rfl, rfl⟩
  · exact .inr h

theorem running_update {lock : Option (Holder n)} (hI : Inv s) (hself : x.running ↔ lock = some (.proc p))
    (hother : ∀ q, q ≠ p → (s.lock = some (.proc q) ↔ lock = some (.proc q))) (q : Fin n) :
    (update s.pc p x q).running ↔ lock = some (.proc q) := by
  by_cases hq : q = p
  · subst hq
    rw [update_self]
    exact hself
  · rw [update_of_ne hq]
    exact hI.lock.trans (hother q hq)

theorem Inv.running_unique (hI : Inv s) (hp : (s.pc p).running) (hq : (s.pc q).running) : p = q := by
  have := (hI.lock.mp hp).symm.trans (hI.lock.mp hq)
  cases this
  rfl

theorem Inv.move (hI : Inv s) (hpc : s.pc p = .rw b w ph pos) {l : Option (Holder n)}
    (hself : (Pc.rw b w ph pos').running ↔ l = some (.proc p))
    (hother : ∀ q, q ≠ p → (s.lock = some (.proc q) ↔ l = some (.proc q))) (hph : ∀ c, ph.Early c → pos' = .running) :
    Inv { s.setPc p (.rw b w ph pos') with lock := l } := by
  refine hI.relock (x := update s.pc p (.rw b w ph pos')) (fun q => ?_) (running_update hI hself hother)
    fun {q _ _ _ c} hq hearly => ?_
  · by_cases hq : q = p
    · subst hq
      rw [update_self, hpc]
      rfl
    · rw [update_of_ne hq]
  · by_cases hqp : q = p
    · subst hqp
      obtain ⟨rfl, rfl, rfl⟩ := Has.inj hq (has_of_pc hpc)
      rw [update_self, hph c hearly]
      trivial
    · rw [update_of_ne hqp]
      exact hI.mid hq hearly

theorem not_early_alloc : ¬Phase.Early c .alloc := by rintro (h | h) <;> cases h

theorem not_early_wait : ¬Phase.Early c (.wait c') := by rintro (h | h) <;> cases h

theorem Inv.early_running (hI : Inv s) (hpc : s.pc p = .rw b w ph pos) (hph : ph.Early c) : pos = .running := by
  have := hI.mid (has_of_pc hpc) hph
  rw [hpc] at this
  cases pos <;> first | rfl | exact this.elim

theorem Inv.call (hI : Inv s) (hidle : s.pc p = .idle) (hbuf : ∀ q, (s.pc q).buf ≠ some b) :
    Inv { s.setPc p (.rw b w .alloc .acquire) with calls := update s.calls p (s.calls p + 1) } := by
  set s' : State β n := { s.setPc p (.rw b w .alloc .acquire) with calls := update s.calls p (s.calls p + 1) } with hs'
  have hpc : s'.pc = update s.pc p (.rw b w .alloc .acquire) := rfl
  have hne : ∀ {q b' w' ph'}, s.Has q b' w' ph' → q ≠ p := by
    rintro q b' w' ph' hq rfl
    unfold State.Has at hq
    rw [hidle] at hq
    cases hq
  have hnb : ∀ {q b' w' ph'}, s.Has q b' w' ph' → b' ≠ b := by
    rintro q b' w' ph' hq rfl
    refine hbuf q ?_
    unfold State.Has at hq
    cases hpq : s.pc q with
    | idle =>
      rw [hpq] at hq
      cases hq
    | rw b1 w1 ph1 pos1 =>
      rw [hpq] at hq
      cases hq
      rfl
  have hcalls : ∀ {q b' w' ph'}, s.Has q b' w' ph' → s'.calls q = s.calls q := fun hq => update_of_ne (hne hq) _ _
  -- the new call has no descriptors
  have hold : ∀ {q b' w' ph' c'}, s'.Has q b' w' ph' → ph'.chain = some c' → s.Has q b' w' ph' := by
    intro q b' w' ph' c' hq hc
    rcases has_update hpc hq with ⟨rfl, h⟩ | ⟨-, h⟩
    · cases h
      cases hc
    · exact h
  refine ⟨fun hq hq' => ?_, fun hq hc => ?_, fun hi hf => ?_, fun hq hc hq' hc' => hI.apart (hold hq hc) hc (hold hq' hc') hc', ?_,
    fun {q _ _ _ _} hq hph => ?_, hI.nodup, fun e he => ?_, hI.status, hI.done, fun hq hph => hI.early (hold hq hph.chain) hph, fun hq => ?_,
    fun hq hd => ?_⟩
  · rcases has_update hpc hq with ⟨rfl, h⟩ | ⟨-, h⟩ <;> rcases has_update hpc hq' with ⟨rfl, h'⟩ | ⟨-, h'⟩
    · rfl
    · cases h
      exact absurd rfl (hnb h')
    · cases h'
      exact absurd rfl (hnb h)
    · exact hI.bufs h h'
  · exact (hI.good (hold hq hc) hc).congr (fun _ _ => rfl) (fun _ _ => rfl) rfl
  · obtain ⟨q, b', w', ph', c', hq, h⟩ := hI.inUse hi hf
    exact ⟨q, b', w', ph', c', has_update_ne hpc (hne hq) hq, h⟩
  · intro q
    refine running_update (x := .rw b w .alloc .acquire) hI ⟨fun h => False.elim h, fun h => ?_⟩ (fun q _ => Iff.rfl) q
    have := hI.lock.mpr h
    rw [hidle] at this
    exact this.elim
  · have hq' := hold hq hph.chain
    rw [hpc, update_of_ne (hne hq')]
    exact hI.mid hq' hph
  · obtain ⟨q, b', w', c', hq, hid, hr, hd⟩ := hI.own e he
    exact ⟨q, b', w', c', has_update_ne hpc (hne hq) hq, hid, by rw [hcalls hq]; exact hr, hd⟩
  · have hq' := hold hq rfl
    rw [hcalls hq']
    exact hI.slot hq'
  · have hq' := hold hq rfl
    rw [hcalls hq']
    exact hI.back hq' hd

theorem Inv.redesc (hI : Inv s) {desc : Nat → Desc} (h : ∀ i, s.free i = false → desc i = s.desc i) : Inv { s with desc := desc } := by
  refine ⟨hI.bufs, fun hq hc => ?_, hI.inUse, hI.apart, hI.lock, hI.mid, hI.nodup, hI.own, hI.status, hI.done, hI.early, hI.slot, hI.back⟩
  have hg := hI.good hq hc
  exact hg.congr (fun _ _ => rfl) (fun i hi => h i (hg.notFree i hi)) rfl

theorem mark_free (j : Nat) : (((s.mark c).format b w c).setPc p x).free j = if c.Mem j then false else s.free j := by
  change update (update (update s.free c.i₀ false) c.i₁ false) c.i₂ false j = _
  simp only [Function.update_apply]
  split_ifs <;> simp_all [Chain.Mem]

theorem format_desc {j : Nat} (hj : ¬c.Mem j) : (((s.mark c).format b w c).setPc p x).desc j = s.desc j := by
  unfold Chain.Mem at hj
  obtain ⟨h0, h1, h2⟩ : j ≠ c.i₀ ∧ j ≠ c.i₁ ∧ j ≠ c.i₂ := by tauto
  change update (update (update s.desc c.i₀ _) c.i₁ _) c.i₂ _ j = _
  rw [update_of_ne h2, update_of_ne h1, update_of_ne h0]

theorem format_formatted (hlt : ∀ i, c.Mem i → i < NUM) (h01 : c.i₀ ≠ c.i₁) (h02 : c.i₀ ≠ c.i₂) (h12 : c.i₁ ≠ c.i₂) :
    Formatted (((s.mark c).format b w c).setPc p x) b c := by
  refine ⟨hlt, fun j hj => by rw [mark_free, if_pos hj], h01, h02, h12, ?_, ⟨if w then 0 else VRING_DESC_F_WRITE, ?_⟩, ?_, ?_⟩
  · change update (update (update s.desc c.i₀ _) c.i₁ _) c.i₂ _ c.i₀ = _
    rw [update_of_ne h02, update_of_ne h01, update_self]
  · change update (update (update s.desc c.i₀ _) c.i₁ _) c.i₂ _ c.i₁ = _
    rw [update_of_ne h12, update_self]
  · exact update_self ..
  · change (update s.info c.i₀ ⟨some b, 0xff⟩ c.i₀).b = some b
    rw [update_self]

theorem Inv.alloc (hI : Inv s) (hpc : s.pc p = .rw b w .alloc .running) (hfree : ∀ i, c.Mem i → i < NUM ∧ s.free i = true)
    (h01 : c.i₀ ≠ c.i₁) (h02 : c.i₀ ≠ c.i₂) (h12 : c.i₁ ≠ c.i₂) :
    Inv (((s.mark c).format b w c).setPc p (.rw b w (.announce c) .running)) := by
  set s' : State β n := ((s.mark c).format b w c).setPc p (.rw b w (.announce c) .running) with hs'
  have hpc' : s'.pc = update s.pc p (.rw b w (.announce c) .running) := rfl
  have hhas := has_of_pc hpc
  have hf : ∀ j, s'.free j = if c.Mem j then false else s.free j := mark_free
  have hinfo : ∀ j, ¬c.Mem j → s'.info j = s.info j := fun j hj => update_of_ne (fun h => hj (.inl h)) _ _
  -- descriptors in use are not those that were free
  have hout : ∀ {q b' w' ph' c'}, s.Has q b' w' ph' → ph'.chain = some c' → ∀ j, c'.Mem j → ¬c.Mem j := by
    intro q b' w' ph' c' hq hc j hj hj'
    have := (hI.good hq hc).notFree j hj
    rw [(hfree j hj').2] at this
    cases this
  have hdisk : ∀ {b'}, s.disk b' = true → s'.disk b' = true := by
    intro b' hb'
    change update s.disk b true b' = true
    by_cases h : b' = b
    · subst h
      rw [update_self]
    · rw [update_of_ne h]
      exact hb'
  have hne : ∀ {q b' w' ph' c'}, s.Has q b' w' ph' → ph'.chain = some c' → q ≠ p := by
    rintro q b' w' ph' c' hq hc rfl
    obtain ⟨-, -, rfl⟩ := Has.inj hq hhas
    cases hc
  have hbufs : ∀ {q b' w' ph'}, q ≠ p → s.Has q b' w' ph' → b' ≠ b := by
    rintro q b' w' ph' hqp hq rfl
    exact hqp (hI.bufs hq hhas)
  refine ⟨fun hq hq' => ?_, fun hq hc => ?_, fun {j} hi hf' => ?_, fun hq hc hq' hc' hj hj' => ?_, ?_, fun {q _ _ _ _} hq hph => ?_, hI.nodup,
    fun e he => ?_, fun e he => ?_, hI.done, fun hq hph => ?_, fun hq => ?_, fun {q b' _ _} hq hd => ?_⟩
  · rcases has_rw hpc' hq with ⟨rfl, rfl, -, -⟩ | ⟨hqp, h⟩ <;> rcases has_rw hpc' hq' with ⟨rfl, h'⟩ | ⟨hqp', h'⟩
    · rfl
    · exact absurd rfl (hbufs hqp' h')
    · exact absurd h'.1.symm (hbufs hqp h)
    · exact hI.bufs h h'
  · rcases has_rw hpc' hq with ⟨rfl, rfl, rfl, rfl⟩ | ⟨hqp, h⟩
    · cases hc
      exact format_formatted (fun j hj => (hfree j hj).1) h01 h02 h12
    · have ho := hout h hc
      exact (hI.good h hc).congr (fun j hj => by rw [hf, if_neg (ho j hj)]) (fun j hj => format_desc (ho j hj))
        (by rw [hinfo _ (ho _ (.inl rfl))])
  · rw [hf] at hf'
    by_cases hj : c.Mem j
    · exact ⟨p, b, w, .announce c, c, has_update_self hpc' rfl, rfl, hj⟩
    · rw [if_neg hj] at hf'
      obtain ⟨q, b', w', ph', c', hq, hc, hm⟩ := hI.inUse hi hf'
      exact ⟨q, b', w', ph', c', has_update_ne hpc' (hne hq hc) hq, hc, hm⟩
  · rcases has_rw hpc' hq with ⟨rfl, -, -, rfl⟩ | ⟨hqp, h⟩ <;> rcases has_rw hpc' hq' with ⟨rfl, -, -, rfl⟩ | ⟨hqp', h'⟩
    · rfl
    · cases hc
      exact absurd hj (hout h' hc' _ hj')
    · cases hc'
      exact absurd hj' (hout h hc _ hj)
    · exact hI.apart h hc h' hc' hj hj'
  · intro q
    refine running_update (x := .rw b w (.announce c) .running) hI ⟨fun _ => ?_, fun _ => trivial⟩ (fun q _ => Iff.rfl) q
    exact hI.lock.mp (by rw [hpc]; trivial)
  · rw [hpc']
    rcases has_rw hpc' hq with ⟨rfl, -⟩ | ⟨hqp, h⟩
    · rw [update_self]
      trivial
    · rw [update_of_ne hqp]
      exact hI.mid h hph
  · obtain ⟨q, b', w', c', hq, hid, hr, hd⟩ := hI.own e he
    exact ⟨q, b', w', c', has_update_ne hpc' (hne hq rfl) hq, hid, hr, hdisk hd⟩
  · obtain ⟨q, b', w', c', hq, hid, -⟩ := hI.own e (mem_append_right _ (mem_append_right _ he))
    rw [hinfo e.id (by rw [hid]; exact hout hq rfl _ (.inl rfl))]
    exact hI.status e he
  · rcases has_rw hpc' hq with ⟨-, rfl, -⟩ | ⟨-, h⟩
    · exact update_self ..
    · exact hdisk (hI.early h hph)
  · rcases has_rw hpc' hq with ⟨-, -, -, h⟩ | ⟨-, h⟩
    · cases h
    · exact hI.slot h
  · rcases has_rw hpc' hq with ⟨-, -, -, h⟩ | ⟨hqp, h⟩
    · cases h
    · refine hI.back h ?_
      have := hbufs hqp h
      change update s.disk b true b' = false at hd
      rwa [update_of_ne this] at hd

/-- The part of the invariant about the descriptors the calls hold. -/
structure Held (s : State β n) : Prop where
  bufs : ∀ {p q b w ph w' ph'}, s.Has p b w ph → s.Has q b w' ph' → p = q
  good : ∀ {p b w ph c}, s.Has p b w ph → ph.chain = some c → Formatted s b c
  inUse : ∀ {i}, i < NUM → s.free i = false → ∃ p b w ph c, s.Has p b w ph ∧ ph.chain = some c ∧ c.Mem i
  apart : ∀ {p q b w ph c b' w' ph' c' i}, s.Has p b w ph → ph.chain = some c → s.Has q b' w' ph' → ph'.chain = some c' →
    c.Mem i → c'.Mem i → p = q

section

variable (hI : Inv s)
include hI

theorem Inv.advance (hhas : s.Has p b w ph) (hpc : s'.pc = update s.pc p (.rw b w ph' .running))
    (hchain : ph.chain = ph'.chain) (hfree : s'.free = s.free) (hdesc : s'.desc = s.desc) (hinfo : s'.info = s.info) : Held s' := by
  -- the same calls as before, with the same descriptors
  have hold : ∀ {q b' w' x}, s'.Has q b' w' x → ∃ y, s.Has q b' w' y ∧ y.chain = x.chain := by
    intro q b' w' x hq
    rcases has_rw hpc hq with ⟨rfl, rfl, rfl, rfl⟩ | ⟨-, h⟩
    · exact ⟨_, hhas, hchain⟩
    · exact ⟨_, h, rfl⟩
  refine ⟨fun hq hq' => ?_, fun hq hc => ?_, fun hi hf => ?_, fun hq hc hq' hc' => ?_⟩
  · obtain ⟨_, h, -⟩ := hold hq
    obtain ⟨_, h', -⟩ := hold hq'
    exact hI.bufs h h'
  · obtain ⟨_, h, hch⟩ := hold hq
    exact (hI.good h (hch.trans hc)).congr (fun _ _ => by rw [hfree]) (fun _ _ => by rw [hdesc]) (by rw [hinfo])
  · obtain ⟨q, b', w', x, c', hq, hc, hm⟩ := hI.inUse hi (hfree ▸ hf)
    by_cases hqp : q = p
    · subst hqp
      obtain ⟨rfl, rfl, rfl⟩ := Has.inj hhas hq
      exact ⟨q, b, w, ph', c', has_update_self hpc rfl, hchain.symm.trans hc, hm⟩
    · exact ⟨q, b', w', x, c', has_update_ne hpc hqp hq, hc, hm⟩
  · obtain ⟨_, h, hch⟩ := hold hq
    obtain ⟨_, h', hch'⟩ := hold hq'
    exact hI.apart h (hch.trans hc) h' (hch'.trans hc')

theorem Inv.announce (hpc : s.pc p = .rw b w (.announce c) .running) :
    Inv { s.setPc p (.rw b w (.publish c) .running) with
      avail := { s.avail with data := update s.avail.data (s.avail.tail.toNat % NUM) ⟨c.i₀, some ⟨p, s.calls p, b⟩⟩ } } := by
  have hhas := has_of_pc hpc
  have hrun : (s.pc p).running := by rw [hpc]; trivial
  have hsize := hI.avail_lt hhas (.inl rfl)
  set s' : State β n := { s.setPc p (.rw b w (.publish c) .running) with
      avail := { s.avail with data := update s.avail.data (s.avail.tail.toNat % NUM) ⟨c.i₀, some ⟨p, s.calls p, b⟩⟩ } } with hs'
  have hpc' : s'.pc = update s.pc p (.rw b w (.publish c) .running) := rfl
  -- the slot that is written is not in use
  have hlist : s'.avail.toList NUM = s.avail.toList NUM := by
    refine List.map_congr_left fun j hj => ?_
    exact RingBuf.data_put_of_lt (c := NUM) (by decide) hsize (List.mem_range.mp hj)
  have hflight : s'.flight = s.flight := by
    unfold State.flight
    rw [hlist]
    rfl
  have hH := hI.advance hhas hpc' rfl rfl rfl rfl
  refine ⟨hH.bufs, hH.good, hH.inUse, hH.apart, ?_, fun {q _ _ _ _} hq hph => ?_, ?_, fun e he => ?_, hI.status, hI.done, fun hq hph => ?_, fun hq => ?_, fun hq => ?_⟩
  · intro q
    exact running_update (x := .rw b w (.publish c) .running) hI ⟨fun _ => hI.lock.mp hrun, fun _ => trivial⟩ (fun q _ => Iff.rfl) q
  · rw [hpc']
    rcases has_rw hpc' hq with ⟨rfl, -⟩ | ⟨hqp, h⟩
    · rw [update_self]
      trivial
    · rw [update_of_ne hqp]
      exact hI.mid h hph
  · rw [hflight]
    exact hI.nodup
  · rw [hflight] at he
    obtain ⟨q, b', w', c', hq, h⟩ := hI.own e he
    have hqp : q ≠ p := by
      rintro rfl
      obtain ⟨-, -, h⟩ := Has.inj hq hhas
      cases h
    exact ⟨q, b', w', c', has_update_ne hpc' hqp hq, h⟩
  · rcases has_rw hpc' hq with ⟨rfl, rfl, rfl, rfl⟩ | ⟨-, h⟩
    · exact hI.early hhas (.inl rfl)
    · exact hI.early h hph
  · rcases has_rw hpc' hq with ⟨rfl, rfl, -, h⟩ | ⟨hqp, h⟩
    · cases h
      exact update_self ..
    · exact absurd (hI.running_unique (hI.mid h (.inr rfl)) hrun) hqp
  · rcases has_rw hpc' hq with ⟨-, -, -, h⟩ | ⟨-, h⟩
    · cases h
    · exact hI.back h

theorem Inv.publish (hpc : s.pc p = .rw b w (.publish c) .running) :
    Inv { s.setPc p (.rw b w (.wait c) .running) with avail := { s.avail with tail := s.avail.tail + 1 } } := by
  have hhas := has_of_pc hpc
  have hrun : (s.pc p).running := by rw [hpc]; trivial
  have hsize := hI.avail_lt hhas (.inr rfl)
  set s' : State β n := { s.setPc p (.rw b w (.wait c) .running) with avail := { s.avail with tail := s.avail.tail + 1 } } with hs'
  have hpc' : s'.pc = update s.pc p (.rw b w (.wait c) .running) := rfl
  -- the entry was written before
  have hput : s'.avail = s.avail.put NUM ⟨c.i₀, some ⟨p, s.calls p, b⟩⟩ := by
    unfold RingBuf.put
    rw [← hI.slot hhas, Function.update_eq_self]
  have hflight : s'.flight.Perm (⟨c.i₀, some ⟨p, s.calls p, b⟩⟩ :: s.flight) := by
    unfold State.flight
    rw [hput, RingBuf.toList_put (by decide) (by decide) hsize, append_assoc]
    exact List.perm_middle
  have hH := hI.advance hhas hpc' rfl rfl rfl rfl
  refine ⟨hH.bufs, hH.good, hH.inUse, hH.apart, ?_, fun {q _ _ _ _} hq hph => ?_, ?_, fun e he => ?_, hI.status, hI.done, fun hq hph => ?_, fun hq => ?_, fun hq hd => ?_⟩
  · intro q
    exact running_update (x := .rw b w (.wait c) .running) hI ⟨fun _ => hI.lock.mp hrun, fun _ => trivial⟩ (fun q _ => Iff.rfl) q
  · rcases has_rw hpc' hq with ⟨-, -, -, rfl⟩ | ⟨hqp, h⟩
    · exact absurd hph not_early_wait
    · rw [hpc', update_of_ne hqp]
      exact hI.mid h hph
  · rw [(hflight.map Entry.id).nodup_iff, List.map_cons]
    exact List.nodup_cons.mpr ⟨hI.early_not_flight hhas (.inr rfl), hI.nodup⟩
  · rcases List.mem_cons.mp (hflight.mem_iff.mp he) with rfl | he
    · exact ⟨p, b, w, c, has_update_self hpc' rfl, rfl, rfl, hI.early hhas (.inr rfl)⟩
    · obtain ⟨q, b', w', c', hq, h⟩ := hI.own e he
      have hqp : q ≠ p := by
        rintro rfl
        obtain ⟨-, -, h⟩ := Has.inj hq hhas
        cases h
      exact ⟨q, b', w', c', has_update_ne hpc' hqp hq, h⟩
  · rcases has_rw hpc' hq with ⟨-, -, -, rfl⟩ | ⟨-, h⟩
    · exact absurd hph not_early_wait
    · exact hI.early h hph
  · rcases has_rw hpc' hq with ⟨-, -, -, h⟩ | ⟨hqp, h⟩
    · cases h
    · exact absurd (hI.running_unique (hI.mid h (.inr rfl)) hrun) hqp
  · rcases has_rw hpc' hq with ⟨rfl, rfl, -, -⟩ | ⟨-, h⟩
    · have := hI.early hhas (.inr rfl)
      change s.disk b = false at hd
      rw [this] at hd
      cases hd
    · exact hI.back h hd

theorem Inv.finish (hpc : s.pc p = .rw b w (.wait c) .running) (hdisk : s.disk b = false)
    (hF : Freed c.Mem { s with info := update s.info c.i₀ { s.info c.i₀ with b := none } } s2) :
    Inv { s2.setPc p .idle with lock := none } := by
  have hhas := has_of_pc hpc
  have hrun : (s.pc p).running := by rw [hpc]; trivial
  obtain ⟨desc, free, pc, rfl⟩ := hF.eq
  have hsame : SamePhase s.pc pc := hF.pc
  have hfree : ∀ j, c.Mem j → free j = true := hF.free
  have hother : ∀ j, ¬c.Mem j → free j = s.free j ∧ desc j = s.desc j := hF.other
  set s' : State β n := _ with hs'
  change Inv s'
  have hpc' : s'.pc = update pc p .idle := rfl
  have hcases : ∀ {q b' w' ph'}, s'.Has q b' w' ph' → q ≠ p ∧ s.Has q b' w' ph' := by
    intro q b' w' ph' hq
    unfold State.Has at hq
    rw [hpc'] at hq
    by_cases hqp : q = p
    · subst hqp
      rw [update_self] at hq
      cases hq
    · rw [update_of_ne hqp] at hq
      exact ⟨hqp, (hsame.req q).symm.trans hq⟩
  have hkeep : ∀ {q b' w' ph'}, q ≠ p → s.Has q b' w' ph' → s'.Has q b' w' ph' := by
    intro q b' w' ph' hqp hq
    unfold State.Has
    rw [hpc', update_of_ne hqp]
    exact (hsame.req q).trans hq
  have hout : ∀ {q b' w' ph' c'}, q ≠ p → s.Has q b' w' ph' → ph'.chain = some c' → ∀ j, c'.Mem j → ¬c.Mem j :=
    fun hqp hq hc j hj hj' => hqp (hI.apart hq hc hhas rfl hj hj')
  have hstatus : ∀ j, (s'.info j).status = (s.info j).status := by
    intro j
    change (update s.info c.i₀ _ j).status = _
    by_cases hj : j = c.i₀
    · subst hj
      rw [update_self]
    · rw [update_of_ne hj]
  refine ⟨fun hq hq' => hI.bufs (hcases hq).2 (hcases hq').2, fun hq hc => ?_, fun {j} hi hf => ?_,
    fun hq hc hq' hc' => hI.apart (hcases hq).2 hc (hcases hq').2 hc', fun {q} => ?_, fun {q _ _ _ _} hq hph => ?_, hI.nodup, fun e he => ?_,
    fun e he => by rw [hstatus]; exact hI.status e he, hI.done, fun hq => hI.early (hcases hq).2, fun hq => hI.slot (hcases hq).2,
    fun hq => hI.back (hcases hq).2⟩
  · obtain ⟨hqp, h⟩ := hcases hq
    have ho := hout hqp h hc
    refine (hI.good h hc).congr (fun j hj => (hother j (ho j hj)).1) (fun j hj => (hother j (ho j hj)).2) ?_
    change (update s.info c.i₀ _ _).b = _
    rw [update_of_ne fun h => ho _ (.inl rfl) (.inl h)]
  · change free j = false at hf
    have hj : ¬c.Mem j := fun hj => by rw [hfree j hj] at hf; cases hf
    rw [(hother j hj).1] at hf
    obtain ⟨q, b', w', ph', c', hq, hc, hm⟩ := hI.inUse hi hf
    have hqp : q ≠ p := by
      rintro rfl
      obtain ⟨-, -, rfl⟩ := Has.inj hq hhas
      cases hc
      exact hj hm
    exact ⟨q, b', w', ph', c', hkeep hqp hq, hc, hm⟩
  · refine ⟨fun h => ?_, fun h => nomatch h⟩
    rw [hpc'] at h
    by_cases hqp : q = p
    · subst hqp
      rw [update_self] at h
      exact False.elim h
    · rw [update_of_ne hqp] at h
      exact absurd (hI.running_unique ((hsame.running q).mp h) hrun) hqp
  · obtain ⟨hqp, h⟩ := hcases hq
    exact absurd (hI.running_unique (hI.mid h hph) hrun) hqp
  · obtain ⟨q, b', w', c', hq, hid, hr, hd⟩ := hI.own e he
    have hqp : q ≠ p := by
      rintro rfl
      obtain ⟨rfl, -⟩ := Has.inj hq hhas
      rw [hdisk] at hd
      cases hd
    exact ⟨q, b', w', c', hkeep hqp hq, hid, hr, hd⟩

theorem Inv.front_used (hne : s.used.head ≠ s.used.tail) :
    ∃ p b w c, s.used.toList NUM = s.used.front NUM :: s.used.take.toList NUM ∧ s.Has p b w (.wait c) ∧ (s.used.front NUM).id = c.i₀ ∧
      (s.used.front NUM).req = some ⟨p, s.calls p, b⟩ ∧ (s.info (s.used.front NUM).id).status = 0 ∧
      (s.info (s.used.front NUM).id).b = some b := by
  have hlist : s.used.toList NUM = s.used.front NUM :: s.used.take.toList NUM :=
    RingBuf.toList_take (by decide) fun h => hne (RingBuf.head_eq_tail_iff.mpr h)
  have hmem : s.used.front NUM ∈ s.used.toList NUM := by
    rw [hlist]
    exact List.mem_cons_self
  obtain ⟨p, b, w, c, hp, hid, hr, -⟩ := hI.own (s.used.front NUM)
    (mem_append_right _ (mem_append_right _ (mem_append_right _ hmem)))
  refine ⟨p, b, w, c, hlist, hp, hid, hr, hI.status _ (mem_append_right _ hmem), ?_⟩
  rw [hid]
  exact (hI.good hp rfl).info

theorem Inv.pass (hne : s.used.head ≠ s.used.tail) (hb : (s.info (s.used.front NUM).id).b = some b) :
    Inv { State.wakeup { s with disk := update s.disk b false } (.buf b) with used := s.used.take } := by
  obtain ⟨p, b1, w, c, hlist, hp, hid, hr, -, hb1⟩ := hI.front_used hne
  obtain rfl : b1 = b := Option.some.inj (hb1.symm.trans hb)
  have hflight : s.flight.Perm (s.used.front NUM :: (s.avail.toList NUM ++ (s.taken ++ (s.worked ++ s.used.take.toList NUM)))) := by
    unfold State.flight
    rw [hlist, ← append_assoc, ← append_assoc, ← append_assoc, ← append_assoc]
    exact List.perm_middle
  have hnodup := hI.nodup
  rw [(hflight.map Entry.id).nodup_iff, List.map_cons, List.nodup_cons] at hnodup
  have hmem : s.used.front NUM ∈ s.used.toList NUM := by
    rw [hlist]
    exact List.mem_cons_self
  have hdisk : ∀ {b'}, b' ≠ b1 → update s.disk b1 false b' = s.disk b' := fun h => update_of_ne h _ _
  have hrest : Inv { s with disk := update s.disk b1 false, used := s.used.take } := by
    refine ⟨hI.bufs, fun hq hc => ?_, hI.inUse, hI.apart, hI.lock, hI.mid, hnodup.2, fun e he => ?_, fun e he => hI.status e ?_,
      fun e he => hI.done e ?_, fun {q b' _ _ _} hq hph => ?_, hI.slot, fun {q b' _ _} hq hd => ?_⟩
    · exact (hI.good hq hc).congr (fun _ _ => rfl) (fun _ _ => rfl) rfl
    · obtain ⟨q, b', w', c', hq, hid', hr', hd⟩ := hI.own e (hflight.mem_iff.mpr (List.mem_cons_of_mem _ he))
      refine ⟨q, b', w', c', hq, hid', hr', (hdisk ?_).trans hd⟩
      -- another entry for the same buffer would have the same head
      rintro rfl
      obtain rfl : q = p := hI.bufs hq hp
      obtain ⟨-, -, h⟩ := Has.inj hq hp
      cases h
      exact hnodup.1 (List.mem_map.mpr ⟨e, he, hid'.trans hid.symm⟩)
    · rcases List.mem_append.mp he with h | h
      · exact List.mem_append_left _ h
      · rw [hlist]
        exact mem_append_right _ (List.mem_cons_of_mem _ h)
    · rw [hlist]
      exact List.mem_cons_of_mem _ he
    · refine (hdisk ?_).trans (hI.early hq hph)
      rintro rfl
      obtain rfl : q = p := hI.bufs hq hp
      obtain ⟨-, -, rfl⟩ := Has.inj hq hp
      exact not_early_wait hph
    · by_cases hbb : b' = b1
      · subst hbb
        obtain rfl : q = p := hI.bufs hq hp
        exact hI.done _ hmem _ hr
      · exact hI.back hq ((hdisk hbb).symm.trans hd)
  exact hrest.same (wakeup_same (s := { s with disk := update s.disk b1 false }))

theorem Inv.devTake (hne : s.avail.head ≠ s.avail.tail) :
    Inv { s with avail := s.avail.take, taken := s.avail.front NUM :: s.taken } := by
  have hlist : s.avail.toList NUM = s.avail.front NUM :: s.avail.take.toList NUM :=
    RingBuf.toList_take (by decide) fun h => hne (RingBuf.head_eq_tail_iff.mpr h)
  have hperm : (s.avail.take.toList NUM ++ (s.avail.front NUM :: s.taken ++ (s.worked ++ s.used.toList NUM))).Perm s.flight := by
    unfold State.flight
    rw [hlist]
    exact List.perm_middle
  refine ⟨hI.bufs, fun hq hc => ?_, hI.inUse, hI.apart, hI.lock, hI.mid, (hperm.map Entry.id).nodup_iff.mpr hI.nodup,
    fun e he => hI.own e (hperm.mem_iff.mp he), hI.status,
    hI.done, hI.early, hI.slot, hI.back⟩
  exact (hI.good hq hc).congr (fun _ _ => rfl) (fun _ _ => rfl) rfl

theorem Inv.taken_chain (he : e ∈ s.taken) :
    ∃ p b w c, s.Has p b w (.wait c) ∧ e.id = c.i₀ ∧ (s.desc e.id).addr = .req c.i₀ ∧ (s.desc (s.desc e.id).next).addr = .data b ∧
      (s.desc (s.desc (s.desc e.id).next).next).addr = .status c.i₀ := by
  obtain ⟨p, b, w, c, hp, hid, -⟩ := hI.own e (mem_append_right _ (List.mem_append_left _ he))
  have hg := hI.good hp rfl
  obtain ⟨f, hd1⟩ := hg.d₁
  refine ⟨p, b, w, c, hp, hid, ?_, ?_, ?_⟩
  · rw [hid, hg.d₀]
  · rw [hid, hg.d₀, hd1]
  · rw [hid, hg.d₀, hd1, hg.d₂]

theorem Inv.devWork (he : e ∈ s.taken) {media : BitVec 32 → β} {data : Fin NBUF → β} {info : Nat → Info}
    (hinfo : info = update s.info e.id { s.info e.id with status := 0 }) :
    Inv { s with media := media, data := data, info := info, taken := s.taken.erase e, worked := e :: s.worked } := by
  have hperm : (s.avail.toList NUM ++ (s.taken.erase e ++ (e :: s.worked ++ s.used.toList NUM))).Perm s.flight := by
    unfold State.flight
    refine List.Perm.append_left _ ?_
    refine List.perm_middle.trans ?_
    exact (List.perm_cons_erase he).symm.append_right _
  have hb : ∀ j, (info j).b = (s.info j).b := by
    intro j
    rw [hinfo]
    by_cases hj : j = e.id
    · subst hj
      rw [update_self]
    · rw [update_of_ne hj]
  refine ⟨hI.bufs, fun hq hc => ?_, hI.inUse, hI.apart, hI.lock, hI.mid, (hperm.map Entry.id).nodup_iff.mpr hI.nodup,
    fun e' he' => hI.own e' (hperm.mem_iff.mp he'), fun e' he' => ?_, hI.done, hI.early, hI.slot, hI.back⟩
  · exact (hI.good hq hc).congr (fun _ _ => rfl) (fun _ _ => rfl) (hb _)
  · change (info e'.id).status = 0
    rw [hinfo]
    by_cases hid : e'.id = e.id
    · rw [hid, update_self]
    · rw [update_of_ne hid]
      rcases List.mem_cons.mp he' with rfl | h
      · exact absurd rfl hid
      · exact hI.status e' h

theorem Inv.devDone (he : e ∈ s.worked) :
    Inv { s with used := s.used.put NUM e, worked := s.worked.erase e, finished := e.req.toList ++ s.finished } := by
  have hlist : (s.used.put NUM e).toList NUM = s.used.toList NUM ++ [e] := RingBuf.toList_put (by decide) (by decide) (hI.used_lt he)
  have hmove : (s.worked.erase e ++ (s.used.put NUM e).toList NUM).Perm (s.worked ++ s.used.toList NUM) := by
    rw [hlist, ← append_assoc]
    refine (List.perm_append_singleton e _).trans ?_
    exact (List.perm_cons_erase he).symm.append_right _
  have hperm : (s.avail.toList NUM ++ (s.taken ++ (s.worked.erase e ++ (s.used.put NUM e).toList NUM))).Perm s.flight :=
    (hmove.append_left _).append_left _
  refine ⟨hI.bufs, fun hq hc => ?_, hI.inUse, hI.apart, hI.lock, hI.mid, (hperm.map Entry.id).nodup_iff.mpr hI.nodup,
    fun e' he' => hI.own e' (hperm.mem_iff.mp he'), fun e' he' => hI.status e' (hmove.mem_iff.mp he'), fun e' he' r hr => ?_, hI.early, hI.slot,
    fun hq hd => mem_append_right _ (hI.back hq hd)⟩
  · exact (hI.good hq hc).congr (fun _ _ => rfl) (fun _ _ => rfl) rfl
  · change e' ∈ (s.used.put NUM e).toList NUM at he'
    rw [hlist] at he'
    rcases List.mem_append.mp he' with h | h
    · exact mem_append_right _ (hI.done e' h r hr)
    · obtain rfl := List.mem_singleton.mp h
      exact List.mem_append_left _ (by rw [hr]; exact List.mem_singleton.mpr rfl)

end

/-- What a step can do from a state of the invariant: it leads to such a state, or it has to wait. -/
def Kept : Except Stop (State β n) → Prop
  | .ok s' => Inv s'
  | .error .blocked => True
  | .error (.panic _) => False

theorem Inv.step (hI : Inv s) (p : Fin n) : Kept (s.step p) := by
  unfold State.step
  split
  · trivial
  · trivial
  · next b w ph hpc =>
    split
    · next hl =>
      refine hI.move hpc ⟨fun _ => rfl, fun _ => trivial⟩ (fun q hq => ⟨fun h => ?_, fun h => ?_⟩) fun _ _ => rfl
      · rw [hl] at h
        cases h
      · exact absurd (Holder.proc.inj (Option.some.inj h)) (Ne.symm hq)
    · trivial
  · next b w hpc =>
    have hrun : (s.pc p).running := by rw [hpc]; trivial
    rcases alloc3Desc_cases (s := s) with ⟨s', heq, ⟨desc, pc, rfl⟩, hd, hsame⟩ | ⟨c, heq, hfree, h01, h02, h12⟩
    · rw [heq]
      have hI' : Inv { s with desc := desc, pc := pc } := (hI.redesc hd).same hsame
      have hreq := hsame.req p
      rw [hpc] at hreq
      -- the process itself is awake
      have hpc' : ∃ pos, pc p = .rw b w .alloc pos := by
        change (pc p).req = some (b, w, .alloc) at hreq
        cases hq : pc p with
        | idle =>
          rw [hq] at hreq
          cases hreq
        | rw b' w' ph' pos' =>
          rw [hq] at hreq
          cases hreq
          exact ⟨pos', rfl⟩
      obtain ⟨pos, hpc'⟩ := hpc'
      refine hI'.move (s := { s with desc := desc, pc := pc }) hpc' ⟨fun h => False.elim h, fun h => nomatch h⟩
        (fun q hq => ⟨fun h => ?_, fun h => nomatch h⟩) fun c hc => absurd hc not_early_alloc
      exact absurd (hI.running_unique (hI.lock.mpr h) hrun) hq
    · rw [heq]
      exact hI.alloc hpc hfree h01 h02 h12
  · next b w c hpc => exact hI.announce hpc
  · next b w c hpc => exact hI.publish hpc
  · next b w c hpc =>
    have hrun : (s.pc p).running := by rw [hpc]; trivial
    split
    · refine hI.move hpc ⟨fun h => False.elim h, fun h => nomatch h⟩ (fun q hq => ⟨fun h => ?_, fun h => nomatch h⟩)
        fun c hc => absurd hc not_early_wait
      exact absurd (hI.running_unique (hI.lock.mpr h) hrun) hq
    · next hd =>
      obtain ⟨s', heq, hF⟩ := freeChain_freed (hI.good (has_of_pc hpc) rfl)
        (update s.info c.i₀ { s.info c.i₀ with b := none })
      rw [heq]
      exact hI.finish hpc (Bool.eq_false_iff.mpr hd) hF

theorem Inv.intr (hI : Inv s) : Kept s.intr := by
  unfold State.intr
  split
  · trivial
  · next hl =>
    have hl : s.lock = some .intr := not_not.mp hl
    split
    · refine hI.relock (x := s.pc) (fun _ => rfl) (fun q => hI.lock.trans ?_) hI.mid
      rw [hl]
      exact ⟨nofun, nofun⟩
    · next hne =>
      obtain ⟨p, b, w, c, -, -, -, -, hst, hb⟩ := hI.front_used hne
      simp only [hst, ne_eq, not_true_eq_false, if_false, hb]
      exact hI.pass hne hb

theorem Inv.next (hI : Inv s) (e : Event n) : Kept (next s e) := by
  cases e with
  | call p b w =>
    simp only [Virtio.next]
    split
    · next h => exact hI.call h.1 h.2
    · trivial
  | step p => exact hI.step p
  | wake p =>
    simp only [Virtio.next]
    split
    · next b w ph hpc =>
      refine hI.move (l := s.lock) hpc ⟨fun h => False.elim h, fun h => ?_⟩ (fun q _ => Iff.rfl) fun c hc => ?_
      · have := hI.lock.mpr h
        rw [hpc] at this
        exact False.elim this
      · have := hI.early_running hpc hc
        cases this
    · trivial
  | irq =>
    simp only [Virtio.next]
    split
    · next hl =>
      refine hI.relock (x := s.pc) (fun _ => rfl) (fun q => hI.lock.trans ?_) hI.mid
      rw [hl]
      exact ⟨nofun, nofun⟩
    · trivial
  | intr => exact hI.intr
  | devTake =>
    simp only [Virtio.next, State.devTake]
    split
    · trivial
    · next hne => exact hI.devTake hne
  | devWork e =>
    simp only [Virtio.next, State.devWork]
    split
    · trivial
    · next he =>
      obtain ⟨p, b, w, c, -, hid, h0, h1, h2⟩ := hI.taken_chain (not_not.mp he)
      simp only [h0, h1, h2]
      exact hI.devWork (not_not.mp he) (by rw [hid])
  | devDone e =>
    simp only [Virtio.next, State.devDone]
    split
    · trivial
    · next he => exact hI.devDone (not_not.mp he)

end Xv6.Virtio
