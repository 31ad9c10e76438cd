import Xv6.Virtio.Code

/-!
# The invariant of the driver

A request in flight has three descriptors of its own. Its head is in one place: in the avail ring, with the device, or in the used
ring; so no two entries in these places have the same head, and the rings, which have a slot for every descriptor, never overflow.
-/

namespace Xv6.Virtio

open Function (update update_of_ne update_self)
open Run
open Xv6.Bio (NBUF)

variable {β : Type} {n : Nat} {s s' s1 s2 : State β n} {p q : Fin n} {b b' b1 b2 : Fin NBUF} {w w' w1 w2 : Bool}
  {ph ph' ph1 ph2 : Phase} {c c' : Chain} {i : Nat} {e : Entry n} {pc' x pc pc'' : Fin n → Pc}

def Pc.req : Pc → Option (Fin NBUF × Bool × Phase)
  | .idle => none
  | .rw b w ph _ => some (b, w, ph)

def Pc.running : Pc → Prop
  | .rw _ _ _ .running => True
  | _ => False

def Phase.chain : Phase → Option Chain
  | .alloc => none
  | .announce c => some c
  | .publish c => some c
  | .wait c => some c

def Phase.Early (c : Chain) (ph : Phase) : Prop := ph = .announce c ∨ ph = .publish c

def Chain.Mem (c : Chain) (i : Nat) : Prop := i = c.i₀ ∨ i = c.i₁ ∨ i = c.i₂

instance (c : Chain) (i : Nat) : Decidable (c.Mem i) := inferInstanceAs (Decidable (_ ∨ _ ∨ _))

theorem Phase.Early.chain (h : ph.Early c) : ph.chain = some c := by
  rcases h with rfl | rfl <;> rfl

def State.Has (s : State β n) (p : Fin n) (b : Fin NBUF) (w : Bool) (ph : Phase) : Prop := (s.pc p).req = some (b, w, ph)

structure Formatted (s : State β n) (b : Fin NBUF) (c : Chain) : Prop where
  lt : ∀ i, c.Mem i → i < NUM
  notFree : ∀ i, c.Mem i → s.free i = false
  ne₀₁ : c.i₀ ≠ c.i₁
  ne₀₂ : c.i₀ ≠ c.i₂
  ne₁₂ : c.i₁ ≠ c.i₂
  d₀ : s.desc c.i₀ = ⟨.req c.i₀, 16, VRING_DESC_F_NEXT, c.i₁⟩
  d₁ : ∃ f, s.desc c.i₁ = ⟨.data b, BSIZE, f ||| VRING_DESC_F_NEXT, c.i₂⟩
  d₂ : s.desc c.i₂ = ⟨.status c.i₀, 1, VRING_DESC_F_WRITE, 0⟩
  info : (s.info c.i₀).b = some b

theorem Formatted.congr (h : Formatted s b c)
    (hfree : ∀ i, c.Mem i → s'.free i = s.free i) (hdesc : ∀ i, c.Mem i → s'.desc i = s.desc i)
    (hinfo : (s'.info c.i₀).b = (s.info c.i₀).b) : Formatted s' b c where
  lt := h.lt
  notFree i hi := (hfree i hi).trans (h.notFree i hi)
  ne₀₁ := h.ne₀₁
  ne₀₂ := h.ne₀₂
  ne₁₂ := h.ne₁₂
  d₀ := (hdesc _ (.inl rfl)).trans h.d₀
  d₁ := h.d₁.imp fun _ hd => (hdesc _ (.inr (.inl rfl))).trans hd
  d₂ := (hdesc _ (.inr (.inr rfl))).trans h.d₂
  info := hinfo.trans h.info

def State.flight (s : State β n) : List (Entry n) := s.avail.toList NUM ++ (s.taken ++ (s.worked ++ s.used.toList NUM))

structure Inv (s : State β n) : Prop where
  bufs : ∀ {p q b w ph w' ph'}, s.Has p b w ph → s.Has q b w' ph' → p = q
  good : ∀ {p b w ph c}, s.Has p b w ph → ph.chain = some c → Formatted s b c
  inUse : ∀ {i}, i < NUM → s.free i = false → ∃ p b w ph c, s.Has p b w ph ∧ ph.chain = some c ∧ c.Mem i
  apart : ∀ {p q b w ph c b' w' ph' c' i}, s.Has p b w ph → ph.chain = some c → s.Has q b' w' ph' → ph'.chain = some c' →
    c.Mem i → c'.Mem i → p = q
  lock : ∀ {p}, (s.pc p).running ↔ s.lock = some (.proc p)
  mid : ∀ {p b w ph c}, s.Has p b w ph → ph.Early c → (s.pc p).running
  nodup : (s.flight.map Entry.id).Nodup
  own : ∀ e ∈ s.flight, ∃ p b w c, s.Has p b w (.wait c) ∧ e.id = c.i₀ ∧ e.req = some ⟨p, s.calls p, b⟩ ∧ s.disk b = true
  status : ∀ e ∈ s.worked ++ s.used.toList NUM, (s.info e.id).status = 0
  done : ∀ e ∈ s.used.toList NUM, ∀ r, e.req = some r → r ∈ s.finished
  early : ∀ {p b w ph c}, s.Has p b w ph → ph.Early c → s.disk b = true
  slot : ∀ {p b w c}, s.Has p b w (.publish c) → s.avail.data (s.avail.tail.toNat % NUM) = ⟨c.i₀, some ⟨p, s.calls p, b⟩⟩
  back : ∀ {p b w c}, s.Has p b w (.wait c) → s.disk b = false → ⟨p, s.calls p, b⟩ ∈ s.finished

theorem Has.inj (h1 : s.Has p b1 w1 ph1) (h2 : s.Has p b2 w2 ph2) :
    b1 = b2 ∧ w1 = w2 ∧ ph1 = ph2 := by
  have := Option.some.inj (h1.symm.trans h2)
  exact ⟨congrArg Prod.fst this, congrArg (fun x => x.2.1) this, congrArg (fun x => x.2.2) this⟩

theorem length_le_num {l : List Nat} (hl : l.Nodup) (hlt : ∀ i ∈ l, i < NUM) : l.length ≤ NUM := by
  have := (List.subperm_of_subset hl fun i hi => List.mem_range.mpr (hlt i hi)).length_le
  rwa [List.length_range] at this

theorem Inv.id_lt (hI : Inv s) (he : e ∈ s.flight) : e.id < NUM := by
  obtain ⟨p, b, w, c, hp, hid, -⟩ := hI.own e he
  rw [hid]
  exact (hI.good hp rfl).lt _ (.inl rfl)

theorem Inv.flight_le (hI : Inv s) : s.flight.length ≤ NUM := by
  rw [← List.length_map (f := Entry.id)]
  refine length_le_num hI.nodup fun i hi => ?_
  obtain ⟨e, he, rfl⟩ := List.mem_map.mp hi
  exact hI.id_lt he

theorem Inv.early_not_flight (hI : Inv s) (hp : s.Has p b w ph) (hph : ph.Early c) : c.i₀ ∉ s.flight.map Entry.id := by
  intro hmem
  obtain ⟨e, he, hid⟩ := List.mem_map.mp hmem
  obtain ⟨q, b', w', c', hq, hid', -⟩ := hI.own e he
  have hpq : p = q := hI.apart hp hph.chain hq rfl (.inl rfl) (.inl (hid.symm.trans hid'))
  subst hpq
  obtain ⟨-, -, rfl⟩ := Has.inj hp hq
  rcases hph with h | h <;> cases h

theorem Inv.flight_lt (hI : Inv s) (hp : s.Has p b w ph) (hph : ph.Early c) : s.flight.length < NUM := by
  have h : (c.i₀ :: s.flight.map Entry.id).length ≤ NUM := by
    refine length_le_num (List.nodup_cons.mpr ⟨hI.early_not_flight hp hph, hI.nodup⟩) fun i hi => ?_
    rcases List.mem_cons.mp hi with rfl | hi
    · exact (hI.good hp hph.chain).lt _ (.inl rfl)
    · obtain ⟨e, he, rfl⟩ := List.mem_map.mp hi
      exact hI.id_lt he
  rw [List.length_cons, List.length_map] at h
  exact h

theorem flight_length : s.flight.length = s.avail.size + (s.taken.length + (s.worked.length + s.used.size)) := by
  unfold State.flight
  rw [List.length_append, List.length_append, List.length_append, RingBuf.length_toList, RingBuf.length_toList]

theorem Inv.avail_lt (hI : Inv s) (hp : s.Has p b w ph) (hph : ph.Early c) : s.avail.size < NUM := by
  have := hI.flight_lt hp hph
  rw [flight_length] at this
  omega

theorem Inv.used_lt (hI : Inv s) (he : e ∈ s.worked) : s.used.size < NUM := by
  have := hI.flight_le
  have := List.length_pos_of_mem he
  rw [flight_length] at *
  omega

structure SamePhase (pc pc' : Fin n → Pc) : Prop where
  req : ∀ q, (pc' q).req = (pc q).req
  running : ∀ q, (pc' q).running ↔ (pc q).running

theorem Inv.relock (hI : Inv s) {l : Option (Holder n)} (hreq : ∀ q, (x q).req = (s.pc q).req)
    (hlock : ∀ q, (x q).running ↔ l = some (.proc q)) (hmid : ∀ {q b w ph c}, s.Has q b w ph → ph.Early c → (x q).running) :
    Inv { s with pc := x, lock := l } := by
  have hhas : ∀ {q b w ph}, State.Has { s with pc := x, lock := l } q b w ph → s.Has q b w ph :=
    fun {q _ _ _} h => (hreq q).symm.trans h
  refine ⟨fun h h' => hI.bufs (hhas h) (hhas h'), fun h hc => ?_, fun hi hf => ?_,
    fun h hc h' hc' => hI.apart (hhas h) hc (hhas h') hc', hlock _, fun h hph => hmid (hhas h) hph, hI.nodup, fun e he => ?_,
    hI.status, hI.done, fun h => hI.early (hhas h), fun h => hI.slot (hhas h), fun h => hI.back (hhas h)⟩
  · exact (hI.good (hhas h) hc).congr (fun _ _ => rfl) (fun _ _ => rfl) rfl
  · obtain ⟨q, b, w, ph, c, hq, h⟩ := hI.inUse hi hf
    exact ⟨q, b, w, ph, c, (hreq q).trans hq, h⟩
  · obtain ⟨q, b, w, c, hq, h⟩ := hI.own e he
    exact ⟨q, b, w, c, (hreq q).trans hq, h⟩

theorem Inv.same (hI : Inv s) (h : SamePhase s.pc pc') : Inv { s with pc := pc' } :=
  hI.relock h.req (fun q => (h.running q).trans hI.lock) fun hq hph => (h.running _).mpr (hI.mid hq hph)

theorem wakeup_same {chan : Chan} : SamePhase s.pc (s.wakeup chan).pc := by
  refine ⟨fun q => ?_, fun q => ?_⟩
  · simp only [State.wakeup]
    split
    · next b w ph hq =>
      rw [hq]
      split <;> rfl
    · rfl
  · simp only [State.wakeup]
    split
    · next b w ph hq =>
      rw [hq]
      split <;> rfl
    · rfl

theorem SamePhase.refl (pc : Fin n → Pc) : SamePhase pc pc := ⟨fun _ => rfl, fun _ => Iff.rfl⟩

theorem SamePhase.trans (h : SamePhase pc pc') (h' : SamePhase pc' pc'') : SamePhase pc pc'' :=
  ⟨fun q => (h'.req q).trans (h.req q), fun q => (h'.running q).trans (h.running q)⟩

structure Freed (C : Nat → Prop) (s s' : State β n) : Prop where
  eq : ∃ desc free pc, s' = { s with desc := desc, free := free, pc := pc }
  free : ∀ i, C i → s'.free i = true
  other : ∀ i, ¬C i → s'.free i = s.free i ∧ s'.desc i = s.desc i
  pc : SamePhase s.pc s'.pc

theorem Freed.trans {C C' : Nat → Prop} (h : Freed C s s1) (h' : Freed C' s1 s2) :
    Freed (fun i => C i ∨ C' i) s s2 := by
  obtain ⟨d, f, pc, rfl⟩ := h.eq
  obtain ⟨d', f', pc', rfl⟩ := h'.eq
  refine ⟨⟨d', f', pc', rfl⟩, fun i hi => ?_, fun i hi => ?_, h.pc.trans h'.pc⟩
  · by_cases hC : C' i
    · exact h'.free i hC
    · rw [(h'.other i hC).1]
      exact h.free i (hi.resolve_right hC)
  · obtain ⟨h1, h2⟩ := not_or.mp hi
    exact ⟨(h'.other i h2).1.trans (h.other i h1).1, (h'.other i h2).2.trans (h.other i h1).2⟩

theorem freeDesc_freed (hi : i < NUM) (hf : s.free i = false) : ∃ s', s.freeDesc i = .ok s' ∧ Freed (· = i) s s' := by
  refine ⟨State.wakeup { s with desc := update s.desc i {}, free := update s.free i true } .free, ?_, ?_⟩
  · unfold State.freeDesc
    rw [if_neg (Nat.not_le.mpr hi), if_neg (by rw [hf]; exact Bool.false_ne_true)]
  · refine ⟨⟨_, _, _, rfl⟩, fun j hj => ?_, fun j hj => ?_,
      wakeup_same (s := { s with desc := update s.desc i {}, free := update s.free i true })⟩
    · subst hj
      exact update_self ..
    · exact ⟨update_of_ne hj _ _, update_of_ne hj _ _⟩

theorem allocDesc_some (h : s.allocDesc = some (s1, i)) :
    i < NUM ∧ s.free i = true ∧ s1 = { s with free := update s.free i false } := by
  unfold State.allocDesc at h
  split at h
  · next j hj =>
    cases h
    exact ⟨List.mem_range.mp (List.mem_of_find?_eq_some hj), List.find?_some hj, rfl⟩
  · cases h

/-- The state with the descriptors of `c` marked. -/
def State.mark (s : State β n) (c : Chain) : State β n :=
  { s with free := update (update (update s.free c.i₀ false) c.i₁ false) c.i₂ false }

theorem alloc3Desc_cases :
    (∃ s', s.alloc3Desc = .ok (s', none) ∧ (∃ desc pc, s' = { s with desc := desc, pc := pc }) ∧
      (∀ i, s.free i = false → s'.desc i = s.desc i) ∧ SamePhase s.pc s'.pc) ∨
    ∃ c, s.alloc3Desc = .ok (s.mark c, some c) ∧ (∀ i, c.Mem i → i < NUM ∧ s.free i = true) ∧ c.i₀ ≠ c.i₁ ∧ c.i₀ ≠ c.i₂ ∧ c.i₁ ≠ c.i₂ := by
  unfold State.alloc3Desc
  rcases h0 : s.allocDesc with - | ⟨s1, i₀⟩
  · exact .inl ⟨s, rfl, ⟨_, _, rfl⟩, fun _ _ => rfl, SamePhase.refl _⟩
  obtain ⟨hi0, hf0, rfl⟩ := allocDesc_some h0
  simp only
  rcases h1 : State.allocDesc { s with free := update s.free i₀ false } with - | ⟨s2, i₁⟩
  · -- one descriptor is freed again
    left
    obtain ⟨s', hs', hF⟩ := freeDesc_freed (s := { s with free := update s.free i₀ false }) hi0 (update_self ..)
    simp only [hs']
    obtain ⟨d, f, pc, rfl⟩ := hF.eq
    have hf : f = s.free := by
      funext j
      by_cases hj : j = i₀
      · subst hj
        exact (hF.free j rfl).trans hf0.symm
      · exact (hF.other j hj).1.trans (update_of_ne hj _ _)
    subst hf
    refine ⟨_, rfl, ⟨_, _, rfl⟩, fun j hj => ?_, hF.pc⟩
    exact (hF.other j fun h => by rw [h, hf0] at hj; cases hj).2
  obtain ⟨hi1, hf1, rfl⟩ := allocDesc_some h1
  change update s.free i₀ false i₁ = true at hf1
  have hne01 : i₀ ≠ i₁ := by
    rintro rfl
    rw [update_self] at hf1
    cases hf1
  have hf1' : s.free i₁ = true := by rwa [update_of_ne hne01.symm] at hf1
  simp only
  rcases h2 : State.allocDesc { s with free := update (update s.free i₀ false) i₁ false } with - | ⟨s3, i₂⟩
  · -- two descriptors are freed again
    left
    obtain ⟨s', hs', hF⟩ := freeDesc_freed (s := { s with free := update (update s.free i₀ false) i₁ false }) hi0
      (by change update _ _ _ _ = _; rw [update_of_ne hne01, update_self])
    obtain ⟨s'', hs'', hF'⟩ := freeDesc_freed (s := s') hi1 (by rw [(hF.other i₁ hne01.symm).1]; exact update_self ..)
    simp only [hs', Except.bind, hs'']
    have hF := hF.trans hF'
    obtain ⟨d, f, pc, rfl⟩ := hF.eq
    have hf : f = s.free := by
      funext j
      by_cases hj : j = i₀ ∨ j = i₁
      · refine (hF.free j hj).trans ?_
        rcases hj with rfl | rfl
        · exact hf0.symm
        · exact hf1'.symm
      · refine (hF.other j hj).1.trans ?_
        change update (update s.free i₀ false) i₁ false j = _
        rw [update_of_ne fun h => hj (.inr h), update_of_ne fun h => hj (.inl h)]
    subst hf
    refine ⟨_, rfl, ⟨_, _, rfl⟩, fun j hj => ?_, hF.pc⟩
    refine (hF.other j ?_).2
    rintro (rfl | rfl)
    · rw [hf0] at hj
      cases hj
    · rw [hf1'] at hj
      cases hj
  obtain ⟨hi2, hf2, rfl⟩ := allocDesc_some h2
  change update (update s.free i₀ false) i₁ false i₂ = true at hf2
  have hne12 : i₁ ≠ i₂ := by
    rintro rfl
    rw [update_self] at hf2
    cases hf2
  have hf2' : update s.free i₀ false i₂ = true := by rwa [update_of_ne hne12.symm] at hf2
  have hne02 : i₀ ≠ i₂ := by
    rintro rfl
    rw [update_self] at hf2'
    cases hf2'
  right
  refine ⟨⟨i₀, i₁, i₂⟩, rfl, ?_, hne01, hne02, hne12⟩
  rintro j (rfl | rfl | rfl)
  · exact ⟨hi0, hf0⟩
  · exact ⟨hi1, hf1'⟩
  · exact ⟨hi2, by rwa [update_of_ne hne02.symm] at hf2'⟩

theorem freeChain_freed (h : Formatted s b c) (info : Nat → Info) :
    ∃ s', State.freeChain (NUM + 1) { s with info := info } c.i₀ = .ok s' ∧ Freed c.Mem { s with info := info } s' := by
  obtain ⟨f, hd1⟩ := h.d₁
  have hflag : (f ||| VRING_DESC_F_NEXT) &&& VRING_DESC_F_NEXT ≠ 0 := by
    rw [Nat.and_or_distrib_right]
    intro h0
    have := Nat.or_eq_zero_iff.mp h0
    exact absurd this.2 (by decide)
  obtain ⟨s1, h1, hF1⟩ := freeDesc_freed (s := { s with info := info }) (h.lt _ (.inl rfl)) (h.notFree _ (.inl rfl))
  obtain ⟨s2, h2, hF2⟩ := freeDesc_freed (s := s1) (h.lt _ (.inr (.inl rfl)))
    ((hF1.other _ h.ne₀₁.symm).1.trans (h.notFree _ (.inr (.inl rfl))))
  have hF12 := hF1.trans hF2
  have hout : ¬(c.i₂ = c.i₀ ∨ c.i₂ = c.i₁) := not_or.mpr ⟨h.ne₀₂.symm, h.ne₁₂.symm⟩
  obtain ⟨s3, h3, hF3⟩ := freeDesc_freed (s := s2) (h.lt _ (.inr (.inr rfl)))
    ((hF12.other _ hout).1.trans (h.notFree _ (.inr (.inr rfl))))
  have hd1' : s1.desc c.i₁ = ⟨.data b, BSIZE, f ||| VRING_DESC_F_NEXT, c.i₂⟩ := (hF1.other _ h.ne₀₁.symm).2.trans hd1
  have hd2' : s2.desc c.i₂ = ⟨.status c.i₀, 1, VRING_DESC_F_WRITE, 0⟩ := (hF12.other _ hout).2.trans h.d₂
  refine ⟨s3, ?_, ?_⟩
  · have e0 : (s.desc c.i₀).flags &&& VRING_DESC_F_NEXT ≠ 0 := by
      rw [h.d₀]
      change VRING_DESC_F_NEXT &&& VRING_DESC_F_NEXT ≠ 0
      decide
    have e1 : (s1.desc c.i₁).flags &&& VRING_DESC_F_NEXT ≠ 0 := by rw [hd1']; exact hflag
    have e2 : ¬(s2.desc c.i₂).flags &&& VRING_DESC_F_NEXT ≠ 0 := by
      rw [hd2']
      change ¬VRING_DESC_F_WRITE &&& VRING_DESC_F_NEXT ≠ 0
      decide
    rw [State.freeChain]
    simp only [h1, if_pos e0]
    rw [h.d₀, State.freeChain]
    simp only [h2, if_pos e1]
    rw [hd1', State.freeChain]
    simp only [h3, if_neg e2]
  · have hF := hF12.trans hF3
    refine ⟨hF.eq, fun i hi => hF.free i ?_, fun i hi => hF.other i ?_, hF.pc⟩
    · unfold Chain.Mem at hi
      tauto
    · unfold Chain.Mem at hi
      tauto

end Xv6.Virtio
