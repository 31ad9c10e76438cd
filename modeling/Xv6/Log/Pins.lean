import Mathlib.Data.Fintype.Card
import Xv6.Bio.Shape
import Xv6.Lib.Wp
import Xv6.Log.Ops

/-!
# The buffers of a commit

`commit` and what it calls over the buffers of the cache, when no other process uses the cache meanwhile.
-/

namespace Xv6.Bio

open Function (update update_of_ne update_self)
open Run Hoare
open Bytes (Mem)

variable {n : Nat}

abbrev BioM (n : Nat) := StateT (State Mem n) (Except Stop)

def event (e : Event Mem n) : BioM n Unit := fun s => (s.next e).map fun s' => ((), s')

variable (p : Fin n) (dev : BitVec 32)

def bread (blockno : BitVec 32) : BioM n (Fin NBUF) := do
  event (.bread p dev blockno)
  event (.step p)
  event (.step p)
  match (← get).pc p with
  | .ret b _ _ => return b
  | _ => throw .blocked

def bwrite (b : Fin NBUF) : BioM n Unit := event (.bwrite p b)

def brelse (b : Fin NBUF) : BioM n Unit := do
  event (.brelse p b)
  event (.step p)

def bunpin (b : Fin NBUF) : BioM n Unit := event (.bunpin p b)

def setData (b : Fin NBUF) (v : Mem) : BioM n Unit := event (.modify p b v)

def data (b : Fin NBUF) : BioM n Mem := do return ((← get).buf b).data

def logBlock (start : BitVec 32) (tail : Nat) : BitVec 32 := start + BitVec.ofNat 32 tail + 1

def writeLog (start : BitVec 32) : Nat → List (BitVec 32) → BioM n Unit
  | _, [] => return ()
  | tail, blockno :: l => do
    let dst ← bread p dev (logBlock start tail)
    let src ← bread p dev blockno
    setData p dst (← data src)
    bwrite p dst
    brelse p src
    brelse p dst
    writeLog start (tail + 1) l

def writeHead (start : BitVec 32) (l : List (BitVec 32)) : BioM n Unit := do
  let buf ← bread p dev start
  setData p buf (Log.writeHead (← data buf) (l.map BitVec.toNat))
  bwrite p buf
  brelse p buf

def installTrans (start : BitVec 32) : Nat → List (BitVec 32) → BioM n Unit
  | _, [] => return ()
  | tail, blockno :: l => do
    let lbuf ← bread p dev (logBlock start tail)
    let dbuf ← bread p dev blockno
    setData p dbuf (← data lbuf)
    bwrite p dbuf
    bunpin p dbuf
    brelse p lbuf
    brelse p dbuf
    installTrans start (tail + 1) l

def commit (start : BitVec 32) (l : List (BitVec 32)) : BioM n Unit := do
  if l.length > 0 then
    writeLog p dev start 0 l
    writeHead p dev start l
    installTrans p dev start 0 l
    writeHead p dev start []

section

variable {p : Fin n} {dev blockno start : BitVec 32} {s s' s1 : State Mem n} {b t f : Fin NBUF} {Q : Unit → State Mem n → Prop}
  {E : Stop → Prop} {l r : List (BitVec 32)} {v : Mem} {x y : BitVec 32}

def State.Caches (s : State Mem n) (dev blockno : BitVec 32) (b : Fin NBUF) : Prop :=
  (s.buf b).dev = dev ∧ (s.buf b).blockno = blockno

/-- `bread` has returned `b` in the state `s'`. -/
structure Taken (s : State Mem n) (p : Fin n) (dev blockno : BitVec 32) (b : Fin NBUF) (s' : State Mem n) : Prop where
  shape : Shape s'
  pc : s'.pc p = .ret b dev blockno
  from_ : s.Caches dev blockno b ∨ (∀ b', ¬s.Caches dev blockno b') ∧ (s.buf b).refcnt = 0
  caches : s'.Caches dev blockno b
  lock : (s'.buf b).lock = some p
  refcnt : (s'.buf b).refcnt = (s.buf b).refcnt + 1
  others : ∀ b', b' ≠ b → s'.buf b' = s.buf b'

theorem wp_event {e : Event Mem n} (h : s.next e = .ok s') (hQ : Q () s') : wp (event e) Q E s := by
  have hrun : (event e).run s = .ok ((), s') := by
    change (s.next e).map _ = _
    rw [h]
    rfl
  exact (wp_of_ok hrun).2 hQ

theorem Shape.next {e : Event Mem n} (hs : Shape s) (h : s.next e = .ok s') (he : ∀ p dev blockno, e ≠ .bread p dev blockno) :
    Shape s' := (next_move hs h).shape hs fun p dev blockno heq => absurd heq (he p dev blockno)

theorem step_wait (hpc : s.pc p = .wait b dev blockno) (hl : (s.buf b).lock = none) :
    s.next (.step p) = .ok ((s.setBuf b { s.buf b with lock := some p }).goto p (.locked b dev blockno)) := by
  change s.step p = _
  unfold State.step
  rw [hpc]
  dsimp only
  rw [State.acquiresleep, hl]

theorem step_locked (hpc : s.pc p = .locked b dev blockno) : s.next (.step p) = .ok (s.breadFill p b dev blockno) := by
  change s.step p = _
  unfold State.step
  rw [hpc]

theorem bread_rest (hs : Shape s1) (hpc : s1.pc p = .wait b dev blockno) (hl : (s1.buf b).lock = none) :
    wp (do
      event (.step p)
      event (.step p)
      match (← get).pc p with
      | .ret b _ _ => return b
      | _ => throw .blocked : BioM n (Fin NBUF)) (fun b' s' => b' = b ∧ Shape s' ∧ s'.pc p = .ret b dev blockno ∧
        (s'.buf b).dev = (s1.buf b).dev ∧ (s'.buf b).blockno = (s1.buf b).blockno ∧ (s'.buf b).lock = some p ∧
        (s'.buf b).refcnt = (s1.buf b).refcnt ∧ ∀ b', b' ≠ b → s'.buf b' = s1.buf b') E s1 := by
  have h2 := step_wait hpc hl
  have hs2 := hs.next h2 (by simp)
  set s2 := (s1.setBuf b { s1.buf b with lock := some p }).goto p (.locked b dev blockno) with hdef
  have hb2 : s2.buf b = { s1.buf b with lock := some p } := update_self ..
  have hpc2 : s2.pc p = .locked b dev blockno := update_self ..
  have h3 := step_locked hpc2
  have hs3 := hs2.next h3 (by simp)
  have hpc3 : (s2.breadFill p b dev blockno).pc p = .ret b dev blockno := update_self ..
  have hb3 : (s2.breadFill p b dev blockno).buf b = s2.filled b := update_self ..
  obtain ⟨hd, hn, hk, hr, -⟩ := s2.filled_eq b
  rw [wp_bind]
  refine wp_event h2 ?_
  rw [wp_bind]
  refine wp_event h3 ?_
  rw [wp_bind, wp_get, hpc3]
  refine wp_pure.2 ⟨rfl, hs3, hpc3, ?_, ?_, ?_, ?_, fun b' hb' => ?_⟩
  · rw [hb3, hd, hb2]
  · rw [hb3, hn, hb2]
  · rw [hb3, hk, hb2]
  · rw [hb3, hr, hb2]
  · exact (update_of_ne hb' _ _).trans (update_of_ne hb' _ _)

theorem wp_bread (hs : Shape s) (hdev : dev ≠ 0) (hpc : (s.pc p).Free) (hb : s.Caches dev blockno b ∨ (s.buf b).refcnt = 0)
    (hlock : ∀ b', s.Caches dev blockno b' ∨ (s.buf b').refcnt = 0 → (s.buf b').lock = none) :
    wp (bread p dev blockno) (fun b s' => Taken s p dev blockno b s') E s := by
  obtain ⟨s1, h1⟩ : ∃ s', s.bget p dev blockno = .ok s' := bget_ok hs hb
  have hnext : s.next (.bread p dev blockno) = .ok s1 := by
    change s.call p _ = _
    rw [State.call, if_pos hpc, h1]
  have hm := next_move hs hnext
  have hs1 := hm.shape hs fun p' dev' blockno' h => by
    cases h
    exact hdev
  unfold bread
  rw [wp_bind]
  refine wp_event hnext ?_
  cases hm with
  | @hit _ b _ _ _ hd hn =>
    have hbuf : (((s.setBuf b { s.buf b with refcnt := (s.buf b).refcnt + 1 }).goto p (.wait b dev blockno)).buf b) =
        { s.buf b with refcnt := (s.buf b).refcnt + 1 } := update_self ..
    have hfree := hlock b (.inl ⟨hd, hn⟩)
    refine wp_post (bread_rest hs1 (update_self ..) (by rw [hbuf]; exact hfree)) ?_
    rintro b' s' ⟨rfl, hshape, hpc', hd', hn', hl', hr', hother⟩
    rw [hbuf] at hd' hn' hr'
    exact ⟨hshape, hpc', .inl ⟨hd, hn⟩, ⟨hd'.trans hd, hn'.trans hn⟩, hl', hr',
      fun c hc => (hother c hc).trans (update_of_ne hc _ _)⟩
  | @recycle _ b _ _ _ hno hr =>
    have hbuf : ({ (s.setBuf b { s.buf b with dev := dev, blockno := blockno, valid := false, refcnt := 1 }).goto p
        (.wait b dev blockno) with dirty := update s.dirty b false }.buf b) =
        { s.buf b with dev := dev, blockno := blockno, valid := false, refcnt := 1 } := update_self ..
    have hfree := hlock b (.inr hr)
    refine wp_post (bread_rest hs1 (update_self ..) (by rw [hbuf]; exact hfree)) ?_
    rintro b' s' ⟨rfl, hshape, hpc', hd', hn', hl', hr', hother⟩
    rw [hbuf] at hd' hn' hr'
    refine ⟨hshape, hpc', .inr ⟨hno, hr⟩, ⟨hd', hn'⟩, hl', ?_, fun c hc => (hother c hc).trans (update_of_ne hc _ _)⟩
    rw [hr', hr]
    rfl

structure Changed (s : State Mem n) (b : Fin NBUF) (x : Buf Mem n) (s' : State Mem n) : Prop where
  shape : Shape s'
  buf : s'.buf = update s.buf b x

theorem Changed.self {x : Buf Mem n} (h : Changed s b x s') : s'.buf b = x := by rw [h.buf, update_self]

theorem Changed.other {x : Buf Mem n} (h : Changed s b x s') {b' : Fin NBUF} (hb : b' ≠ b) : s'.buf b' = s.buf b' := by
  rw [h.buf, update_of_ne hb]

theorem wp_setData (hs : Shape s) (hpc : (s.pc p).Free) (hl : (s.buf b).lock = some p)
    (hQ : ∀ s', Changed s b { s.buf b with data := v } s' → s'.pc = s.pc → Q () s') : wp (setData p b v) Q E s := by
  have hnext : s.next (.modify p b v) = .ok { s.setBuf b { s.buf b with data := v } with
      mem := update s.mem (s.buf b).blockno v
      dirty := update s.dirty b true } := by
    change s.call p _ = _
    rw [State.call, if_pos hpc, State.modify, if_pos hl]
  exact wp_event hnext (hQ _ ⟨hs.next hnext (by simp), rfl⟩ rfl)

theorem wp_bwrite (hs : Shape s) (hpc : (s.pc p).Free) (hl : (s.buf b).lock = some p)
    (hQ : ∀ s', Shape s' → s'.buf = s.buf → s'.pc = s.pc → Q () s') : wp (bwrite p b) Q E s := by
  have hnext : s.next (.bwrite p b) = .ok { s with
      disk := update s.disk (sector (s.buf b).blockno) (s.buf b).data
      dirty := update s.dirty b false } := by
    change s.call p _ = _
    rw [State.call, if_pos hpc, State.bwrite, if_pos hl]
  exact wp_event hnext (hQ _ (hs.next hnext (by simp)) rfl rfl)

theorem wp_bunpin (hs : Shape s) (hpc : (s.pc p).Free)
    (hQ : ∀ s', Changed s b { s.buf b with refcnt := (s.buf b).refcnt - 1 } s' → s'.pc = s.pc → Q () s') :
    wp (bunpin p b) Q E s := by
  have hnext : s.next (.bunpin p b) = .ok (s.bunpin b) := by
    change s.call p _ = _
    rw [State.call, if_pos hpc]
  exact wp_event hnext (hQ _ ⟨hs.next hnext (by simp), rfl⟩ rfl)

theorem wp_brelse (hs : Shape s) (hpc : (s.pc p).Free) (hl : (s.buf b).lock = some p)
    (hQ : ∀ s', Changed s b { s.buf b with lock := none, refcnt := (s.buf b).refcnt - 1 } s' → s'.pc p = .idle → Q () s') :
    wp (brelse p b) Q E s := by
  have hnext : s.next (.brelse p b) = .ok ((s.setBuf b { s.buf b with lock := none }).goto p (.rel b)) := by
    change s.call p _ = _
    rw [State.call, if_pos hpc, State.brelse, if_pos hl]
  have hs1 := hs.next hnext (by simp)
  set s1 := (s.setBuf b { s.buf b with lock := none }).goto p (.rel b) with hdef
  have hpc1 : s1.pc p = .rel b := update_self ..
  have hb1 : s1.buf b = { s.buf b with lock := none } := update_self ..
  have hnext1 : s1.next (.step p) = .ok (s1.brelseUnref p b) := by
    change s1.step p = _
    unfold State.step
    rw [hpc1]
  unfold brelse
  rw [wp_bind]
  refine wp_event hnext (wp_event hnext1 (hQ _ ⟨hs1.next hnext1 (by simp), ?_⟩ ?_))
  · change update s1.buf b _ = _
    rw [hb1]
    exact Function.update_idem ..
  · exact update_self ..

/-- The buffers in use are those of the blocks `l`, each pinned once, and nobody holds one. -/
structure Pinned (dev : BitVec 32) (l : List (BitVec 32)) (s : State Mem n) : Prop where
  shape : Shape s
  cached : ∀ x ∈ l, ∃ b, s.Caches dev x b ∧ (s.buf b).refcnt = 1
  only : ∀ b, (s.buf b).refcnt ≠ 0 → ∃ x ∈ l, s.Caches dev x b
  unlocked : ∀ b, (s.buf b).lock = none

theorem Caches.unique (hs : Shape s) (hdev : dev ≠ 0) (hb : s.Caches dev blockno b) (ht : s.Caches dev blockno t) : b = t :=
  hs.ident b t (by rw [hb.1]; exact hdev) (hb.1.trans ht.1.symm) (hb.2.trans ht.2.symm)

theorem Pinned.exists_free (h : Pinned dev l s) (hdev : dev ≠ 0) (hl : l.length < NBUF) : ∃ b, (s.buf b).refcnt = 0 := by
  by_contra hno
  have hb : ∀ b, ∃ x ∈ l, s.Caches dev x b := fun b => h.only b fun h0 => hno ⟨b, h0⟩
  have hinj : Function.Injective fun b => (s.buf b).blockno := by
    intro b b' heq
    obtain ⟨x, -, hx⟩ := hb b
    obtain ⟨x', -, hx'⟩ := hb b'
    have heq : (s.buf b).blockno = (s.buf b').blockno := heq
    exact Caches.unique h.shape hdev hx ⟨hx'.1, by rw [← heq]; exact hx.2⟩
  have hsub : (List.finRange NBUF).map (fun b => (s.buf b).blockno) ⊆ l := by
    intro x hx
    obtain ⟨b, -, rfl⟩ := List.mem_map.1 hx
    obtain ⟨x, hx, hbx⟩ := hb b
    rw [hbx.2]
    exact hx
  have hlen := (List.subperm_of_subset ((List.nodup_finRange NBUF).map hinj) hsub).length_le
  rw [List.length_map, List.length_finRange] at hlen
  omega

/-- From `s` on, the log block `y` has been read to `t` and the home block `x`, which is pinned, to `f`. -/
structure Both (s : State Mem n) (p : Fin n) (dev x y : BitVec 32) (t f : Fin NBUF) (s' : State Mem n) : Prop where
  shape : Shape s'
  pc : (s'.pc p).Free
  ne : t ≠ f
  dst : s'.Caches dev y t ∧ (s'.buf t).lock = some p ∧ (s'.buf t).refcnt = (s.buf t).refcnt + 1
  dstOld : (s.buf t).refcnt ≠ 0 → s.Caches dev y t
  src : s'.Caches dev x f ∧ (s'.buf f).lock = some p ∧ (s'.buf f).refcnt = 2
  srcOld : s.Caches dev x f ∧ (s.buf f).refcnt = 1
  others : ∀ b, b ≠ t → b ≠ f → s'.buf b = s.buf b

theorem Pinned.wp_both (h : Pinned dev l s) (hdev : dev ≠ 0) (hl : l.length < NBUF) (hpc : (s.pc p).Free)
    (hx : x ∈ l) (hxy : x ≠ y) {g : Fin NBUF → Fin NBUF → BioM n Unit}
    (hQ : ∀ t f s', Both s p dev x y t f s' → wp (g t f) Q E s') :
    wp (do
      let t ← bread p dev y
      let f ← bread p dev x
      g t f) Q E s := by
  obtain ⟨b, hb⟩ := h.exists_free hdev hl
  obtain ⟨f, hf, hf1⟩ := h.cached x hx
  rw [wp_bind]
  refine wp_post (wp_bread (b := b) h.shape hdev hpc (.inr hb) fun b' _ => h.unlocked b') ?_
  intro t s1 h1
  have hold : (s.buf t).refcnt ≠ 0 → s.Caches dev y t := fun h0 => h1.from_.resolve_right fun hr => h0 hr.2
  have htf : t ≠ f := by
    rintro rfl
    have hy := hold (by rw [hf1]; decide)
    exact hxy (hf.2.symm.trans hy.2)
  have hsame : s1.buf f = s.buf f := h1.others f (Ne.symm htf)
  have hcf : s1.Caches dev x f := by rw [State.Caches, hsame]; exact hf
  rw [wp_bind]
  refine wp_post (wp_bread (b := f) h1.shape hdev (by rw [h1.pc]; trivial) (.inl hcf) fun b' hb' => ?_) ?_
  · have hne : b' ≠ t := by
      rintro rfl
      rcases hb' with hb' | hb'
      · exact hxy (hb'.2.symm.trans h1.caches.2)
      · rw [h1.refcnt] at hb'
        by_cases h0 : (s.buf b').refcnt = 0
        · rw [h0] at hb'
          exact absurd hb' (by decide)
        · obtain ⟨z, hz, hcz⟩ := h.only b' h0
          obtain ⟨c, hc, hc1⟩ := h.cached z hz
          rw [Caches.unique h.shape hdev hc hcz] at hc1
          rw [hc1] at hb'
          exact absurd hb' (by decide)
    rw [h1.others b' hne]
    exact h.unlocked b'
  · intro f' s2 h2
    have hff : f' = f := by
      rcases h2.from_ with hc | ⟨hno, -⟩
      · exact Caches.unique h1.shape hdev hc hcf
      · exact absurd hcf (hno f)
    subst hff
    have ht2 : s2.buf t = s1.buf t := h2.others t htf
    refine hQ t f' s2 ⟨h2.shape, by rw [h2.pc]; trivial, htf, ?_, hold, ⟨h2.caches, h2.lock, ?_⟩, ⟨hf, hf1⟩, fun b' h1' h2' => ?_⟩
    · rw [State.Caches, ht2]
      exact ⟨h1.caches, h1.lock, h1.refcnt⟩
    · rw [h2.refcnt, hsame, hf1]
      rfl
    · rw [h2.others b' h2', h1.others b' h1']

theorem Both.release (hB : Both s p dev x y t f s1) (h : Pinned dev l s) (hdev : dev ≠ 0) (hs : Shape s')
    (ht : s'.buf t = { s1.buf t with data := (s'.buf t).data, lock := none, refcnt := (s.buf t).refcnt })
    (hf : s'.Caches dev x f ∧ (s'.buf f).lock = none) (hother : ∀ b, b ≠ t → b ≠ f → s'.buf b = s.buf b)
    (hr : ∀ z, z ∈ r ↔ z ∈ l ∧ (z = x → (s'.buf f).refcnt = 1)) (hf01 : (s'.buf f).refcnt = 1 ∨ (s'.buf f).refcnt = 0) :
    Pinned dev r s' := by
  have hct : s'.Caches dev y t := by
    rw [State.Caches, ht]
    exact hB.dst.1
  have hkeep : ∀ b z, (s.buf b).refcnt ≠ 0 → s.Caches dev z b → s'.Caches dev z b := by
    intro b z h0 hz
    by_cases hbt : b = t
    · subst hbt
      obtain rfl : z = y := hz.2.symm.trans (hB.dstOld h0).2
      exact hct
    · by_cases hbf : b = f
      · subst hbf
        obtain rfl : z = x := hz.2.symm.trans hB.srcOld.1.2
        exact hf.1
      · rw [State.Caches, hother b hbt hbf]
        exact hz
  refine ⟨hs, fun z hz => ?_, fun b hb => ?_, fun b => ?_⟩
  · obtain ⟨hzl, hzx⟩ := (hr z).1 hz
    obtain ⟨b, hb, hb1⟩ := h.cached z hzl
    refine ⟨b, hkeep b z (by rw [hb1]; decide) hb, ?_⟩
    by_cases hbt : b = t
    · rw [hbt, ht, ← hbt]
      exact hb1
    · by_cases hbf : b = f
      · subst hbf
        exact hzx (hb.2.symm.trans hB.srcOld.1.2)
      · rw [hother b hbt hbf]
        exact hb1
  · by_cases hbf : b = f
    · subst hbf
      have h1 := hf01.resolve_right hb
      have hxl : x ∈ l := by
        have hne : (s.buf b).refcnt ≠ 0 := by
          rw [hB.srcOld.2]
          decide
        obtain ⟨z, hz, hzb⟩ := h.only b hne
        rw [← hzb.2, hB.srcOld.1.2] at hz
        exact hz
      exact ⟨x, (hr x).2 ⟨hxl, fun _ => h1⟩, hf.1⟩
    · have hb' : (s.buf b).refcnt ≠ 0 := by
        by_cases hbt : b = t
        · rw [hbt, ht, ← hbt] at hb
          exact hb
        · rw [hother b hbt hbf] at hb
          exact hb
      obtain ⟨z, hz, hzb⟩ := h.only b hb'
      have hzx : z ≠ x := by
        rintro rfl
        exact hbf (Caches.unique h.shape hdev hzb hB.srcOld.1)
      exact ⟨z, (hr z).2 ⟨hz, fun he => absurd he hzx⟩, hkeep b z hb' hzb⟩
  · by_cases hbt : b = t
    · rw [hbt, ht]
    · by_cases hbf : b = f
      · rw [hbf]
        exact hf.2
      · rw [hother b hbt hbf]
        exact h.unlocked b

theorem wp_data {Q : Mem → State Mem n → Prop} : wp (data b) Q E s ↔ Q (s.buf b).data s := Iff.rfl

theorem writeLog_spec (hdev : dev ≠ 0) (hl : l.length < NBUF) (hlog : ∀ x ∈ l, ∀ k < l.length, x ≠ logBlock start k) :
    ∀ (r : List (BitVec 32)) (tail : Nat) (s : State Mem n), Pinned dev l s → (s.pc p).Free → r ⊆ l → tail + r.length ≤ l.length →
      wp (writeLog p dev start tail r) (fun _ s' => Pinned dev l s' ∧ (s'.pc p).Free) E s := by
  intro r
  induction r with
  | nil => exact fun tail s h hpc _ _ => wp_pure.2 ⟨h, hpc⟩
  | cons x r ih =>
    intro tail s h hpc hsub hlen
    rw [List.length_cons] at hlen
    have hx : x ∈ l := hsub List.mem_cons_self
    unfold writeLog
    refine h.wp_both hdev hl hpc hx (hlog x hx tail (by omega)) fun t f s2 hB => ?_
    have htf := hB.ne
    rw [wp_bind, wp_data, wp_bind]
    refine wp_setData hB.shape hB.pc hB.dst.2.1 fun s3 h3 hpc3 => ?_
    have hft3 : s3.buf f = s2.buf f := h3.other (Ne.symm htf)
    rw [wp_bind]
    refine wp_bwrite h3.shape (by rw [hpc3]; exact hB.pc) (by rw [h3.self]; exact hB.dst.2.1) fun s4 hs4 hbuf4 hpc4 => ?_
    rw [wp_bind]
    refine wp_brelse hs4 (by rw [hpc4, hpc3]; exact hB.pc) (by rw [hbuf4, hft3]; exact hB.src.2.1) fun s5 h5 hpc5 => ?_
    have ht5 : s5.buf t = s3.buf t := by rw [h5.other htf, hbuf4]
    rw [wp_bind]
    refine wp_brelse h5.shape (by rw [hpc5]; trivial) (by rw [ht5, h3.self]; exact hB.dst.2.1) fun s6 h6 hpc6 => ?_
    have hf6 : s6.buf f = { s2.buf f with lock := none, refcnt := (s2.buf f).refcnt - 1 } := by
      rw [h6.other (Ne.symm htf), h5.self, hbuf4, hft3]
    have ht6 := h6.self
    rw [ht5, h3.self] at ht6
    have hone : (s6.buf f).refcnt = 1 := by
      rw [hf6, hB.src.2.2]
      rfl
    refine ih (tail + 1) s6 (hB.release h hdev h6.shape ?_ ?_ (fun b hbt hbf => ?_) (fun z => ?_) (.inl hone)) (by rw [hpc6]; trivial)
      (fun z hz => hsub (List.mem_cons_of_mem x hz)) (by omega)
    · rw [ht6]
      dsimp only
      rw [hB.dst.2.2, BitVec.add_sub_cancel]
    · rw [State.Caches, hf6]
      exact ⟨hB.src.1, rfl⟩
    · rw [h6.other hbt, h5.other hbf, hbuf4, h3.other hbt, hB.others b hbt hbf]
    · exact ⟨fun hz => ⟨hz, fun _ => hone⟩, fun hz => hz.1⟩

theorem writeHead_spec (hdev : dev ≠ 0) (hl : l.length < NBUF) (h : Pinned dev l s) (hpc : (s.pc p).Free) :
    wp (writeHead p dev start r) (fun _ s' => Pinned dev l s' ∧ (s'.pc p).Free) E s := by
  obtain ⟨b, hb⟩ := h.exists_free hdev hl
  unfold writeHead
  rw [wp_bind]
  refine wp_post (wp_bread (b := b) h.shape hdev hpc (.inr hb) fun b' _ => h.unlocked b') ?_
  intro t s1 h1
  rw [wp_bind, wp_data, wp_bind]
  refine wp_setData h1.shape (by rw [h1.pc]; trivial) h1.lock fun s2 h2 hpc2 => ?_
  rw [wp_bind]
  refine wp_bwrite h2.shape (by rw [hpc2, h1.pc]; trivial) (by rw [h2.self]; exact h1.lock) fun s3 hs3 hbuf3 hpc3 => ?_
  refine wp_brelse hs3 (by rw [hpc3, hpc2, h1.pc]; trivial) (by rw [hbuf3, h2.self]; exact h1.lock) fun s4 h4 hpc4 => ?_
  have ht4 := h4.self
  rw [hbuf3, h2.self] at ht4
  dsimp only at ht4
  rw [h1.refcnt, BitVec.add_sub_cancel] at ht4
  have hother : ∀ b, b ≠ t → s4.buf b = s.buf b := fun b hbt => by
    rw [h4.other hbt, hbuf3, h2.other hbt, h1.others b hbt]
  have hkeep : ∀ b z, (s.buf b).refcnt ≠ 0 → s.Caches dev z b → s4.Caches dev z b := by
    intro b z h0 hz
    by_cases hbt : b = t
    · subst hbt
      have hstart := h1.from_.resolve_right fun hr => h0 hr.2
      obtain rfl : z = start := hz.2.symm.trans hstart.2
      rw [State.Caches, ht4]
      exact h1.caches
    · rw [State.Caches, hother b hbt]
      exact hz
  have hrefs : ∀ b, (s4.buf b).refcnt = (s.buf b).refcnt := by
    intro b
    by_cases hbt : b = t
    · rw [hbt, ht4]
    · rw [hother b hbt]
  refine ⟨⟨h4.shape, fun z hz => ?_, fun b hb => ?_, fun b => ?_⟩, by rw [hpc4]; trivial⟩
  · obtain ⟨b, hbz, hb1⟩ := h.cached z hz
    exact ⟨b, hkeep b z (by rw [hb1]; decide) hbz, (hrefs b).trans hb1⟩
  · rw [hrefs] at hb
    obtain ⟨z, hz, hbz⟩ := h.only b hb
    exact ⟨z, hz, hkeep b z hb hbz⟩
  · by_cases hbt : b = t
    · rw [hbt, ht4]
    · rw [hother b hbt]
      exact h.unlocked b

theorem installTrans_spec (hdev : dev ≠ 0) :
    ∀ (r : List (BitVec 32)) (tail : Nat) (s : State Mem n), Pinned dev r s → (s.pc p).Free → r.Nodup → r.length < NBUF →
      (∀ x ∈ r, ∀ k < tail + r.length, x ≠ logBlock start k) →
      wp (installTrans p dev start tail r) (fun _ s' => Pinned dev [] s' ∧ (s'.pc p).Free) E s := by
  intro r
  induction r with
  | nil => exact fun tail s h hpc _ _ _ => wp_pure.2 ⟨h, hpc⟩
  | cons x r ih =>
    intro tail s h hpc hnd hlen hlog
    rw [List.length_cons] at hlen
    obtain ⟨hxr, hnd⟩ := List.nodup_cons.1 hnd
    unfold installTrans
    refine h.wp_both hdev (by rw [List.length_cons]; exact hlen) hpc List.mem_cons_self
      (hlog x List.mem_cons_self tail (by rw [List.length_cons]; omega)) fun t f s2 hB => ?_
    have htf := hB.ne
    rw [wp_bind, wp_data, wp_bind]
    refine wp_setData hB.shape hB.pc hB.src.2.1 fun s3 h3 hpc3 => ?_
    rw [wp_bind]
    refine wp_bwrite h3.shape (by rw [hpc3]; exact hB.pc) (by rw [h3.self]; exact hB.src.2.1) fun s4 hs4 hbuf4 hpc4 => ?_
    rw [wp_bind]
    refine wp_bunpin hs4 (by rw [hpc4, hpc3]; exact hB.pc) fun s5 h5 hpc5 => ?_
    have ht5 : s5.buf t = s2.buf t := by rw [h5.other htf, hbuf4, h3.other htf]
    rw [wp_bind]
    refine wp_brelse h5.shape (by rw [hpc5, hpc4, hpc3]; exact hB.pc) (by rw [ht5]; exact hB.dst.2.1) fun s6 h6 hpc6 => ?_
    have hf6 := h6.other (Ne.symm htf)
    rw [h5.self, hbuf4, h3.self] at hf6
    rw [wp_bind]
    refine wp_brelse h6.shape (by rw [hpc6]; trivial) (by rw [hf6]; exact hB.src.2.1) fun s7 h7 hpc7 => ?_
    have hf7 := h7.self
    rw [hf6] at hf7
    have ht7 : s7.buf t = { s2.buf t with lock := none, refcnt := (s2.buf t).refcnt - 1 } := by
      rw [h7.other htf, h6.self, ht5]
    have hzero : (s7.buf f).refcnt = 0 := by
      rw [hf7]
      dsimp only
      rw [hB.src.2.2]
      rfl
    refine ih (tail + 1) s7 (hB.release h hdev h7.shape ?_ ?_ (fun b hbt hbf => ?_) (fun z => ?_) (.inr hzero)) (by rw [hpc7]; trivial)
      hnd (by omega) fun z hz k hk => hlog z (List.mem_cons_of_mem x hz) k (by rw [List.length_cons]; omega)
    · rw [ht7]
      dsimp only
      rw [hB.dst.2.2, BitVec.add_sub_cancel]
    · rw [State.Caches, hf7]
      exact ⟨hB.src.1, rfl⟩
    · rw [h7.other hbf, h6.other hbt, h5.other hbf, hbuf4, h3.other hbf, hB.others b hbt hbf]
    · rw [hzero, List.mem_cons]
      constructor
      · exact fun hz => ⟨.inr hz, fun he => absurd (he ▸ hz) hxr⟩
      · rintro ⟨rfl | hz, hne⟩
        · exact absurd (hne rfl) (by decide)
        · exact hz

end

/-- A commit of at most `LOGSIZE - 1` blocks, which all lie outside the log and whose pins are the only references to buffers, always
finds a buffer and runs to its end; then no buffer is referenced or locked. -/
theorem commit_finds_buffers (p : Fin n) (dev start : BitVec 32) (hdev : dev ≠ 0) (l : List (BitVec 32)) (hnd : l.Nodup)
    (hlen : l.length ≤ Log.LOGSIZE - 1) (hout : ∀ x ∈ l, ∀ k < Log.LOGSIZE, x ≠ start + BitVec.ofNat 32 k)
    (s : State Mem n) (hpc : s.pc p = .idle) (hpins : Pinned dev l s) :
    ∃ s', (commit p dev start l).run s = .ok ((), s') ∧ ∀ b, (s'.buf b).refcnt = 0 ∧ (s'.buf b).lock = none := by
  have hl : l.length < NBUF := by
    have : Log.LOGSIZE - 1 < NBUF := by decide
    omega
  have hlog : ∀ x ∈ l, ∀ k < l.length, x ≠ logBlock start k := by
    intro x hx k hk he
    refine hout x hx (k + 1) (by omega) (he.trans ?_)
    rw [logBlock, BitVec.ofNat_add, BitVec.add_assoc]
    rfl
  have hdone : ∀ {s' : State Mem n}, Pinned dev [] s' → ∀ b, (s'.buf b).refcnt = 0 ∧ (s'.buf b).lock = none := by
    intro s' h b
    refine ⟨?_, h.unlocked b⟩
    by_contra h0
    obtain ⟨x, hx, -⟩ := h.only b h0
    exact List.not_mem_nil hx
  have hwp : wp (commit p dev start l) (fun _ s' => Pinned dev [] s') (fun _ => False) s := by
    have hfree : (s.pc p).Free := by
      rw [hpc]
      trivial
    unfold commit
    split
    · rw [wp_bind]
      refine wp_post (writeLog_spec hdev hl hlog l 0 s hpins hfree (List.Subset.refl l) (by omega)) ?_
      rintro - s1 ⟨h1, hpc1⟩
      rw [wp_bind]
      refine wp_post (writeHead_spec hdev hl h1 hpc1) ?_
      rintro - s2 ⟨h2, hpc2⟩
      rw [wp_bind]
      refine wp_post (installTrans_spec hdev l 0 s2 h2 hpc2 hnd hl (by rw [Nat.zero_add]; exact hlog)) ?_
      rintro - s3 ⟨h3, hpc3⟩
      refine wp_post (writeHead_spec hdev (by decide) h3 hpc3) ?_
      exact fun _ _ h => h.1
    next hzero =>
      rw [show l = [] from List.eq_nil_of_length_eq_zero (by omega)] at hpins
      exact wp_pure.2 hpins
  obtain ⟨⟨⟩, s', hrun, h⟩ := wp_false_iff.1 hwp
  exact ⟨s', hrun, hdone h⟩

def firstBuf : Fin NBUF := ⟨0, Nat.succ_pos 29⟩

def onePin : State Mem 1 :=
  (init 1 (fun _ => 0) fun _ _ => 0).setBuf firstBuf ⟨true, 1, 50, none, 1, fun _ => 0⟩

theorem onePin_buf (b : Fin NBUF) :
    onePin.buf b = if b = firstBuf then ⟨true, 1, 50, none, 1, fun _ => 0⟩ else ⟨false, 0, 0, none, 0, fun _ => 0⟩ :=
  State.buf_setBuf ..

theorem onePin_pinned : Pinned 1 [50] onePin := by
  refine ⟨⟨(shape_init (n := 1) (fun _ => 0 : Mem) fun _ _ => 0).ring, fun b b' h0 hd hn => ?_⟩, fun x hx => ?_, fun b hb => ?_, fun b => ?_⟩
  · rw [onePin_buf] at h0
    rw [onePin_buf, onePin_buf] at hd
    by_cases hb : b = firstBuf <;> by_cases hb' : b' = firstBuf <;> simp_all
  · rw [List.mem_singleton] at hx
    refine ⟨firstBuf, ⟨?_, ?_⟩, ?_⟩ <;> rw [onePin_buf, if_pos rfl]
    exact hx.symm
  · rw [onePin_buf] at hb
    refine ⟨50, List.mem_singleton_self 50, ?_⟩
    by_cases hf : b = firstBuf
    · rw [State.Caches, onePin_buf, if_pos hf]
      exact ⟨rfl, rfl⟩
    · rw [if_neg hf] at hb
      exact absurd rfl hb
  · rw [onePin_buf]
    split <;> rfl

theorem onePin_home : ∀ x ∈ [(50 : BitVec 32)], ∀ k < Log.LOGSIZE, x ≠ 2 + BitVec.ofNat 32 k := by
  intro x hx k hk
  have hk : k < 30 := hk
  rw [List.mem_singleton.1 hx]
  bv_omega

theorem commit_finds_buffers_onePin : Pinned 1 [50] onePin ∧ ∃ s', (commit ⟨0, Nat.one_pos⟩ 1 2 [50]).run onePin = .ok ((), s') ∧
    ∀ b, (s'.buf b).refcnt = 0 ∧ (s'.buf b).lock = none :=
  ⟨onePin_pinned, commit_finds_buffers ⟨0, Nat.one_pos⟩ 1 2 (by decide) [50] (List.nodup_singleton 50) (by decide)
    onePin_home onePin rfl onePin_pinned⟩

end Xv6.Bio
