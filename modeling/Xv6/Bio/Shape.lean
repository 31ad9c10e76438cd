import Mathlib.Data.List.Perm.Subperm
import Xv6.Bio.Code

/-!
# The list of buffers and their identities

Whatever the processes do, the list of the cache stays a circular list of all buffers, and no two buffers stand for the same
block (`Shape`). So the two walks of `bget` see every buffer, and `Move` can say what each event does without the list.
-/

namespace Xv6.Bio

open Function (update)
open Run DList

variable {β : Type} {n : Nat}

/-- The list contains every buffer once, and a block has at most one buffer. -/
structure Shape (s : State β n) : Prop where
  ring : ∃ l : List Node, Ring s.links none l ∧ ∀ b : Fin NBUF, some b ∈ l
  ident : ∀ b b', (s.buf b).dev ≠ 0 → (s.buf b).dev = (s.buf b').dev → (s.buf b).blockno = (s.buf b').blockno → b = b'

theorem length_le_of_ring {k : Links Node} {l : List Node} (h : Ring k none l) : l.length < NBUF + 1 := by
  have hnd := List.nodup_cons.1 h.nodup
  have hsub : l ⊆ (List.finRange NBUF).map some := by
    intro x hx
    cases x with
    | none => exact absurd hx hnd.1
    | some b => exact List.mem_map_of_mem (List.mem_finRange b)
  have hlen := (List.subperm_of_subset hnd.2 hsub).length_le
  rw [List.length_map, List.length_finRange] at hlen
  omega

/-- What the event `e` does in the state `s`. -/
inductive Move (s : State β n) : Event β n → State β n → Prop
  | hit {p b dev blockno} (hf : (s.pc p).Free) (hd : (s.buf b).dev = dev) (hn : (s.buf b).blockno = blockno) :
      Move s (.bread p dev blockno)
        ((s.setBuf b { s.buf b with refcnt := (s.buf b).refcnt + 1 }).goto p (.wait b dev blockno))
  | recycle {p b dev blockno} (hf : (s.pc p).Free)
      (hno : ∀ b', ¬ ((s.buf b').dev = dev ∧ (s.buf b').blockno = blockno)) (hr : (s.buf b).refcnt = 0) :
      Move s (.bread p dev blockno)
        { (s.setBuf b
            { s.buf b with dev := dev, blockno := blockno, valid := false, refcnt := 1 }).goto p (.wait b dev blockno) with
          dirty := update s.dirty b false }
  | acquire {p b dev blockno} (hpc : s.pc p = .wait b dev blockno) (hl : (s.buf b).lock = none) :
      Move s (.step p) ((s.setBuf b { s.buf b with lock := some p }).goto p (.locked b dev blockno))
  | fill {p b dev blockno} (hpc : s.pc p = .locked b dev blockno) :
      Move s (.step p) (s.breadFill p b dev blockno)
  | modify {p b v} (hf : (s.pc p).Free) (hl : (s.buf b).lock = some p) :
      Move s (.modify p b v)
        { s.setBuf b { s.buf b with data := v } with
          mem := update s.mem (s.buf b).blockno v
          dirty := update s.dirty b true }
  | bwrite {p b} (hf : (s.pc p).Free) (hl : (s.buf b).lock = some p) :
      Move s (.bwrite p b)
        { s with
          disk := update s.disk (sector (s.buf b).blockno) (s.buf b).data
          dirty := update s.dirty b false }
  | brelse {p b} (hf : (s.pc p).Free) (hl : (s.buf b).lock = some p) :
      Move s (.brelse p b) ((s.setBuf b { s.buf b with lock := none }).goto p (.rel b))
  | unref {p b} (hpc : s.pc p = .rel b) : Move s (.step p) (s.brelseUnref p b)
  | bpin {p b} : Move s (.bpin p b) (s.bpin b)
  | bunpin {p b} : Move s (.bunpin p b) (s.bunpin b)

section

variable {s s' : State β n} {e : Event β n} {p : Fin n} {dev blockno : BitVec 32} {b : Fin NBUF}

theorem call_ok {f : Except Stop (State β n)} (h : s.call p f = .ok s') : (s.pc p).Free ∧ f = .ok s' := by
  unfold State.call at h
  split at h
  next hf => exact ⟨hf, h⟩
  next => cases h

theorem bget_move (hs : Shape s) (hf : (s.pc p).Free)
    (h : s.bget p dev blockno = .ok s') : Move s (.bread p dev blockno) s' := by
  obtain ⟨l, hr, hall⟩ := hs.ring
  have hlen := length_le_of_ring hr
  unfold State.bget at h
  rw [hr.scan_next _ hlen, hr.scan_prev _ hlen] at h
  rcases hfind : l.find? (s.matching dev blockno) with _ | _ | b
  · -- no buffer has the block: the least recently used free one is recycled
    rw [hfind] at h
    simp only at h
    have hno : ∀ b', ¬ ((s.buf b').dev = dev ∧ (s.buf b').blockno = blockno) := by
      intro b'
      have := List.find?_eq_none.1 hfind (some b') (hall b')
      simpa [State.matching] using this
    rcases hfree : l.reverse.find? s.unused with _ | _ | b
    · rw [hfree] at h
      cases h
    · rw [hfree] at h
      cases h
    · rw [hfree] at h
      cases h
      refine .recycle hf hno ?_
      simpa [State.unused] using List.find?_some hfree
  · have := List.find?_some hfind
    simp [State.matching] at this
  · rw [hfind] at h
    cases h
    have := List.find?_some hfind
    simp only [State.matching, decide_eq_true_eq] at this
    exact .hit hf this.1 this.2

theorem bget_ok (hs : Shape s)
    (h : (s.buf b).dev = dev ∧ (s.buf b).blockno = blockno ∨ (s.buf b).refcnt = 0) : ∃ s', s.bget p dev blockno = .ok s' := by
  obtain ⟨l, hr, hall⟩ := hs.ring
  have hlen := length_le_of_ring hr
  unfold State.bget
  rw [hr.scan_next _ hlen, hr.scan_prev _ hlen]
  rcases hfind : l.find? (s.matching dev blockno) with _ | _ | b'
  · rcases hfree : l.reverse.find? s.unused with _ | _ | b'
    · exfalso
      rcases h with h | h
      · have := List.find?_eq_none.1 hfind (some b) (hall b)
        simp [State.matching, h] at this
      · have := List.find?_eq_none.1 hfree (some b) (List.mem_reverse.2 (hall b))
        simp [State.unused, h] at this
    · have := List.find?_some hfree
      simp [State.unused] at this
    · exact ⟨_, rfl⟩
  · have := List.find?_some hfind
    simp [State.matching] at this
  · exact ⟨_, rfl⟩

theorem bget_panics (hs : Shape s)
    (h : ∀ b, ¬((s.buf b).dev = dev ∧ (s.buf b).blockno = blockno) ∧ (s.buf b).refcnt ≠ 0) :
    s.bget p dev blockno = .error (.panic "bget: no buffers") := by
  obtain ⟨l, hr, -⟩ := hs.ring
  have hlen := length_le_of_ring hr
  have hmatch : l.find? (s.matching dev blockno) = none := by
    refine List.find?_eq_none.2 fun x _ => ?_
    cases x with
    | none => simp [State.matching]
    | some b => simpa [State.matching] using (h b).1
  have hunused : l.reverse.find? s.unused = none := by
    refine List.find?_eq_none.2 fun x _ => ?_
    cases x with
    | none => simp [State.unused]
    | some b => simpa [State.unused] using (h b).2
  unfold State.bget
  rw [hr.scan_next _ hlen, hr.scan_prev _ hlen, hmatch, hunused]

theorem next_move (hs : Shape s) (h : s.next e = .ok s') : Move s e s' := by
  unfold State.next at h
  split at h
  next p dev blockno =>
    obtain ⟨hf, h⟩ := call_ok h
    exact bget_move hs hf h
  next p b v =>
    obtain ⟨hf, h⟩ := call_ok h
    unfold State.modify at h
    split at h
    next hl => cases h; exact .modify hf hl
    next => cases h
  next p b =>
    obtain ⟨hf, h⟩ := call_ok h
    unfold State.bwrite at h
    split at h
    next hl => cases h; exact .bwrite hf hl
    next => cases h
  next p b =>
    obtain ⟨hf, h⟩ := call_ok h
    unfold State.brelse at h
    split at h
    next hl => cases h; exact .brelse hf hl
    next => cases h
  next p b =>
    obtain ⟨-, h⟩ := call_ok h
    cases h
    exact .bpin
  next p b =>
    obtain ⟨-, h⟩ := call_ok h
    cases h
    exact .bunpin
  next p =>
    unfold State.step at h
    split at h
    next b dev blockno hpc =>
      unfold State.acquiresleep at h
      split at h
      next hl => cases h; exact .acquire hpc hl
      next => cases h
    next b dev blockno hpc => cases h; exact .fill hpc
    next b hpc => cases h; exact .unref hpc
    next => cases h
    next => cases h

theorem Shape.keep (hs : Shape s) (hr : ∃ l : List Node, Ring s'.links none l ∧ ∀ b : Fin NBUF, some b ∈ l)
    (hid : ∀ b, (s'.buf b).dev = (s.buf b).dev ∧ (s'.buf b).blockno = (s.buf b).blockno) : Shape s' := by
  refine ⟨hr, fun b b' h0 hd hn => hs.ident b b' ?_ ?_ ?_⟩
  · rwa [← (hid b).1]
  · rwa [← (hid b).1, ← (hid b').1]
  · rwa [← (hid b).2, ← (hid b').2]

theorem State.buf_setBuf (b b' : Fin NBUF) (x : Buf β n) :
    (s.setBuf b x).buf b' = if b' = b then x else s.buf b' := Function.update_apply ..

theorem ident_setBuf {x : Buf β n} (hd : x.dev = (s.buf b).dev)
    (hn : x.blockno = (s.buf b).blockno) (b' : Fin NBUF) :
    ((s.setBuf b x).buf b').dev = (s.buf b').dev ∧ ((s.setBuf b x).buf b').blockno = (s.buf b').blockno := by
  rw [State.buf_setBuf]
  split
  next h => rw [h]; exact ⟨hd, hn⟩
  next => exact ⟨rfl, rfl⟩

theorem ring_unref (hs : Shape s) (b : Fin NBUF) :
    ∃ l : List Node, Ring ((s.links.unlink (some b)).insertAfter none (some b)) none l ∧ ∀ b : Fin NBUF, some b ∈ l := by
  obtain ⟨l, hr, hall⟩ := hs.ring
  obtain ⟨l1, l2, rfl⟩ := List.append_of_mem (hall b)
  refine ⟨_, hr.moveToFront, fun b' => ?_⟩
  have := hall b'
  simp only [List.mem_append, List.mem_cons] at this ⊢
  exact or_left_comm.1 this

theorem State.filled_eq (b : Fin NBUF) : (s.filled b).dev = (s.buf b).dev ∧
    (s.filled b).blockno = (s.buf b).blockno ∧ (s.filled b).lock = (s.buf b).lock ∧
    (s.filled b).refcnt = (s.buf b).refcnt ∧ (s.filled b).valid = true := by
  unfold State.filled
  split
  next h => exact ⟨rfl, rfl, rfl, rfl, h⟩
  next => exact ⟨rfl, rfl, rfl, rfl, rfl⟩

theorem Move.shape (hm : Move s e s') (hs : Shape s) (hdev : ∀ p dev blockno, e = .bread p dev blockno → dev ≠ 0) :
    Shape s' := by
  cases hm with
  | hit hf hd hn => exact hs.keep hs.ring (ident_setBuf rfl rfl)
  | @recycle p b dev blockno hf hno hr =>
    refine ⟨hs.ring, fun b1 b2 h0 hd hn => ?_⟩
    -- the recycled buffer takes the identity of a block that no other buffer has
    simp only [State.goto, State.setBuf, Function.update_apply] at h0 hd hn
    by_cases h1 : b1 = b <;> by_cases h2 : b2 = b <;> simp only [h1, h2, if_true, if_false] at h0 hd hn ⊢
    · exact absurd ⟨hd.symm, hn.symm⟩ (hno b2)
    · exact absurd ⟨hd, hn⟩ (hno b1)
    · exact hs.ident b1 b2 h0 hd hn
  | acquire hpc hl => exact hs.keep hs.ring (ident_setBuf rfl rfl)
  | @fill p b dev blockno hpc => exact hs.keep hs.ring (ident_setBuf (s.filled_eq b).1 (s.filled_eq b).2.1)
  | modify hf hl => exact hs.keep hs.ring (ident_setBuf rfl rfl)
  | bwrite hf hl => exact hs.keep hs.ring fun _ => ⟨rfl, rfl⟩
  | brelse hf hl => exact hs.keep hs.ring (ident_setBuf rfl rfl)
  | @unref p b hpc =>
    refine hs.keep ?_ (ident_setBuf rfl rfl)
    simp only [State.brelseUnref]
    split
    next => exact ring_unref hs b
    next => exact hs.ring
  | bpin => exact hs.keep hs.ring (ident_setBuf rfl rfl)
  | bunpin => exact hs.keep hs.ring (ident_setBuf rfl rfl)

end

theorem ring_foldl (bs : List (Fin NBUF)) : ∀ {k : Links Node} {l : List Node}, Ring k none l →
    (∀ b ∈ bs, some b ∉ l) → bs.Nodup →
    ∃ l', Ring (bs.foldl (fun k b => k.insertAfter none (some b)) k) none l' ∧
      ∀ b : Fin NBUF, some b ∈ l' ↔ b ∈ bs ∨ some b ∈ l := by
  induction bs with
  | nil => exact fun {k l} hr _ _ => ⟨l, hr, by simp⟩
  | cons b bs ih =>
    intro k l hr hnot hnd
    rw [List.nodup_cons] at hnd
    have hb : some b ∉ none :: l := by
      simpa using hnot b (List.mem_cons_self ..)
    obtain ⟨l', hr', hmem⟩ := ih (hr.insertAfter hb) (by
      intro b' hb'
      simp only [List.mem_cons, not_or, Option.some.injEq]
      exact ⟨fun h => hnd.1 (h ▸ hb'), hnot b' (List.mem_cons_of_mem _ hb')⟩) hnd.2
    refine ⟨l', hr', fun b' => ?_⟩
    rw [hmem, List.mem_cons, List.mem_cons, Option.some.injEq]
    exact ⟨fun h => by tauto, fun h => by tauto⟩

theorem shape_init (zero : β) (disk : BitVec 32 → β) : Shape (init n zero disk) := by
  refine ⟨?_, fun b b' h0 => absurd rfl h0⟩
  obtain ⟨l, hr, hmem⟩ := ring_foldl (List.finRange NBUF) (k := ⟨fun _ => none, fun _ => none⟩) (l := [])
    ⟨⟨rfl, rfl⟩, List.nodup_singleton _⟩ (by simp) (List.nodup_finRange _)
  exact ⟨l, hr, fun b => (hmem b).2 (.inl (List.mem_finRange b))⟩

end Xv6.Bio
