import Xv6.Console.Code

/-!
# The console buffer is an editable queue

The ring between `r` and `e` holds the committed characters that are still to be read, up to `w`, and then the line that is being
edited; `consoleintr` does to it what `Line.input` does to the queue, and a turn of a reader takes characters off its front.
-/

namespace Xv6.Console

open Run

def Cons.ring (s : Cons) : RingBuf 32 UInt8 := ⟨s.buf, s.r, s.e⟩

/-- The buffer holds these committed and these editable characters. -/
structure Holds (s : Cons) (ready edit : List UInt8) : Prop where
  list : s.ring.toList INPUT_BUF_SIZE = ready ++ edit
  w : s.w = s.r + BitVec.ofNat 32 ready.length
  le : ready.length + edit.length ≤ INPUT_BUF_SIZE
  plain : newline ∉ edit

variable {s : Cons} {ready edit : List UInt8} {c : UInt8} {l : Line}

theorem bufSize_eq : INPUT_BUF_SIZE = 128 := rfl

theorem size_dvd : INPUT_BUF_SIZE ∣ 2 ^ 32 := by decide

theorem ofNat_inj {a b : Nat} (ha : a ≤ INPUT_BUF_SIZE) (hb : b ≤ INPUT_BUF_SIZE) {x : BitVec 32} :
    x + BitVec.ofNat 32 a = x + BitVec.ofNat 32 b ↔ a = b := by
  refine ⟨fun h => ?_, fun h => h ▸ rfl⟩
  have h' := congrArg BitVec.toNat ((BitVec.add_right_inj x).1 h)
  rw [BitVec.toNat_ofNat, BitVec.toNat_ofNat] at h'
  have := bufSize_eq
  omega

namespace Holds

section

variable (h : Holds s ready edit)
include h

theorem size : s.ring.size = ready.length + edit.length := by
  rw [← RingBuf.length_toList (c := INPUT_BUF_SIZE), h.list, List.length_append]

theorem e_eq : s.e = s.r + BitVec.ofNat 32 (ready.length + edit.length) := by
  rw [← h.size]
  exact RingBuf.tail_eq (r := s.ring)

theorem r_eq_w : s.r = s.w ↔ ready = [] := by
  have hle := h.le
  rw [h.w]
  have h0 : s.r = s.r + BitVec.ofNat 32 0 := by simp
  rw [h0, BitVec.add_assoc, ← BitVec.ofNat_add, ofNat_inj (Nat.zero_le _) (by omega)]
  simp [eq_comm]

theorem e_eq_w : s.e = s.w ↔ edit = [] := by
  have hle := h.le
  rw [h.w, h.e_eq, ofNat_inj hle (by omega), ← List.length_eq_zero_iff]
  omega

theorem order : (s.w - s.r).toNat = ready.length ∧ (s.e - s.r).toNat = ready.length + edit.length := by
  have hle := h.le
  have := bufSize_eq
  refine ⟨?_, h.size⟩
  rw [h.w, BitVec.add_comm, BitVec.add_sub_cancel, BitVec.toNat_ofNat]
  omega

theorem e_sub_w : (s.e - s.w).toNat = edit.length := by
  have hle := h.le
  have := bufSize_eq
  have heq : s.e - s.w = BitVec.ofNat 32 edit.length := by
    rw [h.e_eq, h.w, BitVec.ofNat_add, ← BitVec.add_assoc, BitVec.add_comm, BitVec.add_sub_cancel]
  rw [heq, BitVec.toNat_ofNat]
  omega

end

theorem front (h : Holds s (c :: ready) edit) :
    s.buf (s.r.toNat % INPUT_BUF_SIZE) = c ∧ Holds { s with r := s.r + 1 } ready edit := by
  have hlist := RingBuf.toList_take (r := s.ring) size_dvd (by rw [h.size]; simp)
  rw [h.list, List.cons_append, List.cons.injEq] at hlist
  have hle := h.le
  refine ⟨hlist.1.symm, hlist.2.symm, ?_, by simp at hle ⊢; omega, h.plain⟩
  show s.w = s.r + 1 + _
  rw [h.w, List.length_cons, Nat.add_comm, BitVec.ofNat_add, BitVec.add_assoc]
  rfl

theorem erase {edit : List UInt8} (h : Holds s ready (edit ++ [c])) :
    s.buf ((s.e - 1).toNat % INPUT_BUF_SIZE) = c ∧ Holds { s with e := s.e - 1 } ready edit := by
  have hlist := RingBuf.toList_unput (r := s.ring) size_dvd (by rw [h.size]; simp)
  rw [h.list, ← List.append_assoc] at hlist
  obtain ⟨h1, h2⟩ := List.append_inj' hlist rfl
  have hle := h.le
  refine ⟨(List.cons.inj h2).1.symm, h1.symm, h.w, by simp at hle ⊢; omega, fun hm => h.plain (by simp [hm])⟩

theorem killLoop (h : Holds s ready edit) : Holds (killLoop edit.length s) ready [] := by
  induction hn : edit.length generalizing s edit with
  | zero =>
    obtain rfl := List.length_eq_zero_iff.1 hn
    exact h
  | succ n ih =>
    obtain ⟨edit, c, rfl⟩ : ∃ edit' c, edit = edit' ++ [c] :=
      ⟨edit.dropLast, edit.getLast (by rintro rfl; cases hn), (List.dropLast_concat_getLast _).symm⟩
    obtain ⟨hc, h'⟩ := h.erase
    have hne : s.e ≠ s.w := fun heq => by simpa using h.e_eq_w.1 heq
    have hnl : c ≠ newline := fun heq => h.plain (by simp [heq])
    rw [Console.killLoop, if_pos ⟨hne, hc ▸ hnl⟩]
    exact ih h' (by simpa using hn)

theorem store (h : Holds s l.ready l.edit) (hlt : l.ready.length + l.edit.length < INPUT_BUF_SIZE) :
    Holds (s.store c) (l.add c).ready (l.add c).edit := by
  have hlist := RingBuf.toList_put (r := s.ring) (x := c) size_dvd (by decide) (by rw [h.size]; exact hlt)
  rw [h.list, List.append_assoc] at hlist
  have hsize : (s.e + 1 - s.r).toNat = l.ready.length + l.edit.length + 1 := by
    have hput := RingBuf.size_put (r := s.ring) (x := c) (c := INPUT_BUF_SIZE) (by rw [h.size, bufSize_eq] at *; omega)
    rw [h.size] at hput
    exact hput
  unfold Cons.store Line.add
  simp only [hsize]
  split
  · refine ⟨by rw [List.append_nil]; exact hlist, ?_, by simp; omega, by simp⟩
    show s.e + 1 = s.r + _
    rw [h.e_eq, BitVec.add_assoc, List.length_append, List.length_append, List.length_singleton, ← Nat.add_assoc, BitVec.ofNat_add _ 1]
    rfl
  · rename_i hno
    have hnl : ¬newline = c := fun heq => hno (.inl heq.symm)
    exact ⟨hlist, h.w, by simp; omega, by simp [h.plain, hnl]⟩

theorem consoleintr (h : Holds s l.ready l.edit) : Holds (consoleintr s c) (l.input c).ready (l.input c).edit := by
  unfold Console.consoleintr Line.input
  rw [h.order.2]
  split
  · exact h
  split
  · rw [h.e_sub_w]
    exact h.killLoop
  split
  · split
    · rename_i hne
      have hedit : l.edit ≠ [] := fun heq => hne (h.e_eq_w.2 heq)
      have hsplit := (List.dropLast_concat_getLast hedit).symm
      rw [hsplit] at h
      exact h.erase.2
    · rename_i heq
      have hnil := h.e_eq_w.1 (Decidable.not_not.1 heq)
      rw [hnil] at h
      rw [hnil, List.dropLast_nil]
      exact h
  split
  · rename_i hguard
    exact h.store hguard.2
  · exact h

end Holds

/-- What a reader that wants `n` of `target` bytes does with the committed characters. -/
structure TurnSpec (target n : Nat) (ready edit : List UInt8) (t : Turn) : Prop where
  split : ∃ rest, ready = t.taken ++ rest ∧ Holds t.cons rest edit
  count : t.n + t.copied.length = n
  data : ctrlD ∉ t.copied
  lines : newline ∉ t.copied.dropLast
  live : t.stage ≠ .killed
  sleeping : t.stage = .sleeping → 0 < t.n ∧ newline ∉ t.copied ∧ t.eof = false
  eof : t.eof = true → t.copied = [] ∧ n = target ∧ 0 < n
  zero : t.stage = .returned → t.eof = false → n = 0 ∨ t.copied ≠ [] ∨ n < target

theorem TurnSpec.cons {target n : Nat} {t : Turn} (hn : n < target) (hc : c ≠ ctrlD) (hnl : c ≠ newline)
    (ht : TurnSpec target n ready edit t) :
    TurnSpec target (n + 1) (c :: ready) edit { t with copied := c :: t.copied } := by
  have heof : t.eof = false := by
    by_contra h
    have := (ht.eof (by simpa using h)).2.1
    omega
  have hcount := ht.count
  obtain ⟨rest, hrest, hholds⟩ := ht.split
  refine ⟨⟨rest, by rw [hrest]; rfl, hholds⟩, by simp; omega, ?_, ?_, ht.live, fun hs => ?_, ?_, ?_⟩
  · simp [Ne.symm hc, ht.data]
  · have := ht.lines
    cases hcop : t.copied with
    | nil => simp
    | cons d l =>
      rw [hcop] at this
      simpa [Ne.symm hnl] using this
  · obtain ⟨h1, h2, h3⟩ := ht.sleeping hs
    exact ⟨h1, by simp [Ne.symm hnl, h2], h3⟩
  · intro h
    rw [show t.eof = true from h] at heof
    cases heof
  · exact fun _ _ => .inr (.inl (by simp))

theorem readLoop_spec (target : Nat) : ∀ {n : Nat} {s : Cons} {ready edit : List UInt8}, n ≤ target → Holds s ready edit →
    TurnSpec target n ready edit (readLoop target n s) := by
  intro n
  induction n with
  | zero =>
    intro s ready edit _ h
    exact ⟨⟨ready, rfl, h⟩, rfl, by simp [readLoop], by simp [readLoop], by simp [readLoop], by simp [readLoop], by simp [readLoop],
      fun _ _ => .inl rfl⟩
  | succ n ih =>
    intro s ready edit hn h
    rw [readLoop]
    split
    · exact ⟨⟨ready, rfl, h⟩, rfl, by simp, by simp, by simp, by simp, by simp, by simp⟩
    · rename_i hne
      cases ready with
      | nil => exact absurd (h.r_eq_w.2 rfl) hne
      | cons c ready =>
        obtain ⟨hfront, hrest⟩ := h.front
        simp only [hfront]
        split
        · rename_i hc
          split
          · rename_i hlt
            have hback : Holds { s with r := s.r + 1 - 1 } (c :: ready) edit := by
              rw [BitVec.add_sub_cancel]
              exact h
            exact ⟨⟨c :: ready, rfl, hback⟩, rfl, by simp, by simp, by simp, by simp, by simp, fun _ _ => .inr (.inr hlt)⟩
          · rename_i hlt
            exact ⟨⟨ready, by rw [hc]; rfl, hrest⟩, rfl, by simp, by simp, by simp, by simp, fun _ => ⟨rfl, by omega, by omega⟩, by simp⟩
        · rename_i hc
          split
          · rename_i hnl
            exact ⟨⟨ready, rfl, hrest⟩, rfl, by simpa using Ne.symm hc, by simp, by simp, by simp, by simp, by simp⟩
          · rename_i hnl
            exact TurnSpec.cons (by omega) hc hnl (ih (by omega) hrest)

end Xv6.Console
