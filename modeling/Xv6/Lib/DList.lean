import Mathlib.Data.List.Nodup
import Mathlib.Logic.Function.Basic

/-!
# Circular doubly linked lists

A circular list is kept by two maps on its nodes, `next` and `prev`, and a head node that is not an element. `Ring k h l`
says that the list with the head `h` has the elements `l`, in the order of `next`.
-/

namespace DList

open List (mem_cons nodup_cons)
open Function (update update_of_ne update_self)

variable {P : Type}

structure Links (P : Type) where
  next : P → P
  prev : P → P

/-- From `a` the links lead through `l` to `b`, and back. -/
def Path (k : Links P) : P → List P → P → Prop
  | a, [], b => k.next a = b ∧ k.prev b = a
  | a, x :: l, b => (k.next a = x ∧ k.prev x = a) ∧ Path k x l b

/-- The list with the head `h` has the elements `l`. -/
structure Ring (k : Links P) (h : P) (l : List P) : Prop where
  path : Path k h l h
  nodup : (h :: l).Nodup

section

variable {k k' : Links P} {a b h x : P} {l m : List P}

theorem path_append : Path k a (l ++ x :: m) b ↔ Path k a l x ∧ Path k x m b := by
  induction l generalizing a with
  | nil => exact Iff.rfl
  | cons y l ih => exact ⟨fun hp => ⟨⟨hp.1, (ih.1 hp.2).1⟩, (ih.1 hp.2).2⟩, fun hp => ⟨hp.1.1, ih.2 ⟨hp.1.2, hp.2⟩⟩⟩

theorem Path.congr (hp : Path k a l b) (hn : ∀ x ∈ a :: l, k'.next x = k.next x)
    (hq : ∀ x ∈ l ++ [b], k'.prev x = k.prev x) : Path k' a l b := by
  induction l generalizing a with
  | nil => exact ⟨(hn a (by simp)).trans hp.1, (hq b (by simp)).trans hp.2⟩
  | cons y l ih =>
    refine ⟨⟨(hn a (by simp)).trans hp.1.1, (hq y (by simp)).trans hp.1.2⟩, ?_⟩
    exact ih hp.2 (fun x hx => hn x (List.mem_cons_of_mem _ hx)) (fun x hx => hq x (List.mem_cons_of_mem _ hx))

theorem Path.next_mem (hp : Path k a l b) : k.next a ∈ l ++ [b] := by
  cases l with
  | nil => simp [hp.1]
  | cons y l => simp [hp.1.1]

theorem Path.prev_mem (hp : Path k a l b) : k.prev b ∈ a :: l := by
  induction l generalizing a with
  | nil => simp [hp.2]
  | cons y l ih => exact List.mem_cons_of_mem _ (ih hp.2)

def Links.flip (k : Links P) : Links P := ⟨k.prev, k.next⟩

theorem Path.flip (hp : Path k a l b) : Path k.flip b l.reverse a := by
  induction l generalizing a with
  | nil => exact ⟨hp.2, hp.1⟩
  | cons y l ih =>
    rw [List.reverse_cons, path_append]
    exact ⟨ih hp.2, hp.1.2, hp.1.1⟩

theorem Ring.flip (hr : Ring k h l) : Ring k.flip h l.reverse := by
  refine ⟨hr.path.flip, ?_⟩
  have := hr.nodup
  rw [nodup_cons] at this ⊢
  exact ⟨by simpa using this.1, by simpa using this.2⟩

end

variable [DecidableEq P] {k : Links P} {a b c h x : P} {l m : List P}

/-- `b->next->prev = b->prev; b->prev->next = b->next`. -/
def Links.unlink (k : Links P) (b : P) : Links P where
  next := update k.next (k.prev b) (k.next b)
  prev := update k.prev (k.next b) (k.prev b)

/-- `b->next = h->next; b->prev = h; h->next->prev = b; h->next = b`. -/
def Links.insertAfter (k : Links P) (h b : P) : Links P where
  next := update (update k.next b (k.next h)) h b
  prev := update (update k.prev b h) (k.next h) b

theorem next_unlink : (k.unlink b).next = update k.next (k.prev b) (k.next b) := rfl

theorem prev_unlink : (k.unlink b).prev = update k.prev (k.next b) (k.prev b) := rfl

theorem next_insertAfter :
    (k.insertAfter h b).next = update (update k.next b (k.next h)) h b := rfl

theorem prev_insertAfter :
    (k.insertAfter h b).prev = update (update k.prev b h) (k.next h) b := rfl

theorem Path.unlink (h1 : Path k a l x) (h2 : Path k x m c) (hnd : (a :: (l ++ x :: m)).Nodup)
    (hc : c ∉ l ++ x :: m) : Path (k.unlink x) a (l ++ m) c := by
  induction l generalizing a with
  | nil =>
    simp only [List.nil_append, nodup_cons, mem_cons, not_or] at hnd hc
    cases m with
    | nil =>
      refine ⟨?_, ?_⟩
      · rw [next_unlink, h1.2, update_self, h2.1]
      · rw [prev_unlink, h2.1, update_self, h1.2]
    | cons y m =>
      simp only [mem_cons, not_or, nodup_cons] at hnd hc
      refine ⟨⟨?_, ?_⟩, h2.2.congr (fun z hz => ?_) (fun z hz => ?_)⟩
      · rw [next_unlink, h1.2, update_self, h2.1.1]
      · rw [prev_unlink, h2.1.1, update_self, h1.2]
      · refine update_of_ne ?_ _ _
        rw [h1.2]
        rintro rfl
        rcases mem_cons.1 hz with rfl | hz
        · exact hnd.1.2.1 rfl
        · exact hnd.1.2.2 hz
      · refine update_of_ne ?_ _ _
        rw [h2.1.1]
        rintro rfl
        rcases List.mem_append.1 hz with hz | hz
        · exact hnd.2.2.1 hz
        · exact hc.2.1 (List.mem_singleton.1 hz).symm
  | cons z l ih =>
    simp only [List.cons_append, nodup_cons, mem_cons, not_or] at hnd hc
    refine ⟨⟨?_, ?_⟩, ih h1.2 (nodup_cons.2 hnd.2) hc.2⟩
    · refine (update_of_ne ?_ _ _).trans h1.1.1
      intro heq
      have hmem := h1.2.prev_mem
      rw [← heq] at hmem
      rcases mem_cons.1 hmem with h' | h'
      · exact hnd.1.1 h'
      · exact hnd.1.2 (List.mem_append_left _ h')
    · refine (update_of_ne ?_ _ _).trans h1.1.2
      intro heq
      have hmem := h2.next_mem
      rw [← heq] at hmem
      rcases List.mem_append.1 hmem with h' | h'
      · exact hnd.2.1 (List.mem_append_right _ (List.mem_cons_of_mem _ h'))
      · exact hc.1 (List.mem_singleton.1 h').symm

theorem Ring.unlink (hr : Ring k h (l ++ x :: m)) : Ring (k.unlink x) h (l ++ m) := by
  have hp := path_append.1 hr.path
  have hnd := hr.nodup
  refine ⟨hp.1.unlink hp.2 hnd (nodup_cons.1 hnd).1, ?_⟩
  exact hnd.sublist (((List.sublist_cons_self x m).append_left l).cons_cons h)

theorem Ring.insertAfter (hr : Ring k h l) (hb : b ∉ h :: l) : Ring (k.insertAfter h b) h (b :: l) := by
  simp only [mem_cons, not_or] at hb
  have hnd := nodup_cons.1 hr.nodup
  refine ⟨?_, ?_⟩
  · have hbn : b ≠ k.next h := by
      intro heq
      have := hr.path.next_mem
      rw [← heq, List.mem_append, List.mem_singleton] at this
      exact this.elim hb.2 hb.1
    refine ⟨⟨update_self .., ?_⟩, ?_⟩
    · rw [prev_insertAfter, update_of_ne hbn, update_self]
    · cases l with
      | nil =>
        refine ⟨?_, ?_⟩
        · rw [next_insertAfter, update_of_ne hb.1, update_self, hr.path.1]
        · rw [prev_insertAfter, hr.path.1, update_self]
      | cons y l =>
        simp only [mem_cons, not_or, nodup_cons] at hb hnd
        refine ⟨⟨?_, ?_⟩, hr.path.2.congr (fun z hz => ?_) (fun z hz => ?_)⟩
        · rw [next_insertAfter, update_of_ne hb.1, update_self, hr.path.1.1]
        · rw [prev_insertAfter, hr.path.1.1, update_self]
        · have hzh : z ≠ h := by
            rintro rfl
            rcases mem_cons.1 hz with rfl | hz
            · exact hnd.1.1 rfl
            · exact hnd.1.2 hz
          have hzb : z ≠ b := by
            rintro rfl
            rcases mem_cons.1 hz with rfl | hz
            · exact hb.2.1 rfl
            · exact hb.2.2 hz
          rw [next_insertAfter, update_of_ne hzh, update_of_ne hzb]
        · have hzy : z ≠ y := by
            rintro rfl
            rcases List.mem_append.1 hz with hz | hz
            · exact hnd.2.1 hz
            · exact hnd.1.1 (List.mem_singleton.1 hz).symm
          have hzb : z ≠ b := by
            rintro rfl
            rcases List.mem_append.1 hz with hz | hz
            · exact hb.2.2 hz
            · exact hb.1 (List.mem_singleton.1 hz)
          rw [prev_insertAfter, hr.path.1.1, update_of_ne hzy, update_of_ne hzb]
  · rw [nodup_cons, nodup_cons, mem_cons, not_or]
    exact ⟨⟨Ne.symm hb.1, hnd.1⟩, hb.2, hnd.2⟩

theorem Ring.moveToFront (hr : Ring k h (l ++ x :: m)) : Ring ((k.unlink x).insertAfter h x) h (x :: (l ++ m)) := by
  have hnd := hr.nodup
  refine hr.unlink.insertAfter ?_
  rw [nodup_cons, List.nodup_middle, nodup_cons] at hnd
  rw [mem_cons, not_or]
  refine ⟨?_, hnd.2.1⟩
  rintro rfl
  exact hnd.1 (List.mem_append_right _ (List.mem_cons_self ..))

/-- The first node from `x` on, along `step`, that `p` accepts; `some none` if the walk reaches the head first, and `none` if
it has not ended after as many nodes as the fuel says. -/
def scan (step : P → P) (h : P) (p : P → Bool) : Nat → P → Option (Option P)
  | 0, _ => none
  | fuel + 1, x =>
    if x = h then some none
    else if p x then some (some x)
    else scan step h p fuel (step x)

theorem Path.scan_next (hp : Path k a l h) (hl : h ∉ l) (p : P → Bool) {fuel : Nat} (hf : l.length < fuel) :
    scan k.next h p fuel (k.next a) = some (l.find? p) := by
  induction l generalizing a fuel with
  | nil =>
    obtain ⟨fuel, rfl⟩ : ∃ f, fuel = f + 1 := ⟨fuel - 1, by simp at hf; omega⟩
    rw [hp.1, scan, if_pos rfl, List.find?_nil]
  | cons y l ih =>
    obtain ⟨fuel, rfl⟩ : ∃ f, fuel = f + 1 := ⟨fuel - 1, by simp at hf; omega⟩
    simp only [mem_cons, not_or] at hl
    rw [hp.1.1, scan, if_neg (Ne.symm hl.1), List.find?_cons]
    split
    next hpy => rw [hpy]
    next hpy =>
      rw [Bool.not_eq_true] at hpy
      rw [hpy]
      exact ih hp.2 hl.2 (by simp at hf; omega)

theorem Ring.scan_next (hr : Ring k h l) (p : P → Bool) {fuel : Nat} (hf : l.length < fuel) :
    scan k.next h p fuel (k.next h) = some (l.find? p) :=
  hr.path.scan_next (nodup_cons.1 hr.nodup).1 p hf

theorem Ring.scan_prev (hr : Ring k h l) (p : P → Bool) {fuel : Nat} (hf : l.length < fuel) :
    scan k.prev h p fuel (k.prev h) = some (l.reverse.find? p) :=
  hr.flip.scan_next p (by simpa using hf)

end DList
