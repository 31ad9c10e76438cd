import Xv6.Log.Code

/-!
# Crash atomicity of the log

Up to the write of the header the disk has an empty log and the old contents. From then on the log holds the new contents, and
installing them can be broken off and started again any number of times until the header is cleared.
-/

namespace Xv6.Log

open List (length_cons take_length)
open Function (update update_of_ne update_self)
open Bytes (Mem)

variable {d d' cache f : Nat → Mem} {start size i k x t : Nat} {l : List Nat} {ws : Writes} {b : Mem}

theorem apply_append (d : Nat → Mem) (ws ws' : Writes) : apply d (ws ++ ws') = apply (apply d ws) ws' := by
  induction ws generalizing d with
  | nil => rfl
  | cons w ws ih => exact ih _

theorem apply_other (h : ∀ w ∈ ws, w.1 ≠ x) : apply d ws x = d x := by
  induction ws generalizing d with
  | nil => rfl
  | cons w ws ih =>
    rw [apply, ih fun w' hw => h w' (List.mem_cons_of_mem _ hw), update_of_ne (h w List.mem_cons_self).symm]

theorem putBlocks_below (hx : x < 4 + 4 * i) : putBlocks b i l x = b x := by
  induction l generalizing b i with
  | nil => rfl
  | cons y l ih => rw [putBlocks, ih (by omega), Bytes.storeLE_outside (.inl hx)]

theorem headN_writeHead (hl : l.length < 2 ^ 32) : headN (writeHead b l) = l.length := by
  unfold headN writeHead
  rw [Bytes.loadLE_congr fun x _ hx => putBlocks_below (by omega), Bytes.loadLE_storeLE]
  exact Nat.mod_eq_of_lt hl

theorem headBlock_putBlocks (ht : l[t]? = some x) (hx : x < 2 ^ 32) : headBlock (putBlocks b i l) (i + t) = x := by
  induction l generalizing b i t with
  | nil => cases ht
  | cons y l ih =>
    rw [putBlocks]
    cases t with
    | zero =>
      cases ht
      change Bytes.loadLE _ (4 + 4 * i) 4 = x
      rw [Bytes.loadLE_congr fun z _ hz => putBlocks_below (by omega), Bytes.loadLE_storeLE]
      exact Nat.mod_eq_of_lt hx
    | succ t =>
      rw [show i + (t + 1) = i + 1 + t by omega]
      exact ih ht

theorem readHead_writeHead (hl : l.length < 2 ^ 32) (hlt : ∀ x ∈ l, x < 2 ^ 32) : readHead (writeHead b l) = l := by
  unfold readHead
  rw [headN_writeHead hl]
  refine List.ext_getElem (by simp) fun t h1 h2 => ?_
  rw [List.getElem_map, List.getElem_range]
  have := headBlock_putBlocks (b := Bytes.storeLE b 0 4 l.length) (i := 0) (List.getElem?_eq_getElem h2) (hlt _ (List.getElem_mem h2))
  rw [Nat.zero_add] at this
  exact this

theorem readHead_eq_nil (h : headN b = 0) : readHead b = [] := by
  unfold readHead
  rw [h]
  rfl

theorem writeLog_length : (writeLog cache start i l).length = l.length := by
  induction l generalizing i with
  | nil => rfl
  | cons b l ih => rw [writeLog, length_cons, ih, length_cons]

theorem mem_writeLog {w : Nat × Mem} (h : w ∈ writeLog cache start i l) : start + i < w.1 ∧ w.1 ≤ start + i + l.length := by
  induction l generalizing i with
  | nil => cases h
  | cons b l ih =>
    rw [length_cons]
    rcases List.mem_cons.mp h with rfl | h
    · exact ⟨by simp, by simp⟩
    · have := ih h
      omega

theorem apply_writeLog {b : Nat} (ht : l[t]? = some b) : apply d (writeLog cache start i l) (start + i + t + 1) = cache b := by
  induction l generalizing d i t with
  | nil => cases ht
  | cons y l ih =>
    rw [writeLog, apply]
    cases t with
    | zero =>
      cases ht
      rw [Nat.add_zero, apply_other fun w hw => by have := mem_writeLog hw; omega, update_self]
    | succ t =>
      rw [show start + i + (t + 1) + 1 = start + (i + 1) + t + 1 by omega]
      exact ih ht

theorem installTrans_length : (installTrans d start i l).length = l.length := by
  induction l generalizing d i with
  | nil => rfl
  | cons b l ih => rw [installTrans, length_cons, ih, length_cons]

def Logged (d cache : Nat → Mem) (start i : Nat) (l : List Nat) : Prop := ∀ t b, l[t]? = some b → d (start + i + t + 1) = cache b

def Outside (start size b : Nat) : Prop := b < start ∨ start + size ≤ b

instance (start size b : Nat) : Decidable (Outside start size b) := inferInstanceAs (Decidable (_ ∨ _))

theorem apply_installTrans (hlog : Logged d cache start i l) (hout : ∀ b ∈ l, Outside start size b) (hsize : i + l.length + 1 ≤ size) :
    apply d ((installTrans d start i l).take k) = fun b => if b ∈ l.take k then cache b else d b := by
  induction l generalizing d i k with
  | nil =>
    rw [installTrans, List.take_nil, List.take_nil]
    rfl
  | cons b l ih =>
    rw [length_cons] at hsize
    cases k with
    | zero => rfl
    | succ k =>
      have hb : d (start + i + 1) = cache b := hlog 0 b rfl
      rw [installTrans, List.take_succ_cons, apply]
      change apply (update d b (d (start + i + 1))) _ = _
      rw [hb]
      have hlog' : Logged (update d b (cache b)) cache start (i + 1) l := by
        intro t y hy
        have hlt := (List.getElem?_eq_some_iff.mp hy).1
        have hne : start + (i + 1) + t + 1 ≠ b := by
          rcases hout b List.mem_cons_self with h | h <;> omega
        rw [update_of_ne hne, show start + (i + 1) + t + 1 = start + i + (t + 1) + 1 by omega]
        exact hlog (t + 1) y hy
      rw [ih hlog' (fun y hy => hout y (List.mem_cons_of_mem _ hy)) (by omega)]
      funext x
      rw [List.take_succ_cons]
      by_cases hx : x ∈ l.take k
      · rw [if_pos hx, if_pos (List.mem_cons_of_mem _ hx)]
      · rw [if_neg hx]
        by_cases hxb : x = b
        · subst hxb
          rw [update_self, if_pos List.mem_cons_self]
        · rw [update_of_ne hxb, if_neg fun h => (List.mem_cons.mp h).elim hxb hx]

/-- The log is empty, and the blocks outside the log area are those of `f`. -/
structure Quiet (start size : Nat) (f d : Nat → Mem) : Prop where
  head : headN (d start) = 0
  same : ∀ b, Outside start size b → d b = f b

/-- The transaction is committed: the log holds the new contents, and some of them are installed. -/
structure Committed (start size : Nat) (f cache : Nat → Mem) (l : List Nat) (d : Nat → Mem) : Prop where
  head : readHead (d start) = l
  logged : Logged d cache start 0 l
  home : ∀ b ∈ l, d b = f b ∨ d b = cache b
  same : ∀ b, b ∉ l → Outside start size b → d b = f b

def installed (f cache : Nat → Mem) (l : List Nat) (b : Nat) : Mem := if b ∈ l then cache b else f b

theorem start_inside (hsize : 0 < size) : ¬Outside start size start := by
  unfold Outside
  omega

theorem quiet_clear (hsize : 0 < size) (h : ∀ b, Outside start size b → d b = f b) :
    Quiet start size f (apply d (headWrite d start [])) := by
  refine ⟨?_, fun b hb => ?_⟩
  · change headN (update d start _ start) = 0
    rw [update_self]
    exact headN_writeHead (by decide)
  · change update d start _ b = f b
    rw [update_of_ne fun heq => start_inside hsize (heq ▸ hb)]
    exact h b hb

theorem Quiet.recover (hsize : 0 < size) (h : Quiet start size f d) :
    Quiet start size f (apply d ((recoverFromLog d start).take k)) := by
  have hrec : recoverFromLog d start = headWrite d start [] := by
    unfold recoverFromLog
    rw [readHead_eq_nil h.head]
    rfl
  rw [hrec]
  cases k with
  | zero => exact h
  | succ k =>
    rw [List.take_of_length_le (by simp [headWrite])]
    exact quiet_clear hsize h.same

section

variable (hout : ∀ b ∈ l, Outside start size b) (hsize : l.length + 1 ≤ size)
include hout hsize

section

variable (h : Committed start size f cache l d)
include h

theorem Committed.install :
    Committed start size f cache l (apply d ((installTrans d start 0 l).take k)) := by
  rw [apply_installTrans h.logged hout (by omega)]
  have hin : ∀ t, t < size → ¬start + t ∈ l.take k := by
    intro t ht hm
    rcases hout _ (List.mem_of_mem_take hm) with h | h <;> omega
  refine ⟨?_, fun t b hb => ?_, fun b hb => ?_, fun b hb ho => ?_⟩
  · have := hin 0 (by omega)
    rw [Nat.add_zero] at this
    rw [if_neg this]
    exact h.head
  · have hlt := (List.getElem?_eq_some_iff.mp hb).1
    have := hin (t + 1) (by omega)
    rw [show start + 0 + t + 1 = start + (t + 1) by omega, if_neg this]
    have := h.logged t b hb
    rwa [show start + 0 + t + 1 = start + (t + 1) by omega] at this
  · split
    · exact .inr rfl
    · exact h.home b hb
  · rw [if_neg fun hm => hb (List.mem_of_mem_take hm)]
    exact h.same b hb ho

theorem Committed.finish :
    Quiet start size (installed f cache l) (apply d (installTrans d start 0 l ++
      headWrite (apply d (installTrans d start 0 l)) start [])) := by
  rw [apply_append]
  refine quiet_clear (by omega) fun b hb => ?_
  have hall := apply_installTrans (k := l.length) h.logged hout (by omega)
  rw [List.take_of_length_le (le_of_eq installTrans_length), take_length] at hall
  rw [hall]
  unfold installed
  beta_reduce
  split
  · rfl
  · next hm => exact h.same b hm hb

theorem Committed.recover :
    Committed start size f cache l (apply d ((recoverFromLog d start).take k)) ∨
      Quiet start size (installed f cache l) (apply d ((recoverFromLog d start).take k)) := by
  unfold recoverFromLog
  simp only [h.head]
  by_cases hk : k ≤ l.length
  · left
    rw [List.take_append_of_le_length (by rw [installTrans_length]; exact hk)]
    exact h.install hout hsize
  · right
    rw [List.take_of_length_le (by rw [List.length_append, installTrans_length]; simp [headWrite]; omega)]
    exact h.finish hout hsize

theorem Committed.crashes {ks : List Nat} :
    Quiet start size (installed f cache l) (apply (crashes d start ks) (recoverFromLog (crashes d start ks) start)) := by
  have hrun : Committed start size f cache l (Log.crashes d start ks) ∨ Quiet start size (installed f cache l) (Log.crashes d start ks) := by
    have hor : Committed start size f cache l d ∨ Quiet start size (installed f cache l) d := Or.inl h
    clear h
    induction ks generalizing d with
    | nil => exact hor
    | cons k ks ih =>
      rw [Log.crashes]
      rcases hor with h | h
      · exact ih (h.recover hout hsize)
      · exact ih (.inr (h.recover (by omega)))
  rcases hrun with h | h
  · have := h.finish hout hsize
    unfold recoverFromLog
    simp only [h.head]
    exact this
  · have := h.recover (k := (recoverFromLog (Log.crashes d start ks) start).length) (by omega)
    rwa [take_length] at this

end

end

theorem Quiet.crashes (ks : List Nat) (hsize : 0 < size) (h : Quiet start size f d) :
    Quiet start size f (apply (Log.crashes d start ks) (recoverFromLog (Log.crashes d start ks) start)) := by
  induction ks generalizing d with
  | nil =>
    have := h.recover (k := (recoverFromLog d start).length) hsize
    rwa [take_length] at this
  | cons k ks ih =>
    rw [Log.crashes]
    exact ih (h.recover hsize)

theorem commit_states (cache : Nat → Mem) (k : Nat) (hlt : ∀ b ∈ l, b < 2 ^ 32)
    (hout : ∀ b ∈ l, Outside start size b) (hsize : l.length + 1 ≤ size)
    (hmax : size < 2 ^ 32) (h0 : headN (d start) = 0) (hl : l ≠ []) :
    (k ≤ l.length → Quiet start size d (apply d ((commit d cache start l).take k))) ∧
    (l.length < k → k < 2 * l.length + 2 → Committed start size d cache l (apply d ((commit d cache start l).take k))) ∧
    (2 * l.length + 2 ≤ k → Quiet start size (installed d cache l) (apply d ((commit d cache start l).take k))) := by
  have hpos : l.length > 0 := List.length_pos_iff.mpr hl
  set w1 := writeLog cache start 0 l with hw1
  set d1 := apply d w1 with hd1
  set d2 := apply d1 (headWrite d1 start l) with hd2
  have hcommit : commit d cache start l =
      w1 ++ (headWrite d1 start l ++ (installTrans d2 start 0 l ++ headWrite (apply d2 (installTrans d2 start 0 l)) start [])) := by
    unfold commit
    rw [if_pos hpos]
  have hlen : w1.length = l.length := writeLog_length
  have hlog : ∀ w ∈ w1, start < w.1 ∧ w.1 < start + size := by
    intro w hw
    have := mem_writeLog hw
    omega
  have hlogk : ∀ {j b}, (¬(start < b ∧ b < start + size)) → apply d (w1.take j) b = d b := fun {j b} hb =>
    apply_other fun w hw heq => hb (heq ▸ hlog w (List.mem_of_mem_take hw))
  rw [hcommit]
  refine ⟨fun hk => ?_, ?_⟩
  · -- the header is not written yet
    rw [List.take_append_of_le_length (by omega)]
    refine ⟨?_, fun b hb => hlogk ?_⟩
    · rw [hlogk (by omega)]
      exact h0
    · unfold Outside at hb
      omega
  · have hd1' : ∀ b, Outside start size b → d1 b = d b := by
      intro b hb
      have := hlogk (j := w1.length) (b := b) (by unfold Outside at hb; omega)
      rwa [take_length] at this
    have hC : Committed start size d cache l d2 := by
      have hother : ∀ b, b ≠ start → d2 b = d1 b := fun b hb => update_of_ne hb _ _
      have hne : ∀ b, Outside start size b → b ≠ start := fun b hb heq => start_inside (by omega) (heq ▸ hb)
      refine ⟨?_, fun t b hb => ?_, fun b hb => .inl ?_, fun b _ hb => ?_⟩
      · change readHead (update d1 start _ start) = l
        rw [update_self]
        exact readHead_writeHead (by omega) hlt
      · rw [hother _ (by omega)]
        exact apply_writeLog hb
      · rw [hother b (hne b (hout b hb)), hd1' b (hout b hb)]
      · rw [hother b (hne b hb), hd1' b hb]
    have hsplit : ∀ j, apply d ((w1 ++ (headWrite d1 start l ++ (installTrans d2 start 0 l ++
        headWrite (apply d2 (installTrans d2 start 0 l)) start []))).take (w1.length + (1 + j))) =
        apply d2 ((installTrans d2 start 0 l ++ headWrite (apply d2 (installTrans d2 start 0 l)) start []).take j) := by
      intro j
      rw [List.take_length_add_append, apply_append, Nat.add_comm 1 j]
      rfl
    refine ⟨fun hk hk' => ?_, fun hk => ?_⟩
    · obtain ⟨j, rfl⟩ : ∃ j, k = w1.length + (1 + j) := ⟨k - w1.length - 1, by omega⟩
      rw [hsplit, List.take_append_of_le_length (by rw [installTrans_length]; omega)]
      exact hC.install hout hsize
    · obtain ⟨j, rfl⟩ : ∃ j, k = w1.length + (1 + j) := ⟨k - w1.length - 1, by omega⟩
      rw [hsplit, List.take_of_length_le (by rw [List.length_append, installTrans_length]; simp [headWrite]; omega)]
      exact hC.finish hout hsize

theorem commit_length (hl : l ≠ []) : (commit d cache start l).length = 2 * l.length + 2 := by
  unfold commit
  rw [if_pos (List.length_pos_iff.mpr hl)]
  simp only [List.length_append, writeLog_length, installTrans_length, headWrite, List.length_singleton]
  omega

/-- A transaction is atomic: whatever writes of `commit` a crash lets through, and however often recovery crashes too, the completed
recovery leaves the home blocks with all the new contents if the header was written, and else with all the old ones; no other block
outside the log area has changed, and the log is empty. -/
theorem commit_atomic {ks : List Nat} (hlt : ∀ b ∈ l, b < 2 ^ 32) (hout : ∀ b ∈ l, Outside start size b) (hsize : l.length + 1 ≤ size)
    (hmax : size < 2 ^ 32) (h₀ : headN (d start) = 0) (hd' : d' = crashes (apply d ((commit d cache start l).take k)) start ks) :
    (∀ b, Outside start size b → apply d' (recoverFromLog d' start) b = if l.length < k ∧ b ∈ l then cache b else d b) ∧
      headN (apply d' (recoverFromLog d' start) start) = 0 := by
  subst hd'
  by_cases hl : l = []
  · subst hl
    have hQ : Quiet start size d d := ⟨h₀, fun _ _ => rfl⟩
    have hend := hQ.crashes ks (by omega)
    rw [show apply d ((commit d cache start []).take k) = d by unfold commit; simp; rfl]
    refine ⟨fun b hb => ?_, hend.head⟩
    rw [if_neg fun h => by cases h.2]
    exact hend.same b hb
  obtain ⟨hbefore, hmid, hafter⟩ := commit_states cache k hlt hout hsize hmax h₀ hl
  by_cases hk : l.length < k
  · have hend : Quiet start size (installed d cache l) (apply (crashes (apply d ((commit d cache start l).take k)) start ks)
        (recoverFromLog (crashes (apply d ((commit d cache start l).take k)) start ks) start)) := by
      by_cases hk' : k < 2 * l.length + 2
      · exact (hmid hk hk').crashes hout hsize
      · exact (hafter (by omega)).crashes ks (by omega)
    refine ⟨fun b hb => ?_, hend.head⟩
    rw [hend.same b hb]
    unfold installed
    by_cases hm : b ∈ l
    · rw [if_pos hm, if_pos ⟨hk, hm⟩]
    · rw [if_neg hm, if_neg fun h => hm h.2]
  · have hend := (hbefore (by omega)).crashes ks (by omega)
    refine ⟨fun b hb => ?_, hend.head⟩
    rw [if_neg fun h => hk h.1]
    exact hend.same b hb

def oneBlock : Nat → Mem := crashes (apply (fun _ _ => 0) ((commit (fun _ _ => 0) (fun _ _ => 1) 2 [50]).take 2)) 2 [1]

theorem commit_atomic_oneBlock : apply oneBlock (recoverFromLog oneBlock 2) 50 = fun _ => 1 := by
  have hd : oneBlock = crashes (apply (fun _ _ => 0) ((commit (fun _ _ => 0) (fun _ _ => 1) 2 [50]).take 2)) 2 [1] := rfl
  have h₀ : headN ((fun _ _ => 0 : Nat → Mem) 2) = 0 := by decide
  exact (commit_atomic (by decide) (show ∀ b ∈ [50], Outside 2 30 b by decide) (by decide) (by decide) h₀ hd).1 50 (by decide)

end Xv6.Log
