import Mathlib.Order.Basic
import Xv6.Lib.Chain
import Xv6.User.Malloc

/-!
# The heap of `umalloc.c`

The free list is a ring through the static header, whose blocks lie in the order of their addresses with a gap after each; the
free blocks and the live ones together are, cell by cell, the memory that has been obtained.
-/

namespace Xv6.Malloc

open List (count_append headD_cons length_cons mem_append_left mem_append_right mem_cons mem_cons_of_mem mem_cons_self)
open Function (update_of_ne update_self)
open Chain

/-- The cells of 16 bytes obtained from the kernel: above the static header, apart from each other, and fewer than `2 ^ 32`. -/
structure Sane (base : Nat) (R : List Nat) : Prop where
  above : ∀ x ∈ R, base + 16 ≤ x
  apart : R.Pairwise (Apart 16)
  few : R.length < 2 ^ 32

/-- The free list `C` and the live blocks `live`, whose headers have the sizes, are the memory `R`. -/
structure Inv (base : Nat) (h : Heap) (C live R : List Nat) : Prop where
  head : C.head? = some base
  ring : Links h.ptr C base
  freep : h.freep ∈ C
  sorted : C.Pairwise fun a b => a + 16 * h.size a < b
  base_size : h.size base = 0
  pos : ∀ a ∈ C, a ≠ base → 0 < h.size a
  pos_live : ∀ a ∈ live, 0 < h.size a
  tiles : (blocks 16 h.size (C ++ live)).Perm R

variable {base bp p q n k nu fuel : Nat} {h h' : Heap} {A B C C' D live live' R : List Nat} {a b : Nat}

section

variable (hI : Inv base h C live R)
include hI

theorem Inv.cons : ∃ L, C = base :: L := by
  have hhead := hI.head
  cases C with
  | nil => cases hhead
  | cons c L => exact ⟨L, by rw [Option.some.inj hhead]⟩

theorem Inv.pairwise (hS : Sane base R) :
    (C ++ live).Pairwise fun a b => ∀ x ∈ cells 16 a (h.size a), ∀ y ∈ cells 16 b (h.size b), Apart 16 x y :=
  (List.pairwise_flatMap.1 ((hI.tiles.pairwise_iff fun h => h.symm).2 hS.apart)).2

theorem Inv.cells_apart (hS : Sane base R) (ha : a ∈ C ++ live) (hb : b ∈ C ++ live)
    (hab : a ≠ b) : ∀ x ∈ cells 16 a (h.size a), ∀ y ∈ cells 16 b (h.size b), Apart 16 x y := by
  have : Std.Symm fun a b => ∀ x ∈ cells 16 a (h.size a), ∀ y ∈ cells 16 b (h.size b), Apart 16 x y :=
    ⟨fun _ _ hxy u hu v hv => (hxy v hv u hu).symm⟩
  exact (hI.pairwise hS).forall ha hb hab

theorem Inv.lt (hS : Sane base R) (ha : a ∈ live) : base < a := by
  have hcell : a ∈ cells 16 a (h.size a) := mem_cells.2 ⟨0, hI.pos_live a ha, rfl⟩
  have := hS.above a (hI.tiles.subset (cells_subset_blocks (mem_append_right C ha) hcell))
  omega

theorem Inv.le (ha : a ∈ C) : base ≤ a := by
  obtain ⟨L, rfl⟩ := hI.cons
  rcases mem_cons.1 ha with rfl | ha
  · exact Nat.le_refl _
  · have := (List.pairwise_cons.1 hI.sorted).1 a ha
    omega

theorem Inv.pos_of_ne (ha : a ∈ C ++ live) (hb : a ≠ base) : 0 < h.size a := by
  rcases List.mem_append.1 ha with ha | ha
  · exact hI.pos a ha hb
  · exact hI.pos_live a ha

theorem Inv.eq_of_mem_cells (hS : Sane base R) (ha : a ∈ C ++ live) (hb : a ≠ base)
    (hb' : b ∈ C ++ live) (hx : a ∈ cells 16 b (h.size b)) : a = b := by
  by_contra hne
  have := hI.cells_apart hS ha hb' hne a (mem_cells.2 ⟨0, hI.pos_of_ne ha hb, rfl⟩) a hx
  unfold Apart at this
  omega

theorem Inv.notMem_of_live (hS : Sane base R) (ha : a ∈ live) : a ∉ C := by
  intro hm
  have hcell : a ∈ cells 16 a (h.size a) := mem_cells.2 ⟨0, hI.pos_live a ha, rfl⟩
  have := (List.pairwise_append.1 (hI.pairwise hS)).2.2 a hm a ha a hcell a hcell
  unfold Apart at this
  omega

end

theorem Inv.apart (hI : Inv base h C (bp :: live) R) (hS : Sane base R) (ha : a ∈ C) :
    a + 16 * h.size a ≤ bp ∨ bp + 16 * h.size bp ≤ a := by
  by_cases hb : a = base
  · have := hI.lt hS (mem_cons_self ..)
    rw [hb, hI.base_size]
    omega
  · refine blocks_apart (by decide) (hI.pos a ha hb) (hI.pos_live bp (mem_cons_self ..)) ?_
    exact (List.pairwise_append.1 (hI.pairwise hS)).2.2 a ha bp (mem_cons_self ..)

theorem Inv.ptr_eq (hI : Inv base h (A ++ p :: B) live R) : h.ptr p = B.headD base :=
  ((links_append.1 hI.ring).2).1

def Stops (h : Heap) (bp p : Nat) : Prop := (bp > p ∧ bp < h.ptr p) ∨ (p ≥ h.ptr p ∧ (bp > p ∨ bp < h.ptr p))

instance : Decidable (Stops h bp p) := inferInstanceAs (Decidable (_ ∨ _))

theorem freeLoop_succ : freeLoop h bp (fuel + 1) p = if Stops h bp p then some p else freeLoop h bp fuel (h.ptr p) := by
  rw [freeLoop]
  split
  next h1 => exact (if_pos (.inl h1)).symm
  next h1 =>
    split
    next h2 => exact (if_pos (.inr h2)).symm
    next h2 => exact (if_neg (not_or.2 ⟨h1, h2⟩)).symm

theorem freeLoop_stops (hl : Links h.ptr (a :: D) b) (hex : ∃ x ∈ a :: D, Stops h bp x) :
    ∃ x ∈ a :: D, Stops h bp x ∧ ∀ fuel, freeLoop h bp (fuel + D.length + 1) a = some x := by
  induction D generalizing a with
  | nil =>
    obtain ⟨x, hx, hs⟩ := hex
    obtain rfl := List.mem_singleton.1 hx
    exact ⟨x, hx, hs, fun fuel => by rw [freeLoop_succ, if_pos hs]⟩
  | cons c D ih =>
    by_cases hs : Stops h bp a
    · exact ⟨a, mem_cons_self .., hs, fun fuel => by rw [freeLoop_succ, if_pos hs]⟩
    · obtain ⟨x, hx, hstop⟩ := hex
      have hx : x ∈ c :: D := (mem_cons.1 hx).resolve_left fun he => hs (he ▸ hstop)
      obtain ⟨y, hy, hy', hrun⟩ := ih hl.2 ⟨x, hx, hstop⟩
      refine ⟨y, mem_cons_of_mem a hy, hy', fun fuel => ?_⟩
      rw [freeLoop_succ, if_neg hs, show h.ptr a = c from hl.1, length_cons, ← Nat.add_assoc]
      exact hrun fuel

theorem exists_before (hs : C.Pairwise (· < ·)) (hC : ∃ c, C.head? = some c ∧ c < bp) (hbp : bp ∉ C) :
    ∃ A p B, C = A ++ p :: B ∧ p < bp ∧ ∀ b ∈ B, bp < b := by
  induction C with
  | nil =>
    obtain ⟨c, hc, -⟩ := hC
    cases hc
  | cons c C ih =>
    obtain ⟨_, hc, hlt⟩ := hC
    obtain rfl := Option.some.inj hc
    cases C with
    | nil => exact ⟨[], c, [], rfl, hlt, fun b hb => by cases hb⟩
    | cons d C =>
      by_cases hd : d < bp
      · obtain ⟨A, p, B, heq, hp, hB⟩ := ih (List.pairwise_cons.1 hs).2 ⟨d, rfl, hd⟩ fun hm => hbp (mem_cons_of_mem c hm)
        exact ⟨c :: A, p, B, by rw [heq, List.cons_append], hp, hB⟩
      · refine ⟨[], c, d :: C, rfl, hlt, fun b hb => ?_⟩
        have hne : bp ≠ d := fun he => hbp (by simp [he])
        rcases mem_cons.1 hb with rfl | hb
        · omega
        · have := (List.pairwise_cons.1 (List.pairwise_cons.1 hs).2).1 b hb
          omega

theorem freeLoop_spec (hI : Inv base h C (bp :: live) R) (hS : Sane base R) :
    ∃ A p B, C = A ++ p :: B ∧ p < bp ∧ (∀ b ∈ B, bp < b) ∧ ∀ fuel, C.length ≤ fuel → freeLoop h bp fuel h.freep = some p := by
  have hlt := hI.lt hS (mem_cons_self ..)
  have hbp : bp ∉ C := by
    intro hm
    have h1 := hI.apart hS hm
    have h2 := hI.pos_live bp (mem_cons_self ..)
    omega
  have hs : C.Pairwise (· < ·) := hI.sorted.imp fun {a b} hab => by omega
  obtain ⟨L, rfl⟩ := hI.cons
  obtain ⟨D, hD, hperm⟩ := hI.ring.rotate hI.freep
  obtain ⟨A0, p0, B0, heq0, hp0, hB0⟩ := exists_before hs ⟨base, rfl, hlt⟩ hbp
  have hstop : Stops h bp p0 := by
    have hptr := (heq0 ▸ hI).ptr_eq
    have hle := hI.le (show p0 ∈ base :: L by rw [heq0]; simp)
    unfold Stops
    cases B0 with
    | nil =>
      rw [List.headD_nil] at hptr
      omega
    | cons q B0 =>
      rw [headD_cons] at hptr
      have := hB0 q (mem_cons_self ..)
      omega
  have hmem0 : p0 ∈ h.freep :: D := hperm.mem_iff.2 (by rw [heq0]; simp)
  obtain ⟨p, hp, hstops, hrun⟩ := freeLoop_stops hD ⟨p0, hmem0, hstop⟩
  obtain ⟨A, B, heq⟩ := List.append_of_mem (hperm.mem_iff.1 hp)
  have hptr := (heq ▸ hI).ptr_eq
  rw [heq] at hs
  have hpB := List.pairwise_cons.1 (List.pairwise_append.1 hs).2.1
  refine ⟨A, p, B, heq, ?_⟩
  have hlen : ∀ fuel, (base :: L).length ≤ fuel → freeLoop h bp fuel h.freep = some p := by
    intro fuel hf
    have hlen := hperm.length_eq
    simp only [length_cons] at hlen hf
    obtain ⟨f, rfl⟩ : ∃ f, fuel = f + D.length + 1 := ⟨fuel - (D.length + 1), by omega⟩
    exact hrun f
  unfold Stops at hstops
  cases B with
  | nil =>
    rw [List.headD_nil] at hptr
    exact ⟨by omega, fun b hb => (by cases hb), hlen⟩
  | cons q B =>
    rw [headD_cons] at hptr
    have hpq := hpB.1 q (mem_cons_self ..)
    refine ⟨by omega, fun b hb => ?_, hlen⟩
    rcases mem_cons.1 hb with rfl | hb
    · omega
    · have := (List.pairwise_cons.1 hpB.2).1 b hb
      omega

/-! ### `free` -/

/-- What joining `bp` with the block after it leaves: the blocks `B'` after it, and what they cover. -/
structure Joined (base bp : Nat) (h h₁ : Heap) (B B' : List Nat) : Prop where
  ptr : ∀ x, x ≠ bp → h₁.ptr x = h.ptr x
  size : ∀ x, x ≠ bp → h₁.size x = h.size x
  next : h₁.ptr bp = B'.headD base
  sub : B'.Sublist B
  links : Links h.ptr B' base
  grow : h.size bp ≤ h₁.size bp
  gap : ∀ b ∈ B', bp + 16 * h₁.size bp < b
  tiles : (cells 16 bp (h₁.size bp) ++ blocks 16 h.size B').Perm (cells 16 bp (h.size bp) ++ blocks 16 h.size B)

theorem joinNext_spec (hI : Inv base h (A ++ p :: B) (bp :: live) R) (hS : Sane base R) (hB : ∀ b ∈ B, bp < b) :
    ∃ B', Joined base bp h (joinNext h p bp) B B' := by
  have hlt := hI.lt hS (mem_cons_self ..)
  have hptr := hI.ptr_eq
  have hlinks := ((links_append.1 hI.ring).2).2
  have hsorted := (List.pairwise_cons.1 (List.pairwise_append.1 hI.sorted).2.1).2
  unfold joinNext
  split
  next heq =>
    -- the block after `p` is no longer the static header, which lies below `bp`
    cases B with
    | nil =>
      rw [List.headD_nil] at hptr
      omega
    | cons q B =>
      rw [headD_cons] at hptr
      have hsum : (h.size bp + h.size q) % 2 ^ 32 = h.size bp + h.size q := by
        refine Nat.mod_eq_of_lt (Nat.lt_of_le_of_lt ?_ hS.few)
        rw [← hI.tiles.length_eq]
        simp only [blocks_append, blocks_cons, List.length_append, length_cells]
        omega
      refine ⟨B, fun x hx => ?_, fun x hx => ?_, ?_, List.sublist_cons_self q B, hlinks.2, ?_, fun b hb => ?_, ?_⟩
      · exact update_of_ne hx ..
      · exact update_of_ne hx ..
      · rw [hptr, show h.ptr q = B.headD base from hlinks.1]
        exact update_self ..
      all_goals
        simp only [Heap.setPtr, Heap.setSize, update_self, hptr, hsum]
      · omega
      · have := (List.pairwise_cons.1 hsorted).1 b hb
        omega
      · rw [cells_add, heq, hptr, blocks_cons, List.append_assoc]
  next hne =>
    refine ⟨B, fun x hx => ?_, fun x _ => rfl, ?_, List.Sublist.refl B, hlinks, Nat.le_refl _, fun b hb => ?_, List.Perm.refl _⟩
    · exact update_of_ne hx ..
    · rw [← hptr]
      exact update_self ..
    · have hle := (hI.apart hS (show b ∈ A ++ p :: B by simp [hb]))
      have hbb := hB b hb
      cases B with
      | nil => cases hb
      | cons q B =>
        rw [headD_cons] at hptr
        rw [hptr] at hne
        have hq := hI.apart hS (show q ∈ A ++ p :: q :: B by simp)
        have hbq := hB q (mem_cons_self ..)
        show bp + 16 * h.size bp < b
        rcases mem_cons.1 hb with rfl | hb
        · omega
        · have := (List.pairwise_cons.1 hsorted).1 b hb
          omega

theorem Inv.replace {M : List Nat} (hI : Inv base h (A ++ p :: B) live R) (hA : ∀ a ∈ A, h'.ptr a = h.ptr a ∧ h'.size a = h.size a)
    (hring : Links h'.ptr (p :: M) base) (hfreep : h'.freep = p) (hsorted : (p :: M).Pairwise fun a b => a + 16 * h'.size a < b)
    (hbase : h'.size base = 0) (hpos : ∀ a ∈ p :: M, a ≠ base → 0 < h'.size a) (hlive : ∀ a ∈ live', 0 < h'.size a)
    (htiles : (blocks 16 h'.size (p :: M ++ live')).Perm (blocks 16 h.size (p :: B ++ live))) :
    Inv base h' (A ++ p :: M) live' R := by
  obtain ⟨hsA, -, hsAB⟩ := List.pairwise_append.1 hI.sorted
  refine ⟨?_, ?_, ?_, ?_, hbase, fun a ha hb => ?_, hlive, ?_⟩
  · have := hI.head
    cases A <;> exact this
  · exact links_append.2 ⟨(links_append.1 hI.ring).1.congr fun a ha => (hA a ha).1, hring⟩
  · rw [hfreep]
    simp
  · refine List.pairwise_append.2 ⟨hsA.imp_of_mem fun {a b} ha _ hab => ?_, hsorted, fun a ha b hb => ?_⟩
    · rw [(hA a ha).2]
      exact hab
    · rw [(hA a ha).2]
      have hap := hsAB a ha p (mem_cons_self ..)
      rcases mem_cons.1 hb with rfl | hb
      · exact hap
      · have := (List.pairwise_cons.1 hsorted).1 b hb
        omega
  · rcases List.mem_append.1 ha with ha | ha
    · rw [(hA a ha).2]
      exact hI.pos a (mem_append_left _ ha) hb
    · exact hpos a ha hb
  · refine List.Perm.trans ?_ hI.tiles
    have hsplit : ∀ size l, blocks 16 size (A ++ l) = blocks 16 size A ++ blocks 16 size l := fun _ _ => blocks_append
    rw [List.append_assoc, List.append_assoc, hsplit, hsplit, blocks_congr fun a ha => (hA a ha).2]
    exact htiles.append_left _

/-- What stays when the block `bp` has been given back: the other live blocks, and all free blocks but the one that `bp` is now
a part of. -/
structure Freed (base bp : Nat) (h h' : Heap) (C C' live R : List Nat) : Prop where
  inv : Inv base h' C' live R
  keep : ∀ a ∈ live, h'.size a = h.size a
  room : ∃ q ∈ C', h.size bp ≤ h'.size q ∧ bp + 16 * h.size bp ≤ q + 16 * h'.size q ∧
    ∀ a ∈ C', a ≠ q → a ∈ C ∧ h'.size a = h.size a

theorem Inv.ne_live (hI : Inv base h C (bp :: live) R) (hS : Sane base R) (ha : a ∈ live) : a ≠ bp ∧ a ∉ C := by
  refine ⟨?_, hI.notMem_of_live hS (mem_cons_of_mem bp ha)⟩
  rintro rfl
  have hcell : a ∈ cells 16 a (h.size a) := mem_cells.2 ⟨0, hI.pos_live a (mem_cons_self ..), rfl⟩
  have := (List.pairwise_cons.1 (List.pairwise_append.1 (hI.pairwise hS)).2.1).1 a ha a hcell a hcell
  unfold Apart at this
  omega

section JoinPrev

variable {h₁ : Heap} {B' : List Nat}

theorem pos_after (hI : Inv base h (A ++ p :: B) (bp :: live) R) (hJ : Joined base bp h h₁ B B') (ha : a ∈ B')
    (hb : a ≠ base) : 0 < h.size a :=
  hI.pos a (mem_append_right A (mem_cons_of_mem p (hJ.sub.subset ha))) hb

theorem sorted_after (hI : Inv base h (A ++ p :: B) (bp :: live) R) (hJ : Joined base bp h h₁ B B')
    (hsize : ∀ b ∈ B', h'.size b = h.size b) : B'.Pairwise fun a b => a + 16 * h'.size a < b := by
  have hs := (List.pairwise_cons.1 (List.pairwise_append.1 hI.sorted).2.1).2
  refine (hs.sublist hJ.sub).imp_of_mem fun {a b} ha _ hab => ?_
  rw [hsize a ha]
  exact hab

theorem ne_around (hI : Inv base h (A ++ p :: B) live R) (hB : ∀ b ∈ B, bp < b) (hJ : Joined base bp h h₁ B B')
    (hp : p < bp) : (∀ a ∈ A, a ≠ p ∧ a ≠ bp) ∧ ∀ b ∈ B', b ≠ p ∧ b ≠ bp := by
  refine ⟨fun a ha => ?_, fun b hb => ?_⟩
  · have := (List.pairwise_append.1 hI.sorted).2.2 a ha p (mem_cons_self ..)
    omega
  · have := hB b (hJ.sub.subset hb)
    omega

section

variable (hI : Inv base h (A ++ p :: B) (bp :: live) R)
include hI

theorem freed_joined (hS : Sane base R) (hB : ∀ b ∈ B, bp < b)
    (hJ : Joined base bp h h₁ B B') (heq : p + 16 * h.size p = bp) (hp : p < bp)
    (hptr : ∀ x, x ≠ p → x ≠ bp → h'.ptr x = h.ptr x) (hptrp : h'.ptr p = h₁.ptr bp)
    (hsize : ∀ x, x ≠ p → x ≠ bp → h'.size x = h.size x) (hsizep : h'.size p = h.size p + h₁.size bp) (hfreep : h'.freep = p) :
    Freed base bp h h' (A ++ p :: B) (A ++ p :: B') live R := by
  have hlt := hI.lt hS (mem_cons_self ..)
  have hpb : p ≠ base := fun he => by
    rw [he, hI.base_size] at heq
    omega
  obtain ⟨hneA, hneB⟩ := ne_around hI hB hJ hp
  have hneL : ∀ a ∈ live, a ≠ p ∧ a ≠ bp := fun a ha => by
    obtain ⟨hne, hout⟩ := hI.ne_live hS ha
    exact ⟨fun he => hout (by simp [he]), hne⟩
  have hkeep : ∀ a ∈ live, h'.size a = h.size a := fun a ha => hsize a (hneL a ha).1 (hneL a ha).2
  have hkeepB : ∀ b ∈ B', h'.size b = h.size b := fun b hb => hsize b (hneB b hb).1 (hneB b hb).2
  have hkeepA : ∀ a ∈ A, h'.size a = h.size a := fun a ha => hsize a (hneA a ha).1 (hneA a ha).2
  have hgrow := hJ.grow
  refine ⟨hI.replace (fun a ha => ⟨hptr a (hneA a ha).1 (hneA a ha).2, hkeepA a ha⟩) ?_ hfreep ?_ ?_ ?_ ?_ ?_, hkeep, p, by simp,
    by omega, by omega, fun a ha hap => ?_⟩
  · exact ⟨hptrp.trans hJ.next, hJ.links.congr fun x hx => hptr x (hneB x hx).1 (hneB x hx).2⟩
  · refine List.pairwise_cons.2 ⟨fun b hb => ?_, sorted_after hI hJ hkeepB⟩
    rw [hsizep]
    have := hJ.gap b hb
    omega
  · rw [hsize base (Ne.symm hpb) (by omega)]
    exact hI.base_size
  · intro a ha hb
    rcases mem_cons.1 ha with rfl | ha
    · rw [hsizep]
      omega
    · rw [hkeepB a ha]
      exact pos_after hI hJ ha hb
  · intro a ha
    rw [hkeep a ha]
    exact hI.pos_live a (mem_cons_of_mem bp ha)
  · refine List.perm_iff_count.2 fun x => ?_
    have hjoin := List.perm_iff_count.1 hJ.tiles x
    simp only [blocks_append, blocks_cons, blocks_congr hkeep, blocks_congr hkeepB, hsizep, cells_add, heq, count_append] at hjoin ⊢
    omega
  · rcases List.mem_append.1 ha with ha | ha
    · exact ⟨mem_append_left _ ha, hkeepA a ha⟩
    · have ha := (mem_cons.1 ha).resolve_left hap
      exact ⟨by simp [hJ.sub.subset ha], hkeepB a ha⟩

theorem freed_linked (hS : Sane base R) (hB : ∀ b ∈ B, bp < b)
    (hJ : Joined base bp h h₁ B B') (hgap : p + 16 * h.size p < bp)
    (hptr : ∀ x, x ≠ p → x ≠ bp → h'.ptr x = h.ptr x) (hptrp : h'.ptr p = bp) (hptrb : h'.ptr bp = h₁.ptr bp)
    (hsize : ∀ x, x ≠ bp → h'.size x = h.size x) (hsizeb : h'.size bp = h₁.size bp) (hfreep : h'.freep = p) :
    Freed base bp h h' (A ++ p :: B) (A ++ p :: bp :: B') live R := by
  have hlt := hI.lt hS (mem_cons_self ..)
  obtain ⟨hneA, hneB⟩ := ne_around hI hB hJ (by omega)
  have hkeep : ∀ a ∈ live, h'.size a = h.size a := fun a ha => hsize a (hI.ne_live hS ha).1
  have hkeepB : ∀ b ∈ B', h'.size b = h.size b := fun b hb => hsize b (hneB b hb).2
  have hkeepA : ∀ a ∈ A, h'.size a = h.size a := fun a ha => hsize a (hneA a ha).2
  have hgrow := hJ.grow
  refine ⟨hI.replace (fun a ha => ⟨hptr a (hneA a ha).1 (hneA a ha).2, hkeepA a ha⟩) ?_ hfreep ?_ ?_ ?_ ?_ ?_, hkeep, bp, by simp,
    by omega, by omega, fun a ha hab => ?_⟩
  · exact ⟨hptrp, hptrb.trans hJ.next, hJ.links.congr fun x hx => hptr x (hneB x hx).1 (hneB x hx).2⟩
  · refine List.pairwise_cons.2 ⟨fun b hb => ?_, List.pairwise_cons.2 ⟨fun b hb => ?_, sorted_after hI hJ hkeepB⟩⟩
    · rw [hsize p (by omega)]
      rcases mem_cons.1 hb with rfl | hb
      · exact hgap
      · have := hB b (hJ.sub.subset hb)
        omega
    · rw [hsizeb]
      exact hJ.gap b hb
  · rw [hsize base (by omega)]
    exact hI.base_size
  · intro a ha hb
    rcases mem_cons.1 ha with rfl | ha
    · rw [hsize a (by omega)]
      exact hI.pos a (by simp) hb
    · rcases mem_cons.1 ha with rfl | ha
      · rw [hsizeb]
        exact Nat.lt_of_lt_of_le (hI.pos_live a (mem_cons_self ..)) hJ.grow
      · rw [hkeepB a ha]
        exact pos_after hI hJ ha hb
  · intro a ha
    rw [hkeep a ha]
    exact hI.pos_live a (mem_cons_of_mem bp ha)
  · refine List.perm_iff_count.2 fun x => ?_
    have hjoin := List.perm_iff_count.1 hJ.tiles x
    simp only [List.cons_append, blocks_append, blocks_cons, blocks_congr hkeep, blocks_congr hkeepB, hsizeb, hsize p (by omega),
      count_append] at hjoin ⊢
    omega
  · refine ⟨?_, hsize a hab⟩
    simp only [List.mem_append, mem_cons] at ha ⊢
    exact ha.imp_right (Or.imp_right fun ha => hJ.sub.subset (ha.resolve_left hab))

theorem joinPrev_spec (hS : Sane base R) (hp : p < bp) (hB : ∀ b ∈ B, bp < b)
    (hJ : Joined base bp h h₁ B B') : ∃ C', Freed base bp h { joinPrev h₁ p bp with freep := p } (A ++ p :: B) C' live R := by
  have happ := hI.apart hS (show p ∈ A ++ p :: B by simp)
  have hpos := hI.pos_live bp (mem_cons_self ..)
  have hpsize := hJ.size p (by omega)
  unfold joinPrev
  rw [hpsize]
  split
  next heq =>
    have hsum : (h.size p + h₁.size bp) % 2 ^ 32 = h.size p + h₁.size bp := by
      refine Nat.mod_eq_of_lt (Nat.lt_of_le_of_lt ?_ hS.few)
      have hlen := hJ.tiles.length_eq
      rw [← hI.tiles.length_eq]
      simp only [blocks_append, blocks_cons, List.length_append, length_cells] at hlen ⊢
      omega
    exact ⟨_, freed_joined hI hS hB hJ heq hp (fun x hx hx' => (update_of_ne hx ..).trans (hJ.ptr x hx'))
      (update_self ..) (fun x hx hx' => (update_of_ne hx ..).trans (hJ.size x hx'))
      ((update_self ..).trans hsum) rfl⟩
  next hne =>
    exact ⟨_, freed_linked hI hS hB hJ (by omega) (fun x hx hx' => (update_of_ne hx ..).trans (hJ.ptr x hx'))
      (update_self ..) (update_of_ne (by omega) ..) hJ.size rfl rfl⟩

end

end JoinPrev

theorem free_spec (hI : Inv base h C (bp :: live) R) (hS : Sane base R) :
    ∃ h' C', (∀ fuel, C.length ≤ fuel → free h fuel (bp + 16) = some h') ∧ Freed base bp h h' C C' live R := by
  obtain ⟨A, p, B, rfl, hp, hB, hrun⟩ := freeLoop_spec hI hS
  obtain ⟨B', hJ⟩ := joinNext_spec hI hS hB
  obtain ⟨C', hF⟩ := joinPrev_spec hI hS hp hB hJ
  refine ⟨_, C', fun fuel hf => ?_, hF⟩
  rw [free, Nat.add_sub_cancel, hrun fuel hf]
  rfl

/-! ### `malloc` -/

/-- What a successful `malloc` makes of the heap: the block `w` is live, and the other live blocks stay. -/
structure Taken (base w n : Nat) (h h' : Heap) (C' live R : List Nat) : Prop where
  inv : Inv base h' C' (w :: live) R
  keep : ∀ a ∈ live, h'.size a = h.size a
  size : h'.size w = n

section Take

variable (hI : Inv base h (A ++ p :: q :: B) live R)

include hI

theorem ne_before (ha : a ∈ A) : a ≠ p ∧ a ≠ q := by
  have h1 := (List.pairwise_append.1 hI.sorted).2.2 a ha
  have h2 := h1 p (by simp)
  have h3 := h1 q (by simp)
  omega

theorem ne_after (hb : b ∈ B) : b ≠ p ∧ b ≠ q := by
  obtain ⟨h1, h2⟩ := List.pairwise_cons.1 (List.pairwise_append.1 hI.sorted).2.1
  have h3 := h1 b (mem_cons_of_mem q hb)
  have h4 := (List.pairwise_cons.1 h2).1 b hb
  omega

theorem taken_whole (hqb : q ≠ base) (heq : h.size q = n) :
    Taken base q n h { h.setPtr p (h.ptr q) with freep := p } (A ++ p :: B) live R := by
  obtain ⟨hsp, hsB⟩ := List.pairwise_cons.1 (List.pairwise_append.1 hI.sorted).2.1
  obtain ⟨-, -, hlq, hlB⟩ := links_append.1 hI.ring
  refine ⟨hI.replace (fun a ha => ⟨update_of_ne (ne_before hI ha).1 .., rfl⟩) ?_ rfl ?_ hI.base_size ?_ ?_ ?_,
    fun _ _ => rfl, heq⟩
  · exact ⟨(update_self ..).trans hlq, hlB.congr fun x hx => update_of_ne (ne_after hI hx).1 ..⟩
  · exact List.pairwise_cons.2 ⟨fun b hb => hsp b (mem_cons_of_mem q hb), (List.pairwise_cons.1 hsB).2⟩
  · intro a ha hb
    refine hI.pos a (mem_append_right A ?_) hb
    rcases mem_cons.1 ha with rfl | ha
    · exact mem_cons_self ..
    · exact mem_cons_of_mem p (mem_cons_of_mem q ha)
  · intro a ha
    rcases mem_cons.1 ha with rfl | ha
    · exact hI.pos a (by simp) hqb
    · exact hI.pos_live a ha
  · refine List.perm_iff_count.2 fun x => ?_
    simp only [Heap.setPtr, blocks_append, blocks_cons, count_append]
    omega

theorem taken_end {w : Nat} (hS : Sane base R) (hqb : q ≠ base) (hn : 0 < n) (hlt : n < h.size q)
    (hw : q + 16 * (h.size q - n) = w) (hptr : h'.ptr = h.ptr) (hfreep : h'.freep = p) (hsizeq : h'.size q = h.size q - n)
    (hsizew : h'.size w = n) (hsize : ∀ a, a ≠ q → a ≠ w → h'.size a = h.size a) :
    Taken base w n h h' (A ++ p :: q :: B) live R := by
  obtain ⟨hsp, hsB⟩ := List.pairwise_cons.1 (List.pairwise_append.1 hI.sorted).2.1
  have hpq := hsp q (mem_cons_self ..)
  -- `w` is a cell of `q`, so no header
  have hcell : w ∈ cells 16 q (h.size q) := mem_cells.2 ⟨_, by omega, hw.symm⟩
  have hnew : ∀ a ∈ (A ++ p :: q :: B) ++ live, a ≠ q → h'.size a = h.size a := fun a ha haq => by
    refine hsize a haq fun he => haq (hI.eq_of_mem_cells hS ha ?_ (by simp) (he ▸ hcell))
    have := hI.le (show q ∈ A ++ p :: q :: B by simp)
    omega
  have hkeep : ∀ a ∈ live, h'.size a = h.size a := fun a ha =>
    hnew a (mem_append_right _ ha) fun he => hI.notMem_of_live hS ha (by simp [he])
  have hkeepB : ∀ b ∈ B, h'.size b = h.size b := fun b hb => hnew b (by simp [hb]) (ne_after hI hb).2
  have hkeepp : h'.size p = h.size p := hnew p (by simp) (by omega)
  refine ⟨hI.replace (fun a ha => ⟨by rw [hptr], hnew a (by simp [ha]) (ne_before hI ha).2⟩) ?_ hfreep ?_ ?_ ?_ ?_ ?_, hkeep, hsizew⟩
  · rw [hptr]
    exact (links_append.1 hI.ring).2
  · refine List.pairwise_cons.2 ⟨fun b hb => ?_, List.pairwise_cons.2 ⟨fun b hb => ?_, ?_⟩⟩
    · rw [hkeepp]
      exact hsp b hb
    · have := (List.pairwise_cons.1 hsB).1 b hb
      omega
    · refine (List.pairwise_cons.1 hsB).2.imp_of_mem fun {a b} ha _ hab => ?_
      rw [hkeepB a ha]
      exact hab
  · rw [hnew base (mem_append_left live (List.mem_of_head? hI.head)) (Ne.symm hqb)]
    exact hI.base_size
  · intro a ha hb
    by_cases haq : a = q
    · rw [haq, hsizeq]
      omega
    · have hmem : a ∈ A ++ p :: q :: B := mem_append_right A ha
      rw [hnew a (mem_append_left live hmem) haq]
      exact hI.pos a hmem hb
  · intro a ha
    rcases mem_cons.1 ha with rfl | ha
    · rw [hsizew]
      exact hn
    · rw [hkeep a ha]
      exact hI.pos_live a ha
  · refine List.perm_iff_count.2 fun x => ?_
    have hcells : cells 16 q (h.size q) = cells 16 q (h.size q - n) ++ cells 16 w n := by
      rw [← hw, ← cells_add, Nat.sub_add_cancel (Nat.le_of_lt hlt)]
    simp only [List.cons_append, blocks_append, blocks_cons, blocks_congr hkeep, blocks_congr hkeepB, hkeepp, hsizeq, hsizew, hcells,
      count_append]
    omega

end Take

theorem take_spec (hI : Inv base h C live R) (hS : Sane base R) (hp : p ∈ C) (hpq : h.ptr p = q) (hn : 0 < n)
    (hfit : n ≤ h.size q) : ∃ w C', (take h n p q).1 = w + 16 ∧ w + 16 * n = q + 16 * h.size q ∧
      Taken base w n h (take h n p q).2 C' live R := by
  have hqb : q ≠ base := fun he => by
    rw [he, hI.base_size] at hfit
    omega
  obtain ⟨A, B, rfl⟩ := List.append_of_mem hp
  cases B with
  | nil => exact absurd (hpq.symm.trans hI.ptr_eq) hqb
  | cons q' B =>
    obtain rfl : q' = q := hI.ptr_eq.symm.trans hpq
    unfold take
    split
    next heq => exact ⟨q', _, rfl, by rw [heq], taken_whole hI hqb heq⟩
    next hne =>
      refine ⟨_, _, rfl, by omega, taken_end hI hS hqb hn (by omega) rfl rfl rfl ?_ (update_self ..) fun a haq haw => ?_⟩
      · exact (update_of_ne (by omega) ..).trans (update_self ..)
      · exact (update_of_ne haw ..).trans (update_of_ne haq ..)

section Loop

variable {κ : Type} {sbrk : κ → Int → Option Nat × κ} {k k' : κ}

/-- The loop of `malloc` over a chain on which `freep` does not lie: it takes the first block that is large enough. -/
theorem mallocLoop_scan (sbrk : κ → Int → Option Nat × κ) (n : Nat) (k : κ) (hl : Links h.ptr (a :: D) b) (hD : h.freep ∉ D) :
    (∃ p ∈ a :: D, ∃ q ∈ D, h.ptr p = q ∧ n ≤ h.size q ∧ ∀ fuel,
      mallocLoop sbrk n (fuel + D.length + 1) h k a (h.ptr a) = some ((take h n p q).1, (take h n p q).2, k)) ∨
    (∀ q ∈ D, h.size q < n) ∧ ∃ p ∈ a :: D, h.ptr p = b ∧ ∀ fuel,
      mallocLoop sbrk n (fuel + D.length + 1) h k a (h.ptr a) = mallocLoop sbrk n (fuel + 1) h k p b := by
  induction D generalizing a with
  | nil => exact .inr ⟨fun q hq => (by cases hq), a, mem_cons_self .., hl.1, fun fuel => by rw [hl.1]; rfl⟩
  | cons c D ih =>
    have hac : h.ptr a = c := hl.1
    by_cases hfit : n ≤ h.size c
    · exact .inl ⟨a, mem_cons_self .., c, mem_cons_self .., hac, hfit, fun fuel => by rw [hac, mallocLoop, if_pos hfit]⟩
    · have hstep : ∀ fuel, mallocLoop sbrk n (fuel + (c :: D).length + 1) h k a (h.ptr a) =
          mallocLoop sbrk n (fuel + D.length + 1) h k c (h.ptr c) := fun fuel => by
        rw [hac, mallocLoop, if_neg hfit, if_neg fun he => hD (by simp [he])]
        rfl
      rcases ih hl.2 fun hm => hD (mem_cons_of_mem c hm) with ⟨p, hp, q, hq, hpq, hn, hrun⟩ | ⟨hsmall, p, hp, hpb, hrun⟩
      · exact .inl ⟨p, mem_cons_of_mem a hp, q, mem_cons_of_mem c hq, hpq, hn, fun fuel => (hstep fuel).trans (hrun fuel)⟩
      · refine .inr ⟨fun q hq => ?_, p, mem_cons_of_mem a hp, hpb, fun fuel => (hstep fuel).trans (hrun fuel)⟩
        rcases mem_cons.1 hq with rfl | hq
        · omega
        · exact hsmall q hq

theorem Inv.from_freep (hI : Inv base h C live R) :
    ∃ D, Links h.ptr (h.freep :: D) h.freep ∧ (h.freep :: D).Perm C ∧ h.freep ∉ D := by
  obtain ⟨L, rfl⟩ := hI.cons
  obtain ⟨D, hD, hperm⟩ := hI.ring.rotate hI.freep
  have hnd : (base :: L).Nodup := hI.sorted.imp fun {a b} hab => by omega
  exact ⟨D, hD, hperm, (List.nodup_cons.1 (hperm.nodup_iff.2 hnd)).1⟩

/-- A free block that is large enough gives up its end. -/
theorem mallocLoop_fits (sbrk : κ → Int → Option Nat × κ) (hI : Inv base h C live R) (hS : Sane base R) (hn : 0 < n)
    (hfit : ∃ q ∈ C, n ≤ h.size q) (k : κ) :
    ∃ w h' C', (∀ fuel, C.length ≤ fuel → mallocLoop sbrk n fuel h k h.freep (h.ptr h.freep) = some (w + 16, h', k)) ∧
      (∃ q ∈ C, n ≤ h.size q ∧ w + 16 * n = q + 16 * h.size q) ∧ Taken base w n h h' C' live R := by
  obtain ⟨D, hD, hperm, hnot⟩ := hI.from_freep
  have hlen := hperm.length_eq
  rw [length_cons] at hlen
  -- the block that is found, and the one before it
  obtain ⟨p, hp, q, hq, hpq, hle, hrun⟩ : ∃ p ∈ C, ∃ q ∈ C, h.ptr p = q ∧ n ≤ h.size q ∧ ∀ fuel,
      mallocLoop sbrk n (fuel + D.length + 1) h k h.freep (h.ptr h.freep) = some ((take h n p q).1, (take h n p q).2, k) := by
    rcases mallocLoop_scan sbrk n k hD hnot with ⟨p, hp, q, hq, hpq, hle, hrun⟩ | ⟨hsmall, p, hp, hpb, hrun⟩
    · exact ⟨p, hperm.subset hp, q, hperm.subset (mem_cons_of_mem _ hq), hpq, hle, hrun⟩
    · obtain ⟨q, hq, hle⟩ := hfit
      have hlast : n ≤ h.size h.freep := by
        rcases mem_cons.1 (hperm.mem_iff.2 hq) with rfl | hq
        · exact hle
        · have := hsmall q hq
          omega
      exact ⟨p, hperm.subset hp, h.freep, hI.freep, hpb, hlast, fun fuel => by rw [hrun, mallocLoop, if_pos hlast]⟩
  obtain ⟨w, C', hw, hend, hT⟩ := take_spec hI hS hp hpq hn hle
  refine ⟨w, _, C', fun fuel hf => ?_, ⟨q, hq, hle, hend⟩, hT⟩
  obtain ⟨f, rfl⟩ : ∃ f, fuel = f + D.length + 1 := ⟨fuel - (D.length + 1), by omega⟩
  rw [hrun f, hw]

theorem mallocLoop_morecore (hI : Inv base h C live R) (hsmall : ∀ q ∈ C, h.size q < n) {r : Option Nat × Heap × κ}
    (hm : morecore sbrk h k fuel n = some r) : mallocLoop sbrk n (fuel + C.length) h k h.freep (h.ptr h.freep) =
      r.1.elim (some (0, r.2.1, r.2.2)) fun p => mallocLoop sbrk n fuel r.2.1 r.2.2 p (r.2.1.ptr p) := by
  obtain ⟨D, hD, hperm, hnot⟩ := hI.from_freep
  have hlen := hperm.length_eq
  rw [length_cons] at hlen
  rcases mallocLoop_scan sbrk n k hD hnot with ⟨_, _, q, hq, _, hle, _⟩ | ⟨_, p, _, _, hrun⟩
  · have := hsmall q (hperm.subset (mem_cons_of_mem _ hq))
    omega
  · have hlast := hsmall h.freep hI.freep
    rw [← hlen, ← Nat.add_assoc, hrun fuel, mallocLoop, if_neg (by omega), if_pos rfl, hm]
    obtain ⟨_ | p, h', k'⟩ := r
    · exact rfl
    · exact rfl

theorem Inv.obtained (hI : Inv base h C live R) (hS : Sane base (cells 16 a nu ++ R)) (hnu : 0 < nu) :
    Inv base (h.setSize a nu) C (a :: live) (cells 16 a nu ++ R) := by
  have hcell : a ∈ cells 16 a nu := mem_cells.2 ⟨0, hnu, rfl⟩
  have hab := hS.above a (mem_append_left R hcell)
  have hne : ∀ x ∈ C ++ live, x ≠ a := by
    rintro x hx rfl
    have hxR : x ∈ R := hI.tiles.subset (cells_subset_blocks hx (mem_cells.2 ⟨0, hI.pos_of_ne hx (by omega), rfl⟩))
    have := (List.pairwise_append.1 hS.apart).2.2 x hcell x hxR
    unfold Apart at this
    omega
  have hsize : ∀ x ∈ C ++ live, (h.setSize a nu).size x = h.size x := fun x hx => update_of_ne (hne x hx) ..
  have hnew : (h.setSize a nu).size a = nu := update_self ..
  refine ⟨hI.head, hI.ring, hI.freep, ?_, ?_, fun x hx hb => ?_, fun x hx => ?_, ?_⟩
  · refine hI.sorted.imp_of_mem fun {x y} hx _ hxy => ?_
    rw [hsize x (mem_append_left live hx)]
    exact hxy
  · rw [hsize base (mem_append_left live (List.mem_of_head? hI.head))]
    exact hI.base_size
  · rw [hsize x (mem_append_left live hx)]
    exact hI.pos x hx hb
  · rcases mem_cons.1 hx with rfl | hx
    · rw [hnew]
      exact hnu
    · rw [hsize x (mem_append_right C hx)]
      exact hI.pos_live x hx
  · refine List.perm_iff_count.2 fun x => ?_
    have := List.perm_iff_count.1 hI.tiles x
    have hC := blocks_congr (z := 16) fun y (hy : y ∈ C) => hsize y (mem_append_left live hy)
    have hL := blocks_congr (z := 16) fun y (hy : y ∈ live) => hsize y (mem_append_right C hy)
    simp only [blocks_append, blocks_cons, hC, hL, hnew, count_append] at this ⊢
    omega

theorem coreUnits_pos (n : Nat) : 0 < coreUnits n := by
  unfold coreUnits
  split <;> omega

theorem le_coreUnits (n : Nat) : n ≤ coreUnits n := by
  unfold coreUnits
  split <;> omega

/-- The block that `sbrk` gives is joined to the free list, and its end is taken. -/
theorem mallocLoop_grows (hI : Inv base h C live R) (hn : 0 < n) (hsmall : ∀ q ∈ C, h.size q < n)
    (hk : sbrk k (asInt (coreUnits n * 16)) = (some a, k')) (hS : Sane base (cells 16 a (coreUnits n) ++ R)) :
    ∃ N w h' C', (∀ fuel, N ≤ fuel → mallocLoop sbrk n fuel h k h.freep (h.ptr h.freep) = some (w + 16, h', k')) ∧
      a ≤ w ∧ Taken base w n h h' C' live (cells 16 a (coreUnits n) ++ R) := by
  have hI1 := hI.obtained hS (coreUnits_pos n)
  obtain ⟨h2, C2, hfree, hF⟩ := free_spec hI1 hS
  obtain ⟨q, hq, hle, hend, hrest⟩ := hF.room
  have hnew : (h.setSize a (coreUnits n)).size a = coreUnits n := update_self ..
  rw [hnew] at hle hend
  have hunits := le_coreUnits n
  obtain ⟨w, h', C', hrun, ⟨q', hq', hle', hw⟩, hT⟩ := mallocLoop_fits sbrk hF.inv hS hn ⟨q, hq, Nat.le_trans hunits hle⟩ k'
  have hsame : q' = q := by
    by_contra hne
    obtain ⟨hC, hsize⟩ := hrest q' hq' hne
    have hqa : q' ≠ a := fun he => hI1.notMem_of_live hS (mem_cons_self ..) (he ▸ hC)
    rw [hsize, show (h.setSize a _).size q' = h.size q' from update_of_ne hqa ..] at hle'
    have := hsmall q' hC
    omega
  have hne : ∀ x ∈ live, x ≠ a := fun x hx => (hI1.ne_live hS hx).1
  refine ⟨C.length + C.length + C2.length, w, h', C', fun fuel hf => ?_, ?_, hT.inv, fun x hx => ?_, hT.size⟩
  · obtain ⟨f, rfl⟩ : ∃ f, fuel = f + C.length := ⟨fuel - C.length, by omega⟩
    have hm : morecore sbrk h k f n = some (some h2.freep, h2, k') := by
      rw [morecore, hk]
      exact congrArg (Option.map _) (hfree f (by omega))
    rw [mallocLoop_morecore hI hsmall hm]
    exact hrun f (by omega)
  · rw [hsame] at hw
    omega
  · rw [hT.keep x hx, hF.keep x hx]
    exact update_of_ne (hne x hx) ..

theorem mallocLoop_null (hI : Inv base h C live R) (hsmall : ∀ q ∈ C, h.size q < n)
    (hk : sbrk k (asInt (coreUnits n * 16)) = (none, k')) :
    ∀ fuel, C.length ≤ fuel → mallocLoop sbrk n fuel h k h.freep (h.ptr h.freep) = some (0, h, k') := by
  intro fuel hf
  obtain ⟨f, rfl⟩ : ∃ f, fuel = f + C.length := ⟨fuel - C.length, by omega⟩
  have hm : morecore sbrk h k f n = some (none, h, k') := by
    rw [morecore, hk]
  exact mallocLoop_morecore hI hsmall hm

end Loop

end Xv6.Malloc
