import Xv6.Proc.Regrow
import Xv6.Proc.Sbrk
import Xv6.User.HeapRun

/-!
# `malloc` and the break of the process

`malloc` asks `sbrk` for a number of bytes that has been rounded to units, multiplied as a `uint64` and passed as an `int`.
-/

namespace Xv6.Malloc

open Chain Hoare

/-- What a program sees of the kernel: its break, and whether the next requests for memory are granted. -/
structure Brk where
  sz : Nat
  grants : Nat → Bool

/-- `sbrk(n)`: the old break, or `none` for the error. -/
def Brk.sbrk (k : Brk) (n : Int) : Option Nat × Brk :=
  if n > 0 ∧ k.grants 0 = false then (none, { k with grants := fun i => k.grants (i + 1) })
  else (some k.sz, ⟨newBreak k.sz n, fun i => k.grants (i + 1)⟩)

theorem growproc_zero (κ : Kernel) (i : Pid) {n : Int} (hn : ¬n > 0) :
    wp (growproc i n) (fun r _ => r = 0) (fun _ => True) κ := by
  unfold growproc
  rw [wp_bind, wp_get, if_neg hn]
  split
  · rw [wp_bind, wp_onPhys]
    exact wp_of_all (fun _ _ => rfl) fun _ => trivial
  · exact rfl

/-- `sys_sbrk` returns what `growproc` decides. -/
theorem sysSbrk_run {κ κ' : Kernel} {i : Pid} {n r : Int} (hrun : (growproc i n).run κ = .ok (r, κ')) :
    (sysSbrk i n).run κ = .ok (if r < 0 then 2 ^ 64 - 1 else (κ.proc i).sz, κ') := by
  obtain ⟨_, _, h, rfl, rfl⟩ := wp_false_iff.1 (show wp (sysSbrk i n)
      (fun a s => a = (if r < 0 then 2 ^ 64 - 1 else (κ.proc i).sz) ∧ s = κ') (fun _ => False) κ by
    unfold sysSbrk
    rw [wp_bind, wp_get, wp_bind, wp_of_ok hrun]
    split <;> exact ⟨rfl, rfl⟩)
  exact h

theorem growproc_returns {w : World} {T : Asked} {i : Pid} {n : Int} (hw : History (fun w op => op.KeepsSuperpages w) w T)
    (hen : (Op.growproc i n).Enabled w) (hcut : ¬w.kernel.cuts i n) (hnew : ¬(Op.growproc i n).Remaps w T) :
    ∃ r κ', (growproc i n).run w.kernel = .ok (r, κ') := by
  have hgrow := growproc_inv (E := fun _ => False) hw.inv hen hcut hnew
  rw [Op.code, wp_onKernel] at hgrow
  obtain ⟨r, κ', hrun, -⟩ := wp_false_iff.1 hgrow
  exact ⟨r, κ', hrun⟩

/-- After any run that cuts no superpage, `sys_sbrk` returns and does to the break what `Brk.sbrk` does, unless it cuts a superpage
or wants one for a chunk in which the process asked for single pages before. -/
theorem sysSbrk_refines_brk {w : World} {T : Asked} {i : Pid} {n : Int} (hw : History (fun w op => op.KeepsSuperpages w) w T)
    (hen : (Op.growproc i n).Enabled w) (hcut : ¬w.kernel.cuts i n) (hnew : ¬(Op.growproc i n).Remaps w T) :
    ∃ g r κ', (sysSbrk i n).run w.kernel = .ok (r, κ') ∧
      Brk.sbrk ⟨(w.kernel.proc i).sz, fun _ => g⟩ n = (if r = 2 ^ 64 - 1 then none else some r, ⟨(κ'.proc i).sz, fun _ => g⟩) := by
  obtain ⟨S, hK, -⟩ := hw.inv
  obtain ⟨A, hS⟩ := hK.runs hen.1
  have hsz := hK.sz_le hS
  obtain ⟨r, κ', hrun⟩ := growproc_returns hw hen hcut hnew
  have hsbrk := sysSbrk_run hrun
  rcases (wp_of_ok hrun).1 (growproc_ret w.kernel i n) with ⟨rfl, hbreak⟩ | ⟨rfl, hbreak⟩
  · rw [if_neg (by decide)] at hsbrk
    refine ⟨true, _, κ', hsbrk, ?_⟩
    rw [if_neg (by lia), hbreak]
    simp [Brk.sbrk]
  · have hn : n > 0 := by
      by_contra hn
      cases (wp_of_ok hrun).1 (growproc_zero w.kernel i hn)
    refine ⟨false, _, κ', hsbrk, ?_⟩
    simp [Brk.sbrk, hn, hbreak]

theorem sysSbrk_refines_brk_first : ∃ (w : World) (i : Pid) (g : Bool) (r : Nat) (κ' : Kernel),
    (sysSbrk i (-4096)).run w.kernel = .ok (r, κ') ∧
    Brk.sbrk ⟨PGSIZE, fun _ => g⟩ (-4096) = (if r = 2 ^ 64 - 1 then none else some r, ⟨(κ'.proc i).sz, fun _ => g⟩) := by
  obtain ⟨w, i, A, hw, hA, -⟩ := exists_first (fun w op => op.KeepsSuperpages w) fun w => trivial
  obtain ⟨T, hT⟩ := hw.history
  refine ⟨w, i, hA.sz ▸ sysSbrk_refines_brk hT ⟨hA.runs, by decide, by decide⟩ (fun h => h.2.2.1 ?_) fun h => absurd h.1 (by decide)⟩
  rw [hA.sz]
  decide

/-- `sbrk(n)` as a program of process `i` sees it: the old break, or `none` for the error; a panic stops the machine. -/
def sbrk (i : Pid) (k : Except String Kernel) (n : Int) : Option Nat × Except String Kernel :=
  match k with
  | .error e => (none, .error e)
  | .ok κ =>
    match (sysSbrk i n).run κ with
    | .error e => (none, .error e)
    | .ok (r, κ') => (if r = 2 ^ 64 - 1 then none else some r, .ok κ')

variable {base n nbytes w sz : Nat} {i : Pid} {κ κ' : Kernel} {h h' : Heap} {C live R : List Nat}

theorem Taken.below (hT : Taken base w (nunits nbytes) h h' C live R) (hR : ∀ x ∈ R, x + 16 ≤ sz) : w + 16 + nbytes ≤ sz := by
  have hn := nunits_pos nbytes
  have hcell : w + 16 * (nunits nbytes - 1) ∈ cells 16 w (h'.size w) := by
    rw [hT.size]
    exact mem_cells.2 ⟨_, by omega, rfl⟩
  have := hR _ (hT.inv.tiles.subset (cells_subset_blocks (by simp) hcell))
  have := le_nunits nbytes
  omega

/-- The memory that `sbrk` gives is above all that was obtained before. -/
theorem Sane.grown (hS : Sane base R) (hR : ∀ x ∈ R, x + 16 ≤ sz) (hbase : base + 16 ≤ sz) (hfew : n + R.length < 2 ^ 32) :
    Sane base (cells 16 sz n ++ R) := by
  have hnew : ∀ x ∈ cells 16 sz n, sz ≤ x := by
    intro x hx
    obtain ⟨i, -, rfl⟩ := mem_cells.1 hx
    omega
  refine ⟨fun x hx => ?_, List.pairwise_append.2 ⟨pairwise_cells, hS.apart, fun x hx y hy => .inr ?_⟩, ?_⟩
  · rcases List.mem_append.1 hx with hx | hx
    · exact hbase.trans (hnew x hx)
    · exact hS.above x hx
  · exact (hR y hy).trans (hnew x hx)
  · rw [List.length_append, length_cells]
    exact hfew

/-- A program that has not called `malloc` yet, with the static header at `0x800`. -/
def unused : Heap := ⟨fun _ => 0, fun _ => 0, 0⟩

end Xv6.Malloc
