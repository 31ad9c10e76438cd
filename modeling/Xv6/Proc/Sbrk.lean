import Xv6.Proc.Kernel

/-!
# The break of a process (`sys_sbrk`)

`growproc` adds a signed 32-bit number to an unsigned 64-bit size. Its two helpers return the old size when there is nothing to do,
so a sum that leaves the 64 bits is taken for a success.
-/

namespace Xv6

open Hoare

variable {κ : Kernel} {σ : Phys} {E : String → Prop} {i : Pid} {n : Int}

def sysSbrk (i : Pid) (n : Int) : KernM Nat := do
  let addr := ((← get).proc i).sz
  if (← growproc i n) < 0 then return 2 ^ 64 - 1 else return addr

/-- A call that returns 0 has moved the break by exactly `n`, and any other call has not moved it. -/
structure SbrkExact (κ : Kernel) (i : Pid) (n : Int) : Prop where
  moved : ∀ κ', (growproc i n).run κ = .ok (0, κ') → ((κ'.proc i).sz : Int) = (κ.proc i).sz + n
  stays : ∀ r κ', (growproc i n).run κ = .ok (r, κ') → r ≠ 0 → (κ'.proc i).sz = (κ.proc i).sz
  sbrk : ∀ r κ', (sysSbrk i n).run κ = .ok (r, κ') → r ≠ 2 ^ 64 - 1 →
    r = (κ.proc i).sz ∧ ((κ'.proc i).sz : Int) = (κ.proc i).sz + n

theorem growRound_ret {alloc : PhysM (Option Nat)} {clear free : Nat → PhysM Unit} {map : Nat → PhysM Int}
    {bad rest : PhysM Nat} {Q : Nat → Phys → Prop} (hbad : ∀ σ, wp bad Q (fun _ => True) σ)
    (hrest : ∀ σ, wp rest Q (fun _ => True) σ) :
    wp (do
      match ← alloc with
      | none => bad
      | some mem =>
        clear mem
        if (← map mem) ≠ 0 then
          free mem
          bad
        else rest) Q (fun _ => True) σ := by
  rw [wp_bind]
  refine wp_of_all (fun o σ1 => ?_) fun _ => trivial
  cases o with
  | none => exact hbad _
  | some mem =>
    rw [wp_bind]
    refine wp_of_all (fun _ σ2 => ?_) fun _ => trivial
    rw [wp_bind]
    refine wp_of_all (fun r σ3 => ?_) fun _ => trivial
    split
    · rw [wp_bind]
      exact wp_of_all (fun _ _ => hbad _) fun _ => trivial
    · exact hrest _

theorem uvmallocLoop_ret (pagetable oldsz newsz xperm a : Nat) :
    wp (uvmallocLoop pagetable oldsz newsz xperm a) (fun r _ => r = 0 ∨ r = newsz) (fun _ => True) σ := by
  induction h : newsz - a using Nat.strong_induction_on generalizing a σ with
  | _ k ih =>
    have hbad : ∀ σ, wp (do let _ ← uvmdealloc pagetable a oldsz; return 0 : PhysM Nat) (fun r _ => r = 0 ∨ r = newsz)
        (fun _ => True) σ := by
      intro σ
      rw [wp_bind]
      exact wp_of_all (fun _ _ => .inl rfl) fun _ => trivial
    unfold uvmallocLoop
    split
    next hlt =>
      split
      next => exact growRound_ret hbad fun σ => ih _ (by lia) _ rfl
      next => exact growRound_ret hbad fun σ => ih _ (by lia) _ rfl
    next => exact .inr rfl

theorem uvmalloc_ret (pagetable oldsz newsz xperm : Nat) :
    wp (uvmalloc pagetable oldsz newsz xperm) (fun r _ => r = 0 ∨ r = max oldsz newsz) (fun _ => True) σ := by
  unfold uvmalloc
  split
  next h => exact .inr (max_eq_left h.le).symm
  next h =>
    refine wp_post (uvmallocLoop_ret ..) fun r σ' hr => ?_
    rwa [max_eq_right (Nat.le_of_not_lt h)]

theorem uvmdealloc_ret (pagetable oldsz newsz : Nat) :
    wp (uvmdealloc pagetable oldsz newsz) (fun r _ => r = min oldsz newsz) (fun _ => True) σ := by
  unfold uvmdealloc
  split
  next h => exact (min_eq_left h).symm
  next h =>
    have hmin : newsz = min oldsz newsz := (min_eq_right (Nat.le_of_not_le h)).symm
    split
    next =>
      simp only [wp_bind]
      exact wp_of_all (fun _ _ => hmin) fun _ => trivial
    next => exact hmin

def newBreak (sz : Nat) (n : Int) : Nat :=
  if n > 0 then max sz (addInt sz n) else if n < 0 then min sz (addInt sz n) else sz

theorem growproc_ret (κ : Kernel) (i : Pid) (n : Int) :
    wp (growproc i n) (fun r κ' => (r = 0 ∧ (κ'.proc i).sz = newBreak (κ.proc i).sz n) ∨
      (r = -1 ∧ (κ'.proc i).sz = (κ.proc i).sz)) (fun _ => True) κ := by
  unfold growproc newBreak
  rw [wp_bind, wp_get]
  split
  next hpos =>
    rw [wp_bind, wp_onPhys]
    refine wp_post (uvmalloc_ret ..) fun r σ hr => ?_
    split
    next => exact .inr ⟨rfl, rfl⟩
    next hne =>
      refine .inl ⟨rfl, ?_⟩
      rw [← hr.resolve_left hne]
      simp only [Function.update_self]
  next hpos =>
    split
    next hneg =>
      rw [wp_bind, wp_onPhys]
      refine wp_post (uvmdealloc_ret ..) fun r σ hr => ?_
      refine .inl ⟨rfl, ?_⟩
      rw [← hr]
      simp only [Function.update_self]
    next => exact .inl ⟨rfl, rfl⟩

theorem newBreak_eq {sz : Nat} (h0 : 0 ≤ sz + n) (h1 : sz + n < 2 ^ 64) : (newBreak sz n : Int) = sz + n := by
  have hadd : (addInt sz n : Int) = sz + n := by
    unfold addInt
    rw [Int.emod_eq_of_lt h0 h1, Int.toNat_of_nonneg h0]
  unfold newBreak
  split
  · omega
  · split <;> omega

theorem newBreak_wraps {sz : Nat} (hsz : sz < 2 ^ 64) (hlo : -2 ^ 31 ≤ n) (hhi : n < 2 ^ 31)
    (h : ¬(0 ≤ sz + n ∧ sz + n < 2 ^ 64)) : newBreak sz n = sz ∧ n ≠ 0 := by
  unfold newBreak addInt
  split
  · constructor <;> omega
  · split
    · constructor <;> omega
    · omega

theorem growproc_wraps (hsz : (κ.proc i).sz < 2 ^ 64) (hlo : -2 ^ 31 ≤ n) (hhi : n < 2 ^ 31)
    (h : ¬(0 ≤ (κ.proc i).sz + n ∧ (κ.proc i).sz + n < 2 ^ 64)) :
    ∃ κ', (growproc i n).run κ = .ok (0, κ') ∧ (κ'.proc i).sz = (κ.proc i).sz := by
  have hwp : wp (growproc i n) (fun r κ' => r = 0 ∧ (κ'.proc i).sz = (κ.proc i).sz) (fun _ => False) κ := by
    unfold growproc
    rw [wp_bind, wp_get]
    split
    next hpos =>
      have hadd : addInt (κ.proc i).sz n < (κ.proc i).sz := by
        unfold addInt
        omega
      rw [wp_bind, wp_onPhys, uvmalloc, if_pos hadd, wp_pure, if_neg (by omega)]
      exact ⟨rfl, by simp only [Function.update_self]⟩
    next hpos =>
      have hadd : (κ.proc i).sz ≤ addInt (κ.proc i).sz n := by
        unfold addInt
        omega
      rw [if_pos (by omega), wp_bind, wp_onPhys, uvmdealloc, if_pos hadd, wp_pure]
      exact ⟨rfl, by simp only [Function.update_self]⟩
  obtain ⟨r, κ', hrun, rfl, hκ⟩ := wp_false_iff.1 hwp
  exact ⟨κ', hrun, hκ⟩

/-- The break moves by exactly `n` when `growproc(n)` or `sbrk(n)` succeeds, if and only if the sum of the old break and `n` does
not leave the 64 bits. -/
theorem sbrk_exact_iff (κ : Kernel) (i : Pid) (n : Int) (hsz : (κ.proc i).sz < 2 ^ 64) (hlo : -2 ^ 31 ≤ n)
    (hhi : n < 2 ^ 31) : SbrkExact κ i n ↔ 0 ≤ (κ.proc i).sz + n ∧ (κ.proc i).sz + n < 2 ^ 64 := by
  have hret := growproc_ret κ i n
  constructor
  · intro h
    by_contra hout
    obtain ⟨hstay, hne⟩ := newBreak_wraps hsz hlo hhi hout
    -- such a call returns 0, since the helpers return the old size
    obtain ⟨κ', hrun, hsz'⟩ := growproc_wraps hsz hlo hhi hout
    have := h.moved κ' hrun
    omega
  · rintro ⟨h0, h1⟩
    have hmove := newBreak_eq h0 h1
    refine ⟨fun κ' hrun => ?_, fun r κ' hrun hr => ?_, fun r κ' hrun hr => ?_⟩
    · rcases wp_ok hret hrun with ⟨-, h⟩ | ⟨h, -⟩
      · rw [h, hmove]
      · cases h
    · rcases wp_ok hret hrun with ⟨h, -⟩ | ⟨-, h⟩
      · exact absurd h hr
      · exact h
    · have hsb : wp (sysSbrk i n) (fun r κ' => r = 2 ^ 64 - 1 ∨
          r = (κ.proc i).sz ∧ ((κ'.proc i).sz : Int) = (κ.proc i).sz + n) (fun _ => True) κ := by
        unfold sysSbrk
        rw [wp_bind, wp_get, wp_bind]
        refine wp_post hret fun r κ' hr => ?_
        rcases hr with ⟨rfl, h⟩ | ⟨rfl, -⟩
        · exact .inr ⟨rfl, by rw [h, hmove]⟩
        · exact .inl rfl
      exact (wp_ok hsb hrun).resolve_left hr

def sizedKernel (sz : Nat) : Kernel := ⟨⟨fun _ => 0, [], []⟩, fun _ => { sz := sz }, 1, none⟩

theorem sbrk_exact_shrink : SbrkExact (sizedKernel 8192) 0 (-1) ∧
    ∃ κ', (growproc 0 (-1)).run (sizedKernel 8192) = .ok (0, κ') ∧ (κ'.proc 0).sz = 8191 :=
  ⟨(sbrk_exact_iff (sizedKernel 8192) 0 (-1) (by decide) (by decide) (by decide)).2 (by decide), _, rfl, rfl⟩

/-- A process of one page that gives back two pages is told that it has. -/
theorem sbrk_below_zero : ¬SbrkExact (sizedKernel 4096) 0 (-8192) ∧
    ∃ κ', (sysSbrk 0 (-8192)).run (sizedKernel 4096) = .ok (4096, κ') ∧ (κ'.proc 0).sz = 4096 := by
  refine ⟨fun h => ?_, ⟨_, rfl, rfl⟩⟩
  have := h.moved _ rfl
  revert this
  decide

end Xv6
