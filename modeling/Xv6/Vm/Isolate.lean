import Mathlib.Logic.Relation
import Xv6.Vm.Code

/-!
# User copies stay in user memory

`copyout` tests the permissions of a page with one walk of the tree and translates its address with another one, page by page.
Nothing is asked of the tree: the page-table pages may even be mapped for the user, in which case a page that has been copied
changes the translation of the next one.
-/

namespace Xv6

open Bytes (Mem loadLE)
open Hoare

def walkSlot (m : Mem) (va : Nat) : Nat → Nat → Option (Nat × Nat)
  | 0, pagetable => some (0, pagetable + 8 * px 0 va)
  | level + 1, pagetable =>
    let pte := pagetable + 8 * px (level + 1) va
    let e := loadLE m pte 8
    if hasFlag e PTE_V then
      if pteLeaf e then some (level + 1, pte) else walkSlot m va level (pte2pa e)
    else none

def walkPages (m : Mem) (va : Nat) : Nat → Nat → List Nat
  | 0, pagetable => [pagetable]
  | level + 1, pagetable =>
    let e := loadLE m (pagetable + 8 * px (level + 1) va) 8
    pagetable :: if hasFlag e PTE_V && !pteLeaf e then walkPages m va level (pte2pa e) else []

def leafEntry (m : Mem) (root va : Nat) : Option (Nat × Nat) :=
  (walkSlot m va 2 root).map fun s => (s.1, loadLE m s.2 8)

def InFrame (level e x : Nat) : Prop := pte2pa e ≤ x ∧ x < pte2pa e + 2 ^ (12 + 9 * level)

/-- The byte `x` lies in a frame that the tree maps by an entry with `PTE_V` and `PTE_U`, and with `PTE_W` if `write`. -/
def UserFrame (write : Bool) (m : Mem) (root x : Nat) : Prop :=
  ∃ va level e, va < MAXVA ∧ leafEntry m root va = some (level, e) ∧ hasFlag e PTE_V = true ∧ hasFlag e PTE_U = true ∧
    (write = true → hasFlag e PTE_W = true) ∧ InFrame level e x

/-- A write inside one frame that the tree maps for the user to write. -/
def UserWrite (root : Nat) (m m' : Mem) : Prop :=
  ∃ va level e, va < MAXVA ∧ leafEntry m root va = some (level, e) ∧ hasFlag e PTE_V = true ∧ hasFlag e PTE_U = true ∧
    hasFlag e PTE_W = true ∧ ∀ x, m' x ≠ m x → InFrame level e x

/-- No page-table page shares a byte with a frame that the user may write. -/
def TablesApart (m : Mem) (root : Nat) : Prop :=
  ∀ x, UserFrame true m root x → ∀ va < MAXVA, ∀ p ∈ walkPages m va 2 root, ¬(p ≤ x ∧ x < p + PGSIZE)

variable {σ τ : Phys} {m m' : Mem} {root va pagetable level k srcva pte e off x len n : Nat} {dst : Nat → UInt8}

theorem loadPte_run : (loadPte pte).run σ = .ok (loadLE σ.mem pte 8, σ) := rfl

theorem walkLoop_run : (walkLoop va false level pagetable).run σ = .ok ((walkSlot σ.mem va level pagetable).map Prod.snd, σ) := by
  induction level generalizing pagetable with
  | zero => rfl
  | succ level ih =>
    unfold walkLoop walkSlot
    rw [run_bind_ok loadPte_run]
    simp only [Bool.not_false, if_true]
    split
    · split
      · rfl
      · exact ih
    · rfl

theorem walk_run (hva : va < MAXVA) :
    (walk root va false).run σ = .ok ((walkSlot σ.mem va 2 root).map Prod.snd, σ) := by
  rw [walk, if_neg (by omega)]
  exact walkLoop_run

def userAddr (m : Mem) (root va : Nat) : Nat :=
  if va ≥ MAXVA then 0
  else (leafEntry m root va).elim 0 fun s => if hasFlag s.2 PTE_V && hasFlag s.2 PTE_U then pte2pa s.2 else 0

theorem walkaddr_run : (walkaddr root va).run σ = .ok (userAddr σ.mem root va, σ) := by
  unfold walkaddr userAddr
  split
  · rfl
  next hva =>
    rw [run_bind_ok (walk_run (by omega)), leafEntry]
    rcases walkSlot σ.mem va 2 root with _ | ⟨level, pte⟩
    · rfl
    · simp only [Option.map_some, Option.elim_some]
      rw [run_bind_ok loadPte_run]
      generalize loadLE σ.mem pte 8 = e
      cases hasFlag e PTE_V <;> cases hasFlag e PTE_U <;> rfl

theorem userAddr_entry (h : userAddr m root va ≠ 0) : va < MAXVA ∧ ∃ level e, leafEntry m root va = some (level, e) ∧
    hasFlag e PTE_V = true ∧ hasFlag e PTE_U = true ∧ pte2pa e = userAddr m root va := by
  by_cases hva : va ≥ MAXVA
  · rw [userAddr, if_pos hva] at h
    exact absurd rfl h
  · refine ⟨by omega, ?_⟩
    unfold userAddr at h ⊢
    rw [if_neg hva] at h ⊢
    rcases hl : leafEntry m root va with _ | ⟨level, e⟩
    · rw [hl] at h
      exact absurd rfl h
    · rw [hl, Option.elim_some] at h
      rw [Option.elim_some]
      by_cases hf : (hasFlag e PTE_V && hasFlag e PTE_U) = true
      · rw [if_pos hf]
        rw [Bool.and_eq_true] at hf
        exact ⟨level, e, rfl, hf.1, hf.2, rfl⟩
      · rw [if_neg hf] at h
        exact absurd rfl h

theorem inFrame_page (hoff : off < PGSIZE) : InFrame level e (pte2pa e + off) := by
  refine ⟨Nat.le_add_right _ _, Nat.add_lt_add_left (lt_of_lt_of_le hoff ?_) _⟩
  rw [Nat.pow_add]
  exact Nat.le_mul_of_pos_right _ (Nat.two_pow_pos _)

theorem walk_congr (h : ∀ p ∈ walkPages m va level pagetable, ∀ x, p ≤ x → x < p + PGSIZE → m' x = m x) :
    walkSlot m' va level pagetable = walkSlot m va level pagetable ∧
    walkPages m' va level pagetable = walkPages m va level pagetable ∧
    ∀ s, walkSlot m va level pagetable = some s → loadLE m' s.2 8 = loadLE m s.2 8 := by
  have hread : ∀ {p l}, (∀ x, p ≤ x → x < p + PGSIZE → m' x = m x) →
      loadLE m' (p + 8 * px l va) 8 = loadLE m (p + 8 * px l va) 8 := by
    intro p l hp
    have hpx : px l va < 512 := by
      unfold px
      exact Nat.and_lt_two_pow (n := 9) _ (by decide)
    exact Bytes.loadLE_congr fun x h1 h2 => hp x (by omega) (by lia)
  induction level generalizing pagetable with
  | zero =>
    have hr := hread (l := 0) (h pagetable (by simp [walkPages]))
    refine ⟨rfl, rfl, fun s hs => ?_⟩
    cases hs
    exact hr
  | succ level ih =>
    have hr := hread (l := level + 1) (h pagetable (by simp [walkPages]))
    unfold walkPages at h
    unfold walkSlot walkPages
    simp only [hr]
    generalize loadLE m (pagetable + 8 * px (level + 1) va) 8 = e at h hr ⊢
    cases hV : hasFlag e PTE_V <;> cases hl : pteLeaf e <;> simp only [hV, hl, Bool.false_eq_true, if_false, if_true,
      Bool.true_and, Bool.false_and, Bool.not_false, Bool.not_true] at h ⊢
    · simp
    · simp
    · obtain ⟨h1, h2, h3⟩ := ih fun p hp => h p (List.mem_cons_of_mem _ hp)
      exact ⟨h1, by rw [h2], h3⟩
    · refine ⟨trivial, trivial, fun s hs => ?_⟩
      cases hs
      exact hread (h pagetable List.mem_cons_self)

structure SameTree (root : Nat) (m m' : Mem) : Prop where
  entry : ∀ va < MAXVA, leafEntry m' root va = leafEntry m root va
  pages : ∀ va < MAXVA, walkPages m' va 2 root = walkPages m va 2 root

theorem SameTree.userFrame (h : SameTree root m m') {write : Bool} :
    UserFrame write m' root x ↔ UserFrame write m root x := by
  constructor
  · rintro ⟨va, level, e, hva, he, hrest⟩
    exact ⟨va, level, e, hva, by rw [← h.entry va hva]; exact he, hrest⟩
  · rintro ⟨va, level, e, hva, he, hrest⟩
    exact ⟨va, level, e, hva, by rw [h.entry va hva]; exact he, hrest⟩

theorem UserWrite.sameTree (hw : UserWrite root m m') (ha : TablesApart m root) : SameTree root m m' := by
  obtain ⟨va0, level, e, hva0, he, hV, hU, hW, hx⟩ := hw
  have hpages : ∀ va < MAXVA, ∀ p ∈ walkPages m va 2 root, ∀ x, p ≤ x → x < p + PGSIZE → m' x = m x := by
    intro va hva p hp x h1 h2
    by_contra hne
    exact ha x ⟨va0, level, e, hva0, he, hV, hU, fun _ => hW, hx x hne⟩ va hva p hp ⟨h1, h2⟩
  refine ⟨fun va hva => ?_, fun va hva => (walk_congr (hpages va hva)).2.1⟩
  obtain ⟨h1, -, h3⟩ := walk_congr (hpages va hva)
  unfold leafEntry
  rw [h1]
  rcases hs : walkSlot m va 2 root with _ | s
  · rw [Option.map_none, Option.map_none]
  · rw [Option.map_some, Option.map_some, h3 s hs]

theorem UserWrites.changed (hw : Relation.ReflTransGen (UserWrite root) m m') (ha : TablesApart m root) :
    SameTree root m m' ∧ ∀ x, m' x ≠ m x → UserFrame true m root x := by
  induction hw with
  | refl => exact ⟨⟨fun _ _ => rfl, fun _ _ => rfl⟩, fun x hx => absurd rfl hx⟩
  | @tail m1 m2 _ hstep ih =>
    obtain ⟨hsame, hch⟩ := ih
    have ha1 : TablesApart m1 root := by
      intro x hx va hva p hp
      rw [hsame.pages va hva] at hp
      exact ha x (hsame.userFrame.1 hx) va hva p hp
    have hsame1 := hstep.sameTree ha1
    refine ⟨⟨fun va hva => (hsame1.entry va hva).trans (hsame.entry va hva),
      fun va hva => (hsame1.pages va hva).trans (hsame.pages va hva)⟩, fun x hx => ?_⟩
    by_cases h1 : m2 x = m1 x
    · exact hch x (by rw [← h1]; exact hx)
    · obtain ⟨va, level, e, hva, he, hV, hU, hW, hin⟩ := hstep
      exact hsame.userFrame.1 ⟨va, level, e, hva, he, hV, hU, fun _ => hW, hin x h1⟩

theorem copyout_writes (σ : Phys) (root dstva : Nat) (src : Nat → UInt8) (len : Nat) :
    wp (copyout root dstva src len) (fun r σ' => (r = 0 ∨ r = -1) ∧ σ'.freelist = σ.freelist ∧ σ'.superpages = σ.superpages ∧
      Relation.ReflTransGen (UserWrite root) σ.mem σ'.mem) (fun _ => False) σ := by
  induction len using Nat.strong_induction_on generalizing dstva src σ with
  | _ len ih =>
    have hfail : wp (pure (-1) : PhysM Int) (fun r σ' => (r = 0 ∨ r = -1) ∧ σ'.freelist = σ.freelist ∧
        σ'.superpages = σ.superpages ∧ Relation.ReflTransGen (UserWrite root) σ.mem σ'.mem) (fun _ => False) σ :=
      wp_pure.2 ⟨.inr rfl, rfl, rfl, .refl⟩
    unfold copyout
    split
    next hlen =>
      have hoff : dstva - pgrounddown dstva < PGSIZE := by unfold pgrounddown; lia
      simp only [wp_ite]
      refine ⟨fun _ => hfail, fun hva => ?_⟩
      rw [wp_bind, wp_of_ok (walk_run (by omega))]
      rcases hs : walkSlot σ.mem (pgrounddown dstva) 2 root with _ | ⟨level, pte⟩
      · exact hfail
      · simp only [Option.map_some, wp_bind, wp_loadPte, wp_ite]
        refine ⟨fun _ => hfail, fun hW => ?_⟩
        rw [wp_of_ok walkaddr_run]
        refine ⟨fun _ => hfail, fun hpa => ?_⟩
        obtain ⟨hva', level', e, he, hV, hU, hpte⟩ := userAddr_entry hpa
        -- the entry whose permission was tested is the one that translates
        obtain ⟨rfl, rfl⟩ : level = level' ∧ loadLE σ.mem pte 8 = e := by
          rw [leafEntry, hs, Option.map_some, Option.some.injEq, Prod.mk.injEq] at he
          exact he
        rw [wp_memmoveFrom]
        refine wp_post (ih _ (by lia) _ _ _) ?_
        rintro r σ' ⟨hr, hf, hsup, hrest⟩
        refine ⟨hr, hf, hsup, .head ⟨pgrounddown dstva, level, _, hva', he, hV, hU, by simpa using hW, fun x hx => ?_⟩ hrest⟩
        by_contra hout
        refine hx (Bytes.write_outside ?_)
        rw [← hpte]
        by_contra hin
        refine hout ?_
        obtain ⟨off, rfl⟩ : ∃ off, x = pte2pa (loadLE σ.mem pte 8) + off :=
          ⟨x - pte2pa (loadLE σ.mem pte 8), by omega⟩
        exact inFrame_page (by omega)
    next => exact wp_pure.2 ⟨.inl rfl, rfl, rfl, .refl⟩

/-- Two memories with the same translations in which the frames of the user hold the same bytes. -/
structure SameUser (root : Nat) (m m' : Mem) : Prop where
  entry : ∀ va < MAXVA, leafEntry m' root va = leafEntry m root va
  bytes : ∀ x, UserFrame false m root x → m' x = m x

theorem SameUser.userAddr (h : SameUser root m m') : userAddr m' root va = userAddr m root va := by
  unfold Xv6.userAddr
  split
  · rfl
  next hva => rw [h.entry va (by omega)]

theorem SameUser.page (h : SameUser root m m') (hpa : Xv6.userAddr m root va ≠ 0) (hoff : off < PGSIZE) :
    m' (Xv6.userAddr m root va + off) = m (Xv6.userAddr m root va + off) := by
  obtain ⟨hva, level, e, he, hV, hU, hpte⟩ := userAddr_entry hpa
  refine h.bytes _ ⟨va, level, e, hva, he, hV, hU, by simp, ?_⟩
  rw [← hpte]
  exact inFrame_page hoff

theorem get_run (σ : Phys) : (get : PhysM Phys).run σ = .ok (σ, σ) := rfl

theorem copyin_reads (hS : SameUser root σ.mem τ.mem) :
    ∃ r, (copyin root dst k srcva len).run σ = .ok (r, σ) ∧ (copyin root dst k srcva len).run τ = .ok (r, τ) := by
  induction len using Nat.strong_induction_on generalizing dst k srcva with
  | _ len ih =>
    unfold copyin
    split
    next hlen =>
      have hoff : srcva - pgrounddown srcva < PGSIZE := by unfold pgrounddown; lia
      rw [run_bind_ok walkaddr_run, run_bind_ok walkaddr_run, hS.userAddr]
      split
      · exact ⟨_, rfl, rfl⟩
      next hpa =>
        have hbytes : Bytes.write dst k (min (PGSIZE - (srcva - pgrounddown srcva)) len)
              (fun i => τ.mem (userAddr σ.mem root (pgrounddown srcva) + (srcva - pgrounddown srcva) + i)) =
            Bytes.write dst k (min (PGSIZE - (srcva - pgrounddown srcva)) len)
              (fun i => σ.mem (userAddr σ.mem root (pgrounddown srcva) + (srcva - pgrounddown srcva) + i)) := by
          refine Bytes.write_congr fun i hi => ?_
          rw [Nat.add_assoc]
          exact hS.page hpa (by omega)
        rw [run_bind_ok (get_run σ), run_bind_ok (get_run τ)]
        dsimp only
        rw [hbytes]
        exact ih _ (by lia)
    next => exact ⟨_, rfl, rfl⟩

theorem copyinstrPage_congr {p : Nat} (h : ∀ i < n, m' (p + i) = m (p + i)) :
    copyinstrPage m' n p dst k = copyinstrPage m n p dst k := by
  induction n generalizing p dst k with
  | zero => rfl
  | succ n ih =>
    unfold copyinstrPage
    rw [show m' p = m p from h 0 (by omega)]
    split
    · rfl
    · refine ih fun i hi => ?_
      rw [show p + 1 + i = p + (i + 1) by omega]
      exact h (i + 1) (by omega)

theorem copyinstr_reads (hS : SameUser root σ.mem τ.mem) {max : Nat} :
    ∃ r, (copyinstr root dst k srcva max).run σ = .ok (r, σ) ∧ (copyinstr root dst k srcva max).run τ = .ok (r, τ) := by
  induction max using Nat.strong_induction_on generalizing dst k srcva with
  | _ max ih =>
    unfold copyinstr
    split
    next hmax =>
      have hoff : srcva - pgrounddown srcva < PGSIZE := by unfold pgrounddown; lia
      rw [run_bind_ok walkaddr_run, run_bind_ok walkaddr_run, hS.userAddr]
      split
      · exact ⟨_, rfl, rfl⟩
      next hpa =>
        have hpage : copyinstrPage τ.mem (min (PGSIZE - (srcva - pgrounddown srcva)) max)
              (userAddr σ.mem root (pgrounddown srcva) + (srcva - pgrounddown srcva)) dst k =
            copyinstrPage σ.mem (min (PGSIZE - (srcva - pgrounddown srcva)) max)
              (userAddr σ.mem root (pgrounddown srcva) + (srcva - pgrounddown srcva)) dst k := by
          refine copyinstrPage_congr fun i hi => ?_
          rw [Nat.add_assoc]
          exact hS.page hpa (by omega)
        rw [run_bind_ok (get_run σ), run_bind_ok (get_run τ)]
        dsimp only
        rw [hpage]
        split
        · exact ⟨_, rfl, rfl⟩
        · exact ih _ (by lia)
    next => exact ⟨_, rfl, rfl⟩

/-- For every tree and all arguments `copyout` returns, and writes page by page to frames that the tree maps at that time with
`PTE_V`, `PTE_U` and `PTE_W`.
The results of `copyin` and `copyinstr` depend on the translations and on the frames mapped with `PTE_V` and `PTE_U` only. -/
theorem user_copy_isolated (σ : Phys) (root : Nat) :
    (∀ dstva src len, ∃ r σ', (copyout root dstva src len).run σ = .ok (r, σ') ∧ (r = 0 ∨ r = -1) ∧
      σ'.freelist = σ.freelist ∧ σ'.superpages = σ.superpages ∧ Relation.ReflTransGen (UserWrite root) σ.mem σ'.mem ∧
      (TablesApart σ.mem root → ∀ x, σ'.mem x ≠ σ.mem x → UserFrame true σ.mem root x)) ∧
    (∀ τ : Phys, SameUser root σ.mem τ.mem → ∀ dst k srcva len,
      (∃ r, (copyin root dst k srcva len).run σ = .ok (r, σ) ∧ (copyin root dst k srcva len).run τ = .ok (r, τ)) ∧
      ∃ r, (copyinstr root dst k srcva len).run σ = .ok (r, σ) ∧ (copyinstr root dst k srcva len).run τ = .ok (r, τ)) := by
  refine ⟨fun dstva src len => ?_, fun τ hS dst k srcva len => ⟨copyin_reads hS, copyinstr_reads hS⟩⟩
  obtain ⟨r, σ', hrun, hr, hf, hs, hw⟩ := wp_false_iff.1 (copyout_writes σ root dstva src len)
  exact ⟨r, σ', hrun, hr, hf, hs, hw, fun ha => (UserWrites.changed hw ha).2⟩

end Xv6
