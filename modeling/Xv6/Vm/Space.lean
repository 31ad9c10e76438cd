import Mathlib.Data.Set.Basic
import Mathlib.Logic.Function.Basic
import Xv6.Vm.Code

/-!
# Address spaces

The three-level Sv39 tree of a root page, by what it maps: `l1 i` is the level-1 table below root entry `i`, `dir v` the level-1
entry of the `v`-th 2 MiB, and `pg n` the level-0 entry of the `n`-th 4 KiB. A `Space` carries its own well-formedness: no entry
below a missing table, page-table pages pairwise distinct, leaves that the MMU accepts.

`Rep m A` says that the memory `m` holds the tree `A`. It survives every write outside the page-table pages of `A`, and each of
the three ways in which `vm.c` changes an entry is an update of `A`.
-/

namespace Xv6

open Function (update update_of_ne update_self)
open Bytes (Mem fill storeLE)

inductive Dir where
  | none
  | table (p : Nat)
  | leaf (pte : Nat)
  deriving DecidableEq

/-- The page-table pages of an address space: the root, the level-1 table of the `i`-th GiB and the level-0 table
of the `v`-th 2 MiB. -/
inductive Node where
  | root
  | l1 (i : Nat)
  | l0 (v : Nat)
  deriving DecidableEq

structure Tree where
  root : Nat
  l1 : Nat → Option Nat
  dir : Nat → Dir
  pg : Nat → Option Nat

def Tree.tbl (t : Tree) : Node → Option Nat
  | .root => some t.root
  | .l1 i => t.l1 i
  | .l0 v => match t.dir v with
    | .table p => some p
    | _ => none

def PageAddr (p : Nat) : Prop := p % PGSIZE = 0 ∧ 0 < p ∧ p < 2 ^ 56

/-- A leaf entry that the MMU accepts: valid, readable or executable, writable only if readable, and with the
reserved bits clear. The frame is not at address 0. -/
structure LeafPte (w : Nat) : Prop where
  valid : hasFlag w PTE_V = true
  perm : hasFlag w PTE_R = true ∨ hasFlag w PTE_X = true
  write : hasFlag w PTE_W = true → hasFlag w PTE_R = true
  lt : w < 2 ^ 54
  pos : 0 < pte2pa w

structure SuperPte (w : Nat) : Prop extends LeafPte w where
  aligned : pte2pa w % SUPERPGSIZE = 0

structure Space extends Tree where
  l1_lt {i p : Nat} : l1 i = some p → i < 256
  dir_l1 {v : Nat} : dir v ≠ .none → ∃ p, l1 (v / 512) = some p
  pg_dir {n w : Nat} : pg n = some w → ∃ p, dir (n / 512) = .table p
  dir_leaf {v w : Nat} : dir v = .leaf w → SuperPte w
  pg_leaf {n w : Nat} : pg n = some w → LeafPte w
  tbl_page {x : Node} {p : Nat} : toTree.tbl x = some p → PageAddr p
  tbl_inj {x y : Node} {p : Nat} : toTree.tbl x = some p → toTree.tbl y = some p → x = y

variable {m m' : Mem} {A : Space} {w p i j : Nat}

theorem LeafPte.leaf (h : LeafPte w) : pteLeaf w = true := by
  unfold pteLeaf
  rcases h.perm with h | h <;> simp [h]

theorem LeafPte.pa_eq (h : LeafPte w) : pte2pa w = w / 1024 * 4096 := by
  have := h.lt
  rw [pte2pa_eq]
  omega

theorem LeafPte.pageAddr (h : LeafPte w) : PageAddr (pte2pa w) := by
  have h1 := h.pos
  have h2 := h.lt
  rw [h.pa_eq] at *
  exact ⟨by lia, h1, by omega⟩

/-- The frame that page `n` of the address space is mapped to. -/
def Space.frame (A : Space) (n : Nat) : Option Nat :=
  match A.dir (n / 512) with
  | .leaf w => some (pte2pa w + n % 512 * PGSIZE)
  | _ => (A.pg n).map pte2pa

def pteAt (m : Mem) (p i : Nat) : Nat := Bytes.loadLE m (p + 8 * i) 8

def Points (e p : Nat) : Prop := hasFlag e PTE_V = true ∧ pteLeaf e = false ∧ pte2pa e = p

structure Rep (m : Mem) (A : Space) : Prop where
  root_none {i : Nat} : i < 512 → A.l1 i = none → hasFlag (pteAt m A.root i) PTE_V = false
  root_some {i p : Nat} : A.l1 i = some p → Points (pteAt m A.root i) p
  dir_none {v p : Nat} : A.l1 (v / 512) = some p → A.dir v = .none → hasFlag (pteAt m p (v % 512)) PTE_V = false
  dir_table {v p q : Nat} : A.l1 (v / 512) = some p → A.dir v = .table q → Points (pteAt m p (v % 512)) q
  dir_leaf {v p w : Nat} : A.l1 (v / 512) = some p → A.dir v = .leaf w → pteAt m p (v % 512) = w
  pg_none {n q : Nat} : A.dir (n / 512) = .table q → A.pg n = none → hasFlag (pteAt m q (n % 512)) PTE_V = false
  pg_some {n q w : Nat} : A.dir (n / 512) = .table q → A.pg n = some w → pteAt m q (n % 512) = w

theorem pteAt_congr (hp : p % 4096 = 0) (hi : i < 512)
    (h : ∀ x, pgrounddown x = p → m' x = m x) : pteAt m' p i = pteAt m p i := by
  apply Bytes.loadLE_congr
  intro x h1 h2
  apply h
  simp only [pgrounddown, PGSIZE]
  omega

theorem pteAt_store {q : Nat} (hp : p % 4096 = 0) (hq : q % 4096 = 0) (hi : i < 512) (hj : j < 512)
    (hw : w < 2 ^ 64) :
    pteAt (storeLE m (p + 8 * i) 8 w) q j = if p = q ∧ i = j then w else pteAt m q j := by
  unfold pteAt
  split
  · rename_i h
    rw [← h.1, ← h.2, Bytes.loadLE_storeLE]; exact Nat.mod_eq_of_lt hw
  · exact Bytes.loadLE_storeLE_outside (by omega)

theorem pteAt_fill {q : Nat} {c : UInt8} (hp : p % 4096 = 0) (hq : q % 4096 = 0) (hj : j < 512) (hpq : p ≠ q) :
    pteAt (fill m p PGSIZE c) q j = pteAt m q j := by
  unfold pteAt
  exact Bytes.loadLE_write_outside (by lia)

theorem pteAt_zeroed (hj : j < 512) : pteAt (fill m p PGSIZE 0) p j = 0 :=
  Bytes.loadLE_fill_zero (by lia) (by lia)

theorem Rep.frame (h : Rep m A) (hm : ∀ x, (∃ k, A.tbl k = some (pgrounddown x)) → m' x = m x) : Rep m' A := by
  have key : ∀ {k p i}, A.tbl k = some p → i < 512 → pteAt m' p i = pteAt m p i := fun {k p i} hk hi =>
    pteAt_congr (A.tbl_page hk).1 hi fun x hx => hm x ⟨k, hx ▸ hk⟩
  have hlt : ∀ k : Nat, k % 512 < 512 := fun k => Nat.mod_lt _ (by decide)
  have hl0 : ∀ {v q}, A.dir v = .table q → A.tbl (.l0 v) = some q := by
    intro v q hd; simp [Tree.tbl, hd]
  constructor
  · intro i hi hn
    rw [key (k := .root) rfl hi]; exact h.root_none hi hn
  · intro i p hp
    rw [key (k := .root) rfl (by have := A.l1_lt hp; omega)]; exact h.root_some hp
  · intro v p hp hd
    rw [key (k := .l1 (v / 512)) hp (hlt v)]; exact h.dir_none hp hd
  · intro v p q hp hd
    rw [key (k := .l1 (v / 512)) hp (hlt v)]; exact h.dir_table hp hd
  · intro v p w hp hd
    rw [key (k := .l1 (v / 512)) hp (hlt v)]; exact h.dir_leaf hp hd
  · intro n q hd hn
    rw [key (hl0 hd) (hlt n)]; exact h.pg_none hd hn
  · intro n q w hd hn
    rw [key (hl0 hd) (hlt n)]; exact h.pg_some hd hn

def Space.Fresh (A : Space) (p : Nat) : Prop := ∀ x, A.tbl x ≠ some p

theorem tbl_update {t : Tree} {k : Node} (hk : ∀ z, z ≠ k → t.tbl z = A.tbl z)
    (hself : ∀ p, t.tbl k = some p → PageAddr p ∧ A.Fresh p) :
    (∀ {x p}, t.tbl x = some p → PageAddr p) ∧ ∀ {x y p}, t.tbl x = some p → t.tbl y = some p → x = y := by
  constructor
  · intro x p hx
    by_cases hxk : x = k
    · subst hxk; exact (hself p hx).1
    · rw [hk x hxk] at hx; exact A.tbl_page hx
  · intro x y p hx hy
    by_cases hxk : x = k <;> by_cases hyk : y = k
    · rw [hxk, hyk]
    · subst hxk
      rw [hk y hyk] at hy; exact absurd hy ((hself p hx).2 y)
    · subst hyk
      rw [hk x hxk] at hx; exact absurd hx ((hself p hy).2 x)
    · rw [hk x hxk] at hx; rw [hk y hyk] at hy
      exact A.tbl_inj hx hy

def Space.addL1 (A : Space) (i p : Nat) (hi : i < 256) (hp : PageAddr p) (hf : A.Fresh p) : Space :=
  have key : ∀ z, z ≠ .l1 i → Tree.tbl ⟨A.root, update A.l1 i (some p), A.dir, A.pg⟩ z = A.tbl z := by
    rintro (_ | j | v) hz <;> try rfl
    exact update_of_ne (fun h => hz (congrArg _ h)) _ _
  have self : ∀ q, Tree.tbl ⟨A.root, update A.l1 i (some p), A.dir, A.pg⟩ (.l1 i) = some q →
      PageAddr q ∧ A.Fresh q := by
    intro q hq
    simp only [Tree.tbl, update_self, Option.some.injEq] at hq
    subst hq; exact ⟨hp, hf⟩
  { root := A.root
    l1 := update A.l1 i (some p)
    dir := A.dir
    pg := A.pg
    l1_lt := fun {j q} h => by
      by_cases hj : j = i
      · omega
      · rw [update_of_ne hj] at h; exact A.l1_lt h
    dir_l1 := fun {v} h => by
      by_cases hv : v / 512 = i
      · exact ⟨p, by rw [hv, update_self]⟩
      · rw [update_of_ne hv]; exact A.dir_l1 h
    pg_dir := A.pg_dir
    dir_leaf := A.dir_leaf
    pg_leaf := A.pg_leaf
    tbl_page := (tbl_update key self).1
    tbl_inj := (tbl_update key self).2 }

/-- What may stand in a level-1 entry of `A` that holds no table. -/
def Space.DirOk (A : Space) : Dir → Prop
  | .none => True
  | .table p => PageAddr p ∧ A.Fresh p
  | .leaf w => SuperPte w

def Space.setDir (A : Space) (v : Nat) (d : Dir) (hl : ∃ q, A.l1 (v / 512) = some q)
    (hn : ∀ q, A.dir v ≠ .table q) (hd : A.DirOk d) : Space :=
  have key : ∀ z, z ≠ .l0 v → Tree.tbl ⟨A.root, A.l1, update A.dir v d, A.pg⟩ z = A.tbl z := by
    rintro (_ | j | u) hz <;> try rfl
    simp only [Tree.tbl]; rw [update_of_ne (fun h => hz (congrArg _ h))]
  have self : ∀ q, Tree.tbl ⟨A.root, A.l1, update A.dir v d, A.pg⟩ (.l0 v) = some q →
      PageAddr q ∧ A.Fresh q := by
    intro q hq
    simp only [Tree.tbl, update_self] at hq
    rcases d with _ | p | w <;> simp at hq
    subst hq; exact hd
  { root := A.root
    l1 := A.l1
    dir := update A.dir v d
    pg := A.pg
    l1_lt := A.l1_lt
    dir_l1 := fun {u} h => by
      by_cases hu : u = v
      · subst hu; exact hl
      · rw [update_of_ne hu] at h; exact A.dir_l1 h
    pg_dir := fun {n w} h => by
      obtain ⟨q, hq⟩ := A.pg_dir h
      by_cases hu : n / 512 = v
      · rw [hu] at hq; exact absurd hq (hn q)
      · exact ⟨q, by rw [update_of_ne hu]; exact hq⟩
    dir_leaf := fun {u w} h => by
      by_cases hu : u = v
      · subst hu
        rw [update_self] at h
        subst h; exact hd
      · rw [update_of_ne hu] at h; exact A.dir_leaf h
    pg_leaf := A.pg_leaf
    tbl_page := (tbl_update key self).1
    tbl_inj := (tbl_update key self).2 }

def Space.setPg (A : Space) (n : Nat) (o : Option Nat) (hl : ∃ q, A.dir (n / 512) = .table q)
    (ho : ∀ w, o = some w → LeafPte w) : Space :=
  have key : ∀ z, Tree.tbl ⟨A.root, A.l1, A.dir, update A.pg n o⟩ z = A.tbl z := by
    rintro (_ | j | u) <;> rfl
  { root := A.root
    l1 := A.l1
    dir := A.dir
    pg := update A.pg n o
    l1_lt := A.l1_lt
    dir_l1 := A.dir_l1
    pg_dir := fun {k w} h => by
      by_cases hk : k = n
      · subst hk; exact hl
      · rw [update_of_ne hk] at h; exact A.pg_dir h
    dir_leaf := A.dir_leaf
    pg_leaf := fun {k w} h => by
      by_cases hk : k = n
      · subst hk
        rw [update_self] at h; exact ho w h
      · rw [update_of_ne hk] at h; exact A.pg_leaf h
    tbl_page := fun {x p} h => A.tbl_page ((key x).symm.trans h)
    tbl_inj := fun {x y p} hx hy => A.tbl_inj ((key x).symm.trans hx) ((key y).symm.trans hy) }

section

variable {i p v n : Nat} {d : Dir} {o : Option Nat} {hi : i < 256} {hp : PageAddr p} {hf : A.Fresh p}
  {hl : ∃ q, A.l1 (v / 512) = some q} {hn : ∀ q, A.dir v ≠ .table q} {hd : A.DirOk d}
  {hl₀ : ∃ q, A.dir (n / 512) = .table q} {ho : ∀ w, o = some w → LeafPte w}

@[simp] theorem Space.addL1_root : (A.addL1 i p hi hp hf).root = A.root := rfl

@[simp] theorem Space.addL1_dir : (A.addL1 i p hi hp hf).dir = A.dir := rfl

theorem Space.addL1_l1 : (A.addL1 i p hi hp hf).l1 = update A.l1 i (some p) := rfl

@[simp] theorem Space.setDir_root : (A.setDir v d hl hn hd).root = A.root := rfl

@[simp] theorem Space.setDir_l1 : (A.setDir v d hl hn hd).l1 = A.l1 := rfl

@[simp] theorem Space.setDir_pg : (A.setDir v d hl hn hd).pg = A.pg := rfl

theorem Space.setDir_dir : (A.setDir v d hl hn hd).dir = update A.dir v d := rfl

@[simp] theorem Space.setPg_root : (A.setPg n o hl₀ ho).root = A.root := rfl

@[simp] theorem Space.setPg_dir : (A.setPg n o hl₀ ho).dir = A.dir := rfl

theorem Space.setPg_pg : (A.setPg n o hl₀ ho).pg = update A.pg n o := rfl

end

/-! ### The updates in memory -/

theorem points_new (hp : PageAddr p) : Points (pa2pte p ||| PTE_V) p := by
  have e : pa2pte p ||| PTE_V = mkPte p 0 := by unfold mkPte; rw [Nat.or_zero]
  have hflag : ∀ k < 10, hasFlag (mkPte p 0) (2 ^ k) = hasFlag 1 (2 ^ k) := fun k hk =>
    hasFlag_mkPte (by decide) hk
  refine ⟨?_, ?_, ?_⟩
  · rw [e]; exact hflag 0 (by decide)
  · have hR : hasFlag (mkPte p 0) PTE_R = false := hflag 1 (by decide)
    have hW : hasFlag (mkPte p 0) PTE_W = false := hflag 2 (by decide)
    have hX : hasFlag (mkPte p 0) PTE_X = false := hflag 3 (by decide)
    rw [e, pteLeaf, hR, hW, hX]; rfl
  · rw [e]; exact mkPte_pa (by decide) hp.1 hp.2.2

theorem new_lt (hp : PageAddr p) : pa2pte p ||| PTE_V < 2 ^ 64 := by
  have h : mkPte p 0 < 2 ^ 64 := mkPte_lt (by decide) hp.2.2
  unfold mkPte at h; rwa [Nat.or_zero] at h

theorem pteAt_zero_store {q r : Nat} (hp : p % 4096 = 0) (hq : q % 4096 = 0) (hr : r % 4096 = 0)
    (hi : i < 512) (hj : j < 512) (hw : w < 2 ^ 64) :
    pteAt (storeLE (fill m p PGSIZE 0) (q + 8 * i) 8 w) r j =
      if q = r ∧ i = j then w else if p = r then 0 else pteAt m r j := by
  have h : pteAt (fill m p PGSIZE 0) r j = if p = r then 0 else pteAt m r j := by
    split
    · subst_vars; exact pteAt_zeroed hj
    · exact pteAt_fill hp hr hj (by assumption)
  rw [pteAt_store hq hr hi hj hw, h]

theorem Rep.addL1 (h : Rep m A) (hi : i < 256) (hn : A.l1 i = none) (hp : PageAddr p) (hf : A.Fresh p) :
    Rep (storeLE (fill m p PGSIZE 0) (A.root + 8 * i) 8 (pa2pte p ||| PTE_V)) (A.addL1 i p hi hp hf) := by
  have hlt : ∀ k : Nat, k % 512 < 512 := fun k => Nat.mod_lt _ (by decide)
  have hroot := (A.tbl_page (x := .root) rfl).1
  -- the entries of an old page-table page other than the root entry `i` stay
  have old : ∀ {k q j}, A.tbl k = some q → j < 512 → (k = .root → j ≠ i) →
      pteAt (storeLE (fill m p PGSIZE 0) (A.root + 8 * i) 8 (pa2pte p ||| PTE_V)) q j = pteAt m q j := by
    intro k q j hk hj hne
    rw [pteAt_zero_store hp.1 hroot (A.tbl_page hk).1 (by omega) hj (new_lt hp), if_neg, if_neg]
    · rintro rfl; exact hf k hk
    · rintro ⟨rfl, rfl⟩; exact hne (A.tbl_inj hk rfl) rfl
  have hdir : ∀ {v}, v / 512 = i → A.dir v = .none := by
    intro v hv
    by_contra hc
    obtain ⟨q, hq⟩ := A.dir_l1 hc
    rw [hv, hn] at hq; cases hq
  constructor
  · intro j hj hnj
    have hji : j ≠ i := by rintro rfl; simp [Space.addL1_l1] at hnj
    rw [Space.addL1_l1, update_of_ne hji] at hnj
    rw [Space.addL1_root, old (k := .root) rfl hj (fun _ => hji)]; exact h.root_none hj hnj
  · intro j q hq
    by_cases hji : j = i
    · subst hji
      rw [Space.addL1_l1, update_self, Option.some.injEq] at hq
      rw [Space.addL1_root, pteAt_zero_store hp.1 hroot hroot (by omega) (by omega) (new_lt hp),
        if_pos ⟨rfl, rfl⟩, ← hq]
      exact points_new hp
    · rw [Space.addL1_l1, update_of_ne hji] at hq
      have := A.l1_lt hq
      rw [Space.addL1_root, old (k := .root) rfl (by omega) (fun _ => hji)]; exact h.root_some hq
  · intro v q hq hd
    by_cases hv : v / 512 = i
    · rw [Space.addL1_l1, hv, update_self, Option.some.injEq] at hq
      subst hq
      rw [pteAt_zero_store hp.1 hroot hp.1 (by omega) (hlt v) (new_lt hp), if_neg, if_pos rfl]
      · rfl
      · rintro ⟨he, -⟩; exact hf .root (congrArg some he)
    · rw [Space.addL1_l1, update_of_ne hv] at hq
      rw [old (k := .l1 (v / 512)) hq (hlt v) (by simp)]; exact h.dir_none hq hd
  · intro v q r hq hd
    have hv : v / 512 ≠ i := fun hv => by rw [Space.addL1_dir, hdir hv] at hd; cases hd
    rw [Space.addL1_l1, update_of_ne hv] at hq
    rw [old (k := .l1 (v / 512)) hq (hlt v) (by simp)]; exact h.dir_table hq hd
  · intro v q w hq hd
    have hv : v / 512 ≠ i := fun hv => by rw [Space.addL1_dir, hdir hv] at hd; cases hd
    rw [Space.addL1_l1, update_of_ne hv] at hq
    rw [old (k := .l1 (v / 512)) hq (hlt v) (by simp)]; exact h.dir_leaf hq hd
  · intro n q hd hnone
    have hk : A.tbl (.l0 (n / 512)) = some q := by simp only [Space.addL1_dir] at hd; simp [Tree.tbl, hd]
    rw [old hk (hlt n) (by simp)]; exact h.pg_none hd hnone
  · intro n q w hd hsome
    have hk : A.tbl (.l0 (n / 512)) = some q := by simp only [Space.addL1_dir] at hd; simp [Tree.tbl, hd]
    rw [old hk (hlt n) (by simp)]; exact h.pg_some hd hsome

theorem Space.tbl_l0 {v q : Nat} (h : A.dir v = .table q) : A.tbl (.l0 v) = some q := by simp [Tree.tbl, h]

/-- A change of the level-1 entry `v` in memory is a change of `dir v`: the other entries stay, and so does the
level-0 table at `v`, which is new or absent. -/
theorem Rep.setDir_of (h : Rep m A) {v q : Nat} {d : Dir} (hq : A.l1 (v / 512) = some q)
    (hn : ∀ q, A.dir v ≠ .table q) (hd : A.DirOk d)
    (old : ∀ {k r j}, A.tbl k = some r → j < 512 → (k = .l1 (v / 512) → j ≠ v % 512) → pteAt m' r j = pteAt m r j)
    (new_none : d = .none → hasFlag (pteAt m' q (v % 512)) PTE_V = false)
    (new_table : ∀ p, d = .table p → Points (pteAt m' q (v % 512)) p ∧ ∀ j < 512, pteAt m' p j = 0)
    (new_leaf : ∀ w, d = .leaf w → pteAt m' q (v % 512) = w) : Rep m' (A.setDir v d ⟨q, hq⟩ hn hd) := by
  have hlt : ∀ k : Nat, k % 512 < 512 := fun k => Nat.mod_lt _ (by decide)
  have oldDir : ∀ {u r}, u ≠ v → A.l1 (u / 512) = some r → pteAt m' r (u % 512) = pteAt m r (u % 512) := by
    intro u r hu hr
    apply old (k := .l1 (u / 512)) hr (hlt u)
    intro hk hj
    rw [Node.l1.injEq] at hk
    omega
  have hpg : ∀ {n}, n / 512 = v → A.pg n = none := by
    intro n hv
    by_contra hc
    obtain ⟨w, hw⟩ := Option.ne_none_iff_exists'.1 hc
    obtain ⟨p, hp⟩ := A.pg_dir hw
    rw [hv] at hp; exact hn p hp
  constructor
  · intro j hj hnj
    rw [Space.setDir_root, old (k := .root) rfl hj (by simp)]; exact h.root_none hj hnj
  · intro j r hr
    have := A.l1_lt hr
    rw [Space.setDir_root, old (k := .root) rfl (by omega) (by simp)]; exact h.root_some hr
  · intro u r hr hu
    by_cases huv : u = v
    · subst huv
      rw [Space.setDir_dir, update_self] at hu
      rw [Space.setDir_l1, hq, Option.some.injEq] at hr
      rw [← hr]; exact new_none hu
    · rw [Space.setDir_dir, update_of_ne huv] at hu
      rw [oldDir huv hr]; exact h.dir_none hr hu
  · intro u r p hr hu
    by_cases huv : u = v
    · subst huv
      rw [Space.setDir_dir, update_self] at hu
      rw [Space.setDir_l1, hq, Option.some.injEq] at hr
      rw [← hr]; exact (new_table p hu).1
    · rw [Space.setDir_dir, update_of_ne huv] at hu
      rw [oldDir huv hr]; exact h.dir_table hr hu
  · intro u r w hr hu
    by_cases huv : u = v
    · subst huv
      rw [Space.setDir_dir, update_self] at hu
      rw [Space.setDir_l1, hq, Option.some.injEq] at hr
      rw [← hr]; exact new_leaf w hu
    · rw [Space.setDir_dir, update_of_ne huv] at hu
      rw [oldDir huv hr]; exact h.dir_leaf hr hu
  · intro n r hr hnone
    by_cases huv : n / 512 = v
    · rw [Space.setDir_dir, huv, update_self] at hr
      rw [(new_table r hr).2 _ (hlt n)]; rfl
    · rw [Space.setDir_dir, update_of_ne huv] at hr
      rw [old (Space.tbl_l0 hr) (hlt n) (by simp)]; exact h.pg_none hr hnone
  · intro n r w hr hsome
    by_cases huv : n / 512 = v
    · rw [Space.setDir_pg, hpg huv] at hsome; cases hsome
    · rw [Space.setDir_dir, update_of_ne huv] at hr
      rw [old (Space.tbl_l0 hr) (hlt n) (by simp)]; exact h.pg_some hr hsome

theorem Rep.addL0 (h : Rep m A) {v q : Nat} (hq : A.l1 (v / 512) = some q) (hn : ∀ q, A.dir v ≠ .table q)
    (hp : PageAddr p) (hf : A.Fresh p) :
    Rep (storeLE (fill m p PGSIZE 0) (q + 8 * (v % 512)) 8 (pa2pte p ||| PTE_V))
      (A.setDir v (.table p) ⟨q, hq⟩ hn ⟨hp, hf⟩) := by
  have hqp : q % 4096 = 0 := (A.tbl_page (x := .l1 (v / 512)) hq).1
  have hlt : v % 512 < 512 := Nat.mod_lt _ (by decide)
  apply h.setDir_of hq hn
  · intro k r j hk hj hne
    rw [pteAt_zero_store hp.1 hqp (A.tbl_page hk).1 hlt hj (new_lt hp), if_neg, if_neg]
    · rintro rfl; exact hf k hk
    · rintro ⟨rfl, rfl⟩; exact hne (A.tbl_inj hk hq) rfl
  · intro hc; cases hc
  · intro r hr
    cases hr
    refine ⟨?_, fun j hj => ?_⟩
    · rw [pteAt_zero_store hp.1 hqp hqp hlt hlt (new_lt hp), if_pos ⟨rfl, rfl⟩]; exact points_new hp
    · rw [pteAt_zero_store hp.1 hqp hp.1 hlt hj (new_lt hp), if_neg, if_pos rfl]
      rintro ⟨he, -⟩; exact hf (.l1 (v / 512)) (he ▸ hq)
  · intro w hc; cases hc

theorem Rep.setSuper (h : Rep m A) {v q : Nat} (hq : A.l1 (v / 512) = some q) (hn : ∀ q, A.dir v ≠ .table q)
    (hw : SuperPte w) :
    Rep (storeLE m (q + 8 * (v % 512)) 8 w) (A.setDir v (.leaf w) ⟨q, hq⟩ hn hw) := by
  have hqp : q % 4096 = 0 := (A.tbl_page (x := .l1 (v / 512)) hq).1
  have hlt : v % 512 < 512 := Nat.mod_lt _ (by decide)
  have hw64 : w < 2 ^ 64 := by have := hw.lt; omega
  apply h.setDir_of hq hn
  · intro k r j hk hj hne
    rw [pteAt_store hqp (A.tbl_page hk).1 hlt hj hw64, if_neg]
    rintro ⟨rfl, rfl⟩; exact hne (A.tbl_inj hk hq) rfl
  · intro hc; cases hc
  · intro r hc; cases hc
  · intro u hu
    cases hu
    rw [pteAt_store hqp hqp hlt hlt hw64, if_pos ⟨rfl, rfl⟩]

theorem Rep.clearSuper (h : Rep m A) {v q : Nat} (hq : A.l1 (v / 512) = some q) (hn : ∀ q, A.dir v ≠ .table q) :
    Rep (storeLE m (q + 8 * (v % 512)) 8 0) (A.setDir v .none ⟨q, hq⟩ hn trivial) := by
  have hqp : q % 4096 = 0 := (A.tbl_page (x := .l1 (v / 512)) hq).1
  have hlt : v % 512 < 512 := Nat.mod_lt _ (by decide)
  apply h.setDir_of hq hn
  · intro k r j hk hj hne
    rw [pteAt_store hqp (A.tbl_page hk).1 hlt hj (by decide), if_neg]
    rintro ⟨rfl, rfl⟩; exact hne (A.tbl_inj hk hq) rfl
  · intro _
    rw [pteAt_store hqp hqp hlt hlt (by decide), if_pos ⟨rfl, rfl⟩]; rfl
  · intro r hc; cases hc
  · intro u hc; cases hc

theorem Rep.setPg (h : Rep m A) {n q : Nat} {o : Option Nat} (hq : A.dir (n / 512) = .table q)
    (ho : ∀ w, o = some w → LeafPte w) (hw : w = o.getD 0) :
    Rep (storeLE m (q + 8 * (n % 512)) 8 w) (A.setPg n o ⟨q, hq⟩ ho) := by
  have hqp : q % 4096 = 0 := (A.tbl_page (Space.tbl_l0 hq)).1
  have hlt : ∀ k : Nat, k % 512 < 512 := fun k => Nat.mod_lt _ (by decide)
  have hw64 : w < 2 ^ 64 := by
    rcases o with _ | u
    · simp [hw]
    · have := (ho u rfl).lt
      simp only [Option.getD_some] at hw; omega
  have old : ∀ {k r j}, A.tbl k = some r → j < 512 → (k = .l0 (n / 512) → j ≠ n % 512) →
      pteAt (storeLE m (q + 8 * (n % 512)) 8 w) r j = pteAt m r j := by
    intro k r j hk hj hne
    rw [pteAt_store hqp (A.tbl_page hk).1 (hlt n) hj hw64, if_neg]
    rintro ⟨rfl, rfl⟩; exact hne (A.tbl_inj hk (Space.tbl_l0 hq)) rfl
  have oldPg : ∀ {k r}, k ≠ n → A.dir (k / 512) = .table r →
      pteAt (storeLE m (q + 8 * (n % 512)) 8 w) r (k % 512) = pteAt m r (k % 512) := by
    intro k r hk hr
    apply old (Space.tbl_l0 hr) (hlt k)
    intro he hj
    rw [Node.l0.injEq] at he
    omega
  constructor
  · intro j hj hnj
    rw [Space.setPg_root, old (k := .root) rfl hj (by simp)]; exact h.root_none hj hnj
  · intro j r hr
    have := A.l1_lt hr
    rw [Space.setPg_root, old (k := .root) rfl (by omega) (by simp)]; exact h.root_some hr
  · intro u r hr hu
    rw [old (k := .l1 (u / 512)) hr (hlt u) (by simp)]; exact h.dir_none hr hu
  · intro u r p hr hu
    rw [old (k := .l1 (u / 512)) hr (hlt u) (by simp)]; exact h.dir_table hr hu
  · intro u r x hr hu
    rw [old (k := .l1 (u / 512)) hr (hlt u) (by simp)]; exact h.dir_leaf hr hu
  · intro k r hr hnone
    by_cases hk : k = n
    · subst hk
      rw [Space.setPg_pg, update_self] at hnone
      rw [Space.setPg_dir, hq, Dir.table.injEq] at hr
      rw [← hr, pteAt_store hqp hqp (hlt k) (hlt k) hw64, if_pos ⟨rfl, rfl⟩, hw, hnone]; rfl
    · rw [Space.setPg_pg, update_of_ne hk] at hnone
      rw [oldPg hk hr]; exact h.pg_none hr hnone
  · intro k r x hr hsome
    by_cases hk : k = n
    · subst hk
      rw [Space.setPg_pg, update_self] at hsome
      rw [Space.setPg_dir, hq, Dir.table.injEq] at hr
      rw [← hr, pteAt_store hqp hqp (hlt k) (hlt k) hw64, if_pos ⟨rfl, rfl⟩, hw, hsome]; rfl
    · rw [Space.setPg_pg, update_of_ne hk] at hsome
      rw [oldPg hk hr]; exact h.pg_some hr hsome

def Space.empty (root : Nat) (h : PageAddr root) : Space where
  root := root
  l1 := fun _ => none
  dir := fun _ => .none
  pg := fun _ => none
  l1_lt hc := by cases hc
  dir_l1 hc := absurd rfl hc
  pg_dir hc := by cases hc
  dir_leaf hc := by cases hc
  pg_leaf hc := by cases hc
  tbl_page {x p} hx := by
    rcases x with _ | i | v <;> simp [Tree.tbl] at hx
    exact hx ▸ h
  tbl_inj {x y p} hx hy := by
    rcases x with _ | i | v <;> rcases y with _ | j | u <;> simp [Tree.tbl] at hx hy ⊢

theorem Rep.empty {root : Nat} (h : PageAddr root) : Rep (fill m root PGSIZE 0) (Space.empty root h) where
  root_none hi _ := by
    rw [show (Space.empty root h).root = root from rfl, pteAt_zeroed hi]; rfl
  root_some hc := by cases hc
  dir_none hc := by cases hc
  dir_table hc := by cases hc
  dir_leaf hc := by cases hc
  pg_none hc := by cases hc
  pg_some hc := by cases hc

end Xv6
