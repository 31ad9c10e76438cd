import Xv6.Vm.Walk

/-!
# The page table as a finite map

What the MMU looks up in a tree of page-table pages, whatever its leaves are. A `Skeleton` names the page-table pages of a tree,
and `Skeleton.Holds` says that the entries of a memory link them so. `mappages` and `supermappages` are then updates of a finite
map: they change the lookups of the range that they map, as far as they get, and no other lookup.
-/

namespace Xv6

open Function (update update_of_ne update_self)
open Bytes (Mem storeLE)
open Hoare

/-- What the MMU makes of an entry in which the page walk ends at the given level. -/
def mmuLeaf (level e : Nat) : Option (Nat × Nat) :=
  if hasFlag e PTE_V && (hasFlag e PTE_R || hasFlag e PTE_X && !hasFlag e PTE_W) &&
      e / 1024 % 2 ^ 44 % 2 ^ (9 * level) == 0 then some (level, e)
  else none

/-- The Sv39 lookup of `va`: the physical address and the flags of the leaf. -/
def lookup (m : Mem) (root va : Nat) : Option (Nat × Nat) :=
  if va < 2 ^ 38 ∨ 2 ^ 64 - 2 ^ 38 ≤ va ∧ va < 2 ^ 64 then
    (sv39Leaf m va 2 root).map fun (level, e) => (e / 1024 % 2 ^ 44 * 4096 + va % 2 ^ (12 + 9 * level), pteFlags e)
  else none

/-- The page-table pages of a tree: the root, the level-1 table of the `i`-th GiB and the level-0 table of the `v`-th
2 MiB. -/
structure Skeleton where
  root : Nat
  l1 : Nat → Option Nat
  l0 : Nat → Option Nat

variable {m m' : Mem} {T : Skeleton} {σ : Phys} {E : String → Prop} {i k n p q v w va : Nat} {level e a j r u : Nat}
  {x y : Node}

namespace Skeleton

def tbl (T : Skeleton) : Node → Option Nat
  | .root => some T.root
  | .l1 i => T.l1 i
  | .l0 v => T.l0 v

/-- The memory holds the tree: the page-table pages are aligned and pairwise distinct, and their entries link them. -/
structure Holds (T : Skeleton) (m : Mem) : Prop where
  l1_lt {i p : Nat} : T.l1 i = some p → i < 256
  l0_l1 {v q : Nat} : T.l0 v = some q → ∃ p, T.l1 (v / 512) = some p
  page {x : Node} {p : Nat} : T.tbl x = some p → PageAddr p
  inj {x y : Node} {p : Nat} : T.tbl x = some p → T.tbl y = some p → x = y
  root_none {i : Nat} : i < 512 → T.l1 i = none → hasFlag (pteAt m T.root i) PTE_V = false
  root_some {i p : Nat} : T.l1 i = some p → Points (pteAt m T.root i) p
  dir_some {v p q : Nat} : T.l1 (v / 512) = some p → T.l0 v = some q → Points (pteAt m p (v % 512)) q
  dir_none {v p : Nat} : T.l1 (v / 512) = some p → T.l0 v = none → hasFlag (pteAt m p (v % 512)) PTE_V = true →
    pteLeaf (pteAt m p (v % 512)) = true

def leaf (T : Skeleton) (m : Mem) (n : Nat) : Option (Nat × Nat) :=
  (T.l1 (n / 512 / 512)).bind fun p =>
    match T.l0 (n / 512) with
    | some q => mmuLeaf 0 (pteAt m q (n % 512))
    | none => mmuLeaf 1 (pteAt m p (n / 512 % 512))

def Fresh (T : Skeleton) (p : Nat) : Prop := ∀ x, T.tbl x ≠ some p

end Skeleton

theorem mod_lt_512 (k : Nat) : k % 512 < 512 := Nat.mod_lt _ (by decide)

theorem mmuLeaf_invalid (h : hasFlag e PTE_V = false) : mmuLeaf level e = none := by
  simp [mmuLeaf, h]

theorem sv39Leaf_ends (he : pteAt m a (va / 2 ^ (12 + 9 * level) % 512) = e)
    (h : level = 0 ∨ (hasFlag e PTE_V = true → pteLeaf e = true)) : sv39Leaf m va level a = mmuLeaf level e := by
  unfold sv39Leaf mmuLeaf
  simp only [he]
  cases hV : hasFlag e PTE_V
  · simp
  · cases hR : hasFlag e PTE_R <;> cases hW : hasFlag e PTE_W <;> cases hX : hasFlag e PTE_X <;> simp
    -- no permission bit at all: then the level is 0
    rcases h with rfl | h
    · rfl
    · have := h hV
      simp [pteLeaf, hR, hW, hX] at this

theorem sv39Leaf_next (hp : PageAddr p)
    (h : Points (pteAt m a (va / 2 ^ (12 + 9 * (level + 1)) % 512)) p) :
    sv39Leaf m va (level + 1) a = sv39Leaf m va level p := by
  obtain ⟨hV, hl, hpa⟩ := h
  generalize he : pteAt m a (va / 2 ^ (12 + 9 * (level + 1)) % 512) = e at hV hl hpa
  simp only [pteLeaf, Bool.or_eq_false_iff] at hl
  obtain ⟨⟨hR, hW⟩, hX⟩ := hl
  have hnext : e / 1024 % 2 ^ 44 * 4096 = p := by
    have := hp.2.2
    rw [pte2pa_eq] at hpa
    omega
  rw [sv39Leaf]
  simp only [he, hV, hR, hW, hX, hnext, Bool.not_true, Bool.not_false, Bool.and_false, Bool.or_false, Bool.false_eq_true,
    if_false]

namespace Skeleton

theorem Holds.sv39Leaf_eq (h : T.Holds m) (hva : va < MAXVA) : sv39Leaf m va 2 T.root = T.leaf m (va / PGSIZE) := by
  have h2 : va / 2 ^ (12 + 9 * 2) % 512 = va / PGSIZE / 512 / 512 := by simp only [MAXVA, PGSIZE] at *; omega
  have h1 : va / 2 ^ (12 + 9 * 1) % 512 = va / PGSIZE / 512 % 512 := by simp only [PGSIZE]; omega
  have h0 : va / 2 ^ (12 + 9 * 0) % 512 = va / PGSIZE % 512 := by simp only [PGSIZE]; omega
  have hlt : va / PGSIZE / 512 / 512 < 512 := by simp only [MAXVA, PGSIZE] at *; omega
  rcases hp : T.l1 (va / PGSIZE / 512 / 512) with _ | p
  · have hv := h.root_none hlt hp
    rw [sv39Leaf_ends rfl (.inr fun hV => by rw [h2, hv] at hV; cases hV), h2, mmuLeaf_invalid hv]
    simp [leaf, hp]
  · have hpage := h.page (x := .l1 _) hp
    have hroot := h.root_some hp
    rw [← h2] at hroot
    rw [sv39Leaf_next hpage hroot]
    rcases hq : T.l0 (va / PGSIZE / 512) with _ | q
    · rw [sv39Leaf_ends rfl (.inr (by rw [h1]; exact h.dir_none hp hq)), h1]
      simp [leaf, hp, hq]
    · have hdir := h.dir_some hp hq
      rw [← h1] at hdir
      rw [sv39Leaf_next (h.page (x := .l0 _) hq) hdir, sv39Leaf_ends rfl (.inl rfl), h0]
      simp [leaf, hp, hq]

theorem Holds.lookup_eq (h : T.Holds m) (hva : va < MAXVA) : lookup m T.root va =
    (T.leaf m (va / PGSIZE)).map fun (level, e) => (e / 1024 % 2 ^ 44 * 4096 + va % 2 ^ (12 + 9 * level), pteFlags e) := by
  unfold lookup
  rw [if_pos (.inl (by simpa using hva)), h.sv39Leaf_eq hva]

theorem Holds.lookup_high (h : T.Holds m) (hva : MAXVA ≤ va) : lookup m T.root va = none := by
  unfold lookup
  split
  · have hi : 256 ≤ va / 2 ^ (12 + 9 * 2) % 512 := by simp only [MAXVA] at *; omega
    have hnone : T.l1 (va / 2 ^ (12 + 9 * 2) % 512) = none := by
      rcases hl : T.l1 (va / 2 ^ (12 + 9 * 2) % 512) with _ | p
      · rfl
      · exact absurd (h.l1_lt hl) (by omega)
    have hv := h.root_none (mod_lt_512 _) hnone
    rw [sv39Leaf_ends rfl (.inr fun hV => by rw [hv] at hV; cases hV), mmuLeaf_invalid hv]
    rfl
  · rfl

/-! ### Writes -/

theorem leaf_congr (h1 : ∀ r, T.l1 (n / 512 / 512) = some r → pteAt m' r (n / 512 % 512) = pteAt m r (n / 512 % 512))
    (h0 : ∀ r, T.l0 (n / 512) = some r → pteAt m' r (n % 512) = pteAt m r (n % 512)) : T.leaf m' n = T.leaf m n := by
  unfold leaf
  rcases hr : T.l1 (n / 512 / 512) with _ | r
  · rfl
  · rcases hs : T.l0 (n / 512) with _ | s
    · simp only [Option.bind_some, h1 r hr]
    · simp only [Option.bind_some, h0 s hs]

theorem Holds.congr (h : T.Holds m)
    (hm : ∀ {x p j}, T.tbl x = some p → j < 512 → pteAt m' p j = pteAt m p j) :
    T.Holds m' ∧ ∀ n, T.leaf m' n = T.leaf m n := by
  refine ⟨⟨h.l1_lt, h.l0_l1, h.page, h.inj, ?_, ?_, ?_, ?_⟩, fun n => ?_⟩
  · intro i hi hn
    rw [hm (x := .root) rfl hi]
    exact h.root_none hi hn
  · intro i p hp
    rw [hm (x := .root) rfl (Nat.lt_trans (h.l1_lt hp) (by decide))]
    exact h.root_some hp
  · intro v p q hp hq
    rw [hm (x := .l1 _) hp (mod_lt_512 v)]
    exact h.dir_some hp hq
  · intro v p hp hq
    rw [hm (x := .l1 _) hp (mod_lt_512 v)]
    exact h.dir_none hp hq
  · unfold leaf
    rcases hp : T.l1 (n / 512 / 512) with _ | p
    · simp only [Option.bind_none]
    · simp only [Option.bind_some]
      rcases hq : T.l0 (n / 512) with _ | q
      · simp only [hm (x := .l1 _) hp (mod_lt_512 (n / 512))]
      · simp only [hm (x := .l0 _) hq (mod_lt_512 n)]

theorem Holds.frame (h : T.Holds m) (hm : ∀ x, (∃ k, T.tbl k = some (pgrounddown x)) → m' x = m x) :
    T.Holds m' ∧ ∀ n, T.leaf m' n = T.leaf m n :=
  h.congr fun {x _ _} hx hj => pteAt_congr (h.page hx).1 hj fun y hy => hm y ⟨x, hy ▸ hx⟩

def withL1 (T : Skeleton) (i p : Nat) : Skeleton := { T with l1 := update T.l1 i (some p) }

def withL0 (T : Skeleton) (v p : Nat) : Skeleton := { T with l0 := update T.l0 v (some p) }

section

@[simp] theorem withL1_root : (T.withL1 i p).root = T.root := rfl

@[simp] theorem withL1_l0 : (T.withL1 i p).l0 = T.l0 := rfl

theorem withL1_l1 : (T.withL1 i p).l1 = update T.l1 i (some p) := rfl

@[simp] theorem withL0_root : (T.withL0 v p).root = T.root := rfl

@[simp] theorem withL0_l1 : (T.withL0 v p).l1 = T.l1 := rfl

theorem withL0_l0 : (T.withL0 v p).l0 = update T.l0 v (some p) := rfl

theorem withL1_l1_cases (h : (T.withL1 i p).l1 j = some r) : j = i ∧ r = p ∨ j ≠ i ∧ T.l1 j = some r := by
  rw [withL1_l1] at h
  by_cases hj : j = i
  · subst hj
    rw [update_self, Option.some.injEq] at h
    exact .inl ⟨rfl, h.symm⟩
  · rw [update_of_ne hj] at h
    exact .inr ⟨hj, h⟩

theorem withL0_l0_cases (h : (T.withL0 v p).l0 u = some r) : u = v ∧ r = p ∨ u ≠ v ∧ T.l0 u = some r := by
  rw [withL0_l0] at h
  by_cases hu : u = v
  · subst hu
    rw [update_self, Option.some.injEq] at h
    exact .inl ⟨rfl, h.symm⟩
  · rw [update_of_ne hu] at h
    exact .inr ⟨hu, h⟩

theorem withL1_tbl_cases (h : (T.withL1 i p).tbl x = some r) : x = .l1 i ∧ r = p ∨ T.tbl x = some r := by
  rcases x with _ | j | u
  · exact .inr h
  · rcases withL1_l1_cases h with ⟨rfl, rfl⟩ | ⟨-, h⟩
    · exact .inl ⟨rfl, rfl⟩
    · exact .inr h
  · exact .inr h

theorem withL0_tbl_cases (h : (T.withL0 v p).tbl x = some r) : x = .l0 v ∧ r = p ∨ T.tbl x = some r := by
  rcases x with _ | j | u
  · exact .inr h
  · exact .inr h
  · rcases withL0_l0_cases h with ⟨rfl, rfl⟩ | ⟨-, h⟩
    · exact .inl ⟨rfl, rfl⟩
    · exact .inr h

end

theorem Holds.tbl_add {T' : Skeleton} (h : T.Holds m) (hp : PageAddr p) (hf : T.Fresh p)
    (hT : ∀ {x r}, T'.tbl x = some r → x = y ∧ r = p ∨ T.tbl x = some r) :
    (∀ {x r}, T'.tbl x = some r → PageAddr r) ∧ ∀ {x z r}, T'.tbl x = some r → T'.tbl z = some r → x = z := by
  constructor
  · intro x r hr
    rcases hT hr with ⟨-, rfl⟩ | hr
    · exact hp
    · exact h.page hr
  · intro x z r hx hz
    rcases hT hx with ⟨rfl, rfl⟩ | hx' <;> rcases hT hz with ⟨rfl, hr⟩ | hz'
    · rfl
    · exact absurd hz' (hf z)
    · exact absurd (hr ▸ hx') (hf x)
    · exact h.inj hx' hz'

theorem Holds.slot_iff (h : T.Holds m) (hx : T.tbl x = some r) (hy : T.tbl y = some q) :
    q = r ∧ i = j ↔ x = y ∧ j = i := by
  constructor
  · rintro ⟨rfl, rfl⟩
    exact ⟨h.inj hx hy, rfl⟩
  · rintro ⟨rfl, rfl⟩
    exact ⟨Option.some.inj (hy.symm.trans hx), rfl⟩

theorem dir_slot_iff : Node.l1 (u / 512) = .l1 (v / 512) ∧ u % 512 = v % 512 ↔ u = v := by
  rw [Node.l1.injEq]
  omega

section

variable (h : T.Holds m)
include h

/-- The entries after a page at `p` that lies outside the tree has been zeroed and an entry been stored at index `i` of node `y`. -/
theorem Holds.hung (hp : PageAddr p) (hf : T.Fresh p) (hq : T.tbl y = some q) (hi : i < 512)
    (hm : m' = storeLE (Bytes.fill m p PGSIZE 0) (q + 8 * i) 8 (pa2pte p ||| PTE_V)) :
    (∀ {x r j}, T.tbl x = some r → j < 512 → pteAt m' r j = if x = y ∧ j = i then pa2pte p ||| PTE_V else pteAt m r j) ∧
    ∀ {j}, j < 512 → pteAt m' p j = 0 := by
  have hentry : ∀ {r j}, r % 4096 = 0 → j < 512 → pteAt m' r j =
      if q = r ∧ i = j then pa2pte p ||| PTE_V else if p = r then 0 else pteAt m r j := fun hr hj =>
    hm ▸ pteAt_zero_store hp.1 (h.page hq).1 hr hi hj (new_lt hp)
  refine ⟨fun {x r j} hx hj => ?_, fun hj => ?_⟩
  · have hne : p ≠ r := fun he => hf x (he ▸ hx)
    rw [hentry (h.page hx).1 hj, if_neg hne]
    exact if_congr (h.slot_iff hx hq) rfl rfl
  · rw [hentry hp.1 hj, if_neg fun hc : q = p ∧ i = _ => hf y (hc.1 ▸ hq), if_pos rfl]

theorem Holds.addL1 (hi : i < 256) (hn : T.l1 i = none) (hp : PageAddr p) (hf : T.Fresh p)
    (hm : m' = storeLE (Bytes.fill m p PGSIZE 0) (T.root + 8 * i) 8 (pa2pte p ||| PTE_V)) :
    (T.withL1 i p).Holds m' ∧ ∀ n, (T.withL1 i p).leaf m' n = T.leaf m n := by
  obtain ⟨hentry, new⟩ := h.hung (y := .root) hp hf rfl (by omega) hm
  have below : ∀ {x r j}, T.tbl x = some r → j < 512 → x ≠ .root → pteAt m' r j = pteAt m r j := fun hx hj hne => by
    rw [hentry hx hj, if_neg fun hc => hne hc.1]
  have hl0 : ∀ {v}, v / 512 = i → T.l0 v = none := by
    intro v hv
    rcases hq : T.l0 v with _ | q
    · rfl
    · obtain ⟨r, hr⟩ := h.l0_l1 hq
      rw [hv, hn] at hr
      cases hr
  refine ⟨⟨?_, ?_, (h.tbl_add hp hf withL1_tbl_cases).1, (h.tbl_add hp hf withL1_tbl_cases).2, ?_, ?_, ?_, ?_⟩, fun n => ?_⟩
  · intro j r hr
    rcases withL1_l1_cases hr with ⟨rfl, -⟩ | ⟨-, hr⟩
    · exact hi
    · exact h.l1_lt hr
  · intro u r hr
    rw [withL1_l0] at hr
    obtain ⟨s, hs⟩ := h.l0_l1 hr
    refine ⟨s, ?_⟩
    rwa [withL1_l1, update_of_ne]
    intro hc
    rw [hl0 hc] at hr
    cases hr
  · intro j hj hnone
    have hji : j ≠ i := by
      rintro rfl
      rw [withL1_l1, update_self] at hnone
      cases hnone
    rw [withL1_l1, update_of_ne hji] at hnone
    rw [withL1_root, hentry (x := .root) rfl hj, if_neg fun hc => hji hc.2]
    exact h.root_none hj hnone
  · intro j r hr
    rw [withL1_root]
    rcases withL1_l1_cases hr with ⟨rfl, rfl⟩ | ⟨hji, hr⟩
    · rw [hentry (x := .root) rfl (by omega), if_pos ⟨rfl, rfl⟩]
      exact points_new hp
    · rw [hentry (x := .root) rfl (Nat.lt_trans (h.l1_lt hr) (by decide)), if_neg fun hc => hji hc.2]
      exact h.root_some hr
  · intro u r s hr hs
    rw [withL1_l0] at hs
    rcases withL1_l1_cases hr with ⟨hu, -⟩ | ⟨-, hr⟩
    · rw [hl0 hu] at hs
      cases hs
    · rw [below (x := .l1 _) hr (mod_lt_512 u) nofun]
      exact h.dir_some hr hs
  · intro u r hr hs
    rcases withL1_l1_cases hr with ⟨hu, rfl⟩ | ⟨-, hr⟩
    · rw [new (mod_lt_512 u)]
      decide
    · rw [below (x := .l1 _) hr (mod_lt_512 u) nofun]
      exact h.dir_none hr hs
  · unfold leaf
    rw [withL1_l1, withL1_l0]
    by_cases hni : n / 512 / 512 = i
    · rw [hni, hn, update_self]
      simp only [Option.bind_some, Option.bind_none, hl0 hni, new (mod_lt_512 _)]
      exact mmuLeaf_invalid rfl
    · rw [update_of_ne hni]
      exact leaf_congr (fun r hr => below (x := .l1 _) hr (mod_lt_512 _) nofun)
        fun r hr => below (x := .l0 _) hr (mod_lt_512 n) nofun

theorem Holds.addL0 (hq : T.l1 (v / 512) = some q) (hn : T.l0 v = none)
    (hv : hasFlag (pteAt m q (v % 512)) PTE_V = false) (hp : PageAddr p) (hf : T.Fresh p)
    (hm : m' = storeLE (Bytes.fill m p PGSIZE 0) (q + 8 * (v % 512)) 8 (pa2pte p ||| PTE_V)) :
    (T.withL0 v p).Holds m' ∧ ∀ n, (T.withL0 v p).leaf m' n = T.leaf m n := by
  obtain ⟨hentry, new⟩ := h.hung (y := .l1 _) hp hf hq (mod_lt_512 v) hm
  have dir : ∀ {u r}, T.l1 (u / 512) = some r → pteAt m' r (u % 512) =
      if u = v then pa2pte p ||| PTE_V else pteAt m r (u % 512) := fun {u r} hr => by
    rw [hentry (x := .l1 _) hr (mod_lt_512 u)]
    exact if_congr dir_slot_iff rfl rfl
  refine ⟨⟨h.l1_lt, ?_, (h.tbl_add hp hf withL0_tbl_cases).1, (h.tbl_add hp hf withL0_tbl_cases).2, ?_, ?_, ?_, ?_⟩, fun n => ?_⟩
  · intro u r hr
    rcases withL0_l0_cases hr with ⟨rfl, -⟩ | ⟨-, hr⟩
    · exact ⟨q, hq⟩
    · exact h.l0_l1 hr
  · intro j hj hnone
    rw [withL0_root, hentry (x := .root) rfl hj, if_neg nofun]
    exact h.root_none hj hnone
  · intro j r hr
    rw [withL0_root, hentry (x := .root) rfl (Nat.lt_trans (h.l1_lt hr) (by decide)), if_neg nofun]
    exact h.root_some hr
  · intro u r s hr hs
    rw [dir hr]
    rcases withL0_l0_cases hs with ⟨rfl, rfl⟩ | ⟨hu, hs⟩
    · rw [if_pos rfl]
      exact points_new hp
    · rw [if_neg hu]
      exact h.dir_some hr hs
  · intro u r hr hs
    have hu : u ≠ v := by
      rintro rfl
      rw [withL0_l0, update_self] at hs
      cases hs
    rw [withL0_l0, update_of_ne hu] at hs
    rw [dir hr, if_neg hu]
    exact h.dir_none hr hs
  · unfold leaf
    rw [withL0_l1, withL0_l0]
    rcases hr : T.l1 (n / 512 / 512) with _ | r
    · simp only [Option.bind_none]
    · simp only [Option.bind_some]
      by_cases hnv : n / 512 = v
      · subst hnv
        obtain rfl : q = r := Option.some.inj (hq.symm.trans hr)
        simp only [update_self, hn, new (mod_lt_512 n)]
        rw [mmuLeaf_invalid hv]
        exact mmuLeaf_invalid rfl
      · rw [update_of_ne hnv]
        rcases hs : T.l0 (n / 512) with _ | s
        · simp only [dir hr, if_neg hnv]
        · simp only [hentry (x := .l0 _) hs (mod_lt_512 n), reduceCtorEq, false_and, if_false]

theorem Holds.stored (hq : T.tbl y = some q) (hi : i < 512) (hw : w < 2 ^ 64) (hroot : y ≠ .root)
    (hdir : ∀ u, y = .l1 (u / 512) → u % 512 = i → T.l0 u = none ∧ (hasFlag w PTE_V = true → pteLeaf w = true))
    (hm : m' = storeLE m (q + 8 * i) 8 w) :
    T.Holds m' ∧ ∀ {x r j}, T.tbl x = some r → j < 512 → pteAt m' r j = if x = y ∧ j = i then w else pteAt m r j := by
  have hentry : ∀ {x r j}, T.tbl x = some r → j < 512 → pteAt m' r j = if x = y ∧ j = i then w else pteAt m r j :=
    fun hx hj => by
      rw [hm, pteAt_store (h.page hq).1 (h.page hx).1 hi hj hw]
      exact if_congr (h.slot_iff hx hq) rfl rfl
  refine ⟨⟨h.l1_lt, h.l0_l1, h.page, h.inj, ?_, ?_, ?_, ?_⟩, hentry⟩
  · intro j hj hnone
    rw [hentry (x := .root) rfl hj, if_neg fun hc => hroot hc.1.symm]
    exact h.root_none hj hnone
  · intro j r hr
    rw [hentry (x := .root) rfl (Nat.lt_trans (h.l1_lt hr) (by decide)), if_neg fun hc => hroot hc.1.symm]
    exact h.root_some hr
  · intro u r s hr hs
    rw [hentry (x := .l1 _) hr (mod_lt_512 u), if_neg]
    · exact h.dir_some hr hs
    · rintro ⟨hy, hu⟩
      rw [(hdir u hy.symm hu).1] at hs
      cases hs
  · intro u r hr hs
    rw [hentry (x := .l1 _) hr (mod_lt_512 u)]
    split
    next hc => exact (hdir u hc.1.symm hc.2).2
    next => exact h.dir_none hr hs

theorem Holds.setPage (hq : T.l0 (n / 512) = some q) (hw : w < 2 ^ 64)
    (hm : m' = storeLE m (q + 8 * (n % 512)) 8 w) :
    T.Holds m' ∧ ∀ k, T.leaf m' k = if k = n then mmuLeaf 0 w else T.leaf m k := by
  obtain ⟨hH, hentry⟩ := h.stored (y := .l0 _) hq (mod_lt_512 n) hw nofun nofun hm
  refine ⟨hH, fun k => ?_⟩
  by_cases hk : k = n
  · obtain ⟨p, hp⟩ := h.l0_l1 hq
    simp only [leaf, hk, hp, hq, Option.bind_some, if_true, hentry (x := .l0 _) hq (mod_lt_512 n), and_self]
  · rw [if_neg hk]
    refine leaf_congr (fun r hr => ?_) fun r hr => ?_
    · rw [hentry (x := .l1 _) hr (mod_lt_512 _), if_neg nofun]
    · rw [hentry (x := .l0 _) hr (mod_lt_512 k), if_neg fun hc => hk (by have := Node.l0.inj hc.1; omega)]

theorem Holds.setSuper (hq : T.l1 (v / 512) = some q) (hn : T.l0 v = none) (hw : w < 2 ^ 64)
    (hleaf : hasFlag w PTE_V = true → pteLeaf w = true) (hm : m' = storeLE m (q + 8 * (v % 512)) 8 w) :
    T.Holds m' ∧ ∀ k, T.leaf m' k = if k / 512 = v then mmuLeaf 1 w else T.leaf m k := by
  have hslot : ∀ u, Node.l1 (v / 512) = .l1 (u / 512) → u % 512 = v % 512 → u = v := fun u hx hj =>
    dir_slot_iff.1 ⟨hx.symm, hj⟩
  obtain ⟨hH, hentry⟩ := h.stored (y := .l1 _) hq (mod_lt_512 v) hw nofun
    (fun u hx hj => hslot u hx hj ▸ ⟨hn, hleaf⟩) hm
  refine ⟨hH, fun k => ?_⟩
  by_cases hk : k / 512 = v
  · simp only [leaf, hk, hq, hn, Option.bind_some, if_true, hentry (x := .l1 _) hq (mod_lt_512 v), and_self]
  · rw [if_neg hk]
    refine leaf_congr (fun r hr => ?_) fun r hr => ?_
    · rw [hentry (x := .l1 _) hr (mod_lt_512 _), if_neg fun hc => hk (dir_slot_iff.1 hc)]
    · rw [hentry (x := .l0 _) hr (mod_lt_512 k), if_neg nofun]

end

end Skeleton

end Xv6
