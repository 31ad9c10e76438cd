import Xv6.Vm.Lookup

/-!
# Mapping refines an update of a finite map

The functions of `vm.c` that add to a page table, on any memory that holds a tree of page-table pages and whose free pages
are none of them. `Becomes` says what such a function has done: the tree has grown by pages of the free list, and its
leaves are those of a given map.
-/

namespace Xv6

open Bytes (Mem storeLE)
open Hoare

variable {σ σ' σ'' : Phys} {T T' T'' : Skeleton} {E : String → Prop} {i j k n p q v w va pa perm N : Nat}
  {f g : Nat → Option (Nat × Nat)} {c : UInt8} {m : Mem} {rest : List Nat} {x : Node}

/-- The memory holds the tree, and the free pages are none of its page-table pages. -/
structure Tidy (σ : Phys) (T : Skeleton) : Prop where
  holds : T.Holds σ.mem
  free : ∀ p ∈ σ.freelist, PageAddr p ∧ T.Fresh p
  nodup : σ.freelist.Nodup

/-- The tree has taken pages from the free list, and its leaves are now those of `f`. -/
structure Becomes (σ : Phys) (T : Skeleton) (σ' : Phys) (T' : Skeleton) (f : Nat → Option (Nat × Nat)) : Prop where
  tidy : Tidy σ' T'
  root : T'.root = T.root
  leaf : ∀ n, T'.leaf σ'.mem n = f n
  tbl : ∀ {x p}, T'.tbl x = some p → T.tbl x = some p ∨ p ∈ σ.freelist
  freelist : ∀ {p}, p ∈ σ'.freelist → p ∈ σ.freelist
  superpages : σ'.superpages = σ.superpages

theorem Becomes.refl (hT : Tidy σ T) : Becomes σ T σ T (T.leaf σ.mem) :=
  ⟨hT, rfl, fun _ => rfl, Or.inl, id, rfl⟩

theorem Becomes.trans (h1 : Becomes σ T σ' T' f) (h2 : Becomes σ' T' σ'' T'' g) : Becomes σ T σ'' T'' g where
  tidy := h2.tidy
  root := h2.root.trans h1.root
  leaf := h2.leaf
  tbl hp := by
    rcases h2.tbl hp with hp | hp
    · exact h1.tbl hp
    · exact .inr (h1.freelist hp)
  freelist hp := h1.freelist (h2.freelist hp)
  superpages := h2.superpages.trans h1.superpages

theorem Becomes.congr (h : Becomes σ T σ' T' f) (hfg : ∀ n, f n = g n) : Becomes σ T σ' T' g :=
  { h with leaf := fun n => (h.leaf n).trans (hfg n) }

theorem Skeleton.Holds.fill (h : T.Holds m) (hp : PageAddr p) (hf : T.Fresh p) :
    T.Holds (Bytes.fill m p PGSIZE c) ∧ ∀ n, T.leaf (Bytes.fill m p PGSIZE c) n = T.leaf m n := by
  refine h.congr fun {x q j} hx hj => pteAt_fill hp.1 (h.page hx).1 hj ?_
  rintro rfl
  exact hf x hx

theorem Tidy.mem_free (hT : Tidy σ T) (hfl : σ.freelist = p :: rest) :
    PageAddr p ∧ T.Fresh p ∧ rest.Nodup ∧ ∀ q ∈ rest, q ≠ p ∧ PageAddr q ∧ T.Fresh q := by
  have hp : p ∈ σ.freelist := by rw [hfl]; exact List.mem_cons_self
  have hnd := hT.nodup
  rw [hfl, List.nodup_cons] at hnd
  refine ⟨(hT.free p hp).1, (hT.free p hp).2, hnd.2, fun q hq => ⟨?_, hT.free q ?_⟩⟩
  · rintro rfl
    exact hnd.1 hq
  · rw [hfl]
    exact List.mem_cons_of_mem _ hq

theorem Becomes.take (hT : Tidy σ T) (hfl : σ.freelist = p :: rest)
    (hm : T.Holds m ∧ ∀ n, T.leaf m n = T.leaf σ.mem n) :
    Becomes σ T { σ with mem := m, freelist := rest } T (T.leaf σ.mem) := by
  obtain ⟨-, -, hnd, hrest⟩ := hT.mem_free hfl
  refine ⟨⟨hm.1, fun q hq => (hrest q hq).2, hnd⟩, rfl, hm.2, Or.inl, fun {q} hq => ?_, rfl⟩
  rw [hfl]
  exact List.mem_cons_of_mem _ hq

/-- A page of the free list becomes a page-table page: what `kalloc`, `memset` and the store of the pointer amount to. -/
theorem Becomes.hang (hT : Tidy σ T) (hfl : σ.freelist = p :: rest)
    (hm : T'.Holds m ∧ ∀ n, T'.leaf m n = T.leaf (Bytes.fill σ.mem p PGSIZE 5) n) (hroot : T'.root = T.root)
    (htbl : ∀ {y r}, T'.tbl y = some r → y = x ∧ r = p ∨ T.tbl y = some r) :
    Becomes σ T { σ with mem := m, freelist := rest } T' (T.leaf σ.mem) := by
  obtain ⟨hp, hf, hnd, hrest⟩ := hT.mem_free hfl
  refine ⟨⟨hm.1, fun q hq => ⟨(hrest q hq).2.1, fun y hy => ?_⟩, hnd⟩, hroot, fun n => ?_, fun {y r} hy => ?_,
    fun {q} hq => ?_, rfl⟩
  · rcases htbl hy with ⟨-, he⟩ | hy
    · exact (hrest q hq).1 he
    · exact (hrest q hq).2.2 y hy
  · rw [hm.2, (hT.holds.fill hp hf).2]
  · rcases htbl hy with ⟨-, rfl⟩ | hy
    · exact .inr (by rw [hfl]; exact List.mem_cons_self)
    · exact .inl hy
  · rw [hfl]
    exact List.mem_cons_of_mem _ hq

section Leafy

variable {m m' : Mem} {root : Nat}

def Leafy (T : Skeleton) (m : Mem) : Prop :=
  ∀ v q k, T.l0 v = some q → k < 512 → hasFlag (pteAt m q k) PTE_V = true → pteLeaf (pteAt m q k) = true

theorem Leafy.congr (h : Leafy T m) (hm : ∀ {v q j}, T.l0 v = some q → j < 512 → pteAt m' q j = pteAt m q j) : Leafy T m' := by
  intro v q k hq hk
  rw [hm hq hk]
  exact h v q k hq hk

theorem Leafy.fill (h : Leafy T m) (hT : T.Holds m) (hp : PageAddr p) (hf : T.Fresh p) :
    Leafy T (Bytes.fill m p PGSIZE c) := by
  refine h.congr fun {v q j} hq hj => pteAt_fill hp.1 (hT.page (x := .l0 v) hq).1 hj ?_
  rintro rfl
  exact hf (.l0 v) hq

theorem Leafy.store_above {j : Nat} (h : Leafy T m) (hT : T.Holds m) (hx : T.tbl x = some p) (hnot : ∀ v, x ≠ .l0 v)
    (hj : j < 512) (hw : w < 2 ^ 64) : Leafy T (storeLE m (p + 8 * j) 8 w) := by
  refine h.congr fun {v q k} hq hk => ?_
  rw [pteAt_store (hT.page hx).1 (hT.page (x := .l0 v) hq).1 hj hk hw, if_neg]
  rintro ⟨rfl, -⟩
  exact hnot v (hT.inj hx hq)

theorem Leafy.hangL1 (h : Leafy T m) (hT : T.Holds m) (hp : PageAddr p) (hf : T.Fresh p) (hi : i < 512) :
    Leafy (T.withL1 i p) (storeLE (Bytes.fill (Bytes.fill m p PGSIZE 5) p PGSIZE 0) (T.root + 8 * i) 8 (pa2pte p ||| PTE_V)) := by
  have h1 := (hT.fill (c := 5) hp hf).1
  exact ((h.fill hT hp hf).fill h1 hp hf).store_above (x := .root) (h1.fill hp hf).1 rfl (by simp) hi (new_lt hp)

theorem Leafy.hangL0 (h : Leafy T m) (hT : T.Holds m) (hq : T.l1 (v / 512) = some q) (hp : PageAddr p) (hf : T.Fresh p) :
    Leafy (T.withL0 v p)
      (storeLE (Bytes.fill (Bytes.fill m p PGSIZE 5) p PGSIZE 0) (q + 8 * (v % 512)) 8 (pa2pte p ||| PTE_V)) := by
  have h1 := (hT.fill (c := 5) hp hf).1
  have hv : v % 512 < 512 := Nat.mod_lt _ (by decide)
  have hold := ((h.fill hT hp hf).fill (c := 0) h1 hp hf).store_above (x := .l1 _) (h1.fill hp hf).1 hq (by simp) hv (new_lt hp)
  intro u r k hr hk hval
  rcases Skeleton.withL0_l0_cases hr with ⟨-, rfl⟩ | ⟨-, hr⟩
  · rw [pteAt_zero_store hp.1 (hT.page (x := .l1 _) hq).1 hp.1 hv hk (new_lt hp), if_neg, if_pos rfl] at hval
    · cases hval
    · rintro ⟨rfl, -⟩
      exact hf (.l1 _) hq
  · exact hold u r k hr hk hval

end Leafy

/-- Where `walk` with `alloc` ends: nowhere, since there is no memory; in the level-0 entry; or in a superpage. -/
def WalkEnd (T : Skeleton) (σ : Phys) (va : Nat) : Option Nat → Prop
  | none => True
  | some a => (∃ q, T.l0 (va / SUPERPGSIZE) = some q ∧ a = q + 8 * (va / PGSIZE % 512)) ∨
      hasFlag (Bytes.loadLE σ.mem a 8) PTE_V = true

theorem walkLoop_one_becomes (hT : Tidy σ T) (hp : T.l1 (va / SUPERPGSIZE / 512) = some p) :
    wp (walkLoop va true 1 p) (fun r σ' => ∃ T', Becomes σ T σ' T' (T.leaf σ.mem) ∧ (Leafy T σ.mem → Leafy T' σ'.mem) ∧
      WalkEnd T' σ' va r) E σ := by
  rw [walkLoop, px_one, wp_bind, wp_loadPte]
  rcases hq : T.l0 (va / SUPERPGSIZE) with _ | q
  · have hdir := hT.holds.dir_none hp hq
    unfold pteAt at hdir
    split
    next hv =>
      rw [if_pos (hdir hv), wp_pure]
      exact ⟨T, Becomes.refl hT, id, .inr hv⟩
    next hv =>
      rw [if_neg (by simp), wp_bind, wp_kalloc]
      refine ⟨fun _ => ⟨T, Becomes.refl hT, id, trivial⟩, fun r rest hfl => ?_⟩
      obtain ⟨hr, hf, -⟩ := hT.mem_free hfl
      have hfill := hT.holds.fill (c := 5) hr hf
      have hv' : hasFlag (pteAt (Bytes.fill σ.mem r PGSIZE 5) p (va / SUPERPGSIZE % 512)) PTE_V = false := by
        rw [pteAt_fill hr.1 (hT.holds.page (x := .l1 _) hp).1 (Nat.mod_lt _ (by decide)) (fun he => hf (.l1 _) (he ▸ hp))]
        exact Bool.eq_false_of_not_eq_true hv
      simp only [wp_bind, wp_memset, wp_storePte, walkLoop, wp_pure, px_zero]
      refine ⟨_, Becomes.hang hT hfl (hfill.1.addL0 hp hq hv' hr hf rfl) rfl Skeleton.withL0_tbl_cases,
        fun hL => hL.hangL0 hT.holds hp hr hf, Or.inl ⟨r, ?_, rfl⟩⟩
      rw [Skeleton.withL0_l0, Function.update_self]
  · obtain ⟨hv, hl, hpa⟩ := hT.holds.dir_some hp hq
    unfold pteAt at hv hl hpa
    rw [if_pos hv, hl, if_neg Bool.false_ne_true, hpa, walkLoop, px_zero, wp_pure]
    exact ⟨T, Becomes.refl hT, id, Or.inl ⟨q, hq, rfl⟩⟩

theorem gib_lt (hva : va < MAXVA) : va / SUPERPGSIZE / 512 < 256 := by
  simp only [MAXVA, SUPERPGSIZE] at *
  omega

theorem walk_becomes (hT : Tidy σ T) (hva : va < MAXVA) :
    wp (walk T.root va true) (fun r σ' => ∃ T', Becomes σ T σ' T' (T.leaf σ.mem) ∧ (Leafy T σ.mem → Leafy T' σ'.mem) ∧
      WalkEnd T' σ' va r) E σ := by
  have hlt := gib_lt hva
  unfold walk
  rw [if_neg (by lia), walkLoop, px_two hva, wp_bind, wp_loadPte]
  rcases hp : T.l1 (va / SUPERPGSIZE / 512) with _ | p
  · have hv := hT.holds.root_none (by omega) hp
    unfold pteAt at hv
    rw [if_neg (by rw [hv]; decide), if_neg (by simp), wp_bind, wp_kalloc]
    refine ⟨fun _ => ⟨T, Becomes.refl hT, id, trivial⟩, fun r rest hfl => ?_⟩
    obtain ⟨hr, hf, -⟩ := hT.mem_free hfl
    simp only [wp_bind, wp_memset, wp_storePte]
    have hB := Becomes.hang hT hfl ((hT.holds.fill (c := 5) hr hf).1.addL1 hlt hp hr hf rfl) rfl Skeleton.withL1_tbl_cases
    refine wp_post (walkLoop_one_becomes hB.tidy (by rw [Skeleton.withL1_l1, Function.update_self])) ?_
    rintro a σ' ⟨T', hB', hL, hend⟩
    exact ⟨T', hB.trans (hB'.congr hB.leaf), fun h => hL (h.hangL1 hT.holds hr hf (by omega)), hend⟩
  · obtain ⟨hv, hl, hpa⟩ := hT.holds.root_some hp
    unfold pteAt at hv hl hpa
    rw [if_pos hv, hl, if_neg Bool.false_ne_true, hpa]
    exact walkLoop_one_becomes hT hp

theorem superwalk_becomes (hT : Tidy σ T) (hva : va < MAXVA) :
    wp (superwalk T.root va true) (fun r σ' => ∃ T', Becomes σ T σ' T' (T.leaf σ.mem) ∧ (Leafy T σ.mem → Leafy T' σ'.mem) ∧
      (r = none ∨ ∃ p, T'.l1 (va / SUPERPGSIZE / 512) = some p ∧ r = some (p + 8 * (va / SUPERPGSIZE % 512)))) E σ := by
  have hlt := gib_lt hva
  unfold superwalk
  rw [if_neg (by lia), px_two hva, px_one, wp_bind, wp_loadPte]
  rcases hp : T.l1 (va / SUPERPGSIZE / 512) with _ | p
  · have hv := hT.holds.root_none (by omega) hp
    unfold pteAt at hv
    rw [if_neg (by rw [hv]; decide), if_neg (by simp), wp_bind, wp_kalloc]
    refine ⟨fun _ => ⟨T, Becomes.refl hT, id, Or.inl rfl⟩, fun r rest hfl => ?_⟩
    obtain ⟨hr, hf, -⟩ := hT.mem_free hfl
    simp only [wp_bind, wp_memset, wp_storePte, wp_pure]
    refine ⟨_, Becomes.hang hT hfl ((hT.holds.fill (c := 5) hr hf).1.addL1 hlt hp hr hf rfl) rfl Skeleton.withL1_tbl_cases,
      fun hL => hL.hangL1 hT.holds hr hf (by omega), Or.inr ⟨r, ?_, rfl⟩⟩
    rw [Skeleton.withL1_l1, Function.update_self]
  · obtain ⟨hv, -, hpa⟩ := hT.holds.root_some hp
    unfold pteAt at hv hpa
    rw [if_pos hv, hpa, wp_pure]
    exact ⟨T, Becomes.refl hT, id, Or.inr ⟨p, hp, rfl⟩⟩

/-- The map `f` with the `j` pages from page `N` on sent to the frames from `pa` on. -/
def mapRange (f : Nat → Option (Nat × Nat)) (N j pa perm k : Nat) : Option (Nat × Nat) :=
  if N ≤ k ∧ k < N + j then mmuLeaf 0 (mkPte (pa + (k - N) * PGSIZE) perm) else f k

def mapSuper (f : Nat → Option (Nat × Nat)) (v pa perm k : Nat) : Option (Nat × Nat) :=
  if k / 512 = v then mmuLeaf 1 (mkPte pa perm) else f k

theorem mapRange_zero : mapRange f N 0 pa perm = f := by
  funext k
  unfold mapRange
  rw [if_neg (by omega)]

theorem mapRange_succ : mapRange (mapRange f N 1 pa perm) (N + 1) j (pa + PGSIZE) perm = mapRange f N (j + 1) pa perm := by
  funext k
  unfold mapRange
  by_cases hk : k = N
  · subst hk
    rw [if_neg (by omega), if_pos (by omega), if_pos (by omega)]
  · by_cases hin : N + 1 ≤ k ∧ k < N + 1 + j
    · rw [if_pos hin, if_pos (by omega), show pa + PGSIZE + (k - (N + 1)) * PGSIZE = pa + (k - N) * PGSIZE by lia]
    · rw [if_neg hin, if_neg (by omega), if_neg (by omega)]

theorem Becomes.store (hT : Tidy σ T) (hm : T.Holds m) (hf : ∀ n, T.leaf m n = f n) :
    Becomes σ T { σ with mem := m } T f :=
  ⟨⟨hm, hT.free, hT.nodup⟩, rfl, hf, Or.inl, id, rfl⟩

theorem mappagesLoop_becomes (hT : Tidy σ T) (hN : (N + n) * PGSIZE ≤ MAXVA) (hperm : perm < 1024)
    (hpa : pa + n * PGSIZE ≤ 2 ^ 56) :
    wp (mappagesLoop T.root perm n (N * PGSIZE) pa) (fun r σ' => ∃ T' j, (r = 0 ∧ j = n ∨ r = -1 ∧ j < n) ∧
      (∀ k, N ≤ k → k < N + j → T.leaf σ.mem k = none) ∧ Becomes σ T σ' T' (mapRange (T.leaf σ.mem) N j pa perm))
      (fun _ => True) σ := by
  induction n generalizing σ T N pa with
  | zero =>
    refine ⟨T, 0, .inl ⟨rfl, rfl⟩, fun k h1 h2 => absurd h2 (by omega), ?_⟩
    rw [mapRange_zero]
    exact Becomes.refl hT
  | succ n ih =>
    rw [mappagesLoop, wp_bind]
    refine wp_post (walk_becomes hT (by lia)) ?_
    rintro r σ1 ⟨T1, hB, -, hend⟩
    cases r with
    | none =>
      refine ⟨T1, 0, .inr ⟨rfl, Nat.succ_pos n⟩, fun k h1 h2 => absurd h2 (by omega), ?_⟩
      rw [mapRange_zero]
      exact hB
    | some a =>
      rw [wp_bind, wp_loadPte]
      split
      next => trivial
      next hv =>
        obtain ⟨q, hq, rfl⟩ := hend.resolve_right hv
        have hN' : N * PGSIZE / SUPERPGSIZE = N / 512 := by lia
        rw [hN'] at hq
        rw [show N * PGSIZE / PGSIZE = N by lia] at hv ⊢
        rw [wp_bind, wp_storePte]
        have hnone : T.leaf σ.mem N = none := by
          obtain ⟨p, hp⟩ := hB.tidy.holds.l0_l1 hq
          rw [← hB.leaf, Skeleton.leaf, hp, hq]
          exact mmuLeaf_invalid (Bool.eq_false_of_not_eq_true hv)
        have hlt : mkPte pa perm < 2 ^ 64 := mkPte_lt hperm (by lia)
        obtain ⟨hh, hl⟩ := hB.tidy.holds.setPage hq hlt rfl
        have hB1 : Becomes σ T _ T1 (mapRange (T.leaf σ.mem) N 1 pa perm) :=
          hB.trans (Becomes.store hB.tidy hh fun k => by
            rw [hl, mapRange]
            by_cases hk : k = N
            · subst hk
              rw [if_pos rfl, if_pos (by omega), Nat.sub_self, Nat.zero_mul, Nat.add_zero]
            · rw [if_neg hk, if_neg (by omega), hB.leaf])
        rw [show N * PGSIZE + PGSIZE = (N + 1) * PGSIZE by lia, ← hB1.root]
        have hpa' : pa + PGSIZE + n * PGSIZE ≤ 2 ^ 56 := by lia
        refine wp_post (ih (N := N + 1) hB1.tidy (by lia) hpa') ?_
        rintro r σ' ⟨T', j, hr, hold, hB'⟩
        refine ⟨T', j + 1, by omega, fun k h1 h2 => ?_, ?_⟩
        · by_cases hk : k = N
          · rw [hk, hnone]
          · have := hold k (by omega) (by omega)
            rwa [hB1.leaf, mapRange, if_neg (by omega)] at this
        rw [← mapRange_succ, ← funext hB1.leaf]
        exact hB1.trans hB'

theorem supermappages_becomes (hT : Tidy σ T) (hva : va < MAXVA) (hperm : perm < 1024) (hpa : pa < 2 ^ 56)
    (hleaf : pteLeaf (mkPte pa perm) = true) :
    wp (supermappages T.root va pa perm) (fun r σ' => ∃ T',
      (r = 0 ∧ (∀ k, k / 512 = va / SUPERPGSIZE → T.leaf σ.mem k = none) ∧
        Becomes σ T σ' T' (mapSuper (T.leaf σ.mem) (va / SUPERPGSIZE) pa perm)) ∨
      (r = -1 ∧ Becomes σ T σ' T' (T.leaf σ.mem))) (fun _ => True) σ := by
  unfold supermappages
  split
  next => trivial
  next =>
    rw [wp_bind]
    refine wp_post (superwalk_becomes hT hva) ?_
    rintro r σ1 ⟨T1, hB, -, rfl | ⟨p, hp, rfl⟩⟩
    · exact ⟨T1, .inr ⟨rfl, hB⟩⟩
    · rw [wp_bind, wp_loadPte]
      split
      next => trivial
      next hv =>
        have hl0 : T1.l0 (va / SUPERPGSIZE) = none := by
          rcases hq : T1.l0 (va / SUPERPGSIZE) with _ | q
          · rfl
          · exact absurd (hB.tidy.holds.dir_some hp hq).1 hv
        obtain ⟨hh, hl⟩ := hB.tidy.holds.setSuper hp hl0 (mkPte_lt hperm hpa) (fun _ => hleaf) rfl
        rw [wp_bind, wp_storePte, wp_pure]
        refine ⟨T1, .inl ⟨rfl, fun k hk => ?_, hB.trans (Becomes.store hB.tidy hh fun k => ?_)⟩⟩
        · rw [← hB.leaf, Skeleton.leaf, hk, hp, hl0]
          exact mmuLeaf_invalid (Bool.eq_false_of_not_eq_true hv)
        · rw [hl, mapSuper, hB.leaf]

/-- Permission bits that make a leaf which the MMU accepts: readable or executable, and writable only if readable. -/
def LeafPerm (perm : Nat) : Prop :=
  perm < 1024 ∧ (hasFlag perm PTE_R || hasFlag perm PTE_X && !hasFlag perm PTE_W) = true

instance (perm : Nat) : Decidable (LeafPerm perm) := inferInstanceAs (Decidable (_ ∧ _))

theorem hasFlag_mkPte_perm (hperm : perm < 1024) (hk : 0 < k) (hk' : k < 10) :
    hasFlag (mkPte pa perm) (2 ^ k) = hasFlag perm (2 ^ k) := by
  have hV : hasFlag PTE_V (2 ^ k) = false := by
    rw [hasFlag_eq_testBit, show PTE_V = 2 ^ 0 from rfl, Nat.testBit_two_pow]
    exact decide_eq_false (by omega)
  rw [hasFlag_mkPte hperm hk', hasFlag_or, hV, Bool.or_false]

theorem flags_mkPte (pa : Nat) (hperm : perm < 1024) : hasFlag (mkPte pa perm) PTE_V = true ∧
    hasFlag (mkPte pa perm) PTE_R = hasFlag perm PTE_R ∧ hasFlag (mkPte pa perm) PTE_W = hasFlag perm PTE_W ∧
    hasFlag (mkPte pa perm) PTE_X = hasFlag perm PTE_X := by
  refine ⟨?_, hasFlag_mkPte_perm (k := 1) hperm (by decide) (by decide),
    hasFlag_mkPte_perm (k := 2) hperm (by decide) (by decide), hasFlag_mkPte_perm (k := 3) hperm (by decide) (by decide)⟩
  have hV : hasFlag (mkPte pa perm) (2 ^ 0) = (hasFlag perm (2 ^ 0) || hasFlag PTE_V (2 ^ 0)) := by
    rw [hasFlag_mkPte hperm (by decide), hasFlag_or]
  exact hV.trans (Bool.or_true _)

theorem LeafPerm.mmuLeaf (h : LeafPerm perm) {level : Nat} (hpa : pa < 2 ^ 56) (hal : pa / 4096 % 2 ^ (9 * level) = 0) :
    Xv6.mmuLeaf level (mkPte pa perm) = some (level, mkPte pa perm) := by
  obtain ⟨hV, hR, hW, hX⟩ := flags_mkPte pa h.1
  have hppn : mkPte pa perm / 1024 % 2 ^ 44 = pa / 4096 := by
    have := Nat.or_lt_two_pow (x := perm) (y := PTE_V) (n := 10) h.1 (by decide)
    rw [mkPte_eq h.1]
    omega
  unfold Xv6.mmuLeaf
  rw [hV, hR, hW, hX, hppn, hal]
  exact if_pos (by rw [h.2]; rfl)

theorem LeafPerm.pteLeaf (h : LeafPerm perm) : Xv6.pteLeaf (mkPte pa perm) = true := by
  obtain ⟨-, hR, hW, hX⟩ := flags_mkPte pa h.1
  have hperm := h.2
  unfold Xv6.pteLeaf
  rw [hR, hW, hX]
  revert hperm
  cases hasFlag perm PTE_R <;> cases hasFlag perm PTE_W <;> cases hasFlag perm PTE_X <;> simp

theorem ppn_mkPte (hperm : perm < 1024) (hpa : pa < 2 ^ 56) (hal : pa % 4096 = 0) :
    mkPte pa perm / 1024 % 2 ^ 44 * 4096 = pa := by
  have := Nat.or_lt_two_pow (x := perm) (y := PTE_V) (n := 10) hperm (by decide)
  rw [mkPte_eq hperm]
  omega

theorem Becomes.lookup_same (hT : Tidy σ T) (h : Becomes σ T σ' T' f) {x : Nat} (hx : f (x / PGSIZE) = T.leaf σ.mem (x / PGSIZE)) :
    lookup σ'.mem T.root x = lookup σ.mem T.root x := by
  by_cases hlt : x < MAXVA
  · rw [← h.root, h.tidy.holds.lookup_eq hlt, h.root, hT.holds.lookup_eq hlt, h.leaf, hx]
  · rw [← h.root, h.tidy.holds.lookup_high (Nat.le_of_not_lt hlt), h.root, hT.holds.lookup_high (Nat.le_of_not_lt hlt)]

theorem Becomes.lookup_range (hT : Tidy σ T) (hN : (N + j) * PGSIZE ≤ MAXVA) (hperm : LeafPerm perm) (hal : pa % PGSIZE = 0)
    (hpa : pa + j * PGSIZE ≤ 2 ^ 56) (h : Becomes σ T σ' T' (mapRange (T.leaf σ.mem) N j pa perm)) (x : Nat) :
    lookup σ'.mem T.root x = if N * PGSIZE ≤ x ∧ x < N * PGSIZE + j * PGSIZE then
      some (pa + (x - N * PGSIZE), perm ||| PTE_V) else lookup σ.mem T.root x := by
  split
  next hin =>
    have hpg : N ≤ x / PGSIZE ∧ x / PGSIZE < N + j := by lia
    rw [← h.root, h.tidy.holds.lookup_eq (by lia), h.leaf, mapRange, if_pos hpg]
    have hlt : pa + (x / PGSIZE - N) * PGSIZE < 2 ^ 56 := by lia
    rw [hperm.mmuLeaf hlt (by rw [Nat.mul_zero, Nat.pow_zero]; exact Nat.mod_one _)]
    simp only [Option.map_some, mkPte_flags hperm.1, ppn_mkPte hperm.1 hlt (by lia)]
    congr 2
    lia
  next hout =>
    refine h.lookup_same hT ?_
    rw [mapRange, if_neg (by lia)]

theorem Becomes.lookup_super (hT : Tidy σ T) (hva : va % SUPERPGSIZE = 0) (hmax : va < MAXVA) (hperm : LeafPerm perm)
    (hal : pa % SUPERPGSIZE = 0) (hpa : pa < 2 ^ 56)
    (h : Becomes σ T σ' T' (mapSuper (T.leaf σ.mem) (va / SUPERPGSIZE) pa perm)) (x : Nat) :
    lookup σ'.mem T.root x = if va ≤ x ∧ x < va + SUPERPGSIZE then some (pa + (x - va), perm ||| PTE_V)
      else lookup σ.mem T.root x := by
  split
  next hin =>
    rw [← h.root, h.tidy.holds.lookup_eq (by lia), h.leaf, mapSuper, if_pos (by lia), hperm.mmuLeaf hpa (by lia)]
    simp only [Option.map_some, mkPte_flags hperm.1, ppn_mkPte hperm.1 hpa (by lia)]
    congr 2
    lia
  next hout =>
    refine h.lookup_same hT ?_
    rw [mapSuper, if_neg (by lia)]

/-- A successful `mappages` or `supermappages` with the permissions of a leaf changes the lookups of its range, and no other;
a failed one has mapped a proper part of the range from its start on, and changed no other lookup. -/
theorem mapping_refines_map (σ : Phys) (T : Skeleton) (hT : Tidy σ T) (perm : Nat) (hperm : LeafPerm perm) :
    (∀ va size pa r σ', va + size ≤ MAXVA → pa % PGSIZE = 0 → pa + size ≤ 2 ^ 56 →
      (mappages T.root va size pa perm).run σ = .ok (r, σ') →
      (∃ T', Tidy σ' T' ∧ T'.root = T.root) ∧
      ∃ j, (r = 0 ∧ j = size / PGSIZE ∨ r = -1 ∧ j < size / PGSIZE) ∧
        ∀ x, lookup σ'.mem T.root x = if va ≤ x ∧ x < va + j * PGSIZE then some (pa + (x - va), perm ||| PTE_V)
          else lookup σ.mem T.root x) ∧
    (∀ va pa r σ', va < MAXVA → pa % SUPERPGSIZE = 0 → pa + SUPERPGSIZE ≤ 2 ^ 56 →
      (supermappages T.root va pa perm).run σ = .ok (r, σ') →
      (∃ T', Tidy σ' T' ∧ T'.root = T.root) ∧
      ((r = 0 ∧ ∀ x, lookup σ'.mem T.root x = if va ≤ x ∧ x < va + SUPERPGSIZE then some (pa + (x - va), perm ||| PTE_V)
          else lookup σ.mem T.root x) ∨
       (r = -1 ∧ ∀ x, lookup σ'.mem T.root x = lookup σ.mem T.root x))) := by
  constructor
  · intro va size pa r σ' hmax hal hpa hrun
    unfold mappages at hrun
    split at hrun
    next => cases hrun
    next hva =>
      split at hrun
      next => cases hrun
      next hsize =>
        split at hrun
        next => cases hrun
        next =>
          obtain ⟨N, rfl⟩ : ∃ N, va = N * PGSIZE := ⟨va / PGSIZE, by lia⟩
          have hfit : pa + size / PGSIZE * PGSIZE ≤ 2 ^ 56 := by lia
          have hspec := mappagesLoop_becomes (N := N) hT (by lia) hperm.1 hfit
          obtain ⟨T', j, hr, -, hB⟩ := wp_ok hspec hrun
          refine ⟨⟨T', hB.tidy, hB.root⟩, j, hr, fun x => ?_⟩
          exact hB.lookup_range hT (by lia) hperm hal (by lia) x
  · intro va pa r σ' hmax hal hpa hrun
    have hva : va % SUPERPGSIZE = 0 := by
      by_contra hc
      unfold supermappages at hrun
      rw [if_pos hc] at hrun
      cases hrun
    obtain ⟨T', ⟨hr, -, hB⟩ | ⟨hr, hB⟩⟩ := wp_ok (supermappages_becomes hT hmax hperm.1 (by lia) hperm.pteLeaf) hrun
    · exact ⟨⟨T', hB.tidy, hB.root⟩, .inl ⟨hr, hB.lookup_super hT hva hmax hperm hal (by lia)⟩⟩
    · exact ⟨⟨T', hB.tidy, hB.root⟩, .inr ⟨hr, fun x => hB.lookup_same hT rfl⟩⟩

def zeroPhys (pages : List Nat) : Phys := ⟨fun _ => 0, pages, []⟩

def rootOnly (root : Nat) : Skeleton := ⟨root, fun _ => none, fun _ => none⟩

theorem rootOnly_tbl (h : (rootOnly root).tbl x = some p) : x = .root ∧ p = root := by
  rcases x with _ | i | v
  · exact ⟨rfl, (Option.some.inj h).symm⟩
  · cases h
  · cases h

theorem rootOnly_tidy {pages : List Nat} (hroot : PageAddr root) (hpages : ∀ p ∈ pages, PageAddr p ∧ p ≠ root)
    (hnd : pages.Nodup) : Tidy (zeroPhys pages) (rootOnly root) where
  holds :=
    { l1_lt := fun h => by cases h
      l0_l1 := fun h => by cases h
      page := fun h => (rootOnly_tbl h).2 ▸ hroot
      inj := fun hx hy => (rootOnly_tbl hx).1.trans (rootOnly_tbl hy).1.symm
      root_none := fun _ _ => by
        rw [show pteAt (zeroPhys pages).mem (rootOnly root).root _ = 0 from Bytes.loadLE_zero fun _ _ _ => rfl]
        rfl
      root_some := fun h => by cases h
      dir_some := fun h => by cases h
      dir_none := fun h => by cases h }
  free p hp := ⟨(hpages p hp).1, fun x hx => (hpages p hp).2 (rootOnly_tbl hx).2⟩
  nodup := hnd

def twoPages : Phys := zeroPhys [0x80022000, 0x80023000]

theorem twoPages_tidy : Tidy twoPages (rootOnly 0x80021000) :=
  rootOnly_tidy (by unfold PageAddr; decide) (by unfold PageAddr; decide) (by decide)

/-- The third page of the address space is mapped, read-only for the user. -/
theorem mapping_refines_map_twoPages :
    ∃ σ', (mappages 0x80021000 0x2000 PGSIZE 0x80400000 (PTE_R ||| PTE_U)).run twoPages = .ok (0, σ') ∧
      lookup σ'.mem 0x80021000 0x2005 = some (0x80400005, PTE_R ||| PTE_U ||| PTE_V) ∧ lookup σ'.mem 0x80021000 0x3000 = none := by
  obtain ⟨σ', hrun⟩ : ∃ σ', (mappages 0x80021000 0x2000 PGSIZE 0x80400000 (PTE_R ||| PTE_U)).run twoPages = .ok (0, σ') :=
    ⟨_, rfl⟩
  obtain ⟨-, j, hj, hlook⟩ := (mapping_refines_map twoPages (rootOnly 0x80021000) twoPages_tidy (PTE_R ||| PTE_U) (by decide)).1
    0x2000 PGSIZE 0x80400000 0 σ' (by decide) (by decide) (by decide) hrun
  obtain rfl : j = 1 := by lia
  refine ⟨σ', hrun, (hlook 0x2005).trans (if_pos (by decide)), (hlook 0x3000).trans ?_⟩
  rw [if_neg (by decide), twoPages_tidy.holds.lookup_eq (by decide)]
  rfl

/-- Without one of the bits R and X the entry that `mappages` stores is no leaf, and the lookup of its page finds nothing;
`supermappages` even makes the frame a page-table page. -/
theorem mapping_without_rx : Tidy twoPages (rootOnly 0x80021000) ∧
    (∃ σ', (mappages 0x80021000 0 PGSIZE 0x80400000 PTE_U).run twoPages = .ok (0, σ') ∧ lookup σ'.mem 0x80021000 0 = none) ∧
    ∃ σ', (supermappages 0x80021000 0 0x80400000 PTE_U).run twoPages = .ok (0, σ') ∧ lookup σ'.mem 0x80021000 0 = none := by
  refine ⟨twoPages_tidy, ?_, ?_⟩
  · exact ⟨_, rfl, by decide +kernel⟩
  · exact ⟨_, rfl, by decide +kernel⟩

end Xv6
