import Xv6.Vm.Grow

/-!
# Freeing an address space

`freewalk` frees the page-table pages of an address space without leaves, each exactly once, and `uvmfree` the frames
below the process size before them. `tables m d p` lists the pages below `p` in the order in which `freewalk` frees them.
-/

namespace Xv6

open List (append_assoc flatMap_congr mem_append_left mem_append_right mem_cons_of_mem)
open Bytes (Mem)
open Hoare Ledger

variable {σ σ' : Phys} {A A' : Space} {h : List Block} {b : Block} {lo : Nat} {m m' : Mem} {E : String → Prop}
  {d i p q v n k w sz : Nat}

def tables (m : Mem) : Nat → Nat → List Nat
  | 0, _ => []
  | d + 1, p =>
    (ptes.flatMap fun i =>
      if hasFlag (pteAt m p i) PTE_V then tables m d (pte2pa (pteAt m p i)) else []) ++ [p]

def NoLeaf (m : Mem) : Nat → Nat → Prop
  | 0, _ => False
  | d + 1, p => p % PGSIZE = 0 ∧ ∀ i < 512, hasFlag (pteAt m p i) PTE_V = true →
    pteLeaf (pteAt m p i) = false ∧ NoLeaf m d (pte2pa (pteAt m p i))

theorem mem_ptes : i ∈ ptes ↔ i < 512 := by unfold ptes; exact List.mem_range

theorem ptes_nodup : ptes.Nodup := by unfold ptes; exact List.nodup_range

theorem mem_tables_self (hN : NoLeaf m d p) : p ∈ tables m d p := by
  cases d with
  | zero => exact absurd hN id
  | succ d => simp [tables]

private def kids (m : Mem) (d p i : Nat) : List Nat :=
  if hasFlag (pteAt m p i) PTE_V then tables m d (pte2pa (pteAt m p i)) else []

theorem tables_succ : tables m (d + 1) p = ptes.flatMap (kids m d p) ++ [p] := rfl

theorem kids_valid (hv : hasFlag (pteAt m p i) PTE_V = true) :
    kids m d p i = tables m d (pte2pa (pteAt m p i)) := if_pos hv

theorem kids_invalid (hv : ¬hasFlag (pteAt m p i) PTE_V = true) : kids m d p i = [] := if_neg hv

theorem kids_congr (he : pteAt m' p i = pteAt m p i) (ht : hasFlag (pteAt m p i) PTE_V = true →
    tables m' d (pte2pa (pteAt m p i)) = tables m d (pte2pa (pteAt m p i))) : kids m' d p i = kids m d p i := by
  by_cases hv : hasFlag (pteAt m p i) PTE_V = true
  · rw [kids_valid hv, kids_valid (by rw [he]; exact hv), he, ht hv]
  · rw [kids_invalid hv, kids_invalid (by rw [he]; exact hv)]

theorem tables_congr (hN : NoLeaf m d p) (hm : ∀ x, pgrounddown x ∈ tables m d p → m' x = m x) :
    tables m' d p = tables m d p ∧ NoLeaf m' d p := by
  induction d generalizing p with
  | zero => exact absurd hN id
  | succ d ih =>
    have hentry : ∀ i < 512, pteAt m' p i = pteAt m p i := fun i hi =>
      pteAt_congr hN.1 hi fun x hx => hm x (by rw [hx]; exact mem_tables_self hN)
    have hkid : ∀ i < 512, hasFlag (pteAt m p i) PTE_V = true →
        tables m' d (pte2pa (pteAt m p i)) = tables m d (pte2pa (pteAt m p i)) ∧
        NoLeaf m' d (pte2pa (pteAt m p i)) := by
      intro i hi hv
      refine ih (hN.2 i hi hv).2 fun x hx => hm x ?_
      rw [tables_succ]
      exact mem_append_left _ (List.mem_flatMap.2 ⟨i, mem_ptes.2 hi, by rw [kids_valid hv]; exact hx⟩)
    refine ⟨?_, hN.1, fun i hi hv => ?_⟩
    · rw [tables_succ, tables_succ]
      refine congrArg (· ++ [p]) (flatMap_congr fun i hi => ?_)
      rw [mem_ptes] at hi
      exact kids_congr (hentry i hi) fun hv => (hkid i hi hv).1
    · rw [hentry i hi] at hv ⊢
      exact ⟨(hN.2 i hi hv).1, (hkid i hi hv).2⟩

private def freeEntry (depth pagetable i : Nat) : PhysM Unit := do
  let pte ← loadPte (pagetable + 8 * i)
  if hasFlag pte PTE_V && !pteLeaf pte then
    freewalk depth (pte2pa pte)
    storePte (pagetable + 8 * i) 0
  else if hasFlag pte PTE_V then panic "freewalk: leaf"
  else pure ()

theorem freewalk_eq (depth pagetable : Nat) :
    freewalk (depth + 1) pagetable =
      (ptes.forM (freeEntry depth pagetable) >>= fun _ => kfree pagetable) := by
  rw [freewalk]; rfl

private def Freeable (p : Nat) : Prop := p % PGSIZE = 0 ∧ kernelEnd ≤ p ∧ p < PHYSTOP

/-- The pages of `ts` have been freed in this order, and nothing else has changed. -/
private structure FreedPages (ts : List Nat) (X : List Nat) (σ σ' : Phys) : Prop where
  freelist : σ'.freelist = ts.reverse ++ σ.freelist
  superpages : σ'.superpages = σ.superpages
  mem : ∀ x, pgrounddown x ∉ X → σ'.mem x = σ.mem x

theorem freeEntries_spec {is : List Nat}
    (ih : ∀ {p σ}, NoLeaf σ.mem d p → (tables σ.mem d p).Nodup → (∀ t ∈ tables σ.mem d p, Freeable t) →
      wp (freewalk d p) (fun _ σ' => FreedPages (tables σ.mem d p) (tables σ.mem d p) σ σ') E σ)
    (hp : p % PGSIZE = 0) (his : ∀ i ∈ is, i < 512) (hnd : is.Nodup)
    (hleaf : ∀ i ∈ is, hasFlag (pteAt σ.mem p i) PTE_V = true →
      pteLeaf (pteAt σ.mem p i) = false ∧ NoLeaf σ.mem d (pte2pa (pteAt σ.mem p i)))
    (htn : (is.flatMap (kids σ.mem d p) ++ [p]).Nodup) (htf : ∀ t ∈ is.flatMap (kids σ.mem d p), Freeable t) :
    wp (is.forM (freeEntry d p)) (fun _ σ' =>
      FreedPages (is.flatMap (kids σ.mem d p)) (is.flatMap (kids σ.mem d p) ++ [p]) σ σ') E σ := by
  induction is generalizing σ with
  | nil => exact (wp_pure (a := ())).2 ⟨rfl, rfl, fun _ _ => rfl⟩
  | cons i is hrec =>
    obtain ⟨hni, hnis⟩ := List.nodup_cons.1 hnd
    have hi := his i List.mem_cons_self
    have hpi : ∀ j ∈ is, j ≠ i := fun j hj he => hni (he ▸ hj)
    rw [List.flatMap_cons] at htn htf ⊢
    have hpT : ∀ t ∈ kids σ.mem d p i, t ≠ p := fun t ht he =>
      List.disjoint_of_nodup_append htn (mem_append_left _ ht) (List.mem_singleton.2 he)
    have hpR : ∀ t ∈ is.flatMap (kids σ.mem d p), t ≠ p := fun t ht he =>
      List.disjoint_of_nodup_append htn (mem_append_right _ ht) (List.mem_singleton.2 he)
    have hTR : ∀ t ∈ kids σ.mem d p i, t ∉ is.flatMap (kids σ.mem d p) := fun t ht hc => by
      rw [append_assoc] at htn
      exact List.disjoint_of_nodup_append htn ht (mem_append_left _ hc)
    have hrest : (is.flatMap (kids σ.mem d p) ++ [p]).Nodup := by
      rw [append_assoc] at htn; exact htn.of_append_right
    -- a state in which only the children of entry `i` and entry `i` itself have changed
    have hstep : ∀ σ1 : Phys, (∀ j ∈ is, pteAt σ1.mem p j = pteAt σ.mem p j) →
        (∀ x, pgrounddown x ∉ kids σ.mem d p i → pgrounddown x ≠ p → σ1.mem x = σ.mem x) →
        wp (is.forM (freeEntry d p)) (fun _ σ' => FreedPages (is.flatMap (kids σ.mem d p))
          (is.flatMap (kids σ.mem d p) ++ [p]) σ1 σ') E σ1 := by
      intro σ1 hent hmem
      have hkid : ∀ j ∈ is, hasFlag (pteAt σ.mem p j) PTE_V = true →
          tables σ1.mem d (pte2pa (pteAt σ.mem p j)) = tables σ.mem d (pte2pa (pteAt σ.mem p j)) ∧
          NoLeaf σ1.mem d (pte2pa (pteAt σ.mem p j)) := by
        intro j hj hv
        refine tables_congr (hleaf j (mem_cons_of_mem i hj) hv).2 fun x hx => ?_
        have hxR : pgrounddown x ∈ is.flatMap (kids σ.mem d p) :=
          List.mem_flatMap.2 ⟨j, hj, by rw [kids_valid hv]; exact hx⟩
        exact hmem x (fun hc => hTR _ hc hxR) (hpR _ hxR)
      have heq : is.flatMap (kids σ1.mem d p) = is.flatMap (kids σ.mem d p) := by
        exact flatMap_congr fun j hj => kids_congr (hent j hj) fun hv => (hkid j hj hv).1
      rw [← heq]
      refine hrec (fun j hj => his j (mem_cons_of_mem i hj)) hnis (fun j hj hv => ?_) (by rw [heq]; exact hrest) fun t ht => ?_
      · rw [hent j hj] at hv ⊢
        exact ⟨(hleaf j (mem_cons_of_mem i hj) hv).1, (hkid j hj hv).2⟩
      · rw [heq] at ht
        exact htf t (mem_append_right _ ht)
    change wp (freeEntry d p i >>= fun _ => is.forM (freeEntry d p)) _ E σ
    rw [wp_bind, freeEntry, wp_bind, wp_loadPte, show Bytes.loadLE σ.mem (p + 8 * i) 8 = pteAt σ.mem p i from rfl]
    by_cases hv : hasFlag (pteAt σ.mem p i) PTE_V = true
    · obtain ⟨hl, hN⟩ := hleaf i List.mem_cons_self hv
      have hk : kids σ.mem d p i = tables σ.mem d (pte2pa (pteAt σ.mem p i)) := kids_valid hv
      rw [hk] at hstep htn htf hpT ⊢
      rw [hv, hl, Bool.not_false, Bool.true_and, if_pos rfl, wp_bind]
      refine wp_post (ih hN htn.of_append_left.of_append_left fun t ht => htf t (mem_append_left _ ht)) ?_
      rintro _ σ1 ⟨hf1, hs1, hm1⟩
      rw [wp_storePte]
      refine wp_post (hstep { σ1 with mem := Bytes.storeLE σ1.mem (p + 8 * i) 8 0 } ?_ ?_) ?_
      · intro j hj
        rw [pteAt_store hp hp hi (his j (mem_cons_of_mem i hj)) (by decide), if_neg (fun hc => hpi j hj hc.2.symm)]
        exact pteAt_congr hp (his j (mem_cons_of_mem i hj)) fun x hx => hm1 x fun hc => hpT _ hc hx
      · intro x hx hxp
        dsimp only
        rw [Bytes.storeLE_outside (by unfold pgrounddown at hxp; lia)]
        exact hm1 x hx
      · rintro _ σ' ⟨hf, hs, hm⟩
        refine ⟨by rw [hf, hf1, List.reverse_append, append_assoc], hs.trans hs1, fun x hx => ?_⟩
        have hxp : pgrounddown x ≠ p := fun he => hx (by rw [he]; simp)
        rw [hm x (fun hc => hx (by rw [append_assoc]; exact mem_append_right _ hc))]
        dsimp only
        rw [Bytes.storeLE_outside (by unfold pgrounddown at hxp; lia)]
        exact hm1 x fun hc => hx (mem_append_left _ (mem_append_left _ hc))
    · have hk : kids σ.mem d p i = [] := kids_invalid hv
      rw [Bool.not_eq_true] at hv
      rw [hk, List.nil_append, hv, Bool.false_and, if_neg Bool.false_ne_true, if_neg Bool.false_ne_true, wp_pure]
      exact hstep σ (fun _ _ => rfl) fun _ _ _ => rfl

theorem freewalk_spec (hN : NoLeaf σ.mem d p) (hnd : (tables σ.mem d p).Nodup)
    (hf : ∀ t ∈ tables σ.mem d p, Freeable t) :
    wp (freewalk d p) (fun _ σ' => FreedPages (tables σ.mem d p) (tables σ.mem d p) σ σ') E σ := by
  induction d generalizing p σ with
  | zero => exact absurd hN id
  | succ d ih =>
    have hself := hf p (mem_tables_self hN)
    rw [tables_succ] at hnd hf ⊢
    rw [freewalk_eq, wp_bind]
    refine wp_post (freeEntries_spec (fun h1 h2 h3 => ih h1 h2 h3) hN.1 (fun i hi => mem_ptes.1 hi) ptes_nodup
      (fun i hi => hN.2 i (mem_ptes.1 hi)) hnd fun t ht => hf t (mem_append_left _ ht)) ?_
    rintro _ σ1 ⟨hf1, hs1, hm1⟩
    rw [wp_kfree hself.1 hself.2.1 hself.2.2]
    refine ⟨?_, hs1, fun x hx => ?_⟩
    · rw [hf1, List.reverse_append]; rfl
    · have hxp : pgrounddown x ≠ p := fun he => hx (mem_append_right _ (List.mem_singleton.2 he))
      dsimp only
      rw [Bytes.fill_outside (by unfold pgrounddown at hxp; have := hself.1; lia)]
      exact hm1 x hx

structure Space.NoLeaves (A : Space) : Prop where
  pg : ∀ n, A.pg n = none
  dir : ∀ v w, A.dir v ≠ .leaf w

private def nodesL1 (i : Nat) : List Node := ptes.map (fun j => .l0 (i * 512 + j)) ++ [.l1 i]

private def nodes : List Node := ptes.flatMap nodesL1 ++ [.root]

theorem mem_nodesL1 {x : Node} : x ∈ nodesL1 i ↔ (∃ v, v / 512 = i ∧ x = .l0 v) ∨ x = .l1 i := by
  simp only [nodesL1, List.mem_append, List.mem_map, mem_ptes, List.mem_singleton]
  constructor
  · rintro (⟨j, hj, rfl⟩ | rfl)
    · exact .inl ⟨_, by omega, rfl⟩
    · exact .inr rfl
  · rintro (⟨v, rfl, rfl⟩ | rfl)
    · exact .inl ⟨v % 512, Nat.mod_lt _ (by decide), by rw [Nat.div_add_mod']⟩
    · exact .inr rfl

theorem nodes_nodup : nodes.Nodup := by
  have hL1 : ∀ i, (nodesL1 i).Nodup := by
    intro i
    refine List.nodup_append.2 ⟨?_, List.nodup_singleton _, ?_⟩
    · refine List.Nodup.map (fun j k he => ?_) ptes_nodup
      rw [Node.l0.injEq] at he
      omega
    · intro x hx y hy
      obtain ⟨j, -, rfl⟩ := List.mem_map.1 hx
      rw [List.mem_singleton.1 hy]; simp
  refine List.nodup_append.2 ⟨List.nodup_flatMap.2 ⟨fun i _ => hL1 i, ?_⟩, List.nodup_singleton _, ?_⟩
  · refine ptes_nodup.imp fun {i j} hij => ?_
    intro x hx hy
    rcases mem_nodesL1.1 hx with ⟨v, hv, rfl⟩ | rfl <;> rcases mem_nodesL1.1 hy with ⟨u, hu, he⟩ | he
    · rw [Node.l0.injEq] at he; omega
    · cases he
    · cases he
    · rw [Node.l1.injEq] at he; exact hij he
  · intro x hx y hy
    obtain ⟨i, -, hx⟩ := List.mem_flatMap.1 hx
    rw [List.mem_singleton.1 hy]
    rintro rfl
    rcases mem_nodesL1.1 hx with ⟨v, -, he⟩ | he <;> cases he

theorem tables_l0 (hr : Rep m A) (hA : A.NoLeaves) (hd : A.dir v = .table q) :
    NoLeaf m 1 q ∧ tables m 1 q = [q] := by
  have hinv : ∀ i < 512, hasFlag (pteAt m q i) PTE_V = false := by
    intro i hi
    have hn := hr.pg_none (n := v * 512 + i) (q := q) (by rw [show (v * 512 + i) / 512 = v by omega]; exact hd) (hA.pg _)
    rwa [show (v * 512 + i) % 512 = i by omega] at hn
  refine ⟨⟨(A.tbl_page (Space.tbl_l0 hd)).1, fun i hi hv => ?_⟩, ?_⟩
  · rw [hinv i hi] at hv; cases hv
  · have hnil : ptes.flatMap (kids m 0 q) = [] := by
      refine List.flatMap_eq_nil_iff.2 fun i hi => kids_invalid ?_
      rw [hinv i (mem_ptes.1 hi)]; exact Bool.false_ne_true
    rw [tables_succ, hnil]; rfl

theorem tables_l1 (hr : Rep m A) (hA : A.NoLeaves) (hp : A.l1 i = some p) :
    NoLeaf m 2 p ∧ tables m 2 p = (nodesL1 i).filterMap A.tbl := by
  have hcase : ∀ j < 512, (A.dir (i * 512 + j) = .none ∧ hasFlag (pteAt m p j) PTE_V = false) ∨
      ∃ q, A.dir (i * 512 + j) = .table q ∧ Points (pteAt m p j) q := by
    intro j hj
    have hp' : A.l1 ((i * 512 + j) / 512) = some p := by rw [show (i * 512 + j) / 512 = i by omega]; exact hp
    rcases hd : A.dir (i * 512 + j) with _ | q | w
    · have hn := hr.dir_none hp' hd
      rw [show (i * 512 + j) % 512 = j by omega] at hn
      exact .inl ⟨rfl, hn⟩
    · have hn := hr.dir_table hp' hd
      rw [show (i * 512 + j) % 512 = j by omega] at hn
      exact .inr ⟨q, rfl, hn⟩
    · exact absurd hd (hA.dir _ w)
  refine ⟨⟨(A.tbl_page (x := .l1 i) hp).1, fun j hj hv => ?_⟩, ?_⟩
  · rcases hcase j hj with ⟨-, hn⟩ | ⟨q, hd, -, hl, hpa⟩
    · rw [hn] at hv; cases hv
    · exact ⟨hl, by rw [hpa]; exact (tables_l0 hr hA hd).1⟩
  · rw [tables_succ, nodesL1, List.filterMap_append, List.filterMap_map, List.filterMap_eq_flatMap_toList]
    have hroot : [Node.l1 i].filterMap A.tbl = [p] := by simp [Tree.tbl, hp]
    rw [hroot]
    refine congrArg (· ++ [p]) (flatMap_congr fun j hj => ?_)
    rcases hcase j (mem_ptes.1 hj) with ⟨hd, hn⟩ | ⟨q, hd, hv, -, hpa⟩
    · rw [kids_invalid (by rw [hn]; exact Bool.false_ne_true)]; simp [Tree.tbl, hd]
    · rw [kids_valid hv, hpa, (tables_l0 hr hA hd).2]; simp [Tree.tbl, hd]

theorem tables_root (hr : Rep m A) (hA : A.NoLeaves) :
    NoLeaf m 3 A.root ∧ tables m 3 A.root = nodes.filterMap A.tbl := by
  refine ⟨⟨(A.tbl_page (x := .root) rfl).1, fun i hi hv => ?_⟩, ?_⟩
  · rcases hl : A.l1 i with _ | p
    · rw [hr.root_none hi hl] at hv; cases hv
    · obtain ⟨-, hlf, hpa⟩ := hr.root_some hl
      exact ⟨hlf, by rw [hpa]; exact (tables_l1 hr hA hl).1⟩
  · rw [tables_succ, nodes, List.filterMap_append, List.filterMap_flatMap]
    refine congrArg (· ++ [A.root]) (flatMap_congr fun i hi => ?_)
    rcases hl : A.l1 i with _ | p
    · rw [kids_invalid (by rw [hr.root_none (mem_ptes.1 hi) hl]; exact Bool.false_ne_true), eq_comm,
        List.filterMap_eq_nil_iff]
      intro x hx
      rcases mem_nodesL1.1 hx with ⟨v, hv, rfl⟩ | rfl
      · have hd : A.dir v = .none := by
          by_contra hc
          obtain ⟨q, hq⟩ := A.dir_l1 hc
          rw [hv, hl] at hq; cases hq
        simp [Tree.tbl, hd]
      · exact hl
    · obtain ⟨hv, -, hpa⟩ := hr.root_some hl
      rw [kids_valid hv, hpa, (tables_l1 hr hA hl).2]

theorem mem_tables_iff (hr : Rep m A) (hA : A.NoLeaves) : p ∈ tables m 3 A.root ↔ ∃ x, A.tbl x = some p := by
  rw [(tables_root hr hA).2, List.mem_filterMap]
  refine ⟨fun ⟨x, _, hx⟩ => ⟨x, hx⟩, fun ⟨x, hx⟩ => ⟨x, ?_, hx⟩⟩
  have hl1 : ∀ {i p}, A.l1 i = some p → i < 512 := fun hp => by have := A.l1_lt hp; omega
  rcases x with _ | i | v
  · exact mem_append_right _ (List.mem_singleton_self _)
  · exact mem_append_left _ (List.mem_flatMap.2 ⟨i, mem_ptes.2 (hl1 hx), mem_nodesL1.2 (.inr rfl)⟩)
  · have hd : A.dir v ≠ .none := by
      intro hc
      simp [Tree.tbl, hc] at hx
    obtain ⟨q, hq⟩ := A.dir_l1 hd
    exact mem_append_left _ (List.mem_flatMap.2
      ⟨v / 512, mem_ptes.2 (hl1 hq), mem_nodesL1.2 (.inl ⟨v, rfl, rfl⟩)⟩)

theorem tables_nodup (hr : Rep m A) (hA : A.NoLeaves) : (tables m 3 A.root).Nodup := by
  rw [(tables_root hr hA).2]
  exact nodes_nodup.filterMap fun x y p hx hy => A.tbl_inj hx hy

theorem uvmcreate_spec (lo : Nat) {Q : Option Nat → Phys → Prop} (hs : Sep σ Holdings.none h) (hnone : σ.freelist = [] → Q none σ)
    (hsome : ∀ p σ' hp, Live σ' (Space.empty p hp) h → Keeps lo σ Holdings.none h σ' (Space.empty p hp).holdings h →
      σ.freelist = p :: σ'.freelist → σ'.superpages = σ.superpages → Q (some p) σ') :
    wp uvmcreate Q E σ := by
  unfold uvmcreate
  rw [wp_bind]
  refine kalloc_spec lo hs hnone fun p σ1 hs1 hk ha hfl hsup => ?_
  simp only [wp_bind, wp_memset, wp_pure]
  have hp := hs1.page_ok.pageAddr
  have hfill : AgreeOff (held (Owns lo σ1 Holdings.none (.page p :: h))) σ1.mem (Bytes.fill σ1.mem p PGSIZE 0) :=
    AgreeOff.fill_page hs1.page_ok.1 ⟨.hand, List.mem_cons_self⟩
  have hplace := hs1.place lo { σ1 with mem := Bytes.fill σ1.mem p PGSIZE 0 } (x := .table .root) trivial rfl rfl rfl hfill
  have hh : (Space.empty p hp).holdings = Function.update Holdings.none (.table .root) (some (.page p)) := by
    funext x
    rcases x with (_ | i | v) | n | v
    · rfl
    · rfl
    · rfl
    · simp [Space.holdings, Space.empty, Holdings.none]
    · rfl
  rw [← hh] at hplace
  exact hsome p _ hp ⟨Rep.empty hp, hplace.1⟩ (hk.trans hplace.2) hfl hsup

structure Dissolved (lo : Nat) (σ : Phys) (A : Space) (h : List Block) (σ' : Phys) : Prop where
  sep : Sep σ' Holdings.none h
  keeps : Keeps lo σ A.holdings h σ' Holdings.none h
  freelist : σ.freelist <:+ σ'.freelist
  superpages : σ.superpages <:+ σ'.superpages

theorem Space.NoLeaves.holdings (hA : A.NoLeaves) {x : Place} (hb : A.holdings x = some b) : ∃ y, x = .table y := by
  rcases x with y | n | v
  · exact ⟨y, rfl⟩
  · simp [Space.holdings, hA.pg n] at hb
  · rcases hd : A.dir v with _ | q | w
    · simp [Space.holdings, hd] at hb
    · simp [Space.holdings, hd] at hb
    · exact absurd hd (hA.dir v w)

theorem Live.freewalk_spec (lo : Nat) (hL : Live σ A h) (hA : A.NoLeaves) :
    wp (freewalk 3 A.root) (fun _ σ' => Dissolved lo σ A h σ') E σ := by
  have hmem : ∀ {p}, p ∈ tables σ.mem 3 A.root ↔ ∃ x, A.holdings (.table x) = some (.page p) := by
    intro p
    rw [mem_tables_iff hL.rep hA]
    simp [Space.holdings_table]
  have hown : ∀ {p}, p ∈ tables σ.mem 3 A.root → ∃ x, ∀ l, Owns l σ A.holdings h (.at (.table x)) (.page p) := by
    intro p hp
    obtain ⟨x, hx⟩ := hmem.1 hp
    exact ⟨x, fun l => ⟨trivial, hx⟩⟩
  have hnd := tables_nodup hL.rep hA
  have hfreeable : ∀ t ∈ tables σ.mem 3 A.root, Freeable t := by
    intro t ht
    obtain ⟨x, hx⟩ := hown ht
    obtain ⟨h1, h2, h3⟩ := hL.sep.ok _ _ (hx 0)
    exact ⟨h1, h2, by lia⟩
  have hspec := Xv6.freewalk_spec (E := E) (σ := σ) (d := 3) (p := A.root) (tables_root hL.rep hA).1 hnd hfreeable
  generalize tables σ.mem 3 A.root = ts at *
  refine wp_post hspec ?_
  rintro _ σ' ⟨hf, hs, hm⟩
  -- the free list gains the page-table pages, and no other owner is left but the hand
  have hfree : ∀ c, σ'.Free c ↔ σ.Free c ∨ ∃ x, A.holdings (.table x) = some c := by
    rintro (p | s)
    · simp only [Phys.Free, hf, List.mem_append, List.mem_reverse, hmem]
      exact or_comm
    · simp only [Phys.Free, hs, Space.holdings_table, Option.map_eq_some_iff, reduceCtorEq, and_false, exists_false,
        or_false]
  have hheld : ∀ l, held (Owns l σ' Holdings.none h) = held (Owns l σ A.holdings h) := by
    intro l
    ext c
    constructor
    · rintro ⟨o, ho⟩
      rcases o with _ | _ | x
      · rcases (hfree c).1 ho with hc | ⟨x, hx⟩
        · exact ⟨.free, hc⟩
        · exact ⟨.at (.table x), trivial, hx⟩
      · exact ⟨.hand, ho⟩
      · cases ho.2
    · rintro ⟨o, ho⟩
      rcases o with _ | _ | x
      · exact ⟨.free, (hfree c).2 (.inl ho)⟩
      · exact ⟨.hand, ho⟩
      · obtain ⟨y, rfl⟩ := hA.holdings ho.2
        exact ⟨.free, (hfree c).2 (.inr ⟨y, ho.2⟩)⟩
  have hhand : ∀ c, c ∈ h → ¬σ'.Free c := by
    intro c hc hcf
    rcases (hfree c).1 hcf with hcf | ⟨x, hx⟩
    · exact hL.sep.hand_not_free hc hcf
    · exact hL.sep.placed_not_hand hx hc
  refine ⟨⟨?_, ?_, ?_, hs ▸ hL.sep.superpages_nodup, hL.sep.hand_nodup⟩, ⟨fun l _ => hheld l, ?_⟩, ?_, ?_⟩
  · intro o o' c ho ho'
    rcases o with _ | _ | x <;> rcases o' with _ | _ | y
    · rfl
    · exact absurd ho (hhand c ho')
    · cases ho'.2
    · exact absurd ho' (hhand c ho)
    · rfl
    · cases ho'.2
    · cases ho.2
    · cases ho.2
    · cases ho.2
  · intro o c ho
    obtain ⟨o', ho'⟩ : c ∈ held (Owns 0 σ A.holdings h) := hheld 0 ▸ mem_held ho
    exact hL.sep.ok o' c ho'
  · rw [hf, List.nodup_append]
    refine ⟨List.nodup_reverse.2 hnd, hL.sep.freelist_nodup, fun p hp q hq => ?_⟩
    rintro rfl
    obtain ⟨x, hx⟩ := hown (List.mem_reverse.1 hp)
    exact hL.sep.placed_not_free (hx 0).2 hq
  · intro a ha _
    apply hm
    intro hc
    obtain ⟨x, hx⟩ := hown hc
    exact ha (mem_held (hx lo))
  · rw [hf]; exact List.suffix_append _ _
  · rw [hs]

theorem uvmfree_spec (hL : Live σ A h) (hA : A.Sized (npages sz)) (hsz : npages sz ≤ userPages)
    (hhigh : ∀ n, userPages ≤ n → A.pg n = none) :
    wp (uvmfree A.root sz) (fun _ σ' => Dissolved 0 σ A h σ') E σ := by
  have hmax : sz ≤ MAXVA := by unfold npages at hsz; lia
  have hall : ∀ n, npages sz ≤ n → A.pg n = none := by
    intro n hn
    rcases Nat.lt_or_ge n userPages with hlt | hge
    · exact hA.pg_none n hn hlt
    · exact hhigh n hge
  unfold uvmfree
  by_cases hpos : 0 < sz
  · rw [if_pos hpos, wp_bind, pgroundup_npages hmax, Nat.mul_div_cancel _ (by decide)]
    have hun := uvmunmap_spec 0 (E := E) hsz hL hA.tiled le_rfl (Nat.zero_le _)
    rw [Nat.zero_mul, Nat.sub_zero] at hun
    refine wp_post hun ?_
    rintro _ σ1 ⟨A1, hF⟩
    have hA1 : A1.NoLeaves := by
      refine ⟨fun n => ?_, fun v w hw => ?_⟩
      · rw [hF.unmaps.pg]
        split
        · rfl
        · exact hall n (by omega)
      · rw [hF.unmaps.dir] at hw
        split at hw
        · rcases hd : A.dir v with _ | q | u <;> rw [hd] at hw <;> simp [Dir.unleaf] at hw
        · have := hA.dir_le v w hw
          omega
    rw [← hF.root]
    refine wp_post (hF.live.freewalk_spec 0 hA1) ?_
    rintro _ σ' hD
    exact ⟨hD.sep, hF.keeps.trans hD.keeps, hF.freelist.trans hD.freelist, hF.superpages.trans hD.superpages⟩
  · obtain rfl : sz = 0 := by omega
    rw [if_neg hpos]
    rw [npages_zero] at hall hA
    exact hL.freewalk_spec 0 ⟨fun n => hall n (Nat.zero_le n), fun v w hw => absurd (hA.dir_le v w hw) (by omega)⟩

end Xv6
