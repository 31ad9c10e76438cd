import Xv6.Vm.Map

/-!
# Removing mappings

`uvmunmap` on an address space that owns its blocks. A range of pages is `Tiled` if leaves cover it without
crossing its ends; unmapping such a range gives every frame back to the allocator it came from and leaves the
page-table pages as they are.
-/

namespace Xv6

open Bytes (Mem fill storeLE)
open Hoare Ledger

variable {σ σ' σ'' : Phys} {A A' A'' : Space} {h h' h'' : List Block} {b : Block} {lo hi : Nat} {m m' : Mem}
  {X : Set Block} {E : String → Prop} {i p q v n k w va a : Nat} {Q : Unit → Phys → Prop} {doFree : Bool}

/-- Leaves cover the pages from `lo` to `hi` and none of them crosses `lo` or `hi`. The code recognises a superpage
by its bit R. -/
def Space.Tiled (A : Space) (lo hi : Nat) : Prop :=
  ∀ n, lo ≤ n → n < hi → (∃ w, A.pg n = some w) ∨
    ∃ w, A.dir (n / 512) = .leaf w ∧ hasFlag w PTE_R = true ∧ lo ≤ n / 512 * 512 ∧ n / 512 * 512 + 512 ≤ hi

def Dir.unleaf : Dir → Dir
  | .leaf _ => .none
  | d => d

/-- `A'` is `A` without the leaves from page `lo` to page `hi`. -/
structure Unmaps (lo hi : Nat) (A A' : Space) : Prop where
  l1 : A'.l1 = A.l1
  pg : ∀ n, A'.pg n = if lo ≤ n ∧ n < hi then none else A.pg n
  dir : ∀ v, A'.dir v = if lo ≤ v * 512 ∧ v * 512 < hi then (A.dir v).unleaf else A.dir v

theorem Points.not_readable {e : Nat} (hp : Points e p) : hasFlag e PTE_R = false := by
  have hl := hp.2.1
  simp only [pteLeaf, Bool.or_eq_false_iff] at hl
  exact hl.1.1

def Space.superAt (A : Space) (n : Nat) : Option (Nat × Nat) :=
  if n % 512 = 0 then
    match A.l1 (n / 512 / 512), A.dir (n / 512) with
    | some p, .leaf w => if hasFlag w PTE_R then some (p + 8 * (n / 512 % 512), w) else none
    | _, _ => none
  else none

theorem wp_superPteAt {Q : Option (Nat × Nat) → Phys → Prop} (hr : Rep σ.mem A) (hn : n * PGSIZE < MAXVA) :
    wp (superPteAt A.root (n * PGSIZE)) Q E σ ↔ Q (A.superAt n) σ := by
  unfold superPteAt
  by_cases hal : n % 512 = 0
  · have hdiv : n * PGSIZE / SUPERPGSIZE = n / 512 := by lia
    rw [if_neg (by lia), wp_bind, wp_superwalk_false hr hn, Space.superSlot, Space.superAt, if_pos hal, hdiv]
    rcases hp : A.l1 (n / 512 / 512) with _ | p
    · simp only [Option.map_none, wp_pure]
    · simp only [Option.map_some, wp_bind, wp_loadPte]
      rcases hd : A.dir (n / 512) with _ | q | w
      · have he := hr.dir_none hp hd
        unfold pteAt at he
        simp only [he, Bool.false_and, Bool.false_eq_true, if_false, wp_pure]
      · have he := (hr.dir_table hp hd).not_readable
        unfold pteAt at he
        simp only [he, Bool.and_false, Bool.false_eq_true, if_false, wp_pure]
      · have he := hr.dir_leaf hp hd
        unfold pteAt at he
        simp only [he, (A.dir_leaf hd).valid, Bool.true_and]
        split <;> exact wp_pure
  · rw [if_pos (by lia), Space.superAt, if_neg hal, wp_pure]

theorem Space.superAt_leaf (hn : n % 512 = 0) (hd : A.dir (n / 512) = .leaf w) (hR : hasFlag w PTE_R = true) :
    ∃ p, A.l1 (n / 512 / 512) = some p ∧ A.superAt n = some (p + 8 * (n / 512 % 512), w) := by
  obtain ⟨p, hp⟩ := A.dir_l1 (v := n / 512) (by rw [hd]; simp)
  exact ⟨p, hp, by rw [Space.superAt, if_pos hn, hp, hd]; simp only [hR, if_true]⟩

theorem Space.superAt_pg (hpg : A.pg n = some w) : A.superAt n = none := by
  obtain ⟨q, hq⟩ := A.pg_dir hpg
  unfold Space.superAt
  split
  · rw [hq]; split <;> simp_all
  · rfl

theorem Space.not_table (hd : A.dir v = .leaf w) (q : Nat) : A.dir v ≠ .table q := by rw [hd]; simp

theorem Space.dirOk_none : A.DirOk .none := trivial

theorem reclaim_page (hL : Live σ A h) (hn : n < userPages) (hlo : lo ≤ n) (hpg : A.pg n = some w)
    (hq : A.dir (n / 512) = .table q) :
    Evolves lo σ A h
      { σ with
        mem := storeLE (fill σ.mem (pte2pa w) PGSIZE 1) (q + 8 * (n % 512)) 8 0
        freelist := pte2pa w :: σ.freelist }
      (A.setPg n none ⟨q, hq⟩ (by simp)) h := by
  have hplace : A.holdings (.page n) = some (.page (pte2pa w)) := by rw [Space.holdings, if_pos hn, hpg]; rfl
  have hown : ∀ l ≤ n, Owns l σ A.holdings h (.at (.page n)) (.page (pte2pa w)) := fun l hl => ⟨hl, hplace⟩
  have hok := hL.sep.placed_ok hplace
  have hfree : pte2pa w ∉ σ.freelist := hL.sep.placed_not_free hplace
  have htbl : ∀ x b, A.holdings (.table x) = some b → b ∉ ({.page (pte2pa w)} : Set Block) := by
    rintro x b hx rfl
    cases hL.sep.placed_inj hx hplace
  have hfill : AgreeOff {.page (pte2pa w)} σ.mem (fill σ.mem (pte2pa w) PGSIZE 1) :=
    AgreeOff.fill_page hok.1 (Set.mem_singleton _)
  have hrep := hL.rep.agree hL.sep hfill htbl (fun s hs => by cases hs)
  have hqs : Block.page q ∈ held (Owns lo σ A.holdings h) :=
    ⟨.at (.table (.l0 (n / 512))), trivial, by rw [Space.holdings_table, Space.tbl_l0 hq]; rfl⟩
  have hag : AgreeOff (held (Owns lo σ A.holdings h)) σ.mem
      (storeLE (fill σ.mem (pte2pa w) PGSIZE 1) (q + 8 * (n % 512)) 8 0) :=
    (hfill.mono (Set.singleton_subset_iff.2 (mem_held (hown lo hlo)))).trans
      (AgreeOff.storePte (A.tbl_page (Space.tbl_l0 hq)).1 hqs (Nat.mod_lt _ (by decide)))
  have hstep := hL.sep.reclaim lo { σ with
      mem := storeLE (fill σ.mem (pte2pa w) PGSIZE 1) (q + 8 * (n % 512)) 8 0
      freelist := pte2pa w :: σ.freelist } (x := .page n) hlo hplace
    (by rintro (r | t) <;> simp [Phys.Free, or_comm]) (List.nodup_cons.2 ⟨hfree, hL.sep.freelist_nodup⟩)
    hL.sep.superpages_nodup hag
  have hh : (A.setPg n none ⟨q, hq⟩ (by simp)).holdings = Function.update A.holdings (.page n) none := by
    rw [Space.holdings_setPg, Option.map_none, ite_self]
  rw [← hh] at hstep
  exact ⟨⟨hrep.setPg hq _ rfl, hstep.1⟩, hstep.2, rfl⟩

theorem reclaim_super (hL : Live σ A h) (hlo : lo ≤ v * 512) (hd : A.dir v = .leaf w)
    (hq : A.l1 (v / 512) = some q) :
    Evolves lo σ A h
      { σ with
        mem := storeLE (fill σ.mem (pte2pa w) SUPERPGSIZE 1) (q + 8 * (v % 512)) 8 0
        superpages := pte2pa w :: σ.superpages }
      (A.setDir v .none ⟨q, hq⟩ (Space.not_table hd) Space.dirOk_none) h := by
  have hplace : A.holdings (.super v) = some (.super (pte2pa w)) := by simp only [Space.holdings, hd]
  have hown : ∀ l ≤ v * 512, Owns l σ A.holdings h (.at (.super v)) (.super (pte2pa w)) := fun l hl => ⟨hl, hplace⟩
  have hok := hL.sep.placed_ok hplace
  have hfree : pte2pa w ∉ σ.superpages := hL.sep.placed_not_free hplace
  have htbl : ∀ x b, A.holdings (.table x) = some b → b ∉ ({.super (pte2pa w)} : Set Block) := by
    rintro x b hx rfl
    cases hL.sep.placed_inj hx hplace
  have hfill : AgreeOff {.super (pte2pa w)} σ.mem (fill σ.mem (pte2pa w) SUPERPGSIZE 1) :=
    AgreeOff.fill_super hok.1 (Set.mem_singleton _)
  have hrep := hL.rep.agree hL.sep hfill htbl (fun s hs => by rw [Set.mem_singleton_iff.1 hs]; exact hok)
  have hqs : Block.page q ∈ held (Owns lo σ A.holdings h) :=
    ⟨.at (.table (.l1 (v / 512))), trivial, by rw [Space.holdings_table, Tree.tbl, hq]; rfl⟩
  have hag : AgreeOff (held (Owns lo σ A.holdings h)) σ.mem
      (storeLE (fill σ.mem (pte2pa w) SUPERPGSIZE 1) (q + 8 * (v % 512)) 8 0) :=
    (hfill.mono (Set.singleton_subset_iff.2 (mem_held (hown lo hlo)))).trans
      (AgreeOff.storePte (A.tbl_page (x := .l1 (v / 512)) hq).1 hqs (Nat.mod_lt _ (by decide)))
  have hstep := hL.sep.reclaim lo { σ with
      mem := storeLE (fill σ.mem (pte2pa w) SUPERPGSIZE 1) (q + 8 * (v % 512)) 8 0
      superpages := pte2pa w :: σ.superpages } (x := .super v) hlo hplace
    (by rintro (r | t) <;> simp [Phys.Free, or_comm]) hL.sep.freelist_nodup
    (List.nodup_cons.2 ⟨hfree, hL.sep.superpages_nodup⟩) hag
  rw [← Space.holdings_clearSuper ⟨q, hq⟩ (Space.not_table hd) Space.dirOk_none] at hstep
  exact ⟨⟨hrep.clearSuper hq _, hstep.1⟩, hstep.2, rfl⟩

theorem Space.pg_lt (hpg : A.pg n = some w) : n < 67108864 := by
  obtain ⟨q, hq⟩ := A.pg_dir hpg
  obtain ⟨p, hp⟩ := A.dir_l1 (v := n / 512) (by rw [hq]; simp)
  have := A.l1_lt hp
  omega

theorem LeafPte.flags_ne (hw : LeafPte w) : pteFlags w ≠ PTE_V := by
  intro hc
  have hR : hasFlag (pteFlags w) PTE_R = hasFlag w PTE_R := hasFlag_pteFlags (k := 1) (by decide)
  have hX : hasFlag (pteFlags w) PTE_X = hasFlag w PTE_X := hasFlag_pteFlags (k := 3) (by decide)
  rw [hc] at hR hX
  rcases hw.perm with hf | hf
  · rw [hf] at hR; exact absurd hR (by decide)
  · rw [hf] at hX; exact absurd hX (by decide)

theorem wp_uvmunmapPage_leaf {va l a : Nat} (hr : Rep σ.mem A)
    (hl : A.leafAt va = some (l, w)) (ha : A.slot va = some a) :
    wp (uvmunmapPage A.root va doFree) Q E σ ↔
      wp (do freeIf doFree (kfree (pte2pa w)); storePte a 0) Q E σ := by
  obtain ⟨a', ha', he⟩ := hr.slot_load hl
  obtain rfl : a' = a := Option.some.inj (ha'.symm.trans ha)
  have hleaf := Space.leafAt_pte hl
  unfold uvmunmapPage
  rw [wp_bind, wp_walk_false hr (Space.leafAt_lt hl), ha]
  simp only [wp_bind, wp_loadPte, he, hleaf.valid, Bool.not_true, Bool.false_eq_true, if_false, if_neg hleaf.flags_ne]

theorem wp_uvmunmapPage (hr : Rep σ.mem A) (hpg : A.pg n = some w)
    (hq : A.dir (n / 512) = .table q) :
    wp (uvmunmapPage A.root (n * PGSIZE) doFree) Q E σ ↔
      wp (do freeIf doFree (kfree (pte2pa w)); storePte (q + 8 * (n % 512)) 0) Q E σ := by
  have hdiv : n * PGSIZE / PGSIZE = n := Nat.mul_div_cancel n (by decide)
  have hq' : A.dir (n * PGSIZE / SUPERPGSIZE) = .table q := by rw [← page_div, hdiv]; exact hq
  refine wp_uvmunmapPage_leaf (l := 0) hr ?_ ?_
  · rw [Space.leafAt, hq', hdiv, hpg]; rfl
  · rw [Space.slot_table hq', hdiv]

theorem Unmaps.setPg (hq : A.dir (n / 512) = .table q) :
    Unmaps n (n + 1) A (A.setPg n none ⟨q, hq⟩ (by simp)) := by
  refine ⟨rfl, fun k => ?_, fun v => ?_⟩
  · rw [Space.setPg_pg]
    by_cases hk : k = n
    · subst hk; rw [Function.update_self, if_pos ⟨le_rfl, Nat.lt_succ_self k⟩]
    · rw [Function.update_of_ne hk, if_neg (by omega)]
  · rw [Space.setPg_dir]
    split
    · have hv : v = n / 512 := by omega
      rw [hv, hq]; rfl
    · rfl

theorem uvmunmapPage_spec (hL : Live σ A h) (hn : n < userPages) (hlo : lo ≤ n)
    (hpg : A.pg n = some w)
    (hQ : ∀ σ' A', Evolves lo σ A h σ' A' h → Unmaps n (n + 1) A A' → σ'.freelist = pte2pa w :: σ.freelist →
      σ'.superpages = σ.superpages → Q () σ') :
    wp (uvmunmapPage A.root (n * PGSIZE) true) Q E σ := by
  obtain ⟨q, hq⟩ := A.pg_dir hpg
  obtain ⟨h1, h2, h3⟩ : (Block.page (pte2pa w)).Ok :=
    hL.sep.ok (.at (.page n)) _ ⟨Nat.zero_le n, by rw [Space.holdings, if_pos hn, hpg]; rfl⟩
  rw [wp_uvmunmapPage hL.rep hpg hq, freeIf, if_pos rfl, wp_bind, wp_kfree h1 h2 (by lia), wp_storePte]
  dsimp only
  exact hQ _ _ (reclaim_page hL hn hlo hpg hq) (Unmaps.setPg hq) rfl rfl

theorem unmapSuper_spec (hL : Live σ A h) (hlo : lo ≤ n)
    (hn : n % 512 = 0) (hd : A.dir (n / 512) = .leaf w) (hq : A.l1 (n / 512 / 512) = some q)
    (hQ : ∀ σ' A', Evolves lo σ A h σ' A' h → Unmaps n (n + 512) A A' → σ'.superpages = pte2pa w :: σ.superpages →
      σ'.freelist = σ.freelist → Q () σ') :
    wp (do freeIf true (superfree (pte2pa w)); storePte (q + 8 * (n / 512 % 512)) 0) Q E σ := by
  have hlo' : lo ≤ n / 512 * 512 := by omega
  have hplace : A.holdings (.super (n / 512)) = some (.super (pte2pa w)) := by simp only [Space.holdings, hd]
  have hok := hL.sep.placed_ok hplace
  simp only [freeIf, if_true]
  rw [wp_bind, wp_superfree hok.1 hok.2.1 hok.2.2 (hL.sep.superpages_length hok (hL.sep.placed_not_free hplace)), wp_storePte]
  dsimp only
  refine hQ _ _ (reclaim_super hL hlo' hd hq) ⟨rfl, fun k => ?_, fun v => ?_⟩ rfl rfl
  · rw [Space.setDir_pg]
    split
    · rename_i hk
      by_contra hc
      obtain ⟨u, hu⟩ := Option.ne_none_iff_exists'.1 hc
      obtain ⟨t, ht⟩ := A.pg_dir hu
      rw [show k / 512 = n / 512 by omega, hd] at ht; cases ht
    · rfl
  · rw [Space.setDir_dir]
    by_cases hv : v = n / 512
    · subst hv
      rw [Function.update_self, if_pos (by omega), hd]; rfl
    · rw [Function.update_of_ne hv, if_neg (by omega)]

theorem Unmaps.refl : Unmaps n n A A :=
  ⟨rfl, fun k => by rw [if_neg (by omega)], fun v => by rw [if_neg (by omega)]⟩

theorem Unmaps.trans (h1 : Unmaps n k A A') (h2 : Unmaps k hi A' A'') (hn : n ≤ k) (hk : k ≤ hi) :
    Unmaps n hi A A'' := by
  refine ⟨h2.l1.trans h1.l1, fun j => ?_, fun v => ?_⟩
  · rw [h2.pg, h1.pg]
    split_ifs <;> first | rfl | omega
  · rw [h2.dir, h1.dir]
    split_ifs <;> first | rfl | omega

theorem Space.Tiled.unmaps (hT : A.Tiled n hi) (hU : Unmaps n k A A') (hnk : n ≤ k)
    (hk : ∀ j, k ≤ j → j < hi → ∀ w, A.dir (j / 512) = .leaf w → k ≤ j / 512 * 512) : A'.Tiled k hi := by
  intro j hkj hj
  rcases hT j (hnk.trans hkj) hj with ⟨u, hu⟩ | ⟨u, hd, hR, -, h2⟩
  · exact .inl ⟨u, by rw [hU.pg, if_neg (by omega)]; exact hu⟩
  · have hle := hk j hkj hj u hd
    exact .inr ⟨u, by rw [hU.dir, if_neg (by omega)]; exact hd, hR, hle, h2⟩

/-- What `uvmunmap` does to a tiled range: its frames go back to the free lists. -/
structure Freed (lo n hi : Nat) (σ : Phys) (A : Space) (h : List Block) (σ' : Phys) (A' : Space) : Prop
    extends Evolves lo σ A h σ' A' h where
  unmaps : Unmaps n hi A A'
  freelist : σ.freelist <:+ σ'.freelist
  superpages : σ.superpages <:+ σ'.superpages

theorem Freed.trans (h1 : Freed lo n k σ A h σ' A') (h2 : Freed lo k hi σ' A' h σ'' A'') (hn : n ≤ k) (hk : k ≤ hi) :
    Freed lo n hi σ A h σ'' A'' :=
  ⟨h1.toEvolves.trans h2.toEvolves, h1.unmaps.trans h2.unmaps hn hk, h1.freelist.trans h2.freelist,
    h1.superpages.trans h2.superpages⟩

theorem uvmunmapLoop_spec (hhi : hi ≤ userPages) (hL : Live σ A h) (hT : A.Tiled n hi) (hlo : lo ≤ n) (hn : n ≤ hi) :
    wp (uvmunmapLoop A.root (hi * PGSIZE) true (n * PGSIZE)) (fun _ σ' => ∃ A', Freed lo n hi σ A h σ' A') E σ := by
  induction hk : hi - n using Nat.strong_induction_on generalizing n A σ with
  | _ k ih =>
    rw [uvmunmapLoop]
    by_cases hlt : n < hi
    · rw [dif_pos (by lia), wp_bind, wp_superPteAt hL.rep (by lia)]
      rcases hT n le_rfl hlt with ⟨w, hpg⟩ | ⟨w, hd, hR, h1, h2⟩
      · -- a 4 KiB page
        rw [Space.superAt_pg hpg]
        simp only [wp_bind]
        refine uvmunmapPage_spec hL (by omega) hlo hpg fun σ1 A1 hE hU hfl hsup => ?_
        have hstep : Freed lo n (n + 1) σ A h σ1 A1 :=
          ⟨hE, hU, hfl ▸ List.suffix_cons _ _, hsup ▸ List.suffix_rfl⟩
        have hT1 : A1.Tiled (n + 1) hi := by
          refine hT.unmaps hU (by omega) fun j hj hjhi u hu => ?_
          obtain ⟨q, hq⟩ := A.pg_dir hpg
          by_contra hc
          rw [show j / 512 = n / 512 by omega, hq] at hu; cases hu
        have hrec := ih (hi - (n + 1)) (by omega) hE.live hT1 (by omega) (by omega) rfl
        rw [hE.root, show (n + 1) * PGSIZE = n * PGSIZE + PGSIZE by lia] at hrec
        refine wp_post hrec ?_
        rintro _ σ' ⟨A', hF⟩
        exact ⟨A', hstep.trans hF (by omega) (by omega)⟩
      · -- a superpage, which starts here
        have hal : n % 512 = 0 := by omega
        obtain ⟨q, hq, hsa⟩ := Space.superAt_leaf hal hd hR
        rw [hsa]
        simp only [← bind_assoc]
        rw [wp_bind]
        refine unmapSuper_spec hL hlo hal hd hq fun σ1 A1 hE hU hsup hfl => ?_
        have hstep : Freed lo n (n + 512) σ A h σ1 A1 :=
          ⟨hE, hU, hfl ▸ List.suffix_rfl, hsup ▸ List.suffix_cons _ _⟩
        have hT1 : A1.Tiled (n + 512) hi := hT.unmaps hU (by omega) fun j hj hjhi u hu => by omega
        have hrec := ih (hi - (n + 512)) (by omega) hE.live hT1 (by omega) (by omega) rfl
        rw [hE.root, show (n + 512) * PGSIZE = n * PGSIZE + SUPERPGSIZE by lia] at hrec
        refine wp_post hrec ?_
        rintro _ σ' ⟨A', hF⟩
        exact ⟨A', hstep.trans hF (by omega) (by omega)⟩
    · rw [dif_neg (by lia), wp_pure]
      obtain rfl : n = hi := by omega
      exact ⟨A, Evolves.refl hL, Unmaps.refl, List.suffix_rfl, List.suffix_rfl⟩

theorem uvmunmap_spec (lo : Nat) (hhi : hi ≤ userPages) (hL : Live σ A h) (hT : A.Tiled n hi) (hlo : lo ≤ n) (hn : n ≤ hi) :
    wp (uvmunmap A.root (n * PGSIZE) (hi - n) true) (fun _ σ' => ∃ A', Freed lo n hi σ A h σ' A') E σ := by
  unfold uvmunmap
  rw [if_neg (by lia), show (n * PGSIZE + (hi - n) * PGSIZE) % 2 ^ 64 = hi * PGSIZE by lia]
  exact uvmunmapLoop_spec hhi hL hT hlo hn

theorem uvmunmap_high_spec (lo : Nat) (hL : Live σ A h) (hn : userPages ≤ n) (hpg : A.pg n = some w) :
    wp (uvmunmap A.root (n * PGSIZE) 1 false) (fun _ σ' => ∃ A', Freed lo n (n + 1) σ A h σ' A' ∧
      σ'.freelist = σ.freelist ∧ σ'.superpages = σ.superpages) E σ := by
  obtain ⟨q, hq⟩ := A.pg_dir hpg
  have hlt := Space.pg_lt hpg
  have hqt : Block.page q ∈ scratch σ A.holdings :=
    Or.inr ⟨.l0 (n / 512), by rw [Space.holdings_table, Space.tbl_l0 hq]; rfl⟩
  have hag : AgreeOff (scratch σ A.holdings) σ.mem (storeLE σ.mem (q + 8 * (n % 512)) 8 0) :=
    AgreeOff.storePte (A.tbl_page (Space.tbl_l0 hq)).1 hqt (Nat.mod_lt _ (by decide))
  obtain ⟨hs, hO⟩ := hL.sep.of_lists { σ with mem := storeLE σ.mem (q + 8 * (n % 512)) 8 0 } rfl rfl
  have hh : (A.setPg n none ⟨q, hq⟩ (by simp)).holdings = A.holdings := Space.holdings_setPg_high hn
  unfold uvmunmap
  rw [if_neg (by lia), show (n * PGSIZE + 1 * PGSIZE) % 2 ^ 64 = n * PGSIZE + PGSIZE by lia, uvmunmapLoop,
    dif_pos (by lia), wp_bind, wp_superPteAt hL.rep (by lia), Space.superAt_pg hpg]
  simp only []
  rw [wp_bind, wp_uvmunmapPage hL.rep hpg hq, freeIf, if_neg Bool.false_ne_true, pure_bind, wp_storePte, uvmunmapLoop,
    dif_neg (by lia), wp_pure]
  refine ⟨A.setPg n none ⟨q, hq⟩ (by simp), ⟨⟨⟨hL.rep.setPg hq _ rfl, ?_⟩, ?_, rfl⟩, Unmaps.setPg hq,
    List.suffix_rfl, List.suffix_rfl⟩, rfl, rfl⟩
  · rw [hh]; exact hs
  · rw [hh]; exact ⟨fun l _ => by rw [hO l], hag.mono scratch_subset_held⟩

end Xv6
