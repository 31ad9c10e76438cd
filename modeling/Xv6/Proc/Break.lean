import Xv6.Proc.Run

/-!
# The break of a process and its leaves

In a run without a shrink that cuts a superpage, the leaves of every process are the pages below its break, the trapframe and the
trampoline, and the panics that guard this are unreachable. A shrink by one page of a process that ends with a superpage breaks it.
-/

namespace Xv6

open Function (update_self)
open Bytes (Mem)
open Hoare Ledger

variable {κ κ' : Kernel} {S : Pid → Option Space} {K : List Nat} {σ σ' : Phys} {A A' : Space} {E : String → Prop}
  {w w' : World} {i : Pid} {T : Asked} {op : Op} {n : Nat} {tf va e v l sz pages supers newsz a : Nat}
  {C C' : World → Op → Prop}

/-- The leaves of the process are in step with its size: every address below the break, rounded up to a page, is mapped
by a 4 KiB or 2 MiB leaf, and no other address is but the trapframe and the trampoline. -/
structure Kernel.InStep (κ : Kernel) (i : Pid) : Prop where
  covered : ∀ va, va < pgroundup (κ.proc i).sz → ∃ l e, l ≤ 1 ∧ sv39Leaf κ.phys.mem va 2 (κ.proc i).pagetable = some (l, e)
  only : ∀ va, pgroundup (κ.proc i).sz ≤ va → va < 2 ^ 64 → sv39 κ.phys.mem (κ.proc i).pagetable va ≠ none →
    pgrounddown va = TRAPFRAME ∨ pgrounddown va = TRAMPOLINE

theorem Image.leafAt_below (hI : Image A n tf) (hva : va / PGSIZE < n) :
    ∃ l e, l ≤ 1 ∧ A.leafAt va = some (l, e) := by
  rw [Space.leafAt]
  rcases hI.sized.tiled (va / PGSIZE) (Nat.zero_le _) hva with ⟨e, he⟩ | ⟨e, he, -⟩
  · obtain ⟨q, hq⟩ := A.pg_dir he
    rw [page_div] at hq
    exact ⟨0, e, Nat.zero_le 1, by rw [hq, he]; rfl⟩
  · rw [page_div] at he
    exact ⟨1, e, le_rfl, by rw [he]⟩

theorem Image.leafAt_above (hI : Image A n tf) (hva : n ≤ va / PGSIZE) (hl : A.leafAt va = some (l, e)) :
    pgrounddown va = TRAPFRAME ∨ pgrounddown va = TRAMPOLINE := by
  have hlt := Space.leafAt_lt hl
  rw [Space.leafAt] at hl
  split at hl
  · rename_i u hd
    have := hI.sized.dir_le _ u hd
    lia
  · simp only [Option.map_eq_some_iff] at hl
    obtain ⟨u, hpg, -⟩ := hl
    have huser : userPages ≤ va / PGSIZE := by
      by_contra hc
      rw [hI.sized.pg_none _ hva (by omega)] at hpg
      cases hpg
    unfold pgrounddown
    lia

theorem KInv.inStep (hK : KInv κ S K) (hS : S i = some A) : κ.InStep i := by
  have hI := hK.image hS
  have hr := (hK.live hS).rep
  have hsz := hK.sz_le hS
  have hup : pgroundup (κ.proc i).sz = npages (κ.proc i).sz * PGSIZE := pgroundup_npages (by lia)
  have hle : npages (κ.proc i).sz ≤ 32735 := (hK.live hS).tiled_bound hI.sized.tiled
  refine ⟨fun va hva => ?_, fun va hva h64 hne => ?_⟩
  · rw [hup] at hva
    obtain ⟨l, e, hl, he⟩ := hI.leafAt_below (show va / PGSIZE < _ by lia)
    exact ⟨l, e, hl, by rw [← hK.root hS, hr.sv39Leaf_eq (by lia), he]⟩
  · rw [← hK.root hS, hr.sv39_eq h64, Space.mmu, ne_eq, Option.map_eq_none_iff] at hne
    obtain ⟨⟨l, e⟩, hl⟩ := Option.ne_none_iff_exists'.1 hne
    exact hI.leafAt_above (by rw [hup] at hva; lia) hl

/-- The panics that guard the step between the leaves and the size. -/
def stepPanics : List String :=
  ["uvmunmap: walk", "uvmunmap: not mapped", "uvmcopy: pte should exist", "uvmcopy: page not present", "freewalk: leaf"]

/-- In a run that does not cut a superpage, leaves and size are in step for every process, and no operation that does not
cut one ends in a panic that guards this. -/
theorem reachable_inStep (hw : Reachable (fun w op => op.KeepsSuperpages w) w) :
    (∀ i, (w.kernel.proc i).state ≠ .UNUSED → w.kernel.InStep i) ∧
    ∀ op : Op, op.Enabled w → op.KeepsSuperpages w → ∀ msg ∈ stepPanics, op.code.run w ≠ .error msg := by
  obtain ⟨T, S, hK, hT⟩ := hw.inv
  refine ⟨fun i hi => ?_, fun op hen hC msg hmsg hrun => ?_⟩
  · rcases hS : S i with _ | A
    · exact absurd (hK.slot hS).1 hi
    · exact hK.inStep hS
  · have hspec := Op.code_inv (E := fun e => e ∉ stepPanics) ⟨S, hK, hT⟩ hen hC (fun _ => by decide) fun _ => by decide
    exact (wp_of_error hrun).1 hspec hmsg

/-- The body of the loop of `uvmunmap` at a page inside a superpage: the entry of the superpage is taken for the one of
the page, its first page is freed and the superpage unmapped. -/
theorem uvmunmapPage_cut_spec {h : List Block} (hL : Live σ A h) (hd : A.dir v = .leaf e)
    (hv : va / SUPERPGSIZE = v) {Q : Unit → Phys → Prop}
    (hQ : ∀ σ' A', Rep σ'.mem A' → A'.root = A.root → A'.dir v = .none → A'.pg = A.pg → 
      σ'.freelist = pte2pa e :: σ.freelist → Q () σ') :
    wp (uvmunmapPage A.root va true) Q E σ := by
  obtain ⟨q, hq⟩ := A.dir_l1 (v := v) (by rw [hd]; simp)
  have hl : A.leafAt va = some (1, e) := by rw [Space.leafAt, hv, hd]
  have hok : (Block.super (pte2pa e)).Ok := hL.sep.placed_ok (x := .super v) (by simp only [Space.holdings, hd])
  have hslot : A.slot va = some (q + 8 * (v % 512)) := by simp [Space.slot, hv, hq, hd]
  rw [wp_uvmunmapPage_leaf hL.rep hl hslot, freeIf, if_pos rfl, wp_bind,
    wp_kfree (by have := hok.1; lia) (by have := hok.2.1; lia) hok.2.2, wp_storePte]
  have hr : Rep (Bytes.fill σ.mem (pte2pa e) PGSIZE 1) A := by
    refine hL.rep.agree hL.sep (AgreeOff.write_super hok.1 (Set.mem_singleton _) le_rfl (by lia)) ?_ ?_
    · intro x b hx hb
      rw [Set.mem_singleton_iff.1 hb] at hx
      simp [Space.holdings_table] at hx
    · intro s hs
      rw [Set.mem_singleton_iff.1 hs]; exact hok
  have hnt : ∀ t, A.dir v ≠ .table t := fun t ht => by simp [hd] at ht
  refine hQ _ (A.setDir v .none ⟨q, hq⟩ hnt trivial) ?_ rfl ?_ rfl rfl
  · dsimp only
    exact hr.clearSuper hq hnt
  · rw [show (A.setDir v .none ⟨q, hq⟩ hnt trivial).dir = Function.update A.dir v .none from rfl]
    exact update_self ..

/-- The state after a process that ends with the superpage `v` has been shrunk by a page. -/
structure Cut (i : Pid) (v e : Nat) (κ κ' : Kernel) (A' : Space) : Prop where
  rep : Rep κ'.phys.mem A'
  root : A'.root = (κ'.proc i).pagetable
  dir : A'.dir v = .none
  sz : (κ'.proc i).sz = (v + 1) * SUPERPGSIZE - PGSIZE
  state : (κ'.proc i).state = (κ.proc i).state
  freelist : κ'.phys.freelist = pte2pa e :: κ.phys.freelist

theorem growproc_cut_spec (hK : KInv κ S K) (hS : S i = some A) (hd : A.dir v = .leaf e)
    (hsz : (κ.proc i).sz = (v + 1) * SUPERPGSIZE) :
    wp (growproc i (-4096)) (fun _ κ' => ∃ A', Cut i v e κ κ' A') E κ := by
  have hle := hK.sz_le hS
  obtain ⟨newsz, hns⟩ : ∃ newsz, (v + 1) * SUPERPGSIZE = newsz + PGSIZE := ⟨(v + 1) * SUPERPGSIZE - PGSIZE, by lia⟩
  rw [hns] at hsz
  have hnew : addInt (κ.proc i).sz (-4096) = newsz := by unfold addInt; lia
  have hup : pgroundup newsz = newsz := by unfold pgroundup; lia
  have hup' : pgroundup (newsz + PGSIZE) = newsz + PGSIZE := by unfold pgroundup; lia
  have hone : throughInt ((newsz + PGSIZE - newsz) / PGSIZE) = 1 := by
    rw [Nat.add_sub_cancel_left]; decide
  have hlast : (newsz + 1 * PGSIZE) % 2 ^ 64 = newsz + PGSIZE := by lia
  unfold growproc
  rw [wp_bind, wp_get, if_neg (by decide), if_pos (by decide), hnew, wp_bind, wp_onPhys, ← hK.root hS, hsz]
  unfold uvmdealloc
  rw [if_neg (by lia), hup, hup', if_pos (by lia)]
  simp only [hone]
  unfold uvmunmap
  rw [if_neg (by lia), hlast, uvmunmapLoop, dif_pos (by lia)]
  simp only [wp_bind]
  -- the page is not the first of the superpage
  rw [superPteAt, if_pos (by lia), wp_pure]
  simp only [wp_bind]
  refine uvmunmapPage_cut_spec (hK.live hS) hd (by lia) fun σ' A' hr hroot hdir hpg hfl => ?_
  rw [uvmunmapLoop, dif_neg (by lia)]
  simp only [wp_pure, wp_setProc]
  refine ⟨A', hr, ?_, hdir, ?_, ?_, hfl⟩ <;> simp only [update_self]
  · rw [hroot, hK.root hS]
  · rw [hns, Nat.add_sub_cancel]

theorem Cut.leafAt (hC : Cut i v e κ κ' A') (hva : va / SUPERPGSIZE = v) :
    A'.leafAt va = none := by
  rw [Space.leafAt, hva, hC.dir]
  simp only [Option.map_eq_none_iff]
  by_contra hc
  obtain ⟨u, hu⟩ := Option.ne_none_iff_exists'.1 hc
  obtain ⟨q, hq⟩ := A'.pg_dir hu
  rw [page_div, hva, hC.dir] at hq
  cases hq

theorem Cut.panics (hC : Cut i v e κ κ' A') (hv : v < 100000) :
    wp (Op.growproc i (-4096)).code (fun _ _ => False) (fun msg => msg = "uvmunmap: walk") ⟨κ', K⟩ := by
  obtain ⟨newsz, hns⟩ : ∃ newsz, (v + 1) * SUPERPGSIZE = newsz + 2 * PGSIZE :=
    ⟨(v + 1) * SUPERPGSIZE - 2 * PGSIZE, by lia⟩
  have hsz : (κ'.proc i).sz = newsz + PGSIZE := by rw [hC.sz]; lia
  have hnew : addInt (κ'.proc i).sz (-4096) = newsz := by unfold addInt; lia
  have hup : pgroundup newsz = newsz := by unfold pgroundup; lia
  have hup' : pgroundup (newsz + PGSIZE) = newsz + PGSIZE := by unfold pgroundup; lia
  have hslot : A'.slot newsz = none := by
    rw [Space.slot, show newsz / SUPERPGSIZE = v by lia, hC.dir]
    cases A'.l1 (v / 512) <;> rfl
  rw [Op.code, wp_onKernel]
  unfold growproc
  rw [wp_bind, wp_get, if_neg (by decide), if_pos (by decide), hnew, wp_bind, wp_onPhys, ← hC.root, hsz]
  unfold uvmdealloc
  rw [if_neg (by lia), hup, hup', if_pos (by lia), Nat.add_sub_cancel_left]
  simp only [show throughInt (PGSIZE / PGSIZE) = 1 by decide]
  unfold uvmunmap
  rw [if_neg (by lia), show (newsz + 1 * PGSIZE) % 2 ^ 64 = newsz + PGSIZE by lia, uvmunmapLoop, dif_pos (by lia)]
  simp only [wp_bind]
  rw [superPteAt, if_pos (by lia), wp_pure]
  simp only [wp_bind]
  rw [uvmunmapPage, wp_bind, wp_walk_false hC.rep (by lia), hslot]
  exact wp_panic.2 rfl

theorem Reachable.extend {Q : Int → World → Prop} (hw : Reachable C w) (hen : op.Enabled w)
    (hC : C w op) (h : wp op.code Q (fun _ => False) w) : ∃ r w', Reachable C w' ∧ op.code.run w = .ok (r, w') ∧ Q r w' := by
  obtain ⟨r, w', hrun, hQ⟩ := wp_false_iff.1 h
  exact ⟨r, w', hw.step hen hC hrun, hrun, hQ⟩

theorem Reachable.mono (hw : Reachable C w) (h : ∀ w op, C w op → C' w op) : Reachable C' w := by
  induction hw with
  | kinit hrun => exact .kinit hrun
  | step _ hen hC hrun ih => exact ih.step hen (h _ _ hC) hrun

structure Alone (w : World) (i : Pid) (A : Space) (sz pages supers : Nat) : Prop where
  inv : ∃ S, KInv w.kernel S w.kpages ∧ S i = some A
  runs : w.kernel.Runs i
  sz : (w.kernel.proc i).sz = sz
  freelist : pages ≤ w.kernel.phys.freelist.length
  superpages : supers ≤ w.kernel.phys.superpages.length

theorem bootPages_length : bootPages.length = 2015 := by
  unfold bootPages
  rw [List.length_reverse, List.length_map, List.length_range]

theorem bootSuperpages_length : bootSuperpages.length = 60 := by
  unfold bootSuperpages
  rw [List.length_map, List.length_range]

theorem exists_first (C : World → Op → Prop) (hC : ∀ w, C w .userinit) :
    ∃ w i A, Reachable C w ∧ Alone w i A PGSIZE 2006 60 ∧ A.TablesIn {0} := by
  obtain ⟨_, w0, hrun0, m, rfl⟩ : ∃ a w0, (onKernel (onPhys kinit)).run (World.start fun _ => 0) = .ok (a, w0) ∧
      ∃ m, w0 = ⟨⟨⟨m, bootPages, bootSuperpages⟩, fun _ => {}, 1, none⟩, []⟩ := by
    refine wp_false_iff.1 ?_
    rw [wp_onKernel, wp_onPhys]
    exact kinit_spec rfl fun m' => ⟨m', rfl⟩
  have hw0 : Reachable C _ := .kinit hrun0
  have hen : Op.userinit.Enabled (⟨⟨⟨m, bootPages, bootSuperpages⟩, fun _ => {}, 1, none⟩, []⟩ : World) :=
    ⟨rfl, ⟨0, rfl⟩, by rw [bootPages_length]; decide⟩
  obtain ⟨r, w1, hw1, -, j, A, hN, hkp⟩ := hw0.extend (Q := fun _ w => ∃ j A, Inited j (fun _ => none) [] _ w.kernel A ∧
      w.kpages = []) hen (hC _) (by
    simp only [Op.code, wp_bind, wp_onKernel]
    refine wp_post (userinit_spec (KInv.boot m) hen.2.1 hen.2.2) ?_
    rintro _ κ' ⟨j, A, hN⟩
    exact wp_pure.2 ⟨j, A, hN, rfl⟩)
  obtain ⟨used, hu, hul⟩ := hN.freelist
  have hlen := congrArg List.length hu
  rw [bootPages_length, List.length_append] at hlen
  refine ⟨w1, j, A, hw1, ⟨⟨_, hkp ▸ hN.kinv, update_self ..⟩, .inl hN.state, hN.sz, by omega, ?_⟩, hN.tables⟩
  rw [hN.superpages, bootSuperpages_length]

theorem Alone.grow {X : Set Nat} (hA : Alone w i A sz pages supers)
    (hw : Reachable C w) (hX : A.TablesIn X) (hC : C w (.growproc i n)) (hn : 0 < n) (hint : n < 2 ^ 31)
    (hno : ∀ v, Whole (npages sz) (sz + n) v → v ∉ X) (hp : 3 * growSteps (sz + n) (npages sz * PGSIZE) < pages)
    (hs : growSupers (sz + n) (npages sz * PGSIZE) ≤ supers) :
    ∃ w' A', Reachable C w' ∧ Alone w' i A' (sz + n) (pages - 3 * growSteps (sz + n) (npages sz * PGSIZE))
        (supers - growSupers (sz + n) (npages sz * PGSIZE)) ∧
      A'.TablesIn (X ∪ {v | Part (npages sz) (sz + n) v}) ∧
      ∀ v, Whole (npages sz) (sz + n) v → ∃ e, A'.dir v = .leaf e := by
  obtain ⟨⟨S, hK, hS⟩, hruns, rfl, hfl, hsp⟩ := hA
  have hsz := hK.sz_le hS
  have hnew : addInt (w.kernel.proc i).sz n = (w.kernel.proc i).sz + n := by unfold addInt; lia
  have hspec := grow_spec (n := n) (E := fun _ => False) hK hS (by omega) (by omega) (by
    rw [hnew]
    intro v q hW hv hq
    rcases hX v q hq with hv' | rfl
    · exact hno v hW hv'
    · exact absurd hv (by decide))
  rw [hnew] at hspec
  have hen : (Op.growproc i n).Enabled w := ⟨hruns, by omega, by omega⟩
  generalize hnz : (w.kernel.proc i).sz + n = newsz at *
  obtain ⟨r, w', hw', -, A', hG, hkp⟩ := hw.extend (Q := fun r w' => ∃ A', GrowProc i newsz w.kernel A r w'.kernel A' ∧
      w'.kpages = w.kpages) hen hC (by
    rw [Op.code, wp_onKernel]
    refine wp_post hspec ?_
    rintro r κ' ⟨A', hG⟩
    exact ⟨A', hG, rfl⟩)
  have hK' := hG.kinv hK hS (by omega)
  have htab : A'.TablesIn (X ∪ {v | Part (npages (w.kernel.proc i).sz) newsz v}) := by
    intro v q hq
    rcases hG.tables hq with hq | hP
    · exact (hX v q hq).imp_left Or.inl
    · exact .inl (.inr hP)
  rcases hG.ret with ⟨-, he, hG'⟩ | ⟨-, -, ⟨hshort, -⟩, -⟩
  · obtain ⟨u1, hu1, hl1⟩ := hG'.freelist
    obtain ⟨u2, hu2, hl2⟩ := hG'.superpages
    have hlen1 := congrArg List.length hu1
    have hlen2 := congrArg List.length hu2
    rw [List.length_append] at hlen1 hlen2
    have hp' : w'.kernel.proc i = { w.kernel.proc i with sz := newsz } := by rw [he]; exact update_self ..
    refine ⟨w', A', hw', ⟨⟨_, hkp ▸ hK', update_self ..⟩, ?_, ?_, ?_, ?_⟩, htab, fun v hv => ?_⟩
    · unfold Kernel.Runs; rw [hp']; exact hruns
    · rw [hp']
    · omega
    · omega
    · obtain ⟨-, e, hd, -⟩ := hG'.dir_new v hv (by have := hv.2; rw [npages_eq]; lia)
      exact ⟨e, hd⟩
  · omega

theorem not_cuts_of_pos : ¬κ.cuts i n := fun h => absurd h.1 (by omega)

theorem growSupers_eq_zero (ha : 0 < a) (hn : newsz ≤ SUPERPGSIZE) : growSupers newsz a = 0 := by
  fun_induction growSupers newsz a with
  | case1 a hlt h ih => lia
  | case2 a hlt h ih => exact ih (by lia)
  | case3 a hlt => rfl

theorem exists_ends_with_superpage : ∃ w i A e, Reachable (fun w op => op.KeepsSuperpages w) w ∧
    Alone w i A (2 * SUPERPGSIZE) 1 0 ∧ A.dir 1 = .leaf e := by
  obtain ⟨w1, i, A1, hw1, hA1, hT1⟩ := exists_first (fun w op => op.KeepsSuperpages w) fun w => trivial
  have hpg : npages PGSIZE * PGSIZE = PGSIZE := by rw [npages_eq]; decide
  have hsteps : growSteps (PGSIZE + 2093056) PGSIZE ≤ 511 := by
    refine growSteps_le.trans ?_
    rw [npages_eq]
    decide
  obtain ⟨w2, A2, hw2, hA2, hT2, -⟩ := hA1.grow (n := 2093056) hw1 hT1 not_cuts_of_pos (by decide) (by decide)
    (fun v hW => by have h1 := hW.1; have h2 := hW.2; rw [npages_eq] at h1; lia) (by rw [hpg]; omega)
    (by rw [hpg, growSupers_eq_zero (by decide) (by decide)]; decide)
  rw [hpg, growSupers_eq_zero (by decide) (by decide)] at hA2
  have hpg2 : npages (PGSIZE + 2093056) * PGSIZE = SUPERPGSIZE := by rw [npages_eq]; decide
  have hsteps2 : growSteps (PGSIZE + 2093056 + 2097152) SUPERPGSIZE = 1 := by
    rw [growSteps_super (by decide) (by decide), growSteps, if_neg (by decide)]
  have hsupers2 : growSupers (PGSIZE + 2093056 + 2097152) SUPERPGSIZE = 1 := by
    rw [growSupers_super (by decide) (by decide), growSupers, if_neg (by decide)]
  obtain ⟨w3, A3, hw3, hA3, -, hleaf⟩ := hA2.grow (n := 2097152) hw2 hT2 not_cuts_of_pos (by decide) (by decide)
    (fun v hW hv => by
      have h1 := hW.1
      rw [npages_eq] at h1
      rcases hv with rfl | hP
      · lia
      · have := hP.2.2; lia) (by rw [hpg2, hsteps2]; omega) (by rw [hpg2, hsupers2]; decide)
  obtain ⟨e, he⟩ := hleaf 1 ⟨by rw [npages_eq]; decide, by decide⟩
  rw [hpg2, hsteps2, hsupers2] at hA3
  exact ⟨w3, i, A3, e, hw3, ⟨hA3.inv, hA3.runs, hA3.sz, by have := hA3.freelist; omega, Nat.zero_le _⟩, he⟩

theorem reachable_inStep_first : ∃ (w : World) (i : Pid), w.kernel.Runs i ∧ (w.kernel.proc i).sz = 2 * SUPERPGSIZE ∧ w.kernel.InStep i := by
  obtain ⟨w, i, A, e, hw, hA, -⟩ := exists_ends_with_superpage
  refine ⟨w, i, hA.runs, hA.sz, (reachable_inStep hw).1 i fun hc => ?_⟩
  rcases hA.runs with h | h <;> rw [hc] at h <;> cases h

theorem exists_cut : ∃ w i κ A e, Reachable (fun _ _ => True) w ∧ w.kernel.Runs i ∧ Cut i 1 e κ w.kernel A ∧
    (Block.super (pte2pa e)).Ok := by
  obtain ⟨w, i, A, e, hw, hA, hd⟩ := exists_ends_with_superpage
  obtain ⟨⟨S, hK, hS⟩, hruns, hsz, -, -⟩ := hA
  have hw' : Reachable (fun _ _ => True) w := hw.mono fun _ _ _ => trivial
  have hen : (Op.growproc i (-4096)).Enabled w := ⟨hruns, by decide, by decide⟩
  obtain ⟨r, w', hr, -, A', hC⟩ := hw'.extend (Q := fun _ w' => ∃ A', Cut i 1 e w.kernel w'.kernel A') hen trivial (by
    rw [Op.code, wp_onKernel]
    exact growproc_cut_spec hK hS hd hsz)
  have hplace : A.holdings (.super 1) = some (.super (pte2pa e)) := by simp only [Space.holdings, hd]
  exact ⟨w', i, w.kernel, A', e, hr, by unfold Kernel.Runs; rw [hC.state]; exact hruns, hC,
    (hK.live hS).sep.placed_ok hplace⟩

/-- A process with a superpage at its end that shrinks by one page: the superpage is gone, although the process has still
all but one page of it, and the next shrink panics. -/
theorem shrink_cuts_superpage : ∃ w i, Reachable (fun _ _ => True) w ∧ w.kernel.Runs i ∧
    (w.kernel.proc i).sz = 2 * SUPERPGSIZE - PGSIZE ∧ ¬w.kernel.InStep i ∧
    sv39Leaf w.kernel.phys.mem SUPERPGSIZE 2 (w.kernel.proc i).pagetable = none ∧
    (Op.growproc i (-4096)).Enabled w ∧ (Op.growproc i (-4096)).code.run w = .error "uvmunmap: walk" := by
  obtain ⟨w, i, κ, A, e, hw, hruns, hC, -⟩ := exists_cut
  have hnone : sv39Leaf w.kernel.phys.mem SUPERPGSIZE 2 (w.kernel.proc i).pagetable = none := by
    rw [← hC.root, hC.rep.sv39Leaf_eq (by decide), hC.leafAt (by decide)]
  refine ⟨w, i, hw, hruns, hC.sz, fun hI => ?_, hnone, ⟨hruns, by decide, by decide⟩, ?_⟩
  · obtain ⟨l, e', -, he'⟩ := hI.covered SUPERPGSIZE (by rw [hC.sz]; decide)
    rw [hnone] at he'
    cases he'
  · obtain ⟨msg, hrun, rfl⟩ := wp_fails_iff.1 (hC.panics (by decide))
    exact hrun

end Xv6
