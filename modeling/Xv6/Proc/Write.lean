import Xv6.Proc.Image
import Xv6.Vm.Copy

/-!
# Writing to the memory of a process

`copyout` writes to user pages, `uvmclear` takes a page from the user, and `uvmfirst` loads the first process. None of them
reaches beyond the frames and the page-table pages of the process.
-/

namespace Xv6

open Bytes (Mem)
open Hoare Ledger

variable {σ σ' : Phys} {A A' : Space} {h : List Block} {b : Block} {m m' : Mem} {E : String → Prop}
  {n k l w va tf : Nat}

def Space.frames (A : Space) : Set Block := {b | ∃ x : Place, x.Frame 0 ∧ A.holdings x = some b}

theorem Live.touch (hL : Live σ A h) (hf : σ'.freelist = σ.freelist) (hsup : σ'.superpages = σ.superpages)
    (ha : AgreeOff A.frames σ.mem σ'.mem) : Evolves 0 σ A h σ' A h := by
  obtain ⟨hs, hO⟩ := hL.sep.of_lists σ' hf hsup
  refine ⟨⟨hL.rep.agree hL.sep ha ?_ ?_, hs⟩, ⟨fun l _ => by rw [hO l], ha.mono ?_⟩, rfl⟩
  · rintro x b hx ⟨y, hy, hb⟩
    cases hL.sep.placed_inj hx hb
    exact hy
  · rintro s ⟨y, -, hb⟩
    exact hL.sep.placed_ok hb
  · rintro b ⟨y, -, hb⟩
    exact ⟨.at y, y.from_zero, hb⟩

theorem Image.pg_user (hI : Image A n tf) (hpg : A.pg k = some w) (hu : hasFlag w PTE_U = true) : k < userPages := by
  by_contra hc
  have hlt := Space.pg_lt hpg
  rcases Nat.eq_or_lt_of_le (Nat.le_of_not_lt hc) with rfl | hgt
  · rw [hI.trapframe, Option.some.injEq] at hpg
    rw [← hpg, show PTE_U = 2 ^ 4 from rfl, hasFlag_mkPte (by decide) (by decide)] at hu
    exact absurd hu (by decide)
  · obtain rfl : k = userPages + 1 := by lia
    rw [hI.trampoline, Option.some.injEq] at hpg
    rw [← hpg, show PTE_U = 2 ^ 4 from rfl, hasFlag_mkPte (by decide) (by decide)] at hu
    exact absurd hu (by decide)

theorem Image.user_frame (hI : Image A n tf) (hl : A.leafAt va = some (l, w)) (hu : hasFlag w PTE_U = true) {a : Nat}
    (ha : pgrounddown a = pte2pa w) : ¬Outside A.frames a := by
  unfold Space.leafAt at hl
  split at hl
  · rename_i u hd
    simp only [Option.some.injEq, Prod.mk.injEq] at hl
    obtain ⟨-, rfl⟩ := hl
    intro ho
    refine ho.2 ⟨.super (va / SUPERPGSIZE), Nat.zero_le _, ?_⟩
    have hal := (A.dir_leaf hd).aligned
    simp only [Space.holdings, hd, Option.some.injEq, Block.super.injEq]
    unfold pgrounddown at ha
    lia
  · simp only [Option.map_eq_some_iff, Prod.mk.injEq] at hl
    obtain ⟨u, hpg, -, rfl⟩ := hl
    intro ho
    refine ho.1 ⟨.page (va / PGSIZE), Nat.zero_le _, ?_⟩
    rw [Space.holdings, if_pos (hI.pg_user hpg hu), hpg, ha]
    rfl

theorem Image.framesOffTables (hI : Image A n tf) (hL : Live σ A h) (htf : ∀ x, A.tbl x ≠ some tf) (hpa : PageAddr tf) :
    A.FramesOffTables := by
  intro k p x hfr htbl
  have hplace : A.holdings (.table x) = some (.page p) := by rw [Space.holdings_table, htbl]; rfl
  obtain ⟨h1, h2, h3⟩ := hL.sep.placed_ok hplace
  unfold Space.frame at hfr
  split at hfr
  · rename_i u hd
    obtain ⟨h4, h5, h6⟩ := hL.sep.placed_ok (x := .super (k / 512)) (b := .super (pte2pa u)) (by simp only [Space.holdings, hd])
    simp only [Option.some.injEq] at hfr
    lia
  · simp only [Option.map_eq_some_iff] at hfr
    obtain ⟨u, hpg, rfl⟩ := hfr
    have hlt := Space.pg_lt hpg
    rcases Nat.lt_or_ge k userPages with hk | hk
    · have hplace' : A.holdings (.page k) = some (.page (pte2pa u)) := by rw [Space.holdings, if_pos hk, hpg]; rfl
      cases hL.sep.placed_inj hplace hplace'
    · rcases Nat.eq_or_lt_of_le hk with rfl | hgt
      · rw [hI.trapframe, Option.some.injEq] at hpg
        rw [← hpg, mkPte_pa (by decide) hpa.1 hpa.2.2] at htbl
        exact htf x htbl
      · obtain rfl : k = userPages + 1 := by lia
        rw [hI.trampoline, Option.some.injEq] at hpg
        rw [← hpg, mkPte_pa (by decide) (by decide) (by decide)] at h2
        exact absurd h2 (by decide)

theorem copyout_image_spec (hI : Image A n tf) (hL : Live σ A h) (htf : ∀ x, A.tbl x ≠ some tf) (hpa : PageAddr tf)
    (src : Nat → UInt8) (len : Nat) :
    wp (copyout A.root va src len) (fun r σ' => (r = 0 ∨ r = -1) ∧ σ'.freelist = σ.freelist ∧
      σ'.superpages = σ.superpages ∧ AgreeOff A.frames σ.mem σ'.mem) E σ := by
  refine wp_mono (copyout_spec (hI.framesOffTables hL htf hpa) va src len hL.rep) ?_ fun _ hc => hc.elim
  intro r σ' hpost
  refine ⟨hpost.ret, hpost.freelist, hpost.superpages, fun a h1 h2 => hpost.frame a fun i _ hub hk => ?_⟩
  obtain ⟨l, w, hl, hu, -⟩ := hub
  refine hI.user_frame hl hu (a := a) ?_ ⟨h1, h2⟩
  simp only [Space.kaddr, hl, Option.map_some, Option.some.injEq] at hk
  have := (Space.leafAt_pte hl).pageAddr.1
  unfold pgrounddown
  lia

theorem testBit_clear {j : Nat} (hw : w < 2 ^ 64) :
    (w &&& (2 ^ 64 - 1 - PTE_U)).testBit j = (w.testBit j && decide (j ≠ 4)) := by
  rw [Nat.testBit_and, show 2 ^ 64 - 1 - PTE_U = 2 ^ 64 - (16 + 1) from rfl, Nat.testBit_two_pow_sub_succ (by decide),
    show (16 : Nat) = 2 ^ 4 from rfl, Nat.testBit_two_pow]
  by_cases hj : j < 64
  · simp [hj, eq_comm]
  · have : w.testBit j = false := Nat.testBit_lt_two_pow (lt_of_lt_of_le hw (Nat.pow_le_pow_right (by decide) (by omega)))
    simp [this]

theorem LeafPte.clear (hw : LeafPte w) : LeafPte (w &&& (2 ^ 64 - 1 - PTE_U)) ∧
    pte2pa (w &&& (2 ^ 64 - 1 - PTE_U)) = pte2pa w := by
  have hlt := hw.lt
  have hlt' : w < 2 ^ 64 := by omega
  have hflag : ∀ j, j ≠ 4 → hasFlag (w &&& (2 ^ 64 - 1 - PTE_U)) (2 ^ j) = hasFlag w (2 ^ j) := by
    intro j hj
    rw [hasFlag_eq_testBit, hasFlag_eq_testBit, testBit_clear hlt']
    simp [hj]
  have hdiv : (w &&& (2 ^ 64 - 1 - PTE_U)) / 1024 = w / 1024 := by
    rw [show (1024 : Nat) = 2 ^ 10 from rfl, ← Nat.shiftRight_eq_div_pow, ← Nat.shiftRight_eq_div_pow]
    apply Nat.eq_of_testBit_eq
    intro j
    rw [Nat.testBit_shiftRight, Nat.testBit_shiftRight, testBit_clear hlt']
    have : 10 + j ≠ 4 := by omega
    simp [this]
  have hle : w &&& (2 ^ 64 - 1 - PTE_U) ≤ w := Nat.and_le_left
  have hpa : pte2pa (w &&& (2 ^ 64 - 1 - PTE_U)) = pte2pa w := by rw [pte2pa_eq, pte2pa_eq, hdiv]
  have hV := hflag 0 (by decide)
  have hR := hflag 1 (by decide)
  have hW := hflag 2 (by decide)
  have hX := hflag 3 (by decide)
  refine ⟨⟨hV.trans hw.valid, ?_, ?_, lt_of_le_of_lt hle hlt, by rw [hpa]; exact hw.pos⟩, hpa⟩
  · rcases hw.perm with hp | hp
    · exact .inl (hR.trans hp)
    · exact .inr (hX.trans hp)
  · intro hc
    exact hR.trans (hw.write (hW.symm.trans hc))

theorem uvmclear_spec (hL : Live σ A h) (hk : k < userPages) (hpg : A.pg k = some w) :
    wp (uvmclear A.root (k * PGSIZE)) (fun _ σ' => ∃ A' u, Evolves 0 σ A h σ' A' h ∧ A'.dir = A.dir ∧
      A'.pg = Function.update A.pg k (some u)) E σ := by
  obtain ⟨q, hq⟩ := A.pg_dir hpg
  have hkp : k * PGSIZE / PGSIZE = k := Nat.mul_div_cancel k (by decide)
  have hks : k * PGSIZE / SUPERPGSIZE = k / 512 := by rw [← page_div, hkp]
  have hslot : A.slot (k * PGSIZE) = some (q + 8 * (k % 512)) := by
    rw [Space.slot_table (by rw [hks]; exact hq), hkp]
  obtain ⟨hw, hpa⟩ := (A.pg_leaf hpg).clear
  have hload : Bytes.loadLE σ.mem (q + 8 * (k % 512)) 8 = w := hL.rep.pg_some hq hpg
  have hqt : Block.page q ∈ scratch σ A.holdings :=
    Or.inr ⟨.l0 (k / 512), by rw [Space.holdings_table, Space.tbl_l0 hq]; rfl⟩
  have hag : AgreeOff (scratch σ A.holdings) σ.mem (Bytes.storeLE σ.mem (q + 8 * (k % 512)) 8 (w &&& (2 ^ 64 - 1 - PTE_U))) :=
    AgreeOff.storePte (A.tbl_page (Space.tbl_l0 hq)).1 hqt (Nat.mod_lt _ (by decide))
  have ho : ∀ u, some (w &&& (2 ^ 64 - 1 - PTE_U)) = some u → LeafPte u := fun u hu => Option.some.inj hu ▸ hw
  have hh : (A.setPg k (some (w &&& (2 ^ 64 - 1 - PTE_U))) ⟨q, hq⟩ ho).holdings = A.holdings := by
    rw [Space.holdings_setPg]
    apply Function.update_eq_self_iff.2
    rw [Space.holdings, hpg, Option.map_some, Option.map_some, hpa]
  unfold uvmclear
  rw [wp_bind, wp_walk_false hL.rep (by lia), hslot]
  simp only [wp_bind, wp_loadPte, wp_storePte, hload]
  obtain ⟨hs, hO⟩ := hL.sep.of_lists
    { σ with mem := Bytes.storeLE σ.mem (q + 8 * (k % 512)) 8 (w &&& (2 ^ 64 - 1 - PTE_U)) } rfl rfl
  refine ⟨A.setPg k (some (w &&& (2 ^ 64 - 1 - PTE_U))) ⟨q, hq⟩ ho, _, ⟨⟨hL.rep.setPg hq ho rfl, ?_⟩, ?_, rfl⟩, rfl, rfl⟩
  · rw [hh]; exact hs
  · rw [hh]; exact ⟨fun l _ => by rw [hO l], hag.mono scratch_subset_held⟩

theorem uvmfirst_spec {sz : Nat} (src : Nat → UInt8) (hL : Live σ A h) (hF : Fresh A tf) (hsz : sz < PGSIZE)
    (hmem : 4 ≤ σ.freelist.length) :
    wp (uvmfirst A.root src sz) (fun _ σ' => ∃ A', Evolves 0 σ A h σ' A' h ∧ Image A' 1 tf ∧
      (∀ v q, A'.dir v = .table q → v = 0 ∨ v = topChunk) ∧ (∃ used, σ.freelist = used ++ σ'.freelist ∧ used.length ≤ 3) ∧
      σ'.superpages = σ.superpages) E σ := by
  have hS := hF.image.sized
  have hnl : ∀ u, A.dir 0 ≠ .leaf u := fun u hu => absurd (hS.dir_le 0 u hu) (by omega)
  unfold uvmfirst
  rw [if_neg (by omega), wp_bind]
  refine kalloc_spec 0 hL.sep (fun hnil => ?_) fun p σ1 hs hk ha hfl hsup => ?_
  · rw [hnil] at hmem; exact absurd hmem (by decide)
  have hp := hs.page_ok.pageAddr
  have hE : Evolves 0 σ A h { σ1 with mem := Bytes.fill σ1.mem p PGSIZE 0 } A (.page p :: h) :=
    hL.take_write hs hk ha (AgreeOff.fill_page hp.1 (Set.mem_singleton _))
  have hleaf : LeafPte (mkPte p (PTE_W ||| PTE_R ||| PTE_X ||| PTE_U)) :=
    leafPte_mkPte hp (by decide) (.inl (by decide)) (by decide)
  have hmap := mappages_spec (E := E) 0 0 hE.live (by decide) (by decide) (Nat.zero_le _) hnl
    (hS.pg_none 0 le_rfl (by decide)) (by decide) hleaf
  simp only [wp_bind, wp_memset]
  refine wp_post hmap ?_
  rintro r σ2 (⟨-, A2, hM⟩ | ⟨-, hnil, A2, hT⟩)
  · rw [wp_memmoveFrom]
    have hpa : pte2pa (mkPte p (PTE_W ||| PTE_R ||| PTE_X ||| PTE_U)) = p := mkPte_pa (by decide) hp.1 hp.2.2
    have hplace : A2.holdings (.page 0) = some (.page p) := by
      have hpg2 : A2.pg 0 = some (mkPte p (PTE_W ||| PTE_R ||| PTE_X ||| PTE_U)) := by
        rw [hM.pg]; exact Function.update_self ..
      rw [Space.holdings, if_pos (by decide), hpg2, Option.map_some, hpa]
    have hw : AgreeOff A2.frames σ2.mem (Bytes.write σ2.mem p sz src) :=
      AgreeOff.write_page hp.1 ⟨.page 0, le_rfl, hplace⟩ le_rfl (by omega)
    have hM' : Maps 0 0 (mkPte p (PTE_W ||| PTE_R ||| PTE_X ||| PTE_U)) _ A (.page p :: h) σ2 A2 h := hM
    obtain ⟨used, e, l⟩ := hM.freelist
    refine ⟨A2, (hE.trans hM.toEvolves).trans (hM.live.touch rfl rfl hw), ?_, ?_, ⟨p :: used, ?_, ?_⟩, ?_⟩
    · refine hF.image.of_high (by decide) (hS.maps (by decide) hM') fun k hk => ?_
      rw [hM'.pg, Function.update_of_ne (by lia)]
    · intro v q hq
      rcases hM'.dir v with he | ⟨hv, -, -⟩
      · exact .inr (hF.tables v q (he ▸ hq))
      · exact .inl hv
    · rw [hfl, e, List.cons_append]
    · rw [List.length_cons]; omega
    · exact hM.superpages.trans hsup
  · obtain ⟨used, e, l⟩ := hT.freelist
    rw [hnil, List.append_nil] at e
    have e' : σ1.freelist = used := e
    rw [hfl, List.length_cons, e'] at hmem
    omega

end Xv6
