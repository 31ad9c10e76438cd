import Xv6.Proc.Kernel

/-!
# Growing and shrinking a process

`growproc` on a process of the kernel. A shrink keeps the leaves and the size of the process in step unless the new
break lies strictly inside a superpage (`Kernel.cuts`); a grow can meet a page-table page where it wants to map a
superpage, and panics then.
-/

namespace Xv6

open Function (update)
open Bytes (Mem)
open Hoare Ledger

variable {κ κ' : Kernel} {S : Pid → Option Space} {K : List Nat} {σ σ' : Phys} {A A' : Space} {h : List Block}
  {E : String → Prop} {i : Pid} {tf lo hi v newsz : Nat} {n : Int} {r : Int}

/-- The shrink by `-n` bytes moves the break of the process strictly inside a 2 MiB superpage. -/
def Kernel.cuts (κ : Kernel) (i : Pid) (n : Int) : Prop :=
  n < 0 ∧ addInt (κ.proc i).sz n < (κ.proc i).sz ∧ pgroundup (addInt (κ.proc i).sz n) % SUPERPGSIZE ≠ 0 ∧
    ∃ w, sv39Leaf κ.phys.mem (pgroundup (addInt (κ.proc i).sz n)) 2 (κ.proc i).pagetable = some (1, w)

theorem Space.Sized.unmaps (hA : A.Sized hi) (hU : Unmaps lo hi A A') (hle : lo ≤ hi)
    (hx : ∀ v w, A.dir v = .leaf w → lo ≤ v * 512 ∨ v * 512 + 512 ≤ lo) : A'.Sized lo where
  tiled k h1 h2 := by
    rcases hA.tiled k h1 (by omega) with ⟨w, hw⟩ | ⟨w, hw, hR, -, -⟩
    · exact .inl ⟨w, by rw [hU.pg, if_neg (by omega)]; exact hw⟩
    · refine .inr ⟨w, ?_, hR, Nat.zero_le _, ?_⟩
      · rw [hU.dir, if_neg (by omega)]; exact hw
      · have := hx _ w hw
        omega
  pg_none k h1 h2 := by
    rw [hU.pg]
    split
    · rfl
    · exact hA.pg_none k (by omega) h2
  dir_le v w hw := by
    rw [hU.dir] at hw
    split at hw
    · rcases hd : A.dir v with _ | q | u <;> rw [hd] at hw <;> simp [Dir.unleaf] at hw
    · have h1 := hA.dir_le v w hw
      have h2 := hx v w hw
      omega

theorem KInv.not_crossing (hK : KInv κ S K) (hS : S i = some A) (hn : n < 0) (hlt : addInt (κ.proc i).sz n < (κ.proc i).sz)
    (hcut : ¬κ.cuts i n) {w : Nat} (hd : A.dir v = .leaf w) :
    npages (addInt (κ.proc i).sz n) ≤ v * 512 ∨ v * 512 + 512 ≤ npages (addInt (κ.proc i).sz n) := by
  by_contra hc
  have hI := hK.image hS
  have hbound := (hK.live hS).tiled_bound hI.sized.tiled
  have hsz : (κ.proc i).sz ≤ MAXVA := by rw [npages_eq] at hbound; lia
  apply hcut
  unfold Kernel.cuts
  rw [pgroundup_npages (by omega)]
  generalize addInt (κ.proc i).sz n = newsz at *
  have hnp := npages_mono hlt.le
  refine ⟨hn, hlt, by lia, w, ?_⟩
  rw [← hK.root hS, (hK.live hS).rep.sv39Leaf_eq (by lia), Space.leafAt,
    show npages newsz * PGSIZE / SUPERPGSIZE = v by lia, hd]

/-- What a shrink that cuts no superpage has done: leaves are gone and page-table pages stay. -/
structure ShrinkProc (i : Pid) (newsz : Nat) (κ : Kernel) (A : Space) (κ' : Kernel) (A' : Space) : Prop where
  evolves : Evolves 0 κ.phys A (κ.proc i).hand κ'.phys A' (κ.proc i).hand
  image : Image A' (npages (min newsz (κ.proc i).sz)) (κ.proc i).trapframe
  tables : ∀ v q, A'.dir v = .table q ↔ A.dir v = .table q
  eq : κ' = { κ with phys := κ'.phys, proc := update κ.proc i { κ.proc i with sz := min newsz (κ.proc i).sz } }
  superpages : κ.phys.superpages <:+ κ'.phys.superpages

theorem shrink_spec (hK : KInv κ S K) (hS : S i = some A) (hn : n < 0) (hcut : ¬κ.cuts i n) :
    wp (growproc i n) (fun r κ' => r = 0 ∧ ∃ A', ShrinkProc i (addInt (κ.proc i).sz n) κ A κ' A') E κ := by
  have hI := hK.image hS
  have hL := hK.live hS
  have hbound := hL.tiled_bound hI.sized.tiled
  unfold growproc
  rw [wp_bind, wp_get, if_neg (by omega), if_pos hn, wp_bind, wp_onPhys, ← hK.root hS]
  rcases Nat.lt_or_ge (addInt (κ.proc i).sz n) (κ.proc i).sz with hlt | hge
  · have hx : ∀ v w, A.dir v = .leaf w → npages (addInt (κ.proc i).sz n) ≤ v * 512 ∨
        v * 512 + 512 ≤ npages (addInt (κ.proc i).sz n) := fun v w => hK.not_crossing hS hn hlt hcut
    have hT : A.Tiled (npages (addInt (κ.proc i).sz n)) (npages (κ.proc i).sz) := hI.sized.tiled_from hx
    have hle := npages_mono hlt.le
    refine wp_post (uvmdealloc_spec 0 _ _ hL (by lia) hlt.le hT (Nat.zero_le _)) ?_
    rintro r σ' ⟨rfl, A', hF⟩
    rw [wp_bind, wp_setProc, wp_pure]
    refine ⟨rfl, A', hF.toEvolves, ?_, fun v q => ?_, ?_, hF.superpages⟩
    · rw [Nat.min_eq_left hlt.le]
      exact hI.of_high (by lia) (hI.sized.unmaps hF.unmaps hle hx) fun k hk => by rw [hF.unmaps.pg, if_neg (by lia)]
    · rw [hF.unmaps.dir]
      split
      · rcases A.dir v with _ | q' | u <;> simp [Dir.unleaf]
      · exact Iff.rfl
    · rw [Nat.min_eq_left hlt.le]
  · rw [uvmdealloc, if_pos hge, wp_pure, wp_bind, wp_setProc, wp_pure]
    refine ⟨rfl, A, Evolves.refl hL, ?_, fun v q => Iff.rfl, ?_, List.suffix_refl _⟩
    · rw [Nat.min_eq_right hge]; exact hI
    · rw [Nat.min_eq_right hge]

theorem ShrinkProc.kinv (hP : ShrinkProc i newsz κ A κ' A') (hK : KInv κ S K) (hS : S i = some A) :
    KInv κ' (update S i (some A')) K := by
  rw [hP.eq]
  exact hK.evolve hS hP.evolves rfl rfl (hK.used hS) hP.image

theorem KInv.sz_le (hK : KInv κ S K) (hS : S i = some A) : (κ.proc i).sz ≤ 32735 * PGSIZE := by
  have hbound := (hK.live hS).tiled_bound (hK.image hS).sized.tiled
  rw [npages_eq] at hbound
  lia

/-- What `growproc` of a positive number has done: the process has its new size, or an allocator ran out. -/
structure GrowProc (i : Pid) (newsz : Nat) (κ : Kernel) (A : Space) (r : Int) (κ' : Kernel) (A' : Space) : Prop where
  evolves : Evolves 0 κ.phys A (κ.proc i).hand κ'.phys A' (κ.proc i).hand
  ret : (r = 0 ∧ κ' = { κ with phys := κ'.phys, proc := update κ.proc i { κ.proc i with sz := newsz } } ∧
      Growing (npages (κ.proc i).sz) (npages newsz) newsz PTE_W κ.phys A (κ.proc i).hand κ'.phys A') ∨
    (r = -1 ∧ κ' = { κ with phys := κ'.phys } ∧ GrowFailed (npages (κ.proc i).sz) newsz κ.phys A (κ.proc i).hand κ'.phys ∧
      Restored (npages (κ.proc i).sz) newsz A A')

theorem grow_spec (hK : KInv κ S K) (hS : S i = some A) (hn : 0 < n) (hint : n < 2 ^ 31)
    (hremap : ∀ v q, Whole (npages (κ.proc i).sz) (addInt (κ.proc i).sz n) v → v * 512 < 32735 → A.dir v = .table q →
      E "supermappages: remap") :
    wp (growproc i n) (fun r κ' => ∃ A', GrowProc i (addInt (κ.proc i).sz n) κ A r κ' A') E κ := by
  have hI := hK.image hS
  have hsz := hK.sz_le hS
  have hnew : addInt (κ.proc i).sz n = (κ.proc i).sz + n.toNat := by unfold addInt; lia
  unfold growproc
  rw [wp_bind, wp_get, if_pos hn, wp_bind, wp_onPhys, ← hK.root hS]
  refine wp_post (uvmalloc_spec (hK.live hS) hI.sized hI.le (by decide) (by omega) hremap) ?_
  rintro r σ' (⟨rfl, A', hG⟩ | ⟨rfl, hF⟩)
  · rw [if_neg (by omega), wp_bind, wp_setProc, wp_pure]
    exact ⟨A', ⟨hG.live, hG.keeps.mono (Nat.zero_le _), hG.root⟩, .inl ⟨rfl, rfl, hG⟩⟩
  · rw [if_pos rfl, wp_pure]
    obtain ⟨hshort, A', hE, hR⟩ := hF
    exact ⟨A', ⟨hE.live, hE.keeps.mono (Nat.zero_le _), hE.root⟩, .inr ⟨rfl, rfl, ⟨hshort, A', hE, hR⟩, hR⟩⟩

theorem GrowProc.kinv (hG : GrowProc i newsz κ A r κ' A') (hK : KInv κ S K) (hS : S i = some A)
    (hle : (κ.proc i).sz ≤ newsz) : KInv κ' (update S i (some A')) K := by
  have hI := hK.image hS
  rcases hG.ret with ⟨-, he, hG'⟩ | ⟨-, he, -, hR⟩
  · rw [he]
    exact hK.evolve hS hG.evolves rfl rfl (hK.used hS) (hI.grown hG' (npages_mono hle))
  · rw [he]
    have hself : update κ.proc i (κ.proc i) = κ.proc := Function.update_eq_self ..
    have hev := hK.evolve (p := κ.proc i) hS hG.evolves rfl rfl (hK.used hS) (hI.restored hR)
    rwa [hself] at hev

theorem GrowProc.tables (hG : GrowProc i newsz κ A r κ' A') {q : Nat}
    (hq : A'.dir v = .table q) : A.dir v = .table q ∨ Part (npages (κ.proc i).sz) newsz v := by
  rcases hG.ret with ⟨-, -, hG'⟩ | ⟨-, -, -, hR⟩
  · by_cases hW : Whole (npages (κ.proc i).sz) newsz v ∧ v * 512 < npages newsz
    · obtain ⟨-, w, hw, -⟩ := hG'.dir_new v hW.1 hW.2
      rw [hw] at hq; cases hq
    · rcases hG'.dir_same v hW with he | ⟨hP, -, -⟩
      · exact .inl (he ▸ hq)
      · exact .inr hP
  · rcases hR.dir v with he | ⟨hP, -, -⟩
    · exact .inl (he ▸ hq)
    · exact .inr hP

end Xv6
