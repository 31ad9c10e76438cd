import Xv6.Proc.Code
import Xv6.Vm.Dup

/-!
# The address space of a process

`Image A n tf` says that `A` is the address space of a process of `n` pages: its leaves are the `n` lowest pages,
the trapframe page `tf` and the trampoline. `procPagetable` makes such a space with no page, and
`procFreepagetable` gives every block of one back to the allocators.
-/

namespace Xv6

open Function (update_of_ne update_self)
open Bytes (Mem)
open Hoare Ledger

variable {σ σ' σ'' : Phys} {A A' : Space} {h : List Block} {E : String → Prop} {n sz tf : Nat}

/-- The leaves of a process of `n` pages with the trapframe page `tf`. -/
structure Image (A : Space) (n tf : Nat) : Prop where
  le : n ≤ userPages
  sized : A.Sized n
  trapframe : A.pg userPages = some (mkPte tf (PTE_R ||| PTE_W))
  trampoline : A.pg (userPages + 1) = some (mkPte trampoline (PTE_R ||| PTE_X))

theorem Image.of_high (hI : Image A n tf) {n' : Nat} (hle : n' ≤ userPages) (hs : A'.Sized n')
    (hp : ∀ k, userPages ≤ k → A'.pg k = A.pg k) : Image A' n' tf :=
  ⟨hle, hs, (hp _ le_rfl).trans hI.trapframe, (hp _ (Nat.le_succ _)).trans hI.trampoline⟩

abbrev topChunk : Nat := 131071

/-- A fresh address space: no user page, and no page-table page for one. -/
structure Fresh (A : Space) (tf : Nat) : Prop where
  image : Image A 0 tf
  tables : ∀ v q, A.dir v = .table q → v = topChunk

structure Created (tf : Nat) (σ : Phys) (h : List Block) (σ' : Phys) (A : Space) : Prop where
  live : Live σ' A h
  keeps : Keeps 0 σ Holdings.none h σ' A.holdings h
  fresh : Fresh A tf
  superpages : σ'.superpages = σ.superpages
  freelist : ∃ used, σ.freelist = used ++ σ'.freelist ∧ used.length ≤ 5

theorem sized_zero (hpg : ∀ k, k < userPages → A.pg k = none) (hdir : ∀ v w, A.dir v ≠ .leaf w) : A.Sized 0 where
  tiled k _ hk := absurd hk (Nat.not_lt_zero k)
  pg_none k _ hk := hpg k hk
  dir_le v w hw := absurd hw (hdir v w)

theorem no_leaf {v : Nat} (hdir : ∀ u, A'.dir u = A.dir u ∨ u = v ∧ A.dir u = .none ∧ ∃ q, A'.dir u = .table q)
    (hA : ∀ u w, A.dir u ≠ .leaf w) (u w : Nat) : A'.dir u ≠ .leaf w := by
  intro hw
  rcases hdir u with he | ⟨-, -, q, hq⟩
  · exact hA u w (he ▸ hw)
  · rw [hq] at hw; cases hw

theorem leafPte_trampoline : LeafPte (mkPte trampoline (PTE_R ||| PTE_X)) :=
  leafPte_mkPte (by unfold PageAddr; decide) (by decide) (.inl (by decide)) (by decide)

theorem leafPte_trapframe (htf : PageAddr tf) : LeafPte (mkPte tf (PTE_R ||| PTE_W)) :=
  leafPte_mkPte htf (by decide) (.inl (by decide)) (by decide)

theorem uvmfree_zero_spec {σ0 : Phys} {B : Holdings} (hk : Keeps 0 σ0 B h σ A.holdings h) (hL : Live σ A h)
    (hpg : ∀ k, A.pg k = none) (hdir : ∀ v w, A.dir v ≠ .leaf w) :
    wp (uvmfree A.root 0) (fun _ σ' => Sep σ' Holdings.none h ∧ Keeps 0 σ0 B h σ' Holdings.none h) E σ := by
  have hA : A.Sized (npages 0) := by rw [npages_zero]; exact sized_zero (fun k _ => hpg k) hdir
  refine wp_post (uvmfree_spec hL hA (by rw [npages_zero]; exact Nat.zero_le _) fun k _ => hpg k) ?_
  intro _ σ' hD
  exact ⟨hD.sep, hk.trans hD.keeps⟩

theorem procPagetable_spec (hs : Sep σ Holdings.none h) (htf : PageAddr tf) :
    wp (procPagetable tf) (fun r σ' =>
      (r = none ∧ σ.freelist.length ≤ 5 ∧ Sep σ' Holdings.none h ∧ Keeps 0 σ Holdings.none h σ' Holdings.none h) ∨
      ∃ A, r = some A.root ∧ Created tf σ h σ' A) E σ := by
  unfold procPagetable
  rw [wp_bind]
  refine uvmcreate_spec 0 hs (fun hnil => ?_) fun p σ1 hp hL1 hk1 hfl1 hsup1 => ?_
  · exact (wp_pure (a := none)).2 (.inl ⟨rfl, by rw [hnil]; exact Nat.zero_le _, hs, Keeps.refl⟩)
  simp only [wp_bind]
  have hmap := mappages_high_spec 0 TRAMPOLINE (E := E) hL1 (by decide) (by decide) (by decide) (fun w hw => by cases hw)
    rfl leafPte_trampoline
  refine wp_post hmap ?_
  rintro r1 σ2 (⟨rfl, A2, hM2⟩ | ⟨rfl, hnil, A2, hT2⟩)
  · rw [if_neg (by decide)]
    have hpg2 : A2.pg = Function.update (fun _ => none) (userPages + 1) (some (mkPte trampoline (PTE_R ||| PTE_X))) :=
      hM2.pg
    have hdir2 : ∀ v w, A2.dir v ≠ .leaf w := no_leaf hM2.dir fun _ _ hw => by cases hw
    have htab2 : ∀ v q, A2.dir v = .table q → v = topChunk := by
      intro v q hq
      rcases hM2.dir v with he | ⟨hv, -, -⟩
      · rw [he] at hq; cases hq
      · exact hv
    have hroot2 : A2.root = p := hM2.root
    rw [← hroot2, wp_bind]
    have hmap2 := mappages_high_spec 0 TRAPFRAME (E := E) hM2.live (by decide) (by decide) (by decide) (hdir2 _)
      (by rw [hpg2, update_of_ne (by decide)]) (leafPte_trapframe htf)
    refine wp_post hmap2 ?_
    obtain ⟨u2, e2, l2⟩ := hM2.freelist
    rintro r2 σ3 (⟨rfl, A3, hM3⟩ | ⟨rfl, hnil, A3, hT3⟩)
    · rw [if_neg (by decide), wp_pure]
      refine .inr ⟨A3, by rw [hM3.root], ?_⟩
      have hpg3 : A3.pg = Function.update A2.pg userPages (some (mkPte tf (PTE_R ||| PTE_W))) := hM3.pg
      have hlow : ∀ k, k < userPages → A3.pg k = none := by
        intro k hk
        rw [hpg3, update_of_ne (Nat.ne_of_lt hk), hpg2, update_of_ne (Nat.ne_of_lt (Nat.lt_succ_of_lt hk))]
      have hdir3 := no_leaf hM3.dir hdir2
      obtain ⟨u3, e3, l3⟩ := hM3.freelist
      refine ⟨hM3.live, (hk1.trans hM2.keeps).trans hM3.keeps, ⟨⟨Nat.zero_le _, sized_zero hlow hdir3, ?_, ?_⟩, ?_⟩, ?_, ?_⟩
      · rw [hpg3, update_self]
      · rw [hpg3, update_of_ne (by decide), hpg2, update_self]
      · intro v q hq
        rcases hM3.dir v with he | ⟨hv, -, -⟩
        · exact htab2 v q (he ▸ hq)
        · exact hv
      · rw [hM3.superpages, hM2.superpages, hsup1]
      · refine ⟨p :: (u2 ++ u3), by rw [hfl1, e2, e3]; simp, ?_⟩
        rw [List.length_cons, List.length_append]
        omega
    · -- unmap the trampoline again
      rw [if_pos (by decide), wp_bind]
      have htramp : A3.pg (userPages + 1) = some (mkPte trampoline (PTE_R ||| PTE_X)) := by
        rw [hT3.pg, hpg2, update_self]
      rw [← hT3.root]
      refine wp_post (uvmunmap_high_spec 0 hT3.live (Nat.le_succ _) htramp) ?_
      rintro _ σ4 ⟨A4, hF, -, -⟩
      have hpg4 : ∀ k, A4.pg k = none := by
        intro k
        rw [hF.unmaps.pg]
        split
        · rfl
        · rw [hT3.pg, hpg2, update_of_ne (by omega)]
      have hdir4 : ∀ v w, A4.dir v ≠ .leaf w := by
        intro v w hw
        rw [hF.unmaps.dir] at hw
        split at hw
        · rcases hd : A3.dir v with _ | q | u <;> rw [hd] at hw <;> simp [Dir.unleaf] at hw
        · exact no_leaf hT3.dir hdir2 v w hw
      rw [← hF.root, wp_bind]
      refine wp_post (uvmfree_zero_spec (((hk1.trans hM2.keeps).trans hT3.keeps).trans hF.keeps) hF.live hpg4 hdir4) ?_
      rintro _ σ' ⟨hs', hk'⟩
      obtain ⟨u3, e3, l3⟩ := hT3.freelist
      refine wp_pure.2 (.inl ⟨rfl, ?_, hs', hk'⟩)
      rw [hfl1, e2, e3, hnil, List.append_nil, List.length_cons, List.length_append]
      omega
  · rw [if_pos (by decide), wp_bind]
    have hdir2 : ∀ v w, A2.dir v ≠ .leaf w := no_leaf hT2.dir fun _ _ hw => by cases hw
    have hroot2 : A2.root = p := hT2.root
    rw [← hroot2]
    refine wp_post (uvmfree_zero_spec (hk1.trans hT2.keeps) hT2.live (fun k => by rw [hT2.pg]; rfl) hdir2) ?_
    rintro _ σ' ⟨hs', hk'⟩
    obtain ⟨u2, e2, l2⟩ := hT2.freelist
    refine wp_pure.2 (.inl ⟨rfl, ?_, hs', hk'⟩)
    rw [hfl1, e2, hnil, List.append_nil, List.length_cons]
    omega

theorem Space.Sized.unmap_high (hA : A.Sized n) (hn : n ≤ userPages) {k : Nat} (hk : userPages ≤ k)
    (hU : Unmaps k (k + 1) A A') : A'.Sized n where
  tiled j h1 h2 := by
    rcases hA.tiled j h1 h2 with ⟨w, hw⟩ | ⟨w, hw, hR, h3, h4⟩
    · exact .inl ⟨w, by rw [hU.pg, if_neg (by omega)]; exact hw⟩
    · refine .inr ⟨w, ?_, hR, h3, h4⟩
      rw [hU.dir, if_neg (by omega)]
      exact hw
  pg_none j h1 h2 := by
    rw [hU.pg]
    split
    · rfl
    · exact hA.pg_none j h1 h2
  dir_le v w hw := by
    rw [hU.dir] at hw
    split at hw
    · rcases hd : A.dir v with _ | q | u <;> rw [hd] at hw <;> simp [Dir.unleaf] at hw
    · exact hA.dir_le v w hw

theorem procFreepagetable_spec (hL : Live σ A h) (hI : Image A (npages sz) tf) :
    wp (procFreepagetable A.root sz) (fun _ σ' => Dissolved 0 σ A h σ') E σ := by
  unfold procFreepagetable
  rw [show TRAMPOLINE = (userPages + 1) * PGSIZE from rfl, show TRAPFRAME = userPages * PGSIZE from rfl, wp_bind]
  refine wp_post (uvmunmap_high_spec 0 hL (Nat.le_succ _) hI.trampoline) ?_
  rintro _ σ1 ⟨A1, hF1, hfl1, hsup1⟩
  have htf : A1.pg userPages = some (mkPte tf (PTE_R ||| PTE_W)) := by
    rw [hF1.unmaps.pg, if_neg (by omega)]; exact hI.trapframe
  rw [← hF1.root, wp_bind]
  refine wp_post (uvmunmap_high_spec 0 hF1.live le_rfl htf) ?_
  rintro _ σ2 ⟨A2, hF2, hfl2, hsup2⟩
  have hA2 := (hI.sized.unmap_high hI.le (Nat.le_succ _) hF1.unmaps).unmap_high hI.le le_rfl hF2.unmaps
  have hhigh : ∀ k, userPages ≤ k → A2.pg k = none := by
    intro k hk
    rw [hF2.unmaps.pg]
    split
    · rfl
    · rw [hF1.unmaps.pg]
      split
      · rfl
      · by_contra hc
        obtain ⟨w, hw⟩ := Option.ne_none_iff_exists'.1 hc
        have := Space.pg_lt hw
        lia
  rw [← hF2.root]
  refine wp_post (uvmfree_spec hF2.live hA2 hI.le hhigh) ?_
  intro _ σ' hD
  exact ⟨hD.sep, (hF1.keeps.trans hF2.keeps).trans hD.keeps, by rw [← hfl1, ← hfl2]; exact hD.freelist,
    by rw [← hsup1, ← hsup2]; exact hD.superpages⟩

end Xv6
