import Xv6.Proc.Replace
import Xv6.Vm.Grant

/-!
# The permissions of a new image

`exec` asks `uvmalloc` for the permissions of each segment, and a segment without the write flag becomes writable where it
fills a whole superpage.
-/

namespace Xv6

open Bytes (Mem)
open Hoare

variable {m : Mem} {A : Space} {s : Segment} {k l w flags : Nat}

theorem Rep.lookup_leafAt {va : Nat} (h : Rep m A) (hl : A.leafAt va = some (l, w)) :
    ∃ pa, lookup m A.root va = some (pa, pteFlags w) := by
  refine ⟨w / 1024 % 2 ^ 44 * 4096 + va % 2 ^ (12 + 9 * l), ?_⟩
  have hlt := Space.leafAt_lt hl
  rw [lookup, if_pos (.inl (by simpa using hlt)), h.sv39Leaf_eq hlt, hl]
  rfl

theorem flags2perm_write (flags : Nat) : hasFlag (flags2perm flags) PTE_W = true ↔ flags &&& 2 ≠ 0 := by
  unfold flags2perm
  by_cases hw : flags &&& 2 = 0
  · rw [if_neg (by simpa using hw)]
    split <;> simp [hw, hasFlag, PTE_X, PTE_W]
  · rw [if_pos hw]
    split <;> simp [hw, hasFlag]

theorem Space.Granted.lookup (hS : A.Granted s) (hm : Rep m A) (h1 : s.lo ≤ k) (h2 : k < npages s.newsz) :
    ∃ pa flags, lookup m A.root (k * PGSIZE) = some (pa, flags) ∧
      (hasFlag flags PTE_W = true ↔ s.flags &&& 2 ≠ 0 ∨ Whole s.lo s.newsz (k / 512)) := by
  have hpg : k * PGSIZE / PGSIZE = k := Nat.mul_div_cancel k (by decide)
  have hdir : k * PGSIZE / SUPERPGSIZE = k / 512 := by rw [← page_div, hpg]
  by_cases hW : Whole s.lo s.newsz (k / 512)
  · obtain ⟨w, hw, hf⟩ := hS.dir _ hW
    have hl : A.leafAt (k * PGSIZE) = some (1, w) := by rw [Space.leafAt, hdir, hw]
    obtain ⟨pa, hpa⟩ := hm.lookup_leafAt hl
    refine ⟨pa, pteFlags w, hpa, iff_of_true ?_ (.inr hW)⟩
    have : hasFlag (PTE_R ||| PTE_W ||| PTE_U ||| flags2perm s.flags ||| PTE_V) (2 ^ 2) = true := by
      simp only [hasFlag_or]
      rfl
    rw [hf]
    exact this
  · obtain ⟨w, hw, hf⟩ := hS.pg k h1 h2 hW
    obtain ⟨q, hq⟩ := A.pg_dir hw
    have hl : A.leafAt (k * PGSIZE) = some (0, w) := by rw [Space.leafAt, hdir, hq, hpg, hw]; rfl
    obtain ⟨pa, hpa⟩ := hm.lookup_leafAt hl
    refine ⟨pa, pteFlags w, hpa, ?_⟩
    have : hasFlag (PTE_R ||| PTE_U ||| flags2perm s.flags ||| PTE_V) (2 ^ 2) = hasFlag (flags2perm s.flags) (2 ^ 2) := by
      simp only [hasFlag_or]
      exact Bool.or_false _
    rw [hf, show hasFlag _ PTE_W = _ from this, show hasFlag _ (2 ^ 2) = true ↔ _ from flags2perm_write s.flags, or_iff_left hW]

/-- The leaves that a successful `uvmalloc` adds have the flags that were asked for if and only if these include `PTE_W` or no
aligned 2 MiB lie wholly in the new part. -/
theorem grants_asked_iff (σ : Phys) (T : Skeleton) (oldsz newsz xperm : Nat) :
    (∀ (σ' : Phys) (r : Nat), Pools σ T → xperm < 1024 →
      (uvmalloc T.root oldsz newsz xperm).run σ = .ok (r, σ') → r ≠ 0 →
      ((∀ va pa flags, lookup σ.mem T.root va = none → lookup σ'.mem T.root va = some (pa, flags) →
          flags = PTE_V ||| PTE_R ||| PTE_U ||| xperm) ↔
        newsz < oldsz ∨ hasFlag xperm PTE_W = true ∨ ∀ v, ¬Whole (pgroundup oldsz / PGSIZE) newsz v)) ∧
    ∀ (κ : Kernel) (i : Pid) (P : Space) (path file : List UInt8) (argv : List (List UInt8)), WellFormed κ i P →
      ∃ r κ', (exec i path (some file) argv).run κ = .ok (r, κ') ∧ (r = -1 ∨
        ∀ s ∈ fileSegments file, ∀ k, s.lo ≤ k → k < npages s.newsz →
          ∃ pa flags, lookup κ'.phys.mem (κ'.proc i).pagetable (k * PGSIZE) = some (pa, flags) ∧
            ((hasFlag flags PTE_W = true → s.flags &&& 2 ≠ 0) ↔ s.flags &&& 2 ≠ 0 ∨ ¬Whole s.lo s.newsz (k / 512))) := by
  refine ⟨fun σ' r hP hx hrun hr => uvmalloc_grants hP hx hrun hr, ?_⟩
  intro κ i P path file argv hW
  obtain ⟨r, κ', hrun, h⟩ := wp_false_iff.1 (exec_replaces hW path (some file) argv)
  refine ⟨r, κ', hrun, ?_⟩
  rcases h with ⟨hr, -⟩ | ⟨-, A, bytes, hA, hbytes, hseg⟩
  · exact .inl hr
  · cases hbytes
    refine .inr fun s hs k h1 h2 => ?_
    obtain ⟨pa, flags, hlook, hiff⟩ := (hseg s hs).lookup hA.wellFormed.live.rep h1 h2
    rw [hA.wellFormed.root] at hlook
    exact ⟨pa, flags, hlook, by rw [hiff]; tauto⟩

def oneSuper : Phys := ⟨fun _ => 0, [0x80022000], [0x80200000]⟩

theorem oneSuper_pools : Pools oneSuper (rootOnly 0x80021000) where
  toTidy := by
    have h : Tidy (zeroPhys [0x80022000]) (rootOnly 0x80021000) :=
      rootOnly_tidy (by unfold PageAddr; decide) (by unfold PageAddr; decide) (by decide)
    exact ⟨h.holds, h.free, h.nodup⟩
  super s hs := by
    obtain rfl : s = 0x80200000 := by simpa [oneSuper] using hs
    refine ⟨by decide, by decide, fun x p hp => ?_, fun p hp => ?_⟩
    · rw [(rootOnly_tbl hp).2]
      decide
    · obtain rfl : p = 0x80022000 := by simpa [oneSuper] using hp
      decide

theorem oneSuper_uvmalloc (xperm : Nat) : ∃ m, (uvmalloc 0x80021000 0 0x200000 xperm).run oneSuper =
    .ok (0x200000, ⟨m, [], []⟩) ∧ (xperm = PTE_X →
      lookup m 0x80021000 0 = some (0x80200000, PTE_V ||| PTE_R ||| PTE_W ||| PTE_X ||| PTE_U)) := by
  unfold uvmalloc
  rw [if_neg (by decide), uvmallocLoop, dif_pos (by decide), if_pos (by decide)]
  have hend : uvmallocLoop 0x80021000 (pgroundup 0) 0x200000 xperm (pgroundup 0 + SUPERPGSIZE) = pure 0x200000 := by
    rw [uvmallocLoop, dif_neg (by decide)]
  rw [hend]
  refine ⟨_, rfl, ?_⟩
  rintro rfl
  decide +kernel

/-- Growing an empty address space by 2 MiB of writable memory. -/
theorem grants_asked_writable : Pools oneSuper (rootOnly 0x80021000) ∧
    ∃ σ', (uvmalloc 0x80021000 0 0x200000 PTE_W).run oneSuper = .ok (0x200000, σ') ∧
      ∀ va pa flags, lookup oneSuper.mem 0x80021000 va = none → lookup σ'.mem 0x80021000 va = some (pa, flags) →
        flags = PTE_V ||| PTE_R ||| PTE_U ||| PTE_W := by
  obtain ⟨m, hrun, -⟩ := oneSuper_uvmalloc PTE_W
  refine ⟨oneSuper_pools, _, hrun, ?_⟩
  have hiff := (grants_asked_iff oneSuper (rootOnly 0x80021000) 0 0x200000 PTE_W).1 _ _ oneSuper_pools (by decide) hrun (by decide)
  exact hiff.2 (.inr (.inl rfl))

/-- Growing an empty address space by 2 MiB that shall be executable and not writable makes them writable. -/
theorem superpage_writable : Pools oneSuper (rootOnly 0x80021000) ∧ flags2perm 5 = PTE_X ∧
    ∃ σ', (uvmalloc 0x80021000 0 0x200000 (flags2perm 5)).run oneSuper = .ok (0x200000, σ') ∧
      lookup oneSuper.mem 0x80021000 0 = none ∧
      lookup σ'.mem 0x80021000 0 = some (0x80200000, PTE_V ||| PTE_R ||| PTE_W ||| PTE_X ||| PTE_U) := by
  obtain ⟨m, hrun, hlook⟩ := oneSuper_uvmalloc PTE_X
  exact ⟨oneSuper_pools, rfl, _, hrun, by decide +kernel, hlook rfl⟩

end Xv6
