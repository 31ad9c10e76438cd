import Xv6.Vm.Grow
import Xv6.Vm.Refine

/-!
# The permissions that `uvmalloc` grants

`uvmalloc` builds the entry of a 4 KiB page and that of a superpage in two places, and only the second one adds `PTE_W` of
its own.
-/

namespace Xv6

open Bytes (Mem fill fill_outside)
open Hoare

variable {σ σ' : Phys} {T T' : Skeleton} {f g : Nat → Option (Nat × Nat)} {k lo n newsz p s v xperm : Nat} {m : Mem}
  {x y : Nat}

/-- Moreover the free superpages contain neither page-table pages nor free pages. -/
structure Pools (σ : Phys) (T : Skeleton) : Prop extends Tidy σ T where
  super : ∀ s ∈ σ.superpages, s % SUPERPGSIZE = 0 ∧ s + SUPERPGSIZE ≤ 2 ^ 56 ∧
    (∀ x p, T.tbl x = some p → p < s ∨ s + SUPERPGSIZE ≤ p) ∧ ∀ p ∈ σ.freelist, p < s ∨ s + SUPERPGSIZE ≤ p

theorem Becomes.pools (h : Becomes σ T σ' T' f) (hP : Pools σ T) : Pools σ' T' where
  toTidy := h.tidy
  super s hs := by
    rw [h.superpages] at hs
    obtain ⟨hal, hlt, htbl, hfree⟩ := hP.super s hs
    refine ⟨hal, hlt, fun x p hp => ?_, fun p hp => hfree p (h.freelist hp)⟩
    rcases h.tbl hp with hp | hp
    · exact htbl x p hp
    · exact hfree p hp

theorem Pools.takeSuper (hP : Pools σ T) {rest : List Nat} (hs : σ.superpages = s :: rest)
    (hm : ∀ x, ¬(s ≤ x ∧ x < s + SUPERPGSIZE) → m x = σ.mem x) :
    Pools { σ with mem := m, superpages := rest } T ∧ ∀ n, T.leaf m n = T.leaf σ.mem n := by
  obtain ⟨hal, -, htbl, -⟩ := hP.super s (by rw [hs]; exact List.mem_cons_self)
  have hoff : ∀ x, (∃ y, T.tbl y = some (pgrounddown x)) → m x = σ.mem x := fun x ⟨y, hy⟩ => hm x fun hin => by
    rcases htbl y _ hy with h | h <;> (unfold pgrounddown at h; lia)
  have hframe := hP.holds.frame hoff
  refine ⟨⟨⟨hframe.1, hP.free, hP.nodup⟩, fun t ht => hP.super t ?_⟩, hframe.2⟩
  rw [hs]
  exact List.mem_cons_of_mem _ ht

/-- The flags of a leaf that `uvmalloc` makes, by its level. -/
def grantedFlags (xperm level : Nat) : Nat :=
  (if level = 0 then PTE_R ||| PTE_U ||| xperm else PTE_R ||| PTE_W ||| PTE_U ||| xperm) ||| PTE_V

/-- The loop of `uvmalloc` has got from page `lo` to page `n`: the leaves of these pages are new, and the others are those of
`f`. -/
structure Granting (lo n newsz xperm : Nat) (f g : Nat → Option (Nat × Nat)) : Prop where
  same : ∀ k, ¬(lo ≤ k ∧ k < n) → g k = f k
  old : ∀ k, lo ≤ k → k < n → f k = none
  page : ∀ k, lo ≤ k → k < n → ¬Whole lo newsz (k / 512) → ∃ e, g k = some (0, e) ∧ pteFlags e = grantedFlags xperm 0
  super : ∀ k, lo ≤ k → k < n → Whole lo newsz (k / 512) → ∃ e, g k = some (1, e) ∧ pteFlags e = grantedFlags xperm 1
  /-- The loop does not stop inside a superpage. -/
  whole_le : ∀ v, Whole lo newsz v → v * 512 < n → v * 512 + 512 ≤ n

theorem Granting.refl : Granting lo lo newsz xperm f f where
  same _ _ := rfl
  old k h1 h2 := absurd h2 (by omega)
  page k h1 h2 := absurd h2 (by omega)
  super k h1 h2 := absurd h2 (by omega)
  whole_le v hW hv := absurd hW.1 (by omega)

theorem leafPerm_readable (h : PTE_R ||| x ||| y < 1024) : LeafPerm (PTE_R ||| x ||| y) :=
  ⟨h, by rw [hasFlag_readable]; rfl⟩

theorem Granting.addPage (hG : Granting lo n newsz xperm f g) (hx : xperm < 1024) (hlo : lo ≤ n)
    (hsm : ¬(n * PGSIZE % SUPERPGSIZE = 0 ∧ newsz - n * PGSIZE ≥ SUPERPGSIZE)) (hnone : g n = none) (hp : PageAddr p) :
    Granting lo (n + 1) newsz xperm f (mapRange g n 1 p (PTE_R ||| PTE_U ||| xperm)) := by
  have hW : ¬Whole lo newsz (n / 512) := by
    intro hW
    by_cases hn : n / 512 * 512 < n
    · have := hG.whole_le _ hW hn
      omega
    · exact hsm (by unfold Whole at hW; lia)
  have hnew : mapRange g n 1 p (PTE_R ||| PTE_U ||| xperm) n = some (0, mkPte p (PTE_R ||| PTE_U ||| xperm)) := by
    rw [mapRange, if_pos (by omega), Nat.sub_self, Nat.zero_mul, Nat.add_zero]
    exact (leafPerm_readable (pagePerm_lt hx)).mmuLeaf hp.2.2 (by rw [Nat.mul_zero, Nat.pow_zero]; exact Nat.mod_one _)
  have hsame : ∀ k, k ≠ n → mapRange g n 1 p (PTE_R ||| PTE_U ||| xperm) k = g k := fun k hk => by
    rw [mapRange, if_neg (by omega)]
  refine ⟨fun k hk => ?_, fun k h1 h2 => ?_, fun k h1 h2 hk => ?_, fun k h1 h2 hk => ?_, fun v hv hlt => ?_⟩
  · rw [hsame k (by omega)]
    exact hG.same k (by omega)
  · by_cases hk : k = n
    · rw [hk, ← hG.same n (by omega), hnone]
    · exact hG.old k h1 (by omega)
  · by_cases hkn : k = n
    · subst hkn
      exact ⟨_, hnew, mkPte_flags (pagePerm_lt hx)⟩
    · rw [hsame k hkn]
      exact hG.page k h1 (by omega) hk
  · have hkn : k ≠ n := by
      rintro rfl
      exact hW hk
    rw [hsame k hkn]
    exact hG.super k h1 (by omega) hk
  · have : v * 512 ≠ n := by
      rintro rfl
      rw [Nat.mul_div_cancel _ (by decide)] at hW
      exact hW hv
    have := hG.whole_le v hv (by omega)
    omega

theorem Granting.addSuper (hG : Granting lo n newsz xperm f g) (hx : xperm < 1024) (hlo : lo ≤ n)
    (hal : n * PGSIZE % SUPERPGSIZE = 0) (hsz : newsz - n * PGSIZE ≥ SUPERPGSIZE)
    (hnone : ∀ k, k / 512 = n / 512 → g k = none) (hs : s % SUPERPGSIZE = 0) (hlt : s < 2 ^ 56) :
    Granting lo (n + 512) newsz xperm f (mapSuper g (n / 512) s (PTE_R ||| PTE_W ||| PTE_U ||| xperm)) := by
  obtain ⟨hn, hW⟩ := whole_of_super hlo hal hsz
  have hnew : ∀ k, k / 512 = n / 512 → mapSuper g (n / 512) s (PTE_R ||| PTE_W ||| PTE_U ||| xperm) k =
      some (1, mkPte s (PTE_R ||| PTE_W ||| PTE_U ||| xperm)) := by
    intro k hk
    have hperm : LeafPerm (PTE_R ||| PTE_W ||| PTE_U ||| xperm) := by
      have h := superPerm_lt hx
      rw [Nat.or_assoc PTE_R] at h ⊢
      exact leafPerm_readable h
    rw [mapSuper, if_pos hk]
    exact hperm.mmuLeaf hlt (by lia)
  have hsame : ∀ k, k / 512 ≠ n / 512 → mapSuper g (n / 512) s (PTE_R ||| PTE_W ||| PTE_U ||| xperm) k = g k :=
    fun k hk => if_neg hk
  refine ⟨fun k hk => ?_, fun k h1 h2 => ?_, fun k h1 h2 hk => ?_, fun k h1 h2 hk => ?_, fun v hv hlt => ?_⟩
  · rw [hsame k (by omega)]
    exact hG.same k (by omega)
  · by_cases hkn : k / 512 = n / 512
    · rw [← hG.same k (by omega), hnone k hkn]
    · exact hG.old k h1 (by omega)
  · by_cases hkn : k / 512 = n / 512
    · exact absurd (hkn ▸ hW) hk
    · rw [hsame k hkn]
      exact hG.page k h1 (by omega) hk
  · by_cases hkn : k / 512 = n / 512
    · exact ⟨_, hnew k hkn, mkPte_flags (superPerm_lt hx)⟩
    · rw [hsame k hkn]
      exact hG.super k h1 (by omega) hk
  · by_cases hvn : v * 512 < n
    · have := hG.whole_le v hv hvn
      omega
    · omega

/-- The state of the loop of `uvmalloc` when it has got to page `n`. -/
structure GrantLoop (lo n newsz xperm root : Nat) (f : Nat → Option (Nat × Nat)) (σ : Phys) (T : Skeleton) : Prop where
  pools : Pools σ T
  root : T.root = root
  granting : Granting lo n newsz xperm f (T.leaf σ.mem)

variable {root perm level e oldsz r : Nat} {E : String → Prop}

theorem mappages_one (hT : Tidy σ T) (hp : PageAddr p) (hperm : perm < 1024) :
    wp (mappages T.root (n * PGSIZE) PGSIZE p perm) (fun r σ' => r = 0 →
      ∃ T', T.leaf σ.mem n = none ∧ Becomes σ T σ' T' (mapRange (T.leaf σ.mem) n 1 p perm)) (fun _ => True) σ := by
  unfold mappages
  rw [if_neg (by lia), if_neg (by decide), if_neg (by decide), show PGSIZE / PGSIZE = 1 from rfl]
  by_cases hmax : n * PGSIZE < MAXVA
  · refine wp_post (mappagesLoop_becomes hT (by lia) hperm (by have := hp.1; have := hp.2.2; lia)) ?_
    rintro r σ' ⟨T', j, hr, hold, hB⟩ rfl
    obtain rfl : j = 1 := by omega
    exact ⟨T', hold n le_rfl (by omega), hB⟩
  · rw [mappagesLoop, wp_bind]
    unfold walk
    rw [if_pos (by lia)]
    trivial

theorem uvmallocLoop_grants (hx : xperm < 1024) (hG : GrantLoop lo n newsz xperm root f σ T) (hlo : lo ≤ n) :
    wp (uvmallocLoop root (lo * PGSIZE) newsz xperm (n * PGSIZE)) (fun r σ' => r ≠ 0 → ∃ T' n', lo ≤ n' ∧ newsz ≤ n' * PGSIZE ∧
      GrantLoop lo n' newsz xperm root f σ' T') (fun _ => True) σ := by
  induction h : newsz - n * PGSIZE using Nat.strong_induction_on generalizing n σ T with
  | _ d ih =>
    have hbad : ∀ {a} {Q : Phys → Prop} σ, wp (do let _ ← uvmdealloc root a (lo * PGSIZE); return 0 : PhysM Nat)
        (fun r σ' => r ≠ 0 → Q σ') (fun _ => True) σ := by
      intro a Q σ
      rw [wp_bind]
      exact wp_of_all (fun _ _ hc => absurd rfl hc) fun _ => trivial
    have hroot := hG.root
    unfold uvmallocLoop
    split
    next hlt =>
      split
      next hsuper =>
        rw [wp_bind, wp_superalloc]
        refine ⟨fun _ => hbad _, fun s rest hs => ?_⟩
        obtain ⟨hal, hle, -⟩ := hG.pools.super s (by rw [hs]; exact List.mem_cons_self)
        obtain ⟨hP, hleaf⟩ := hG.pools.takeSuper (m := fill (fill σ.mem s SUPERPGSIZE 5) s SUPERPGSIZE 0) hs
          fun x hx => by rw [fill_outside (by omega), fill_outside (by omega)]
        simp only [wp_bind, wp_memset]
        by_cases hmax : n * PGSIZE < MAXVA
        · have hperm : LeafPerm (PTE_R ||| PTE_W ||| PTE_U ||| xperm) := by
            have h := superPerm_lt hx
            rw [Nat.or_assoc PTE_R] at h ⊢
            exact leafPerm_readable h
          rw [← hroot]
          refine wp_post (supermappages_becomes hP.toTidy hmax hperm.1 (by lia) hperm.pteLeaf) ?_
          rintro r σ' ⟨T', ⟨rfl, hold, hB⟩ | ⟨rfl, -⟩⟩
          · have hdiv : n * PGSIZE / SUPERPGSIZE = n / 512 := by lia
            rw [hdiv] at hold hB
            rw [if_neg (by decide), hroot, show n * PGSIZE + SUPERPGSIZE = (n + 512) * PGSIZE by lia]
            simp only [hleaf] at hold hB
            rw [funext hleaf] at hB
            refine ih _ (by lia) ⟨hB.pools hP, hB.root.trans hroot, ?_⟩ (by omega) rfl
            rw [funext hB.leaf]
            exact hG.granting.addSuper hx hlo hsuper.1 hsuper.2 hold hal (by lia)
          · rw [if_pos (by decide), wp_bind, hroot]
            exact wp_of_all (fun _ _ => hbad _) fun _ => trivial
        · unfold supermappages superwalk
          rw [if_neg (by simpa using hsuper.1), if_pos (by lia)]
          trivial
      next hsm =>
        rw [wp_bind, wp_kalloc]
        refine ⟨fun _ => hbad _, fun p rest hp => ?_⟩
        have hpage := (hG.pools.free p (by rw [hp]; exact List.mem_cons_self)).1
        have hfresh := (hG.pools.free p (by rw [hp]; exact List.mem_cons_self)).2
        have hB := Becomes.take (m := fill (fill σ.mem p PGSIZE 5) p PGSIZE 0) hG.pools.toTidy hp
          (hG.pools.holds.frame fun x ⟨y, hy⟩ => by
            have hne : pgrounddown x ≠ p := by
              rintro rfl
              exact hfresh y hy
            have := hpage.1
            rw [fill_outside (by unfold pgrounddown at hne; lia), fill_outside (by unfold pgrounddown at hne; lia)])
        simp only [wp_bind, wp_memset]
        rw [← hroot]
        refine wp_post (mappages_one (n := n) hB.tidy hpage (pagePerm_lt hx)) ?_
        intro r σ' hr
        split
        next =>
          rw [wp_bind, hroot]
          exact wp_of_all (fun _ _ => hbad _) fun _ => trivial
        next hzero =>
          obtain ⟨T', hold, hB'⟩ := hr (not_not.1 hzero)
          rw [hB.leaf] at hold
          rw [funext hB.leaf] at hB'
          rw [hroot, show n * PGSIZE + PGSIZE = (n + 1) * PGSIZE by lia]
          refine ih _ (by lia) ⟨(hB.trans hB').pools hG.pools, hB'.root.trans hroot, ?_⟩ (by omega) rfl
          rw [funext hB'.leaf]
          exact hG.granting.addPage hx hlo hsm hold hpage
    next hge => exact fun _ => ⟨T, n, hlo, by omega, hG⟩

theorem eq_of_hasFlag (h : ∀ j, hasFlag x (2 ^ j) = hasFlag y (2 ^ j)) : x = y :=
  Nat.eq_of_testBit_eq fun j => by rw [← hasFlag_eq_testBit, ← hasFlag_eq_testBit, h]

theorem grantedFlags_page (xperm : Nat) : grantedFlags xperm 0 = PTE_V ||| PTE_R ||| PTE_U ||| xperm := by
  refine eq_of_hasFlag fun j => ?_
  rw [grantedFlags, if_pos rfl]
  simp only [hasFlag_or]
  ac_rfl

theorem grantedFlags_super (xperm : Nat) :
    grantedFlags xperm 1 = PTE_V ||| PTE_R ||| PTE_U ||| xperm ↔ hasFlag xperm PTE_W = true := by
  rw [grantedFlags, if_neg (by decide)]
  constructor
  · intro h
    have hW : hasFlag (PTE_R ||| PTE_W ||| PTE_U ||| xperm ||| PTE_V) (2 ^ 2) =
        hasFlag (PTE_V ||| PTE_R ||| PTE_U ||| xperm) (2 ^ 2) := by rw [h]
    simp only [hasFlag_or] at hW
    exact hW.symm
  · intro h
    refine eq_of_hasFlag fun j => ?_
    simp only [hasFlag_or]
    by_cases hj : j = 2
    · subst hj
      rw [show hasFlag xperm (2 ^ 2) = true from h]
      simp
    · have hW : hasFlag PTE_W (2 ^ j) = false := by
        rw [hasFlag_eq_testBit, show PTE_W = 2 ^ 2 from rfl, Nat.testBit_two_pow_of_ne (Ne.symm hj)]
      rw [hW, Bool.or_false]
      ac_rfl

theorem Skeleton.Holds.lookup_leaf (h : T.Holds m) (hl : T.leaf m k = some (level, e)) :
    ∃ pa, lookup m T.root (k * PGSIZE) = some (pa, pteFlags e) := by
  have hlt : k * PGSIZE < MAXVA := by
    rcases hp : T.l1 (k / 512 / 512) with _ | p
    · simp [Skeleton.leaf, hp] at hl
    · have := h.l1_lt hp
      lia
  refine ⟨e / 1024 % 2 ^ 44 * 4096 + k * PGSIZE % 2 ^ (12 + 9 * level), ?_⟩
  rw [h.lookup_eq hlt, Nat.mul_div_cancel k (by decide), hl]
  rfl

/-- The leaves that a successful `uvmalloc` adds all have the flags that were asked for if and only if these include `PTE_W` or
it made no superpage. -/
theorem uvmalloc_grants (hP : Pools σ T) (hx : xperm < 1024)
    (hrun : (uvmalloc T.root oldsz newsz xperm).run σ = .ok (r, σ')) (hr : r ≠ 0) :
    (∀ va pa flags, lookup σ.mem T.root va = none → lookup σ'.mem T.root va = some (pa, flags) →
      flags = PTE_V ||| PTE_R ||| PTE_U ||| xperm) ↔
    newsz < oldsz ∨ hasFlag xperm PTE_W = true ∨ ∀ v, ¬Whole (pgroundup oldsz / PGSIZE) newsz v := by
  rcases Nat.lt_or_ge newsz oldsz with hlt | hge
  · rw [uvmalloc, if_pos hlt] at hrun
    cases hrun
    refine iff_of_true (fun va pa flags h1 h2 => ?_) (.inl hlt)
    rw [h1] at h2
    cases h2
  · rw [uvmalloc, if_neg (by omega)] at hrun
    have hup : pgroundup oldsz = pgroundup oldsz / PGSIZE * PGSIZE := by
      rw [pgroundup, Nat.mul_div_cancel _ (by decide)]
    generalize pgroundup oldsz / PGSIZE = lo at hup ⊢
    rw [hup] at hrun
    have hinit : GrantLoop lo lo newsz xperm T.root (T.leaf σ.mem) σ T := ⟨hP, rfl, Granting.refl⟩
    obtain ⟨T', n', hlo, hn', hpools, hroot, hG⟩ := wp_ok (uvmallocLoop_grants hx hinit le_rfl) hrun hr
    constructor
    · intro hall
      by_cases hW : ∀ v, ¬Whole lo newsz v
      · exact .inr (.inr hW)
      obtain ⟨v, hv⟩ := not_forall_not.1 hW
      have hle := hv.2
      have hdiv : v * 512 / 512 = v := Nat.mul_div_cancel v (by decide)
      -- the first page of a superpage
      obtain ⟨e, he, hflags⟩ := hG.super (v * 512) hv.1 (by lia) (by rw [hdiv]; exact hv)
      obtain ⟨pa, hnew⟩ := hpools.holds.lookup_leaf he
      have hold : lookup σ.mem T.root (v * 512 * PGSIZE) = none := by
        by_cases hmax : v * 512 * PGSIZE < MAXVA
        · rw [hP.holds.lookup_eq hmax, Nat.mul_div_cancel _ (by decide), hG.old _ hv.1 (by lia)]
          rfl
        · exact hP.holds.lookup_high (by omega)
      rw [hroot] at hnew
      have := hall _ _ _ hold hnew
      rw [hflags, grantedFlags_super] at this
      exact .inr (.inl this)
    · intro hcond va pa flags hold hnew
      by_cases hmax : va < MAXVA
      · rw [← hroot, hpools.holds.lookup_eq hmax] at hnew
        rw [hP.holds.lookup_eq hmax, Option.map_eq_none_iff] at hold
        obtain ⟨⟨level, e⟩, he, heq⟩ := Option.map_eq_some_iff.1 hnew
        have hflags : pteFlags e = flags := (Prod.ext_iff.1 heq).2
        by_cases hin : lo ≤ va / PGSIZE ∧ va / PGSIZE < n'
        · by_cases hW : Whole lo newsz (va / PGSIZE / 512)
          · obtain ⟨e', he', hf⟩ := hG.super _ hin.1 hin.2 hW
            rw [he'] at he
            cases he
            rw [← hflags, hf, grantedFlags_super]
            rcases hcond with hc | hc | hc
            · omega
            · exact hc
            · exact absurd hW (hc _)
          · obtain ⟨e', he', hf⟩ := hG.page _ hin.1 hin.2 hW
            rw [he'] at he
            cases he
            rw [← hflags, hf, grantedFlags_page]
        · rw [hG.same _ hin, hold] at he
          cases he
      · rw [← hroot, hpools.holds.lookup_high (by omega)] at hnew
        cases hnew

end Xv6
