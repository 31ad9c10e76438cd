import Mathlib.Data.Finset.Card
import Mathlib.Order.Interval.Finset.Nat
import Xv6.Vm.Unmap

/-!
# Growing and shrinking an address space

`Space.Sized A n` is the shape of a process's address space: exactly the `n` lowest pages are mapped below the trapframe.
`uvmalloc` takes `Sized A lo` to the larger size or, when an allocator
runs out, back to the leaves it started from; `uvmdealloc` takes it to a smaller size that does not cut a superpage.
-/

namespace Xv6

open List (append_nil length_append mem_cons_self suffix_rfl)
open Function (update_of_ne update_self)
open Bytes (Mem fill)
open Hoare Ledger

variable {σ σ' σ'' : Phys} {A A' A'' : Space} {h : List Block} {b c : Block} {lo hi newsz : Nat} {m m' : Mem}
  {X : Set Block} {E : String → Prop} {p q s v n k w va sz perm : Nat}

@[irreducible] def npages (sz : Nat) : Nat := (sz + 4095) / 4096

theorem npages_eq (sz : Nat) : npages sz = (sz + 4095) / 4096 := by rw [npages]

theorem pgroundup_npages (hsz : sz ≤ MAXVA) : pgroundup sz = npages sz * PGSIZE := by
  rw [npages_eq]; exact pgroundup_eq hsz

theorem npages_mul (n : Nat) : npages (n * PGSIZE) = n := by rw [npages_eq]; lia

theorem npages_zero : npages 0 = 0 := by rw [npages_eq]

theorem npages_mono {sz sz' : Nat} (hle : sz ≤ sz') : npages sz ≤ npages sz' := by rw [npages_eq, npages_eq]; omega

/-- The user part of the address space is its `n` lowest pages. -/
structure Space.Sized (A : Space) (n : Nat) : Prop where
  tiled : A.Tiled 0 n
  pg_none : ∀ k, n ≤ k → k < userPages → A.pg k = none
  dir_le : ∀ v w, A.dir v = .leaf w → v * 512 + 512 ≤ n

/-- Exactly the `n` lowest pages are mapped below the trapframe page, by any leaves. -/
structure Space.Filled (A : Space) (n : Nat) : Prop where
  covered : ∀ k < n, (∃ w, A.pg k = some w) ∨ ∃ w, A.dir (k / 512) = .leaf w
  pg_none : ∀ k, n ≤ k → k < userPages → A.pg k = none
  dir_le : ∀ v w, A.dir v = .leaf w → v * 512 + 512 ≤ n

theorem Space.Sized.filled {n : Nat} (hA : A.Sized n) : A.Filled n where
  covered k hk := (hA.tiled k (Nat.zero_le k) hk).imp_right fun ⟨w, hw, _⟩ => ⟨w, hw⟩
  pg_none := hA.pg_none
  dir_le := hA.dir_le

def Block.Has : Block → Nat → Prop
  | .page p, a => pgrounddown a = p
  | .super s, a => a / SUPERPGSIZE * SUPERPGSIZE = s

def Zeroed (m : Mem) (b : Block) : Prop := ∀ a, b.Has a → m a = 0

def Kept (m m' : Mem) (b : Block) : Prop := ∀ a, b.Has a → m' a = m a

theorem Zeroed.kept (hz : Zeroed m b) (hk : Kept m m' b) : Zeroed m' b := fun a ha => (hk a ha).trans (hz a ha)

theorem Kept.trans {m'' : Mem} (h1 : Kept m m' b) (h2 : Kept m' m'' b) : Kept m m'' b := fun a ha =>
  (h2 a ha).trans (h1 a ha)

theorem AgreeOff.kept (ha : AgreeOff X m m') (hX : ∀ c ∈ X, c.Ok) (hb : b.Ok) (hbX : b ∉ X) : Kept m m' b := by
  intro a hab
  rcases b with p | s
  · obtain ⟨h1, h2, h3⟩ := hb
    simp only [Block.Has, pgrounddown] at hab
    apply ha
    · rw [pgrounddown, hab]; exact hbX
    · intro hc
      obtain ⟨-, h4, -⟩ := hX _ hc
      lia
  · obtain ⟨h1, h2, h3⟩ := hb
    simp only [Block.Has] at hab
    apply ha
    · intro hc
      obtain ⟨-, -, h4⟩ := hX _ hc
      unfold pgrounddown at h4
      lia
    · rw [hab]; exact hbX

theorem zeroed_fill_page (hp : p % PGSIZE = 0) : Zeroed (fill m p PGSIZE 0) (.page p) := by
  intro a ha
  simp only [Block.Has, pgrounddown] at ha
  exact Bytes.fill_inside (by lia) (by lia)

theorem zeroed_fill_super (hs : s % SUPERPGSIZE = 0) : Zeroed (fill m s SUPERPGSIZE 0) (.super s) := by
  intro a ha
  simp only [Block.Has] at ha
  exact Bytes.fill_inside (by lia) (by lia)

private def Space.frameNo (A : Space) (k : Nat) : Nat := (A.frame k).getD 0 / PGSIZE

theorem frameNo_pg (hpg : A.pg k = some w) : A.frameNo k = pte2pa w / PGSIZE := by
  obtain ⟨q, hq⟩ := A.pg_dir hpg
  simp [Space.frameNo, Space.frame, hq, hpg]

theorem frameNo_leaf (hd : A.dir (k / 512) = .leaf w) : A.frameNo k = pte2pa w / PGSIZE + k % 512 := by
  simp only [Space.frameNo, Space.frame, hd, Option.getD_some]
  lia

theorem Live.covered_le (hL : Live σ A h) (hT : ∀ k < n, (∃ w, A.pg k = some w) ∨ ∃ w, A.dir (k / 512) = .leaf w)
    (hn : n ≤ userPages) : n ≤ 32735 := by
  have hpage : ∀ {k w}, k < n → A.pg k = some w →
      Owns 0 σ A.holdings h (.at (.page k)) (.page (pte2pa w)) := fun {k w} hk hw =>
    ⟨Nat.zero_le k, by rw [Space.holdings, if_pos (by omega), hw]; rfl⟩
  have hsuper : ∀ {v w}, A.dir v = .leaf w → Owns 0 σ A.holdings h (.at (.super v)) (.super (pte2pa w)) :=
    fun {v w} hw => ⟨Nat.zero_le _, by simp only [Space.holdings, hw]⟩
  have hmaps : Set.MapsTo A.frameNo (Finset.range n : Set Nat) (Finset.Ico 524321 557056 : Finset Nat) := by
    intro k hk
    simp only [Finset.coe_range, Set.mem_Iio, Finset.coe_Ico, Set.mem_Ico] at hk ⊢
    rcases hT k hk with ⟨w, hw⟩ | ⟨w, hw⟩
    · obtain ⟨h1, h2, h3⟩ := hL.sep.ok _ _ (hpage hk hw)
      rw [frameNo_pg hw]; lia
    · obtain ⟨h1, h2, h3⟩ := hL.sep.ok _ _ (hsuper hw)
      rw [frameNo_leaf hw]; lia
  have hinj : Set.InjOn A.frameNo (Finset.range n : Set Nat) := by
    intro k hk k' hk' he
    simp only [Finset.coe_range, Set.mem_Iio] at hk hk'
    rcases hT k hk with ⟨w, hw⟩ | ⟨w, hw⟩ <;>
      rcases hT k' hk' with ⟨u, hu⟩ | ⟨u, hu⟩
    · have ho := hpage hk hw
      have ho' := hpage hk' hu
      obtain ⟨h1, -, -⟩ := hL.sep.ok _ _ ho
      obtain ⟨h2, -, -⟩ := hL.sep.ok _ _ ho'
      rw [frameNo_pg hw, frameNo_pg hu] at he
      rw [show pte2pa u = pte2pa w by lia] at ho'
      simpa using hL.sep.exclusive ho ho'
    · obtain ⟨h1, h2, h3⟩ := hL.sep.ok _ _ (hpage hk hw)
      obtain ⟨h4, h5, h6⟩ := hL.sep.ok _ _ (hsuper hu)
      rw [frameNo_pg hw, frameNo_leaf hu] at he
      lia
    · obtain ⟨h1, h2, h3⟩ := hL.sep.ok _ _ (hsuper hw)
      obtain ⟨h4, h5, h6⟩ := hL.sep.ok _ _ (hpage hk' hu)
      rw [frameNo_leaf hw, frameNo_pg hu] at he
      lia
    · have ho := hsuper hw
      have ho' := hsuper hu
      obtain ⟨h1, -, -⟩ := hL.sep.ok _ _ ho
      obtain ⟨h2, -, -⟩ := hL.sep.ok _ _ ho'
      rw [frameNo_leaf hw, frameNo_leaf hu] at he
      rw [show pte2pa u = pte2pa w by lia] at ho'
      have hv : k / 512 = k' / 512 := by simpa using hL.sep.exclusive ho ho'
      lia
  have hcard := Finset.card_le_card_of_injOn A.frameNo hmaps hinj
  rw [Finset.card_range, Nat.card_Ico] at hcard
  exact hcard

theorem Live.tiled_le (hL : Live σ A h) (hT : A.Tiled 0 n) (hn : n ≤ userPages) : n ≤ 32735 :=
  hL.covered_le (fun k hk => (hT k (Nat.zero_le k) hk).imp_right fun ⟨w, hw, _⟩ => ⟨w, hw⟩) hn

theorem Live.tiled_bound (hL : Live σ A h) (hT : A.Tiled 0 n) : n ≤ 32735 := by
  rcases Nat.lt_or_ge n 32768 with hlt | hge
  · exact hL.tiled_le hT (by lia)
  · have hT' : A.Tiled 0 32768 := by
      intro k hk hlt
      rcases hT k hk (by omega) with hw | ⟨w, hw, hR, -, -⟩
      · exact .inl hw
      · exact .inr ⟨w, hw, hR, Nat.zero_le _, by omega⟩
    exact absurd (hL.tiled_le hT' (by decide)) (by decide)

theorem leafPte_mkPte (hp : PageAddr p) (hperm : perm < 1024) (hRX : hasFlag perm PTE_R = true ∨ hasFlag perm PTE_X = true)
    (hW : hasFlag perm PTE_W = true → hasFlag perm PTE_R = true) : LeafPte (mkPte p perm) := by
  have hflag : ∀ k < 10, hasFlag (mkPte p perm) (2 ^ k) = (hasFlag perm (2 ^ k) || hasFlag 1 (2 ^ k)) := by
    intro k hk
    rw [hasFlag_mkPte hperm hk, hasFlag_or]
  have hV : hasFlag (mkPte p perm) PTE_V = (hasFlag perm PTE_V || true) := hflag 0 (by decide)
  have hR : hasFlag (mkPte p perm) PTE_R = (hasFlag perm PTE_R || false) := hflag 1 (by decide)
  have hW' : hasFlag (mkPte p perm) PTE_W = (hasFlag perm PTE_W || false) := hflag 2 (by decide)
  have hX : hasFlag (mkPte p perm) PTE_X = (hasFlag perm PTE_X || false) := hflag 3 (by decide)
  rw [Bool.or_true] at hV
  rw [Bool.or_false] at hR hW' hX
  have hpa := mkPte_pa hperm hp.1 hp.2.2
  refine ⟨hV, by rw [hR, hX]; exact hRX, by rw [hR, hW']; exact hW, ?_, by rw [hpa]; exact hp.2.1⟩
  have hlt : perm ||| PTE_V < 2 ^ 10 := Nat.or_lt_two_pow hperm (by decide)
  have := hp.2.2
  rw [mkPte_eq hperm]
  omega

theorem hasFlag_readable {x y : Nat} : hasFlag (PTE_R ||| x ||| y) PTE_R = true := by
  have h := hasFlag_or (PTE_R ||| x) y 1
  have h' := hasFlag_or PTE_R x 1
  rw [h'] at h
  exact h.trans (by rw [show hasFlag PTE_R (2 ^ 1) = true from rfl]; simp)

theorem leafPte_readable (hp : PageAddr p) (hperm : perm < 1024) (hR : hasFlag perm PTE_R = true) :
    LeafPte (mkPte p perm) := leafPte_mkPte hp hperm (.inl hR) fun _ => hR

theorem superPte_readable (hs : (Block.super s).Ok) (hperm : perm < 1024) (hR : hasFlag perm PTE_R = true) :
    SuperPte (mkPte s perm) := by
  obtain ⟨h1, h2, h3⟩ := hs
  have hp : PageAddr s := ⟨by lia, by lia, by lia⟩
  exact ⟨leafPte_readable hp hperm hR, by rw [mkPte_pa hperm hp.1 hp.2.2]; exact h1⟩

theorem throughInt_small {x : Nat} (hx : x < 2 ^ 31) : throughInt x = x := by
  unfold throughInt
  rw [Nat.mod_eq_of_lt (by omega), if_pos hx]

theorem uvmdealloc_spec (lo oldsz newsz : Nat) (hL : Live σ A h) (hold : npages oldsz < 2 ^ 25) (hle : newsz ≤ oldsz)
    (hT : A.Tiled (npages newsz) (npages oldsz)) (hlo : lo ≤ npages newsz) :
    wp (uvmdealloc A.root oldsz newsz) (fun r σ' => r = newsz ∧
      ∃ A', Freed lo (npages newsz) (npages oldsz) σ A h σ' A') E σ := by
  have hmax : oldsz ≤ MAXVA := by unfold npages at hold; lia
  have hnp := npages_mono hle
  unfold uvmdealloc
  rcases Nat.lt_or_ge newsz oldsz with hlt | hge
  · rw [if_neg (by omega), pgroundup_npages hmax, pgroundup_npages (by omega)]
    rcases Nat.lt_or_ge (npages newsz) (npages oldsz) with hlt' | hge'
    · have hcount : throughInt ((npages oldsz * PGSIZE - npages newsz * PGSIZE) / PGSIZE) =
          npages oldsz - npages newsz := by
        rw [← Nat.sub_mul, Nat.mul_div_cancel _ (by decide)]
        exact throughInt_small (by omega)
      rw [if_pos (by lia), hcount, wp_bind]
      refine wp_post (uvmunmap_spec lo (by lia) hL hT hlo hnp) ?_
      rintro _ σ' hF
      exact ⟨rfl, hF⟩
    · rw [if_neg (by lia), wp_pure]
      have he : npages newsz = npages oldsz := by omega
      exact ⟨rfl, A, Evolves.refl hL, he ▸ Unmaps.refl, suffix_rfl, suffix_rfl⟩
  · obtain rfl : newsz = oldsz := by omega
    rw [if_pos hge, wp_pure]
    exact ⟨rfl, A, Evolves.refl hL, Unmaps.refl, suffix_rfl, suffix_rfl⟩

/-- The `v`-th 2 MiB lie wholly between page `lo` and the byte `newsz`: `uvmalloc` maps them by a superpage. -/
def Whole (lo newsz v : Nat) : Prop := lo ≤ v * 512 ∧ (v + 1) * SUPERPGSIZE ≤ newsz

/-- The `v`-th 2 MiB meet the range from page `lo` to the byte `newsz` in part: `uvmalloc` maps them by pages. -/
def Part (lo newsz v : Nat) : Prop := ¬Whole lo newsz v ∧ lo < (v + 1) * 512 ∧ v * SUPERPGSIZE < newsz

/-- The place holds a frame at or above page `lo`. -/
def Place.Frame (lo : Nat) : Place → Prop
  | .table _ => False
  | .page n => lo ≤ n
  | .super v => lo ≤ v * 512

/-- `A'` is `A` with the pages from `lo` to `n` mapped, on the way to the size `newsz`. -/
structure Grown (lo n newsz xperm : Nat) (A A' : Space) : Prop where
  pg_same : ∀ k, k < lo ∨ n ≤ k → A'.pg k = A.pg k
  pg_new : ∀ k, lo ≤ k → k < n → ¬Whole lo newsz (k / 512) →
    ∃ w, A'.pg k = some w ∧ pteFlags w = PTE_R ||| PTE_U ||| xperm ||| PTE_V
  dir_new : ∀ v, Whole lo newsz v → v * 512 < n → A.dir v = .none ∧
    ∃ w, A'.dir v = .leaf w ∧ pteFlags w = PTE_R ||| PTE_W ||| PTE_U ||| xperm ||| PTE_V
  dir_same : ∀ v, ¬(Whole lo newsz v ∧ v * 512 < n) →
    A'.dir v = A.dir v ∨ Part lo newsz v ∧ A.dir v = .none ∧ ∃ q, A'.dir v = .table q
  l1 : ∀ {i p}, A.l1 i = some p → A'.l1 i = some p

def growSteps (newsz a : Nat) : Nat :=
  if a < newsz then
    if a % SUPERPGSIZE = 0 ∧ newsz - a ≥ SUPERPGSIZE then growSteps newsz (a + SUPERPGSIZE) + 1
    else growSteps newsz (a + PGSIZE) + 1
  else 0
termination_by newsz - a
decreasing_by all_goals lia

theorem growSteps_super (ha : va % SUPERPGSIZE = 0) (hsz : newsz - va ≥ SUPERPGSIZE) :
    growSteps newsz va = growSteps newsz (va + SUPERPGSIZE) + 1 := by
  rw [growSteps, if_pos (by lia), if_pos ⟨ha, hsz⟩]

theorem growSteps_page (hlt : va < newsz) (hn : ¬(va % SUPERPGSIZE = 0 ∧ newsz - va ≥ SUPERPGSIZE)) :
    growSteps newsz va = growSteps newsz (va + PGSIZE) + 1 := by
  rw [growSteps, if_pos hlt, if_neg hn]

theorem growSteps_le : growSteps newsz va ≤ npages (newsz - va) := by
  fun_induction growSteps newsz va with
  | case1 a hlt h ih => simp only [npages, SUPERPGSIZE] at *; omega
  | case2 a hlt h ih => simp only [npages, PGSIZE] at *; omega
  | case3 a hlt => exact Nat.zero_le _

def growSupers (newsz a : Nat) : Nat :=
  if a < newsz then
    if a % SUPERPGSIZE = 0 ∧ newsz - a ≥ SUPERPGSIZE then growSupers newsz (a + SUPERPGSIZE) + 1
    else growSupers newsz (a + PGSIZE)
  else 0
termination_by newsz - a
decreasing_by all_goals lia

theorem growSupers_super (ha : va % SUPERPGSIZE = 0) (hsz : newsz - va ≥ SUPERPGSIZE) :
    growSupers newsz va = growSupers newsz (va + SUPERPGSIZE) + 1 := by
  rw [growSupers, if_pos (by lia), if_pos ⟨ha, hsz⟩]

theorem growSupers_page (hlt : va < newsz) (hn : ¬(va % SUPERPGSIZE = 0 ∧ newsz - va ≥ SUPERPGSIZE)) :
    growSupers newsz va = growSupers newsz (va + PGSIZE) := by
  rw [growSupers, if_pos hlt, if_neg hn]

/-- The state of `uvmalloc` at page `n` of its loop, against the state it started from. -/
structure Growing (lo n newsz xperm : Nat) (σ0 : Phys) (A0 : Space) (h : List Block) (σ : Phys) (A : Space) : Prop
    extends Evolves lo σ0 A0 h σ A h, Grown lo n newsz xperm A0 A where
  zero : ∀ x b, x.Frame lo → A.holdings x = some b → Zeroed σ.mem b
  fresh : ∀ x b, x.Frame lo → A.holdings x = some b → σ0.Free b
  /-- The loop does not stop inside a superpage. -/
  whole_le : ∀ v, Whole lo newsz v → v * 512 < n → v * 512 + 512 ≤ n
  freelist : ∃ used, σ0.freelist = used ++ σ.freelist ∧
    used.length + 3 * growSteps newsz (n * PGSIZE) ≤ 3 * growSteps newsz (lo * PGSIZE)
  superpages : ∃ used, σ0.superpages = used ++ σ.superpages ∧
    used.length + growSupers newsz (n * PGSIZE) ≤ growSupers newsz (lo * PGSIZE)

variable {σ0 σ1 : Phys} {A0 : Space} {newsz xperm l oldsz : Nat} {h' h'' : List Block} {B : Holdings} {x : Place}
  {K : PhysM Nat}

theorem Grown.tabled (hG : Grown lo n newsz xperm A0 A)
    (hT : Tabled l k v σ A h' σ' A') (hv : Part lo newsz v) : Grown lo n newsz xperm A0 A' where
  pg_same j hj := by rw [hT.pg]; exact hG.pg_same j hj
  pg_new j h1 h2 h3 := by rw [hT.pg]; exact hG.pg_new j h1 h2 h3
  dir_new u hu hun := by
    rcases hT.dir u with he | ⟨rfl, -, -⟩
    · rw [he]; exact hG.dir_new u hu hun
    · exact absurd hu hv.1
  dir_same u hu := by
    rcases hT.dir u with he | ⟨rfl, hn, hq⟩
    · rw [he]; exact hG.dir_same u hu
    · rcases hG.dir_same u hu with he | ⟨-, -, q, hq'⟩
      · exact .inr ⟨hv, he ▸ hn, hq⟩
      · rw [hn] at hq'; cases hq'
  l1 hp := hT.l1 (hG.l1 hp)

theorem Growing.tiled_from (hG : Growing lo n newsz xperm σ0 A0 h σ A) : A.Tiled lo n := by
  intro k hk hkn
  by_cases hW : Whole lo newsz (k / 512)
  · obtain ⟨-, w, hw, hf⟩ := hG.dir_new _ hW (by omega)
    refine .inr ⟨w, hw, ?_, hW.1, hG.whole_le _ hW (by omega)⟩
    have hR : hasFlag (pteFlags w) PTE_R = hasFlag w PTE_R := hasFlag_pteFlags (k := 1) (by decide)
    rw [← hR, hf, Nat.or_assoc, Nat.or_assoc]
    exact hasFlag_readable
  · obtain ⟨w, hw, -⟩ := hG.pg_new k hk hkn hW
    exact .inl ⟨w, hw⟩

theorem Grown.dir_leaf (hG : Grown lo n newsz xperm A0 A) (hw : A0.dir v = .leaf w) : A.dir v = .leaf w := by
  by_cases hW : Whole lo newsz v ∧ v * 512 < n
  · rw [(hG.dir_new v hW.1 hW.2).1] at hw; cases hw
  · rcases hG.dir_same v hW with he | ⟨-, hn, -⟩
    · rw [he]; exact hw
    · rw [hn] at hw; cases hw

theorem Growing.filled (hG : Growing lo n newsz xperm σ0 A0 h σ A) (hA0 : A0.Filled lo) (hlo : lo ≤ n) : A.Filled n where
  covered k hk := by
    rcases Nat.lt_or_ge k lo with hlt | hge
    · rcases hA0.covered k hlt with ⟨w, hw⟩ | ⟨w, hw⟩
      · exact .inl ⟨w, by rw [hG.pg_same k (.inl hlt)]; exact hw⟩
      · exact .inr ⟨w, hG.dir_leaf hw⟩
    · exact (hG.tiled_from k hge hk).imp_right fun ⟨w, hw, _⟩ => ⟨w, hw⟩
  pg_none k hk hku := by
    rw [hG.pg_same k (.inr hk)]
    exact hA0.pg_none k (by omega) hku
  dir_le v w hw := by
    by_cases hW : Whole lo newsz v ∧ v * 512 < n
    · exact hG.whole_le v hW.1 hW.2
    · rcases hG.dir_same v hW with he | ⟨-, -, q, hq⟩
      · rw [he] at hw
        exact (hA0.dir_le v w hw).trans hlo
      · rw [hq] at hw; cases hw

theorem Growing.sized (hG : Growing lo n newsz xperm σ0 A0 h σ A) (hA0 : A0.Sized lo) (hlo : lo ≤ n) : A.Sized n where
  tiled k _ hk := by
    rcases Nat.lt_or_ge k lo with hlt | hge
    · rcases hA0.tiled k (Nat.zero_le k) hlt with ⟨w, hw⟩ | ⟨w, hw, hR, h1, h2⟩
      · exact .inl ⟨w, by rw [hG.pg_same k (.inl hlt)]; exact hw⟩
      · exact .inr ⟨w, hG.dir_leaf hw, hR, h1, by omega⟩
    · refine (hG.tiled_from k hge hk).imp_right ?_
      rintro ⟨w, hw, hR, -, hle⟩
      exact ⟨w, hw, hR, Nat.zero_le _, hle⟩
  pg_none := (hG.filled hA0.filled hlo).pg_none
  dir_le := (hG.filled hA0.filled hlo).dir_le

/-- `A'` has the leaves of `A`; page-table pages may have been added. -/
structure Restored (lo newsz : Nat) (A A' : Space) : Prop where
  pg : A'.pg = A.pg
  dir : ∀ v, A'.dir v = A.dir v ∨ Part lo newsz v ∧ A.dir v = .none ∧ ∃ q, A'.dir v = .table q
  l1 : ∀ {i p}, A.l1 i = some p → A'.l1 i = some p

theorem Grown.restored (hG : Grown lo n newsz xperm A0 A) (hA0 : A0.Filled lo) (hn : n ≤ userPages)
    (hU : Unmaps lo n A A') : Restored lo newsz A0 A' where
  pg := by
    funext k
    rw [hU.pg]
    split
    · exact (hA0.pg_none k (by omega) (by omega)).symm
    · exact hG.pg_same k (by omega)
  dir v := by
    rw [hU.dir]
    by_cases hW : Whole lo newsz v ∧ v * 512 < n
    · obtain ⟨hnone, w, hw, -⟩ := hG.dir_new v hW.1 hW.2
      rw [if_pos ⟨hW.1.1, hW.2⟩, hw, hnone]
      exact .inl rfl
    · rcases hG.dir_same v hW with he | ⟨hP, hnone, q, hq⟩
      · left
        split
        · rename_i hv
          rw [he]
          rcases hd : A0.dir v with _ | q | w
          · rfl
          · rfl
          · have := hA0.dir_le v w hd
            omega
        · exact he
      · refine .inr ⟨hP, hnone, q, ?_⟩
        rw [hq]; simp [Dir.unleaf]
  l1 hp := by rw [hU.l1]; exact hG.l1 hp

def GrowFailed (lo newsz : Nat) (σ0 : Phys) (A0 : Space) (h : List Block) (σ' : Phys) : Prop :=
  (σ0.freelist.length ≤ 3 * growSteps newsz (lo * PGSIZE) ∨ σ0.superpages.length < growSupers newsz (lo * PGSIZE)) ∧
    ∃ A', Evolves lo σ0 A0 h σ' A' h ∧ Restored lo newsz A0 A'

theorem Space.Sized.tiled_from (hA : A.Sized n) (hlo : ∀ v w, A.dir v = .leaf w → lo ≤ v * 512 ∨ v * 512 + 512 ≤ lo) :
    A.Tiled lo n := by
  intro k hk hkn
  rcases hA.tiled k (Nat.zero_le k) hkn with hpg | ⟨w, hw, hR, -, h2⟩
  · exact .inl hpg
  · refine .inr ⟨w, hw, hR, ?_, h2⟩
    have := hlo _ w hw
    omega

/-! ### One page more -/

theorem scratch_ok (hs : Sep σ B h) (hb : b ∈ scratch σ B) : b.Ok := by
  obtain ⟨o, ho⟩ := (scratch_subset_held hb : b ∈ held (Owns 0 σ B h))
  exact hs.ok o b ho

theorem Sep.frame_not_scratch (hs : Sep σ B h) (hx : x.Frame 0) (hb : B x = some b) :
    b ∉ scratch σ B := by
  rintro (⟨p, hp, rfl⟩ | ⟨y, hy⟩)
  · exact hs.placed_not_free hb hp
  · cases hs.placed_inj hb hy
    exact hx

theorem Sep.kept_of_hand (hs : Sep σ B (c :: h)) (hb : B x = some b)
    (ha : AgreeOff {c} m m') : Kept m m' b := by
  apply ha.kept
  · intro d hd
    rw [Set.mem_singleton_iff.1 hd]
    exact hs.ok .hand c mem_cons_self
  · exact hs.placed_ok hb
  · intro hc
    exact hs.placed_not_hand hb (Set.mem_singleton_iff.1 hc ▸ mem_cons_self)

theorem Sep.kept_of_scratch (hs : Sep σ B h) (hx : x.Frame 0) (hb : B x = some b)
    (ha : AgreeOff (scratch σ B) m m') : Kept m m' b :=
  ha.kept (fun _ hc => scratch_ok hs hc) (hs.placed_ok hb) (hs.frame_not_scratch hx hb)

theorem Sep.hand_kept (hs : Sep σ B (b :: h)) (ha : AgreeOff (scratch σ B) m m') : Kept m m' b := by
  refine ha.kept (fun _ hc => scratch_ok hs hc) (hs.ok .hand b mem_cons_self) ?_
  rintro (⟨p, hp, rfl⟩ | ⟨y, hy⟩)
  · exact hs.hand_not_free mem_cons_self hp
  · exact hs.placed_not_hand hy mem_cons_self

theorem Place.Frame.mono (hx : x.Frame lo) : x.Frame 0 := by
  rcases x with x | n | v
  · exact hx
  · exact Nat.zero_le n
  · exact Nat.zero_le _

theorem Live.take_write (hL : Live σ A h) (hs : Sep σ' A.holdings (b :: h))
    (hk : Keeps lo σ A.holdings h σ' A.holdings (b :: h)) (ha : AgreeOff {b} σ.mem σ'.mem)
    (hm : AgreeOff {b} σ'.mem m') : Evolves lo σ A h { σ' with mem := m' } A (b :: h) := by
  have hE : Evolves lo σ A h σ' A (b :: h) := ⟨hL.take hs ha, hk, rfl⟩
  exact hE.trans (hE.live.write_hand lo mem_cons_self hm)

theorem Maps.holdings_frame (hM : Maps lo n w σ A h' σ' A' h'') (hx : x.Frame 0)
    (hne : x ≠ .page n) : A'.holdings x = A.holdings x := by
  rcases x with x | k | v
  · exact absurd hx id
  · have hk : k ≠ n := by rintro rfl; exact hne rfl
    simp only [Space.holdings, hM.pg, update_of_ne hk]
  · rcases hM.dir v with he | ⟨-, hn, q, hq⟩
    · simp only [Space.holdings, he]
    · simp only [Space.holdings, hn, hq]

theorem SuperMaps.holdings_frame (hM : SuperMaps lo v w σ A h' σ' A' h'')
    (hx : x.Frame 0) (hne : x ≠ .super v) : A'.holdings x = A.holdings x := by
  rcases x with x | k | u
  · exact absurd hx id
  · simp only [Space.holdings, hM.pg]
  · have hu : u ≠ v := by rintro rfl; exact hne rfl
    simp only [Space.holdings, hM.dir, update_of_ne hu]

theorem pagePerm_lt (hx : xperm < 1024) : PTE_R ||| PTE_U ||| xperm < 1024 :=
  Nat.or_lt_two_pow (n := 10) (by decide) hx

theorem superPerm_lt (hx : xperm < 1024) : PTE_R ||| PTE_W ||| PTE_U ||| xperm < 1024 :=
  Nat.or_lt_two_pow (n := 10) (by decide) hx

theorem Growing.part (hG : Growing lo n newsz xperm σ0 A0 h σ A) (hlo : lo ≤ n) (hlt : n * PGSIZE < newsz)
    (hsm : ¬(n * PGSIZE % SUPERPGSIZE = 0 ∧ newsz - n * PGSIZE ≥ SUPERPGSIZE)) : Part lo newsz (n / 512) := by
  refine ⟨fun hW => ?_, by omega, by lia⟩
  by_cases hal : n % 512 = 0
  · exact hsm ⟨by lia, by have := hW.2; lia⟩
  · have := hG.whole_le _ hW (by lia)
    omega

theorem Growing.page (hG : Growing lo n newsz xperm σ0 A0 h σ A) (hx : xperm < 1024) (hlo : lo ≤ n)
    (hlt : n * PGSIZE < newsz) (hsm : ¬(n * PGSIZE % SUPERPGSIZE = 0 ∧ newsz - n * PGSIZE ≥ SUPERPGSIZE))
    (hs : Sep σ1 A.holdings (.page p :: h)) (hk : Keeps lo σ A.holdings h σ1 A.holdings (.page p :: h))
    (ha : AgreeOff {.page p} σ.mem σ1.mem) (hfl : σ.freelist = p :: σ1.freelist) (hsup : σ1.superpages = σ.superpages)
    (hM : Maps lo n (mkPte p (PTE_R ||| PTE_U ||| xperm)) { σ1 with mem := fill σ1.mem p PGSIZE 0 } A (.page p :: h)
      σ' A' h) : Growing lo (n + 1) newsz xperm σ0 A0 h σ' A' := by
  have hP := hG.part hlo hlt hsm
  have hbefore : ∀ {v}, Whole lo newsz v → v * 512 < n + 1 → v * 512 < n := by
    intro v hW hv
    by_contra hc
    have hv' : v = n / 512 := by omega
    exact hP.1 (hv' ▸ hW)
  have hfill : AgreeOff {.page p} σ1.mem (fill σ1.mem p PGSIZE 0) :=
    AgreeOff.fill_page hs.page_ok.1 (Set.mem_singleton _)
  have hE := hG.live.take_write hs hk ha hfill
  have hpa : pte2pa (mkPte p (PTE_R ||| PTE_U ||| xperm)) = p :=
    mkPte_pa (pagePerm_lt hx) hs.page_ok.pageAddr.1 hs.page_ok.pageAddr.2.2
  have holdings_new : ∀ {b}, A'.holdings (.page n) = some b → b = .page p := by
    intro b hb
    simp only [Space.holdings, hM.pg, update_self, Option.map_some, hpa] at hb
    split at hb
    · exact (Option.some.inj hb).symm
    · cases hb
  have hcount := growSteps_page hlt hsm
  have hsupers := growSupers_page hlt hsm
  rw [show n * PGSIZE + PGSIZE = (n + 1) * PGSIZE by lia] at hcount hsupers
  refine {
    toEvolves := hG.toEvolves.trans (hE.trans hM.toEvolves), pg_same := ?pg_same, pg_new := ?pg_new
    dir_new := ?dir_new, dir_same := ?dir_same, l1 := fun hp => hM.l1 (hG.l1 hp), zero := ?zero, fresh := ?fresh, whole_le := ?whole_le
    freelist := ?freelist, superpages := ?superpages }
  case pg_same =>
    intro k hk
    rw [hM.pg, update_of_ne (by omega)]
    exact hG.pg_same k (by omega)
  case pg_new =>
    intro k h1 h2 h3
    by_cases hkn : k = n
    · subst hkn
      exact ⟨_, by rw [hM.pg, update_self], mkPte_flags (pagePerm_lt hx)⟩
    · rw [hM.pg, update_of_ne hkn]
      exact hG.pg_new k h1 (by omega) h3
  case dir_new =>
    intro v hW hv
    rcases hM.dir v with he | ⟨rfl, -, -⟩
    · rw [he]; exact hG.dir_new v hW (hbefore hW hv)
    · exact absurd hW hP.1
  case dir_same =>
    intro v hv
    have hv' : ¬(Whole lo newsz v ∧ v * 512 < n) := fun hc => hv ⟨hc.1, Nat.lt_succ_of_lt hc.2⟩
    rcases hM.dir v with he | ⟨rfl, hn, hq⟩
    · rw [he]; exact hG.dir_same v hv'
    · rcases hG.dir_same _ hv' with he | ⟨-, -, q, hq'⟩
      · exact .inr ⟨hP, he ▸ hn, hq⟩
      · rw [hn] at hq'; cases hq'
  case zero =>
    intro x b hxl hb
    by_cases hxn : x = .page n
    · subst hxn
      have hbp := holdings_new hb
      subst hbp
      exact (zeroed_fill_page hs.page_ok.1).kept (hE.live.sep.hand_kept hM.agree)
    · rw [hM.holdings_frame hxl.mono hxn] at hb
      have h1 := hs.kept_of_hand hb (ha.trans hfill)
      exact (hG.zero x b hxl hb).kept (h1.trans (hE.live.sep.kept_of_scratch hxl.mono hb hM.agree))
  case fresh =>
    intro x b hxl hb
    by_cases hxn : x = .page n
    · subst hxn
      have hbp := holdings_new hb
      subst hbp
      obtain ⟨used, hused, -⟩ := hG.freelist
      exact show p ∈ σ0.freelist by rw [hused, hfl]; simp
    · rw [hM.holdings_frame hxl.mono hxn] at hb
      exact hG.fresh x b hxl hb
  case whole_le =>
    intro v hW hv
    have := hG.whole_le v hW (hbefore hW hv)
    omega
  case freelist =>
    obtain ⟨u1, e1, hl1⟩ := hG.freelist
    obtain ⟨u2, e2, hl2⟩ := hM.freelist
    refine ⟨u1 ++ p :: u2, ?_, ?_⟩
    · rw [e1, hfl, show σ1.freelist = u2 ++ σ'.freelist from e2]; simp
    · rw [length_append, List.length_cons]; omega
  case superpages =>
    obtain ⟨u1, e1, hl1⟩ := hG.superpages
    exact ⟨u1, by rw [e1, hM.superpages, hsup], by lia⟩

theorem whole_of_super (hlo : lo ≤ n) (hal : n * PGSIZE % SUPERPGSIZE = 0) (hsz : newsz - n * PGSIZE ≥ SUPERPGSIZE) :
    n % 512 = 0 ∧ Whole lo newsz (n / 512) := by
  have hal' : n % 512 = 0 := by lia
  exact ⟨hal', by omega, by lia⟩

theorem Growing.dir_whole (hG : Growing lo n newsz xperm σ0 A0 h σ A) (hW : Whole lo newsz v) (hv : n ≤ v * 512) :
    A.dir v = A0.dir v := by
  rcases hG.dir_same v (fun hc => by have := hc.2; omega) with he | ⟨hP, -⟩
  · exact he
  · exact absurd hW hP.1

theorem Growing.super (hG : Growing lo n newsz xperm σ0 A0 h σ A) (hx : xperm < 1024) (hlo : lo ≤ n)
    (hal : n * PGSIZE % SUPERPGSIZE = 0) (hsz : newsz - n * PGSIZE ≥ SUPERPGSIZE) (hnone : A.dir (n / 512) = .none)
    (hs : Sep σ1 A.holdings (.super s :: h)) (hk : Keeps lo σ A.holdings h σ1 A.holdings (.super s :: h))
    (ha : AgreeOff {.super s} σ.mem σ1.mem) (hsup : σ.superpages = s :: σ1.superpages) (hfl : σ1.freelist = σ.freelist)
    (hM : SuperMaps lo (n / 512) (mkPte s (PTE_R ||| PTE_W ||| PTE_U ||| xperm))
      { σ1 with mem := fill σ1.mem s SUPERPGSIZE 0 } A (.super s :: h) σ' A' h) :
    Growing lo (n + 512) newsz xperm σ0 A0 h σ' A' := by
  obtain ⟨hal', hW⟩ := whole_of_super hlo hal hsz
  have hcount := growSteps_super hal hsz
  have hsupers := growSupers_super hal hsz
  rw [show n * PGSIZE + SUPERPGSIZE = (n + 512) * PGSIZE by lia] at hcount hsupers
  clear hal hsz
  have hfill : AgreeOff {.super s} σ1.mem (fill σ1.mem s SUPERPGSIZE 0) :=
    AgreeOff.fill_super hs.super_ok.1 (Set.mem_singleton _)
  have hE := hG.live.take_write hs hk ha hfill
  have hpa : pte2pa (mkPte s (PTE_R ||| PTE_W ||| PTE_U ||| xperm)) = s := by
    obtain ⟨h1, h2, h3⟩ := hs.super_ok
    exact mkPte_pa (superPerm_lt hx) (by lia) (by lia)
  have holdings_new : ∀ {b}, A'.holdings (.super (n / 512)) = some b → b = .super s := by
    intro b hb
    simp only [Space.holdings, hM.dir, update_self, hpa] at hb
    exact (Option.some.inj hb).symm
  have hother : ∀ {v}, v ≠ n / 512 → A'.dir v = A.dir v := fun {v} hv => by rw [hM.dir, update_of_ne hv]
  refine {
    toEvolves := hG.toEvolves.trans (hE.trans hM.toEvolves), pg_same := ?pg_same, pg_new := ?pg_new
    dir_new := ?dir_new, dir_same := ?dir_same, l1 := fun hp => hM.l1 (hG.l1 hp), zero := ?zero, fresh := ?fresh, whole_le := ?whole_le
    freelist := ?freelist, superpages := ?superpages }
  case pg_same =>
    intro k hk
    rw [hM.pg]
    exact hG.pg_same k (by omega)
  case pg_new =>
    intro k h1 h2 h3
    rw [hM.pg]
    refine hG.pg_new k h1 ?_ h3
    by_contra hc
    rw [show k / 512 = n / 512 by omega] at h3
    exact h3 hW
  case dir_new =>
    intro v hWv hv
    by_cases hvn : v = n / 512
    · subst hvn
      refine ⟨by rw [← hG.dir_whole hW (by omega)]; exact hnone, _, by rw [hM.dir, update_self], ?_⟩
      exact mkPte_flags (superPerm_lt hx)
    · rw [hother hvn]
      exact hG.dir_new v hWv (by omega)
  case dir_same =>
    intro v hv
    have hvn : v ≠ n / 512 := by
      rintro rfl
      exact hv ⟨hW, by omega⟩
    rw [hother hvn]
    exact hG.dir_same v fun hc => hv ⟨hc.1, Nat.lt_add_right 512 hc.2⟩
  case zero =>
    intro x b hxl hb
    by_cases hxn : x = .super (n / 512)
    · subst hxn
      have hbs := holdings_new hb
      subst hbs
      exact (zeroed_fill_super hs.super_ok.1).kept (hE.live.sep.hand_kept hM.agree)
    · rw [hM.holdings_frame hxl.mono hxn] at hb
      have h1 := hs.kept_of_hand hb (ha.trans hfill)
      exact (hG.zero x b hxl hb).kept (h1.trans (hE.live.sep.kept_of_scratch hxl.mono hb hM.agree))
  case fresh =>
    intro x b hxl hb
    by_cases hxn : x = .super (n / 512)
    · subst hxn
      have hbs := holdings_new hb
      subst hbs
      obtain ⟨used, hused, -⟩ := hG.superpages
      exact show s ∈ σ0.superpages by rw [hused, hsup]; simp
    · rw [hM.holdings_frame hxl.mono hxn] at hb
      exact hG.fresh x b hxl hb
  case whole_le =>
    intro v hWv hv
    by_cases hvn : v * 512 < n
    · have := hG.whole_le v hWv hvn
      omega
    · omega
  case freelist =>
    obtain ⟨u1, e1, hl1⟩ := hG.freelist
    obtain ⟨u2, e2, hl2⟩ := hM.freelist
    refine ⟨u1 ++ u2, ?_, ?_⟩
    · rw [e1, ← hfl, show σ1.freelist = u2 ++ σ'.freelist from e2]; simp
    · rw [length_append]; lia
  case superpages =>
    obtain ⟨u1, e1, hl1⟩ := hG.superpages
    refine ⟨u1 ++ [s], ?_, ?_⟩
    · rw [e1, hsup, hM.superpages]; simp
    · rw [length_append, List.length_singleton]; lia

theorem Space.Filled.no_frame (hA : A.Filled lo) (hx : x.Frame lo) (b : Block) : A.holdings x ≠ some b := by
  intro hb
  rcases x with x | k | v
  · exact absurd hx id
  · simp only [Space.holdings] at hb
    split at hb
    · rename_i hk
      rw [hA.pg_none k hx hk] at hb; cases hb
    · cases hb
  · simp only [Space.holdings] at hb
    split at hb
    · rename_i w hw
      have h1 := hA.dir_le v w hw
      have h2 : lo ≤ v * 512 := hx
      omega
    · cases hb

theorem Growing.refl (hL : Live σ A h) (hA : A.Filled lo) : Growing lo lo newsz xperm σ A h σ A where
  toEvolves := Evolves.refl hL
  pg_same _ _ := rfl
  pg_new k h1 h2 := absurd h1 (by omega)
  dir_new v hW hv := absurd hW.1 (by omega)
  dir_same v _ := Or.inl rfl
  l1 hp := hp
  zero x b hx hb := absurd hb (hA.no_frame hx b)
  fresh x b hx hb := absurd hb (hA.no_frame hx b)
  whole_le v hW hv := absurd hW.1 (by omega)
  freelist := ⟨[], rfl, by simp⟩
  superpages := ⟨[], rfl, by simp⟩

theorem Grown.congr (hG : Grown lo n newsz xperm A0 A) (hpg : A'.pg = A.pg) (hdir : A'.dir = A.dir)
    (hl1 : ∀ {i p}, A.l1 i = some p → A'.l1 i = some p) : Grown lo n newsz xperm A0 A' := by
  obtain ⟨h1, h2, h3, h4, h5⟩ := hG
  exact ⟨by rwa [hpg], by rwa [hpg], by rwa [hdir], by rwa [hdir], fun hp => hl1 (h5 hp)⟩

theorem Space.Tiled.tabled (hT : A.Tiled lo hi) (ht : Tabled l k v σ A h' σ' A') :
    A'.Tiled lo hi := by
  intro j h1 h2
  rcases hT j h1 h2 with ⟨w, hw⟩ | ⟨w, hw, hR, h3, h4⟩
  · exact .inl ⟨w, by rw [ht.pg]; exact hw⟩
  · refine .inr ⟨w, ?_, hR, h3, h4⟩
    rcases ht.dir (j / 512) with he | ⟨-, hn, -⟩
    · rw [he]; exact hw
    · rw [hn] at hw; cases hw

/-- What `uvmalloc` returns: the new size, with the pages up to it mapped, or 0. -/
def GrowPost (lo newsz xperm : Nat) (σ0 : Phys) (A0 : Space) (h : List Block) (r : Nat) (σ' : Phys) : Prop :=
  (r = newsz ∧ ∃ A', Growing lo (npages newsz) newsz xperm σ0 A0 h σ' A') ∨ (r = 0 ∧ GrowFailed lo newsz σ0 A0 h σ')

theorem growExit_spec (hA0 : A0.Filled lo) (hE : Evolves lo σ0 A0 h σ A h) (hG : Grown lo n newsz xperm A0 A)
    (hT : A.Tiled lo n) (hlo : lo ≤ n) (hn : n ≤ 32735)
    (hshort : σ0.freelist.length ≤ 3 * growSteps newsz (lo * PGSIZE) ∨
      σ0.superpages.length < growSupers newsz (lo * PGSIZE)) :
    wp (do let _ ← uvmdealloc A0.root (n * PGSIZE) (lo * PGSIZE); pure 0 : PhysM Nat)
      (GrowPost lo newsz xperm σ0 A0 h) E σ := by
  rw [wp_bind, ← hE.root]
  have hspec := uvmdealloc_spec lo (n * PGSIZE) (lo * PGSIZE) (E := E) hE.live
    (by rw [npages_mul]; omega) (by lia) (by rw [npages_mul, npages_mul]; exact hT) (by rw [npages_mul])
  rw [npages_mul, npages_mul] at hspec
  refine wp_post hspec ?_
  rintro r σ' ⟨-, A', hF⟩
  exact .inr ⟨rfl, hshort, A', hE.trans hF.toEvolves, hG.restored hA0 (by lia) hF.unmaps⟩

theorem growPage_spec (hA0 : A0.Filled lo) (hx : xperm < 1024)
    (hG : Growing lo n newsz xperm σ0 A0 h σ A) (hlo : lo ≤ n) (hlt : n * PGSIZE < newsz) (hmax : n ≤ 32735)
    (hsm : ¬(n * PGSIZE % SUPERPGSIZE = 0 ∧ newsz - n * PGSIZE ≥ SUPERPGSIZE))
    (hK : ∀ σ' A', Growing lo (n + 1) newsz xperm σ0 A0 h σ' A' → wp K (GrowPost lo newsz xperm σ0 A0 h) E σ') :
    wp (do
      match ← kalloc with
      | none =>
        let _ ← uvmdealloc A0.root (n * PGSIZE) (lo * PGSIZE)
        return 0
      | some mem =>
        memset mem 0 PGSIZE
        if (← mappages A0.root (n * PGSIZE) PGSIZE mem (PTE_R ||| PTE_U ||| xperm)) ≠ 0 then
          kfree mem
          let _ ← uvmdealloc A0.root (n * PGSIZE) (lo * PGSIZE)
          return 0
        else K) (GrowPost lo newsz xperm σ0 A0 h) E σ := by
  have hT := hG.tiled_from
  have hfilled := hG.filled hA0 hlo
  have hsteps : 1 ≤ growSteps newsz (n * PGSIZE) := by rw [growSteps_page hlt hsm]; exact Nat.le_add_left _ _
  obtain ⟨used, hused, hlen⟩ := hG.freelist
  rw [wp_bind]
  refine kalloc_spec lo hG.live.sep (fun hnil => ?_) fun p σ1 hs hk ha hfl hsp => ?_
  · refine growExit_spec hA0 hG.toEvolves hG.toGrown hT hlo hmax (.inl ?_)
    rw [hused, hnil, append_nil]; lia
  · have hfill : AgreeOff {.page p} σ1.mem (fill σ1.mem p PGSIZE 0) :=
      AgreeOff.fill_page hs.page_ok.1 (Set.mem_singleton _)
    have hE := hG.live.take_write hs hk ha hfill
    have hleaf : LeafPte (mkPte p (PTE_R ||| PTE_U ||| xperm)) :=
      leafPte_readable hs.page_ok.pageAddr (pagePerm_lt hx) hasFlag_readable
    have hdiv : n * PGSIZE / PGSIZE = n := Nat.mul_div_cancel n (by decide)
    have hdiv' : n * PGSIZE / SUPERPGSIZE = n / 512 := by lia
    have hnl : ∀ w, A.dir (n / 512) ≠ .leaf w := by
      intro w hw
      have := hfilled.dir_le _ w hw
      omega
    simp only [wp_bind, wp_memset]
    have hmap := mappages_spec (E := E) lo (n * PGSIZE) hE.live (by lia) (by lia) (by lia)
      (by rw [hdiv']; exact hnl) (by rw [hdiv]; exact hfilled.pg_none n le_rfl (by lia)) (pagePerm_lt hx) hleaf
    rw [hdiv, hdiv', hG.root] at hmap
    refine wp_post hmap ?_
    rintro r σ2 (⟨rfl, A2, hM⟩ | ⟨rfl, hnil, A2, hTb⟩)
    · rw [if_neg (by simp)]
      exact hK σ2 A2 (hG.page hx hlo hlt hsm hs hk ha hfl hsp hM)
    · rw [if_pos (by simp), wp_bind]
      refine kfree_spec lo hTb.live.sep fun σ3 hs3 hk3 ha3 hfl3 hsp3 => ?_
      refine growExit_spec hA0 (hG.toEvolves.trans (hE.trans (hTb.toEvolves.trans (hTb.live.give hs3 hk3 ha3))))
        (hG.toGrown.tabled hTb (hG.part hlo hlt hsm)) (hT.tabled hTb) hlo hmax (.inl ?_)
      obtain ⟨u, hu, hul⟩ := hTb.freelist
      rw [hused, hfl, show σ1.freelist = u ++ σ2.freelist from hu, hnil]
      simp only [append_nil, length_append, List.length_cons]
      lia

theorem growSuper_spec (hA0 : A0.Filled lo) (hx : xperm < 1024)
    (hremap : ∀ v q, Whole lo newsz v → v * 512 < 32735 → A0.dir v = .table q → E "supermappages: remap")
    (hG : Growing lo n newsz xperm σ0 A0 h σ A) (hlo : lo ≤ n) (hmax : n ≤ 32735)
    (hal : n * PGSIZE % SUPERPGSIZE = 0) (hsz : newsz - n * PGSIZE ≥ SUPERPGSIZE)
    (hK : ∀ σ' A', Growing lo (n + 512) newsz xperm σ0 A0 h σ' A' → wp K (GrowPost lo newsz xperm σ0 A0 h) E σ') :
    wp (do
      match ← superalloc with
      | none =>
        let _ ← uvmdealloc A0.root (n * PGSIZE) (lo * PGSIZE)
        return 0
      | some mem =>
        memset mem 0 SUPERPGSIZE
        if (← supermappages A0.root (n * PGSIZE) mem (PTE_R ||| PTE_W ||| PTE_U ||| xperm)) ≠ 0 then
          superfree mem
          let _ ← uvmdealloc A0.root (n * PGSIZE) (lo * PGSIZE)
          return 0
        else K) (GrowPost lo newsz xperm σ0 A0 h) E σ := by
  obtain ⟨hal', hW⟩ := whole_of_super hlo hal hsz
  have hT := hG.tiled_from
  have hsteps : 1 ≤ growSteps newsz (n * PGSIZE) := by rw [growSteps_super hal hsz]; exact Nat.le_add_left _ _
  have hsupers : 1 ≤ growSupers newsz (n * PGSIZE) := by rw [growSupers_super hal hsz]; exact Nat.le_add_left _ _
  obtain ⟨used, hused, hlen⟩ := hG.freelist
  obtain ⟨sused, hsused, hslen⟩ := hG.superpages
  rw [wp_bind]
  refine superalloc_spec lo hG.live.sep (fun hnil => ?_) fun s σ1 hs hk ha hsp hfl => ?_
  · refine growExit_spec hA0 hG.toEvolves hG.toGrown hT hlo hmax (.inr ?_)
    rw [hsused, hnil, append_nil]; lia
  · have hfill : AgreeOff {.super s} σ1.mem (fill σ1.mem s SUPERPGSIZE 0) :=
      AgreeOff.fill_super hs.super_ok.1 (Set.mem_singleton _)
    have hE := hG.live.take_write hs hk ha hfill
    have hleaf : SuperPte (mkPte s (PTE_R ||| PTE_W ||| PTE_U ||| xperm)) := by
      refine superPte_readable hs.super_ok (superPerm_lt hx) ?_
      rw [Nat.or_assoc]; exact hasFlag_readable
    have hdiv' : n * PGSIZE / SUPERPGSIZE = n / 512 := by lia
    simp only [wp_bind, wp_memset]
    have hmap := supermappages_spec (E := E) lo (n * PGSIZE) hE.live hal (by lia) (by lia)
      (superPerm_lt hx) hleaf (by
        rw [hdiv', hG.dir_whole hW (by omega)]
        intro hd
        rcases hd' : A0.dir (n / 512) with _ | q | w
        · exact absurd hd' hd
        · exact hremap _ q hW (by omega) hd'
        · have := hA0.dir_le _ w hd'
          omega)
    rw [hdiv', hG.root] at hmap
    refine wp_post hmap ?_
    rintro r σ2 (⟨rfl, hnone, A2, hM⟩ | ⟨rfl, hnil, A2, hTb, hd⟩)
    · rw [if_neg (by simp)]
      exact hK σ2 A2 (hG.super hx hlo hal hsz hnone hs hk ha hsp hfl hM)
    · rw [if_pos (by simp), wp_bind]
      refine superfree_spec lo hTb.live.sep fun σ3 hs3 hk3 ha3 hsp3 hfl3 => ?_
      refine growExit_spec hA0 (hG.toEvolves.trans (hE.trans (hTb.toEvolves.trans (hTb.live.give hs3 hk3 ha3))))
        (hG.toGrown.congr hTb.pg hd hTb.l1) (hT.tabled hTb) hlo hmax (.inl ?_)
      obtain ⟨u, hu, hul⟩ := hTb.freelist
      rw [hused, ← hfl, show σ1.freelist = u ++ σ2.freelist from hu, hnil]
      simp only [append_nil, length_append]
      lia

theorem uvmallocLoop_spec (hA0 : A0.Filled lo) (hx : xperm < 1024)
    (hremap : ∀ v q, Whole lo newsz v → v * 512 < 32735 → A0.dir v = .table q → E "supermappages: remap")
    (hG : Growing lo n newsz xperm σ0 A0 h σ A) (hlo : lo ≤ n) (hn : n ≤ npages newsz) (hmax : n ≤ 32735) :
    wp (uvmallocLoop A0.root (lo * PGSIZE) newsz xperm (n * PGSIZE)) (GrowPost lo newsz xperm σ0 A0 h) E σ := by
  induction hk : npages newsz - n using Nat.strong_induction_on generalizing n A σ with
  | _ k ih =>
    rw [uvmallocLoop]
    by_cases hlt : n * PGSIZE < newsz
    · have hnp : n < npages newsz := by rw [npages_eq]; lia
      rw [dif_pos hlt]
      by_cases hsup : n * PGSIZE % SUPERPGSIZE = 0 ∧ newsz - n * PGSIZE ≥ SUPERPGSIZE
      · rw [if_pos hsup]
        refine growSuper_spec hA0 hx hremap hG hlo hmax hsup.1 hsup.2 fun σ' A' hG' => ?_
        rw [show n * PGSIZE + SUPERPGSIZE = (n + 512) * PGSIZE by lia]
        have hmax' : n + 512 ≤ 32735 := hG'.live.covered_le (hG'.filled hA0 (by omega)).covered (by lia)
        exact ih (npages newsz - (n + 512)) (by omega) hG' (by omega) (by rw [npages_eq]; lia) hmax' rfl
      · rw [if_neg hsup]
        refine growPage_spec hA0 hx hG hlo hlt hmax hsup fun σ' A' hG' => ?_
        rw [show n * PGSIZE + PGSIZE = (n + 1) * PGSIZE by lia]
        have hmax' : n + 1 ≤ 32735 := hG'.live.covered_le (hG'.filled hA0 (by omega)).covered (by lia)
        exact ih (npages newsz - (n + 1)) (by omega) hG' (by omega) (by omega) hmax' rfl
    · rw [dif_neg hlt, wp_pure]
      have he : n = npages newsz := by unfold npages at *; lia
      exact .inl ⟨rfl, A, he ▸ hG⟩

theorem uvmalloc_filled_spec (hL : Live σ A h) (hA : A.Filled (npages oldsz)) (hold : npages oldsz ≤ userPages)
    (hx : xperm < 1024) (hle : oldsz ≤ newsz)
    (hremap : ∀ v q, Whole (npages oldsz) newsz v → v * 512 < 32735 → A.dir v = .table q → E "supermappages: remap") :
    wp (uvmalloc A.root oldsz newsz xperm) (GrowPost (npages oldsz) newsz xperm σ A h) E σ := by
  have hmax : oldsz ≤ MAXVA := by unfold npages at hold; lia
  unfold uvmalloc
  rw [if_neg (by omega), pgroundup_npages hmax]
  exact uvmallocLoop_spec hA hx hremap (Growing.refl hL hA) le_rfl (npages_mono hle) (hL.covered_le hA.covered hold)

theorem uvmalloc_spec (hL : Live σ A h) (hA : A.Sized (npages oldsz)) (hold : npages oldsz ≤ userPages)
    (hx : xperm < 1024) (hle : oldsz ≤ newsz)
    (hremap : ∀ v q, Whole (npages oldsz) newsz v → v * 512 < 32735 → A.dir v = .table q → E "supermappages: remap") :
    wp (uvmalloc A.root oldsz newsz xperm) (GrowPost (npages oldsz) newsz xperm σ A h) E σ :=
  uvmalloc_filled_spec hL hA.filled hold hx hle hremap

end Xv6
