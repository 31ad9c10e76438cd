import Xv6.Vm.Free

/-!
# Copying an address space

`uvmcopy` copies the pages below the size of a parent's address space `P` into a fresh child, leaf by leaf. The parent shares no
byte with the blocks that the copy works on (`Space.Off`); when an allocator runs out the child is unmapped again.
-/

namespace Xv6

open Function (update_of_ne update_self)
open Bytes (Mem copy)
open Hoare Ledger

variable {σ σ' σ0 σ1 : Phys} {A A' A0 P : Space} {h h' h'' : List Block} {b : Block} {lo i a l size dst src : Nat}
  {m m' m1 m2 : Mem} {X : Set Block} {E : String → Prop} {p s v n k w u sz : Nat} {K : PhysM Int}

def Outside (X : Set Block) (a : Nat) : Prop :=
  Block.page (pgrounddown a) ∉ X ∧ Block.super (a / SUPERPGSIZE * SUPERPGSIZE) ∉ X

theorem AgreeOff.outside (ha : AgreeOff X m m') (ho : Outside X a) : m' a = m a := ha a ho.1 ho.2

/-- The page-table pages of `P` and the frames of its `n` lowest pages share no byte with the blocks of `X`. -/
structure Space.Off (P : Space) (n : Nat) (X : Set Block) : Prop where
  tables : ∀ {x p a}, P.tbl x = some p → pgrounddown a = p → Outside X a
  frames : ∀ {k f a}, k < n → P.frame k = some f → pgrounddown a = f → Outside X a

theorem Rep.off (hr : Rep m P) (ho : P.Off n X) (ha : AgreeOff X m m') : Rep m' P :=
  hr.frame fun _ ⟨_, hx⟩ => ha.outside (ho.tables hx rfl)

theorem Space.Off.page (ho : P.Off n X) (hk : k < n) (hpg : P.pg k = some w) (hi : i < PGSIZE) :
    Outside X (pte2pa w + i) := by
  obtain ⟨q, hq⟩ := P.pg_dir hpg
  refine ho.frames (f := pte2pa w) hk (by simp only [Space.frame, hq, hpg, Option.map_some]) ?_
  have := (P.pg_leaf hpg).pageAddr.1
  unfold pgrounddown
  lia

theorem Space.Off.super (ho : P.Off n X) (hk : v * 512 + 512 ≤ n) (hd : P.dir v = .leaf w)
    (hi : i < SUPERPGSIZE) : Outside X (pte2pa w + i) := by
  have hal := (P.dir_leaf hd).aligned
  refine ho.frames (k := v * 512 + i / PGSIZE) (f := pte2pa w + i / PGSIZE * PGSIZE) (by lia) ?_ ?_
  · rw [Space.frame, show (v * 512 + i / PGSIZE) / 512 = v by lia, hd,
      show (v * 512 + i / PGSIZE) % 512 = i / PGSIZE by lia]
  · unfold pgrounddown
    lia

/-- The leaf `u` has the flags of the leaf `w`, and its frame holds the same bytes. -/
def CopyOf (m : Mem) (size u w : Nat) : Prop :=
  pteFlags u = pteFlags w ∧ ∀ i < size, m (pte2pa u + i) = m (pte2pa w + i)

theorem CopyOf.page (hc : CopyOf m PGSIZE u w) (hu : pte2pa u % PGSIZE = 0) (hk : Kept m m' (.page (pte2pa u)))
    (hw : ∀ i < PGSIZE, m' (pte2pa w + i) = m (pte2pa w + i)) : CopyOf m' PGSIZE u w := by
  refine ⟨hc.1, fun i hi => ?_⟩
  rw [hk _ (by simp only [Block.Has, pgrounddown]; lia), hc.2 i hi, hw i hi]

theorem CopyOf.super (hc : CopyOf m SUPERPGSIZE u w) (hu : pte2pa u % SUPERPGSIZE = 0)
    (hk : Kept m m' (.super (pte2pa u))) (hw : ∀ i < SUPERPGSIZE, m' (pte2pa w + i) = m (pte2pa w + i)) :
    CopyOf m' SUPERPGSIZE u w := by
  refine ⟨hc.1, fun i hi => ?_⟩
  rw [hk _ (by simp only [Block.Has]; lia), hc.2 i hi, hw i hi]

/-! ### One more leaf -/

theorem Space.Sized.maps (hA : A.Sized n) (hn : n < userPages) (hM : Maps lo n w σ A h' σ' A' h'') :
    A'.Sized (n + 1) where
  tiled k _ hk := by
    by_cases hkn : k = n
    · subst hkn
      exact .inl ⟨w, by rw [hM.pg, update_self]⟩
    · rcases hA.tiled k (Nat.zero_le k) (by omega) with ⟨u, hu⟩ | ⟨u, hu, hR, h1, h2⟩
      · exact .inl ⟨u, by rw [hM.pg, update_of_ne hkn]; exact hu⟩
      · refine .inr ⟨u, ?_, hR, h1, by omega⟩
        rcases hM.dir (k / 512) with he | ⟨-, hnone, -⟩
        · rw [he]; exact hu
        · rw [hnone] at hu; cases hu
  pg_none k hk hku := by
    rw [hM.pg, update_of_ne (by omega)]
    exact hA.pg_none k (by omega) hku
  dir_le v u hu := by
    rcases hM.dir v with he | ⟨-, -, q, hq⟩
    · have := hA.dir_le v u (he ▸ hu)
      omega
    · rw [hq] at hu; cases hu

theorem Space.Sized.superMaps (hA : A.Sized n) (hal : n % 512 = 0) (hR : hasFlag w PTE_R = true)
    (hM : SuperMaps lo (n / 512) w σ A h' σ' A' h'') : A'.Sized (n + 512) where
  tiled k _ hk := by
    by_cases hkn : k / 512 = n / 512
    · exact .inr ⟨w, by rw [hM.dir, hkn, update_self], hR, Nat.zero_le _, by omega⟩
    · rcases hA.tiled k (Nat.zero_le k) (by omega) with ⟨u, hu⟩ | ⟨u, hu, hR, h1, h2⟩
      · exact .inl ⟨u, by rw [hM.pg]; exact hu⟩
      · exact .inr ⟨u, by rw [hM.dir, update_of_ne hkn]; exact hu, hR, h1, by omega⟩
  pg_none k hk hku := by rw [hM.pg]; exact hA.pg_none k (by omega) hku
  dir_le v u hu := by
    by_cases hv : v = n / 512
    · omega
    · rw [hM.dir, update_of_ne hv] at hu
      have := hA.dir_le v u hu
      omega

/-- The child `A` after `uvmcopy` has copied `n` pages of `P`. -/
structure Copying (P : Space) (n : Nat) (σ0 : Phys) (A0 : Space) (h : List Block) (σ : Phys) (A : Space) : Prop
    extends Evolves 0 σ0 A0 h σ A h where
  sized : A.Sized n
  pg : ∀ k w, k < n → P.pg k = some w → ∃ u, A.pg k = some u ∧ CopyOf σ.mem PGSIZE u w
  dir : ∀ v w, v * 512 < n → P.dir v = .leaf w → ∃ u, A.dir v = .leaf u ∧ CopyOf σ.mem SUPERPGSIZE u w
  high : ∀ k, userPages ≤ k → A.pg k = A0.pg k
  tables : ∀ v q, A.dir v = .table q → (∃ r, P.dir v = .table r) ∨ ∃ r, A0.dir v = .table r

theorem Copying.refl (hL : Live σ A h) (hA : A.Sized 0) : Copying P 0 σ A h σ A where
  toEvolves := Evolves.refl hL
  sized := hA
  pg k w hk := absurd hk (by omega)
  dir v w hv := absurd hv (by omega)
  high _ _ := rfl
  tables v q hq := Or.inr ⟨q, hq⟩

theorem Copying.kept (hC : Copying P n σ0 A0 h σ A) (hoff : P.Off (npages sz) X) (ha : AgreeOff X σ.mem m')
    (hn : n ≤ npages sz) (hP : P.Tiled 0 (npages sz)) (hu : n ≤ userPages)
    (hk : ∀ x b, x.Frame 0 → A.holdings x = some b → Kept σ.mem m' b) :
    (∀ k w, k < n → P.pg k = some w → ∃ u, A.pg k = some u ∧ CopyOf m' PGSIZE u w) ∧
      ∀ v w, v * 512 < n → P.dir v = .leaf w → ∃ u, A.dir v = .leaf u ∧ CopyOf m' SUPERPGSIZE u w := by
  constructor
  · intro k w hkn hw
    obtain ⟨u, hu', hc⟩ := hC.pg k w hkn hw
    have hblock : A.holdings (.page k) = some (.page (pte2pa u)) := by
      rw [Space.holdings, if_pos (lt_of_lt_of_le hkn hu), hu']; rfl
    have hkept := hk (.page k) _ (Nat.zero_le k) hblock
    exact ⟨u, hu', hc.page (A.pg_leaf hu').pageAddr.1 hkept fun i hi => ha.outside (hoff.page (by omega) hw hi)⟩
  · intro v w hv hw
    obtain ⟨u, hu', hc⟩ := hC.dir v w hv hw
    have hblock : A.holdings (.super v) = some (.super (pte2pa u)) := by simp only [Space.holdings, hu']
    have hkept := hk (.super v) _ (Nat.zero_le _) hblock
    have hle : v * 512 + 512 ≤ npages sz := by
      rcases hP (v * 512) (Nat.zero_le _) (by omega) with ⟨y, hy⟩ | ⟨y, hy, -, -, hle⟩
      · obtain ⟨q, hq⟩ := P.pg_dir hy
        rw [Nat.mul_div_cancel v (by decide), hw] at hq; cases hq
      · rwa [Nat.mul_div_cancel v (by decide)] at hle
    exact ⟨u, hu', hc.super (A.dir_leaf hu').aligned hkept fun i hi => ha.outside (hoff.super hle hw hi)⟩

theorem pteFlags_lt (w : Nat) : pteFlags w < 1024 := by rw [pteFlags_eq]; omega

theorem LeafPte.copy (hw : LeafPte w) (hp : PageAddr p) :
    LeafPte (mkPte p (pteFlags w)) ∧ pteFlags (mkPte p (pteFlags w)) = pteFlags w := by
  have hf : ∀ j < 10, hasFlag (pteFlags w) (2 ^ j) = hasFlag w (2 ^ j) := fun j hj => hasFlag_pteFlags hj
  have hR : hasFlag (pteFlags w) PTE_R = hasFlag w PTE_R := hf 1 (by decide)
  have hW : hasFlag (pteFlags w) PTE_W = hasFlag w PTE_W := hf 2 (by decide)
  have hX : hasFlag (pteFlags w) PTE_X = hasFlag w PTE_X := hf 3 (by decide)
  refine ⟨leafPte_mkPte hp (pteFlags_lt w) (by rw [hR, hX]; exact hw.perm) (by rw [hR, hW]; exact hw.write), ?_⟩
  rw [mkPte_flags (pteFlags_lt w)]
  -- the bit V is already set
  have hV : (pteFlags w).testBit 0 = true := by
    have h0 := hf 0 (by decide)
    rw [hasFlag_eq_testBit] at h0
    rw [h0]; exact hw.valid
  apply Nat.eq_of_testBit_eq
  intro j
  rw [Nat.testBit_or, show PTE_V = 2 ^ 0 from rfl, Nat.testBit_two_pow]
  by_cases hj : 0 = j
  · subst hj; simp [hV]
  · simp [hj]

theorem readable_copy (hf : pteFlags u = pteFlags w) (hR : hasFlag w PTE_R = true) :
    hasFlag u PTE_R = true := by
  have h1 : hasFlag (pteFlags u) PTE_R = hasFlag u PTE_R := hasFlag_pteFlags (k := 1) (by decide)
  have h2 : hasFlag (pteFlags w) PTE_R = hasFlag w PTE_R := hasFlag_pteFlags (k := 1) (by decide)
  rw [← h1, hf, h2]; exact hR

theorem Space.Sized.tabled (hA : A.Sized n) (ht : Tabled l k v σ A h' σ' A') : A'.Sized n where
  tiled := hA.tiled.tabled ht
  pg_none j h1 h2 := by rw [ht.pg]; exact hA.pg_none j h1 h2
  dir_le u w hw := by
    rcases ht.dir u with he | ⟨-, -, q, hq⟩
    · exact hA.dir_le u w (he ▸ hw)
    · rw [hq] at hw; cases hw

/-- What `uvmcopy` returns: 0 with the pages below `sz` copied, or -1 with the child as it was. -/
def CopyPost (P : Space) (sz : Nat) (σ0 : Phys) (A0 : Space) (h : List Block) (r : Int) (σ' : Phys) : Prop :=
  (r = 0 ∧ ∃ A', Copying P (npages sz) σ0 A0 h σ' A') ∨
    (r = -1 ∧ ∃ A', Evolves 0 σ0 A0 h σ' A' h ∧ A'.pg = A0.pg ∧ ∀ v w, A'.dir v ≠ .leaf w)

theorem uvmcopyErr_spec (hA0 : A0.Sized 0) (hE : Evolves 0 σ0 A0 h σ A h) (hA : A.Sized n)
    (hhigh : ∀ k, userPages ≤ k → A.pg k = A0.pg k) (hn : n ≤ 32735) :
    wp (uvmcopyErr A0.root (n * PGSIZE)) (CopyPost P sz σ0 A0 h) E σ := by
  unfold uvmcopyErr
  have hmax : n ≤ userPages := by lia
  have hun := uvmunmap_spec 0 (E := E) hmax hE.live hA.tiled le_rfl (Nat.zero_le _)
  rw [Nat.zero_mul, Nat.sub_zero, hE.root] at hun
  rw [wp_bind, Nat.mul_div_cancel n (by decide)]
  refine wp_post hun ?_
  rintro _ σ' ⟨A', hF⟩
  refine .inr ⟨rfl, A', hE.trans hF.toEvolves, funext fun k => ?_, fun v w hw => ?_⟩
  · rw [hF.unmaps.pg]
    rcases Nat.lt_or_ge k userPages with hk | hk
    · rw [hA0.pg_none k (Nat.zero_le k) hk]
      split
      · rfl
      · exact hA.pg_none k (by lia) hk
    · rw [if_neg (by lia)]
      exact hhigh k hk
  · rw [hF.unmaps.dir] at hw
    split at hw
    · rcases hd : A.dir v with _ | q | u <;> rw [hd] at hw <;> simp [Dir.unleaf] at hw
    · have := hA.dir_le v w hw
      omega

structure CopySource (P : Space) (sz : Nat) (σ0 : Phys) (A0 : Space) (h : List Block) : Prop where
  rep : Rep σ0.mem P
  tiled : P.Tiled 0 (npages sz)
  off : P.Off (npages sz) (held (Owns 0 σ0 A0.holdings h))

theorem CopySource.rep_of (hP : CopySource P sz σ0 A0 h) (hE : Evolves 0 σ0 A0 h σ A h) : Rep σ.mem P :=
  hP.rep.off hP.off hE.keeps.agree

theorem Copying.taken (hC : Copying P n σ0 A0 h σ A)
    (hs : Sep σ1 A.holdings (b :: h)) (hk : Keeps 0 σ A.holdings h σ1 A.holdings (b :: h))
    (ha : AgreeOff {b} σ.mem σ1.mem) (hm : AgreeOff {b} σ1.mem m') :
    Evolves 0 σ A h { σ1 with mem := m' } A (b :: h) ∧ b ∈ held (Owns 0 σ0 A0.holdings h) ∧
      ∀ {σ2 A2}, Evolves 0 { σ1 with mem := m' } A (b :: h) σ2 A2 h → AgreeOff (scratch σ1 A.holdings) m' σ2.mem →
        AgreeOff (held (Owns 0 σ0 A0.holdings h)) σ.mem σ2.mem ∧
          ∀ x c, x.Frame 0 → A.holdings x = some c → Kept σ.mem σ2.mem c := by
  have hE := hC.live.take_write hs hk ha hm
  rw [← hC.keeps.held_eq 0 le_rfl]
  refine ⟨hE, ?_, fun hM hagree => ⟨(hE.trans hM).keeps.agree, fun x c hx hc => ?_⟩⟩
  · rw [← hk.held_eq 0 le_rfl]
    exact ⟨.hand, List.mem_cons_self⟩
  · exact (hs.kept_of_hand hc (ha.trans hm)).trans (hE.live.sep.kept_of_scratch hx hc hagree)

theorem copied_byte (hi : i < size) (hhas : b.Has (dst + i)) (hb : b ∈ X)
    (hout : Outside X (src + i)) (htake : AgreeOff {b} m m1) (hmap : Kept (copy m1 dst src size) m2 b)
    (hall : AgreeOff X m m2) : m2 (dst + i) = m2 (src + i) := by
  rw [hmap _ hhas, Bytes.copy_inside (by omega) (by omega), Nat.add_sub_cancel_left, hall.outside hout,
    (htake.mono (Set.singleton_subset_iff.2 hb)).outside hout]

theorem copyPage_spec (hA0 : A0.Sized 0) (hP : CopySource P sz σ0 A0 h)
    (hC : Copying P n σ0 A0 h σ A) (hn : n < npages sz) (hmax : n ≤ 32735) (hw : P.pg n = some w)
    (hK : ∀ σ' A', Copying P (n + 1) σ0 A0 h σ' A' → wp K (CopyPost P sz σ0 A0 h) E σ') :
    wp (do
      match ← kalloc with
      | none => uvmcopyErr A0.root (n * PGSIZE)
      | some mem =>
        memmove mem (pte2pa w) PGSIZE
        if (← mappages A0.root (n * PGSIZE) PGSIZE mem (pteFlags w)) ≠ 0 then
          kfree mem
          uvmcopyErr A0.root (n * PGSIZE)
        else K) (CopyPost P sz σ0 A0 h) E σ := by
  have hnu : n < userPages := by lia
  rw [wp_bind]
  refine kalloc_spec 0 hC.live.sep (fun _ => uvmcopyErr_spec hA0 hC.toEvolves hC.sized hC.high hmax)
    fun p σ1 hs hk ha hfl hsup => ?_
  have hp := hs.page_ok.pageAddr
  obtain ⟨hleaf, hflags⟩ := (P.pg_leaf hw).copy hp
  have hcopy : AgreeOff {.page p} σ1.mem (copy σ1.mem p (pte2pa w) PGSIZE) :=
    AgreeOff.write_page hp.1 (Set.mem_singleton _) le_rfl le_rfl
  obtain ⟨hE, hheld, hkept⟩ := hC.taken hs hk ha hcopy
  have hdiv : n * PGSIZE / PGSIZE = n := Nat.mul_div_cancel n (by decide)
  have hdiv' : n * PGSIZE / SUPERPGSIZE = n / 512 := by lia
  have hnl : ∀ u, A.dir (n / 512) ≠ .leaf u := by
    intro u hu
    have := hC.sized.dir_le _ u hu
    omega
  have hmap := mappages_spec (E := E) 0 (n * PGSIZE) hE.live (by lia) (by lia) (Nat.zero_le _)
    (by rw [hdiv']; exact hnl) (by rw [hdiv]; exact hC.sized.pg_none n le_rfl hnu) (pteFlags_lt w) hleaf
  rw [hdiv, hdiv', hC.root] at hmap
  simp only [wp_bind, wp_memmove]
  refine wp_post hmap ?_
  rintro r σ2 (⟨rfl, A2, hM⟩ | ⟨rfl, -, A2, hTb⟩)
  · rw [if_neg (by simp)]
    apply hK σ2 A2
    obtain ⟨hall, hkept⟩ := hkept hM.toEvolves hM.agree
    obtain ⟨hold, holdDir⟩ := hC.kept hP.off hall hn.le hP.tiled hnu.le hkept
    have hpa : pte2pa (mkPte p (pteFlags w)) = p := mkPte_pa (pteFlags_lt w) hp.1 hp.2.2
    refine {
      toEvolves := hC.toEvolves.trans (hE.trans hM.toEvolves), sized := hC.sized.maps hnu hM, pg := ?pg, dir := ?dir
      high := ?high, tables := ?tables }
    case pg =>
      intro k y hkn' hy
      by_cases hkn : k = n
      · subst hkn
        rw [hw, Option.some.injEq] at hy
        subst hy
        refine ⟨_, by rw [hM.pg, update_self], hflags, fun i hi => ?_⟩
        rw [hpa]
        have hhas : (Block.page p).Has (p + i) := by simp only [Block.Has, pgrounddown]; have := hp.1; lia
        exact copied_byte hi hhas hheld (hP.off.page hn hw hi) ha (hE.live.sep.hand_kept hM.agree) hall
      · obtain ⟨u, hu, hc⟩ := hold k y (by omega) hy
        exact ⟨u, by rw [hM.pg, update_of_ne hkn]; exact hu, hc⟩
    case dir =>
      intro v y hv hy
      have hvn : v * 512 < n := by
        by_contra hc
        obtain ⟨q, hq⟩ := P.pg_dir hw
        rw [show n / 512 = v by omega, hy] at hq; cases hq
      obtain ⟨u, hu, hc⟩ := holdDir v y hvn hy
      rcases hM.dir v with he | ⟨-, hnone, -⟩
      · exact ⟨u, by rw [he]; exact hu, hc⟩
      · rw [hnone] at hu; cases hu
    case high =>
      intro k hk
      rw [hM.pg, update_of_ne (by omega)]
      exact hC.high k hk
    case tables =>
      intro v q hq
      rcases hM.dir v with he | ⟨rfl, -, -⟩
      · exact hC.tables v q (he ▸ hq)
      · exact .inl (P.pg_dir hw)
  · rw [if_pos (by simp), wp_bind]
    refine kfree_spec 0 hTb.live.sep fun σ3 hs3 hk3 ha3 _ _ => ?_
    refine uvmcopyErr_spec hA0 (hC.toEvolves.trans (hE.trans (hTb.toEvolves.trans (hTb.live.give hs3 hk3 ha3))))
      (hC.sized.tabled hTb) (fun k hk => ?_) hmax
    rw [hTb.pg]; exact hC.high k hk

theorem copySuper_spec (hA0 : A0.Sized 0) (hP : CopySource P sz σ0 A0 h)
    (hC : Copying P n σ0 A0 h σ A) (hn : n + 512 ≤ npages sz) (hmax : n ≤ 32735) (hal : n % 512 = 0)
    (hw : P.dir (n / 512) = .leaf w) (hR : hasFlag w PTE_R = true) (hfresh : ∀ v q, A0.dir v = .table q → v = 131071)
    (hK : ∀ σ' A', Copying P (n + 512) σ0 A0 h σ' A' → wp K (CopyPost P sz σ0 A0 h) E σ') :
    wp (do
      match ← superalloc with
      | none => uvmcopyErr A0.root (n * PGSIZE)
      | some mem =>
        memmove mem (pte2pa w) SUPERPGSIZE
        if (← supermappages A0.root (n * PGSIZE) mem (pteFlags w)) ≠ 0 then
          superfree mem
          uvmcopyErr A0.root (n * PGSIZE)
        else K) (CopyPost P sz σ0 A0 h) E σ := by
  have hnone : A.dir (n / 512) = .none := by
    rcases hd : A.dir (n / 512) with _ | q | y
    · rfl
    · rcases hC.tables _ q hd with ⟨r, hr⟩ | ⟨r, hr⟩
      · rw [hw] at hr; cases hr
      · have := hfresh _ r hr
        omega
    · have := hC.sized.dir_le _ y hd
      omega
  rw [wp_bind]
  refine superalloc_spec 0 hC.live.sep (fun _ => uvmcopyErr_spec hA0 hC.toEvolves hC.sized hC.high hmax)
    fun s σ1 hs hk ha hsup hfl => ?_
  obtain ⟨hs1, hs2, hs3⟩ := hs.super_ok
  have hp : PageAddr s := ⟨by lia, by lia, by lia⟩
  obtain ⟨hleaf, hflags⟩ := (P.dir_leaf hw).toLeafPte.copy hp
  have hpa : pte2pa (mkPte s (pteFlags w)) = s := mkPte_pa (pteFlags_lt w) hp.1 hp.2.2
  have hsuper : SuperPte (mkPte s (pteFlags w)) := ⟨hleaf, by rw [hpa]; exact hs1⟩
  have hcopy : AgreeOff {.super s} σ1.mem (copy σ1.mem s (pte2pa w) SUPERPGSIZE) :=
    AgreeOff.write_super hs1 (Set.mem_singleton _) le_rfl le_rfl
  obtain ⟨hE, hheld, hkept⟩ := hC.taken hs hk ha hcopy
  have hdiv' : n * PGSIZE / SUPERPGSIZE = n / 512 := by lia
  have hmap := supermappages_spec (E := E) 0 (n * PGSIZE) hE.live (by lia) (by lia) (Nat.zero_le _)
    (pteFlags_lt w) hsuper (by rw [hdiv']; exact fun hc => absurd hnone hc)
  rw [hdiv', hC.root] at hmap
  simp only [wp_bind, wp_memmove]
  refine wp_post hmap ?_
  rintro r σ2 (⟨rfl, -, A2, hM⟩ | ⟨rfl, -, A2, hTb, -⟩)
  · rw [if_neg (by simp)]
    apply hK σ2 A2
    obtain ⟨hall, hkept⟩ := hkept hM.toEvolves hM.agree
    obtain ⟨hold, holdDir⟩ := hC.kept hP.off hall (by omega) hP.tiled (by lia) hkept
    refine {
      toEvolves := hC.toEvolves.trans (hE.trans hM.toEvolves), pg := ?pg, dir := ?dir
      sized := hC.sized.superMaps hal (readable_copy hflags hR) hM, high := ?high, tables := ?tables }
    case pg =>
      intro k y hkn hy
      rw [hM.pg]
      refine hold k y ?_ hy
      by_contra hc
      obtain ⟨q, hq⟩ := P.pg_dir hy
      rw [show k / 512 = n / 512 by omega, hw] at hq; cases hq
    case dir =>
      intro v y hv hy
      by_cases hvn : v = n / 512
      · subst hvn
        rw [hw, Dir.leaf.injEq] at hy
        subst hy
        refine ⟨_, by rw [hM.dir, update_self], hflags, fun i hi => ?_⟩
        rw [hpa]
        have hhas : (Block.super s).Has (s + i) := by simp only [Block.Has]; lia
        exact copied_byte hi hhas hheld (hP.off.super (by omega) hw hi) ha (hE.live.sep.hand_kept hM.agree) hall
      · obtain ⟨u, hu, hc⟩ := holdDir v y (by omega) hy
        exact ⟨u, by rw [hM.dir, update_of_ne hvn]; exact hu, hc⟩
    case high =>
      intro k hk
      rw [hM.pg]; exact hC.high k hk
    case tables =>
      intro v q hq
      by_cases hvn : v = n / 512
      · subst hvn
        rw [hM.dir, update_self] at hq; cases hq
      · rw [hM.dir, update_of_ne hvn] at hq
        exact hC.tables v q hq
  · rw [if_pos (by simp), wp_bind]
    refine superfree_spec 0 hTb.live.sep fun σ3 hs3 hk3 ha3 _ _ => ?_
    refine uvmcopyErr_spec hA0 (hC.toEvolves.trans (hE.trans (hTb.toEvolves.trans (hTb.live.give hs3 hk3 ha3))))
      (hC.sized.tabled hTb) (fun k hk => ?_) hmax
    rw [hTb.pg]; exact hC.high k hk

theorem uvmcopyLoop_spec (hA0 : A0.Sized 0) (hfresh : ∀ v q, A0.dir v = .table q → v = 131071)
    (hP : CopySource P sz σ0 A0 h) (hC : Copying P n σ0 A0 h σ A) (hn : n ≤ npages sz) (hmax : n ≤ 32735) :
    wp (uvmcopyLoop P.root A0.root sz (n * PGSIZE)) (CopyPost P sz σ0 A0 h) E σ := by
  induction hk : npages sz - n using Nat.strong_induction_on generalizing n A σ with
  | _ k ih =>
    have hrep := hP.rep_of hC.toEvolves
    rw [uvmcopyLoop]
    by_cases hlt : n * PGSIZE < sz
    · have hnp : n < npages sz := by rw [npages_eq]; lia
      rw [dif_pos hlt, wp_bind, wp_superPteAt hrep (by lia)]
      rcases hP.tiled n (Nat.zero_le n) hnp with ⟨w, hw⟩ | ⟨w, hw, hR, h1, h2⟩
      · obtain ⟨q, hq⟩ := P.pg_dir hw
        have hdiv : n * PGSIZE / PGSIZE = n := Nat.mul_div_cancel n (by decide)
        have hq' : P.dir (n * PGSIZE / SUPERPGSIZE) = .table q := by rw [← page_div, hdiv]; exact hq
        have he : Bytes.loadLE σ.mem (q + 8 * (n % 512)) 8 = w := hrep.pg_some hq hw
        rw [Space.superAt_pg hw]
        simp only []
        rw [wp_bind, wp_walk_false hrep (by lia), Space.slot_table hq', hdiv]
        simp only [wp_bind, wp_loadPte, he, (P.pg_leaf hw).valid, Bool.not_true, Bool.false_eq_true, if_false]
        rw [← wp_bind]
        refine copyPage_spec hA0 hP hC hnp hmax hw fun σ' A' hC' => ?_
        rw [show n * PGSIZE + PGSIZE = (n + 1) * PGSIZE by lia]
        have hmax' : n + 1 ≤ 32735 := hC'.live.tiled_le hC'.sized.tiled (by lia)
        exact ih (npages sz - (n + 1)) (by omega) hC' (by omega) hmax' rfl
      · -- the loop stands at the start of the superpage: what it has copied is covered up to `n`
        have hal : n % 512 = 0 := by
          by_contra hc
          obtain ⟨u, hu, -⟩ := hC.dir (n / 512) w (by lia) hw
          have := hC.sized.dir_le _ u hu
          omega
        obtain ⟨q, hq, hsa⟩ := Space.superAt_leaf hal hw hR
        rw [hsa]
        refine copySuper_spec hA0 hP hC (by omega) hmax hal hw hR hfresh fun σ' A' hC' => ?_
        rw [show n * PGSIZE + SUPERPGSIZE = (n + 512) * PGSIZE by lia]
        have hmax' : n + 512 ≤ 32735 := hC'.live.tiled_le hC'.sized.tiled (by lia)
        exact ih (npages sz - (n + 512)) (by omega) hC' (by omega) hmax' rfl
    · rw [dif_neg hlt, wp_pure]
      have he : n = npages sz := by rw [npages_eq] at *; lia
      exact .inl ⟨rfl, A, he ▸ hC⟩

theorem uvmcopy_spec (hL : Live σ A h) (hA : A.Sized 0) (hfresh : ∀ v q, A.dir v = .table q → v = 131071)
    (hP : CopySource P sz σ A h) : wp (uvmcopy P.root A.root sz) (CopyPost P sz σ A h) E σ := by
  have h0 := uvmcopyLoop_spec (E := E) hA hfresh hP (Copying.refl hL hA) (Nat.zero_le _) (by omega)
  rwa [Nat.zero_mul] at h0

end Xv6
