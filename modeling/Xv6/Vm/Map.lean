import Xv6.Vm.Own

/-!
# Adding mappings

The walkers of `vm.c` with `alloc` set, `mappages` of a page and `supermappages`. `Live σ A h` says that memory holds the space `A`
and that no block has two owners; `Evolves` is what such a step does to the state: `A` becomes some `A'`, the blocks owned stay the
same, and memory elsewhere is unchanged.
-/

namespace Xv6

open Function (update update_of_ne update_self)
open Bytes (Mem fill storeLE)
open Hoare Ledger

/-- Memory holds `A`, and `A` shares no block with the free lists or the hand. -/
structure Live (σ : Phys) (A : Space) (h : List Block) : Prop where
  rep : Rep σ.mem A
  sep : Sep σ A.holdings h

structure Evolves (lo : Nat) (σ : Phys) (A : Space) (h : List Block) (σ' : Phys) (A' : Space) (h' : List Block) :
    Prop where
  live : Live σ' A' h'
  keeps : Keeps lo σ A.holdings h σ' A'.holdings h'
  root : A'.root = A.root

variable {σ σ' σ'' σ1 : Phys} {A A' A'' : Space} {h h' h'' h1 : List Block} {b : Block} {lo k pa perm k' s : Nat}
  {m m' : Mem} {X : Set Block} {E : String → Prop} {i p q v n w va : Nat} {x : Node} {hn : ∀ q, A.dir v ≠ .table q}
  {o : Option Nat} {hl : ∃ q, A.dir (n / 512) = .table q} {ho : ∀ w, o = some w → LeafPte w}

theorem Evolves.refl (hL : Live σ A h) : Evolves lo σ A h σ A h := ⟨hL, Keeps.refl, rfl⟩

theorem Evolves.trans (h1 : Evolves lo σ A h σ' A' h') (h2 : Evolves lo σ' A' h' σ'' A'' h'') :
    Evolves lo σ A h σ'' A'' h'' := ⟨h2.live, h1.keeps.trans h2.keeps, h2.root.trans h1.root⟩

theorem Space.holdings_table : A.holdings (.table x) = (A.tbl x).map .page := rfl

theorem Space.holdings_addL1 {hi : i < 256} {hp : PageAddr p} {hf : A.Fresh p} :
    (A.addL1 i p hi hp hf).holdings = update A.holdings (.table (.l1 i)) (some (.page p)) := by
  funext x
  rcases x with (_ | j | v) | n | v
  · rfl
  · by_cases hj : j = i
    · subst hj; simp [Space.holdings, Tree.tbl, Space.addL1_l1]
    · simp [Space.holdings, Tree.tbl, Space.addL1_l1, hj]
  · rfl
  · rfl
  · rfl

theorem holdings_setDir_ne {d : Dir} {hl : ∃ q, A.l1 (v / 512) = some q}
    {hd : A.DirOk d} {x : Place} (h1 : x ≠ .table (.l0 v)) (h2 : x ≠ .super v) :
    (A.setDir v d hl hn hd).holdings x = A.holdings x := by
  rcases x with (_ | j | u) | n | u
  · rfl
  · rfl
  · have hu : u ≠ v := by rintro rfl; exact h1 rfl
    simp [Space.holdings, Tree.tbl, Space.setDir_dir, hu]
  · rfl
  · have hu : u ≠ v := by rintro rfl; exact h2 rfl
    simp [Space.holdings, Space.setDir_dir, hu]

theorem Space.holdings_addL0 {hl : ∃ q, A.l1 (v / 512) = some q}
    {hd : A.DirOk (.table p)} (hv : A.dir v = .none) :
    (A.setDir v (.table p) hl hn hd).holdings =
      update A.holdings (.table (.l0 v)) (some (.page p)) := by
  funext x
  by_cases h1 : x = .table (.l0 v)
  · subst h1; simp [Space.holdings, Tree.tbl, Space.setDir_dir]
  · rw [update_of_ne h1]
    by_cases h2 : x = .super v
    · subst h2; simp [Space.holdings, Space.setDir_dir, hv]
    · exact holdings_setDir_ne h1 h2

theorem Space.holdings_setSuper (hl : ∃ q, A.l1 (v / 512) = some q) (hn : ∀ q, A.dir v ≠ .table q)
    (hd : A.DirOk (.leaf w)) :
    (A.setDir v (.leaf w) hl hn hd).holdings = update A.holdings (.super v) (some (.super (pte2pa w))) := by
  funext x
  by_cases h2 : x = .super v
  · subst h2; simp [Space.holdings, Space.setDir_dir]
  · rw [update_of_ne h2]
    by_cases h1 : x = .table (.l0 v)
    · subst h1
      rcases hv : A.dir v with _ | r | u <;> simp [Space.holdings, Tree.tbl, Space.setDir_dir, hv]
      exact absurd hv (hn r)
    · exact holdings_setDir_ne h1 h2

theorem Space.holdings_clearSuper (hl : ∃ q, A.l1 (v / 512) = some q) (hn : ∀ q, A.dir v ≠ .table q)
    (hd : A.DirOk .none) :
    (A.setDir v .none hl hn hd).holdings = update A.holdings (.super v) none := by
  funext x
  by_cases h2 : x = .super v
  · subst h2; simp [Space.holdings, Space.setDir_dir]
  · rw [update_of_ne h2]
    by_cases h1 : x = .table (.l0 v)
    · subst h1
      rcases hv : A.dir v with _ | r | u <;> simp [Space.holdings, Tree.tbl, Space.setDir_dir, hv]
      exact absurd hv (hn r)
    · exact holdings_setDir_ne h1 h2

theorem Space.holdings_setPg :
    (A.setPg n o hl ho).holdings =
      update A.holdings (.page n) (if n < userPages then o.map fun w => .page (pte2pa w) else none) := by
  funext x
  rcases x with x | k | u
  · rcases x with _ | j | u <;> rfl
  · by_cases hk : k = n
    · subst hk; simp [Space.holdings, Space.setPg_pg]
    · simp [Space.holdings, Space.setPg_pg, hk]
  · rfl

theorem Space.holdings_setPg_high (hn : userPages ≤ n) : (A.setPg n o hl ho).holdings = A.holdings := by
  rw [Space.holdings_setPg, if_neg (by omega)]
  apply Function.update_eq_self_iff.2
  simp only [Space.holdings]
  rw [if_neg (by omega)]

theorem Block.Ok.pageAddr (hp : (Block.page p).Ok) : PageAddr p := by
  obtain ⟨h1, h2, h3⟩ := hp
  exact ⟨h1, by lia, by lia⟩

/-- The blocks that the walkers write to: free pages and page-table pages. -/
def scratch (σ : Phys) (B : Holdings) : Set Block :=
  {b | (∃ p ∈ σ.freelist, b = .page p) ∨ ∃ x, B (.table x) = some b}

theorem scratch_subset_held {B : Holdings} : scratch σ B ⊆ held (Owns lo σ B h) := by
  rintro b (⟨p, hp, rfl⟩ | ⟨x, hx⟩)
  · exact ⟨.free, hp⟩
  · exact ⟨.at (.table x), trivial, hx⟩

theorem Rep.agree (hr : Rep m A) (hs : Sep σ A.holdings h) (ha : AgreeOff X m m')
    (hX : ∀ x b, A.holdings (.table x) = some b → b ∉ X) (hsuper : ∀ s, .super s ∈ X → (Block.super s).Ok) :
    Rep m' A := by
  apply hr.frame
  rintro a ⟨x, hx⟩
  have hb : A.holdings (.table x) = some (.page (pgrounddown a)) := by rw [Space.holdings_table, hx]; rfl
  obtain ⟨h1, h2, h3⟩ : (Block.page (pgrounddown a)).Ok := hs.ok (.at (.table x)) _ ⟨trivial, hb⟩
  apply ha a (hX x _ hb)
  intro hc
  obtain ⟨h4, h5, h6⟩ := hsuper _ hc
  unfold pgrounddown at h3
  lia

theorem Live.agree_hand (hL : Live σ A h) (hb : b ∈ h) (ha : AgreeOff {b} σ.mem m') : Rep m' A := by
  apply hL.rep.agree hL.sep ha
  · rintro x c hx rfl
    exact hL.sep.placed_not_hand hx hb
  · rintro s rfl
    exact hL.sep.ok .hand _ hb

theorem Live.take (hL : Live σ A h) (hs : Sep σ' A.holdings (b :: h)) (ha : AgreeOff {b} σ.mem σ'.mem) :
    Live σ' A (b :: h) := by
  refine ⟨hL.rep.agree hs ha ?_ ?_, hs⟩
  · rintro x c hx rfl
    exact hs.placed_not_hand hx List.mem_cons_self
  · rintro s rfl
    exact hs.ok .hand _ List.mem_cons_self

theorem Live.give (hL : Live σ A (b :: h)) (hs : Sep σ' A.holdings h)
    (hk : Keeps lo σ A.holdings (b :: h) σ' A.holdings h) (ha : AgreeOff {b} σ.mem σ'.mem) :
    Evolves lo σ A (b :: h) σ' A h := ⟨⟨hL.agree_hand List.mem_cons_self ha, hs⟩, hk, rfl⟩

theorem Live.write_hand (lo : Nat) (hL : Live σ A h) (hb : b ∈ h) (ha : AgreeOff {b} σ.mem m') :
    Evolves lo σ A h { σ with mem := m' } A h := by
  obtain ⟨hs, hO⟩ := hL.sep.of_lists { σ with mem := m' } rfl rfl
  refine ⟨⟨hL.agree_hand hb ha, hs⟩, ⟨fun l _ => by rw [hO l], ha.mono ?_⟩, rfl⟩
  exact Set.singleton_subset_iff.2 ⟨.hand, hb⟩

theorem Live.fresh (hL : Live σ A (.page p :: h)) : A.Fresh p := by
  intro x hx
  have hpl : A.holdings (.table x) = some (.page p) := by rw [Space.holdings_table, hx]; rfl
  exact hL.sep.placed_not_hand hpl List.mem_cons_self

/-! ### Growing the tree -/

/-- At most `k` page-table pages have been added on the way to the `v`-th 2 MiB. -/
structure Tabled (lo k v : Nat) (σ : Phys) (A : Space) (h : List Block) (σ' : Phys) (A' : Space) : Prop
    extends Evolves lo σ A h σ' A' h where
  pg : A'.pg = A.pg
  dir : ∀ u, A'.dir u = A.dir u ∨ u = v ∧ A.dir u = .none ∧ ∃ q, A'.dir u = .table q
  l1 : ∀ {i p}, A.l1 i = some p → A'.l1 i = some p
  agree : AgreeOff (scratch σ A.holdings) σ.mem σ'.mem
  scratch_subset : scratch σ' A'.holdings ⊆ scratch σ A.holdings
  superpages : σ'.superpages = σ.superpages
  freelist : ∃ used, σ.freelist = used ++ σ'.freelist ∧ used.length ≤ k

theorem Tabled.refl (hL : Live σ A h) : Tabled lo k v σ A h σ A where
  toEvolves := Evolves.refl hL
  pg := rfl
  dir _ := Or.inl rfl
  l1 h := h
  agree := AgreeOff.refl
  scratch_subset := subset_rfl
  superpages := rfl
  freelist := ⟨[], rfl, Nat.zero_le _⟩

theorem Tabled.trans (h1 : Tabled lo k v σ A h σ' A') (h2 : Tabled lo k' v σ' A' h σ'' A'') :
    Tabled lo (k + k') v σ A h σ'' A'' where
  toEvolves := h1.toEvolves.trans h2.toEvolves
  pg := h2.pg.trans h1.pg
  dir u := by
    rcases h1.dir u with hu | ⟨rfl, hn, q, hq⟩
    · rw [← hu]; exact h2.dir u
    · refine .inr ⟨rfl, hn, ?_⟩
      rcases h2.dir u with hu | ⟨-, hn', -⟩
      · exact ⟨q, hu.trans hq⟩
      · rw [hq] at hn'; cases hn'
  l1 h := h2.l1 (h1.l1 h)
  agree := h1.agree.trans (h2.agree.mono h1.scratch_subset)
  scratch_subset := h2.scratch_subset.trans h1.scratch_subset
  superpages := h2.superpages.trans h1.superpages
  freelist := by
    obtain ⟨u1, e1, hl1⟩ := h1.freelist
    obtain ⟨u2, e2, hl2⟩ := h2.freelist
    exact ⟨u1 ++ u2, by rw [e1, e2, List.append_assoc], by rw [List.length_append]; omega⟩

/-- A page taken from `kmem` and zeroed becomes the page-table page `x`, by storing its address in an entry of the
page-table page at `q`. -/
theorem Tabled.of_place (hs : Sep σ1 A.holdings (.page p :: h))
    (hk : Keeps lo σ A.holdings h σ1 A.holdings (.page p :: h)) (ha : AgreeOff {.page p} σ.mem σ1.mem)
    (hfl : σ.freelist = p :: σ1.freelist) (hsup : σ1.superpages = σ.superpages)
    (hx : A.tbl x = none) (hq : ∃ y, A.tbl y = some q) (hi : i < 512)
    (hh : A'.holdings = update A.holdings (.table x) (some (.page p)))
    (hrep : Rep (storeLE (fill σ1.mem p PGSIZE 0) (q + 8 * i) 8 w) A') (hroot : A'.root = A.root)
    (hpg : A'.pg = A.pg) (hdir : ∀ u, A'.dir u = A.dir u ∨ u = v ∧ A.dir u = .none ∧ ∃ q, A'.dir u = .table q)
    (hl1 : ∀ {i p}, A.l1 i = some p → A'.l1 i = some p) :
    Tabled lo 1 v σ A h { σ1 with mem := storeLE (fill σ1.mem p PGSIZE 0) (q + 8 * i) 8 w } A' := by
  obtain ⟨y, hy⟩ := hq
  have hp : p % PGSIZE = 0 := hs.page_ok.1
  have hq : q % PGSIZE = 0 := (A.tbl_page hy).1
  have hps : .page p ∈ scratch σ A.holdings := Or.inl ⟨p, by rw [hfl]; exact List.mem_cons_self, rfl⟩
  have hqs : ∀ τ, .page q ∈ scratch τ A.holdings := fun τ => .inr ⟨y, by rw [Space.holdings_table, hy]; rfl⟩
  have hph : Block.page p ∈ held (Owns lo σ1 A.holdings (.page p :: h)) := ⟨.hand, List.mem_cons_self⟩
  have hag : AgreeOff (held (Owns lo σ1 A.holdings (.page p :: h))) σ1.mem
      (storeLE (fill σ1.mem p PGSIZE 0) (q + 8 * i) 8 w) :=
    (AgreeOff.fill_page hp hph).trans (AgreeOff.storePte hq (scratch_subset_held (hqs σ1)) hi)
  have hplace := hs.place lo { σ1 with mem := storeLE (fill σ1.mem p PGSIZE 0) (q + 8 * i) 8 w }
    (x := .table x) trivial (by rw [Space.holdings_table, hx]; rfl) rfl rfl hag
  rw [← hh] at hplace
  exact {
    live := ⟨hrep, hplace.1⟩
    keeps := hk.trans hplace.2
    root := hroot
    pg := hpg
    dir := hdir
    l1 := hl1
    agree := (ha.mono (Set.singleton_subset_iff.2 hps)).trans
      ((AgreeOff.fill_page hp hps).trans (AgreeOff.storePte hq (hqs σ) hi))
    scratch_subset := by
      rintro b (⟨r, hr, rfl⟩ | ⟨z, hz⟩)
      · exact .inl ⟨r, by rw [hfl]; exact List.mem_cons_of_mem p hr, rfl⟩
      · rw [hh] at hz
        by_cases hzx : z = x
        · subst hzx
          rw [update_self, Option.some.injEq] at hz
          exact hz ▸ hps
        · rw [update_of_ne (fun he => hzx (Place.table.inj he))] at hz
          exact .inr ⟨z, hz⟩
    superpages := hsup
    freelist := ⟨[p], hfl, le_rfl⟩ }

theorem Tabled.addL1 (lo : Nat) (hL : Live σ A h) (hs : Sep σ1 A.holdings (.page p :: h))
    (hk : Keeps lo σ A.holdings h σ1 A.holdings (.page p :: h)) (ha : AgreeOff {.page p} σ.mem σ1.mem)
    (hfl : σ.freelist = p :: σ1.freelist) (hsup : σ1.superpages = σ.superpages)
    (hi : i < 256) (hn : A.l1 i = none) :
    ∃ A', Tabled lo 1 v σ A h { σ1 with
        mem := storeLE (fill σ1.mem p PGSIZE 0) (A.root + 8 * i) 8 (pa2pte p ||| PTE_V) } A' ∧
      A'.dir = A.dir ∧ A'.l1 i = some p := by
  have hL1 := hL.take hs ha
  refine ⟨A.addL1 i p hi hs.page_ok.pageAddr hL1.fresh, ?_, rfl, by rw [Space.addL1_l1, update_self]⟩
  apply Tabled.of_place hs hk ha hfl hsup (x := .l1 i) hn ⟨.root, rfl⟩ (by omega) Space.holdings_addL1
    (hL1.rep.addL1 hi hn hs.page_ok.pageAddr hL1.fresh) rfl rfl (fun u => .inl rfl)
  intro j r hj
  rw [Space.addL1_l1, update_of_ne]
  · exact hj
  · rintro rfl; rw [hn] at hj; cases hj

theorem Tabled.addL0 (lo : Nat) (hL : Live σ A h) (hs : Sep σ1 A.holdings (.page p :: h))
    (hk : Keeps lo σ A.holdings h σ1 A.holdings (.page p :: h)) (ha : AgreeOff {.page p} σ.mem σ1.mem)
    (hfl : σ.freelist = p :: σ1.freelist) (hsup : σ1.superpages = σ.superpages)
    (hq : A.l1 (v / 512) = some q) (hv : A.dir v = .none) :
    ∃ A', Tabled lo 1 v σ A h { σ1 with
        mem := storeLE (fill σ1.mem p PGSIZE 0) (q + 8 * (v % 512)) 8 (pa2pte p ||| PTE_V) } A' ∧
      A'.dir v = .table p := by
  have hL1 := hL.take hs ha
  have hn : ∀ r, A.dir v ≠ .table r := fun r hr => by rw [hv] at hr; cases hr
  have hd : A.DirOk (.table p) := ⟨hs.page_ok.pageAddr, hL1.fresh⟩
  have hself : (A.setDir v (.table p) ⟨q, hq⟩ hn hd).dir v = .table p := by
    rw [Space.setDir_dir, update_self]
  have hdir : ∀ u, (A.setDir v (.table p) ⟨q, hq⟩ hn hd).dir u = A.dir u ∨
      u = v ∧ A.dir u = .none ∧ ∃ r, (A.setDir v (.table p) ⟨q, hq⟩ hn hd).dir u = .table r := by
    intro u
    by_cases hu : u = v
    · subst hu; exact .inr ⟨rfl, hv, p, hself⟩
    · exact .inl (by rw [Space.setDir_dir, update_of_ne hu])
  refine ⟨A.setDir v (.table p) ⟨q, hq⟩ hn hd, ?_, hself⟩
  exact Tabled.of_place hs hk ha hfl hsup (x := .l0 v) (by simp [Tree.tbl, hv]) ⟨.l1 (v / 512), hq⟩
    (Nat.mod_lt _ (by decide)) (Space.holdings_addL0 hv)
    (hL1.rep.addL0 hq hn hs.page_ok.pageAddr hL1.fresh) rfl rfl hdir (fun hj => hj)

theorem superwalk_true_spec (lo : Nat) (hL : Live σ A h) (hva : va < MAXVA) :
    wp (superwalk A.root va true) (fun r σ' => ∃ A', Tabled lo 1 (va / SUPERPGSIZE) σ A h σ' A' ∧ A'.dir = A.dir ∧
      (r = none → σ'.freelist = []) ∧ ∀ pte, r = some pte → A'.superSlot va = some pte) E σ := by
  have hlt : va / SUPERPGSIZE / 512 < 256 := by simp only [MAXVA, SUPERPGSIZE] at *; omega
  unfold superwalk
  rw [if_neg (by lia), px_two hva, px_one, wp_bind, wp_loadPte]
  rcases hp : A.l1 (va / SUPERPGSIZE / 512) with _ | p
  · have hv := hL.rep.root_none (by omega) hp
    unfold pteAt at hv
    rw [hv, if_neg Bool.false_ne_true, if_neg (by decide), wp_bind]
    refine kalloc_spec lo hL.sep (fun hnil => ?_) fun p σ1 hs hk ha hfl hsup => ?_
    · exact (wp_pure (a := none)).2 ⟨A, Tabled.refl hL, rfl, fun _ => hnil, by simp⟩
    · obtain ⟨A', hT, hd, hl⟩ := Tabled.addL1 lo (v := va / SUPERPGSIZE) hL hs hk ha hfl hsup hlt hp
      simp only [wp_bind, wp_memset, wp_storePte, wp_pure]
      refine ⟨A', hT, hd, by simp, fun pte hpte => ?_⟩
      cases hpte
      rw [Space.superSlot, hl]; rfl
  · obtain ⟨hv, hl, hpa⟩ := hL.rep.root_some hp
    unfold pteAt at hv hpa
    rw [if_pos hv, hpa, wp_pure]
    refine ⟨A, Tabled.refl hL, rfl, by simp, fun pte hpte => ?_⟩
    cases hpte
    rw [Space.superSlot, hp]; rfl

theorem walkLoop_one_spec (lo : Nat) (hL : Live σ A h) (hp : A.l1 (va / SUPERPGSIZE / 512) = some p)
    (hnl : ∀ w, A.dir (va / SUPERPGSIZE) ≠ .leaf w) :
    wp (walkLoop va true 1 p) (fun r σ' => ∃ A', Tabled lo 1 (va / SUPERPGSIZE) σ A h σ' A' ∧
      (r = none → σ'.freelist = []) ∧
      ∀ pte, r = some pte → ∃ q, A'.dir (va / SUPERPGSIZE) = .table q ∧ pte = q + 8 * (va / PGSIZE % 512)) E σ := by
  rw [walkLoop, px_one, wp_bind, wp_loadPte]
  rcases hd : A.dir (va / SUPERPGSIZE) with _ | q | w
  · have hv := hL.rep.dir_none hp hd
    unfold pteAt at hv
    rw [hv, if_neg Bool.false_ne_true, if_neg (by decide), wp_bind]
    refine kalloc_spec lo hL.sep (fun hnil => ?_) fun r σ1 hs hk ha hfl hsup => ?_
    · exact (wp_pure (a := none)).2 ⟨A, Tabled.refl hL, fun _ => hnil, by simp⟩
    · obtain ⟨A', hT, hd'⟩ := Tabled.addL0 lo hL hs hk ha hfl hsup hp hd
      simp only [wp_bind, wp_memset, wp_storePte, walkLoop, wp_pure]
      refine ⟨A', hT, by simp, fun pte hpte => ?_⟩
      cases hpte
      exact ⟨r, hd', by rw [px_zero]⟩
  · obtain ⟨hv, hl, hpa⟩ := hL.rep.dir_table hp hd
    unfold pteAt at hv hl hpa
    rw [if_pos hv, hl, if_neg Bool.false_ne_true, hpa, walkLoop, wp_pure]
    refine ⟨A, Tabled.refl hL, by simp, fun pte hpte => ?_⟩
    cases hpte
    exact ⟨q, hd, by rw [px_zero]⟩
  · exact absurd hd (hnl w)

theorem walk_true_spec (lo : Nat) (hL : Live σ A h) (hva : va < MAXVA) (hnl : ∀ w, A.dir (va / SUPERPGSIZE) ≠ .leaf w) :
    wp (walk A.root va true) (fun r σ' => ∃ A', Tabled lo 2 (va / SUPERPGSIZE) σ A h σ' A' ∧
      (r = none → σ'.freelist = []) ∧
      ∀ pte, r = some pte → ∃ q, A'.dir (va / SUPERPGSIZE) = .table q ∧ pte = q + 8 * (va / PGSIZE % 512)) E σ := by
  have hlt : va / SUPERPGSIZE / 512 < 256 := by simp only [MAXVA, SUPERPGSIZE] at *; omega
  unfold walk
  rw [if_neg (by lia), walkLoop, px_two hva, wp_bind, wp_loadPte]
  rcases hp : A.l1 (va / SUPERPGSIZE / 512) with _ | p
  · have hv := hL.rep.root_none (by omega) hp
    unfold pteAt at hv
    rw [hv, if_neg Bool.false_ne_true, if_neg (by decide), wp_bind]
    refine kalloc_spec lo hL.sep (fun hnil => ?_) fun p σ1 hs hk ha hfl hsup => ?_
    · exact (wp_pure (a := none)).2 ⟨A, Tabled.refl hL, fun _ => hnil, by simp⟩
    · obtain ⟨A1, hT, hd, hl⟩ := Tabled.addL1 lo (v := va / SUPERPGSIZE) hL hs hk ha hfl hsup hlt hp
      simp only [wp_bind, wp_memset, wp_storePte]
      refine wp_post (walkLoop_one_spec lo hT.live hl (fun w hw => hnl w (by rw [← hd]; exact hw))) ?_
      rintro r σ' ⟨A', hT', hr⟩
      exact ⟨A', hT.trans hT', hr⟩
  · obtain ⟨hv, hl, hpa⟩ := hL.rep.root_some hp
    unfold pteAt at hv hl hpa
    rw [if_pos hv, hl, if_neg Bool.false_ne_true, hpa]
    refine wp_post (walkLoop_one_spec lo hL hp hnl) ?_
    rintro r σ' ⟨A', hT', hr⟩
    exact ⟨A', (Tabled.refl (k := 1) hL).trans hT', hr⟩

structure Maps (lo n w : Nat) (σ : Phys) (A : Space) (h : List Block) (σ' : Phys) (A' : Space) (h' : List Block) : Prop
    extends Evolves lo σ A h σ' A' h' where
  pg : A'.pg = update A.pg n (some w)
  dir : ∀ u, A'.dir u = A.dir u ∨ u = n / 512 ∧ A.dir u = .none ∧ ∃ q, A'.dir u = .table q
  l1 : ∀ {i p}, A.l1 i = some p → A'.l1 i = some p
  agree : AgreeOff (scratch σ A.holdings) σ.mem σ'.mem
  superpages : σ'.superpages = σ.superpages
  freelist : ∃ used, σ.freelist = used ++ σ'.freelist ∧ used.length ≤ 2

structure SuperMaps (lo v w : Nat) (σ : Phys) (A : Space) (h : List Block) (σ' : Phys) (A' : Space) (h' : List Block) :
    Prop extends Evolves lo σ A h σ' A' h' where
  pg : A'.pg = A.pg
  dir : A'.dir = update A.dir v (.leaf w)
  l1 : ∀ {i p}, A.l1 i = some p → A'.l1 i = some p
  agree : AgreeOff (scratch σ A.holdings) σ.mem σ'.mem
  superpages : σ'.superpages = σ.superpages
  freelist : ∃ used, σ.freelist = used ++ σ'.freelist ∧ used.length ≤ 1

theorem mappages_page (hL : Live σ A h) (hva : va % PGSIZE = 0) (hlt : va < MAXVA)
    (hnl : ∀ w, A.dir (va / SUPERPGSIZE) ≠ .leaf w) (hnone : A.pg (va / PGSIZE) = none)
    (hw : LeafPte (mkPte pa perm))
    (hstore : ∀ σ1 A1 q hq ho, Tabled lo 2 (va / SUPERPGSIZE) σ A h σ1 A1 →
      AgreeOff (scratch σ1 A1.holdings) σ1.mem (storeLE σ1.mem (q + 8 * (va / PGSIZE % 512)) 8 (mkPte pa perm)) →
      let σ2 : Phys := { σ1 with mem := storeLE σ1.mem (q + 8 * (va / PGSIZE % 512)) 8 (mkPte pa perm) }
      let A2 := A1.setPg (va / PGSIZE) (some (mkPte pa perm)) hq ho
      Sep σ2 A2.holdings h1 ∧ Keeps lo σ1 A1.holdings h σ2 A2.holdings h1) :
    wp (mappages A.root va PGSIZE pa perm) (fun r σ' =>
      (r = 0 ∧ ∃ A', Maps lo (va / PGSIZE) (mkPte pa perm) σ A h σ' A' h1) ∨
      (r = -1 ∧ σ'.freelist = [] ∧ ∃ A', Tabled lo 2 (va / SUPERPGSIZE) σ A h σ' A')) E σ := by
  unfold mappages
  rw [if_neg (by lia), if_neg (by decide), if_neg (by decide), show PGSIZE / PGSIZE = 1 from rfl, mappagesLoop, wp_bind]
  refine wp_post (walk_true_spec lo hL hlt hnl) ?_
  rintro r σ1 ⟨A1, hT, hr⟩
  rcases r with _ | pte
  · exact .inr ⟨rfl, hr.1 rfl, A1, hT⟩
  · obtain ⟨q, hq, rfl⟩ := hr.2 _ rfl
    have hq' : A1.dir (va / PGSIZE / 512) = .table q := by rw [page_div]; exact hq
    have hinv : hasFlag (Bytes.loadLE σ1.mem (q + 8 * (va / PGSIZE % 512)) 8) PTE_V = false :=
      hT.live.rep.pg_none hq' (by rw [hT.pg]; exact hnone)
    have ho : ∀ w, some (mkPte pa perm) = some w → LeafPte w := fun w he => Option.some.inj he ▸ hw
    have hrep := hT.live.rep.setPg (o := some (mkPte pa perm)) hq' ho rfl
    have hqt : Block.page q ∈ scratch σ1 A1.holdings :=
      Or.inr ⟨.l0 (va / SUPERPGSIZE), by rw [Space.holdings_table, Space.tbl_l0 hq]; rfl⟩
    have hag : AgreeOff (scratch σ1 A1.holdings) σ1.mem
        (storeLE σ1.mem (q + 8 * (va / PGSIZE % 512)) 8 (mkPte pa perm)) :=
      AgreeOff.storePte (A1.tbl_page (Space.tbl_l0 hq)).1 hqt (Nat.mod_lt _ (by decide))
    have hdir := hT.dir
    rw [← page_div] at hdir
    obtain ⟨hs, hk⟩ := hstore σ1 A1 q ⟨q, hq'⟩ ho hT hag
    simp only [wp_bind, wp_loadPte, hinv, Bool.false_eq_true, if_false, wp_storePte, mappagesLoop, wp_pure]
    refine .inl ⟨trivial, A1.setPg _ _ ⟨q, hq'⟩ ho, ?_⟩
    exact {
      live := ⟨hrep, hs⟩
      keeps := hT.keeps.trans hk
      root := hT.root
      pg := by rw [Space.setPg_pg, hT.pg]
      dir := hdir
      l1 := hT.l1
      agree := hT.agree.trans (hag.mono hT.scratch_subset)
      superpages := hT.superpages
      freelist := hT.freelist }

theorem mappages_spec (lo va : Nat) (hL : Live σ A (.page p :: h)) (hva : va % PGSIZE = 0) (hlt : va / PGSIZE < userPages)
    (hlo : lo ≤ va / PGSIZE) (hnl : ∀ w, A.dir (va / SUPERPGSIZE) ≠ .leaf w) (hnone : A.pg (va / PGSIZE) = none)
    (hperm : perm < 1024) (hw : LeafPte (mkPte p perm)) :
    wp (mappages A.root va PGSIZE p perm) (fun r σ' =>
      (r = 0 ∧ ∃ A', Maps lo (va / PGSIZE) (mkPte p perm) σ A (.page p :: h) σ' A' h) ∨
      (r = -1 ∧ σ'.freelist = [] ∧ ∃ A', Tabled lo 2 (va / SUPERPGSIZE) σ A (.page p :: h) σ' A')) E σ := by
  refine mappages_page hL hva (by lia) hnl hnone hw fun σ1 A1 q hq ho hT hag => ?_
  have hp := hL.sep.page_ok.pageAddr
  have hpa : pte2pa (mkPte p perm) = p := mkPte_pa hperm hp.1 hp.2.2
  simp only [Space.holdings_setPg, if_pos hlt, Option.map_some, hpa]
  apply hT.live.sep.place lo _ (x := .page (va / PGSIZE)) hlo
  · rw [Space.holdings, if_pos hlt, hT.pg, hnone]; rfl
  · rfl
  · rfl
  · exact hag.mono scratch_subset_held

theorem mappages_high_spec (lo va : Nat) (hL : Live σ A h) (hva : va % PGSIZE = 0) (hlt : va < MAXVA)
    (hhigh : userPages ≤ va / PGSIZE) (hnl : ∀ w, A.dir (va / SUPERPGSIZE) ≠ .leaf w) (hnone : A.pg (va / PGSIZE) = none)
    (hw : LeafPte (mkPte pa perm)) :
    wp (mappages A.root va PGSIZE pa perm) (fun r σ' =>
      (r = 0 ∧ ∃ A', Maps lo (va / PGSIZE) (mkPte pa perm) σ A h σ' A' h) ∨
      (r = -1 ∧ σ'.freelist = [] ∧ ∃ A', Tabled lo 2 (va / SUPERPGSIZE) σ A h σ' A')) E σ := by
  refine mappages_page hL hva hlt hnl hnone hw fun σ1 A1 q hq ho hT hag => ?_
  simp only [Space.holdings_setPg_high hhigh]
  obtain ⟨hs, hO⟩ := hT.live.sep.of_lists { σ1 with
    mem := storeLE σ1.mem (q + 8 * (va / PGSIZE % 512)) 8 (mkPte pa perm) } rfl rfl
  exact ⟨hs, fun l _ => by rw [hO l], hag.mono scratch_subset_held⟩

theorem supermappages_spec (lo va : Nat) (hL : Live σ A (.super s :: h)) (hva : va % SUPERPGSIZE = 0) (hlt : va < MAXVA)
    (hlo : lo ≤ va / SUPERPGSIZE * 512) (hperm : perm < 1024) (hw : SuperPte (mkPte s perm))
    (hE : A.dir (va / SUPERPGSIZE) ≠ .none → E "supermappages: remap") :
    wp (supermappages A.root va s perm) (fun r σ' =>
      (r = 0 ∧ A.dir (va / SUPERPGSIZE) = .none ∧
        ∃ A', SuperMaps lo (va / SUPERPGSIZE) (mkPte s perm) σ A (.super s :: h) σ' A' h) ∨
      (r = -1 ∧ σ'.freelist = [] ∧ ∃ A', Tabled lo 1 (va / SUPERPGSIZE) σ A (.super s :: h) σ' A' ∧ A'.dir = A.dir)) E σ := by
  unfold supermappages
  rw [if_neg (by lia), wp_bind]
  refine wp_post (superwalk_true_spec lo hL hlt) ?_
  rintro r σ1 ⟨A1, hT, hd, hr⟩
  rcases r with _ | pte
  · exact .inr ⟨rfl, hr.1 rfl, A1, hT, hd⟩
  · obtain ⟨q, hq, hpte⟩ := Option.map_eq_some_iff.1 (hr.2 _ rfl)
    subst hpte
    simp only [wp_bind, wp_loadPte]
    rcases hdir : A1.dir (va / SUPERPGSIZE) with _ | t | u
    · have hinv : hasFlag (Bytes.loadLE σ1.mem (q + 8 * (va / SUPERPGSIZE % 512)) 8) PTE_V = false :=
        hT.live.rep.dir_none hq hdir
      have hn : ∀ t, A1.dir (va / SUPERPGSIZE) ≠ .table t := fun t ht => by rw [hdir] at ht; cases ht
      have hrep := hT.live.rep.setSuper hq hn hw
      have hqt : Block.page q ∈ scratch σ1 A1.holdings :=
        Or.inr ⟨.l1 (va / SUPERPGSIZE / 512), by rw [Space.holdings_table, Tree.tbl, hq]; rfl⟩
      have hag : AgreeOff (scratch σ1 A1.holdings) σ1.mem
          (storeLE σ1.mem (q + 8 * (va / SUPERPGSIZE % 512)) 8 (mkPte s perm)) :=
        AgreeOff.storePte (A1.tbl_page (x := .l1 (va / SUPERPGSIZE / 512)) hq).1 hqt (Nat.mod_lt _ (by decide))
      have hpa : pte2pa (mkPte s perm) = s := by
        obtain ⟨h1, h2, h3⟩ := hL.sep.super_ok
        exact mkPte_pa hperm (by lia) (by lia)
      have hplace := hT.live.sep.place lo { σ1 with
        mem := storeLE σ1.mem (q + 8 * (va / SUPERPGSIZE % 512)) 8 (mkPte s perm) } (x := .super (va / SUPERPGSIZE)) hlo
        (by simp only [Space.holdings, hdir]) rfl rfl (hag.mono scratch_subset_held)
      rw [show some (Block.super s) = some (.super (pte2pa (mkPte s perm))) by rw [hpa],
        ← Space.holdings_setSuper ⟨q, hq⟩ hn hw] at hplace
      simp only [hinv, Bool.false_eq_true, if_false, wp_bind, wp_storePte, wp_pure]
      refine .inl ⟨trivial, by rw [← hd]; exact hdir, A1.setDir _ (.leaf (mkPte s perm)) ⟨q, hq⟩ hn hw, ?_⟩
      exact {
        live := ⟨hrep, hplace.1⟩
        keeps := hT.keeps.trans hplace.2
        root := hT.root
        pg := hT.pg
        dir := by rw [← hd]; rfl
        l1 := hT.l1
        agree := hT.agree.trans (hag.mono hT.scratch_subset)
        superpages := hT.superpages
        freelist := hT.freelist }
    · obtain ⟨hv, -⟩ := hT.live.rep.dir_table hq hdir
      unfold pteAt at hv
      simp only [hv, if_true, wp_panic]
      exact hE (by rw [← hd, hdir]; simp)
    · have he := hT.live.rep.dir_leaf hq hdir
      unfold pteAt at he
      simp only [he, (A1.dir_leaf hdir).valid, if_true, wp_panic]
      exact hE (by rw [← hd, hdir]; simp)

end Xv6
