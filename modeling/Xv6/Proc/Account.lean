import Xv6.Proc.Break

/-!
# Who holds a page of physical memory

Between operations, each page that the kernel hands out has exactly one owner: `kmem`, a free superpage, a leaf or a
page-table page of a process as the MMU walks them, a trapframe, or other kernel code.
-/

namespace Xv6

open Bytes (Mem)
open Hoare Ledger

variable {κ κ' : Kernel} {S : Pid → Option Space} {K : List Nat} {A : Space} {m : Mem} {w w' : World} {i j : Pid}
  {p s n : Nat} {b : Block} {o : BlockOwner}

/-- The page `p` is a page-table page of the tree of page tables at `pagetable`, at most `d` levels down. -/
def TablePage (m : Mem) : Nat → Nat → Nat → Prop
  | 0, pagetable, p => p = pagetable
  | d + 1, pagetable, p => p = pagetable ∨ ∃ k < 512, hasFlag (pteAt m pagetable k) PTE_V = true ∧
      pteLeaf (pteAt m pagetable k) = false ∧ TablePage m d (pte2pa (pteAt m pagetable k)) p

inductive PageOwner where
  | kmem
  | supermem
  /-- Page `n` of the memory of process `i`. -/
  | leaf (i : Pid) (n : Nat)
  | table (i : Pid)
  | trapframe (i : Pid)
  | kernel

/-- The owners of the page `p`. The leaf that maps the trapframe of a process is not counted as one of its user leaves. -/
def World.OwnedBy (w : World) (p : Nat) : PageOwner → Prop
  | .kmem => p ∈ w.kernel.phys.freelist
  | .supermem => ∃ s ∈ w.kernel.phys.superpages, s ≤ p ∧ p < s + SUPERPGSIZE
  | .leaf i n => (w.kernel.proc i).pagetable ≠ 0 ∧ n * PGSIZE < TRAPFRAME ∧
      sv39 w.kernel.phys.mem (w.kernel.proc i).pagetable (n * PGSIZE) = some p
  | .table i => (w.kernel.proc i).pagetable ≠ 0 ∧ TablePage w.kernel.phys.mem 2 (w.kernel.proc i).pagetable p
  | .trapframe i => (w.kernel.proc i).trapframe = p
  | .kernel => p ∈ w.kpages

def PageOwner.pid : PageOwner → Option Pid
  | .leaf i _ | .table i | .trapframe i => some i
  | _ => none

def poolOf (p : Nat) : PageOwner := if p < superBase then .kmem else .supermem

def IsPage (p : Nat) : Prop := p % PGSIZE = 0 ∧ pgroundup kernelEnd ≤ p ∧ p < PHYSTOP

def blockOf (p : Nat) : Block := if p < superBase then .page p else .super (p / SUPERPGSIZE * SUPERPGSIZE)

theorem blockOf_ok (hp : IsPage p) : (blockOf p).Ok := by
  obtain ⟨h1, h2, h3⟩ := hp
  have hpg : pgroundup kernelEnd = 0x80021000 := by decide
  unfold blockOf
  split
  · exact ⟨h1, by lia, by lia⟩
  · exact ⟨by lia, by lia, by lia⟩

theorem blockOf_page (h : (Block.page p).Ok) : blockOf p = .page p := if_pos h.2.2

theorem blockOf_super (h : (Block.super s).Ok) (h1 : s ≤ p) (h2 : p < s + SUPERPGSIZE) : blockOf p = .super s := by
  obtain ⟨h3, h4, h5⟩ := h
  unfold blockOf
  rw [if_neg (by lia), show p / SUPERPGSIZE * SUPERPGSIZE = s by lia]

theorem Rep.tablePage_iff (hr : Rep m A) : TablePage m 2 A.root p ↔ ∃ x, A.tbl x = some p := by
  constructor
  · rintro (rfl | ⟨k, hk, hv, hl, hp⟩)
    · exact ⟨.root, rfl⟩
    rcases hq : A.l1 k with _ | q
    · rw [hr.root_none hk hq] at hv; cases hv
    obtain ⟨-, -, hpa⟩ := hr.root_some hq
    rw [hpa] at hp
    rcases hp with rfl | ⟨l, hl', hv', hlf, hp⟩
    · exact ⟨.l1 k, hq⟩
    have hdiv : (k * 512 + l) / 512 = k := by omega
    have hmod : (k * 512 + l) % 512 = l := by omega
    have hq' : A.l1 ((k * 512 + l) / 512) = some q := by rw [hdiv]; exact hq
    rcases hd : A.dir (k * 512 + l) with _ | t | u
    · have := hr.dir_none hq' hd
      rw [hmod, hv'] at this; cases this
    · obtain ⟨-, -, hpa'⟩ := hr.dir_table hq' hd
      rw [hmod] at hpa'
      exact ⟨.l0 (k * 512 + l), by rw [Space.tbl_l0 hd, ← hpa', hp]⟩
    · have := hr.dir_leaf hq' hd
      rw [hmod] at this
      rw [this, (A.dir_leaf hd).leaf] at hlf; cases hlf
  · have hl1 : ∀ {k q}, A.l1 k = some q → ∀ {d p}, TablePage m d q p → TablePage m (d + 1) A.root p := by
      intro k q hq d p hp
      obtain ⟨hv, hl, hpa⟩ := hr.root_some hq
      exact .inr ⟨k, by have := A.l1_lt hq; omega, hv, hl, hpa ▸ hp⟩
    rintro ⟨_ | k | v, hx⟩
    · exact .inl (Option.some.inj hx).symm
    · exact hl1 hx (.inl rfl)
    · rcases hd : A.dir v with _ | t | u
      · simp [Tree.tbl, hd] at hx
      · obtain ⟨q, hq⟩ := A.dir_l1 (v := v) (by rw [hd]; simp)
        obtain ⟨hv, hl, hpa⟩ := hr.dir_table hq hd
        rw [Space.tbl_l0 hd] at hx
        exact hl1 hq (.inr ⟨v % 512, Nat.mod_lt _ (by decide), hv, hl, (Option.some.inj hx).symm.trans hpa.symm⟩)
      · simp [Tree.tbl, hd] at hx

inductive BlockOwner where
  | free
  | hand (i : Pid)
  | at (i : Pid) (x : Place)
  | kernel

def BlockOwned (κ : Kernel) (S : Pid → Option Space) (K : List Nat) : BlockOwner → Block → Prop
  | .free, b => κ.phys.Free b
  | .hand i, b => b ∈ (κ.proc i).hand
  | .at i x, b => holdingsOf (S i) x = some b
  | .kernel, b => ∃ p ∈ K, b = .page p

theorem KInv.exclusive (hK : KInv κ S K) : Exclusive (BlockOwned κ S K) := by
  -- the owners that belong to a process
  have hproc : ∀ {o i b}, BlockOwned κ S K o b → b ∈ (κ.proc i).blocks (S i) → (∃ x, o = .at i x) ∨ o = .hand i := by
    intro o i b ho hb
    rcases o with _ | j | ⟨j, x⟩ | _
    · rcases hb with hb | ⟨y, hy⟩
      · exact absurd ho ((hK.sep i).hand_not_free hb)
      · exact absurd ho ((hK.sep i).placed_not_free hy)
    · obtain rfl : j = i := by
        by_contra hne
        exact hK.apart hne (.inl ho) hb
      exact .inr rfl
    · obtain rfl : j = i := by
        by_contra hne
        exact hK.apart hne (.inr ⟨x, ho⟩) hb
      exact .inl ⟨x, rfl⟩
    · obtain ⟨p, hp, rfl⟩ := ho
      exact absurd hb (hK.kernel hp)
  intro o o' b ho ho'
  have hb : ∀ {i}, b ∈ (κ.proc i).blocks (S i) → o = o' := by
    intro i hb
    rcases hproc ho hb with ⟨x, rfl⟩ | rfl <;> rcases hproc ho' hb with ⟨y, rfl⟩ | rfl
    · rw [(hK.sep i).placed_inj ho ho']
    · exact absurd ho' ((hK.sep i).placed_not_hand ho)
    · exact absurd ho ((hK.sep i).placed_not_hand ho')
    · rfl
  rcases o with _ | i | ⟨i, x⟩ | _
  · rcases o' with _ | j | ⟨j, y⟩ | _
    · rfl
    · exact hb (.inl ho')
    · exact hb (.inr ⟨y, ho'⟩)
    · obtain ⟨p, hp, rfl⟩ := ho'
      exact absurd ho (hK.not_free hp)
  · exact hb (.inl ho)
  · exact hb (.inr ⟨x, ho⟩)
  · rcases o' with _ | j | ⟨j, y⟩ | _
    · obtain ⟨p, hp, rfl⟩ := ho
      exact absurd ho' (hK.not_free hp)
    · exact hb (.inl ho')
    · exact hb (.inr ⟨y, ho'⟩)
    · rfl

theorem KInv.exists_owner (hK : KInv κ S K) (hb : b.Ok) : ∃ o, BlockOwned κ S K o b := by
  rcases hK.total hb with hf | ⟨i, hh | ⟨x, hx⟩⟩ | hk
  · exact ⟨.free, hf⟩
  · exact ⟨.hand i, hh⟩
  · exact ⟨.at i x, hx⟩
  · exact ⟨.kernel, hk⟩

theorem KInv.owned_ok (hK : KInv κ S K) (ho : BlockOwned κ S K o b) : b.Ok := by
  rcases o with _ | i | ⟨i, x⟩ | _
  · exact (hK.sep 0).ok .free b ho
  · exact (hK.sep i).ok .hand b ho
  · exact (hK.sep i).placed_ok ho
  · obtain ⟨p, hp, rfl⟩ := ho
    exact hK.ok hp

def pageOwner (p : Nat) : BlockOwner → PageOwner
  | .free => if p < superBase then .kmem else .supermem
  | .hand i => .trapframe i
  | .at i (.table _) => .table i
  | .at i (.page n) => .leaf i n
  | .at i (.super v) => .leaf i (v * 512 + p % SUPERPGSIZE / PGSIZE)
  | .kernel => .kernel

theorem blockOf_eq_page {q : Nat} (h : blockOf p = .page q) : p = q ∧ p < superBase := by
  unfold blockOf at h
  split at h
  · exact ⟨Block.page.inj h, ‹_›⟩
  · cases h

theorem blockOf_eq_super (h : blockOf p = .super s) : p / SUPERPGSIZE * SUPERPGSIZE = s ∧ superBase ≤ p := by
  unfold blockOf at h
  split at h
  · cases h
  · exact ⟨Block.super.inj h, by omega⟩

theorem KInv.space (hK : KInv κ S K) (hp : (κ.proc i).pagetable ≠ 0) : ∃ A, S i = some A := by
  rcases hS : S i with _ | A
  · exact absurd (hK.slot hS).2.2.1 hp
  · exact ⟨A, rfl⟩

theorem KInv.pagetable_pos (hK : KInv κ S K) (hS : S i = some A) : (κ.proc i).pagetable ≠ 0 := by
  rw [← hK.root hS]; exact A.root_pos

theorem Space.mmu_page : A.mmu (n * PGSIZE) = some p ↔
    (∃ e, A.dir (n / 512) = .leaf e ∧ p = pte2pa e + n % 512 * PGSIZE) ∨ ∃ e, A.pg n = some e ∧ p = pte2pa e := by
  have hdiv : n * PGSIZE / SUPERPGSIZE = n / 512 := by lia
  have hdiv' : n * PGSIZE / PGSIZE = n := by lia
  have hmod : n * PGSIZE % 2097152 = n % 512 * PGSIZE := by lia
  -- a page is mapped below a page-table page only
  have hpg : ∀ {d}, A.dir (n / 512) = d → (∀ q, d ≠ .table q) → A.pg n = none := by
    intro d hd hn
    by_contra hc
    obtain ⟨u, hu⟩ := Option.ne_none_iff_exists'.1 hc
    obtain ⟨q, hq⟩ := A.pg_dir hu
    exact hn q (hd.symm.trans hq)
  rw [Space.mmu, Space.leafAt, hdiv, hdiv']
  rcases hd : A.dir (n / 512) with _ | q | e
  · simp [hpg hd (by simp)]
  · rcases A.pg n with _ | e <;> simp [eq_comm]
  · simp [hpg hd (by simp), hmod, eq_comm]

theorem KInv.leaf_owned (hK : KInv κ S K) (hS : S i = some A) (hn : n * PGSIZE < TRAPFRAME)
    (hm : A.mmu (n * PGSIZE) = some p) : ∃ o, BlockOwned κ S K o (blockOf p) ∧ pageOwner p o = .leaf i n := by
  rcases Space.mmu_page.1 hm with ⟨e, hd, rfl⟩ | ⟨e, hpg, rfl⟩
  · have hplace : holdingsOf (S i) (.super (n / 512)) = some (.super (pte2pa e)) := by
      rw [hS]; simp only [holdingsOf, Space.holdings, hd]
    have hok := hK.owned_ok (o := .at i (.super (n / 512))) hplace
    refine ⟨.at i (.super (n / 512)), ?_, ?_⟩
    · rw [blockOf_super hok (Nat.le_add_right _ _) (by lia)]; exact hplace
    · have hal := hok.1
      rw [pageOwner, show n / 512 * 512 + (pte2pa e + n % 512 * PGSIZE) % SUPERPGSIZE / PGSIZE = n by lia]
  · have hplace : holdingsOf (S i) (.page n) = some (.page (pte2pa e)) := by
      rw [hS, holdingsOf, Space.holdings, if_pos (by lia), hpg]; rfl
    have hok := hK.owned_ok (o := .at i (.page n)) hplace
    exact ⟨.at i (.page n), by rw [blockOf_page hok]; exact hplace, rfl⟩

theorem KInv.owned_leaf (hK : KInv κ S K) (hS : S i = some A) (hp : p % PGSIZE = 0) {x : Place} (hx : A.holdings x = some (blockOf p)) :
    (∃ y, x = .table y ∧ A.tbl y = some p) ∨
    ∃ n, pageOwner p (.at i x) = .leaf i n ∧ n * PGSIZE < TRAPFRAME ∧ A.mmu (n * PGSIZE) = some p := by
  rcases x with y | n | v
  · rw [Space.holdings_table, Option.map_eq_some_iff] at hx
    obtain ⟨q, hq, he⟩ := hx
    obtain ⟨rfl, -⟩ := blockOf_eq_page he.symm
    exact .inl ⟨y, rfl, hq⟩
  · rw [Space.holdings] at hx
    split at hx
    · rename_i hn
      obtain ⟨e, hpg, he⟩ := Option.map_eq_some_iff.1 hx
      obtain ⟨rfl, -⟩ := blockOf_eq_page he.symm
      exact .inr ⟨n, rfl, by lia, Space.mmu_page.2 (.inr ⟨e, hpg, rfl⟩)⟩
    · cases hx
  · rcases hd : A.dir v with _ | q | e
    all_goals simp only [Space.holdings, hd, reduceCtorEq, Option.some.injEq] at hx
    obtain ⟨he, -⟩ := blockOf_eq_super hx.symm
    have hle := (hK.image hS).sized.dir_le v e hd
    have hbound := (hK.live hS).tiled_bound (hK.image hS).sized.tiled
    refine .inr ⟨_, rfl, by lia, Space.mmu_page.2 (.inl ⟨e, ?_, ?_⟩)⟩
    · rw [show (v * 512 + p % SUPERPGSIZE / PGSIZE) / 512 = v by lia]; exact hd
    · rw [← he]; lia

theorem KInv.ownedBy_iff (hK : KInv w.kernel S w.kpages) (hp : IsPage p) (o : PageOwner) :
    w.OwnedBy p o ↔ ∃ o', BlockOwned w.kernel S w.kpages o' (blockOf p) ∧ pageOwner p o' = o := by
  have hpos : 0 < p := lt_of_lt_of_le (by decide) hp.2.1
  constructor
  · intro ho
    rcases o with _ | _ | ⟨i, n⟩ | i | i | _
    · have hok := hK.owned_ok (o := .free) (b := .page p) ho
      exact ⟨.free, by rw [blockOf_page hok]; exact ho, if_pos hok.2.2⟩
    · obtain ⟨s, hs, h1, h2⟩ := ho
      have hok := hK.owned_ok (o := .free) (b := .super s) hs
      exact ⟨.free, by rw [blockOf_super hok h1 h2]; exact hs, if_neg (by have := hok.2.1; omega)⟩
    · obtain ⟨hpt, hn, hm⟩ := ho
      obtain ⟨A, hS⟩ := hK.space hpt
      rw [← hK.root hS, (hK.live hS).rep.sv39_eq (by lia)] at hm
      exact hK.leaf_owned hS hn hm
    · obtain ⟨hpt, ht⟩ := ho
      obtain ⟨A, hS⟩ := hK.space hpt
      rw [← hK.root hS, (hK.live hS).rep.tablePage_iff] at ht
      obtain ⟨x, hx⟩ := ht
      have hplace : holdingsOf (S i) (.table x) = some (.page p) := by
        rw [hS, holdingsOf, Space.holdings_table, hx]; rfl
      have hok := hK.owned_ok (o := .at i (.table x)) hplace
      exact ⟨.at i (.table x), by rw [blockOf_page hok]; exact hplace, rfl⟩
    · have hh : Block.page p ∈ (w.kernel.proc i).hand := by
        rw [Proc.hand_pos (by rw [show (w.kernel.proc i).trapframe = p from ho]; omega), show (w.kernel.proc i).trapframe = p from ho]
        exact List.mem_cons_self
      have hok := hK.owned_ok (o := .hand i) hh
      exact ⟨.hand i, by rw [blockOf_page hok]; exact hh, rfl⟩
    · have hok := hK.ok (show p ∈ w.kpages from ho)
      exact ⟨.kernel, by rw [blockOf_page hok]; exact ⟨p, ho, rfl⟩, rfl⟩
  · rintro ⟨o', ho, rfl⟩
    rcases o' with _ | i | ⟨i, x⟩ | _
    · rw [pageOwner]
      unfold blockOf at ho
      split at ho
      · rw [if_pos ‹_›]; exact ho
      · rw [if_neg ‹_›]; exact ⟨_, ho, by lia, by lia⟩
    · have hh : blockOf p ∈ (w.kernel.proc i).hand := ho
      unfold Proc.hand at hh
      split at hh
      · cases hh
      · exact (blockOf_eq_page (List.mem_singleton.1 hh)).1.symm
    · rcases hS : S i with _ | A
      · rw [BlockOwned, hS] at ho; cases ho
      · rw [BlockOwned, hS] at ho
        have hpt := hK.pagetable_pos hS
        have hr := (hK.live hS).rep
        rcases hK.owned_leaf hS hp.1 ho with ⟨y, rfl, hy⟩ | ⟨n, he, hn, hm⟩
        · exact ⟨hpt, by rw [← hK.root hS, hr.tablePage_iff]; exact ⟨y, hy⟩⟩
        · rw [he]
          exact ⟨hpt, hn, by rw [← hK.root hS, hr.sv39_eq (by lia), hm]⟩
    · obtain ⟨q, hq, he⟩ := ho
      obtain ⟨rfl, -⟩ := blockOf_eq_page he
      exact hq

theorem KInv.exists_unique_owner (hK : KInv w.kernel S w.kpages) (hp : IsPage p) : ∃! o, w.OwnedBy p o := by
  obtain ⟨o, ho⟩ := hK.exists_owner (blockOf_ok hp)
  refine ⟨pageOwner p o, (hK.ownedBy_iff hp _).2 ⟨o, ho, rfl⟩, fun o' ho' => ?_⟩
  obtain ⟨o'', h'', rfl⟩ := (hK.ownedBy_iff hp o').1 ho'
  rw [hK.exclusive h'' ho]

theorem BlockOwner.of_pid (ho : BlockOwned κ S K o b) (hj : (pageOwner p o).pid = some j) :
    b ∈ (κ.proc j).blocks (S j) := by
  rcases o with _ | i | ⟨i, _ | n | v⟩ | _
  · rw [pageOwner] at hj
    split at hj <;> cases hj
  · cases hj; exact .inl ho
  · cases hj; exact .inr ⟨_, ho⟩
  · cases hj; exact .inr ⟨_, ho⟩
  · cases hj; exact .inr ⟨_, ho⟩
  · cases hj

theorem KInv.reaped_free (hK : KInv w.kernel S w.kpages) {addr : Nat} {r : Int} (hen : (Op.wait i addr).Enabled w)
    (hrun : (Op.wait i addr).code.run w = .ok (r, w')) (hz : (w.kernel.proc j).state = .ZOMBIE)
    (hu : (w'.kernel.proc j).state = .UNUSED) (hp : IsPage p) {o : PageOwner} (ho : w.OwnedBy p o) (hj : o.pid = some j) :
    w'.OwnedBy p (poolOf p) := by
  obtain ⟨A, hS⟩ := hK.runs hen
  have hspec : wp (Op.wait i addr).code (fun _ w' => (w'.kernel.proc j).state = .UNUSED →
      ∃ S', KInv w'.kernel S' w'.kpages ∧ w'.kernel.phys.Free (blockOf p)) (fun _ => False) w := by
    simp only [Op.code, wp_bind, wp_onKernel]
    refine wp_post (wait_spec hK hS addr) ?_
    intro r κ' hr
    have hfree : (κ'.proc j).state = .UNUSED → ∃ S', KInv κ' S' w.kpages ∧ κ'.phys.Free (blockOf p) := by
      intro hu
      rcases hr with ⟨-, he⟩ | ⟨k, -, hR⟩
      · rw [he, hz] at hu; cases hu
      · by_cases hk : j = k
        · subst hk
          obtain ⟨o', ho', rfl⟩ := (hK.ownedBy_iff hp o).1 ho
          exact ⟨_, hR.kinv, (hR.free _).2 (.inr (BlockOwner.of_pid ho' hj))⟩
        · rw [hR.proc, Function.update_of_ne hk, hz] at hu; cases hu
    cases r <;> exact wp_pure.2 hfree
  obtain ⟨S', hK', hf⟩ := (wp_of_ok hrun).1 hspec hu
  exact (hK'.ownedBy_iff hp _).2 ⟨.free, hf, rfl⟩

/-- In a run that cuts no superpage: each page has exactly one owner, no list has a page twice, no page of the superpage
pool is in `kmem.freelist`, and when a process has been reaped all its pages are back in their pools. -/
theorem page_accounting (hw : Reachable (fun w op => op.KeepsSuperpages w) w) :
    (∀ p, IsPage p → ∃! o, w.OwnedBy p o) ∧
    (w.kernel.phys.freelist.Nodup ∧ w.kernel.phys.superpages.Nodup ∧ w.kpages.Nodup) ∧
    (∀ p ∈ w.kernel.phys.freelist, p < superBase) ∧
    ∀ i addr r w', (Op.wait i addr).Enabled w → (Op.wait i addr).code.run w = .ok (r, w') →
      ∀ j, (w.kernel.proc j).state = .ZOMBIE → (w'.kernel.proc j).state = .UNUSED →
        ∀ p o, IsPage p → w.OwnedBy p o → o.pid = some j → w'.OwnedBy p (poolOf p) := by
  obtain ⟨T, S, hK, hT⟩ := hw.inv
  refine ⟨fun p hp => hK.exists_unique_owner hp, ⟨(hK.sep 0).freelist_nodup, (hK.sep 0).superpages_nodup, hK.nodup⟩,
    fun p hp => ?_, fun i addr r w' hen hrun j hz hu p o hp ho hj => hK.reaped_free hen hrun hz hu hp ho hj⟩
  exact ((hK.sep 0).ok .free (.page p) hp).2.2

theorem page_accounting_first : ∃ (w : World) (i : Pid), (w.kernel.proc i).sz = 2 * SUPERPGSIZE ∧
    ∃! o, w.OwnedBy superBase o := by
  obtain ⟨w, i, A, e, hw, hA, -⟩ := exists_ends_with_superpage
  exact ⟨w, i, hA.sz, (page_accounting hw).1 superBase ⟨by decide, by decide, by decide⟩⟩

/-- A process with a superpage at its end that shrinks by one page: a page of the superpage pool enters `kmem.freelist`. -/
theorem shrink_frees_pool_page : ∃ w, Reachable (fun _ _ => True) w ∧ ∃ p ∈ w.kernel.phys.freelist, superBase ≤ p := by
  obtain ⟨w, i, κ, A, e, hw, -, hC, hok⟩ := exists_cut
  exact ⟨w, hw, pte2pa e, by rw [hC.freelist]; exact List.mem_cons_self, hok.2.1⟩

end Xv6
