import Xv6.Vm.Copy
import Xv6.Vm.Grow

/-!
# `uvmalloc` succeeds or restores

What a return of `uvmalloc` says about the machine: the leaves that the MMU finds, the frames, their contents and the lists of
the two allocators, which are arbitrary.
-/

namespace Xv6

open Bytes (Mem)
open Hoare Ledger

/-- The leaf that the MMU finds for page `k`: its level and its entry. -/
def pageLeaf (m : Mem) (root k : Nat) : Option (Nat × Nat) := sv39Leaf m (k * PGSIZE) 2 root

def pageFrame (m : Mem) (root k : Nat) : Option Nat :=
  (pageLeaf m root k).map fun (level, e) => pte2pa e + k % 512 ^ level * PGSIZE

abbrev allPages : Nat := MAXVA / PGSIZE

/-- A successful `uvmalloc` from page `lo` up to `newsz`. -/
structure Grew (lo newsz root : Nat) (σ σ' : Phys) : Prop where
  mapped : ∀ k, lo ≤ k → k < npages newsz → ∃ level e, pageLeaf σ'.mem root k = some (level, e) ∧
    (level = 1 ∧ Whole lo newsz (k / 512) ∨ level = 0 ∧ ¬Whole lo newsz (k / 512))
  zero : ∀ k f, lo ≤ k → k < npages newsz → pageFrame σ'.mem root k = some f → ∀ a, pgrounddown a = f → σ'.mem a = 0
  /-- The frame, or the superpage that it is a part of, was free. -/
  fresh : ∀ k f, lo ≤ k → k < npages newsz → pageFrame σ'.mem root k = some f →
    σ.Free (.page f) ∨ σ.Free (.super (f / SUPERPGSIZE * SUPERPGSIZE))
  distinct : ∀ j k f, j < npages newsz → k < npages newsz → pageFrame σ'.mem root j = some f →
    pageFrame σ'.mem root k = some f → j = k
  same : ∀ k, k < allPages → ¬(lo ≤ k ∧ k < npages newsz) → pageLeaf σ'.mem root k = pageLeaf σ.mem root k
  contents : ∀ k f, k < lo → pageFrame σ.mem root k = some f → ∀ a, pgrounddown a = f → σ'.mem a = σ.mem a

/-- A failed `uvmalloc`: only page-table pages have been taken. -/
structure RolledBack (lo root : Nat) (σ σ' : Phys) : Prop where
  same : ∀ k, k < allPages → pageLeaf σ'.mem root k = pageLeaf σ.mem root k
  contents : ∀ k f, k < lo → pageFrame σ.mem root k = some f → ∀ a, pgrounddown a = f → σ'.mem a = σ.mem a
  superpages : σ'.superpages.Perm σ.superpages
  freelist : ∃ (A : Space) (tables : List Nat), Rep σ'.mem A ∧ A.root = root ∧ σ.freelist.Perm (tables ++ σ'.freelist) ∧
    ∀ p ∈ tables, ∃ x, A.tbl x = some p

variable {m : Mem} {σ σ' : Phys} {A A' : Space} {h : List Block} {b : Block} {a f k lo n newsz oldsz w xperm : Nat}

theorem Rep.pageLeaf_eq (hr : Rep m A) (hk : k < allPages) : pageLeaf m A.root k = A.leafAt (k * PGSIZE) :=
  hr.sv39Leaf_eq (by simp only [allPages] at hk; lia)

theorem Space.leafAt_super (hd : A.dir (k / 512) = .leaf w) : A.leafAt (k * PGSIZE) = some (1, w) := by
  rw [Space.leafAt, ← page_div, Nat.mul_div_cancel k (by decide), hd]

theorem Space.leafAt_pg (hd : ∀ w, A.dir (k / 512) ≠ .leaf w) : A.leafAt (k * PGSIZE) = (A.pg k).map fun w => (0, w) := by
  rw [Space.leafAt, ← page_div, Nat.mul_div_cancel k (by decide)]
  rcases hd' : A.dir (k / 512) with _ | q | w
  · rfl
  · rfl
  · exact absurd hd' (hd w)

theorem Space.leafAt_congr (hpg : A'.pg k = A.pg k)
    (hdir : A'.dir (k / 512) = A.dir (k / 512) ∨ A.dir (k / 512) = .none ∧ ∃ q, A'.dir (k / 512) = .table q) :
    A'.leafAt (k * PGSIZE) = A.leafAt (k * PGSIZE) := by
  rcases hd : A.dir (k / 512) with _ | q | w
  · rw [Space.leafAt_pg (A := A') (fun w hw => ?_), Space.leafAt_pg (fun w hw => ?_), hpg]
    · rw [hd] at hw
      cases hw
    · rcases hdir with he | ⟨-, q, hq⟩
      · rw [he, hd] at hw
        cases hw
      · rw [hq] at hw
        cases hw
  · rw [Space.leafAt_pg (A := A') (fun w hw => ?_), Space.leafAt_pg (fun w hw => ?_), hpg]
    · rw [hd] at hw
      cases hw
    · rcases hdir with he | ⟨hn, -⟩
      · rw [he, hd] at hw
        cases hw
      · rw [hd] at hn
        cases hn
  · rcases hdir with he | ⟨hn, -⟩
    · rw [Space.leafAt_super (he.trans hd), Space.leafAt_super hd]
    · rw [hd] at hn
      cases hn

theorem Rep.pageFrame_eq (hr : Rep m A) (hk : k < allPages) : pageFrame m A.root k = A.frame k := by
  rw [pageFrame, hr.pageLeaf_eq hk, Space.frame]
  rcases hd : A.dir (k / 512) with _ | q | w
  · rw [Space.leafAt_pg (by rw [hd]; exact fun w hw => by cases hw)]
    rcases A.pg k with _ | w <;> simp [Nat.mod_one]
  · rw [Space.leafAt_pg (by rw [hd]; exact fun w hw => by cases hw)]
    rcases A.pg k with _ | w <;> simp [Nat.mod_one]
  · rw [Space.leafAt_super hd]
    simp

theorem Space.frame_block (hf : A.frame k = some f) (hk : k < userPages) :
    (A.holdings (.page k) = some (.page f) ∧ A.pg k ≠ none) ∨
    ∃ w, A.dir (k / 512) = .leaf w ∧ A.holdings (.super (k / 512)) = some (.super (pte2pa w)) ∧
      f = pte2pa w + k % 512 * PGSIZE := by
  unfold Space.frame at hf
  rcases hd : A.dir (k / 512) with _ | q | w
  · rw [hd] at hf
    obtain ⟨w, hw, rfl⟩ := Option.map_eq_some_iff.1 hf
    exact .inl ⟨by rw [Space.holdings, if_pos hk, hw]; rfl, by rw [hw]; simp⟩
  · rw [hd] at hf
    obtain ⟨w, hw, rfl⟩ := Option.map_eq_some_iff.1 hf
    exact .inl ⟨by rw [Space.holdings, if_pos hk, hw]; rfl, by rw [hw]; simp⟩
  · rw [hd] at hf
    exact .inr ⟨w, rfl, by simp only [Space.holdings, hd], (Option.some.inj hf).symm⟩

theorem super_has (hs : w % SUPERPGSIZE = 0) (ha : pgrounddown a = w + k % 512 * PGSIZE) : (Block.super w).Has a := by
  unfold pgrounddown at ha
  unfold Block.Has
  lia

theorem Live.frame_inj (hL : Live σ A h) {j : Nat} (hj : j < userPages) (hk : k < userPages) (hfj : A.frame j = some f)
    (hfk : A.frame k = some f) : j = k := by
  rcases Space.frame_block hfj hj with ⟨hbj, -⟩ | ⟨w, -, hbj, hfw⟩ <;>
    rcases Space.frame_block hfk hk with ⟨hbk, -⟩ | ⟨u, -, hbk, hfu⟩
  · cases hL.sep.placed_inj hbj hbk
    rfl
  · obtain ⟨-, -, h1⟩ := hL.sep.placed_ok hbj
    obtain ⟨-, h2, -⟩ := hL.sep.placed_ok hbk
    omega
  · obtain ⟨-, h2, -⟩ := hL.sep.placed_ok hbj
    obtain ⟨-, -, h1⟩ := hL.sep.placed_ok hbk
    omega
  · obtain ⟨h1, -⟩ := hL.sep.placed_ok hbj
    obtain ⟨h2, -⟩ := hL.sep.placed_ok hbk
    have hwu : pte2pa w = pte2pa u := by lia
    rw [hwu] at hbj
    have := Place.super.inj (hL.sep.placed_inj hbj hbk)
    lia

theorem Evolves.contents (hE : Evolves lo σ A h σ' A' h) (hL : Live σ A h) (hA : A.Filled lo) (hlo : lo ≤ userPages) (hk : k < lo)
    (hf : A.frame k = some f) (ha : pgrounddown a = f) : σ'.mem a = σ.mem a := by
  obtain ⟨x, b, hx, hb, hnot⟩ : ∃ x b, A.holdings x = some b ∧ b.Has a ∧ ¬x.From lo := by
    rcases Space.frame_block hf (by omega) with ⟨hb, -⟩ | ⟨w, hd, hb, hfw⟩
    · exact ⟨_, _, hb, ha, by simp only [Place.From]; omega⟩
    · obtain ⟨hal, -⟩ := hL.sep.placed_ok hb
      have := hA.dir_le _ _ hd
      exact ⟨_, _, hb, super_has hal (ha.trans hfw), by simp only [Place.From]; omega⟩
  have hkept : Kept σ.mem σ'.mem b := by
    refine hE.keeps.agree.kept ?_ (hL.sep.placed_ok hx) ?_
    · rintro c ⟨o, ho⟩
      exact hL.sep.ok o c (by
        rcases o with _ | _ | y
        · exact ho
        · exact ho
        · exact ⟨y.from_zero, ho.2⟩)
    · rintro ⟨o, ho⟩
      rcases o with _ | _ | y
      · exact hL.sep.placed_not_free hx ho
      · exact hL.sep.placed_not_hand hx ho
      · rw [hL.sep.placed_inj hx ho.2] at hnot
        exact hnot ho.1
  exact hkept a hb

theorem Growing.grew (hG : Growing lo (npages newsz) newsz xperm σ A h σ' A') (hL : Live σ A h) (hA : A.Filled lo)
    (hlo : lo ≤ npages newsz) (hmax : npages newsz ≤ 32735) : Grew lo newsz A.root σ σ' := by
  have hall : ∀ {k}, k < npages newsz → k < allPages ∧ k < userPages := fun hk => ⟨by simp only [allPages]; lia, by lia⟩
  have hframe : ∀ {k f}, k < npages newsz → pageFrame σ'.mem A.root k = some f → A'.frame k = some f := by
    intro k f hk hf
    rw [← hG.root, hG.live.rep.pageFrame_eq (hall hk).1] at hf
    exact hf
  -- a new page is mapped by a new frame
  have hnew : ∀ {k f}, lo ≤ k → k < npages newsz → A'.frame k = some f → ∃ x b, x.Frame lo ∧ A'.holdings x = some b ∧
      (∀ a, pgrounddown a = f → b.Has a) ∧ (b = .page f ∨ b = .super (f / SUPERPGSIZE * SUPERPGSIZE)) := by
    intro k f h1 h2 hf
    rcases Space.frame_block hf (hall h2).2 with ⟨hb, -⟩ | ⟨w, hd, hb, hfw⟩
    · exact ⟨.page k, _, h1, hb, fun a ha => ha, .inl rfl⟩
    · obtain ⟨hal, -⟩ := hG.live.sep.placed_ok hb
      refine ⟨.super (k / 512), _, ?_, hb, fun a ha => super_has hal (ha.trans hfw), .inr ?_⟩
      · by_cases hW : Whole lo newsz (k / 512)
        · exact hW.1
        · obtain ⟨w', hw', -⟩ := hG.pg_new k h1 h2 hW
          obtain ⟨q, hq⟩ := A'.pg_dir hw'
          rw [hd] at hq
          cases hq
      · rw [hfw, show (pte2pa w + k % 512 * PGSIZE) / SUPERPGSIZE * SUPERPGSIZE = pte2pa w by lia]
  refine ⟨fun k h1 h2 => ?_, fun k f h1 h2 hf a ha => ?_, fun k f h1 h2 hf => ?_, fun j k f hj hk hfj hfk => ?_,
    fun k hk hout => ?_, fun k f hk hf a ha => ?_⟩
  · rw [← hG.root, hG.live.rep.pageLeaf_eq (hall h2).1]
    by_cases hW : Whole lo newsz (k / 512)
    · obtain ⟨-, w, hw, -⟩ := hG.dir_new _ hW (by omega)
      exact ⟨1, w, Space.leafAt_super hw, .inl ⟨rfl, hW⟩⟩
    · obtain ⟨w, hw, -⟩ := hG.pg_new k h1 h2 hW
      obtain ⟨q, hq⟩ := A'.pg_dir hw
      exact ⟨0, w, by rw [Space.leafAt_pg (by rw [hq]; exact fun w hw => by cases hw), hw]; rfl, .inr ⟨rfl, hW⟩⟩
  · obtain ⟨x, b, hx, hb, hhas, -⟩ := hnew h1 h2 (hframe h2 hf)
    exact hG.zero x b hx hb a (hhas a ha)
  · obtain ⟨x, b, hx, hb, -, hbf⟩ := hnew h1 h2 (hframe h2 hf)
    have := hG.fresh x b hx hb
    rcases hbf with rfl | rfl
    · exact .inl this
    · exact .inr this
  · exact hG.live.frame_inj (hall hj).2 (hall hk).2 (hframe hj hfj) (hframe hk hfk)
  · have hsame : A'.leafAt (k * PGSIZE) = A.leafAt (k * PGSIZE) := by
      refine Space.leafAt_congr (hG.pg_same k (by omega)) ?_
      by_cases hW : Whole lo newsz (k / 512) ∧ k / 512 * 512 < npages newsz
      · have h1 := hG.whole_le _ hW.1 hW.2
        have h2 := hW.1.1
        omega
      · exact (hG.dir_same _ hW).imp_right And.right
    rw [← hG.root, hG.live.rep.pageLeaf_eq hk, hG.root, hL.rep.pageLeaf_eq hk, hsame]
  · rw [hL.rep.pageFrame_eq (hall (by omega)).1] at hf
    exact hG.toEvolves.contents hL hA (by lia) hk hf ha

theorem Restored.tbl (hR : Restored lo newsz A A') (hroot : A'.root = A.root) {x : Node} {p : Nat} (hx : A.tbl x = some p) :
    A'.tbl x = some p := by
  rcases x with _ | i | v
  · exact (congrArg some hroot).trans hx
  · exact hR.l1 hx
  · rcases hd : A.dir v with _ | q | w
    · rw [Tree.tbl, hd] at hx
      cases hx
    · rcases hR.dir v with he | ⟨-, hn, -⟩
      · rw [Tree.tbl, he]
        exact hx
      · rw [hd] at hn
        cases hn
    · rw [Tree.tbl, hd] at hx
      cases hx

theorem Restored.filled (hR : Restored lo newsz A A') (hA : A.Filled lo) : A'.Filled lo where
  covered k hk := by
    rw [hR.pg]
    refine (hA.covered k hk).imp_right ?_
    rintro ⟨w, hw⟩
    rcases hR.dir (k / 512) with he | ⟨-, hn, -⟩
    · exact ⟨w, he.trans hw⟩
    · rw [hn] at hw
      cases hw
  pg_none k h1 h2 := by
    rw [hR.pg]
    exact hA.pg_none k h1 h2
  dir_le v w hw := by
    rcases hR.dir v with he | ⟨-, -, q, hq⟩
    · exact hA.dir_le v w (he ▸ hw)
    · rw [hq] at hw
      cases hw

theorem held_from (hA : A.Filled lo) : b ∈ held (Owns lo σ A.holdings h) ↔
    σ.Free b ∨ b ∈ h ∨ ∃ x p, A.tbl x = some p ∧ b = .page p := by
  constructor
  · rintro ⟨_ | _ | x, ho⟩
    · exact .inl ho
    · exact .inr (.inl ho)
    · obtain ⟨hfrom, hb⟩ := ho
      rcases x with x | k | v
      · rw [Space.holdings_table] at hb
        obtain ⟨p, hp, rfl⟩ := Option.map_eq_some_iff.1 hb
        exact .inr (.inr ⟨x, p, hp, rfl⟩)
      · exact absurd hb (hA.no_frame (x := .page k) hfrom b)
      · exact absurd hb (hA.no_frame (x := .super v) hfrom b)
  · rintro (hf | hh | ⟨x, p, hp, rfl⟩)
    · exact ⟨.free, hf⟩
    · exact ⟨.hand, hh⟩
    · exact ⟨.at (.table x), trivial, by rw [Space.holdings_table, hp]; rfl⟩

theorem Restored.rolledBack (hR : Restored lo newsz A A') (hE : Evolves lo σ A h σ' A' h) (hL : Live σ A h) (hA : A.Filled lo)
    (hlo : lo ≤ userPages) : RolledBack lo A.root σ σ' := by
  have hheld : ∀ b, (σ'.Free b ∨ b ∈ h ∨ ∃ x p, A'.tbl x = some p ∧ b = .page p) ↔
      σ.Free b ∨ b ∈ h ∨ ∃ x p, A.tbl x = some p ∧ b = .page p := by
    intro b
    rw [← held_from (hR.filled hA), ← held_from hA, hE.keeps.held_eq lo le_rfl]
  have htbl : ∀ {σ A}, Live σ A h → ∀ {x p}, A.tbl x = some p → A.holdings (.table x) = some (.page p) := by
    intro σ A _ x p hp
    rw [Space.holdings_table, hp]
    rfl
  -- a free page was free before: page-table pages and blocks in hand stay what they are
  have hback : ∀ b, σ'.Free b → σ.Free b := by
    intro b hf
    rcases (hheld b).1 (.inl hf) with h' | h' | ⟨x, p, hp, rfl⟩
    · exact h'
    · exact absurd hf (hE.live.sep.hand_not_free h')
    · exact absurd hf (hE.live.sep.placed_not_free (htbl hE.live (hR.tbl hE.root hp)))
  have hforth : ∀ b, σ.Free b → σ'.Free b ∨ ∃ x p, A'.tbl x = some p ∧ b = .page p := by
    intro b hf
    rcases (hheld b).2 (.inl hf) with h' | h' | h'
    · exact .inl h'
    · exact absurd hf (hL.sep.hand_not_free h')
    · exact .inr h'
  refine ⟨fun k hk => ?_, fun k f hk hf a ha => ?_, ?_, A', σ.freelist.filter (· ∉ σ'.freelist), hE.live.rep, hE.root, ?_, ?_⟩
  · rw [← hE.root, hE.live.rep.pageLeaf_eq hk, hE.root, hL.rep.pageLeaf_eq hk]
    exact Space.leafAt_congr (by rw [hR.pg]) ((hR.dir (k / 512)).imp_right And.right)
  · rw [hL.rep.pageFrame_eq (by simp only [allPages]; lia)] at hf
    exact hE.contents hL hA hlo hk hf ha
  · refine (List.perm_ext_iff_of_nodup hE.live.sep.superpages_nodup hL.sep.superpages_nodup).2 fun s => ?_
    refine ⟨fun hs => hback (.super s) hs, fun hs => ?_⟩
    rcases hforth (.super s) hs with h' | ⟨x, p, -, hc⟩
    · exact h'
    · cases hc
  · refine (List.perm_ext_iff_of_nodup hL.sep.freelist_nodup ?_).2 fun p => ?_
    · refine List.Nodup.append (hL.sep.freelist_nodup.filter _) hE.live.sep.freelist_nodup ?_
      intro p hp hp'
      simp only [List.mem_filter, decide_eq_true_eq] at hp
      exact hp.2 hp'
    · simp only [List.mem_append, List.mem_filter, decide_eq_true_eq]
      have := hback (.page p)
      by_cases hp : p ∈ σ'.freelist
      · exact ⟨fun _ => .inr hp, fun _ => this hp⟩
      · exact ⟨fun h' => .inl ⟨h', hp⟩, fun h' => h'.elim And.left fun h'' => absurd h'' hp⟩
  · intro p hp
    simp only [List.mem_filter, decide_eq_true_eq] at hp
    rcases hforth (.page p) hp.1 with h' | ⟨x, q, hq, he⟩
    · exact absurd h' hp.2
    · cases he
      exact ⟨x, hq⟩

/-- `uvmalloc`, whenever it returns, has mapped the new pages to fresh frames that hold zeros, or has restored all leaves and
given all frames back. -/
theorem uvmalloc_all_or_nothing {r : Nat} (hL : Live σ A h) (hA : A.Filled (npages oldsz)) (hx : xperm < 1024)
    (hle : oldsz ≤ newsz) (hrun : (uvmalloc A.root oldsz newsz xperm).run σ = .ok (r, σ')) :
    (r = newsz ∧ Grew (npages oldsz) newsz A.root σ σ') ∨ (r = 0 ∧ RolledBack (npages oldsz) A.root σ σ') := by
  -- there are not enough frames to map all pages
  have hlo : npages oldsz ≤ userPages := by
    by_contra hc
    have := hL.covered_le (n := userPages) (fun k hk => hA.covered k (by omega)) le_rfl
    lia
  rcases wp_ok (uvmalloc_filled_spec (E := fun _ => True) hL hA hlo hx hle fun _ _ _ _ _ => trivial) hrun with
    ⟨hr, A', hG⟩ | ⟨hr, -, A', hE, hR⟩
  · refine .inl ⟨hr, hG.grew hL hA (npages_mono hle) ?_⟩
    by_contra hc
    have hF := hG.filled hA (npages_mono hle)
    have := hG.live.covered_le (n := 32736) (fun k hk => hF.covered k (by omega)) (by decide)
    omega
  · exact .inr ⟨hr, hR.rolledBack hE hL hA hlo⟩

def threePages : Phys := ⟨fun _ => 0, [0x80022000, 0x80023000, 0x80024000], []⟩

theorem pageAddr_kernelEnd : PageAddr 0x80021000 := by
  unfold PageAddr
  decide

theorem threePages_live : Live threePages (Space.empty 0x80021000 pageAddr_kernelEnd) [] where
  rep :=
    { root_none := fun _ _ => by
        rw [show pteAt threePages.mem (Space.empty 0x80021000 pageAddr_kernelEnd).root _ = 0 from
          Bytes.loadLE_zero fun _ _ _ => rfl]
        rfl
      root_some := fun hc => by cases hc
      dir_none := fun hc => by cases hc
      dir_table := fun hc => by cases hc
      dir_leaf := fun hc => by cases hc
      pg_none := fun hc => by cases hc
      pg_some := fun hc => by cases hc }
  sep := by
    have hfree : ∀ b, threePages.Free b → b = .page 0x80022000 ∨ b = .page 0x80023000 ∨ b = .page 0x80024000 := by
      rintro (p | s) hb
      · simpa [Phys.Free, threePages] using hb
      · cases hb
    have hplace : ∀ x b, (Space.empty 0x80021000 pageAddr_kernelEnd).holdings x = some b →
        x = .table .root ∧ b = .page 0x80021000 := by
      rintro ((_ | i | v) | k | v) b hb
      · exact ⟨rfl, (Option.some.inj hb).symm⟩
      · cases hb
      · cases hb
      · simp [Space.holdings, Space.empty] at hb
      · cases hb
    refine ⟨?_, ?_, by decide, by decide, List.nodup_nil⟩
    · rintro (_ | _ | x) (_ | _ | y) b hx hy
      · rfl
      · cases hy
      · obtain ⟨-, rfl⟩ := hplace y b hy.2
        rcases hfree (.page 0x80021000) hx with hc | hc | hc <;> cases hc
      · cases hx
      · cases hx
      · cases hx
      · obtain ⟨-, rfl⟩ := hplace x b hx.2
        rcases hfree (.page 0x80021000) hy with hc | hc | hc <;> cases hc
      · cases hy
      · rw [(hplace x b hx.2).1, (hplace y b hy.2).1]
    · rintro (_ | _ | x) b hb
      · rcases hfree b hb with rfl | rfl | rfl <;> (unfold Block.Ok; decide)
      · cases hb
      · obtain ⟨-, rfl⟩ := hplace x b hb.2
        unfold Block.Ok
        decide

/-- Growing an empty address space by one byte. -/
theorem uvmalloc_all_or_nothing_threePages : ∃ r σ', (uvmalloc 0x80021000 0 1 PTE_W).run threePages = .ok (r, σ') ∧
    ((r = 1 ∧ Grew 0 1 0x80021000 threePages σ') ∨ (r = 0 ∧ RolledBack 0 0x80021000 threePages σ')) := by
  have hA : (Space.empty 0x80021000 pageAddr_kernelEnd).Filled (npages 0) := by
    rw [npages_zero]
    exact ⟨fun k hk => absurd hk (Nat.not_lt_zero k), fun _ _ _ => rfl, fun v w hw => by cases hw⟩
  have hspec : wp (uvmalloc 0x80021000 0 1 PTE_W) (GrowPost (npages 0) 1 PTE_W threePages (Space.empty 0x80021000 pageAddr_kernelEnd) [])
      (fun _ => False) threePages :=
    uvmalloc_filled_spec threePages_live hA (by rw [npages_zero]; exact Nat.zero_le _) (by decide) (Nat.zero_le 1)
      fun _ _ _ _ hd => by cases hd
  obtain ⟨r, σ', hrun, -⟩ := wp_false_iff.1 hspec
  refine ⟨r, σ', hrun, ?_⟩
  have := uvmalloc_all_or_nothing threePages_live hA (by decide) (Nat.zero_le 1) hrun
  rw [npages_zero] at this
  exact this

end Xv6
