import Xv6.Proc.Break

/-!
# Growing again

A shrink and a failed grow leave the page-table pages of the process in place. So `uvmalloc` can find one where it wants
to map a superpage, and then panics.
-/

namespace Xv6

open Bytes (Mem)
open Hoare Ledger

variable {κ : Kernel} {S : Pid → Option Space} {K : List Nat} {σ : Phys} {A : Space} {E : String → Prop} {w : World}
  {i : Pid} {T : Asked} {op : Op} {n : Int}

/-- Runs, with the chunks that each process has been asked to map by single pages. -/
inductive History (C : World → Op → Prop) : World → Asked → Prop where
  | kinit {m : Mem} {w : World} (hrun : (onKernel (onPhys Xv6.kinit)).run (World.start m) = .ok ((), w)) :
      History C w fun _ => ∅
  | step {w w' : World} {T : Asked} {op : Op} {r : Int} (hw : History C w T) (hen : op.Enabled w) (hC : C w op)
      (hrun : op.code.run w = .ok (r, w')) : History C w' (op.asked w r w' T)

theorem Reachable.history {C : World → Op → Prop} (hw : Reachable C w) : ∃ T, History C w T := by
  induction hw with
  | kinit hrun => exact ⟨_, .kinit hrun⟩
  | step _ hen hC hrun ih =>
    obtain ⟨T, hT⟩ := ih
    exact ⟨_, hT.step hen hC hrun⟩

theorem History.inv (hw : History (fun w op => op.KeepsSuperpages w) w T) : w.Inv T := by
  induction hw with
  | kinit hrun => exact World.Inv.boot _ hrun
  | step _ hen hC hrun ih =>
    have hspec := Op.code_inv (E := fun _ => True) ih hen hC (fun _ => trivial) fun _ => trivial
    exact (wp_of_ok hrun).1 hspec

/-- The level-1 entry of the chunk is not valid, or there is no page for it. -/
def NoLevel1 (σ : Phys) (pagetable v : Nat) : Prop :=
  wp (superwalk pagetable (v * SUPERPGSIZE) false)
    (fun o _ => ∀ pte, o = some pte → hasFlag (Bytes.loadLE σ.mem pte 8) PTE_V = false) (fun _ => False) σ

theorem Rep.noLevel1 {v : Nat} (hr : Rep σ.mem A) (hv : v * SUPERPGSIZE < MAXVA) (hd : A.dir v = .none) :
    NoLevel1 σ A.root v := by
  unfold NoLevel1
  rw [wp_superwalk_false hr hv]
  intro pte hpte
  simp only [Space.superSlot, Option.map_eq_some_iff, show v * SUPERPGSIZE / SUPERPGSIZE = v by lia] at hpte
  obtain ⟨q, hq, rfl⟩ := hpte
  exact hr.dir_none hq hd

theorem KInv.dir_none {v : Nat} (hK : KInv κ S K) (hS : S i = some A) (hT : A.TablesIn (T i)) (hint : n < 2 ^ 31)
    (hW : Whole (npages (κ.proc i).sz) (addInt (κ.proc i).sz n) v) (hn : 0 < n) (hv : v ∉ T i) :
    v * SUPERPGSIZE < MAXVA ∧ A.dir v = .none := by
  have hsz := hK.sz_le hS
  have hnew : addInt (κ.proc i).sz n = (κ.proc i).sz + n.toNat := by unfold addInt; lia
  have hlt := hW.2
  rw [hnew] at hlt
  refine ⟨by lia, ?_⟩
  rcases hd : A.dir v with _ | q | e
  · rfl
  · rcases hT v q hd with hv' | rfl
    · exact absurd hv' hv
    · lia
  · have := (hK.image hS).sized.dir_le v e hd
    have := hW.1
    omega

/-- After any run that cuts no superpage, a grow that wants no superpage for a chunk in which the process asked for single
pages before returns 0 or -1, and the chunks that it wants to map by a superpage have no valid level-1 entry. -/
theorem regrow_returns (hw : History (fun w op => op.KeepsSuperpages w) w T) (hen : (Op.growproc i n).Enabled w)
    (hn : 0 < n) (hnew : ¬(Op.growproc i n).Remaps w T) :
    (∃ r w', (Op.growproc i n).code.run w = .ok (r, w') ∧ (r = 0 ∨ r = -1)) ∧
    ∀ v, Whole (npages (w.kernel.proc i).sz) (addInt (w.kernel.proc i).sz n) v →
      NoLevel1 w.kernel.phys (w.kernel.proc i).pagetable v := by
  obtain ⟨S, hK, hT⟩ := hw.inv
  obtain ⟨hruns, -, hint⟩ := hen
  obtain ⟨A, hS⟩ := hK.runs hruns
  have hnone : ∀ v, Whole (npages (w.kernel.proc i).sz) (addInt (w.kernel.proc i).sz n) v →
      v * SUPERPGSIZE < MAXVA ∧ A.dir v = .none := fun v hW =>
    hK.dir_none hS (hT i A hS) hint hW hn fun hv => hnew ⟨hn, v, hv, hW⟩
  constructor
  · have hspec : wp (Op.growproc i n).code (fun r _ => r = 0 ∨ r = -1) (fun _ => False) w := by
      rw [Op.code, wp_onKernel]
      refine wp_post (grow_spec hK hS hn hint fun v q hW _ hq => ?_) ?_
      · rw [(hnone v hW).2] at hq; cases hq
      · rintro r κ' ⟨A', hG⟩
        rcases hG.ret with ⟨hr, -⟩ | ⟨hr, -⟩
        · exact .inl hr
        · exact .inr hr
    obtain ⟨r, w', hrun, hr⟩ := wp_false_iff.1 hspec
    exact ⟨r, w', hrun, hr⟩
  · intro v hW
    rw [← hK.root hS]
    exact (hK.live hS).rep.noLevel1 (hnone v hW).1 (hnone v hW).2

theorem regrow_returns_first : ∃ (w : World) (i : Pid), (w.kernel.proc i).sz = PGSIZE ∧
    ∃ r w', (Op.growproc i 4096).code.run w = .ok (r, w') ∧ (r = 0 ∨ r = -1) := by
  obtain ⟨w, i, A, hw, hA, -⟩ := exists_first (fun w op => op.KeepsSuperpages w) fun w => trivial
  obtain ⟨T, hT⟩ := hw.history
  refine ⟨w, i, hA.sz, (regrow_returns hT ⟨hA.runs, by decide, by decide⟩ (by decide) ?_).1⟩
  rintro ⟨-, v, -, hW⟩
  have h1 := hW.1
  have h2 := hW.2
  rw [hA.sz, npages_eq] at h1
  rw [hA.sz, show addInt PGSIZE 4096 = 2 * PGSIZE by decide] at h2
  lia

theorem supermappages_remap {va q s perm : Nat} (hr : Rep σ.mem A) (hva : va % SUPERPGSIZE = 0)
    (hd : A.dir (va / SUPERPGSIZE) = .table q) :
    wp (supermappages A.root va s perm) (fun _ _ => False) (fun msg => msg = "supermappages: remap") σ := by
  obtain ⟨p, hp⟩ := A.dir_l1 (v := va / SUPERPGSIZE) (by rw [hd]; simp)
  have hlt : va < MAXVA := by have := A.l1_lt hp; lia
  obtain ⟨hv, -, hpa⟩ := hr.root_some hp
  obtain ⟨hv', -, -⟩ := hr.dir_table hp hd
  unfold pteAt at hv hpa hv'
  unfold supermappages superwalk
  rw [if_neg (by lia), if_neg (by lia), px_two hlt, px_one]
  simp only [wp_bind, wp_loadPte, hv, if_true, hpa, wp_pure, hv', wp_panic]

theorem uvmalloc_remap {oldsz q newsz xperm : Nat} {h : List Block} (hL : Live σ A h) (hal : oldsz % SUPERPGSIZE = 0)
    (hd : A.dir (oldsz / SUPERPGSIZE) = .table q) (hnew : oldsz + SUPERPGSIZE ≤ newsz) (hs : σ.superpages ≠ []) :
    wp (uvmalloc A.root oldsz newsz xperm) (fun _ _ => False) (fun msg => msg = "supermappages: remap") σ := by
  obtain ⟨p, hp⟩ := A.dir_l1 (v := oldsz / SUPERPGSIZE) (by rw [hd]; simp)
  have hup : pgroundup oldsz = oldsz := by have := A.l1_lt hp; unfold pgroundup; lia
  unfold uvmalloc
  rw [if_neg (by lia), hup, uvmallocLoop, dif_pos (by lia), if_pos ⟨hal, by lia⟩, wp_bind]
  refine superalloc_spec 0 hL.sep (fun hnil => absurd hnil hs) fun s σ1 hs1 hk ha hsp hfl => ?_
  have hfill : AgreeOff {.super s} σ1.mem (Bytes.fill σ1.mem s SUPERPGSIZE 0) :=
    AgreeOff.fill_super hs1.super_ok.1 (Set.mem_singleton _)
  have hE := hL.take_write hs1 hk ha hfill
  simp only [wp_bind, wp_memset]
  exact wp_post (supermappages_remap hE.live.rep hal hd) fun _ _ hc => hc.elim

/-- The first process gives back its page and then asks for 2 MiB: the page-table page of its page is still there. -/
theorem regrow_remaps : ∃ w i, Reachable (fun w op => op.KeepsSuperpages w) w ∧ (w.kernel.proc i).sz = 0 ∧
    (Op.growproc i 2097152).Enabled w ∧ (Op.growproc i 2097152).code.run w = .error "supermappages: remap" := by
  obtain ⟨w, i, A, hw, hA, hT⟩ := exists_first (fun w op => op.KeepsSuperpages w) fun w => trivial
  obtain ⟨⟨S, hK, hS⟩, hruns, hsz, -, hsp⟩ := hA
  have hnew : addInt (w.kernel.proc i).sz (-4096) = 0 := by rw [hsz]; decide
  have hcut : ¬w.kernel.cuts i (-4096) := by
    rintro ⟨-, -, hal, -⟩
    rw [hnew] at hal
    exact hal (by decide)
  have hen : (Op.growproc i (-4096)).Enabled w := ⟨hruns, by decide, by decide⟩
  obtain ⟨r, w', hw', -, A', hP, hkp⟩ := hw.extend (Q := fun _ w' => ∃ A', ShrinkProc i 0 w.kernel A w'.kernel A' ∧
      w'.kpages = w.kpages) hen hcut (by
    rw [Op.code, wp_onKernel]
    have hspec := shrink_spec (E := fun _ => False) hK hS (by decide) hcut
    rw [hnew] at hspec
    refine wp_post hspec ?_
    rintro r κ' ⟨-, A', hP⟩
    exact ⟨A', hP, rfl⟩)
  have hK' := hP.kinv hK hS
  have hS' : Function.update S i (some A') i = some A' := Function.update_self ..
  have hp' : w'.kernel.proc i = { w.kernel.proc i with sz := 0 } := by
    rw [hP.eq, Nat.zero_min]; exact Function.update_self ..
  have hsz' : (w'.kernel.proc i).sz = 0 := by rw [hp']
  have hruns' : w'.kernel.Runs i := by unfold Kernel.Runs; rw [hp']; exact hruns
  -- the page that is gone had a page-table page
  obtain ⟨q, hq⟩ : ∃ q, A'.dir 0 = .table q := by
    have hI := hK.image hS
    rw [hsz] at hI
    rcases hI.sized.tiled 0 (Nat.zero_le _) (by rw [npages_eq]; decide) with ⟨e, he⟩ | ⟨e, -, -, -, he⟩
    · obtain ⟨q, hq⟩ := A.pg_dir he
      exact ⟨q, (hP.tables 0 q).2 hq⟩
    · rw [npages_eq] at he
      exact absurd he (by decide)
  have hsp' : w'.kernel.phys.superpages ≠ [] := by
    intro hc
    have := hP.superpages.length_le
    rw [hc, List.length_nil] at this
    omega
  refine ⟨w', i, hw', hsz', ⟨hruns', by decide, by decide⟩, ?_⟩
  have hpanic : wp (Op.growproc i 2097152).code (fun _ _ => False) (fun msg => msg = "supermappages: remap") w' := by
    rw [Op.code, wp_onKernel]
    unfold growproc
    rw [wp_bind, wp_get, if_pos (by decide), wp_bind, wp_onPhys, ← hK'.root hS', hsz']
    exact wp_post (uvmalloc_remap (hK'.live hS') (by decide) hq (by decide) hsp') fun _ _ hc => hc.elim
  obtain ⟨msg, hrun, rfl⟩ := wp_fails_iff.1 hpanic
  exact hrun

end Xv6
