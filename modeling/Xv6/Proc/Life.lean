import Xv6.Proc.Grow

/-!
# Creating, replacing and freeing processes

`fork`, `exec`, `exit` and `wait` keep the invariant of the kernel, on their failing ways out too, and none of them panics in the
code that works on page tables.
-/

namespace Xv6

open Function (update update_eq_self update_idem update_of_ne update_self)
open Bytes (Mem)
open Hoare Ledger

variable {κ κ' : Kernel} {S : Pid → Option Space} {S' : Option Space} {K : List Nat} {σ σ' : Phys} {A A' P : Space}
  {B : Holdings} {h : List Block} {b : Block} {E : String → Prop} {i j : Pid} {tf : Nat} {p : Proc} {f : Pid → Bool}

theorem Proc.hand_zero (hp : p.trapframe = 0) : p.hand = [] := if_pos hp

theorem Proc.hand_pos (hp : p.trapframe ≠ 0) : p.hand = [.page p.trapframe] := if_neg hp

theorem Space.root_pos (A : Space) : A.root ≠ 0 := Nat.ne_of_gt (A.tbl_page (x := .root) rfl).2.1

/-- What `freeproc` leaves behind: an unused slot, and every block of the process in the free lists. -/
structure FreeProc (i : Pid) (S' : Option Space) (κ κ' : Kernel) : Prop where
  sep : Sep κ'.phys Holdings.none []
  keeps : Keeps 0 κ.phys (holdingsOf S') (κ.proc i).hand κ'.phys Holdings.none []
  eq : κ' = { κ with phys := κ'.phys, proc := update κ.proc i {} }

theorem freeproc_spec (hs : Sep κ.phys (holdingsOf S') (κ.proc i).hand)
    (hN : S' = none → (κ.proc i).pagetable = 0)
    (hA : ∀ A, S' = some A → Rep κ.phys.mem A ∧ A.root = (κ.proc i).pagetable ∧ ∃ tf, Image A (npages (κ.proc i).sz) tf) :
    wp (freeproc i) (fun _ κ' => FreeProc i S' κ κ') E κ := by
  -- the page table, once the trapframe page is freed
  have tail : ∀ σ1, Sep σ1 (holdingsOf S') [] →
      Keeps 0 κ.phys (holdingsOf S') (κ.proc i).hand σ1 (holdingsOf S') [] → (∀ A, S' = some A → Rep σ1.mem A) →
      wp (do
        setProc i fun p => { p with trapframe := 0 }
        if (κ.proc i).pagetable ≠ 0 then onPhys (procFreepagetable (κ.proc i).pagetable (κ.proc i).sz)
        setProc i fun _ => {}) (fun _ κ' => FreeProc i S' κ κ') E { κ with phys := σ1 } := by
    intro σ1 hs1 hk1 hr1
    rw [wp_bind, wp_setProc]
    rcases S' with _ | A
    · rw [if_neg (not_not.2 (hN rfl)), wp_setProc]
      exact ⟨hs1, hk1, by simp only [update_idem]⟩
    · obtain ⟨-, hroot, tf, hI⟩ := hA A rfl
      have hL : Live σ1 A [] := ⟨hr1 A rfl, hs1⟩
      rw [← hroot, if_pos A.root_pos, wp_bind, wp_onPhys]
      refine wp_post (procFreepagetable_spec hL hI) ?_
      intro _ σ' hD
      rw [wp_setProc]
      exact ⟨hD.sep, hk1.trans hD.keeps, by simp only [update_idem]⟩
  unfold freeproc
  rw [wp_bind, wp_get]
  dsimp only
  by_cases htf : (κ.proc i).trapframe = 0
  · rw [if_neg (not_not.2 htf)]
    rw [Proc.hand_zero htf] at hs
    refine tail κ.phys hs ?_ fun A hA' => (hA A hA').1
    rw [Proc.hand_zero htf]
    exact Keeps.refl
  · rw [if_pos htf, wp_bind, wp_onPhys]
    rw [Proc.hand_pos htf] at hs
    refine kfree_spec 0 hs fun σ1 hs1 hk1 ha1 _ _ => ?_
    refine tail σ1 hs1 ?_ fun A hA' => ?_
    · rw [Proc.hand_pos htf]
      exact hk1
    · subst hA'
      exact (Live.give ⟨(hA A rfl).1, hs⟩ hs1 hk1 ha1).live.rep

theorem FreeProc.kinv (hF : FreeProc i (S i) κ κ') (hK : KInv κ S K) : KInv κ' (update S i none) K := by
  have hself : κ'.proc i = {} := by rw [hF.eq]; exact update_self ..
  refine hK.setProc i (fun j hj => ?_) ?_ ?_ ?_
  · rw [hF.eq]; exact update_of_ne hj _ _
  · rw [hself]; exact hF.sep
  · rw [hself]; exact hF.keeps
  · rw [hself]; exact ⟨rfl, rfl, rfl, rfl⟩

theorem KInv.freeproc_spec (hK : KInv κ S K) (hS : S i = some A) :
    wp (freeproc i) (fun _ κ' => FreeProc i (S i) κ κ') E κ := by
  refine Xv6.freeproc_spec (hK.sep i) (fun hc => ?_) fun A' hA' => ?_
  · rw [hS] at hc; cases hc
  · rw [hS, Option.some.injEq] at hA'
    subst hA'
    exact ⟨(hK.live hS).rep, hK.root hS, _, hK.image hS⟩

theorem findProc_some (hf : findProc f = some i) : f i = true := List.find?_some hf

theorem findProc_none (hf : findProc f = none) (i : Pid) : f i = false := by
  have := List.find?_eq_none.1 hf i (List.mem_finRange i)
  simpa using this

theorem KInv.unused (hK : KInv κ S K) (hi : (κ.proc i).state = .UNUSED) : S i = none := by
  rcases hS : S i with _ | A
  · rfl
  · exact absurd hi (hK.used hS)

theorem KInv.slot (hK : KInv κ S K) (hS : S i = none) : (κ.proc i).state = .UNUSED ∧ (κ.proc i).sz = 0 ∧
    (κ.proc i).pagetable = 0 ∧ (κ.proc i).trapframe = 0 := by
  have hp := hK.proc i
  rwa [hS] at hp

/-- A new process in slot `j`, with the fresh address space `A`. -/
structure AllocProc (j : Pid) (κ κ' : Kernel) (A : Space) : Prop where
  live : Live κ'.phys A (κ'.proc j).hand
  keeps : Keeps 0 κ.phys Holdings.none [] κ'.phys A.holdings (κ'.proc j).hand
  fresh : Fresh A (κ'.proc j).trapframe
  state : (κ'.proc j).state = .USED
  sz : (κ'.proc j).sz = 0
  pagetable : (κ'.proc j).pagetable = A.root
  trapframe : (κ'.proc j).trapframe ≠ 0
  proc : ∀ k, k ≠ j → κ'.proc k = κ.proc k
  initproc : κ'.initproc = κ.initproc
  superpages : κ'.phys.superpages = κ.phys.superpages
  freelist : ∃ used, κ.phys.freelist = used ++ κ'.phys.freelist ∧ used.length ≤ 6

/-- `allocproc` that gives up leaves the processes as they are. -/
structure AllocFailed (S : Pid → Option Space) (K : List Nat) (κ κ' : Kernel) : Prop where
  kinv : KInv κ' S K
  proc : ∀ k, S k ≠ none → κ'.proc k = κ.proc k
  initproc : κ'.initproc = κ.initproc
  short : (∀ k, (κ.proc k).state ≠ .UNUSED) ∨ κ.phys.freelist.length ≤ 6

theorem allocproc_spec {Q : Option Pid → Kernel → Prop} (hK : KInv κ S K)
    (hnone : ∀ κ', AllocFailed S K κ κ' → Q none κ')
    (hsome : ∀ j κ' A, S j = none → AllocProc j κ κ' A → Q (some j) κ') : wp allocproc Q E κ := by
  unfold allocproc
  rw [wp_bind, wp_get]
  rcases hf : findProc fun i => (κ.proc i).state = .UNUSED with _ | j
  · refine wp_pure.2 (hnone κ ⟨hK, fun _ _ => rfl, rfl, .inl fun k => ?_⟩)
    simpa using findProc_none hf k
  have hSj : S j = none := hK.unused (by simpa using findProc_some hf)
  obtain ⟨-, hsz, hpt, htf⟩ := hK.slot hSj
  have hs := hK.sep j
  rw [hSj, Proc.hand_zero htf] at hs
  have hupd : update S j none = S := by rw [← hSj]; exact update_eq_self ..
  -- a slot that `freeproc` has cleared again
  have fail : ∀ κ1 κ2, (∀ k, k ≠ j → κ1.proc k = κ.proc k) → κ1.initproc = κ.initproc →
      Keeps 0 κ.phys Holdings.none [] κ1.phys Holdings.none (κ1.proc j).hand → FreeProc j none κ1 κ2 →
      κ.phys.freelist.length ≤ 6 → Q none κ2 := by
    intro κ1 κ2 hp hip hk hF hlen
    have hself : κ2.proc j = {} := by rw [hF.eq]; exact update_self ..
    have hother : ∀ k, k ≠ j → κ2.proc k = κ.proc k := by
      intro k hkj
      rw [hF.eq]
      exact (update_of_ne hkj _ _).trans (hp k hkj)
    have hinv : KInv κ2 (update S j none) K := by
      refine hK.setProc j hother ?_ ?_ ?_
      · rw [hself]; exact hF.sep
      · rw [hself, hSj, Proc.hand_zero htf]; exact hk.trans hF.keeps
      · rw [hself]; exact ⟨rfl, rfl, rfl, rfl⟩
    rw [hupd] at hinv
    refine hnone κ2 ⟨hinv, fun k hne => hother k ?_, by rw [hF.eq]; exact hip, .inr hlen⟩
    rintro rfl
    exact hne hSj
  unfold allocpid
  simp only [wp_bind, wp_get, wp_modify, wp_pure, wp_setProc, wp_onPhys]
  refine kalloc_spec 0 hs (fun hnil => ?_) fun tf σ1 hs1 hk1 ha1 hfl1 hsup1 => ?_
  · rw [wp_bind, wp_setProc, wp_bind]
    refine wp_post (freeproc_spec (show Sep _ (holdingsOf none) _ from ?_) ?_ ?_) ?_
    · rw [Proc.hand_zero (by simp only [update_self])]
      exact hs
    · intro _
      simp only [update_self]
      exact hpt
    · intro A hA
      cases hA
    · intro _ κ2 hF
      refine wp_pure.2 (fail _ κ2 ?_ ?_ ?_ hF (by rw [hnil]; exact Nat.zero_le _))
      · intro k hkj
        simp only [update_of_ne hkj]
      · rfl
      · rw [Proc.hand_zero (by simp only [update_self])]
        exact Keeps.refl
  · have htf' : tf ≠ 0 := Nat.ne_of_gt hs1.page_ok.pageAddr.2.1
    rw [wp_bind, wp_setProc, wp_bind, wp_onPhys]
    refine wp_post (procPagetable_spec hs1 hs1.page_ok.pageAddr) ?_
    rintro r σ2 (⟨rfl, hlen, hs2, hk2⟩ | ⟨A, rfl, hC⟩)
    · rw [wp_bind, wp_setProc, wp_bind]
      refine wp_post (freeproc_spec (show Sep _ (holdingsOf none) _ from ?_) ?_ ?_) ?_
      · rw [Proc.hand_pos (by simp only [update_self]; exact htf')]
        simp only [update_self]
        exact hs2
      · intro _
        simp only [update_self]
      · intro A hA
        cases hA
      · intro _ κ2 hF
        refine wp_pure.2 (fail _ κ2 ?_ ?_ ?_ hF ?_)
        · intro k hkj
          simp only [update_of_ne hkj]
        · rfl
        · rw [Proc.hand_pos (by simp only [update_self]; exact htf')]
          simp only [update_self]
          exact hk1.trans hk2
        · rw [hfl1, List.length_cons]
          exact Nat.succ_le_succ hlen
    · rw [wp_bind, wp_setProc, wp_pure]
      obtain ⟨used, hu, hul⟩ := hC.freelist
      apply hsome j _ A hSj
      refine ⟨?_, ?_, ?_, ?_, ?_, ?_, ?_, ?_, rfl, hC.superpages.trans hsup1, tf :: used, ?_, ?_⟩
      · rw [Proc.hand_pos (by simp only [update_self]; exact htf')]
        simp only [update_self]
        exact hC.live
      · rw [Proc.hand_pos (by simp only [update_self]; exact htf')]
        simp only [update_self]
        exact hk1.trans hC.keeps
      · simp only [update_self]
        exact hC.fresh
      · simp only [update_self]
      · simp only [update_self]
        exact hsz
      · simp only [update_self]
      · simp only [update_self]
        exact htf'
      · intro k hkj
        simp only [update_of_ne hkj]
      · rw [hfl1, hu, List.cons_append]
      · rw [List.length_cons]
        omega

theorem AllocProc.kinv (hA : AllocProc j κ κ' A) (hK : KInv κ S K) (hS : S j = none) :
    KInv κ' (update S j (some A)) K := by
  refine hK.setProc j hA.proc hA.live.sep ?_ ?_
  · rw [hS, Proc.hand_zero (hK.slot hS).2.2.2]
    exact hA.keeps
  · refine ⟨by rw [hA.state]; decide, hA.trapframe, hA.live.rep, hA.pagetable.symm, ?_⟩
    rw [hA.sz, npages_zero]
    exact hA.fresh.image

theorem Sep.off {X : Set Block} {n : Nat} (hs : Sep σ P.holdings h) (hn : n ≤ userPages) (hX : ∀ b ∈ X, b.Ok)
    (hP : ∀ x b, P.holdings x = some b → b ∉ X) : P.Off n X := by
  -- a page of the one pool meets no block of the other
  have hpage : ∀ {x a}, P.holdings x = some (.page (pgrounddown a)) → Outside X a := by
    intro x a hx
    refine ⟨hP x _ hx, fun hc => ?_⟩
    obtain ⟨-, -, h1⟩ := hs.placed_ok hx
    obtain ⟨h2, h3, h4⟩ := hX _ hc
    unfold pgrounddown at h1
    lia
  refine ⟨fun {x p a} hx ha => ?_, fun {k f a} hk hf ha => ?_⟩
  · exact hpage (x := .table x) (by rw [Space.holdings_table, hx, ha]; rfl)
  · unfold Space.frame at hf
    split at hf
    · rename_i w hd
      have hpl : P.holdings (.super (k / 512)) = some (.super (pte2pa w)) := by simp only [Space.holdings, hd]
      obtain ⟨h1, h2, h3⟩ := hs.placed_ok hpl
      simp only [Option.some.injEq] at hf
      have hsup : a / SUPERPGSIZE * SUPERPGSIZE = pte2pa w := by unfold pgrounddown at ha; lia
      refine ⟨fun hc => ?_, hsup ▸ hP _ _ hpl⟩
      obtain ⟨-, -, h4⟩ := hX _ hc
      unfold pgrounddown at *
      lia
    · obtain ⟨w, hw, rfl⟩ := Option.map_eq_some_iff.1 hf
      exact hpage (x := .page k) (by rw [Space.holdings, if_pos (by omega), hw, ha]; rfl)

theorem KInv.copySource (hK : KInv κ S K) (hS : S i = some P) (hS' : S j = some A) (hij : i ≠ j) :
    CopySource P (κ.proc i).sz κ.phys A (κ.proc j).hand := by
  have hI := hK.image hS
  refine ⟨(hK.live hS).rep, hI.sized.tiled, ?_⟩
  have hj := hK.sep j
  have hout := fun {b} => hK.not_held (b := b) hij
  rw [hS'] at hj hout
  refine (hK.live hS).sep.off hI.le (fun b hb => hj.held_ok hb) fun x b hx => hout (.inr ⟨x, ?_⟩)
  rw [hS]; exact hx

/-- What `fork` has done when it has made the process in slot `j`. -/
structure Forked (i j : Pid) (S : Pid → Option Space) (K : List Nat) (κ κ' : Kernel) (P A : Space) : Prop where
  slot : S j = none
  kinv : KInv κ' (update S j (some A)) K
  tables : ∀ v q, A.dir v = .table q → (∃ r, P.dir v = .table r) ∨ v = topChunk
  state : (κ'.proc j).state = .RUNNABLE
  sz : (κ'.proc j).sz = (κ.proc i).sz
  parent : (κ'.proc j).parent = some i
  proc : ∀ k, k ≠ j → κ'.proc k = κ.proc k
  initproc : κ'.initproc = κ.initproc

theorem fork_spec (hK : KInv κ S K) (hS : S i = some P) :
    wp (fork i) (fun r κ' => (r = -1 ∧ KInv κ' S K ∧ (∀ k, S k ≠ none → κ'.proc k = κ.proc k) ∧ κ'.initproc = κ.initproc) ∨
      ∃ j A, Forked i j S K κ κ' P A) E κ := by
  unfold fork
  rw [wp_bind]
  refine allocproc_spec hK (fun κ1 hF => ?_) fun j κ1 A hSj hA => ?_
  · exact wp_pure.2 (.inl ⟨rfl, hF.kinv, hF.proc, hF.initproc⟩)
  have hij : i ≠ j := by rintro rfl; rw [hS] at hSj; cases hSj
  have hK1 := hA.kinv hK hSj
  have hS1 : update S j (some A) i = some P := by rw [update_of_ne hij]; exact hS
  have hS1' : update S j (some A) j = some A := update_self ..
  have hupd : update S j none = S := by rw [← hSj]; exact update_eq_self ..
  have hpi : κ1.proc i = κ.proc i := hA.proc i hij
  simp only [wp_bind, wp_get, wp_onPhys]
  rw [← hK1.root hS1, ← hK1.root hS1']
  refine wp_post (uvmcopy_spec hA.live hA.fresh.image.sized hA.fresh.tables (hK1.copySource hS1 hS1' hij)) ?_
  rintro r σ2 (⟨rfl, A', hC⟩ | ⟨rfl, A', hE, hpg, hdir⟩)
  · rw [if_neg (by decide), wp_bind, wp_setProc, wp_bind, wp_onPhys, wp_memmove, wp_bind, wp_onPhys]
    unfold setTrapframe
    simp only [wp_modify, wp_bind, wp_setProc, wp_pure, update_idem, update_self]
    have hhand : Block.page (κ1.proc j).trapframe ∈ (κ1.proc j).hand := by
      rw [Proc.hand_pos hA.trapframe]; exact List.mem_cons_self
    have hok := (hK1.sep j).ok .hand _ hhand
    have hE1 := hC.live.write_hand 0 hhand
      (AgreeOff.write_page (n := trapframeSize) (f := fun k => σ2.mem ((κ1.proc i).trapframe + k)) hok.1 (Set.mem_singleton _)
        le_rfl (Nat.add_le_add_left (by decide) _))
    have hE2 := hE1.live.write_hand 0 hhand
      (AgreeOff.write_page (a := (κ1.proc j).trapframe + 112) (n := 8) (f := fun k => UInt8.ofNat (0 / 256 ^ k)) hok.1
        (Set.mem_singleton _) (Nat.le_add_right _ _) (by lia))
    have hbound := hC.live.tiled_bound hC.sized.tiled
    have hI' : Image A' (npages (κ1.proc i).sz) (κ1.proc j).trapframe :=
      hA.fresh.image.of_high (by lia) hC.sized hC.high
    refine .inr ⟨j, A', hSj, ?_, ?_, ?_, ?_, ?_, ?_, hA.initproc⟩
    · have hev := hK1.evolve
        (p := { κ1.proc j with
          state := .RUNNABLE, parent := some i, sz := (κ1.proc i).sz, name := safestrcpy (κ1.proc i).name nameSize })
        hS1' ((hC.toEvolves.trans hE1).trans hE2) rfl rfl (by simp) hI'
      rw [update_idem] at hev
      exact hev
    · intro v q hq
      rcases hC.tables v q hq with hr | ⟨r, hr⟩
      · exact .inl hr
      · exact .inr (hA.fresh.tables v r hr)
    · simp only [update_self]
    · simp only [update_self, hpi]
    · simp only [update_self]
    · intro k hkj
      simp only [update_of_ne hkj]
      exact hA.proc k hkj
  · rw [if_pos (by decide), wp_bind]
    have hsized : A'.Sized 0 := by
      refine ⟨fun k _ hk => absurd hk (Nat.not_lt_zero k), fun k h1 h2 => ?_, fun v w hw => absurd hw (hdir v w)⟩
      rw [hpg]; exact hA.fresh.image.sized.pg_none k h1 h2
    have hI' : Image A' (npages (κ1.proc j).sz) (κ1.proc j).trapframe := by
      rw [hA.sz, npages_zero]
      exact hA.fresh.image.of_high (Nat.zero_le _) hsized fun k _ => by rw [hpg]
    have hself : update κ1.proc j (κ1.proc j) = κ1.proc := update_eq_self ..
    have hK2 := hK1.evolve (p := κ1.proc j) hS1' hE rfl rfl (by rw [hA.state]; decide) hI'
    rw [hself, update_idem] at hK2
    refine wp_post (hK2.freeproc_spec (i := j) (update_self ..)) ?_
    intro _ κ3 hF
    have hK3 := hF.kinv hK2
    rw [update_idem, hupd] at hK3
    refine wp_pure.2 (.inl ⟨rfl, hK3, fun k hk => ?_, by rw [hF.eq]; exact hA.initproc⟩)
    have hkj : k ≠ j := by rintro rfl; exact hk hSj
    rw [hF.eq]
    exact (update_of_ne hkj _ _).trans (hA.proc k hkj)

theorem Sep.beside (hs : Sep σ P.holdings h) (hk : Keeps 0 σ Holdings.none h σ' B h) {x : Place}
    (hx : P.holdings x = some b) : b ∉ held (Owns 0 σ' B h) := by
  rw [hk.held_eq 0 le_rfl, mem_held_iff]
  rintro (hf | hb | ⟨y, hy⟩)
  · exact hs.placed_not_free hx hf
  · exact hs.placed_not_hand hx hb
  · cases hy

theorem Live.beside (hP : Live σ P h) (hs' : Sep σ' B h) (hk : Keeps 0 σ Holdings.none h σ' B h) : Live σ' P h := by
  have hout := fun {x b} => hP.sep.beside (x := x) (b := b) hk
  have hs : Sep σ' P.holdings h := hP.sep.frame hs' (fun x b hx hf => hout hx (mem_held_iff.2 (.inl hf)))
    fun b hb => hs'.hand_not_free hb
  refine ⟨hP.rep.frame_ledger hs hP.sep.drop hk.agree fun x b hx => ?_, hs⟩
  rw [← hk.held_eq 0 le_rfl]
  exact hout hx

theorem Keeps.beside (hk : Keeps 0 σ Holdings.none h σ' Holdings.none h) : Keeps 0 σ B h σ' B h := by
  have hfree : ∀ b, σ'.Free b ∨ b ∈ h ↔ σ.Free b ∨ b ∈ h := by simpa [Holdings.none] using hk.built_iff
  refine ⟨fun l hl => ?_, hk.agree.mono fun b hb => ?_⟩
  · obtain rfl : l = 0 := Nat.le_zero.1 hl
    ext b
    rw [mem_held_iff, mem_held_iff, ← or_assoc, ← or_assoc, hfree]
  · rw [mem_held_iff] at hb ⊢
    rcases hb with hb | hb | ⟨x, hx⟩
    · exact .inl hb
    · exact .inr (.inl hb)
    · cases hx

theorem Live.replace {σ2 σ3 : Phys} (hP : Live σ P h) (hk : Keeps 0 σ Holdings.none h σ2 A.holdings h)
    (hA : Live σ2 A h) (hD : Dissolved 0 σ2 P h σ3) : Live σ3 A h ∧ Keeps 0 σ P.holdings h σ3 A.holdings h := by
  have hP2 := hP.beside hA.sep hk
  have hout := fun {x b} => hP.sep.beside (x := x) (b := b) hk
  have hold := hD.keeps.dissolved_iff
  have hnew := hk.built_iff
  -- the new address space is outside the ledger of the old one
  have hAout : ∀ x b, A.holdings x = some b → b ∉ held (Owns 0 σ2 P.holdings h) := by
    intro x b hx
    rw [mem_held_iff]
    rintro (hf | hb | ⟨y, hy⟩)
    · exact hA.sep.placed_not_free hx hf
    · exact hA.sep.placed_not_hand hx hb
    · exact hout hy (mem_held_iff.2 (.inr (.inr ⟨x, hx⟩)))
  have hs3 : Sep σ3 A.holdings h := by
    refine hA.sep.frame hD.sep (fun x b hx hf => hAout x b hx ?_) fun b hb => hD.sep.hand_not_free hb
    exact mem_held_iff.2 ((hold b).1 (.inl hf))
  refine ⟨⟨hA.rep.frame_ledger hs3 hP2.sep hD.keeps.agree hAout, hs3⟩, fun l hl => ?_, ?_⟩
  · obtain rfl : l = 0 := Nat.le_zero.1 hl
    ext b
    rw [mem_held_iff, mem_held_iff, ← or_assoc, hold b, ← or_assoc (a := σ2.Free b), or_right_comm,
      or_assoc (a := σ2.Free b), hnew b, or_assoc]
  · refine (hk.agree.mono fun b hb => ?_).trans (hD.keeps.agree.mono fun b hb => ?_)
    · rw [mem_held_iff] at hb ⊢
      rcases hb with hb | hb | ⟨x, hx⟩
      · exact .inl hb
      · exact .inr (.inl hb)
      · cases hx
    · rw [mem_held_iff] at hb ⊢
      rcases hb with hb | hb
      · exact ((hnew b).1 (.inl hb)).imp_right Or.inl
      · exact .inr hb

structure Execed (i : Pid) (S : Pid → Option Space) (K : List Nat) (κ κ' : Kernel) (A : Space) : Prop where
  kinv : KInv κ' (update S i (some A)) K
  tables : ∀ v q, A.dir v = .table q → v * SUPERPGSIZE < (κ'.proc i).sz ∨ v = topChunk
  state : (κ'.proc i).state = (κ.proc i).state
  parent : (κ'.proc i).parent = (κ.proc i).parent
  proc : ∀ k, k ≠ i → κ'.proc k = κ.proc k
  initproc : κ'.initproc = κ.initproc

theorem Live.setRegs (hL : Live σ A h) (htf : Block.page tf ∈ h) (sp entry a1 : Nat) : Evolves 0 σ A h { σ with
    mem := Bytes.storeLE (Bytes.storeLE (Bytes.storeLE σ.mem (tf + 120) 8 sp) (tf + 24) 8 entry) (tf + 48) 8 a1 } A h := by
  have hreg : ∀ {τ : Phys} (off v : Nat), off + 8 ≤ PGSIZE → Live τ A h →
      Evolves 0 τ A h { τ with mem := Bytes.storeLE τ.mem (tf + off) 8 v } A h := fun off v hoff hL =>
    hL.write_hand 0 htf (AgreeOff.write_page (hL.sep.ok .hand _ htf).1 (Set.mem_singleton _) (Nat.le_add_right _ _) (by omega))
  have h1 := hreg 120 sp (by decide) hL
  have h2 := hreg 24 entry (by decide) h1.live
  exact (h1.trans h2).trans (hreg 48 a1 (by decide) h2.live)

theorem exec_spec (hK : KInv κ S K) (hS : S i = some P) (path : List UInt8) (file : Option (List UInt8))
    (argv : List (List UInt8)) : wp (exec i path file argv) (fun r κ' => (r = -1 ∧ KInv κ' S K ∧ κ' = { κ with phys := κ'.phys }) ∨
      ∃ A, r = argv.length ∧ Execed i S K κ κ' A) E κ := by
  have hp := hK.proc i
  rw [hS] at hp
  obtain ⟨hst, htf, -, hroot, hI⟩ := hp
  have hP := hK.live hS
  have hhand : Block.page (κ.proc i).trapframe ∈ (κ.proc i).hand := by
    rw [Proc.hand_pos htf]; exact List.mem_cons_self
  have hok := hP.sep.ok .hand _ hhand
  unfold exec
  rcases file with _ | file
  · exact wp_pure.2 (.inl ⟨rfl, hK, rfl⟩)
  simp only [wp_bind, wp_get, wp_onPhys]
  refine wp_post (execImage_spec hP.sep.drop hok.pageAddr (hP.sep.hand_not_free hhand)) ?_
  rintro r σ1 (⟨rfl, hs1, hk1⟩ | ⟨A, sz, sp, rfl, hM, htab, -⟩)
  · have hP1 := hP.beside hs1 hk1
    have hE : Evolves 0 κ.phys P (κ.proc i).hand σ1 P (κ.proc i).hand := ⟨hP1, hk1.beside, rfl⟩
    have hev := hK.evolve (p := κ.proc i) hS hE rfl rfl hst hI
    have hself : update κ.proc i (κ.proc i) = κ.proc := update_eq_self ..
    have hSself : update S i (some P) = S := by rw [← hS]; exact update_eq_self ..
    rw [hself, hSself] at hev
    exact wp_pure.2 (.inl ⟨rfl, hev, rfl⟩)
  · unfold setTrapframe
    simp only [wp_bind, wp_onPhys, wp_modify, wp_setProc]
    have hE := hM.live.setRegs hhand sp (field (readFile file 0 elfhdrSize) 24 8) sp
    rw [← hroot]
    refine wp_post (procFreepagetable_spec (hP.beside hE.live.sep (hM.keeps.trans hE.keeps)) hI) ?_
    intro _ σ3 hD
    obtain ⟨hL3, hk3⟩ := hP.replace (hM.keeps.trans hE.keeps) hE.live hD
    refine wp_pure.2 (.inr ⟨A, rfl, ?_, ?_, ?_, ?_, ?_, rfl⟩)
    · refine hK.setProc i (fun j hj => update_of_ne hj _ _) ?_ ?_ ?_
      · simp only [update_self]
        exact hL3.sep
      · simp only [update_self, hS]
        exact hk3
      · simp only [update_self]
        exact ⟨hst, htf, hL3.rep, rfl, hM.image⟩
    · simp only [update_self]
      exact htab
    · simp only [update_self]
    · simp only [update_self]
    · intro k hk
      exact update_of_ne hk _ _

theorem exit_spec (hK : KInv κ S K) (hS : S i = some P) (status : Int) (hinit : κ.initproc ≠ some i) :
    wp (exit i status) (fun _ κ' => KInv κ' S K ∧ κ'.initproc = κ.initproc ∧ κ'.phys = κ.phys ∧
      (κ'.proc i).state = .ZOMBIE ∧ ∀ k, (κ'.proc k).sz = (κ.proc k).sz ∧ (κ'.proc k).pagetable = (κ.proc k).pagetable) E κ := by
  unfold exit reparent
  rw [wp_bind, wp_get, if_neg hinit, wp_bind, wp_modify, wp_setProc]
  have hfields : ∀ k, (update (fun j => if (κ.proc j).parent = some i then { κ.proc j with parent := κ.initproc }
      else κ.proc j) i { (if (κ.proc i).parent = some i then { κ.proc i with parent := κ.initproc } else κ.proc i) with
        xstate := status, state := .ZOMBIE } k) = { κ.proc k with
      parent := if (κ.proc k).parent = some i then κ.initproc else (κ.proc k).parent
      xstate := if k = i then status else (κ.proc k).xstate
      state := if k = i then .ZOMBIE else (κ.proc k).state } := by
    intro k
    by_cases hk : k = i
    · subst hk
      rw [update_self]
      split <;> simp
    · rw [update_of_ne hk]
      split <;> simp
  refine ⟨hK.congr rfl fun k => ?_, rfl, rfl, ?_, fun k => ?_⟩
  · dsimp only
    rw [hfields k]
    refine ⟨?_, rfl, rfl, rfl⟩
    by_cases hk : k = i
    · subst hk
      simp [hK.used hS]
    · simp [hk]
  · dsimp only
    rw [hfields i]
    simp
  · dsimp only
    rw [hfields k]
    exact ⟨rfl, rfl⟩

theorem KInv.copyout_spec (hK : KInv κ S K) (hS : S i = some P) (va : Nat) (src : Nat → UInt8) (len : Nat) :
    wp (copyout (κ.proc i).pagetable va src len) (fun _ σ' => KInv { κ with phys := σ' } S K ∧
      ∀ b, σ'.Free b ↔ κ.phys.Free b) E κ.phys := by
  have hp := hK.proc i
  rw [hS] at hp
  obtain ⟨hst, htf, -, hroot, hI⟩ := hp
  have hL := hK.live hS
  have hhand : Block.page (κ.proc i).trapframe ∈ (κ.proc i).hand := by
    rw [Proc.hand_pos htf]; exact List.mem_cons_self
  have htbl : ∀ x, P.tbl x ≠ some (κ.proc i).trapframe := by
    intro x hx
    have hplace : P.holdings (.table x) = some (.page (κ.proc i).trapframe) := by rw [Space.holdings_table, hx]; rfl
    exact hL.sep.placed_not_hand hplace hhand
  rw [← hroot]
  refine wp_post (copyout_image_spec hI hL htbl (hL.sep.ok .hand _ hhand).pageAddr src len) ?_
  rintro r σ' ⟨-, hf, hsup, ha⟩
  have hev := hK.evolve (p := κ.proc i) hS (hL.touch hf hsup ha) rfl rfl hst hI
  have hself : update κ.proc i (κ.proc i) = κ.proc := update_eq_self ..
  have hSself : update S i (some P) = S := by rw [← hS]; exact update_eq_self ..
  rw [hself, hSself] at hev
  refine ⟨hev, fun b => ?_⟩
  rcases b with p | s <;> simp only [Phys.Free, hf, hsup]

/-- What `wait` has done when it has freed the child in slot `j`. -/
structure Reaped (i j : Pid) (S : Pid → Option Space) (K : List Nat) (κ κ' : Kernel) : Prop where
  parent : (κ.proc j).parent = some i
  zombie : (κ.proc j).state = .ZOMBIE
  kinv : KInv κ' (update S j none) K
  /-- Every block of the child is free again. -/
  free : ∀ b, κ'.phys.Free b ↔ κ.phys.Free b ∨ b ∈ (κ.proc j).blocks (S j)
  proc : κ'.proc = update κ.proc j {}
  initproc : κ'.initproc = κ.initproc

theorem wait_spec (hK : KInv κ S K) (hS : S i = some P) (addr : Nat) :
    wp (wait i addr) (fun r κ' => (KInv κ' S K ∧ κ' = { κ with phys := κ'.phys }) ∨
      ∃ j, r = some (κ.proc j).pid ∧ Reaped i j S K κ κ') E κ := by
  unfold wait
  rw [wp_bind, wp_get]
  rcases hf : findProc fun j => (κ.proc j).parent = some i ∧ (κ.proc j).state = .ZOMBIE with _ | j
  · simp only [wp_ite]
    exact ⟨fun _ => wp_pure.2 (.inl ⟨hK, rfl⟩), fun _ => wp_pure.2 (.inl ⟨hK, rfl⟩)⟩
  obtain ⟨hpar, hzom⟩ : (κ.proc j).parent = some i ∧ (κ.proc j).state = .ZOMBIE := by simpa using findProc_some hf
  obtain ⟨A, hSj⟩ : ∃ A, S j = some A := by
    rcases hSj : S j with _ | A
    · rw [(hK.slot hSj).1] at hzom; cases hzom
    · exact ⟨A, rfl⟩
  -- the rest of the call, once the exit status has been copied out
  have rest : ∀ {σ1} {r : Int}, KInv { κ with phys := σ1 } S K → (∀ b, σ1.Free b ↔ κ.phys.Free b) →
      wp (if r < 0 then pure (some (-1)) else do freeproc j; return some (κ.proc j).pid : KernM (Option Int)) (fun r κ' =>
        (KInv κ' S K ∧ κ' = { κ with phys := κ'.phys }) ∨ ∃ j, r = some (κ.proc j).pid ∧ Reaped i j S K κ κ') E
        { κ with phys := σ1 } := by
    intro σ1 r hK1 hfree
    rw [wp_ite]
    refine ⟨fun _ => wp_pure.2 (.inl ⟨hK1, rfl⟩), fun _ => ?_⟩
    rw [wp_bind]
    refine wp_post (hK1.freeproc_spec hSj) ?_
    intro _ κ' hF
    refine wp_pure.2 (.inr ⟨j, rfl, hpar, hzom, hF.kinv hK1, fun b => ?_, by rw [hF.eq], by rw [hF.eq]⟩)
    have hheld := Set.ext_iff.1 (hF.keeps.held_eq 0 le_rfl) b
    rw [mem_held_iff, mem_held_blocks] at hheld
    simpa only [Holdings.none, List.not_mem_nil, reduceCtorEq, exists_false, or_false, hfree] using hheld
  dsimp only
  by_cases haddr : addr = 0
  · rw [if_neg (not_not.2 haddr), wp_bind, wp_pure]
    exact rest hK fun _ => Iff.rfl
  · rw [if_pos haddr, wp_bind, wp_onPhys]
    refine wp_post (hK.copyout_spec hS addr _ 4) ?_
    rintro r σ1 ⟨hK1, hfree⟩
    exact rest hK1 hfree

structure Inited (j : Pid) (S : Pid → Option Space) (K : List Nat) (κ κ' : Kernel) (A : Space) : Prop where
  slot : S j = none
  kinv : KInv κ' (update S j (some A)) K
  tables : ∀ v q, A.dir v = .table q → v = 0 ∨ v = topChunk
  state : (κ'.proc j).state = .RUNNABLE
  sz : (κ'.proc j).sz = PGSIZE
  proc : ∀ k, k ≠ j → κ'.proc k = κ.proc k
  initproc : κ'.initproc = some j
  superpages : κ'.phys.superpages = κ.phys.superpages
  freelist : ∃ used, κ.phys.freelist = used ++ κ'.phys.freelist ∧ used.length ≤ 9

theorem userinit_spec (hK : KInv κ S K) (hslot : ∃ k, (κ.proc k).state = .UNUSED) (hmem : 10 ≤ κ.phys.freelist.length) :
    wp userinit (fun _ κ' => ∃ j A, Inited j S K κ κ' A) E κ := by
  unfold userinit
  rw [wp_bind]
  refine allocproc_spec hK (fun κ1 hF => ?_) fun j κ1 A hSj hA => ?_
  · obtain ⟨k, hk⟩ := hslot
    rcases hF.short with hall | hlen
    · exact absurd hk (hall k)
    · omega
  obtain ⟨used, hu, hul⟩ := hA.freelist
  have hlen : 4 ≤ κ1.phys.freelist.length := by
    have := congrArg List.length hu
    rw [List.length_append] at this
    omega
  have hhand : Block.page (κ1.proc j).trapframe ∈ (κ1.proc j).hand := by
    rw [Proc.hand_pos hA.trapframe]; exact List.mem_cons_self
  have hok := hA.live.sep.ok .hand _ hhand
  unfold setTrapframe
  simp only [wp_bind, wp_modify, wp_get, wp_onPhys, wp_setProc]
  rw [hA.pagetable]
  refine wp_post (uvmfirst_spec (fun k => initcode.getD k 0) hA.live hA.fresh (by decide) hlen) ?_
  rintro _ σ2 ⟨A2, hE, hI, htab, ⟨used2, hu2, hul2⟩, hsup⟩
  have hreg : ∀ {τ : Phys} (off w : Nat), off + 8 ≤ PGSIZE → Live τ A2 (κ1.proc j).hand →
      Evolves 0 τ A2 (κ1.proc j).hand { τ with mem := Bytes.storeLE τ.mem ((κ1.proc j).trapframe + off) 8 w } A2
        (κ1.proc j).hand := by
    intro τ off w hoff hL
    exact hL.write_hand 0 hhand (AgreeOff.write_page hok.1 (Set.mem_singleton _) (Nat.le_add_right _ _) (by omega))
  have hE1 := hreg 24 0 (by decide) hE.live
  have hE2 := hreg 48 PGSIZE (by decide) hE1.live
  have hEall := (hE.trans hE1).trans hE2
  refine ⟨j, A2, hSj, ?_, htab, ?_, ?_, fun k hkj => ?_, rfl, hsup.trans hA.superpages, used ++ used2, ?_, ?_⟩
  · have hK1 := hA.kinv hK hSj
    have hone : npages PGSIZE = 1 := npages_mul 1
    have hev := hK1.evolve (p := { κ1.proc j with sz := PGSIZE, state := .RUNNABLE, name := safestrcpy "initcode".toUTF8.toList nameSize })
      (update_self ..) hEall rfl rfl (by simp) (by rw [hone]; exact hI)
    rw [update_idem] at hev
    refine hev.congr rfl fun k => ?_
    simp only [update_idem, update_self, hA.pagetable, and_self]
  · simp only [update_self]
  · simp only [update_self]
  · simp only [update_of_ne hkj]
    exact hA.proc k hkj
  · rw [hu, hu2, List.append_assoc]
  · rw [List.length_append]
    omega

end Xv6
