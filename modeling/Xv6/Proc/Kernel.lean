import Xv6.Proc.Exec

/-!
# The memory of all processes

`KInv κ S K` is the invariant of the kernel between two operations. `S i` is the address space of the process in slot `i`, and `K`
lists the pages that other kernel code holds. The free lists, the blocks of each process and `K` are disjoint, and together they are
all the memory that the kernel hands out. `KInv.setProc` carries an operation on one process over to the whole kernel.
-/

namespace Xv6

open Function (update update_of_ne update_self)
open Bytes (Mem)
open Hoare Ledger

def Proc.hand (p : Proc) : List Block := if p.trapframe = 0 then [] else [.page p.trapframe]

def holdingsOf : Option Space → Holdings
  | none => Holdings.none
  | some A => A.holdings

def Proc.blocks (p : Proc) (S : Option Space) : Set Block := {b | b ∈ p.hand ∨ ∃ x, holdingsOf S x = some b}

def ProcOk (m : Mem) (p : Proc) : Option Space → Prop
  | none => p.state = .UNUSED ∧ p.sz = 0 ∧ p.pagetable = 0 ∧ p.trapframe = 0
  | some A => p.state ≠ .UNUSED ∧ p.trapframe ≠ 0 ∧ Rep m A ∧ A.root = p.pagetable ∧ Image A (npages p.sz) p.trapframe

structure KInv (κ : Kernel) (S : Pid → Option Space) (K : List Nat) : Prop where
  sep : ∀ i, Sep κ.phys (holdingsOf (S i)) (κ.proc i).hand
  apart : ∀ {i j b}, i ≠ j → b ∈ (κ.proc i).blocks (S i) → b ∉ (κ.proc j).blocks (S j)
  nodup : K.Nodup
  ok : ∀ {p}, p ∈ K → (Block.page p).Ok
  not_free : ∀ {p}, p ∈ K → ¬κ.phys.Free (.page p)
  kernel : ∀ {p i}, p ∈ K → .page p ∉ (κ.proc i).blocks (S i)
  total : ∀ {b}, b.Ok → κ.phys.Free b ∨ (∃ i, b ∈ (κ.proc i).blocks (S i)) ∨ ∃ p ∈ K, b = .page p
  proc : ∀ i, ProcOk κ.phys.mem (κ.proc i) (S i)

variable {κ κ' : Kernel} {S : Pid → Option Space} {S' : Option Space} {K : List Nat} {σ σ' : Phys} {A A' : Space}
  {B B' C : Holdings} {g h h' : List Block} {b : Block} {m m' : Mem} {E : String → Prop} {i j : Pid} {tf sz : Nat}

theorem mem_held_iff : b ∈ held (Owns 0 σ B h) ↔ σ.Free b ∨ b ∈ h ∨ ∃ x, B x = some b := by
  constructor
  · rintro ⟨_ | _ | x, ho⟩
    · exact .inl ho
    · exact .inr (.inl ho)
    · exact .inr (.inr ⟨x, ho.2⟩)
  · rintro (hb | hb | ⟨x, hx⟩)
    · exact ⟨.free, hb⟩
    · exact ⟨.hand, hb⟩
    · exact ⟨.at x, x.from_zero, hx⟩

theorem Keeps.built_iff (hk : Keeps 0 σ Holdings.none h σ' B h') (b : Block) :
    (σ'.Free b ∨ b ∈ h' ∨ ∃ x, B x = some b) ↔ σ.Free b ∨ b ∈ h := by
  have := Set.ext_iff.1 (hk.held_eq 0 le_rfl) b
  simpa only [mem_held_iff, Holdings.none, reduceCtorEq, exists_false, or_false] using this

theorem Keeps.dissolved_iff (hk : Keeps 0 σ B h σ' Holdings.none h') (b : Block) :
    σ'.Free b ∨ b ∈ h' ↔ σ.Free b ∨ b ∈ h ∨ ∃ x, B x = some b := by
  have := Set.ext_iff.1 (hk.held_eq 0 le_rfl) b
  simpa only [mem_held_iff, Holdings.none, reduceCtorEq, exists_false, or_false] using this

theorem mem_held_blocks {p : Proc} : b ∈ held (Owns 0 σ (holdingsOf S') p.hand) ↔ σ.Free b ∨ b ∈ p.blocks S' :=
  mem_held_iff

theorem Sep.frame (hs : Sep σ C g) (hs' : Sep σ' B' h') (hC : ∀ x b, C x = some b → ¬σ'.Free b)
    (hg : ∀ b ∈ g, ¬σ'.Free b) : Sep σ' C g where
  exclusive := by
    intro o o' b ho ho'
    rcases o with _ | _ | x <;> rcases o' with _ | _ | y
    · rfl
    · exact absurd ho (hg b ho')
    · exact absurd ho (hC y b ho'.2)
    · exact absurd ho' (hg b ho)
    · rfl
    · exact absurd ho (hs.placed_not_hand ho'.2)
    · exact absurd ho' (hC x b ho.2)
    · exact absurd ho' (hs.placed_not_hand ho.2)
    · rw [hs.placed_inj ho.2 ho'.2]
  ok := by
    rintro (_ | _ | x) b ho
    · exact hs'.ok .free b ho
    · exact hs.ok .hand b ho
    · exact hs.ok (.at x) b ho
  freelist_nodup := hs'.freelist_nodup
  superpages_nodup := hs'.superpages_nodup
  hand_nodup := hs.hand_nodup

theorem Owns.drop {o : Owner} (ho : Owns 0 σ Holdings.none h o b) : Owns 0 σ B h o b := by
  rcases o with _ | _ | x
  · exact ho
  · exact ho
  · cases ho.2

theorem Sep.drop (hs : Sep σ B h) : Sep σ Holdings.none h where
  exclusive := hs.exclusive.mono fun _ _ ho => ho.drop
  ok o b ho := hs.ok o b ho.drop
  freelist_nodup := hs.freelist_nodup
  superpages_nodup := hs.superpages_nodup
  hand_nodup := hs.hand_nodup

theorem Sep.held_ok (hs : Sep σ B h) (hb : b ∈ held (Owns 0 σ B h)) : b.Ok := by
  obtain ⟨o, ho⟩ := hb
  exact hs.ok o b ho

theorem Rep.frame_ledger (hr : Rep m A) (hs : Sep σ' A.holdings g) (hB : Sep σ B h)
    (ha : AgreeOff (held (Owns 0 σ B h)) m m') (hA : ∀ x b, A.holdings x = some b → b ∉ held (Owns 0 σ B h)) : Rep m' A :=
  hr.agree hs ha (fun x b hx => hA (.table x) b hx) fun _ hb => hB.held_ok hb

section

variable (hK : KInv κ S K)
include hK

theorem KInv.live (hS : S i = some A) : Live κ.phys A (κ.proc i).hand := by
  have hp := hK.proc i
  have hs := hK.sep i
  rw [hS] at hp hs
  exact ⟨hp.2.2.1, hs⟩

theorem KInv.image (hS : S i = some A) : Image A (npages (κ.proc i).sz) (κ.proc i).trapframe := by
  have hp := hK.proc i
  rw [hS] at hp
  exact hp.2.2.2.2

theorem KInv.used (hS : S i = some A) : (κ.proc i).state ≠ .UNUSED := by
  have hp := hK.proc i
  rw [hS] at hp
  exact hp.1

theorem KInv.root (hS : S i = some A) : A.root = (κ.proc i).pagetable := by
  have hp := hK.proc i
  rw [hS] at hp
  exact hp.2.2.2.1

theorem KInv.not_held (hij : j ≠ i) (hb : b ∈ (κ.proc j).blocks (S j)) :
    b ∉ held (Owns 0 κ.phys (holdingsOf (S i)) (κ.proc i).hand) := by
  rw [mem_held_blocks]
  rintro (hf | hi)
  · rcases hb with hb | ⟨x, hx⟩
    · exact (hK.sep j).hand_not_free hb hf
    · exact (hK.sep j).placed_not_free hx hf
  · exact hK.apart hij hb hi

theorem KInv.setProc (i : Pid) (hp : ∀ j, j ≠ i → κ'.proc j = κ.proc j)
    (hs : Sep κ'.phys (holdingsOf S') (κ'.proc i).hand)
    (hk : Keeps 0 κ.phys (holdingsOf (S i)) (κ.proc i).hand κ'.phys (holdingsOf S') (κ'.proc i).hand)
    (hi : ProcOk κ'.phys.mem (κ'.proc i) S') : KInv κ' (update S i S') K := by
  have hheld : ∀ b, κ'.phys.Free b ∨ b ∈ (κ'.proc i).blocks S' ↔ κ.phys.Free b ∨ b ∈ (κ.proc i).blocks (S i) := by
    intro b
    rw [← mem_held_blocks, ← mem_held_blocks, hk.held_eq 0 le_rfl]
  -- the blocks of another process are outside the ledger, before and after
  have hout : ∀ {j b}, j ≠ i → b ∈ (κ.proc j).blocks (S j) → ¬κ'.phys.Free b ∧ b ∉ (κ'.proc i).blocks S' := by
    intro j b hj hb
    have hn := hK.not_held hj hb
    rw [mem_held_blocks, ← hheld b] at hn
    exact not_or.1 hn
  have hblocks : ∀ {j}, j ≠ i → (κ'.proc j).blocks (update S i S' j) = (κ.proc j).blocks (S j) := by
    intro j hj
    rw [update_of_ne hj, hp j hj]
  have hblocksi : (κ'.proc i).blocks (update S i S' i) = (κ'.proc i).blocks S' := by rw [update_self]
  refine { sep := ?sep, apart := ?apart, nodup := hK.nodup, ok := hK.ok, not_free := ?not_free, kernel := ?kernel
           total := ?total, proc := ?proc }
  case sep =>
    intro j
    by_cases hj : j = i
    · rw [hj, update_self]; exact hs
    · rw [update_of_ne hj, hp j hj]
      exact (hK.sep j).frame hs (fun x b hx => (hout hj (.inr ⟨x, hx⟩)).1) fun b hb => (hout hj (.inl hb)).1
  case apart =>
    intro j k b hjk hb
    by_cases hj : j = i
    · subst hj
      rw [hblocksi] at hb
      rw [hblocks (Ne.symm hjk)]
      exact fun hc => (hout (Ne.symm hjk) hc).2 hb
    · rw [hblocks hj] at hb
      by_cases hki : k = i
      · subst hki
        rw [hblocksi]
        exact (hout hj hb).2
      · rw [hblocks hki]
        exact hK.apart hjk hb
  case not_free =>
    intro p hpK hf
    rcases (hheld _).1 (.inl hf) with hf | hb
    · exact hK.not_free hpK hf
    · exact hK.kernel hpK hb
  case kernel =>
    intro p j hpK hb
    by_cases hj : j = i
    · subst hj
      rw [hblocksi] at hb
      rcases (hheld _).1 (.inr hb) with hf | hb
      · exact hK.not_free hpK hf
      · exact hK.kernel hpK hb
    · rw [hblocks hj] at hb
      exact hK.kernel hpK hb
  case total =>
    intro b hb
    have hlocal : κ.phys.Free b ∨ b ∈ (κ.proc i).blocks (S i) →
        κ'.phys.Free b ∨ ∃ j, b ∈ (κ'.proc j).blocks (update S i S' j) := by
      intro hc
      rcases (hheld b).2 hc with hf | hb
      · exact .inl hf
      · exact .inr ⟨i, hblocksi ▸ hb⟩
    rcases hK.total hb with hf | ⟨j, hj⟩ | hk
    · rcases hlocal (.inl hf) with hf | hj
      · exact .inl hf
      · exact .inr (.inl hj)
    · by_cases hji : j = i
      · subst hji
        rcases hlocal (.inr hj) with hf | hj
        · exact .inl hf
        · exact .inr (.inl hj)
      · exact .inr (.inl ⟨j, by rw [hblocks hji]; exact hj⟩)
    · exact .inr (.inr hk)
  case proc =>
    intro j
    by_cases hj : j = i
    · rw [hj, update_self]; exact hi
    · rw [update_of_ne hj, hp j hj]
      have hpj := hK.proc j
      rcases hSj : S j with _ | A
      · rw [hSj] at hpj; exact hpj
      · rw [hSj] at hpj
        refine ⟨hpj.1, hpj.2.1, ?_, hpj.2.2.2⟩
        refine hpj.2.2.1.frame_ledger (hK.live hSj).sep (hK.sep i) hk.agree fun x b hx => hK.not_held hj (.inr ⟨x, ?_⟩)
        rw [hSj]; exact hx

theorem KInv.evolve {p : Proc} (hS : S i = some A)
    (hE : Evolves 0 κ.phys A (κ.proc i).hand σ' A' (κ.proc i).hand) (htf : p.trapframe = (κ.proc i).trapframe)
    (hpt : p.pagetable = (κ.proc i).pagetable) (hst : p.state ≠ .UNUSED) (hI : Image A' (npages p.sz) (κ.proc i).trapframe) :
    KInv { κ with phys := σ', proc := update κ.proc i p } (update S i (some A')) K := by
  have hp := hK.proc i
  rw [hS] at hp
  have hand : p.hand = (κ.proc i).hand := by unfold Proc.hand; rw [htf]
  have hself : update κ.proc i p i = p := update_self ..
  refine hK.setProc i (fun j hj => update_of_ne hj _ _) ?_ ?_ ?_
  · dsimp only
    rw [hself, hand]
    exact hE.live.sep
  · dsimp only
    rw [hself, hand, hS]
    exact hE.keeps
  · dsimp only
    rw [hself]
    exact ⟨hst, htf ▸ hp.2.1, hE.live.rep, by rw [hE.root, hpt]; exact hp.2.2.2.1, htf ▸ hI⟩

theorem KInv.congr (hph : κ'.phys = κ.phys)
    (hp : ∀ i, ((κ'.proc i).state = .UNUSED ↔ (κ.proc i).state = .UNUSED) ∧ (κ'.proc i).sz = (κ.proc i).sz ∧
      (κ'.proc i).pagetable = (κ.proc i).pagetable ∧ (κ'.proc i).trapframe = (κ.proc i).trapframe) : KInv κ' S K := by
  have hand : ∀ i, (κ'.proc i).hand = (κ.proc i).hand := fun i => by unfold Proc.hand; rw [(hp i).2.2.2]
  have hblocks : ∀ i, (κ'.proc i).blocks (S i) = (κ.proc i).blocks (S i) := fun i => by unfold Proc.blocks; rw [hand]
  refine ⟨?_, ?_, hK.nodup, hK.ok, ?_, ?_, ?_, ?_⟩
  · intro i; rw [hph, hand]; exact hK.sep i
  · intro i j b; rw [hblocks, hblocks]; exact hK.apart
  · rw [hph]; exact hK.not_free
  · intro p i; rw [hblocks]; exact hK.kernel
  · intro b hb; rw [hph]; simp only [hblocks]; exact hK.total hb
  · intro i
    have hi := hK.proc i
    obtain ⟨h1, h2, h3, h4⟩ := hp i
    rw [hph]
    rcases hSi : S i with _ | A
    · rw [hSi] at hi
      exact ⟨h1.2 hi.1, h2.trans hi.2.1, h3.trans hi.2.2.1, h4.trans hi.2.2.2⟩
    · rw [hSi] at hi
      refine ⟨fun hc => hi.1 (h1.1 hc), by rw [h4]; exact hi.2.1, hi.2.2.1, by rw [h3]; exact hi.2.2.2.1, ?_⟩
      rw [h2, h4]; exact hi.2.2.2.2

end

theorem wp_onPhys {α : Type} {x : PhysM α} {Q : α → Kernel → Prop} :
    wp (onPhys x) Q E κ ↔ wp x (fun a σ => Q a { κ with phys := σ }) E κ.phys := by
  refine wp_zoom (f := fun σ => { κ with phys := σ }) ?_
  simp only [onPhys, StateT.run]
  cases x κ.phys <;> rfl

theorem wp_setProc {f : Proc → Proc} {Q : Unit → Kernel → Prop} :
    wp (setProc i f) Q E κ ↔ Q () { κ with proc := update κ.proc i (f (κ.proc i)) } := Iff.rfl

end Xv6
