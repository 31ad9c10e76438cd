import Xv6.Proc.Break

/-!
# `exec` is all or nothing

The new image is made of blocks that were free, and the old one is freed only when nothing can fail any more.
-/

namespace Xv6

open Bytes (Mem)
open Hoare Ledger

variable {κ κ' : Kernel} {P A : Space} {h : List Block} {σ σ' σ2 σ3 : Phys} {i : Pid}

/-- The process `i` with its address space: the page table represents `P`, its leaves are the pages below `PGROUNDUP(p->sz)`, the
trapframe page and the trampoline, and no block of it is free or used twice. -/
structure WellFormed (κ : Kernel) (i : Pid) (P : Space) : Prop where
  live : Live κ.phys P [.page (κ.proc i).trapframe]
  root : P.root = (κ.proc i).pagetable
  image : Image P (npages (κ.proc i).sz) (κ.proc i).trapframe

theorem KInv.wellFormed {S : Pid → Option Space} {K : List Nat} (hK : KInv κ S K) (hS : S i = some P) : WellFormed κ i P := by
  have hp := hK.proc i
  rw [hS] at hp
  have hL := hK.live hS
  rw [Proc.hand_pos hp.2.1] at hL
  exact ⟨hL, hp.2.2.2.1, hp.2.2.2.2⟩

/-- What a failed `exec` leaves: the process table, the free blocks, and all memory that is not free. -/
structure Unchanged (κ κ' : Kernel) : Prop where
  table : κ' = { κ with phys := κ'.phys }
  free : ∀ b, κ'.phys.Free b ↔ κ.phys.Free b
  mem : AgreeOff {b | κ.phys.Free b} κ.phys.mem κ'.phys.mem

/-- What a successful `exec` leaves: a new address space made of free blocks, while exactly the blocks of the old one are freed. -/
structure Replaced (κ : Kernel) (i : Pid) (P : Space) (κ' : Kernel) (A : Space) : Prop where
  wellFormed : WellFormed κ' i A
  free : ∀ b, κ'.phys.Free b ↔ κ.phys.Free b ∧ (∀ x, A.holdings x ≠ some b) ∨ ∃ x, P.holdings x = some b
  trapframe : (κ'.proc i).trapframe = (κ.proc i).trapframe
  others : ∀ j, j ≠ i → κ'.proc j = κ.proc j

theorem Keeps.free_iff (hs : Sep σ Holdings.none h) (hs' : Sep σ' Holdings.none h)
    (hk : Keeps 0 σ Holdings.none h σ' Holdings.none h) (b : Block) : σ'.Free b ↔ σ.Free b := by
  have hheld := Set.ext_iff.1 (hk.held_eq 0 le_rfl) b
  simp only [mem_held_iff, Holdings.none, reduceCtorEq, exists_false, or_false] at hheld
  constructor
  · intro hf
    rcases hheld.1 (.inl hf) with h' | h'
    · exact h'
    · exact absurd hf (hs'.hand_not_free h')
  · intro hf
    rcases hheld.2 (.inl hf) with h' | h'
    · exact h'
    · exact absurd hf (hs.hand_not_free h')

theorem Sep.drop_hand {B : Holdings} (hs : Sep σ B h) : Sep σ B [] where
  exclusive := by
    refine hs.exclusive.mono fun o b ho => ?_
    rcases o with _ | _ | x
    · exact ho
    · cases ho
    · exact ho
  ok := by
    rintro (_ | _ | x) b ho
    · exact hs.ok .free b ho
    · cases ho
    · exact hs.ok (.at x) b ho
  freelist_nodup := hs.freelist_nodup
  superpages_nodup := hs.superpages_nodup
  hand_nodup := List.nodup_nil

theorem Live.replace_free (hP : Live σ P h) (hk : Keeps 0 σ Holdings.none h σ2 A.holdings h) (hA : Live σ2 A h)
    (hD : Dissolved 0 σ2 P h σ3) (b : Block) :
    σ3.Free b ↔ σ.Free b ∧ (∀ x, A.holdings x ≠ some b) ∨ ∃ x, P.holdings x = some b := by
  have hfreed := hD.keeps.dissolved_iff b
  have hbuilt := hk.built_iff b
  have hhand : b ∈ h → ¬σ3.Free b ∧ ¬σ.Free b ∧ ∀ x, P.holdings x ≠ some b := fun hb =>
    ⟨hD.sep.hand_not_free hb, hP.sep.hand_not_free hb, fun x hx => hP.sep.placed_not_hand hx hb⟩
  have hnew : σ2.Free b → ∀ x, A.holdings x ≠ some b := fun hf x hx => hA.sep.placed_not_free hx hf
  constructor
  · intro hf
    rcases hfreed.1 (.inl hf) with hf2 | hb | hx
    · rcases hbuilt.1 (.inl hf2) with h' | h'
      · exact .inl ⟨h', hnew hf2⟩
      · exact absurd hf (hhand h').1
    · exact absurd hf (hhand hb).1
    · exact .inr hx
  · rintro (⟨hf, hA'⟩ | hx)
    · rcases hbuilt.2 (.inl hf) with hf2 | hb | ⟨x, hx⟩
      · rcases hfreed.2 (.inl hf2) with h' | h'
        · exact h'
        · exact absurd hf (hhand h').2.1
      · exact absurd hf (hhand hb).2.1
      · exact absurd hx (hA' x)
    · rcases hfreed.2 (.inr (.inr hx)) with h' | h'
      · exact h'
      · obtain ⟨x, hx⟩ := hx
        exact absurd hx ((hhand h').2.2 x)

/-- `exec` of a well-formed process returns for every file and all arguments; the segments of the file that it has loaded have
the permissions that `uvmalloc` gave them. -/
theorem exec_replaces (hW : WellFormed κ i P) (path : List UInt8) (file : Option (List UInt8)) (argv : List (List UInt8)) :
    wp (exec i path file argv) (fun r κ' => r = -1 ∧ Unchanged κ κ' ∨ r = argv.length ∧ ∃ A bytes, Replaced κ i P κ' A ∧
      file = some bytes ∧ ∀ s ∈ fileSegments bytes, A.Granted s) (fun _ => False) κ := by
  obtain ⟨hP, hroot, hI⟩ := hW
  have hhand : Block.page (κ.proc i).trapframe ∈ [Block.page (κ.proc i).trapframe] := List.mem_cons_self
  have hok := hP.sep.ok .hand _ hhand
  have htf := hP.sep.hand_not_free hhand
  unfold exec
  rcases file with _ | file
  · exact wp_pure.2 (.inl ⟨rfl, rfl, fun _ => Iff.rfl, AgreeOff.refl⟩)
  simp only [wp_bind, wp_get, wp_onPhys]
  -- for a failure the trapframe page is left out of the ledger
  refine wp_mono (wp_and (execImage_spec (E := fun _ => False) hP.sep.drop.drop_hand hok.pageAddr htf)
    (execImage_spec (E := fun _ => False) hP.sep.drop hok.pageAddr htf)) ?_ fun _ hf => hf.1
  rintro r σ1 ⟨hfail, hmade⟩
  rcases r with _ | ⟨pagetable, sz, sp⟩
  · rcases hfail with ⟨-, hs1, hk1⟩ | ⟨A, sz, sp, hr, -⟩
    · refine wp_pure.2 (.inl ⟨rfl, rfl, hk1.free_iff hP.sep.drop.drop_hand hs1, hk1.agree.mono fun b hb => ?_⟩)
      rcases mem_held_iff.1 hb with hf | hb | ⟨x, hx⟩
      · exact hf
      · cases hb
      · cases hx
    · cases hr
  · rcases hmade with ⟨hr, -⟩ | ⟨A, sz', sp', hr, hM, -, hseg⟩
    · cases hr
    cases hr
    unfold setTrapframe
    simp only [wp_bind, wp_onPhys, wp_modify, wp_setProc]
    have hE := hM.live.setRegs hhand sp (field (readFile file 0 elfhdrSize) 24 8) sp
    rw [← hroot]
    refine wp_post (procFreepagetable_spec (hP.beside hE.live.sep (hM.keeps.trans hE.keeps)) hI) ?_
    intro _ σ3 hD
    obtain ⟨hL3, -⟩ := hP.replace (hM.keeps.trans hE.keeps) hE.live hD
    refine wp_pure.2 (.inr ⟨rfl, A, file, ⟨⟨?_, ?_, ?_⟩,
      hP.replace_free (hM.keeps.trans hE.keeps) hE.live hD, ?_, fun j hj => Function.update_of_ne hj _ _⟩, rfl, hseg⟩)
    · simp only [Function.update_self]
      exact hL3
    · simp only [Function.update_self]
    · simp only [Function.update_self]
      exact hM.image
    · simp only [Function.update_self]

/-- `exec` of a well-formed process returns for every file and all arguments. If it fails then the process table, the free blocks
and all memory that is not free are as before; if it succeeds, exactly the blocks of the old image have been freed. -/
theorem exec_all_or_nothing (hW : WellFormed κ i P) (path : List UInt8) (file : Option (List UInt8)) (argv : List (List UInt8)) :
    ∃ r κ', (exec i path file argv).run κ = .ok (r, κ') ∧
      (r = -1 ∧ Unchanged κ κ' ∨ r = argv.length ∧ ∃ A, Replaced κ i P κ' A) := by
  obtain ⟨r, κ', hrun, h⟩ := wp_false_iff.1 (exec_replaces hW path file argv)
  refine ⟨r, κ', hrun, h.imp_right ?_⟩
  rintro ⟨hr, A, -, hA, -⟩
  exact ⟨hr, A, hA⟩

end Xv6
