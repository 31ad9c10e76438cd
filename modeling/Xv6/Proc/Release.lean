import Xv6.Proc.Replace

/-!
# Freeing an address space

`uvmunmap` takes an entry of level 1 for a superpage only if it has the bit
R; an executable superpage without it is freed as if it were a page, and the next page of it is not found any more.
-/

namespace Xv6

open Bytes (Mem)
open Hoare Ledger

variable {σ σ' : Phys} {A : Space} {h : List Block} {b : Block} {sz tf root last a : Nat} {α : Type} {x : PhysM α}
  {e : String} {doFree : Bool}

/-- What `kfree` gets: the page-table pages and the frames of the 4 KiB leaves below the trapframe page. -/
def Space.OwnsPage (A : Space) (p : Nat) : Prop :=
  (∃ x, A.tbl x = some p) ∨ ∃ k w, k < userPages ∧ A.pg k = some w ∧ pte2pa w = p

/-- What `superfree` gets: the frames of the 2 MiB leaves. -/
def Space.OwnsSuper (A : Space) (s : Nat) : Prop := ∃ v w, A.dir v = .leaf w ∧ pte2pa w = s

theorem Space.holdings_page_iff (A : Space) (p : Nat) : (∃ x, A.holdings x = some (.page p)) ↔ A.OwnsPage p := by
  constructor
  · rintro ⟨x | k | v, hx⟩
    · rw [Space.holdings_table] at hx
      obtain ⟨q, hq, he⟩ := Option.map_eq_some_iff.1 hx
      cases he
      exact .inl ⟨x, hq⟩
    · rw [Space.holdings] at hx
      split at hx
      next hk =>
        obtain ⟨w, hw, he⟩ := Option.map_eq_some_iff.1 hx
        exact .inr ⟨k, w, hk, hw, Block.page.inj he⟩
      next => cases hx
    · rcases hd : A.dir v with _ | q | w <;> simp [Space.holdings, hd] at hx
  · rintro (⟨x, hx⟩ | ⟨k, w, hk, hw, rfl⟩)
    · exact ⟨.table x, by rw [Space.holdings_table, hx]; rfl⟩
    · exact ⟨.page k, by rw [Space.holdings, if_pos hk, hw]; rfl⟩

theorem Space.holdings_super_iff (A : Space) (s : Nat) : (∃ x, A.holdings x = some (.super s)) ↔ A.OwnsSuper s := by
  constructor
  · rintro ⟨x | k | v, hx⟩
    · rw [Space.holdings_table] at hx
      obtain ⟨q, -, he⟩ := Option.map_eq_some_iff.1 hx
      cases he
    · rw [Space.holdings] at hx
      split at hx
      next =>
        obtain ⟨w, -, he⟩ := Option.map_eq_some_iff.1 hx
        cases he
      next => cases hx
    · rcases hd : A.dir v with _ | q | w <;> simp [Space.holdings, hd] at hx
      exact ⟨v, w, hd, hx⟩
  · rintro ⟨v, w, hd, rfl⟩
    exact ⟨.super v, by simp only [Space.holdings, hd]⟩

theorem Dissolved.free_iff (hD : Dissolved 0 σ A h σ') (hL : Live σ A h) (b : Block) :
    σ'.Free b ↔ (∃ x, A.holdings x = some b) ∨ σ.Free b := by
  have hheld := hD.keeps.dissolved_iff b
  constructor
  · intro hf
    rcases hheld.1 (.inl hf) with h' | h' | h'
    · exact .inr h'
    · exact absurd hf (hD.sep.hand_not_free h')
    · exact .inl h'
  · rintro (⟨x, hx⟩ | hf)
    · rcases hheld.2 (.inr (.inr ⟨x, hx⟩)) with h' | h'
      · exact h'
      · exact absurd h' (hL.sep.placed_not_hand hx)
    · rcases hheld.2 (.inl hf) with h' | h'
      · exact h'
      · exact absurd hf (hL.sep.hand_not_free h')

theorem freed_once {old new : List Nat} {P : Nat → Prop} (hsuf : old <:+ new) (hnd : new.Nodup)
    (hmem : ∀ p, p ∈ new ↔ P p ∨ p ∈ old) (hdisj : ∀ p, P p → p ∉ old) :
    ∃ freed, new = freed ++ old ∧ freed.Nodup ∧ ∀ p, p ∈ freed ↔ P p := by
  obtain ⟨freed, rfl⟩ := hsuf
  obtain ⟨hnd', -, hsep⟩ := List.nodup_append'.1 hnd
  refine ⟨freed, rfl, hnd', fun p => ⟨fun hp => ?_, fun hp => ?_⟩⟩
  · rcases (hmem p).1 (List.mem_append_left _ hp) with h | h
    · exact h
    · exact absurd h (List.disjoint_left.1 hsep hp)
  · rcases List.mem_append.1 ((hmem p).2 (.inl hp)) with h | h
    · exact h
    · exact absurd h (hdisj p hp)

/-- `procFreepagetable` of a process's address space does not panic. It frees its page-table pages and the frames of its leaves,
each of them once, and neither the trampoline nor the trapframe. -/
theorem freepagetable_frees_once (hL : Live σ A h) (hI : Image A (npages sz) tf) (htf : Block.page tf ∈ h) :
    ∃ σ', (procFreepagetable A.root sz).run σ = .ok ((), σ') ∧
      (∃ freed, σ'.freelist = freed ++ σ.freelist ∧ freed.Nodup ∧ (∀ p, p ∈ freed ↔ A.OwnsPage p) ∧
        tf ∉ freed ∧ trampoline ∉ freed) ∧
      ∃ freed, σ'.superpages = freed ++ σ.superpages ∧ freed.Nodup ∧ ∀ s, s ∈ freed ↔ A.OwnsSuper s := by
  obtain ⟨_, σ', hrun, hD⟩ := wp_false_iff.1 (procFreepagetable_spec (E := fun _ => False) hL hI)
  refine ⟨σ', hrun, ?_, ?_⟩
  · obtain ⟨freed, he, hnd, hmem⟩ := freed_once (P := A.OwnsPage) hD.freelist hD.sep.freelist_nodup
      (fun p => by rw [← Space.holdings_page_iff]; exact hD.free_iff hL (.page p))
      (fun p hp hf => by
        obtain ⟨x, hx⟩ := (Space.holdings_page_iff A p).2 hp
        exact hL.sep.placed_not_free hx hf)
    refine ⟨freed, he, hnd, hmem, fun hc => ?_, fun hc => ?_⟩
    · obtain ⟨x, hx⟩ := (Space.holdings_page_iff A tf).2 ((hmem tf).1 hc)
      exact hL.sep.placed_not_hand hx htf
    · -- the trampoline is a page of the kernel
      obtain ⟨x, hx⟩ := (Space.holdings_page_iff A trampoline).2 ((hmem trampoline).1 hc)
      exact absurd (hL.sep.placed_ok hx).2.1 (by decide)
  · exact freed_once (P := A.OwnsSuper) hD.superpages hD.sep.superpages_nodup
      (fun s => by rw [← Space.holdings_super_iff]; exact hD.free_iff hL (.super s))
      (fun s hs hf => by
        obtain ⟨x, hx⟩ := (Space.holdings_super_iff A s).2 hs
        exact hL.sep.placed_not_free hx hf)

/-- The address space of the first process is freed. -/
theorem freepagetable_frees_once_first : ∃ (w : World) (i : Pid) (P : Space),
    ∃ σ', (procFreepagetable P.root (w.kernel.proc i).sz).run w.kernel.phys = .ok ((), σ') ∧
      (∃ freed, σ'.freelist = freed ++ w.kernel.phys.freelist ∧ freed.Nodup ∧ (∀ p, p ∈ freed ↔ P.OwnsPage p) ∧
        (w.kernel.proc i).trapframe ∉ freed ∧ trampoline ∉ freed) ∧
      ∃ freed, σ'.superpages = freed ++ w.kernel.phys.superpages ∧ freed.Nodup ∧ ∀ s, s ∈ freed ↔ P.OwnsSuper s := by
  obtain ⟨w, i, P, -, hA, -⟩ := exists_first (fun _ _ => True) fun _ => trivial
  obtain ⟨S, hK, hS⟩ := hA.inv
  have hW := hK.wellFormed hS
  exact ⟨w, i, P, freepagetable_frees_once hW.live hW.image List.mem_cons_self⟩

private def value {α : Type} (x : PhysM α) (σ : Phys) : Option α := (x.run σ).toOption.map Prod.fst

private def after {α : Type} (x : PhysM α) (σ : Phys) : Phys := ((x.run σ).toOption.map Prod.snd).getD σ

private def message {α : Type} (x : PhysM α) (σ : Phys) : Option String :=
  (((x.run σ).bind fun _ => Except.error "").tryCatch Except.ok).toOption

theorem run_ok {v : α} (h : value x σ = some v) : x.run σ = .ok (v, after x σ) := by
  unfold value at h
  unfold after
  rcases hr : x.run σ with e | ⟨u, τ⟩ <;> rw [hr] at h <;> cases h
  rfl

theorem run_error (h : message x σ = some e) (hv : (value x σ).isNone = true) :
    x.run σ = .error e := by
  unfold message at h
  unfold value at hv
  rcases hr : x.run σ with e | ⟨u, τ⟩
  · rw [hr] at h
    cases h
    rfl
  · rw [hr] at hv
    cases hv

theorem uvmunmapLoop_page {τ τ' : Phys} (hlt : a < last)
    (hs : (superPteAt root a).run σ = .ok (none, τ)) (hp : (uvmunmapPage root a doFree).run τ = .ok ((), τ')) :
    (uvmunmapLoop root last doFree a).run σ = (uvmunmapLoop root last doFree (a + PGSIZE)).run τ' := by
  rw [uvmunmapLoop, dif_pos hlt, run_bind_ok hs]
  exact run_bind_ok hp

theorem uvmunmapLoop_panics (hlt : a < last)
    (hs : (superPteAt root a).run σ = .ok (none, σ)) (hp : (uvmunmapPage root a doFree).run σ = .error e) :
    (uvmunmapLoop root last doFree a).run σ = .error e := by
  rw [uvmunmapLoop, dif_pos hlt, run_bind_ok hs, StateT.run_bind, hp]
  rfl

theorem uvmunmapLoop_done (hge : ¬a < last) :
    (uvmunmapLoop root last doFree a).run σ = .ok ((), σ) := by
  rw [uvmunmapLoop, dif_neg hge]
  rfl

def sixPages : Phys :=
  ⟨fun _ => 0, [0x80021000, 0x80022000, 0x80023000, 0x80024000, 0x80025000, 0x80026000], []⟩

/-- The state of a page table built by `procPagetable` whose first 2 MiB are mapped by an executable superpage without the bit
R. -/
private def textSuper : Phys :=
  after (supermappages 0x80021000 0 superBase (PTE_X ||| PTE_U)) (after (procPagetable 0x80027000) sixPages)

/-- `procFreepagetable` panics on a superpage that is executable and not readable. -/
theorem free_without_r : ∃ σ₁ σ₂, (procPagetable 0x80027000).run sixPages = .ok (some 0x80021000, σ₁) ∧
    (supermappages 0x80021000 0 superBase (PTE_X ||| PTE_U)).run σ₁ = .ok (0, σ₂) ∧
    sv39Leaf σ₂.mem 0 2 0x80021000 = some (1, mkPte superBase (PTE_X ||| PTE_U)) ∧
    (procFreepagetable 0x80021000 SUPERPGSIZE).run σ₂ = .error "uvmunmap: walk" := by
  refine ⟨_, textSuper, run_ok (by decide +kernel), run_ok (by decide +kernel), by decide +kernel, ?_⟩
  -- the two high pages are unmapped
  have h1 : (uvmunmap 0x80021000 TRAMPOLINE 1 false).run textSuper =
      .ok ((), after (uvmunmapPage 0x80021000 TRAMPOLINE false) textSuper) := by
    rw [uvmunmap, if_neg (by decide), uvmunmapLoop_page (by decide) rfl (run_ok (by decide +kernel)), uvmunmapLoop_done (by decide)]
  have h2 : (uvmunmap 0x80021000 TRAPFRAME 1 false).run (after (uvmunmapPage 0x80021000 TRAMPOLINE false) textSuper) =
      .ok ((), after (uvmunmapPage 0x80021000 TRAPFRAME false) (after (uvmunmapPage 0x80021000 TRAMPOLINE false) textSuper)) := by
    rw [uvmunmap, if_neg (by decide), uvmunmapLoop_page (by decide) rfl (run_ok (by decide +kernel)), uvmunmapLoop_done (by decide)]
  rw [procFreepagetable, run_bind_ok h1, run_bind_ok h2, uvmfree, if_pos (by decide), StateT.run_bind, uvmunmap,
    if_neg (by decide), uvmunmapLoop_page (by decide +kernel) (run_ok (by decide +kernel)) (run_ok (by decide +kernel)),
    uvmunmapLoop_panics (e := "uvmunmap: walk") (by decide +kernel) rfl
      (run_error (by decide +kernel) (by decide +kernel))]
  rfl

end Xv6
