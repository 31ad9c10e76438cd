import Xv6.Kalloc.Linked

/-!
# The linked allocators refine the lists

The page tables and the processes are built on `Phys`, where the free pages and superpages are lists. A client of the allocators can
be run on either level; it gets the same answers, as long as it keeps away from the free pages.
-/

namespace Xv6.Kmem

open List (forall_mem_cons)
open Hoare (wp run_bind_ok)
open Bytes (Mem fill storeLE)
open Chain (Links)

def kalloc : Kern Alloc Nat := do
  let r ← kallocPop
  kallocFill r
  return r

def superalloc : Kern Alloc Nat := do
  let pg ← superallocPop
  superallocFill pg
  return pg

def superfree (pa : Nat) : Kern Alloc Unit := do
  superfreeFill pa
  superfreePush pa

/-- A call of an allocator, or an access to a byte of memory. -/
inductive Req where
  | kalloc
  | kfree (pa : Nat)
  | superalloc
  | superfree (pa : Nat)
  | load (x : Nat)
  | store (x : Nat) (v : UInt8)

/-- What the pointers and the array do; a null pointer is 0, and so is the answer of a call that has none. -/
def Req.linked : Req → Kern Alloc Nat
  | .kalloc => Kmem.kalloc
  | .kfree pa => do Kmem.kfree pa; return 0
  | .superalloc => Kmem.superalloc
  | .superfree pa => do Kmem.superfree pa; return 0
  | .load x => do return ((← get).mem x).toNat
  | .store x v => do memset x v 1; return 0

/-- What the lists do. -/
def Req.listed : Req → PhysM Nat
  | .kalloc => do return (← Xv6.kalloc).getD 0
  | .kfree pa => do Xv6.kfree pa; return 0
  | .superalloc => do return (← Xv6.superalloc).getD 0
  | .superfree pa => do Xv6.superfree pa; return 0
  | .load x => do return ((← get).mem x).toNat
  | .store x v => do Xv6.memset x v 1; return 0

/-- A program whose next request depends on the answers so far. -/
inductive Client (α : Type) where
  | ret (v : α)
  | req (r : Req) (k : Nat → Client α)

def Client.run {α σ : Type} (f : Req → Kern σ Nat) : Client α → Kern σ α
  | .ret v => pure v
  | .req r k => do (k (← f r)).run f

/-- Only pages of `kmem` that are not free are freed to it, and no free page is read or written. -/
def Req.Fair (σ : Phys) : Req → Prop
  | .kfree pa => pa < superBase ∧ pa ∉ σ.freelist
  | .load x | .store x _ => ∀ p ∈ σ.freelist, x < p ∨ p + PGSIZE ≤ x
  | _ => True

def Client.Fair {α : Type} : Client α → Phys → Prop
  | .ret _, _ => True
  | .req r k, σ => r.Fair σ ∧ wp r.listed (fun v σ' => (k v).Fair σ') (fun _ => True) σ

/-- The lists are what the pointers and the array hold, and the memories agree outside of the links. -/
structure Abs (a : Alloc) (σ : Phys) : Prop where
  freelist : a.freelist = σ.freelist.headD 0
  links : Links (link a.mem) σ.freelist 0
  slots : Slots a.superpages a.nfree σ.superpages
  page : ∀ p ∈ σ.freelist, Page p
  nodup : σ.freelist.Nodup
  super : ∀ p ∈ σ.superpages, Super p
  mem : ∀ x, (∀ p ∈ σ.freelist, x < p ∨ p + 8 ≤ x) → a.mem x = σ.mem x

/-- Both levels return the same value, or panic with the same message. -/
def Same {α : Type} : Except String (α × Alloc) → Except String (α × Phys) → Prop
  | .ok (v, a), .ok (w, σ) => v = w ∧ Abs a σ
  | .error e, .error e' => e = e'
  | _, _ => False

variable {α β : Type} {a : Alloc} {σ : Phys} {m m' : Mem} {p : Nat} {v : UInt8} {P : Nat → Prop}

theorem Same.bind {x : Kern Alloc α} {y : PhysM α} {f : α → Kern Alloc β} {g : α → PhysM β} (h : Same (x.run a) (y.run σ))
    (hk : ∀ v a' σ', y.run σ = .ok (v, σ') → Abs a' σ' → Same ((f v).run a') ((g v).run σ')) :
    Same ((x >>= f).run a) ((y >>= g).run σ) := by
  rw [StateT.run_bind, StateT.run_bind]
  rcases hx : x.run a with e | ⟨v, a'⟩ <;> rcases hy : y.run σ with e' | ⟨w, σ'⟩ <;> rw [hx, hy] at h
  · exact h
  · exact h.elim
  · exact h.elim
  · obtain ⟨rfl, h⟩ := h
    exact hk v a' σ' hy h

theorem agree_fill {n : Nat} (h : ∀ x, P x → (x < p ∨ p + n ≤ x) → m x = m' x) :
    ∀ x, P x → fill m p n v x = fill m' p n v x := by
  intro x hx
  by_cases hin : p ≤ x ∧ x < p + n
  · rw [Bytes.fill_inside hin.1 hin.2, Bytes.fill_inside hin.1 hin.2]
  · rw [Bytes.fill_outside (by omega), Bytes.fill_outside (by omega), h x hx (by omega)]

theorem Abs.kalloc (h : Abs a σ) : Same (Kmem.kalloc.run a) (Req.kalloc.listed.run σ) := by
  obtain ⟨m, l, sl⟩ := σ
  unfold Kmem.kalloc
  cases l with
  | nil =>
    rw [run_bind_ok (kallocPop_nil h.freelist)]
    exact ⟨rfl, h⟩
  | cons r rest =>
    obtain ⟨hpage, hrest⟩ := forall_mem_cons.1 h.page
    obtain ⟨hr, hnodup⟩ := List.nodup_cons.1 h.nodup
    rw [run_bind_ok (kallocPop_cons (r := r) h.freelist hpage.pos h.links), kallocFill, if_pos hpage.pos]
    refine ⟨rfl, rfl, links_fill h.links.2 (fun q hq => ⟨hrest q hq, ne_of_mem_of_not_mem hq hr⟩) hpage, h.slots, hrest,
      hnodup, h.super, agree_fill fun x hx hout => h.mem x ?_⟩
    exact forall_mem_cons.2 ⟨by lia, hx⟩

theorem Abs.kfree {pa : Nat} (h : Abs a σ) (hpa : pa < superBase ∧ pa ∉ σ.freelist) :
    Same ((Kmem.kfree pa).run a) ((Xv6.kfree pa).run σ) := by
  unfold Kmem.kfree kfreeFill Xv6.kfree
  split
  · rfl
  · have hpage : Page pa := ⟨by lia, by lia, hpa.1⟩
    have hnot : ∀ q ∈ σ.freelist, Page q ∧ q ≠ pa := fun q hq => ⟨h.page q hq, ne_of_mem_of_not_mem hq hpa.2⟩
    have hlinks := links_push (links_fill (v := 1) h.links hnot hpage) hnot hpage
    rw [← h.freelist] at hlinks
    refine ⟨rfl, rfl, hlinks, h.slots, forall_mem_cons.2 ⟨hpage, h.page⟩, List.nodup_cons.2 ⟨hpa.2, h.nodup⟩, h.super,
      fun x hx => ?_⟩
    obtain ⟨hx, hrest⟩ := forall_mem_cons.1 hx
    exact (Bytes.storeLE_outside hx).trans (agree_fill (fun x hx _ => h.mem x hx) x hrest)

theorem Abs.superalloc (h : Abs a σ) : Same (Kmem.superalloc.run a) (Req.superalloc.listed.run σ) := by
  obtain ⟨m, l, sl⟩ := σ
  unfold Kmem.superalloc
  cases sl with
  | nil =>
    rw [run_bind_ok (superallocPop_nil h.slots)]
    exact ⟨rfl, h⟩
  | cons pg rest =>
    obtain ⟨hsuper, hrest⟩ := forall_mem_cons.1 h.super
    rw [run_bind_ok (superallocPop_cons h.slots), superallocFill, if_pos hsuper.pos]
    exact ⟨rfl, h.freelist, links_fill_super h.links h.page hsuper, h.slots.2, h.page, h.nodup, hrest,
      agree_fill fun x hx _ => h.mem x hx⟩

theorem Abs.superfree (h : Abs a σ) (pa : Nat) : Same ((Kmem.superfree pa).run a) ((Xv6.superfree pa).run σ) := by
  unfold Kmem.superfree superfreeFill Xv6.superfree
  split
  · rfl
  · split
    · rfl
    · have hsuper : Super pa := ⟨by lia, by lia, by lia⟩
      have hlen := h.slots.length
      change Same ((if a.nfree ≥ (NSUPERPAGES : Nat) then panic _ else _ : Kern Alloc Unit).run { a with mem := _ })
        ((if σ.superpages.length ≥ NSUPERPAGES then panic _ else _ : PhysM Unit).run { σ with mem := _ })
      by_cases hfull : σ.superpages.length ≥ NSUPERPAGES
      · rw [if_pos (by lia), if_pos hfull]
        rfl
      · rw [if_neg (by lia), if_neg hfull]
        exact ⟨rfl, h.freelist, links_fill_super h.links h.page hsuper, h.slots.push pa, h.page, h.nodup,
          forall_mem_cons.2 ⟨hsuper, h.super⟩, agree_fill fun x hx _ => h.mem x hx⟩

theorem Abs.ask (h : Abs a σ) {r : Req} (hr : r.Fair σ) : Same (r.linked.run a) (r.listed.run σ) := by
  cases r with
  | kalloc => exact h.kalloc
  | kfree pa => exact (h.kfree hr).bind fun _ _ _ _ h' => ⟨rfl, h'⟩
  | superalloc => exact h.superalloc
  | superfree pa => exact (h.superfree pa).bind fun _ _ _ _ h' => ⟨rfl, h'⟩
  | load x =>
    refine ⟨congrArg UInt8.toNat (h.mem x fun p hp => ?_), h⟩
    have := hr p hp
    lia
  | store x v =>
    refine ⟨rfl, h.freelist, links_congr h.links fun p hp y h1 h2 => Bytes.fill_outside ?_, h.slots, h.page, h.nodup, h.super,
      agree_fill fun y hy _ => h.mem y hy⟩
    have := hr p hp
    lia

theorem Abs.client (h : Abs a σ) (c : Client α) (hc : c.Fair σ) : Same ((c.run Req.linked).run a) ((c.run Req.listed).run σ) := by
  induction c generalizing a σ with
  | ret v => exact ⟨rfl, h⟩
  | req r k ih => exact (h.ask hc.1).bind fun v a' σ' hok h' => ih v h' (Hoare.wp_ok (Q := fun v σ' => (k v).Fair σ') hc.2 hok)

/-- From boot on, the pointers and the array stand for lists, and every client that keeps away from free pages gets the same answers
from them as from the lists, reads the same bytes and panics with the same message. -/
theorem linked_allocators_refine_lists {a : Alloc} (h : a.freelist = 0) : ∃ a' σ, kinit.run a = .ok ((), a') ∧ Abs a' σ ∧
    ∀ (α : Type) (c : Client α), c.Fair σ → Same ((c.run Req.linked).run a') ((c.run Req.listed).run σ) := by
  obtain ⟨a', l, sl, hrun, hs⟩ := kinit_sound h
  have habs : Abs a' ⟨a'.mem, l, sl⟩ := ⟨hs.freelist, hs.links, hs.slots, fun _ => hs.free_page, (List.nodup_append.1 hs.nodup).1,
    fun p hp => hs.super p (List.mem_append_left _ hp), fun _ _ => rfl⟩
  exact ⟨a', _, hrun, habs, fun _ => habs.client⟩

theorem linked_allocators_refine_lists_kalloc : ∃ a' σ, kinit.run ⟨fun _ => 0, 0, fun _ => 0, 0⟩ = .ok ((), a') ∧
    Same (((Client.req .kalloc .ret).run Req.linked).run a') (((Client.req .kalloc .ret).run Req.listed).run σ) := by
  obtain ⟨a', σ, hrun, -, hc⟩ := linked_allocators_refine_lists (a := ⟨fun _ => 0, 0, fun _ => 0, 0⟩) rfl
  exact ⟨a', σ, hrun, hc _ _ ⟨trivial, Hoare.wp_of_all (fun _ _ => trivial) fun _ => trivial⟩⟩

end Xv6.Kmem
