import Mathlib.Data.List.Perm.Subperm
import Xv6.Lib.Ledger
import Xv6.Vm.Walk

/-!
# Who owns which block

The allocators hand out blocks: 4 KiB pages and 2 MiB superpages. While the kernel works on one address space, each block has one
owner: a free list, the running code (`hand`), or a place of the address space, which is a page-table page, a mapped page or a
mapped superpage. `Sep` says that no block has two owners and that every block lies in the pool of its kind; a step of the code
moves one block from an owner to another. `Keeps` adds that memory outside these blocks is unchanged.

The parameter `lo` restricts the ledger to the places at or above page `lo`.
-/

namespace Xv6

open List (mem_cons mem_cons_self nodup_cons)
open Function (update)
open Bytes (Mem fill)
open Hoare Ledger

inductive Block where
  | page (p : Nat)
  | super (s : Nat)
  deriving DecidableEq

def Block.Ok : Block → Prop
  | .page p => p % PGSIZE = 0 ∧ kernelEnd ≤ p ∧ p < superBase
  | .super s => s % SUPERPGSIZE = 0 ∧ superBase ≤ s ∧ s < PHYSTOP

def Phys.Free (σ : Phys) : Block → Prop
  | .page p => p ∈ σ.freelist
  | .super s => s ∈ σ.superpages

inductive Place where
  | table (x : Node)
  | page (n : Nat)
  | super (v : Nat)
  deriving DecidableEq

/-- The place is a page-table page or maps pages at or above `lo`. -/
def Place.From (lo : Nat) : Place → Prop
  | .table _ => True
  | .page n => lo ≤ n
  | .super v => lo ≤ v * 512

abbrev Holdings := Place → Option Block

def Holdings.none : Holdings := fun _ => .none

/-- The pages below the trapframe page: only these hold frames of their own. -/
abbrev userPages : Nat := 67108862

def Space.holdings (A : Space) : Holdings
  | .table x => (A.tbl x).map .page
  | .page n => if n < userPages then (A.pg n).map fun w => .page (pte2pa w) else none
  | .super v => match A.dir v with
    | .leaf w => some (.super (pte2pa w))
    | _ => none

inductive Owner where
  | free
  | hand
  | at (x : Place)
  deriving DecidableEq

/-- The ledger: `h` is what the running code has taken and not yet placed. -/
def Owns (lo : Nat) (σ : Phys) (B : Holdings) (h : List Block) : Owner → Block → Prop
  | .free, b => σ.Free b
  | .hand, b => b ∈ h
  | .at x, b => x.From lo ∧ B x = some b

structure Sep (σ : Phys) (B : Holdings) (h : List Block) : Prop where
  exclusive : Exclusive (Owns 0 σ B h)
  ok : ∀ o b, Owns 0 σ B h o b → b.Ok
  freelist_nodup : σ.freelist.Nodup
  superpages_nodup : σ.superpages.Nodup
  hand_nodup : h.Nodup

/-- The memories differ inside the blocks of `X` only. -/
def AgreeOff (X : Set Block) (m m' : Mem) : Prop :=
  ∀ a, Block.page (pgrounddown a) ∉ X → Block.super (a / SUPERPGSIZE * SUPERPGSIZE) ∉ X → m' a = m a

/-- The blocks owned are the same, from any place up to `lo`, and memory outside those from `lo` is unchanged. -/
structure Keeps (lo : Nat) (σ : Phys) (B : Holdings) (h : List Block) (σ' : Phys) (B' : Holdings) (h' : List Block) :
    Prop where
  held_eq : ∀ l ≤ lo, held (Owns l σ' B' h') = held (Owns l σ B h)
  agree : AgreeOff (held (Owns lo σ B h)) σ.mem σ'.mem

variable {σ σ' σ'' : Phys} {B B' B'' : Holdings} {h h' h'' : List Block} {b b' : Block} {lo l p a n : Nat}
  {m m' m'' : Mem} {X Y : Set Block} {o : Owner} {f : Nat → UInt8} {s : Nat} {c : UInt8} {x : Place}

theorem AgreeOff.refl : AgreeOff X m m := fun _ _ _ => rfl

theorem AgreeOff.trans (h1 : AgreeOff X m m') (h2 : AgreeOff X m' m'') : AgreeOff X m m'' := fun a ha hs =>
  (h2 a ha hs).trans (h1 a ha hs)

theorem AgreeOff.mono (h : AgreeOff X m m') (hXY : X ⊆ Y) : AgreeOff Y m m' := fun a ha hs =>
  h a (fun hc => ha (hXY hc)) fun hc => hs (hXY hc)

theorem AgreeOff.write_page (hp : p % PGSIZE = 0) (hX : .page p ∈ X) (h1 : p ≤ a)
    (h2 : a + n ≤ p + PGSIZE) : AgreeOff X m (Bytes.write m a n f) := by
  intro x hx _
  apply Bytes.write_outside
  by_contra hc
  apply hx
  have : pgrounddown x = p := by unfold pgrounddown; lia
  rwa [this]

theorem AgreeOff.write_super (hs : s % SUPERPGSIZE = 0) (hX : .super s ∈ X)
    (h1 : s ≤ a) (h2 : a + n ≤ s + SUPERPGSIZE) : AgreeOff X m (Bytes.write m a n f) := by
  intro x _ hx
  apply Bytes.write_outside
  by_contra hc
  apply hx
  have : x / SUPERPGSIZE * SUPERPGSIZE = s := by lia
  rwa [this]

theorem AgreeOff.fill_page (hp : p % PGSIZE = 0) (hX : .page p ∈ X) :
    AgreeOff X m (fill m p PGSIZE c) := AgreeOff.write_page hp hX le_rfl le_rfl

theorem AgreeOff.fill_super (hs : s % SUPERPGSIZE = 0) (hX : .super s ∈ X) :
    AgreeOff X m (fill m s SUPERPGSIZE c) := AgreeOff.write_super hs hX le_rfl le_rfl

theorem AgreeOff.storePte {i w : Nat} (hp : p % PGSIZE = 0) (hX : .page p ∈ X) (hi : i < 512) :
    AgreeOff X m (Bytes.storeLE m (p + 8 * i) 8 w) := AgreeOff.write_page hp hX (by omega) (by lia)

theorem Keeps.refl : Keeps lo σ B h σ B h := ⟨fun _ _ => rfl, AgreeOff.refl⟩

theorem Keeps.trans (h1 : Keeps lo σ B h σ' B' h') (h2 : Keeps lo σ' B' h' σ'' B'' h'') :
    Keeps lo σ B h σ'' B'' h'' where
  held_eq l hl := (h2.held_eq l hl).trans (h1.held_eq l hl)
  agree := h1.agree.trans (h1.held_eq lo le_rfl ▸ h2.agree)

theorem Place.From.mono (hx : x.From lo) (hl : l ≤ lo) : x.From l := by
  rcases x with x | n | v <;> simp only [Place.From] at * <;> omega

theorem Place.from_zero (x : Place) : x.From 0 := by
  rcases x with x | n | v <;> simp only [Place.From, Nat.zero_le]

theorem Owns.mono (ho : Owns lo σ B h o b) (hl : l ≤ lo) : Owns l σ B h o b := by
  rcases o with _ | _ | x
  · exact ho
  · exact ho
  · exact ⟨ho.1.mono hl, ho.2⟩

theorem Keeps.mono (hk : Keeps lo σ B h σ' B' h') (hl : l ≤ lo) : Keeps l σ B h σ' B' h' where
  held_eq k hkl := hk.held_eq k (hkl.trans hl)
  agree := hk.agree.mono fun b hb => by
    obtain ⟨o, ho⟩ := hb
    exact ⟨o, ho.mono hl⟩

section

variable (hs : Sep σ B h)
include hs

theorem Sep.exclusive_from : Exclusive (Owns l σ B h) :=
  hs.exclusive.mono fun _ _ ho => ho.mono (Nat.zero_le l)

theorem Sep.hand_not_free (hb : b ∈ h) : ¬σ.Free b := fun hf => by
  cases hs.exclusive (i := .hand) (j := .free) hb hf

theorem Sep.placed_not_free (hx : B x = some b) : ¬σ.Free b := fun hf => by
  cases hs.exclusive (i := .at x) (j := .free) ⟨x.from_zero, hx⟩ hf

theorem Sep.placed_not_hand (hx : B x = some b) : b ∉ h := fun hb => by
  cases hs.exclusive (i := .at x) (j := .hand) ⟨x.from_zero, hx⟩ hb

theorem Sep.placed_ok (hx : B x = some b) : b.Ok := hs.ok (.at x) b ⟨x.from_zero, hx⟩

theorem Sep.placed_inj {y : Place} (hx : B x = some b) (hy : B y = some b) : x = y := by
  cases hs.exclusive (i := .at x) (j := .at y) ⟨x.from_zero, hx⟩ ⟨y.from_zero, hy⟩
  rfl

end

theorem Sep.moved (o' : Owner) (hs : Sep σ B h) (hb : Owns lo σ B h o b)
    (hm : ∀ l ≤ lo, MovedTo (Owns l σ B h) b o' (Owns l σ' B' h'))
    (hf : σ'.freelist.Nodup) (hsup : σ'.superpages.Nodup) (hh : h'.Nodup)
    (ha : AgreeOff (held (Owns lo σ B h)) σ.mem σ'.mem) : Sep σ' B' h' ∧ Keeps lo σ B h σ' B' h' := by
  have hm0 := hm 0 (Nat.zero_le lo)
  have hheld : ∀ l ≤ lo, b ∈ held (Owns l σ B h) := fun l hl => mem_held (hb.mono hl)
  refine ⟨⟨hs.exclusive.movedTo hm0, ?_, hf, hsup, hh⟩, fun l hl => (hm l hl).held_eq (hheld l hl), ha⟩
  exact hm0.forall_held (hheld 0 (Nat.zero_le lo)) hs.ok

theorem Sep.of_lists (σ' : Phys) (hs : Sep σ B h) (hf : σ'.freelist = σ.freelist) (hsup : σ'.superpages = σ.superpages) :
    Sep σ' B h ∧ ∀ l, Owns l σ' B h = Owns l σ B h := by
  have hO : ∀ l, Owns l σ' B h = Owns l σ B h := by
    intro l
    funext o b
    rcases o with _ | _ | x
    · rcases b with p | s <;> simp only [Owns, Phys.Free, hf, hsup]
    · rfl
    · rfl
  exact ⟨⟨hO 0 ▸ hs.exclusive, hO 0 ▸ hs.ok, hf ▸ hs.freelist_nodup, hsup ▸ hs.superpages_nodup, hs.hand_nodup⟩, hO⟩

theorem mem_iff_of_not_mem {α : Type} {a b : α} {l : List α} (hb : b ∉ l) : a ∈ l ↔ (a = b ∨ a ∈ l) ∧ a ≠ b := by
  constructor
  · intro ha; exact ⟨.inr ha, fun he => hb (he ▸ ha)⟩
  · rintro ⟨rfl | ha, hne⟩
    · exact absurd rfl hne
    · exact ha

theorem Sep.take (lo : Nat) (hs : Sep σ B h) (hb : σ.Free b) (hfree : ∀ c, σ'.Free c ↔ σ.Free c ∧ c ≠ b)
    (hf : σ'.freelist.Nodup) (hsup : σ'.superpages.Nodup) (ha : AgreeOff {b} σ.mem σ'.mem) :
    Sep σ' B (b :: h) ∧ Keeps lo σ B h σ' B (b :: h) := by
  have hb' : Owns lo σ B h .free b := hb
  have hbh : b ∉ h := fun hc => hs.hand_not_free hc hb
  apply hs.moved .hand hb' _ hf hsup (nodup_cons.2 ⟨hbh, hs.hand_nodup⟩)
  · exact ha.mono (Set.singleton_subset_iff.2 (mem_held hb'))
  · intro l hl
    apply MovedTo.of_exclusive hs.exclusive_from (j := .free) (k := .hand) (hb'.mono hl) (by simp) hfree
    · intro c; simp only [Owns, mem_cons]; exact or_comm
    · rintro (_ | _ | x) h1 h2 c
      · exact absurd rfl h1
      · exact absurd rfl h2
      · exact Iff.rfl

theorem Sep.give (lo : Nat) (hs : Sep σ B (b :: h)) (hfree : ∀ c, σ'.Free c ↔ σ.Free c ∨ c = b)
    (hf : σ'.freelist.Nodup) (hsup : σ'.superpages.Nodup) (ha : AgreeOff {b} σ.mem σ'.mem) :
    Sep σ' B h ∧ Keeps lo σ B (b :: h) σ' B h := by
  have hb : Owns lo σ B (b :: h) .hand b := mem_cons_self
  obtain ⟨hbh, hh⟩ := nodup_cons.1 hs.hand_nodup
  apply hs.moved .free hb _ hf hsup hh
  · exact ha.mono (Set.singleton_subset_iff.2 (mem_held hb))
  · intro l hl
    apply MovedTo.of_exclusive hs.exclusive_from (j := .hand) (k := .free) (hb.mono hl) (by simp) _ hfree
    · rintro (_ | _ | x) h1 h2 c
      · exact absurd rfl h2
      · exact absurd rfl h1
      · exact Iff.rfl
    · intro c
      simp only [Owns, mem_cons]
      exact mem_iff_of_not_mem hbh

theorem Sep.place (lo : Nat) (σ' : Phys) (hs : Sep σ B (b :: h)) (hx : x.From lo) (hBx : B x = none)
    (hf : σ'.freelist = σ.freelist) (hsup : σ'.superpages = σ.superpages)
    (ha : AgreeOff (held (Owns lo σ B (b :: h))) σ.mem σ'.mem) :
    Sep σ' (update B x (some b)) h ∧ Keeps lo σ B (b :: h) σ' (update B x (some b)) h := by
  have hb : Owns lo σ B (b :: h) .hand b := mem_cons_self
  obtain ⟨hbh, hh⟩ := nodup_cons.1 hs.hand_nodup
  apply hs.moved (.at x) hb _ (hf ▸ hs.freelist_nodup) (hsup ▸ hs.superpages_nodup) hh ha
  intro l hl
  apply MovedTo.of_exclusive hs.exclusive_from (j := .hand) (k := .at x) (hb.mono hl) (by simp)
  · intro c
    simp only [Owns, mem_cons]
    exact mem_iff_of_not_mem hbh
  · intro c
    simp only [Owns, Function.update_self, hBx, Option.some.injEq, hx.mono hl, true_and, reduceCtorEq, false_or]
    exact eq_comm
  · rintro (_ | _ | y) h1 h2 c
    · rcases c with p | s <;> simp only [Owns, Phys.Free, hf, hsup]
    · exact absurd rfl h1
    · simp only [Owns, Function.update_of_ne (fun he => h2 (congrArg _ he))]

theorem Sep.reclaim (lo : Nat) (σ' : Phys) (hs : Sep σ B h) (hx : x.From lo) (hBx : B x = some b)
    (hfree : ∀ c, σ'.Free c ↔ σ.Free c ∨ c = b) (hf : σ'.freelist.Nodup) (hsup : σ'.superpages.Nodup)
    (ha : AgreeOff (held (Owns lo σ B h)) σ.mem σ'.mem) :
    Sep σ' (update B x none) h ∧ Keeps lo σ B h σ' (update B x none) h := by
  have hb : Owns lo σ B h (.at x) b := ⟨hx, hBx⟩
  apply hs.moved .free hb _ hf hsup hs.hand_nodup ha
  intro l hl
  apply MovedTo.of_exclusive hs.exclusive_from (j := .at x) (k := .free) (hb.mono hl) (by simp) _ hfree
  · rintro (_ | _ | y) h1 h2 c
    · exact absurd rfl h2
    · exact Iff.rfl
    · simp only [Owns, Function.update_of_ne (fun he => h1 (congrArg _ he))]
  · intro c
    simp only [Owns, Function.update_self, hBx, Option.some.injEq, reduceCtorEq, and_false, false_iff, not_and]
    rintro ⟨-, rfl⟩ hne
    exact hne rfl

variable {E : String → Prop} {p s : Nat} {Q : Option Nat → Phys → Prop}

theorem Sep.page_ok (hs : Sep σ B (.page p :: h)) : (Block.page p).Ok := hs.ok .hand _ mem_cons_self

theorem Sep.super_ok (hs : Sep σ B (.super s :: h)) : (Block.super s).Ok := hs.ok .hand _ mem_cons_self

theorem Sep.superpages_length (hs : Sep σ B h) (hok : (Block.super s).Ok) (hnf : ¬σ.Free (.super s)) :
    σ.superpages.length < NSUPERPAGES := by
  have hnd : (s :: σ.superpages).Nodup :=
    nodup_cons.2 ⟨hnf, hs.superpages_nodup⟩
  have hsub : s :: σ.superpages ⊆ (List.range NSUPERPAGES).map fun i => superBase + i * SUPERPGSIZE := by
    intro t ht
    have hok : (Block.super t).Ok := by
      rcases mem_cons.1 ht with rfl | ht
      · exact hok
      · exact hs.ok .free (.super t) ht
    obtain ⟨h1, h2, h3⟩ := hok
    refine List.mem_map.2 ⟨(t - superBase) / SUPERPGSIZE, List.mem_range.2 ?_, ?_⟩ <;> lia
  have hlen := (List.subperm_of_subset hnd hsub).length_le
  simp only [List.length_cons, List.length_map, List.length_range] at hlen
  lia

theorem kalloc_spec (lo : Nat) (hs : Sep σ B h) (hnone : σ.freelist = [] → Q none σ)
    (hsome : ∀ p σ', Sep σ' B (.page p :: h) → Keeps lo σ B h σ' B (.page p :: h) →
      AgreeOff {.page p} σ.mem σ'.mem → σ.freelist = p :: σ'.freelist → σ'.superpages = σ.superpages → Q (some p) σ') :
    wp kalloc Q E σ := by
  rw [wp_kalloc]
  refine ⟨hnone, fun p rest hp => ?_⟩
  have hok : (Block.page p).Ok := hs.ok .free (.page p) (by rw [Owns, Phys.Free, hp]; exact mem_cons_self)
  obtain ⟨hpr, hrest⟩ := nodup_cons.1 (hp ▸ hs.freelist_nodup)
  have hag : AgreeOff {.page p} σ.mem (fill σ.mem p PGSIZE 5) := AgreeOff.fill_page hok.1 (Set.mem_singleton _)
  have hfree : ∀ c, Phys.Free ⟨fill σ.mem p PGSIZE 5, rest, σ.superpages⟩ c ↔ σ.Free c ∧ c ≠ .page p := by
    rintro (q | t)
    · simp only [Phys.Free, hp, mem_cons, ne_eq, Block.page.injEq]
      exact mem_iff_of_not_mem hpr
    · simp [Phys.Free]
  have hstep := hs.take lo (b := .page p) (by rw [Phys.Free, hp]; exact mem_cons_self) hfree hrest
    hs.superpages_nodup hag
  exact hsome p _ hstep.1 hstep.2 hag hp rfl

theorem kfree_spec (lo : Nat) {Q : Unit → Phys → Prop} (hs : Sep σ B (.page p :: h))
    (hQ : ∀ σ', Sep σ' B h → Keeps lo σ B (.page p :: h) σ' B h → AgreeOff {.page p} σ.mem σ'.mem →
      σ'.freelist = p :: σ.freelist → σ'.superpages = σ.superpages → Q () σ') : wp (kfree p) Q E σ := by
  obtain ⟨h1, h2, h3⟩ := hs.page_ok
  rw [wp_kfree h1 h2 (by lia)]
  have hp : p ∉ σ.freelist := hs.hand_not_free mem_cons_self
  have hfree : ∀ c, Phys.Free ⟨fill σ.mem p PGSIZE 1, p :: σ.freelist, σ.superpages⟩ c ↔
      σ.Free c ∨ c = .page p := by
    rintro (q | t) <;> simp [Phys.Free, or_comm]
  have hag : AgreeOff {.page p} σ.mem (fill σ.mem p PGSIZE 1) := AgreeOff.fill_page h1 (Set.mem_singleton _)
  have hstep := hs.give lo hfree (nodup_cons.2 ⟨hp, hs.freelist_nodup⟩) hs.superpages_nodup hag
  exact hQ _ hstep.1 hstep.2 hag rfl rfl

theorem superalloc_spec (lo : Nat) (hs : Sep σ B h) (hnone : σ.superpages = [] → Q none σ)
    (hsome : ∀ s σ', Sep σ' B (.super s :: h) → Keeps lo σ B h σ' B (.super s :: h) →
      AgreeOff {.super s} σ.mem σ'.mem → σ.superpages = s :: σ'.superpages → σ'.freelist = σ.freelist → Q (some s) σ') :
    wp superalloc Q E σ := by
  rw [wp_superalloc]
  refine ⟨hnone, fun s rest hp => ?_⟩
  have hok : (Block.super s).Ok := hs.ok .free (.super s) (by rw [Owns, Phys.Free, hp]; exact mem_cons_self)
  obtain ⟨hpr, hrest⟩ := nodup_cons.1 (hp ▸ hs.superpages_nodup)
  have hag : AgreeOff {.super s} σ.mem (fill σ.mem s SUPERPGSIZE 5) :=
    AgreeOff.fill_super hok.1 (Set.mem_singleton _)
  have hfree : ∀ c, Phys.Free ⟨fill σ.mem s SUPERPGSIZE 5, σ.freelist, rest⟩ c ↔ σ.Free c ∧ c ≠ .super s := by
    rintro (q | t)
    · simp [Phys.Free]
    · simp only [Phys.Free, hp, mem_cons, ne_eq, Block.super.injEq]
      exact mem_iff_of_not_mem hpr
  have hstep := hs.take lo (b := .super s) (by rw [Phys.Free, hp]; exact mem_cons_self) hfree
    hs.freelist_nodup hrest hag
  exact hsome s _ hstep.1 hstep.2 hag hp rfl

theorem superfree_spec (lo : Nat) {Q : Unit → Phys → Prop} (hs : Sep σ B (.super s :: h))
    (hQ : ∀ σ', Sep σ' B h → Keeps lo σ B (.super s :: h) σ' B h → AgreeOff {.super s} σ.mem σ'.mem →
      σ'.superpages = s :: σ.superpages → σ'.freelist = σ.freelist → Q () σ') : wp (superfree s) Q E σ := by
  obtain ⟨h1, h2, h3⟩ := hs.super_ok
  rw [wp_superfree h1 h2 h3 (hs.superpages_length hs.super_ok (hs.hand_not_free mem_cons_self))]
  have hp : s ∉ σ.superpages := hs.hand_not_free mem_cons_self
  have hfree : ∀ c, Phys.Free ⟨fill σ.mem s SUPERPGSIZE 1, σ.freelist, s :: σ.superpages⟩ c ↔
      σ.Free c ∨ c = .super s := by
    rintro (q | t) <;> simp [Phys.Free, or_comm]
  have hag : AgreeOff {.super s} σ.mem (fill σ.mem s SUPERPGSIZE 1) := AgreeOff.fill_super h1 (Set.mem_singleton _)
  have hstep := hs.give lo hfree hs.freelist_nodup (nodup_cons.2 ⟨hp, hs.superpages_nodup⟩) hag
  exact hQ _ hstep.1 hstep.2 hag rfl rfl

end Xv6
