import Xv6.Mkfs.Made

/-!
# What mkfs refuses

Blocks behind the end of the image are refused, because `iappend` reads every block before it writes it. The number of inodes is
never compared with `NINODES`: with more than 198 files inode numbers run over the end of the table, and from inode 208 on into the
bitmap block.
-/

namespace Xv6.Mkfs

open Bytes (Mem)
open Hoare
open Xv6.Fs (BSIZE NDIRECT NINDIRECT MAXFILE ROOTINO wordAt)

variable {files : List Input} {s : Img} {i j : Nat}

def GoodBlock (b : Nat) : Prop := b ≠ 0 → nmeta ≤ b ∧ b < FSSIZE

def blockNumbers (disk : Nat → Mem) (i : Nat) : Set Nat :=
  { b | (∃ k, k ≤ NDIRECT ∧ b = daddr (dinAt disk i) k) ∨
    daddr (dinAt disk i) NDIRECT ≠ 0 ∧ ∃ k, k < NINDIRECT ∧ b = wordAt (disk (daddr (dinAt disk i) NDIRECT)) k }

theorem Made.slot_of_blockNumber (hM : Made files s) (h1 : 1 ≤ i) (h2 : i < s.freeinode) {b : Nat} (hb : b ∈ blockNumbers s.disk i)
    (h0 : b ≠ 0) : ∃ t, Needs (blocks (contents files i).length) t ∧ b = slotBlock (dinAt s.disk) s.disk i t := by
  rcases hb with ⟨k, hk, rfl⟩ | ⟨hind, k, hk, rfl⟩
  · rcases Nat.lt_or_eq_of_le hk with hk | rfl
    · refine ⟨some k, ?_, (slotBlock_direct hk).symm⟩
      by_contra hno
      rw [← slotBlock_direct (D := dinAt s.disk) (d := s.disk) hk] at h0
      exact h0 (hM.layout.unused i k h1 h2 (Nat.le_of_not_lt hno) (hk.trans (by decide)) (.inl hk))
    · refine ⟨none, ?_, rfl⟩
      by_contra hno
      exact h0 (hM.layout.noInd i h1 h2 (Nat.le_of_not_lt hno))
  · have hslot : slotBlock (dinAt s.disk) s.disk i (some (NDIRECT + k)) = wordAt (s.disk (daddr (dinAt s.disk i) NDIRECT)) k := by
      rw [slotBlock_indirect (by omega), Nat.add_sub_cancel_left]
    have hnb : NDIRECT < blocks (contents files i).length := by
      by_contra hno
      exact hind (hM.layout.noInd i h1 h2 (Nat.le_of_not_lt hno))
    refine ⟨some (NDIRECT + k), ?_, hslot.symm⟩
    by_contra hno
    rw [← hslot] at h0
    exact h0 (hM.layout.unused i _ h1 h2 (Nat.le_of_not_lt hno) (Nat.add_lt_add_left hk NDIRECT) (.inr hnb))

/-- The image keeps its parts apart: every inode has its place in the inode blocks and its block numbers are those of data
blocks, of which no two inodes share one, and the superblock, the log and the bitmap hold what belongs there. -/
structure Apart (s : Img) : Prop where
  inum : s.freeinode ≤ NINODES
  dinode : ∀ i, i < s.freeinode → inodestart ≤ iblock i ∧ iblock i < bmapstart
  block : ∀ i, 1 ≤ i → i < s.freeinode → ∀ b ∈ blockNumbers s.disk i, GoodBlock b
  own : ∀ i j, 1 ≤ i → i < s.freeinode → 1 ≤ j → j < s.freeinode → i ≠ j →
    ∀ b ∈ blockNumbers s.disk i, b ∈ blockNumbers s.disk j → b = 0
  superblock : s.disk 1 = superblock
  log : ∀ b, b < inodestart → b ≠ 1 → ∀ k, s.disk b k = 0
  bitmap : s.disk bmapstart = freeMap s.freeblock

/-- The code allocates `n` inodes whenever it returns. -/
def Allocates {α : Type} (n : Nat) (x : MkM α) : Prop :=
  ∀ s, wp x (fun _ s' => s'.freeinode = s.freeinode + n) (fun _ => True) s

section

variable {α β : Type} {n m : Nat} {x : MkM α} {f : α → MkM β}

theorem Allocates.bind (hx : Allocates n x) (hf : ∀ a, Allocates m (f a)) : Allocates (n + m) (x >>= f) := by
  intro s
  rw [wp_bind]
  refine wp_post (hx s) fun a s1 h1 => wp_post (hf a s1) fun _ s2 h2 => ?_
  rw [h2, h1, Nat.add_assoc]

theorem Allocates.then (hx : Allocates 0 x) (hf : ∀ a, Allocates m (f a)) : Allocates m (x >>= f) :=
  Nat.zero_add m ▸ hx.bind hf

theorem allocates_pure (a : α) : Allocates 0 (pure a) := fun _ => rfl

theorem allocates_panic (msg : String) : Allocates n (panic msg : MkM α) := fun _ => trivial

theorem allocates_get : Allocates 0 (get : MkM Img) := fun _ => rfl

theorem allocates_wsect (sec : Nat) (buf : Mem) : Allocates 0 (wsect sec buf) := fun _ => rfl

theorem Allocates.ite {c : Prop} [Decidable c] {y : MkM α} (hx : Allocates n x) (hy : Allocates n y) :
    Allocates n (if c then x else y) := by
  split
  exacts [hx, hy]

end

theorem allocates_rsect (sec : Nat) : Allocates 0 (rsect sec) :=
  .ite (allocates_get.then fun _ => allocates_pure _) (allocates_panic _)

theorem allocates_winode (inum : Nat) (din : Mem) : Allocates 0 (winode inum din) :=
  (allocates_rsect _).then fun _ => allocates_wsect _ _

theorem allocates_rinode (inum : Nat) : Allocates 0 (rinode inum) :=
  (allocates_rsect _).then fun _ => allocates_pure _

theorem allocates_ialloc (type : Nat) : Allocates 1 (ialloc type) := fun s =>
  ((allocates_winode _ _).then fun _ => allocates_pure _) { s with freeinode := s.freeinode + 1 }

theorem allocates_nextBlock : Allocates 0 nextBlock := fun _ => rfl

theorem allocates_findBlock (din : Mem) (fbn : Nat) : Allocates 0 (findBlock din fbn) := by
  refine .ite (.ite (allocates_nextBlock.then fun _ => allocates_pure _) (allocates_pure _)) ?_
  refine .then (.ite (allocates_nextBlock.then fun _ => allocates_pure _) (allocates_pure _)) fun din => ?_
  refine (allocates_rsect _).then fun _ => .ite (allocates_nextBlock.then fun _ => ?_) (allocates_pure _)
  exact (allocates_wsect _ _).then fun _ => allocates_pure _

theorem allocates_iappendLoop (fuel : Nat) (p : List UInt8) (off : Nat) (din : Mem) :
    Allocates 0 (iappendLoop fuel p off din) := by
  induction fuel generalizing p off din with
  | zero => exact allocates_pure _
  | succ fuel ih =>
    refine .ite (allocates_pure _) (.ite ((allocates_findBlock _ _).then fun _ => ?_) (allocates_panic _))
    exact (allocates_rsect _).then fun _ => (allocates_wsect _ _).then fun _ => ih _ _ _

theorem allocates_iappend (inum : Nat) (p : List UInt8) : Allocates 0 (iappend inum p) :=
  (allocates_rinode _).then fun _ => (allocates_iappendLoop _ _ _ _).then fun _ => allocates_winode _ _

theorem allocates_addReads (inum : Nat) (l : List (List UInt8)) : Allocates 0 (addReads inum l) := by
  induction l with
  | nil => exact allocates_pure _
  | cons buf l ih => exact (allocates_iappend _ _).then fun _ => ih

theorem allocates_addFiles (rootino : Nat) (files : List Input) : Allocates files.length (addFiles rootino files) := by
  induction files with
  | nil => exact allocates_pure _
  | cons f fs ih =>
    rw [List.length_cons, Nat.add_comm]
    refine .bind (.ite (allocates_panic _) (.ite (allocates_panic _) ?_)) fun _ => ih
    exact (allocates_ialloc _).bind fun _ => (allocates_iappend _ _).then fun _ => allocates_addReads _ _

/-- One inode for the root and one for every file, however many there are. -/
theorem allocates_main (files : List Input) : Allocates (1 + files.length) (main files) := by
  refine (allocates_wsect _ _).then fun _ => (allocates_ialloc _).bind fun _ => .ite ?_ (allocates_panic _)
  refine (allocates_iappend _ _).then fun _ => (allocates_iappend _ _).then fun _ => ?_
  refine (allocates_addFiles _ _).bind (m := 0) fun _ => .then ?_ fun _ => allocates_get.then fun _ => ?_
  · exact (allocates_rinode _).then fun _ => allocates_winode _ _
  · exact .ite (allocates_wsect _ _) (allocates_panic _)

theorem main_freeinode (h : (main files).run start = .ok ((), s)) : s.freeinode = files.length + 2 := by
  have hfi := wp_ok (allocates_main files start) h
  change s.freeinode = 1 + (1 + files.length) at hfi
  omega

theorem Made.apart (hM : Made files s) (hfit : files.length + 2 ≤ NINODES) : Apart s := by
  have hle : s.freeinode ≤ NINODES := hM.freeinode ▸ hfit
  refine ⟨hle, fun i hi => iblock_range (by omega), ?_, ?_, ?_, ?_, hM.bitmap⟩
  · intro i h1 h2 b hb h0
    obtain ⟨t, ht, rfl⟩ := hM.slot_of_blockNumber h1 h2 hb h0
    have hrange := hM.layout.range i t h1 h2 ht
    exact ⟨hrange.1, lt_of_lt_of_le hrange.2 hM.freeblock⟩
  · intro i j h1 h2 h1' h2' hne b hb hb'
    by_contra h0
    obtain ⟨t, ht, rfl⟩ := hM.slot_of_blockNumber h1 h2 hb h0
    obtain ⟨t', ht', heq⟩ := hM.slot_of_blockNumber h1' h2' hb' h0
    exact hne (hM.layout.inj i j t t' h1 h2 h1' h2' ht ht' heq).1
  · rw [hM.low 1 (by decide), Function.update_self]
  · intro b hb hne k
    rw [hM.low b hb, Function.update_of_ne hne]

/-- When `mkfs` exits with status 0, the image keeps its parts apart if and only if there are at most `NINODES - 2` files. -/
theorem mkfs_parts_apart_iff (h : (main files).run start = .ok ((), s)) : Apart s ↔ files.length + 2 ≤ NINODES :=
  ⟨fun hA => main_freeinode h ▸ hA.inum, fun hfit => (wp_ok (main_spec hfit) h).apart hfit⟩

theorem mkfs_parts_apart_one : ∃ s, (main [emptyFile 0]).run start = .ok ((), s) ∧ Apart s := by
  have hok : ((main [emptyFile 0]).run start).isOk = true := by decide +kernel
  rcases h : (main [emptyFile 0]).run start with e | ⟨⟨⟩, s⟩
  · rw [h] at hok
    cases hok
  · exact ⟨s, rfl, (mkfs_parts_apart_iff h).2 (by decide)⟩

/-- Whether the run succeeds with this number of inodes allocated. -/
def allocates (files : List Input) (n : Nat) : Bool :=
  match (main files).run start with
  | .ok ((), s) => s.freeinode == n
  | .error _ => false

/-- With 207 files `mkfs` exits with status 0; it has allocated inode 208, although the superblock announces 200 inodes, and has
written its dinode into the bitmap block. -/
theorem inodes_overflow : ∃ s, (main ((List.range 207).map emptyFile)).run start = .ok ((), s) ∧ NINODES < s.freeinode ∧
    208 < s.freeinode ∧ iblock 208 = bmapstart := by
  have hok : allocates ((List.range 207).map emptyFile) 209 = true := by decide +kernel
  unfold allocates at hok
  rcases h : (main ((List.range 207).map emptyFile)).run start with e | ⟨⟨⟩, s⟩
  · rw [h] at hok
    cases hok
  · rw [h] at hok
    have hfi : s.freeinode = 209 := by simpa using hok
    exact ⟨s, rfl, by rw [hfi]; decide, by rw [hfi]; decide, by decide⟩

end Xv6.Mkfs
