import Mathlib.Algebra.Group.Pi.Basic
import Xv6.Fs.Path

/-!
# What the functions on names leave alone

If they return, and no other process runs: `namex` and `dirlookup` only take references, and a `dirlink` that fails leaves the inodes and
their bytes as they were. The inode table may be full and entries of directories may name free inodes; then the functions may panic.
-/

namespace Xv6.Fs

open Function (update update_idem update_of_ne update_self)
open Run Prog

variable {n : Nat} {p : Fin n} {b s s' t t' : State n} {c : Fin NINODE → Int} {i j : Fin NINODE} {v : Inode n} {x y : Nat}
  {name : List UInt8}

/-- The files on the disk: their blocks are marked and apart, directories have no holes, and an entry of a directory names an inode that
stays or a free one. -/
structure Volume (s : State n) : Prop where
  root : s.Reached ROOTINO
  size : ∀ x, (s.dinode x).type = .T_DIR → (s.dinode x).size % DIRENT = 0
  full : ∀ x, (s.dinode x).type = .T_DIR → s.NoHoles (s.dinode x)
  entry : ∀ x, (s.dinode x).type = .T_DIR → ∀ e ∈ s.dirents x, e.inum ≠ 0 → s.Reached e.inum ∨ (s.dinode e.inum).type = .free
  blocks : ∀ x, (s.dinode x).type ≠ .free → Blocks s (s.dinode x)
  apart : ∀ x y, (s.dinode x).type ≠ .free → (s.dinode y).type ≠ .free → x ≠ y → ∀ k ≤ MAXFILE, ∀ k' ≤ MAXFILE,
    s.slot (s.dinode x) k ≠ 0 → s.slot (s.dinode x) k ≠ s.slot (s.dinode y) k'
  nlink : ∀ x, short (s.dinode x).nlink = (s.dinode x).nlink

/-- The processes and the file table. -/
def State.tables (s : State n) : (Fin n → Proc) × (Fin NFILE → File) := (s.proc, s.ftable)

structure SameDisk (s t : State n) : Prop where
  sb : t.sb = s.sb
  dinode : t.dinode = s.dinode
  bitmap : t.bitmap = s.bitmap
  block : t.block = s.block
  tables : t.tables = s.tables

theorem SameDisk.refl : SameDisk s s := ⟨rfl, rfl, rfl, rfl, rfl⟩

theorem SameDisk.trans (h : SameDisk b s) (h' : SameDisk s t) : SameDisk b t :=
  ⟨h'.sb.trans h.sb, h'.dinode.trans h.dinode, h'.bitmap.trans h.bitmap, h'.block.trans h.block, h'.tables.trans h.tables⟩

theorem slot_of_block (h : t.block = s.block) (d : Dinode) (k : Nat) : t.slot d k = s.slot d k := slot_congr fun _ => by rw [h]

theorem byte_of_block (h : t.block = s.block) : t.byte = s.byte := by
  funext d a
  unfold State.byte
  rw [slot_of_block h, h]

/-- The entry has the same inode, and its copy of the dinode stays. -/
def Kept (j : Fin NINODE) (s t : State n) : Prop :=
  (t.itable j).inum = (s.itable j).inum ∧
    ((s.itable j).valid = true → (t.itable j).valid = true ∧ (t.itable j).d = (s.itable j).d)

theorem Kept.refl : Kept j s s := ⟨rfl, fun h => ⟨h, rfl⟩⟩

theorem Kept.trans (h : Kept j b s) (h' : Kept j s t) : Kept j b t :=
  ⟨h'.1.trans h.1, fun hv => ⟨(h'.2 (h.2 hv).1).1, (h'.2 (h.2 hv).1).2.trans (h.2 hv).2⟩⟩

theorem kept_set (hit : t.itable = update s.itable i v)
    (hv : j = i → v.inum = (s.itable i).inum ∧ ((s.itable i).valid = true → v.valid = true ∧ v.d = (s.itable i).d)) : Kept j s t := by
  unfold Kept
  rw [hit]
  by_cases hj : j = i
  · subst hj
    rw [update_self]
    exact hv rfl
  · rw [update_of_ne hj]
    exact Kept.refl

structure Holds (b : State n) (c : Fin NINODE → Int) (t : State n) : Prop extends Refs b c t where
  disk : SameDisk b t

theorem Settled.holds (h : Settled s) : Holds s (fun _ => 0) s where
  disk := .refl
  ref _ := (add_zero _).symm
  held _ := le_rfl
  inum _ _ := rfl
  uniq := h.uniq
  loaded := h.loaded
  stays j hj := Or.inl ⟨h.used j hj, .inr ⟨j, hj, rfl⟩⟩

theorem only_oneRef_pos : 0 < ((fun _ => 0) + oneRef i : Fin NINODE → Int) i := by
  rw [Pi.add_apply, oneRef_self]
  decide

/-- No inode has two entries in use, and the copies of the dinodes are as on the disk. -/
structure Copies (t : State n) : Prop where
  uniq : ∀ i j, 0 < (t.itable i).ref → 0 < (t.itable j).ref → (t.itable i).inum = (t.itable j).inum → i = j
  loaded : ∀ j, 0 < (t.itable j).ref → (t.itable j).valid = true → (t.itable j).d = t.dinode (t.itable j).inum

theorem Holds.copies (h : Holds b c t) : Copies t := ⟨h.uniq, fun j hj hv => by rw [h.disk.dinode]; exact h.loaded j hj hv⟩

theorem Copies.set (h : Copies t) (hpos : 0 < (t.itable i).ref) (hne : ∀ j, j ≠ i → t'.itable j = t.itable j)
    (hnum : (t'.itable i).inum = (t.itable i).inum) (hdin : ∀ y, y ≠ (t.itable i).inum → t'.dinode y = t.dinode y)
    (hload : 0 < (t'.itable i).ref → (t'.itable i).valid = true → (t'.itable i).d = t'.dinode (t.itable i).inum) : Copies t' := by
  have hinum : ∀ j, (t'.itable j).inum = (t.itable j).inum := fun j => by
    by_cases hj : j = i
    · rw [hj, hnum]
    · rw [hne j hj]
  have hused : ∀ j, 0 < (t'.itable j).ref → 0 < (t.itable j).ref := fun j hj => by
    by_cases hji : j = i
    · rw [hji]
      exact hpos
    · rw [hne j hji] at hj
      exact hj
  refine ⟨fun a b ha hb hab => ?_, fun j hj hv => ?_⟩
  · rw [hinum, hinum] at hab
    exact h.uniq a b (hused a ha) (hused b hb) hab
  · rw [hinum]
    by_cases hji : j = i
    · subst hji
      exact hload hj hv
    · have hother : (t.itable j).inum ≠ (t.itable i).inum := fun he => hji (h.uniq j i (hused j hj) hpos he)
      rw [hne j hji] at hj hv ⊢
      rw [hdin _ hother]
      exact h.loaded j hj hv

theorem Holds.set (h : Holds b c t) (c' : Fin NINODE → Int) (hdisk : SameDisk t t') (hit : t'.itable = update t.itable i v)
    (hne : ∀ j, j ≠ i → c' j = c j) (href : v.ref = (b.itable i).ref + c' i) (hc : 0 ≤ c' i)
    (hinum : 0 < (b.itable i).ref → v.inum = (b.itable i).inum)
    (huniq : 0 < v.ref → ∀ j, j ≠ i → 0 < (t.itable j).ref → (t.itable j).inum ≠ v.inum)
    (hload : 0 < v.ref → v.valid = true → v.d = b.dinode v.inum) (hstay : 0 < v.ref → b.Stays v) : Holds b c' t' :=
  ⟨h.toRefs.set c' hit hne href hc hinum huniq hload hstay, h.disk.trans hdisk⟩

theorem Holds.setEntry (h : Holds b c t) (hdisk : SameDisk t t') (hit : t'.itable = update t.itable i v)
    (hpos : 0 < (t.itable i).ref) (href : v.ref = (t.itable i).ref) (hinum : v.inum = (t.itable i).inum)
    (hload : v.valid = true → v.d = b.dinode (t.itable i).inum)
    (hstay : b.Reached (t.itable i).inum ∨ (b.dinode (t.itable i).inum).type = .free ∧ v.valid = false) : Holds b c t' :=
  h.set c hdisk hit (fun _ _ => rfl) (href.trans (h.ref i)) (h.held i) (fun h0 => hinum.trans (h.inum i h0))
    (fun _ j hj hjpos he => hj (h.uniq j i hjpos hpos (he.trans hinum))) (fun _ hv => by rw [hinum]; exact hload hv)
    (fun _ => by rw [State.Stays, hinum]; exact hstay)

theorem ilock_ends : Ends (ilock p i) t fun t' _ => 0 < (t.itable i).ref ∧
    ((t.itable i).valid = false → (t.dinode (t.itable i).inum).type ≠ .free) ∧
    t' = t.setInode i { t.itable i with
      lock := some p, valid := true, d := if (t.itable i).valid = true then (t.itable i).d else t.dinode (t.itable i).inum } := by
  unfold Fs.ilock
  refine ends_bind (ends_atomic fun t1 _ h1 => ?_)
  split at h1
  · cases h1
  next hpos =>
    split at h1
    · cases h1
      refine ends_atomic fun t2 _ h2 => ?_
      rw [setInode_self] at h2
      dsimp only at h2
      by_cases hv : (t.itable i).valid = true
      · rw [if_pos hv] at h2 ⊢
        cases h2
        refine ⟨by omega, fun hc => absurd (hv.symm.trans hc) (by decide), ?_⟩
        rw [← hv]
      · rw [if_neg hv] at h2 ⊢
        split at h2
        · cases h2
        next htype =>
          cases h2
          refine ⟨by omega, fun _ => htype, ?_⟩
          unfold State.setInode
          dsimp only
          rw [update_idem]
    · cases h1

theorem iunlock_ends : Ends (iunlock p i) t fun t' _ => 0 < (t.itable i).ref ∧ t' = t.setInode i { t.itable i with lock := none } := by
  unfold Fs.iunlock
  refine ends_atomic fun t1 _ h1 => ?_
  split at h1
  · cases h1
  next hok =>
    cases h1
    exact ⟨by omega, rfl⟩

theorem oneRef_nonneg : 0 ≤ oneRef i j := by
  by_cases hj : j = i
  · rw [hj, oneRef_self]
    decide
  · rw [oneRef_ne hj]

theorem Holds.take (h : Holds b c t) (hpos : 0 < (t.itable i).ref) :
    Holds b (c + oneRef i) ((t.setInode i { t.itable i with ref := (t.itable i).ref + 1 }).noteInode p i 1) ∧
      ∀ j, Kept j t ((t.setInode i { t.itable i with ref := (t.itable i).ref + 1 }).noteInode p i 1) := by
  have hheld := h.held i
  have href := h.ref i
  set v : Inode n := { t.itable i with ref := (t.itable i).ref + 1 } with hv
  have hit : ((t.setInode i v).noteInode p i 1).itable = update t.itable i v := rfl
  refine ⟨h.set (c + oneRef i) ⟨rfl, rfl, rfl, rfl, rfl⟩ hit (fun j hj => ?_) ?_ ?_ (fun h1 => h.inum i h1)
    (fun _ j hj hjpos he => hj (h.uniq j i hjpos hpos he)) (fun _ hv => h.loaded i hpos hv) (fun _ => h.stays i hpos),
    fun j => kept_set hit fun _ => ⟨rfl, fun hval => ⟨hval, rfl⟩⟩⟩
  · rw [Pi.add_apply, oneRef_ne hj, add_zero]
  · rw [Pi.add_apply, oneRef_self]
    change (t.itable i).ref + 1 = _
    omega
  · rw [Pi.add_apply, oneRef_self]
    omega

theorem Holds.iget (h : Holds b c t) (h0 : ∀ j, 0 ≤ (b.itable j).ref) (hx : b.Reached x ∨ (b.dinode x).type = .free) :
    Ends (Fs.iget p x) t fun t' i => Holds b (c + oneRef i) t' ∧ (t'.itable i).inum = x ∧ ∀ j, 0 < (t.itable j).ref → Kept j t t' := by
  unfold Fs.iget
  refine ends_atomic fun t' i hrun => ?_
  rcases hc : t.cached x with _ | k
  · rw [hc] at hrun
    rcases he : t.empty with _ | k
    · rw [he] at hrun
      cases hrun
    · rw [he] at hrun
      cases hrun
      have hi := empty_some he
      have hzero : (b.itable i).ref = 0 ∧ c i = 0 := by
        have h1 := h.ref i
        have h2 := h.held i
        have h3 := h0 i
        omega
      set v : Inode n := { t.itable i with inum := x, ref := 1, valid := false } with hv
      have hit : ((t.setInode i v).noteInode p i 1).itable = update t.itable i v := rfl
      refine ⟨h.set (v := v) (c + oneRef i) ⟨rfl, rfl, rfl, rfl, rfl⟩ hit (fun j hj => ?_) ?_ ?_ (fun hp => by omega)
        (fun _ j _ hj => cached_none hc hj) (by simp) (fun _ => hx.imp_right fun hf => ⟨hf, rfl⟩), ?_,
        fun j hj => kept_set hit fun hji => ?_⟩
      · rw [Pi.add_apply, oneRef_ne hj, add_zero]
      · rw [Pi.add_apply, oneRef_self, hzero.1, hzero.2]
        rfl
      · rw [Pi.add_apply, oneRef_self]
        omega
      · rw [hit, update_self]
      · rw [hji] at hj
        omega
  · rw [hc] at hrun
    cases hrun
    obtain ⟨hpos, hnum⟩ := cached_some hc
    obtain ⟨h', hk⟩ := h.take (p := p) hpos
    exact ⟨h', (hk i).1.trans hnum, fun j _ => hk j⟩

theorem Holds.idup (h : Holds b c t) (hi : 0 < (t.itable i).ref) : Ends (Fs.idup p i) t fun t' _ =>
    Holds b (c + oneRef i) t' ∧ ∀ j, 0 < (t.itable j).ref → Kept j t t' := by
  obtain ⟨h', hk⟩ := h.take (p := p) hi
  exact ends_of_eval rfl ⟨h', fun j _ => hk j⟩

theorem Holds.ilock (h : Holds b c t) : Ends (Fs.ilock p i) t fun t' _ => Holds b c t' ∧ (t'.itable i).valid = true ∧
    (t'.itable i).d = b.dinode (t.itable i).inum ∧ (b.dinode (t.itable i).inum).type ≠ .free ∧
    ∀ j, 0 < (t.itable j).ref → Kept j t t' := by
  refine ilock_ends.mono ?_
  rintro t' - ⟨hpos, hfree, rfl⟩
  rw [h.disk.dinode] at hfree ⊢
  set v : Inode n := { t.itable i with
    lock := some p, valid := true, d := if (t.itable i).valid = true then (t.itable i).d else b.dinode (t.itable i).inum } with hv
  have hit : (t.setInode i v).itable = update t.itable i v := rfl
  have hd : v.d = b.dinode (t.itable i).inum := by
    by_cases hval : (t.itable i).valid = true
    · exact (if_pos hval).trans (h.loaded i hpos hval)
    · exact if_neg hval
  have hreach : b.Reached (t.itable i).inum := by
    rcases h.stays i hpos with hr | ⟨hf, hnv⟩
    · exact hr
    · exact absurd hf (hfree hnv)
  refine ⟨h.setEntry ⟨rfl, rfl, rfl, rfl, rfl⟩ hit hpos rfl rfl (fun _ => hd) (.inl hreach), ?_, ?_, hreach.1,
    fun j _ => kept_set hit fun _ => ⟨rfl, fun hval => ⟨rfl, if_pos hval⟩⟩⟩
  · rw [hit, update_self]
  · rw [hit, update_self]
    exact hd

theorem Holds.iunlock (h : Holds b c t) : Ends (Fs.iunlock p i) t fun t' _ =>
    Holds b c t' ∧ ∀ j, 0 < (t.itable j).ref → Kept j t t' := by
  refine iunlock_ends.mono ?_
  rintro t' - ⟨hpos, rfl⟩
  have hit : (t.setInode i { t.itable i with lock := none }).itable = update t.itable i { t.itable i with lock := none } := rfl
  exact ⟨h.setEntry ⟨rfl, rfl, rfl, rfl, rfl⟩ hit hpos rfl rfl (fun hv => h.loaded i hpos hv) (h.stays i hpos),
    fun j _ => kept_set hit fun _ => ⟨rfl, fun hval => ⟨hval, rfl⟩⟩⟩

theorem Holds.iput (h : Holds b (c + oneRef i) t) (h0 : ∀ j, 0 ≤ (b.itable j).ref) (hc : ∀ j, 0 ≤ c j) : Ends (Fs.iput p i) t fun t' _ =>
    Holds b c t' ∧ ∀ j, 0 < (t.itable j).ref → Kept j t t' := by
  have hone : 0 < (c + oneRef i) i := by
    have := hc i
    rw [Pi.add_apply, oneRef_self]
    omega
  have hpos := h.pos h0 hone
  have href := h.ref i
  have hci := hc i
  rw [Pi.add_apply, oneRef_self] at href
  have hstay : ¬((t.itable i).ref = 1 ∧ (t.itable i).valid = true ∧ (t.itable i).d.nlink = 0) := fun ⟨h1, h2, h3⟩ =>
    h.not_last h0 hone ⟨h1, h2, by rw [← h.loaded i hpos h2]; exact h3⟩
  set v : Inode n := { t.itable i with ref := (t.itable i).ref - 1 } with hv
  have hit : ((t.setInode i v).noteInode p i (-1)).itable = update t.itable i v := rfl
  refine ends_of_eval (iput_eval hstay) ⟨h.set (v := v) c ⟨rfl, rfl, rfl, rfl, rfl⟩ hit (fun j hj => ?_) ?_ hci (fun h1 => h.inum i h1)
    (fun _ j hj hjpos he => hj (h.uniq j i hjpos hpos he)) (fun _ hv => h.loaded i hpos hv) (fun _ => h.stays i hpos),
    fun j _ => kept_set hit fun _ => ⟨rfl, fun hval => ⟨hval, rfl⟩⟩⟩
  · rw [Pi.add_apply, oneRef_ne hj, add_zero]
  · change (t.itable i).ref - 1 = _
    omega

theorem Holds.iunlockput (h : Holds b (c + oneRef i) t) (h0 : ∀ j, 0 ≤ (b.itable j).ref) (hc : ∀ j, 0 ≤ c j) :
    Ends (Fs.iunlockput p i) t fun t' _ => Holds b c t' ∧ ∀ j, 0 < (t.itable j).ref → Kept j t t' := by
  unfold Fs.iunlockput
  refine ends_bind (h.iunlock.mono ?_)
  rintro t1 - ⟨h1, hk1⟩
  refine (h1.iput h0 hc).mono ?_
  rintro t2 - ⟨h2, hk2⟩
  refine ⟨h2, fun j hj => (hk1 j hj).trans (hk2 j ?_)⟩
  rw [h1.ref j, ← h.ref j]
  exact hj

theorem dirents_congr {size : Nat} {f g : Nat → UInt8} (h : ∀ a < size, f a = g a) : dirents size f = dirents size g := by
  unfold dirents
  refine List.map_congr_left fun k hk => ofBytes_congr fun m hm => h _ ?_
  have := List.mem_range.1 hk
  simp only [DIRENT] at *
  omega

theorem Holds.dirlookup (h : Holds b c t) (h0 : ∀ j, 0 ≤ (b.itable j).ref) (hV : Volume b) (hd : (t.itable i).d = b.dinode x)
    (hdir : (b.dinode x).type = .T_DIR) : Ends (Fs.dirlookup p i name) t fun t' r => (r = none ∧ t' = t) ∨
      ∃ j off, r = some (j, off) ∧ Holds b (c + oneRef j) t' ∧ ∀ j, 0 < (t.itable j).ref → Kept j t t' := by
  have hfull : t.NoHoles (b.dinode x) := fun k hk => by
    rw [slot_of_block h.disk.block]
    exact hV.full x hdir k hk
  have hsize := (hV.blocks x (by rw [hdir]; decide)).size
  have hloop := dirlookupLoop_eval (i := i) (s := t) p name (by rw [hd]; exact hV.size x hdir) (by rw [hd]; exact hsize)
    (by rw [hd]; exact hfull) ((t.itable i).d.size / DIRENT + 1) 0 (by omega)
  rw [List.drop_zero, Nat.mul_zero, hd, byte_of_block h.disk.block] at hloop
  unfold Fs.dirlookup
  refine ends_bind (ends_of_eval (t := t) (a := (t.itable i).d) rfl ?_)
  rw [if_neg (by rw [hd, hdir]; exact fun hc => hc rfl), hd]
  rcases hloop with ⟨-, hrun⟩ | ⟨e, off, hf, hrun⟩
  · exact ends_of_eval hrun (.inl ⟨rfl, rfl⟩)
  · have hp := List.find?_some hf
    have hmem := hV.entry x hdir e (List.mem_of_find?_eq_some hf) (of_decide_eq_true hp).1
    have hget : Ends (do let ip ← Fs.iget p e.inum; return some (ip, off)) t fun t' r =>
        ∃ j off, r = some (j, off) ∧ Holds b (c + oneRef j) t' ∧ ∀ j, 0 < (t.itable j).ref → Kept j t t' := by
      refine ends_bind ((h.iget h0 hmem).mono ?_)
      rintro t1 j ⟨h1, -, hk1⟩
      exact ends_pure ⟨j, off, rfl, h1, hk1⟩
    intro t' r hrun'
    rw [hrun] at hrun'
    exact .inr (hget t' r hrun')

def Named (b : State n) (c : Fin NINODE → Int) (parent : Bool) (t : State n) : Option (Fin NINODE × List UInt8) → Prop
  | none => Holds b c t
  | some (j, _) => Holds b (c + oneRef j) t ∧ (parent = true → (b.dinode (t.itable j).inum).type = .T_DIR)

theorem namexLoop_ends (h0 : ∀ j, 0 ≤ (b.itable j).ref) (hV : Volume b) (hc : ∀ j, 0 ≤ c j) (parent : Bool) : ∀ fuel path ip (t : State n),
    path.length < fuel → Holds b (c + oneRef ip) t → Ends (namexLoop p parent fuel path ip) t fun t' r =>
      Named b c parent t' r ∧ ∀ j, 0 < (b.itable j).ref + c j → Kept j t t' := by
  intro fuel
  induction fuel with
  | zero => exact fun _ _ _ hlt _ => absurd hlt (Nat.not_lt_zero _)
  | succ fuel ih =>
    intro path ip t hlt h
    have hone : 0 < (c + oneRef ip) ip := by
      have := hc ip
      rw [Pi.add_apply, oneRef_self]
      omega
    -- what is held besides the reference to the entry stays in use
    have huse : ∀ {c' : Fin NINODE → Int} {t' : State n}, Holds b (c + c') t' → (∀ j, 0 ≤ c' j) →
        ∀ j, 0 < (b.itable j).ref + c j → 0 < (t'.itable j).ref := fun {c' t'} h' hn j hj => by
      have h1 := h'.ref j
      have h2 := hn j
      rw [Pi.add_apply] at h1
      omega
    have hleave : ∀ t1, Holds b (c + oneRef ip) t1 → (∀ j, 0 < (b.itable j).ref + c j → Kept j t t1) →
        Ends (do Fs.iunlockput p ip; return none : FsM n (Option (Fin NINODE × List UInt8))) t1 fun t' r =>
          Named b c parent t' r ∧ ∀ j, 0 < (b.itable j).ref + c j → Kept j t t' := fun t1 h1 hk1 => by
      refine ends_bind ((h1.iunlockput h0 hc).mono ?_)
      rintro t2 - ⟨h2, hk2⟩
      exact ends_pure ⟨h2, fun j hj => (hk1 j hj).trans (hk2 j (huse h1 (fun _ => oneRef_nonneg) j hj))⟩
    unfold namexLoop
    rcases skipelem_parts path with ⟨hskip, -⟩ | ⟨rest, w, hskip, -, hshort, -⟩
    · rw [hskip]
      dsimp only
      cases parent with
      | false => exact ends_pure ⟨⟨h, by simp⟩, fun _ _ => .refl⟩
      | true =>
        rw [if_pos rfl]
        refine ends_bind ((h.iput h0 hc).mono ?_)
        rintro t1 - ⟨h1, hk1⟩
        exact ends_pure ⟨h1, fun j hj => hk1 j (huse h (fun _ => oneRef_nonneg) j hj)⟩
    · rw [hskip]
      dsimp only
      refine ends_bind (h.ilock.mono ?_)
      rintro t1 - ⟨h1, -, hd, -, hk1⟩
      have hk1' : ∀ j, 0 < (b.itable j).ref + c j → Kept j t t1 := fun j hj => hk1 j (huse h (fun _ => oneRef_nonneg) j hj)
      have hnum : (t1.itable ip).inum = (t.itable ip).inum := (hk1 ip (h.pos h0 hone)).1
      refine ends_bind (ends_of_eval (t := t1) (a := (t1.itable ip).d) rfl ?_)
      rw [hd]
      by_cases hdir : (b.dinode (t.itable ip).inum).type = .T_DIR
      · rw [if_neg (not_not.2 hdir)]
        by_cases hlast : (parent : Prop) ∧ rest = []
        · rw [if_pos hlast]
          refine ends_bind (h1.iunlock.mono ?_)
          rintro t2 - ⟨h2, hk2⟩
          refine ends_pure ⟨⟨h2, fun _ => ?_⟩, fun j hj => (hk1' j hj).trans (hk2 j (huse h1 (fun _ => oneRef_nonneg) j hj))⟩
          rw [(hk2 ip (h1.pos h0 hone)).1, hnum]
          exact hdir
        · rw [if_neg hlast]
          refine ends_bind ((h1.dirlookup h0 hV hd hdir).mono ?_)
          rintro t2 r (⟨rfl, rfl⟩ | ⟨next, off, rfl, h2, hk2⟩)
          · exact hleave t2 h1 hk1'
          · dsimp only
            have h2' : Holds b (c + oneRef next + oneRef ip) t2 := by
              rwa [add_right_comm] at h2
            have hc' : ∀ j, 0 ≤ (c + oneRef next) j := fun j => Int.add_nonneg (hc j) oneRef_nonneg
            refine ends_bind ((h2'.iunlockput h0 hc').mono ?_)
            rintro t3 - ⟨h3, hk3⟩
            refine (ih rest next t3 (by omega) h3).mono ?_
            rintro t' r ⟨hr, hk⟩
            refine ⟨hr, fun j hj => (hk1' j hj).trans ((hk2 j (huse h1 (fun _ => oneRef_nonneg) j hj)).trans ((hk3 j ?_).trans (hk j hj)))⟩
            rw [add_assoc] at h2'
            exact huse h2' (fun j => Int.add_nonneg oneRef_nonneg oneRef_nonneg) j hj
      · rw [if_pos hdir]
        exact hleave t1 h1 hk1'

theorem namex_ends (h0 : ∀ j, 0 ≤ (b.itable j).ref) (hV : Volume b) (h : Holds b c t)
    (hcwd : ∀ i, (b.proc p).cwd = some i → 0 < (b.itable i).ref) (path : List UInt8) (parent : Bool) : Ends (namex p path parent) t fun t' r =>
      Named b c parent t' r ∧ ∀ j, 0 < (b.itable j).ref + c j → Kept j t t' := by
  have hpos : ∀ j, 0 < (b.itable j).ref + c j → 0 < (t.itable j).ref := fun j hj => by rw [h.ref j]; exact hj
  unfold namex
  split
  · refine ends_bind ((h.iget h0 (.inl hV.root)).mono ?_)
    rintro t1 ip ⟨h1, -, hk1⟩
    refine (namexLoop_ends h0 hV h.held parent _ path ip t1 (Nat.lt_succ_self _) h1).mono ?_
    rintro t' r ⟨hr, hk⟩
    exact ⟨hr, fun j hj => (hk1 j (hpos j hj)).trans (hk j hj)⟩
  · refine ends_bind (ends_of_eval (t := t) (a := (t.proc p).cwd) rfl ?_)
    rcases hcw : (t.proc p).cwd with _ | ip
    · exact ends_atomic fun _ _ hc => by cases hc
    · dsimp only
      have hip : 0 < (t.itable ip).ref := by
        have hproc : t.proc = b.proc := congrArg Prod.fst h.disk.tables
        have h1 := hcwd ip (by rw [← hproc]; exact hcw)
        have h2 := h.ref ip
        have h3 := h.held ip
        omega
      refine ends_bind ((h.idup hip).mono ?_)
      rintro t1 - ⟨h1, hk1⟩
      refine (namexLoop_ends h0 hV h.held parent _ path ip t1 (Nat.lt_succ_self _) h1).mono ?_
      rintro t' r ⟨hr, hk⟩
      exact ⟨hr, fun j hj => (hk1 j (hpos j hj)).trans (hk j hj)⟩

/-! ### A directory entry that cannot be made -/

structure Rests (s t : State n) : Prop extends SameDisk s t where
  entry : ∀ j, 0 < (s.itable j).ref → t.itable j = s.itable j
  used : ∀ j, 0 < (t.itable j).ref → 0 < (s.itable j).ref

theorem Rests.copies (h : Rests s t) (hs : Copies s) : Copies t := by
  refine ⟨fun i j hi hj hij => ?_, fun j hj hv => ?_⟩
  · rw [h.entry i (h.used i hi), h.entry j (h.used j hj)] at hij
    exact hs.uniq i j (h.used i hi) (h.used j hj) hij
  · have hj' := h.used j hj
    rw [h.entry j hj'] at hv ⊢
    rw [h.dinode]
    exact hs.loaded j hj' hv

theorem iget_iput_ends : Ends (Fs.iget p x) t fun t1 i => Ends (Fs.iput p i) t1 fun t' _ => Rests t t' := by
  unfold Fs.iget
  refine ends_atomic fun t1 i hrun => ?_
  rcases hc : t.cached x with _ | k
  · rw [hc] at hrun
    rcases he : t.empty with _ | k
    · rw [he] at hrun
      cases hrun
    · rw [he] at hrun
      cases hrun
      have hi := empty_some he
      set v : Inode n := { t.itable i with inum := x, ref := 1, valid := false } with hv
      set t1 := (t.setInode i v).noteInode p i 1 with ht1
      have hit : t1.itable i = v := update_self ..
      refine ends_of_eval (iput_eval (by rw [hit]; exact fun hc => by cases hc.2.1))
        ⟨⟨rfl, rfl, rfl, rfl, rfl⟩, fun j hj => ?_, fun j hj => ?_⟩
      · have hji : j ≠ i := fun he => by
          rw [he] at hj
          omega
        change update (update t.itable i v) i _ j = _
        rw [update_of_ne hji, update_of_ne hji]
      · rw [hit] at hj
        change 0 < (update (update t.itable i v) i { v with ref := 1 - 1 } j).ref at hj
        rw [update_idem] at hj
        by_cases hji : j = i
        · rw [hji, update_self] at hj
          have hj : (0 : Int) < 1 - 1 := hj
          omega
        · rwa [update_of_ne hji] at hj
  · rw [hc] at hrun
    cases hrun
    obtain ⟨hpos, -⟩ := cached_some hc
    set v : Inode n := { t.itable i with ref := (t.itable i).ref + 1 } with hv
    set t1 := (t.setInode i v).noteInode p i 1 with ht1
    have hit : t1.itable i = v := update_self ..
    refine ends_of_eval (iput_eval (by rw [hit]; exact fun hc => by have : (t.itable i).ref + 1 = 1 := hc.1; omega))
      ?_
    have hback : update t1.itable i { t1.itable i with ref := (t1.itable i).ref - 1 } = t.itable := by
      rw [hit]
      change update (update t.itable i v) i { v with ref := (t.itable i).ref + 1 - 1 } = _
      rw [update_idem, Int.add_sub_cancel]
      exact Function.update_eq_self i t.itable
    exact ⟨⟨rfl, rfl, rfl, rfl, rfl⟩, fun j _ => congrFun hback j, fun j hj => by rw [← hback]; exact hj⟩

section Entry

variable (hB : Blocks t (t.itable i).d) (hfull : t.NoHoles (t.itable i).d) (hmod : (t.itable i).d.size % DIRENT = 0)
  {k off len m xd : Nat} {src : Nat → Option UInt8}

include hB hfull hmod

theorem dirlookup_iput_ends : Ends (Fs.dirlookup p i name) t fun t1 r => (r = none ∧ t1 = t) ∨
    ∃ j off, r = some (j, off) ∧ Ends (Fs.iput p j) t1 fun t' _ => Rests t t' := by
  unfold Fs.dirlookup
  refine ends_bind (ends_of_eval (t := t) (a := (t.itable i).d) rfl ?_)
  split
  · exact ends_atomic fun _ _ hc => by cases hc
  · rcases dirlookupLoop_eval (i := i) p name hmod hB.size hfull ((t.itable i).d.size / DIRENT + 1) 0 (by omega) with
      ⟨-, hrun⟩ | ⟨e, off, -, hrun⟩
    · exact ends_of_eval hrun (.inl ⟨rfl, rfl⟩)
    · have hget : Ends (do let ip ← Fs.iget p e.inum; return some (ip, off)) t fun t1 r =>
          ∃ j off, r = some (j, off) ∧ Ends (Fs.iput p j) t1 fun t' _ => Rests t t' :=
        ends_bind (iget_iput_ends.mono fun t1 j h => ends_pure ⟨j, off, rfl, h⟩)
      intro t1 r hrun'
      rw [Nat.mul_zero] at hrun
      rw [hrun] at hrun'
      exact .inr (hget t1 r hrun')

theorem dirlinkLoop_eval : ∀ fuel k, DIRENT * k ≤ (t.itable i).d.size → (t.itable i).d.size / DIRENT < k + fuel →
    ∃ k', (dirlinkLoop i (t.itable i).d.size fuel (DIRENT * k)).eval t = .ok (t, DIRENT * k') ∧ DIRENT * k' ≤ (t.itable i).d.size := by
  intro fuel
  induction fuel with
  | zero =>
    intro k hle hk
    simp only [DIRENT] at *
    omega
  | succ fuel ih =>
    intro k hle hk
    unfold dirlinkLoop
    by_cases hlt : DIRENT * k < (t.itable i).d.size
    · rw [if_pos hlt, eval_bind (readDirent_eval hB.size hfull (by simp only [DIRENT] at *; omega))]
      split
      · exact ⟨k, rfl, hle⟩
      · exact ih (k + 1) (by simp only [DIRENT] at *; omega) (by omega)
    · rw [if_neg hlt]
      exact ⟨k, rfl, hle⟩

theorem isdirempty_ends : Ends (isdirempty i) t fun t' _ => t' = t := by
  have hloop : ∀ fuel k, Ends (isdiremptyLoop i (t.itable i).d.size fuel (DIRENT * k)) t fun t' _ => t' = t := by
    intro fuel
    induction fuel with
    | zero => exact fun _ => ends_pure rfl
    | succ fuel ih =>
      intro k
      unfold isdiremptyLoop
      split
      · refine ends_bind (ends_of_eval (readDirent_eval hB.size hfull (by simp only [DIRENT] at *; omega)) ?_)
        split
        · exact ends_pure rfl
        · exact ih (k + 1)
      · exact ends_pure rfl
  unfold isdirempty
  refine ends_bind (ends_of_eval (t := t) (a := (t.itable i).d) rfl ?_)
  rw [Nat.mul_comm]
  exact hloop _ 2

end Entry

/-- The file has the same blocks, but for an indirect block that it may have got. -/
def SameBlocks (s : State n) (d : Dinode) (t : State n) (e : Dinode) : Prop :=
  ∀ k ≤ MAXFILE, k < MAXFILE ∨ s.slot d k ≠ 0 → t.slot e k = s.slot d k

section

variable (hB : Blocks t (t.itable i).d)
include hB

theorem writeiLoop_entry_ends (src : Nat → UInt8) (hfit : DIRENT * k + DIRENT ≤ MAXFILE * BSIZE) :
    Ends (writeiLoop i (fun k => some (src k)) DIRENT DIRENT (DIRENT * k) 0) t fun t' r =>
      r.1 = 0 ∧ (∀ m < MAXFILE, t'.slot (t'.itable i).d m = t.slot (t.itable i).d m) ∨ r.1 = DIRENT := by
  have hm : min (DIRENT - 0) (BSIZE - DIRENT * k % BSIZE) = DIRENT := by
    simp only [DIRENT, BSIZE]
    omega
  have hall : copied (fun k => some (src k)) 0 DIRENT = DIRENT := by
    obtain ⟨h1, -, h2⟩ := copied_spec (fun k => some (src k)) DIRENT 0
    by_contra hc
    cases h2 (lt_of_le_of_ne h1 hc)
  change Ends (writeiLoop i (fun k => some (src k)) DIRENT (15 + 1) (DIRENT * k) 0) t _
  rw [writeiLoop, if_pos (by decide), hm]
  dsimp only
  rw [hall]
  obtain ⟨t1, addr, hbmap, -, -, -, -, hslot⟩ := bmap_eval_any hB (k := DIRENT * k / BSIZE) (by simp only [DIRENT, BSIZE] at *; omega)
  refine ends_bind (ends_of_eval hbmap ?_)
  split
  · next h0 => exact ends_pure (.inl ⟨rfl, hslot h0⟩)
  · refine ends_bind (ends_any fun t2 _ => ?_)
    rw [if_pos rfl]
    change Ends (writeiLoop i (fun k => some (src k)) DIRENT (14 + 1) (DIRENT * k + DIRENT) (0 + DIRENT)) t2 _
    rw [writeiLoop, if_neg (by decide)]
    exact ends_pure (.inr rfl)

theorem writei_entry_cases (src : Nat → UInt8)
    (hfit : DIRENT * k + DIRENT ≤ MAXFILE * BSIZE) : Ends (writei i (fun k => some (src k)) (DIRENT * k) DIRENT) t fun t' r => r = -1 ∨
      r = (0 : Nat) ∧ (∀ m < MAXFILE, t'.slot (t'.itable i).d m = t.slot (t.itable i).d m) ∨ r = DIRENT := by
  unfold writei
  refine ends_bind (ends_of_eval (t := t) (a := (t.itable i).d) rfl ?_)
  dsimp only
  split
  · exact ends_pure (.inl rfl)
  split
  · exact ends_pure (.inl rfl)
  refine ends_bind ((writeiLoop_entry_ends hB src hfit).mono ?_)
  rintro t1 ⟨tot, off⟩ hr
  dsimp only at hr ⊢
  intro t2 r hrun
  rw [store_iupdate_eval] at hrun
  cases hrun
  rcases hr with ⟨rfl, hslot⟩ | rfl
  · -- the size of the file does not matter for its blocks
    refine .inr (.inl ⟨rfl, fun m hm => Eq.trans ?_ (hslot m hm)⟩)
    change State.slot _ (update t1.itable i _ i).d m = _
    rw [update_self]
    rfl
  · exact .inr (.inr rfl)

theorem writei_entry_ends (src : Nat → UInt8) (k : Nat) :
    Ends (writei i (fun k => some (src k)) (DIRENT * k) DIRENT) t fun t' r => (r = -1 ∧ t' = t) ∨
      DIRENT * k + DIRENT ≤ MAXFILE * BSIZE ∧ ∃ m : Nat, r = m ∧ (m = 0 ∧ SameBlocks t (t.itable i).d t' (t'.itable i).d ∨ m = DIRENT) ∧
        WroteAt i (fun k => some (src k)) (DIRENT * k) DIRENT t t' m 0 := by
  rcases writei_spec (fun k => some (src k)) (DIRENT * k) hB (show DIRENT < 2 ^ 32 by decide) with
    ⟨-, hrun⟩ | ⟨-, hfit, t', m, c, hrun, hw, -⟩
  · exact ends_of_eval hrun (.inl ⟨rfl, rfl⟩)
  have hc : c = 0 := by
    rcases hw.stop with hc | ⟨-, hc, -⟩
    · exact hc
    · cases hc
  subst hc
  refine ends_of_eval hrun (.inr ⟨hfit, m, rfl, ?_, hw⟩)
  rcases writei_entry_cases hB src hfit t' m hrun with hm | ⟨hm, hslot⟩ | hm
  · omega
  · refine .inl ⟨by omega, fun k hk => ?_⟩
    rintro (hlt | h0)
    · exact hslot k hlt
    · exact hw.grows k hk h0
  · exact .inr (by omega)

theorem dirlink_ends (hfull : t.NoHoles (t.itable i).d) (hmod : (t.itable i).d.size % DIRENT = 0) :
    Ends (dirlink p i name x) t fun t' r => (r < 0 ∧ Rests t t') ∨
      ∃ off m, off ≤ (t.itable i).d.size ∧ off + DIRENT ≤ MAXFILE * BSIZE ∧ off % DIRENT = 0 ∧
        (r < 0 → m = 0 ∧ SameBlocks t (t.itable i).d t' (t'.itable i).d) ∧ (m = 0 ∨ m = DIRENT) ∧
        WroteAt i (fun k => some (direntBytes name x k)) off DIRENT t t' m 0 := by
  unfold dirlink
  refine ends_bind ((dirlookup_iput_ends hB hfull hmod).mono ?_)
  rintro t1 r (⟨rfl, rfl⟩ | ⟨j, off, rfl, hput⟩)
  · dsimp only
    refine ends_bind (ends_of_eval (t := t1) (a := (t1.itable i).d) rfl ?_)
    obtain ⟨k, hrun, hk⟩ := dirlinkLoop_eval hB hfull hmod ((t1.itable i).d.size / DIRENT + 1) 0 (by omega) (by omega)
    rw [Nat.mul_zero] at hrun
    refine ends_bind (ends_of_eval hrun (ends_bind ((writei_entry_ends hB _ k).mono ?_)))
    rintro t2 r (⟨rfl, rfl⟩ | ⟨hfit, m, rfl, hm, hw⟩)
    · rw [if_neg (by decide)]
      exact ends_pure (.inl ⟨by decide, .refl, fun _ _ => rfl, fun _ hj => hj⟩)
    · have hw' : DIRENT * k % DIRENT = 0 := Nat.mul_mod_right DIRENT k
      rcases hm with ⟨rfl, hsame⟩ | rfl
      · rw [if_neg (by decide)]
        exact ends_pure (.inr ⟨_, 0, hk, hfit, hw', fun _ => ⟨rfl, hsame⟩, .inl rfl, hw⟩)
      · rw [if_pos rfl]
        exact ends_pure (.inr ⟨_, DIRENT, hk, hfit, hw', fun hc => absurd hc (by decide), .inr rfl, hw⟩)
  · dsimp only
    exact ends_bind (hput.mono fun t2 _ h2 => ends_pure (.inl ⟨by decide, h2⟩))

end

theorem WroteAt.copies (h : WroteAt i src off len t t' m k) (ht : Copies t)
    (hpos : 0 < (t.itable i).ref) : Copies t' := by
  obtain ⟨addrs, bits, blocks, hsame⟩ := h.same
  have hself : t'.itable i = { t.itable i with
      d := { (t.itable i).d with addrs := addrs, size := max (t.itable i).d.size (off + m) } } := by
    rw [hsame]
    exact update_self ..
  refine ht.set hpos (fun j hj => h.itable_ne hj) (by rw [hself]) (fun y hy => ?_) fun _ _ => ?_
  · rw [hsame]
    exact update_of_ne hy ..
  · have hdin : t'.dinode (t.itable i).inum = { (t.itable i).d with addrs := addrs, size := max (t.itable i).d.size (off + m) } := by
      rw [hsame]
      exact update_self ..
    rw [hself, hdin]

/-- Besides inode `x` and blocks that are free in `s`, the disk is as in `s`. -/
structure Aside (s : State n) (x : Nat) (t : State n) : Prop where
  sb : t.sb = s.sb
  tables : t.tables = s.tables
  dinode : ∀ y, y ≠ x → t.dinode y = s.dinode y
  block : ∀ a ≠ 0, s.bitmap a = true → t.block a = s.block a ∧ t.bitmap a = true

/-- Besides inode `x` the inodes have the same fields and bytes; so would `x` with its dinode in `s`. -/
structure Besides (s : State n) (x : Nat) (t : State n) : Prop where
  tables : t.tables = s.tables
  inode : ∀ y, y ≠ x → ∃ a, t.dinode y = { s.dinode y with addrs := a }
  byte : ∀ y, (s.dinode y).type ≠ .free → ∀ a < MAXFILE * BSIZE,
    t.byte (if y = x then s.dinode y else t.dinode y) a = s.byte (s.dinode y) a
  blocks : ∀ y, (s.dinode y).type ≠ .free → SameBlocks s (s.dinode y) t (if y = x then s.dinode y else t.dinode y)

theorem SameDisk.aside (h : SameDisk s t) : Aside s x t :=
  ⟨h.sb, h.tables, fun y _ => by rw [h.dinode], fun a _ ha => ⟨by rw [h.block], by rw [h.bitmap]; exact ha⟩⟩

theorem Aside.trans (h : Aside s x t) (h' : Aside t x t') : Aside s x t' where
  sb := h'.sb.trans h.sb
  tables := h'.tables.trans h.tables
  dinode y hy := (h'.dinode y hy).trans (h.dinode y hy)
  block a ha hb := by
    obtain ⟨h1, h2⟩ := h.block a ha hb
    obtain ⟨h3, h4⟩ := h'.block a ha h2
    exact ⟨h3.trans h1, h4⟩

theorem Aside.congr (h : Aside s x t) (hV : Volume s) (hy : (s.dinode y).type ≠ .free) :
    Blocks t (s.dinode y) ∧ ∀ a < MAXFILE * BSIZE, t.byte (s.dinode y) a = s.byte (s.dinode y) a :=
  (hV.blocks y hy).congr (fun k hk h0 => (h.block _ h0 ((hV.blocks y hy).used k hk h0)).1)
    (fun k hk h0 => (h.block _ h0 ((hV.blocks y hy).used k hk h0)).2) h.sb

theorem Aside.slot (h : Aside s x t) (hV : Volume s) (hy : (s.dinode y).type ≠ .free) (k : Nat) :
    t.slot (s.dinode y) k = s.slot (s.dinode y) k :=
  slot_congr fun h0 => (h.block _ h0 ((hV.blocks y hy).used MAXFILE le_rfl h0)).1

theorem Aside.directory (h : Aside s x t) (hV : Volume s) (hdir : (s.dinode y).type = .T_DIR) (hd : (t.itable i).d = s.dinode y) :
    Blocks t (t.itable i).d ∧ t.NoHoles (t.itable i).d ∧ (t.itable i).d.size % DIRENT = 0 := by
  have hused : (s.dinode y).type ≠ .free := by
    rw [hdir]
    decide
  rw [hd]
  refine ⟨(h.congr hV hused).1, fun k hk => ?_, hV.size y hdir⟩
  rw [h.slot hV hused]
  exact hV.full y hdir k hk

theorem Aside.besides (h : Aside s x t) (hV : Volume s) : Besides s x t := by
  have he : ∀ y, (if y = x then s.dinode y else t.dinode y) = s.dinode y := fun y => by
    split
    · rfl
    · next hne => exact h.dinode y hne
  refine ⟨h.tables, fun y hy => ⟨(s.dinode y).addrs, h.dinode y hy⟩, fun y hy a ha => ?_, fun y hy k _ _ => ?_⟩
  · rw [he]
    exact (h.congr hV hy).2 a ha
  · rw [he]
    exact h.slot hV hy k

/-- What `dirlink` in the directory `xd`, which is in entry `i`, does to the inode table and to other inodes. -/
structure Enters (i : Fin NINODE) (xd : Nat) (t t' : State n) : Prop where
  tables : t'.tables = t.tables
  dinode : ∀ y, y ≠ xd → t'.dinode y = t.dinode y
  copies : Copies t'
  entry : ∀ j, j ≠ i → 0 < (t.itable j).ref → t'.itable j = t.itable j
  ref : (t'.itable i).ref = (t.itable i).ref
  nlink : (t'.itable i).d.nlink = (t.itable i).d.nlink

theorem Rests.enters (h : Rests t t') (hcop : Copies t) (hpos : 0 < (t.itable i).ref) : Enters i xd t t' where
  tables := h.tables
  dinode y _ := by rw [h.dinode]
  copies := h.copies hcop
  entry j _ hj := h.entry j hj
  ref := by rw [h.entry i hpos]
  nlink := by rw [h.entry i hpos]

theorem WroteAt.enters (h : WroteAt i src off len t t' m k) (hcop : Copies t)
    (hpos : 0 < (t.itable i).ref) : Enters i (t.itable i).inum t t' := by
  have hcop' := h.copies hcop hpos
  have hne : ∀ j, j ≠ i → t'.itable j = t.itable j := fun j hj => h.itable_ne hj
  obtain ⟨addrs, bits, blocks, hsame⟩ := h.same
  have hself : t'.itable i = { t.itable i with
      d := { (t.itable i).d with addrs := addrs, size := max (t.itable i).d.size (off + m) } } := by
    rw [hsame]
    exact update_self ..
  refine ⟨by rw [hsame]; rfl, fun y hy => ?_, hcop', fun j hj _ => hne j hj, by rw [hself], by rw [hself]⟩
  rw [hsame]
  exact update_of_ne hy ..

theorem dirlink_fails (hV : Volume s) (ha : Aside s x t) (hdir : (s.dinode xd).type = .T_DIR) (hne : xd ≠ x)
    (hd : (t.itable i).d = s.dinode xd) (hnum : (t.itable i).inum = xd) (hpos : 0 < (t.itable i).ref)
    (hcop : Copies t) : Ends (dirlink p i name y) t fun t' r => Enters i xd t t' ∧ (r < 0 → Besides s x t') := by
  have hused : (s.dinode xd).type ≠ .free := by
    rw [hdir]
    decide
  obtain ⟨hB, hfull, hmod⟩ := ha.directory hV hdir hd
  refine (dirlink_ends hB hfull hmod).mono ?_
  rintro t' r (⟨-, hr⟩ | ⟨off, m, hoff, -, -, hm, -, hw⟩)
  · exact ⟨hr.enters hcop hpos, fun _ => (ha.trans hr.toSameDisk.aside).besides hV⟩
  refine ⟨hnum ▸ hw.enters hcop hpos, fun hlt => ?_⟩
  obtain ⟨rfl, hblocks⟩ := hm hlt
  obtain ⟨addrs, bits, blocks, hsame⟩ := hw.same
  rw [hd, hnum, Nat.add_zero, Nat.max_eq_left (by rw [← hd]; exact hoff)] at hsame
  have hdin : t'.dinode = update t.dinode xd { s.dinode xd with addrs := addrs } := by rw [hsame]
  have hself : (t'.itable i).d = { s.dinode xd with addrs := addrs } := by
    rw [hsame]
    change (update t.itable i _ i).d = _
    rw [update_self]
  have hown : (if xd = x then s.dinode xd else t'.dinode xd) = (t'.itable i).d := by
    rw [if_neg hne, hdin, update_self, hself]
  have hrest : ∀ y, y ≠ xd → (if y = x then s.dinode y else t'.dinode y) = s.dinode y := fun y hyd => by
    split
    · rfl
    · next hyx => rw [hdin, update_of_ne hyd, ha.dinode y hyx]
  -- the blocks of the other files are in use and not those of the directory
  have hother : ∀ y, y ≠ xd → (s.dinode y).type ≠ .free → ∀ k ≤ MAXFILE, s.slot (s.dinode y) k ≠ 0 →
      t'.block (s.slot (s.dinode y) k) = s.block (s.slot (s.dinode y) k) ∧ t'.bitmap (s.slot (s.dinode y) k) = true :=
      fun y hyd hy k hk h0 => by
    obtain ⟨h1, h2⟩ := ha.block _ h0 ((hV.blocks y hy).used k hk h0)
    obtain ⟨h3, h4, -⟩ := hw.others _ h0 h2 fun k' hk' => by
      rw [hd, ha.slot hV hused]
      exact Ne.symm (hV.apart y xd hy hused hyd k hk k' hk' h0)
    exact ⟨h3.trans h1, h4⟩
  refine ⟨by rw [hsame]; exact ha.tables, fun y hy => ?_, fun y hy a ha' => ?_, fun y hy => ?_⟩
  · by_cases hyd : y = xd
    · subst hyd
      exact ⟨addrs, by rw [hdin, update_self]⟩
    · exact ⟨(s.dinode y).addrs, by rw [hdin, update_of_ne hyd, ha.dinode y hy]⟩
  · by_cases hyd : y = xd
    · subst hyd
      rw [hown, hw.byte a ha', if_neg (by omega), hd]
      exact (ha.congr hV hy).2 a ha'
    · rw [hrest y hyd]
      exact ((hV.blocks y hy).congr (t := t') (fun k hk h0 => (hother y hyd hy k hk h0).1) (fun k hk h0 => (hother y hyd hy k hk h0).2)
        (hw.sb.trans ha.sb)).2 a ha'
  · by_cases hyd : y = xd
    · subst hyd
      rw [hown]
      intro k hk hslot
      rw [hd] at hblocks
      rw [← ha.slot hV hused] at hslot ⊢
      exact hblocks k hk hslot
    · rw [hrest y hyd]
      exact fun k _ _ => slot_congr fun h0 => (hother y hyd hy MAXFILE le_rfl h0).1

end Xv6.Fs
