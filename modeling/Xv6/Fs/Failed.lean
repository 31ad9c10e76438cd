import Xv6.Fs.Undo

/-!
# Failed calls on names

What `sys_mkdir`, `sys_mknod`, `sys_link`, `sys_unlink` and `sys_chdir` leave when they return -1 and no other process runs.
-/

namespace Xv6.Fs

open Function (update update_of_ne update_self)
open Run Prog

variable {n : Nat} {p : Fin n} {s t t' : State n} {i j dp ip : Fin NINODE} {x y : Nat}

theorem addLink_ends (k : Int) : Ends (addLink i k) t fun t' _ =>
    t' = { t.setInode i { t.itable i with d := { (t.itable i).d with nlink := short ((t.itable i).d.nlink + k) } } with
      dinode := update t.dinode (t.itable i).inum { (t.itable i).d with nlink := short ((t.itable i).d.nlink + k) } } := by
  intro t' r hrun
  have h := store_iupdate_eval t i (fun d => { d with nlink := short (d.nlink + k) }) (pure ())
  have hrun' : (do store i fun d => { d with nlink := short (d.nlink + k) }; iupdate i; pure () : FsM n Unit).eval t = .ok (t', r) := hrun
  rw [h] at hrun'
  cases hrun'
  rfl

theorem short_undo {k : Int} (h : short k = k) : short (short (k + 1) + -1) = k := by
  simp only [short, Int.bmod] at *
  omega

theorem short_short (k : Int) : short (short k) = short k := by
  simp only [short, Int.bmod]
  omega

def Dinode.linked (d : Dinode) : Dinode := { d with nlink := short (d.nlink + 1) }

theorem linkUndo_ends (hV : Volume s) (hcop : Copies t) (h : Besides s x t)
    (hnum : (t.itable ip).inum = x) (hval : (t.itable ip).valid = true) (hd : (t.itable ip).d = (s.dinode x).linked)
    (hlast : ¬((t.itable ip).ref = 1 ∧ (s.dinode x).nlink = 0)) : Ends (linkUndo p ip) t fun t' _ => Untouched s t' := by
  unfold linkUndo
  refine ends_bind (ilock_ends.mono ?_)
  rintro t1 - ⟨hpos, -, ht1⟩
  have hip1 : t1.itable ip = { t.itable ip with lock := some p, valid := true } := by
    rw [ht1, setInode_self, if_pos hval]
  have hw1 : Within ip t t1 := by
    rw [ht1]
    exact within_set rfl rfl rfl rfl fun _ _ => rfl
  refine ends_bind ((addLink_ends (-1)).mono ?_)
  rintro t2 - ht2
  have hback : ({ (t1.itable ip).d with nlink := short ((t1.itable ip).d.nlink + -1) } : Dinode) = s.dinode x := by
    rw [hip1]
    change ({ (t.itable ip).d with nlink := short ((t.itable ip).d.nlink + -1) } : Dinode) = _
    rw [hd]
    change ({ s.dinode x with nlink := short (short ((s.dinode x).nlink + 1) + -1) } : Dinode) = _
    rw [short_undo (hV.nlink x)]
  rw [hback] at ht2
  have hnum1 : (t1.itable ip).inum = x := by rw [hip1, hnum]
  rw [hnum1] at ht2
  have hip2 : t2.itable ip = { t1.itable ip with d := s.dinode x } := by
    rw [ht2]
    exact update_self ..
  have hdin2 : t2.dinode x = s.dinode x := by
    rw [ht2]
    exact update_self ..
  have hw2 : Within ip t1 t2 := by
    rw [ht2]
    exact within_set rfl rfl rfl rfl fun y hy => update_of_ne (by rw [← hnum1]; exact hy) ..
  have hw := hw1.trans hw2
  have hcop2 : Copies t2 := hw.copies hcop hpos fun _ => by rw [hip2, hnum, hdin2]
  refine ends_bind ((iunlockput_ends ?_ hcop2).mono ?_)
  · rw [hip2, hip1]
    exact hlast
  rintro t3 - ⟨h3, hcop3, -⟩
  refine ends_bind (ends_of_eval (t := { t3 with outstanding := t3.outstanding - 1 }) (a := ()) rfl (ends_pure ?_))
  refine Besides.untouched (x := x) (h.congr (h3.tables.trans hw.tables) (h3.block.trans hw.block) fun y hy => ?_) hV
    ⟨hcop3.uniq, hcop3.loaded⟩ (.inr ?_)
  · change t3.dinode y = _
    rw [h3.dinode]
    exact hw.dinode y (by rw [hnum]; exact hy)
  · change t3.dinode x = _
    rw [h3.dinode]
    exact hdin2

theorem ne_of_dir (hfile : (s.dinode x).type ≠ .T_DIR) (hy : (s.dinode y).type = .T_DIR) : y ≠ x := fun he =>
  hfile (by rw [← he]; exact hy)

section Linked

variable (hpos : 0 ≤ (s.itable ip).ref) (hin : 0 < (s.itable ip).ref → (s.itable ip).inum = x)

/-- The state with one more link to inode `x` on the disk, and one more reference to it in entry `ip`. -/
def State.relink (s : State n) (x : Nat) (ip : Fin NINODE) : State n := { s with
  dinode := update s.dinode x (s.dinode x).linked
  itable := update s.itable ip { s.itable ip with inum := x, ref := (s.itable ip).ref + 1 } }

theorem relink_self : (s.relink x ip).dinode x = (s.dinode x).linked := update_self ..

theorem relink_ne (h : y ≠ x) : (s.relink x ip).dinode y = s.dinode y := update_of_ne h ..

theorem relink_entry : (s.relink x ip).itable ip = { s.itable ip with inum := x, ref := (s.itable ip).ref + 1 } := update_self ..

theorem relink_entry_ne (h : j ≠ ip) : (s.relink x ip).itable j = s.itable j := update_of_ne h ..

theorem relink_type : ((s.relink x ip).dinode y).type = (s.dinode y).type := by
  by_cases hy : y = x
  · rw [hy, relink_self]
    rfl
  · rw [relink_ne hy]

theorem relink_slot {k : Nat} : (s.relink x ip).slot ((s.relink x ip).dinode y) k = s.slot (s.dinode y) k := by
  by_cases hy : y = x
  · rw [hy, relink_self]
    rfl
  · rw [relink_ne hy]
    rfl

theorem relink_le (j : Fin NINODE) : (s.itable j).ref ≤ ((s.relink x ip).itable j).ref := by
  by_cases hj : j = ip
  · rw [hj, relink_entry]
    exact Int.le_add_one le_rfl
  · rw [relink_entry_ne hj]

include hpos hin

theorem relink_reached (h : s.Reached y) : (s.relink x ip).Reached y := by
  refine ⟨by rw [relink_type]; exact h.1, ?_⟩
  by_cases hy : y = x
  · -- the process itself has a reference
    refine .inr ⟨ip, ?_, by rw [relink_entry, hy]⟩
    rw [relink_entry]
    exact Int.lt_add_one_of_le hpos
  · rw [relink_ne hy]
    refine h.2.imp_right ?_
    rintro ⟨j, hj, hnum⟩
    have hji : j ≠ ip := fun he => hy (by rw [← hnum, he, hin (he ▸ hj)])
    exact ⟨j, by rw [relink_entry_ne hji]; exact hj, by rw [relink_entry_ne hji, hnum]⟩

theorem Volume.relink (hV : Volume s) (hfile : (s.dinode x).type ≠ .T_DIR) : Volume (s.relink x ip) where
  root := relink_reached hpos hin hV.root
  size y hy := by
    rw [relink_type] at hy
    rw [relink_ne (ne_of_dir hfile hy)]
    exact hV.size y hy
  full y hy k hk := by
    rw [relink_type] at hy
    rw [relink_ne (ne_of_dir hfile hy)] at hk
    rw [relink_slot]
    exact hV.full y hy k hk
  entry y hy e he h0 := by
    rw [relink_type] at hy ⊢
    have hdir : (s.relink x ip).dirents y = s.dirents y := by
      unfold State.dirents
      rw [relink_ne (ne_of_dir hfile hy)]
      rfl
    rw [hdir] at he
    exact (hV.entry y hy e he h0).imp_left (relink_reached hpos hin)
  blocks y hy := by
    rw [relink_type] at hy
    have h := hV.blocks y hy
    refine ⟨fun k hk => ?_, fun k hk k' hk' => ?_, ?_, h.disk⟩
    · rw [relink_slot]
      exact h.used k hk
    · rw [relink_slot, relink_slot]
      exact h.inj k hk k' hk'
    · by_cases hyx : y = x
      · rw [hyx, relink_self]
        exact hyx ▸ h.size
      · rw [relink_ne hyx]
        exact h.size
  apart y z hy hz hne k hk k' hk' := by
    rw [relink_type] at hy hz
    rw [relink_slot, relink_slot]
    exact hV.apart y z hy hz hne k hk k' hk'
  nlink y := by
    by_cases hyx : y = x
    · rw [hyx, relink_self]
      exact short_short _
    · rw [relink_ne hyx]
      exact hV.nlink y

theorem Holds.relink (h : Holds s ((fun _ => 0) + oneRef ip) t) (hnum : (t.itable ip).inum = x) (hval : (t.itable ip).valid = true)
    {v : Inode n} (hit : t'.itable = update t.itable ip v) (hvref : v.ref = (t.itable ip).ref) (hvnum : v.inum = x)
    (hvd : v.d = (s.dinode x).linked) (hsame : SameDisk { t with dinode := t'.dinode } t')
    (hdin : t'.dinode = update t.dinode x (s.dinode x).linked) : Holds (s.relink x ip) (fun _ => 0) t' := by
  have hself : t'.itable ip = v := by rw [hit, update_self]
  have hne : ∀ j, j ≠ ip → t'.itable j = t.itable j := fun j hj => by rw [hit, update_of_ne hj]
  have href : ∀ j, (t'.itable j).ref = (t.itable j).ref := fun j => by
    by_cases hj : j = ip
    · rw [hj, hself, hvref]
    · rw [hne j hj]
  have hinum : ∀ j, (t'.itable j).inum = (t.itable j).inum := fun j => by
    by_cases hj : j = ip
    · rw [hj, hself, hvnum, hnum]
    · rw [hne j hj]
  have hpos' : 0 < (t.itable ip).ref := by
    rw [h.ref ip, Pi.add_apply, oneRef_self]
    omega
  -- no other entry is for the inode
  have hother : ∀ j, j ≠ ip → 0 < (t.itable j).ref → (t.itable j).inum ≠ x := fun j hj hp he =>
    hj (h.uniq j ip hp hpos' (he.trans hnum.symm))
  have hdisk : t'.dinode = (s.relink x ip).dinode := by
    rw [hdin, h.disk.dinode]
    rfl
  refine ⟨⟨fun j => ?_, fun _ => le_rfl, fun j hj => ?_, fun a b ha hb hab => ?_, fun j hj hv => ?_, fun j hj => ?_⟩, hsame.sb.trans h.disk.sb,
    hdisk, hsame.bitmap.trans h.disk.bitmap, hsame.block.trans h.disk.block, hsame.tables.trans h.disk.tables⟩
  · rw [href, h.ref, add_zero, Pi.add_apply]
    by_cases hji : j = ip
    · rw [hji, relink_entry, oneRef_self]
      change (s.itable ip).ref + (0 + 1) = (s.itable ip).ref + 1
      omega
    · rw [relink_entry_ne hji, oneRef_ne hji]
      exact add_zero _
  · by_cases hji : j = ip
    · rw [hji, relink_entry, hself, hvnum]
    · rw [relink_entry_ne hji] at hj ⊢
      rw [hne j hji]
      exact h.inum j hj
  · rw [href] at ha hb
    rw [hinum, hinum] at hab
    exact h.uniq a b ha hb hab
  · by_cases hji : j = ip
    · rw [hji, hself, hvnum, hvd, relink_self]
    · rw [hne j hji] at hj hv ⊢
      rw [relink_ne (hother j hji hj)]
      exact h.loaded j hj hv
  · rw [href] at hj
    rw [State.Stays, hinum, relink_type]
    rcases h.stays j hj with hr | ⟨hf, hnv⟩
    · exact .inl (relink_reached hpos hin hr)
    · refine .inr ⟨hf, ?_⟩
      by_cases hji : j = ip
      · rw [hji, hval] at hnv
        cases hnv
      · rw [hne j hji]
        exact hnv

theorem Holds.raise (h : Holds s ((fun _ => 0) + oneRef ip) t) (hnum : (t.itable ip).inum = x) (hval : (t.itable ip).valid = true)
    (hd : (t.itable ip).d = s.dinode x) : Ends (addLink ip 1) t fun t1 _ => Ends (Fs.iunlock p ip) t1 fun t2 _ =>
      Holds (s.relink x ip) (fun _ => 0) t2 ∧ (t2.itable ip).inum = x ∧ (t2.itable ip).valid = true ∧
        (t2.itable ip).d = (s.dinode x).linked := by
  refine (addLink_ends 1).mono ?_
  rintro t1 - ht1
  rw [hd, hnum] at ht1
  refine iunlock_ends.mono ?_
  rintro t2 - ⟨-, ht2⟩
  set v : Inode n := { t.itable ip with d := (s.dinode x).linked, lock := none } with hv
  have hip1 : t1.itable ip = { t.itable ip with d := (s.dinode x).linked } := by
    rw [ht1]
    exact update_self ..
  have hit : t2.itable = update t.itable ip v := by
    rw [ht2, hip1, ht1]
    exact Function.update_idem ..
  have hip2 : t2.itable ip = v := by rw [hit, update_self]
  refine ⟨h.relink hpos hin hnum hval hit rfl hnum rfl ?_ ?_, by rw [hip2, hv, hnum], by rw [hip2, hv, hval], by rw [hip2, hv]⟩
  · rw [ht2, ht1]
    exact ⟨rfl, rfl, rfl, rfl, rfl⟩
  · rw [ht2, ht1]
    rfl

omit hpos hin in
theorem relink_aside : Aside s x (s.relink x ip) :=
  ⟨rfl, rfl, fun _ hy => relink_ne hy, fun _ _ hb => ⟨rfl, hb⟩⟩

end Linked

theorem linkEntry_ends {name : List UInt8} (hV : Volume s) (h₀ : ∀ j, 0 ≤ ((s.relink x ip).itable j).ref)
    (hfile : (s.dinode x).type ≠ .T_DIR) (hpos : 0 < ((s.relink x ip).itable ip).ref)
    (hlast : ¬(((s.relink x ip).itable ip).ref = 1 ∧ (s.dinode x).nlink = 0)) (h : Holds (s.relink x ip) ((fun _ => 0) + oneRef dp) t)
    (hdir : (s.dinode (t.itable dp).inum).type = .T_DIR) (hnum : (t.itable ip).inum = x) (hval : (t.itable ip).valid = true)
    (hd : (t.itable ip).d = (s.dinode x).linked) : Ends (do
      Fs.ilock p dp
      let inum ← inumOf ip
      let r ← dirlink p dp name inum
      iunlockput p dp
      if r < 0 then linkUndo p ip
      else
        iput p ip
        endOp
        return 0) t fun t' r => r = -1 → Untouched s t' := by
  have hpos' : 0 < (t.itable ip).ref := by
    rw [h.ref ip]
    exact Int.add_pos_of_pos_of_nonneg hpos (h.held ip)
  refine ends_bind (h.ilock.mono ?_)
  rintro t1 - ⟨h1, hdval, hdp, -, hk⟩
  have hdnum : (t1.itable dp).inum = (t.itable dp).inum := (hk dp (h.pos h₀ only_oneRef_pos)).1
  obtain ⟨hnum1, hcopy⟩ := hk ip hpos'
  obtain ⟨hval1, hd1⟩ := hcopy hval
  rw [hnum] at hnum1
  rw [hd] at hd1
  generalize (t.itable dp).inum = xd at *
  have hne : xd ≠ x := ne_of_dir hfile hdir
  rw [relink_ne hne] at hdp
  have hentry : ip ≠ dp := fun he => hne (by rw [← hdnum, ← he, hnum1])
  have href1 : (t1.itable ip).ref = ((s.relink x ip).itable ip).ref := by
    rw [h1.ref ip, Pi.add_apply, oneRef_ne hentry]
    exact add_zero _
  refine ends_bind (ends_of_eval (t := t1) (a := (t1.itable ip).inum) rfl ?_)
  refine ends_bind ((dirlink_fails hV (relink_aside.trans h1.disk.aside) hdir hne hdp hdnum (h1.pos h₀ only_oneRef_pos)
    h1.copies).mono ?_)
  rintro t2 r ⟨hE, hr⟩
  by_cases hlt : r < 0
  · refine ends_bind ((iunlockput_ends ?_ hE.copies).mono ?_)
    · rw [hE.ref, hE.nlink, hdp]
      exact fun hc => h1.not_last h₀ only_oneRef_pos ⟨hc.1, hdval, by rw [hdnum, relink_ne hne]; exact hc.2⟩
    · rintro t3 - ⟨h3, hcop3, hkeep3⟩
      have hip : t3.itable ip = t1.itable ip := (hkeep3 ip hentry).trans (hE.entry ip hentry (by rw [href1]; exact hpos))
      rw [if_pos hlt]
      refine (linkUndo_ends hV hcop3 ((hr hlt).congr h3.tables h3.block fun y _ => by rw [h3.dinode]) (by rw [hip, hnum1]) (by rw [hip, hval1])
        (by rw [hip, hd1]) ?_).mono fun _ _ hu _ => hu
      rw [hip, href1]
      exact hlast
  · refine ends_bind (ends_any fun t3 _ => ?_)
    rw [if_neg hlt]
    exact ends_bind (ends_any fun _ _ => ends_bind (ends_any fun _ _ => ends_pure (by simp)))

section Calls

variable (hV : Volume s) (h₀ : Settled s) (hcwd : ∀ i, (s.proc p).cwd = some i → 0 < (s.itable i).ref)

include hV h₀ hcwd

theorem sysLink_ends (old new : Option Path) : Ends (sysLink p old new) s fun t r => r = -1 → Untouched s t := by
  unfold sysLink
  rcases old with _ | old
  · exact ends_pure fun _ => h₀.holds.untouched hV
  rcases new with _ | new
  · exact ends_pure fun _ => h₀.holds.untouched hV
  refine ends_bind (beginOp_ends.mono ?_)
  rintro t1 - rfl
  have h1 := h₀.holds.outstanding (k := s.outstanding + 1)
  refine ends_bind ((namei_ends hV h₀ hcwd old.val h1).mono ?_)
  rintro t2 (_ | ip) h2
  · exact h2.endOp hV
  dsimp only at h2 ⊢
  refine ends_bind (h2.ilock.mono ?_)
  rintro t3 - ⟨h3, hval, hd, -, hk⟩
  have hnum : (t3.itable ip).inum = (t2.itable ip).inum := (hk ip (h2.pos h₀.ref only_oneRef_pos)).1
  generalize (t2.itable ip).inum = x at *
  refine ends_bind (ends_of_eval (t := t3) (a := (t3.itable ip).d) rfl ?_)
  split
  · exact h3.leave hV h₀ fun _ => le_rfl
  next hfile =>
  rw [hd] at hfile
  have hin : 0 < (s.itable ip).ref → (s.itable ip).inum = x := fun hp => by rw [← h3.inum ip hp, hnum]
  refine ends_bind ((h3.raise (h₀.ref ip) hin hnum hval hd).mono fun t4 _ h4 => ends_bind (h4.mono ?_))
  rintro t5 - ⟨h5, hnum5, hval5, hd5⟩
  have hipb : ((s.relink x ip).itable ip).ref = (s.itable ip).ref + 1 := by rw [relink_entry]
  have hpos : 0 < ((s.relink x ip).itable ip).ref := by
    rw [hipb]
    exact Int.lt_add_one_of_le (h₀.ref ip)
  have hlast : ¬(((s.relink x ip).itable ip).ref = 1 ∧ (s.dinode x).nlink = 0) := fun hc =>
    h3.not_last h₀.ref only_oneRef_pos ⟨by rw [h3.ref ip, Pi.add_apply, oneRef_self]; exact hipb.symm.trans hc.1, hval,
      by rw [hnum]; exact hc.2⟩
  have href0 : ∀ j, 0 ≤ ((s.relink x ip).itable j).ref := fun j => (h₀.ref j).trans (relink_le j)
  refine ends_bind ((namex_ends href0 (hV.relink (h₀.ref ip) hin hfile) h5 (fun i hi => lt_of_lt_of_le (hcwd i hi) (relink_le i))
    new.val true).mono ?_)
  rintro t6 r ⟨hr, hk6⟩
  -- the inode is in use while the second path is followed
  obtain ⟨hnum6, hcopy6⟩ := hk6 ip (by rw [add_zero]; exact hpos)
  obtain ⟨hval6, hd6⟩ := hcopy6 hval5
  rw [hnum5] at hnum6
  rw [hd5] at hd6
  rcases r with _ | ⟨dp, name⟩
  · have h6 : Holds (s.relink x ip) (fun _ => 0) t6 := hr
    refine (linkUndo_ends hV h6.copies ((relink_aside.trans h6.disk.aside).besides hV) hnum6 hval6 hd6 ?_).mono fun _ _ hu _ => hu
    rw [h6.ref ip, add_zero]
    exact hlast
  · have hdir := hr.2 rfl
    rw [relink_type] at hdir
    exact linkEntry_ends hV href0 hfile hpos hlast hr.1 hdir hnum6 hval6 hd6

end Calls

/-- The system calls that change or use names, besides `open`. -/
inductive NameCall where
  | mkdir (path : Option Path)
  | mknod (path : Option Path) (major minor : Int)
  | link (old new : Option Path)
  | unlink (path : Option Path)
  | chdir (path : Option Path)

def NameCall.run (p : Fin n) : NameCall → FsM n Int
  | .mkdir path => sysMkdir p path
  | .mknod path major minor => sysMknod p path major minor
  | .link old new => sysLink p old new
  | .unlink path => sysUnlink p path
  | .chdir path => sysChdir p path

/-- When one of the calls returns -1, the inodes in use with their types, sizes, contents and counts of links, the names in the
directories and the current directories are as before; a directory may have got an indirect block without entries. -/
theorem failed_call_untouched (p : Fin n) (call : NameCall) (s : State n) (h₀ : Settled s) (hV : Volume s)
    (hcwd : ∀ i, (s.proc p).cwd = some i → 0 < (s.itable i).ref) : ∀ t, (call.run p).eval s = .ok (t, -1) → Untouched s t := by
  intro t hrun
  have hends : Ends (call.run p) s fun t r => r = -1 → Untouched s t := by
    cases call with
    | mkdir path => exact sysMake_ends hV h₀ hcwd path .T_DIR 0 0
    | mknod path major minor => exact sysMake_ends hV h₀ hcwd path .T_DEVICE major minor
    | link old new => exact sysLink_ends hV h₀ hcwd old new
    | unlink path => exact sysUnlink_ends hV h₀ hcwd path
    | chdir path => exact sysChdir_ends hV h₀ hcwd path
  exact hends t (-1) hrun rfl

def fullDisk : State 1 := { onlyRoot with bitmap := fun _ => true }

theorem fullDisk_used (h : (fullDisk.dinode x).type ≠ .free) : x = ROOTINO := by
  by_contra hx
  have : fullDisk.dinode x = {} := if_neg hx
  rw [this] at h
  exact h rfl

theorem fullDisk_slot (k : Nat) : fullDisk.slot rootDir k = if k = 0 then 46 else 0 := by
  unfold State.slot
  by_cases hk : k < NDIRECT
  · rw [if_pos hk]
    rfl
  · rw [if_neg hk, if_neg (show k ≠ 0 from fun h => hk (h ▸ Nat.succ_pos 11))]
    split <;> rfl

theorem fullDisk_blocks : Blocks fullDisk rootDir := by
  refine ⟨fun _ _ _ => rfl, fun k _ k' _ h0 he => ?_, by decide, by decide⟩
  rw [fullDisk_slot] at h0
  rw [fullDisk_slot, fullDisk_slot] at he
  by_cases hk : k = 0
  · by_cases hk' : k' = 0
    · exact hk.trans hk'.symm
    · rw [if_pos hk, if_neg hk'] at he
      cases he
  · exact absurd (if_neg hk) h0

theorem fullDisk_settled : Settled fullDisk :=
  ⟨onlyRoot_settled.ref, onlyRoot_settled.lock, onlyRoot_settled.uniq, onlyRoot_settled.loaded, onlyRoot_settled.used⟩

theorem fullDisk_volume : Volume fullDisk where
  root := onlyRoot_tree.root
  size x hx := (onlyRoot_tree.size x hx).2
  full := onlyRoot_tree.full
  entry := onlyRoot_tree.entry
  blocks x hx := by
    rw [fullDisk_used hx]
    exact fullDisk_blocks
  apart x y hx hy hne := absurd ((fullDisk_used hx).trans (fullDisk_used hy).symm) hne
  nlink x := by
    by_cases hx : x = ROOTINO
    · rw [hx]
      decide
    · rw [show fullDisk.dinode x = {} from if_neg hx]
      decide

set_option maxRecDepth 100000 in
theorem fullDisk_mkdir : ((NameCall.run theProc (.mkdir (some pathA))).eval fullDisk).toOption.map Prod.snd = some (-1) := by
  decide +kernel

/-- `mkdir` takes an inode, has no block for its first entry, and gives the inode back. -/
theorem failed_call_untouched_mkdir : Settled fullDisk ∧ Volume fullDisk ∧
    ∃ t, (NameCall.run theProc (.mkdir (some pathA))).eval fullDisk = .ok (t, -1) ∧ Untouched fullDisk t := by
  refine ⟨fullDisk_settled, fullDisk_volume, ?_⟩
  have hret := fullDisk_mkdir
  cases hrun : (NameCall.run theProc (.mkdir (some pathA))).eval fullDisk with
  | error e =>
    rw [hrun] at hret
    cases hret
  | ok q =>
    rw [hrun] at hret
    have hq : q.2 = -1 := Option.some.inj hret
    refine ⟨q.1, by rw [← hq], failed_call_untouched theProc (.mkdir (some pathA)) fullDisk fullDisk_settled fullDisk_volume
      (fun i hi => ?_) q.1 (by rw [hrun, ← hq])⟩
    cases hi
    decide

end Xv6.Fs
