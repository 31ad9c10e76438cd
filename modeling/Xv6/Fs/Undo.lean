import Xv6.Fs.Names

/-!
# Failed calls that give back what they took

What `sys_chdir`, `sys_unlink`, `sys_mkdir` and `sys_mknod` leave when they return -1 and no other process runs. The first two have changed
nothing on the disk then; `create` may have made an inode and written entries to it, and frees it again.
-/

namespace Xv6.Fs

open Function (update update_idem update_of_ne update_self)
open Run Prog

variable {n : Nat} {p : Fin n} {b s t t' : State n} {c : Fin NINODE → Int} {i j dp ip : Fin NINODE} {x y xd : Nat} {e : Dinode}
  {name : List UInt8}

/-- The inodes in use with their fields and contents, the names in the directories, the processes and the file table are as before. -/
structure Untouched (s t : State n) : Prop where
  free : ∀ x, (s.dinode x).type = .free → (t.dinode x).type = .free
  inode : ∀ x, (s.dinode x).type ≠ .free → ∃ a, t.dinode x = { s.dinode x with addrs := a }
  blocks : ∀ x, (s.dinode x).type ≠ .free → SameBlocks s (s.dinode x) t (t.dinode x)
  contents : ∀ x, (s.dinode x).type ≠ .free → t.contents (t.dinode x) = s.contents (s.dinode x)
  find : ∀ x, (s.dinode x).type = .T_DIR → ∀ name, t.find x name = s.find x name
  proc : t.proc = s.proc
  ftable : t.ftable = s.ftable
  copies : Copies t

theorem Besides.untouched (h : Besides s x t) (hV : Volume s) (hcop : Copies t)
    (hx : (s.dinode x).type = .free ∧ (t.dinode x).type = .free ∨ t.dinode x = s.dinode x) : Untouched s t := by
  have hinode : ∀ y, (s.dinode y).type ≠ .free → ∃ a, t.dinode y = { s.dinode y with addrs := a } := fun y hy => by
    by_cases hyx : y = x
    · subst hyx
      rcases hx with ⟨hx, -⟩ | hx
      · exact absurd hx hy
      · exact ⟨(s.dinode y).addrs, hx⟩
    · exact h.inode y hyx
  have hsize : ∀ y, (s.dinode y).type ≠ .free → (t.dinode y).size = (s.dinode y).size := fun y hy => by
    obtain ⟨a, ha⟩ := hinode y hy
    rw [ha]
  have hself : ∀ y, (s.dinode y).type ≠ .free → (if y = x then s.dinode y else t.dinode y) = t.dinode y := fun y hy => by
    split
    · next hyx =>
      subst hyx
      rcases hx with ⟨hx, -⟩ | hx
      · exact absurd hx hy
      · exact hx.symm
    · rfl
  have hbyte : ∀ y, (s.dinode y).type ≠ .free → ∀ a < (s.dinode y).size, t.byte (t.dinode y) a = s.byte (s.dinode y) a := fun y hy a ha => by
    have := h.byte y hy a (lt_of_lt_of_le ha (hV.blocks y hy).size)
    rwa [hself y hy] at this
  refine ⟨fun y hy => ?_, hinode, fun y hy => ?_, fun y hy => ?_, fun y hy name => ?_,
    congrArg Prod.fst h.tables, congrArg Prod.snd h.tables, hcop⟩
  · by_cases hyx : y = x
    · subst hyx
      rcases hx with ⟨-, hx⟩ | hx
      · exact hx
      · rw [hx]
        exact hy
    · obtain ⟨a, ha⟩ := h.inode y hyx
      rw [ha]
      exact hy
  · have := h.blocks y hy
    rwa [hself y hy] at this
  · unfold State.contents
    rw [hsize y hy]
    exact List.map_congr_left fun a ha => hbyte y hy a (List.mem_range.1 ha)
  · have hy' : (s.dinode y).type ≠ .free := by
      rw [hy]
      decide
    unfold State.find State.dirents
    rw [hsize y hy', dirents_congr (hbyte y hy')]

theorem Untouched.congr (h : Untouched s t) (hdin : t'.dinode = t.dinode) (hblock : t'.block = t.block)
    (htab : t'.tables = t.tables) (hit : t'.itable = t.itable) : Untouched s t' := by
  have hbyte := byte_of_block hblock
  refine ⟨fun x hx => ?_, fun x hx => ?_, fun x hx k hk hs => ?_, fun x hx => ?_, fun x hx name => ?_,
    (congrArg Prod.fst htab).trans h.proc, (congrArg Prod.snd htab).trans h.ftable, ?_⟩
  · rw [hdin]
    exact h.free x hx
  · rw [hdin]
    exact h.inode x hx
  · rw [hdin, slot_of_block hblock]
    exact h.blocks x hx k hk hs
  · unfold State.contents
    rw [hdin, hbyte]
    exact h.contents x hx
  · unfold State.find State.dirents
    rw [hdin, hbyte]
    exact h.find x hx name
  · exact ⟨by rw [hit]; exact h.copies.uniq, by rw [hit, hdin]; exact h.copies.loaded⟩

theorem Holds.untouched (h : Holds s c t) (hV : Volume s) : Untouched s t :=
  ((h.disk.aside (x := 0)).besides hV).untouched hV h.copies (.inr (by rw [h.disk.dinode]))

theorem beginOp_ends : Ends beginOp t fun t' _ => t' = { t with outstanding := t.outstanding + 1 } := by
  unfold beginOp
  refine ends_atomic fun t' _ hrun => ?_
  split at hrun
  · cases hrun
  · cases hrun
    rfl

theorem Holds.outstanding {k : Nat} (h : Holds b c t) : Holds b c { t with outstanding := k } :=
  ⟨⟨h.ref, h.held, h.inum, h.uniq, h.loaded, h.stays⟩, h.disk.sb, h.disk.dinode, h.disk.bitmap, h.disk.block, h.disk.tables⟩

section Calls

variable (hV : Volume s) (h₀ : Settled s) (hcwd : ∀ i, (s.proc p).cwd = some i → 0 < (s.itable i).ref)

include hV

theorem Holds.endOp (h : Holds s c t) : Ends (do Fs.endOp; return -1 : FsM n Int) t fun t' r => r = -1 → Untouched s t' :=
  ends_bind (ends_of_eval (t := { t with outstanding := t.outstanding - 1 }) (a := ()) rfl
    (ends_pure fun _ => (h.outstanding (k := t.outstanding - 1)).untouched hV))

include h₀

theorem Holds.leave (h : Holds s (c + oneRef i) t) (hc : ∀ j, 0 ≤ c j) :
    Ends (do Fs.iunlockput p i; Fs.endOp; return -1 : FsM n Int) t fun t' r => r = -1 → Untouched s t' :=
  ends_bind ((h.iunlockput h₀.ref hc).mono fun _ _ h1 => h1.1.endOp hV)

include hcwd

theorem namei_ends (path : List UInt8) (h : Holds s c t) : Ends (namei p path) t fun t' r =>
    match r with
    | none => Holds s c t'
    | some j => Holds s (c + oneRef j) t' := by
  unfold namei
  refine ends_bind ((namex_ends h₀.ref hV h hcwd path false).mono ?_)
  rintro t1 (_ | ⟨j, name⟩) ⟨hr, -⟩
  · exact ends_pure hr
  · exact ends_pure hr.1

theorem sysChdir_ends (path : Option Path) : Ends (sysChdir p path) s fun t r => r = -1 → Untouched s t := by
  unfold sysChdir
  refine ends_bind (beginOp_ends.mono ?_)
  rintro t1 - rfl
  have h1 := h₀.holds.outstanding (k := s.outstanding + 1)
  rcases path with _ | path
  · exact h1.endOp hV
  dsimp only
  refine ends_bind ((namei_ends hV h₀ hcwd path.val h1).mono ?_)
  rintro t2 (_ | ip) h2
  · exact h2.endOp hV
  · dsimp only at h2 ⊢
    refine ends_bind (h2.ilock.mono ?_)
    rintro t3 - ⟨h3, -⟩
    refine ends_bind (ends_of_eval (t := t3) (a := (t3.itable ip).d) rfl ?_)
    split
    · exact h3.leave hV h₀ fun _ => le_rfl
    · refine ends_bind (ends_any fun t4 _ => ends_bind (ends_any fun t5 cwd => ?_))
      split
      · exact ends_atomic fun _ _ hc => by cases hc
      · refine ends_bind (ends_any fun _ _ => ends_bind (ends_any fun _ _ => ends_bind (ends_any fun _ _ => ends_pure fun hc => ?_)))
        cases hc

theorem sysUnlink_ends (path : Option Path) : Ends (sysUnlink p path) s fun t r => r = -1 → Untouched s t := by
  unfold sysUnlink
  rcases path with _ | path
  · exact ends_pure fun _ => h₀.holds.untouched hV
  refine ends_bind (beginOp_ends.mono ?_)
  rintro t1 - rfl
  have h1 := h₀.holds.outstanding (k := s.outstanding + 1)
  refine ends_bind ((namex_ends h₀.ref hV h1 hcwd path.val true).mono ?_)
  rintro t2 (_ | ⟨dp, name⟩) ⟨hr, -⟩
  · exact Holds.endOp hV hr
  obtain ⟨h2, hdir⟩ := hr
  have hdir := hdir rfl
  dsimp only
  refine ends_bind (h2.ilock.mono ?_)
  rintro t3 - ⟨h3, -, hd, -, -⟩
  have hbad : ∀ {t : State n}, Holds s ((fun _ => 0) + oneRef dp) t → Ends (unlinkBad p dp) t fun t' r => r = -1 → Untouched s t' :=
    fun h => h.leave hV h₀ fun _ => le_rfl
  split
  · exact hbad h3
  refine ends_bind ((h3.dirlookup h₀.ref hV hd hdir).mono ?_)
  rintro t4 r (⟨rfl, rfl⟩ | ⟨ip, off, rfl, h4, -⟩)
  · exact hbad h3
  dsimp only
  refine ends_bind (h4.ilock.mono ?_)
  rintro t5 - ⟨h5, -, hd', -, -⟩
  refine ends_bind (ends_of_eval (t := t5) (a := (t5.itable ip).d) rfl ?_)
  split
  · exact ends_atomic fun _ _ hc => by cases hc
  -- the name is removed
  have hdone : ∀ t : State n, Ends (do Fs.iunlockput p dp; addLink ip (-1); Fs.iunlockput p ip; Fs.endOp; return 0 : FsM n Int) t
      fun t' r => r = -1 → Untouched s t' := fun t =>
    ends_bind (ends_any fun _ _ => ends_bind (ends_any fun _ _ => ends_bind (ends_any fun _ _ => ends_bind (ends_any fun _ _ =>
      ends_pure (by simp)))))
  split
  · next hdir' =>
    rw [hd'] at hdir'
    obtain ⟨hB, hfull, hmod⟩ := (h5.disk.aside (x := 0)).directory hV hdir' hd'
    refine ends_bind ((isdirempty_ends hB hfull hmod).mono ?_)
    rintro t6 empty rfl
    split
    · refine ends_bind ((h5.iunlockput h₀.ref fun j => Int.add_nonneg le_rfl oneRef_nonneg).mono ?_)
      rintro t7 - ⟨h7, -⟩
      exact hbad h7
    · refine ends_bind (ends_any fun t7 r => ?_)
      split
      · exact ends_atomic fun _ _ hc => by cases hc
      · exact ends_bind (ends_any fun t8 _ => hdone t8)
  · refine ends_bind (ends_pure ?_)
    rw [if_neg (by decide)]
    refine ends_bind (ends_any fun t7 r => ?_)
    split
    · exact ends_atomic fun _ _ hc => by cases hc
    · exact hdone t7

end Calls

/-- Only inode `i`, its dinode and the bitmap differ. -/
structure Within (i : Fin NINODE) (s t : State n) : Prop where
  tables : t.tables = s.tables
  block : t.block = s.block
  inum : (t.itable i).inum = (s.itable i).inum
  dinode : ∀ y, y ≠ (s.itable i).inum → t.dinode y = s.dinode y
  entry : ∀ j, j ≠ i → t.itable j = s.itable j

theorem Within.refl : Within i s s := ⟨rfl, rfl, rfl, fun _ _ => rfl, fun _ _ => rfl⟩

theorem Within.trans (h : Within i b s) (h' : Within i s t) : Within i b t where
  tables := h'.tables.trans h.tables
  block := h'.block.trans h.block
  inum := h'.inum.trans h.inum
  dinode y hy := (h'.dinode y (by rw [h.inum]; exact hy)).trans (h.dinode y hy)
  entry j hj := (h'.entry j hj).trans (h.entry j hj)

theorem within_set {v : Inode n} (htab : t.tables = s.tables) (hblock : t.block = s.block) (hit : t.itable = update s.itable i v)
    (hinum : v.inum = (s.itable i).inum) (hdin : ∀ y, y ≠ (s.itable i).inum → t.dinode y = s.dinode y) : Within i s t where
  tables := htab
  block := hblock
  inum := by rw [hit, update_self, hinum]
  dinode := hdin
  entry j hj := by rw [hit, update_of_ne hj]

theorem store_within (f : Dinode → Dinode) : Ends (store i f) t fun t' _ => Within i t t' ∧ (t'.itable i).d = f (t.itable i).d :=
  ends_of_eval (t := t.setInode i { t.itable i with d := f (t.itable i).d }) (a := ()) rfl
    ⟨within_set rfl rfl rfl rfl fun _ _ => rfl, by rw [setInode_self]⟩

theorem iupdate_within : Ends (iupdate i) t fun t' _ => Within i t t' ∧ t'.dinode (t.itable i).inum = (t.itable i).d :=
  ends_of_eval (t := { t with dinode := update t.dinode (t.itable i).inum (t.itable i).d }) (a := ()) rfl
    ⟨⟨rfl, rfl, rfl, fun _ hy => update_of_ne hy .., fun _ _ => rfl⟩, update_self ..⟩

theorem truncAddr_within (k : Nat) : Ends (truncAddr i k) t fun t' _ => Within i t t' := by
  unfold truncAddr
  refine ends_atomic fun t' _ hrun => ?_
  split at hrun
  · cases hrun
    exact .refl
  · unfold State.bfree at hrun
    split at hrun
    next t1 hf =>
      cases hrun
      split at hf
      · cases hf
        exact within_set rfl rfl rfl rfl fun _ _ => rfl
      · cases hf
    next => cases hrun

theorem truncEntry_within (ind k : Nat) : Ends (truncEntry ind k) t fun t' _ => Within i t t' := by
  unfold truncEntry
  refine ends_atomic fun t' _ hrun => ?_
  split at hrun
  · cases hrun
    exact .refl
  · unfold State.bfree at hrun
    split at hrun
    next t1 hf =>
      cases hrun
      split at hf
      · cases hf
        exact ⟨rfl, rfl, rfl, fun _ _ => rfl, fun _ _ => rfl⟩
      · cases hf
    next => cases hrun

theorem forEach_within {body : Nat → FsM n Unit} (hbody : ∀ a t, Ends (body a) t fun t' _ => Within i t t') :
    ∀ (l : List Nat) (t : State n), Ends (forEach l body) t fun t' _ => Within i t t'
  | [], _ => ends_pure .refl
  | a :: l, t => ends_bind ((hbody a t).mono fun t1 _ h1 => (forEach_within hbody l t1).mono fun _ _ h2 => h1.trans h2)

theorem itrunc_within : Ends (itrunc i) t fun t' _ => Within i t t' := by
  have hend : ∀ t1, Within i t t1 → Ends (do store i (fun d => { d with size := 0 }); iupdate i : FsM n Unit) t1
      fun t' _ => Within i t t' := fun t1 h1 =>
    ends_bind ((store_within _).mono fun t2 _ h2 => iupdate_within.mono fun t3 _ h3 => h1.trans (h2.1.trans h3.1))
  unfold itrunc
  refine ends_bind ((forEach_within (fun k _ => truncAddr_within k) _ t).mono fun t1 _ h1 => ?_)
  refine ends_bind (ends_of_eval (t := t1) (a := (t1.itable i).d) rfl ?_)
  dsimp only
  split
  · refine ends_bind ((forEach_within (i := i) (fun k _ => truncEntry_within _ k) _ t1).mono fun t2 _ h2 => ?_)
    exact ends_bind ((truncAddr_within NDIRECT).mono fun t3 _ h3 => hend t3 (h1.trans (h2.trans h3)))
  · exact hend t1 h1

theorem iput_frees (hlast : (t.itable i).ref = 1 ∧ (t.itable i).valid = true ∧ (t.itable i).d.nlink = 0) : Ends (iput p i) t fun t' _ =>
    Within i t t' ∧ (t'.dinode (t.itable i).inum).type = .free ∧ (t'.itable i).valid = false := by
  unfold Fs.iput
  refine ends_bind (ends_atomic fun t1 r hrun => ?_)
  unfold State.iputCheck at hrun
  rw [if_pos hlast] at hrun
  split at hrun
  · cases hrun
    rw [if_pos rfl]
    have h1 : Within i t (t.setInode i { t.itable i with lock := some p, freeing := true }) := within_set rfl rfl rfl rfl fun _ _ => rfl
    refine ends_bind (itrunc_within.mono fun t2 _ h2 => ends_bind ((store_within _).mono fun t3 _ h3 => ?_))
    refine ends_bind (iupdate_within.mono fun t4 _ h4 => ?_)
    have hall := h1.trans (h2.trans (h3.1.trans h4.1))
    have hfree : (t4.dinode (t.itable i).inum).type = .free := by
      have hnum := (h1.trans (h2.trans h3.1)).inum
      rw [← hnum, h4.2, h3.2]
    set t5 := t4.setInode i { t4.itable i with valid := false, lock := none } with ht5
    have h5 : Within i t4 t5 := within_set rfl rfl rfl rfl fun _ _ => rfl
    refine ends_bind (ends_of_eval (t := t5) (a := ()) rfl (ends_of_eval (a := ()) rfl ⟨hall.trans (h5.trans ?_), hfree, ?_⟩))
    · exact within_set (v := { t5.itable i with ref := (t5.itable i).ref - 1, freeing := false }) rfl rfl rfl rfl fun _ _ => rfl
    · change (update t5.itable i { t5.itable i with ref := (t5.itable i).ref - 1, freeing := false } i).valid = false
      rw [update_self, ht5, setInode_self]
  · cases hrun

theorem Within.copies (h : Within i s t) (hs : Copies s) (hpos : 0 < (s.itable i).ref)
    (hload : (t.itable i).valid = true → (t.itable i).d = t.dinode (s.itable i).inum) : Copies t :=
  hs.set hpos h.entry h.inum h.dinode fun _ => hload

theorem Besides.congr (h : Besides s x t) (htab : t'.tables = t.tables) (hblock : t'.block = t.block)
    (hdin : ∀ y, y ≠ x → t'.dinode y = t.dinode y) : Besides s x t' := by
  have he : ∀ y, (if y = x then s.dinode y else t'.dinode y) = if y = x then s.dinode y else t.dinode y := fun y => by
    split
    · rfl
    · next hne => exact hdin y hne
  refine ⟨htab.trans h.tables, fun y hy => ?_, fun y hy a ha => ?_, fun y hy k hk hs => ?_⟩
  · rw [hdin y hy]
    exact h.inode y hy
  · rw [he, byte_of_block hblock]
    exact h.byte y hy a ha
  · rw [he, slot_of_block hblock]
    exact h.blocks y hy k hk hs

theorem iunlockput_ends (hlast : ¬((t.itable i).ref = 1 ∧ (t.itable i).d.nlink = 0)) (hcop : Copies t) : Ends (iunlockput p i) t fun t' _ =>
    SameDisk t t' ∧ Copies t' ∧ ∀ j, j ≠ i → t'.itable j = t.itable j := by
  unfold Fs.iunlockput
  refine ends_bind (iunlock_ends.mono ?_)
  rintro t1 - ⟨hpos, rfl⟩
  set v : Inode n := { t.itable i with lock := none } with hv
  set t1 := t.setInode i v with ht1
  have hself : t1.itable i = v := setInode_self
  set t2 := (t1.setInode i { t1.itable i with ref := (t1.itable i).ref - 1 }).noteInode p i (-1) with ht2
  have hit : t2.itable = update t.itable i { v with ref := (t.itable i).ref - 1 } := by
    rw [ht2, hself]
    exact update_idem ..
  have hne : ∀ j, j ≠ i → t2.itable j = t.itable j := fun j hj => by rw [hit, update_of_ne hj]
  refine ends_of_eval (t := t2) (iput_eval ?_) ⟨⟨rfl, rfl, rfl, rfl, rfl⟩, hcop.set hpos hne ?_ (fun _ _ => rfl) fun _ hval => ?_, hne⟩
  · rw [hself]
    exact fun hc => hlast ⟨hc.1, hc.2.2⟩
  · rw [hit, update_self]
  · rw [hit, update_self] at hval ⊢
    exact hcop.loaded i hpos hval

theorem createFail_ends (hV : Volume s) (hcop : Copies t) (h : Besides s x t) (hx : (s.dinode x).type = .free) (hne : dp ≠ ip)
    (hnum : (t.itable ip).inum = x) (href : (t.itable ip).ref = 1) (hval : (t.itable ip).valid = true)
    (hlast : ¬((t.itable dp).ref = 1 ∧ (t.itable dp).d.nlink = 0)) : Ends (createFail p ip dp) t fun t' r => r = none ∧ Untouched s t' := by
  unfold createFail
  intro t' r hrun
  rw [store_iupdate_eval] at hrun
  revert t' r
  set t1 : State n := { t.setInode ip { t.itable ip with d := { (t.itable ip).d with nlink := 0 } } with
    dinode := update t.dinode (t.itable ip).inum { (t.itable ip).d with nlink := 0 } } with ht1
  have hip : t1.itable ip = { t.itable ip with d := { (t.itable ip).d with nlink := 0 } } := update_self ..
  have h1 : Within ip t t1 := within_set rfl rfl rfl rfl fun y hy => update_of_ne hy ..
  have hput : Ends (iunlockput p ip) t1 fun t' _ => Within ip t1 t' ∧ (t'.dinode x).type = .free ∧ (t'.itable ip).valid = false := by
    unfold Fs.iunlockput
    refine ends_bind (iunlock_ends.mono ?_)
    rintro t2 - ⟨-, rfl⟩
    have h2 : Within ip t1 (t1.setInode ip { t1.itable ip with lock := none }) := within_set rfl rfl rfl rfl fun _ _ => rfl
    refine (iput_frees ?_).mono ?_
    · rw [setInode_self, hip]
      exact ⟨href, hval, rfl⟩
    · rintro t3 - ⟨h3, hfree, hnv⟩
      refine ⟨h2.trans h3, ?_, hnv⟩
      rw [setInode_self, hip] at hfree
      rw [← hnum]
      exact hfree
  change Ends _ t1 _
  refine ends_bind (hput.mono ?_)
  rintro t2 - ⟨h2, hfree, hnv⟩
  have h12 := h1.trans h2
  have hcop2 : Copies t2 := h12.copies hcop (by rw [href]; decide) fun hv => by
    rw [hnv] at hv
    cases hv
  refine ends_bind ((iunlockput_ends (by rw [h12.entry dp hne]; exact hlast) hcop2).mono ?_)
  rintro t3 - ⟨h3, hcop3, -⟩
  refine ends_pure ⟨rfl, Besides.untouched (x := x) (h.congr (h3.tables.trans h12.tables) (h3.block.trans h12.block) fun y hy => ?_) hV
    hcop3 (.inl ⟨hx, by rw [h3.dinode]; exact hfree⟩)⟩
  rw [h3.dinode]
  exact h12.dinode y (by rw [hnum]; exact hy)

/-- `create` has made inode `x` in entry `ip`, and may have written entries to it; the parent `xd` is as before. -/
structure Making (s : State n) (xd x : Nat) (dp ip : Fin NINODE) (t : State n) : Prop extends Aside s x t where
  ne : dp ≠ ip
  dnum : (t.itable dp).inum = xd
  dref : 0 < (t.itable dp).ref
  dlast : ¬((t.itable dp).ref = 1 ∧ (s.dinode xd).nlink = 0)
  dcopy : (t.itable dp).d = s.dinode xd
  num : (t.itable ip).inum = x
  ref : (t.itable ip).ref = 1
  valid : (t.itable ip).valid = true
  fresh : ∀ a ≠ 0, s.bitmap a = true → ∀ k ≤ MAXFILE, t.slot (t.itable ip).d k ≠ a
  blocks : Blocks t (t.itable ip).d
  full : t.NoHoles (t.itable ip).d
  size : (t.itable ip).d.size % DIRENT = 0
  copies : Copies t

theorem Making.rests (h : Making s xd x dp ip t) (hr : Rests t t') : Making s xd x dp ip t' := by
  have hpos : 0 < (t.itable ip).ref := by
    rw [h.ref]
    decide
  have hslot := slot_of_block hr.block
  have hip := hr.entry ip hpos
  have hdp := hr.entry dp h.dref
  refine ⟨h.toAside.trans hr.toSameDisk.aside, h.ne, ?_, ?_, ?_, ?_, ?_, ?_, ?_, fun a ha hb k hk => ?_, ?_, fun k hk => ?_, ?_,
    hr.copies h.copies⟩
  · rw [hdp, h.dnum]
  · rw [hdp]
    exact h.dref
  · rw [hdp]
    exact h.dlast
  · rw [hdp, h.dcopy]
  · rw [hip, h.num]
  · rw [hip, h.ref]
  · rw [hip, h.valid]
  · rw [hip, hslot]
    exact h.fresh a ha hb k hk
  · rw [hip]
    exact (h.blocks.congr (fun _ _ _ => by rw [hr.block]) (fun k hk h0 => by rw [hr.bitmap]; exact h.blocks.used k hk h0) hr.sb).1
  · rw [hip] at hk ⊢
    rw [hslot]
    exact h.full k hk
  · rw [hip]
    exact h.size

theorem Making.wrote {src : Nat → Option UInt8} {off m : Nat} (h : Making s xd x dp ip t) (hw : WroteAt ip src off DIRENT t t' m 0)
    (hoff : off ≤ (t.itable ip).d.size) (hfit : off + DIRENT ≤ MAXFILE * BSIZE) (hmod : off % DIRENT = 0) (hm : m = 0 ∨ m = DIRENT) :
    Making s xd x dp ip t' := by
  have hpos : 0 < (t.itable ip).ref := by
    rw [h.ref]
    decide
  have hdp := hw.itable_ne h.ne
  obtain ⟨addrs, bits, blocks, hsame⟩ := hw.same
  have hip : t'.itable ip = { t.itable ip with
      d := { (t.itable ip).d with addrs := addrs, size := max (t.itable ip).d.size (off + m) } } := by
    rw [hsame]
    exact update_self ..
  have hkeep : ∀ a ≠ 0, s.bitmap a = true → t'.block a = s.block a ∧ t'.bitmap a = true ∧ ∀ k ≤ MAXFILE, t'.slot (t'.itable ip).d k ≠ a :=
    fun a ha hb => by
      obtain ⟨h1, h2⟩ := h.block a ha hb
      obtain ⟨h3, h4⟩ := hw.others a ha h2 (h.fresh a ha hb)
      exact ⟨h3.trans h1, h4⟩
  refine ⟨⟨hw.sb.trans h.sb, ?_, fun y hy => ?_, fun a ha hb => ⟨(hkeep a ha hb).1, (hkeep a ha hb).2.1⟩⟩, h.ne, ?_, ?_, ?_, ?_, ?_, ?_, ?_,
    fun a ha hb => (hkeep a ha hb).2.2, hw.blocks, hw.noHoles h.blocks h.full hoff hfit, ?_,
    hw.copies h.copies hpos⟩
  · rw [hsame]
    exact h.tables
  · rw [hsame, h.num]
    exact (update_of_ne hy ..).trans (h.dinode y hy)
  · rw [hdp, h.dnum]
  · rw [hdp]
    exact h.dref
  · rw [hdp]
    exact h.dlast
  · rw [hdp, h.dcopy]
  · rw [hip]
    exact h.num
  · rw [hip]
    exact h.ref
  · rw [hip]
    exact h.valid
  · rw [hw.size]
    have := h.size
    simp only [DIRENT] at *
    omega

theorem Making.dirlink (h : Making s xd x dp ip t) : Ends (Fs.dirlink p ip name y) t fun t' _ => Making s xd x dp ip t' := by
  refine (dirlink_ends h.blocks h.full h.size).mono ?_
  rintro t' r (⟨-, hr⟩ | ⟨off, m, hoff, hfit, hmod, -, hm, hw⟩)
  · exact h.rests hr
  · exact h.wrote hw hoff hfit hmod hm

/-- The file is a new one, which the process has locked. -/
structure Made (p : Fin n) (s : State n) (ip : Fin NINODE) (t : State n) : Prop where
  tables : t.tables = s.tables
  free : (s.dinode (t.itable ip).inum).type = .free
  dinode : (t.dinode (t.itable ip).inum).type = .T_FILE
  lock : (t.itable ip).lock = some p
  ref : (t.itable ip).ref = 1
  nlink : (t.itable ip).d.nlink = 1
  type : (t.itable ip).d.type = .T_FILE

/-- What `create` leaves: all as it was, or for a file a reference to one that was there, or a new one. -/
def Created (p : Fin n) (s : State n) (type : InodeType) (t : State n) : Option (Fin NINODE) → Prop
  | none => Untouched s t
  | some ip => type = .T_FILE →
    Holds s ((fun _ => 0) + oneRef ip) t ∧ (s.dinode (t.itable ip).inum).type ≠ .free ∨ Made p s ip t

section Making

variable {type : InodeType} (h : Making s xd x dp ip t) (hV : Volume s) (hx : (s.dinode x).type = .free)

include h hV hx

theorem Making.fail : Ends (createFail p ip dp) t (Created p s type) := by
  refine (createFail_ends hV h.copies (h.toAside.besides hV) hx h.ne h.num h.ref h.valid (by rw [h.dcopy]; exact h.dlast)).mono ?_
  rintro t' _ ⟨rfl, hu⟩
  exact hu

theorem Making.last {g : FsM n (Option (Fin NINODE))} (hdir : (s.dinode xd).type = .T_DIR)
    (hg : ∀ t1, Enters dp xd t t1 → Ends g t1 (Created p s type)) : Ends (do
      let r ← Fs.dirlink p dp name y
      if r < 0 then createFail p ip dp else g) t (Created p s type) := by
  have hne : xd ≠ x := fun he => by
    rw [he, hx] at hdir
    cases hdir
  refine ends_bind ((dirlink_fails hV h.toAside hdir hne h.dcopy h.dnum h.dref h.copies).mono ?_)
  rintro t1 r ⟨hE, hr⟩
  split
  · next hlt =>
    have hip := hE.entry ip h.ne.symm (by rw [h.ref]; decide)
    refine (createFail_ends hV hE.copies (hr hlt) hx h.ne (by rw [hip, h.num]) (by rw [hip, h.ref]) (by rw [hip, h.valid]) ?_).mono ?_
    · rw [hE.ref, hE.nlink, h.dcopy]
      exact h.dlast
    · rintro t' _ ⟨rfl, hu⟩
      exact hu
  · exact hg t1 hE

omit hV in
theorem Making.made {t1 : State n} (hdir : (s.dinode xd).type = .T_DIR) (hlock : (t.itable ip).lock = some p)
    (htype : (t.itable ip).d.type = .T_FILE) (hnlink : (t.itable ip).d.nlink = 1) (hE : Enters dp xd t t1) :
    Ends (do iunlockput p dp; return some ip : FsM n (Option (Fin NINODE))) t1 (Created p s type) := by
  have hpos : 0 < (t.itable ip).ref := by
    rw [h.ref]
    decide
  have hne : x ≠ xd := fun he => by
    rw [← he, hx] at hdir
    cases hdir
  refine ends_bind ((iunlockput_ends ?_ hE.copies).mono ?_)
  · rw [hE.ref, hE.nlink, h.dcopy]
    exact h.dlast
  rintro t2 - ⟨h2, -, hkeep⟩
  have hip : t2.itable ip = t.itable ip := (hkeep ip h.ne.symm).trans (hE.entry ip h.ne.symm hpos)
  have hdin : t2.dinode x = (t.itable ip).d := by
    rw [h2.dinode, hE.dinode x hne, h.copies.loaded ip hpos h.valid, h.num]
  refine ends_pure fun _ => .inr ⟨h2.tables.trans (hE.tables.trans h.tables), ?_, ?_, ?_, ?_, ?_, ?_⟩
  · rw [hip, h.num, hx]
  · rw [hip, h.num, hdin, htype]
  · rw [hip, hlock]
  · rw [hip, h.ref]
  · rw [hip, hnlink]
  · rw [hip, htype]

end Making

theorem ialloc_ends (type : InodeType) (hused : ∀ j, 0 < (t.itable j).ref → (t.dinode (t.itable j).inum).type ≠ .free) :
    Ends (ialloc p type) t fun t' r => (r = none ∧ t' = t) ∨ ∃ ip x, r = some ip ∧ (t.dinode x).type = .free ∧ (t.itable ip).ref = 0 ∧
      t' = ({ t with dinode := update t.dinode x { type := type } }.setInode ip
        { t.itable ip with inum := x, ref := 1, valid := false }).noteInode p ip 1 := by
  have hloop : ∀ l, Ends (iallocLoop p type l) t fun t' r => (r = none ∧ t' = t) ∨ ∃ ip x, r = some ip ∧ (t.dinode x).type = .free ∧
      (t.itable ip).ref = 0 ∧ t' = ({ t with dinode := update t.dinode x { type := type } }.setInode ip
        { t.itable ip with inum := x, ref := 1, valid := false }).noteInode p ip 1 := by
    intro l
    induction l with
    | nil => exact ends_pure (.inl ⟨rfl, rfl⟩)
    | cons x l ih =>
      unfold iallocLoop
      refine ends_bind (ends_atomic fun t1 r hrun => ?_)
      split at hrun
      · next hfree =>
        cases hrun
        rw [if_pos rfl]
        have hc : ({ t with dinode := update t.dinode x { type := type } } : State n).cached x = none := by
          rcases hc : t.cached x with _ | j
          · exact hc
          · obtain ⟨hpos, hnum⟩ := cached_some hc
            rw [← hnum] at hfree
            exact absurd hfree (hused j hpos)
        unfold Fs.iget
        refine ends_bind (ends_atomic fun t2 ip hget => ?_)
        rw [hc] at hget
        dsimp only at hget
        split at hget
        · cases hget
        · next he =>
          cases hget
          exact ends_pure (.inr ⟨ip, x, rfl, hfree, empty_some (s := t) he, rfl⟩)
      · cases hrun
        exact ih
  unfold ialloc
  exact ends_bind (ends_of_eval (t := t) (a := t.sb.ninodes) rfl (hloop _))

theorem slot_empty (hd : ∀ k, e.addrs k = 0) (k : Nat) : t.slot e k = 0 := by
  unfold State.slot
  rw [hd, hd]
  simp only [if_true, ite_self]

section Calls

variable (hV : Volume s) (h₀ : Settled s) (hcwd : ∀ i, (s.proc p).cwd = some i → 0 < (s.itable i).ref)

include hV h₀

theorem Holds.making {v : Inode n} (h : Holds s ((fun _ => 0) + oneRef dp) t) (hv : (t.itable dp).valid = true)
    (hd : (t.itable dp).d = s.dinode xd) (hnum : (t.itable dp).inum = xd) (hip : (t.itable ip).ref = 0)
    (hsame : SameDisk { t with dinode := t'.dinode } t') (hdin : ∀ y, y ≠ x → t'.dinode y = t.dinode y)
    (hit : t'.itable = update t.itable ip v) (hvnum : v.inum = x) (hvref : v.ref = 1) (hvval : v.valid = true)
    (hvd : t'.dinode x = v.d) (hfree : ∀ j, 0 < (t.itable j).ref → (t.itable j).inum ≠ x)
    (hsize : v.d.size = 0) (haddrs : ∀ k, v.d.addrs k = 0) : Making s xd x dp ip t' := by
  have hpos := h.pos h₀.ref only_oneRef_pos
  have hne : dp ≠ ip := fun he => by
    rw [he] at hpos
    omega
  have hdp : t'.itable dp = t.itable dp := by rw [hit, update_of_ne hne]
  have hself : t'.itable ip = v := by rw [hit, update_self]
  have hother : ∀ j, j ≠ ip → t'.itable j = t.itable j := fun j hj => by rw [hit, update_of_ne hj]
  refine ⟨⟨hsame.sb.trans h.disk.sb, hsame.tables.trans h.disk.tables, fun y hy => ?_, fun a _ hb => ⟨?_, ?_⟩⟩, hne, ?_, ?_, ?_, ?_, ?_, ?_, ?_,
    fun a ha _ k _ => ?_, ⟨fun k _ h0 => ?_, fun k _ k' _ h0 => ?_, ?_, ?_⟩, fun k hk => ?_, ?_,
    ⟨fun a b ha hb hab => ?_, fun j hj hv => ?_⟩⟩
  · rw [hdin y hy, h.disk.dinode]
  · exact congrFun (hsame.block.trans h.disk.block) a
  · exact (congrFun (hsame.bitmap.trans h.disk.bitmap) a).trans hb
  · rw [hdp, hnum]
  · rw [hdp]
    exact hpos
  · rw [hdp]
    exact fun hc => h.not_last h₀.ref only_oneRef_pos ⟨hc.1, hv, by rw [hnum]; exact hc.2⟩
  · rw [hdp, hd]
  · rw [hself, hvnum]
  · rw [hself, hvref]
  · rw [hself, hvval]
  · rw [hself, slot_empty haddrs]
    exact Ne.symm ha
  · rw [hself] at h0
    exact absurd (slot_empty haddrs k) h0
  · rw [hself] at h0
    exact absurd (slot_empty haddrs k) h0
  · rw [hself, hsize]
    exact Nat.zero_le _
  · rw [hsame.sb]
    change t.sb.size ≤ _
    rw [h.disk.sb]
    exact (hV.blocks ROOTINO hV.root.1).disk
  · rw [hself, hsize] at hk
    exact absurd hk (Nat.not_lt_zero _)
  · rw [hself, hsize]
    rfl
  · by_cases hai : a = ip
    · by_cases hbi : b = ip
      · exact hai.trans hbi.symm
      · rw [hai, hself, hvnum, hother b hbi] at hab
        rw [hother b hbi] at hb
        exact absurd hab.symm (hfree b hb)
    · rw [hother a hai] at ha hab
      by_cases hbi : b = ip
      · rw [hbi, hself, hvnum] at hab
        exact absurd hab (hfree a ha)
      · rw [hother b hbi] at hb hab
        exact h.uniq a b ha hb hab
  · by_cases hji : j = ip
    · rw [hji, hself, hvnum, hvd]
    · rw [hother j hji] at hj hv ⊢
      rw [hdin _ (hfree j hj), h.disk.dinode]
      exact h.loaded j hj hv

theorem Holds.make (h : Holds s ((fun _ => 0) + oneRef dp) t) (hv : (t.itable dp).valid = true) (hd : (t.itable dp).d = s.dinode xd)
    (hnum : (t.itable dp).inum = xd) (hip : (t.itable ip).ref = 0)
    (hfree : ∀ j, 0 < (t.itable j).ref → (t.itable j).inum ≠ x) (type : InodeType) (major minor : Int) :
    Ends (Fs.ilock p ip) (({ t with dinode := update t.dinode x { type := type } }.setInode ip
        { t.itable ip with inum := x, ref := 1, valid := false }).noteInode p ip 1) fun t1 _ =>
      Ends (store ip fun d => { d with major := short major, minor := short minor, nlink := 1 }) t1 fun t2 _ =>
        Ends (iupdate ip) t2 fun t3 _ => Making s xd x dp ip t3 ∧ (t3.itable ip).lock = some p ∧ (t3.itable ip).d.type = type ∧
          (t3.itable ip).d.nlink = 1 := by
  refine ilock_ends.mono ?_
  rintro t1 - ⟨-, -, ht1⟩
  set t0 := ({ t with dinode := update t.dinode x { type := type } }.setInode ip
    { t.itable ip with inum := x, ref := 1, valid := false }).noteInode p ip 1 with ht0
  have hip0 : t0.itable ip = { t.itable ip with inum := x, ref := 1, valid := false } := update_self ..
  have hx0 : t0.dinode x = { type := type } := update_self ..
  have hip1 : t1.itable ip = { t.itable ip with inum := x, ref := 1, valid := true, lock := some p, d := { type := type } } := by
    rw [ht1, setInode_self, hip0]
    dsimp only
    rw [hx0, if_neg (by decide)]
  have hit1 : t1.itable = update t.itable ip (t1.itable ip) := by
    rw [ht1, setInode_self]
    exact update_idem ..
  have hdin1 : t1.dinode = update t.dinode x { type := type } := by rw [ht1, ht0]; rfl
  have hsame1 : SameDisk { t with dinode := t1.dinode } t1 := by
    rw [ht1, ht0]
    exact ⟨rfl, rfl, rfl, rfl, rfl⟩
  clear_value t0
  set v : Inode n := { t1.itable ip with d := { (t1.itable ip).d with major := short major, minor := short minor, nlink := 1 } } with hw
  set t2 := t1.setInode ip v with ht2
  have hip2 : t2.itable ip = v := setInode_self
  refine ends_of_eval (t := t2) (a := ()) rfl (ends_of_eval (t := { t2 with dinode := update t2.dinode (t2.itable ip).inum (t2.itable ip).d })
    (a := ()) rfl ⟨?_, ?_⟩)
  rotate_left
  · change (t2.itable ip).lock = some p ∧ (t2.itable ip).d.type = type ∧ (t2.itable ip).d.nlink = 1
    rw [hip2, hw, hip1]
    exact ⟨rfl, rfl, rfl⟩
  refine h.making (v := v) hV h₀ hv hd hnum hip ⟨hsame1.sb, rfl, hsame1.bitmap, hsame1.block, hsame1.tables⟩ (fun y hy => ?_) ?_ ?_ ?_ ?_ ?_ hfree
    ?_ ?_
  · change update t1.dinode (t2.itable ip).inum _ y = _
    rw [hip2, show v.inum = x by rw [hw, hip1], update_of_ne hy, hdin1, update_of_ne hy]
  · change update t1.itable ip v = _
    rw [hit1, update_idem]
  · rw [hw, hip1]
  · rw [hw, hip1]
  · rw [hw, hip1]
  · change update t1.dinode (t2.itable ip).inum (t2.itable ip).d x = _
    rw [hip2, show v.inum = x by rw [hw, hip1], update_self]
  · rw [hw, hip1]
  · intro k
    rw [hw, hip1]

include hcwd

theorem create_ends (path : Path) (type : InodeType) (major minor : Int) (h : Holds s (fun _ => 0) t) :
    Ends (create p path type major minor) t (Created p s type) := by
  have hleave : ∀ {i : Fin NINODE} {t : State n}, Holds s ((fun _ => 0) + oneRef i) t →
      Ends (do iunlockput p i; return none : FsM n (Option (Fin NINODE))) t (Created p s type) := fun h =>
    ends_bind ((h.iunlockput h₀.ref fun _ => le_rfl).mono fun _ _ h1 => ends_pure (h1.1.untouched hV))
  unfold create
  refine ends_bind ((namex_ends h₀.ref hV h hcwd path.val true).mono ?_)
  rintro t1 (_ | ⟨dp, name⟩) ⟨hr, -⟩
  · exact ends_pure (Holds.untouched hr hV)
  obtain ⟨h1, hdir⟩ := hr
  have hdir := hdir rfl
  dsimp only
  refine ends_bind (h1.ilock.mono ?_)
  rintro t2 - ⟨h2, hv, hd, -, hk⟩
  have hnum : (t2.itable dp).inum = (t1.itable dp).inum := (hk dp (h1.pos h₀.ref only_oneRef_pos)).1
  refine ends_bind ((h2.dirlookup h₀.ref hV hd hdir).mono ?_)
  rintro t3 r (⟨rfl, rfl⟩ | ⟨ip, off, rfl, h3, -⟩)
  · dsimp only
    -- the only entry in use besides those of before is that of the parent
    have hused : ∀ j, 0 < (t3.itable j).ref → (t3.dinode (t3.itable j).inum).type ≠ .free := fun j hj => by
      rw [h2.disk.dinode]
      by_cases hjs : 0 < (s.itable j).ref
      · rw [h2.inum j hjs]
        exact h₀.used j hjs
      · by_cases hjd : j = dp
        · rw [hjd, hnum, hdir]
          decide
        · have href := h2.ref j
          rw [Pi.add_apply, oneRef_ne hjd] at href
          omega
    refine ends_bind ((ialloc_ends type hused).mono ?_)
    rintro t4 r (⟨rfl, rfl⟩ | ⟨ip, x, rfl, hx, hip, rfl⟩)
    · exact hleave h2
    dsimp only
    have hfree : ∀ j, 0 < (t3.itable j).ref → (t3.itable j).inum ≠ x := fun j hj he => hused j hj (by rw [he]; exact hx)
    rw [h2.disk.dinode] at hx
    refine ends_bind ((h2.make hV h₀ hv hd hnum hip hfree type major minor).mono fun t5 _ h5 =>
      ends_bind (h5.mono fun t6 _ h6 => ends_bind (h6.mono fun t7 _ h7 => ?_)))
    obtain ⟨hM, hlock, htype, hnlink⟩ := h7
    refine ends_bind (ends_of_eval (t := t7) (a := (t7.itable ip).inum) rfl ?_)
    split
    · next hd =>
      -- a directory gets its first two entries
      refine ends_bind (hM.dirlink.mono fun t8 r h8 => ?_)
      split
      · exact ends_bind (ends_pure (by rw [if_pos rfl]; exact h8.fail hV hx))
      · refine ends_bind (ends_of_eval (t := t8) (a := (t8.itable dp).inum) rfl (ends_bind (h8.dirlink.mono fun t9 r h9 => ?_)))
        refine ends_bind (ends_pure ?_)
        split
        · exact h9.fail hV hx
        · refine h9.last hV hx hdir fun t1 _ => ends_bind (ends_any fun _ _ => ends_bind (ends_any fun _ _ => ends_pure fun hc => ?_))
          rw [hd] at hc
          cases hc
    · refine ends_bind (ends_pure ?_)
      rw [if_neg (by decide)]
      by_cases hfile : type = .T_FILE
      · exact hM.last hV hx hdir fun t1 hE => hM.made hx hdir hlock (htype.trans hfile) hnlink hE
      · exact hM.last hV hx hdir fun t1 _ => ends_bind (ends_any fun _ _ => ends_pure fun hc => absurd hc hfile)
  · -- the name exists
    dsimp only
    have h3' : Holds s ((fun _ => 0) + oneRef ip + oneRef dp) t3 := by
      rwa [add_right_comm] at h3
    refine ends_bind ((h3'.iunlockput h₀.ref fun j => Int.add_nonneg le_rfl oneRef_nonneg).mono ?_)
    rintro t4 - ⟨h4, -⟩
    refine ends_bind (h4.ilock.mono ?_)
    rintro t5 - ⟨h5, -, -, hused, hk5⟩
    refine ends_bind (ends_of_eval (t := t5) (a := (t5.itable ip).d) rfl ?_)
    split
    · refine ends_pure fun _ => .inl ⟨h5, ?_⟩
      rw [(hk5 ip (h4.pos h₀.ref only_oneRef_pos)).1]
      exact hused
    · exact hleave h5

theorem sysMake_ends (path : Option Path) (type : InodeType) (major minor : Int) :
    Ends (sysMake p path type major minor) s fun t r => r = -1 → Untouched s t := by
  unfold sysMake
  refine ends_bind (beginOp_ends.mono ?_)
  rintro t1 - rfl
  have h1 := h₀.holds.outstanding (k := s.outstanding + 1)
  rcases path with _ | path
  · exact h1.endOp hV
  dsimp only
  refine ends_bind ((create_ends hV h₀ hcwd path type major minor h1).mono ?_)
  rintro t2 (_ | ip) h2
  · have hu : Untouched s t2 := h2
    exact ends_bind (ends_of_eval (t := { t2 with outstanding := t2.outstanding - 1 }) (a := ()) rfl
      (ends_pure fun _ => hu.congr rfl rfl rfl rfl))
  · exact ends_bind (ends_any fun _ _ => ends_bind (ends_any fun _ _ => ends_pure (by simp)))

end Calls

end Xv6.Fs
