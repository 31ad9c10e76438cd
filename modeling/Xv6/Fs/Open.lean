import Xv6.Fs.Failed

/-!
# A failed `open`

What `sys_open` leaves when it returns -1 and no other process runs.
-/

namespace Xv6.Fs

open Run Prog

variable {n : Nat} {p : Fin n} {s t : State n} {c : Fin NINODE → Int} {ip : Fin NINODE} {f : Fin NFILE} {omode : Nat}

/-- All that was there is exactly as before, with the same blocks. -/
structure Intact (s t : State n) : Prop extends Untouched s t where
  addrs : ∀ x, (s.dinode x).type ≠ .free → ∀ k ≤ NDIRECT, (t.dinode x).addrs k = (s.dinode x).addrs k

/-- An untouched state is intact if no inode has got an indirect block. -/
theorem Untouched.intact (h : Untouched s t)
    (hind : ∀ x, (s.dinode x).type ≠ .free → (t.dinode x).addrs NDIRECT = (s.dinode x).addrs NDIRECT) : Intact s t := by
  refine ⟨h, fun x hx k hk => ?_⟩
  rcases Nat.lt_or_eq_of_le hk with hk | rfl
  · have hslot := h.blocks x hx k (hk.le.trans (by decide)) (.inl (hk.trans (by decide)))
    rwa [slot_direct hk, slot_direct hk] at hslot
  · exact hind x hx

theorem Holds.intact (h : Holds s c t) (hV : Volume s) : Intact s t :=
  ⟨h.untouched hV, fun x _ k _ => by rw [h.disk.dinode]⟩

theorem fileclose_eval (href : (s.ftable f).ref = 0) (htype : (s.ftable f).type = .FD_NONE) :
    (fileclose p f).eval ((s.setFile f { s.ftable f with ref := 1 }).noteFile p f 1) = .ok (s, ()) := by
  set t := (s.setFile f { s.ftable f with ref := 1 }).noteFile p f 1 with ht
  have hf : t.ftable f = { s.ftable f with ref := 1 } := Function.update_self ..
  have hback : t.fileRelease p f = s := by
    have hx : ({ ({ s.ftable f with ref := 1 } : File) with ref := 0, type := .FD_NONE } : File) = s.ftable f := by
      rw [← href, ← htype]
    rw [State.fileRelease_none (by rw [hf]; exact htype), hf, hx]
    unfold State.noteFile State.setFile
    rw [ht]
    unfold State.noteFile State.setFile
    dsimp only
    rw [Function.update_idem, Function.update_eq_self]
    have hb : bump (bump s.frefs p f 1) p f (-1) = s.frefs := by
      funext q g
      unfold bump
      split <;> omega
    rw [hb]
  have hdrop : t.fileDrop p f = .ok (s, some { s.ftable f with ref := 1 }) := by
    unfold State.fileDrop
    dsimp only
    rw [hf, hback]
    rfl
  unfold fileclose
  rw [eval_bind (atomic_eval hdrop)]
  dsimp only
  rw [htype]
  rfl

/-- The file table is full, or the process has no descriptor left. -/
def NoPlace (s : State n) (p : Fin n) : Prop := (∀ f, (s.ftable f).ref ≠ 0) ∨ ∀ fd, (s.proc p).ofile fd ≠ none

theorem filealloc_cases (p : Fin n) (s : State n) : ((∀ f, (s.ftable f).ref ≠ 0) ∧ (filealloc p).eval s = .ok (s, none)) ∨
    ∃ f, (s.ftable f).ref = 0 ∧ (filealloc p).eval s = .ok ((s.setFile f { s.ftable f with ref := 1 }).noteFile p f 1, some f) := by
  unfold filealloc
  cases hf : (List.finRange NFILE).find? fun f => decide ((s.ftable f).ref = 0) with
  | none =>
    refine .inl ⟨fun f => ?_, atomic_eval (by rw [hf])⟩
    simpa only [decide_eq_true_eq] using List.find?_eq_none.1 hf f (List.mem_finRange f)
  | some f =>
    have := List.find?_some hf
    exact .inr ⟨f, of_decide_eq_true this, atomic_eval (by rw [hf])⟩

theorem fdalloc_cases (p : Fin n) (f : Fin NFILE) (s : State n) :
    ((∀ fd, (s.proc p).ofile fd ≠ none) ∧ (fdalloc p f).eval s = .ok (s, none)) ∨
    ∃ s' fd, (s.proc p).ofile fd = none ∧ (fdalloc p f).eval s = .ok (s', some fd) := by
  unfold fdalloc
  cases hf : (List.finRange NOFILE).find? fun fd => decide ((s.proc p).ofile fd = none) with
  | none =>
    refine .inl ⟨fun fd => ?_, atomic_eval (by rw [hf])⟩
    simpa only [decide_eq_true_eq] using List.find?_eq_none.1 hf fd (List.mem_finRange fd)
  | some fd =>
    have := List.find?_some hf
    exact .inr ⟨_, fd, of_decide_eq_true this, atomic_eval (by rw [hf])⟩

/-- With the inode in hand, `sys_open` drops it and fails, because it is a device or for want of a place, or returns a descriptor. -/
theorem openRest_cases (p : Fin n) (omode : Nat) (ip : Fin NINODE) (hfiles : ∀ f, (t.ftable f).ref = 0 → (t.ftable f).type = .FD_NONE) :
    ((t.itable ip).d.type = .T_DEVICE ∨ NoPlace t p) ∧ (openRest p omode (some ip)).eval t = (openFail p ip).eval t ∨
    ¬NoPlace t p ∧ Ends (openRest p omode (some ip)) t fun _ r => r ≠ -1 := by
  unfold openRest
  by_cases hdev : (t.itable ip).d.type = .T_DEVICE ∧ ((t.itable ip).d.major < 0 ∨ (t.itable ip).d.major ≥ NDEV)
  · refine .inl ⟨.inl hdev.1, ?_⟩
    rw [eval_bind (t := t) (a := (t.itable ip).d) rfl, if_pos hdev]
  rcases filealloc_cases p t with ⟨hfull, halloc⟩ | ⟨f, href, halloc⟩
  · refine .inl ⟨.inr (.inl hfull), ?_⟩
    rw [eval_bind (t := t) (a := (t.itable ip).d) rfl, if_neg hdev, eval_bind halloc]
  rcases fdalloc_cases p f ((t.setFile f { t.ftable f with ref := 1 }).noteFile p f 1) with ⟨hfull, hfd⟩ | ⟨t1, fd, hfree, hfd⟩
  · refine .inl ⟨.inr (.inr hfull), ?_⟩
    rw [eval_bind (t := t) (a := (t.itable ip).d) rfl, if_neg hdev, eval_bind halloc]
    dsimp only
    rw [eval_bind hfd]
    dsimp only
    rw [eval_bind (fileclose_eval href (hfiles f href))]
  · refine .inr ⟨fun hno => ?_, ends_bind (ends_of_eval (t := t) (a := (t.itable ip).d) rfl ?_)⟩
    · rcases hno with hno | hno
      · exact hno f href
      · exact hno fd hfree
    rw [if_neg hdev]
    refine ends_bind (ends_of_eval halloc (ends_bind (ends_of_eval hfd (ends_bind (ends_any fun t2 _ => ?_)))))
    have hend : ∀ t3, Ends (do iunlock p ip; endOp; return (fd.val : Int) : FsM n Int) t3 fun _ r => r ≠ -1 := fun t3 =>
      ends_bind (ends_any fun _ _ => ends_bind (ends_any fun _ _ => ends_pure (by omega)))
    dsimp only
    split
    · exact ends_bind (ends_any fun t3 _ => hend t3)
    · exact hend t2

theorem Made.openFail (h : Made p s ip t) : ∃ t', (Fs.openFail p ip).eval t = .ok (t', -1) ∧ t'.dinode = t.dinode := by
  have hunlock : (iunlock p ip).eval t = .ok (t.setInode ip { t.itable ip with lock := none }, ()) :=
    atomic_eval (if_neg fun hc => hc.elim (fun hl => hl h.lock) fun hr => by rw [h.ref] at hr; omega)
  have hput := iput_eval (p := p) (i := ip) (t := t.setInode ip { t.itable ip with lock := none }) fun hc => by
    have hlink : (t.itable ip).d.nlink = 0 := by
      rw [setInode_self] at hc
      exact hc.2.2
    rw [h.nlink] at hlink
    cases hlink
  obtain ⟨t1, hrun, hdin⟩ : ∃ t1, (iunlockput p ip).eval t = .ok (t1, ()) ∧ t1.dinode = t.dinode :=
    ⟨_, (eval_bind hunlock).trans hput, rfl⟩
  exact ⟨{ t1 with outstanding := t1.outstanding - 1 }, (eval_bind hrun).trans rfl, hdin⟩

section Open

variable (hV : Volume s) (h0 : Settled s) (hcwd : ∀ i, (s.proc p).cwd = some i → 0 < (s.itable i).ref)
  (hfiles : ∀ f, (s.ftable f).ref = 0 → (s.ftable f).type = .FD_NONE)

include hV h0

theorem Holds.openFail (h : Holds s ((fun _ => 0) + oneRef ip) t) : Ends (Fs.openFail p ip) t fun t' _ => Intact s t' :=
  ends_bind ((h.iunlockput h0.ref fun _ => le_rfl).mono fun t1 _ h1 =>
    ends_bind (ends_of_eval (t := { t1 with outstanding := t1.outstanding - 1 }) (a := ()) rfl
      (ends_pure ((h1.1.outstanding (k := t1.outstanding - 1)).intact hV))))

include hfiles in
theorem Holds.openRest (h : Holds s ((fun _ => 0) + oneRef ip) t) : Ends (Fs.openRest p omode (some ip)) t fun t' r => r = -1 → Intact s t' := by
  have hftable : t.ftable = s.ftable := congrArg Prod.snd h.disk.tables
  rcases openRest_cases (t := t) p omode ip (by rw [hftable]; exact hfiles) with ⟨-, hrun⟩ | ⟨-, hends⟩
  · intro t' r hrun' _
    rw [hrun] at hrun'
    exact h.openFail hV h0 t' r hrun'
  · exact hends.mono fun _ _ hne hr => absurd hr hne

include hcwd

include hfiles

end Open

end Xv6.Fs
