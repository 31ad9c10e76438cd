import Xv6.Fs.Content

/-!
# Writers that share an open file

Any number of calls of `filewrite` on one open file. One pass of the loop of a call writes a chunk of its buffer, in one transaction
and with the inode locked; the passes of the calls interleave in any order, with whatever leaves the file and its inode alone in
between.
-/

namespace Xv6.Fs

open Function (update update_self)
open Run Prog

variable {n : Nat} {s s' : State n} {i : Fin NINODE} {f : Fin NFILE} {p : Fin n}

def writeChunk (p : Fin n) (f : Fin NFILE) (ip : Option (Fin NINODE)) (src : Nat → Option UInt8) (done n1 : Nat) : FsM n Int := do
  beginOp
  let i ← ilockFile p ip
  let off ← look fun s => (s.ftable f).off
  let r ← writei i (fun k => src (done + k)) off n1
  if r > 0 then advance f r.toNat
  iunlock p i
  endOp
  return r

theorem filewriteLoop_chunk (p : Fin n) (f : Fin NFILE) (ip : Option (Fin NINODE)) (src : Nat → Option UInt8)
    (len fuel done : Nat) : filewriteLoop p f ip src len (fuel + 1) done =
      if done < len then do
        let r ← writeChunk p f ip src done (min (len - done) maxWrite)
        if r = (min (len - done) maxWrite : Nat) then filewriteLoop p f ip src len fuel (done + min (len - done) maxWrite)
        else return done
      else return done := by
  rw [filewriteLoop]
  split
  · simp only [writeChunk, bind_assoc, pure_bind, ite_bind]
  · rfl

/-- The dinode of an entry of the inode table, as a process finds it that locks the entry. -/
def State.data (s : State n) (i : Fin NINODE) : Dinode :=
  if (s.itable i).valid then (s.itable i).d else s.dinode (s.itable i).inum

/-- The file `f` is open on the inode `i`, which is not locked, and its offset is at the end. -/
structure Shared (f : Fin NFILE) (i : Fin NINODE) (s : State n) : Prop where
  type : (s.ftable f).type = .FD_INODE
  ip : (s.ftable f).ip = some i
  ref : 1 ≤ (s.itable i).ref
  unlocked : (s.itable i).lock = none
  loaded : (s.itable i).valid = true ∨ (s.dinode (s.itable i).inum).type ≠ .free
  blocks : Blocks s (s.data i)
  off : (s.ftable f).off = (s.data i).size

theorem setInode_setInode {x y : Inode n} : (s.setInode i x).setInode i y = s.setInode i y := by
  rw [State.setInode, State.setInode, Function.update_idem]
  rfl

theorem ilockFile_eval (href : 1 ≤ (s.itable i).ref) (hlock : (s.itable i).lock = none)
    (hload : (s.itable i).valid = true ∨ (s.dinode (s.itable i).inum).type ≠ .free) :
    (ilockFile p (some i)).eval s =
      .ok (s.setInode i { s.itable i with lock := some p, d := s.data i, valid := true }, i) := by
  have hilock : (ilock p i).eval s = .ok (s.setInode i { s.itable i with lock := some p, d := s.data i, valid := true }, ()) := by
    unfold ilock
    rw [eval_bind (t := s.setInode i { s.itable i with lock := some p }) (a := ())]
    · rw [atomic, eval, setInode_self]
      by_cases hv : (s.itable i).valid = true
      · rw [if_pos hv]
        have : ({ s.itable i with lock := some p } : Inode n) = { s.itable i with lock := some p, d := s.data i, valid := true } := by
          rw [State.data, if_pos hv, ← hv]
        rw [this]
        rfl
      · have htype := hload.resolve_left hv
        rw [if_neg hv, if_neg, setInode_setInode, State.data, if_neg hv]
        · rfl
        · exact htype
    · rw [atomic, eval, if_neg (by omega), if_pos hlock]
      rfl
  rw [ilockFile, eval_bind hilock]
  rfl

theorem advance_eval {r : Int} (g : FsM n Int) (hfit : (s.ftable f).off + r.toNat < 2 ^ 32) :
    (if r > 0 then do
        advance f r.toNat
        g
      else g : FsM n Int).eval s = g.eval (s.setFile f { s.ftable f with off := (s.ftable f).off + r.toNat }) := by
  by_cases hr : r > 0
  · rw [if_pos hr, eval_bind (a := ()) (t := s.setFile f { s.ftable f with off := ((s.ftable f).off + r.toNat) % 2 ^ 32 }) rfl,
      Nat.mod_eq_of_lt hfit]
  · have h0 : r.toNat = 0 := by omega
    rw [if_neg hr, h0, State.setFile]
    congr 1
    rw [Nat.add_zero, Function.update_eq_self]

theorem unlock_eval {r : Int} (href : 1 ≤ (s.itable i).ref) (hlock : (s.itable i).lock = some p) :
    (do
      iunlock p i
      endOp
      return r : FsM n Int).eval s =
      .ok ({ s.setInode i { s.itable i with lock := none } with outstanding := s.outstanding - 1 }, r) := by
  rw [eval_bind (t := s.setInode i { s.itable i with lock := none }) (a := ())]
  · rfl
  · rw [iunlock, atomic, eval, if_neg (not_or.2 ⟨not_not.2 hlock, by omega⟩)]
    rfl

theorem writeChunk_eval (hS : Shared f i s) (p : Fin n) (buf : Nat → UInt8) (done : Nat) {n1 : Nat} (hn1 : n1 < 2 ^ 31) :
    (writeChunk p f (some i) (fun k => some (buf k)) done n1).eval s = .error .blocked ∨
    ∃ s' r, (writeChunk p f (some i) (fun k => some (buf k)) done n1).eval s = .ok (s', r) ∧ r ≤ n1 ∧ Shared f i s' ∧
      s'.contents (s'.data i) = s.contents (s.data i) ++ (List.range r.toNat).map fun k => buf (done + k) := by
  unfold writeChunk
  by_cases hfull : (s.outstanding + 1) * MAXOPBLOCKS > LOGSIZE
  · left
    rw [beginOp, atomic, bind_eq, Prog.bind, eval, if_pos hfull]
  right
  set s1 : State n := { s with outstanding := s.outstanding + 1 } with hs1
  have hbegin : beginOp.eval s = .ok (s1, ()) := by
    rw [beginOp, atomic, eval, if_neg hfull]
    rfl
  rw [eval_bind hbegin, eval_bind (ilockFile_eval (s := s1) hS.ref hS.unlocked hS.loaded)]
  set s2 := s1.setInode i { s1.itable i with lock := some p, d := s1.data i, valid := true } with hs2
  have hi2 : s2.itable i = { s.itable i with lock := some p, d := s.data i, valid := true } := setInode_self
  have hd2 : (s2.itable i).d = s.data i := by rw [hi2]
  have hB2 : Blocks s2 (s2.itable i).d := by
    rw [hd2]
    exact ⟨hS.blocks.used, hS.blocks.inj, hS.blocks.size, hS.blocks.disk⟩
  have hoff : (s2.ftable f).off = (s2.itable i).d.size := by
    rw [hd2]
    exact hS.off
  rw [eval_bind (t := s2) (a := (s2.ftable f).off) rfl, hoff]
  obtain ⟨s3, r, hrun, hr, hA⟩ := writei_eval (fun k => buf (done + k)) hB2 hn1
  rw [eval_bind hrun]
  obtain ⟨d, hd⟩ := hA.entry
  have hi3 : s3.itable i = { s.itable i with lock := some p, d := d, valid := true } := by rw [hd, hi2]
  have hfile : s3.ftable f = s.ftable f := by rw [hA.ftable]; rfl
  have hsize : (s3.itable i).d.size = (s.data i).size + r.toNat := by rw [hA.size, hd2]
  have hmax := hA.blocks.size
  rw [hsize] at hmax
  -- the file after the offset has moved
  set s4 : State n := s3.setFile f { s3.ftable f with off := (s3.ftable f).off + r.toNat }
  have hi4 : s4.itable i = { s.itable i with lock := some p, d := d, valid := true } := hi3
  set s5 : State n := { s4.setInode i { s4.itable i with lock := none } with outstanding := s4.outstanding - 1 }
  have hi5 : s5.itable i = { s.itable i with lock := none, d := d, valid := true } := setInode_self.trans (by rw [hi4])
  have hdata : s5.data i = (s3.itable i).d := by rw [State.data, hi5, hi3, if_pos rfl]
  have hfile5 : s5.ftable f = { s.ftable f with off := (s.ftable f).off + r.toNat } := by
    rw [← hfile]
    exact update_self ..
  refine ⟨s5, r, ?_, hr, ⟨?_, ?_, ?_, ?_, ?_, ?_, ?_⟩, ?_⟩
  · refine (advance_eval _ ?_).trans (unlock_eval ?_ ?_)
    · rw [hfile, hS.off]
      lia
    · rw [hi4]
      exact hS.ref
    · rw [hi4]
  · rw [hfile5]
    exact hS.type
  · rw [hfile5]
    exact hS.ip
  · rw [hi5]
    exact hS.ref
  · rw [hi5]
  · rw [hi5]
    exact .inl rfl
  · rw [hdata]
    exact ⟨hA.blocks.used, hA.blocks.inj, hA.blocks.size, hA.blocks.disk⟩
  · rw [hfile5, hdata, hsize, ← hS.off]
  · rw [hdata]
    refine Eq.trans ?_ (hA.contents.trans ?_)
    · rfl
    · rw [hd2]
      rfl

/-- A call of `filewrite`: the process, its buffer and the number of bytes. -/
structure WriteCall (n : Nat) where
  p : Fin n
  buf : Nat → UInt8
  len : Int

inductive WritePc where
  | idle
  /-- At the head of the loop. -/
  | loop (i : Nat)
  /-- `writei` has returned another number than it was asked for. -/
  | failed (i : Nat)
  | returned (ret : Int)

structure Writers (κ : Type) (n : Nat) where
  fs : State n
  pc : κ → WritePc
  /-- The history of the chunks: the bytes that each of them has written. -/
  log : List (κ × List UInt8)

inductive WriteEvent (κ : Type) (n : Nat) where
  | call (c : κ)
  /-- A call makes one pass of its loop. -/
  | chunk (c : κ)
  | ret (c : κ)
  /-- Other processes have changed the state. -/
  | other (fs : State n)

variable {κ : Type} [DecidableEq κ]

def WriteCall.chunk (c : WriteCall n) (i : Nat) : Nat := min (c.len.toNat - i) maxWrite

def Writers.next (calls : κ → WriteCall n) (f : Fin NFILE) (y : Writers κ n) : WriteEvent κ n → Except Stop (Writers κ n)
  | .call c =>
    match y.pc c with
    | .idle =>
      if (y.fs.ftable f).writable = false then .ok { y with pc := update y.pc c (.returned (-1)) }
      else if (y.fs.ftable f).type = .FD_INODE then .ok { y with pc := update y.pc c (.loop 0) }
      -- pipes and devices are not files of an inode
      else .error .blocked
    | _ => .error .blocked
  | .chunk c =>
    match y.pc c with
    | .loop i =>
      if (i : Int) < (calls c).len then
        match (writeChunk (calls c).p f (y.fs.ftable f).ip (fun k => some ((calls c).buf k)) i ((calls c).chunk i)).eval y.fs with
        | .ok (fs, r) => .ok {
            fs := fs
            pc := update y.pc c (if r = (calls c).chunk i then .loop (i + (calls c).chunk i) else .failed i)
            log := y.log ++ [(c, (List.range r.toNat).map fun k => (calls c).buf (i + k))] }
        | .error e => .error e
      else .error .blocked
    | _ => .error .blocked
  | .ret c =>
    match y.pc c with
    | .loop i =>
      if (i : Int) < (calls c).len then .error .blocked
      else .ok { y with pc := update y.pc c (.returned (if (i : Int) = (calls c).len then (calls c).len else -1)) }
    | .failed i =>
      .ok { y with pc := update y.pc c (.returned (if (i : Int) = (calls c).len then (calls c).len else -1)) }
    | _ => .error .blocked
  | .other fs => .ok { y with fs := fs }

/-- A change that leaves the file `f` and the inode `i` alone; references to them may be made and dropped. -/
structure Elsewhere (f : Fin NFILE) (i : Fin NINODE) (s s' : State n) : Prop where
  sb : s'.sb = s.sb
  file : ∃ r, s'.ftable f = { s.ftable f with ref := r }
  inode : ∃ r, 1 ≤ r ∧ s'.itable i = { s.itable i with ref := r }
  dinode : s'.dinode (s.itable i).inum = s.dinode (s.itable i).inum
  block : ∀ k ≤ MAXFILE, s.slot (s.data i) k ≠ 0 → s'.block (s.slot (s.data i) k) = s.block (s.slot (s.data i) k)
  bitmap : ∀ k ≤ MAXFILE, s.slot (s.data i) k ≠ 0 → s'.bitmap (s.slot (s.data i) k) = true

def Apart (f : Fin NFILE) (i : Fin NINODE) (y : Writers κ n) : WriteEvent κ n → Prop
  | .other fs => Elsewhere f i y.fs fs
  | _ => True

theorem Elsewhere.shared (h : Elsewhere f i s s') (hS : Shared f i s) :
    Shared f i s' ∧ s'.contents (s'.data i) = s.contents (s.data i) := by
  obtain ⟨r, hf⟩ := h.file
  obtain ⟨r', hr', hi⟩ := h.inode
  have hdata : s'.data i = s.data i := by
    unfold State.data
    rw [hi]
    exact if_congr Iff.rfl rfl h.dinode
  obtain ⟨hB, hbyte⟩ := hS.blocks.congr h.block h.bitmap h.sb
  refine ⟨⟨?_, ?_, ?_, ?_, ?_, ?_, ?_⟩, ?_⟩
  · rw [hf]
    exact hS.type
  · rw [hf]
    exact hS.ip
  · rw [hi]
    exact hr'
  · rw [hi]
    exact hS.unlocked
  · rw [hi]
    refine hS.loaded.imp_right fun ht => ?_
    change (s'.dinode (s.itable i).inum).type ≠ _
    rw [h.dinode]
    exact ht
  · rw [hdata]
    exact hB
  · rw [hf, hdata]
    exact hS.off
  · rw [hdata, State.contents, State.contents]
    have hsize := hS.blocks.size
    exact List.map_congr_left fun a ha => hbyte a (lt_of_lt_of_le (List.mem_range.1 ha) hsize)

def written (log : List (κ × List UInt8)) (c : κ) : List UInt8 := (log.filter fun e => e.1 = c).flatMap Prod.snd

theorem written_append (log : List (κ × List UInt8)) (c c' : κ) (l : List UInt8) :
    written (log ++ [(c', l)]) c = if c' = c then written log c ++ l else written log c := by
  unfold written
  rw [List.filter_append, List.flatMap_append]
  split
  next h => rw [List.filter_cons_of_pos (by simpa using h)]; simp
  next h => rw [List.filter_cons_of_neg (by simpa using h)]; simp

/-- A call for `len` bytes has written `w` bytes: those up to its position, all of them when it returns `len`, and not all of them
or none when it returns -1. -/
def WritePc.Wrote (len : Int) (w : Nat) : WritePc → Prop
  | .idle => w = 0
  | .loop i => w = i ∧ (i = 0 ∨ (i : Int) ≤ len)
  | .failed i => (i : Int) < len ∧ (w : Int) < len
  | .returned r => r = len ∧ (w : Int) = len ∨ r = -1 ∧ ((w : Int) ≠ len ∨ w = 0)

structure Writers.Inv (calls : κ → WriteCall n) (f : Fin NFILE) (i : Fin NINODE) (old : List UInt8) (y : Writers κ n) : Prop where
  shared : Shared f i y.fs
  contents : y.fs.contents (y.fs.data i) = old ++ y.log.flatMap Prod.snd
  wrote : ∀ c, ∃ w, written y.log c = (List.range w).map (calls c).buf ∧ (y.pc c).Wrote (calls c).len w

variable {calls : κ → WriteCall n} {old : List UInt8} {y y' : Writers κ n} {e : WriteEvent κ n}

theorem Writers.Inv.goto (h : y.Inv calls f i old) (c : κ) {pc : WritePc}
    (hpc : ∀ w, (y.pc c).Wrote (calls c).len w → pc.Wrote (calls c).len w) :
    ({ y with pc := update y.pc c pc } : Writers κ n).Inv calls f i old := by
  refine ⟨h.shared, h.contents, fun c' => ?_⟩
  obtain ⟨w, hw, hpc'⟩ := h.wrote c'
  refine ⟨w, hw, ?_⟩
  by_cases hc : c' = c
  · subst hc
    simp only [update_self]
    exact hpc w hpc'
  · simp only [Function.update_of_ne hc]
    exact hpc'

theorem Writers.Inv.append (h : y.Inv calls f i old) (c : κ) {k m : Nat} {fs : State n} {pc : WritePc} (hk : y.pc c = .loop k)
    (hS : Shared f i fs)
    (hfs : fs.contents (fs.data i) = y.fs.contents (y.fs.data i) ++ (List.range m).map fun j => (calls c).buf (k + j))
    (hpc : pc.Wrote (calls c).len (k + m)) :
    (⟨fs, update y.pc c pc, y.log ++ [(c, (List.range m).map fun j => (calls c).buf (k + j))]⟩ : Writers κ n).Inv
      calls f i old := by
  refine ⟨hS, ?_, fun c' => ?_⟩
  · rw [hfs, h.contents, List.flatMap_append, List.flatMap_singleton, List.append_assoc]
  · obtain ⟨w, hw, hpc'⟩ := h.wrote c'
    rw [written_append]
    by_cases hc : c = c'
    · subst hc
      rw [hk] at hpc'
      obtain ⟨rfl, -⟩ := hpc'
      refine ⟨w + m, ?_, by simpa only [update_self] using hpc⟩
      rw [if_pos rfl, hw, List.range_add, List.map_append, List.map_map]
      rfl
    · refine ⟨w, by rw [if_neg hc, hw], ?_⟩
      simp only [Function.update_of_ne (Ne.symm hc)]
      exact hpc'

theorem WriteCall.chunk_pos {c : WriteCall n} {k : Nat} (h : (k : Int) < c.len) : 0 < c.chunk k ∧ (k + c.chunk k : Int) ≤ c.len := by
  have : 0 < maxWrite := by decide
  unfold WriteCall.chunk
  omega

theorem WriteCall.chunk_lt (c : WriteCall n) (k : Nat) : c.chunk k < 2 ^ 31 :=
  lt_of_le_of_lt (min_le_right _ _) (by decide)

theorem Writers.Inv.next (h : y.Inv calls f i old) (hC : Apart f i y e) (hn : y.next calls f e = .ok y') :
    y'.Inv calls f i old := by
  cases e with
  | call c =>
    simp only [Writers.next] at hn
    split at hn
    next hpc =>
      split at hn
      next =>
        cases hn
        refine h.goto c fun w hw => ?_
        rw [hpc] at hw
        exact .inr ⟨rfl, .inr hw⟩
      next =>
        split at hn
        next =>
          cases hn
          refine h.goto c fun w hw => ?_
          rw [hpc] at hw
          exact ⟨hw, .inl rfl⟩
        next => cases hn
    next => cases hn
  | chunk c =>
    simp only [Writers.next] at hn
    split at hn
    next k hpc =>
      split at hn
      next hlt =>
        obtain ⟨hpos, hle⟩ := WriteCall.chunk_pos hlt
        rw [h.shared.ip] at hn
        rcases writeChunk_eval h.shared (calls c).p (calls c).buf k ((calls c).chunk_lt k) with hrun | ⟨fs, r, hrun, hr, hS, hfs⟩
        · rw [hrun] at hn
          cases hn
        · rw [hrun] at hn
          cases hn
          refine h.append c hpc hS hfs ?_
          split
          next hfull =>
            subst hfull
            exact ⟨rfl, .inr (by push_cast; exact hle)⟩
          next hpart => exact ⟨hlt, by omega⟩
      next => cases hn
    next => cases hn
  | ret c =>
    simp only [Writers.next] at hn
    split at hn
    next k hpc =>
      split at hn
      next => cases hn
      next hge =>
        cases hn
        refine h.goto c fun w hw => ?_
        rw [hpc] at hw
        obtain ⟨rfl, -⟩ := hw
        split
        next hall => exact .inl ⟨rfl, hall⟩
        next hnot => exact .inr ⟨rfl, .inl hnot⟩
    next k hpc =>
      cases hn
      refine h.goto c fun w hw => ?_
      rw [hpc] at hw
      rw [if_neg hw.1.ne]
      exact .inr ⟨rfl, .inl hw.2.ne⟩
    next => cases hn
  | other fs =>
    cases hn
    obtain ⟨hS, hfs⟩ := Elsewhere.shared hC h.shared
    exact ⟨hS, hfs.trans h.contents, h.wrote⟩

structure Writers.Fresh (y : Writers κ n) : Prop where
  pc : ∀ c, y.pc c = .idle
  log : y.log = []

/-- Calls of `filewrite` on one open file whose offset is at its end: in every interleaving the file is what it was before followed
by the chunks in the order of their writes, the offset stays at the end. -/
theorem shared_writes_append (calls : κ → WriteCall n) (f : Fin NFILE) (i : Fin NINODE) (y₀ y : Writers κ n)
    (es : List (WriteEvent κ n)) (hS : Shared f i y₀.fs) (hfresh : y₀.Fresh) (hes : Along (Writers.next calls f) (Apart f i) y₀ es)
    (hrun : run (Writers.next calls f) y₀ es = .ok y) :
    y.fs.contents (y.fs.data i) = y₀.fs.contents (y₀.fs.data i) ++ y.log.flatMap Prod.snd ∧
    (y.fs.ftable f).off = (y.fs.data i).size ∧
    ∀ c, ∃ w, written y.log c = (List.range w).map (calls c).buf ∧ (y.pc c).Wrote (calls c).len w := by
  have h0 : y₀.Inv calls f i (y₀.fs.contents (y₀.fs.data i)) := by
    refine ⟨hS, by rw [hfresh.log, List.flatMap_nil, List.append_nil], fun c => ⟨0, ?_, ?_⟩⟩
    · rw [hfresh.log]
      rfl
    · rw [hfresh.pc c]
      rfl
  have h := run_induct (fun _ _ _ hC hn hI => Writers.Inv.next hI hC hn) hes hrun h0
  exact ⟨h.contents, h.shared.off, h.wrote⟩

def emptyFile : State 2 where
  sb := ⟨50, 16, 46⟩
  itable _ := { inum := 2, ref := 1, valid := true, d := { type := .T_FILE, nlink := 1 } }
  dinode _ := { type := .T_FILE, nlink := 1 }
  bitmap b := decide (b < 46)
  block _ _ := 0
  ftable _ := { type := .FD_INODE, ref := 2, writable := true, ip := some ⟨0, Nat.zero_lt_succ _⟩ }
  proc _ := {}
  initproc := ⟨0, Nat.two_pos⟩
  pipe _ := none
  outstanding := 0
  irefs _ _ := 0
  frefs _ _ := 0
  ends _ _ := 0

theorem emptyFile_shared : Shared 0 0 emptyFile := by
  have hslot : ∀ k, emptyFile.slot (emptyFile.data 0) k = 0 := fun k => by
    unfold State.slot
    split
    · rfl
    · split <;> rfl
  exact ⟨rfl, rfl, by decide, rfl, .inl rfl, ⟨fun k _ h => absurd (hslot k) h, fun k _ k' _ h => absurd (hslot k) h,
    Nat.zero_le _, by decide⟩, rfl⟩

def twoCalls : Bool → WriteCall 2
  | false => ⟨⟨0, Nat.two_pos⟩, fun k => UInt8.ofNat k, 2⟩
  | true => ⟨⟨1, Nat.one_lt_two⟩, fun k => UInt8.ofNat (10 + k), 2⟩

def twoStart : Writers Bool 2 := ⟨emptyFile, fun _ => .idle, []⟩

def twoEvents : List (WriteEvent Bool 2) := [.call false, .call true, .chunk true, .chunk false, .ret false, .ret true]

theorem shared_writes_append_two : ∃ y, run (Writers.next twoCalls 0) twoStart twoEvents = .ok y ∧
    y.log = [(true, [10, 11]), (false, [0, 1])] ∧ y.fs.contents (y.fs.data 0) = [10, 11, 0, 1] ∧ (y.fs.ftable 0).off = 4 := by
  have hends : Ends (fun y => y.log = [(true, [10, 11]), (false, [0, 1])] ∧ (y.fs.data 0).size = 4)
      (run (Writers.next twoCalls 0) twoStart twoEvents) := by decide +kernel
  obtain ⟨y, hrun, hlog, hsize⟩ := hends.exists
  have hes : Along (Writers.next twoCalls 0) (Apart 0 0) twoStart twoEvents := along_of_forall fun e he y => by
    simp only [twoEvents, List.mem_cons, List.not_mem_nil, or_false] at he
    rcases he with rfl | rfl | rfl | rfl | rfl | rfl <;> trivial
  obtain ⟨hc, hoff, -⟩ := shared_writes_append twoCalls 0 0 twoStart y twoEvents emptyFile_shared ⟨fun _ => rfl, rfl⟩ hes hrun
  refine ⟨y, hrun, hlog, ?_, by rw [hoff, hsize]⟩
  rw [hc, hlog]
  rfl

end Xv6.Fs
