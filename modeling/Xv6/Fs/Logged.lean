import Mathlib.Data.Finset.Card
import Xv6.Fs.Shared

/-!
# The blocks that a write logs

The functions behind `writei` once more, with the numbers of the blocks that they pass to `log_write`; without these they are the
functions of `Xv6.Fs.Inode` (`Erases`).
-/

namespace Xv6.Fs

open List (append_assoc append_nil)
open Function (update)
open Run Prog

variable {n : Nat} {α β : Type}

/-- The file system and the numbers of the blocks that were logged. -/
structure Logged (n : Nat) where
  fs : State n
  log : List Nat

abbrev LogM (n : Nat) := Prog (Logged n)

def plain : FsM n α → LogM n α
  | ret a => ret a
  | act f k => act (fun s =>
      match f s.fs with
      | .ok (t, b) => .ok (⟨t, s.log⟩, b)
      | .error e => .error e) fun b => plain (k b)

def logWrite (b : Nat) : LogM n Unit := atomic fun s => .ok (⟨s.fs, s.log ++ [b]⟩, ())

abbrev IPB : Nat := BSIZE / 64

/-- The places of the inodes and of the bitmap in the superblock. -/
structure Places where
  inodestart : Nat
  bmapstart : Nat

variable (sb : Places) {x x' : LogM n α} {y y' : FsM n α} {b : Nat}

def bzeroL (bno : Nat) : LogM n Unit := do
  plain (bzero bno)
  logWrite bno

def ballocLoopL : List Nat → LogM n Nat
  | [] => pure 0
  | b :: bs => do
    match ← plain (atomic fun s => .ok (s.ballocIn b)) with
    | some x =>
      logWrite (b / BPB + sb.bmapstart)
      bzeroL x
      return x
    | none => ballocLoopL bs

def ballocL : LogM n Nat := do
  let size ← plain (look fun s => s.sb.size)
  ballocLoopL sb ((List.range ((size + BPB - 1) / BPB)).map (· * BPB))

def bmapL (i : Fin NINODE) (bn : Nat) : LogM n Nat := do
  if bn < NDIRECT then
    let addr := (← plain (load i)).addrs bn
    if addr = 0 then
      let addr ← ballocL sb
      if addr = 0 then return 0
      else
        plain (store i (Dinode.setAddr bn addr))
        return addr
    else return addr
  else if bn - NDIRECT < NINDIRECT then
    let ind := (← plain (load i)).addrs NDIRECT
    let ind ←
      if ind = 0 then do
        let addr ← ballocL sb
        if addr = 0 then pure 0
        else
          plain (store i (Dinode.setAddr NDIRECT addr))
          pure addr
      else pure ind
    if ind = 0 then return 0
    else
      let addr ← plain (look fun s => wordAt (s.block ind) (bn - NDIRECT))
      if addr = 0 then
        let addr ← ballocL sb
        if addr = 0 then return 0
        else
          plain (change fun s =>
            { s with block := update s.block ind (Bytes.storeLE (s.block ind) (4 * (bn - NDIRECT)) 4 addr) })
          logWrite ind
          return addr
      else return addr
  else plain (panic "bmap: out of range")

def iupdateL (i : Fin NINODE) : LogM n Unit := do
  plain (iupdate i)
  let inum ← plain (look fun s => (s.itable i).inum)
  logWrite (inum / IPB + sb.inodestart)

def writeiLoopL (i : Fin NINODE) (src : Nat → Option UInt8) (len : Nat) : Nat → Nat → Nat → LogM n (Nat × Nat)
  | 0, off, tot => pure (tot, off)
  | fuel + 1, off, tot => do
    if tot < len then
      let addr ← bmapL sb i (off / BSIZE)
      if addr = 0 then return (tot, off)
      else
        let m := min (len - tot) (BSIZE - off % BSIZE)
        plain (change fun s => { s with
          block := update s.block addr
            (Bytes.write (s.block addr) (off % BSIZE) (copied src tot m) fun k => (src (tot + k)).getD 0) })
        if copied src tot m = m then
          logWrite addr
          writeiLoopL i src len fuel (off + m) (tot + m)
        else return (tot, off)
    else return (tot, off)

def writeiL (i : Fin NINODE) (src : Nat → Option UInt8) (off len : Nat) : LogM n Int := do
  let size := (← plain (load i)).size
  if off > size ∨ (off + len) % 2 ^ 32 < off then return -1
  else if (off + len) % 2 ^ 32 > MAXFILE * BSIZE then return -1
  else
    let (tot, off) ← writeiLoopL sb i src len len off 0
    plain (store i fun d => { d with size := if off > d.size then off else d.size })
    iupdateL sb i
    return tot

/-- The program does what the other one does, whatever was logged before. -/
def Erases (x : LogM n α) (y : FsM n α) : Prop :=
  ∀ s l, match y.eval s with
    | .ok (s', a) => ∃ l', x.eval ⟨s, l⟩ = .ok (⟨s', l'⟩, a)
    | .error e => x.eval ⟨s, l⟩ = .error e

theorem plain_eval (y : FsM n α) (s : State n) (l : List Nat) :
    (plain y).eval ⟨s, l⟩ = match y.eval s with
      | .ok (s', a) => .ok (⟨s', l⟩, a)
      | .error e => .error e := by
  induction y generalizing s with
  | ret a => rfl
  | act f k ih =>
    simp only [plain, eval]
    rcases f s with e | ⟨t, b⟩
    · rfl
    · exact ih b t

theorem erases_plain (y : FsM n α) : Erases (plain y) y := by
  intro s l
  rw [plain_eval]
  rcases y.eval s with e | ⟨t, a⟩
  · rfl
  · exact ⟨l, rfl⟩

theorem erases_pure (a : α) : Erases (pure a : LogM n α) (pure a) := fun _ l => ⟨l, rfl⟩

theorem eval_bind_error {S : Type} {x : Prog S α} {g : α → Prog S β} {s : S} {e : Stop} (h : x.eval s = .error e) :
    (x >>= g).eval s = .error e := by
  induction x generalizing s with
  | ret b => cases h
  | act f k ih =>
    simp only [eval] at h
    rw [bind_eq, Prog.bind, eval]
    split at h
    next s1 b hf => exact ih b h
    next => exact congrArg _ (Except.error.inj h)

theorem Erases.bind {f : α → LogM n β} {g : α → FsM n β} (hx : Erases x y)
    (hf : ∀ a, Erases (f a) (g a)) : Erases (x >>= f) (y >>= g) := by
  intro s l
  have h := hx s l
  rcases hy : y.eval s with e | ⟨t, a⟩
  · rw [hy] at h
    rw [eval_bind_error hy]
    exact eval_bind_error h
  · rw [hy] at h
    obtain ⟨l', h⟩ := h
    rw [eval_bind hy, eval_bind h]
    exact hf a t l'

theorem Erases.log (h : Erases x y) : Erases (logWrite b >>= fun _ => x) y := by
  intro s l
  rw [eval_bind (t := ⟨s, l ++ [b]⟩) (a := ()) rfl]
  exact h s _

theorem Erases.ite {c : Prop} [Decidable c] (h : Erases x y) (h' : Erases x' y') :
    Erases (if c then x else x') (if c then y else y') := by
  split
  · exact h
  · exact h'

theorem bzeroL_erases (b : Nat) : Erases (bzeroL (n := n) b) (bzero b) := by
  have h : Erases (logWrite b >>= fun _ => (pure () : LogM n Unit)) (pure ()) := (erases_pure ()).log
  have h2 := (erases_plain (bzero (n := n) b)).bind fun _ => h
  rw [bind_pure_unit, bind_pure_unit] at h2
  exact h2

theorem ballocLoopL_erases (bs : List Nat) : Erases (ballocLoopL (n := n) sb bs) (ballocLoop bs) := by
  induction bs with
  | nil => exact erases_pure 0
  | cons b bs ih =>
    refine (erases_plain _).bind fun o => ?_
    cases o with
    | none => exact ih
    | some x => exact ((bzeroL_erases x).bind fun _ => erases_pure x).log

theorem ballocL_erases : Erases (ballocL (n := n) sb) balloc := (erases_plain _).bind fun _ => ballocLoopL_erases sb _

private def entryOfL (ind k : Nat) : LogM n Nat :=
  if ind = 0 then pure 0
  else do
    let addr ← plain (look fun s => wordAt (s.block ind) (k - NDIRECT))
    if addr = 0 then
      let addr ← ballocL sb
      if addr = 0 then return 0
      else
        plain (change fun s =>
          { s with block := update s.block ind (Bytes.storeLE (s.block ind) (4 * (k - NDIRECT)) 4 addr) })
        logWrite ind
        return addr
    else return addr

theorem entryOfL_erases (ind k : Nat) : Erases (entryOfL (n := n) sb ind k) (entryOf ind k) := by
  refine .ite (erases_pure 0) ((erases_plain _).bind fun addr => ?_)
  refine .ite ((ballocL_erases sb).bind fun addr => ?_) (erases_pure _)
  exact .ite (erases_pure 0) ((erases_plain _).bind fun _ => (erases_pure addr).log)

theorem bmapL_erases (i : Fin NINODE) (bn : Nat) : Erases (bmapL (n := n) sb i bn) (bmap i bn) := by
  refine .ite ((erases_plain _).bind fun d => ?_) (.ite ((erases_plain _).bind fun d => ?_) (erases_plain _))
  · refine .ite ((ballocL_erases sb).bind fun addr => ?_) (erases_pure _)
    exact .ite (erases_pure 0) ((erases_plain _).bind fun _ => erases_pure addr)
  · refine .ite ((ballocL_erases sb).bind fun addr => ?_) (entryOfL_erases sb _ bn)
    exact .ite (entryOfL_erases sb 0 bn) ((erases_plain _).bind fun _ => entryOfL_erases sb addr bn)

theorem writeiLoopL_erases (i : Fin NINODE) (src : Nat → Option UInt8) (len : Nat) : ∀ fuel off tot,
    Erases (writeiLoopL (n := n) sb i src len fuel off tot) (writeiLoop i src len fuel off tot) := by
  intro fuel
  induction fuel with
  | zero => exact fun off tot => erases_pure _
  | succ fuel ih =>
    intro off tot
    refine .ite ((bmapL_erases sb i _).bind fun addr => .ite (erases_pure _) ?_) (erases_pure _)
    exact (erases_plain _).bind fun _ => .ite (ih _ _).log (erases_pure _)

theorem writeiL_erases (i : Fin NINODE) (src : Nat → Option UInt8) (off len : Nat) :
    Erases (writeiL (n := n) sb i src off len) (writei i src off len) := by
  refine (erases_plain _).bind fun d => .ite (erases_pure _) (.ite (erases_pure _) ?_)
  refine (writeiLoopL_erases sb i src len len off 0).bind fun r => (erases_plain _).bind fun _ => ?_
  have h : Erases (plain (look fun s => (s.itable i).inum) >>= fun inum =>
      logWrite (inum / IPB + sb.inodestart) >>= fun _ => (pure (r.1 : Int) : LogM n Int)) (pure (r.1 : Int)) := by
    intro s l
    exact ⟨_, rfl⟩
  have h2 := (erases_plain (iupdate (n := n) i)).bind fun _ => h
  rw [← bind_assoc, ← bind_assoc] at h2
  simpa only [iupdateL, bind_assoc] using h2

section

variable {sb : Places} {i : Fin NINODE} {s t s' : State n} {l w w' : List Nat} {m m' k len ind off tot : Nat}

def State.indirect (s : State n) (i : Fin NINODE) : Nat := (s.itable i).d.addrs NDIRECT

/-- From `s` to `s'` the blocks `w` have been logged: at most `m` blocks, the indirect block, and one more if the indirect
block is new. -/
structure Costs (i : Fin NINODE) (s s' : State n) (w : List Nat) (m : Nat) : Prop where
  keeps : s.indirect i ≠ 0 → s'.indirect i = s.indirect i
  bound : ∃ C N : Finset Nat, C.card ≤ m ∧ N.card ≤ 1 ∧ (N.Nonempty → s.indirect i = 0 ∧ s'.indirect i ≠ 0) ∧
    ∀ b ∈ w, b ∈ C ∨ b ∈ N ∨ s'.indirect i ≠ 0 ∧ b = s'.indirect i

theorem Costs.nil : Costs i s s [] 0 :=
  ⟨fun _ => rfl, ∅, ∅, le_rfl, Nat.zero_le 1, fun h => absurd h Finset.not_nonempty_empty, fun _ hb => absurd hb List.not_mem_nil⟩

theorem Costs.trans (h : Costs i s t w m) (h' : Costs i t s' w' m') : Costs i s s' (w ++ w') (m + m') := by
  obtain ⟨C, N, hC, hN, hNew, hw⟩ := h.bound
  obtain ⟨C', N', hC', hN', hNew', hw'⟩ := h'.bound
  refine ⟨fun h0 => ?_, C ∪ C', N ∪ N', (Finset.card_union_le C C').trans (Nat.add_le_add hC hC'), ?_, ?_, fun b hb => ?_⟩
  · have ht := h.keeps h0
    rw [h'.keeps (by rw [ht]; exact h0), ht]
  · -- the indirect block is new only once
    rcases N.eq_empty_or_nonempty with rfl | hne
    · rw [Finset.empty_union]
      exact hN'
    · rcases N'.eq_empty_or_nonempty with rfl | hne'
      · rw [Finset.union_empty]
        exact hN
      · exact absurd (hNew' hne').1 (hNew hne).2
  · intro hne
    rcases Finset.union_nonempty.1 hne with hne | hne
    · obtain ⟨h1, h2⟩ := hNew hne
      exact ⟨h1, by rw [h'.keeps h2]; exact h2⟩
    · obtain ⟨h1, h2⟩ := hNew' hne
      refine ⟨?_, h2⟩
      by_contra h0
      rw [h.keeps h0] at h1
      exact h0 h1
  · rcases List.mem_append.1 hb with hb | hb
    · rcases hw b hb with hb | hb | ⟨h0, hb⟩
      · exact .inl (Finset.mem_union_left C' hb)
      · exact .inr (.inl (Finset.mem_union_left N' hb))
      · rw [← h'.keeps h0] at hb h0
        exact .inr (.inr ⟨h0, hb⟩)
    · rcases hw' b hb with hb | hb | hb
      · exact .inl (Finset.mem_union_right C hb)
      · exact .inr (.inl (Finset.mem_union_right N hb))
      · exact .inr (.inr hb)

theorem Costs.of_mem (C : Finset Nat) (hC : C.card ≤ m) (hind : s'.indirect i = s.indirect i)
    (hw : ∀ b ∈ w, b ∈ C ∨ s'.indirect i ≠ 0 ∧ b = s'.indirect i) : Costs i s s' w m :=
  ⟨fun _ => hind, C, ∅, hC, Nat.zero_le 1, fun h => absurd h Finset.not_nonempty_empty, fun b hb => (hw b hb).imp_right Or.inr⟩

theorem ballocL_eval (sb : Places) (s : State n) (l : List Nat) : ∃ s' x c w, (ballocL sb).eval ⟨s, l⟩ = .ok (⟨s', l ++ w⟩, x) ∧
    (∀ b ∈ w, b = c ∨ b = x) ∧ s'.itable = s.itable := by
  have hloop : ∀ bs : List Nat, ∃ s' x c w, (ballocLoopL sb bs).eval ⟨s, l⟩ = .ok (⟨s', l ++ w⟩, x) ∧
      (∀ b ∈ w, b = c ∨ b = x) ∧ s'.itable = s.itable := by
    intro bs
    induction bs with
    | nil => exact ⟨s, 0, 0, [], by rw [append_nil]; rfl, fun _ hb => absurd hb List.not_mem_nil, rfl⟩
    | cons b bs ih =>
      unfold ballocLoopL
      cases hf : firstFree s.bitmap b (min BPB (s.sb.size - b)) with
      | none =>
        have hin : s.ballocIn b = (s, none) := by rw [State.ballocIn, hf]
        rw [eval_bind (t := ⟨s, l⟩) (a := none) (by rw [plain_eval, atomic, eval, hin]; rfl)]
        exact ih
      | some x =>
        have hin : s.ballocIn b = ({ s with bitmap := update s.bitmap x true }, some x) := by rw [State.ballocIn, hf]
        rw [eval_bind (t := ⟨{ s with bitmap := update s.bitmap x true }, l⟩) (a := some x)
          (by rw [plain_eval, atomic, eval, hin]; rfl)]
        refine ⟨s.allocated x, x, b / BPB + sb.bmapstart, [b / BPB + sb.bmapstart, x], ?_, by simp, rfl⟩
        rw [show l ++ [b / BPB + sb.bmapstart, x] = l ++ [b / BPB + sb.bmapstart] ++ [x] by simp]
        rfl
  unfold ballocL
  rw [eval_bind (t := ⟨s, l⟩) (a := s.sb.size) rfl]
  exact hloop _

theorem card_pair (c x : Nat) : ({c, x} : Finset Nat).card ≤ 2 := Finset.card_le_two

private def BmapCost (i : Fin NINODE) (s : State n) (l : List Nat) (k : Nat) (r : Except Stop (Logged n × Nat)) : Prop :=
  ∃ s' x w, r = .ok (⟨s', l ++ w⟩, x) ∧ Costs i s s' (w ++ [x]) (if s.slot (s.itable i).d k = 0 then 2 else 1)

theorem entryOfL_eval (sb : Places) (hind : ind = s.indirect i) (hne : ind ≠ 0) (hk : ¬k < NDIRECT) (hk' : k < MAXFILE) :
    BmapCost i s l k ((entryOfL sb ind k).eval ⟨s, l⟩) := by
  subst hind
  have hslot := slot_entry (s := s) hk hk' hne
  unfold entryOfL
  rw [if_neg hne, eval_bind (t := ⟨s, l⟩) (a := wordAt (s.block (s.indirect i)) (k - NDIRECT)) rfl]
  unfold BmapCost
  rw [hslot]
  change ∃ s' x w, _ ∧ Costs i s s' (w ++ [x]) (if wordAt (s.block (s.indirect i)) (k - NDIRECT) = 0 then 2 else 1)
  by_cases h0 : wordAt (s.block (s.indirect i)) (k - NDIRECT) = 0
  · rw [if_pos h0, if_pos h0]
    obtain ⟨s1, x, c, w, hrun, hw, hit⟩ := ballocL_eval sb s l
    have hind1 : s1.indirect i = s.indirect i := by rw [State.indirect, hit]; rfl
    rw [eval_bind hrun]
    by_cases hx0 : x = 0
    · subst hx0
      refine ⟨s1, 0, w, rfl, .of_mem {c, 0} (card_pair c 0) hind1 fun b hb => .inl ?_⟩
      rcases List.mem_append.1 hb with hb | hb
      · rcases hw b hb with rfl | rfl <;> simp
      · simp [List.mem_singleton.1 hb]
    · rw [if_neg hx0]
      refine ⟨s1.setBlock (s.indirect i) (Bytes.storeLE (s1.block (s.indirect i)) (4 * (k - NDIRECT)) 4 x), x, w ++ [s.indirect i], ?_,
        .of_mem {c, x} (card_pair c x) hind1 fun b hb => ?_⟩
      · rw [← append_assoc]
        rfl
      · rw [append_assoc] at hb
        rcases List.mem_append.1 hb with hb | hb
        · left
          rcases hw b hb with rfl | rfl <;> simp
        · simp only [List.cons_append, List.nil_append, List.mem_cons, List.not_mem_nil, or_false] at hb
          rcases hb with rfl | rfl
          · exact .inr ⟨by change s1.indirect i ≠ 0; rw [hind1]; exact hne, hind1.symm⟩
          · left
            simp
  · rw [if_neg h0, if_neg h0]
    refine ⟨s, _, [], by rw [append_nil]; rfl, .of_mem {wordAt (s.block (s.indirect i)) (k - NDIRECT)} ?_ rfl fun b hb => ?_⟩
    · rw [Finset.card_singleton]
    · left
      simpa using hb

theorem bmapL_eval (sb : Places) (s : State n) (l : List Nat) (hk : k < MAXFILE) : BmapCost i s l k ((bmapL sb i k).eval ⟨s, l⟩) := by
  unfold bmapL
  by_cases hdir : k < NDIRECT
  · have hslot := slot_direct (s := s) (d := (s.itable i).d) hdir
    rw [if_pos hdir, eval_bind (t := ⟨s, l⟩) (a := (s.itable i).d) rfl]
    unfold BmapCost
    rw [hslot]
    by_cases h0 : (s.itable i).d.addrs k = 0
    · rw [if_pos h0, if_pos h0]
      obtain ⟨s1, x, c, w, hrun, hw, hit⟩ := ballocL_eval sb s l
      rw [eval_bind hrun]
      have hmem : ∀ b ∈ w ++ [x], b ∈ ({c, x} : Finset Nat) := by
        intro b hb
        rcases List.mem_append.1 hb with hb | hb
        · rcases hw b hb with rfl | rfl <;> simp
        · simp [List.mem_singleton.1 hb]
      by_cases hx0 : x = 0
      · subst hx0
        refine ⟨s1, 0, w, rfl, .of_mem {c, 0} (card_pair c 0) ?_ fun b hb => .inl (hmem b hb)⟩
        rw [State.indirect, hit]
        rfl
      · rw [if_neg hx0]
        refine ⟨_, x, w, rfl, .of_mem {c, x} (card_pair c x) ?_ fun b hb => .inl (hmem b hb)⟩
        rw [State.indirect, setInode_self]
        dsimp only
        rw [setAddr_addrs, if_neg (by omega), hit]
        rfl
    · rw [if_neg h0, if_neg h0]
      refine ⟨s, _, [], by rw [append_nil]; rfl, .of_mem {(s.itable i).d.addrs k} ?_ rfl fun b hb => ?_⟩
      · rw [Finset.card_singleton]
      · left
        simpa using hb
  · rw [if_neg hdir, if_pos (by lia), eval_bind (t := ⟨s, l⟩) (a := (s.itable i).d) rfl]
    by_cases h0 : (s.itable i).d.addrs NDIRECT = 0
    · -- the indirect block is new
      rw [if_pos h0]
      obtain ⟨s1, y, c, w, hrun, hw, hit⟩ := ballocL_eval sb s l
      rw [eval_bind hrun]
      unfold BmapCost
      rw [slot_no_indirect hdir h0, if_pos rfl]
      by_cases hy0 : y = 0
      · subst hy0
        refine ⟨s1, 0, w, rfl, .of_mem {c, 0} (card_pair c 0) (by rw [State.indirect, hit]; rfl) fun b hb => .inl ?_⟩
        rcases List.mem_append.1 hb with hb | hb
        · rcases hw b hb with rfl | rfl <;> simp
        · simp [List.mem_singleton.1 hb]
      · rw [if_neg hy0]
        set t := s1.setInode i { s1.itable i with d := (s1.itable i).d.setAddr NDIRECT y } with ht
        have hindt : t.indirect i = y := by
          rw [State.indirect, setInode_self]
          exact setAddr_addrs.trans (if_pos rfl)
        have hfirst : Costs i s t w 0 := by
          refine ⟨fun h => absurd h0 h, ∅, {c}, le_rfl, by rw [Finset.card_singleton], fun _ => ⟨h0, by rw [hindt]; exact hy0⟩, fun b hb => ?_⟩
          rcases hw b hb with rfl | rfl
          · exact .inr (.inl (Finset.mem_singleton_self b))
          · exact .inr (.inr ⟨by rw [hindt]; exact hy0, hindt.symm⟩)
        obtain ⟨s', x, w', hrun', hcost⟩ := entryOfL_eval sb (s := t) (i := i) (l := l ++ w) hindt.symm hy0 hdir hk
        refine ⟨s', x, w ++ w', ?_, ?_⟩
        · rw [← append_assoc, ← hrun']
          rfl
        · rw [append_assoc]
          have := hfirst.trans hcost
          refine ⟨this.keeps, ?_⟩
          obtain ⟨C, N, hC, hrest⟩ := this.bound
          refine ⟨C, N, hC.trans ?_, hrest⟩
          split <;> omega
    · rw [if_neg h0]
      exact entryOfL_eval sb rfl h0 hdir hk

theorem Costs.sub (h : Costs i s s' w m) (hsub : w' ⊆ w) (hind : t.indirect i = s'.indirect i) : Costs i s t w' m := by
  obtain ⟨C, N, hC, hN, hNew, hw⟩ := h.bound
  rw [← hind] at hNew hw
  exact ⟨fun h0 => hind.trans (h.keeps h0), C, N, hC, hN, hNew, fun b hb => hw b (hsub hb)⟩

/-- The number of blocks of the file that `len` bytes at `off` touch. -/
def spans (off len : Nat) : Nat := if len = 0 then 0 else (off + len - 1) / BSIZE - off / BSIZE + 1

theorem spans_next (hlt : tot < len) (hm : m = min (len - tot) (BSIZE - off % BSIZE)) :
    spans (off + m) (len - (tot + m)) + 1 ≤ spans off (len - tot) := by
  unfold spans
  simp only [BSIZE] at *
  split <;> split <;> omega

/-- The loop logs at most two blocks, a block of the file and one of the bitmap, for each block that it touches; `e = 1` says that the
first one is not new. -/
theorem writeiLoopL_eval (sb : Places) (src : Nat → Option UInt8) : ∀ (fuel off tot e : Nat) (s : State n) (l : List Nat),
    off + (len - tot) ≤ MAXFILE * BSIZE → (e = 0 ∨ e = 1 ∧ tot < len ∧ s.slot (s.itable i).d (off / BSIZE) ≠ 0) →
    ∃ s' r w m, (writeiLoopL sb i src len fuel off tot).eval ⟨s, l⟩ = .ok (⟨s', l ++ w⟩, r) ∧ Costs i s s' w m ∧
      m + e ≤ 2 * spans off (len - tot) := by
  intro fuel
  induction fuel with
  | zero =>
    intro off tot e s l _ he
    refine ⟨s, (tot, off), [], 0, by rw [append_nil]; rfl, Costs.nil, ?_⟩
    unfold spans
    split <;> omega
  | succ fuel ih =>
    intro off tot e s l hfit he
    unfold writeiLoopL
    by_cases hlt : tot < len
    · have hspans : 1 ≤ spans off (len - tot) := by
        unfold spans
        rw [if_neg (by omega)]
        omega
      obtain ⟨s1, x, w, hrun, hcost⟩ := bmapL_eval sb (i := i) s l (show off / BSIZE < MAXFILE by lia)
      generalize hm1 : (if s.slot (s.itable i).d (off / BSIZE) = 0 then 2 else 1) = m1 at hcost
      have hm₁e : m1 + e ≤ 2 := by
        rcases he with rfl | ⟨rfl, -, hne⟩
        · rw [← hm1]
          split <;> omega
        · rw [if_neg hne] at hm1
          omega
      rw [if_pos hlt, eval_bind hrun]
      by_cases hx0 : x = 0
      · rw [if_pos hx0]
        exact ⟨s1, (tot, off), w, m1, rfl, hcost.sub (List.subset_append_left w _) rfl, by omega⟩
      · rw [if_neg hx0]
        generalize hm : min (len - tot) (BSIZE - off % BSIZE) = m
        set s2 := s1.setBlock x (Bytes.write (s1.block x) (off % BSIZE) (copied src tot m) fun k => (src (tot + k)).getD 0)
        rw [eval_bind (t := ⟨s2, l ++ w⟩) (a := ()) rfl]
        by_cases hcopy : copied src tot m = m
        · rw [if_pos hcopy, eval_bind (t := ⟨s2, l ++ w ++ [x]⟩) (a := ()) rfl]
          obtain ⟨s3, r, w2, m2, hrun2, hcost2, hm2⟩ := ih (off + m) (tot + m) 0 s2 (l ++ w ++ [x]) (by omega) (.inl rfl)
          have hcost1 : Costs i s s2 (w ++ [x]) m1 := hcost.sub (List.Subset.refl _) rfl
          refine ⟨s3, r, w ++ [x] ++ w2, m1 + m2, ?_, hcost1.trans hcost2, ?_⟩
          · rw [hrun2, append_assoc, append_assoc, append_assoc]
          · have := spans_next hlt hm.symm
            omega
        · rw [if_neg hcopy]
          exact ⟨s2, (tot, off), w, m1, rfl, hcost.sub (List.subset_append_left w _) rfl, by omega⟩
    · rw [if_neg hlt]
      refine ⟨s, (tot, off), [], 0, by rw [append_nil]; rfl, Costs.nil, ?_⟩
      omega

/-- All that is logged is counted: the blocks, the indirect block, one more for a new indirect block, and the inode. -/
theorem Costs.card (h : Costs i s s' w m) : (w ++ [b]).toFinset.card ≤ m + 3 := by
  obtain ⟨C, N, hC, hN, -, hw⟩ := h.bound
  have hsub : (w ++ [b]).toFinset ⊆ C ∪ N ∪ {s'.indirect i, b} := by
    intro x hx
    rw [List.mem_toFinset, List.mem_append, List.mem_singleton] at hx
    simp only [Finset.mem_union, Finset.mem_insert, Finset.mem_singleton]
    rcases hx with hx | hx
    · rcases hw x hx with hx | hx | hx
      · exact .inl (.inl hx)
      · exact .inl (.inr hx)
      · exact .inr (.inl hx.2)
    · exact .inr (.inr hx)
  have h1 := Finset.card_union_le (C ∪ N) {s'.indirect i, b}
  have h2 := Finset.card_union_le C N
  have h3 := Finset.card_le_card hsub
  have h4 := card_pair (s'.indirect i) b
  omega

end

theorem spans_chunk (off : Nat) (hlen : len ≤ 3072) : spans off len ≤ 3 ∨ spans off len ≤ 4 ∧ off % BSIZE ≠ 0 ∧ 0 < len := by
  unfold spans
  simp only [BSIZE]
  split <;> omega

/-- The `writei` call of a chunk of `filewrite` logs at most `MAXOPBLOCKS` different blocks, wherever the inodes and the bitmap lie and
however large the disk is. -/
theorem chunk_fits_log (sb : Places) (i : Fin NINODE) (src : Nat → Option UInt8) (off len : Nat) (s : State n)
    (hholes : s.NoHoles (s.itable i).d) (hoff : off ≤ (s.itable i).d.size) (hlen : len ≤ maxWrite) :
    ∃ s' r log, (writeiL sb i src off len).eval ⟨s, []⟩ = .ok (⟨s', log⟩, r) ∧ (writei i src off len).eval s = .ok (s', r) ∧
      log.toFinset.card ≤ MAXOPBLOCKS := by
  have hlen : len ≤ 3072 := hlen
  suffices h : ∃ s' r log, (writeiL sb i src off len).eval ⟨s, []⟩ = .ok (⟨s', log⟩, r) ∧ log.toFinset.card ≤ MAXOPBLOCKS by
    obtain ⟨s', r, log, hrun, hcard⟩ := h
    have herase := writeiL_erases sb i src off len s []
    rcases hplain : (writei i src off len).eval s with e | ⟨t, r'⟩
    · rw [hplain, hrun] at herase
      cases herase
    · rw [hplain, hrun] at herase
      obtain ⟨l', hl'⟩ := herase
      cases hl'
      exact ⟨s', r, log, hrun, rfl, hcard⟩
  unfold writeiL
  rw [eval_bind (t := ⟨s, []⟩) (a := (s.itable i).d) rfl]
  by_cases hover : off > (s.itable i).d.size ∨ (off + len) % 2 ^ 32 < off
  · rw [if_pos hover]
    exact ⟨s, -1, [], rfl, Nat.zero_le _⟩
  · rw [if_neg hover]
    by_cases hbig : (off + len) % 2 ^ 32 > MAXFILE * BSIZE
    · rw [if_pos hbig]
      exact ⟨s, -1, [], rfl, Nat.zero_le _⟩
    · rw [if_neg hbig]
      -- the first block exists if the chunk starts inside it
      obtain ⟨e, he, hcount⟩ : ∃ e, (e = 0 ∨ e = 1 ∧ 0 < len ∧ s.slot (s.itable i).d (off / BSIZE) ≠ 0) ∧
          2 * spans off len ≤ 7 + e := by
        rcases spans_chunk off hlen with h | ⟨h, hmod, hpos⟩
        · exact ⟨0, .inl rfl, by omega⟩
        · refine ⟨1, .inr ⟨rfl, hpos, hholes _ ?_⟩, by omega⟩
          simp only [BSIZE] at hmod ⊢
          omega
      obtain ⟨s1, r, w, m, hrun, hcost, hm⟩ := writeiLoopL_eval sb (i := i) src len off 0 e s []
        (show off + (len - 0) ≤ MAXFILE * BSIZE by lia) he
      rw [eval_bind hrun]
      refine ⟨_, _, [] ++ w ++ [_], rfl, ?_⟩
      rw [List.nil_append]
      refine hcost.card.trans ?_
      rw [Nat.sub_zero] at hm
      change m + 3 ≤ 10
      omega

theorem chunk_fits_log_empty : emptyFile.NoHoles (emptyFile.itable 0).d ∧ ∃ s' r log,
    (writeiL ⟨32, 45⟩ 0 (fun _ => some 1) 0 3072).eval ⟨emptyFile, []⟩ = .ok (⟨s', log⟩, r) ∧
      (writei 0 (fun _ => some 1) 0 3072).eval emptyFile = .ok (s', r) ∧ log.toFinset.card ≤ MAXOPBLOCKS := by
  have hholes : emptyFile.NoHoles (emptyFile.itable 0).d := fun k hk => absurd hk (Nat.not_lt_zero _)
  exact ⟨hholes, chunk_fits_log ⟨32, 45⟩ 0 (fun _ => some 1) 0 3072 emptyFile hholes le_rfl le_rfl⟩

end Xv6.Fs
