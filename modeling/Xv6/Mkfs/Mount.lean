import Xv6.Mkfs.Made

/-!
# The kernel on an image of `mkfs`

`mkfs` and the kernel have their own code for the same format. A state of the kernel is mounted on an image if its dinodes, free map
and blocks are what the kernel decodes from the sectors.
-/

namespace Xv6.Mkfs

open List (flatMap_cons length_cons)
open Function (update_of_ne update_self)
open Bytes (Mem loadLE)
open Hoare
open Xv6.Fs (BSIZE NDIRECT NINDIRECT NINODE MAXFILE BPB DIRSIZ DIRENT ROOTINO wordAt direntBytes slash Dirent Dinode InodeType short bmap
  readi readiLoop readDirent dirlookup dirlookupLoop iget kernelDst)

variable {n i : Nat} {c : Nat → List UInt8} {s s' : Img} {files : List Input} {disk : Nat → Mem} {k : Fs.State n}
  {b j used : Nat}

def sbWord (disk : Nat → Mem) (k : Nat) : Nat := wordAt (disk 1) k

def inodeType : Nat → InodeType
  | 0 => .free
  | 1 => .T_DIR
  | 2 => .T_FILE
  | _ => .T_DEVICE

def decodeDinode (din : Mem) : Dinode where
  type := inodeType (loadLE din 0 2)
  major := short (loadLE din 2 2)
  minor := short (loadLE din 4 2)
  nlink := short (loadLE din 6 2)
  size := loadLE din 8 4
  addrs := fun k => loadLE din (12 + 4 * k) 4

def kernelDinode (disk : Nat → Mem) (inum : Nat) : Dinode :=
  decodeDinode fun k => disk (inum / IPB + sbWord disk 6) (inum % IPB * DINODE + k)

def kernelBit (disk : Nat → Mem) (b : Nat) : Bool :=
  (disk (b / BPB + sbWord disk 7) (b % BPB / 8)).toNat.testBit (b % BPB % 8)

structure Mounted (disk : Nat → Mem) (k : Fs.State n) : Prop where
  size : k.sb.size = sbWord disk 1
  ninodes : k.sb.ninodes = sbWord disk 3
  dinode : ∀ i, i < sbWord disk 3 → k.dinode i = kernelDinode disk i
  bitmap : ∀ b, b < sbWord disk 1 → k.bitmap b = kernelBit disk b
  block : ∀ b, k.block b = disk b

def Referenced (k : Fs.State n) (b : Nat) : Prop :=
  b ≠ 0 ∧ ∃ i, i < k.sb.ninodes ∧ (k.dinode i).type ≠ .free ∧
    ((∃ t, t ≤ NDIRECT ∧ (k.dinode i).addrs t = b) ∨
      (k.dinode i).addrs NDIRECT ≠ 0 ∧ ∃ t, t < NINDIRECT ∧ wordAt (k.block ((k.dinode i).addrs NDIRECT)) t = b)

theorem Made.superblock_eq (hM : Made files s) : s.disk 1 = superblock := by
  rw [hM.low 1 (by decide), update_self]

theorem Made.sbWord_eq (hM : Made files s) (j : Nat) : sbWord s.disk j = wordAt superblock j := by
  unfold sbWord
  rw [hM.superblock_eq]

theorem Made.kernelDinode_eq (hM : Made files s) (i : Nat) : kernelDinode s.disk i = decodeDinode (dinAt s.disk i) := by
  unfold kernelDinode
  rw [hM.sbWord_eq]
  rfl

theorem Made.dinode_eq (hM : Made files s) (hk : Mounted s.disk k) (hi : i < NINODES) :
    k.dinode i = decodeDinode (dinAt s.disk i) := by
  rw [hk.dinode i (by rw [hM.sbWord_eq]; exact hi), hM.kernelDinode_eq]

theorem freeMap_byte : ∀ r, r ≤ 8 → ∀ j, j < 8 →
    (UInt8.ofNat (((List.range 8).filter fun j => j < r).foldl (fun x j => x + 2 ^ j) 0)).toNat.testBit j = decide (j < r) := by
  decide

theorem freeMap_testBit (hj : j < 8) : (freeMap used b).toNat.testBit j = decide (8 * b + j < used) := by
  have hfilter : ((List.range 8).filter fun j => decide (8 * b + j < used)) =
      (List.range 8).filter fun j => decide (j < min 8 (used - 8 * b)) := by
    refine List.filter_congr fun j hj => ?_
    have := List.mem_range.mp hj
    exact decide_eq_decide.mpr (by omega)
  unfold freeMap
  rw [hfilter, freeMap_byte _ (min_le_left ..) j hj]
  exact decide_eq_decide.mpr (by omega)

theorem Made.kernelBit_eq (hM : Made files s) (hb : b < FSSIZE) : kernelBit s.disk b = decide (b < s.freeblock) := by
  have hlt : b < BPB := hb.trans (by decide)
  have hword : wordAt superblock 7 = bmapstart := by decide
  unfold kernelBit
  rw [Nat.div_eq_of_lt hlt, Nat.mod_eq_of_lt hlt, hM.sbWord_eq, hword, Nat.zero_add, hM.bitmap,
    freeMap_testBit (Nat.mod_lt _ (by omega)), Nat.div_add_mod]

theorem Made.lt_freeblock_iff (hM : Made files s) (hfit : files.length + 2 ≤ NINODES) (hk : Mounted s.disk k) :
    b < s.freeblock ↔ b < nmeta ∨ Referenced k b := by
  have hL := hM.layout
  have hfi := hM.freeinode
  have hnin : k.sb.ninodes = NINODES := by
    rw [hk.ninodes, hM.sbWord_eq]
    decide
  constructor
  · intro hb
    by_cases hm : b < nmeta
    · exact .inl hm
    · obtain ⟨i, slot, h1, h2, hs, rfl⟩ := hL.onto b (Nat.not_lt.mp hm) hb
      have hd := hM.dinode_eq hk (i := i) (by omega)
      refine .inr ⟨hL.pos h1 h2 hs, i, by omega, ?_, ?_⟩
      · rw [hd]
        change inodeType (dtype (dinAt s.disk i)) ≠ .free
        rw [hM.type i h1 h2]
        unfold kinds
        split <;> decide
      · rw [hd]
        rcases slot with - | t
        · exact .inl ⟨NDIRECT, le_rfl, rfl⟩
        · by_cases ht : t < NDIRECT
          · refine .inl ⟨t, ht.le, ?_⟩
            rw [slotBlock_direct ht]
            rfl
          · have hmax := hL.max i h1 h2
            change t < blocks _ at hs
            refine .inr ⟨hL.pos (s := none) h1 h2 (lt_of_le_of_lt (Nat.not_lt.mp ht) hs), t - NDIRECT, by lia, ?_⟩
            rw [slotBlock_indirect ht, hk.block]
            rfl
  · rintro (hm | ⟨hb, i, hi, htype, href⟩)
    · exact lt_of_lt_of_le hm hL.le
    · rw [hnin] at hi
      have hd := hM.dinode_eq hk hi
      rw [hd] at htype href
      have hin : 1 ≤ i ∧ i < s.freeinode := by
        by_contra hout
        refine htype ?_
        change inodeType (dtype (dinAt s.disk i)) = .free
        rw [hM.free i (by omega) hi]
        rfl
      obtain ⟨h1, h2⟩ := hin
      -- a slot that does not hold 0 is in use
      have huse : ∀ t, t < MAXFILE → (t < NDIRECT ∨ NDIRECT < blocks (contents files i).length) →
          slotBlock (dinAt s.disk) s.disk i (some t) = b → b < s.freeblock := by
        intro t ht hd heq
        by_cases hn : t < blocks (contents files i).length
        · rw [← heq]
          exact (hL.range i (some t) h1 h2 hn).2
        · exact absurd (heq.symm.trans (hL.unused i t h1 h2 (Nat.not_lt.mp hn) ht hd)) hb
      have hind : daddr (dinAt s.disk i) NDIRECT ≠ 0 → NDIRECT < blocks (contents files i).length := by
        intro hne
        by_contra hn
        exact hne (hL.noInd i h1 h2 (Nat.not_lt.mp hn))
      rcases href with ⟨t, ht, heq⟩ | ⟨hne, t, ht, heq⟩
      · change daddr (dinAt s.disk i) t = b at heq
        rcases Nat.lt_or_eq_of_le ht with ht | rfl
        · exact huse t (ht.trans (by decide)) (.inl ht) ((slotBlock_direct ht).trans heq)
        · rw [← heq]
          exact (hL.range i none h1 h2 (hind (by rw [heq]; exact hb))).2
      · change wordAt (k.block (daddr (dinAt s.disk i) NDIRECT)) t = b at heq
        rw [hk.block] at heq
        refine huse (NDIRECT + t) (Nat.add_lt_add_left ht _) (.inr (hind hne)) ?_
        rw [slotBlock_indirect (by omega), Nat.add_sub_cancel_left]
        exact heq

variable {ip : Fin NINODE} {l name bytes : List UInt8} {dst : Nat → Nat → Bool} {off len fuel t w inum bn m tot : Nat}
  {α : Type} {g : α → List UInt8}

def HasBytes (k : Fs.State n) (ip : Fin NINODE) (l : List UInt8) : Prop :=
  ∀ bn, bn * BSIZE < l.length → ∃ a, a ≠ 0 ∧ (bmap ip bn).eval k = .ok (k, a) ∧
    ∀ j, j < BSIZE → k.block a j = l.getD (bn * BSIZE + j) 0

theorem bmap_eval (hbn : bn < MAXFILE) (hd : (k.itable ip).d = decodeDinode (dinAt disk i)) (hblock : ∀ b, k.block b = disk b)
    (hne : fileBlock disk i bn ≠ 0) : (bmap ip bn).eval k = .ok (k, fileBlock disk i bn) := by
  have haddr : ∀ t, (k.itable ip).d.addrs t = daddr (dinAt disk i) t := fun t => by rw [hd]; rfl
  unfold fileBlock at hne ⊢
  unfold bmap
  by_cases hdir : bn < NDIRECT
  · rw [if_pos hdir] at hne ⊢
    rw [if_pos hdir, Prog.eval_bind (t := k) (a := (k.itable ip).d) rfl, haddr, if_neg hne, Prog.eval_pure]
  · rw [if_neg hdir] at hne ⊢
    have hind : daddr (dinAt disk i) NDIRECT ≠ 0 := fun h => hne (if_pos h)
    rw [if_neg hind] at hne ⊢
    rw [if_neg hdir, if_pos (by lia), Prog.eval_bind (t := k) (a := (k.itable ip).d) rfl, haddr, if_neg hind,
      Prog.eval_bind (t := k) (a := daddr (dinAt disk i) NDIRECT) rfl]
    beta_reduce
    rw [if_neg hind, Prog.eval_bind (t := k) (a := wordAt (k.block (daddr (dinAt disk i) NDIRECT)) (bn - NDIRECT)) rfl, hblock,
      if_neg hne, Prog.eval_pure]

theorem chunk_eq {b : Mem} (hm : off % BSIZE + m ≤ BSIZE) (hl : off + m ≤ l.length)
    (hb : ∀ j, j < BSIZE → b j = l.getD (off / BSIZE * BSIZE + j) 0) :
    ((List.range m).map fun j => b (off % BSIZE + j)) = (l.drop off).take m := by
  refine List.ext_getElem (by simp; omega) fun j h1 h2 => ?_
  have hj : j < m := by simpa using h1
  rw [List.getElem_map, List.getElem_range, hb _ (by omega), List.getElem_take, List.getElem_drop, List.getD_eq_getElem?_getD,
    show off / BSIZE * BSIZE + (off % BSIZE + j) = off + j by lia, List.getElem?_eq_getElem (by omega), Option.getD_some]

theorem readiLoop_eval (hdst : ∀ t m, dst t m = true) (hb : HasBytes k ip l)
    (htot : tot ≤ len) (hlen : off + (len - tot) ≤ l.length) (hfuel : len - tot ≤ fuel) :
    (readiLoop ip dst len fuel off tot bytes).eval k = .ok (k, ((len : Int), bytes ++ (l.drop off).take (len - tot))) := by
  induction fuel generalizing off tot bytes with
  | zero =>
    obtain rfl : tot = len := by omega
    unfold readiLoop
    rw [Prog.eval_pure, Nat.sub_self, List.take_zero, List.append_nil]
  | succ fuel ih =>
    unfold readiLoop
    by_cases hlt : tot < len
    · obtain ⟨a, ha, hmap, hdata⟩ := hb (off / BSIZE) (by lia)
      rw [if_pos hlt, Prog.eval_bind hmap, if_neg ha]
      generalize hm : min (len - tot) (BSIZE - off % BSIZE) = m
      have hmod : off % BSIZE < BSIZE := Nat.mod_lt _ (by decide)
      have hm' : 0 < m ∧ m ≤ len - tot ∧ off % BSIZE + m ≤ BSIZE := by omega
      rw [Prog.eval_bind (t := k) (a := (List.range m).map fun j => k.block a (off % BSIZE + j)) rfl, if_pos (hdst tot m),
        chunk_eq hm'.2.2 (by omega) hdata, ih (by omega) (by omega) (by omega), List.append_assoc]
      congr 4
      rw [← List.drop_drop, ← List.take_add]
      congr 1
      omega
    · obtain rfl : tot = len := by omega
      rw [if_neg hlt, Prog.eval_pure, Nat.sub_self, List.take_zero, List.append_nil]

theorem readi_eval_inside (hdst : ∀ t m, dst t m = true) (hb : HasBytes k ip l) (hsize : off + len ≤ (k.itable ip).d.size)
    (hlen : off + len ≤ l.length) (hlt : off + len < 2 ^ 32) :
    (readi ip dst off len).eval k = .ok (k, ((len : Int), (l.drop off).take len)) := by
  unfold readi
  rw [Prog.eval_bind (t := k) (a := (k.itable ip).d) rfl, if_neg (by rw [Nat.mod_eq_of_lt hlt]; omega)]
  simp only [if_neg (Nat.not_lt.mpr hsize)]
  exact readiLoop_eval hdst hb (Nat.zero_le _) hlen le_rfl

theorem readi_eval (hdst : ∀ t m, dst t m = true) (hb : HasBytes k ip l) (hsize : (k.itable ip).d.size = l.length)
    (hlt : off + len < 2 ^ 32) :
    (readi ip dst off len).eval k = .ok (k, ((((l.drop off).take len).length : Int), (l.drop off).take len)) := by
  by_cases hin : off + len ≤ l.length
  · rw [readi_eval_inside hdst hb (by omega) hin hlt, List.length_take, List.length_drop, Nat.min_eq_left (by omega)]
  · unfold readi
    rw [Prog.eval_bind (t := k) (a := (k.itable ip).d) rfl, Nat.mod_eq_of_lt hlt, hsize]
    by_cases hoff : off > l.length
    · rw [if_pos (.inl hoff), Prog.eval_pure, List.drop_eq_nil_of_le (by omega), List.take_nil]
      rfl
    · rw [if_neg (by omega)]
      simp only [if_pos (Nat.not_le.mp hin)]
      rw [readiLoop_eval hdst hb (Nat.zero_le (l.length - off)) (by omega) (by omega), List.length_take, List.length_drop, Nat.sub_zero,
        Nat.min_eq_right (by omega), List.nil_append, List.take_of_length_le (by simp), List.take_of_length_le (by simp; omega)]

theorem Made.hasBytes (hM : Made files s) (hk : Mounted s.disk k) (h1 : 1 ≤ i) (h2 : i < s.freeinode) (hi : i < NINODES)
    (hd : (k.itable ip).d = k.dinode i) : HasBytes k ip (contents files i) := by
  intro bn hbn
  have hn : bn < blocks (contents files i).length := lt_blocks.mpr hbn
  have hblk := hM.layout.fileBlock_eq h1 h2 hn
  have hne : fileBlock s.disk i bn ≠ 0 := by
    rw [hblk]
    exact hM.layout.pos (s := some bn) h1 h2 hn
  refine ⟨_, hne, bmap_eval (lt_of_lt_of_le hn (hM.layout.max i h1 h2)) (hd.trans (hM.dinode_eq hk hi)) hk.block hne, fun j hj => ?_⟩
  rw [hk.block, hblk]
  exact hM.layout.content i bn h1 h2 hn j hj

def entriesFrom (j : Nat) : List Input → List (Nat × List UInt8)
  | [] => []
  | f :: fs => (j, f.name) :: entriesFrom (j + 1) fs

def entries (files : List Input) : List (Nat × List UInt8) :=
  (ROOTINO, [46]) :: (ROOTINO, [46, 46]) :: entriesFrom (ROOTINO + 1) files

theorem entriesFrom_length (j : Nat) : (entriesFrom j files).length = files.length := by
  induction files generalizing j with
  | nil => rfl
  | cons f fs ih => rw [entriesFrom, length_cons, ih, length_cons]

theorem entriesFrom_get (ht : t < files.length) : (entriesFrom j files)[t]? = some (j + t, files[t].name) := by
  induction files generalizing j t with
  | nil => exact absurd ht (Nat.not_lt_zero _)
  | cons f fs ih =>
    cases t with
    | zero => rfl
    | succ t =>
      rw [entriesFrom, List.getElem?_cons_succ, ih (Nat.lt_of_succ_lt_succ ht), List.getElem_cons_succ]
      congr 2
      omega

theorem withFiles_root (j : Nat) (hj : ROOTINO < j) :
    withFiles c j files ROOTINO = c ROOTINO ++ (entriesFrom j files).flatMap fun e => dirent e.1 e.2 := by
  induction files generalizing c j with
  | nil => rw [entriesFrom, List.flatMap_nil, List.append_nil]; rfl
  | cons f fs ih =>
    rw [withFiles, ih (j + 1) (by omega), entriesFrom, flatMap_cons]
    unfold withFile
    rw [update_of_ne (by omega), update_self, List.append_assoc]

theorem withFiles_old (ht : t < j) (hroot : t ≠ ROOTINO) : withFiles c j files t = c t := by
  induction files generalizing c j with
  | nil => rfl
  | cons f fs ih =>
    rw [withFiles, ih (by omega)]
    unfold withFile
    rw [update_of_ne (by omega), update_of_ne hroot]

theorem withFiles_file (hj : ROOTINO < j) (ht : t < files.length) :
    withFiles c j files (j + t) = files[t].bytes := by
  induction files generalizing c j t with
  | nil => exact absurd ht (Nat.not_lt_zero _)
  | cons f fs ih =>
    rw [withFiles]
    cases t with
    | zero =>
      rw [withFiles_old (by omega) (by omega)]
      unfold withFile
      rw [Nat.add_zero, update_self, List.getElem_cons_zero]
    | succ t =>
      rw [show j + (t + 1) = j + 1 + t by omega, ih (by omega) (Nat.lt_of_succ_lt_succ ht), List.getElem_cons_succ]

theorem contents_root : contents files ROOTINO = (entries files).flatMap fun e => dirent e.1 e.2 := by
  unfold contents entries
  rw [withFiles_root _ (Nat.lt_succ_self _), update_self, flatMap_cons, flatMap_cons, List.append_assoc]

theorem contents_file (ht : t < files.length) : contents files (t + 2) = files[t].bytes := by
  unfold contents
  rw [show t + 2 = ROOTINO + 1 + t by change t + 2 = 2 + t; omega]
  exact withFiles_file (Nat.lt_succ_self _) ht

theorem flatMap_block {es : List α} {e : α} (hg : ∀ e, (g e).length = w)
    (ht : es[t]? = some e) : ((es.flatMap g).drop (w * t)).take w = g e := by
  induction es generalizing t with
  | nil => cases ht
  | cons e' es ih =>
    rw [flatMap_cons]
    cases t with
    | zero =>
      cases ht
      rw [Nat.mul_zero, List.drop_zero, List.take_append_of_le_length (hg _).ge, List.take_of_length_le (hg _).le]
    | succ t =>
      rw [Nat.mul_succ, Nat.add_comm, ← List.drop_drop, ← hg e', List.drop_left, hg e']
      exact ih ht

theorem flatMap_length (es : List α) (hg : ∀ e, (g e).length = w) :
    (es.flatMap g).length = w * es.length := by
  induction es with
  | nil => rfl
  | cons e es ih => rw [flatMap_cons, List.length_append, hg, ih, length_cons, Nat.mul_succ, Nat.add_comm]

theorem ofBytes_dirent (hi : inum < 65536) (hlen : name.length ≤ DIRSIZ) (hz : 0 ∉ name) :
    (Dirent.ofBytes fun k => (dirent inum name).getD k 0) = ⟨inum, name⟩ := by
  have hget : ∀ j, j < DIRENT → (dirent inum name).getD j 0 = direntBytes name inum j := by
    intro j hj
    unfold dirent
    rw [List.getD_eq_getElem?_getD, List.getElem?_map, List.getElem?_range hj]
    rfl
  have hpad : ((List.range DIRSIZ).map fun j => (dirent inum name).getD (2 + j) 0) =
      name ++ List.replicate (DIRSIZ - name.length) 0 := by
    refine List.ext_getElem (by simp; omega) fun j h1 h2 => ?_
    have hj : j < DIRSIZ := by simpa using h1
    have hbyte : direntBytes name inum (2 + j) = name.getD j 0 := by
      unfold direntBytes
      rw [if_neg (by omega), if_neg (by omega), List.take_of_length_le hlen, Nat.add_sub_cancel_left]
    rw [List.getElem_map, List.getElem_range, hget _ (by change 2 + j < 16; change j < 14 at hj; omega), hbyte, List.getD_eq_getElem?_getD]
    by_cases hin : j < name.length
    · rw [List.getElem_append_left hin, List.getElem?_eq_getElem hin, Option.getD_some]
    · rw [List.getElem_append_right (by omega), List.getElem_replicate, List.getElem?_eq_none (by omega), Option.getD_none]
  unfold Dirent.ofBytes
  rw [hpad]
  congr 1
  · beta_reduce
    rw [hget 0 (by decide), hget 1 (by decide)]
    change (UInt8.ofNat inum).toNat + 256 * (UInt8.ofNat (inum / 256)).toNat = inum
    rw [UInt8.toNat_ofNat', UInt8.toNat_ofNat']
    omega
  · rw [List.takeWhile_append_of_pos fun x hx => by
      have : x ≠ 0 := fun h => hz (h ▸ hx)
      simpa using this, List.takeWhile_replicate]
    simp

variable {dp : Fin NINODE} {p : Fin n} {es : List (Nat × List UInt8)} {e : Nat × List UInt8}

theorem readDirent_eval {msg : String} (hb : HasBytes k dp (es.flatMap fun e => dirent e.1 e.2))
    (hsize : DIRENT * es.length ≤ (k.itable dp).d.size) (hlt : DIRENT * es.length < 2 ^ 32) (ht : es[t]? = some e) (hi : e.1 < 65536)
    (hlen : e.2.length ≤ DIRSIZ) (hz : 0 ∉ e.2) : (readDirent dp (DIRENT * t) msg).eval k = .ok (k, ⟨e.1, e.2⟩) := by
  have htl : t < es.length := (List.getElem?_eq_some_iff.mp ht).1
  have hle : DIRENT * t + DIRENT ≤ DIRENT * es.length := Nat.mul_le_mul_left DIRENT htl
  have hfl := flatMap_length es fun e => dirent_length e.1 e.2
  have hdst : ∀ t m, kernelDst t m = true := fun _ _ => rfl
  have hread := readi_eval_inside hdst hb (hle.trans hsize) (hle.trans hfl.ge) (lt_of_le_of_lt hle hlt)
  rw [flatMap_block (fun e => dirent_length e.1 e.2) ht] at hread
  unfold readDirent
  rw [Prog.eval_bind hread]
  change (if ((DIRENT : Nat) : Int) = DIRENT then _ else _ : Fs.FsM n Dirent).eval k = _
  rw [if_pos rfl, Prog.eval_pure, ofBytes_dirent hi hlen hz]

theorem iget_eval (hroom : k.cached inum ≠ none ∨ k.empty ≠ none) :
    ∃ k' ip, (iget p inum).eval k = .ok (k', ip) ∧ (k'.itable ip).inum = inum ∧ k'.sb = k.sb ∧ k'.dinode = k.dinode ∧
      k'.bitmap = k.bitmap ∧ k'.block = k.block := by
  rcases hc : k.cached inum with - | ip
  · rcases he : k.empty with - | ip
    · rw [hc, he] at hroom
      exact absurd rfl (hroom.elim id id)
    · refine ⟨(k.setInode ip { k.itable ip with inum := inum, ref := 1, valid := false }).noteInode p ip 1, ip, ?_, ?_, rfl, rfl, rfl, rfl⟩
      · unfold iget Prog.atomic Prog.eval
        beta_reduce
        rw [hc, he]
        rfl
      · change (Function.update k.itable ip _ ip).inum = inum
        rw [update_self]
  · have hinum : (k.itable ip).inum = inum := by
      have := List.find?_some hc
      exact (of_decide_eq_true this).2
    refine ⟨(k.setInode ip { k.itable ip with ref := (k.itable ip).ref + 1 }).noteInode p ip 1, ip, ?_, ?_, rfl, rfl, rfl, rfl⟩
    · unfold iget Prog.atomic Prog.eval
      beta_reduce
      rw [hc]
      rfl
    · change (Function.update k.itable ip _ ip).inum = inum
      rw [update_self]
      exact hinum

theorem dirlookupLoop_eval {size T : Nat} (hb : HasBytes k dp (es.flatMap fun e => dirent e.1 e.2))
    (hsz : (k.itable dp).d.size = size) (hsize : DIRENT * es.length ≤ size) (hlt : DIRENT * es.length < 2 ^ 32)
    (hes : ∀ e ∈ es, e.1 < 65536 ∧ e.2.length ≤ DIRSIZ ∧ 0 ∉ e.2) (hT : es[T]? = some (inum, name)) (hi : inum ≠ 0)
    (hother : ∀ t e, es[t]? = some e → t ≠ T → e.2 ≠ name) (ht : t ≤ T) (hfuel : T - t < fuel) :
    (dirlookupLoop p dp name size fuel (DIRENT * t)).eval k =
      (iget p inum >>= fun ip => pure (some (ip, DIRENT * T)) : Fs.FsM n _).eval k := by
  have hTl : T < es.length := (List.getElem?_eq_some_iff.mp hT).1
  induction fuel generalizing t with
  | zero => omega
  | succ fuel ih =>
    obtain ⟨e, he⟩ : ∃ e, es[t]? = some e := ⟨es[t], List.getElem?_eq_getElem (by omega)⟩
    have hmem := hes e (List.mem_of_getElem? he)
    have hoff : DIRENT * t < size := lt_of_lt_of_le (Nat.mul_lt_mul_of_pos_left (by omega) (by decide)) hsize
    unfold dirlookupLoop
    rw [if_pos hoff, Prog.eval_bind (readDirent_eval hb (by omega) hlt he hmem.1 hmem.2.1 hmem.2.2)]
    by_cases htT : t = T
    · subst htT
      rw [hT] at he
      cases he
      rw [if_pos ⟨hi, rfl⟩]
    · rw [if_neg fun h => hother t e he htT h.2.symm, ← Nat.mul_succ]
      exact ih (by omega) (by omega)

theorem entries_get (ht : t < files.length) : (entries files)[t + 2]? = some (t + 2, files[t].name) := by
  unfold entries
  rw [List.getElem?_cons_succ, List.getElem?_cons_succ, entriesFrom_get ht]
  congr 2
  change 2 + t = t + 2
  omega

theorem entries_length : (entries files).length = files.length + 2 := by
  unfold entries
  rw [length_cons, length_cons, entriesFrom_length]

theorem entries_cases (he : (entries files)[t]? = some e) :
    e = (ROOTINO, [46]) ∨ e = (ROOTINO, [46, 46]) ∨ ∃ j, ∃ hj : j < files.length, t = j + 2 ∧ e = (j + 2, files[j].name) := by
  rcases t with - | - | t
  · exact .inl (Option.some.inj he).symm
  · exact .inr (.inl (Option.some.inj he).symm)
  · have ht : t < files.length := by
      have := (List.getElem?_eq_some_iff.mp he).1
      rw [entries_length] at this
      omega
    rw [entries_get ht] at he
    exact .inr (.inr ⟨t, ht, rfl, (Option.some.inj he).symm⟩)

/-- Names that `mkfs` can store and the kernel can find. -/
structure GoodNames (files : List Input) : Prop where
  length : ∀ f ∈ files, 1 ≤ f.name.length ∧ f.name.length ≤ DIRSIZ
  -- a name is a C string
  string : ∀ f ∈ files, 0 ∉ f.name
  noSlash : ∀ f ∈ files, slash ∉ f.name
  notDot : ∀ f ∈ files, f.name ≠ [46] ∧ f.name ≠ [46, 46]
  distinct : (files.map Input.name).Nodup

theorem Made.dirlookup_eval (hM : Made files s) (hfit : files.length + 2 ≤ NINODES) (hnames : GoodNames files) (hk : Mounted s.disk k)
    (hd : (k.itable dp).d = k.dinode ROOTINO) (hj : j < files.length) (hroom : k.cached (j + 2) ≠ none ∨ k.empty ≠ none) :
    ∃ k' ip, (dirlookup p dp files[j].name).eval k = .ok (k', some (ip, DIRENT * (j + 2))) ∧ (k'.itable ip).inum = j + 2 ∧
      Mounted s.disk k' := by
  have hroot : ROOTINO < s.freeinode := by
    rw [hM.freeinode]
    change 1 < _
    omega
  have hdin : (k.itable dp).d = decodeDinode (dinAt s.disk ROOTINO) := hd.trans (hM.dinode_eq hk (by decide))
  have htype : (k.itable dp).d.type = .T_DIR := by
    rw [hdin]
    change inodeType (dtype (dinAt s.disk ROOTINO)) = .T_DIR
    rw [hM.type ROOTINO le_rfl hroot]
    rfl
  have hlen : (contents files ROOTINO).length = DIRENT * (entries files).length := by
    rw [contents_root_length, entries_length]
  have hsize : DIRENT * (entries files).length ≤ (k.itable dp).d.size := by
    rw [hdin]
    change _ ≤ dsize (dinAt s.disk ROOTINO)
    rw [hM.root, hlen]
    lia
  have hb : HasBytes k dp ((entries files).flatMap fun e => dirent e.1 e.2) := by
    rw [← contents_root]
    exact hM.hasBytes hk le_rfl hroot (by decide) hd
  have hes : ∀ e ∈ entries files, e.1 < 65536 ∧ e.2.length ≤ DIRSIZ ∧ 0 ∉ e.2 := by
    intro e he
    obtain ⟨t, ht⟩ := List.mem_iff_getElem?.mp he
    rcases entries_cases ht with rfl | rfl | ⟨j, hj, -, rfl⟩
    · exact ⟨by decide, by decide, by decide⟩
    · exact ⟨by decide, by decide, by decide⟩
    · have hmem := List.getElem_mem hj
      exact ⟨by change j + 2 < 65536; change _ ≤ 200 at hfit; omega, (hnames.length _ hmem).2, hnames.string _ hmem⟩
  have hother : ∀ t e, (entries files)[t]? = some e → t ≠ j + 2 → e.2 ≠ files[j].name := by
    intro t e he hne heq
    have hmem := List.getElem_mem hj
    rcases entries_cases he with rfl | rfl | ⟨j', hj', rfl, rfl⟩
    · exact (hnames.notDot _ hmem).1 heq.symm
    · exact (hnames.notDot _ hmem).2 heq.symm
    · have hinj : j' = j :=
        (List.getElem?_inj (by rw [List.length_map]; exact hj') hnames.distinct).mp (by simpa [hj, hj'] using heq)
      exact hne (by rw [hinj])
  have hl : (entries files).length = files.length + 2 := entries_length
  have hloop := dirlookupLoop_eval (p := p) hb rfl hsize (by rw [hl]; lia) hes (entries_get hj) (by omega) hother (Nat.zero_le _)
    (show j + 2 - 0 < (k.itable dp).d.size / DIRENT + 1 by lia)
  obtain ⟨k', ip, hget, hinum, hsb, hdinode, hbitmap, hblock⟩ := iget_eval (p := p) hroom
  refine ⟨k', ip, ?_, hinum, ?_⟩
  · unfold dirlookup
    rw [Prog.eval_bind (t := k) (a := (k.itable dp).d) rfl, if_neg (not_not.mpr htype)]
    exact hloop.trans (Prog.eval_bind hget)
  · exact ⟨by rw [hsb]; exact hk.size, by rw [hsb]; exact hk.ninodes, by rw [hdinode]; exact hk.dinode,
      by rw [hbitmap]; exact hk.bitmap, by rw [hblock]; exact hk.block⟩

/-- `mkfs` and the kernel agree on the format: the superblock is valid and the log empty, the kernel finds every file in the root by its
name, reads its size and bytes, and sees in the free map the metadata and the blocks that inodes refer to. -/
theorem kernel_agrees (hfit : files.length + 2 ≤ NINODES) (hnames : GoodNames files) (hok : (main files).run start = .ok ((), s)) :
    sbWord s.disk 0 = FSMAGIC ∧ wordAt (s.disk (sbWord s.disk 5)) 0 = 0 ∧
    ∀ (n : Nat) (k : Fs.State n) (p : Fin n), Mounted s.disk k →
      (∀ dp, (k.itable dp).d = k.dinode ROOTINO → ∀ j, (hj : j < files.length) → k.cached (j + 2) ≠ none ∨ k.empty ≠ none →
        ∃ k' ip, (dirlookup p dp files[j].name).eval k = .ok (k', some (ip, DIRENT * (j + 2))) ∧ (k'.itable ip).inum = j + 2 ∧
          Mounted s.disk k') ∧
      (∀ ip j, (hj : j < files.length) → (k.itable ip).d = k.dinode (j + 2) → (k.itable ip).d.size = files[j].bytes.length ∧
        ∀ dst : Nat → Nat → Bool, (∀ t m, dst t m = true) → ∀ off len, off + len < 2 ^ 32 →
          (readi ip dst off len).eval k =
            .ok (k, ((((files[j].bytes.drop off).take len).length : Int), (files[j].bytes.drop off).take len))) ∧
      ∀ b, b < k.sb.size → (k.bitmap b = true ↔ b < nmeta ∨ Referenced k b) := by
  have hM := wp_ok (main_spec hfit) hok
  have hfi := hM.freeinode
  refine ⟨?_, ?_, fun n k p hk => ⟨fun dp hd j hj hroom => hM.dirlookup_eval hfit hnames hk hd hj hroom, fun ip j hj hd => ?_,
    fun b hb => ?_⟩⟩
  · rw [hM.sbWord_eq]
    decide
  · have hlog : sbWord s.disk 5 = 2 := by
      rw [hM.sbWord_eq]
      decide
    rw [hlog, hM.low 2 (by decide), update_of_ne (by decide)]
    exact wordAt_zero (fun _ => rfl) 0
  · have hsize : (k.itable ip).d.size = files[j].bytes.length := by
      rw [hd, hM.dinode_eq hk (by omega)]
      change dsize (dinAt s.disk (j + 2)) = _
      rw [hM.size (j + 2) (by change 1 < _; omega) (by omega), contents_file hj]
    have hb := hM.hasBytes hk (by omega) (by omega) (by omega) hd
    rw [contents_file hj] at hb
    exact ⟨hsize, fun dst hdst off len hlt => readi_eval hdst hb hsize hlt⟩
  · have hsz : b < FSSIZE := by
      rw [hk.size, hM.sbWord_eq] at hb
      exact hb
    rw [hk.bitmap b (by rw [← hk.size]; exact hb), hM.kernelBit_eq hsz, decide_eq_true_iff]
    exact hM.lt_freeblock_iff hfit hk

local instance someInode : NeZero Fs.NINODE := ⟨by decide⟩

local instance oneMounter : NeZero 1 := ⟨Nat.one_ne_zero⟩

def mountImage (disk : Nat → Mem) : Fs.State 1 where
  sb := ⟨sbWord disk 1, sbWord disk 3, nmeta⟩
  itable := fun i =>
    if i = 0 then ⟨ROOTINO, 1, none, true, kernelDinode disk ROOTINO, false⟩
    else if i = 1 then ⟨2, 1, none, true, kernelDinode disk 2, false⟩
    else {}
  dinode := kernelDinode disk
  bitmap := kernelBit disk
  block := disk
  ftable := fun _ => {}
  proc := fun _ => {}
  initproc := 0
  pipe := fun _ => none
  outstanding := 0
  irefs := fun _ _ => 0
  frefs := fun _ _ => 0
  ends := fun _ _ => 0

def smallFile : Input := ⟨[95, 97], [[1, 2], [3]]⟩

theorem kernel_agrees_small : ∃ s, (main [smallFile]).run start = .ok ((), s) ∧
    (∃ k' ip, (dirlookup 0 0 [97]).eval (mountImage s.disk) = .ok (k', some (ip, 32)) ∧ (k'.itable ip).inum = 2) ∧
    (readi 1 kernelDst 0 10).eval (mountImage s.disk) = .ok (mountImage s.disk, (3, [1, 2, 3])) ∧
    ((mountImage s.disk).bitmap 46 = true ↔ 46 < nmeta ∨ Referenced (mountImage s.disk) 46) := by
  have hok : ((main [smallFile]).run start).isOk = true := by decide +kernel
  rcases h : (main [smallFile]).run start with e | ⟨⟨⟩, s⟩
  · rw [h] at hok
    cases hok
  · have hname : smallFile.name = [97] := by decide +kernel
    have hnames : GoodNames [smallFile] := by
      refine ⟨?_, ?_, ?_, ?_, by decide⟩ <;>
      · intro f hf
        obtain rfl := List.mem_singleton.mp hf
        rw [hname]
        decide
    have hM := wp_ok (main_spec (by decide)) h
    have hk : Mounted s.disk (mountImage s.disk) := ⟨rfl, rfl, fun _ _ => rfl, fun _ _ => rfl, fun _ => rfl⟩
    obtain ⟨-, -, hall⟩ := kernel_agrees (by decide) hnames h
    obtain ⟨hlook, hread, hbits⟩ := hall 1 _ 0 hk
    obtain ⟨k', ip, hl, hinum, -⟩ := hlook 0 rfl 0 (by decide) (.inl (by change some (1 : Fin NINODE) ≠ none; nofun))
    rw [List.getElem_cons_zero, hname] at hl
    refine ⟨s, rfl, ⟨k', ip, hl, hinum⟩, (hread 1 0 (by decide) rfl).2 kernelDst (fun _ _ => rfl) 0 10 (by decide), hbits 46 ?_⟩
    change 46 < sbWord s.disk 1
    rw [hM.sbWord_eq]
    decide

end Xv6.Mkfs
