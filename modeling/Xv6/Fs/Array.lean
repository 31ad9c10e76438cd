import Xv6.Fs.Dir
import Xv6.Fs.Shared

/-!
# Files as byte arrays

`readi` shows the contents of a file without holes, and `writei` splices bytes into them. A write whose source cannot be read to the end reports the whole blocks that it has written, but has also stored
a part of the next block.
-/

namespace Xv6.Fs

open List (foldr_cons length_range)
open Run Prog

variable {n : Nat} {s s' t : State n} {i j : Fin NINODE} {d e : Dinode} {k x size : Nat} {file bytes : List UInt8}

theorem bmap_hit (hk : k < MAXFILE) (h : s.slot (s.itable i).d k ≠ 0) : (bmap i k).eval s = .ok (s, s.slot (s.itable i).d k) := by
  unfold bmap
  by_cases hdir : k < NDIRECT
  · rw [slot_direct hdir] at h ⊢
    rw [if_pos hdir, eval_bind (t := s) (a := (s.itable i).d) rfl, if_neg h, eval_pure]
  · have hind : (s.itable i).d.addrs NDIRECT ≠ 0 := fun h0 => h (slot_no_indirect hdir h0)
    rw [slot_entry hdir hk hind] at h ⊢
    rw [if_neg hdir, if_pos (by lia), eval_bind (t := s) (a := (s.itable i).d) rfl, if_neg hind]
    change (entryOf _ k).eval s = _
    rw [entryOf, if_neg hind,
      eval_bind (t := s) (a := wordAt (s.block ((s.itable i).d.addrs NDIRECT)) (k - NDIRECT)) rfl, if_neg h, eval_pure]

theorem byte_eq {a : Nat} (h : s.slot d (a / BSIZE) ≠ 0) : s.byte d a = s.block (s.slot d (a / BSIZE)) (a % BSIZE) := if_neg h

theorem readiLoop_eval {len : Nat} (hsize : size ≤ MAXFILE * BSIZE)
    (hfull : ∀ k, k * BSIZE < size → s.slot (s.itable i).d k ≠ 0) :
    ∀ (fuel off tot : Nat) (bytes : List UInt8), len - tot ≤ fuel → tot ≤ len → off + (len - tot) ≤ size →
      (readiLoop i kernelDst len fuel off tot bytes).eval s =
        .ok (s, ((len : Int), bytes ++ (List.range (len - tot)).map fun k => s.byte (s.itable i).d (off + k))) := by
  intro fuel
  induction fuel with
  | zero =>
    intro off tot bytes hfuel htot _
    obtain rfl : tot = len := by omega
    rw [Nat.sub_self, List.range_zero, List.map_nil, List.append_nil]
    rfl
  | succ fuel ih =>
    intro off tot bytes hfuel htot hfit
    unfold readiLoop
    by_cases hlt : tot < len
    · have hslot : s.slot (s.itable i).d (off / BSIZE) ≠ 0 := hfull _ (by simp only [BSIZE]; omega)
      rw [if_pos hlt, eval_bind (bmap_hit (by lia) hslot), if_neg hslot]
      generalize hm : min (len - tot) (BSIZE - off % BSIZE) = m
      have hmod : off % BSIZE < BSIZE := Nat.mod_lt _ (by decide)
      rw [eval_bind (t := s) (a := (List.range m).map fun k => s.block (s.slot (s.itable i).d (off / BSIZE)) (off % BSIZE + k)) rfl,
        kernelDst, if_pos rfl, ih (off + m) (tot + m) _ (by omega) (by omega) (by omega), List.append_assoc]
      have hchunk : (List.range m).map (fun k => s.block (s.slot (s.itable i).d (off / BSIZE)) (off % BSIZE + k)) =
          (List.range m).map fun k => s.byte (s.itable i).d (off + k) := by
        refine List.map_congr_left fun k hk => ?_
        have hk := List.mem_range.1 hk
        have hdiv : (off + k) / BSIZE = off / BSIZE := by
          simp only [BSIZE] at *
          omega
        have hmod' : (off + k) % BSIZE = off % BSIZE + k := by
          simp only [BSIZE] at *
          omega
        rw [byte_eq (by rw [hdiv]; exact hslot), hdiv, hmod']
      rw [hchunk, show len - tot = m + (len - (tot + m)) by omega, List.range_add, List.map_append, List.map_map]
      congr 5
      refine List.map_congr_left fun k _ => ?_
      rw [Function.comp_apply, Nat.add_assoc]
    · obtain rfl : tot = len := by omega
      rw [if_neg hlt, Nat.sub_self, List.range_zero, List.map_nil, List.append_nil]
      rfl

/-- What `readi` of `len` bytes at `off` shows of a file with the given contents. -/
def readSpec (file : List UInt8) (off len : Nat) : Int × List UInt8 :=
  if off > file.length ∨ (off + len) % 2 ^ 32 < off then (0, [])
  else ((min len (file.length - off) : Nat), (file.drop off).take len)

theorem contents_length : (s.contents d).length = d.size := by rw [State.contents, List.length_map, length_range]

theorem contents_part {off m : Nat} (h : off + m ≤ d.size) :
    (List.range m).map (fun k => s.byte d (off + k)) = ((s.contents d).drop off).take m := by
  refine List.ext_getElem? fun k => ?_
  rw [List.getElem?_take, List.getElem?_drop, State.contents, List.getElem?_map, List.getElem?_map]
  by_cases hk : k < m
  · rw [if_pos hk, List.getElem?_range hk, List.getElem?_range (by omega)]
    rfl
  · rw [if_neg hk, List.getElem?_eq_none (by rw [length_range]; omega)]
    rfl

theorem readi_eval (hsize : (s.itable i).d.size ≤ MAXFILE * BSIZE) (hfull : s.NoHoles (s.itable i).d) (off len : Nat) :
    (readi i kernelDst off len).eval s = .ok (s, readSpec (s.contents (s.itable i).d) off len) := by
  unfold readi readSpec
  rw [eval_bind (t := s) (a := (s.itable i).d) rfl, contents_length]
  by_cases hover : off > (s.itable i).d.size ∨ (off + len) % 2 ^ 32 < off
  · rw [if_pos hover, if_pos hover, eval_pure]
  · rw [if_neg hover, if_neg hover]
    have hlen : (if off + len > (s.itable i).d.size then (s.itable i).d.size - off else len) = min len ((s.itable i).d.size - off) := by
      split <;> omega
    dsimp only
    rw [hlen, readiLoop_eval hsize hfull _ _ _ _ (by omega) (Nat.zero_le _) (by omega), Nat.sub_zero, List.nil_append,
      contents_part (by omega)]
    congr 3
    have hdrop : ((s.contents (s.itable i).d).drop off).length ≤ (s.itable i).d.size - off := by
      rw [List.length_drop, contents_length]
    rw [← List.take_take, List.take_of_length_le hdrop]

/-- The bytes `bytes` replace those from position `off` on, and may make the file longer. -/
def splice (file : List UInt8) (off : Nat) (bytes : List UInt8) : List UInt8 :=
  file.take off ++ bytes ++ file.drop (off + bytes.length)

theorem splice_length {off : Nat} (h : off ≤ file.length) :
    (splice file off bytes).length = max file.length (off + bytes.length) := by
  rw [splice, List.length_append, List.length_append, List.length_take, List.length_drop]
  omega

theorem contents_splice {off m : Nat} {buf : Nat → UInt8} (hoff : off ≤ d.size) (hsize : e.size = max d.size (off + m))
    (hbyte : ∀ a < e.size, t.byte e a = if off ≤ a ∧ a < off + m then buf (a - off) else s.byte d a) :
    t.contents e = splice (s.contents d) off ((List.range m).map buf) := by
  refine List.ext_getElem? fun a => ?_
  rw [splice, List.append_assoc, List.getElem?_append, List.getElem?_append, List.length_take, contents_length, List.length_map,
    length_range, List.getElem?_take, List.getElem?_map, List.getElem?_drop, min_eq_left hoff]
  unfold State.contents
  rw [List.getElem?_map, List.getElem?_map, List.getElem?_map]
  by_cases ha : a < e.size
  · rw [List.getElem?_range ha, Option.map_some, hbyte a ha]
    by_cases h1 : a < off
    · rw [if_pos h1, if_pos h1, if_neg (by omega), List.getElem?_range (by omega)]
      rfl
    · rw [if_neg h1]
      by_cases h2 : a - off < m
      · rw [if_pos h2, if_pos (by omega), List.getElem?_range h2]
        rfl
      · rw [if_neg h2, if_neg (by omega), List.getElem?_range (by omega), show off + m + (a - off - m) = a by omega]
        rfl
  · rw [List.getElem?_eq_none (by rw [length_range]; omega), if_neg (by omega), if_neg (by omega),
      List.getElem?_eq_none (by rw [length_range]; omega)]
    rfl

def taken (src : Nat → Option UInt8) (m : Nat) : List UInt8 := (List.range m).map fun k => (src k).getD 0

theorem getElem?_splice {off a : Nat} (hoff : off ≤ file.length) (ha : off + bytes.length ≤ a) :
    (splice file off bytes)[a]? = file[a]? := by
  rw [splice, List.getElem?_append_right (by rw [List.length_append, List.length_take]; omega), List.getElem?_drop,
    List.length_append, List.length_take]
  congr 1
  omega

theorem getElem?_contents {a : Nat} (ha : a < d.size) : (s.contents d)[a]? = some (s.byte d a) := by
  rw [State.contents, List.getElem?_map, List.getElem?_range ha, Option.map_some]

/-- The contents are as reported if and only if the bytes that were copied and not reported are those that were there, as far as
the file went. -/
theorem WroteAt.contents_iff {src : Nat → Option UInt8} {off len m c : Nat} (h : WroteAt i src off len s s' m c)
    (hoff : off ≤ (s.itable i).d.size) (hfit : off + len ≤ MAXFILE * BSIZE) (hB : Blocks s (s.itable i).d) :
    s'.contents (s'.itable i).d = splice (s.contents (s.itable i).d) off (taken src m) ↔
      ∀ a, off + m ≤ a → a < off + m + c → a < (s.itable i).d.size → src (a - off) = some (s.byte (s.itable i).d a) := by
  have hle := h.le
  have hmax := hB.size
  constructor
  · intro he a h1 h2 h3
    have hlen : (taken src m).length = m := by rw [taken, List.length_map, length_range]
    have heq := congrArg (·[a]?) he
    rw [getElem?_splice (by rwa [contents_length]) (by omega), getElem?_contents (by rw [h.size]; omega), getElem?_contents h3,
      h.byte a (by omega), if_pos (by omega)] at heq
    obtain ⟨v, hv⟩ := Option.isSome_iff_exists.1 (h.readable (a - off) (by omega))
    rw [hv] at heq ⊢
    exact heq
  · intro hsame
    refine contents_splice hoff h.size fun a ha => ?_
    rw [h.size] at ha
    rw [h.byte a (by omega)]
    by_cases hrep : off ≤ a ∧ a < off + m
    · rw [if_pos hrep, if_pos (by omega)]
    · rw [if_neg hrep]
      split
      next hin => rw [hsame a (by omega) (by omega) (by omega), Option.getD_some]
      next => rfl

/-- The part of the source before the byte `t`, in the block of the file in which that byte would go, is what the file has there. -/
def Unchanged (s : State n) (d : Dinode) (src : Nat → Option UInt8) (off t : Nat) : Prop :=
  ∀ a, max off ((off + t) / BSIZE * BSIZE) ≤ a → a < off + t → a < d.size → src (a - off) = some (s.byte d a)

/-- What a write to a file without holes copies and does not report is the part before the first byte that cannot be read. -/
theorem WroteAt.unchanged_iff {src : Nat → Option UInt8} {off len m c : Nat} (h : WroteAt i src off len s s' m c)
    (hfull : s.NoHoles (s.itable i).d) (hstop : m < len → c = 0 → Starved i src off 0 s m) :
    (∀ a, off + m ≤ a → a < off + m + c → a < (s.itable i).d.size → src (a - off) = some (s.byte (s.itable i).d a)) ↔
      ∀ t < len, src t = none → (∀ k < t, (src k).isSome) → Unchanged s (s.itable i).d src off t := by
  have hle := h.le
  constructor
  · intro hsame t ht hnone hread a h1 h2 h3
    have hmt : m + c ≤ t := by
      by_contra hlt
      have := h.readable t (by omega)
      rw [hnone] at this
      cases this
    have hfirst : ∀ x, src x = none → t ≤ x := fun x hx => by
      by_contra hlt
      have := hread x (by omega)
      rw [hx] at this
      cases this
    rcases Nat.eq_zero_or_pos c with rfl | hc
    · obtain ⟨hm, hnone' | hslot⟩ := hstop (by omega) rfl
      · rw [Nat.zero_add] at hnone'
        have := hfirst m hnone'
        simp only [BSIZE] at *
        omega
      · -- the block in which the loop stopped, and so that of `t`, lies behind the end
        have hend : (s.itable i).d.size ≤ (off + m) / BSIZE * BSIZE := by
          by_contra hlt
          exact hfull _ (by omega) hslot
        simp only [BSIZE] at *
        omega
    · obtain ⟨-, hnone', hblock, hm⟩ := h.stop.resolve_left (by omega)
      have := hfirst _ hnone'
      refine hsame a ?_ (by omega) h3
      simp only [BSIZE] at *
      omega
  · intro hall a h1 h2 h3
    obtain ⟨hlt, hnone, hblock, hm⟩ := h.stop.resolve_left (by omega)
    refine hall (m + c) hlt hnone h.readable a ?_ (by omega) h3
    simp only [BSIZE] at *
    omega

/-- `writei` changes what it reports, and nothing if it returns -1, if and only if the arguments are out of range or the bytes
that it copies into a block before it finds the rest of the block's source unreadable are those of the file. -/
theorem write_as_reported_iff (src : Nat → Option UInt8) (off len : Nat) (s : State n) (i : Fin NINODE)
    (hB : Blocks s (s.itable i).d) (hfull : s.NoHoles (s.itable i).d) (hlen : len < 2 ^ 32) :
    (∃ s' r, (writei i src off len).eval s = .ok (s', r) ∧
      (r = -1 ∧ s' = s ∨ ∃ m : Nat, r = m ∧ m ≤ len ∧ (∀ k < m, (src k).isSome) ∧
        s'.contents (s'.itable i).d = splice (s.contents (s.itable i).d) off (taken src m))) ↔
    OutOfRange (s.itable i).d.size off len ∨
      ∀ t < len, src t = none → (∀ k < t, (src k).isSome) → Unchanged s (s.itable i).d src off t := by
  rcases writei_spec src off hB hlen with ⟨hout, hrun⟩ | ⟨hin, hfit, s', m, c, hrun, hw, -, hstop⟩
  · exact iff_of_true ⟨s, -1, hrun, .inl ⟨rfl, rfl⟩⟩ (.inl hout)
  · have hoff : off ≤ (s.itable i).d.size := by
      unfold OutOfRange at hin
      omega
    have hle := hw.le
    rw [or_iff_right hin, ← hw.unchanged_iff hfull hstop, ← hw.contents_iff hoff hfit hB]
    constructor
    · rintro ⟨_, _, hrun', hr⟩
      obtain ⟨rfl, rfl⟩ := Prod.mk.inj (Except.ok.inj (hrun.symm.trans hrun'))
      rcases hr with ⟨hr, -⟩ | ⟨m', hm', -, -, he⟩
      · omega
      · rw [Int.ofNat.inj hm']
        exact he
    · exact fun he => ⟨s', m, hrun, .inr ⟨m, rfl, by omega, fun k hk => hw.readable k (by omega), he⟩⟩

def smallFile : State 1 where
  sb := ⟨50, 16, 46⟩
  itable _ := { inum := 2, ref := 1, valid := true, d := { type := .T_FILE, nlink := 1, size := 8, addrs := fun k => if k = 0 then 46 else 0 } }
  dinode _ := { type := .T_FILE, nlink := 1, size := 8, addrs := fun k => if k = 0 then 46 else 0 }
  bitmap b := decide (b < 47)
  block _ _ := 0
  ftable _ := {}
  proc _ := {}
  initproc := ⟨0, Nat.one_pos⟩
  pipe _ := none
  outstanding := 1
  irefs _ _ := 0
  frefs _ _ := 0
  ends _ _ := 0

theorem smallFile_blocks (i : Fin NINODE) : Blocks smallFile (smallFile.itable i).d := by
  have hslot : ∀ k, smallFile.slot (smallFile.itable i).d k = if k = 0 then 46 else 0 := fun k => by
    unfold State.slot
    by_cases hk : k < NDIRECT
    · rw [if_pos hk]
      rfl
    · rw [if_neg hk, if_neg (show k ≠ 0 from fun h => hk (h ▸ Nat.succ_pos 11))]
      split <;> rfl
  refine ⟨fun k _ h0 => ?_, fun k _ k' _ h0 he => ?_, show 8 ≤ MAXFILE * BSIZE by decide, by decide⟩
  · rw [hslot] at h0 ⊢
    by_cases hk : k = 0
    · rw [if_pos hk]
      decide
    · exact absurd (if_neg hk) h0
  · rw [hslot] at h0
    rw [hslot, hslot] at he
    by_cases hk : k = 0
    · by_cases hk' : k' = 0
      · exact hk.trans hk'.symm
      · rw [if_pos hk, if_neg hk'] at he
        cases he
    · exact absurd (if_neg hk) h0

theorem smallFile_noHoles (i : Fin NINODE) : smallFile.NoHoles (smallFile.itable i).d := fun k hk => by
  have hk : k * BSIZE < 8 := hk
  obtain rfl : k = 0 := by
    simp only [BSIZE] at hk
    omega
  exact (by decide : (46 : Nat) ≠ 0)

theorem zero_lt_ninode : 0 < NINODE := Nat.succ_pos 49

def firstInode : Fin NINODE := ⟨0, zero_lt_ninode⟩

def halfSource (k : Nat) : Option UInt8 := if k < 4 then some 7 else none

/-- A write of eight bytes that reports 0 has changed four bytes. -/
theorem unreported_write : ∃ s', (writei firstInode halfSource 0 8).eval smallFile = .ok (s', 0) ∧
    smallFile.contents (smallFile.itable firstInode).d = [0, 0, 0, 0, 0, 0, 0, 0] ∧
    s'.contents (s'.itable firstInode).d = [7, 7, 7, 7, 0, 0, 0, 0] := by
  refine ⟨_, rfl, rfl, ?_⟩
  decide +kernel

/-- The same source is written as reported at the end of the file. -/
theorem write_as_reported_small : ∃ s' r, (writei firstInode halfSource 8 8).eval smallFile = .ok (s', r) ∧
    (r = -1 ∧ s' = smallFile ∨ ∃ m : Nat, r = m ∧ m ≤ 8 ∧ (∀ k < m, (halfSource k).isSome) ∧
      s'.contents (s'.itable firstInode).d =
        splice (smallFile.contents (smallFile.itable firstInode).d) 8 (taken halfSource m)) :=
  (write_as_reported_iff halfSource 8 8 smallFile firstInode (smallFile_blocks firstInode) (smallFile_noHoles firstInode)
    (by decide)).2 (.inr fun t _ _ _ a h1 _ (h3 : a < 8) => by omega)

/-- The inodes of the set `I` have blocks for all their bytes, marked in the bitmap, and no two of them share a block. -/
structure Files (I : Fin NINODE → Prop) (s : State n) : Prop where
  blocks : ∀ i, I i → Blocks s (s.itable i).d
  full : ∀ i, I i → s.NoHoles (s.itable i).d
  apart : ∀ i j, I i → I j → i ≠ j → ∀ k ≤ MAXFILE, ∀ k' ≤ MAXFILE, s.slot (s.itable i).d k ≠ 0 →
    s.slot (s.itable i).d k ≠ s.slot (s.itable j).d k'

variable {I : Fin NINODE → Prop} {src : Nat → Option UInt8} {off len m c : Nat}

theorem WroteAt.itable_ne (h : WroteAt i src off len s s' m c) (hj : j ≠ i) : s'.itable j = s.itable j := by
  obtain ⟨a, bits, blocks, rfl⟩ := h.same
  exact Function.update_of_ne hj ..

theorem WroteAt.sb (h : WroteAt i src off len s s' m c) : s'.sb = s.sb := by
  obtain ⟨a, bits, blocks, rfl⟩ := h.same
  rfl

theorem WroteAt.noHoles (h : WroteAt i src off len s s' m c) (hB : Blocks s (s.itable i).d) (hfull : s.NoHoles (s.itable i).d)
    (hoff : off ≤ (s.itable i).d.size) (hfit : off + len ≤ MAXFILE * BSIZE) : s'.NoHoles (s'.itable i).d := by
  intro k hk
  rw [h.size] at hk
  by_cases hold : k * BSIZE < (s.itable i).d.size
  · have hne := hfull k hold
    have hkm : k ≤ MAXFILE := by
      have := hB.size
      simp only [BSIZE] at *
      omega
    rw [h.grows k hkm hne]
    exact hne
  · have hle := h.le
    refine h.filled k ?_ ?_ ?_ ?_ <;> simp only [BSIZE] at * <;> omega

theorem Files.other (hF : Files I s) (hi : I i) (hj : I j) (hji : j ≠ i) (h : WroteAt i src off len s s' m c) (hk : k ≤ MAXFILE)
    (h0 : s.slot (s.itable j).d k ≠ 0) : s'.block (s.slot (s.itable j).d k) = s.block (s.slot (s.itable j).d k) ∧
      s'.bitmap (s.slot (s.itable j).d k) = true ∧ ∀ k' ≤ MAXFILE, s'.slot (s'.itable i).d k' ≠ s.slot (s.itable j).d k :=
  h.others _ h0 ((hF.blocks j hj).used k hk h0) fun k' hk' he => hF.apart j i hj hi hji k hk k' hk' h0 he.symm

theorem Files.write (hF : Files I s) (hi : I i) (h : WroteAt i src off len s s' m c) (hoff : off ≤ (s.itable i).d.size)
    (hfit : off + len ≤ MAXFILE * BSIZE) :
    Files I s' ∧ ∀ j, I j → j ≠ i → s'.contents (s'.itable j).d = s.contents (s.itable j).d := by
  have hcongr : ∀ j, I j → j ≠ i → Blocks s' (s.itable j).d ∧ ∀ a < MAXFILE * BSIZE, s'.byte (s.itable j).d a = s.byte (s.itable j).d a :=
    fun j hj hji => (hF.blocks j hj).congr (fun k hk h0 => (hF.other hi hj hji h hk h0).1)
      (fun k hk h0 => (hF.other hi hj hji h hk h0).2.1) h.sb
  have hslot : ∀ j, I j → j ≠ i → ∀ k, s'.slot (s'.itable j).d k = s.slot (s.itable j).d k := fun j hj hji k => by
    rw [h.itable_ne hji]
    exact slot_congr fun h0 => (hF.other hi hj hji h (k := MAXFILE) le_rfl h0).1
  refine ⟨⟨fun j hj => ?_, fun j hj k hk => ?_, fun j j' hj hj' hne k hk k' hk' h0 => ?_⟩, fun j hj hji => ?_⟩
  · by_cases hji : j = i
    · rw [hji]
      exact h.blocks
    · rw [h.itable_ne hji]
      exact (hcongr j hj hji).1
  · by_cases hji : j = i
    · subst hji
      exact h.noHoles (hF.blocks j hi) (hF.full j hi) hoff hfit k hk
    · rw [hslot j hj hji]
      rw [h.itable_ne hji] at hk
      exact hF.full j hj k hk
  · by_cases hji : j = i
    · have hj'i : j' ≠ i := fun he => hne (hji.trans he.symm)
      rw [hslot j' hj' hj'i]
      rw [hji] at h0 ⊢
      by_cases h0' : s.slot (s.itable j').d k' = 0
      · rw [h0']
        exact h0
      · exact (hF.other hi hj' hj'i h hk' h0').2.2 k hk
    · rw [hslot j hj hji] at h0 ⊢
      by_cases hj'i : j' = i
      · rw [hj'i]
        exact Ne.symm ((hF.other hi hj hji h hk h0).2.2 k' hk')
      · rw [hslot j' hj' hj'i]
        exact hF.apart j j' hj hj' hne k hk k' hk' h0
  · rw [h.itable_ne hji]
    refine List.map_congr_left fun a ha => (hcongr j hj hji).2 a ?_
    have h1 := List.mem_range.1 ha
    have h2 := (hF.blocks j hj).size
    omega

/-- A call of `writei` with a readable source, or of `readi` with a writable destination. -/
inductive FileOp where
  | write (i : Fin NINODE) (off n : UInt32) (buf : Nat → UInt8)
  | read (i : Fin NINODE) (off n : UInt32)

def FileOp.inode : FileOp → Fin NINODE
  | .write i .. | .read i .. => i

def FileOp.run : FileOp → FsM n (Int × List UInt8)
  | .write i off n buf => do
    let r ← writei i (fun k => some (buf k)) off.toNat n.toNat
    return (r, [])
  | .read i off n => readi i kernelDst off.toNat n.toNat

def runOps : List FileOp → FsM n (List (Int × List UInt8))
  | [] => return []
  | op :: ops => do
    let r ← op.run
    let rs ← runOps ops
    return r :: rs

/-- Offset and length are in the range for writing to a file of the given size. -/
def InRange (size off n : Nat) : Prop := off ≤ size ∧ off + n < 2 ^ 32 ∧ off + n ≤ MAXFILE * BSIZE

/-- What the operations do when each file is an array of bytes: the results, and the arrays in the end. -/
inductive Behaves (room : Prop) :
    (Fin NINODE → List UInt8) → List FileOp → List (Int × List UInt8) → (Fin NINODE → List UInt8) → Prop
  | nil (files) : Behaves room files [] [] files
  /-- The first `m` bytes are stored; all of them if there is room. -/
  | write {files files' i off n buf ops rs} (m : Nat) (hin : InRange (files i).length off.toNat n.toNat) (hm : m ≤ n.toNat)
      (hall : room → m = n.toNat)
      (h : Behaves room (Function.update files i (splice (files i) off.toNat ((List.range m).map buf))) ops rs files') :
      Behaves room files (.write i off n buf :: ops) ((m, []) :: rs) files'
  | reject {files files' i off n buf ops rs} (hout : ¬InRange (files i).length off.toNat n.toNat) (h : Behaves room files ops rs files') :
      Behaves room files (.write i off n buf :: ops) ((-1, []) :: rs) files'
  | read {files files' i off n ops rs} (h : Behaves room files ops rs files') :
      Behaves room files (.read i off n :: ops) (readSpec (files i) off.toNat n.toNat :: rs) files'

theorem Behaves.mono {room room' : Prop} {files files' : Fin NINODE → List UInt8} {ops : List FileOp} {rs : List (Int × List UInt8)}
    (hroom : room' → room) (h : Behaves room files ops rs files') : Behaves room' files ops rs files' := by
  induction h with
  | nil files => exact .nil files
  | write m hin hm hall _ ih => exact .write m hin hm (fun hr => hall (hroom hr)) ih
  | reject hout _ ih => exact .reject hout ih
  | read _ ih => exact .read ih

theorem outOfRange_iff (hsize : size ≤ MAXFILE * BSIZE) (off n : UInt32) :
    OutOfRange size off.toNat n.toNat ↔ ¬InRange size off.toNat n.toNat := by
  have h1 := off.toNat_lt
  have h2 := n.toNat_lt
  unfold OutOfRange InRange
  simp only [MAXFILE, NDIRECT, NINDIRECT, BSIZE] at *
  omega

theorem runOps_spec : ∀ (ops : List FileOp) (s : State n) (files : Fin NINODE → List UInt8), Files I s → (∀ op ∈ ops, I op.inode) →
    (∀ i, I i → s.contents (s.itable i).d = files i) →
    ∃ s' rs files', (runOps ops).eval s = .ok (s', rs) ∧ Files I s' ∧
      Behaves (s.bitmap 0 = true ∧ ¬s'.Full) files ops rs files' ∧ (s.Full → s'.Full) ∧
      ∀ i, I i → s'.contents (s'.itable i).d = files' i := by
  intro ops
  induction ops with
  | nil => exact fun s files hF _ hc => ⟨s, [], files, rfl, hF, .nil files, id, hc⟩
  | cons op ops ih =>
    intro s files hF hops hc
    have hI : I op.inode := hops op List.mem_cons_self
    have hops' : ∀ op ∈ ops, I op.inode := fun o ho => hops o (List.mem_cons_of_mem op ho)
    cases op with
    | write i off n buf =>
      have hi : I i := hI
      have hsize : (s.itable i).d.size = (files i).length := by rw [← hc i hi, contents_length]
      have hmax := (hF.blocks i hi).size
      rcases writei_spec (fun k => some (buf k)) off.toNat (hF.blocks i hi) n.toNat_lt with
        ⟨hout, hrun⟩ | ⟨hin, hfit, s1, m, c, hrun, hw, hfull, -⟩
      · obtain ⟨s', rs, files', hrun', hF', hB, hfull', hc'⟩ := ih s files hF hops' hc
        rw [outOfRange_iff hmax, hsize] at hout
        refine ⟨s', (-1, []) :: rs, files', ?_, hF', .reject hout hB, hfull', hc'⟩
        rw [runOps, FileOp.run, eval_bind (t := s) (a := (-1, [])) (by rw [eval_bind hrun]; rfl), eval_bind hrun']
        rfl
      · rw [outOfRange_iff hmax, not_not] at hin
        have hle := hw.le
        have hc0 : c = 0 := by
          rcases hw.stop with h | ⟨-, h, -⟩
          · exact h
          · cases h
        obtain ⟨hF1, hother⟩ := hF.write hi hw hin.1 hfit
        have hown := (hw.contents_iff hin.1 hfit (hF.blocks i hi)).2 fun a h1 h2 => by omega
        obtain ⟨s', rs, files', hrun', hF', hB, hfull', hc'⟩ :=
          ih s1 (Function.update files i (splice (files i) off.toNat ((List.range m).map buf))) hF1 hops' fun j hj => by
            by_cases hji : j = i
            · subst hji
              rw [Function.update_self, hown, hc j hj]
              rfl
            · rw [Function.update_of_ne hji, hother j hj hji, hc j hj]
        rw [hsize] at hin
        have hall : s.bitmap 0 = true ∧ ¬s'.Full → m = n.toNat := fun hroom => by
          by_contra hne
          exact hroom.2 (hfull' (hfull hroom.1 (fun _ _ => rfl) (by omega)))
        have hkeep : s.Full → s1.Full := fun h b hb => hw.used b (h b (by rw [← hw.sb]; exact hb))
        refine ⟨s', ((m : Int), []) :: rs, files', ?_, hF', .write m hin (by omega) hall (hB.mono fun h => ⟨hw.used 0 h.1, h.2⟩),
          fun h => hfull' (hkeep h), hc'⟩
        rw [runOps, FileOp.run, eval_bind (t := s1) (a := ((m : Int), [])) (by rw [eval_bind hrun]; rfl), eval_bind hrun']
        rfl
    | read i off n =>
      have hi : I i := hI
      obtain ⟨s', rs, files', hrun', hF', hB, hfull', hc'⟩ := ih s files hF hops' hc
      have hread := readi_eval (hF.blocks i hi).size (hF.full i hi) off.toNat n.toNat
      rw [hc i hi] at hread
      refine ⟨s', _, files', ?_, hF', .read hB, hfull', hc'⟩
      rw [runOps, FileOp.run, eval_bind hread, eval_bind hrun']
      rfl

def endOf (i : Fin NINODE) : FileOp × (Int × List UInt8) → Nat
  | (.write j off _ _, (r, _)) => if j = i ∧ 0 ≤ r then off.toNat + r.toNat else 0
  | (.read .., _) => 0

theorem foldr_max_comm (a b : Nat) (l : List Nat) : l.foldr max (max a b) = max a (l.foldr max b) := by
  induction l with
  | nil => rfl
  | cons x l ih => rw [foldr_cons, foldr_cons, ih, Nat.max_left_comm]

theorem Behaves.length {room : Prop} {files files' : Fin NINODE → List UInt8} {ops : List FileOp} {rs : List (Int × List UInt8)}
    (h : Behaves room files ops rs files') (i : Fin NINODE) :
    (files' i).length = ((ops.zip rs).map (endOf i)).foldr max (files i).length := by
  induction h with
  | nil files => rfl
  | @write files files' j off n buf ops rs m hin hm _ _ ih =>
    rw [ih, List.zip_cons_cons, List.map_cons, foldr_cons]
    by_cases hji : j = i
    · subst hji
      have hlen : (splice (files j) off.toNat ((List.range m).map buf)).length = max (off.toNat + m) (files j).length := by
        rw [splice_length hin.1, List.length_map, length_range, Nat.max_comm]
      rw [Function.update_self, hlen, foldr_max_comm, endOf, if_pos ⟨rfl, Int.natCast_nonneg m⟩, Int.toNat_natCast]
    · rw [Function.update_of_ne (Ne.symm hji), endOf, if_neg fun h => hji h.1, Nat.zero_max]
  | @reject files files' j off n buf ops rs hout _ ih =>
    rw [ih, List.zip_cons_cons, List.map_cons, foldr_cons, endOf, if_neg (by omega), Nat.zero_max]
  | read _ ih => rw [ih, List.zip_cons_cons, List.map_cons, foldr_cons, endOf, Nat.zero_max]

/-- For every sequence of reads and writes of files that share no blocks, each file behaves as an array of bytes: a read shows the
latest bytes written, up to the size; a write stores the bytes that it reports, all of them if the disk does not get full, changes no
other file, and is rejected if it starts behind the end or the file would be too large. -/
theorem files_are_byte_arrays (I : Fin NINODE → Prop) (s : State n) (hF : Files I s) (ops : List FileOp) (hops : ∀ op ∈ ops, I op.inode) :
    ∃ s' rs files', (runOps ops).eval s = .ok (s', rs) ∧ Files I s' ∧
      Behaves (s.bitmap 0 = true ∧ ¬s'.Full) (fun i => s.contents (s.itable i).d) ops rs files' ∧
      ∀ i, I i → s'.contents (s'.itable i).d = files' i ∧
        (s'.itable i).d.size = ((ops.zip rs).map (endOf i)).foldr max (s.itable i).d.size := by
  obtain ⟨s', rs, files', hrun, hF', hB, -, hc⟩ := runOps_spec ops s (fun i => s.contents (s.itable i).d) hF hops fun _ _ => rfl
  refine ⟨s', rs, files', hrun, hF', hB, fun i hi => ⟨hc i hi, ?_⟩⟩
  have hlen := hB.length i
  rw [← hc i hi, contents_length] at hlen
  rw [hlen, contents_length]

theorem files_are_byte_arrays_small : (∀ op ∈ [FileOp.write firstInode 4 8 fun _ => 7, .read firstInode 0 16], firstInode = op.inode) ∧
    ∃ s' rs files', (runOps [FileOp.write firstInode 4 8 fun _ => 7, .read firstInode 0 16]).eval smallFile = .ok (s', rs) ∧
      Files (firstInode = ·) s' ∧
      Behaves (smallFile.bitmap 0 = true ∧ ¬s'.Full) (fun i => smallFile.contents (smallFile.itable i).d) [.write firstInode 4 8 fun _ => 7, .read firstInode 0 16] rs files' ∧
      ∀ i, firstInode = i → s'.contents (s'.itable i).d = files' i ∧
        (s'.itable i).d.size = (([FileOp.write firstInode 4 8 fun _ => 7, .read firstInode 0 16].zip rs).map (endOf i)).foldr max
          (smallFile.itable i).d.size :=
  have hF : Files (firstInode = ·) smallFile :=
    ⟨fun i _ => smallFile_blocks i, fun i _ => smallFile_noHoles i, fun i j hi hj hne => absurd (hi.symm.trans hj) hne⟩
  have hops : ∀ op ∈ [FileOp.write firstInode 4 8 fun _ => 7, .read firstInode 0 16], firstInode = op.inode := fun op hop => by
    rcases List.mem_pair.1 hop with rfl | rfl <;> rfl
  ⟨hops, files_are_byte_arrays (firstInode = ·) smallFile hF _ hops⟩

end Xv6.Fs
