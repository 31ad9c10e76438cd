import Xv6.Fs.File

/-!
# The contents of a file

The blocks of an inode as one table (`State.slot`), the bytes that they hold, and what `bmap` and `writei` do to them when no
other process changes the inode: `bmap` leaves all bytes as they are, and `writei` at the end of a file appends the bytes that
it reports.
-/

namespace Xv6.Fs

open Bytes (Mem storeLE write)
open Function (update update_eq_self update_of_ne update_self)
open Run Prog

variable {n : Nat} {s s' t s1 s2 : State n} {i : Fin NINODE} {d e : Dinode} {k x b m j off len tot c ind m' : Nat}
  {bitmap : Nat → Bool} {g h buf : Nat → UInt8} {src : Nat → Option UInt8}

/-- Block `k < MAXFILE` of the file, or the indirect block for `k = MAXFILE`; 0 if there is none. -/
def State.slot (s : State n) (d : Dinode) (k : Nat) : Nat :=
  if k < NDIRECT then d.addrs k
  else if k = MAXFILE then d.addrs NDIRECT
  else if d.addrs NDIRECT = 0 then 0
  else wordAt (s.block (d.addrs NDIRECT)) (k - NDIRECT)

/-- Byte `a` of the file; a block that is missing stands for zeros. -/
def State.byte (s : State n) (d : Dinode) (a : Nat) : UInt8 :=
  if s.slot d (a / BSIZE) = 0 then 0 else s.block (s.slot d (a / BSIZE)) (a % BSIZE)

/-- The blocks of the inode are marked in the bitmap, and none of them has two places. -/
structure Blocks (s : State n) (d : Dinode) : Prop where
  used : ∀ k ≤ MAXFILE, s.slot d k ≠ 0 → s.bitmap (s.slot d k) = true
  inj : ∀ k ≤ MAXFILE, ∀ k' ≤ MAXFILE, s.slot d k ≠ 0 → s.slot d k = s.slot d k' → k = k'
  size : d.size ≤ MAXFILE * BSIZE
  /-- Block numbers have 32 bits. -/
  disk : s.sb.size ≤ 2 ^ 32

def State.NoHoles (s : State n) (d : Dinode) : Prop := ∀ k, k * BSIZE < d.size → s.slot d k ≠ 0

theorem slot_direct (hk : k < NDIRECT) : s.slot d k = d.addrs k := if_pos hk

theorem slot_max : s.slot d MAXFILE = d.addrs NDIRECT := rfl

theorem slot_entry (h1 : ¬k < NDIRECT) (h2 : k < MAXFILE) (hind : d.addrs NDIRECT ≠ 0) :
    s.slot d k = wordAt (s.block (d.addrs NDIRECT)) (k - NDIRECT) := by
  rw [State.slot, if_neg h1, if_neg (Nat.ne_of_lt h2), if_neg hind]

theorem slot_no_indirect (h1 : ¬k < NDIRECT) (hind : d.addrs NDIRECT = 0) : s.slot d k = 0 := by
  rw [State.slot, if_neg h1, if_pos hind, hind, ite_self]

theorem slot_congr (h : d.addrs NDIRECT ≠ 0 → t.block (d.addrs NDIRECT) = s.block (d.addrs NDIRECT)) : t.slot d k = s.slot d k := by
  unfold State.slot
  by_cases hind : d.addrs NDIRECT = 0
  · rw [if_pos hind, if_pos hind]
  · rw [h hind]

theorem Blocks.congr (hB : Blocks s d) (hblock : ∀ k ≤ MAXFILE, s.slot d k ≠ 0 → t.block (s.slot d k) = s.block (s.slot d k))
    (hbit : ∀ k ≤ MAXFILE, s.slot d k ≠ 0 → t.bitmap (s.slot d k) = true) (hsb : t.sb = s.sb) :
    Blocks t d ∧ ∀ a < MAXFILE * BSIZE, t.byte d a = s.byte d a := by
  have hslot : ∀ k, t.slot d k = s.slot d k := fun k => slot_congr fun h => hblock MAXFILE le_rfl h
  refine ⟨⟨fun k hk => ?_, fun k hk k' hk' => ?_, hB.size, hsb ▸ hB.disk⟩, fun a ha => ?_⟩
  · rw [hslot]
    exact hbit k hk
  · rw [hslot, hslot]
    exact hB.inj k hk k' hk'
  · unfold State.byte
    rw [hslot]
    by_cases h0 : s.slot d (a / BSIZE) = 0
    · rw [if_pos h0, if_pos h0]
    · rw [if_neg h0, if_neg h0, hblock _ (by lia) h0]

def State.setBlock (s : State n) (b : Nat) (m : Mem) : State n := { s with block := update s.block b m }

theorem setBlock_self {m : Mem} : (s.setBlock x m).block x = m := update_self ..

theorem setBlock_ne {m : Mem} (h : b ≠ x) : (s.setBlock x m).block b = s.block b := update_of_ne h ..

/-- The state after `balloc` has returned block `x`. -/
def State.allocated (s : State n) (x : Nat) : State n :=
  { s with bitmap := update s.bitmap x true, block := update s.block x fun _ => 0 }

theorem allocated_block_self : (s.allocated x).block x = fun _ => 0 := update_self ..

theorem allocated_block_ne (h : b ≠ x) : (s.allocated x).block b = s.block b := update_of_ne h ..

def State.Full (s : State n) : Prop := ∀ b < s.sb.size, s.bitmap b = true

theorem firstFree_none :
    ∀ {b : Nat}, firstFree bitmap b m = none → ∀ k, b ≤ k → k < b + m → bitmap k = true := by
  induction m with
  | zero =>
    intro b _ k h1 h2
    omega
  | succ m ih =>
    intro b h k h1 h2
    unfold firstFree at h
    split at h
    next hb =>
      rcases Nat.eq_or_lt_of_le h1 with rfl | hlt
      · exact hb
      · exact ih h k hlt (by omega)
    next => cases h

theorem firstFree_some :
    ∀ {b : Nat}, firstFree bitmap b m = some x → bitmap x = false ∧ b ≤ x ∧ x < b + m := by
  induction m with
  | zero =>
    intro b h
    cases h
  | succ m ih =>
    intro b h
    unfold firstFree at h
    split at h
    next =>
      obtain ⟨hx, hle, hlt⟩ := ih h
      exact ⟨hx, by omega, by omega⟩
    next hb =>
      cases h
      exact ⟨Bool.eq_false_iff.2 hb, le_rfl, by omega⟩

theorem ballocLoop_eval (s : State n) : ∀ bs : List Nat, ∃ s' x, (ballocLoop bs).eval s = .ok (s', x) ∧
    (s' = s ∧ x = 0 ∧ (∀ b ∈ bs, ∀ k, b ≤ k → k < b + BPB → k < s.sb.size → s.bitmap k = true) ∨
      s.bitmap x = false ∧ x < s.sb.size ∧ s' = s.allocated x) := by
  intro bs
  induction bs with
  | nil => exact ⟨s, 0, rfl, .inl ⟨rfl, rfl, fun b hb => by cases hb⟩⟩
  | cons b bs ih =>
    unfold ballocLoop
    cases hf : firstFree s.bitmap b (min BPB (s.sb.size - b)) with
    | none =>
      have hin : s.ballocIn b = (s, none) := by rw [State.ballocIn, hf]
      rw [eval_bind (t := s) (a := none) (by rw [atomic, eval, hin]; rfl)]
      obtain ⟨s', x, hrun, ⟨hs, hx, hall⟩ | hx⟩ := ih
      · refine ⟨s', x, hrun, .inl ⟨hs, hx, fun b' hb' k h1 h2 h3 => ?_⟩⟩
        rcases List.mem_cons.1 hb' with rfl | hb'
        · exact firstFree_none hf k h1 (by omega)
        · exact hall b' hb' k h1 h2 h3
      · exact ⟨s', x, hrun, .inr hx⟩
    | some x =>
      have hin : s.ballocIn b = ({ s with bitmap := update s.bitmap x true }, some x) := by rw [State.ballocIn, hf]
      rw [eval_bind (t := { s with bitmap := update s.bitmap x true }) (a := some x)
        (by rw [atomic, eval, hin]; rfl)]
      obtain ⟨hx, hle, hlt⟩ := firstFree_some hf
      exact ⟨s.allocated x, x, rfl, .inr ⟨hx, by omega, rfl⟩⟩

theorem balloc_eval (s : State n) : ∃ s' x, balloc.eval s = .ok (s', x) ∧
    (s' = s ∧ x = 0 ∧ s.Full ∨ s.bitmap x = false ∧ x < s.sb.size ∧ s' = s.allocated x) := by
  obtain ⟨s', x, hrun, ⟨hs, hx, hall⟩ | hx⟩ := ballocLoop_eval s ((List.range ((s.sb.size + BPB - 1) / BPB)).map (· * BPB))
  · refine ⟨s', x, hrun, .inl ⟨hs, hx, fun b hb => ?_⟩⟩
    have hmem : b / BPB * BPB ∈ (List.range ((s.sb.size + BPB - 1) / BPB)).map (· * BPB) :=
      List.mem_map.2 ⟨b / BPB, List.mem_range.2 (by simp only [BPB, BSIZE]; omega), rfl⟩
    exact hall _ hmem b (Nat.div_mul_le_self b BPB) (by simp only [BPB, BSIZE]; omega) hb
  · exact ⟨s', x, hrun, .inr hx⟩

theorem Blocks.ne_free (hB : Blocks s d) (hx : s.bitmap x = false) (hk : k ≤ MAXFILE) (h0 : s.slot d k ≠ 0) : s.slot d k ≠ x := by
  rintro rfl
  rw [hB.used k hk h0] at hx
  cases hx

theorem Blocks.indirect_ne (hB : Blocks s d) (hx : s.bitmap x = false) (hind : d.addrs NDIRECT ≠ 0) : d.addrs NDIRECT ≠ x :=
  hB.ne_free (k := MAXFILE) hx le_rfl hind

theorem Blocks.allocated (hB : Blocks s d) (hx : s.bitmap x = false) :
    Blocks (s.allocated x) d ∧ ∀ a < MAXFILE * BSIZE, (s.allocated x).byte d a = s.byte d a :=
  hB.congr (fun _ hk h0 => allocated_block_ne (hB.ne_free hx hk h0))
    (fun k hk h0 => (update_of_ne (hB.ne_free hx hk h0) _ _).trans (hB.used k hk h0)) rfl

theorem Blocks.attach (hB : Blocks s d) (hx : s.bitmap x = false) (hx0 : x ≠ 0) (h0 : s.slot d k = 0)
    (hslot : ∀ j ≤ MAXFILE, t.slot e j = if j = k then x else s.slot d j)
    (hbit : t.bitmap = update s.bitmap x true)
    (hblock : ∀ b, b ≠ t.slot e MAXFILE → t.block b = (s.allocated x).block b) (hsize : e.size = d.size) (hsb : t.sb = s.sb) :
    Blocks t e ∧ ∀ a < MAXFILE * BSIZE, t.byte e a = s.byte d a := by
  have hne : ∀ j ≤ MAXFILE, s.slot d j ≠ x := fun j hj he => by
    by_cases hz : s.slot d j = 0
    · exact hx0 (he.symm.trans hz)
    · exact hB.ne_free hx hj hz he
  have hinj : ∀ j ≤ MAXFILE, ∀ j' ≤ MAXFILE, t.slot e j ≠ 0 → t.slot e j = t.slot e j' → j = j' := by
    intro j hj j' hj'
    rw [hslot j hj, hslot j' hj']
    split_ifs with h h'
    · exact fun _ _ => h.trans h'.symm
    · exact fun _ he => absurd he.symm (hne j' hj')
    · exact fun _ he => absurd he (hne j hj)
    · exact hB.inj j hj j' hj'
  refine ⟨⟨fun j hj => ?_, hinj, hsize ▸ hB.size, hsb ▸ hB.disk⟩, fun a ha => ?_⟩
  · rw [hslot j hj, hbit]
    split
    · exact fun _ => update_self ..
    · exact fun h => (update_of_ne (hne j hj) _ _).trans (hB.used j hj h)
  · have ha' : a / BSIZE < MAXFILE := by lia
    have hslot' := hslot _ ha'.le
    unfold State.byte
    by_cases hz : t.slot e (a / BSIZE) = 0
    · rw [if_pos hz, if_pos]
      rw [hz] at hslot'
      split at hslot'
      next => exact absurd hslot'.symm hx0
      next => exact hslot'.symm
    · -- the indirect block holds no bytes of the file
      have hb := hblock _ fun he => absurd (hinj _ ha'.le _ le_rfl hz he) (Nat.ne_of_lt ha')
      rw [if_neg hz, hb, hslot']
      split
      next he => rw [he, h0, if_pos rfl, allocated_block_self]
      next he =>
        rw [hslot', if_neg he] at hz
        rw [if_neg hz, allocated_block_ne (hne _ ha'.le)]

/-- From `s` to `s'` a process has changed the dinode of `i` and blocks. -/
structure Inside (i : Fin NINODE) (s s' : State n) : Prop where
  sb : s'.sb = s.sb
  ftable : s'.ftable = s.ftable
  outstanding : s'.outstanding = s.outstanding
  entry : ∃ d, s'.itable i = { s.itable i with d := d }

theorem Inside.refl : Inside i s s := ⟨rfl, rfl, rfl, _, rfl⟩

theorem Inside.trans (h : Inside i s t) (h' : Inside i t s') : Inside i s s' := by
  obtain ⟨d, hd⟩ := h.entry
  obtain ⟨d', hd'⟩ := h'.entry
  exact ⟨h'.sb.trans h.sb, h'.ftable.trans h.ftable, h'.outstanding.trans h.outstanding, d', by rw [hd', hd]⟩

/-- From `s` to `s'` the bytes of the file have become those of `g`. -/
structure Writes (i : Fin NINODE) (s s' : State n) (g : Nat → UInt8) : Prop extends Inside i s s' where
  size : (s'.itable i).d.size = (s.itable i).d.size
  blocks : Blocks s' (s'.itable i).d
  byte : ∀ a < MAXFILE * BSIZE, s'.byte (s'.itable i).d a = g a

theorem Writes.refl (hB : Blocks s (s.itable i).d) : Writes i s s (s.byte (s.itable i).d) :=
  ⟨.refl, rfl, hB, fun _ _ => rfl⟩

theorem Writes.trans (hw : Writes i s t g) (hw' : Writes i t s' h) : Writes i s s' h where
  toInside := hw.toInside.trans hw'.toInside
  size := hw'.size.trans hw.size
  blocks := hw'.blocks
  byte := hw'.byte

theorem Writes.congr (hw : Writes i s s' g) (hgh : ∀ a < MAXFILE * BSIZE, g a = h a) : Writes i s s' h :=
  { hw with byte := fun a ha => (hw.byte a ha).trans (hgh a ha) }

theorem Writes.allocated (hB : Blocks s (s.itable i).d) (hx : s.bitmap x = false) :
    Writes i s (s.allocated x) (s.byte (s.itable i).d) :=
  ⟨⟨rfl, rfl, rfl, _, rfl⟩, rfl, (hB.allocated hx).1, (hB.allocated hx).2⟩

theorem setInode_self {y : Inode n} : (s.setInode i y).itable i = y := update_self ..

theorem setAddr_addrs : (d.setAddr j x).addrs m = if m = j then x else d.addrs m := Function.update_apply ..

/-- The place in the table of `addrs[j]`. -/
def placeOf (j : Nat) : Nat := if j = NDIRECT then MAXFILE else j

theorem slot_setAddr (hB : Blocks s d) (hx : s.bitmap x = false) (hx0 : x ≠ 0) (hj : j ≤ NDIRECT) (h0 : d.addrs j = 0)
    (hblock : t.block = (s.allocated x).block) (hm : m ≤ MAXFILE) :
    t.slot (d.setAddr j x) m = if m = placeOf j then x else s.slot d m := by
  unfold placeOf
  by_cases hm' : m < NDIRECT
  · rw [slot_direct hm', slot_direct hm', setAddr_addrs]
    exact if_congr (by split <;> lia) rfl rfl
  · by_cases hmax : m = MAXFILE
    · subst hmax
      rw [slot_max, slot_max, setAddr_addrs]
      exact if_congr (by split <;> lia) rfl rfl
    · rw [if_neg (by split <;> lia)]
      by_cases hjn : j = NDIRECT
      · -- the new indirect block has no entries yet
        subst hjn
        rw [slot_no_indirect hm' h0, slot_entry hm' (by lia) (by rw [setAddr_addrs, if_pos rfl]; exact hx0), setAddr_addrs,
          if_pos rfl, hblock, allocated_block_self]
        exact Bytes.loadLE_zero fun _ _ _ => rfl
      · have hind : (d.setAddr j x).addrs NDIRECT = d.addrs NDIRECT := by rw [setAddr_addrs, if_neg (Ne.symm hjn)]
        unfold State.slot
        rw [if_neg hm', if_neg hm', if_neg hmax, if_neg hmax, hind]
        split
        · rfl
        · next hne => rw [hblock, allocated_block_ne (hB.indirect_ne hx hne)]

theorem slot_placeOf (hj : j ≤ NDIRECT) : s.slot d (placeOf j) = d.addrs j := by
  unfold placeOf
  split
  next h => rw [slot_max, h]
  next h => rw [slot_direct (by lia)]

theorem slot_setEntry (hB : Blocks s d) (hx : s.bitmap x = false) (hlt : x < 2 ^ 32) (hk : ¬k < NDIRECT)
    (hk' : k < MAXFILE) (hind : d.addrs NDIRECT ≠ 0)
    (hblock : t.block = update (s.allocated x).block (d.addrs NDIRECT)
      (storeLE ((s.allocated x).block (d.addrs NDIRECT)) (4 * (k - NDIRECT)) 4 x)) (hm : m ≤ MAXFILE) :
    t.slot d m = if m = k then x else s.slot d m := by
  by_cases hm' : m < NDIRECT
  · rw [slot_direct hm', slot_direct hm', if_neg (by lia)]
  · by_cases hmax : m = MAXFILE
    · subst hmax
      rw [slot_max, slot_max, if_neg (by lia)]
    · rw [slot_entry hm' (by lia) hind, hblock, update_self, wordAt]
      split
      next h =>
        rw [h, Bytes.loadLE_storeLE]
        exact Nat.mod_eq_of_lt hlt
      next h =>
        rw [Bytes.loadLE_storeLE_outside (by lia), slot_entry hm' (by lia) hind, wordAt,
          allocated_block_ne (hB.indirect_ne hx hind)]

/-- From `s` to `s'` the inode may have got new blocks, which were free; its size and what other blocks in use hold have stayed. -/
structure Extends (i : Fin NINODE) (s s' : State n) : Prop where
  grows : ∀ k ≤ MAXFILE, s.slot (s.itable i).d k ≠ 0 → s'.slot (s'.itable i).d k = s.slot (s.itable i).d k
  others : ∀ b ≠ 0, s.bitmap b = true → (∀ k ≤ MAXFILE, s.slot (s.itable i).d k ≠ b) →
    s'.block b = s.block b ∧ s'.bitmap b = true ∧ ∀ k ≤ MAXFILE, s'.slot (s'.itable i).d k ≠ b
  used : ∀ b, s.bitmap b = true → s'.bitmap b = true
  same : ∃ a bits blocks, s' = { s with
    itable := update s.itable i { s.itable i with d := { (s.itable i).d with addrs := a } }, bitmap := bits, block := blocks }

theorem Extends.refl : Extends i s s :=
  ⟨fun _ _ _ => rfl, fun _ _ hb hs => ⟨rfl, hb, hs⟩, fun _ hb => hb, (s.itable i).d.addrs, s.bitmap, s.block, by rw [update_eq_self]⟩

theorem Extends.trans (h : Extends i s t) (h' : Extends i t s') : Extends i s s' := by
  refine ⟨fun k hk h0 => ?_, fun b hb0 hb hs => ?_, fun b hb => h'.used b (h.used b hb), ?_⟩
  · have ht := h.grows k hk h0
    rw [h'.grows k hk (by rw [ht]; exact h0), ht]
  · obtain ⟨h1, h2, h3⟩ := h.others b hb0 hb hs
    obtain ⟨h1', h2', h3'⟩ := h'.others b hb0 h2 h3
    exact ⟨h1'.trans h1, h2', h3'⟩
  · obtain ⟨a, bits, blocks, rfl⟩ := h.same
    obtain ⟨a', bits', blocks', rfl⟩ := h'.same
    refine ⟨a', bits', blocks', ?_⟩
    dsimp only
    rw [update_self, Function.update_idem]

theorem Extends.entry (h : Extends i s s') : ∃ a, s'.itable i = { s.itable i with d := { (s.itable i).d with addrs := a } } := by
  obtain ⟨a, bits, blocks, rfl⟩ := h.same
  exact ⟨a, update_self ..⟩

theorem Extends.attach (hx : s.bitmap x = false) (hx0 : x ≠ 0) (h0 : s.slot (s.itable i).d k = 0)
    (hslot : ∀ j ≤ MAXFILE, t.slot (t.itable i).d j = if j = k then x else s.slot (s.itable i).d j)
    (hbit : t.bitmap = update s.bitmap x true)
    (hblock : ∀ b, b ≠ t.slot (t.itable i).d MAXFILE → t.block b = (s.allocated x).block b)
    (hsame : ∃ a bits blocks, t = { s with
      itable := update s.itable i { s.itable i with d := { (s.itable i).d with addrs := a } }, bitmap := bits, block := blocks }) :
    Extends i s t := by
  refine ⟨fun j hj hne => ?_, fun b _ hb hs => ?_, fun b hb => ?_, hsame⟩
  · rw [hslot j hj, if_neg]
    rintro rfl
    exact hne h0
  · have hbx : b ≠ x := by
      rintro rfl
      rw [hb] at hx
      cases hx
    have hts : ∀ j ≤ MAXFILE, t.slot (t.itable i).d j ≠ b := by
      intro j hj
      rw [hslot j hj]
      split
      · exact Ne.symm hbx
      · exact hs j hj
    refine ⟨?_, ?_, hts⟩
    · rw [hblock b (Ne.symm (hts MAXFILE le_rfl)), allocated_block_ne hbx]
    · rw [hbit, update_of_ne hbx]
      exact hb
  · rw [hbit, Function.update_apply]
    split
    · rfl
    · exact hb

theorem Extends.allocated (hB : Blocks s (s.itable i).d) (hx : s.bitmap x = false) : Extends i s (s.allocated x) := by
  have hslot : ∀ k, (s.allocated x).slot (s.itable i).d k = s.slot (s.itable i).d k := fun k =>
    slot_congr fun h => allocated_block_ne (hB.indirect_ne hx h)
  have hne : ∀ b, s.bitmap b = true → b ≠ x := by
    rintro b hb rfl
    rw [hb] at hx
    cases hx
  refine ⟨fun k _ _ => hslot k, fun b _ hb hs => ?_, fun b hb => (update_of_ne (hne b hb) _ _).trans hb,
    (s.itable i).d.addrs, _, _, by rw [update_eq_self]; rfl⟩
  have hbx := hne b hb
  refine ⟨allocated_block_ne hbx, (update_of_ne hbx _ _).trans hb, fun k hk => ?_⟩
  change (s.allocated x).slot (s.itable i).d k ≠ b
  rw [hslot]
  exact hs k hk

theorem addr_eval (hB : Blocks s (s.itable i).d) (hj : j ≤ NDIRECT) (g : Nat → FsM n Nat) :
    ∃ s' x, (if (s.itable i).d.addrs j = 0 then do
        let addr ← balloc
        if addr = 0 then g 0
        else
          store i (Dinode.setAddr j addr)
          g addr
      else g ((s.itable i).d.addrs j) : FsM n Nat).eval s = (g x).eval s' ∧
      Writes i s s' (s.byte (s.itable i).d) ∧ x = (s'.itable i).d.addrs j ∧ Extends i s s' ∧
      (s.bitmap 0 = true → x = 0 → s'.Full) ∧
      (x = 0 ∨ j = NDIRECT → ∀ m < MAXFILE, s'.slot (s'.itable i).d m = s.slot (s.itable i).d m) := by
  by_cases h0 : (s.itable i).d.addrs j = 0
  · rw [if_pos h0]
    obtain ⟨s1, x, hrun, ⟨rfl, rfl, hfull⟩ | ⟨hx, -, rfl⟩⟩ := balloc_eval s
    · rw [eval_bind hrun]
      exact ⟨s1, 0, rfl, Writes.refl hB, h0.symm, .refl, fun _ _ => hfull, fun _ _ _ => rfl⟩
    · rw [eval_bind hrun]
      by_cases hx0 : x = 0
      · subst hx0
        exact ⟨_, 0, rfl, Writes.allocated hB hx, h0.symm, .allocated hB hx, fun hboot _ => absurd (hboot.symm.trans hx) (by decide),
          fun _ _ _ => slot_congr fun h => allocated_block_ne (hB.indirect_ne hx h)⟩
      · rw [if_neg hx0]
        set t := (s.allocated x).setInode i { s.itable i with d := (s.itable i).d.setAddr j x } with ht
        have hd : (t.itable i).d = (s.itable i).d.setAddr j x := by rw [ht, setInode_self]
        have hslot : ∀ m ≤ MAXFILE, t.slot (t.itable i).d m = if m = placeOf j then x else s.slot (s.itable i).d m :=
          fun m hm => by rw [hd]; exact slot_setAddr hB hx hx0 hj h0 rfl hm
        have h0' : s.slot (s.itable i).d (placeOf j) = 0 := by rw [slot_placeOf hj, h0]
        obtain ⟨hB', hbyte⟩ := hB.attach (t := t) hx hx0 h0' hslot rfl (fun _ _ => rfl) (by rw [hd]; rfl) rfl
        refine ⟨t, x, rfl, ⟨⟨rfl, rfl, rfl, _, setInode_self⟩, by rw [hd]; rfl, hB', hbyte⟩, ?_,
          .attach hx hx0 h0' hslot rfl (fun _ _ => rfl) ⟨_, _, _, rfl⟩, fun _ hc => absurd hc hx0, ?_⟩
        · rw [hd, setAddr_addrs, if_pos rfl]
        · rintro (hc | rfl) m hm
          · exact absurd hc hx0
          · rw [hslot m hm.le, if_neg]
            rw [placeOf, if_pos rfl]
            exact Nat.ne_of_lt hm
  · rw [if_neg h0]
    exact ⟨s, _, rfl, Writes.refl hB, rfl, .refl, fun _ hc => absurd hc h0, fun _ _ _ => rfl⟩

/-- The last part of `bmap`: the entry of the indirect block `ind` for block `k`, or a new block in this place. -/
def entryOf (ind k : Nat) : FsM n Nat :=
  if ind = 0 then pure 0
  else do
    let addr ← look fun s => wordAt (s.block ind) (k - NDIRECT)
    if addr = 0 then
      let addr ← balloc
      if addr = 0 then return 0
      else
        change fun s =>
          { s with block := update s.block ind (storeLE (s.block ind) (4 * (k - NDIRECT)) 4 addr) }
        return addr
    else return addr

theorem entryOf_eval (hB : Blocks s (s.itable i).d) (hind : ind = (s.itable i).d.addrs NDIRECT) (hne : ind ≠ 0)
    (hk : ¬k < NDIRECT) (hk' : k < MAXFILE) :
    ∃ s' x, (entryOf ind k).eval s = .ok (s', x) ∧ Writes i s s' (s.byte (s.itable i).d) ∧ x = s'.slot (s'.itable i).d k ∧
      Extends i s s' ∧ (s.bitmap 0 = true → x = 0 → s'.Full) ∧
      (x = 0 → ∀ m < MAXFILE, s'.slot (s'.itable i).d m = s.slot (s.itable i).d m) := by
  subst hind
  unfold entryOf
  rw [if_neg hne, eval_bind (t := s) (a := wordAt (s.block ((s.itable i).d.addrs NDIRECT)) (k - NDIRECT)) rfl]
  have hslot := slot_entry (s := s) hk hk' hne
  rw [← hslot]
  by_cases h0 : s.slot (s.itable i).d k = 0
  · rw [if_pos h0]
    obtain ⟨s1, x, hrun, ⟨rfl, rfl, hfull⟩ | ⟨hx, hlt, rfl⟩⟩ := balloc_eval s
    · rw [eval_bind hrun]
      exact ⟨s1, 0, rfl, Writes.refl hB, h0.symm, .refl, fun _ _ => hfull, fun _ _ _ => rfl⟩
    · rw [eval_bind hrun]
      by_cases hx0 : x = 0
      · subst hx0
        have hslot : ∀ m, (s.allocated 0).slot (s.itable i).d m = s.slot (s.itable i).d m := fun m =>
          slot_congr fun h => allocated_block_ne (hB.indirect_ne hx h)
        exact ⟨_, 0, rfl, Writes.allocated hB hx, h0.symm.trans (hslot k).symm, .allocated hB hx,
          fun hboot _ => absurd (hboot.symm.trans hx) (by decide), fun _ m _ => hslot m⟩
      · rw [if_neg hx0]
        have hlt' : x < 2 ^ 32 := lt_of_lt_of_le hlt hB.disk
        set t := (s.allocated x).setBlock ((s.itable i).d.addrs NDIRECT)
          (storeLE ((s.allocated x).block ((s.itable i).d.addrs NDIRECT)) (4 * (k - NDIRECT)) 4 x)
        have hslot : ∀ m ≤ MAXFILE, t.slot (t.itable i).d m = if m = k then x else s.slot (s.itable i).d m :=
          fun m hm => slot_setEntry hB hx hlt' hk hk' hne rfl hm
        have hblock : ∀ b, b ≠ t.slot (t.itable i).d MAXFILE → t.block b = (s.allocated x).block b := fun b hb => setBlock_ne hb
        obtain ⟨hB', hbyte⟩ := hB.attach (t := t) hx hx0 h0 hslot rfl hblock rfl rfl
        refine ⟨t, x, rfl, ⟨⟨rfl, rfl, rfl, _, rfl⟩, rfl, hB', hbyte⟩, ?_,
          .attach hx hx0 h0 hslot rfl hblock ⟨(s.itable i).d.addrs, _, _, by rw [update_eq_self]; rfl⟩,
          fun _ hc => absurd hc hx0, fun hc => absurd hc hx0⟩
        rw [hslot k hk'.le, if_pos rfl]
  · rw [if_neg h0]
    exact ⟨s, _, rfl, Writes.refl hB, rfl, .refl, fun _ hc => absurd hc h0, fun hc => absurd hc h0⟩

/-- `bmap` leaves the contents of the file alone; its result is 0 only if the file has no such block and none is free, and then the file
has got an indirect block at most. -/
theorem bmap_eval_any (hB : Blocks s (s.itable i).d) (hk : k < MAXFILE) :
    ∃ s' x, (bmap i k).eval s = .ok (s', x) ∧ Writes i s s' (s.byte (s.itable i).d) ∧ x = s'.slot (s'.itable i).d k ∧
      Extends i s s' ∧ (s.bitmap 0 = true → x = 0 → s'.Full) ∧
      (x = 0 → ∀ m < MAXFILE, s'.slot (s'.itable i).d m = s.slot (s.itable i).d m) := by
  unfold bmap
  by_cases hdir : k < NDIRECT
  · rw [if_pos hdir, eval_bind (t := s) (a := (s.itable i).d) rfl]
    obtain ⟨s', x, hrun, hw, hx, hext, hfull, hslot⟩ := addr_eval hB hdir.le pure
    exact ⟨s', x, hrun, hw, by rw [slot_direct hdir, hx], hext, hfull, fun hx0 => hslot (.inl hx0)⟩
  · rw [if_neg hdir, if_pos (by lia), eval_bind (t := s) (a := (s.itable i).d) rfl]
    obtain ⟨s1, ind, hrun, hw, hind, hext, hfull, hslot⟩ := addr_eval hB (j := NDIRECT) le_rfl (entryOf · k)
    by_cases h0 : ind = 0
    · refine ⟨s1, 0, hrun.trans ?_, hw, (slot_no_indirect hdir (hind.symm.trans h0)).symm, hext, fun hboot _ => hfull hboot h0,
        fun _ => hslot (.inr rfl)⟩
      rw [entryOf, if_pos h0, eval_pure]
    · obtain ⟨s2, x, hrun2, hw2, hx, hext2, hfull2, hslot2⟩ := entryOf_eval hw.blocks hind h0 hdir hk
      exact ⟨s2, x, hrun.trans hrun2, hw.trans (hw2.congr hw.byte), hx, hext.trans hext2, fun hboot => hfull2 (hext.used 0 hboot),
        fun hx0 m hm => (hslot2 hx0 m hm).trans (hslot (.inr rfl) m hm)⟩

/-! ### `writei` -/

theorem copied_spec (src : Nat → Option UInt8) : ∀ m t, copied src t m ≤ m ∧ (∀ k < copied src t m, (src (t + k)).isSome) ∧
    (copied src t m < m → src (t + copied src t m) = none)
  | 0, _ => ⟨le_rfl, fun k hk => absurd hk (Nat.not_lt_zero k), fun h => absurd h (Nat.not_lt_zero 0)⟩
  | m + 1, t => by
    obtain ⟨h1, h2, h3⟩ := copied_spec src m (t + 1)
    unfold copied
    split
    next ht =>
      refine ⟨Nat.succ_le_succ h1, fun k hk => ?_, fun h => ?_⟩
      · rcases k with _ | k
        · exact ht
        · rw [show t + (k + 1) = t + 1 + k by omega]
          exact h2 k (by omega)
      · rw [show t + (copied src (t + 1) m + 1) = t + 1 + copied src (t + 1) m by omega]
        exact h3 (by omega)
    next ht =>
      exact ⟨Nat.zero_le _, fun k hk => absurd hk (Nat.not_lt_zero k), fun _ => Option.not_isSome_iff_eq_none.1 ht⟩

theorem Writes.block (src : Nat → UInt8) (hB : Blocks s (s.itable i).d) (hlt : off < MAXFILE * BSIZE)
    (hm : off % BSIZE + m ≤ BSIZE) (hx : x = s.slot (s.itable i).d (off / BSIZE)) (hx0 : x ≠ 0) :
    Writes i s (s.setBlock x (write (s.block x) (off % BSIZE) m src))
      fun a => if off ≤ a ∧ a < off + m then src (a - off) else s.byte (s.itable i).d a := by
  have hk : off / BSIZE < MAXFILE := by lia
  have hne : ∀ k ≤ MAXFILE, k ≠ off / BSIZE → s.slot (s.itable i).d k ≠ 0 → s.slot (s.itable i).d k ≠ x := by
    intro k hk' hkne h0 he
    exact hkne (hB.inj k hk' _ hk.le h0 (he.trans hx))
  have hslot : ∀ k, (s.setBlock x (write (s.block x) (off % BSIZE) m src)).slot (s.itable i).d k =
      s.slot (s.itable i).d k := fun k => slot_congr fun h => setBlock_ne (hne MAXFILE le_rfl (by lia) h)
  have hitable : (s.setBlock x (write (s.block x) (off % BSIZE) m src)).itable = s.itable := rfl
  refine ⟨⟨rfl, rfl, rfl, _, rfl⟩, rfl, ⟨fun k hk' => ?_, fun k hk' k' hk'' => ?_, hB.size, hB.disk⟩, fun a ha => ?_⟩
  · rw [hitable, hslot]
    exact hB.used k hk'
  · rw [hitable, hslot, hslot]
    exact hB.inj k hk' k' hk''
  · unfold State.byte
    rw [hitable, hslot]
    by_cases hak : a / BSIZE = off / BSIZE
    · rw [hak, ← hx, if_neg hx0, if_neg hx0, setBlock_self]
      by_cases hin : off ≤ a ∧ a < off + m
      · rw [if_pos hin, Bytes.write_inside (by lia) (by lia)]
        congr 1
        lia
      · rw [if_neg hin, Bytes.write_outside (by lia)]
    · have hout : ¬(off ≤ a ∧ a < off + m) := by lia
      rw [if_neg hout]
      by_cases h0 : s.slot (s.itable i).d (a / BSIZE) = 0
      · rw [if_pos h0, if_pos h0]
      · rw [if_neg h0, if_neg h0, setBlock_ne (hne _ (by lia) hak h0)]

theorem Extends.block {v : Mem} (hB : Blocks s (s.itable i).d) (hk : k < MAXFILE)
    (hx : x = s.slot (s.itable i).d k) : Extends i s (s.setBlock x v) := by
  have hslot : ∀ j, (s.setBlock x v).slot (s.itable i).d j = s.slot (s.itable i).d j := fun j =>
    slot_congr fun h => setBlock_ne fun he => Nat.ne_of_gt hk (hB.inj MAXFILE le_rfl k hk.le h (he.trans hx))
  refine ⟨fun j _ _ => hslot j, fun b _ hb hs => ⟨setBlock_ne ?_, hb, fun j hj => ?_⟩, fun _ hb => hb, (s.itable i).d.addrs, s.bitmap, _,
    by rw [update_eq_self]; rfl⟩
  · rw [hx]
    exact Ne.symm (hs k hk.le)
  · change (s.setBlock x v).slot (s.itable i).d j ≠ b
    rw [hslot]
    exact hs j hj

/-- From `s` to `s'` the `m` bytes of the source from `tot` on have been written at `off`. If then a byte could not be read, `c` more
bytes of the same block were written before. -/
structure Stored (i : Fin NINODE) (src : Nat → Option UInt8) (len off tot : Nat) (s s' : State n) (m c : Nat) : Prop where
  le : tot + m + c ≤ len
  writes : Writes i s s' fun a => if off ≤ a ∧ a < off + (m + c) then (src (tot + (a - off))).getD 0 else s.byte (s.itable i).d a
  ext : Extends i s s'
  filled : ∀ k < MAXFILE, off / BSIZE ≤ k → k * BSIZE < off + m → 0 < m → s'.slot (s'.itable i).d k ≠ 0
  readable : ∀ k < m + c, (src (tot + k)).isSome
  stop : c = 0 ∨ tot + m + c < len ∧ src (tot + m + c) = none ∧ (off + m) % BSIZE + c < BSIZE ∧ (m = 0 ∨ (off + m) % BSIZE = 0)

theorem Stored.none (hw : Writes i s s' (s.byte (s.itable i).d)) (hext : Extends i s s')
    (htot : tot ≤ len) : Stored i src len off tot s s' 0 0 where
  le := htot
  writes := hw.congr fun a _ => by rw [if_neg (by omega)]
  ext := hext
  filled k _ _ _ h0 := absurd h0 (Nat.lt_irrefl 0)
  readable k hk := absurd hk (Nat.not_lt_zero k)
  stop := Or.inl rfl

theorem Stored.cons (hw : Writes i s s1 (s.byte (s.itable i).d))
    (hext : Extends i s s1) (hx : x = s1.slot (s1.itable i).d (off / BSIZE)) (hx0 : x ≠ 0) (hlt : off < MAXFILE * BSIZE)
    (hm : off % BSIZE + m ≤ BSIZE) (hmod : tot + m < len → (off + m) % BSIZE = 0) (hread : ∀ k < m, (src (tot + k)).isSome)
    (hs2 : s2 = s1.setBlock x (write (s1.block x) (off % BSIZE) m fun k => (src (tot + k)).getD 0))
    (h : Stored i src len (off + m) (tot + m) s2 s' m' c) : Stored i src len off tot s s' (m + m') c := by
  have hk : off / BSIZE < MAXFILE := by lia
  have hw' := Writes.block (fun k => (src (tot + k)).getD 0) hw.blocks hlt hm hx hx0
  have hext' := Extends.block (v := write (s1.block x) (off % BSIZE) m fun k => (src (tot + k)).getD 0) hw.blocks hk hx
  rw [← hs2] at hw' hext'
  refine ⟨by have := h.le; omega, (hw.trans (hw'.trans h.writes)).congr fun a ha => ?_, hext.trans (hext'.trans h.ext), fun k hkm h1 h2 _ => ?_,
    fun k hk' => ?_, ?_⟩
  · by_cases h1 : off + m ≤ a ∧ a < off + m + (m' + c)
    · rw [if_pos h1, if_pos (by omega), show tot + m + (a - (off + m)) = tot + (a - off) by omega]
    · rw [if_neg h1, hw'.byte a ha]
      by_cases h2 : off ≤ a ∧ a < off + m
      · rw [if_pos h2, if_pos (by omega)]
      · rw [if_neg h2, if_neg (by omega), hw.byte a ha]
  · by_cases hkoff : k = off / BSIZE
    · subst hkoff
      have hne : s1.slot (s1.itable i).d (off / BSIZE) ≠ 0 := by rw [← hx]; exact hx0
      rw [(hext'.trans h.ext).grows _ hk.le hne]
      exact hne
    · refine h.filled k hkm ?_ ?_ ?_ <;> simp only [BSIZE] at * <;> omega
  · by_cases hkm : k < m
    · exact hread k hkm
    · obtain ⟨j, rfl⟩ := Nat.exists_eq_add_of_le (Nat.le_of_not_lt hkm)
      rw [← Nat.add_assoc]
      exact h.readable j (by omega)
  · rcases h.stop with h0 | ⟨h1, h2, h3, h4⟩
    · exact .inl h0
    · refine .inr ⟨by omega, by rw [← h2]; congr 1; omega, by rw [← Nat.add_assoc]; exact h3, .inr ?_⟩
      rw [← Nat.add_assoc]
      rcases h4 with rfl | h4
      · exact hmod (by omega)
      · exact h4

/-- Why the loop has stopped before the end with nothing copied from there on: at the start or at the start of a block, the next byte
cannot be read or the file has no block for it. -/
def Starved (i : Fin NINODE) (src : Nat → Option UInt8) (off tot : Nat) (s : State n) (m : Nat) : Prop :=
  (m = 0 ∨ (off + m) % BSIZE = 0) ∧ (src (tot + m) = none ∨ s.slot (s.itable i).d ((off + m) / BSIZE) = 0)

theorem Extends.slot_zero (h : Extends i s s') (hk : k ≤ MAXFILE) (h0 : s'.slot (s'.itable i).d k = 0) : s.slot (s.itable i).d k = 0 := by
  by_contra hne
  exact hne (h.grows k hk hne ▸ h0)

theorem writeiLoop_eval (src : Nat → Option UInt8) : ∀ (fuel off tot : Nat) {s : State n}, Blocks s (s.itable i).d →
    tot ≤ len → off + (len - tot) ≤ MAXFILE * BSIZE →
    ∃ s' m c, (writeiLoop i src len fuel off tot).eval s = .ok (s', (tot + m, off + m)) ∧ Stored i src len off tot s s' m c ∧
      (s.bitmap 0 = true → len - tot ≤ fuel → (∀ k < len, (src k).isSome) → tot + m < len → s'.Full) ∧
      (len - tot ≤ fuel → tot + m < len → c = 0 → Starved i src off tot s m) := by
  intro fuel
  induction fuel with
  | zero =>
    intro off tot s hB htot _
    exact ⟨_, 0, 0, rfl, .none (Writes.refl hB) .refl htot, fun _ _ _ _ => by omega, fun _ _ => by omega⟩
  | succ fuel ih =>
    intro off tot s hB htot hfit
    unfold writeiLoop
    by_cases hlt : tot < len
    · have hoff : off < MAXFILE * BSIZE := by omega
      obtain ⟨s1, x, hrun, hw, hx, hext, hfull, -⟩ := bmap_eval_any hB (k := off / BSIZE) (by lia)
      rw [if_pos hlt, eval_bind hrun]
      by_cases hx0 : x = 0
      · rw [if_pos hx0]
        exact ⟨s1, 0, 0, rfl, .none hw hext htot, fun hboot _ _ _ => hfull hboot hx0, fun _ _ _ =>
          ⟨.inl rfl, .inr (hext.slot_zero (by lia) (hx ▸ hx0))⟩⟩
      · rw [if_neg hx0]
        generalize hm : min (len - tot) (BSIZE - off % BSIZE) = m
        have hmod : off % BSIZE < BSIZE := Nat.mod_lt _ (by decide)
        obtain ⟨hc1, hc2, hc3⟩ := copied_spec src m tot
        set s2 := s1.setBlock x (write (s1.block x) (off % BSIZE) (copied src tot m) fun k => (src (tot + k)).getD 0) with hs2
        rw [eval_bind (t := s2) (a := ()) rfl]
        by_cases hall : copied src tot m = m
        · rw [if_pos hall]
          rw [hall] at hs2 hc2
          have hB2 : Blocks s2 (s2.itable i).d := by
            rw [hs2]
            exact (Writes.block _ hw.blocks hoff (by omega) hx hx0).blocks
          obtain ⟨s3, m', c, hrun3, hst, hfull3, hstop⟩ := ih (off + m) (tot + m) hB2 (by omega) (by omega)
          have hnext : tot + m < len → (off + m) % BSIZE = 0 := by
            simp only [BSIZE] at *
            omega
          refine ⟨s3, m + m', c, ?_, .cons hw hext hx hx0 hoff (by omega) hnext hc2 hs2 hst, fun hboot hfuel hsrc hlt' => ?_,
            fun hfuel hlt' hc => ?_⟩
          · rw [hrun3, Nat.add_assoc, Nat.add_assoc]
          · refine hfull3 ?_ (by omega) hsrc (by omega)
            rw [hs2]
            exact hext.used 0 hboot
          · have hext2 : Extends i s1 s2 := by
              rw [hs2]
              exact Extends.block hw.blocks (show off / BSIZE < MAXFILE by lia) hx
            obtain ⟨hm', hwhy⟩ := hstop (by omega) (by omega) hc
            unfold Starved
            rw [← Nat.add_assoc, ← Nat.add_assoc]
            refine ⟨.inr ?_, hwhy.imp_right ((hext.trans hext2).slot_zero (by lia))⟩
            rcases hm' with rfl | hm'
            · exact hnext (by omega)
            · exact hm'
        · rw [if_neg hall]
          -- the part of the block that could be read stays written
          have hfail := hc3 (lt_of_le_of_ne hc1 hall)
          clear_value s2
          generalize copied src tot m = c at *
          have hw2 := Writes.block (fun k => (src (tot + k)).getD 0) (m := c) hw.blocks hoff (by omega) hx hx0
          have hext2 := Extends.block (v := write (s1.block x) (off % BSIZE) c fun k => (src (tot + k)).getD 0)
            hw.blocks (show off / BSIZE < MAXFILE by lia) hx
          rw [← hs2] at hw2 hext2
          refine ⟨s2, 0, c, rfl, ⟨by omega, (hw.trans hw2).congr fun a ha => ?_, hext.trans hext2,
            fun k _ _ _ h0 => absurd h0 (Nat.lt_irrefl 0), ?_, ?_⟩, fun _ _ hsrc _ => ?_, fun _ _ hc => ?_⟩
          · rw [Nat.zero_add]
            split
            · rfl
            · exact hw.byte a ha
          · rw [Nat.zero_add]
            exact hc2
          · exact .inr ⟨by omega, hfail, by rw [Nat.add_zero]; omega, .inl rfl⟩
          · have := hsrc (tot + c) (by omega)
            rw [hfail] at this
            cases this
          · exact ⟨.inl rfl, .inl (hc ▸ hfail)⟩
    · rw [if_neg hlt]
      exact ⟨s, 0, 0, rfl, .none (Writes.refl hB) .refl htot, fun _ _ _ h => absurd h hlt, fun _ h => absurd h hlt⟩

def State.contents (s : State n) (d : Dinode) : List UInt8 := (List.range d.size).map (s.byte d)

/-- From `s` to `s'` the first `m` bytes of the buffer have been appended to the file. -/
structure Appends (i : Fin NINODE) (s s' : State n) (buf : Nat → UInt8) (m : Nat) : Prop extends Inside i s s' where
  blocks : Blocks s' (s'.itable i).d
  size : (s'.itable i).d.size = (s.itable i).d.size + m
  contents : s'.contents (s'.itable i).d = s.contents (s.itable i).d ++ (List.range m).map buf

theorem contents_append (hsize : e.size = d.size + m)
    (hbyte : ∀ a < d.size + m, t.byte e a = if d.size ≤ a ∧ a < d.size + m then buf (a - d.size) else s.byte d a) :
    t.contents e = s.contents d ++ (List.range m).map buf := by
  rw [State.contents, State.contents, hsize, List.range_add, List.map_append, List.map_map]
  congr 1
  · refine List.map_congr_left fun a ha => ?_
    have ha := List.mem_range.1 ha
    rw [hbyte a (by omega), if_neg (by omega)]
  · refine List.map_congr_left fun a ha => ?_
    have ha := List.mem_range.1 ha
    rw [Function.comp_apply, hbyte _ (by omega), if_pos (by omega), Nat.add_sub_cancel_left]

structure WroteAt (i : Fin NINODE) (src : Nat → Option UInt8) (off len : Nat) (s s' : State n) (m c : Nat) : Prop where
  le : m + c ≤ len
  readable : ∀ k < m + c, (src k).isSome
  stop : c = 0 ∨ m + c < len ∧ src (m + c) = none ∧ (off + m) % BSIZE + c < BSIZE ∧ (m = 0 ∨ (off + m) % BSIZE = 0)
  size : (s'.itable i).d.size = max (s.itable i).d.size (off + m)
  blocks : Blocks s' (s'.itable i).d
  byte : ∀ a < MAXFILE * BSIZE, s'.byte (s'.itable i).d a =
    if off ≤ a ∧ a < off + (m + c) then (src (a - off)).getD 0 else s.byte (s.itable i).d a
  filled : ∀ k < MAXFILE, off / BSIZE ≤ k → k * BSIZE < off + m → 0 < m → s'.slot (s'.itable i).d k ≠ 0
  grows : ∀ k ≤ MAXFILE, s.slot (s.itable i).d k ≠ 0 → s'.slot (s'.itable i).d k = s.slot (s.itable i).d k
  others : ∀ b ≠ 0, s.bitmap b = true → (∀ k ≤ MAXFILE, s.slot (s.itable i).d k ≠ b) →
    s'.block b = s.block b ∧ s'.bitmap b = true ∧ ∀ k ≤ MAXFILE, s'.slot (s'.itable i).d k ≠ b
  used : ∀ b, s.bitmap b = true → s'.bitmap b = true
  same : ∃ a bits blocks, let d := { (s.itable i).d with addrs := a, size := max (s.itable i).d.size (off + m) }
    s' = { s with
      itable := update s.itable i { s.itable i with d := d }, dinode := update s.dinode (s.itable i).inum d
      bitmap := bits, block := blocks }

/-- The offset and the length are out of range for a file of the given size. -/
def OutOfRange (size off len : Nat) : Prop := off > size ∨ (off + len) % 2 ^ 32 < off ∨ (off + len) % 2 ^ 32 > MAXFILE * BSIZE

theorem Stored.finish (h : Stored i src len off 0 s t m c)
    (hfit : off + len ≤ MAXFILE * BSIZE) (he : e = { (t.itable i).d with size := if off + m > (t.itable i).d.size then off + m else (t.itable i).d.size })
    (hs' : s' = { t.setInode i { t.itable i with d := e } with
      dinode := update t.dinode (s.itable i).inum e }) : WroteAt i src off len s s' m c := by
  have hle := h.le
  have hi : s'.itable i = { t.itable i with d := e } := by
    rw [hs']
    exact setInode_self
  have hesize : e.size = max (s.itable i).d.size (off + m) := by
    have := h.writes.size
    rw [he]
    change (if off + m > (t.itable i).d.size then off + m else (t.itable i).d.size) = _
    split <;> omega
  have hslot : ∀ k, s'.slot e k = t.slot (t.itable i).d k := fun k => by
    rw [hs', he]
    rfl
  have hdi : (s'.itable i).d = e := by rw [hi]
  refine ⟨by omega, fun k hk => ?_, ?_, by rw [hdi, hesize], ?_, fun a ha => ?_, fun k hk h1 h2 hm => ?_, fun k hk h0 => ?_,
    fun b hb0 hb hs => ?_, fun b hb => by rw [hs']; exact h.ext.used b hb, ?_⟩
  · have := h.readable k hk
    rwa [Nat.zero_add] at this
  · have := h.stop
    rwa [Nat.zero_add] at this
  · rw [hdi]
    refine ⟨fun k hk => ?_, fun k hk k' hk' => ?_, ?_, ?_⟩
    · rw [hslot, hs']
      exact h.writes.blocks.used k hk
    · rw [hslot, hslot]
      exact h.writes.blocks.inj k hk k' hk'
    · have h1 := h.writes.blocks.size
      rw [h.writes.size] at h1
      rw [hesize]
      omega
    · rw [hs']
      exact h.writes.blocks.disk
  · have hbyte := h.writes.byte a ha
    rw [Nat.zero_add] at hbyte
    rw [hdi, ← hbyte, hs', he]
    rfl
  · rw [hdi, hslot]
    exact h.filled k hk h1 h2 hm
  · rw [hdi, hslot]
    exact h.ext.grows k hk h0
  · obtain ⟨h1, h2, h3⟩ := h.ext.others b hb0 hb hs
    refine ⟨by rw [hs']; exact h1, by rw [hs']; exact h2, fun k hk => ?_⟩
    rw [hdi, hslot]
    exact h3 k hk
  · obtain ⟨a, bits, blocks, ht⟩ := h.ext.same
    have hti : t.itable i = { s.itable i with d := { (s.itable i).d with addrs := a } } := by
      rw [ht]
      exact update_self ..
    have hmax : e = { (s.itable i).d with addrs := a, size := max (s.itable i).d.size (off + m) } := by
      have h1 : e = { (t.itable i).d with size := e.size } := by rw [he]
      rw [h1, hesize, hti]
    refine ⟨a, bits, blocks, ?_⟩
    rw [hs', hti, hmax, ht]
    dsimp only [State.setInode]
    rw [Function.update_idem]

theorem store_iupdate_eval {α : Type} (s : State n) (i : Fin NINODE) (f : Dinode → Dinode) (g : FsM n α) :
    (do
      store i f
      iupdate i
      g : FsM n α).eval s = g.eval { s.setInode i { s.itable i with d := f (s.itable i).d } with
        dinode := update s.dinode (s.itable i).inum (f (s.itable i).d) } := by
  set y := { s.itable i with d := f (s.itable i).d } with hy
  have hself : (s.setInode i y).itable i = y := setInode_self
  have hup : (iupdate i).eval (s.setInode i y) = .ok ({ s.setInode i y with
      dinode := update s.dinode ((s.setInode i y).itable i).inum ((s.setInode i y).itable i).d }, ()) := rfl
  rw [hself] at hup
  rw [eval_bind (t := s.setInode i y) (a := ()) rfl, eval_bind hup]

theorem writei_spec (src : Nat → Option UInt8) (off : Nat) (hB : Blocks s (s.itable i).d) (hlen : len < 2 ^ 32) :
    (OutOfRange (s.itable i).d.size off len ∧ (writei i src off len).eval s = .ok (s, -1)) ∨
    ¬OutOfRange (s.itable i).d.size off len ∧ off + len ≤ MAXFILE * BSIZE ∧
      ∃ s', ∃ m c : Nat, (writei i src off len).eval s = .ok (s', (m : Int)) ∧ WroteAt i src off len s s' m c ∧
        (s.bitmap 0 = true → (∀ k < len, (src k).isSome) → m < len → s'.Full) ∧ (m < len → c = 0 → Starved i src off 0 s m) := by
  unfold OutOfRange writei
  rw [eval_bind (t := s) (a := (s.itable i).d) rfl]
  by_cases hover : off > (s.itable i).d.size ∨ (off + len) % 2 ^ 32 < off
  · rw [if_pos hover]
    exact .inl ⟨by tauto, rfl⟩
  · rw [if_neg hover]
    by_cases hbig : (off + len) % 2 ^ 32 > MAXFILE * BSIZE
    · rw [if_pos hbig]
      exact .inl ⟨by tauto, rfl⟩
    · rw [if_neg hbig]
      have hfit : off + len ≤ MAXFILE * BSIZE := by lia
      obtain ⟨s1, m, c, hrun, hst, hfull, hstop⟩ := writeiLoop_eval src len off 0 hB (Nat.zero_le len) (show off + (len - 0) ≤ MAXFILE * BSIZE by lia)
      refine .inr ⟨by tauto, hfit, ?_⟩
      obtain ⟨a, ha⟩ := hst.ext.entry
      have hinum : (s1.itable i).inum = (s.itable i).inum := by rw [ha]
      have hend := store_iupdate_eval s1 i (fun d => { d with size := if off + m > d.size then off + m else d.size }) (pure (m : Int))
      rw [hinum] at hend
      rw [eval_bind hrun, Nat.zero_add]
      exact ⟨_, m, c, hend, hst.finish hfit rfl rfl, fun hboot hsrc hm => hfull hboot le_rfl hsrc (by omega),
        fun hm => hstop le_rfl (by omega)⟩

theorem writei_eval (buf : Nat → UInt8) (hB : Blocks s (s.itable i).d) (hlen : len < 2 ^ 31) :
    ∃ s' r, (writei i (fun k => some (buf k)) (s.itable i).d.size len).eval s = .ok (s', r) ∧ r ≤ len ∧
      Appends i s s' buf r.toNat := by
  rcases writei_spec (fun k => some (buf k)) (s.itable i).d.size hB (show len < 2 ^ 32 by omega) with ⟨-, hrun⟩ | ⟨-, hfit, s', m, c, hrun, hw, -⟩
  · exact ⟨s, -1, hrun, by omega, .refl, hB, rfl, (List.append_nil _).symm⟩
  · have hle := hw.le
    have hc : c = 0 := by
      rcases hw.stop with h | ⟨-, h, -⟩
      · exact h
      · cases h
    subst hc
    have hsize : (s'.itable i).d.size = (s.itable i).d.size + m := by rw [hw.size]; omega
    refine ⟨s', m, hrun, by omega, ?_, hw.blocks, hsize, contents_append hsize fun a ha => ?_⟩
    · obtain ⟨a, bits, blocks, rfl⟩ := hw.same
      exact ⟨rfl, rfl, rfl, _, update_self ..⟩
    · rw [hw.byte a (by omega), Nat.add_zero]
      rfl

end Xv6.Fs
