import Xv6.Mkfs.Layout

/-!
# Images that `mkfs` makes

Between two calls of `iappend` the image holds the files with the bytes appended so far, each in as many blocks as it needs. The
size of the root directory is changed at the end, apart from its blocks.
-/

namespace Xv6.Mkfs

open Function (update update_eq_self update_of_ne update_self)
open Bytes (Mem loadLE_congr write)
open Hoare
open Xv6.Fs (BSIZE NDIRECT NINDIRECT MAXFILE BPB DIRSIZ DIRENT ROOTINO wordAt direntBytes slash)

variable {D D' disk disk' : Nat → Mem} {m fb i n : Nat} {nb nb' : Nat → Nat} {c : Nat → List UInt8} {s s' : Img}
  {p : List UInt8} {k z : Nat} {din din' : Mem}

def blocks (n : Nat) : Nat := (n + BSIZE - 1) / BSIZE

theorem lt_blocks : k < blocks n ↔ k * BSIZE < n := by
  unfold blocks
  constructor <;> intro h <;> lia

theorem blocks_le : n / BSIZE ≤ blocks n := by
  unfold blocks
  exact Nat.div_le_div_right (by lia)

theorem blocks_append {l : Nat} (hl : 0 < l) (hle : n + l ≤ (n / BSIZE + 1) * BSIZE) :
    max (blocks n) (n / BSIZE + 1) = blocks (n + l) := by
  unfold blocks
  lia

structure Appended (D : Nat → Mem) (s : Img) (nb : Nat → Nat) (c : Nat → List UInt8) (i : Nat) (p : List UInt8) (din : Mem) (s' : Img) :
    Prop where
  layout : Layout (update D i din) s'.disk s.freeinode s'.freeblock (update nb i (blocks ((c i).length + p.length)))
    (update c i (c i ++ p))
  freeinode : s'.freeinode = s.freeinode
  freeblock : s'.freeblock ≤ FSSIZE
  meta_same : ∀ b, b < nmeta → s'.disk b = s.disk b
  low : ∀ y, y < 12 → din y = D i y

theorem iappendLoop_spec {fuel : Nat} (hfuel : p.length ≤ fuel) (hL : Layout D s.disk s.freeinode s.freeblock nb c) (h1 : 1 ≤ i)
    (h2 : i < s.freeinode) (hfb : s.freeblock ≤ FSSIZE) (hnb : nb i = blocks (c i).length) :
    wp (iappendLoop fuel p (c i).length (D i)) (fun r s' => r.1 = (c i).length + p.length ∧ Appended D s nb c i p r.2 s')
      (fun _ => True) s := by
  have hnil : Appended D s nb c i [] (D i) s := by
    refine ⟨?_, rfl, hfb, fun _ _ => rfl, fun _ _ => rfl⟩
    rw [List.length_nil, Nat.add_zero, ← hnb, List.append_nil, update_eq_self, update_eq_self,
      update_eq_self]
    exact hL
  induction fuel generalizing p s D nb c with
  | zero =>
    obtain rfl : p = [] := List.length_eq_zero_iff.mp (Nat.le_zero.mp hfuel)
    exact wp_pure.2 ⟨rfl, hnil⟩
  | succ fuel ih =>
    unfold iappendLoop
    rw [wp_ite]
    refine ⟨fun hp => ?_, fun hp => ?_⟩
    · subst hp
      exact wp_pure.2 ⟨rfl, hnil⟩
    · rw [wp_ite]
      have hpos : 0 < p.length := List.length_pos_iff.mpr hp
      refine ⟨fun hm => ?_, fun _ => trivial⟩
      rw [wp_bind]
      refine wp_post (findBlock_spec hL h1 h2 (by rw [hnb]; exact blocks_le) hm hfb) ?_
      rintro ⟨x, din⟩ s1 hF
      have hx : x = slotBlock (update D i din) s1.disk i (some ((c i).length / BSIZE)) := hF.block
      unfold rsect wsect
      simp only [wp_ite, wp_bind, wp_get, wp_modify, wp_pure]
      refine ⟨fun hlt => ?_, fun _ => trivial⟩
      generalize hl : min p.length (((c i).length / BSIZE + 1) * BSIZE - (c i).length) = n1
      have hn1 : 0 < n1 ∧ n1 ≤ p.length ∧ (c i).length + n1 ≤ ((c i).length / BSIZE + 1) * BSIZE := by
        have : (c i).length < ((c i).length / BSIZE + 1) * BSIZE := by lia
        omega
      have hlen : (p.take n1).length = n1 := by rw [List.length_take]; omega
      have hgetD : ∀ k, k < n1 → (p.take n1).getD k 0 = p.getD k 0 := by
        intro k hk
        simp [List.getD_eq_getElem?_getD, hk]
      have hW := hF.layout.write h1 h2 (f := (c i).length / BSIZE) (l := p.take n1)
        (by rw [update_self]; exact lt_of_lt_of_le (Nat.lt_succ_self _) (le_max_right _ _)) (by lia) (by rw [hlen]; exact hn1.2.2)
      rw [← hx, hlen] at hW
      have hwrite : (write (s1.disk x) ((c i).length - (c i).length / BSIZE * BSIZE) n1 fun k => (p.take n1).getD k 0) =
          write (s1.disk x) ((c i).length - (c i).length / BSIZE * BSIZE) n1 fun k => p.getD k 0 := by
        funext y
        unfold write
        split
        · exact hgetD _ (by omega)
        · rfl
      rw [hwrite, hnb, blocks_append hn1.1 hn1.2.2] at hW
      have hmeta : nmeta ≤ x := by
        rw [hx]
        refine (hF.layout.range i _ h1 h2 ?_).1
        rw [update_self]
        exact lt_of_lt_of_le (Nat.lt_succ_self _) (le_max_right _ _)
      have hfb1 : s1.freeblock ≤ FSSIZE := hF.freeblock.trans (max_le hfb hlt)
      have hlay : Layout (update D i din) (update s1.disk x (write (s1.disk x)
          ((c i).length - (c i).length / BSIZE * BSIZE) n1 fun k => p.getD k 0)) s1.freeinode s1.freeblock
          (update nb i (blocks ((c i).length + n1))) (update c i (c i ++ p.take n1)) := by
        rw [hF.freeinode]
        exact hW
      have hnb1 : update nb i (blocks ((c i).length + n1)) i =
          blocks (update c i (c i ++ p.take n1) i).length := by
        rw [update_self, update_self, List.length_append, hlen]
      have hlast := ih (by rw [List.length_drop]; omega) (p := p.drop n1)
        (D := update D i din)
        (c := update c i (c i ++ p.take n1))
        (s := ⟨update s1.disk x (write (s1.disk x) ((c i).length - (c i).length / BSIZE * BSIZE) n1 fun k => p.getD k 0),
          s1.freeinode, s1.freeblock⟩)
        hlay (by rw [hF.freeinode]; exact h2) hfb1 hnb1
        ⟨by
          rw [List.length_nil, Nat.add_zero, ← hnb1, List.append_nil, update_eq_self, update_eq_self,
            update_eq_self]
          exact hlay, rfl, hfb1, fun _ _ => rfl, fun _ _ => rfl⟩
      rw [update_self, update_self, List.length_append, hlen] at hlast
      refine wp_post hlast ?_
      rintro ⟨off, din'⟩ s' ⟨hoff, hA⟩
      refine ⟨?_, ⟨?_, hA.freeinode.trans hF.freeinode, hA.freeblock, fun b hb => ?_, fun y hy => ?_⟩⟩
      · change off = _ at hoff ⊢
        rw [hoff, List.length_drop]
        omega
      · have hlay := hA.layout
        simp only [Function.update_idem, update_self, List.append_assoc, List.take_append_drop, List.length_append,
          List.length_drop, hlen] at hlay
        rw [show (c i).length + n1 + (p.length - n1) = (c i).length + p.length by omega] at hlay
        rw [← hF.freeinode]
        exact hlay
      · rw [hA.meta_same b hb]
        change update _ _ _ b = _
        rw [update_of_ne (by omega)]
        exact hF.meta_same b hb
      · have := hA.low y hy
        rw [update_self] at this
        exact this.trans (hF.low y hy)

theorem Layout.congr (hL : Layout D disk m fb nb c) (hD : ∀ j k, 1 ≤ j → j < m → k ≤ NDIRECT → daddr (D' j) k = daddr (D j) k)
    (hdisk : ∀ b, nmeta ≤ b → disk' b = disk b) : Layout D' disk' m fb nb c := by
  have hslot : ∀ j s, 1 ≤ j → j < m → (∀ k, s = some k → k < NDIRECT ∨ NDIRECT < nb j) →
      slotBlock D' disk' j s = slotBlock D disk j s := by
    intro j s h1 h2 hs
    rcases s with - | k
    · exact hD j _ h1 h2 le_rfl
    · by_cases hk : k < NDIRECT
      · rw [slotBlock_direct hk, slotBlock_direct hk]
        exact hD j k h1 h2 hk.le
      · rw [slotBlock_indirect hk, slotBlock_indirect hk, hD j _ h1 h2 le_rfl]
        have hind : nmeta ≤ daddr (D j) NDIRECT := (hL.range j none h1 h2 ((hs k rfl).resolve_left hk)).1
        rw [hdisk _ hind]
  have hneed : ∀ j s, 1 ≤ j → j < m → Needs (nb j) s → slotBlock D' disk' j s = slotBlock D disk j s := by
    intro j s h1 h2 hs
    refine hslot j s h1 h2 ?_
    rintro k rfl
    change k < nb j at hs
    omega
  refine ⟨hL.le, hL.max, fun j s h1 h2 hs => ?_, fun j j' s s' h1 h2 h1' h2' hs hs' heq => ?_, fun b hb hb' => ?_,
    fun j h1 h2 hj => ?_, fun j k h1 h2 hk hkm hd => ?_, fun b hb k => ?_, fun j k h1 h2 hk x hx => ?_, hL.fits⟩
  · rw [hneed j s h1 h2 hs]
    exact hL.range j s h1 h2 hs
  · rw [hneed j s h1 h2 hs, hneed j' s' h1' h2' hs'] at heq
    exact hL.inj j j' s s' h1 h2 h1' h2' hs hs' heq
  · obtain ⟨j, s, h1, h2, hs, heq⟩ := hL.onto b hb hb'
    exact ⟨j, s, h1, h2, hs, (hneed j s h1 h2 hs).trans heq⟩
  · rw [hD j _ h1 h2 le_rfl]
    exact hL.noInd j h1 h2 hj
  · rw [hslot j (some k) h1 h2 fun l hl => by cases hl; exact hd]
    exact hL.unused j k h1 h2 hk hkm hd
  · rw [hdisk b (hL.le.trans hb)]
    exact hL.zero b hb k
  · rw [hneed j (some k) h1 h2 hk, hdisk _ (hL.range j (some k) h1 h2 hk).1]
    exact hL.content j k h1 h2 hk x hx

/-- The dinode is on the disk after `winode`, and the others are as they were. -/
structure Winode (disk disk' : Nat → Mem) (i : Nat) (din : Mem) : Prop where
  self : ∀ k, k < DINODE → dinAt disk' i k = din k
  other : ∀ j, j ≠ i → ∀ k, k < DINODE → dinAt disk' j k = dinAt disk j k
  outside : ∀ b, b < inodestart ∨ bmapstart ≤ b → disk' b = disk b

theorem iblock_range (hi : i < NINODES) : inodestart ≤ iblock i ∧ iblock i < bmapstart := by
  unfold iblock
  exact ⟨Nat.le_add_left .., by lia⟩

theorem winode_spec (hi : i < NINODES) :
    wp (winode i din) (fun _ s' => Winode s.disk s'.disk i din ∧ s'.freeinode = s.freeinode ∧ s'.freeblock = s.freeblock)
      (fun _ => True) s := by
  unfold winode rsect wsect
  simp only [wp_ite, wp_bind, wp_get, wp_modify, wp_pure]
  refine ⟨fun _ => ⟨⟨fun k hk => ?_, fun j hj k hk => ?_, fun b hb => ?_⟩, trivial, trivial⟩, fun _ => trivial⟩
  · change (update s.disk (iblock i) _ (iblock i) : Mem) _ = _
    rw [update_self, Bytes.write_inside (by omega) (by omega), Nat.add_sub_cancel_left]
  · change (update s.disk (iblock i) _ (iblock j) : Mem) _ = _
    by_cases hb : iblock j = iblock i
    · rw [hb, update_self, Bytes.write_outside]
      · change _ = s.disk (iblock j) _
        rw [hb]
      · have : j % IPB ≠ i % IPB := by
          intro h
          have : j / IPB = i / IPB := Nat.add_right_cancel hb
          exact hj (by rw [← Nat.div_add_mod j IPB, ← Nat.div_add_mod i IPB, h, this])
        rcases Nat.lt_or_gt_of_ne this with h | h
        · exact .inl (by lia)
        · exact .inr (by lia)
    · rw [update_of_ne hb]
      rfl
  · have := iblock_range hi
    change update _ _ _ _ = _
    rw [update_of_ne (by omega)]

theorem daddr_congr (h : ∀ k, 12 ≤ k → k < DINODE → din k = din' k) (hk : k ≤ NDIRECT) :
    daddr din k = daddr din' k := by
  refine loadLE_congr fun x h1 h2 => h x (by omega) ?_
  have : DINODE = 12 + 4 * NDIRECT + 4 := rfl
  omega

theorem dsize_congr (h : ∀ k, k < 12 → din k = din' k) : dsize din = dsize din' :=
  loadLE_congr fun x _ h2 => h x (by omega)

theorem dtype_congr (h : ∀ k, k < 8 → din k = din' k) : dtype din = dtype din' :=
  loadLE_congr fun x _ h2 => h x (by omega)

theorem daddr_setSize : daddr (setSize din z) k = daddr din k :=
  Bytes.loadLE_storeLE_outside (.inr (by omega))

theorem dsize_setSize (hz : z < 2 ^ 32) : dsize (setSize din z) = z := by
  unfold dsize setSize
  rw [Bytes.loadLE_storeLE]
  exact Nat.mod_eq_of_lt hz

theorem setSize_low {x : Nat} (hx : x < 8) : setSize din z x = din x := Bytes.storeLE_outside (.inl hx)

/-- The image holds the files `1, …, freeinode - 1` with their types and bytes. -/
structure ImgInv (s : Img) (c : Nat → List UInt8) (kind : Nat → Nat) : Prop where
  layout : Layout (dinAt s.disk) s.disk s.freeinode s.freeblock (fun i => blocks (c i).length) c
  freeblock : s.freeblock ≤ FSSIZE
  pos : 1 ≤ s.freeinode
  fits : s.freeinode ≤ NINODES
  size : ∀ i, 1 ≤ i → i < s.freeinode → dsize (dinAt s.disk i) = (c i).length
  type : ∀ i, 1 ≤ i → i < s.freeinode → dtype (dinAt s.disk i) = kind i
  free : ∀ i, i = 0 ∨ s.freeinode ≤ i → i < NINODES → dtype (dinAt s.disk i) = 0
  low : ∀ b, b < inodestart → s.disk b = update (fun _ _ => 0) 1 superblock b

variable {kind : Nat → Nat}

theorem Layout.length_lt (hL : Layout D disk m fb (fun i => blocks (c i).length) c) (h1 : 1 ≤ i) (h2 : i < m) :
    (c i).length < 2 ^ 32 := by
  have hb := hL.max i h1 h2
  have hf := hL.fits i h1 h2
  have := Nat.mul_le_mul_right BSIZE hb
  have : MAXFILE * BSIZE < 2 ^ 32 := by decide
  omega

theorem iappend_spec (hI : ImgInv s c kind) (h1 : 1 ≤ i) (h2 : i < s.freeinode) :
    wp (iappend i p) (fun _ s' => ImgInv s' (update c i (c i ++ p)) kind ∧ s'.freeinode = s.freeinode) (fun _ => True) s := by
  have hfit := hI.fits
  have hdin : (fun k => s.disk (iblock i) (i % IPB * DINODE + k)) = dinAt s.disk i := rfl
  unfold iappend rinode rsect
  simp only [wp_ite, wp_bind, wp_get, wp_pure]
  refine ⟨fun _ => ?_, fun _ => trivial⟩
  rw [hdin, hI.size i h1 h2]
  refine wp_post (iappendLoop_spec le_rfl hI.layout h1 h2 hI.freeblock rfl) ?_
  rintro ⟨off, din⟩ s1 ⟨hoff, hA⟩
  obtain rfl : off = (c i).length + p.length := hoff
  refine wp_post (winode_spec (by omega)) ?_
  rintro - s' ⟨hw, hfi, hfb⟩
  have hnb : update (fun i => blocks (c i).length) i (blocks ((c i).length + p.length)) =
      fun j => blocks (update c i (c i ++ p) j).length := by
    funext j
    by_cases hj : j = i
    · subst hj
      simp
    · simp [hj]
  have hlay1 := hA.layout
  rw [hnb] at hlay1
  -- the dinodes on the disk are those of the loop, but for the size
  have hdis : ∀ j, j ≠ i → j < NINODES → ∀ k, k < DINODE → dinAt s'.disk j k = dinAt s.disk j k := by
    intro j hj hjn k hk
    have := iblock_range hjn
    have : bmapstart < nmeta := by decide
    rw [hw.other j hj k hk]
    exact congrFun (hA.meta_same (iblock j) (by omega)) _
  have hself : ∀ k, k < 8 → dinAt s'.disk i k = dinAt s.disk i k := by
    intro k hk
    rw [hw.self k (by lia), setSize_low hk]
    exact hA.low k (by omega)
  have hlt : (c i).length + p.length < 2 ^ 32 := by
    have := hlay1.length_lt h1 h2
    rwa [update_self, List.length_append] at this
  have hfi' : s'.freeinode = s.freeinode := hfi.trans hA.freeinode
  have hlay : Layout (dinAt s'.disk) s'.disk s.freeinode s1.freeblock (fun j => blocks (update c i (c i ++ p) j).length)
      (update c i (c i ++ p)) := by
    refine hlay1.congr (fun j k hj1 hj2 hk => ?_) fun b hb => ?_
    · by_cases hj : j = i
      · subst hj
        rw [update_self, daddr_congr (fun x _ hx => hw.self x hx) hk, daddr_setSize]
      · rw [update_of_ne hj]
        exact daddr_congr (fun x _ hx => hdis j hj (by omega) x hx) hk
    · exact hw.outside b (.inr (le_trans (by decide) hb))
  refine ⟨⟨?_, ?_, ?_, ?_, fun j hj1 hj2 => ?_, fun j hj1 hj2 => ?_, fun j hj hjn => ?_, fun b hb => ?_⟩, hfi'⟩
  · rw [hfi', hfb]
    exact hlay
  · rw [hfb]
    exact hA.freeblock
  · rw [hfi']
    exact hI.pos
  · rw [hfi']
    exact hfit
  · rw [hfi'] at hj2
    by_cases hj : j = i
    · subst hj
      rw [update_self, List.length_append, dsize_congr fun k hk => hw.self k (by lia), dsize_setSize hlt]
    · rw [update_of_ne hj, ← hI.size j hj1 hj2]
      exact dsize_congr fun k hk => hdis j hj (by omega) k (by lia)
  · rw [hfi'] at hj2
    rw [← hI.type j hj1 hj2]
    by_cases hj : j = i
    · subst hj
      exact dtype_congr hself
    · exact dtype_congr fun k hk => hdis j hj (by omega) k (by lia)
  · rw [hfi'] at hj
    rw [← hI.free j hj hjn]
    exact dtype_congr fun k hk => hdis j (by omega) hjn k (by lia)
  · rw [hw.outside b (.inl hb), hA.meta_same b (hb.trans (by decide))]
    exact hI.low b hb

theorem Layout.addInode (hL : Layout D disk m fb nb c) (hpos : 1 ≤ m) (hnb : nb m = 0) (hc : c m = [])
    (hzero : ∀ k, k ≤ NDIRECT → daddr (D m) k = 0) : Layout D disk (m + 1) fb nb c := by
  have hno : ∀ j s, j < m + 1 → Needs (nb j) s → j < m := by
    intro j s hj hs
    rcases Nat.lt_succ_iff_lt_or_eq.mp hj with h | rfl
    · exact h
    · rw [hnb] at hs
      cases s <;> exact absurd hs (Nat.not_lt_zero _)
  refine ⟨hL.le, fun j h1 h2 => ?_, fun j s h1 h2 hs => hL.range j s h1 (hno j s h2 hs) hs,
    fun j j' s s' h1 h2 h1' h2' hs hs' => hL.inj j j' s s' h1 (hno j s h2 hs) h1' (hno j' s' h2' hs') hs hs', fun b hb hb' => ?_,
    fun j h1 h2 hj => ?_, fun j k h1 h2 hk hkm hd => ?_, hL.zero,
    fun j k h1 h2 hk => hL.content j k h1 (hno j (some k) h2 hk) hk, fun j h1 h2 => ?_⟩
  · rcases Nat.lt_succ_iff_lt_or_eq.mp h2 with h | rfl
    · exact hL.max j h1 h
    · rw [hnb]
      exact Nat.zero_le _
  · obtain ⟨j, s, h1, h2, h⟩ := hL.onto b hb hb'
    exact ⟨j, s, h1, Nat.lt_succ_of_lt h2, h⟩
  · rcases Nat.lt_succ_iff_lt_or_eq.mp h2 with h | rfl
    · exact hL.noInd j h1 h hj
    · exact hzero _ le_rfl
  · rcases Nat.lt_succ_iff_lt_or_eq.mp h2 with h | rfl
    · exact hL.unused j k h1 h hk hkm hd
    · have hk' : k < NDIRECT := by omega
      rw [slotBlock_direct hk']
      exact hzero k hk'.le
  · rcases Nat.lt_succ_iff_lt_or_eq.mp h2 with h | rfl
    · exact hL.fits j h1 h
    · rw [hc]
      exact Nat.zero_le _

theorem Layout.congr_files {c' : Nat → List UInt8} (hL : Layout D disk m fb nb c) (hnb : ∀ j, j < m → nb' j = nb j)
    (hc : ∀ j, j < m → c' j = c j) : Layout D disk m fb nb' c' := by
  refine ⟨hL.le, fun j h1 h2 => ?_, fun j s h1 h2 hs => ?_, fun j j' s s' h1 h2 h1' h2' hs hs' => ?_, fun b hb hb' => ?_,
    fun j h1 h2 hj => ?_, fun j k h1 h2 hk => ?_, hL.zero, fun j k h1 h2 hk => ?_, fun j h1 h2 => ?_⟩
  · rw [hnb j h2]
    exact hL.max j h1 h2
  · rw [hnb j h2] at hs
    exact hL.range j s h1 h2 hs
  · rw [hnb j h2] at hs
    rw [hnb j' h2'] at hs'
    exact hL.inj j j' s s' h1 h2 h1' h2' hs hs'
  · obtain ⟨j, s, h1, h2, hs, h⟩ := hL.onto b hb hb'
    exact ⟨j, s, h1, h2, by rw [hnb j h2]; exact hs, h⟩
  · rw [hnb j h2] at hj
    exact hL.noInd j h1 h2 hj
  · rw [hnb j h2] at hk ⊢
    exact hL.unused j k h1 h2 hk
  · rw [hnb j h2] at hk
    rw [hc j h2]
    exact hL.content j k h1 h2 hk
  · rw [hnb j h2, hc j h2]
    exact hL.fits j h1 h2

theorem ialloc_spec {type : Nat} (htype : type < 2 ^ 16) (hI : ImgInv s c kind) (hfit : s.freeinode < NINODES) :
    wp (ialloc type) (fun r s' => r = s.freeinode ∧ s'.freeinode = s.freeinode + 1 ∧
      ImgInv s' (update c r []) (update kind r type)) (fun _ => True) s := by
  have hpos := hI.pos
  unfold ialloc
  simp only [wp_bind, wp_get, wp_modify, wp_pure]
  refine wp_post (winode_spec hfit) ?_
  rintro - s' ⟨hw, hfi, hfb⟩
  refine ⟨trivial, hfi, ?_⟩
  change s'.freeinode = s.freeinode + 1 at hfi
  change s'.freeblock = s.freeblock at hfb
  change Winode s.disk s'.disk _ _ at hw
  have hdis : ∀ j, j ≠ s.freeinode → ∀ k, k < DINODE → dinAt s'.disk j k = dinAt s.disk j k := fun j hj => hw.other j hj
  have hfield : ∀ a n, 8 ≤ a → a + n ≤ DINODE → Bytes.loadLE (dinAt s'.disk s.freeinode) a n = 0 := by
    intro a n ha hn
    rw [loadLE_congr fun x _ hx => hw.self x (by omega), Bytes.loadLE_storeLE_outside (.inr (by omega)),
      Bytes.loadLE_storeLE_outside (.inr (by omega))]
    exact Bytes.loadLE_zero fun _ _ _ => rfl
  have hlay : Layout (dinAt s'.disk) s'.disk s.freeinode s.freeblock
      (fun j => blocks (update c s.freeinode [] j).length) (update c s.freeinode []) := by
    refine (hI.layout.congr (fun j k h1 h2 hk => daddr_congr (fun x _ hx => hdis j (by omega) x hx) hk) fun b hb =>
      hw.outside b (.inr (le_trans (by decide) hb))).congr_files (fun j hj => ?_) fun j hj => ?_
    · rw [update_of_ne (by omega)]
    · rw [update_of_ne (by omega)]
  have hempty : update c s.freeinode [] s.freeinode = [] := update_self ..
  refine ⟨?_, ?_, ?_, ?_, fun j hj1 hj2 => ?_, fun j hj1 hj2 => ?_, fun j hj hjn => ?_, fun b hb => ?_⟩
  · rw [hfi, hfb]
    refine hlay.addInode hpos (by rw [hempty]; rfl) hempty fun k hk => hfield _ _ (by omega) ?_
    have : DINODE = 12 + 4 * NDIRECT + 4 := rfl
    omega
  · rw [hfb]
    exact hI.freeblock
  · omega
  · omega
  · by_cases hj : j = s.freeinode
    · subst hj
      rw [hempty]
      exact hfield 8 4 le_rfl (by decide)
    · rw [update_of_ne hj, ← hI.size j hj1 (by omega)]
      exact dsize_congr fun k hk => hdis j hj k (by lia)
  · by_cases hj : j = s.freeinode
    · subst hj
      rw [update_self]
      unfold dtype
      rw [loadLE_congr fun x _ hx => hw.self x (by lia), Bytes.loadLE_storeLE_outside (.inl (by omega)), Bytes.loadLE_storeLE]
      exact Nat.mod_eq_of_lt htype
    · rw [update_of_ne hj, ← hI.type j hj1 (by omega)]
      exact dtype_congr fun k hk => hdis j hj k (by lia)
  · rw [← hI.free j (by omega) hjn]
    exact dtype_congr fun k hk => hdis j (by omega) k (by lia)
  · rw [hw.outside b (.inl hb)]
    exact hI.low b hb

end Xv6.Mkfs
