import Xv6.Mkfs.Image

/-!
# What `mkfs` leaves

The files of the image that `main` has made, with their sizes and blocks, and the free map.
-/

namespace Xv6.Mkfs

open Function (update update_eq_self update_idem update_of_ne update_self)
open Bytes (Mem)
open Hoare
open Xv6.Fs (BSIZE NDIRECT NINDIRECT MAXFILE BPB DIRSIZ DIRENT ROOTINO wordAt direntBytes slash)

variable {i : Nat} {c : Nat → List UInt8} {s s' : Img} {files : List Input} {kind : Nat → Nat}

def kinds (i : Nat) : Nat := if i = ROOTINO then T_DIR else T_FILE

def withFile (c : Nat → List UInt8) (j : Nat) (f : Input) : Nat → List UInt8 :=
  update (update c ROOTINO (c ROOTINO ++ dirent j f.name)) j f.bytes

def withFiles (c : Nat → List UInt8) (j : Nat) : List Input → Nat → List UInt8
  | [] => c
  | f :: fs => withFiles (withFile c j f) (j + 1) fs

def contents (files : List Input) : Nat → List UInt8 :=
  withFiles (update (fun _ => []) ROOTINO (dirent ROOTINO [46] ++ dirent ROOTINO [46, 46])) (ROOTINO + 1) files

theorem addReads_spec {l : List (List UInt8)} (hI : ImgInv s c kind) (h1 : 1 ≤ i) (h2 : i < s.freeinode) :
    wp (addReads i l) (fun _ s' => ImgInv s' (update c i (c i ++ l.flatten)) kind ∧ s'.freeinode = s.freeinode)
      (fun _ => True) s := by
  induction l generalizing s c with
  | nil =>
    refine wp_pure.2 ⟨?_, rfl⟩
    rw [List.flatten_nil, List.append_nil, update_eq_self]
    exact hI
  | cons buf l ih =>
    unfold addReads
    rw [wp_bind]
    refine wp_post (iappend_spec hI h1 h2) ?_
    rintro - s1 ⟨hI1, hfi⟩
    refine wp_post (ih hI1 (by rw [hfi]; exact h2)) ?_
    rintro - s' ⟨hI', hfi'⟩
    refine ⟨?_, hfi'.trans hfi⟩
    rw [update_self, update_idem, List.append_assoc] at hI'
    rw [List.flatten_cons]
    exact hI'

theorem addFile_spec {f : Input} (hI : ImgInv s c kinds) (hroot : ROOTINO < s.freeinode) (hfit : s.freeinode < NINODES) :
    wp (addFile ROOTINO f) (fun _ s' => s'.freeinode = s.freeinode + 1 ∧ ImgInv s' (withFile c s.freeinode f) kinds) (fun _ => True) s := by
  have hne : s.freeinode ≠ ROOTINO := by omega
  unfold addFile
  rw [wp_ite]
  refine ⟨fun _ => trivial, fun _ => ?_⟩
  rw [wp_ite]
  refine ⟨fun _ => trivial, fun _ => ?_⟩
  rw [wp_bind]
  refine wp_post (ialloc_spec (by decide) hI hfit) ?_
  rintro _ s1 ⟨rfl, hfi1, hI1⟩
  have hkind : kinds s.freeinode = T_FILE := if_neg hne
  rw [← hkind, update_eq_self] at hI1
  rw [wp_bind]
  refine wp_post (iappend_spec hI1 le_rfl (by rw [hfi1]; exact Nat.lt_succ_of_lt hroot)) ?_
  rintro - s2 ⟨hI2, hfi2⟩
  refine wp_post (addReads_spec hI2 hI.pos (by rw [hfi2, hfi1]; exact Nat.lt_succ_self _)) ?_
  rintro - s' ⟨hI', hfi'⟩
  refine ⟨by rw [hfi', hfi2, hfi1], ?_⟩
  rw [update_of_ne hne, update_self, List.nil_append, update_of_ne (Ne.symm hne),
    Function.update_comm hne, update_idem] at hI'
  exact hI'

theorem addFiles_spec (hI : ImgInv s c kinds) (hroot : ROOTINO < s.freeinode) (hfit : s.freeinode + files.length ≤ NINODES) :
    wp (addFiles ROOTINO files) (fun _ s' => s'.freeinode = s.freeinode + files.length ∧
      ImgInv s' (withFiles c s.freeinode files) kinds) (fun _ => True) s := by
  induction files generalizing s c with
  | nil => exact wp_pure.2 ⟨rfl, hI⟩
  | cons f fs ih =>
    rw [List.length_cons] at hfit
    unfold addFiles
    rw [wp_bind]
    refine wp_post (addFile_spec hI hroot (by omega)) ?_
    rintro - s1 ⟨hfi1, hI1⟩
    refine wp_post (ih hI1 (by omega) (by omega)) ?_
    rintro - s' ⟨hfi', hI'⟩
    rw [hfi1] at hI' hfi'
    exact ⟨by rw [hfi', List.length_cons]; omega, hI'⟩

structure Made (files : List Input) (s : Img) : Prop where
  layout : Layout (dinAt s.disk) s.disk s.freeinode s.freeblock (fun i => blocks (contents files i).length) (contents files)
  freeinode : s.freeinode = files.length + 2
  freeblock : s.freeblock ≤ FSSIZE
  size : ∀ i, ROOTINO < i → i < s.freeinode → dsize (dinAt s.disk i) = (contents files i).length
  root : dsize (dinAt s.disk ROOTINO) = ((contents files ROOTINO).length / BSIZE + 1) * BSIZE
  type : ∀ i, 1 ≤ i → i < s.freeinode → dtype (dinAt s.disk i) = kinds i
  free : ∀ i, i = 0 ∨ s.freeinode ≤ i → i < NINODES → dtype (dinAt s.disk i) = 0
  low : ∀ b, b < inodestart → s.disk b = update (fun _ _ => 0) 1 superblock b
  bitmap : s.disk bmapstart = freeMap s.freeblock

theorem dirent_length (inum : Nat) (name : List UInt8) : (dirent inum name).length = DIRENT := by
  unfold dirent
  rw [List.length_map, List.length_range]

theorem withFiles_root_length (j : Nat) (hj : ROOTINO < j) :
    (withFiles c j files ROOTINO).length = (c ROOTINO).length + DIRENT * files.length := by
  induction files generalizing c j with
  | nil => rfl
  | cons f fs ih =>
    unfold withFiles
    rw [ih (j + 1) (by omega)]
    unfold withFile
    rw [update_of_ne (by omega), update_self, List.length_append, dirent_length, List.length_cons]
    lia

theorem contents_root_length : (contents files ROOTINO).length = DIRENT * (files.length + 2) := by
  unfold contents
  rw [withFiles_root_length _ (Nat.lt_succ_self _), update_self, List.length_append, dirent_length, dirent_length]
  lia

theorem imgInv_start : ImgInv { start with disk := update start.disk 1 superblock } (fun _ => []) kinds := by
  have hzero : ∀ b, b ≠ 1 → ∀ k, (update start.disk 1 superblock b : Mem) k = 0 := by
    intro b hb k
    rw [update_of_ne hb]
    rfl
  have hnone : ∀ j, 1 ≤ j → ¬j < start.freeinode := fun j h1 h2 => absurd h1 (Nat.not_le.mpr h2)
  refine ⟨⟨le_rfl, fun j h1 h2 => absurd h2 (hnone j h1), fun j s h1 h2 => absurd h2 (hnone j h1),
    fun j j' s s' h1 h2 => absurd h2 (hnone j h1), fun b hb hb' => absurd (lt_of_le_of_lt hb hb') (Nat.lt_irrefl _),
    fun j h1 h2 => absurd h2 (hnone j h1), fun j k h1 h2 => absurd h2 (hnone j h1), fun b hb => ?_,
    fun j k h1 h2 => absurd h2 (hnone j h1), fun j h1 h2 => absurd h2 (hnone j h1)⟩, by decide, le_rfl, by decide,
    fun j h1 h2 => absurd h2 (hnone j h1), fun j h1 h2 => absurd h2 (hnone j h1), fun j _ hj => ?_, fun b _ => rfl⟩
  · refine hzero b ?_
    have : 1 < nmeta := by decide
    change nmeta ≤ b at hb
    omega
  · have hb : iblock j ≠ 1 := by
      have := iblock_range hj
      have : 1 < inodestart := by decide
      omega
    exact Bytes.loadLE_zero fun x _ _ => hzero _ hb (j % IPB * DINODE + x)

theorem fixRoot_spec (hI : ImgInv s c kinds) (hroot : ROOTINO < s.freeinode) :
    wp (fixRoot ROOTINO) (fun _ s' => Winode s.disk s'.disk ROOTINO
      (setSize (dinAt s.disk ROOTINO) (((c ROOTINO).length / BSIZE + 1) * BSIZE)) ∧ s'.freeinode = s.freeinode ∧
      s'.freeblock = s.freeblock) (fun _ => True) s := by
  unfold fixRoot rinode rsect
  simp only [wp_ite, wp_bind, wp_get, wp_pure]
  refine ⟨fun _ => ?_, fun _ => trivial⟩
  have hdin : (fun k => s.disk (iblock ROOTINO) (ROOTINO % IPB * DINODE + k)) = dinAt s.disk ROOTINO := rfl
  rw [hdin, hI.size ROOTINO le_rfl hroot]
  exact winode_spec (by decide)

theorem main_spec (hfit : files.length + 2 ≤ NINODES) : wp (main files) (fun _ s' => Made files s') (fun _ => True) start := by
  unfold main wsect
  simp only [wp_bind, wp_modify]
  refine wp_post (ialloc_spec (by decide) imgInv_start (by decide)) ?_
  rintro _ s1 ⟨rfl, hfi1, hI1⟩
  change s1.freeinode = 2 at hfi1
  have hkind : update kinds start.freeinode T_DIR = kinds := update_eq_self (f := kinds) 1
  change ImgInv s1 (update _ ROOTINO []) (update kinds start.freeinode T_DIR) at hI1
  rw [hkind, Function.update_eq_self_iff.mpr rfl] at hI1
  rw [wp_ite]
  refine ⟨fun _ => ?_, fun _ => trivial⟩
  simp only [wp_bind]
  refine wp_post (iappend_spec hI1 le_rfl (by change 1 < s1.freeinode; omega)) ?_
  rintro - s2 ⟨hI2, hfi2⟩
  refine wp_post (iappend_spec hI2 le_rfl (by change 1 < s2.freeinode; omega)) ?_
  rintro - s3 ⟨hI3, hfi3⟩
  rw [update_self, update_idem, List.nil_append] at hI3
  have hfi3' : s3.freeinode = ROOTINO + 1 := by change _ = 2; omega
  refine wp_post (addFiles_spec hI3 (by omega) (by rw [hfi3']; change 2 + _ ≤ _; omega)) ?_
  rintro - s4 ⟨hfi4, hI4⟩
  rw [hfi3'] at hI4 hfi4
  change ImgInv s4 (contents files) kinds at hI4
  have hfi4' : s4.freeinode = files.length + 2 := by change s4.freeinode = 2 + files.length at hfi4; omega
  refine wp_post (fixRoot_spec hI4 (by change 1 < _; omega)) ?_
  rintro - s5 ⟨hw, hfi5, hfb5⟩
  unfold balloc wsect
  simp only [wp_get, wp_ite, wp_modify]
  refine ⟨fun _ => ?_, fun _ => trivial⟩
  have hdin : ∀ i (buf : Mem), i < NINODES → dinAt (update s5.disk bmapstart buf) i = dinAt s5.disk i := by
    intro i buf hi
    have := iblock_range hi
    funext k
    change (update s5.disk bmapstart _ (iblock i) : Mem) _ = _
    rw [update_of_ne (by omega)]
    rfl
  have hsame : ∀ b (buf : Mem), b ≠ bmapstart → update s5.disk bmapstart buf b = s5.disk b :=
    fun b buf hb => update_of_ne hb _ _
  have hother : ∀ j, j ≠ ROOTINO → ∀ k, k < DINODE → dinAt s5.disk j k = dinAt s4.disk j k := hw.other
  have hlen : (contents files ROOTINO).length ≤ DIRENT * NINODES := by
    rw [contents_root_length]
    exact Nat.mul_le_mul_left _ hfit
  refine ⟨?_, by rw [← hfi4', ← hfi5], ?_, fun j h1 h2 => ?_, ?_, fun j h1 h2 => ?_, fun j hj hjn => ?_, fun b hb => ?_, ?_⟩
  · change Layout _ _ s5.freeinode s5.freeblock _ _
    rw [hfi5, hfb5]
    refine hI4.layout.congr (fun j k h1 h2 hk => ?_) fun b hb => ?_
    · rw [hdin j _ (by omega)]
      by_cases hj : j = ROOTINO
      · subst hj
        rw [daddr_congr (fun x _ hx => hw.self x hx) hk, daddr_setSize]
      · exact daddr_congr (fun x _ hx => hother j hj x hx) hk
    · have : bmapstart < nmeta := by decide
      refine (hsame b _ (by omega)).trans ?_
      exact hw.outside b (.inr (by omega))
  · change s5.freeblock ≤ _
    rw [hfb5]
    exact hI4.freeblock
  · change j < s5.freeinode at h2
    rw [hdin j _ (by omega), ← hI4.size j (by omega) (by omega)]
    exact dsize_congr fun k hk => hother j (by omega) k (by lia)
  · rw [hdin _ _ (by decide), dsize_congr fun k hk => hw.self k (by lia), dsize_setSize]
    lia
  · change j < s5.freeinode at h2
    rw [hdin j _ (by omega), ← hI4.type j (by omega) (by omega)]
    by_cases hj : j = ROOTINO
    · subst hj
      exact dtype_congr fun k hk => (hw.self k (by lia)).trans (setSize_low hk)
    · exact dtype_congr fun k hk => hother j hj k (by lia)
  · change j = 0 ∨ s5.freeinode ≤ j at hj
    rw [hdin j _ hjn, ← hI4.free j (by omega) hjn]
    exact dtype_congr fun k hk => hother j (by change j ≠ 1; omega) k (by lia)
  · have : inodestart < bmapstart := by decide
    refine (hsame b (freeMap s5.freeblock) (by omega)).trans ?_
    rw [hw.outside b (.inl hb)]
    exact hI4.low b hb
  · exact update_self bmapstart _ s5.disk

theorem Layout.fileBlock_eq {disk : Nat → Mem} {m fb k : Nat} {nb : Nat → Nat} (hL : Layout (dinAt disk) disk m fb nb c)
    (h1 : 1 ≤ i) (h2 : i < m) (hk : k < nb i) : fileBlock disk i k = slotBlock (dinAt disk) disk i (some k) := by
  unfold fileBlock
  split
  · next hd => exact (slotBlock_direct hd).symm
  · next hd =>
    have hind : daddr (dinAt disk i) NDIRECT ≠ 0 := hL.pos (s := none) h1 h2 (by change NDIRECT < nb i; omega)
    rw [if_neg hind, slotBlock_indirect hd]

theorem Made.noHoles_file (hM : Made files s) (h1 : ROOTINO < i) (h2 : i < s.freeinode) : NoHoles s.disk i := by
  intro bn hbn
  rw [hM.size i h1 h2] at hbn
  have hk : bn < blocks (contents files i).length := lt_blocks.mpr hbn
  rw [hM.layout.fileBlock_eq (by omega) h2 hk]
  exact hM.layout.pos (s := some bn) (by omega) h2 hk

theorem Made.noHoles_root (hM : Made files s) (hfit : files.length + 2 ≤ NINODES) :
    NoHoles s.disk ROOTINO ↔ (files.length + 2) % (BSIZE / DIRENT) ≠ 0 := by
  have hroot : ROOTINO < s.freeinode := by
    rw [hM.freeinode]
    change 1 < _
    omega
  have hlen : (contents files ROOTINO).length = DIRENT * (files.length + 2) := contents_root_length
  unfold NoHoles
  rw [hM.root]
  constructor
  · -- the block behind the entries is not there
    intro h hmod
    have hb : blocks (contents files ROOTINO).length = (contents files ROOTINO).length / BSIZE := by
      rw [hlen]
      unfold blocks
      lia
    have hd : (contents files ROOTINO).length / BSIZE < NDIRECT := by
      rw [hlen]
      lia
    refine h ((contents files ROOTINO).length / BSIZE) (by lia) ?_
    unfold fileBlock
    rw [if_pos hd, ← slotBlock_direct (d := s.disk) hd]
    exact hM.layout.unused ROOTINO _ le_rfl hroot hb.le (hd.trans (by decide)) (.inl hd)
  · intro hmod bn hbn
    have hk : bn < blocks (contents files ROOTINO).length := by
      rw [lt_blocks, hlen]
      rw [hlen] at hbn
      lia
    rw [hM.layout.fileBlock_eq le_rfl hroot hk]
    exact hM.layout.pos (s := some bn) le_rfl hroot hk

/-- The images of `main` have no holes, but where the entries of the root directory fill whole blocks. -/
theorem no_holes_iff (hfit : files.length + 2 ≤ NINODES) (h : (main files).run start = .ok ((), s)) :
    (∀ i, i < NINODES → dtype (dinAt s.disk i) ≠ 0 → NoHoles s.disk i) ↔ (files.length + 2) % (BSIZE / DIRENT) ≠ 0 := by
  have hM := wp_ok (main_spec hfit) h
  rw [← hM.noHoles_root hfit]
  have hroot : ROOTINO < s.freeinode := by
    rw [hM.freeinode]
    change 1 < _
    omega
  constructor
  · intro hall
    refine hall ROOTINO (by decide) ?_
    rw [hM.type ROOTINO le_rfl hroot]
    decide
  · intro hno i hi htype
    by_cases hr : i = ROOTINO
    · subst hr
      exact hno
    · by_cases hin : i = 0 ∨ s.freeinode ≤ i
      · exact absurd (hM.free i hin hi) htype
      · exact hM.noHoles_file (by change 1 < i; change i ≠ 1 at hr; omega) (by omega)

def emptyFile (k : Nat) : Input := ⟨[UInt8.ofNat (97 + k / 26), UInt8.ofNat (97 + k % 26)], []⟩

theorem no_holes_iff_one : ∃ s, (main [emptyFile 0]).run start = .ok ((), s) ∧
    ∀ i, i < NINODES → dtype (dinAt s.disk i) ≠ 0 → NoHoles s.disk i := by
  have hok : ((main [emptyFile 0]).run start).isOk = true := by decide +kernel
  rcases h : (main [emptyFile 0]).run start with e | ⟨⟨⟩, s⟩
  · rw [h] at hok
    cases hok
  · exact ⟨s, rfl, (no_holes_iff (by decide) h).2 (by decide)⟩

/-- Sixty-two files make the entries of the root directory fill a block. -/
theorem hole_in_root : ∃ s, (main ((List.range 62).map emptyFile)).run start = .ok ((), s) ∧ dtype (dinAt s.disk ROOTINO) = T_DIR ∧
    ¬NoHoles s.disk ROOTINO := by
  have hok : ((main ((List.range 62).map emptyFile)).run start).isOk = true := by decide +kernel
  rcases h : (main ((List.range 62).map emptyFile)).run start with e | ⟨⟨⟩, s⟩
  · rw [h] at hok
    cases hok
  · have hM := wp_ok (main_spec (by decide)) h
    refine ⟨s, rfl, ?_, fun hno => (hM.noHoles_root (by decide)).1 hno (by decide)⟩
    rw [hM.type ROOTINO le_rfl (by rw [hM.freeinode]; decide)]
    rfl

end Xv6.Mkfs
