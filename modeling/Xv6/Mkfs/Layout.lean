import Xv6.Mkfs.Code

/-!
# The layout of an image

Which block of the image is which block of which file. The dinodes are given by a function, because `iappend` works on a copy of
one.
-/

namespace Xv6.Mkfs

open Function (update update_eq_self update_of_ne update_self)
open Bytes (Mem storeLE)
open Hoare
open Xv6.Fs (BSIZE NDIRECT NINDIRECT MAXFILE wordAt)

def slotBlock (D disk : Nat → Mem) (i : Nat) : Option Nat → Nat
  | none => daddr (D i) NDIRECT
  | some k => if k < NDIRECT then daddr (D i) k else wordAt (disk (daddr (D i) NDIRECT)) (k - NDIRECT)

theorem slotBlock_direct {D d : Nat → Mem} {i k : Nat} (hk : k < NDIRECT) : slotBlock D d i (some k) = daddr (D i) k :=
  if_pos hk

theorem slotBlock_indirect {D d : Nat → Mem} {i k : Nat} (hk : ¬k < NDIRECT) :
    slotBlock D d i (some k) = wordAt (d (daddr (D i) NDIRECT)) (k - NDIRECT) := if_neg hk

/-- The slots that a file of `n` blocks uses. -/
def Needs (n : Nat) : Option Nat → Prop
  | none => NDIRECT < n
  | some k => k < n

theorem Needs.mono {n n' : Nat} {s : Option Nat} (h : Needs n s) (hn : n ≤ n') : Needs n' s := by
  cases s with
  | none => exact lt_of_lt_of_le h hn
  | some k => exact lt_of_lt_of_le h hn

/-- The files `1, …, m - 1` have `nb i` blocks and the contents `c i`, in the blocks below `fb`. -/
structure Layout (D disk : Nat → Mem) (m fb : Nat) (nb : Nat → Nat) (c : Nat → List UInt8) : Prop where
  le : nmeta ≤ fb
  max : ∀ i, 1 ≤ i → i < m → nb i ≤ MAXFILE
  range : ∀ i s, 1 ≤ i → i < m → Needs (nb i) s → nmeta ≤ slotBlock D disk i s ∧ slotBlock D disk i s < fb
  inj : ∀ i j s s', 1 ≤ i → i < m → 1 ≤ j → j < m → Needs (nb i) s → Needs (nb j) s' →
    slotBlock D disk i s = slotBlock D disk j s' → i = j ∧ s = s'
  onto : ∀ b, nmeta ≤ b → b < fb → ∃ i s, 1 ≤ i ∧ i < m ∧ Needs (nb i) s ∧ slotBlock D disk i s = b
  noInd : ∀ i, 1 ≤ i → i < m → nb i ≤ NDIRECT → daddr (D i) NDIRECT = 0
  unused : ∀ i k, 1 ≤ i → i < m → nb i ≤ k → k < MAXFILE → k < NDIRECT ∨ NDIRECT < nb i → slotBlock D disk i (some k) = 0
  zero : ∀ b, fb ≤ b → ∀ k, disk b k = 0
  content : ∀ i k, 1 ≤ i → i < m → k < nb i → ∀ j, j < BSIZE → disk (slotBlock D disk i (some k)) j = (c i).getD (k * BSIZE + j) 0
  fits : ∀ i, 1 ≤ i → i < m → (c i).length ≤ nb i * BSIZE

variable {D D' disk disk' : Nat → Mem} {m fb fb' i n : Nat} {nb : Nat → Nat} {c : Nat → List UInt8} {E : String → Prop} {s : Img}

theorem Layout.pos (hL : Layout D disk m fb nb c) {s : Option Nat} (h1 : 1 ≤ i) (h2 : i < m) (hs : Needs (nb i) s) :
    slotBlock D disk i s ≠ 0 := by
  have := (hL.range i s h1 h2 hs).1
  have : 0 < nmeta := by decide
  omega

theorem Layout.grow (hL : Layout D disk m fb nb c) (h1 : 1 ≤ i) (h2 : i < m) (hle : nb i ≤ n) (hmax : n ≤ MAXFILE) (hfb : fb ≤ fb')
    (hold : ∀ j s, 1 ≤ j → j < m → Needs (nb j) s → slotBlock D' disk' j s = slotBlock D disk j s)
    (hkeep : ∀ j k, 1 ≤ j → j < m → k < nb j → disk' (slotBlock D disk j (some k)) = disk (slotBlock D disk j (some k)))
    (hnew : ∀ s, Needs n s → ¬Needs (nb i) s → fb ≤ slotBlock D' disk' i s ∧ slotBlock D' disk' i s < fb')
    (hinj : ∀ s s', Needs n s → ¬Needs (nb i) s → Needs n s' → ¬Needs (nb i) s' →
      slotBlock D' disk' i s = slotBlock D' disk' i s' → s = s')
    (honto : ∀ b, fb ≤ b → b < fb' → ∃ s, Needs n s ∧ ¬Needs (nb i) s ∧ slotBlock D' disk' i s = b)
    (hdata : ∀ k, nb i ≤ k → k < n → ∀ j, disk' (slotBlock D' disk' i (some k)) j = 0)
    (hother : ∀ j, j ≠ i → D' j = D j) (hsame : ∀ j, 1 ≤ j → j < m → j ≠ i → NDIRECT < nb j →
      disk' (daddr (D j) NDIRECT) = disk (daddr (D j) NDIRECT))
    (hnoInd : n ≤ NDIRECT → daddr (D' i) NDIRECT = 0)
    (hunused : ∀ k, n ≤ k → k < MAXFILE → k < NDIRECT ∨ NDIRECT < n → slotBlock D' disk' i (some k) = 0)
    (hzero : ∀ b, fb' ≤ b → ∀ k, disk' b k = 0) : Layout D' disk' m fb' (update nb i n) c := by
  have hnb : ∀ j, j ≠ i → update nb i n j = nb j := fun j hj => update_of_ne hj _ _
  have hni : update nb i n i = n := update_self ..
  -- a slot in use is an old one, or one of the new ones of the file
  have hsplit : ∀ j s, Needs (update nb i n j) s → Needs (nb j) s ∨ j = i ∧ Needs n s ∧ ¬Needs (nb i) s := by
    intro j s hs
    by_cases hj : j = i
    · subst hj
      rw [hni] at hs
      by_cases h : Needs (nb j) s
      · exact .inl h
      · exact .inr ⟨rfl, hs, h⟩
    · rw [hnb j hj] at hs
      exact .inl hs
  refine ⟨hL.le.trans hfb, fun j hj1 hj2 => ?_, fun j s hj1 hj2 hs => ?_, fun j j' s s' hj1 hj2 hj1' hj2' hs hs' heq => ?_,
    fun b hb1 hb2 => ?_, fun j hj1 hj2 hj => ?_, fun j k hj1 hj2 hk hkm hd => ?_, hzero, fun j k hj1 hj2 hk x hx => ?_,
    fun j hj1 hj2 => ?_⟩
  · by_cases hj : j = i
    · subst hj
      rw [hni]
      exact hmax
    · rw [hnb j hj]
      exact hL.max j hj1 hj2
  · rcases hsplit j s hs with hs | ⟨rfl, hs, hno⟩
    · rw [hold j s hj1 hj2 hs]
      have := hL.range j s hj1 hj2 hs
      exact ⟨this.1, by omega⟩
    · have := hnew s hs hno
      exact ⟨hL.le.trans this.1, this.2⟩
  · rcases hsplit j s hs with ho | ⟨rfl, hn, hno⟩
    · rw [hold j s hj1 hj2 ho] at heq
      rcases hsplit j' s' hs' with ho' | ⟨rfl, hn', hno'⟩
      · rw [hold j' s' hj1' hj2' ho'] at heq
        exact hL.inj j j' s s' hj1 hj2 hj1' hj2' ho ho' heq
      · have h := hL.range j s hj1 hj2 ho
        have h' := hnew s' hn' hno'
        omega
    · rcases hsplit j' s' hs' with ho' | ⟨rfl, hn', hno'⟩
      · rw [hold j' s' hj1' hj2' ho'] at heq
        have h := hL.range j' s' hj1' hj2' ho'
        have h' := hnew s hn hno
        omega
      · exact ⟨rfl, hinj s s' hn hno hn' hno' heq⟩
  · by_cases hb : b < fb
    · obtain ⟨j, s, hj1, hj2, hs, hsb⟩ := hL.onto b hb1 hb
      refine ⟨j, s, hj1, hj2, ?_, (hold j s hj1 hj2 hs).trans hsb⟩
      by_cases hj : j = i
      · subst hj
        rw [hni]
        exact hs.mono hle
      · rw [hnb j hj]
        exact hs
    · obtain ⟨s, hs, -, hsb⟩ := honto b (by omega) hb2
      exact ⟨i, s, h1, h2, by rw [hni]; exact hs, hsb⟩
  · by_cases hji : j = i
    · subst hji
      rw [hni] at hj
      exact hnoInd hj
    · rw [hnb j hji] at hj
      rw [hother j hji]
      exact hL.noInd j hj1 hj2 hj
  · by_cases hji : j = i
    · subst hji
      rw [hni] at hk hd
      exact hunused k hk hkm hd
    · rw [hnb j hji] at hk hd
      have h := hL.unused j k hj1 hj2 hk hkm hd
      by_cases hkd : k < NDIRECT
      · rw [slotBlock_direct hkd] at h ⊢
        rw [hother j hji]
        exact h
      · rw [slotBlock_indirect hkd] at h ⊢
        rw [hother j hji, hsame j hj1 hj2 hji (by omega)]
        exact h
  · by_cases hk' : k < nb j
    · rw [hold j (some k) hj1 hj2 hk', hkeep j k hj1 hj2 hk']
      exact hL.content j k hj1 hj2 hk' x hx
    · have hji : j = i := by
        by_contra hji
        rw [hnb j hji] at hk
        exact hk' hk
      subst hji
      rw [hni] at hk
      rw [hdata k (by omega) hk x, List.getD_eq_default]
      have hkj : nb j * BSIZE ≤ k * BSIZE := Nat.mul_le_mul_right _ (by omega)
      exact ((hL.fits j hj1 hj2).trans hkj).trans (Nat.le_add_right _ _)
  · have := hL.fits j hj1 hj2
    by_cases hji : j = i
    · subst hji
      rw [hni]
      exact this.trans (Nat.mul_le_mul_right _ hle)
    · rw [hnb j hji]
      exact this

variable {din : Mem} {k a b : Nat}

theorem daddr_setAddr (ha : a < 2 ^ 32) : daddr (setAddr din k a) k = a := by
  unfold daddr setAddr
  rw [Bytes.loadLE_storeLE, Nat.mod_eq_of_lt (lt_of_lt_of_eq ha (by decide))]

theorem daddr_setAddr_ne {l : Nat} (hl : l ≠ k) : daddr (setAddr din k a) l = daddr din l := by
  unfold daddr setAddr
  exact Bytes.loadLE_storeLE_outside (by omega)

theorem setAddr_low {x : Nat} (hx : x < 12) : setAddr din k a x = din x := Bytes.storeLE_outside (by omega)

theorem wordAt_store {buf : Mem} (ha : a < 2 ^ 32) : wordAt (storeLE buf (4 * k) 4 a) k = a := by
  unfold wordAt
  rw [Bytes.loadLE_storeLE, Nat.mod_eq_of_lt (lt_of_lt_of_eq ha (by decide))]

theorem wordAt_store_ne {buf : Mem} {l : Nat} (hl : l ≠ k) : wordAt (storeLE buf (4 * k) 4 a) l = wordAt buf l := by
  unfold wordAt
  exact Bytes.loadLE_storeLE_outside (by omega)

theorem wordAt_zero {buf : Mem} (h : ∀ x, buf x = 0) (k : Nat) : wordAt buf k = 0 := Bytes.loadLE_zero fun x _ _ => h x

/-! ### Finding a block -/

/-- What `findBlock` leaves: the file has block `fbn`, and only its indirect block has changed on the disk. -/
structure Found (D : Nat → Mem) (s : Img) (nb : Nat → Nat) (c : Nat → List UInt8) (i fbn : Nat) (x : Nat) (din : Mem) (s' : Img) :
    Prop where
  layout : Layout (update D i din) s'.disk s.freeinode s'.freeblock (update nb i (max (nb i) (fbn + 1))) c
  block : x = slotBlock (update D i din) s'.disk i (some fbn)
  freeinode : s'.freeinode = s.freeinode
  freeblock : s'.freeblock ≤ max s.freeblock (x + 1)
  meta_same : ∀ b, b < nmeta → s'.disk b = s.disk b
  low : ∀ y, y < 12 → din y = D i y

theorem needs_succ {n : Nat} {s : Option Nat} (hs : Needs (n + 1) s) (hno : ¬Needs n s) :
    s = some n ∨ s = none ∧ n = NDIRECT := by
  cases s with
  | none =>
    have h1 : NDIRECT < n + 1 := hs
    have h2 : ¬NDIRECT < n := hno
    exact .inr ⟨rfl, by omega⟩
  | some k =>
    have h1 : k < n + 1 := hs
    have h2 : ¬k < n := hno
    exact .inl (by rw [show k = n by omega])

section

variable (hL : Layout D s.disk s.freeinode s.freeblock nb c) (h1 : 1 ≤ i) (h2 : i < s.freeinode) {fbn : Nat}

include hL h1 h2

omit h1 h2 in
theorem Layout.found_old (hfbn : fbn < nb i) : Found D s nb c i fbn (slotBlock D s.disk i (some fbn)) (D i) s where
  layout := by
    rw [max_eq_left (Nat.succ_le_of_lt hfbn), update_eq_self, update_eq_self]
    exact hL
  block := by rw [update_eq_self]
  freeinode := rfl
  freeblock := le_max_left _ _
  meta_same _ _ := rfl
  low _ _ := rfl

theorem Layout.found_direct (hfbn : nb i = fbn) (hd : fbn < NDIRECT) (hfb : s.freeblock < 2 ^ 32) :
    Found D s nb c i fbn s.freeblock (setAddr (D i) fbn s.freeblock) { s with freeblock := s.freeblock + 1 } := by
  have hnew : slotBlock (update D i (setAddr (D i) fbn s.freeblock)) s.disk i (some fbn) = s.freeblock := by
    rw [slotBlock_direct hd, update_self, daddr_setAddr hfb]
  have hind : daddr (update D i (setAddr (D i) fbn s.freeblock) i) NDIRECT = 0 := by
    rw [update_self, daddr_setAddr_ne (by omega)]
    exact hL.noInd i h1 h2 (by omega)
  have hslot : ∀ x, Needs (fbn + 1) x → ¬Needs (nb i) x → x = some fbn := by
    intro x hx hno
    rw [hfbn] at hno
    rcases needs_succ hx hno with h | ⟨-, h⟩
    · exact h
    · omega
  have hold : ∀ j x, Needs (nb j) x →
      slotBlock (update D i (setAddr (D i) fbn s.freeblock)) s.disk j x = slotBlock D s.disk j x := by
    intro j x hx
    by_cases hj : j = i
    · subst hj
      cases x with
      | none =>
        have : NDIRECT < nb j := hx
        omega
      | some k =>
        have hk : k < nb j := hx
        rw [slotBlock_direct (by omega), slotBlock_direct (by omega), update_self, daddr_setAddr_ne (by omega)]
    · cases x <;> simp only [slotBlock, update_of_ne hj]
  refine ⟨?_, hnew.symm, rfl, le_max_right _ _, fun _ _ => rfl, fun y hy => setAddr_low hy⟩
  rw [max_eq_right (by omega)]
  have hmax : NDIRECT ≤ MAXFILE := by decide
  change Layout _ s.disk s.freeinode (s.freeblock + 1) _ c
  refine hL.grow h1 h2 (by omega) (by omega) (Nat.le_succ _) (fun j x _ _ hx => hold j x hx)
    (fun _ _ _ _ _ => rfl) (fun x hx hno => ?_) (fun x x' hx hno hx' hno' _ => ?_) (fun b hb1 hb2 => ?_) (fun k hk hkn j => ?_)
    (fun j hj => update_of_ne hj _ _) (fun _ _ _ _ _ => rfl) (fun _ => hind) (fun k hk hkm hd' => ?_)
    (fun b hb => hL.zero b (by omega))
  · rw [hslot x hx hno, hnew]
    exact ⟨le_rfl, Nat.lt_succ_self _⟩
  · rw [hslot x hx hno, hslot x' hx' hno']
  · refine ⟨some fbn, Nat.lt_succ_self _, ?_, by rw [hnew]; omega⟩
    rw [hfbn]
    exact Nat.lt_irrefl fbn
  · obtain rfl : k = fbn := by omega
    rw [hnew]
    exact hL.zero _ le_rfl j
  · rcases hd' with hkd | hlt
    · rw [slotBlock_direct hkd, update_self, daddr_setAddr_ne (by omega), ← slotBlock_direct (d := s.disk) hkd]
      exact hL.unused i k h1 h2 (by omega) hkm (.inl hkd)
    · omega

theorem Layout.indirect_ne (hind : NDIRECT < nb i) :
    (∀ j k, 1 ≤ j → j < s.freeinode → k < nb j → slotBlock D s.disk j (some k) ≠ daddr (D i) NDIRECT) ∧
    (∀ j, 1 ≤ j → j < s.freeinode → j ≠ i → NDIRECT < nb j → daddr (D j) NDIRECT ≠ daddr (D i) NDIRECT) := by
  refine ⟨fun j k hj1 hj2 hk heq => ?_, fun j hj1 hj2 hj hjn heq => ?_⟩
  · have := (hL.inj j i (some k) none hj1 hj2 h1 h2 hk hind heq).2
    cases this
  · exact hj (hL.inj j i none none hj1 hj2 h1 h2 hjn hind heq).1

theorem Layout.found_entry (hfbn : nb i = fbn) (hd : NDIRECT < fbn) (hm : fbn < MAXFILE) (hfb : s.freeblock < 2 ^ 32) :
    Found D s nb c i fbn s.freeblock (D i) { s with
      disk := update s.disk (daddr (D i) NDIRECT)
        (storeLE (s.disk (daddr (D i) NDIRECT)) (4 * (fbn - NDIRECT)) 4 s.freeblock)
      freeblock := s.freeblock + 1 } := by
  have hind : NDIRECT < nb i := by omega
  obtain ⟨hdata, hinds⟩ := hL.indirect_ne h1 h2 hind
  have hlt := (hL.range i none h1 h2 hind).2
  have hge := (hL.range i none h1 h2 hind).1
  change daddr (D i) NDIRECT < s.freeblock at hlt
  change nmeta ≤ daddr (D i) NDIRECT at hge
  generalize hdisk : update s.disk (daddr (D i) NDIRECT)
    (storeLE (s.disk (daddr (D i) NDIRECT)) (4 * (fbn - NDIRECT)) 4 s.freeblock) = disk'
  have hself : disk' (daddr (D i) NDIRECT) =
      storeLE (s.disk (daddr (D i) NDIRECT)) (4 * (fbn - NDIRECT)) 4 s.freeblock := by rw [← hdisk, update_self]
  have hother : ∀ b, b ≠ daddr (D i) NDIRECT → disk' b = s.disk b := fun b hb => by rw [← hdisk, update_of_ne hb]
  have hnew : slotBlock D disk' i (some fbn) = s.freeblock := by
    rw [slotBlock_indirect (by omega), hself, wordAt_store hfb]
  have hold : ∀ j x, 1 ≤ j → j < s.freeinode → Needs (nb j) x → slotBlock D disk' j x = slotBlock D s.disk j x := by
    intro j x hj1 hj2 hx
    cases x with
    | none => rfl
    | some k =>
      have hk : k < nb j := hx
      by_cases hkd : k < NDIRECT
      · rw [slotBlock_direct hkd, slotBlock_direct hkd]
      · rw [slotBlock_indirect hkd, slotBlock_indirect hkd]
        by_cases hj : j = i
        · subst hj
          rw [hself, wordAt_store_ne (by omega)]
        · rw [hother _ (hinds j hj1 hj2 hj (by omega))]
  have hslot : ∀ x, Needs (fbn + 1) x → ¬Needs (nb i) x → x = some fbn := by
    intro x hx hno
    rw [hfbn] at hno
    rcases needs_succ hx hno with h | ⟨-, h⟩
    · exact h
    · omega
  have hupd : update D i (D i) = D := update_eq_self ..
  refine ⟨?_, by rw [hupd]; exact hnew.symm, rfl, le_max_right _ _, fun b hb => hother b (by omega), fun y hy => rfl⟩
  rw [max_eq_right (by omega), hupd]
  change Layout D disk' s.freeinode (s.freeblock + 1) _ c
  refine hL.grow h1 h2 (by omega) (by omega) (Nat.le_succ _) hold (fun j k hj1 hj2 hk => hother _ (hdata j k hj1 hj2 hk))
    (fun x hx hno => ?_) (fun x x' hx hno hx' hno' _ => ?_) (fun b hb1 hb2 => ?_) (fun k hk hkn j => ?_)
    (fun j hj => rfl) (fun j hj1 hj2 hj hjn => hother _ (hinds j hj1 hj2 hj hjn)) (fun hle => ?_) (fun k hk hkm hd' => ?_)
    (fun b hb k => ?_)
  · rw [hslot x hx hno, hnew]
    exact ⟨le_rfl, Nat.lt_succ_self _⟩
  · rw [hslot x hx hno, hslot x' hx' hno']
  · refine ⟨some fbn, Nat.lt_succ_self _, ?_, by rw [hnew]; omega⟩
    rw [hfbn]
    exact Nat.lt_irrefl fbn
  · obtain rfl : k = fbn := by omega
    rw [hnew, hother _ (by omega)]
    exact hL.zero _ le_rfl j
  · omega
  · rw [slotBlock_indirect (by omega), hself, wordAt_store_ne (by omega), ← slotBlock_indirect (i := i) (by omega)]
    exact hL.unused i k h1 h2 (by omega) hkm (.inr hind)
  · rw [hother _ (by omega)]
    exact hL.zero b (by omega) k

theorem Layout.found_indirect (hfbn : nb i = NDIRECT) (hfb : s.freeblock + 1 < 2 ^ 32) :
    Found D s nb c i NDIRECT (s.freeblock + 1) (setAddr (D i) NDIRECT s.freeblock) { s with
      disk := update s.disk s.freeblock (storeLE (s.disk s.freeblock) (4 * (NDIRECT - NDIRECT)) 4 (s.freeblock + 1))
      freeblock := s.freeblock + 1 + 1 } := by
  have hle := hL.le
  generalize hdisk : update s.disk s.freeblock
    (storeLE (s.disk s.freeblock) (4 * (NDIRECT - NDIRECT)) 4 (s.freeblock + 1)) = disk'
  have hself : disk' s.freeblock = storeLE (s.disk s.freeblock) (4 * (NDIRECT - NDIRECT)) 4 (s.freeblock + 1) := by
    rw [← hdisk, update_self]
  have hother : ∀ b, b ≠ s.freeblock → disk' b = s.disk b := fun b hb => by rw [← hdisk, update_of_ne hb]
  generalize hD : update D i (setAddr (D i) NDIRECT s.freeblock) = D'
  have hDi : D' i = setAddr (D i) NDIRECT s.freeblock := by rw [← hD, update_self]
  have hDj : ∀ j, j ≠ i → D' j = D j := fun j hj => by rw [← hD, update_of_ne hj]
  have hind : daddr (D' i) NDIRECT = s.freeblock := by rw [hDi, daddr_setAddr (by omega)]
  have hnew : slotBlock D' disk' i (some NDIRECT) = s.freeblock + 1 := by
    rw [slotBlock_indirect (Nat.lt_irrefl _), hind, hself, wordAt_store hfb]
  have hnone : slotBlock D' disk' i none = s.freeblock := hind
  have hold : ∀ j x, 1 ≤ j → j < s.freeinode → Needs (nb j) x → slotBlock D' disk' j x = slotBlock D s.disk j x := by
    intro j x hj1 hj2 hx
    by_cases hj : j = i
    · subst hj
      cases x with
      | none =>
        have : NDIRECT < nb j := hx
        omega
      | some k =>
        have hk : k < nb j := hx
        rw [slotBlock_direct (by omega), slotBlock_direct (by omega), hDi, daddr_setAddr_ne (by omega)]
    · cases x with
      | none =>
        change daddr (D' j) NDIRECT = daddr (D j) NDIRECT
        rw [hDj j hj]
      | some k =>
        have hk : k < nb j := hx
        by_cases hkd : k < NDIRECT
        · rw [slotBlock_direct hkd, slotBlock_direct hkd, hDj j hj]
        · have := (hL.range j none hj1 hj2 (show NDIRECT < nb j by omega)).2
          change daddr (D j) NDIRECT < _ at this
          rw [slotBlock_indirect hkd, slotBlock_indirect hkd, hDj j hj, hother _ (by omega)]
  have hslot : ∀ x, Needs (NDIRECT + 1) x → ¬Needs (nb i) x → x = some NDIRECT ∨ x = none := by
    intro x hx hno
    rw [hfbn] at hno
    rcases needs_succ hx hno with h | ⟨h, -⟩
    · exact .inl h
    · exact .inr h
  refine ⟨?_, by rw [hD]; exact hnew.symm, rfl, le_max_right _ _, fun b hb => hother b (by omega), fun y hy => setAddr_low hy⟩
  rw [max_eq_right (by omega), hD]
  have hmax : NDIRECT + 1 ≤ MAXFILE := by decide
  change Layout D' disk' s.freeinode (s.freeblock + 1 + 1) _ c
  refine hL.grow h1 h2 (by omega) hmax (by omega) hold (fun j k hj1 hj2 hk => hother _ ?_) (fun x hx hno => ?_)
    (fun x x' hx hno hx' hno' heq => ?_) (fun b hb1 hb2 => ?_) (fun k hk hkn j => ?_) hDj (fun j hj1 hj2 hj hjn => hother _ ?_)
    (fun hle => ?_) (fun k hk hkm hd' => ?_) (fun b hb k => ?_)
  · have := (hL.range j (some k) hj1 hj2 hk).2
    omega
  · rcases hslot x hx hno with rfl | rfl
    · rw [hnew]
      omega
    · rw [hnone]
      omega
  · rcases hslot x hx hno with rfl | rfl <;> rcases hslot x' hx' hno' with rfl | rfl
    · rfl
    · rw [hnew, hnone] at heq
      omega
    · rw [hnew, hnone] at heq
      omega
    · rfl
  · by_cases hb : b = s.freeblock
    · refine ⟨none, Nat.lt_succ_self NDIRECT, ?_, by rw [hnone, hb]⟩
      rw [hfbn]
      exact Nat.lt_irrefl NDIRECT
    · refine ⟨some NDIRECT, Nat.lt_succ_self NDIRECT, ?_, by rw [hnew]; omega⟩
      rw [hfbn]
      exact Nat.lt_irrefl NDIRECT
  · obtain rfl : k = NDIRECT := by omega
    rw [hnew, hother _ (by omega)]
    exact hL.zero _ (by omega) j
  · have := (hL.range j none hj1 hj2 hjn).2
    change daddr (D j) NDIRECT < _ at this
    omega
  · omega
  · rw [slotBlock_indirect (by omega), hind, hself, wordAt_store_ne (by omega)]
    exact wordAt_zero (hL.zero _ le_rfl) _
  · rw [hother _ (by omega)]
    exact hL.zero b (by omega) k

theorem findBlock_spec (hfbn : fbn ≤ nb i) (hm : fbn < MAXFILE) (hfb : s.freeblock ≤ FSSIZE) :
    wp (findBlock (D i) fbn) (fun r s' => Found D s nb c i fbn r.1 r.2 s') (fun _ => True) s := by
  have hfb' : s.freeblock + 1 < 2 ^ 32 := lt_of_le_of_lt (Nat.succ_le_succ hfb) (by decide)
  unfold findBlock indirectBlock nextBlock
  simp only [wp_ite, wp_bind, wp_get, wp_modify, wp_pure]
  refine ⟨fun hd => ⟨fun hz => ?_, fun hz => ?_⟩, fun hd => ⟨fun hz => ?_, fun hz => ?_⟩⟩
  · have hnb : nb i = fbn := by
      by_contra hne
      exact hL.pos h1 h2 (show Needs (nb i) (some fbn) from lt_of_le_of_ne hfbn (Ne.symm hne)) ((slotBlock_direct hd).trans hz)
    exact hL.found_direct h1 h2 hnb hd (by omega)
  · have hlt : fbn < nb i := by
      by_contra hge
      exact hz ((slotBlock_direct (d := s.disk) hd).symm.trans (hL.unused i fbn h1 h2 (by omega) hm (.inl hd)))
    have := hL.found_old (i := i) hlt
    rwa [slotBlock_direct hd] at this
  · -- the file has no indirect block
    have hle : nb i ≤ NDIRECT := by
      by_contra hgt
      exact hL.pos h1 h2 (show Needs (nb i) none from Nat.lt_of_not_le hgt) hz
    obtain rfl : fbn = NDIRECT := by omega
    have hnb : nb i = NDIRECT := by omega
    have hset : daddr (setAddr (D i) NDIRECT s.freeblock) NDIRECT = s.freeblock := daddr_setAddr (by omega)
    unfold rsect wsect
    simp only [wp_ite, wp_bind, wp_get, wp_modify, wp_pure, hset]
    refine ⟨fun _ => ⟨fun _ => hL.found_indirect h1 h2 hnb hfb', fun hw => ?_⟩, fun _ => trivial⟩
    exact absurd (wordAt_zero (hL.zero _ le_rfl) _) hw
  · have hgt : NDIRECT < nb i := by
      by_contra hle
      exact hz (hL.noInd i h1 h2 (Nat.le_of_not_lt hle))
    unfold rsect wsect
    simp only [wp_ite, wp_bind, wp_get, wp_modify, wp_pure]
    refine ⟨fun _ => ⟨fun hw => ?_, fun hw => ?_⟩, fun _ => trivial⟩
    · have hnb : nb i = fbn := by
        by_contra hne
        exact hL.pos h1 h2 (show Needs (nb i) (some fbn) from lt_of_le_of_ne hfbn (Ne.symm hne)) ((slotBlock_indirect hd).trans hw)
      exact hL.found_entry h1 h2 hnb (by omega) hm (by omega)
    · have hlt : fbn < nb i := by
        by_contra hge
        exact hw ((slotBlock_indirect (d := s.disk) hd).symm.trans (hL.unused i fbn h1 h2 (by omega) hm (.inr hgt)))
      have := hL.found_old (i := i) hlt
      rwa [slotBlock_indirect hd] at this

end

theorem getD_append_write {l l' : List UInt8} {x : Nat} :
    (l ++ l').getD x 0 = if l.length ≤ x ∧ x < l.length + l'.length then l'.getD (x - l.length) 0 else l.getD x 0 := by
  by_cases h : x < l.length
  · rw [if_neg (by omega), List.getD_append _ _ _ _ h]
  · rw [List.getD_append_right _ _ _ _ (by omega)]
    split
    · rfl
    · rw [List.getD_eq_default _ _ (by omega), List.getD_eq_default _ _ (by omega)]

theorem Layout.write (hL : Layout D disk m fb nb c) (h1 : 1 ≤ i) (h2 : i < m) {f : Nat} {l : List UInt8} (hk : f < nb i)
    (hlo : f * BSIZE ≤ (c i).length) (hhi : (c i).length + l.length ≤ (f + 1) * BSIZE) :
    Layout D (update disk (slotBlock D disk i (some f)) (Bytes.write (disk (slotBlock D disk i (some f)))
      ((c i).length - f * BSIZE) l.length fun k => l.getD k 0)) m fb nb (update c i (c i ++ l)) := by
  generalize hx : slotBlock D disk i (some f) = x
  generalize hdisk : update disk x
    (Bytes.write (disk x) ((c i).length - f * BSIZE) l.length fun k => l.getD k 0) = disk'
  have hself : disk' x = Bytes.write (disk x) ((c i).length - f * BSIZE) l.length fun k => l.getD k 0 := by
    rw [← hdisk, update_self]
  have hother : ∀ b, b ≠ x → disk' b = disk b := fun b hb => by rw [← hdisk, update_of_ne hb]
  have hxlt : x < fb := hx ▸ (hL.range i (some f) h1 h2 hk).2
  -- a block of a file is no indirect block
  have hind : ∀ j, 1 ≤ j → j < m → NDIRECT < nb j → disk' (daddr (D j) NDIRECT) = disk (daddr (D j) NDIRECT) := by
    intro j hj1 hj2 hj
    refine hother _ fun heq => ?_
    have := (hL.inj j i none (some f) hj1 hj2 h1 h2 hj hk (heq.trans hx.symm)).2
    cases this
  have hslot : ∀ j s, 1 ≤ j → j < m → Needs (nb j) s → slotBlock D disk' j s = slotBlock D disk j s := by
    intro j s hj1 hj2 hs
    cases s with
    | none => rfl
    | some k =>
      have hkj : k < nb j := hs
      by_cases hkd : k < NDIRECT
      · rw [slotBlock_direct hkd, slotBlock_direct hkd]
      · rw [slotBlock_indirect hkd, slotBlock_indirect hkd, hind j hj1 hj2 (by omega)]
  refine ⟨hL.le, hL.max, fun j s hj1 hj2 hs => ?_, fun j j' s s' hj1 hj2 hj1' hj2' hs hs' heq => ?_, fun b hb1 hb2 => ?_, hL.noInd,
    fun j k hj1 hj2 hkj hkm hd => ?_, fun b hb k => ?_, fun j k hj1 hj2 hkj y hy => ?_, fun j hj1 hj2 => ?_⟩
  · rw [hslot j s hj1 hj2 hs]
    exact hL.range j s hj1 hj2 hs
  · rw [hslot j s hj1 hj2 hs, hslot j' s' hj1' hj2' hs'] at heq
    exact hL.inj j j' s s' hj1 hj2 hj1' hj2' hs hs' heq
  · obtain ⟨j, s, hj1, hj2, hs, hb⟩ := hL.onto b hb1 hb2
    exact ⟨j, s, hj1, hj2, hs, (hslot j s hj1 hj2 hs).trans hb⟩
  · have h := hL.unused j k hj1 hj2 hkj hkm hd
    by_cases hkd : k < NDIRECT
    · rw [slotBlock_direct hkd] at h ⊢
      exact h
    · rw [slotBlock_indirect hkd] at h ⊢
      rw [hind j hj1 hj2 (by omega)]
      exact h
  · rw [hother _ (by omega)]
    exact hL.zero b hb k
  · have hold := hL.content j k hj1 hj2 hkj y hy
    rw [hslot j (some k) hj1 hj2 hkj]
    by_cases hj : j = i
    · subst hj
      rw [update_self, getD_append_write]
      by_cases hkf : k = f
      · subst hkf
        rw [hx] at hold ⊢
        rw [hself]
        by_cases hin : (c j).length - k * BSIZE ≤ y ∧ y < (c j).length - k * BSIZE + l.length
        · rw [Bytes.write_inside hin.1 hin.2, if_pos (by omega)]
          congr 1
          omega
        · rw [Bytes.write_outside (by omega), if_neg (by omega), hold]
      · have hne : slotBlock D disk j (some k) ≠ x := fun heq =>
          hkf (Option.some.inj (hL.inj j j (some k) (some f) h1 h2 h1 h2 hkj hk (heq.trans hx.symm)).2)
        rw [hother _ hne, hold, if_neg]
        rintro ⟨hy1, hy2⟩
        -- byte `y` of another block is not in the last one
        rcases Nat.lt_or_gt_of_ne hkf with hlt | hgt
        · have : (k + 1) * BSIZE ≤ f * BSIZE := Nat.mul_le_mul_right _ hlt
          lia
        · have : (f + 1) * BSIZE ≤ k * BSIZE := Nat.mul_le_mul_right _ hgt
          lia
    · have hne : slotBlock D disk j (some k) ≠ x := fun heq =>
        hj (hL.inj j i (some k) (some f) hj1 hj2 h1 h2 hkj hk (heq.trans hx.symm)).1
      rw [hother _ hne, update_of_ne hj]
      exact hold
  · by_cases hj : j = i
    · subst hj
      rw [update_self, List.length_append]
      exact hhi.trans (Nat.mul_le_mul_right _ hk)
    · rw [update_of_ne hj]
      exact hL.fits j hj1 hj2

end Xv6.Mkfs
