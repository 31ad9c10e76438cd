import Mathlib.Data.List.DropRight
import Mathlib.Data.List.TakeWhile
import Xv6.Fs.Array
import Xv6.Fs.Sys

/-!
# Path resolution

The elements that `skipelem` takes off a path, and what `namex` does when no other process runs.
-/

namespace Xv6.Fs

open Function (update update_of_ne update_self)
open Run Prog

variable {n : Nat} {p : Fin n} {s0 s s' : State n} {i j : Fin NINODE} {x y : Nat} {name path rest w : List UInt8}

def parts (path : List UInt8) : List (List UInt8) := (path.splitOn slash).filter (· ≠ [])

/-- What repeated calls of `skipelem` yield; `fuel` of them at most. -/
def elements : Nat → List UInt8 → List (List UInt8)
  | 0, _ => []
  | fuel + 1, path =>
    match skipelem path with
    | none => []
    | some (rest, name) => name :: elements fuel rest

theorem parts_slash (path : List UInt8) : parts (slash :: path) = parts path := by
  unfold parts List.splitOn
  rw [List.splitOnP_cons_eq_if_modifyHead, if_pos (by rfl)]
  rfl

theorem parts_dropWhile (path : List UInt8) : parts (path.dropWhile (· = slash)) = parts path := by
  induction path with
  | nil => rfl
  | cons c path ih =>
    by_cases hc : c = slash
    · rw [List.dropWhile_cons_of_pos (by simpa using hc), ih, hc, parts_slash]
    · rw [List.dropWhile_cons_of_neg (by simpa using hc)]

theorem parts_append (hw : w ≠ []) (hslash : ∀ c ∈ w, (c == slash) = false) (path : List UInt8) :
    parts (w ++ slash :: path) = w :: parts path := by
  unfold parts List.splitOn
  rw [List.splitOnP_append_cons_of_forall_mem hslash slash (by rfl), List.filter_cons_of_pos (by simpa using hw)]

theorem parts_single (hw : w ≠ []) (hslash : ∀ c ∈ w, (c == slash) = false) : parts w = [w] := by
  unfold parts List.splitOn
  rw [List.splitOnP_eq_singleton hslash, List.filter_cons_of_pos (by simpa using hw)]
  rfl

theorem skipelem_parts (path : List UInt8) :
    (skipelem path = none ∧ parts path = []) ∨
    ∃ rest w, skipelem path = some (rest, w.take DIRSIZ) ∧ parts path = w :: parts rest ∧ rest.length < path.length ∧
      rest.dropWhile (· = slash) = rest := by
  have hparts := parts_dropWhile path
  have hle : (path.dropWhile (· = slash)).length ≤ path.length := (List.dropWhile_suffix _).length_le
  have hhead := List.head?_dropWhile_not (fun c : UInt8 => decide (c = slash)) path
  unfold skipelem
  cases hd : path.dropWhile (· = slash) with
  | nil =>
    rw [hd] at hparts
    exact .inl ⟨rfl, hparts.symm⟩
  | cons c t =>
    rw [hd] at hparts hle hhead
    have hc : c ≠ slash := by simpa using hhead
    have hsplit : (c :: t).takeWhile (· ≠ slash) ++ (c :: t).dropWhile (· ≠ slash) = c :: t := List.takeWhile_append_dropWhile
    have hne : (c :: t).takeWhile (· ≠ slash) ≠ [] := by
      rw [List.takeWhile_cons_of_pos (by simpa using hc)]
      exact List.cons_ne_nil _ _
    have hslash : ∀ a ∈ (c :: t).takeWhile (· ≠ slash), (a == slash) = false := fun a ha => by
      simpa using List.mem_takeWhile_imp ha
    have hlen : ((c :: t).takeWhile (· ≠ slash)).length + ((c :: t).dropWhile (· ≠ slash)).length = (c :: t).length := by
      rw [← List.length_append, hsplit]
    have hpos := List.length_pos_iff.2 hne
    have hhead' := List.head?_dropWhile_not (fun c : UInt8 => decide (c ≠ slash)) (c :: t)
    dsimp only
    generalize (c :: t).takeWhile (· ≠ slash) = w at *
    generalize (c :: t).dropWhile (· ≠ slash) = u at *
    refine .inr ⟨u.dropWhile (· = slash), w, rfl, ?_, ?_, ?_⟩
    · rw [← hparts, ← hsplit, parts_dropWhile]
      cases u with
      | nil =>
        rw [List.append_nil, parts_single hne hslash]
        rfl
      | cons a u =>
        obtain rfl : a = slash := by simpa using hhead'
        rw [parts_append hne hslash, parts_slash]
    · have := (List.dropWhile_suffix (l := u) (fun c => decide (c = slash))).length_le
      omega
    · exact List.dropWhile_idempotent _ _

theorem elements_eq : ∀ {fuel : Nat} {path : List UInt8}, path.length < fuel →
    elements fuel path = (parts path).map (List.take DIRSIZ) := by
  intro fuel
  induction fuel with
  | zero => exact fun h => absurd h (Nat.not_lt_zero _)
  | succ fuel ih =>
    intro path h
    unfold elements
    rcases skipelem_parts path with ⟨hs, hp⟩ | ⟨rest, w, hs, hp, hlt, -⟩
    · rw [hs, hp]
      rfl
    · rw [hs, hp, List.map_cons]
      dsimp only
      rw [ih (by omega)]

def dirents (size : Nat) (data : Nat → UInt8) : List Dirent :=
  (List.range (size / DIRENT)).map fun j => Dirent.ofBytes fun k => data (DIRENT * j + k)

/-- The entries of the directory with inode number `x`. -/
def State.dirents (s : State n) (x : Nat) : List Dirent := Fs.dirents (s.dinode x).size (s.byte (s.dinode x))

def State.find (s : State n) (x : Nat) (name : List UInt8) : Option Nat :=
  ((s.dirents x).find? fun e => decide (e.inum ≠ 0 ∧ name = e.name)).map Dirent.inum

/-- Follow the names from the inode number `x` on. -/
def State.resolve (s : State n) : Nat → List (List UInt8) → Option Nat
  | x, [] => some x
  | x, name :: names => if (s.dinode x).type = .T_DIR then (s.find x name).bind (s.resolve · names) else none

/-- The inode is in use, and would not be freed if a further reference to it were dropped. -/
def State.Reached (s : State n) (x : Nat) : Prop :=
  (s.dinode x).type ≠ .free ∧ ((s.dinode x).nlink ≠ 0 ∨ ∃ i, 0 < (s.itable i).ref ∧ (s.itable i).inum = x)

/-- The directories are files without holes, made of entries that name inodes in use or free ones. -/
structure Tree (s : State n) : Prop where
  root : s.Reached ROOTINO
  size : ∀ x, (s.dinode x).type = .T_DIR → (s.dinode x).size ≤ MAXFILE * BSIZE ∧ (s.dinode x).size % DIRENT = 0
  full : ∀ x, (s.dinode x).type = .T_DIR → s.NoHoles (s.dinode x)
  entry : ∀ x, (s.dinode x).type = .T_DIR → ∀ e ∈ s.dirents x, e.inum ≠ 0 →
    s.Reached e.inum ∨ (s.dinode e.inum).type = .free

/-- The inode of the entry is in use, and would not be freed with a reference more to it; or it is a free one that has not been read. -/
def State.Stays (s : State n) (v : Inode n) : Prop :=
  s.Reached v.inum ∨ (s.dinode v.inum).type = .free ∧ v.valid = false

structure Settled (s : State n) : Prop where
  ref : ∀ i, 0 ≤ (s.itable i).ref
  lock : ∀ i, (s.itable i).lock = none
  uniq : ∀ i j, 0 < (s.itable i).ref → 0 < (s.itable j).ref → (s.itable i).inum = (s.itable j).inum → i = j
  loaded : ∀ i, 0 < (s.itable i).ref → (s.itable i).valid = true → (s.itable i).d = s.dinode (s.itable i).inum
  used : ∀ i, 0 < (s.itable i).ref → (s.dinode (s.itable i).inum).type ≠ .free

/-- Since the state `b` a process has taken `c j` references to entry `j`, and entries that are not in use may have changed. The
inode of an entry in use stays when the process drops its references, or it is a free one that has not been read. -/
structure Refs (b : State n) (c : Fin NINODE → Int) (t : State n) : Prop where
  ref : ∀ j, (t.itable j).ref = (b.itable j).ref + c j
  held : ∀ j, 0 ≤ c j
  inum : ∀ j, 0 < (b.itable j).ref → (t.itable j).inum = (b.itable j).inum
  uniq : ∀ i j, 0 < (t.itable i).ref → 0 < (t.itable j).ref → (t.itable i).inum = (t.itable j).inum → i = j
  loaded : ∀ j, 0 < (t.itable j).ref → (t.itable j).valid = true → (t.itable j).d = b.dinode (t.itable j).inum
  stays : ∀ j, 0 < (t.itable j).ref → b.Stays (t.itable j)

/-- From `s0` to `s` process `p` has taken `c j` references to entry `j` and the lock of entry `l`, and has changed nothing else but
entries that are not in use. -/
structure Walks (p : Fin n) (s0 : State n) (c : Fin NINODE → Int) (l : Option (Fin NINODE)) (s : State n) : Prop extends Refs s0 c s where
  same : s = { s0 with itable := s.itable, irefs := s.irefs }
  irefs : ∀ q j, s.irefs q j = s0.irefs q j + if q = p then c j else 0
  lock : ∀ j, (s.itable j).lock = if l = some j then some p else none

variable {c : Fin NINODE → Int} {l m : Option (Fin NINODE)} {v : Inode n} {k : Int} {b t t' s1 s2 s3 : State n}

theorem Settled.walks (h : Settled s0) : Walks p s0 (fun _ => 0) none s0 where
  same := rfl
  ref j := (add_zero _).symm
  irefs q j := by split <;> rw [add_zero]
  held _ := le_rfl
  inum _ _ := rfl
  lock j := h.lock j
  uniq := h.uniq
  loaded := h.loaded
  stays j hj := .inl ⟨h.used j hj, .inr ⟨j, hj, rfl⟩⟩

theorem Refs.set (h : Refs b c t) (c' : Fin NINODE → Int) (hit : t'.itable = update t.itable i v)
    (hne : ∀ j, j ≠ i → c' j = c j) (href : v.ref = (b.itable i).ref + c' i) (hc : 0 ≤ c' i)
    (hinum : 0 < (b.itable i).ref → v.inum = (b.itable i).inum)
    (huniq : 0 < v.ref → ∀ j, j ≠ i → 0 < (t.itable j).ref → (t.itable j).inum ≠ v.inum)
    (hload : 0 < v.ref → v.valid = true → v.d = b.dinode v.inum) (hstay : 0 < v.ref → b.Stays v) : Refs b c' t' := by
  have hself : t'.itable i = v := by rw [hit, update_self]
  have hother : ∀ j, j ≠ i → t'.itable j = t.itable j := fun j hj => by rw [hit, update_of_ne hj]
  refine ⟨fun j => ?_, fun j => ?_, fun j hj => ?_, fun a b ha hb hab => ?_, fun j hj hv => ?_, fun j hj => ?_⟩
  · by_cases hj : j = i
    · rw [hj, hself, href]
    · rw [hother j hj, h.ref j, hne j hj]
  · by_cases hj : j = i
    · rw [hj]
      exact hc
    · rw [hne j hj]
      exact h.held j
  · by_cases hji : j = i
    · subst hji
      rw [hself, hinum hj]
    · rw [hother j hji, h.inum j hj]
  · by_cases hai : a = i
    · by_cases hbi : b = i
      · exact hai.trans hbi.symm
      · rw [hai, hself] at ha hab
        rw [hother b hbi] at hb hab
        exact absurd hab.symm (huniq ha b hbi hb)
    · rw [hother a hai] at ha hab
      by_cases hbi : b = i
      · rw [hbi, hself] at hb hab
        exact absurd hab (huniq hb a hai ha)
      · rw [hother b hbi] at hb hab
        exact h.uniq a b ha hb hab
  · by_cases hji : j = i
    · subst hji
      rw [hself] at hj hv ⊢
      exact hload hj hv
    · rw [hother j hji] at hj hv ⊢
      exact h.loaded j hj hv
  · by_cases hji : j = i
    · subst hji
      rw [hself] at hj ⊢
      exact hstay hj
    · rw [hother j hji] at hj ⊢
      exact h.stays j hj

theorem Refs.pos (h : Refs b c t) (h0 : ∀ j, 0 ≤ (b.itable j).ref) (hc : 0 < c i) : 0 < (t.itable i).ref := by
  have h1 := h.ref i
  have h2 := h0 i
  omega

theorem Refs.not_last (h : Refs b c t) (h0 : ∀ j, 0 ≤ (b.itable j).ref) (hc : 0 < c i) :
    ¬((t.itable i).ref = 1 ∧ (t.itable i).valid = true ∧ (b.dinode (t.itable i).inum).nlink = 0) := by
  rintro ⟨hone, hv, hlink⟩
  have hpos := h.pos h0 hc
  have href := h.ref i
  have hnn := h0 i
  rcases h.stays i hpos with ⟨-, hne | ⟨j, hj, hnum⟩⟩ | ⟨-, hnv⟩
  · exact hne hlink
  · have hjs : 0 < (t.itable j).ref := by
      have h1 := h.ref j
      have h2 := h.held j
      omega
    have hji := h.uniq j i hjs hpos ((h.inum j hj).trans hnum)
    subst hji
    omega
  · rw [hv] at hnv
    cases hnv

theorem Walks.set (h : Walks p s0 c l s) (href : v.ref = (s.itable i).ref + k) (hc : 0 ≤ c i + k)
    (hlock : v.lock = if m = some i then some p else none) (hl : ∀ j, j ≠ i → (m = some j ↔ l = some j))
    (hinum : 0 < (s0.itable i).ref → v.inum = (s0.itable i).inum)
    (huniq : 0 < v.ref → ∀ j, j ≠ i → 0 < (s.itable j).ref → (s.itable j).inum ≠ v.inum)
    (hload : 0 < v.ref → v.valid = true → v.d = s0.dinode v.inum) (hstays : 0 < v.ref → s0.Stays v) :
    Walks p s0 (update c i (c i + k)) m ((s.setInode i v).noteInode p i k) := by
  refine ⟨h.toRefs.set _ rfl (fun j hj => update_of_ne hj ..) ?_ ?_ hinum huniq hload hstays, ?_, fun q j => ?_, fun j => ?_⟩
  · rw [update_self, href, h.ref i]
    omega
  · rw [update_self]
    exact hc
  · rw [h.same]
    rfl
  · change (if q = p ∧ j = i then s.irefs q j + k else s.irefs q j) = _
    rw [h.irefs q j]
    by_cases hq : q = p
    · by_cases hj : j = i
      · subst hj
        rw [if_pos ⟨hq, rfl⟩, if_pos hq, if_pos hq, update_self]
        omega
      · rw [if_neg fun hh => hj hh.2, if_pos hq, if_pos hq, update_of_ne hj]
    · rw [if_neg fun hh => hq hh.1, if_neg hq, if_neg hq]
  · change (update s.itable i v j).lock = _
    by_cases hj : j = i
    · subst hj
      rw [update_self, hlock]
    · rw [update_of_ne hj, h.lock j]
      simp only [hl j hj]

theorem noteInode_zero (s : State n) (p : Fin n) (i : Fin NINODE) : s.noteInode p i 0 = s := by
  unfold State.noteInode bump
  simp only [add_zero, ite_self]

def KeepsInums (s s' : State n) : Prop := ∀ j, 0 < (s.itable j).ref → (s'.itable j).inum = (s.itable j).inum

theorem keepsInums_set (hs' : s'.itable = update s.itable i v) (hv : v.inum = (s.itable i).inum) : KeepsInums s s' := by
  intro j _
  rw [hs', Function.update_apply]
  split
  · next hj => rw [hj, hv]
  · rfl

theorem KeepsInums.trans (h : KeepsInums s1 s2) (h' : KeepsInums s2 s3)
    (hpos : ∀ j, 0 < (s1.itable j).ref → 0 < (s2.itable j).ref) : KeepsInums s1 s3 := fun j hj =>
  (h' j (hpos j hj)).trans (h j hj)

theorem Walks.reached (h : Walks p s0 c l s) (hpos : 0 < (s.itable i).ref) (hv : (s.itable i).valid = true) :
    s0.Reached (s.itable i).inum := by
  rcases h.stays i hpos with hr | ⟨-, hno⟩
  · exact hr
  · rw [hv] at hno
    cases hno

theorem Walks.setEntry (h : Walks p s0 c l s) (hpos : 0 < (s.itable i).ref) (href : v.ref = (s.itable i).ref)
    (hinum : v.inum = (s.itable i).inum) (hlock : v.lock = if m = some i then some p else none)
    (hl : ∀ j, j ≠ i → (m = some j ↔ l = some j))
    (hload : v.valid = true → v.d = s0.dinode (s.itable i).inum ∧ s0.Reached (s.itable i).inum) :
    Walks p s0 c m (s.setInode i v) := by
  have hstays : s0.Stays v := by
    unfold State.Stays
    rw [hinum]
    rcases h.stays i hpos with hr | ⟨hfree, -⟩
    · exact .inl hr
    · cases hv : v.valid with
      | true => exact .inl (hload hv).2
      | false => exact .inr ⟨hfree, rfl⟩
  have hset := h.set (v := v) (k := 0) (by rw [href, add_zero]) (by rw [add_zero]; exact h.held i) hlock hl
    (fun h0 => hinum.trans (h.inum i h0)) (fun _ j hj hjpos he => hj (h.uniq j i hjpos hpos (he.trans hinum)))
    (fun _ hv => by rw [hinum]; exact (hload hv).1) fun _ => hstays
  rwa [add_zero, Function.update_eq_self, noteInode_zero] at hset

theorem atomic_eval {α : Type} {f : State n → Except Stop (State n × α)} {a : α} (h : f s = .ok (s', a)) :
    (atomic f : FsM n α).eval s = .ok (s', a) := by
  rw [atomic, eval, h]
  rfl

theorem cached_some (h : s.cached x = some i) : 0 < (s.itable i).ref ∧ (s.itable i).inum = x := by
  have := List.find?_some (p := fun i => decide ((s.itable i).ref > 0 ∧ (s.itable i).inum = x)) h
  exact of_decide_eq_true this

theorem cached_none (h : s.cached x = none) (hj : 0 < (s.itable j).ref) : (s.itable j).inum ≠ x := fun he => by
  have := List.find?_eq_none.1 h j (List.mem_finRange j)
  simp only [decide_eq_true_eq, not_and] at this
  exact this hj he

theorem empty_some (h : s.empty = some i) : (s.itable i).ref = 0 := by
  have := List.find?_some (p := fun i => decide ((s.itable i).ref = 0)) h
  exact of_decide_eq_true this

theorem empty_none (h : s.empty = none) : (s.itable j).ref ≠ 0 := by
  have := List.find?_eq_none.1 h j (List.mem_finRange j)
  simpa only [decide_eq_true_eq] using this

/-- The inode has an entry that is in use. -/
def State.Used (s : State n) (x : Nat) : Prop := ∃ j, 0 < (s.itable j).ref ∧ (s.itable j).inum = x

/-- `iget` has an entry for the inode. -/
def State.Serves (s : State n) (x : Nat) : Prop := s.Used x ∨ ∃ j, (s.itable j).ref = 0

theorem Walks.iget (h : Walks p s0 c l s) (h0 : Settled s0) (hx : s0.Reached x ∨ (s0.dinode x).type = .free) (hroom : s.Serves x)
    (hl : ∀ j, l = some j → 0 < (s.itable j).ref) :
    ∃ s' i, (iget p x).eval s = .ok (s', i) ∧ Walks p s0 (update c i (c i + 1)) l s' ∧ (s'.itable i).inum = x ∧
      KeepsInums s s' := by
  unfold Fs.iget
  rcases hc : s.cached x with _ | i
  · rcases he : s.empty with _ | i
    · rcases hroom with ⟨j, hj, hnum⟩ | ⟨j, hj⟩
      · exact absurd hnum (cached_none hc hj)
      · exact absurd hj (empty_none he)
    · have hi := empty_some he
      have hli : l ≠ some i := fun hc => by
        have := hl i hc
        omega
      have hci : (s0.itable i).ref = 0 ∧ c i = 0 := by
        have h1 := h.ref i
        have h2 := h.held i
        have h3 := h0.ref i
        omega
      set v : Inode n := { s.itable i with inum := x, ref := 1, valid := false } with hv
      have hset := h.set (v := v) (k := 1) (m := l) (by rw [hi]; rfl) (by omega) (h.lock i) (fun _ _ => Iff.rfl) (fun hp => by omega)
        (fun _ j _ hj => cached_none hc hj) (by simp) (fun _ => hx.imp_right fun hfree => ⟨hfree, rfl⟩)
      refine ⟨_, i, atomic_eval (by rw [hc, he]), hset, ?_, fun j hj => ?_⟩
      · change (update s.itable i v i).inum = x
        rw [update_self]
      · change (update s.itable i v j).inum = _
        rw [update_of_ne]
        rintro rfl
        omega
  · obtain ⟨hpos, hnum⟩ := cached_some hc
    have hheld := h.held i
    set v : Inode n := { s.itable i with ref := (s.itable i).ref + 1 } with hv
    have hset := h.set (v := v) (k := 1) (m := l) rfl (by omega) (h.lock i) (fun _ _ => Iff.rfl) (fun h1 => h.inum i h1)
      (fun _ j hj hjpos he => hj (h.uniq j i hjpos hpos he)) (fun _ hv => h.loaded i hpos hv) (fun _ => h.stays i hpos)
    refine ⟨_, i, atomic_eval (by rw [hc]), hset, ?_, keepsInums_set (v := v) rfl rfl⟩
    change (update s.itable i v i).inum = x
    rw [update_self]
    exact hnum

theorem iget_error (h : ¬s.Serves x) : (iget p x).eval s = .error (.panic "iget: no inodes") := by
  have hc : s.cached x = none := List.find?_eq_none.2 fun j _ => by
    simp only [decide_eq_true_eq]
    exact fun hj => h (.inl ⟨j, hj⟩)
  have he : s.empty = none := List.find?_eq_none.2 fun j _ => by
    simp only [decide_eq_true_eq]
    exact fun hj => h (.inr ⟨j, hj⟩)
  rw [Fs.iget, atomic, eval, hc, he]

theorem Walks.idup (h : Walks p s0 c l s) (hi : 0 < (s.itable i).ref) :
    ∃ s', (idup p i).eval s = .ok (s', ()) ∧ Walks p s0 (update c i (c i + 1)) l s' ∧ KeepsInums s s' := by
  have hheld := h.held i
  set v : Inode n := { s.itable i with ref := (s.itable i).ref + 1 } with hv
  have hset := h.set (v := v) (k := 1) (m := l) rfl (by omega) (h.lock i) (fun _ _ => Iff.rfl) (fun h1 => h.inum i h1)
    (fun _ j hj hjpos he => hj (h.uniq j i hjpos hi he)) (fun _ hv => h.loaded i hi hv) (fun _ => h.stays i hi)
  exact ⟨_, rfl, hset, keepsInums_set (v := v) rfl rfl⟩

section Lock

variable (h : Walks p s0 c none s) (hi : 0 < (s.itable i).ref)

include h hi

theorem Walks.lock_entry : Walks p s0 c (some i) (s.setInode i { s.itable i with lock := some p }) := by
  refine h.setEntry hi rfl rfl (if_pos rfl).symm (fun j hj => ?_) fun hv => ⟨h.loaded i hi hv, h.reached hi hv⟩
  simp only [Option.some.injEq, reduceCtorEq, iff_false]
  exact fun hij => hj hij.symm

theorem Walks.ilock_second : (ilock p i).eval s = (atomic fun s =>
    if (s.itable i).valid then .ok (s, ())
    else if (s.dinode (s.itable i).inum).type = .free then .error (.panic "ilock: no type")
    else .ok (s.setInode i { s.itable i with d := s.dinode (s.itable i).inum, valid := true }, ()) : FsM n Unit).eval
      (s.setInode i { s.itable i with lock := some p }) :=
  eval_bind (atomic_eval (by rw [if_neg (by omega), if_pos (show (s.itable i).lock = none from h.lock i)]))

theorem Walks.ilock (hused : (s0.dinode (s.itable i).inum).type ≠ .free) :
    ∃ s', (ilock p i).eval s = .ok (s', ()) ∧ Walks p s0 c (some i) s' ∧ (s'.itable i).d = s0.dinode (s.itable i).inum ∧
      KeepsInums s s' ∧ (s'.itable i).ref = (s.itable i).ref := by
  have h1 := h.lock_entry hi
  rw [h.ilock_second hi]
  set s1 := s.setInode i { s.itable i with lock := some p } with hs1
  have hi1 : s1.itable i = { s.itable i with lock := some p } := update_self ..
  have hk1 : KeepsInums s s1 := keepsInums_set rfl rfl
  by_cases hv : (s1.itable i).valid = true
  · refine ⟨s1, atomic_eval (if_pos hv), h1, ?_, hk1, by rw [hi1]⟩
    rw [h1.loaded i (by rw [hi1]; exact hi) hv, hi1]
  · have hdin : s1.dinode (s1.itable i).inum = s0.dinode (s.itable i).inum := by rw [hi1, h1.same]
    have hpos : 0 < (s1.itable i).ref := by rw [hi1]; exact hi
    set s2 := s1.setInode i { s1.itable i with d := s1.dinode (s1.itable i).inum, valid := true } with hs2
    have hi2 : s2.itable i = { s1.itable i with d := s1.dinode (s1.itable i).inum, valid := true } := update_self ..
    refine ⟨s2, atomic_eval (by rw [if_neg hv, if_neg (by rwa [hdin])]),
      h1.setEntry hpos rfl rfl (h1.lock i) (fun _ _ => Iff.rfl) fun _ => ⟨?_, ?_⟩, ?_,
      hk1.trans (keepsInums_set rfl rfl) fun j hj => ?_, ?_⟩
    · rw [hdin, hi1]
    · rw [hi1]
      exact (h.stays i hi).resolve_right fun hfree => hused hfree.1
    · rw [hi2, hdin]
    · rw [h1.ref j, ← h.ref j]
      exact hj
    · rw [hi2, hi1]

theorem Walks.ilock_error (hfree : (s0.dinode (s.itable i).inum).type = .free) :
    (Fs.ilock p i).eval s = .error (.panic "ilock: no type") := by
  have h1 := h.lock_entry hi
  rw [h.ilock_second hi]
  set s1 := s.setInode i { s.itable i with lock := some p } with hs1
  have hi1 : s1.itable i = { s.itable i with lock := some p } := update_self ..
  have hval : (s1.itable i).valid = false := by
    rw [hi1]
    rcases h.stays i hi with hr | ⟨-, hv⟩
    · exact absurd hfree hr.1
    · exact hv
  have hdin : (s1.dinode (s1.itable i).inum).type = .free := by rw [hi1, h1.same, hfree]
  simp only [atomic, eval, hval, hdin, if_true, Bool.false_eq_true, if_false]

end Lock

theorem Walks.iunlock (h : Walks p s0 c (some i) s) (hi : 0 < (s.itable i).ref) :
    ∃ s', (iunlock p i).eval s = .ok (s', ()) ∧ Walks p s0 c none s' ∧ KeepsInums s s' := by
  have hlock : (s.itable i).lock = some p := (h.lock i).trans (if_pos rfl)
  have hok : ¬((s.itable i).lock ≠ some p ∨ (s.itable i).ref < 1) := by
    rintro (hc | hc)
    · exact hc hlock
    · omega
  refine ⟨_, atomic_eval (if_neg hok), h.setEntry hi rfl rfl rfl (fun j hj => ?_) fun hv => ⟨h.loaded i hi hv, h.reached hi hv⟩,
    keepsInums_set rfl rfl⟩
  simp only [reduceCtorEq, Option.some.injEq, false_iff]
  exact fun hij => hj hij.symm

theorem iput_eval (hstay : ¬((t.itable i).ref = 1 ∧ (t.itable i).valid = true ∧ (t.itable i).d.nlink = 0)) :
    (iput p i).eval t = .ok ((t.setInode i { t.itable i with ref := (t.itable i).ref - 1 }).noteInode p i (-1), ()) := by
  unfold Fs.iput
  have hcheck : t.iputCheck p i =
      .ok ((t.setInode i { t.itable i with ref := (t.itable i).ref - 1 }).noteInode p i (-1), false) := if_neg hstay
  exact (eval_bind (atomic_eval hcheck)).trans rfl

theorem Walks.iput (h : Walks p s0 c none s) (h0 : Settled s0) (hc : 0 < c i) :
    ∃ s', (iput p i).eval s = .ok (s', ()) ∧ Walks p s0 (update c i (c i - 1)) none s' ∧ KeepsInums s s' := by
  have hpos := h.pos h0.ref hc
  have hstay : ¬((s.itable i).ref = 1 ∧ (s.itable i).valid = true ∧ (s.itable i).d.nlink = 0) := fun ⟨h1, h2, h3⟩ =>
    h.not_last h0.ref hc ⟨h1, h2, by rw [← h.loaded i hpos h2]; exact h3⟩
  set v : Inode n := { s.itable i with ref := (s.itable i).ref - 1 } with hv
  refine ⟨(s.setInode i v).noteInode p i (-1), iput_eval hstay, ?_, keepsInums_set (v := v) rfl rfl⟩
  exact h.set (k := -1) rfl (by omega) (h.lock i) (fun _ _ => Iff.rfl) (fun h1 => h.inum i h1)
    (fun _ j hj hjpos he => hj (h.uniq j i hjpos hpos he)) (fun _ hv => h.loaded i hpos hv) (fun _ => h.stays i hpos)

theorem Walks.byte (h : Walks p s0 c l s) (d : Dinode) (a : Nat) : s.byte d a = s0.byte d a := by
  rw [h.same]
  rfl

theorem Walks.noHoles (h : Walks p s0 c l s) {d : Dinode} (hd : s0.NoHoles d) : s.NoHoles d := by
  rw [h.same]
  exact hd

theorem ofBytes_congr {b b' : Nat → UInt8} (h : ∀ k < DIRENT, b k = b' k) : Dirent.ofBytes b = Dirent.ofBytes b' := by
  unfold Dirent.ofBytes
  rw [h 0 (by decide), h 1 (by decide)]
  congr 2
  refine List.map_congr_left fun k hk => ?_
  have := List.mem_range.1 hk
  exact h _ (by simp only [DIRENT, DIRSIZ] at *; omega)

theorem readDirent_eval {off : Nat} {msg : String} (hsize : (s.itable i).d.size ≤ MAXFILE * BSIZE) (hfull : s.NoHoles (s.itable i).d)
    (hoff : off + DIRENT ≤ (s.itable i).d.size) :
    (readDirent i off msg).eval s = .ok (s, Dirent.ofBytes fun k => s.byte (s.itable i).d (off + k)) := by
  have hread : readSpec (s.contents (s.itable i).d) off DIRENT = ((DIRENT : Int), ((s.contents (s.itable i).d).drop off).take DIRENT) := by
    unfold readSpec
    rw [contents_length, if_neg (by simp only [MAXFILE, NDIRECT, NINDIRECT, BSIZE, DIRENT] at *; omega), Nat.min_eq_left (by omega)]
  unfold readDirent
  rw [eval_bind (readi_eval hsize hfull off DIRENT), hread]
  dsimp only
  rw [if_pos rfl, eval_pure]
  congr 2
  refine ofBytes_congr fun k hk => ?_
  rw [← contents_part hoff, List.getD_eq_getElem?_getD, List.getElem?_map, List.getElem?_range hk]
  rfl

theorem dirents_drop {size k : Nat} {data : Nat → UInt8} (hk : k < size / DIRENT) :
    (dirents size data).drop k = (Dirent.ofBytes fun j => data (DIRENT * k + j)) :: (dirents size data).drop (k + 1) := by
  unfold dirents
  rw [List.drop_eq_getElem_cons (by rw [List.length_map, List.length_range]; exact hk), List.getElem_map, List.getElem_range]

theorem dirlookupLoop_eval (p : Fin n) (name : List UInt8) (hd : (s.itable i).d.size % DIRENT = 0) (hsize : (s.itable i).d.size ≤ MAXFILE * BSIZE)
    (hfull : s.NoHoles (s.itable i).d) : ∀ fuel k, (s.itable i).d.size / DIRENT < k + fuel →
    (((dirents (s.itable i).d.size (s.byte (s.itable i).d)).drop k).find? (fun e => decide (e.inum ≠ 0 ∧ name = e.name)) = none ∧
      (dirlookupLoop p i name (s.itable i).d.size fuel (DIRENT * k)).eval s = .ok (s, none)) ∨
    ∃ e off, ((dirents (s.itable i).d.size (s.byte (s.itable i).d)).drop k).find? (fun e => decide (e.inum ≠ 0 ∧ name = e.name)) = some e ∧
      (dirlookupLoop p i name (s.itable i).d.size fuel (DIRENT * k)).eval s = (do let ip ← iget p e.inum; return some (ip, off)).eval s := by
  intro fuel
  induction fuel with
  | zero =>
    intro k hk
    refine .inl ⟨?_, rfl⟩
    rw [List.drop_eq_nil_of_le (by rw [dirents, List.length_map, List.length_range]; omega)]
    rfl
  | succ fuel ih =>
    intro k hk
    unfold dirlookupLoop
    by_cases hlt : DIRENT * k < (s.itable i).d.size
    · have hk' : k < (s.itable i).d.size / DIRENT := by
        simp only [DIRENT] at *
        omega
      rw [if_pos hlt, eval_bind (readDirent_eval hsize hfull (by simp only [DIRENT] at *; omega)), dirents_drop hk']
      generalize Dirent.ofBytes (fun j => s.byte (s.itable i).d (DIRENT * k + j)) = e
      by_cases he : e.inum ≠ 0 ∧ name = e.name
      · rw [if_pos he, List.find?_cons_of_pos (by simpa using he)]
        exact .inr ⟨e, _, rfl, rfl⟩
      · rw [if_neg he, List.find?_cons_of_neg (by simpa using he)]
        exact ih (k + 1) (by omega)
    · rw [if_neg hlt, List.drop_eq_nil_of_le (by rw [dirents, List.length_map, List.length_range]; simp only [DIRENT] at *; omega)]
      exact .inl ⟨rfl, rfl⟩

/-- `dirlookup` in a directory that the process has locked takes a reference to the inode that the directory has for the name. -/
theorem Walks.dirlookup (h : Walks p s0 c l s) (hT : Tree s0) (hd : (s.itable i).d = s0.dinode x) (hdir : (s0.dinode x).type = .T_DIR) :
    (s0.find x name = none ∧ (Fs.dirlookup p i name).eval s = .ok (s, none)) ∨
    ∃ y off, s0.find x name = some y ∧ (s0.Reached y ∨ (s0.dinode y).type = .free) ∧
      (Fs.dirlookup p i name).eval s = (do let ip ← Fs.iget p y; return some (ip, off)).eval s := by
  obtain ⟨hsize, hmod⟩ := hT.size x hdir
  have hbyte : s.byte (s0.dinode x) = s0.byte (s0.dinode x) := funext fun a => h.byte _ a
  have hloop := dirlookupLoop_eval (i := i) (s := s) p name (by rw [hd]; exact hmod) (by rw [hd]; exact hsize)
    (by rw [hd]; exact h.noHoles (hT.full x hdir)) ((s.itable i).d.size / DIRENT + 1) 0 (by omega)
  have heval : (Fs.dirlookup p i name).eval s =
      (dirlookupLoop p i name (s.itable i).d.size ((s.itable i).d.size / DIRENT + 1) 0).eval s := by
    unfold Fs.dirlookup
    rw [eval_bind (t := s) (a := (s.itable i).d) rfl, if_neg (by rw [hd, hdir]; exact fun hc => hc rfl)]
  rw [heval]
  rw [List.drop_zero, Nat.mul_zero, hd, hbyte] at hloop
  rw [hd]
  unfold State.find State.dirents
  rcases hloop with ⟨hf, hrun⟩ | ⟨e, off, hf, hrun⟩
  · refine .inl ⟨?_, hrun⟩
    rw [hf]
    rfl
  · refine .inr ⟨e.inum, off, ?_, ?_, hrun⟩
    · rw [hf]
      rfl
    · have hp := List.find?_some hf
      exact hT.entry x hdir e (List.mem_of_find?_eq_some hf) (of_decide_eq_true hp).1

/-! ### `namex` -/

def State.follow (s : State n) (parent : Bool) : Nat → List (List UInt8) → Option (Nat × List UInt8)
  | x, [] => if parent then none else some (x, [])
  | x, name :: names =>
    if (s.dinode x).type ≠ .T_DIR then none
    else if parent ∧ names = [] then some (x, name)
    else (s.find x name).bind (s.follow parent · names)

theorem follow_false (s : State n) (x : Nat) (names : List (List UInt8)) :
    s.follow false x names = (s.resolve x names).map (·, []) := by
  induction names generalizing x with
  | nil => rfl
  | cons name names ih =>
    unfold State.follow State.resolve
    by_cases hdir : (s.dinode x).type = .T_DIR
    · rw [if_neg (not_not.2 hdir), if_neg (fun hc => by cases hc.1), if_pos hdir]
      cases s.find x name with
      | none => rfl
      | some y => exact ih y
    · rw [if_pos hdir, if_neg hdir]
      rfl

theorem follow_true (s : State n) (x : Nat) (names : List (List UInt8)) :
    s.follow true x names = names.getLast?.bind fun last => (s.resolve x names.dropLast).bind fun y =>
      if (s.dinode y).type = .T_DIR then some (y, last) else none := by
  induction names generalizing x with
  | nil => rfl
  | cons name names ih =>
    unfold State.follow
    by_cases hdir : (s.dinode x).type = .T_DIR
    · rw [if_neg (not_not.2 hdir)]
      cases names with
      | nil =>
        rw [if_pos ⟨rfl, rfl⟩]
        change _ = if (s.dinode x).type = .T_DIR then some (x, name) else none
        rw [if_pos hdir]
      | cons name' names =>
        rw [if_neg (fun hc => by cases hc.2), List.getLast?_cons_cons, List.dropLast_cons_cons, State.resolve, if_pos hdir]
        cases s.find x name with
        | none => cases (name' :: names).getLast? <;> rfl
        | some y => exact ih y
    · rw [if_pos hdir]
      cases names with
      | nil =>
        change _ = if (s.dinode x).type = .T_DIR then some (x, name) else none
        rw [if_neg hdir]
      | cons name' names =>
        rw [List.dropLast_cons_cons, State.resolve, if_neg hdir]
        cases (name :: name' :: names).getLast? <;> rfl

def oneRef (i : Fin NINODE) : Fin NINODE → Int := update (fun _ => 0) i 1

/-- The references that the result of `namex` stands for. -/
def refsOf : Option (Fin NINODE) → Fin NINODE → Int
  | none => fun _ => 0
  | some i => oneRef i

def State.Roomy (s : State n) : Prop := ∃ i j, i ≠ j ∧ (s.itable i).ref = 0 ∧ (s.itable j).ref = 0

theorem oneRef_self : oneRef i i = 1 := update_self ..

theorem oneRef_ne (h : j ≠ i) : oneRef i j = 0 := update_of_ne h ..

theorem State.Roomy.unused (hroom : s0.Roomy) (h : Walks p s0 c l s) (hc : ∀ j, j ≠ i → c j = 0) : ∃ j, (s.itable j).ref = 0 := by
  obtain ⟨a, b, hab, ha, hb⟩ := hroom
  by_cases hai : a = i
  · have hbi : b ≠ i := fun hbi => hab (hai.trans hbi.symm)
    exact ⟨b, by rw [h.ref b, hb, hc b hbi]; rfl⟩
  · exact ⟨a, by rw [h.ref a, ha, hc a hai]; rfl⟩

theorem oneRef_step : update (update (oneRef i) j (oneRef i j + 1)) i
    (update (oneRef i) j (oneRef i j + 1) i - 1) = oneRef j := by
  funext a
  by_cases hij : i = j
  · subst hij
    rw [update_self, Function.update_idem, oneRef_self]
    by_cases hai : a = i
    · rw [hai, update_self, oneRef_self]
      rfl
    · rw [update_of_ne hai]
  · rw [update_of_ne hij, oneRef_self, oneRef_ne (Ne.symm hij)]
    by_cases hai : a = i
    · rw [hai, update_self, oneRef_ne hij]
      rfl
    · rw [update_of_ne hai]
      by_cases haj : a = j
      · rw [haj, update_self, oneRef_self]
        rfl
      · rw [update_of_ne haj, oneRef_ne hai, oneRef_ne haj]

theorem oneRef_drop : update (oneRef i) i (oneRef i i - 1) = fun _ => 0 := by
  rw [oneRef_self, oneRef, Function.update_idem]
  exact Function.update_eq_self i (fun _ => (0 : Int))

theorem Walks.iunlockput (h : Walks p s0 c (some i) s) (h0 : Settled s0) (hc : 0 < c i) :
    ∃ s', (iunlockput p i).eval s = .ok (s', ()) ∧ Walks p s0 (update c i (c i - 1)) none s' ∧ KeepsInums s s' := by
  obtain ⟨s1, hrun1, h1, hk1⟩ := h.iunlock (h.pos h0.ref hc)
  obtain ⟨s2, hrun2, h2, hk2⟩ := h1.iput h0 hc
  refine ⟨s2, ?_, h2, hk1.trans hk2 fun j hj => ?_⟩
  · unfold Fs.iunlockput
    rw [eval_bind hrun1, hrun2]
  · rw [h1.ref j, ← h.ref j]
    exact hj

theorem oneRef_pos : 0 < oneRef i i := by
  rw [oneRef_self]
  decide

theorem Walks.enter (h : Walks p s0 (oneRef i) (some i) s) (h0 : Settled s0) (hy : s0.Reached y ∨ (s0.dinode y).type = .free)
    (hroom : s.Serves y) :
    ∃ s1 s2 next, (Fs.iget p y).eval s = .ok (s1, next) ∧ (Fs.iunlockput p i).eval s1 = .ok (s2, ()) ∧
      Walks p s0 (oneRef next) none s2 ∧ (s2.itable next).inum = y := by
  obtain ⟨s1, next, hrun1, h1, hnum, -⟩ := h.iget h0 hy hroom fun j hj => by
    cases hj
    exact h.pos h0.ref oneRef_pos
  have hin : 0 < update (oneRef i) next (oneRef i next + 1) i := by
    rw [Function.update_apply]
    split
    · next he =>
      have := h.held next
      omega
    · exact oneRef_pos
  obtain ⟨s2, hrun2, h2, hk2⟩ := h1.iunlockput h0 hin
  rw [oneRef_step] at h2
  refine ⟨s1, s2, next, hrun1, hrun2, h2, ?_⟩
  rw [hk2 next (h1.pos h0.ref ?_), hnum]
  rw [update_self]
  have := h.held next
  omega

theorem Walks.leave (h : Walks p s0 (oneRef i) (some i) s) (h0 : Settled s0) :
    ∃ s', (Fs.iunlockput p i).eval s = .ok (s', ()) ∧ Walks p s0 (fun _ => 0) none s' := by
  obtain ⟨s', hrun, hs', -⟩ := h.iunlockput h0 oneRef_pos
  rw [oneRef_drop] at hs'
  exact ⟨s', hrun, hs'⟩

/-- With a reference to the inode `x` in hand, `iget` has an entry for the inode `y`: one in use, or one besides that of `x`. -/
def State.Opens (s : State n) (x y : Nat) : Prop :=
  s.Used y ∨ y = x ∨ (s.Used x ∧ ∃ j, (s.itable j).ref = 0) ∨ s.Roomy

theorem Walks.serves_iff (h : Walks p s0 (oneRef i) l s) (h0 : Settled s0) : s.Serves y ↔ s0.Opens (s.itable i).inum y := by
  have hi := h.pos h0.ref oneRef_pos
  have hsub : ∀ j, 0 < (s0.itable j).ref → 0 < (s.itable j).ref := fun j hj => by
    have h1 := h.ref j
    have h2 := h.held j
    omega
  have hsame : ∀ j, j ≠ i → (s.itable j).ref = (s0.itable j).ref := fun j hj => by rw [h.ref j, oneRef_ne hj, add_zero]
  constructor
  · rintro (⟨j, hj, hnum⟩ | ⟨j, hj⟩)
    · by_cases hji : j = i
      · exact .inr (.inl (by rw [← hnum, hji]))
      · rw [hsame j hji] at hj
        exact .inl ⟨j, hj, by rw [← h.inum j hj, hnum]⟩
    · have hji : j ≠ i := fun he => by
        rw [he] at hj
        omega
      have hj0 : (s0.itable j).ref = 0 := by rw [← hsame j hji, hj]
      rcases (h0.ref i).eq_or_lt with hi0 | hi0
      · exact .inr (.inr (.inr ⟨j, i, hji, hj0, hi0.symm⟩))
      · exact .inr (.inr (.inl ⟨⟨i, hi0, (h.inum i hi0).symm⟩, j, hj0⟩))
  · rintro (⟨j, hj, hnum⟩ | rfl | ⟨⟨k, hk, hnum⟩, j, hj⟩ | hroom)
    · exact .inl ⟨j, hsub j hj, (h.inum j hj).trans hnum⟩
    · exact .inl ⟨i, hi, rfl⟩
    · -- the entry of `x` is the one that the process has
      have hki : k = i := h.uniq k i (hsub k hk) hi ((h.inum k hk).trans hnum)
      have hji : j ≠ i := fun he => by
        rw [hki, ← he] at hk
        omega
      exact .inr ⟨j, by rw [hsame j hji, hj]⟩
    · exact .inr (hroom.unused h fun j hj => oneRef_ne hj)

/-- The way from the inode `x` leads through no free inode, and there is an entry for every inode on it. -/
def State.Passable (s : State n) (parent : Bool) : Nat → List (List UInt8) → Prop
  | _, [] => True
  | x, name :: names => (s.dinode x).type ≠ .free ∧ ((s.dinode x).type = .T_DIR → ¬(parent ∧ names = []) →
    ∀ y, s.find x name = some y → s.Opens x y ∧ s.Passable parent y names)

/-- `namexLoop` follows the names if the way is passable, and otherwise it panics. -/
theorem namexLoop_eval (h0 : Settled s0) (hT : Tree s0) (parent : Bool) : ∀ fuel path ip (s : State n),
    path.length < fuel → Walks p s0 (oneRef ip) none s →
    (s0.Passable parent (s.itable ip).inum ((parts path).map (List.take DIRSIZ)) ∧
      ∃ s' r, (namexLoop p parent fuel path ip).eval s = .ok (s', r) ∧ Walks p s0 (refsOf (r.map Prod.fst)) none s' ∧
        r.map (fun q => ((s'.itable q.1).inum, q.2)) = s0.follow parent (s.itable ip).inum ((parts path).map (List.take DIRSIZ))) ∨
    ¬s0.Passable parent (s.itable ip).inum ((parts path).map (List.take DIRSIZ)) ∧
      ∃ e, (namexLoop p parent fuel path ip).eval s = .error e := by
  intro fuel
  induction fuel with
  | zero => exact fun _ _ _ hlt _ => absurd hlt (Nat.not_lt_zero _)
  | succ fuel ih =>
    intro path ip s hlt h
    have hone : 0 < oneRef ip ip := oneRef_pos
    unfold namexLoop
    rcases skipelem_parts path with ⟨hskip, hparts⟩ | ⟨rest, w, hskip, hparts, hshort, hclean⟩
    · rw [hskip, hparts]
      dsimp only
      rw [List.map_nil, State.follow]
      refine .inl ⟨trivial, ?_⟩
      cases parent with
      | false => exact ⟨s, some (ip, []), rfl, h, rfl⟩
      | true =>
        obtain ⟨s', hrun, hs', -⟩ := h.iput h0 hone
        rw [oneRef_drop] at hs'
        refine ⟨s', none, ?_, hs', rfl⟩
        rw [if_pos rfl, eval_bind hrun]
        rfl
    rw [hskip, hparts]
    dsimp only
    by_cases hfree : (s0.dinode (s.itable ip).inum).type = .free
    · exact .inr ⟨fun hp => hp.1 hfree, _, eval_bind_error (h.ilock_error (h.pos h0.ref hone) hfree)⟩
    obtain ⟨s1, hrun1, h1, hd, hk1, -⟩ := h.ilock (h.pos h0.ref hone) hfree
    rw [eval_bind hrun1, eval_bind (t := s1) (a := (s1.itable ip).d) rfl, hd, List.map_cons, State.follow]
    have hnum1 : (s1.itable ip).inum = (s.itable ip).inum := hk1 ip (h.pos h0.ref hone)
    generalize (s.itable ip).inum = x at *
    by_cases hdir : (s0.dinode x).type = .T_DIR
    · rw [if_neg (not_not.2 hdir), if_neg (not_not.2 hdir)]
      have hrest : (parts rest).map (List.take DIRSIZ) = [] ↔ rest = [] := by
        rw [List.map_eq_nil_iff]
        constructor
        · intro hnil
          rcases skipelem_parts rest with ⟨hs, -⟩ | ⟨_, _, -, hp, -⟩
          · unfold skipelem at hs
            rw [hclean] at hs
            cases rest with
            | nil => rfl
            | cons a t => cases hs
          · rw [hnil] at hp
            cases hp
        · rintro rfl
          rfl
      by_cases hlast : (parent : Prop) ∧ rest = []
      · obtain ⟨s2, hrun2, h2, hk2⟩ := h1.iunlock (h1.pos h0.ref hone)
        refine .inl ⟨⟨hfree, fun _ hno => absurd ⟨hlast.1, hrest.2 hlast.2⟩ hno⟩, s2, some (ip, w.take DIRSIZ), ?_, h2, ?_⟩
        · rw [if_pos hlast, eval_bind hrun2]
          rfl
        · rw [if_pos ⟨hlast.1, hrest.2 hlast.2⟩, Option.map_some, hk2 ip (h1.pos h0.ref hone), hnum1]
      have hlast' : ¬((parent : Prop) ∧ (parts rest).map (List.take DIRSIZ) = []) := fun hc => hlast ⟨hc.1, hrest.1 hc.2⟩
      rw [if_neg hlast, if_neg hlast']
      rcases h1.dirlookup hT hd hdir with ⟨hfind, hrun2⟩ | ⟨y, off, hfind, hreach, hrun2⟩
      · rw [hfind, eval_bind hrun2]
        obtain ⟨s', hrun, hs'⟩ := h1.leave h0
        refine .inl ⟨⟨hfree, fun _ _ y hy => by rw [hfind] at hy; cases hy⟩, s', none, ?_, hs', rfl⟩
        dsimp only
        rw [eval_bind hrun]
        rfl
      by_cases hopen : s0.Opens x y
      · obtain ⟨s2, s3, next, hrun3, hrun4, h3, hnext⟩ := h1.enter h0 hreach ((h1.serves_iff h0).2 (by rwa [hnum1]))
        have hstep : ∀ k : Option (Fin NINODE × Nat) → FsM n (Option (Fin NINODE × List UInt8)),
            (dirlookup p ip (w.take DIRSIZ) >>= k).eval s1 = (k (some (next, off))).eval s2 := fun k =>
          eval_bind (by rw [hrun2, eval_bind hrun3]; rfl)
        rw [hstep]
        dsimp only
        rw [eval_bind hrun4, hfind]
        rcases ih rest next s3 (by omega) h3 with ⟨hpass, s', r, hrun, hs', hr⟩ | ⟨hno, e, hrun⟩
        · rw [hnext] at hpass hr
          refine .inl ⟨⟨hfree, fun _ _ y' hy' => ?_⟩, s', r, hrun, hs', hr⟩
          obtain rfl := Option.some.inj (hfind.symm.trans hy')
          exact ⟨hopen, hpass⟩
        · rw [hnext] at hno
          exact .inr ⟨fun hp => hno (hp.2 hdir hlast' y hfind).2, e, hrun⟩
      · have hpanic : (dirlookup p ip (w.take DIRSIZ)).eval s1 = .error (.panic "iget: no inodes") := by
          rw [hrun2]
          exact eval_bind_error (iget_error fun hs => hopen (hnum1 ▸ (h1.serves_iff h0).1 hs))
        exact .inr ⟨fun hp => hopen (hp.2 hdir hlast' y hfind).1, _, eval_bind_error hpanic⟩
    · rw [if_pos hdir, if_pos hdir]
      obtain ⟨s', hrun, hs'⟩ := h1.leave h0
      refine .inl ⟨⟨hfree, fun hd => absurd hd hdir⟩, s', none, ?_, hs', rfl⟩
      rw [eval_bind hrun]
      rfl

/-- Where the path starts: at the root, or at the current directory. -/
def State.start (s : State n) (p : Fin n) (path : List UInt8) : Option Nat :=
  if path.head? = some slash then some ROOTINO else (s.proc p).cwd.map fun i => (s.itable i).inum

/-- There is an entry for the root if the path starts there, and the way along the path is passable. -/
def State.Walkable (s : State n) (p : Fin n) (path : List UInt8) (parent : Bool) : Prop :=
  (path.head? = some slash → s.Serves ROOTINO) ∧
    ∀ x, s.start p path = some x → s.Passable parent x (elements (path.length + 1) path)

/-- `namex` follows the elements if the path is walkable, and otherwise it panics. -/
def Follows (p : Fin n) (s : State n) (path : List UInt8) (parent : Bool) : Prop :=
  (s.Walkable p path parent ∧ ∃ s' r, (namex p path parent).eval s = .ok (s', r) ∧ Walks p s (refsOf (r.map Prod.fst)) none s' ∧
    r.map (fun q => ((s'.itable q.1).inum, q.2)) =
      (s.start p path).bind fun x => s.follow parent x (elements (path.length + 1) path)) ∨
  ¬s.Walkable p path parent ∧ ∃ e, (namex p path parent).eval s = .error e

theorem follows_of_loop {parent : Bool} (h0 : Settled s) (hT : Tree s) (h1 : Walks p s (oneRef i) none s')
    (hstart : s.start p path = some (s'.itable i).inum) (hroot : path.head? = some slash → s.Serves ROOTINO)
    (hrun : (namex p path parent).eval s = (namexLoop p parent (path.length + 1) path i).eval s') : Follows p s path parent := by
  have hloop := namexLoop_eval h0 hT parent (path.length + 1) path i s' (Nat.lt_succ_self _) h1
  rw [← elements_eq (Nat.lt_succ_self _), ← hrun] at hloop
  have hiff : s.Walkable p path parent ↔ s.Passable parent (s'.itable i).inum (elements (path.length + 1) path) := by
    refine ⟨fun hW => hW.2 _ hstart, fun hp => ⟨hroot, fun y hy => ?_⟩⟩
    obtain rfl := Option.some.inj (hstart.symm.trans hy)
    exact hp
  unfold Follows
  rwa [hstart, hiff, Option.bind_some]

theorem namex_follows (h0 : Settled s) (hT : Tree s) (hcwd : ∃ i, (s.proc p).cwd = some i ∧ 0 < (s.itable i).ref)
    (path : List UInt8) (parent : Bool) : Follows p s path parent := by
  have hw : Walks p s (fun _ => 0) none s := h0.walks
  have hzero : ∀ i, update (fun _ => 0) i ((0 : Int) + 1) = oneRef i := fun i => by rw [zero_add]; rfl
  by_cases habs : path.head? = some slash
  · by_cases hroot : s.Serves ROOTINO
    · obtain ⟨s1, ip, hrun1, h1, hnum, -⟩ := hw.iget h0 (.inl hT.root) hroot fun j hj => by cases hj
      rw [hzero] at h1
      refine follows_of_loop h0 hT h1 (by rw [hnum]; exact if_pos habs) (fun _ => hroot) ?_
      unfold namex
      rw [if_pos habs, eval_bind hrun1]
    · refine .inr ⟨fun hW => hroot (hW.1 habs), .panic "iget: no inodes", ?_⟩
      unfold namex
      rw [if_pos habs]
      exact eval_bind_error (iget_error hroot)
  · obtain ⟨i, hi, hpos⟩ := hcwd
    obtain ⟨s1, hrun1, h1, hk⟩ := hw.idup hpos
    rw [hzero] at h1
    refine follows_of_loop h0 hT h1 ?_ (fun hc => absurd hc habs) ?_
    · unfold State.start
      rw [if_neg habs, hi, hk i hpos]
      rfl
    · unfold namex
      rw [if_neg habs, eval_bind (t := s) (a := (s.proc p).cwd) rfl, hi]
      exact eval_bind hrun1

/-- Path resolution is a fold over the elements of the path: `skipelem` yields the parts between the slashes, cut to `DIRSIZ`
bytes; `namei` follows all of them, and `nameiparent` all but the last one, and the process has one reference more to the inode
that is returned, and no other, if and only if the way is passable. -/
theorem path_resolution_iff (p : Fin n) (path : List UInt8) (s : State n) (h0 : Settled s) (hT : Tree s)
    (hcwd : ∃ i, (s.proc p).cwd = some i ∧ 0 < (s.itable i).ref) :
    elements (path.length + 1) path = (parts path).map (List.take DIRSIZ) ∧
    ((∃ s' r, (namei p path).eval s = .ok (s', r) ∧ Walks p s (refsOf r) none s' ∧
      r.map (fun i => (s'.itable i).inum) = (s.start p path).bind (s.resolve · (elements (path.length + 1) path))) ↔
        s.Walkable p path false) ∧
    ((∃ s' r, (nameiparent p path).eval s = .ok (s', r) ∧ Walks p s (refsOf (r.map Prod.fst)) none s' ∧
      r.map (fun q => ((s'.itable q.1).inum, q.2)) = (elements (path.length + 1) path).getLast?.bind fun last =>
        ((s.start p path).bind (s.resolve · (elements (path.length + 1) path).dropLast)).bind fun y =>
          if (s.dinode y).type = .T_DIR then some (y, last) else none) ↔ s.Walkable p path true) := by
  refine ⟨elements_eq (Nat.lt_succ_self _), ?_, ?_⟩
  · rcases namex_follows h0 hT hcwd path false with ⟨hW, s', r, hrun, hw, hr⟩ | ⟨hW, e, hrun⟩
    · refine iff_of_true ⟨s', r.map Prod.fst, ?_, hw, ?_⟩ hW
      · unfold namei
        rw [eval_bind hrun]
        cases r <;> rfl
      · have hfst := congrArg (Option.map Prod.fst) hr
        rw [Option.map_map] at hfst ⊢
        refine hfst.trans ?_
        cases s.start p path with
        | none => rfl
        | some x =>
          rw [Option.bind_some, Option.bind_some, follow_false, Option.map_map]
          exact Option.map_id'
    · refine iff_of_false ?_ hW
      rintro ⟨s', r, hok, -⟩
      unfold namei at hok
      rw [eval_bind_error hrun] at hok
      cases hok
  · rcases namex_follows h0 hT hcwd path true with ⟨hW, s', r, hrun, hw, hr⟩ | ⟨hW, e, hrun⟩
    · refine iff_of_true ⟨s', r, hrun, hw, hr.trans ?_⟩ hW
      cases s.start p path with
      | none => cases (elements (path.length + 1) path).getLast? <;> rfl
      | some x => rw [Option.bind_some, Option.bind_some, follow_true]
    · refine iff_of_false ?_ hW
      rintro ⟨s', r, hok, -⟩
      cases hrun.symm.trans hok

def rootDir : Dinode := { type := .T_DIR, nlink := 1, size := 2 * DIRENT, addrs := fun k => if k = 0 then 46 else 0 }

def rootEntries (k : Nat) : UInt8 :=
  if k < DIRENT then direntBytes [dot] ROOTINO k
  else if k < 2 * DIRENT then direntBytes [dot, dot] ROOTINO (k - DIRENT)
  else 0

def onlyRoot : State 1 where
  sb := ⟨60, 8, 46⟩
  itable i := if i = firstInode then { inum := ROOTINO, ref := 1, valid := true, d := rootDir } else {}
  dinode x := if x = ROOTINO then rootDir else {}
  bitmap b := decide (b < 47)
  block b := if b = 46 then rootEntries else fun _ => 0
  ftable _ := {}
  proc _ := { cwd := some firstInode }
  initproc := ⟨0, Nat.one_pos⟩
  pipe _ := none
  outstanding := 0
  irefs _ _ := 0
  frefs _ _ := 0
  ends _ _ := 0

def theProc : Fin 1 := ⟨0, Nat.one_pos⟩

theorem zero_not_mem_ab : (0 : UInt8) ∉ [47, 97, 47, 98] := by decide

theorem zero_not_mem_a : (0 : UInt8) ∉ [47, 97] := by decide

def pathA : Path := ⟨[47, 97], zero_not_mem_a⟩

def pathAB : Path := ⟨[47, 97, 47, 98], zero_not_mem_ab⟩

/-- The process makes two directories, one in the other, goes to the inner one and removes both. -/
def removeParents : FsM 1 (List Int) := do
  let a ← sysMkdir theProc (some pathA)
  let b ← sysMkdir theProc (some pathAB)
  let c ← sysChdir theProc (some pathAB)
  let d ← sysUnlink theProc (some pathAB)
  let e ← sysUnlink theProc (some pathA)
  return [a, b, c, d, e]

def stopOf {α : Type} : Except Stop α → Option Stop
  | .ok _ => none
  | .error e => some e

set_option maxRecDepth 100000 in
/-- The calls succeed, but then the path `../x` leads to the inode of `/a`, which is free, and stops the machine. -/
theorem removed_parent_panics : ((removeParents.eval onlyRoot).toOption.map Prod.snd = some [0, 0, 0, 0, 0]) ∧
    stopOf ((removeParents >>= fun _ => namei theProc [46, 46, 47, 120]).eval onlyRoot) = some (.panic "ilock: no type") := by
  decide +kernel

theorem onlyRoot_settled : Settled onlyRoot where
  ref := by decide
  lock := by decide
  uniq i j hi hj _ := by
    have hfirst : ∀ k, 0 < (onlyRoot.itable k).ref → k = firstInode := by decide
    rw [hfirst i hi, hfirst j hj]
  loaded i hi _ := by
    have hfirst : ∀ k, 0 < (onlyRoot.itable k).ref → k = firstInode := by decide
    rw [hfirst i hi]
    rfl
  used := by decide

theorem onlyRoot_dir (h : (onlyRoot.dinode x).type = .T_DIR) : x = ROOTINO := by
  by_contra hx
  have : onlyRoot.dinode x = {} := if_neg hx
  rw [this] at h
  cases h

theorem onlyRoot_tree : Tree onlyRoot where
  root := ⟨by decide, .inl (by decide)⟩
  size x hx := by
    rw [onlyRoot_dir hx]
    decide
  full x hx k hk := by
    rw [onlyRoot_dir hx] at hk ⊢
    have hk : k * BSIZE < 2 * DIRENT := hk
    obtain rfl : k = 0 := by
      simp only [BSIZE, DIRENT] at hk
      omega
    exact (by decide : (46 : Nat) ≠ 0)
  entry x hx e he _ := by
    rw [onlyRoot_dir hx] at he
    have hall : ∀ e ∈ onlyRoot.dirents ROOTINO, e.inum = ROOTINO := by decide +kernel
    rw [hall e he]
    exact .inl ⟨by decide, .inl (by decide)⟩

theorem onlyRoot_cwd : ∃ i, (onlyRoot.proc theProc).cwd = some i ∧ 0 < (onlyRoot.itable i).ref := ⟨firstInode, rfl, by decide⟩

theorem onlyRoot_walkable (parent : Bool) : onlyRoot.Walkable theProc [47, 46, 47, 120] parent := by
  have hroot : (onlyRoot.dinode ROOTINO).type ≠ .free := by decide
  have hdot : onlyRoot.find ROOTINO [46] = some ROOTINO := by decide +kernel
  have hx : onlyRoot.find ROOTINO [120] = none := by decide +kernel
  refine ⟨fun _ => .inl ⟨firstInode, by decide, rfl⟩, fun x hstart => ?_⟩
  obtain rfl : ROOTINO = x := Option.some.inj hstart
  refine ⟨hroot, fun _ _ y hy => ?_⟩
  obtain rfl := Option.some.inj (hdot.symm.trans hy)
  exact ⟨.inr (.inl rfl), hroot, fun _ _ z hz => by cases hx.symm.trans hz⟩

/-- The paths `/./x` of the root directory. -/
theorem path_resolution_root :
    (∃ s' r, (namei theProc [47, 46, 47, 120]).eval onlyRoot = .ok (s', r) ∧ Walks theProc onlyRoot (refsOf r) none s' ∧
      r.map (fun i => (s'.itable i).inum) =
        (onlyRoot.start theProc [47, 46, 47, 120]).bind (onlyRoot.resolve · (elements 5 [47, 46, 47, 120]))) ∧
    ∃ s' r, (nameiparent theProc [47, 46, 47, 120]).eval onlyRoot = .ok (s', r) ∧
      Walks theProc onlyRoot (refsOf (r.map Prod.fst)) none s' ∧
      r.map (fun q => ((s'.itable q.1).inum, q.2)) = (elements 5 [47, 46, 47, 120]).getLast?.bind fun last =>
        ((onlyRoot.start theProc [47, 46, 47, 120]).bind (onlyRoot.resolve · (elements 5 [47, 46, 47, 120]).dropLast)).bind fun y =>
          if (onlyRoot.dinode y).type = .T_DIR then some (y, last) else none :=
  have h := path_resolution_iff theProc [47, 46, 47, 120] onlyRoot onlyRoot_settled onlyRoot_tree onlyRoot_cwd
  ⟨h.2.1.2 (onlyRoot_walkable false), h.2.2.2 (onlyRoot_walkable true)⟩

end Xv6.Fs
