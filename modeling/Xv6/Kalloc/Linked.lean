import Xv6.Kalloc
import Xv6.Lib.Chain
import Xv6.Lib.Run

/-!
# The free list in the free pages, and the array of superpages

Here the link to the next free page is the first word of a free page, and `supermem` is its array and its count. The junk is
written outside of the critical sections, so a call has two parts, and the parts of any number of calls interleave with the
callers' stores to their pages.
-/

namespace Xv6.Kmem

open List (length_cons mem_append_left mem_append_right)
open Function (update)
open Bytes (Mem fill loadLE storeLE)
open Chain (Links)
open Run (Stop run Along)

/-- Physical memory, `kmem.freelist` and `supermem`. -/
structure Alloc where
  mem : Mem
  freelist : Nat
  superpages : Int → Nat
  nfree : Int

def memset (a : Nat) (c : UInt8) (n : Nat) : Kern Alloc Unit := modify fun s => { s with mem := fill s.mem a n c }

def kfreeFill (pa : Nat) : Kern Alloc Unit :=
  if pa % PGSIZE ≠ 0 ∨ pa < kernelEnd ∨ pa ≥ PHYSTOP then panic "kfree" else memset pa 1 PGSIZE

/-- `r->next = kmem.freelist; kmem.freelist = r;` -/
def kfreeLink (r : Nat) : Kern Alloc Unit :=
  modify fun s => { s with mem := storeLE s.mem r 8 s.freelist, freelist := r }

def kfree (pa : Nat) : Kern Alloc Unit := do
  kfreeFill pa
  kfreeLink pa

def kallocPop : Kern Alloc Nat := do
  let r := (← get).freelist
  if r ≠ 0 then
    modify fun s => { s with freelist := loadLE s.mem r 8 }
  return r

def kallocFill (r : Nat) : Kern Alloc Unit := if r ≠ 0 then memset r 5 PGSIZE else pure ()

/-- The critical section of `superalloc`; it returns 0 if no superpage is free. -/
def superallocPop : Kern Alloc Nat := do
  let s ← get
  if s.nfree = 0 then return 0 else
  modify fun s => { s with nfree := s.nfree - 1 }
  return s.superpages (s.nfree - 1)

def superallocFill (pg : Nat) : Kern Alloc Unit := if pg ≠ 0 then memset pg 5 SUPERPGSIZE else pure ()

def superfreeFill (pa : Nat) : Kern Alloc Unit :=
  if pa % SUPERPGSIZE ≠ 0 then panic "superfree: pa not 2MiB aligned" else
  if pa < superBase ∨ pa ≥ PHYSTOP then panic "superfree: pa outside of superpage pool range" else
  memset pa 1 SUPERPGSIZE

def superfreePush (pa : Nat) : Kern Alloc Unit := do
  if (← get).nfree ≥ NSUPERPAGES then panic "superfree: superpage pool overflow" else
  modify fun s => { s with superpages := update s.superpages s.nfree pa, nfree := s.nfree + 1 }

def superinitLoop : Nat → Nat → Kern Alloc Unit
  | 0, _ => pure ()
  | i + 1, top => do
    let top := (top - SUPERPGSIZE) / SUPERPGSIZE * SUPERPGSIZE
    modify fun s => { s with superpages := update s.superpages s.nfree top, nfree := s.nfree + 1 }
    superinitLoop i top

def superinit : Kern Alloc Unit := do
  modify fun s => { s with nfree := 0 }
  superinitLoop NSUPERPAGES PHYSTOP

def freerangeLoop (paEnd p : Nat) : Kern Alloc Unit := do
  if _ : p + PGSIZE ≤ paEnd then
    kfree p
    freerangeLoop paEnd (p + PGSIZE)
  else pure ()
termination_by paEnd - p
decreasing_by simp only [PGSIZE] at *; omega

def freerange (paStart paEnd : Nat) : Kern Alloc Unit := freerangeLoop paEnd (pgroundup paStart)

def kinit : Kern Alloc Unit := do
  superinit
  freerange kernelEnd superBase

inductive Call where
  | kfree (pa : Nat)
  | kalloc (r : Nat)
  | superfree (pa : Nat)
  | superalloc (pg : Nat)
  deriving DecidableEq

def Call.page : Call → Option Nat
  | .kfree pa => some pa
  | .kalloc r => if r = 0 then none else some r
  | _ => none

def Call.super : Call → Option Nat
  | .superfree pa => some pa
  | .superalloc pg => if pg = 0 then none else some pg
  | _ => none

/-- The allocators, the calls between their two parts, and what has been handed out and not been freed yet. -/
structure State where
  a : Alloc
  calls : List Call
  live : List Nat
  superLive : List Nat

inductive Event where
  | kalloc
  | kfree (pa : Nat)
  | superalloc
  | superfree (pa : Nat)
  /-- The second part of a call. -/
  | finish (c : Call)
  /-- The memory is written to by others. -/
  | write (m : Mem)

def State.does {α : Type} (s : State) (x : Kern Alloc α) (f : α → Alloc → State) : Except Stop State :=
  match x.run s.a with
  | .ok (r, a) => .ok (f r a)
  | .error msg => .error (.panic msg)

def next (s : State) : Event → Except Stop State
  | .kalloc => s.does kallocPop fun r a => { s with a := a, calls := .kalloc r :: s.calls }
  | .kfree pa => s.does (kfreeFill pa) fun _ a => { s with a := a, calls := .kfree pa :: s.calls, live := s.live.erase pa }
  | .superalloc => s.does superallocPop fun pg a => { s with a := a, calls := .superalloc pg :: s.calls }
  | .superfree pa =>
    s.does (superfreeFill pa) fun _ a => { s with a := a, calls := .superfree pa :: s.calls, superLive := s.superLive.erase pa }
  | .finish c =>
    if c ∈ s.calls then
      let s' := { s with calls := s.calls.erase c }
      match c with
      | .kalloc r => s.does (kallocFill r) fun _ a => { s' with a := a, live := if r = 0 then s.live else r :: s.live }
      | .kfree pa => s.does (kfreeLink pa) fun _ a => { s' with a := a }
      | .superalloc pg =>
        s.does (superallocFill pg) fun _ a => { s' with a := a, superLive := if pg = 0 then s.superLive else pg :: s.superLive }
      | .superfree pa => s.does (superfreePush pa) fun _ a => { s' with a := a }
    else .error .blocked
  | .write m => .ok { s with a := { s.a with mem := m } }

/-- The bytes that callers may write: those they got from an allocator, and those outside of the allocators' memory. -/
def State.Writable (s : State) (x : Nat) : Prop :=
  (∃ p ∈ s.live, p ≤ x ∧ x < p + PGSIZE) ∨ (∃ p ∈ s.superLive, p ≤ x ∧ x < p + SUPERPGSIZE) ∨ x < kernelEnd ∨ PHYSTOP ≤ x

/-- Callers free only what the matching allocator gave them and what they have not freed yet, and write only what is theirs. -/
def Disciplined (s : State) : Event → Prop
  | .kfree pa => pa ∈ s.live
  | .superfree pa => pa ∈ s.superLive
  | .write m => ∀ x, ¬s.Writable x → m x = s.a.mem x
  | _ => True

def Page (p : Nat) : Prop := p % PGSIZE = 0 ∧ kernelEnd ≤ p ∧ p < superBase

def Super (p : Nat) : Prop := p % SUPERPGSIZE = 0 ∧ superBase ≤ p ∧ p < PHYSTOP

def link (m : Mem) (p : Nat) : Nat := loadLE m p 8

/-- The superpages in the slots below `k`, last slot first. -/
def Slots (sp : Int → Nat) : Int → List Nat → Prop
  | k, [] => k = 0
  | k, x :: l => sp (k - 1) = x ∧ Slots sp (k - 1) l

/-- The free list is the list `l`, which ends in a null pointer; the slots of `supermem` hold `sl`; no page and no superpage is in
two places, and each is one of the pool it is in. -/
structure Sound (s : State) (l sl : List Nat) : Prop where
  freelist : s.a.freelist = l.headD 0
  links : Links (link s.a.mem) l 0
  slots : Slots s.a.superpages s.a.nfree sl
  nodup : (l ++ (s.calls.filterMap Call.page ++ s.live)).Nodup
  page : ∀ p ∈ l ++ (s.calls.filterMap Call.page ++ s.live), Page p
  superNodup : (sl ++ (s.calls.filterMap Call.super ++ s.superLive)).Nodup
  super : ∀ p ∈ sl ++ (s.calls.filterMap Call.super ++ s.superLive), Super p
  total : (sl ++ (s.calls.filterMap Call.super ++ s.superLive)).length = NSUPERPAGES

variable {s s' : State} {l l' sl sl' F F' o : List Nat} {m m' : Mem} {p q pa r : Nat} {sp sp' : Int → Nat} {k : Int}
  {c : Call} {v : UInt8} {a : Alloc}

theorem Page.apart (hp : Page p) (hq : Page q) (h : p ≠ q) : p + PGSIZE ≤ q ∨ q + PGSIZE ≤ p := by
  obtain ⟨h1, -, -⟩ := hp
  obtain ⟨h2, -, -⟩ := hq
  lia

theorem Page.before (hp : Page p) (hq : Super q) : p + PGSIZE ≤ q := by
  obtain ⟨h1, -, h2⟩ := hp
  obtain ⟨h3, h4, -⟩ := hq
  lia

theorem Page.pos (hp : Page p) : p ≠ 0 := by
  obtain ⟨-, h, -⟩ := hp
  lia

theorem Super.pos (hp : Super p) : p ≠ 0 := by
  obtain ⟨-, h, -⟩ := hp
  lia

theorem Slots.length (h : Slots sp k l) : k = l.length := by
  induction l generalizing k with
  | nil => exact h
  | cons x l ih =>
    have := ih h.2
    rw [length_cons]
    lia

theorem Slots.congr (h : Slots sp k l) (hsp : ∀ i < k, sp' i = sp i) : Slots sp' k l := by
  induction l generalizing k with
  | nil => exact h
  | cons x l ih => exact ⟨(hsp _ (by lia)).trans h.1, ih h.2 fun i hi => hsp i (by lia)⟩

theorem Slots.push (h : Slots sp k l) (x : Nat) : Slots (update sp k x) (k + 1) (x :: l) := by
  rw [Slots, Int.add_sub_cancel]
  exact ⟨Function.update_self .., h.congr fun i hi => Function.update_of_ne (by lia) ..⟩

theorem links_congr (h : Links (link m) l 0) (hm : ∀ p ∈ l, ∀ x, p ≤ x → x < p + PGSIZE → m' x = m x) : Links (link m') l 0 :=
  h.congr fun p hp => Bytes.loadLE_congr fun x h1 h2 => hm p hp x h1 (by lia)

theorem links_fill (h : Links (link m) l 0) (hl : ∀ q ∈ l, Page q ∧ q ≠ p) (hp : Page p) :
    Links (link (fill m p PGSIZE v)) l 0 :=
  links_congr h fun q hq _ h1 h2 => Bytes.fill_outside (by
    have := (hl q hq).1.apart hp (hl q hq).2
    lia)

theorem links_fill_super (h : Links (link m) l 0) (hl : ∀ q ∈ l, Page q) (hp : Super p) :
    Links (link (fill m p SUPERPGSIZE v)) l 0 :=
  links_congr h fun q hq _ h1 h2 => Bytes.fill_outside (by
    have := (hl q hq).before hp
    lia)

theorem links_push (h : Links (link m) l 0) (hl : ∀ q ∈ l, Page q ∧ q ≠ p) (hp : Page p) :
    Links (link (storeLE m p 8 (l.headD 0))) (p :: l) 0 := by
  refine ⟨?_, links_congr h fun q hq _ h1 h2 => Bytes.storeLE_outside (by
    have := (hl q hq).1.apart hp (hl q hq).2
    lia)⟩
  unfold link
  rw [Bytes.loadLE_storeLE, Nat.mod_eq_of_lt]
  cases l with
  | nil => decide
  | cons q l =>
    obtain ⟨-, -, hq⟩ := (hl q (List.mem_cons_self ..)).1
    exact hq.trans (by decide)

theorem kallocPop_nil (h : a.freelist = 0) : kallocPop.run a = .ok (0, a) := by
  simp [kallocPop, h]
  rfl

theorem kallocPop_cons (h : a.freelist = r) (hr : r ≠ 0) (hl : Links (link a.mem) (r :: l) 0) :
    kallocPop.run a = .ok (r, { a with freelist := l.headD 0 }) := by
  have hnext : loadLE a.mem r 8 = l.headD 0 := hl.1
  simp [kallocPop, h, hr, hnext]
  rfl

theorem superallocPop_nil (h : Slots a.superpages a.nfree []) : superallocPop.run a = .ok (0, a) := by
  have : a.nfree = 0 := h
  simp [superallocPop, this]
  rfl

theorem superallocPop_cons (h : Slots a.superpages a.nfree (p :: l)) :
    superallocPop.run a = .ok (p, { a with nfree := a.nfree - 1 }) := by
  have hn : a.nfree ≠ 0 := by
    rw [h.length, length_cons]
    omega
  simp [superallocPop, hn, h.1]
  rfl

theorem Sound.free_page (h : Sound s l sl) (hp : p ∈ l) : Page p := h.page p (mem_append_left _ hp)

theorem Sound.not_free (h : Sound s l sl) (hp : p ∈ s.calls.filterMap Call.page ++ s.live) : ∀ q ∈ l, Page q ∧ q ≠ p := by
  intro q hq
  refine ⟨h.free_page hq, ?_⟩
  rintro rfl
  exact (List.nodup_append.1 h.nodup).2.2 q hq q hp rfl

theorem Sound.moves (h : Sound s l sl) (hf : s'.a.freelist = l'.headD 0) (hl : Links (link s'.a.mem) l' 0)
    (hs : Slots s'.a.superpages s'.a.nfree sl')
    (hp : (l ++ (s.calls.filterMap Call.page ++ s.live)).Perm (l' ++ (s'.calls.filterMap Call.page ++ s'.live)))
    (hq : (sl ++ (s.calls.filterMap Call.super ++ s.superLive)).Perm (sl' ++ (s'.calls.filterMap Call.super ++ s'.superLive))) :
    Sound s' l' sl' where
  freelist := hf
  links := hl
  slots := hs
  nodup := hp.nodup_iff.1 h.nodup
  page p hm := h.page p (hp.mem_iff.2 hm)
  superNodup := hq.nodup_iff.1 h.superNodup
  super p hm := h.super p (hq.mem_iff.2 hm)
  total := hq.length_eq ▸ h.total

theorem does_ok {α : Type} {x : Kern Alloc α} {f : α → Alloc → State} {v : α} (h : x.run s.a = .ok (v, a)) :
    s.does x f = .ok (f v a) := by
  unfold State.does
  rw [h]

theorem filterMap_erase (f : Call → Option Nat) (h : c ∈ s.calls) :
    (s.calls.filterMap f).Perm ((f c).toList ++ (s.calls.erase c).filterMap f) := by
  have := (List.perm_cons_erase h).filterMap f
  rw [List.filterMap_cons] at this
  cases hf : f c <;> rw [hf] at this <;> exact this

theorem Sound.kalloc (h : Sound s l sl) : ∃ s' l', next s .kalloc = .ok s' ∧ Sound s' l' sl := by
  cases l with
  | nil =>
    refine ⟨_, [], does_ok (kallocPop_nil h.freelist), h.moves h.freelist h.links h.slots ?_ ?_⟩
    · exact List.Perm.refl _
    · exact List.Perm.refl _
  | cons r rest =>
    have hne : r ≠ 0 := (h.free_page (List.mem_cons_self ..)).pos
    refine ⟨_, rest, does_ok (kallocPop_cons (r := r) h.freelist hne h.links), h.moves rfl h.links.2 h.slots ?_ ?_⟩
    · simp only [List.filterMap_cons, Call.page, if_neg hne]
      exact List.perm_middle.symm
    · exact List.Perm.refl _

theorem Sound.superalloc (h : Sound s l sl) : ∃ s' sl', next s .superalloc = .ok s' ∧ Sound s' l sl' := by
  cases sl with
  | nil =>
    refine ⟨_, [], does_ok (superallocPop_nil h.slots), h.moves h.freelist h.links h.slots ?_ ?_⟩
    · exact List.Perm.refl _
    · exact List.Perm.refl _
  | cons pg rest =>
    have hne : pg ≠ 0 := (h.super pg (mem_append_left _ (List.mem_cons_self ..))).pos
    refine ⟨_, rest, does_ok (superallocPop_cons h.slots), h.moves h.freelist h.links h.slots.2 ?_ ?_⟩
    · exact List.Perm.refl _
    · simp only [List.filterMap_cons, Call.super, if_neg hne]
      exact List.perm_middle.symm

theorem perm_start (l F : List Nat) {L : List Nat} (h : p ∈ L) : (l ++ (F ++ L)).Perm (l ++ (p :: F ++ L.erase p)) :=
  (((List.perm_cons_erase h).append_left F).trans List.perm_middle).append_left l

theorem Sound.kfree (h : Sound s l sl) (hp : pa ∈ s.live) : ∃ s', next s (.kfree pa) = .ok s' ∧ Sound s' l sl := by
  have hin : pa ∈ s.calls.filterMap Call.page ++ s.live := mem_append_right _ hp
  have hpage := h.page pa (mem_append_right _ hin)
  have hrun : (kfreeFill pa).run s.a = .ok ((), { s.a with mem := fill s.a.mem pa PGSIZE 1 }) := by
    obtain ⟨h1, h2, h3⟩ := hpage
    unfold kfreeFill
    rw [if_neg (by lia)]
    rfl
  refine ⟨_, does_ok hrun, h.moves h.freelist (links_fill h.links (h.not_free hin) hpage) h.slots ?_ ?_⟩
  · exact perm_start l _ hp
  · exact List.Perm.refl _

theorem Sound.superfree (h : Sound s l sl) (hp : pa ∈ s.superLive) : ∃ s', next s (.superfree pa) = .ok s' ∧ Sound s' l sl := by
  have hsuper := h.super pa (mem_append_right _ (mem_append_right _ hp))
  have hrun : (superfreeFill pa).run s.a = .ok ((), { s.a with mem := fill s.a.mem pa SUPERPGSIZE 1 }) := by
    obtain ⟨h1, h2, h3⟩ := hsuper
    unfold superfreeFill
    rw [if_neg (by lia), if_neg (by lia)]
    rfl
  refine ⟨_, does_ok hrun, h.moves h.freelist (links_fill_super h.links (fun _ => h.free_page) hsuper) h.slots ?_ ?_⟩
  · exact List.Perm.refl _
  · exact perm_start sl _ hp

theorem perm_freed (l L : List Nat) (h : F.Perm (o ++ F')) :
    (l ++ (F ++ L)).Perm (o ++ l ++ (F' ++ L)) := by
  refine List.perm_iff_count.2 fun a => ?_
  have := h.count_eq a
  simp only [List.count_append] at this ⊢
  omega

theorem perm_handed (l L : List Nat) (h : F.Perm (o ++ F')) :
    (l ++ (F ++ L)).Perm (l ++ (F' ++ (o ++ L))) := by
  refine List.perm_iff_count.2 fun a => ?_
  have := h.count_eq a
  simp only [List.count_append] at this ⊢
  omega

theorem Sound.finish (h : Sound s l sl) (hc : c ∈ s.calls) : ∃ s' l' sl', next s (.finish c) = .ok s' ∧ Sound s' l' sl' := by
  have hP := filterMap_erase Call.page hc
  have hS := filterMap_erase Call.super hc
  rw [next, if_pos hc]
  cases c with
  | kalloc r =>
    by_cases hr : r = 0
    · subst hr
      exact ⟨_, l, sl, does_ok rfl, h.moves h.freelist h.links h.slots (perm_handed l _ hP) (perm_freed sl _ hS)⟩
    · have hin : r ∈ s.calls.filterMap Call.page ++ s.live :=
        mem_append_left _ (List.mem_filterMap.2 ⟨_, hc, by rw [Call.page, if_neg hr]⟩)
      have hrun : (kallocFill r).run s.a = .ok ((), { s.a with mem := fill s.a.mem r PGSIZE 5 }) := by
        rw [kallocFill, if_pos hr]
        rfl
      rw [Call.page, if_neg hr] at hP
      refine ⟨_, l, sl, does_ok hrun, h.moves h.freelist
        (links_fill h.links (h.not_free hin) (h.page r (mem_append_right _ hin))) h.slots ?_ (perm_freed sl _ hS)⟩
      rw [if_neg hr]
      exact perm_handed l _ hP
  | kfree pa =>
    have hin : pa ∈ s.calls.filterMap Call.page ++ s.live := mem_append_left _ (List.mem_filterMap.2 ⟨_, hc, rfl⟩)
    refine ⟨_, pa :: l, sl, does_ok rfl, h.moves rfl ?_ h.slots (perm_freed l _ hP) (perm_freed sl _ hS)⟩
    change Links (link (storeLE s.a.mem pa 8 s.a.freelist)) (pa :: l) 0
    rw [h.freelist]
    exact links_push h.links (h.not_free hin) (h.page pa (mem_append_right _ hin))
  | superalloc pg =>
    by_cases hr : pg = 0
    · subst hr
      exact ⟨_, l, sl, does_ok rfl, h.moves h.freelist h.links h.slots (perm_freed l _ hP) (perm_handed sl _ hS)⟩
    · have hin : pg ∈ s.calls.filterMap Call.super := List.mem_filterMap.2 ⟨_, hc, by rw [Call.super, if_neg hr]⟩
      have hrun : (superallocFill pg).run s.a = .ok ((), { s.a with mem := fill s.a.mem pg SUPERPGSIZE 5 }) := by
        rw [superallocFill, if_pos hr]
        rfl
      rw [Call.super, if_neg hr] at hS
      refine ⟨_, l, sl, does_ok hrun, h.moves h.freelist (links_fill_super h.links (fun _ => h.free_page)
        (h.super pg (mem_append_right _ (mem_append_left _ hin)))) h.slots (perm_freed l _ hP) ?_⟩
      rw [if_neg hr]
      exact perm_handed sl _ hS
  | superfree pa =>
    have hrun : (superfreePush pa).run s.a = .ok ((), { s.a with
        superpages := update s.a.superpages s.a.nfree pa, nfree := s.a.nfree + 1 }) := by
      -- one of the superpages is in the hands of this call
      have hlt : ¬s.a.nfree ≥ (NSUPERPAGES : Nat) := by
        have hlen := hS.length_eq
        have htotal := h.total
        simp only [List.length_append, Call.super, Option.toList_some, length_cons] at hlen htotal
        rw [h.slots.length]
        omega
      simp only [superfreePush, StateT.run_bind]
      change (if s.a.nfree ≥ (NSUPERPAGES : Nat) then _ else _ : Kern Alloc Unit).run s.a = _
      rw [if_neg hlt]
      rfl
    exact ⟨_, l, pa :: sl, does_ok hrun, h.moves h.freelist h.links (h.slots.push pa) (perm_freed l _ hP) (perm_freed sl _ hS)⟩

theorem Sound.write (h : Sound s l sl) (hm : ∀ x, ¬s.Writable x → m x = s.a.mem x) :
    Sound { s with a := { s.a with mem := m } } l sl := by
  refine h.moves h.freelist (links_congr h.links fun p hp x h1 h2 => hm x ?_) h.slots (List.Perm.refl _) (List.Perm.refl _)
  have hpage := h.free_page hp
  rintro (⟨q, hq, hx⟩ | ⟨q, hq, hx⟩ | hx | hx)
  · have hin : q ∈ s.calls.filterMap Call.page ++ s.live := mem_append_right _ hq
    have := hpage.apart (h.page q (mem_append_right _ hin)) (h.not_free hin p hp).2
    lia
  · have := hpage.before (h.super q (mem_append_right _ (mem_append_right _ hq)))
    lia
  · obtain ⟨-, h3, -⟩ := hpage
    lia
  · obtain ⟨-, -, h3⟩ := hpage
    lia

theorem Sound.next {e : Event} (h : Sound s l sl) (hd : Disciplined s e) :
    next s e = .error .blocked ∨ ∃ s' l' sl', next s e = .ok s' ∧ Sound s' l' sl' := by
  cases e with
  | kalloc =>
    obtain ⟨s', l', hn, h'⟩ := h.kalloc
    exact .inr ⟨s', l', sl, hn, h'⟩
  | kfree pa =>
    obtain ⟨s', hn, h'⟩ := h.kfree hd
    exact .inr ⟨s', l, sl, hn, h'⟩
  | superalloc =>
    obtain ⟨s', sl', hn, h'⟩ := h.superalloc
    exact .inr ⟨s', l, sl', hn, h'⟩
  | superfree pa =>
    obtain ⟨s', hn, h'⟩ := h.superfree hd
    exact .inr ⟨s', l, sl, hn, h'⟩
  | finish c =>
    by_cases hc : c ∈ s.calls
    · exact .inr (h.finish hc)
    · exact .inl (if_neg hc)
  | write m => exact .inr ⟨_, l, sl, rfl, h.write hd⟩

theorem run_sound {es : List Event} (h : Sound s l sl) (hd : Along next Disciplined s es) :
    run next s es = .error .blocked ∨ ∃ s' l' sl', run next s es = .ok s' ∧ Sound s' l' sl' := by
  induction es generalizing s l sl with
  | nil => exact .inr ⟨s, l, sl, rfl, h⟩
  | cons e es ih =>
    rcases h.next hd.1 with hb | ⟨s1, l1, sl1, hn, h1⟩
    · exact .inl (by rw [run, hb])
    · rw [run, hn]
      exact ih h1 ((Run.along_cons_iff hn).1 hd).2

def State.fresh (a : Alloc) : State := ⟨a, [], [], []⟩

variable {a : Alloc}

theorem superinitLoop_fills {i : Nat} (hslots : Slots a.superpages a.nfree sl) (hnodup : sl.Nodup)
    (hsuper : ∀ q ∈ sl, Super q ∧ superBase + i * SUPERPGSIZE ≤ q) (htotal : sl.length + i = NSUPERPAGES) :
    ∃ sp n sl', (superinitLoop i (superBase + i * SUPERPGSIZE)).run a = .ok ((), { a with superpages := sp, nfree := n }) ∧
      Slots sp n sl' ∧ sl'.Nodup ∧ (∀ q ∈ sl', Super q) ∧ sl'.length = NSUPERPAGES := by
  induction i generalizing a sl with
  | zero => exact ⟨_, _, sl, rfl, hslots, hnodup, fun q hq => (hsuper q hq).1, htotal⟩
  | succ i ih =>
    have htop : (superBase + (i + 1) * SUPERPGSIZE - SUPERPGSIZE) / SUPERPGSIZE * SUPERPGSIZE = superBase + i * SUPERPGSIZE := by lia
    have hnew : Super (superBase + i * SUPERPGSIZE) := ⟨by lia, by lia, by lia⟩
    have hout : superBase + i * SUPERPGSIZE ∉ sl := by
      intro hin
      have := (hsuper _ hin).2
      lia
    obtain ⟨sp, n, sl', hrun, h⟩ := ih (a := { a with superpages := _, nfree := _ }) (hslots.push (superBase + i * SUPERPGSIZE))
      (List.nodup_cons.2 ⟨hout, hnodup⟩)
      (by
        intro q hq
        rcases List.mem_cons.1 hq with rfl | hq
        · exact ⟨hnew, Nat.le_refl _⟩
        · exact ⟨(hsuper q hq).1, by have := (hsuper q hq).2; lia⟩)
      (by rw [length_cons]; lia)
    refine ⟨sp, n, sl', ?_, h⟩
    rw [superinitLoop]
    simp only [htop]
    exact hrun

theorem freerangeLoop_frees (h : Sound (.fresh a) l sl) (hp : p % PGSIZE = 0) (hend : kernelEnd ≤ p) (hl : ∀ q ∈ l, q < p) :
    ∃ a' l', (freerangeLoop superBase p).run a = .ok ((), a') ∧ Sound (.fresh a') l' sl := by
  induction hk : superBase - p using Nat.strong_induction_on generalizing a l p with
  | _ k ih =>
  rw [freerangeLoop]
  by_cases hlt : p + PGSIZE ≤ superBase
  · have hpage : Page p := ⟨hp, hend, by lia⟩
    have hnot : ∀ q ∈ l, Page q ∧ q ≠ p := fun q hq => ⟨h.free_page hq, Nat.ne_of_lt (hl q hq)⟩
    have hrun : (kfree p).run a = .ok ((), { a with
        mem := storeLE (fill a.mem p PGSIZE 1) p 8 a.freelist, freelist := p }) := by
      unfold kfree kfreeFill
      rw [if_neg (by lia)]
      rfl
    have hs : Sound (.fresh { a with
        mem := storeLE (fill a.mem p PGSIZE 1) p 8 a.freelist, freelist := p }) (p :: l) sl := by
      refine ⟨rfl, ?_, h.slots, ?_, ?_, h.superNodup, h.super, h.total⟩
      · have := links_push (links_fill (v := 1) h.links hnot hpage) hnot hpage
        rwa [← h.freelist] at this
      · exact List.nodup_cons.2 ⟨fun hin => (hnot p (by simpa [State.fresh] using hin)).2 rfl, h.nodup⟩
      · intro q hq
        rcases List.mem_cons.1 hq with rfl | hq
        · exact hpage
        · exact h.page q hq
    rw [dif_pos hlt, Hoare.run_bind_ok hrun]
    refine ih _ (by lia) hs (by lia) (by lia) (fun q hq => ?_) rfl
    rcases List.mem_cons.1 hq with rfl | hq
    · lia
    · have := hl q hq
      lia
  · rw [dif_neg hlt]
    exact ⟨a, l, rfl, h⟩

theorem kinit_sound (h : a.freelist = 0) : ∃ a' l sl, kinit.run a = .ok ((), a') ∧ Sound (.fresh a') l sl := by
  obtain ⟨sp, n, sl, hrun, hslots, hnodup, hsuper, hlen⟩ :=
    superinitLoop_fills (a := { a with nfree := 0 }) (i := NSUPERPAGES) (show Slots _ _ [] from rfl) List.nodup_nil
      (by simp) (Nat.zero_add _)
  have hs : Sound (.fresh { a with superpages := sp, nfree := n }) [] sl :=
    ⟨h, trivial, hslots, List.nodup_nil, by simp [State.fresh], by simpa [State.fresh] using hnodup,
      by simpa [State.fresh] using hsuper, by simpa [State.fresh] using hlen⟩
  have hround : pgroundup kernelEnd = (kernelEnd + 4095) / 4096 * 4096 := pgroundup_eq (by decide)
  obtain ⟨a', l, hfree, h'⟩ := freerangeLoop_frees (p := pgroundup kernelEnd) hs (by lia) (by lia) (by simp)
  refine ⟨a', l, sl, ?_, h'⟩
  rw [show superBase + NSUPERPAGES * SUPERPGSIZE = PHYSTOP by decide] at hrun
  have hsuperinit : superinit.run a = .ok ((), { a with superpages := sp, nfree := n }) := by
    unfold superinit
    rw [Hoare.run_bind_ok rfl]
    exact hrun
  unfold kinit
  rw [Hoare.run_bind_ok hsuperinit]
  exact hfree

/-- After `kinit` and any disciplined run of calls, in any order of their parts, the free list is acyclic and the pool is a stack of
distinct superpages, nothing is handed out twice, and no page of the one overlaps one of the other; no call panics. -/
theorem allocators_stay_sound {a : Alloc} (h : a.freelist = 0) : ∃ a', kinit.run a = .ok ((), a') ∧
    ∀ es, Along next Disciplined (.fresh a') es → (∀ msg, run next (.fresh a') es ≠ .error (.panic msg)) ∧
      ∀ s, run next (.fresh a') es = .ok s → ∃ l sl, Sound s l sl ∧ 0 ≤ s.a.nfree ∧ s.a.nfree ≤ (NSUPERPAGES : Nat) ∧
        ∀ p ∈ l ++ (s.calls.filterMap Call.page ++ s.live), ∀ q ∈ sl ++ (s.calls.filterMap Call.super ++ s.superLive),
          p + PGSIZE ≤ q := by
  obtain ⟨a', l, sl, hrun, hs⟩ := kinit_sound h
  refine ⟨a', hrun, fun es hd => ?_⟩
  rcases run_sound hs hd with hb | ⟨s', l', sl', hok, hs'⟩
  · rw [hb]
    exact ⟨by simp, by simp⟩
  · rw [hok]
    refine ⟨by simp, fun s heq => ?_⟩
    obtain rfl := Except.ok.inj heq
    have hlen := hs'.slots.length
    have htotal := hs'.total
    rw [List.length_append] at htotal
    exact ⟨l', sl', hs', by lia, by lia, fun p hp q hq => (hs'.page p hp).before (hs'.super q hq)⟩

theorem allocators_stay_sound_zero : ∃ a', kinit.run ⟨fun _ => 0, 0, fun _ => 0, 0⟩ = .ok ((), a') ∧
    ∀ msg, run next (.fresh a') [.kalloc, .superalloc] ≠ .error (.panic msg) := by
  obtain ⟨a', hrun, h⟩ := allocators_stay_sound (a := ⟨fun _ => 0, 0, fun _ => 0, 0⟩) rfl
  exact ⟨a', hrun, (h _ (Run.along_of_forall (by simp [Disciplined]))).1⟩

end Xv6.Kmem
