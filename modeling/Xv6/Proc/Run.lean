import Xv6.Proc.Life

/-!
# Runs of the kernel

The system calls that change the memory of processes, as operations on a `World`: the kernel and the pages that
other kernel code has allocated. A run starts after `kinit` and takes one operation at a time, by any process.
Between operations the invariant `World.Inv` holds, as long as no shrink cuts a superpage.
-/

namespace Xv6

open Function (update update_of_ne update_self)
open Bytes (Mem)
open Hoare Ledger

/-- The kernel, and the pages that kernel code other than the modelled one has allocated. -/
structure World where
  kernel : Kernel
  kpages : List Nat

abbrev WorldM := Kern World

def onKernel {α : Type} (x : KernM α) : WorldM α := fun w => do
  let (a, κ) ← x w.kernel
  return (a, { w with kernel := κ })

/-- What can happen between two moments at which no system call is under way. -/
inductive Op where
  | userinit
  | growproc (i : Pid) (n : Int)
  | fork (i : Pid)
  | exec (i : Pid) (path : List UInt8) (file : Option (List UInt8)) (argv : List (List UInt8))
  | exit (i : Pid) (status : Int)
  | wait (i : Pid) (addr : Nat)
  /-- The program of process `i` runs and leaves the memory `m`. -/
  | user (i : Pid) (m : Mem)
  /-- Other kernel code allocates a page. -/
  | kalloc
  /-- Other kernel code frees the page `p`. -/
  | kfree (p : Nat)

/-- The code of an operation; the result is the one of the call, or 0. -/
def Op.code : Op → WorldM Int
  | .userinit => do
    onKernel Xv6.userinit
    return 0
  | .growproc i n => onKernel (Xv6.growproc i n)
  | .fork i => onKernel (Xv6.fork i)
  | .exec i path file argv => onKernel (Xv6.exec i path file argv)
  | .exit i status => do
    onKernel (Xv6.exit i status)
    return 0
  | .wait i addr => do
    -- a sleeping process scans again later
    match ← onKernel (Xv6.wait i addr) with
    | none => return 0
    | some r => return r
  | .user _ m => do
    modify fun w => { w with kernel := { w.kernel with phys := { w.kernel.phys with mem := m } } }
    return 0
  | .kalloc => do
    match ← onKernel (onPhys Xv6.kalloc) with
    | none => return 0
    | some p =>
      modify fun w => { w with kpages := p :: w.kpages }
      return 0
  | .kfree p => do
    onKernel (onPhys (Xv6.kfree p))
    modify fun w => { w with kpages := w.kpages.erase p }
    return 0

def Kernel.Runs (κ : Kernel) (i : Pid) : Prop := (κ.proc i).state = .RUNNABLE ∨ (κ.proc i).state = .RUNNING

/-- The address `a` belongs to memory that the MMU lets the program of process `i` write. -/
def Kernel.UserByte (κ : Kernel) (i : Pid) (a : Nat) : Prop :=
  ∃ va l w, va < MAXVA ∧ sv39Leaf κ.phys.mem va 2 (κ.proc i).pagetable = some (l, w) ∧ hasFlag w PTE_U = true ∧
    hasFlag w PTE_W = true ∧ sv39 κ.phys.mem (κ.proc i).pagetable va = some a

/-- When an operation can happen. `main` calls `userinit` once, when almost all memory is still free; the argument of
`growproc` is an `int`. -/
def Op.Enabled (w : World) : Op → Prop
  | .userinit => w.kernel.initproc = none ∧ (∃ k, (w.kernel.proc k).state = .UNUSED) ∧ 10 ≤ w.kernel.phys.freelist.length
  | .growproc i n => w.kernel.Runs i ∧ -2 ^ 31 ≤ n ∧ n < 2 ^ 31
  | .fork i | .exec i _ _ _ | .exit i _ | .wait i _ => w.kernel.Runs i
  | .user i m => w.kernel.Runs i ∧ ∀ a, m a ≠ w.kernel.phys.mem a → w.kernel.UserByte i a
  | .kalloc => True
  | .kfree p => p ∈ w.kpages

def World.start (m : Mem) : World := ⟨⟨⟨m, [], []⟩, fun _ => {}, 1, none⟩, []⟩

/-- The worlds that are reached after `kinit` by operations that satisfy `C`. -/
inductive Reachable (C : World → Op → Prop) : World → Prop where
  | kinit {m : Mem} {w : World} (hrun : (onKernel (onPhys Xv6.kinit)).run (World.start m) = .ok ((), w)) : Reachable C w
  | step {w w' : World} {op : Op} {r : Int} (hw : Reachable C w) (hen : op.Enabled w) (hC : C w op)
      (hrun : op.code.run w = .ok (r, w')) : Reachable C w'

variable {κ : Kernel} {S : Pid → Option Space} {K K' : List Nat} {σ σ' : Phys} {m : Mem} {E : String → Prop}
  {w w' : World} {Q : Unit → Phys → Prop} {b : Block} {i : Pid} {A : Space}

theorem wp_onKernel {α : Type} {x : KernM α} {Q : α → World → Prop} :
    wp (onKernel x) Q E w ↔ wp x (fun a κ => Q a { w with kernel := κ }) E w.kernel := by
  refine wp_zoom (f := fun κ => { w with kernel := κ }) ?_
  simp only [onKernel, StateT.run]
  cases x w.kernel <;> rfl

@[irreducible]
def bootPages : List Nat := ((List.range 2015).map fun i => pgroundup kernelEnd + i * PGSIZE).reverse

@[irreducible]
def bootSuperpages : List Nat := (List.range NSUPERPAGES).map fun i => superBase + i * SUPERPGSIZE

theorem superinitLoop_spec (i base : Nat) (hb : base % SUPERPGSIZE = 0)
    (hQ : Q () { σ with superpages := (List.range i).map (fun k => base + k * SUPERPGSIZE) ++ σ.superpages }) :
    wp (superinitLoop i (base + i * SUPERPGSIZE)) Q E σ := by
  induction i generalizing σ with
  | zero => exact wp_pure.2 hQ
  | succ i ih =>
    unfold superinitLoop
    rw [show (base + (i + 1) * SUPERPGSIZE - SUPERPGSIZE) / SUPERPGSIZE * SUPERPGSIZE = base + i * SUPERPGSIZE by lia,
      wp_bind, wp_modify]
    refine ih ?_
    rw [List.range_succ, List.map_append, List.append_assoc] at hQ
    exact hQ

theorem freerangeLoop_spec (n p : Nat) (hp : p % PGSIZE = 0) (hlo : kernelEnd ≤ p) (hhi : p + n * PGSIZE ≤ PHYSTOP)
    (hQ : ∀ m, Q () { σ with mem := m, freelist := ((List.range n).map fun k => p + k * PGSIZE).reverse ++ σ.freelist }) :
    wp (freerangeLoop (p + n * PGSIZE) p) Q E σ := by
  induction n generalizing σ p with
  | zero =>
    rw [freerangeLoop, dif_neg (by lia)]
    exact wp_pure.2 (hQ σ.mem)
  | succ n ih =>
    rw [freerangeLoop, dif_pos (by lia), wp_bind, wp_kfree hp hlo (by lia),
      show p + (n + 1) * PGSIZE = p + PGSIZE + n * PGSIZE by lia]
    refine ih (p + PGSIZE) (by lia) (by lia) (by lia) fun m => ?_
    have hpages : ((List.range (n + 1)).map fun k => p + k * PGSIZE).reverse =
        ((List.range n).map fun k => p + PGSIZE + k * PGSIZE).reverse ++ [p] := by
      rw [List.range_succ_eq_map, List.map_cons, List.map_map, List.reverse_cons, Nat.zero_mul, Nat.add_zero]
      congr 3
      funext k
      simp only [Function.comp_apply]
      lia
    have hQm := hQ m
    rw [hpages, List.append_assoc] at hQm
    exact hQm

theorem kinit_spec (hf : σ.freelist = [])
    (hQ : ∀ m, Q () ⟨m, bootPages, bootSuperpages⟩) : wp kinit Q E σ := by
  unfold kinit superinit freerange
  rw [wp_bind, wp_bind, wp_modify, show PHYSTOP = superBase + NSUPERPAGES * SUPERPGSIZE from rfl]
  refine superinitLoop_spec NSUPERPAGES superBase (by decide) ?_
  rw [show superBase = pgroundup kernelEnd + 2015 * PGSIZE by decide]
  refine freerangeLoop_spec 2015 _ (by decide) (by decide) (by decide) fun m => ?_
  rw [hf, List.append_nil, List.append_nil]
  have hQm := hQ m
  unfold bootPages bootSuperpages at hQm
  exact hQm

theorem mem_bootPages {p : Nat} : p ∈ bootPages ↔ (Block.page p).Ok := by
  have hpg : pgroundup kernelEnd = 0x80021000 := by decide
  unfold bootPages
  simp only [List.mem_reverse, List.mem_map, List.mem_range, Block.Ok, hpg]
  constructor
  · rintro ⟨i, hi, rfl⟩
    lia
  · rintro ⟨h1, h2, h3⟩
    obtain ⟨i, hi⟩ : ∃ i, p = 0x80021000 + i * PGSIZE := ⟨(p - 0x80021000) / PGSIZE, by lia⟩
    exact ⟨i, by lia, hi.symm⟩

theorem mem_bootSuperpages {s : Nat} : s ∈ bootSuperpages ↔ (Block.super s).Ok := by
  unfold bootSuperpages
  simp only [List.mem_map, List.mem_range, Block.Ok]
  constructor
  · rintro ⟨i, hi, rfl⟩
    lia
  · rintro ⟨h1, h2, h3⟩
    exact ⟨(s - superBase) / SUPERPGSIZE, by lia, by lia⟩

theorem free_boot : Phys.Free ⟨m, bootPages, bootSuperpages⟩ b ↔ b.Ok := by
  rcases b with p | s
  · rw [Phys.Free, mem_bootPages]
  · rw [Phys.Free, mem_bootSuperpages]

theorem bootPages_nodup : bootPages.Nodup := by
  unfold bootPages
  rw [List.nodup_reverse]
  exact List.nodup_range.map fun i j hij => by lia

theorem bootSuperpages_nodup : bootSuperpages.Nodup := by
  unfold bootSuperpages
  exact List.nodup_range.map fun i j hij => by lia

theorem KInv.boot (m : Mem) : KInv ⟨⟨m, bootPages, bootSuperpages⟩, fun _ => {}, 1, none⟩ (fun _ => none) [] where
  sep i := by
    refine ⟨?_, ?_, bootPages_nodup, bootSuperpages_nodup, List.nodup_nil⟩
    · rintro (_ | _ | x) (_ | _ | y) b ho ho'
      · rfl
      all_goals first | cases ho.2 | cases ho'.2 | cases ho | cases ho'
    · rintro (_ | _ | x) b ho
      · exact free_boot.1 ho
      · cases ho
      · cases ho.2
  apart := by
    rintro i j b - (hb | ⟨x, hx⟩)
    · cases hb
    · cases hx
  nodup := List.nodup_nil
  ok hp := by cases hp
  not_free hp := by cases hp
  kernel hp := by cases hp
  total hb := Or.inl (free_boot.2 hb)
  proc _ := ⟨rfl, rfl, rfl, rfl⟩

theorem KInv.pages (hK : KInv κ S K) : Sep κ.phys Holdings.none (K.map .page) where
  exclusive := by
    rintro (_ | _ | x) (_ | _ | y) b ho ho'
    · rfl
    · obtain ⟨p, hp, rfl⟩ := List.mem_map.1 ho'
      exact absurd ho (hK.not_free hp)
    · cases ho'.2
    · obtain ⟨p, hp, rfl⟩ := List.mem_map.1 ho
      exact absurd ho' (hK.not_free hp)
    · rfl
    · cases ho'.2
    · cases ho.2
    · cases ho.2
    · cases ho.2
  ok := by
    rintro (_ | _ | x) b ho
    · exact (hK.sep 0).ok .free b ho
    · obtain ⟨p, hp, rfl⟩ := List.mem_map.1 ho
      exact hK.ok hp
    · cases ho.2
  freelist_nodup := (hK.sep 0).freelist_nodup
  superpages_nodup := (hK.sep 0).superpages_nodup
  hand_nodup := hK.nodup.map fun _ _ h => Block.page.inj h

theorem mem_held_pages :
    b ∈ held (Owns 0 σ Holdings.none (K.map .page)) ↔ σ.Free b ∨ ∃ p ∈ K, b = .page p := by
  rw [mem_held_iff]
  simp only [Holdings.none, reduceCtorEq, exists_false, or_false, List.mem_map]
  constructor
  · rintro (hf | ⟨p, hp, rfl⟩)
    · exact .inl hf
    · exact .inr ⟨p, hp, rfl⟩
  · rintro (hf | ⟨p, hp, rfl⟩)
    · exact .inl hf
    · exact .inr ⟨p, hp, rfl⟩

theorem KInv.pages_step (hK : KInv κ S K) (hs : Sep σ' Holdings.none (K'.map .page))
    (hk : Keeps 0 κ.phys Holdings.none (K.map .page) σ' Holdings.none (K'.map .page)) :
    KInv { κ with phys := σ' } S K' := by
  have hheld : ∀ b, (σ'.Free b ∨ ∃ p ∈ K', b = .page p) ↔ κ.phys.Free b ∨ ∃ p ∈ K, b = .page p := by
    intro b
    rw [← mem_held_pages, ← mem_held_pages, hk.held_eq 0 le_rfl]
  -- the blocks of a process are outside this ledger, before and after
  have hout : ∀ {i b}, b ∈ (κ.proc i).blocks (S i) → b ∉ held (Owns 0 κ.phys Holdings.none (K.map .page)) := by
    intro i b hb hc
    rcases mem_held_pages.1 hc with hf | ⟨p, hp, rfl⟩
    · rcases hb with hb | ⟨x, hx⟩
      · exact (hK.sep i).hand_not_free hb hf
      · exact (hK.sep i).placed_not_free hx hf
    · exact hK.kernel hp hb
  have hout' : ∀ {i b}, b ∈ (κ.proc i).blocks (S i) → ¬σ'.Free b ∧ ¬∃ p ∈ K', b = .page p := by
    intro i b hb
    have := hout hb
    rw [mem_held_pages, ← hheld b] at this
    exact not_or.1 this
  refine ⟨fun i => ?_, hK.apart, ?_, fun hp => ?_, fun hp => ?_, fun hp hb => ?_, fun {b} hb => ?_, fun i => ?_⟩
  · exact (hK.sep i).frame hs (fun x b hx => (hout' (.inr ⟨x, hx⟩)).1) fun b hb => (hout' (.inl hb)).1
  · exact List.Nodup.of_map _ hs.hand_nodup
  · exact hs.ok .hand _ (List.mem_map.2 ⟨_, hp, rfl⟩)
  · exact hs.hand_not_free (List.mem_map.2 ⟨_, hp, rfl⟩)
  · exact (hout' hb).2 ⟨_, hp, rfl⟩
  · rcases hK.total hb with hf | hi | hp
    · rcases (hheld b).2 (.inl hf) with hf | hp
      · exact .inl hf
      · exact .inr (.inr hp)
    · exact .inr (.inl hi)
    · rcases (hheld b).2 (.inr hp) with hf | hp
      · exact .inl hf
      · exact .inr (.inr hp)
  · have hi := hK.proc i
    rcases hS : S i with _ | A
    · rw [hS] at hi; exact hi
    · rw [hS] at hi
      refine ⟨hi.1, hi.2.1, ?_, hi.2.2.2⟩
      refine hi.2.2.1.frame_ledger (hK.live hS).sep hK.pages hk.agree fun x b hx => hout (i := i) (.inr ⟨x, ?_⟩)
      rw [hS]; exact hx

theorem KInv.perm (hK : KInv κ S K) (hp : K.Perm K') : KInv κ S K' where
  sep := hK.sep
  apart := hK.apart
  nodup := hp.nodup_iff.1 hK.nodup
  ok h := hK.ok (hp.mem_iff.2 h)
  not_free h := hK.not_free (hp.mem_iff.2 h)
  kernel h := hK.kernel (hp.mem_iff.2 h)
  total hb := by simpa only [hp.mem_iff] using hK.total hb
  proc := hK.proc

def Op.KeepsSuperpages (w : World) : Op → Prop
  | .growproc i n => ¬w.kernel.cuts i n
  | _ => True

/-- For each process, the 2 MiB chunks in which it has been asked to map single pages. -/
abbrev Asked := Pid → Set Nat

def World.Starts (w w' : World) (j : Pid) : Prop := (w.kernel.proc j).state = .UNUSED ∧ (w'.kernel.proc j).state ≠ .UNUSED

instance (w w' : World) (j : Pid) : Decidable (w.Starts w' j) := inferInstanceAs (Decidable (_ ∧ _))

/-- The chunks below the break of the process that no superpage maps. -/
def Kernel.byPages (κ : Kernel) (i : Pid) : Set Nat :=
  {v | v * SUPERPGSIZE < (κ.proc i).sz ∧ ∀ e, sv39Leaf κ.phys.mem (v * SUPERPGSIZE) 2 (κ.proc i).pagetable ≠ some (1, e)}

/-- How an operation with the result `r` that leads to `w'` adds to the chunks asked for. -/
def Op.asked (w : World) (r : Int) (w' : World) (T : Asked) : Op → Asked
  | .userinit => fun j => if w.Starts w' j then {0} else T j
  | .growproc i n => update T i
      (T i ∪ {v | 0 < n ∧ Part (npages (w.kernel.proc i).sz) (addInt (w.kernel.proc i).sz n) v})
  | .fork i => fun j => if w.Starts w' j then T i else T j
  | .exec i _ _ _ => if r = -1 then T else update T i (w'.kernel.byPages i)
  | _ => T

/-- The operation is a grow that wants a superpage for a chunk in which the process asked for single pages before. -/
def Op.Remaps (w : World) (T : Asked) : Op → Prop
  | .growproc i n => 0 < n ∧ ∃ v ∈ T i, Whole (npages (w.kernel.proc i).sz) (addInt (w.kernel.proc i).sz n) v
  | _ => False

def Op.InitExits (w : World) : Op → Prop
  | .exit i _ => w.kernel.initproc = some i
  | _ => False

/-- The address space has page-table pages for single pages in the chunks of `X` only, apart from the top chunk. -/
def Space.TablesIn (A : Space) (X : Set Nat) : Prop := ∀ v q, A.dir v = .table q → v ∈ X ∨ v = topChunk

def World.Inv (w : World) (T : Asked) : Prop :=
  ∃ S, KInv w.kernel S w.kpages ∧ ∀ i A, S i = some A → A.TablesIn (T i)

theorem KInv.runs (hK : KInv κ S K) (hi : κ.Runs i) : ∃ A, S i = some A := by
  rcases hS : S i with _ | A
  · have := (hK.slot hS).1
    rcases hi with hi | hi <;> rw [hi] at this <;> cases this
  · exact ⟨A, rfl⟩

theorem Image.mmu_frame {n tf va l e a : Nat} (hI : Image A n tf) (hl : A.leafAt va = some (l, e))
    (hu : hasFlag e PTE_U = true) (ha : A.mmu va = some a) : ¬Outside A.frames a := by
  simp only [Space.mmu, hl, Option.map_some, Option.some.injEq] at ha
  unfold Space.leafAt at hl
  split at hl
  · rename_i u hd
    simp only [Option.some.injEq, Prod.mk.injEq] at hl
    obtain ⟨rfl, rfl⟩ := hl
    intro ho
    refine ho.2 ⟨.super (va / SUPERPGSIZE), Nat.zero_le _, ?_⟩
    have hal := (A.dir_leaf hd).aligned
    simp only [Space.holdings, hd, Option.some.injEq, Block.super.injEq]
    lia
  · simp only [Option.map_eq_some_iff, Prod.mk.injEq] at hl
    obtain ⟨u, hpg, rfl, rfl⟩ := hl
    intro ho
    refine ho.1 ⟨.page (va / PGSIZE), Nat.zero_le _, ?_⟩
    have hal := (A.pg_leaf hpg).pageAddr.1
    rw [Space.holdings, if_pos (hI.pg_user hpg hu), hpg]
    simp only [Option.map_some, Option.some.injEq, Block.page.injEq, pgrounddown]
    lia

theorem KInv.user (hK : KInv κ S K) (hi : κ.Runs i) (hm : ∀ a, m a ≠ κ.phys.mem a → κ.UserByte i a) :
    KInv { κ with phys := { κ.phys with mem := m } } S K := by
  obtain ⟨A, hS⟩ := hK.runs hi
  have hL := hK.live hS
  have hI := hK.image hS
  have ha : AgreeOff A.frames κ.phys.mem m := by
    intro a h1 h2
    by_contra hne
    obtain ⟨va, l, e, hva, hl, hu, -, hmmu⟩ := hm a hne
    rw [← hK.root hS, hL.rep.sv39Leaf_eq hva] at hl
    rw [← hK.root hS, hL.rep.sv39_eq (by lia)] at hmmu
    exact hI.mmu_frame hl hu hmmu ⟨h1, h2⟩
  have hE : Evolves 0 κ.phys A (κ.proc i).hand { κ.phys with mem := m } A (κ.proc i).hand := hL.touch rfl rfl ha
  have hev := hK.evolve (p := κ.proc i) hS hE rfl rfl (hK.used hS) hI
  have hself : update κ.proc i (κ.proc i) = κ.proc := Function.update_eq_self ..
  have hSself : update S i (some A) = S := by rw [← hS]; exact Function.update_eq_self ..
  rwa [hself, hSself] at hev

variable {T : Asked} {op : Op}

theorem Space.TablesIn.mono {X Y : Set Nat} (hA : A.TablesIn X) (h : X ⊆ Y) : A.TablesIn Y :=
  fun v q hq => (hA v q hq).imp_left fun hv => h hv

/-- An operation that gives the process in slot `j` the address space `A`, and does not change what others asked for. -/
theorem World.Inv.change {w' : World} {j : Pid} {T' : Asked}
    (hK : KInv w'.kernel (update S j (some A)) w'.kpages)
    (hT : ∀ i A, S i = some A → A.TablesIn (T i)) (hA : A.TablesIn (T' j)) (hT' : ∀ i, i ≠ j → S i ≠ none → T' i = T i) :
    w'.Inv T' := by
  refine ⟨_, hK, fun i B hB => ?_⟩
  by_cases hij : i = j
  · subst hij
    rw [update_self, Option.some.injEq] at hB
    exact hB ▸ hA
  · rw [update_of_ne hij] at hB
    rw [hT' i hij (by rw [hB]; exact Option.some_ne_none _)]
    exact hT i B hB

theorem growproc_inv {n : Int} (hI : w.Inv T) (hen : (Op.growproc i n).Enabled w)
    (hcut : ¬w.kernel.cuts i n) (hremap : (Op.growproc i n).Remaps w T → E "supermappages: remap") :
    wp (Op.growproc i n).code (fun r w' => w'.Inv ((Op.growproc i n).asked w r w' T)) E w := by
  obtain ⟨S, hK, hT⟩ := hI
  obtain ⟨hruns, -, hint⟩ := hen
  obtain ⟨A, hS⟩ := hK.runs hruns
  rw [Op.code, wp_onKernel]
  rcases lt_trichotomy n 0 with hn | rfl | hn
  · refine wp_post (shrink_spec hK hS hn hcut) ?_
    rintro r κ' ⟨-, A', hP⟩
    refine World.Inv.change (hP.kinv hK hS) hT (fun v q hq => ?_) fun j hj _ => update_of_ne hj _ _
    rw [Op.asked, update_self]
    exact (hT i A hS v q ((hP.tables v q).1 hq)).imp_left Or.inl
  · unfold growproc
    rw [wp_bind, wp_get, if_neg (by omega), if_neg (by omega), wp_pure]
    refine ⟨S, hK, fun j B hB => (hT j B hB).mono ?_⟩
    rw [Op.asked]
    by_cases hj : j = i
    · rw [hj, update_self]; exact Set.subset_union_left
    · rw [update_of_ne hj]
  · refine wp_post (grow_spec hK hS hn hint fun v q hW hv hq => hremap ⟨hn, v, ?_, hW⟩) ?_
    · rcases hT i A hS v q hq with hv' | rfl
      · exact hv'
      · exact absurd hv (by decide)
    · rintro r κ' ⟨A', hG⟩
      have hle : (w.kernel.proc i).sz ≤ addInt (w.kernel.proc i).sz n := by
        have := hK.sz_le hS
        unfold addInt
        lia
      refine World.Inv.change (hG.kinv hK hS hle) hT (fun v q hq => ?_) fun j hj _ => update_of_ne hj _ _
      rw [Op.asked, update_self]
      rcases hG.tables hq with hq | hP
      · exact (hT i A hS v q hq).imp_left Or.inl
      · exact .inl (.inr ⟨hn, hP⟩)

theorem userinit_inv (hI : w.Inv T) (hen : Op.userinit.Enabled w) :
    wp Op.userinit.code (fun r w' => w'.Inv (Op.userinit.asked w r w' T)) E w := by
  obtain ⟨S, hK, hT⟩ := hI
  obtain ⟨-, hslot, hmem⟩ := hen
  simp only [Op.code, wp_bind, wp_onKernel]
  refine wp_post (userinit_spec hK hslot hmem) ?_
  rintro _ κ' ⟨j, A, hN⟩
  have hstart : w.Starts { w with kernel := κ' } j := ⟨(hK.slot hN.slot).1, by rw [hN.state]; decide⟩
  refine wp_pure.2 (World.Inv.change hN.kinv hT ?_ fun i hij hi => ?_)
  · simp only [Op.asked, if_pos hstart]
    exact hN.tables
  · simp only [Op.asked]
    rw [if_neg]
    rintro ⟨h1, h2⟩
    exact hi (hK.unused h1)

theorem fork_inv (hI : w.Inv T) (hen : (Op.fork i).Enabled w) :
    wp (Op.fork i).code (fun r w' => w'.Inv ((Op.fork i).asked w r w' T)) E w := by
  obtain ⟨S, hK, hT⟩ := hI
  obtain ⟨P, hS⟩ := hK.runs hen
  -- the processes that exist have not just started
  have hold : ∀ {w' : World} {j : Pid}, S j ≠ none → (Op.fork i).asked w 0 w' T j = T j := by
    intro w' j hj
    simp only [Op.asked]
    rw [if_neg]
    rintro ⟨h1, h2⟩
    exact hj (hK.unused h1)
  rw [Op.code, wp_onKernel]
  refine wp_post (fork_spec hK hS) ?_
  rintro r κ' (⟨-, hK', -⟩ | ⟨j, A, hF⟩)
  · refine ⟨S, hK', fun j B hB => ?_⟩
    rw [show (Op.fork i).asked w r _ T j = T j from hold (by rw [hB]; exact Option.some_ne_none _)]
    exact hT j B hB
  · have hstart : w.Starts { w with kernel := κ' } j := ⟨(hK.slot hF.slot).1, by rw [hF.state]; decide⟩
    refine World.Inv.change hF.kinv hT ?_ fun k _ hk => hold hk
    simp only [Op.asked, if_pos hstart]
    intro v q hq
    rcases hF.tables v q hq with ⟨q', hq'⟩ | hv
    · exact hT i P hS v q' hq'
    · exact .inr hv

theorem exec_inv {path : List UInt8} {file : Option (List UInt8)} {argv : List (List UInt8)} (hI : w.Inv T)
    (hen : (Op.exec i path file argv).Enabled w) :
    wp (Op.exec i path file argv).code (fun r w' => w'.Inv ((Op.exec i path file argv).asked w r w' T)) E w := by
  obtain ⟨S, hK, hT⟩ := hI
  obtain ⟨P, hS⟩ := hK.runs hen
  rw [Op.code, wp_onKernel]
  refine wp_post (exec_spec hK hS path file argv) ?_
  rintro r κ' (⟨rfl, hK', -⟩ | ⟨A, rfl, hX⟩)
  · rw [Op.asked, if_pos rfl]
    exact ⟨S, hK', hT⟩
  · rw [Op.asked, if_neg (by omega)]
    refine World.Inv.change hX.kinv hT (fun v q hq => ?_) fun j hj _ => update_of_ne hj _ _
    rw [update_self]
    refine (hX.tables v q hq).imp_left fun hv => ⟨hv, fun e he => ?_⟩
    -- the chunk has a page-table page, so the MMU finds no leaf at level 1
    have hS' : update S i (some A) i = some A := update_self ..
    have hsz := hX.kinv.sz_le hS'
    rw [← hX.kinv.root hS', (hX.kinv.live hS').rep.sv39Leaf_eq (by lia), Space.leafAt,
      show v * SUPERPGSIZE / SUPERPGSIZE = v by lia, hq] at he
    simp at he

theorem Op.code_inv (hI : w.Inv T) (hen : op.Enabled w) (hcut : op.KeepsSuperpages w)
    (hremap : op.Remaps w T → E "supermappages: remap") (hinit : op.InitExits w → E "init exiting") :
    wp op.code (fun r w' => w'.Inv (op.asked w r w' T)) E w := by
  cases op with
  | userinit => exact userinit_inv hI hen
  | growproc i n => exact growproc_inv hI hen hcut hremap
  | fork i => exact fork_inv hI hen
  | exec i path file argv => exact exec_inv hI hen
  | exit i status =>
    obtain ⟨S, hK, hT⟩ := hI
    obtain ⟨P, hS⟩ := hK.runs hen
    simp only [Op.code, wp_bind, wp_onKernel]
    by_cases hi : w.kernel.initproc = some i
    · unfold Xv6.exit
      rw [wp_bind, wp_get, if_pos hi, wp_panic]
      exact hinit hi
    · refine wp_post (exit_spec hK hS status hi) ?_
      rintro _ κ' ⟨hK', -⟩
      exact wp_pure.2 ⟨S, hK', hT⟩
  | wait i addr =>
    obtain ⟨S, hK, hT⟩ := hI
    obtain ⟨P, hS⟩ := hK.runs hen
    simp only [Op.code, wp_bind, wp_onKernel]
    refine wp_post (wait_spec hK hS addr) ?_
    intro r κ' hr
    have hinv : World.Inv { w with kernel := κ' } T := by
      rcases hr with ⟨hK', -⟩ | ⟨j, -, hR⟩
      · exact ⟨S, hK', hT⟩
      · refine ⟨_, hR.kinv, fun k B hB => ?_⟩
        by_cases hk : k = j
        · rw [hk, update_self] at hB; cases hB
        · rw [update_of_ne hk] at hB
          exact hT k B hB
    cases r <;> exact wp_pure.2 hinv
  | user i m =>
    obtain ⟨S, hK, hT⟩ := hI
    simp only [Op.code, wp_bind, wp_modify, wp_pure]
    exact ⟨S, hK.user hen.1 hen.2, hT⟩
  | kalloc =>
    obtain ⟨S, hK, hT⟩ := hI
    simp only [Op.code, wp_bind, wp_onKernel, wp_onPhys]
    refine kalloc_spec 0 hK.pages (fun _ => wp_pure.2 ⟨S, hK, hT⟩) fun p σ' hs hk _ _ _ => ?_
    rw [wp_bind, wp_modify, wp_pure]
    have hK' : KInv _ S (p :: w.kpages) := hK.pages_step hs hk
    exact ⟨S, hK', hT⟩
  | kfree p =>
    obtain ⟨S, hK, hT⟩ := hI
    have hK' := hK.perm (List.perm_cons_erase hen)
    simp only [Op.code, wp_bind, wp_onKernel, wp_onPhys]
    refine kfree_spec 0 hK'.pages fun σ' hs hk _ _ _ => ?_
    rw [wp_modify, wp_pure]
    exact ⟨S, hK'.pages_step hs hk, hT⟩

theorem World.Inv.boot (T : Asked) {m : Mem} (hrun : (onKernel (onPhys kinit)).run (World.start m) = .ok ((), w)) :
    w.Inv T := by
  have h : wp (onKernel (onPhys kinit)) (fun _ w => w.Inv T) (fun _ => False) (World.start m) := by
    rw [wp_onKernel, wp_onPhys]
    exact kinit_spec rfl fun m' => ⟨_, KInv.boot m', fun i A hA => by cases hA⟩
  exact (wp_of_ok hrun).1 h

theorem Reachable.inv (hw : Reachable (fun w op => op.KeepsSuperpages w) w) : ∃ T, w.Inv T := by
  induction hw with
  | kinit hrun => exact ⟨_, World.Inv.boot (fun _ => ∅) hrun⟩
  | step _ hen hC hrun ih =>
    obtain ⟨T, hI⟩ := ih
    have hspec := Op.code_inv (E := fun _ => True) hI hen hC (fun _ => trivial) fun _ => trivial
    exact ⟨_, (wp_of_ok hrun).1 hspec⟩

end Xv6
