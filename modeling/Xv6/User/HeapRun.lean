import Mathlib.Logic.Function.Iterate
import Xv6.User.Heap

/-!
# Runs of `malloc` and `free`

The kernel answers each `sbrk` with an error or with a region. A run is any sequence of calls of `malloc` and of `free` of live
pointers; in between the program writes into its live blocks.
-/

namespace Xv6.Malloc

open Chain

/-- The answers of `sbrk` to come, and the regions it has given, by address and number of bytes. -/
structure Env where
  answers : Nat → Option Nat
  regions : List (Nat × Nat)

def Env.sbrk (e : Env) (n : Int) : Option Nat × Env :=
  match e.answers 0 with
  | none => (none, { e with answers := fun i => e.answers (i + 1) })
  | some a => (some a, ⟨fun i => e.answers (i + 1), (a, n.toNat) :: e.regions⟩)

/-- The regions lie above the static header, and each above all earlier ones. -/
def Fresh (base : Nat) (regions : List (Nat × Nat)) : Prop :=
  (∀ r ∈ regions, base + 16 ≤ r.1) ∧ regions.Pairwise fun r q => q.1 + q.2 ≤ r.1

def bytes : List (Nat × Nat) → Nat
  | [] => 0
  | r :: regions => r.2 + bytes regions

def regionCells (regions : List (Nat × Nat)) : List Nat := regions.flatMap fun r => cells 16 r.1 (r.2 / 16)

/-- A program: its heap, the kernel, and the live pointers with the numbers of bytes that were asked for. -/
structure Sys where
  heap : Heap
  env : Env
  live : List (Nat × Nat)

def Sys.malloc (s : Sys) (base fuel nbytes : Nat) : Option Sys :=
  (Malloc.malloc Env.sbrk base s.heap s.env fuel nbytes).map fun r =>
    ⟨r.2.1, r.2.2, if r.1 = 0 then s.live else (r.1, nbytes) :: s.live⟩

def Sys.free (s : Sys) (fuel : Nat) (x : Nat × Nat) : Option Sys :=
  (Malloc.free s.heap fuel x.1).map fun h => { s with heap := h, live := s.live.erase x }

def Fits (h : Heap) (n : Nat) : Prop := ∃ i, n ≤ h.size (h.ptr^[i] h.freep)

/-- `malloc(nbytes)` does not need `sbrk`, or asks it for less than `2 ^ 31` bytes and gets an error or a fresh region, with which
the memory obtained stays below `2 ^ 36` bytes. -/
def Served (base : Nat) (s : Sys) (nbytes : Nat) : Prop :=
  Fits (begin base s.heap) (nunits nbytes) ∨ coreUnits (nunits nbytes) * 16 < 2 ^ 31 ∧ ∀ a, s.env.answers 0 = some a →
    Fresh base ((a, coreUnits (nunits nbytes) * 16) :: s.env.regions) ∧
    bytes ((a, coreUnits (nunits nbytes) * 16) :: s.env.regions) < 2 ^ 36

/-- The header at `a` shares no byte with what the live pointers point to. -/
def Clear (live : List (Nat × Nat)) (a : Nat) : Prop := ∀ x ∈ live, a + 16 ≤ x.1 ∨ x.1 + x.2 ≤ a

inductive Reach (base : Nat) : Sys → Prop
  | start {h : Heap} {answers : Nat → Option Nat} : h.freep = 0 → Reach base ⟨h, ⟨answers, []⟩, []⟩
  | malloc {s s' : Sys} {nbytes N : Nat} : Reach base s → Served base s nbytes →
      (∀ fuel, N ≤ fuel → s.malloc base fuel nbytes = some s') → Reach base s'
  | free {s s' : Sys} {x : Nat × Nat} {N : Nat} : Reach base s → x ∈ s.live →
      (∀ fuel, N ≤ fuel → s.free fuel x = some s') → Reach base s'
  | write {s : Sys} {h : Heap} : Reach base s → h.freep = s.heap.freep →
      (∀ a, Clear s.live a → h.ptr a = s.heap.ptr a ∧ h.size a = s.heap.size a) → Reach base { s with heap := h }

variable {base bp n nbytes fuel : Nat} {h h' : Heap} {C live R l live' C' : List Nat} {s s' : Sys}
  {regions : List (Nat × Nat)} {a b w N N' : Nat} {x : Nat × Nat}

theorem Fresh.sane (h : Fresh base regions) (hb : bytes regions < 2 ^ 36) : Sane base (regionCells regions) := by
  have hlen : ∀ rs : List (Nat × Nat), 16 * (regionCells rs).length ≤ bytes rs := by
    intro rs
    induction rs with
    | nil => exact Nat.le_refl 0
    | cons r rs ih =>
      simp only [regionCells, bytes, List.flatMap_cons, List.length_append, length_cells] at ih ⊢
      omega
  refine ⟨fun x hx => ?_, List.pairwise_flatMap.2 ⟨fun r _ => pairwise_cells, ?_⟩, ?_⟩
  · obtain ⟨r, hr, hx⟩ := List.mem_flatMap.1 hx
    obtain ⟨i, -, rfl⟩ := mem_cells.1 hx
    have := h.1 r hr
    omega
  · refine h.2.imp fun {r q} hrq x hx y hy => ?_
    obtain ⟨i, -, rfl⟩ := mem_cells.1 hx
    obtain ⟨j, hj, rfl⟩ := mem_cells.1 hy
    unfold Apart
    omega
  · have := hlen regions
    omega

theorem asInt_of_lt {x : Nat} (h : x < 2 ^ 31) : asInt x = x := by
  unfold asInt
  rw [BitVec.toInt_eq_toNat_of_lt] <;> rw [BitVec.toNat_ofNat] <;> omega

theorem nunits_pos (nbytes : Nat) : 0 < nunits nbytes := Nat.succ_pos _

theorem le_nunits (nbytes : Nat) : nbytes + 16 ≤ 16 * nunits nbytes := by
  unfold nunits
  omega

def header (x : Nat × Nat) : Nat := x.1 - 16

structure SysInv (base : Nat) (s : Sys) : Prop where
  heap : ∃ C, Inv base (begin base s.heap) C (s.live.map header) (regionCells s.env.regions)
  size : ∀ x ∈ s.live, 16 ≤ x.1 ∧ (begin base s.heap).size (header x) = nunits x.2
  begun : s.live ≠ [] → s.heap.freep ≠ 0
  fresh : Fresh base s.env.regions
  few : bytes s.env.regions < 2 ^ 36

theorem begin_of_ne (h' : h.freep ≠ 0) : begin base h = h := if_neg h'

theorem Inv.freep_ne (hI : Inv base h C live R) (hbase : 0 < base) : h.freep ≠ 0 := by
  have := hI.le hI.freep
  omega

theorem Inv.iterate_mem (hI : Inv base h C live R) (i : Nat) : h.ptr^[i] h.freep ∈ C := by
  induction i with
  | zero => exact hI.freep
  | succ i ih =>
    rw [Function.iterate_succ_apply']
    rcases hI.ring.mem_or ih with hm | hm
    · exact hm
    · rw [hm]
      exact List.mem_of_head? hI.head

theorem Inv.perm (hI : Inv base h C live R) (hp : live.Perm live') : Inv base h C live' R :=
  ⟨hI.head, hI.ring, hI.freep, hI.sorted, hI.base_size, hI.pos, fun a ha => hI.pos_live a (hp.mem_iff.2 ha),
    ((hp.symm.append_left C).flatMap_right _).trans hI.tiles⟩

theorem begin_inv (hh : h.freep = 0) : Inv base (begin base h) [base] [] [] := by
  unfold begin
  rw [if_pos hh]
  have hsize : ((h.setPtr base base).setSize base 0).size base = 0 := Function.update_self ..
  refine ⟨rfl, ⟨Function.update_self .., trivial⟩, List.mem_singleton.2 rfl, List.pairwise_singleton .., hsize, ?_, ?_, ?_⟩
  · intro a ha hab
    exact absurd (List.mem_singleton.1 ha) hab
  · intro a ha
    cases ha
  · rw [List.append_nil, blocks_cons, hsize]
    exact List.Perm.refl _

theorem header_add (hx : 16 ≤ x.1) : header x + 16 = x.1 := Nat.sub_add_cancel hx

theorem SysInv.taken {e : Env} (hI : SysInv base s) (hbase : 0 < base)
    (hT : Taken base w (nunits nbytes) (begin base s.heap) h' C' (s.live.map header) (regionCells e.regions))
    (hF : Fresh base e.regions) (hB : bytes e.regions < 2 ^ 36) : SysInv base ⟨h', e, (w + 16, nbytes) :: s.live⟩ := by
  have hne := hT.inv.freep_ne hbase
  refine ⟨⟨C', ?_⟩, fun x hx => ?_, fun _ => hne, hF, hB⟩
  · rw [begin_of_ne hne]
    exact hT.inv
  · rw [begin_of_ne hne]
    rcases List.mem_cons.1 hx with rfl | hx
    · exact ⟨Nat.le_add_left 16 w, hT.size⟩
    · obtain ⟨h1, h2⟩ := hI.size x hx
      exact ⟨h1, (hT.keep _ (List.mem_map_of_mem hx)).trans h2⟩

theorem malloc_step (hI : SysInv base s) (hbase : 0 < base) (hserved : Served base s nbytes) :
    ∃ N s', (∀ fuel, N ≤ fuel → s.malloc base fuel nbytes = some s') ∧ SysInv base s' := by
  obtain ⟨C, hC⟩ := hI.heap
  have hS := hI.fresh.sane hI.few
  have hn := nunits_pos nbytes
  -- what `malloc` returns is what the state becomes
  have hstep : ∀ {r N}, (∀ fuel, N ≤ fuel → mallocLoop Env.sbrk (nunits nbytes) fuel (begin base s.heap) s.env (begin base s.heap).freep
      ((begin base s.heap).ptr (begin base s.heap).freep) = some r) → ∀ fuel, N ≤ fuel →
      s.malloc base fuel nbytes = some ⟨r.2.1, r.2.2, if r.1 = 0 then s.live else (r.1, nbytes) :: s.live⟩ := by
    intro r N hrun fuel hf
    rw [Sys.malloc, Malloc.malloc, hrun fuel hf]
    rfl
  by_cases hfit : ∃ q ∈ C, nunits nbytes ≤ (begin base s.heap).size q
  · obtain ⟨w, h', C', hrun, -, hT⟩ := mallocLoop_fits Env.sbrk hC hS hn hfit s.env
    exact ⟨C.length, _, hstep hrun, hI.taken hbase hT hI.fresh hI.few⟩
  · have hsmall : ∀ q ∈ C, (begin base s.heap).size q < nunits nbytes := fun q hq =>
      Nat.lt_of_not_le fun hle => hfit ⟨q, hq, hle⟩
    rcases hserved with ⟨i, hle⟩ | ⟨hlt, hans⟩
    · exact absurd ⟨_, hC.iterate_mem i, hle⟩ hfit
    · rcases ha : s.env.answers 0 with _ | a
      · have hk : s.env.sbrk (asInt (coreUnits (nunits nbytes) * 16)) = (none, { s.env with answers := fun i => s.env.answers (i + 1) }) := by
          rw [Env.sbrk, ha]
        have hne := hC.freep_ne hbase
        refine ⟨C.length, _, hstep (mallocLoop_null hC hsmall hk), ⟨C, ?_⟩, fun x hx => ?_, fun _ => hne, hI.fresh, hI.few⟩
        · rw [begin_of_ne hne]
          exact hC
        · rw [begin_of_ne hne]
          exact hI.size x hx
      · have hk : s.env.sbrk (asInt (coreUnits (nunits nbytes) * 16)) =
            (some a, ⟨fun i => s.env.answers (i + 1), (a, coreUnits (nunits nbytes) * 16) :: s.env.regions⟩) := by
          rw [Env.sbrk, ha, asInt_of_lt hlt]
          rfl
        obtain ⟨hF, hB⟩ := hans a ha
        have hcells : regionCells ((a, coreUnits (nunits nbytes) * 16) :: s.env.regions) =
            cells 16 a (coreUnits (nunits nbytes)) ++ regionCells s.env.regions := by
          rw [regionCells, List.flatMap_cons, Nat.mul_div_cancel _ (by decide)]
          rfl
        obtain ⟨N, w, h', C', hrun, -, hT⟩ := mallocLoop_grows hC hn hsmall hk (hcells ▸ hF.sane hB)
        rw [← hcells] at hT
        exact ⟨N, _, hstep hrun, hI.taken hbase hT hF hB⟩

theorem SysInv.first (hC : Inv base h C (s.live.map header) R) (hx : x ∈ s.live) :
    Inv base h C (header x :: (s.live.erase x).map header) R :=
  hC.perm ((List.perm_cons_erase hx).map header)

theorem free_step (hI : SysInv base s) (hbase : 0 < base) (hx : x ∈ s.live) :
    ∃ N s', (∀ fuel, N ≤ fuel → s.free fuel x = some s') ∧ SysInv base s' := by
  obtain ⟨C, hC⟩ := hI.heap
  have hbegun : begin base s.heap = s.heap := begin_of_ne (hI.begun (List.ne_nil_of_mem hx))
  have hsize := hI.size
  rw [hbegun] at hC hsize
  obtain ⟨h', C', hfree, hF⟩ := free_spec (SysInv.first hC hx) (hI.fresh.sane hI.few)
  rw [header_add (hsize x hx).1] at hfree
  have hne := hF.inv.freep_ne hbase
  refine ⟨C.length, { s with heap := h', live := s.live.erase x }, fun fuel hf => ?_, ⟨C', ?_⟩, fun y hy => ?_, fun _ => hne,
    hI.fresh, hI.few⟩
  · rw [Sys.free, hfree fuel hf]
    rfl
  · rw [begin_of_ne hne]
    exact hF.inv
  · rw [begin_of_ne hne]
    obtain ⟨h1, h2⟩ := hsize y (List.mem_of_mem_erase hy)
    exact ⟨h1, (hF.keep _ (List.mem_map_of_mem hy)).trans h2⟩

theorem Inv.congr (hI : Inv base h C live R) (hfreep : h'.freep = h.freep)
    (hC : ∀ a ∈ C, h'.ptr a = h.ptr a) (hsize : ∀ a ∈ C ++ live, h'.size a = h.size a) : Inv base h' C live R := by
  have hsizeC : ∀ a ∈ C, h'.size a = h.size a := fun a ha => hsize a (List.mem_append_left live ha)
  refine ⟨hI.head, hI.ring.congr hC, hfreep ▸ hI.freep, ?_, ?_, fun a ha hb => ?_, fun a ha => ?_, ?_⟩
  · refine hI.sorted.imp_of_mem fun {a b} ha _ hab => ?_
    rw [hsizeC a ha]
    exact hab
  · rw [hsizeC base (List.mem_of_head? hI.head)]
    exact hI.base_size
  · rw [hsizeC a ha]
    exact hI.pos a ha hb
  · rw [hsize a (List.mem_append_right C ha)]
    exact hI.pos_live a ha
  · rw [blocks_congr hsize]
    exact hI.tiles

theorem SysInv.clear (hI : SysInv base s) (hC : Inv base h C (s.live.map header) (regionCells s.env.regions))
    (hsize : ∀ x ∈ s.live, 16 ≤ x.1 ∧ h.size (header x) = nunits x.2) (ha : a ∈ C ++ s.live.map header) :
    Clear s.live a := by
  intro x hx
  have hS := hI.fresh.sane hI.few
  have hx' := SysInv.first hC hx
  obtain ⟨h1, h2⟩ := hsize x hx
  have h3 := header_add h1
  have h4 := le_nunits x.2
  -- a header is the first cell of its block
  have hblock : ∀ {m}, 0 < m → a + 16 * m ≤ header x ∨ header x + 16 * h.size (header x) ≤ a → a + 16 ≤ x.1 ∨ x.1 + x.2 ≤ a := by
    intro m hm hor
    omega
  rcases List.mem_append.1 ha with ha | ha
  · by_cases hb : a = base
    · have hcell : header x ∈ cells 16 (header x) (h.size (header x)) :=
        mem_cells.2 ⟨0, hx'.pos_live _ (List.mem_cons_self ..), rfl⟩
      have := hS.above _ (hx'.tiles.subset (cells_subset_blocks (by simp) hcell))
      omega
    · exact hblock (hC.pos a ha hb) (hx'.apart hS ha)
  · obtain ⟨y, hy, rfl⟩ := List.mem_map.1 ha
    by_cases hxy : y = x
    · rw [hxy]
      omega
    · have hy' : header y ∈ (s.live.erase x).map header := List.mem_map_of_mem ((List.mem_erase_of_ne hxy).2 hy)
      have happ := (List.pairwise_cons.1 (List.pairwise_append.1 (hx'.pairwise hS)).2.1).1 _ hy'
      have hpos := hx'.pos_live _ (List.mem_cons_of_mem _ hy')
      exact hblock hpos (blocks_apart (by decide) (hx'.pos_live _ (List.mem_cons_self ..)) hpos happ).symm

theorem write_step (hI : SysInv base s) (hfreep : h.freep = s.heap.freep)
    (hw : ∀ a, Clear s.live a → h.ptr a = s.heap.ptr a ∧ h.size a = s.heap.size a) : SysInv base { s with heap := h } := by
  by_cases h0 : s.heap.freep = 0
  · have hnil : s.live = [] := Classical.byContradiction fun hne => hI.begun hne h0
    have heq : h = s.heap := by
      have hall : ∀ a, h.ptr a = s.heap.ptr a ∧ h.size a = s.heap.size a := fun a => hw a (by rw [hnil]; intro x hx; cases hx)
      cases h
      cases hs : s.heap
      simp only [hs] at hall hfreep
      rw [hfreep, funext fun a => (hall a).1, funext fun a => (hall a).2]
    rw [heq]
    exact hI
  · obtain ⟨C, hC⟩ := hI.heap
    have hsize := hI.size
    rw [begin_of_ne h0] at hC hsize
    have hne : h.freep ≠ 0 := by rwa [hfreep]
    have hclear : ∀ a ∈ C ++ s.live.map header, Clear s.live a := fun a ha => hI.clear hC hsize ha
    refine ⟨⟨C, ?_⟩, fun x hx => ?_, fun _ => hne, hI.fresh, hI.few⟩
    · rw [begin_of_ne hne]
      exact hC.congr hfreep (fun a ha => (hw a (hclear a (List.mem_append_left _ ha))).1) fun a ha => (hw a (hclear a ha)).2
    · rw [begin_of_ne hne]
      obtain ⟨h1, h2⟩ := hsize x hx
      exact ⟨h1, (hw _ (hclear _ (List.mem_append_right C (List.mem_map_of_mem hx)))).2.trans h2⟩

theorem ends_unique {f : Nat → Option Sys} (h1 : ∀ fuel, N ≤ fuel → f fuel = some s)
    (h2 : ∀ fuel, N' ≤ fuel → f fuel = some s') : s = s' :=
  Option.some.inj ((h1 (N + N') (Nat.le_add_right N N')).symm.trans (h2 (N + N') (Nat.le_add_left N' N)))

theorem Reach.inv (hbase : 0 < base) (hr : Reach base s) : SysInv base s := by
  induction hr with
  | start h0 =>
    have hnone : bytes [] < 2 ^ 36 := by decide
    exact ⟨⟨[base], begin_inv h0⟩, fun x hx => (by cases hx), fun hne => absurd rfl hne,
      ⟨fun r hr => (by cases hr), List.Pairwise.nil⟩, hnone⟩
  | malloc _ hserved hend ih =>
    obtain ⟨N, s', hrun, hI⟩ := malloc_step ih hbase hserved
    exact ends_unique hrun hend ▸ hI
  | free _ hx hend ih =>
    obtain ⟨N, s', hrun, hI⟩ := free_step ih hbase hx
    exact ends_unique hrun hend ▸ hI
  | write _ hfreep hw ih => exact write_step ih hfreep hw

/-- In every run in which `sbrk` gives fresh regions, less than `2 ^ 36` bytes in all, the calls of `malloc` and `free` end; the
free list is a ring in the order of the addresses, with gaps; the free blocks and the live ones are the memory obtained. -/
theorem malloc_free_consistent (base : Nat) (hbase : 0 < base) (s : Sys) (hr : Reach base s) :
    (∃ C, Links (begin base s.heap).ptr (base :: C) base ∧ (begin base s.heap).freep ∈ base :: C ∧
      ((base :: C).Pairwise fun a b => a + 16 * (begin base s.heap).size a < b) ∧
      (∀ a ∈ C ++ s.live.map header, 0 < (begin base s.heap).size a) ∧
      (blocks 16 (begin base s.heap).size (C ++ s.live.map header)).Perm (regionCells s.env.regions)) ∧
    (regionCells s.env.regions).Pairwise (Apart 16) ∧
    (∀ x ∈ s.live, header x + 16 = x.1 ∧ x.1 + x.2 ≤ header x + 16 * (begin base s.heap).size (header x)) ∧
    (s.live.Pairwise fun x y => header x + 16 * (begin base s.heap).size (header x) ≤ header y ∨
      header y + 16 * (begin base s.heap).size (header y) ≤ header x) ∧
    (∀ x ∈ s.live, ∃ N s', ∀ fuel, N ≤ fuel → s.free fuel x = some s') ∧
    ∀ nbytes, Served base s nbytes → ∃ N s', ∀ fuel, N ≤ fuel → s.malloc base fuel nbytes = some s' := by
  have hI := hr.inv hbase
  have hS := hI.fresh.sane hI.few
  obtain ⟨C, hC⟩ := hI.heap
  refine ⟨?_, hS.apart, fun x hx => ?_, ?_, fun x hx => ?_, fun nbytes hserved => ?_⟩
  · obtain ⟨L, rfl⟩ := hC.cons
    have htiles := hC.tiles
    rw [List.cons_append, blocks_cons, hC.base_size] at htiles
    refine ⟨L, hC.ring, hC.freep, hC.sorted, fun a ha => ?_, htiles⟩
    rcases List.mem_append.1 ha with ha | ha
    · have := (List.pairwise_cons.1 hC.sorted).1 a ha
      exact hC.pos a (List.mem_cons_of_mem base ha) (by omega)
    · exact hC.pos_live a ha
  · obtain ⟨h1, h2⟩ := hI.size x hx
    have := le_nunits x.2
    have := header_add h1
    rw [h2]
    omega
  · have hpair := List.pairwise_map.1 (List.pairwise_append.1 (hC.pairwise hS)).2.1
    refine hpair.imp_of_mem fun {x y} hx hy hxy => ?_
    exact blocks_apart (by decide) (hC.pos_live _ (List.mem_map_of_mem hx)) (hC.pos_live _ (List.mem_map_of_mem hy)) hxy
  · obtain ⟨N, s', hrun, -⟩ := free_step hI hbase hx
    exact ⟨N, s', hrun⟩
  · obtain ⟨N, s', hrun, -⟩ := malloc_step hI hbase hserved
    exact ⟨N, s', hrun⟩

/-- A program with the static header at `0x1000`, to which `sbrk` gives regions of `n` bytes one after the other. -/
def fresh (n : Nat) : Sys := ⟨⟨fun _ => 0, fun _ => 0, 0⟩, ⟨fun i => some (0x10000 + i * n), []⟩, []⟩

/-- The first `malloc(100)` of a program, and the `free` of its result. -/
theorem malloc_free_consistent_first : ∃ s s', Reach 0x1000 s ∧ s.live = [(0x1ff90, 100)] ∧
    s.env.regions = [(0x10000, 65536)] ∧ (∃ N, ∀ fuel, N ≤ fuel → s.free fuel (0x1ff90, 100) = some s') := by
  have hstart : Reach 0x1000 (fresh 65536) := .start rfl
  have hserved : Served 0x1000 (fresh 65536) 100 := by
    refine .inr ⟨by decide, fun a ha => ?_⟩
    obtain rfl := Option.some.inj ha
    exact ⟨⟨by decide, List.pairwise_singleton ..⟩, by decide⟩
  obtain ⟨N, s, hrun⟩ := (malloc_free_consistent 0x1000 (by decide) _ hstart).2.2.2.2.2 100 hserved
  have hr : Reach 0x1000 s := hstart.malloc hserved hrun
  have hs : ((fresh 65536).malloc 0x1000 (N + 10) 100).map (fun s => (s.live, s.env.regions)) =
      some ([(0x1ff90, 100)], [(0x10000, 65536)]) := rfl
  rw [hrun (N + 10) (Nat.le_add_right N 10), Option.map_some, Option.some.injEq, Prod.mk.injEq] at hs
  obtain ⟨N', s', hfree⟩ := (malloc_free_consistent 0x1000 (by decide) s hr).2.2.2.2.1 (0x1ff90, 100) (by rw [hs.1]; simp)
  exact ⟨s, s', hr, hs.1, hs.2, N', hfree⟩

def Sys.freeLast (s : Sys) (fuel : Nat) : Option Sys := s.live.head?.bind (s.free fuel)

/-- 33 calls of `malloc`, each for the most that one `sbrk` below `2 ^ 31` bytes gives, and `free` of all of it: the sizes have
been added up as `uint`, and the one free block has `2 ^ 32` units less than have been obtained. -/
theorem malloc_free_wraps :
    ((List.range 33).foldlM (fun s _ => s.malloc 0x1000 200 (2 ^ 31 - 32)) (fresh (2 ^ 31 - 16)) >>=
        (List.range 33).foldlM fun s _ => s.freeLast 200).map
      (fun s => (s.live, s.heap.ptr 0x1000, s.heap.ptr 0x10000, s.heap.size 0x10000, s.env.regions)) =
    some ([], 0x10000, 0x1000, 33 * (2 ^ 27 - 1) - 2 ^ 32,
      ((List.range 33).map fun i => (0x10000 + i * (2 ^ 31 - 16), 2 ^ 31 - 16)).reverse) := by
  decide +kernel

end Xv6.Malloc
