import Mathlib.Algebra.BigOperators.Ring.Finset
import Xv6.Log.Steps

/-!
# Log space

`begin_op` reserves `MAXOPBLOCKS` blocks of a log of `LOGSIZE` for every operation, but one block of the log area is the header, and
`log_write` panics when only the last block is left.
-/

namespace Xv6.Log

open Function (update)
open Run
open Bytes (Mem)

variable {n : Nat} {s s' : State n} {start : Nat} {p q : Fin n} {e : Event n}

/-- How many blocks the operation may add to the log, if it logs one block less than it may. -/
def Pc.room : Pc → Nat
  | .inOp _ _ fresh => MAXOPBLOCKS - 1 - fresh
  | _ => 0

theorem Pc.room_idle : Pc.idle.room = 0 := rfl

theorem Pc.room_inOp {op fresh : Nat} {bs : List Nat} : (Pc.inOp op bs fresh).room = MAXOPBLOCKS - 1 - fresh := rfl

theorem Pc.room_commit {ws : Writes} : (Pc.commit ws).room = 0 := rfl

theorem Pc.room_le (x : Pc) : x.room ≤ (MAXOPBLOCKS - 1) * x.ops := by
  cases x with
  | idle => exact Nat.zero_le _
  | inOp op bs fresh => exact Nat.sub_le ..
  | commit ws => exact Nat.zero_le _

/-- The operation logs at most `m` distinct blocks. -/
def AtMost (m : Nat) (s : State n) : Event n → Prop
  | .logWrite p b _ =>
    match s.pc p with
    | .inOp _ bs _ => (b :: bs).dedup.length ≤ m
    | _ => True
  | _ => True

structure ReserveInv (s : State n) : Prop where
  ops : OpsInv s
  own : ∀ {p op bs fresh}, s.pc p = .inOp op bs fresh → (∀ b ∈ bs, b ∈ s.block) ∧ fresh ≤ bs.dedup.length
  space : s.block.length + ∑ p, (s.pc p).room ≤ LOGSIZE - 2

theorem sum_room_le (s : State n) : ∑ p, (s.pc p).room ≤ (MAXOPBLOCKS - 1) * ∑ p, (s.pc p).ops := by
  rw [Finset.mul_sum]
  exact Finset.sum_le_sum fun p _ => (s.pc p).room_le

theorem ReserveInv.lt (hI : ReserveInv s) : ¬(s.block.length ≥ LOGSIZE ∨ s.block.length ≥ LOGSIZE - 1) := by
  have := hI.space
  have : LOGSIZE = 30 := rfl
  omega

theorem room_update {x y : Pc} (hp : s.pc p = y) :
    ∑ q, (update s.pc p x q).room + y.room = ∑ q, (s.pc q).room + x.room :=
  hp ▸ Count.sum_update Pc.room s.pc p x

theorem ReserveInv.next (hI : ReserveInv s) (hC : AtMost (MAXOPBLOCKS - 1) s e) (hd : Does start s e s') : ReserveInv s' := by
  have hspace := hI.space
  refine ⟨hI.ops.next hd, ?_, ?_⟩
  · cases hd with
    | beginOp hp =>
      intro q op bs fresh hq
      rcases inOp_update hq with ⟨-, h⟩ | ⟨-, h⟩
      · cases h
        exact ⟨fun b hb => (List.not_mem_nil hb).elim, Nat.zero_le _⟩
      · exact hI.own h
    | @logWrite p b v op bs fresh hp =>
      obtain ⟨hsub, hfresh⟩ := hI.own hp
      intro q op' bs' fresh' hq
      rcases inOp_update hq with ⟨-, h⟩ | ⟨-, h⟩
      · cases h
        refine ⟨fun y hy => ?_, ?_⟩
        · rcases List.mem_cons.mp hy with rfl | hy
          · exact mem_absorb_self
          · exact mem_absorb (hsub y hy)
        · split
          · exact hfresh.trans (dedup_length_cons b bs)
          · next hb =>
            rw [List.dedup_cons_of_notMem fun h => hb (hsub b h), List.length_cons]
            omega
      · exact ⟨fun y hy => mem_absorb ((hI.own h).1 y hy), (hI.own h).2⟩
    | last hp =>
      intro q op bs fresh hq
      rcases inOp_update hq with ⟨-, h⟩ | ⟨-, h⟩
      · cases h
      · exact hI.own h
    | more hp =>
      intro q op bs fresh hq
      rcases inOp_update hq with ⟨-, h⟩ | ⟨-, h⟩
      · cases h
      · exact hI.own h
    | write hp =>
      intro q op bs fresh hq
      rcases inOp_update hq with ⟨-, h⟩ | ⟨-, h⟩
      · cases h
      · exact hI.own h
    | done hp =>
      intro q op bs fresh hq
      rcases inOp_update hq with ⟨-, h⟩ | ⟨-, h⟩
      · cases h
      · have := hI.ops.outstanding_pos h
        have := hI.ops.quiet (hI.ops.commit hp)
        omega
  · cases hd with
    | @beginOp p hp hcom hle =>
      -- the reservation leaves out the header
      have hroom := room_update (x := .inOp s.nextOp [] 0) hp
      rw [Pc.room_idle, Pc.room_inOp] at hroom
      have hsum := sum_room_le s
      rw [← hI.ops.count] at hsum
      change s.block.length + ∑ q, (update s.pc p _ q).room ≤ _
      by_cases ho : s.outstanding = 0
      · have := hI.ops.empty hcom ho
        rw [this] at hle ⊢
        rw [List.length_nil] at hle ⊢
        lia
      · lia
    | @logWrite p b v op bs fresh hp =>
      obtain ⟨hsub, hfresh⟩ := hI.own hp
      simp only [AtMost, hp] at hC
      have hroom := room_update (x := .inOp op (b :: bs) (if b ∈ s.block then fresh else fresh + 1)) hp
      rw [Pc.room_inOp, Pc.room_inOp] at hroom
      change (absorb b s.block).length + ∑ q, (update s.pc p _ q).room ≤ _
      unfold absorb
      by_cases hb : b ∈ s.block
      · simp only [if_pos hb] at hroom ⊢
        lia
      · rw [List.dedup_cons_of_notMem fun h => hb (hsub b h), List.length_cons] at hC
        simp only [if_neg hb, List.length_append, List.length_singleton] at hroom ⊢
        lia
    | @last p op bs fresh hp =>
      have hroom := room_update (x := .commit (Log.commit s.disk s.cache start s.block)) hp
      rw [Pc.room_commit] at hroom
      change s.block.length + ∑ q, (update s.pc p _ q).room ≤ _
      omega
    | @more p op bs fresh hp =>
      have hroom := room_update (x := .idle) hp
      rw [Pc.room_idle] at hroom
      change s.block.length + ∑ q, (update s.pc p _ q).room ≤ _
      omega
    | @write p w ws hp =>
      have hroom := room_update (x := .commit ws) hp
      rw [Pc.room_commit, Pc.room_commit] at hroom
      change s.block.length + ∑ q, (update s.pc p _ q).room ≤ _
      omega
    | @done p hp =>
      have hroom := room_update (x := .idle) hp
      rw [Pc.room_idle, Pc.room_commit] at hroom
      change 0 + ∑ q, (update s.pc p _ q).room ≤ _
      omega

theorem reserveInv_start {s₀ : State n} (h : Start start s₀) : ReserveInv s₀ := by
  have hroom : ∑ p, (s₀.pc p).room = 0 := Finset.sum_eq_zero fun p _ => by rw [h.pc p, Pc.room_idle]
  refine ⟨opsInv_start h, fun hp => ?_, ?_⟩
  · rw [h.pc] at hp
    cases hp
  · rw [hroom, h.block]
    exact Nat.zero_le _

/-- If every operation logs at most `MAXOPBLOCKS - 1` distinct blocks, the log never gets too big. -/
theorem log_space_suffices {es : List (Event n)} {s₀ : State n} (hs : Start start s₀)
    (hC : Along (next start) (AtMost (MAXOPBLOCKS - 1)) s₀ es) (h : run (next start) s₀ es = .ok s) (p : Fin n) (b : Nat) (v : Mem) :
    next start s (.logWrite p b v) ≠ .error (.panic "too big a transaction") := by
  have hI : ReserveInv s := run_induct (fun _ _ _ hC hn hI => hI.next hC (does_of_next hn)) hC h (reserveInv_start hs)
  intro hpanic
  simp only [Log.next, State.logWrite, if_neg hI.lt] at hpanic
  split at hpanic
  · split at hpanic
    · cases hpanic
    · split at hpanic
      · exact absurd (Stop.panic.inj (Except.error.inj hpanic)) (by decide)
      · cases hpanic
  · cases hpanic

instance (m : Nat) (s : State n) : (e : Event n) → Decidable (AtMost m s e)
  | .beginOp _ => isTrue trivial
  | .endOp _ => isTrue trivial
  | .commitStep _ => isTrue trivial
  | .logWrite p b v =>
    match h : s.pc p with
    | .inOp _ bs _ => decidable_of_iff ((b :: bs).dedup.length ≤ m) (by simp only [AtMost, h])
    | .idle => isTrue (by simp only [AtMost, h])
    | .commit _ => isTrue (by simp only [AtMost, h])

def Panicked (m : String) : Except Stop (State n) → Bool
  | .error (.panic m') => m == m'
  | _ => false

def emptyDisk : State 3 where
  disk := fun _ _ => 0
  cache := fun _ _ => 0
  block := []
  outstanding := 0
  committing := false
  pc := fun _ => .idle
  nextOp := 0
  past := []
  cur := []

theorem start_emptyDisk : Start 2 emptyDisk := ⟨by decide, rfl, rfl, rfl, rfl, fun _ => rfl, rfl, rfl⟩

def logs (p : Fin 3) (k : Nat) : List (Event 3) := (List.range k).map fun j => .logWrite p (100 + 10 * p + j) fun _ => 1

def threeOps : List (Event 3) := [.beginOp 0, .beginOp 1, .beginOp 2] ++ logs 0 10 ++ logs 1 10 ++ logs 2 9

theorem threeOps_too_big : Start 2 emptyDisk ∧ Along (next 2) (AtMost MAXOPBLOCKS) emptyDisk threeOps ∧
    Ends (fun s => AtMost MAXOPBLOCKS s (.logWrite 2 129 fun _ => 1) ∧
      Panicked "too big a transaction" (next 2 s (.logWrite 2 129 fun _ => 1)) = true) (run (next 2) emptyDisk threeOps) :=
  ⟨start_emptyDisk, by decide +kernel, by decide +kernel⟩

/-- Three operations of nine blocks each fit. -/
theorem log_space_suffices_nine : ∃ s, run (next 2) emptyDisk ([.beginOp 0, .beginOp 1, .beginOp 2] ++ logs 0 9 ++ logs 1 9 ++ logs 2 8) =
    .ok s ∧ next 2 s (.logWrite 2 128 fun _ => 1) ≠ .error (.panic "too big a transaction") := by
  have hrun : Ends (fun _ => True) (run (next 2) emptyDisk ([.beginOp 0, .beginOp 1, .beginOp 2] ++ logs 0 9 ++ logs 1 9 ++ logs 2 8)) := by
    decide +kernel
  obtain ⟨s, hs, -⟩ := hrun.exists
  exact ⟨s, hs, log_space_suffices start_emptyDisk (by decide +kernel) hs 2 128 _⟩

end Xv6.Log
