import Xv6.Log.Ops

/-!
# Steps of operations on the log

What an event does when it can happen, and who is in an operation or in a commit.
-/

namespace Xv6.Log

open Function (update)
open Run
open Bytes (Mem)

variable {n : Nat} {s s' s0 : State n} {start b y op fresh : Nat} {p q q' : Fin n} {e : Event n} {l bs : List Nat}
  {ws ws' : Writes} {x : Pc}

inductive Does (start : Nat) (s : State n) : Event n → State n → Prop
  | beginOp {p : Fin n} (hp : s.pc p = .idle) (hcom : s.committing = false)
      (hle : s.block.length + (s.outstanding + 1) * MAXOPBLOCKS ≤ LOGSIZE) :
      Does start s (.beginOp p) { s with outstanding := s.outstanding + 1, pc := update s.pc p (.inOp s.nextOp [] 0),
                                         nextOp := s.nextOp + 1 }
  | logWrite {p : Fin n} {b : Nat} {v : Mem} {op : Nat} {bs : List Nat} {fresh : Nat} (hp : s.pc p = .inOp op bs fresh)
      (hout : Outside start LOGSIZE b) (hlt : b < 2 ^ 32) (hlen : s.block.length + 1 < LOGSIZE) :
      Does start s (.logWrite p b v) { s with
        cache := update s.cache b v, block := absorb b s.block,
        pc := update s.pc p (.inOp op (b :: bs) (if b ∈ s.block then fresh else fresh + 1)), cur := s.cur ++ [⟨op, b, v⟩] }
  | last {p : Fin n} {op : Nat} {bs : List Nat} {fresh : Nat} (hp : s.pc p = .inOp op bs fresh) (hcom : s.committing = false)
      (hout : s.outstanding - 1 = 0) :
      Does start s (.endOp p) { s with outstanding := 0, committing := true,
                                       pc := update s.pc p (.commit (commit s.disk s.cache start s.block)) }
  | more {p : Fin n} {op : Nat} {bs : List Nat} {fresh : Nat} (hp : s.pc p = .inOp op bs fresh) (hcom : s.committing = false)
      (hout : s.outstanding - 1 ≠ 0) :
      Does start s (.endOp p) { s with outstanding := s.outstanding - 1, pc := update s.pc p .idle }
  | write {p : Fin n} {w : Nat × Mem} {ws : Writes} (hp : s.pc p = .commit (w :: ws)) :
      Does start s (.commitStep p) { s with disk := update s.disk w.1 w.2, pc := update s.pc p (.commit ws) }
  | done {p : Fin n} (hp : s.pc p = .commit []) :
      Does start s (.commitStep p) { s with block := [], committing := false, pc := update s.pc p .idle,
                                            past := s.past ++ [s.cur], cur := [] }

theorem does_of_next (h : next start s e = .ok s') : Does start s e s' := by
  cases e with
  | beginOp p =>
    simp only [next, State.beginOp] at h
    split at h
    · next hp =>
      split at h
      · cases h
      · next hc =>
        split at h
        · cases h
        · next hle =>
          cases h
          exact .beginOp hp (by simpa using hc) (Nat.not_lt.mp hle)
    · cases h
  | logWrite p b v =>
    simp only [next, State.logWrite] at h
    split at h
    · next op bs fresh hp =>
      split at h
      · cases h
      · next hb =>
        split at h
        · cases h
        · next hlen =>
          split at h
          · cases h
          · cases h
            obtain ⟨hout, hlt⟩ := not_not.mp hb
            exact .logWrite hp hout hlt (by have : LOGSIZE = 30 := rfl; omega)
    · cases h
  | endOp p =>
    simp only [next, State.endOp] at h
    split at h
    · next op bs fresh hp =>
      split at h
      · cases h
      · next hc =>
        have hc : s.committing = false := by simpa using hc
        split at h
        · next ho =>
          cases h
          exact .last hp hc ho
        · next ho =>
          cases h
          exact .more hp hc ho
    · cases h
  | commitStep p =>
    simp only [next, State.commitStep] at h
    split at h
    · next hp =>
      cases h
      exact .write hp
    · next hp =>
      cases h
      exact .done hp
    · cases h

theorem mem_absorb (h : y ∈ l) : y ∈ absorb b l := by
  unfold absorb
  split
  · exact h
  · exact List.mem_append_left _ h

theorem mem_absorb_self : b ∈ absorb b l := by
  unfold absorb
  split
  · next h => exact h
  · exact List.mem_append_right _ (List.mem_singleton.mpr rfl)

theorem mem_absorb_iff : y ∈ absorb b l ↔ y ∈ l ∨ y = b := by
  constructor
  · intro h
    unfold absorb at h
    split at h
    · exact .inl h
    · exact (List.mem_append.mp h).imp_right List.mem_singleton.mp
  · rintro (h | rfl)
    · exact mem_absorb h
    · exact mem_absorb_self

theorem absorb_length_le (b : Nat) (l : List Nat) : (absorb b l).length ≤ l.length + 1 := by
  unfold absorb
  split
  · omega
  · rw [List.length_append, List.length_singleton]

theorem dedup_length_cons (b : Nat) (bs : List Nat) : bs.dedup.length ≤ (b :: bs).dedup.length := by
  by_cases h : b ∈ bs
  · rw [List.dedup_cons_of_mem h]
  · rw [List.dedup_cons_of_notMem h, List.length_cons]
    omega

def Pc.ops : Pc → Nat
  | .inOp _ _ _ => 1
  | _ => 0

theorem Pc.ops_idle : Pc.idle.ops = 0 := rfl

theorem Pc.ops_inOp : (Pc.inOp op bs fresh).ops = 1 := rfl

theorem Pc.ops_commit : (Pc.commit ws).ops = 0 := rfl

theorem inOp_update (h : update s.pc p x q = .inOp op bs fresh) :
    q = p ∧ x = .inOp op bs fresh ∨ q ≠ p ∧ s.pc q = .inOp op bs fresh := by
  by_cases hq : q = p
  · subst hq
    rw [Function.update_self] at h
    exact .inl ⟨rfl, h⟩
  · rw [Function.update_of_ne hq] at h
    exact .inr ⟨hq, h⟩

theorem commit_update (h : update s.pc p x q = .commit ws) :
    q = p ∧ x = .commit ws ∨ q ≠ p ∧ s.pc q = .commit ws := by
  by_cases hq : q = p
  · subst hq
    rw [Function.update_self] at h
    exact .inl ⟨rfl, h⟩
  · rw [Function.update_of_ne hq] at h
    exact .inr ⟨hq, h⟩

structure OpsInv (s : State n) : Prop where
  count : s.outstanding = ∑ p, (s.pc p).ops
  commit : ∀ {p ws}, s.pc p = .commit ws → s.committing = true
  one : ∀ {p q ws ws'}, s.pc p = .commit ws → s.pc q = .commit ws' → p = q
  quiet : s.committing = true → s.outstanding = 0
  empty : s.committing = false → s.outstanding = 0 → s.block = []

theorem OpsInv.outstanding_pos (hI : OpsInv s) (hp : s.pc p = .inOp op bs fresh) :
    0 < s.outstanding := by
  have := Count.le_sum (fun p => (s.pc p).ops) p
  rw [hp, Pc.ops_inOp] at this
  rw [hI.count]
  omega

theorem OpsInv.not_committing (hI : OpsInv s) (hp : s.pc p = .inOp op bs fresh) :
    s.committing = false := by
  have hpos := hI.outstanding_pos hp
  cases hc : s.committing with
  | false => rfl
  | true =>
    have := hI.quiet hc
    omega

theorem ops_update {y : Pc} (hp : s.pc p = y) :
    ∑ q, (update s.pc p x q).ops + y.ops = ∑ q, (s.pc q).ops + x.ops :=
  hp ▸ Count.sum_update Pc.ops s.pc p x

theorem OpsInv.one_update (hI : OpsInv s) (hx : ∀ ws, x = .commit ws → ∀ q ws, q ≠ p → s.pc q ≠ .commit ws) (h : update s.pc p x q = .commit ws) (h' : update s.pc p x q' = .commit ws') :
    q = q' := by
  rcases commit_update h with ⟨rfl, hc⟩ | ⟨hq, hc⟩ <;> rcases commit_update h' with ⟨rfl, hc'⟩ | ⟨hq', hc'⟩
  · rfl
  · exact absurd hc' (hx ws hc q' ws' hq')
  · exact absurd hc (hx ws' hc' q ws hq)
  · exact hI.one hc hc'

theorem OpsInv.next (hI : OpsInv s) (hd : Does start s e s') : OpsInv s' := by
  have hcount := hI.count
  cases hd with
  | @beginOp p hp hcom hle =>
    have hops := ops_update (x := .inOp s.nextOp [] 0) hp
    rw [Pc.ops_idle, Pc.ops_inOp] at hops
    refine ⟨?_, fun hq => ?_, hI.one_update (x := .inOp s.nextOp [] 0) (fun _ h => nomatch h), fun hc => ?_, fun _ ho => (nomatch ho)⟩
    · change s.outstanding + 1 = ∑ q, (update s.pc p _ q).ops
      omega
    · rcases commit_update hq with ⟨-, h⟩ | ⟨-, h⟩
      · cases h
      · exact hI.commit h
    · exact absurd (hcom.symm.trans hc) (by decide)
  | @logWrite p b v op bs fresh hp =>
    have hops := ops_update (x := .inOp op (b :: bs) (if b ∈ s.block then fresh else fresh + 1)) hp
    rw [Pc.ops_inOp, Pc.ops_inOp] at hops
    refine ⟨?_, fun hq => ?_, hI.one_update (x := .inOp op (b :: bs) _) (fun _ h => nomatch h), hI.quiet, fun _ ho => ?_⟩
    · change s.outstanding = ∑ q, (update s.pc p _ q).ops
      omega
    · rcases commit_update hq with ⟨-, h⟩ | ⟨-, h⟩
      · cases h
      · exact hI.commit h
    · have := hI.outstanding_pos hp
      change s.outstanding = 0 at ho
      omega
  | @last p op bs fresh hp hcom hout =>
    have hops := ops_update (x := .commit (Log.commit s.disk s.cache start s.block)) hp
    rw [Pc.ops_inOp, Pc.ops_commit] at hops
    refine ⟨?_, fun _ => rfl, hI.one_update (fun _ _ q ws _ hq => ?_), fun _ => rfl, fun hc => (nomatch hc)⟩
    · change 0 = ∑ q, (update s.pc p _ q).ops
      omega
    · exact absurd (hcom.symm.trans (hI.commit hq)) (by decide)
  | @more p op bs fresh hp hcom hout =>
    have hops := ops_update (x := .idle) hp
    rw [Pc.ops_inOp, Pc.ops_idle] at hops
    refine ⟨?_, fun hq => ?_, hI.one_update (x := .idle) (fun _ h => nomatch h), fun hc => ?_, fun _ ho => absurd ho hout⟩
    · change s.outstanding - 1 = ∑ q, (update s.pc p _ q).ops
      omega
    · rcases commit_update hq with ⟨-, h⟩ | ⟨-, h⟩
      · cases h
      · exact hI.commit h
    · exact absurd (hcom.symm.trans hc) (by decide)
  | @write p w ws hp =>
    have hops := ops_update (x := .commit ws) hp
    rw [Pc.ops_commit, Pc.ops_commit] at hops
    refine ⟨?_, fun _ => hI.commit hp, hI.one_update (fun _ _ q ws hqp hq => hqp (hI.one hq hp)), hI.quiet, hI.empty⟩
    change s.outstanding = ∑ q, (update s.pc p _ q).ops
    omega
  | @done p hp =>
    have hops := ops_update (x := .idle) hp
    rw [Pc.ops_commit, Pc.ops_idle] at hops
    refine ⟨?_, fun hq => ?_, hI.one_update (x := .idle) (fun _ h => nomatch h), fun hc => (nomatch hc), fun _ _ => rfl⟩
    · change s.outstanding = ∑ q, (update s.pc p _ q).ops
      omega
    · rcases commit_update hq with ⟨-, h⟩ | ⟨hqp, h⟩
      · cases h
      · exact absurd (hI.one h hp) hqp

theorem opsInv_start (h : Start start s0) : OpsInv s0 := by
  have hops : ∑ p, (s0.pc p).ops = 0 := Finset.sum_eq_zero fun p _ => by rw [h.pc p, Pc.ops_idle]
  refine ⟨by rw [hops, h.outstanding], fun hp => ?_, fun hp => ?_, fun _ => h.outstanding, fun _ _ => h.block⟩
  · rw [h.pc] at hp
    cases hp
  · rw [h.pc] at hp
    cases hp

end Xv6.Log
