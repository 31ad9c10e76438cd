import Xv6.Log.Steps

/-!
# Group commit

Between two commits the log holds the blocks of the operations since the last one, and a commit starts only when none of them is still in
progress.
-/

namespace Xv6.Log

open List (not_mem_nil)
open Function (update update_self)
open Run
open Bytes (Mem)

variable {n : Nat} {s s' : State n} {start : Nat} {p q : Fin n} {e : Event n} {d0 f cache d : Nat → Mem} {l : List Nat} {ws : Writes}

/-- The writes of groups of operations, in the order of `log_write`. -/
def flat (gs : List (List Write)) : Writes := gs.flatten.map fun w => (w.b, w.v)

theorem apply_flat_append (gs : List (List Write)) (g : List Write) (d : Nat → Mem) :
    apply d (flat (gs ++ [g])) = apply (apply d (flat gs)) (g.map fun w => (w.b, w.v)) := by
  unfold flat
  rw [List.flatten_append, List.map_append, apply_append, List.flatten_singleton]

def State.Active (s : State n) (op : Nat) : Prop := ∃ p bs fresh, s.pc p = .inOp op bs fresh

def Apart (g g' : List Write) : Prop := ∀ w ∈ g, ∀ w' ∈ g', w.op ≠ w'.op

/-- The commit started from a quiet disk, and has the writes `ws` left. -/
def Committing (start : Nat) (f cache : Nat → Mem) (l : List Nat) (ws : Writes) (d : Nat → Mem) : Prop :=
  ∃ d1 k, Quiet start LOGSIZE f d1 ∧ d = apply d1 ((commit d1 cache start l).take k) ∧ ws = (commit d1 cache start l).drop k

theorem Committing.write {w : Nat × Mem} (h : Committing start f cache l (w :: ws) d) :
    Committing start f cache l ws (update d w.1 w.2) := by
  obtain ⟨d1, k, hQ, rfl, hws⟩ := h
  refine ⟨d1, k + 1, hQ, ?_, ?_⟩
  · have hk : (commit d1 cache start l)[k]? = some w := by
      rw [← List.head?_drop, ← hws]
      rfl
    rw [List.take_add_one, hk, apply_append]
    rfl
  · rw [← List.tail_drop, ← hws]
    rfl

theorem commit_nil : Log.commit d cache start [] = [] := if_neg (Nat.lt_irrefl 0)

theorem Quiet.congr {f' : Nat → Mem} {size : Nat} (h : Quiet start size f d) (hf : ∀ b, Outside start size b → f b = f' b) :
    Quiet start size f' d := ⟨h.head, fun b hb => (h.same b hb).trans (hf b hb)⟩

section

variable (hout : ∀ b ∈ l, Outside start LOGSIZE b ∧ b < 2 ^ 32) (hlen : l.length + 1 ≤ LOGSIZE)
include hout hlen

theorem Committing.done (h : Committing start f cache l [] d) : Quiet start LOGSIZE (installed f cache l) d := by
  obtain ⟨d1, k, hQ, rfl, hws⟩ := h
  have hinst : ∀ b, Outside start LOGSIZE b → installed d1 cache l b = installed f cache l b := by
    intro b hb
    unfold installed
    rw [hQ.same b hb]
  by_cases hl : l = []
  · subst hl
    rw [commit_nil, List.take_nil]
    exact hQ.congr fun b _ => rfl
  · have hk := List.drop_eq_nil_iff.mp hws.symm
    rw [commit_length hl] at hk
    have hst := commit_states cache k (fun b hb => (hout b hb).2) (fun b hb => (hout b hb).1) hlen (by decide) hQ.head hl
    exact (hst.2.2 hk).congr hinst

theorem Committing.recovered (h : Committing start f cache l ws d) (ks : List Nat) :
    Quiet start LOGSIZE f (apply (crashes d start ks) (recoverFromLog (crashes d start ks) start)) ∨
      Quiet start LOGSIZE (installed f cache l) (apply (crashes d start ks) (recoverFromLog (crashes d start ks) start)) := by
  obtain ⟨d1, k, hQ, rfl, -⟩ := h
  have hpos : 0 < LOGSIZE := by decide
  have hinst : ∀ b, Outside start LOGSIZE b → installed d1 cache l b = installed f cache l b := by
    intro b hb
    unfold installed
    rw [hQ.same b hb]
  by_cases hl : l = []
  · subst hl
    rw [commit_nil, List.take_nil]
    exact .inl (hQ.crashes ks hpos)
  · obtain ⟨h1, h2, h3⟩ := commit_states cache k (fun b hb => (hout b hb).2) (fun b hb => (hout b hb).1) hlen (by decide) hQ.head hl
    by_cases hk : k ≤ l.length
    · exact .inl (((h1 hk).crashes ks hpos).congr hQ.same)
    · right
      by_cases hk' : k < 2 * l.length + 2
      · exact ((h2 (by omega) hk').crashes (fun b hb => (hout b hb).1) hlen).congr hinst
      · exact ((h3 (by omega)).crashes ks hpos).congr hinst

end

structure GroupInv (start : Nat) (d0 : Nat → Mem) (s : State n) : Prop where
  ops : OpsInv s
  commit : ∀ {p ws}, s.pc p = .commit ws → Committing start (apply d0 (flat s.past)) s.cache s.block ws s.disk
  someone : s.committing = true → ∃ p ws, s.pc p = .commit ws
  active : ∀ {p op bs fresh}, s.pc p = .inOp op bs fresh → op < s.nextOp
  blocks : ∀ b, b ∈ s.block ↔ ∃ w ∈ s.cur, w.b = b
  outside : ∀ b ∈ s.block, Outside start LOGSIZE b ∧ b < 2 ^ 32
  length : s.block.length + 1 ≤ LOGSIZE
  cache : ∀ b, Outside start LOGSIZE b → s.cache b = apply d0 (flat (s.past ++ [s.cur])) b
  quiet : s.committing = false → Quiet start LOGSIZE (apply d0 (flat s.past)) s.disk
  old : ∀ w ∈ s.past.flatten, w.op < s.nextOp ∧ ¬s.Active w.op
  recent : ∀ w ∈ s.cur, w.op < s.nextOp
  apart : (s.past ++ [s.cur]).Pairwise Apart

section

variable (hI : GroupInv start d0 s)
include hI

theorem GroupInv.installed_eq {b : Nat} (hb : Outside start LOGSIZE b) :
    installed (apply d0 (flat s.past)) s.cache s.block b = apply d0 (flat (s.past ++ [s.cur])) b := by
  unfold installed
  split
  · exact hI.cache b hb
  · next hnot =>
    rw [apply_flat_append]
    refine (apply_other fun w hw heq => ?_).symm
    obtain ⟨w', hw', rfl⟩ := List.mem_map.mp hw
    exact hnot ((hI.blocks b).mpr ⟨w', hw', heq⟩)

/-- The process `p` goes to `x`, which is in no operation that was not in progress. -/
theorem GroupInv.goes (p : Fin n) (x : Pc) (hx : ∀ {op bs fresh}, x = .inOp op bs fresh → s.Active op) :
    (∀ {q op bs fresh}, update s.pc p x q = .inOp op bs fresh → op < s.nextOp) ∧
      ∀ w ∈ s.past.flatten, w.op < s.nextOp ∧ ¬∃ q bs fresh, update s.pc p x q = .inOp w.op bs fresh := by
  have hin : ∀ {q op bs fresh}, update s.pc p x q = .inOp op bs fresh → s.Active op := by
    intro q op bs fresh hq
    rcases inOp_update hq with ⟨-, h⟩ | ⟨-, h⟩
    · exact hx h
    · exact ⟨q, bs, fresh, h⟩
  refine ⟨fun hq => ?_, fun w hw => ⟨(hI.old w hw).1, fun ⟨q, bs, fresh, hq⟩ => (hI.old w hw).2 (hin hq)⟩⟩
  obtain ⟨q, bs, fresh, h⟩ := hin hq
  exact hI.active h

theorem GroupInv.blocks_write (w : Write) (y : Nat) :
    y ∈ absorb w.b s.block ↔ ∃ w' ∈ s.cur ++ [w], w'.b = y := by
  rw [mem_absorb_iff, hI.blocks y]
  constructor
  · rintro (⟨w, hw, h⟩ | rfl)
    · exact ⟨w, List.mem_append_left _ hw, h⟩
    · exact ⟨_, List.mem_append_right _ (List.mem_singleton.mpr rfl), rfl⟩
  · rintro ⟨w, hw, h⟩
    rcases List.mem_append.mp hw with hw | hw
    · exact .inl ⟨w, hw, h⟩
    · rw [List.mem_singleton.mp hw] at h
      exact .inr h.symm

theorem GroupInv.cache_write (w : Write) {y : Nat} (hy : Outside start LOGSIZE y) :
    update s.cache w.b w.v y = apply d0 (flat (s.past ++ [s.cur ++ [w]])) y := by
  have hcache := hI.cache y hy
  rw [apply_flat_append] at hcache ⊢
  rw [List.map_append, apply_append]
  change _ = update (apply (apply d0 (flat s.past)) (s.cur.map fun w => (w.b, w.v))) w.b w.v y
  by_cases hyb : y = w.b
  · subst hyb
    rw [update_self, update_self]
  · rw [Function.update_of_ne hyb, Function.update_of_ne hyb]
    exact hcache

/-- The operation has no writes in earlier groups, because it is still in progress. -/
theorem GroupInv.apart_write {w : Write} (hw : s.Active w.op) :
    (s.past ++ [s.cur ++ [w]]).Pairwise Apart := by
  have hap := List.pairwise_append.mp hI.apart
  refine List.pairwise_append.mpr ⟨hap.1, List.pairwise_singleton _ _, fun g hg g' hg' => ?_⟩
  rw [List.mem_singleton.mp hg']
  intro v hv v' hv'
  rcases List.mem_append.mp hv' with hv' | hv'
  · exact hap.2.2 g hg s.cur (List.mem_singleton.mpr rfl) v hv v' hv'
  · rw [List.mem_singleton.mp hv']
    intro heq
    exact (hI.old v (List.mem_flatten.mpr ⟨g, hg, hv⟩)).2 (heq ▸ hw)

theorem GroupInv.next (hd : Does start s e s') : GroupInv start d0 s' := by
  have hops := hI.ops.next hd
  cases hd with
  | @beginOp p hp hcom hle =>
    refine ⟨hops, fun hq => ?_, fun hc => absurd (hcom.symm.trans hc) (by decide), fun hq => ?_, hI.blocks, hI.outside, hI.length,
      hI.cache, hI.quiet, fun w hw => ?_, fun w hw => Nat.lt_succ_of_lt (hI.recent w hw), hI.apart⟩
    · rcases commit_update hq with ⟨-, h⟩ | ⟨-, h⟩
      · cases h
      · exact hI.commit h
    · rcases inOp_update hq with ⟨-, h⟩ | ⟨-, h⟩
      · cases h
        exact Nat.lt_succ_self _
      · exact Nat.lt_succ_of_lt (hI.active h)
    · obtain ⟨hlt, hnot⟩ := hI.old w hw
      refine ⟨Nat.lt_succ_of_lt hlt, ?_⟩
      rintro ⟨q, bs, fresh, hq⟩
      rcases inOp_update hq with ⟨-, h⟩ | ⟨-, h⟩
      · injection h with h
        omega
      · exact hnot ⟨q, bs, fresh, h⟩
  | @logWrite p b v op bs fresh hp hout hlt hlen =>
    have hnc := hI.ops.not_committing hp
    have hact : s.Active op := ⟨p, bs, fresh, hp⟩
    have hgoes := hI.goes p (.inOp op (b :: bs) (if b ∈ s.block then fresh else fresh + 1)) fun h => (Pc.inOp.inj h).1 ▸ hact
    refine ⟨hops, fun hq => ?_, fun hc => absurd (hnc.symm.trans hc) (by decide), hgoes.1, hI.blocks_write ⟨op, b, v⟩, fun y hy => ?_, ?_,
      fun y => hI.cache_write ⟨op, b, v⟩, hI.quiet, hgoes.2, fun w hw => ?_, hI.apart_write hact⟩
    · rcases commit_update hq with ⟨-, h⟩ | ⟨-, h⟩
      · cases h
      · exact absurd (hnc.symm.trans (hI.ops.commit h)) (by decide)
    · rcases mem_absorb_iff.mp hy with hy | rfl
      · exact hI.outside y hy
      · exact ⟨hout, hlt⟩
    · have := absorb_length_le b s.block
      change (absorb b s.block).length + 1 ≤ LOGSIZE
      omega
    · rcases List.mem_append.mp hw with hw | hw
      · exact hI.recent w hw
      · rw [List.mem_singleton.mp hw]
        exact hI.active hp
  | @last p op bs fresh hp hcom hout =>
    have hgoes := hI.goes p (.commit (Log.commit s.disk s.cache start s.block)) (by simp)
    refine ⟨hops, fun hq => ?_, fun _ => ⟨p, _, update_self ..⟩, hgoes.1, hI.blocks, hI.outside, hI.length, hI.cache,
      fun hc => (nomatch hc), hgoes.2, hI.recent, hI.apart⟩
    rcases commit_update hq with ⟨-, h⟩ | ⟨-, h⟩
    · cases h
      exact ⟨s.disk, 0, hI.quiet hcom, rfl, rfl⟩
    · exact absurd (hcom.symm.trans (hI.ops.commit h)) (by decide)
  | @more p op bs fresh hp hcom hout =>
    have hgoes := hI.goes p .idle (by simp)
    refine ⟨hops, fun hq => ?_, fun hc => absurd (hcom.symm.trans hc) (by decide), hgoes.1, hI.blocks, hI.outside, hI.length, hI.cache,
      hI.quiet, hgoes.2, hI.recent, hI.apart⟩
    rcases commit_update hq with ⟨-, h⟩ | ⟨-, h⟩
    · cases h
    · exact hI.commit h
  | @write p w ws hp =>
    have hgoes := hI.goes p (.commit ws) (by simp)
    refine ⟨hops, fun hq => ?_, fun _ => ⟨p, ws, update_self ..⟩, hgoes.1, hI.blocks, hI.outside, hI.length, hI.cache,
      fun hc => absurd ((hI.ops.commit hp).symm.trans hc) (by decide), hgoes.2, hI.recent, hI.apart⟩
    rcases commit_update hq with ⟨-, h⟩ | ⟨hqp, h⟩
    · cases h
      exact (hI.commit hp).write
    · exact absurd (hI.ops.one h hp) hqp
  | @done p hp =>
    have hnone : ∀ {q op bs fresh}, s.pc q ≠ .inOp op bs fresh := by
      intro q op bs fresh hq
      have := hI.ops.outstanding_pos hq
      have := hI.ops.quiet (hI.ops.commit hp)
      omega
    have hinactive : ∀ op, ¬∃ q bs fresh, update s.pc p .idle q = .inOp op bs fresh := by
      rintro op ⟨q, bs, fresh, hq⟩
      rcases inOp_update hq with ⟨-, h⟩ | ⟨-, h⟩
      · cases h
      · exact hnone h
    have hflat : ∀ b, apply d0 (flat ((s.past ++ [s.cur]) ++ [[]])) b = apply d0 (flat (s.past ++ [s.cur])) b := by
      intro b
      rw [apply_flat_append]
      rfl
    refine ⟨hops, fun hq => ?_, fun hc => (nomatch hc), fun {q _ _ _} hq => absurd ⟨q, _, _, hq⟩ (hinactive _), fun b => ?_,
      fun b hb => (not_mem_nil hb).elim, Nat.succ_le_succ (Nat.zero_le _), fun b hb => ?_, fun _ => ?_, fun w hw => ⟨?_, hinactive _⟩,
      fun w hw => (not_mem_nil hw).elim, ?_⟩
    · rcases commit_update hq with ⟨-, h⟩ | ⟨hqp, h⟩
      · cases h
      · exact absurd (hI.ops.one h hp) hqp
    · exact ⟨fun h => (not_mem_nil h).elim, fun ⟨_, h, _⟩ => (not_mem_nil h).elim⟩
    · exact (hI.cache b hb).trans (hflat b).symm
    · exact ((hI.commit hp).done hI.outside hI.length).congr fun b hb => hI.installed_eq hb
    · change w ∈ (s.past ++ [s.cur]).flatten at hw
      rw [List.flatten_append, List.flatten_singleton] at hw
      rcases List.mem_append.mp hw with hw | hw
      · exact (hI.old w hw).1
      · exact hI.recent w hw
    · refine List.pairwise_append.mpr ⟨hI.apart, List.pairwise_singleton _ _, fun g _ g' hg' => ?_⟩
      rw [List.mem_singleton.mp hg']
      intro w _ w' hw'
      exact (not_mem_nil hw').elim

end

theorem groupInv_start {s₀ : State n} (h : Start start s₀) : GroupInv start s₀.disk s₀ := by
  have hpast : apply s₀.disk (flat s₀.past) = s₀.disk := by
    rw [h.past]
    rfl
  refine ⟨opsInv_start h, fun hp => ?_, fun hc => ?_, fun hp => ?_, fun b => ?_, fun b hb => ?_, ?_, fun b _ => ?_, fun _ => ?_, fun w hw => ?_,
    fun w hw => ?_, ?_⟩
  · rw [h.pc] at hp
    cases hp
  · rw [h.committing] at hc
    cases hc
  · rw [h.pc] at hp
    cases hp
  · rw [h.block, h.cur]
    exact ⟨fun h => (not_mem_nil h).elim, fun ⟨_, h, _⟩ => (not_mem_nil h).elim⟩
  · rw [h.block] at hb
    exact (not_mem_nil hb).elim
  · rw [h.block]
    decide
  · rw [h.cache, h.past, h.cur]
    rfl
  · rw [hpast]
    exact ⟨h.head, fun _ _ => rfl⟩
  · rw [h.past] at hw
    exact (not_mem_nil hw).elim
  · rw [h.cur] at hw
    exact (not_mem_nil hw).elim
  · rw [h.past, h.cur]
    exact List.pairwise_singleton _ _

/-- The groups whose writes survive are the first `j`: none of their operations is in progress or has writes in a later group. -/
def Survive (s : State n) (j : Nat) : Prop :=
  ∀ w ∈ ((s.past ++ [s.cur]).take j).flatten, ¬s.Active w.op ∧ ∀ w' ∈ ((s.past ++ [s.cur]).drop j).flatten, w'.op ≠ w.op

theorem GroupInv.take_apart (hI : GroupInv start d0 s) {j : Nat} {w w' : Write} (hw : w ∈ ((s.past ++ [s.cur]).take j).flatten)
    (hw' : w' ∈ ((s.past ++ [s.cur]).drop j).flatten) : w'.op ≠ w.op := by
  have hap := hI.apart
  rw [← List.take_append_drop j (s.past ++ [s.cur])] at hap
  obtain ⟨g, hg, hwg⟩ := List.mem_flatten.mp hw
  obtain ⟨g', hg', hwg'⟩ := List.mem_flatten.mp hw'
  exact ((List.pairwise_append.mp hap).2.2 g hg g' hg' w hwg w' hwg').symm

/-- A crash at any point, with any number of crashes in the recovery: the recovered disk has the writes of the first groups of whole
operations in the order of `log_write`. -/
theorem recovered_groups {es : List (Event n)} {s₀ : State n} (hs : Start start s₀) (h : run (next start) s₀ es = .ok s) :
    (∀ ks, ∃ j, j ≤ s.past.length + 1 ∧ Survive s j ∧ ∀ b, Outside start LOGSIZE b →
      apply (crashes s.disk start ks) (recoverFromLog (crashes s.disk start ks) start) b =
        apply s₀.disk (flat ((s.past ++ [s.cur]).take j)) b) ∧
    (s.committing = true → s.outstanding = 0) ∧
    (∀ p q ws ws', s.pc p = .commit ws → s.pc q = .commit ws' → p = q) ∧
    ∀ e, next start s e ≠ .error (.panic "log.committing") ∧ next start s e ≠ .error (.panic "log_write outside of trans") := by
  have hI : GroupInv start s₀.disk s :=
    run_induct (I := GroupInv start s₀.disk) (fun _ _ _ _ hn hI => hI.next (does_of_next hn)) along_true h (groupInv_start hs)
  have htake : (s.past ++ [s.cur]).take s.past.length = s.past := List.take_left
  have hpast : Survive s s.past.length := by
    intro w hw
    refine ⟨?_, fun w' hw' => hI.take_apart hw hw'⟩
    rw [htake] at hw
    exact (hI.old w hw).2
  refine ⟨fun ks => ?_, hI.ops.quiet, fun p q ws ws' => hI.ops.one, fun e => ?_⟩
  · by_cases hc : s.committing = true
    · obtain ⟨p, ws, hp⟩ := hI.someone hc
      rcases (hI.commit hp).recovered hI.outside hI.length ks with hQ | hQ
      · exact ⟨s.past.length, Nat.le_succ _, hpast, fun b hb => by rw [htake]; exact hQ.same b hb⟩
      · refine ⟨s.past.length + 1, le_rfl, fun w hw => ⟨?_, fun w' hw' => hI.take_apart hw hw'⟩, fun b hb => ?_⟩
        · -- no operation is in progress
          rintro ⟨q, bs, fresh, hq⟩
          have := hI.ops.outstanding_pos hq
          have := hI.ops.quiet hc
          omega
        · rw [List.take_of_length_le (by simp)]
          exact (hQ.same b hb).trans (hI.installed_eq hb)
    · have hQ := (hI.quiet (by simpa using hc)).crashes ks (by decide)
      exact ⟨s.past.length, Nat.le_succ _, hpast, fun b hb => by rw [htake]; exact hQ.same b hb⟩
  · have hpanic : ∀ m, m = "log.committing" ∨ m = "log_write outside of trans" → next start s e ≠ .error (.panic m) := by
      intro m hm hp
      cases e with
      | beginOp p =>
        simp only [next, State.beginOp] at hp
        split at hp
        · split at hp
          · cases hp
          · split at hp <;> cases hp
        · cases hp
      | logWrite p b v =>
        simp only [next, State.logWrite] at hp
        split at hp
        · next op bs fresh hpc =>
          have hpos := hI.ops.outstanding_pos hpc
          rw [if_neg (c := s.outstanding < 1) (by omega)] at hp
          split at hp
          · cases hp
          · split at hp
            · cases hp
              rcases hm with hm | hm <;> exact absurd hm (by decide)
            · cases hp
        · cases hp
      | endOp p =>
        simp only [next, State.endOp] at hp
        split at hp
        · next op bs fresh hpc =>
          have hnc := hI.ops.not_committing hpc
          rw [if_neg (by rw [hnc]; exact Bool.false_ne_true)] at hp
          split at hp <;> cases hp
        · cases hp
      | commitStep p =>
        simp only [next, State.commitStep] at hp
        split at hp <;> cases hp
    exact ⟨hpanic _ (.inl rfl), hpanic _ (.inr rfl)⟩

def zeroDisk : State 1 where
  disk := fun _ _ => 0
  cache := fun _ _ => 0
  block := []
  outstanding := 0
  committing := false
  pc := fun _ => .idle
  nextOp := 0
  past := []
  cur := []

local instance oneProcess : NeZero 1 := ⟨Nat.one_ne_zero⟩

def oneOp : List (Event 1) := [.beginOp 0, .logWrite 0 100 fun _ => 1, .endOp 0, .commitStep 0, .commitStep 0]

theorem recovered_groups_oneOp : ∃ s, run (next 2) zeroDisk oneOp = .ok s ∧ s.outstanding = 0 ∧ ∃ j, j ≤ s.past.length + 1 ∧ Survive s j ∧
    ∀ b, Outside 2 LOGSIZE b → apply (crashes s.disk 2 [1, 0]) (recoverFromLog (crashes s.disk 2 [1, 0]) 2) b =
      apply zeroDisk.disk (flat ((s.past ++ [s.cur]).take j)) b := by
  have hstart : Start 2 zeroDisk := ⟨by decide, rfl, rfl, rfl, rfl, fun _ => rfl, rfl, rfl⟩
  have hrun : Ends (fun s => s.committing = true) (run (next 2) zeroDisk oneOp) := by decide +kernel
  obtain ⟨s, hs, hc⟩ := hrun.exists
  obtain ⟨hrec, hquiet, -⟩ := recovered_groups hstart hs
  exact ⟨s, hs, hquiet hc, hrec [1, 0]⟩

end Xv6.Log
