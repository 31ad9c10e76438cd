import Xv6.Console.Line

/-!
# The line discipline of the console

Over any interleaving of input and readers the buffer stays in step with the editable queue, and readers take the committed
characters in their order. Of two reads that overlap one can get characters from both sides of a newline or a `^D`, because it does
not see what the other one takes.
-/

namespace Xv6.Console

open Function (comp_def update update_of_ne update_self)
open Run

/-- The characters that call `k` has taken out of the buffer. -/
def takenBy (log : List (Nat × UInt8)) (k : Nat) : List UInt8 := (log.filter fun x => x.1 = k).map Prod.snd

/-- What a call has copied is what it has taken out of the buffer, and ends with the first newline. A call that has returned
nothing to a reader who asked for something has taken one `^D`. -/
structure ReadOk (x : Read) (taken : List UInt8) : Prop where
  count : x.n + x.got.length = x.target
  data : ctrlD ∉ x.got
  lines : newline ∉ x.got.dropLast
  sleeping : x.stage = .sleeping → taken = x.got ∧ 0 < x.n ∧ newline ∉ x.got
  killed : x.stage = .killed → taken = x.got
  returned : x.stage = .returned → taken = x.got ∧ (0 < x.target → x.got ≠ []) ∨ taken = [ctrlD] ∧ x.got = [] ∧ 0 < x.target

structure Inv (s : Sys) : Prop where
  holds : Holds s.cons s.line.ready s.line.edit
  committed : s.line.committed = s.log.map Prod.snd ++ s.line.ready
  reads : ∀ k, k < s.calls → ReadOk (s.reads k) (takenBy s.log k)
  fresh : ∀ x ∈ s.log, x.1 < s.calls

variable {s s' : Sys} {k j n : Nat} {x : Read} {log : List (Nat × UInt8)} {l g taken edit ready : List UInt8}
  {c : UInt8} {t : Turn} {e : Event} {buf : Nat → UInt8} {i : BitVec 32} {es : List Event}

theorem takenBy_append_self : takenBy (log ++ l.map (k, ·)) k = takenBy log k ++ l := by
  simp [takenBy, List.filter_append, List.filter_map, comp_def]

theorem takenBy_append_of_ne (h : j ≠ k) : takenBy (log ++ l.map (k, ·)) j = takenBy log j := by
  simp [takenBy, List.filter_append, List.filter_map, comp_def, Ne.symm h]

theorem takenBy_of_fresh (h : ∀ x ∈ log, x.1 < k) : takenBy log k = [] := by
  simp only [takenBy, List.map_eq_nil_iff, List.filter_eq_nil_iff, decide_eq_true_eq]
  exact fun x hx => Nat.ne_of_lt (h x hx)

structure Waiting (x : Read) (taken : List UInt8) : Prop where
  count : x.n + x.got.length = x.target
  data : ctrlD ∉ x.got
  lines : newline ∉ x.got
  taken : taken = x.got
  pos : 0 < x.n ∨ x.got = []

theorem ReadOk.waiting (h : ReadOk x taken) (hs : x.stage = .sleeping) : Waiting x taken :=
  ⟨h.count, h.data, (h.sleeping hs).2.2, (h.sleeping hs).1, .inl (h.sleeping hs).2.1⟩

theorem Waiting.readOk (h : Waiting x taken) (ht : TurnSpec x.target x.n ready edit t) :
    ReadOk ⟨x.target, t.n, x.got ++ t.copied, t.stage⟩ (taken ++ t.taken) := by
  have hcount := h.count
  have htcount := ht.count
  rw [h.taken]
  refine ⟨by simp; omega, by simp [h.data, ht.data], ?_, fun hs => ?_, fun hs => absurd hs ht.live, fun hs => ?_⟩
  · by_cases hnil : t.copied = []
    · rw [hnil, List.append_nil]
      exact fun hm => h.lines (List.dropLast_subset _ hm)
    · rw [List.dropLast_append_of_ne_nil hnil]
      simp [h.lines, ht.lines]
  · obtain ⟨hpos, hnl, heof⟩ := ht.sleeping hs
    exact ⟨by simp [Turn.taken, heof], hpos, by simp [h.lines, hnl]⟩
  · cases heof : t.eof with
    | true =>
      obtain ⟨hcop, hn, hpos⟩ := ht.eof heof
      have hgot : x.got = [] := List.length_eq_zero_iff.1 (by omega)
      exact .inr ⟨by simp [Turn.taken, heof, hcop, hgot], by simp [hcop, hgot], by show 0 < x.target; omega⟩
    | false =>
      refine .inl ⟨by simp [Turn.taken, heof], fun hpos => ?_⟩
      change 0 < x.target at hpos
      rcases ht.zero hs heof with h0 | hcop | hlt
      · rcases h.pos with hp | hgot
        · omega
        · rw [hgot] at hcount
          simp at hcount
          omega
      · simp [hcop]
      · have hgot : x.got ≠ [] := by
          rintro hgot
          rw [hgot] at hcount
          simp at hcount
          omega
        simp [hgot]

theorem Inv.turn (h : Inv s) (hx : Waiting x (takenBy s.log k)) :
    Holds (s.turn k x).cons (s.turn k x).line.ready (s.turn k x).line.edit ∧
    (s.turn k x).line.committed = (s.turn k x).log.map Prod.snd ++ (s.turn k x).line.ready ∧
    ReadOk ((s.turn k x).reads k) (takenBy (s.turn k x).log k) ∧
    ∀ j, j ≠ k → (s.turn k x).reads j = s.reads j ∧ takenBy (s.turn k x).log j = takenBy s.log j := by
  have hcount := hx.count
  have ht := readLoop_spec x.target (n := x.n) (by omega) h.holds
  obtain ⟨rest, hrest, hholds⟩ := ht.split
  have hdrop : s.line.ready.drop (readLoop x.target x.n s.cons).taken.length = rest := by
    rw [hrest, List.drop_left]
  refine ⟨?_, ?_, ?_, fun j hj => ⟨update_of_ne hj _ _, takenBy_append_of_ne hj⟩⟩
  · show Holds _ (s.line.ready.drop _) s.line.edit
    rw [hdrop]
    exact hholds
  · show s.line.committed = List.map Prod.snd (s.log ++ _) ++ s.line.ready.drop _
    rw [h.committed, hdrop, List.map_append, List.map_map]
    simp only [comp_def, List.map_id']
    rw [List.append_assoc, ← hrest]
  · show ReadOk (update s.reads k _ k) (takenBy (s.log ++ _) k)
    rw [update_self, takenBy_append_self]
    exact hx.readOk ht

theorem Inv.input (h : Inv s) (c : UInt8) : Inv { s with cons := consoleintr s.cons c, line := s.line.input c } := by
  refine ⟨h.holds.consoleintr, ?_, h.reads, h.fresh⟩
  show (s.line.input c).committed = s.log.map Prod.snd ++ (s.line.input c).ready
  have hc := h.committed
  unfold Line.input Line.add
  split_ifs <;> simp [hc]

theorem Inv.step (h : Inv s) (hs : next s e = .ok s') : Inv s' := by
  cases e with
  | intr c =>
    cases hs
    exact h.input c
  | call n =>
    cases hs
    have hnone := takenBy_of_fresh h.fresh
    have hx : Waiting ⟨n, n, [], .sleeping⟩ (takenBy s.log s.calls) := ⟨rfl, by simp, by simp, hnone, .inr rfl⟩
    obtain ⟨hholds, hcomm, hread, hother⟩ := h.turn hx
    refine ⟨hholds, hcomm, fun j hj => ?_, fun y hy => ?_⟩
    · rcases Nat.lt_succ_iff_lt_or_eq.1 hj with hj | rfl
      · obtain ⟨h1, h2⟩ := hother j (Nat.ne_of_lt hj)
        show ReadOk ((s.turn s.calls _).reads j) (takenBy (s.turn s.calls _).log j)
        rw [h1, h2]
        exact h.reads j hj
      · exact hread
    · rcases List.mem_append.1 hy with hy | hy
      · exact Nat.lt_succ_of_lt (h.fresh y hy)
      · obtain ⟨c, -, rfl⟩ := List.mem_map.1 hy
        exact Nat.lt_succ_self _
  | wake k =>
    rw [next] at hs
    split at hs
    · rename_i hk
      cases hs
      obtain ⟨hholds, hcomm, hread, hother⟩ := h.turn ((h.reads k hk.1).waiting hk.2)
      refine ⟨hholds, hcomm, fun j hj => ?_, fun y hy => ?_⟩
      · by_cases hjk : j = k
        · subst hjk
          exact hread
        · obtain ⟨h1, h2⟩ := hother j hjk
          rw [h1, h2]
          exact h.reads j hj
      · rcases List.mem_append.1 hy with hy | hy
        · exact h.fresh y hy
        · obtain ⟨c, -, rfl⟩ := List.mem_map.1 hy
          exact hk.1
    · cases hs
  | kill k =>
    rw [next] at hs
    split at hs
    · rename_i hk
      cases hs
      refine ⟨h.holds, h.committed, fun j hj => ?_, h.fresh⟩
      by_cases hjk : j = k
      · subst hjk
        have hr := h.reads j hj
        show ReadOk (update s.reads j _ j) _
        rw [update_self]
        exact ⟨hr.count, hr.data, hr.lines, fun h' => (by cases h'), fun _ => (hr.sleeping hk.2).1, fun h' => (by cases h')⟩
      · show ReadOk (update s.reads k _ j) _
        rw [update_of_ne hjk]
        exact h.reads j hj
    · cases hs

theorem inv_start (buf : Nat → UInt8) (i : BitVec 32) : Inv (start buf i) where
  holds := ⟨by simp [RingBuf.toList, RingBuf.size, Cons.ring, start], by simp [start], by simp [start], by simp [start]⟩
  committed := rfl
  reads k hk := absurd hk (Nat.not_lt_zero k)
  fresh x hx := by cases hx

theorem committed_mono (hs : next s e = .ok s') : s.line.committed <+: s'.line.committed := by
  cases e with
  | intr c =>
    cases hs
    show s.line.committed <+: (s.line.input c).committed
    unfold Line.input Line.add
    split_ifs <;> simp
  | call n =>
    cases hs
    exact List.prefix_refl _
  | wake k =>
    rw [next] at hs
    split at hs <;> cases hs
    exact List.prefix_refl _
  | kill k =>
    rw [next] at hs
    split at hs <;> cases hs
    exact List.prefix_refl _

/-- No call takes characters from both sides of a newline or a `^D` of the committed input. -/
def NoCross (log : List (Nat × UInt8)) : Prop :=
  ∀ l1 k c l2 c' l3, log = l1 ++ (k, c) :: l2 ++ (k, c') :: l3 → ∀ x ∈ (k, c) :: l2, x.2 ≠ newline ∧ x.2 ≠ ctrlD

def Alone (s : Sys) : Event → Prop
  | .call _ => ∀ k, k < s.calls → (s.reads k).stage ≠ .sleeping
  | _ => True

instance (s : Sys) : ∀ e, Decidable (Alone s e)
  | .intr _ => inferInstanceAs (Decidable True)
  | .call _ => inferInstanceAs (Decidable (∀ k, k < s.calls → (s.reads k).stage ≠ .sleeping))
  | .wake _ => inferInstanceAs (Decidable True)
  | .kill _ => inferInstanceAs (Decidable True)

theorem NoCross.of_append {log' : List (Nat × UInt8)} (h : NoCross (log ++ log')) : NoCross log := by
  intro l1 k c l2 c' l3 heq
  exact h l1 k c l2 c' (l3 ++ log') (by rw [heq]; simp)

theorem NoCross.append (h : NoCross log) (hk : ∀ x ∈ log, x.1 ≠ k) (hg : newline ∉ g.dropLast ∧ ctrlD ∉ g.dropLast) :
    NoCross (log ++ g.map (k, ·)) := by
  intro l1 j c l2 c' l3 heq
  rcases List.append_eq_append_iff.1 heq with ⟨a, ha, hg'⟩ | ⟨a, ha, hg'⟩
  · -- the second character is among those of this call, and so is the first
    have hj : j = k := by
      have : (j, c') ∈ g.map (k, ·) := by rw [hg']; simp
      obtain ⟨_, -, hx⟩ := List.mem_map.1 this
      exact (Prod.mk.inj hx).1.symm
    subst hj
    have hsub : ∀ x ∈ a, x.2 ∈ g.dropLast := by
      intro x hx
      have hmap : g = a.map Prod.snd ++ c' :: l3.map Prod.snd := by
        have := congrArg (List.map Prod.snd) hg'
        simpa [comp_def] using this
      rw [hmap, List.dropLast_append_of_ne_nil (by simp)]
      exact List.mem_append_left _ (List.mem_map_of_mem hx)
    intro x hx
    have hxa : x ∈ a := by
      rcases List.append_eq_append_iff.1 ha with ⟨b, hb, hb'⟩ | ⟨b, hb, hb'⟩
      · cases b with
        | nil => exact List.nil_append a ▸ hb' ▸ hx
        | cons y b =>
          obtain ⟨rfl, -⟩ := List.cons.inj hb'
          exact absurd rfl (hk (j, c) (by rw [hb]; simp))
      · rw [hb']
        exact List.mem_append_right _ hx
    exact ⟨fun hnl => hg.1 (hnl ▸ hsub x hxa), fun hd => hg.2 (hd ▸ hsub x hxa)⟩
  · -- both characters have been taken before
    cases a with
    | nil =>
      have hj : (j, c') ∈ g.map (k, ·) := by
        rw [List.nil_append] at hg'
        rw [← hg']
        exact List.mem_cons_self ..
      obtain ⟨_, -, hx⟩ := List.mem_map.1 hj
      exact absurd (Prod.mk.inj hx).1.symm (hk (j, c) (by rw [ha]; simp))
    | cons y a =>
      obtain ⟨rfl, -⟩ := List.cons.inj hg'
      exact h l1 j c l2 c' a ha

/-- At most one call is under way, and what it has taken is at the end of the log. -/
structure SeqInv (s : Sys) : Prop where
  inv : Inv s
  noCross : NoCross s.log
  sleeping : ∀ k, k < s.calls → (s.reads k).stage = .sleeping →
    (∀ j, j < s.calls → (s.reads j).stage = .sleeping → j = k) ∧
    ∃ l, s.log = l ++ (s.reads k).got.map (k, ·) ∧ ∀ x ∈ l, x.1 ≠ k

theorem Waiting.noCross_dropLast (h : Waiting x taken)
    (ht : TurnSpec x.target x.n ready edit t) :
    newline ∉ (x.got ++ t.taken).dropLast ∧ ctrlD ∉ (x.got ++ t.taken).dropLast := by
  have hcount := h.count
  cases heof : t.eof with
  | true =>
    obtain ⟨hcop, hn, -⟩ := ht.eof heof
    have hgot : x.got = [] := List.length_eq_zero_iff.1 (by omega)
    simp [Turn.taken, heof, hcop, hgot]
  | false =>
    have htaken : t.taken = t.copied := by simp [Turn.taken, heof]
    have hok := h.readOk ht
    rw [htaken]
    exact ⟨hok.lines, fun hm => hok.data (List.dropLast_subset _ hm)⟩

theorem turn_noCross (h : Inv s) (hcross : NoCross s.log) (hx : Waiting x (takenBy s.log k)) {l : List (Nat × UInt8)}
    (hlog : s.log = l ++ x.got.map (k, ·)) (hl : ∀ y ∈ l, y.1 ≠ k) :
    NoCross (s.turn k x).log ∧ (((s.turn k x).reads k).stage = .sleeping →
      (s.turn k x).log = l ++ ((s.turn k x).reads k).got.map (k, ·)) := by
  have hcount := hx.count
  have ht := readLoop_spec x.target (n := x.n) (by omega) h.holds
  have hlog' : (s.turn k x).log = l ++ (x.got ++ (readLoop x.target x.n s.cons).taken).map (k, ·) := by
    show s.log ++ _ = _
    rw [hlog, List.append_assoc, ← List.map_append]
  rw [hlog']
  refine ⟨(hlog ▸ hcross).of_append.append hl (hx.noCross_dropLast ht), fun hs => ?_⟩
  have hread : (s.turn k x).reads k = ⟨x.target, (readLoop x.target x.n s.cons).n, x.got ++ (readLoop x.target x.n s.cons).copied,
      (readLoop x.target x.n s.cons).stage⟩ := update_self ..
  rw [hread] at hs ⊢
  obtain ⟨-, -, heof⟩ := ht.sleeping hs
  simp [Turn.taken, heof]

theorem SeqInv.step (h : SeqInv s) (hal : Alone s e) (hs : next s e = .ok s') : SeqInv s' := by
  have hinv := h.inv.step hs
  cases e with
  | intr c =>
    cases hs
    exact ⟨hinv, h.noCross, h.sleeping⟩
  | call n =>
    cases hs
    have hfresh : ∀ y ∈ s.log, y.1 ≠ s.calls := fun y hy => Nat.ne_of_lt (h.inv.fresh y hy)
    have hx : Waiting ⟨n, n, [], .sleeping⟩ (takenBy s.log s.calls) :=
      ⟨rfl, by simp, by simp, takenBy_of_fresh h.inv.fresh, .inr rfl⟩
    obtain ⟨hcross, hrow⟩ := turn_noCross h.inv h.noCross hx (by simp) hfresh
    have hnew : ∀ j, j < s.calls + 1 → ((s.turn s.calls ⟨n, n, [], .sleeping⟩).reads j).stage = .sleeping → j = s.calls := by
      intro j hj hsl
      by_contra hne
      have hsame : (s.turn s.calls ⟨n, n, [], .sleeping⟩).reads j = s.reads j := update_of_ne hne _ _
      rw [hsame] at hsl
      exact hal j (by omega) hsl
    refine ⟨hinv, hcross, fun k hk hsl => ?_⟩
    obtain rfl := hnew k hk hsl
    exact ⟨hnew, s.log, hrow hsl, hfresh⟩
  | wake k =>
    rw [next] at hs
    split at hs
    · rename_i hk
      cases hs
      obtain ⟨honly, l, hlog, hl⟩ := h.sleeping k hk.1 hk.2
      obtain ⟨hcross, hrow⟩ := turn_noCross h.inv h.noCross ((h.inv.reads k hk.1).waiting hk.2) hlog hl
      have hnew : ∀ j, j < s.calls → ((s.turn k (s.reads k)).reads j).stage = .sleeping → j = k := by
        intro j hj hsl
        by_contra hne
        have hsame : (s.turn k (s.reads k)).reads j = s.reads j := update_of_ne hne _ _
        rw [hsame] at hsl
        exact hne (honly j hj hsl)
      refine ⟨hinv, hcross, fun j hj hsl => ?_⟩
      obtain rfl := hnew j hj hsl
      exact ⟨hnew, l, hrow hsl, hl⟩
    · cases hs
  | kill k =>
    rw [next] at hs
    split at hs
    · rename_i hk
      cases hs
      refine ⟨hinv, h.noCross, fun j hj hsl => ?_⟩
      exfalso
      by_cases hjk : j = k
      · subst hjk
        simp at hsl
      · simp only [update_of_ne hjk] at hsl
        exact hjk ((h.sleeping k hk.1 hk.2).1 j hj hsl)
    · cases hs

theorem inv_run (hrun : run next (start buf i) es = .ok s) : Inv s :=
  run_induct (fun _ _ _ _ hs h => h.step hs) along_true hrun (inv_start buf i)

theorem seqInv_run (hal : Along next Alone (start buf i) es)
    (hrun : run next (start buf i) es = .ok s) : SeqInv s := by
  refine run_induct (fun _ _ _ hal hs h => h.step hal hs) hal hrun ⟨inv_start buf i, ?_, fun k hk => absurd hk (Nat.not_lt_zero k)⟩
  intro l1 k c l2 c' l3 heq
  simp [start] at heq

/-- After every run: the indices are in order around the ring, which holds the queue that the input has made; what the readers have
taken and what waits for them are the committed characters; a call has got what it has taken, up to a newline, and a `^D` ends a call
with nothing. And if calls do not overlap, none takes from both sides of a newline or `^D`. -/
theorem line_discipline (buf : Nat → UInt8) (i : BitVec 32) (es : List Event) (hrun : run next (start buf i) es = .ok s) :
    ((s.cons.w - s.cons.r).toNat ≤ (s.cons.e - s.cons.r).toNat ∧ (s.cons.e - s.cons.r).toNat ≤ INPUT_BUF_SIZE) ∧
    s.cons.ring.toList INPUT_BUF_SIZE = s.line.ready ++ s.line.edit ∧ (s.cons.w - s.cons.r).toNat = s.line.ready.length ∧
    s.line.committed = s.log.map Prod.snd ++ s.line.ready ∧ (∀ k, k < s.calls → ReadOk (s.reads k) (takenBy s.log k)) ∧
    (∀ e s', next s e = .ok s' → s.line.committed <+: s'.line.committed) ∧
    (Along next Alone (start buf i) es → NoCross s.log) := by
  have h := inv_run hrun
  obtain ⟨hw, he⟩ := h.holds.order
  have hle := h.holds.le
  exact ⟨by omega, h.holds.list, hw, h.committed, h.reads, fun _ _ hs => committed_mono hs, fun hal => (seqInv_run hal hrun).noCross⟩

/-- The line `a`, in a buffer whose indices are about to wrap, for a reader who asks for five bytes. -/
theorem line_discipline_one : ∃ s, run next (start (fun _ => 0) 0xffffffff) [.intr 97, .intr 10, .call 5] = .ok s ∧
    (s.reads 0).got = [97, 10] ∧ s.line.committed = s.log.map Prod.snd ++ s.line.ready ∧ NoCross s.log := by
  obtain ⟨s, hrun, hgot⟩ : ∃ s, run next (start (fun _ => 0) 0xffffffff) [.intr 97, .intr 10, .call 5] = .ok s ∧
      (s.reads 0).got = [97, 10] := Ends.exists (by decide +kernel)
  obtain ⟨-, -, -, hcomm, -, -, hcross⟩ := line_discipline _ _ _ hrun
  exact ⟨s, hrun, hgot, hcomm, hcross (by decide +kernel)⟩

/-- A full buffer, of which one reader takes all and waits for more; a `^D`, which another reader takes meanwhile; and a line. -/
def overlap : List Event :=
  List.replicate 128 (.intr 97) ++ [.call 200, .intr 4, .call 10, .intr 98, .intr 10, .wake 0]

/-- The first reader gets characters from both sides of the `^D` in one read. -/
theorem read_crosses_eof : ∃ s, run next (start (fun _ => 0) 0) overlap = .ok s ∧
    s.line.committed = List.replicate 128 97 ++ [4, 98, 10] ∧ (s.reads 0).stage = .returned ∧
    (s.reads 0).got = List.replicate 128 97 ++ [98, 10] ∧ ¬NoCross s.log := by
  obtain ⟨s, hrun, hcomm, hstage, hgot, hlog⟩ : ∃ s, run next (start (fun _ => 0) 0) overlap = .ok s ∧
      s.line.committed = List.replicate 128 97 ++ [4, 98, 10] ∧ (s.reads 0).stage = .returned ∧
      (s.reads 0).got = List.replicate 128 97 ++ [98, 10] ∧
      s.log = List.replicate 127 (0, 97) ++ (0, 97) :: [(1, 4)] ++ (0, 98) :: [(0, 10)] := Ends.exists (by decide +kernel)
  exact ⟨s, hrun, hcomm, hstage, hgot, fun h => (h _ 0 97 [(1, 4)] 98 _ hlog (1, 4) (by simp)).2 rfl⟩

end Xv6.Console
