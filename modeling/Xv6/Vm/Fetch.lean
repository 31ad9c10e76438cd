import Xv6.Proc.Code
import Xv6.Vm.Isolate

/-!
# Strings and addresses from the user

What `copyinstr` copies, in terms of what `walkaddr` answers, and the system calls as far as they use addresses from the process.
All these calls go through `copyout`, `copyin` and `copyinstr`, which look at the address before they walk the tree, except
`sys_pgpte`.
-/

namespace Xv6

open Bytes (Mem write write_inside write_outside)
open Hoare

variable {σ : Phys} {root srcva k : Nat} {dst : Nat → UInt8} {m : Mem}

def userByte (σ : Phys) (root a : Nat) : Option UInt8 :=
  match (walkaddr root (pgrounddown a)).run σ with
  | .ok (pa, _) => if pa = 0 then none else some (σ.mem (pa + a % PGSIZE))
  | .error _ => none

/-- There is a string of `j` bytes and its terminating 0 at the user address `a`. -/
structure UserString (σ : Phys) (root a j : Nat) : Prop where
  nul : userByte σ root (a + j) = some 0
  bytes : ∀ i < j, ∃ c, userByte σ root (a + i) = some c ∧ c ≠ 0

theorem userByte_eq (a : Nat) : userByte σ root a = if userAddr σ.mem root (pgrounddown a) = 0 then none
    else some (σ.mem (userAddr σ.mem root (pgrounddown a) + a % PGSIZE)) := by
  unfold userByte
  rw [walkaddr_run]

theorem userByte_page {i : Nat} (h : srcva % PGSIZE + i < PGSIZE) (hpa : userAddr σ.mem root (pgrounddown srcva) ≠ 0) :
    userByte σ root (srcva + i) =
      some (σ.mem (userAddr σ.mem root (pgrounddown srcva) + (srcva - pgrounddown srcva) + i)) := by
  have hdown : pgrounddown (srcva + i) = pgrounddown srcva := by
    unfold pgrounddown
    lia
  have hoff : userAddr σ.mem root (pgrounddown srcva) + (srcva + i) % PGSIZE =
      userAddr σ.mem root (pgrounddown srcva) + (srcva - pgrounddown srcva) + i := by
    unfold pgrounddown
    lia
  rw [userByte_eq, hdown, if_neg hpa, hoff]

theorem copyinstrPage_cases (m : Mem) : ∀ (n p : Nat) (dst : Nat → UInt8) (k : Nat),
    (∃ j < n, m (p + j) = 0 ∧ (∀ i < j, m (p + i) ≠ 0) ∧
      copyinstrPage m n p dst k = (true, write dst k (j + 1) fun i => m (p + i))) ∨
    (∀ i < n, m (p + i) ≠ 0) ∧ copyinstrPage m n p dst k = (false, write dst k n fun i => m (p + i)) := by
  intro n
  induction n with
  | zero =>
    intro p dst k
    refine .inr ⟨fun i hi => absurd hi (Nat.not_lt_zero i), Prod.ext rfl (funext fun x => ?_)⟩
    dsimp only
    rw [write_outside (by omega)]
    rfl
  | succ n ih =>
    intro p dst k
    have hstep : ∀ n' : Nat, write (Function.update dst k (m p)) (k + 1) n' (fun i => m (p + 1 + i)) =
        write dst k (n' + 1) fun i => m (p + i) := by
      intro n'
      funext x
      by_cases hx : k + 1 ≤ x ∧ x < k + 1 + n'
      · rw [write_inside hx.1 hx.2, write_inside (by omega) (by omega)]
        congr 1
        omega
      · rw [write_outside (by omega)]
        by_cases hk : x = k
        · subst hk
          rw [Function.update_self, write_inside le_rfl (by omega), Nat.sub_self]
          rfl
        · rw [Function.update_of_ne hk, write_outside (by omega)]
    unfold copyinstrPage
    by_cases h0 : m p = 0
    · rw [if_pos h0]
      refine .inl ⟨0, Nat.succ_pos n, h0, fun i hi => absurd hi (Nat.not_lt_zero i), ?_⟩
      rw [← hstep 0, h0]
      refine Prod.ext rfl (funext fun x => ?_)
      dsimp only
      rw [write_outside (by omega)]
    · rw [if_neg h0]
      rcases ih (p + 1) (Function.update dst k (m p)) (k + 1) with ⟨j, hj, hnul, hbefore, hrun⟩ | ⟨hall, hrun⟩
      · refine .inl ⟨j + 1, by omega, by rw [← hnul]; congr 1; omega, fun i hi => ?_, by rw [hrun, hstep]⟩
        rcases i with _ | i
        · exact h0
        · rw [show p + (i + 1) = p + 1 + i by omega]
          exact hbefore i (by omega)
      · refine .inr ⟨fun i hi => ?_, by rw [hrun, hstep]⟩
        rcases i with _ | i
        · exact h0
        · rw [show p + (i + 1) = p + 1 + i by omega]
          exact hall i (by omega)

/-- What `copyinstr` to `dst` from index `k` on leaves. -/
inductive CopiedString (σ : Phys) (root srcva max : Nat) (dst : Nat → UInt8) (k : Nat) : Int → (Nat → UInt8) → Prop
  | found {dst'} (j : Nat) (hj : j < max) (hs : UserString σ root srcva j)
      (hin : ∀ i ≤ j, userByte σ root (srcva + i) = some (dst' (k + i)))
      (hout : ∀ x, x < k ∨ k + j < x → dst' x = dst x) : CopiedString σ root srcva max dst k 0 dst'
  | failed {dst'} (hs : ∀ j < max, ¬UserString σ root srcva j) (hout : ∀ x, x < k ∨ k + max ≤ x → dst' x = dst x) :
      CopiedString σ root srcva max dst k (-1) dst'

theorem UserString.skip {n j : Nat} (hn : ∀ i < n, ∃ c, userByte σ root (srcva + i) = some c ∧ c ≠ 0) :
    UserString σ root srcva (n + j) ↔ UserString σ root (srcva + n) j := by
  constructor
  · rintro ⟨hnul, hbytes⟩
    refine ⟨by rw [Nat.add_assoc]; exact hnul, fun i hi => ?_⟩
    rw [Nat.add_assoc]
    exact hbytes (n + i) (by omega)
  · rintro ⟨hnul, hbytes⟩
    refine ⟨by rw [← Nat.add_assoc]; exact hnul, fun i hi => ?_⟩
    by_cases hin : i < n
    · exact hn i hin
    · obtain ⟨i', rfl⟩ := Nat.exists_eq_add_of_le (Nat.le_of_not_lt hin)
      rw [← Nat.add_assoc]
      exact hbytes i' (by omega)

theorem copyinstr_run (σ : Phys) (root : Nat) (dst : Nat → UInt8) (k srcva max : Nat) : ∃ r dst', (copyinstr root dst k srcva max).run σ = .ok ((r, dst'), σ) ∧
    CopiedString σ root srcva max dst k r dst' := by
  induction max using Nat.strong_induction_on generalizing dst k srcva with
  | _ max ih =>
    unfold copyinstr
    split
    next hmax =>
      rw [run_bind_ok walkaddr_run]
      have hoff : srcva - pgrounddown srcva = srcva % PGSIZE := by
        unfold pgrounddown
        lia
      have hmod : srcva % PGSIZE < PGSIZE := Nat.mod_lt _ (by decide)
      split
      next hpa =>
        refine ⟨-1, dst, rfl, .failed (fun j _ hs => ?_) fun _ _ => rfl⟩
        have hfirst : userByte σ root srcva = none := by rw [userByte_eq, if_pos hpa]
        rcases j with _ | j
        · cases hfirst.symm.trans hs.nul
        · obtain ⟨c, hc, -⟩ := hs.bytes 0 (Nat.succ_pos j)
          cases hfirst.symm.trans hc
      next hpa =>
        generalize hn : min (PGSIZE - (srcva - pgrounddown srcva)) max = n
        have hnpos : 0 < n ∧ n ≤ max ∧ srcva % PGSIZE + n ≤ PGSIZE := by omega
        have hbyte : ∀ i < n, userByte σ root (srcva + i) =
            some (σ.mem (userAddr σ.mem root (pgrounddown srcva) + (srcva - pgrounddown srcva) + i)) :=
          fun i hi => userByte_page (by omega) hpa
        rw [run_bind_ok (show (get : PhysM Phys).run σ = .ok (σ, σ) from rfl)]
        dsimp only
        generalize userAddr σ.mem root (pgrounddown srcva) + (srcva - pgrounddown srcva) = p at hbyte
        rcases copyinstrPage_cases σ.mem n p dst k with ⟨j, hj, hnul, hbefore, hrun⟩ | ⟨hall, hrun⟩
        · rw [hrun, if_pos rfl]
          dsimp only
          refine ⟨0, _, rfl, .found j (by omega) ⟨by rw [hbyte j hj, hnul], fun i hi => ?_⟩ (fun i hi => ?_) fun x hx => ?_⟩
          · exact ⟨_, hbyte i (by omega), hbefore i hi⟩
          · rw [hbyte i (by omega), write_inside (by omega) (by omega), Nat.add_sub_cancel_left]
          · exact write_outside (by omega)
        · rw [hrun, if_neg Bool.false_ne_true]
          dsimp only
          have hbefore : ∀ i < n, ∃ c, userByte σ root (srcva + i) = some c ∧ c ≠ 0 := fun i hi => ⟨_, hbyte i hi, hall i hi⟩
          by_cases hlast : n = max
          · -- the buffer is full
            obtain ⟨r, dst', hrun', hpost⟩ := ih (max - n) (by omega) (write dst k n fun i => σ.mem (p + i))
              (k + n) (pgrounddown srcva + PGSIZE)
            refine ⟨r, dst', hrun', ?_⟩
            rcases hpost with ⟨j, hj, -⟩ | ⟨-, hout⟩
            · omega
            · refine .failed (fun j hj hs => ?_) fun x hx => ?_
              · obtain ⟨c, hc, hc0⟩ := hbefore j (by omega)
                rw [hs.nul, Option.some.injEq] at hc
                exact hc0 hc.symm
              · rw [hout x (by omega)]
                exact write_outside (by omega)
          · have hnext : pgrounddown srcva + PGSIZE = srcva + n := by
              unfold pgrounddown at hn hoff ⊢
              lia
            rw [hnext]
            obtain ⟨r, dst', hrun', hpost⟩ := ih (max - n) (by omega) (write dst k n fun i => σ.mem (p + i))
              (k + n) (srcva + n)
            refine ⟨r, dst', hrun', ?_⟩
            rcases hpost with ⟨j, hj, hs, hin, hout⟩ | ⟨hs, hout⟩
            · refine .found (n + j) (by omega) ((UserString.skip hbefore).2 hs) (fun i hi => ?_) fun x hx => ?_
              · by_cases hi' : i < n
                · rw [hout _ (by omega), write_inside (by omega) (by omega), hbyte i hi', Nat.add_sub_cancel_left]
                · obtain ⟨i', rfl⟩ := Nat.exists_eq_add_of_le (Nat.le_of_not_lt hi')
                  rw [← Nat.add_assoc, ← Nat.add_assoc]
                  exact hin i' (by omega)
              · rw [hout x (by omega)]
                exact write_outside (by omega)
            · refine .failed (fun j hj hs' => ?_) fun x hx => ?_
              · by_cases hj' : j < n
                · obtain ⟨c, hc, hc0⟩ := hbefore j hj'
                  rw [hs'.nul, Option.some.injEq] at hc
                  exact hc0 hc.symm
                · obtain ⟨j', rfl⟩ := Nat.exists_eq_add_of_le (Nat.le_of_not_lt hj')
                  exact hs j' (by omega) ((UserString.skip hbefore).1 hs')
              · rw [hout x (by omega)]
                exact write_outside (by omega)
    next hmax =>
      exact ⟨-1, dst, rfl, .failed (fun j hj => absurd hj (by omega)) fun _ _ => rfl⟩

theorem UserString.unique {j j' : Nat} (h : UserString σ root srcva j) (h' : UserString σ root srcva j') : j = j' := by
  have hlt : ∀ {a b : Nat}, UserString σ root srcva a → UserString σ root srcva b → ¬a < b := by
    intro a b ha hb hab
    obtain ⟨c, hc, hc0⟩ := hb.bytes a hab
    rw [ha.nul, Option.some.injEq] at hc
    exact hc0 hc.symm
  exact Nat.le_antisymm (Nat.le_of_not_lt (hlt h' h)) (Nat.le_of_not_lt (hlt h h'))

/-- For every page table `copyinstr` returns 0 exactly when a string of less than `max` bytes stands at `srcva`, and then the string
and its 0 are in `dst` and nothing behind them has changed; else it returns -1. It never writes at or beyond `dst + max`. -/
theorem copyinstr_copies_string (σ : Phys) (root srcva max : Nat) (dst : Nat → UInt8) :
    ∃ r dst', (copyinstr root dst 0 srcva max).run σ = .ok ((r, dst'), σ) ∧ (r = 0 ∨ r = -1) ∧
      (r = 0 ↔ ∃ j < max, UserString σ root srcva j) ∧
      (∀ j < max, UserString σ root srcva j →
        (∀ i ≤ j, userByte σ root (srcva + i) = some (dst' i)) ∧ ∀ x, j < x → dst' x = dst x) ∧
      ∀ x, max ≤ x → dst' x = dst x := by
  obtain ⟨r, dst', hrun, hpost⟩ := copyinstr_run σ root dst 0 srcva max
  refine ⟨r, dst', hrun, ?_⟩
  rcases hpost with ⟨j, hj, hs, hin, hout⟩ | ⟨hs, hout⟩
  · refine ⟨.inl rfl, ⟨fun _ => ⟨j, hj, hs⟩, fun _ => rfl⟩, fun j' hj' hs' => ?_, fun x hx => hout x (by omega)⟩
    obtain rfl := hs'.unique hs
    refine ⟨fun i hi => ?_, fun x hx => hout x (by omega)⟩
    rw [hin i hi, Nat.zero_add]
  · refine ⟨.inr rfl, ⟨fun h => absurd h (by decide), fun ⟨j, hj, hs'⟩ => absurd hs' (hs j hj)⟩,
      fun j hj hs' => absurd hs' (hs j hj), fun x hx => hout x (by omega)⟩

def fetchaddr (pagetable sz addr : Nat) : PhysM (Int × Nat) := do
  if addr ≥ sz ∨ (addr + 8) % 2 ^ 64 > sz then return (-1, 0) else
  let (r, ip) ← copyin pagetable (fun _ => 0) 0 addr 8
  if r ≠ 0 then return (-1, 0) else return (0, Bytes.loadLE ip 0 8)

/-- `fetchstr`: the result is 0 here where the source returns the length. -/
def fetchstr (pagetable addr max : Nat) : PhysM Int := do
  let (r, _) ← copyinstr pagetable (fun _ => 0) 0 addr max
  if r < 0 then return -1 else return 0

abbrev MAXPATH : Nat := 128

def argpath (pagetable addr : Nat) : PhysM Int := fetchstr pagetable addr MAXPATH

/-- Copy out pieces one behind the other until one fails: single bytes in `piperead` and `consoleread`, the parts of blocks
in `readi`. -/
def copyoutAll (pagetable : Nat) : Nat → List (List UInt8) → PhysM Int
  | _, [] => return 0
  | addr, piece :: pieces => do
    if (← copyout pagetable addr (fun k => piece.getD k 0) piece.length) = -1 then return -1 else
    copyoutAll pagetable ((addr + piece.length) % 2 ^ 64) pieces

/-- Copy in pieces of the given lengths one behind the other until one fails, as `pipewrite`, `consolewrite` and `writei` do. -/
def copyinAll (pagetable : Nat) : Nat → List Nat → PhysM Int
  | _, [] => return 0
  | addr, len :: lens => do
    let (r, _) ← copyin pagetable (fun _ => 0) 0 addr len
    if r = -1 then return -1 else copyinAll pagetable ((addr + len) % 2 ^ 64) lens

abbrev NARGV : Nat := 32

/-- The loop of `sys_exec` that fetches the arguments from index `i` on; `kalloc` finds a page for the first `pages` of them. -/
def fetchArgv (pagetable sz uargv pages : Nat) : Nat → Nat → PhysM Int
  | 0, _ => return -1
  | fuel + 1, i => do
    let (r, uarg) ← fetchaddr pagetable sz ((uargv + 8 * i) % 2 ^ 64)
    if r < 0 then return -1
    else if uarg = 0 then return 0
    else if i ≥ pages then return -1
    else if (← fetchstr pagetable uarg PGSIZE) < 0 then return -1
    else fetchArgv pagetable sz uargv pages fuel (i + 1)

def sysPgpte (pagetable va : Nat) : PhysM Int := do
  match ← walk pagetable va false with
  | some pte => return Int.bmod (← loadPte pte) (2 ^ 32)
  | none => return 0

/-- The system calls that use user addresses, with these addresses and with what decides how much is copied. -/
inductive UserCall where
  | read (addr : Nat) (pieces : List (List UInt8))
  | write (addr : Nat) (lens : List Nat)
  | fstat (addr : Nat) (st : List UInt8)
  | pipe (fdarray : Nat) (fd0 fd1 : Int)
  | wait (addr : Nat) (xstate : Int)
  | exec (path uargv pages : Nat)
  | openPath (path : Nat)
  | link (old new : Nat)
  | unlink (path : Nat)
  | mkdir (path : Nat)
  | mknod (path : Nat)
  | chdir (path : Nat)
  | pgpte (va : Nat)

/-- The part of the call that uses the addresses, for a process with the given page table and size. -/
def UserCall.access (pagetable sz : Nat) : UserCall → PhysM Int
  | .read addr pieces => copyoutAll pagetable addr pieces
  | .write addr lens => copyinAll pagetable addr lens
  | .fstat addr st => copyout pagetable addr (fun k => st.getD k 0) 24
  | .pipe fdarray fd0 fd1 => do
    if (← copyout pagetable fdarray (intBytes fd0) 4) < 0 then return -1 else
    copyout pagetable ((fdarray + 4) % 2 ^ 64) (intBytes fd1) 4
  | .wait addr xstate => if addr ≠ 0 then copyout pagetable addr (intBytes xstate) 4 else return 0
  | .exec path uargv pages => do
    if (← argpath pagetable path) < 0 then return -1 else
    fetchArgv pagetable sz uargv pages NARGV 0
  | .link old new => do
    if (← argpath pagetable old) < 0 then return -1 else argpath pagetable new
  | .openPath path | .unlink path | .mkdir path | .mknod path | .chdir path => argpath pagetable path
  | .pgpte va => sysPgpte pagetable va

section

variable {E : String → Prop} {Q : Int → Phys → Prop}

theorem copyout_returns (addr : Nat) (src : Nat → UInt8) (len : Nat) :
    wp (copyout root addr src len) (fun _ _ => True) E σ :=
  wp_mono (copyout_writes σ root addr src len) (fun _ _ _ => trivial) fun _ h => h.elim

theorem copyin_returns (addr len : Nat) : wp (copyin root dst k addr len) (fun _ _ => True) E σ := by
  have hsame : SameUser root σ.mem σ.mem := ⟨fun _ _ => rfl, fun _ _ => rfl⟩
  obtain ⟨r, hrun, -⟩ : ∃ r, (copyin root dst k addr len).run σ = .ok (r, σ) ∧ _ := copyin_reads hsame
  exact (wp_of_ok hrun).2 trivial

theorem fetchstr_returns (addr max : Nat) : wp (fetchstr root addr max) (fun _ _ => True) E σ := by
  obtain ⟨r, dst', hrun, -⟩ := copyinstr_run σ root (fun _ => 0) 0 addr max
  unfold fetchstr
  rw [wp_bind, wp_of_ok hrun]
  dsimp only
  split <;> exact wp_pure.2 trivial

theorem fetchaddr_returns (sz addr : Nat) : wp (fetchaddr root sz addr) (fun _ _ => True) E σ := by
  unfold fetchaddr
  split
  · exact wp_pure.2 trivial
  · rw [wp_bind]
    refine wp_post (copyin_returns addr 8) fun r σ' _ => ?_
    dsimp only
    split <;> exact wp_pure.2 trivial

theorem copyoutAll_returns (pieces : List (List UInt8)) :
    ∀ (σ : Phys) (addr : Nat), wp (copyoutAll root addr pieces) (fun _ _ => True) E σ := by
  induction pieces with
  | nil => exact fun σ addr => wp_pure.2 trivial
  | cons piece pieces ih =>
    intro σ addr
    unfold copyoutAll
    rw [wp_bind]
    refine wp_post (copyout_returns addr _ _) fun r σ' _ => ?_
    split
    · exact wp_pure.2 trivial
    · exact ih σ' _

theorem copyinAll_returns (lens : List Nat) :
    ∀ (σ : Phys) (addr : Nat), wp (copyinAll root addr lens) (fun _ _ => True) E σ := by
  induction lens with
  | nil => exact fun σ addr => wp_pure.2 trivial
  | cons len lens ih =>
    intro σ addr
    unfold copyinAll
    rw [wp_bind]
    refine wp_post (copyin_returns addr len) fun r σ' _ => ?_
    dsimp only
    split
    · exact wp_pure.2 trivial
    · exact ih σ' _

theorem fetchArgv_returns (sz uargv pages : Nat) :
    ∀ (fuel : Nat) (σ : Phys) (i : Nat), wp (fetchArgv root sz uargv pages fuel i) (fun _ _ => True) E σ := by
  intro fuel
  induction fuel with
  | zero => exact fun σ i => wp_pure.2 trivial
  | succ fuel ih =>
    intro σ i
    unfold fetchArgv
    rw [wp_bind]
    refine wp_post (fetchaddr_returns sz _) fun r σ' _ => ?_
    dsimp only
    simp only [wp_ite]
    refine ⟨fun _ => wp_pure.2 trivial, fun _ => ⟨fun _ => wp_pure.2 trivial, fun _ => ⟨fun _ => wp_pure.2 trivial, fun _ => ?_⟩⟩⟩
    rw [wp_bind]
    refine wp_post (fetchstr_returns _ _) fun r σ'' _ => ?_
    split
    · exact wp_pure.2 trivial
    · exact ih σ'' _

theorem sysPgpte_returns {va : Nat} (hva : va < MAXVA) : wp (sysPgpte root va) (fun _ _ => True) E σ := by
  unfold sysPgpte
  rw [wp_bind, wp_of_ok (walk_run hva)]
  cases (walkSlot σ.mem va 2 root).map Prod.snd with
  | none => exact wp_pure.2 trivial
  | some pte =>
    dsimp only
    rw [wp_bind, wp_loadPte, wp_pure]
    trivial

theorem sysPgpte_panics {va : Nat} (hva : MAXVA ≤ va) : (sysPgpte root va).run σ = .error "walk" := by
  have hwalk : (walk root va false).run σ = .error "walk" := by
    rw [walk, if_pos hva]
    rfl
  rw [sysPgpte, StateT.run_bind, hwalk]
  rfl

theorem access_returns (sz : Nat) (c : UserCall) (hc : ∀ va, c = .pgpte va → va < MAXVA) :
    wp (c.access root sz) (fun _ _ => True) E σ := by
  cases c with
  | read addr pieces => exact copyoutAll_returns pieces σ addr
  | write addr lens => exact copyinAll_returns lens σ addr
  | fstat addr st => exact copyout_returns addr _ _
  | pipe fdarray fd0 fd1 =>
    unfold UserCall.access
    rw [wp_bind]
    refine wp_post (copyout_returns fdarray _ _) fun r σ' _ => ?_
    split
    · exact wp_pure.2 trivial
    · exact copyout_returns _ _ _
  | wait addr xstate =>
    unfold UserCall.access
    dsimp only
    split
    · exact copyout_returns addr _ _
    · exact wp_pure.2 trivial
  | exec path uargv pages =>
    unfold UserCall.access
    rw [wp_bind]
    refine wp_post (fetchstr_returns path MAXPATH) fun r σ' _ => ?_
    split
    · exact wp_pure.2 trivial
    · exact fetchArgv_returns sz uargv pages NARGV σ' 0
  | link old new =>
    unfold UserCall.access
    rw [wp_bind]
    refine wp_post (fetchstr_returns old MAXPATH) fun r σ' _ => ?_
    split
    · exact wp_pure.2 trivial
    · exact fetchstr_returns new MAXPATH
  | openPath path => exact fetchstr_returns path MAXPATH
  | unlink path => exact fetchstr_returns path MAXPATH
  | mkdir path => exact fetchstr_returns path MAXPATH
  | mknod path => exact fetchstr_returns path MAXPATH
  | chdir path => exact fetchstr_returns path MAXPATH
  | pgpte va => exact sysPgpte_returns (hc va rfl)

end

/-- In every memory, for every page table and all arguments, the part of a call that uses user addresses stops in a panic exactly when
it is `pgpte` of an address from `MAXVA` on, and then the panic is the one of `walk`. -/
theorem walk_panics_iff (σ : Phys) (pagetable sz : Nat) (c : UserCall) :
    (∀ msg, (c.access pagetable sz).run σ = .error msg → msg = "walk") ∧
    ((c.access pagetable sz).run σ = .error "walk" ↔ ∃ va, c = .pgpte va ∧ MAXVA ≤ va) := by
  by_cases hc : ∃ va, c = .pgpte va ∧ MAXVA ≤ va
  · obtain ⟨va, rfl, hva⟩ := hc
    have hrun : ((UserCall.pgpte va).access pagetable sz).run σ = .error "walk" := sysPgpte_panics hva
    refine ⟨fun msg h => ?_, ⟨fun _ => ⟨va, rfl, hva⟩, fun _ => hrun⟩⟩
    rw [hrun] at h
    exact (Except.error.inj h).symm
  · obtain ⟨r, σ', hrun, -⟩ := (wp_false_iff (x := c.access pagetable sz) (s := σ)).1 (access_returns sz c fun va hva => by
      by_contra hlt
      exact hc ⟨va, hva, by omega⟩)
    rw [hrun]
    refine ⟨fun msg h => ?_, ⟨fun h => ?_, fun h => absurd h hc⟩⟩ <;> cases h

/-- Any process can stop the machine. -/
theorem pgpte_stops_machine : MAXVA < 2 ^ 64 ∧ ∀ (σ : Phys) (pagetable sz : Nat),
    ((UserCall.pgpte MAXVA).access pagetable sz).run σ = .error "walk" :=
  ⟨by decide, fun _ _ _ => sysPgpte_panics le_rfl⟩

end Xv6
