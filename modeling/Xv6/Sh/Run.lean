import Xv6.Lib.Run
import Xv6.Sh.Grammar

/-!
# The plumbing of the shell (`runcmd`)

`runcmd` is a program of system calls on the table of open files of its process, and each process runs its own copy of it; any
process can take the next step. A node of the command tree is named by the way to it from the root, and a file by the node
that opened it.
-/

namespace Xv6.Sh

open Function (update update_apply update_of_ne)
open Run (Stop run)

inductive Turn where
  | cmd
  | left
  | right
  deriving DecidableEq

abbrev Node := List Turn

def Cmd.child : Cmd → Turn → Option Cmd
  | .redir c _, .cmd => some c
  | .back c, .cmd => some c
  | .pipe l _, .left => some l
  | .pipe _ r, .right => some r
  | .list l _, .left => some l
  | .list _ r, .right => some r
  | _, _ => none

def Cmd.sub (c : Cmd) : Node → Option Cmd
  | [] => some c
  | t :: n => (c.child t).bind fun d => d.sub n

inductive File where
  /-- What the shell had open. -/
  | own (fd : Nat)
  | redir (n : Node)
  | readEnd (n : Node)
  | writeEnd (n : Node)
  deriving DecidableEq

abbrev NOFILE : Nat := 16

abbrev Fds := Nat → Option File

def Fds.fdalloc (o : Fds) (f : File) : Option (Nat × Fds) :=
  ((List.range NOFILE).find? fun fd => (o fd).isNone).map fun fd => (fd, update o fd (some f))

def Fds.close (o : Fds) (fd : Nat) : Fds := update o fd none

def Fds.dup (o : Fds) (fd : Nat) : Option (Nat × Fds) := (o fd).bind o.fdalloc

def Fds.pipe (o : Fds) (n : Node) : Option (Nat × Nat × Fds) :=
  (o.fdalloc (.readEnd n)).bind fun p => (p.2.fdalloc (.writeEnd n)).map fun q => (p.1, q.1, q.2)

inductive Act where
  | close (fd : Nat) (k : Act)
  | opens (r : Redir) (k : Act)
  | dup (fd : Nat) (k : Act)
  | pipe (k : Nat → Nat → Act)
  | fork1 (child parent : Act)
  | wait (k : Act)
  | runcmd (t : Turn) (c : Cmd)
  | exec (argv : List Str)
  /-- The program that `exec` has loaded. -/
  | program
  | exit (status : Nat)
  | zombie
  | reaped

def runcmd : Cmd → Act
  | .exec argv => .exec argv
  | .redir c r => .close r.fd (.opens r (.runcmd .cmd c))
  | .list l r => .fork1 (.runcmd .left l) (.wait (.runcmd .right r))
  | .pipe l r => .pipe fun p0 p1 =>
    .fork1 (.close 1 (.dup p1 (.close p0 (.close p1 (.runcmd .left l)))))
      (.fork1 (.close 0 (.dup p0 (.close p0 (.close p1 (.runcmd .right r)))))
        (.close p0 (.close p1 (.wait (.wait (.exit 0))))))
  | .back c => .fork1 (.runcmd .cmd c) (.exit 0)

structure Proc where
  /-- The node `runcmd` was called with. -/
  node : Node
  code : Act
  fds : Fds
  parent : Option Nat

/-- A process is where its call of `runcmd` is, or where the one that it makes next will be. -/
def Proc.at (p : Proc) : Node :=
  match p.code with
  | .runcmd t _ => p.node ++ [t]
  | _ => p.node

def Act.isZombie : Act → Bool
  | .zombie => true
  | _ => false

def Act.isReaped : Act → Bool
  | .reaped => true
  | _ => false

/-- A process takes a step. Its system call fails if this is possible and told, and `wait` finds the child told. -/
structure Event where
  pid : Nat
  fails : Bool
  child : Nat

def Proc.exit (p : Proc) : Proc := { p with code := .zombie, fds := fun _ => none }

/-- A step of a process that is not waiting: the process after it, and the child it has made. -/
def Proc.step (p : Proc) (pid : Nat) (fails : Bool) : Option (Proc × List Proc) :=
  match p.code with
  | .close fd k => some ({ p with code := k, fds := p.fds.close fd }, [])
  | .opens _ k =>
    -- `open` fails: the shell says so and exits
    match if fails then none else p.fds.fdalloc (.redir p.node) with
    | some (_, o) => some ({ p with code := k, fds := o }, [])
    | none => some (p.exit, [])
  | .dup fd k =>
    match p.fds.dup fd with
    | some (_, o) => some ({ p with code := k, fds := o }, [])
    | none => some ({ p with code := k }, [])
  | .pipe k =>
    match if fails then none else p.fds.pipe p.node with
    | some (p0, p1, o) => some ({ p with code := k p0 p1, fds := o }, [])
    | none => some (p.exit, [])
  | .fork1 child parent =>
    if fails then some (p.exit, []) else some ({ p with code := parent }, [{ p with code := child, parent := some pid }])
  | .runcmd t c => some ({ p with node := p.node ++ [t], code := runcmd c }, [])
  | .exec argv =>
    if argv = [] then some ({ p with code := .exit 1 }, [])
    else if fails then some ({ p with code := .exit 0 }, []) else some ({ p with code := .program }, [])
  | .exit _ => some (p.exit, [])
  | .wait _ | .program | .zombie | .reaped => none

def waits (s : List Proc) (p : Proc) (e : Event) (k : Act) : Except Stop (List Proc) :=
  if s.any fun q => q.parent = some e.pid && !q.code.isReaped then
    match s[e.child]? with
    | some q =>
      if q.parent = some e.pid ∧ q.code.isZombie then
        .ok ((s.set e.child { q with code := .reaped }).set e.pid { p with code := k })
      else .error .blocked
    | none => .error .blocked
  else .ok (s.set e.pid { p with code := k })

def next (s : List Proc) (e : Event) : Except Stop (List Proc) :=
  match s[e.pid]? with
  | none => .error .blocked
  | some p =>
    match p.code, p.step e.pid e.fails with
    | .wait k, _ => waits s p e k
    | _, some (p', new) => .ok (s.set e.pid p' ++ new)
    | _, none => .error .blocked

def start (c : Cmd) : List Proc := [⟨[], runcmd c, fun fd => if fd < 3 then some (.own fd) else none, none⟩]

/-- What the step down from the command at node `n` binds the descriptor to. -/
def binder (d : Nat) (n : Node) : Cmd → Turn → Option File
  | .redir _ r, .cmd => if d = r.fd then some (.redir n) else none
  | .pipe _ _, .left => if d = 1 then some (.writeEnd n) else none
  | .pipe _ _, .right => if d = 0 then some (.readEnd n) else none
  | _, _ => none

/-- The redirections of the descriptor and the pipe ends that are bound to it on the way down, outermost first. -/
def binders (d : Nat) (c : Cmd) (n : Node) : Node → List File
  | [] => []
  | t :: w => (binder d n c t).toList ++ (c.child t).elim [] fun c' => binders d c' (n ++ [t]) w

def File.isRedir : File → Bool
  | .redir _ => true
  | _ => false

/-- The innermost redirection of the descriptor below the nearest side of a pipe that binds it, else the end of that pipe, else
what the shell has. -/
def bound (root : Cmd) (n : Node) (d : Nat) : File :=
  let up := (binders d root [] n).reverse
  (((up.takeWhile File.isRedir).head?).or ((up.dropWhile File.isRedir).head?)).getD (.own d)

def table (root : Cmd) (n : Node) : Fds := fun fd => if fd < 3 then some (bound root n fd) else none

def Cmd.Std : Cmd → Prop
  | .exec _ => True
  | .redir c r => r.fd < 3 ∧ c.Std
  | .pipe l r => l.Std ∧ r.Std
  | .list l r => l.Std ∧ r.Std
  | .back c => c.Std

variable {root c c' : Cmd} {n w : Node} {t : Turn} {d fd : Nat} {o : Fds} {f : File} {p q : Proc} {s s' : List Proc}
  {e : Event} {m : Node} {rs : List Redir}

theorem sub_append (h : c.sub n = some c') : c.sub (n ++ [t]) = c'.child t := by
  induction n generalizing c with
  | nil =>
    cases h
    cases ht : c'.child t <;> simp [Cmd.sub, ht]
  | cons u n ih =>
    obtain ⟨e, he, hs⟩ := Option.bind_eq_some_iff.1 h
    rw [List.cons_append, Cmd.sub, he]
    exact ih hs

theorem binders_append (h : c.sub w = some c') : binders d c n (w ++ [t]) = binders d c n w ++ (binder d (n ++ w) c' t).toList := by
  induction w generalizing c n with
  | nil =>
    cases h
    rw [List.nil_append, binders, List.append_nil, binders, List.nil_append]
    cases c'.child t <;> simp [binders]
  | cons u w ih =>
    obtain ⟨e, he, hs⟩ := Option.bind_eq_some_iff.1 h
    rw [List.cons_append, binders, he, Option.elim_some, ih hs, binders, he, Option.elim_some, List.append_assoc, List.append_assoc]
    rfl

theorem bound_eq (root : Cmd) (n : Node) (d : Nat) : bound root n d = ((binders d root [] n).reverse.head?).getD (.own d) := by
  unfold bound
  rcases (binders d root [] n).reverse with _ | ⟨f, up⟩
  · rfl
  · cases hf : f.isRedir <;> simp [hf]

theorem bound_append (h : root.sub n = some c) : bound root (n ++ [t]) d = (binder d n c t).getD (bound root n d) := by
  rw [bound_eq, bound_eq, binders_append h, List.nil_append]
  cases binder d n c t <;> simp

theorem mem_binders (h : f ∈ binders d c n w) : (∀ m, f = .writeEnd m → m ++ [.left] <+: n ++ w) ∧
    ∀ m, f = .readEnd m → m ++ [.right] <+: n ++ w := by
  induction w generalizing c n with
  | nil => cases h
  | cons t w ih =>
    rw [binders, List.mem_append] at h
    rcases h with h | h
    · have hpre : n ++ [t] <+: n ++ t :: w := ⟨w, by simp⟩
      cases c <;> cases t <;> simp only [binder, Option.mem_toList] at h <;> (try cases h) <;> split at h <;> cases h <;>
        exact ⟨fun m hm => by cases hm <;> exact hpre, fun m hm => by cases hm <;> exact hpre⟩
    · cases hc : c.child t with
      | none => rw [hc] at h; cases h
      | some c' =>
        rw [hc] at h
        have := ih h
        rwa [List.append_assoc] at this

theorem bound_end (root : Cmd) (n : Node) (d : Nat) : (∀ m, bound root n d = .writeEnd m → m ++ [.left] <+: n) ∧
    ∀ m, bound root n d = .readEnd m → m ++ [.right] <+: n := by
  rw [bound_eq]
  cases hb : (binders d root [] n).reverse.head? with
  | none => exact ⟨nofun, nofun⟩
  | some f => exact mem_binders (List.mem_reverse.1 (List.mem_of_mem_head? hb))

def Act.pending : Act → Bool
  | .close _ _ | .opens _ _ | .dup _ _ | .pipe _ | .fork1 _ _ => true
  | _ => false

/-- The rest of a call of `runcmd` at node `n` is run with a table such that each call of `runcmd` that it makes, and each other
point at which it does not move descriptors, finds the table of the node. -/
def Safe (root : Cmd) (n : Node) : Act → Fds → Prop
  | .close fd k, o => Safe root n k (o.close fd)
  | .opens _ k, o => ∀ r, o.fdalloc (.redir n) = some r → Safe root n k r.2
  | .dup fd k, o => ∃ r, o.dup fd = some r ∧ Safe root n k r.2
  | .pipe k, o => ∀ r, o.pipe n = some r → Safe root n (k r.1 r.2.1) r.2.2
  | .fork1 child parent, o => Safe root n child o ∧ Safe root n parent o
  | .wait k, o => o = table root n ∧ Safe root n k o
  | .runcmd t c, o => root.sub (n ++ [t]) = some c ∧ c.Std ∧ o = table root (n ++ [t])
  | .exec argv, o => root.sub n = some (.exec argv) ∧ o = table root n
  | .program, o => o = table root n
  | .exit _, o => o = table root n
  | .zombie, o => o = fun _ => none
  | .reaped, o => o = fun _ => none

/-- All files that the process holds have been opened at its node or above. -/
def Known (root : Cmd) (n : Node) (o : Fds) : Prop :=
  ∀ fd f, o fd = some f → (∃ d, f = bound root n d) ∨ f = .redir n ∨ f = .readEnd n ∨ f = .writeEnd n

structure Good (root : Cmd) (p : Proc) : Prop where
  known : Known root p.node p.fds
  safe : Safe root p.node p.code p.fds

theorem fdalloc_eq (hlt : fd < NOFILE) (hfree : o fd = none) (h : ∀ i < fd, (o i).isSome) (f : File) :
    o.fdalloc f = some (fd, update o fd (some f)) := by
  have : (List.range NOFILE).find? (fun fd => (o fd).isNone) = some fd := by
    rw [List.find?_range_eq_some]
    refine ⟨by rw [hfree]; rfl, List.mem_range.2 hlt, fun j hj => ?_⟩
    have := h j hj
    cases hj : o j <;> simp_all
  rw [Fds.fdalloc, this]
  rfl

theorem table_same (h : root.sub n = some c) (hb : ∀ d, binder d n c t = none) : table root (n ++ [t]) = table root n := by
  funext fd
  unfold table
  rw [bound_append h, hb]
  rfl

theorem table_bound (h : root.sub n = some c) (hlt : fd < 3) (hb : ∀ d, binder d n c t = if d = fd then some f else none) :
    table root (n ++ [t]) = update (table root n) fd (some f) := by
  funext d
  rw [update_apply]
  unfold table
  rw [bound_append h, hb]
  by_cases hd : d = fd
  · rw [if_pos hd, if_pos hd, if_pos (by omega)]
    rfl
  · rw [if_neg hd, if_neg hd]
    rfl

theorem table_some (hlt : fd < 3) : (table root n fd).isSome := by
  unfold table
  rw [if_pos hlt]
  rfl

theorem table_none (hle : 3 ≤ fd) : table root n fd = none := by
  unfold table
  rw [if_neg (by omega)]

theorem fdalloc_close (hlt : fd < 3) (ho : ∀ i < 3, (o i).isSome) (f : File) :
    (o.close fd).fdalloc f = some (fd, update o fd (some f)) := by
  have hfree : o.close fd fd = none := Function.update_self ..
  have hused : ∀ i < fd, (o.close fd i).isSome := by
    intro i hi
    rw [Fds.close, update_of_ne (by omega)]
    exact ho i (by omega)
  rw [fdalloc_eq (by lia) hfree hused, Fds.close, Function.update_idem]

def piped (root : Cmd) (n : Node) : Fds :=
  update (update (table root n) 3 (some (.readEnd n))) 4 (some (.writeEnd n))

theorem piped_lt (hlt : fd < 3) : piped root n fd = table root n fd := by
  unfold piped
  rw [update_of_ne (by omega), update_of_ne (by omega)]

theorem table_pipe : (table root n).pipe n = some (3, 4, piped root n) := by
  have hthree : table root n 3 = none := table_none (by omega)
  have h1 := fdalloc_eq (by decide) hthree (fun i hi => table_some hi) (.readEnd n)
  have hfour : update (table root n) 3 (some (.readEnd n)) 4 = none := by
    rw [update_of_ne (by omega), table_none (by omega)]
  have h2 := fdalloc_eq (by decide) hfour (fun i hi => by
      by_cases h3 : i = 3
      · rw [h3, Function.update_self]
        rfl
      · rw [update_of_ne h3]
        exact table_some (by omega)) (.writeEnd n)
  rw [Fds.pipe, h1, Option.bind_some, h2]
  rfl

theorem close_ends (h : ∀ i, i < 3 ∨ 4 < i → o i = table root n i) : (o.close 3).close 4 = table root n := by
  funext i
  simp only [Fds.close, update_apply]
  split_ifs with h1 h2
  · rw [table_none (by omega)]
  · rw [table_none (by omega)]
  · exact h i (by omega)

theorem piped_close : ((piped root n).close 3).close 4 = table root n := by
  refine close_ends fun i hi => ?_
  unfold piped
  rw [update_of_ne (by omega), update_of_ne (by omega)]

theorem side_safe (h : root.sub n = some c) (ht : c.child t = some c') (hc : c'.Std) (hlt : fd < 3) {e : Nat} (he : 3 ≤ e)
    (hf : piped root n e = some f) (hb : ∀ d, binder d n c t = if d = fd then some f else none) :
    Safe root n (.close fd (.dup e (.close 3 (.close 4 (.runcmd t c'))))) (piped root n) := by
  have hdup : ((piped root n).close fd).dup e = some (fd, update (piped root n) fd (some f)) := by
    rw [Fds.dup, Fds.close, update_of_ne (by omega), hf]
    exact fdalloc_close hlt (fun i hi => piped_lt hi ▸ table_some hi) f
  refine ⟨_, hdup, (sub_append h).trans ht, hc, close_ends fun i hi => ?_⟩
  rw [table_bound h hlt hb]
  simp only [update_apply, piped, if_neg (show i ≠ 3 by omega), if_neg (show i ≠ 4 by omega)]

theorem runcmd_safe (h : root.sub n = some c) (hc : c.Std) : Safe root n (runcmd c) (table root n) := by
  cases c with
  | exec argv => exact ⟨h, rfl⟩
  | redir c r =>
    intro x hx
    rw [fdalloc_close hc.1 (fun i hi => table_some hi)] at hx
    cases hx
    exact ⟨sub_append h, hc.2, (table_bound h hc.1 fun d => rfl).symm⟩
  | list l r =>
    exact ⟨⟨sub_append h, hc.1, (table_same h fun d => rfl).symm⟩, rfl, sub_append h, hc.2, (table_same h fun d => rfl).symm⟩
  | pipe l r =>
    intro x hx
    rw [table_pipe] at hx
    cases hx
    exact ⟨side_safe (e := 4) h rfl hc.1 (by omega) (by omega) rfl fun d => rfl,
      side_safe (e := 3) h rfl hc.2 (by omega) (by omega) rfl fun d => rfl, piped_close, piped_close, piped_close⟩
  | back c => exact ⟨⟨sub_append h, hc, (table_same h fun d => rfl).symm⟩, rfl⟩

theorem known_table : Known root n (table root n) := by
  intro fd f hf
  unfold table at hf
  split at hf
  · exact .inl ⟨fd, (Option.some.inj hf).symm⟩
  · cases hf

theorem Known.setFile (h : Known root n o) {x : Option File}
    (hx : ∀ f, x = some f → (∃ d, f = bound root n d) ∨ f = .redir n ∨ f = .readEnd n ∨ f = .writeEnd n) :
    Known root n (update o fd x) := by
  intro i f hf
  rw [update_apply] at hf
  split at hf
  · exact hx f hf
  · exact h i f hf

theorem Known.fdalloc {r : Nat × Fds} (h : Known root n o) (hr : o.fdalloc f = some r)
    (hf : (∃ d, f = bound root n d) ∨ f = .redir n ∨ f = .readEnd n ∨ f = .writeEnd n) : Known root n r.2 := by
  obtain ⟨fd, -, rfl⟩ := Option.map_eq_some_iff.1 hr
  exact h.setFile fun g hg => Option.some.inj hg ▸ hf

theorem good_exit (root : Cmd) (p : Proc) : Good root p.exit := ⟨fun _ _ h => (by cases h), rfl⟩

theorem Good.step {pid : Nat} {fails : Bool} {new : List Proc} (h : Good root p) (hs : p.step pid fails = some (q, new)) :
    ∀ x ∈ q :: new, Good root x := by
  obtain ⟨node, code, fds, parent⟩ := p
  obtain ⟨hK, hS⟩ := h
  dsimp only at hK hS
  rw [Proc.step] at hs
  cases code <;> dsimp only at hs
  case close fd k =>
    cases hs
    exact List.forall_mem_singleton.2 ⟨hK.setFile nofun, hS⟩
  case opens r k =>
    split at hs
    · rename_i x o heq
      cases hs
      split at heq
      · cases heq
      · exact List.forall_mem_singleton.2 ⟨hK.fdalloc heq (.inr (.inl rfl)), hS _ heq⟩
    · cases hs
      exact List.forall_mem_singleton.2 (good_exit ..)
  case dup fd k =>
    obtain ⟨r, hr, hS⟩ := hS
    rw [hr] at hs
    cases hs
    obtain ⟨f, hf, hr⟩ := Option.bind_eq_some_iff.1 hr
    exact List.forall_mem_singleton.2 ⟨hK.fdalloc hr (hK fd f hf), hS⟩
  case pipe k =>
    split at hs
    · rename_i p0 p1 o heq
      cases hs
      split at heq
      · cases heq
      · have hsafe := hS _ heq
        obtain ⟨x, hx, hy⟩ := Option.bind_eq_some_iff.1 heq
        obtain ⟨y, hz, heq⟩ := Option.map_eq_some_iff.1 hy
        cases heq
        exact List.forall_mem_singleton.2
          ⟨(hK.fdalloc hx (.inr (.inr (.inl rfl)))).fdalloc hz (.inr (.inr (.inr rfl))), hsafe⟩
    · cases hs
      exact List.forall_mem_singleton.2 (good_exit ..)
  case fork1 child parent =>
    split at hs
    · cases hs
      exact List.forall_mem_singleton.2 (good_exit ..)
    · cases hs
      exact List.forall_mem_cons.2 ⟨⟨hK, hS.2⟩, List.forall_mem_singleton.2 ⟨hK, hS.1⟩⟩
  case runcmd t c =>
    cases hs
    obtain ⟨hsub, hc, rfl⟩ := hS
    exact List.forall_mem_singleton.2 ⟨known_table, runcmd_safe hsub hc⟩
  case exec argv =>
    split_ifs at hs <;> cases hs <;> exact List.forall_mem_singleton.2 ⟨hK, hS.2⟩
  case exit =>
    cases hs
    exact List.forall_mem_singleton.2 (good_exit ..)
  all_goals cases hs

theorem good_set (h : ∀ p ∈ s, Good root p) (hq : Good root q) (i : Nat) : ∀ p ∈ s.set i q, Good root p := by
  intro p hp
  rcases List.mem_or_eq_of_mem_set hp with hp | rfl
  · exact h p hp
  · exact hq

theorem good_waits {k : Act} (h : ∀ p ∈ s, Good root p) (hp : p ∈ s) (hk : p.code = .wait k)
    (hn : waits s p e k = .ok s') : ∀ p ∈ s', Good root p := by
  have hgood : Good root { p with code := k } := by
    obtain ⟨hK, hS⟩ := h p hp
    rw [hk] at hS
    exact ⟨hK, hS.2⟩
  unfold waits at hn
  split at hn
  · split at hn
    · rename_i q hq
      split at hn
      · rename_i hz
        cases hn
        obtain ⟨hK, hS⟩ := h q (List.mem_of_getElem? hq)
        refine good_set (good_set h (q := { q with code := .reaped }) ⟨hK, ?_⟩ _) hgood _
        -- a process that has exited has no open files
        obtain ⟨node, code, fds, parent⟩ := q
        cases code <;> first | exact hS | cases hz.2
      · cases hn
    · cases hn
  · cases hn
    exact good_set h hgood _

theorem good_next (h : ∀ p ∈ s, Good root p) (hn : next s e = .ok s') : ∀ p ∈ s', Good root p := by
  unfold next at hn
  split at hn
  · cases hn
  · rename_i p hp
    have hmem := List.mem_of_getElem? hp
    split at hn
    · exact good_waits h hmem (by assumption) hn
    · rename_i q new hs _
      cases hn
      have hgood := List.forall_mem_cons.1 ((h p hmem).step hs)
      exact List.forall_mem_append.2 ⟨good_set h hgood.1 _, hgood.2⟩
    · cases hn

theorem good_start (h : c.Std) : ∀ p ∈ start c, Good c p := by
  have htable : table c [] = fun fd => if fd < 3 then some (.own fd) else none := rfl
  refine List.forall_mem_singleton.2 ⟨?_, ?_⟩
  · exact htable ▸ known_table
  · exact htable ▸ runcmd_safe rfl h

theorem table_end : (table root n fd = some (.writeEnd m) → m ++ [.left] <+: n) ∧
    (table root n fd = some (.readEnd m) → m ++ [.right] <+: n) := by
  unfold table
  split
  · exact ⟨fun h => (bound_end root n fd).1 m (Option.some.inj h), fun h => (bound_end root n fd).2 m (Option.some.inj h)⟩
  · exact ⟨nofun, nofun⟩

theorem Good.ends (h : Good root p) (hm : p.node = m → p.code.pending = false) :
    (p.fds fd = some (.writeEnd m) → m ++ [.left] <+: p.at) ∧ (p.fds fd = some (.readEnd m) → m ++ [.right] <+: p.at) := by
  obtain ⟨node, code, fds, parent⟩ := p
  obtain ⟨hK, hS⟩ := h
  -- in between, the ends of the pipe of the node itself are held as well
  have hpending : code.pending = true → (fds fd = some (.writeEnd m) → m ++ [.left] <+: node) ∧
      (fds fd = some (.readEnd m) → m ++ [.right] <+: node) := by
    intro hp
    have hne : node ≠ m := fun heq => Bool.false_ne_true ((hm heq).symm.trans hp)
    constructor <;> intro hf <;> rcases hK fd _ hf with ⟨d, hd⟩ | hd | hd | hd
    · exact (bound_end root node d).1 m hd.symm
    · cases hd
    · cases hd
    · exact absurd (File.writeEnd.inj hd).symm hne
    · exact (bound_end root node d).2 m hd.symm
    · cases hd
    · exact absurd (File.readEnd.inj hd).symm hne
    · cases hd
  dsimp only at hS ⊢
  cases code
  case close | opens | dup | pipe | fork1 => exact hpending rfl
  case wait => exact hS.1 ▸ table_end
  case runcmd => exact hS.2.2 ▸ table_end
  case exec => exact hS.2 ▸ table_end
  case program | exit => exact hS ▸ table_end
  case zombie | reaped =>
    have hS : fds = fun _ => none := hS
    exact hS ▸ ⟨nofun, nofun⟩

theorem redirs_std {rt : List Token} (h : Redirs rt rs) : ∀ r ∈ rs, r.fd < 3 := by
  induction h with
  | nil => exact fun r hr => (by cases hr)
  | cons ho _ ih =>
    refine List.forall_mem_append.2 ⟨?_, ih⟩
    rcases ho with ho | ho | ho <;> rw [ho] <;> simp [redirOf]

theorem words_std {wt : List Token} {ws : List Str} {new : List Redir} (h : Words wt ws new) : ∀ r ∈ new, r.fd < 3 := by
  induction h with
  | nil => exact fun r hr => (by cases hr)
  | cons hr _ ih => exact List.forall_mem_append.2 ⟨redirs_std hr, ih⟩

theorem wrap_std (hc : c.Std) (h : ∀ r ∈ rs, r.fd < 3) : (wrap c rs).Std := by
  induction rs generalizing c with
  | nil => exact hc
  | cons r rs ih => exact ih (c := .redir c r) ⟨h r (List.mem_cons_self ..), hc⟩ fun r' hr => h r' (List.mem_cons_of_mem r hr)

theorem backs_std (h : c.Std) (k : Nat) : (Cmd.back^[k] c).Std := by
  induction k generalizing c with
  | zero => exact h
  | succ k ih => exact ih (c := .back c) h

theorem Derives.std {x : Nonterminal} {ts : List Token} (h : Derives x ts c) : c.Std := by
  induction h with
  | line _ _ ih => exact backs_std ih _
  | lines _ _ _ _ ih ih' => exact ⟨backs_std ih _, ih'⟩
  | pipe _ ih => exact ih
  | pipes _ _ _ ih ih' => exact ⟨ih, ih'⟩
  | block _ _ _ hrs ih => exact wrap_std ih (redirs_std hrs)
  | simple hrs hws _ => exact wrap_std trivial (List.forall_mem_append.2 ⟨redirs_std hrs, words_std hws⟩)

/-- In every run, a process that reaches an `EXEC` leaf has exactly descriptors 0, 1 and 2 open, bound as the way to the leaf says;
and when no process has calls left to make in which a `PIPE` node moves descriptors, the ends of its pipe are held in their
own subtrees only. -/
theorem runcmd_plumbing : (∀ line c, parsecmd line = .ok c → c.Std) ∧
    ∀ {root : Cmd} {es : List Event} {s : List Proc}, root.Std → run next (start root) es = .ok s →
      (∀ p ∈ s, ∀ argv, p.code = .exec argv → root.sub p.node = some (.exec argv) ∧
        ∀ fd, p.fds fd = if fd < 3 then some (bound root p.node fd) else none) ∧
      ∀ m, (∀ p ∈ s, p.node = m → p.code.pending = false) → ∀ p ∈ s, ∀ fd,
        (p.fds fd = some (.writeEnd m) → m ++ [.left] <+: p.at) ∧ (p.fds fd = some (.readEnd m) → m ++ [.right] <+: p.at) := by
  refine ⟨fun _ _ h => (parsecmd_derives h).std, fun {root es s} hstd hrun => ?_⟩
  have hgood : ∀ p ∈ s, Good root p :=
    Run.run_induct (I := fun s => ∀ p ∈ s, Good root p) (fun _ _ _ _ hn h => good_next h hn) Run.along_true hrun (good_start hstd)
  refine ⟨fun p hp argv hcode => ?_, fun m hm p hp fd => (hgood p hp).ends (hm p hp)⟩
  have hS := (hgood p hp).safe
  rw [hcode] at hS
  exact ⟨hS.1, fun fd => congrFun hS.2 fd⟩

def pipedCmd : Cmd := .pipe (.exec [[97]]) (.redir (.exec [[98]]) ⟨[102], O_WRONLY ||| O_CREATE ||| O_TRUNC, 1⟩)

theorem runcmd_plumbing_piped : ∃ s, run next (start pipedCmd) ([0, 0, 0, 2, 2, 2, 2, 2, 2, 2, 2].map fun i => ⟨i, false, 0⟩) = .ok s ∧
    ∃ p ∈ s, p.node = [.right, .cmd] ∧ p.fds 0 = some (.readEnd []) ∧ p.fds 1 = some (.redir [.right]) ∧ p.fds 4 = none := by
  have hstd : pipedCmd.Std := by simp [pipedCmd, Cmd.Std]
  obtain ⟨s, hrun, p, hp, hnode, hcode⟩ : ∃ s, run next (start pipedCmd) ([0, 0, 0, 2, 2, 2, 2, 2, 2, 2, 2].map fun i => ⟨i, false, 0⟩) =
      .ok s ∧ ∃ p ∈ s, p.node = [.right, .cmd] ∧ p.code = .exec [[98]] :=
    ⟨_, rfl, _, List.mem_cons_of_mem _ (List.mem_cons_of_mem _ (List.mem_cons_self ..)), rfl, rfl⟩
  have h := ((runcmd_plumbing.2 hstd hrun).1 p hp _ hcode).2
  rw [hnode] at h
  exact ⟨s, hrun, p, hp, hnode, h 0, h 1, h 4⟩

end Xv6.Sh
