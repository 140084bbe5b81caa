import Xv6.Descriptors

/-!
# `runcmd`: the descriptors of a pipeline

The `PIPE` case of `runcmd` in `sh.c`.  The shell makes a pipe, forks a
left child and a right child, and closes both descriptors `pipe` returned;
the left child makes the write end its standard output and the right child
the read end its standard input, each then closing both descriptors, before
each runs its side of the pipeline.  The three processes run at once, so
their calls interleave in any order: `PipeRun` records how far each has
come, and `PipeStep` lets any of them make its next call, or the scheduler
or any process move the process table alone.  The `panic`s of `pipe` and
`fork1` end the case and are left out.

Each process's table depends on its own calls only (`Frame`), and no call
faults while the counts balance, so at every step each table is what its
own calls have made of the table it started with (`PipeInv`).  When all
three are done, the shell's table is the one it had before the pipe, the
left child's is that table with descriptor 1 on the write end, the right
child's is that table with descriptor 0 on the read end, and no other
descriptor in the system names either end: once the left child exits, the
right child reads end of file.  This needs the shell's descriptors 0 and 1
open, as `main` makes sure before it reads a command.
-/

namespace Xv6.Sh

open Files Procs

/-! ## The calls of each process -/

/-- The left child, before `runcmd(pcmd->left)`. -/
def pipeLeft (p : Int × Int) : List FdCall := [.close 1, .dup p.2, .close p.1, .close p.2]

/-- The right child, before `runcmd(pcmd->right)`. -/
def pipeRight (p : Int × Int) : List FdCall := [.close 0, .dup p.1, .close p.1, .close p.2]

/-- The shell, after its two `fork1`s and before its `wait`s. -/
def pipeParent (p : Int × Int) : List FdCall := [.close p.1, .close p.2]

/-- The `PIPE` case from the return of `pipe(p)`: the kernel's state, the
array `p`, of which each child has a copy, the `fork1`s of the shell and the
calls it has made since, and each child, once forked, with the calls it has
made. -/
structure PipeRun where
  s : Sys
  p : Int × Int
  forks : Nat
  closes : Nat
  left : Option (Procs.Slot × Nat)
  right : Option (Procs.Slot × Nat)

/-- One step of the case, by the shell `sh`, one of its children, or any
process moving the process table alone. -/
inductive PipeStep (sh : Procs.Slot) : PipeRun → PipeRun → Prop
  | forkLeft {r : PipeRun} {pt : PTable} {np : Procs.Slot} {s' : Sys} {pid : Int}
      (hf : r.forks = 0) (hc : (r.s.pt.proc sh).state = .running)
      (halloc : allocproc r.s.pt = some (pt, np)) (h : fork r.s sh true = .ok (s', pid)) :
      PipeStep sh r { r with s := s', forks := 1, left := some (np, 0) }
  | forkRight {r : PipeRun} {pt : PTable} {np : Procs.Slot} {s' : Sys} {pid : Int}
      (hf : r.forks = 1) (hc : (r.s.pt.proc sh).state = .running)
      (halloc : allocproc r.s.pt = some (pt, np)) (h : fork r.s sh true = .ok (s', pid)) :
      PipeStep sh r { r with s := s', forks := 2, right := some (np, 0) }
  | parent {r : PipeRun} {call : FdCall} {s' : Sys} {x : Int}
      (hf : r.forks = 2) (hcall : (pipeParent r.p)[r.closes]? = some call)
      (hc : (r.s.pt.proc sh).state = .running) (h : call.run r.s sh = .ok (s', x)) :
      PipeStep sh r { r with s := s', closes := r.closes + 1 }
  | left {r : PipeRun} {L : Procs.Slot} {k : Nat} {call : FdCall} {s' : Sys} {x : Int}
      (hl : r.left = some (L, k)) (hcall : (pipeLeft r.p)[k]? = some call)
      (hc : (r.s.pt.proc L).state = .running) (h : call.run r.s L = .ok (s', x)) :
      PipeStep sh r { r with s := s', left := some (L, k + 1) }
  | right {r : PipeRun} {R : Procs.Slot} {k : Nat} {call : FdCall} {s' : Sys} {x : Int}
      (hr : r.right = some (R, k)) (hcall : (pipeRight r.p)[k]? = some call)
      (hc : (r.s.pt.proc R).state = .running) (h : call.run r.s R = .ok (s', x)) :
      PipeStep sh r { r with s := s', right := some (R, k + 1) }
  | other {r : PipeRun} {s' : Sys} (h : Step r.s s') (hpt : s' = { r.s with pt := s'.pt }) :
      PipeStep sh r { r with s := s' }

/-- The runs of the case begun by `pipe(p)` of the running shell `sh` in
`s₀`; `p` holds the descriptors `sys_pipe` allocated, the lowest free one
for the read end and the next for the write end. -/
inductive PipeReach (sh : Procs.Slot) (s₀ : Sys) : PipeRun → Prop
  | start {s : Sys} {page : Option (Nat → UInt8)} {fd0 fd1 : Fd}
      (hc : (s₀.pt.proc sh).state = .running) (h : sysPipe s₀ sh true page = .ok (s, 0))
      (h0 : lowestFree (s₀.ofile sh) = some fd0)
      (h1 : lowestFree (Function.update (s₀.ofile sh) fd0 (s.ofile sh fd0)) = some fd1) :
      PipeReach sh s₀ ⟨s, (((fd0 : Nat) : Int), ((fd1 : Nat) : Int)), 0, 0, none, none⟩
  | step {r r' : PipeRun} : PipeReach sh s₀ r → PipeStep sh r r' → PipeReach sh s₀ r'

/-- All three are through their calls. -/
def PipeRun.Done (r : PipeRun) : Prop :=
  r.closes = 2 ∧ (∃ L, r.left = some (L, 4)) ∧ ∃ R, r.right = some (R, 4)

/-! ## The tables along the way -/

/-- The descriptors `pipe` returned, above the standard input and output. -/
structure PipeFds (fd0 fd1 : Fd) : Prop where
  ne : fd0 ≠ fd1
  fd0_ne_zero : fd0 ≠ 0
  fd0_ne_one : fd0 ≠ 1
  fd1_ne_zero : fd1 ≠ 0
  fd1_ne_one : fd1 ≠ 1

/-- The shell's table once `pipe` has put the read file at `fd0` and the
write file at `fd1`. -/
def piped (t : Table) (fd0 fd1 : Fd) (rf wf : FileIdx) : Table :=
  Function.update (Function.update t fd0 (some rf)) fd1 (some wf)

/-- The shell's table after `k` of its closes, from `t`. -/
def parentAt (t : Table) (fd0 fd1 : Fd) : Nat → Table
  | 0 => t
  | 1 => Function.update t fd0 none
  | _ => Function.update (Function.update t fd0 none) fd1 none

/-- The left child's table after `k` of its calls, from `t`. -/
def leftAt (t : Table) (fd0 fd1 : Fd) : Nat → Table
  | 0 => t
  | 1 => Function.update t 1 none
  | 2 => Function.update t 1 (t fd1)
  | 3 => Function.update (Function.update t 1 (t fd1)) fd0 none
  | _ => Function.update (Function.update (Function.update t 1 (t fd1)) fd0 none) fd1 none

/-- The right child's table after `k` of its calls, from `t`. -/
def rightAt (t : Table) (fd0 fd1 : Fd) : Nat → Table
  | 0 => t
  | 1 => Function.update t 0 none
  | 2 => Function.update t 0 (t fd0)
  | 3 => Function.update (Function.update t 0 (t fd0)) fd0 none
  | _ => Function.update (Function.update (Function.update t 0 (t fd0)) fd0 none) fd1 none

section Tables

variable {t : Table} {fd0 fd1 : Fd} {k : Nat} {call : FdCall}

theorem parentAt_step (hk : (pipeParent (((fd0 : Nat) : Int), ((fd1 : Nat) : Int)))[k]? = some call) :
    call.apply (parentAt t fd0 fd1 k) = parentAt t fd0 fd1 (k + 1) := by
  rcases k with _ | _ | k
  · cases hk
    exact apply_close t fd0
  · cases hk
    exact apply_close _ fd1
  · simp [pipeParent] at hk

/-- Each call of the left child takes its table one step on: the `dup`
lands on descriptor 1, the lowest free one, as descriptor 0 is open. -/
theorem leftAt_step (hp : PipeFds fd0 fd1) (h0 : t 0 ≠ none) (h1 : t fd1 ≠ none)
    (hk : (pipeLeft (((fd0 : Nat) : Int), ((fd1 : Nat) : Int)))[k]? = some call) :
    call.apply (leftAt t fd0 fd1 k) = leftAt t fd0 fd1 (k + 1) := by
  rcases k with _ | _ | _ | _ | k
  · cases hk
    exact apply_close t 1
  · cases hk
    obtain ⟨wf, hwf⟩ := Option.ne_none_iff_exists'.mp h1
    have hlow : lowestFree (Function.update t 1 none) = some 1 :=
      lowestFree_update_none fun d hd => by
        obtain rfl : d = 0 := by
          rw [Fin.lt_def] at hd
          simp only [Fin.ext_iff, Fin.val_zero]
          simp only [Fin.val_one', nofile] at hd
          omega
        exact h0
    show (FdCall.dup ((fd1 : Nat) : Int)).apply (Function.update t 1 none) = Function.update t 1 (t fd1)
    rw [apply_dup (f := wf) (by simp [hp.fd1_ne_one, hwf]) hlow, Function.update_idem, hwf]
  · cases hk
    exact apply_close _ fd0
  · cases hk
    exact apply_close _ fd1
  · simp [pipeLeft] at hk

/-- Each call of the right child takes its table one step on: the `dup`
lands on descriptor 0, just freed. -/
theorem rightAt_step (hp : PipeFds fd0 fd1) (h1 : t fd0 ≠ none)
    (hk : (pipeRight (((fd0 : Nat) : Int), ((fd1 : Nat) : Int)))[k]? = some call) :
    call.apply (rightAt t fd0 fd1 k) = rightAt t fd0 fd1 (k + 1) := by
  rcases k with _ | _ | _ | _ | k
  · cases hk
    exact apply_close t 0
  · cases hk
    obtain ⟨rf, hrf⟩ := Option.ne_none_iff_exists'.mp h1
    have hlow : lowestFree (Function.update t 0 none) = some 0 :=
      lowestFree_update_none fun d hd => absurd hd (Fin.not_lt_zero d)
    show (FdCall.dup ((fd0 : Nat) : Int)).apply (Function.update t 0 none) = Function.update t 0 (t fd0)
    rw [apply_dup (f := rf) (by simp [hp.fd0_ne_zero, hrf]) hlow, Function.update_idem, hrf]
  · cases hk
    exact apply_close _ fd0
  · cases hk
    exact apply_close _ fd1
  · simp [pipeRight] at hk

variable {rf wf : FileIdx}

theorem piped_fd0 (hp : PipeFds fd0 fd1) : piped t fd0 fd1 rf wf fd0 = some rf := by
  simp [piped, hp.ne]

theorem piped_fd1 : piped t fd0 fd1 rf wf fd1 = some wf := by
  simp [piped]

theorem piped_zero (hp : PipeFds fd0 fd1) : piped t fd0 fd1 rf wf 0 = t 0 := by
  simp [piped, hp.fd0_ne_zero.symm, hp.fd1_ne_zero.symm]

/-- The left child never touches its standard input. -/
theorem leftAt_zero (hp : PipeFds fd0 fd1) (k : Nat) : leftAt t fd0 fd1 k 0 = t 0 := by
  have h01 : (0 : Fd) ≠ 1 := by decide
  rcases k with _ | _ | _ | _ | k <;>
    simp [leftAt, h01, hp.fd0_ne_zero.symm, hp.fd1_ne_zero.symm]

/-- The left child names the write file at every step: at `p[1]` until it
closes it, at descriptor 1 from its `dup` on. -/
theorem leftAt_names (hp : PipeFds fd0 fd1) (k : Nat) : ∃ d, leftAt t fd0 fd1 k d = t fd1 := by
  rcases k with _ | _ | _ | _ | k
  · exact ⟨fd1, rfl⟩
  · exact ⟨fd1, by simp [leftAt, hp.fd1_ne_one]⟩
  · exact ⟨1, by simp [leftAt]⟩
  · exact ⟨1, by simp [leftAt, hp.fd0_ne_one.symm]⟩
  · exact ⟨1, by simp [leftAt, hp.fd0_ne_one.symm, hp.fd1_ne_one.symm]⟩

/-- The right child names the read file at every step: at `p[0]` until its
`dup`, at descriptor 0 from then on. -/
theorem rightAt_names (hp : PipeFds fd0 fd1) (k : Nat) : ∃ d, rightAt t fd0 fd1 k d = t fd0 := by
  rcases k with _ | _ | _ | _ | k
  · exact ⟨fd0, rfl⟩
  · exact ⟨fd0, by simp [rightAt, hp.fd0_ne_zero]⟩
  · exact ⟨0, by simp [rightAt]⟩
  · exact ⟨0, by simp [rightAt, hp.fd0_ne_zero.symm]⟩
  · exact ⟨0, by simp [rightAt, hp.fd0_ne_zero.symm, hp.fd1_ne_zero.symm]⟩

/-- After both closes the shell has the table it had before `pipe`. -/
theorem parentAt_done (hp : PipeFds fd0 fd1) (h0 : t fd0 = none) (h1 : t fd1 = none) :
    parentAt (piped t fd0 fd1 rf wf) fd0 fd1 2 = t := by
  funext d
  by_cases hd1 : d = fd1
  · subst hd1
    simp [parentAt, h1]
  · by_cases hd0 : d = fd0
    · subst hd0
      simp [parentAt, piped, hd1, h0]
    · simp [parentAt, piped, hd0, hd1]

/-- After its four calls the left child has the shell's first table with
descriptor 1 on the write file. -/
theorem leftAt_done (hp : PipeFds fd0 fd1) (h0 : t fd0 = none) (h1 : t fd1 = none) :
    leftAt (piped t fd0 fd1 rf wf) fd0 fd1 4 = Function.update t 1 (some wf) := by
  funext d
  by_cases hd1 : d = fd1
  · subst hd1
    simp [leftAt, hp.fd1_ne_one, h1]
  · by_cases hd0 : d = fd0
    · subst hd0
      simp [leftAt, hp.fd0_ne_one, hp.ne, h0]
    · by_cases hd : d = 1
      · subst hd
        simp [leftAt, piped, hp.fd0_ne_one.symm, hp.fd1_ne_one.symm]
      · simp [leftAt, piped, hd0, hd1, hd]

/-- After its four calls the right child has the shell's first table with
descriptor 0 on the read file. -/
theorem rightAt_done (hp : PipeFds fd0 fd1) (h0 : t fd0 = none) (h1 : t fd1 = none) :
    rightAt (piped t fd0 fd1 rf wf) fd0 fd1 4 = Function.update t 0 (some rf) := by
  funext d
  by_cases hd1 : d = fd1
  · subst hd1
    simp [rightAt, hp.fd1_ne_zero, h1]
  · by_cases hd0 : d = fd0
    · subst hd0
      simp [rightAt, hp.fd0_ne_zero, hp.ne, h0]
    · by_cases hd : d = 0
      · subst hd
        simp [rightAt, piped, hp.fd0_ne_zero.symm, hp.fd1_ne_zero.symm, hp.ne]
      · simp [rightAt, piped, hd0, hd1, hd]

end Tables

/-! ## The invariant -/

/-- What `pipe` leaves to the rest of the case: `s₀` reachable with the
shell's standard input open, the read file `rf` and the write file `wf` at
`fd0` and `fd1`, descriptors that were free and lie above the standard
output, and no descriptor naming either file before. -/
structure PipeStart (sh : Procs.Slot) (s₀ : Sys) (fd0 fd1 : Fd) (rf wf : FileIdx) : Prop where
  reach : Reachable s₀
  stdin : s₀.ofile sh 0 ≠ none
  fds : PipeFds fd0 fd1
  fd0_free : s₀.ofile sh fd0 = none
  fd1_free : s₀.ofile sh fd1 = none
  ne : rf ≠ wf
  rf_fresh : ∀ q d, s₀.ofile q d ≠ some rf
  wf_fresh : ∀ q d, s₀.ofile q d ≠ some wf

/-- The tables at a step of the case: the shell's and each child's are what
their own calls so far have made of the shell's table after `pipe`, and
every other process's is as before `pipe`. -/
structure PipeTables (sh : Procs.Slot) (s₀ : Sys) (fd0 fd1 : Fd) (rf wf : FileIdx) (r : PipeRun) :
    Prop where
  p : r.p = (((fd0 : Nat) : Int), ((fd1 : Nat) : Int))
  forks : r.forks ≤ 2
  closes : r.closes ≤ 2
  closes_after : r.closes = 0 ∨ r.forks = 2
  shell : r.s.ofile sh = parentAt (piped (s₀.ofile sh) fd0 fd1 rf wf) fd0 fd1 r.closes
  left_none : r.left = none ↔ r.forks = 0
  left : ∀ L k, r.left = some (L, k) →
    L ≠ sh ∧ k ≤ 4 ∧ r.s.ofile L = leftAt (piped (s₀.ofile sh) fd0 fd1 rf wf) fd0 fd1 k
  right_none : r.right = none ↔ r.forks ≤ 1
  right : ∀ R k, r.right = some (R, k) →
    R ≠ sh ∧ k ≤ 4 ∧ (∀ L k', r.left = some (L, k') → R ≠ L) ∧
      r.s.ofile R = rightAt (piped (s₀.ofile sh) fd0 fd1 rf wf) fd0 fd1 k
  others : ∀ q, q ≠ sh → (∀ L k, r.left = some (L, k) → q ≠ L) →
    (∀ R k, r.right = some (R, k) → q ≠ R) → r.s.ofile q = s₀.ofile q

/-- The invariant of the case: the state is reachable, the tables are as
`PipeTables` says, and the two files are still on the ends of the pipe that
`pipe` made, the next after those of `s₀`. -/
structure PipeInv (sh : Procs.Slot) (s₀ : Sys) (fd0 fd1 : Fd) (rf wf : FileIdx) (r : PipeRun) :
    Prop where
  reach : Reachable r.s
  tables : PipeTables sh s₀ fd0 fd1 rf wf r
  read_end : (r.s.ftable rf).OnEnd s₀.npipes false
  write_end : (r.s.ftable wf).OnEnd s₀.npipes true

section Run

variable {sh : Procs.Slot} {s₀ : Sys} {fd0 fd1 : Fd} {rf wf : FileIdx} {r : PipeRun}

/-- At every step some descriptor names each file: the shell until it
closes them, and after that the right child the read file and the left
child the write file. -/
theorem PipeTables.names (hs : PipeStart sh s₀ fd0 fd1 rf wf) (ht : PipeTables sh s₀ fd0 fd1 rf wf r) :
    (∃ q d, r.s.ofile q d = some rf) ∧ ∃ q d, r.s.ofile q d = some wf := by
  rcases ht.closes_after with h0 | h2
  · refine ⟨⟨sh, fd0, ?_⟩, sh, fd1, ?_⟩ <;> rw [ht.shell, h0]
    · exact piped_fd0 hs.fds
    · exact piped_fd1
  · obtain ⟨⟨L, kL⟩, hL⟩ := Option.ne_none_iff_exists'.mp (mt ht.left_none.mp (by omega))
    obtain ⟨⟨R, kR⟩, hR⟩ := Option.ne_none_iff_exists'.mp (mt ht.right_none.mp (by omega))
    obtain ⟨-, -, hLt⟩ := ht.left L kL hL
    obtain ⟨-, -, -, hRt⟩ := ht.right R kR hR
    obtain ⟨dL, hdL⟩ := leftAt_names (t := piped (s₀.ofile sh) fd0 fd1 rf wf) hs.fds kL
    obtain ⟨dR, hdR⟩ := rightAt_names (t := piped (s₀.ofile sh) fd0 fd1 rf wf) hs.fds kR
    exact ⟨⟨R, dR, by rw [hRt, hdR, piped_fd0 hs.fds]⟩, L, dL, by rw [hLt, hdL, piped_fd1]⟩

/-- New tables after a step that keeps every named file: the two files stay
on the pipe's ends, since some descriptor still names each. -/
theorem PipeInv.of_tables (hs : PipeStart sh s₀ fd0 fd1 rf wf) (hi : PipeInv sh s₀ fd0 fd1 rf wf r)
    {r' : PipeRun} (hreach : Reachable r'.s) (hk : Kept r.s r'.s)
    (ht : PipeTables sh s₀ fd0 fd1 rf wf r') : PipeInv sh s₀ fd0 fd1 rf wf r' := by
  obtain ⟨⟨q, d, hrf⟩, q', d', hwf⟩ := ht.names hs
  exact ⟨hreach, ht, (hk.onEnd hrf).mpr hi.read_end, (hk.onEnd hwf).mpr hi.write_end⟩

theorem pipe_start {s : Sys} {page : Option (Nat → UInt8)} (h₀ : Reachable s₀)
    (hin : s₀.ofile sh 0 ≠ none) (hout : s₀.ofile sh 1 ≠ none) (hc : (s₀.pt.proc sh).state = .running)
    (hpipe : sysPipe s₀ sh true page = .ok (s, 0)) (h0 : lowestFree (s₀.ofile sh) = some fd0)
    (h1 : lowestFree (Function.update (s₀.ofile sh) fd0 (s.ofile sh fd0)) = some fd1) :
    ∃ rf wf, PipeStart sh s₀ fd0 fd1 rf wf ∧
      PipeInv sh s₀ fd0 fd1 rf wf ⟨s, (((fd0 : Nat) : Int), ((fd1 : Nat) : Int)), 0, 0, none, none⟩ := by
  obtain ⟨rf, wf, e0, e1, he0, he1, hsh, hq, hz0, hz1, hne, hend₀, hend₁⟩ := sysPipe_ok hpipe
  obtain rfl : fd0 = e0 := Option.some.inj (h0.symm.trans he0)
  obtain ⟨hfree₀, hbelow₀⟩ := lowestFree_eq_some_iff.mp h0
  obtain ⟨hfree₁, hbelow₁⟩ := lowestFree_eq_some_iff.mp he1
  -- `p[1]` is another descriptor than `p[0]`, which names the read file
  have hne01 : fd0 ≠ e1 := by
    rintro rfl
    simp at hfree₁
  have hrf : s.ofile sh fd0 = some rf := by
    rw [hsh, Function.update_of_ne hne01, Function.update_self]
  rw [hrf] at h1
  obtain rfl : fd1 = e1 := Option.some.inj (h1.symm.trans he1)
  have hfd1 : s₀.ofile sh fd1 = none := by
    simpa [Function.update_of_ne hne01.symm] using hfree₁
  -- both lie above the standard input and output, which are open
  have hfds : PipeFds fd0 fd1 := by
    refine ⟨hne01, ?_, ?_, ?_, ?_⟩ <;> rintro rfl
    · exact hin hfree₀
    · exact hout hfree₀
    · exact hin hfd1
    · exact hout hfd1
  have ha := h₀.inv.acct
  refine ⟨rf, wf, ⟨h₀, hin, hfds, hfree₀, hfd1, hne, ha.not_named hz0, ha.not_named hz1⟩,
    .step h₀ (.pipe hc hpipe), ⟨rfl, Nat.zero_le 2, Nat.zero_le 2, .inl rfl, hsh, by simp, ?_, by simp, ?_, ?_⟩,
    hend₀, hend₁⟩
  · intro L k hL
    cases hL
  · intro R k hR
    cases hR
  · intro q hqsh _ _
    exact hq q hqsh

/-- The first `fork1`: the left child starts with the shell's table. -/
theorem PipeInv.fork_left (hs : PipeStart sh s₀ fd0 fd1 rf wf) (hi : PipeInv sh s₀ fd0 fd1 rf wf r)
    {pt : PTable} {np : Procs.Slot} {s' : Sys} {pid : Int} (hf : r.forks = 0)
    (hc : (r.s.pt.proc sh).state = .running) (halloc : allocproc r.s.pt = some (pt, np))
    (h : fork r.s sh true = .ok (s', pid)) :
    PipeInv sh s₀ fd0 fd1 rf wf { r with s := s', forks := 1, left := some (np, 0) } := by
  have ht := hi.tables
  have hl : r.left = none := ht.left_none.mpr hf
  have hr : r.right = none := ht.right_none.mpr (by omega)
  have hcl : r.closes = 0 := by
    rcases ht.closes_after with h0 | h2 <;> omega
  have hunused := (allocproc_spec halloc).1
  obtain ⟨hnp, hq, hrefs⟩ := fork_ofile hc (hi.reach.inv.idle np (.inl hunused)).1 halloc h
  -- `allocproc` took an unused slot, not the running shell's
  have hne : np ≠ sh := by
    rintro rfl
    rw [hunused] at hc
    cases hc
  refine hi.of_tables hs (.step hi.reach (.fork hc h)) hrefs.kept
    ⟨ht.p, show 1 ≤ 2 by omega, ht.closes, .inl hcl, ?_, by simp, ?_, by simp [hr], ?_, ?_⟩
  · show s'.ofile sh = _
    rw [hq sh hne.symm, ht.shell]
  · intro L k hL
    obtain ⟨rfl, rfl⟩ := Prod.mk.inj (Option.some.inj hL)
    refine ⟨hne, by omega, ?_⟩
    show s'.ofile np = _
    rw [hnp, ht.shell, hcl]
    rfl
  · intro R k hR
    change r.right = some (R, k) at hR
    rw [hr] at hR
    cases hR
  · intro q hqsh hqL _
    show s'.ofile q = _
    rw [hq q (hqL np 0 rfl)]
    exact ht.others q hqsh (by simp [hl]) (by simp [hr])

/-- The second `fork1`: the right child starts with the shell's table, in
a slot other than the left child's, which holds open descriptors. -/
theorem PipeInv.fork_right (hs : PipeStart sh s₀ fd0 fd1 rf wf) (hi : PipeInv sh s₀ fd0 fd1 rf wf r)
    {pt : PTable} {np : Procs.Slot} {s' : Sys} {pid : Int} (hf : r.forks = 1)
    (hc : (r.s.pt.proc sh).state = .running) (halloc : allocproc r.s.pt = some (pt, np))
    (h : fork r.s sh true = .ok (s', pid)) :
    PipeInv sh s₀ fd0 fd1 rf wf { r with s := s', forks := 2, right := some (np, 0) } := by
  have ht := hi.tables
  have hr : r.right = none := ht.right_none.mpr (by omega)
  have hcl : r.closes = 0 := by
    rcases ht.closes_after with h0 | h2 <;> omega
  obtain ⟨⟨L, kL⟩, hl⟩ := Option.ne_none_iff_exists'.mp (mt ht.left_none.mp (by omega))
  obtain ⟨hLsh, hkL, hLt⟩ := ht.left L kL hl
  have hunused := (allocproc_spec halloc).1
  obtain ⟨hnp, hq, hrefs⟩ := fork_ofile hc (hi.reach.inv.idle np (.inl hunused)).1 halloc h
  have hne : np ≠ sh := by
    rintro rfl
    rw [hunused] at hc
    cases hc
  -- the left child's standard input is open, so its slot is in use
  have hnL : np ≠ L := by
    rintro rfl
    have hnone := (hi.reach.inv.idle np (.inl hunused)).1 0
    rw [hLt, leftAt_zero hs.fds, piped_zero hs.fds] at hnone
    exact hs.stdin hnone
  refine hi.of_tables hs (.step hi.reach (.fork hc h)) hrefs.kept
    ⟨ht.p, show 2 ≤ 2 by omega, ht.closes, .inr rfl, ?_, by simp [hl], ?_, by simp, ?_, ?_⟩
  · show s'.ofile sh = _
    rw [hq sh hne.symm, ht.shell]
  · intro L' k hL'
    change r.left = some (L', k) at hL'
    obtain ⟨hL'sh, hk, hL't⟩ := ht.left L' k hL'
    refine ⟨hL'sh, hk, ?_⟩
    show s'.ofile L' = _
    rw [hl] at hL'
    obtain ⟨rfl, rfl⟩ := Prod.mk.inj (Option.some.inj hL')
    rw [hq L hnL.symm, hLt]
  · intro R k hR
    obtain ⟨rfl, rfl⟩ := Prod.mk.inj (Option.some.inj hR)
    refine ⟨hne, by omega, fun L' k' hL' => ?_, ?_⟩
    · change r.left = some (L', k') at hL'
      rw [hl] at hL'
      obtain ⟨rfl, rfl⟩ := Prod.mk.inj (Option.some.inj hL')
      exact hnL
    · show s'.ofile np = _
      rw [hnp, ht.shell, hcl]
      rfl
  · intro q hqsh hqL hqR
    show s'.ofile q = _
    rw [hq q (hqR np 0 rfl)]
    exact ht.others q hqsh hqL (by simp [hr])

/-- A close of the shell. -/
theorem PipeInv.parent_call (hs : PipeStart sh s₀ fd0 fd1 rf wf) (hi : PipeInv sh s₀ fd0 fd1 rf wf r)
    {call : FdCall} {s' : Sys} {x : Int} (hf : r.forks = 2)
    (hcall : (pipeParent r.p)[r.closes]? = some call) (hc : (r.s.pt.proc sh).state = .running)
    (h : call.run r.s sh = .ok (s', x)) :
    PipeInv sh s₀ fd0 fd1 rf wf { r with s := s', closes := r.closes + 1 } := by
  have ht := hi.tables
  obtain ⟨hreach, hown, hq, hkept⟩ := hi.reach.call hc h
  rw [ht.p] at hcall
  have hlt : r.closes < 2 := by
    simpa [pipeParent] using (List.getElem?_eq_some_iff.mp hcall).1
  refine hi.of_tables hs hreach hkept
    ⟨ht.p, ht.forks, show r.closes + 1 ≤ 2 by omega, .inr hf, ?_, ht.left_none, ?_, ht.right_none, ?_,
      ?_⟩
  · show s'.ofile sh = _
    rw [hown, ht.shell]
    exact parentAt_step hcall
  · intro L k hL
    obtain ⟨hLsh, hk, hLt⟩ := ht.left L k hL
    exact ⟨hLsh, hk, (hq L hLsh).trans hLt⟩
  · intro R k hR
    obtain ⟨hRsh, hk, hRL, hRt⟩ := ht.right R k hR
    exact ⟨hRsh, hk, hRL, (hq R hRsh).trans hRt⟩
  · intro q hqsh hqL hqR
    exact (hq q hqsh).trans (ht.others q hqsh hqL hqR)

/-- A call of the left child. -/
theorem PipeInv.left_call (hs : PipeStart sh s₀ fd0 fd1 rf wf) (hi : PipeInv sh s₀ fd0 fd1 rf wf r)
    {L : Procs.Slot} {k : Nat} {call : FdCall} {s' : Sys} {x : Int} (hl : r.left = some (L, k))
    (hcall : (pipeLeft r.p)[k]? = some call) (hc : (r.s.pt.proc L).state = .running)
    (h : call.run r.s L = .ok (s', x)) :
    PipeInv sh s₀ fd0 fd1 rf wf { r with s := s', left := some (L, k + 1) } := by
  have ht := hi.tables
  obtain ⟨hreach, hown, hq, hkept⟩ := hi.reach.call hc h
  obtain ⟨hLsh, -, hLt⟩ := ht.left L k hl
  rw [ht.p] at hcall
  have hlt : k < 4 := by
    simpa [pipeLeft] using (List.getElem?_eq_some_iff.mp hcall).1
  have hforks : r.forks ≠ 0 := fun h0 => by simp [ht.left_none.mpr h0] at hl
  refine hi.of_tables hs hreach hkept
    ⟨ht.p, ht.forks, ht.closes, ht.closes_after, ?_, by simpa using hforks, ?_, ht.right_none, ?_, ?_⟩
  · show s'.ofile sh = _
    rw [hq sh hLsh.symm, ht.shell]
  · intro L' k' hL'
    obtain ⟨rfl, rfl⟩ := Prod.mk.inj (Option.some.inj hL')
    refine ⟨hLsh, by omega, ?_⟩
    show s'.ofile L = _
    rw [hown, hLt]
    exact leftAt_step hs.fds (by rw [piped_zero hs.fds]; exact hs.stdin) (by simp [piped_fd1]) hcall
  · intro R k' hR
    obtain ⟨hRsh, hk', hRL, hRt⟩ := ht.right R k' hR
    have hRL' := hRL L k hl
    refine ⟨hRsh, hk', fun L' k'' hL' => ?_, (hq R hRL').trans hRt⟩
    obtain ⟨rfl, rfl⟩ := Prod.mk.inj (Option.some.inj hL')
    exact hRL'
  · intro q hqsh hqL hqR
    have hqL' := hqL L (k + 1) rfl
    refine (hq q hqL').trans (ht.others q hqsh (fun L' k' hL' => ?_) hqR)
    rw [hl] at hL'
    obtain ⟨rfl, rfl⟩ := Prod.mk.inj (Option.some.inj hL')
    exact hqL'

/-- A call of the right child. -/
theorem PipeInv.right_call (hs : PipeStart sh s₀ fd0 fd1 rf wf) (hi : PipeInv sh s₀ fd0 fd1 rf wf r)
    {R : Procs.Slot} {k : Nat} {call : FdCall} {s' : Sys} {x : Int} (hr : r.right = some (R, k))
    (hcall : (pipeRight r.p)[k]? = some call) (hc : (r.s.pt.proc R).state = .running)
    (h : call.run r.s R = .ok (s', x)) :
    PipeInv sh s₀ fd0 fd1 rf wf { r with s := s', right := some (R, k + 1) } := by
  have ht := hi.tables
  obtain ⟨hreach, hown, hq, hkept⟩ := hi.reach.call hc h
  obtain ⟨hRsh, -, hRL, hRt⟩ := ht.right R k hr
  rw [ht.p] at hcall
  have hlt : k < 4 := by
    simpa [pipeRight] using (List.getElem?_eq_some_iff.mp hcall).1
  have hforks : ¬r.forks ≤ 1 := fun h1 => by simp [ht.right_none.mpr h1] at hr
  refine hi.of_tables hs hreach hkept
    ⟨ht.p, ht.forks, ht.closes, ht.closes_after, ?_, ht.left_none, ?_, by simpa using hforks, ?_, ?_⟩
  · show s'.ofile sh = _
    rw [hq sh hRsh.symm, ht.shell]
  · intro L k' hL
    obtain ⟨hLsh, hk', hLt⟩ := ht.left L k' hL
    exact ⟨hLsh, hk', (hq L (hRL L k' hL).symm).trans hLt⟩
  · intro R' k' hR'
    obtain ⟨rfl, rfl⟩ := Prod.mk.inj (Option.some.inj hR')
    refine ⟨hRsh, by omega, hRL, ?_⟩
    show s'.ofile R = _
    rw [hown, hRt]
    exact rightAt_step hs.fds (by simp [piped_fd0 hs.fds]) hcall
  · intro q hqsh hqL hqR
    have hqR' := hqR R (k + 1) rfl
    refine (hq q hqR').trans (ht.others q hqsh hqL (fun R' k' hR' => ?_))
    rw [hr] at hR'
    obtain ⟨rfl, rfl⟩ := Prod.mk.inj (Option.some.inj hR')
    exact hqR'

/-- A step of any process that moves the process table alone. -/
theorem PipeInv.other_step (hi : PipeInv sh s₀ fd0 fd1 rf wf r) {s' : Sys} (h : Step r.s s')
    (hpt : s' = { r.s with pt := s'.pt }) : PipeInv sh s₀ fd0 fd1 rf wf { r with s := s' } := by
  have ht := hi.tables
  have hof : s'.ofile = r.s.ofile := by rw [hpt]
  have hft : s'.ftable = r.s.ftable := by rw [hpt]
  refine ⟨.step hi.reach h, ⟨ht.p, ht.forks, ht.closes, ht.closes_after, ?_, ht.left_none, ?_,
    ht.right_none, ?_, ?_⟩, ?_, ?_⟩
  · show s'.ofile sh = _
    rw [hof, ht.shell]
  · intro L k hL
    obtain ⟨hLsh, hk, hLt⟩ := ht.left L k hL
    exact ⟨hLsh, hk, (congrFun hof L).trans hLt⟩
  · intro R k hR
    obtain ⟨hRsh, hk, hRL, hRt⟩ := ht.right R k hR
    exact ⟨hRsh, hk, hRL, (congrFun hof R).trans hRt⟩
  · intro q hqsh hqL hqR
    exact (congrFun hof q).trans (ht.others q hqsh hqL hqR)
  · show (s'.ftable rf).OnEnd _ _
    rw [hft]
    exact hi.read_end
  · show (s'.ftable wf).OnEnd _ _
    rw [hft]
    exact hi.write_end

theorem PipeInv.step (hs : PipeStart sh s₀ fd0 fd1 rf wf) (hi : PipeInv sh s₀ fd0 fd1 rf wf r)
    {r' : PipeRun} (h : PipeStep sh r r') : PipeInv sh s₀ fd0 fd1 rf wf r' := by
  cases h with
  | forkLeft hf hc halloc h => exact hi.fork_left hs hf hc halloc h
  | forkRight hf hc halloc h => exact hi.fork_right hs hf hc halloc h
  | parent hf hcall hc h => exact hi.parent_call hs hf hcall hc h
  | left hl hcall hc h => exact hi.left_call hs hl hcall hc h
  | right hr hcall hc h => exact hi.right_call hs hr hcall hc h
  | other h hpt => exact hi.other_step h hpt

/-- The invariant holds at every step of every run of the case, whatever
the order in which the three processes and the others make their steps. -/
theorem PipeReach.inv (h₀ : Reachable s₀) (hin : s₀.ofile sh 0 ≠ none) (hout : s₀.ofile sh 1 ≠ none)
    (h : PipeReach sh s₀ r) :
    ∃ fd0 fd1 rf wf, PipeStart sh s₀ fd0 fd1 rf wf ∧ PipeInv sh s₀ fd0 fd1 rf wf r := by
  induction h with
  | start hc hpipe h0 h1 =>
    obtain ⟨rf, wf, hs, hi⟩ := pipe_start h₀ hin hout hc hpipe h0 h1
    exact ⟨_, _, rf, wf, hs, hi⟩
  | step _ hstep ih =>
    obtain ⟨fd0, fd1, rf, wf, hs, hi⟩ := ih
    exact ⟨fd0, fd1, rf, wf, hs, hi.step hs hstep⟩

/-! ## The case runs to its end -/

/-- Every step of the case is a step of the kernel. -/
theorem PipeStep.kernel {r' : PipeRun} (h : PipeStep sh r r') : Step r.s r'.s := by
  cases h with
  | forkLeft _ hc _ h => exact .fork hc h
  | forkRight _ hc _ h => exact .fork hc h
  | parent _ _ hc h => exact FdCall.step hc h
  | left _ _ hc h => exact FdCall.step hc h
  | right _ _ hc h => exact FdCall.step hc h
  | other h _ => exact h

theorem PipeReach.reachable (h₀ : Reachable s₀) (h : PipeReach sh s₀ r) : Reachable r.s := by
  induction h with
  | start hc hpipe _ _ => exact .step h₀ (.pipe hc hpipe)
  | step _ hstep ih => exact .step ih hstep.kernel

/-- A running left child makes all its remaining calls, none of which
faults, and moves nothing of the process table. -/
theorem PipeReach.left_finish (h₀ : Reachable s₀) {L : Procs.Slot} (n : Nat) :
    ∀ k r, k + n = 4 → PipeReach sh s₀ r → r.left = some (L, k) → (r.s.pt.proc L).state = .running →
      ∃ r', PipeReach sh s₀ r' ∧ r'.left = some (L, 4) ∧ r'.s.pt = r.s.pt ∧ r'.forks = r.forks ∧
        r'.closes = r.closes ∧ r'.right = r.right := by
  induction n with
  | zero =>
    intro k r hk h hl _
    exact ⟨r, h, by rw [hl, show k = 4 by omega], rfl, rfl, rfl, rfl⟩
  | succ n ih =>
    intro k r hk h hl hc
    obtain ⟨call, hcall⟩ : ∃ call, (pipeLeft r.p)[k]? = some call :=
      Option.isSome_iff_exists.mp (by simp [pipeLeft]; omega)
    have ha := (h.reachable h₀).inv.acct
    obtain ⟨s', x, hrun⟩ := FdCall.run_ok (c := L) ha call
    have hpt : s'.pt = r.s.pt := (FdCall.run_acct ha hrun).2.pt
    obtain ⟨r', h', hl', hpt', hf, hcl, hr⟩ := ih (k + 1) { r with s := s', left := some (L, k + 1) }
      (by omega) (.step h (.left hl hcall hc hrun)) rfl (by simpa [hpt] using hc)
    exact ⟨r', h', hl', hpt'.trans hpt, hf, hcl, hr⟩

/-- A running right child makes all its remaining calls. -/
theorem PipeReach.right_finish (h₀ : Reachable s₀) {R : Procs.Slot} (n : Nat) :
    ∀ k r, k + n = 4 → PipeReach sh s₀ r → r.right = some (R, k) → (r.s.pt.proc R).state = .running →
      ∃ r', PipeReach sh s₀ r' ∧ r'.right = some (R, 4) ∧ r'.s.pt = r.s.pt ∧ r'.forks = r.forks ∧
        r'.closes = r.closes ∧ r'.left = r.left := by
  induction n with
  | zero =>
    intro k r hk h hr _
    exact ⟨r, h, by rw [hr, show k = 4 by omega], rfl, rfl, rfl, rfl⟩
  | succ n ih =>
    intro k r hk h hr hc
    obtain ⟨call, hcall⟩ : ∃ call, (pipeRight r.p)[k]? = some call :=
      Option.isSome_iff_exists.mp (by simp [pipeRight]; omega)
    have ha := (h.reachable h₀).inv.acct
    obtain ⟨s', x, hrun⟩ := FdCall.run_ok (c := R) ha call
    have hpt : s'.pt = r.s.pt := (FdCall.run_acct ha hrun).2.pt
    obtain ⟨r', h', hr', hpt', hf, hcl, hl⟩ := ih (k + 1) { r with s := s', right := some (R, k + 1) }
      (by omega) (.step h (.right hr hcall hc hrun)) rfl (by simpa [hpt] using hc)
    exact ⟨r', h', hr', hpt'.trans hpt, hf, hcl, hl⟩

/-- The running shell, both children forked, makes its remaining closes. -/
theorem PipeReach.parent_finish (h₀ : Reachable s₀) (n : Nat) :
    ∀ r, r.closes + n = 2 → PipeReach sh s₀ r → r.forks = 2 → (r.s.pt.proc sh).state = .running →
      ∃ r', PipeReach sh s₀ r' ∧ r'.closes = 2 ∧ r'.left = r.left ∧ r'.right = r.right := by
  induction n with
  | zero =>
    intro r hk h _ _
    exact ⟨r, h, by omega, rfl, rfl⟩
  | succ n ih =>
    intro r hk h hf hc
    obtain ⟨call, hcall⟩ : ∃ call, (pipeParent r.p)[r.closes]? = some call :=
      Option.isSome_iff_exists.mp (by simp [pipeParent]; omega)
    have ha := (h.reachable h₀).inv.acct
    obtain ⟨s', x, hrun⟩ := FdCall.run_ok (c := sh) ha call
    have hpt : s'.pt = r.s.pt := (FdCall.run_acct ha hrun).2.pt
    obtain ⟨r', h', hcl, hl, hr⟩ := ih { r with s := s', closes := r.closes + 1 } (by simp; omega)
      (.step h (.parent hf hcall hc hrun)) hf (by simpa [hpt] using hc)
    exact ⟨r', h', hcl, hl, hr⟩

/-- From the return of `pipe`, with two free slots in the process table, the
case runs to its end: both `fork1`s succeed and, once scheduled, each process
makes all its calls, none of which faults. -/
theorem PipeReach.completes (h₀ : Reachable s₀) (h : PipeReach sh s₀ r) (hf : r.forks = 0)
    (hcl : r.closes = 0) (hc : (r.s.pt.proc sh).state = .running)
    {a b : Procs.Slot} (hab : a ≠ b) (ha : (r.s.pt.proc a).state = .unused)
    (hb : (r.s.pt.proc b).state = .unused) : ∃ r', PipeReach sh s₀ r' ∧ r'.Done := by
  -- the first `fork1` takes a free slot for the left child
  obtain ⟨pt₁, L, halloc₁⟩ := allocproc_of_unused ha
  have hLfree := (allocproc_spec halloc₁).1
  have hshL : sh ≠ L := by
    rintro rfl
    rw [hLfree] at hc
    cases hc
  obtain ⟨s₁, pid₁, hfork₁, hL₁, hother₁⟩ := fork_ok (h.reachable h₀) hc halloc₁
  have h₁ := PipeReach.step h (.forkLeft hf hc halloc₁ hfork₁)
  -- the second takes the other free slot for the right child
  obtain ⟨c, hcL, hcfree⟩ : ∃ c, c ≠ L ∧ (s₁.pt.proc c).state = .unused := by
    by_cases haL : a = L
    · have hbL : b ≠ L := fun e => hab (haL.trans e.symm)
      exact ⟨b, hbL, by rw [hother₁ b hbL, hb]⟩
    · exact ⟨a, haL, by rw [hother₁ a haL, ha]⟩
  obtain ⟨pt₂, R, halloc₂⟩ := allocproc_of_unused hcfree
  have hRfree := (allocproc_spec halloc₂).1
  have hc₁ : (s₁.pt.proc sh).state = .running := by rw [hother₁ sh hshL]; exact hc
  have hRL : R ≠ L := by
    rintro rfl
    rw [hL₁] at hRfree
    cases hRfree
  have hshR : sh ≠ R := by
    rintro rfl
    rw [hc₁] at hRfree
    cases hRfree
  obtain ⟨s₂, pid₂, hfork₂, hR₂, hother₂⟩ := fork_ok (h₁.reachable h₀) hc₁ halloc₂
  have h₂ := PipeReach.step h₁ (.forkRight rfl hc₁ halloc₂ hfork₂)
  -- the scheduler runs the left child, which makes its four calls
  have hL₂ : (s₂.pt.proc L).state = .runnable := by rw [hother₂ L hRL.symm]; exact hL₁
  have h₃ := PipeReach.step h₂ (.other (.schedule hL₂) rfl)
  obtain ⟨r₄, h₄, hl₄, hpt₄, hf₄, hcl₄, hr₄⟩ := h₃.left_finish h₀ 4 0 _ rfl rfl (by simp [PTable.setState])
  -- then the right child
  have hR₄ : (r₄.s.pt.proc R).state = .runnable := by
    rw [hpt₄]
    simpa [PTable.setState, hRL] using hR₂
  have h₅ := PipeReach.step h₄ (.other (.schedule hR₄) rfl)
  obtain ⟨r₆, h₆, hr₆, hpt₆, hf₆, hcl₆, hl₆⟩ := h₅.right_finish h₀ 4 0 _ rfl hr₄
    (by simp [PTable.setState])
  -- and last the shell, still running, closes both descriptors
  have hc₆ : (r₆.s.pt.proc sh).state = .running := by
    rw [hpt₆]
    simp only [PTable.setState, hpt₄]
    simp [PTable.set_proc_of_ne _ _ hshR, PTable.set_proc_of_ne _ _ hshL, hother₂ sh hshR, hc₁]
  obtain ⟨r₇, h₇, hcl₇, hl₇, hr₇⟩ := h₆.parent_finish h₀ 2 r₆ (by simp [hcl₆, hcl₄, hcl])
    (by rw [hf₆, hf₄]) hc₆
  exact ⟨r₇, h₇, hcl₇, ⟨L, by rw [hl₇, hl₆, hl₄]⟩, R, by rw [hr₇, hr₆]⟩

/-- `initproc` after `open("console", O_RDWR)` has put the console, in
inode slot 2, on descriptor 0. -/
def consoleOpen : Sys :=
  ((Files.sysOpen Files.boot initproc (some 2) true 2).toOption.map Prod.fst).getD Files.boot

/-- Then `dup(0)`: the console on descriptors 0 and 1. -/
def consoleDup : Sys := ((Files.sysDup consoleOpen initproc 0).toOption.map Prod.fst).getD Files.boot

theorem reachable_consoleDup : Reachable consoleDup :=
  .step (.step .boot (.open_ (c := initproc) (by decide)
      (show Files.sysOpen Files.boot initproc (some 2) true 2 = .ok (consoleOpen, 0) from rfl)))
    (.dup (c := initproc) (by decide) (show Files.sysDup consoleOpen initproc 0 = .ok (consoleDup, 1) from rfl))

/-- A pipeline of `initproc` from there runs to its end. -/
theorem consoleDup_pipe_done : ∃ r, PipeReach initproc consoleDup r ∧ r.Done := by
  let s := ((Files.sysPipe consoleDup initproc true (some fun _ => 0)).toOption.map Prod.fst).getD
    Files.boot
  have h : PipeReach initproc consoleDup ⟨s, (((2 : Fd) : Nat), ((3 : Fd) : Nat)), 0, 0, none, none⟩ :=
    .start (by decide) (show Files.sysPipe consoleDup initproc true (some fun _ => 0) = .ok (s, 0) from rfl)
      (by decide) (by decide)
  exact h.completes reachable_consoleDup rfl rfl (by decide) (a := ⟨1, by decide⟩)
    (b := ⟨2, by decide⟩) (by decide) (by decide) (by decide)

/-! ## When the three are through -/

/-- The tables at the end of the case. -/
theorem PipeInv.done (hs : PipeStart sh s₀ fd0 fd1 rf wf) (hi : PipeInv sh s₀ fd0 fd1 rf wf r)
    (hdone : r.Done) :
    ∃ L R, r.left = some (L, 4) ∧ r.right = some (R, 4) ∧ L ≠ sh ∧ R ≠ sh ∧ R ≠ L ∧
      r.s.ofile sh = s₀.ofile sh ∧ r.s.ofile L = Function.update (s₀.ofile sh) 1 (some wf) ∧
      r.s.ofile R = Function.update (s₀.ofile sh) 0 (some rf) ∧
      ∀ q, q ≠ sh → q ≠ L → q ≠ R → r.s.ofile q = s₀.ofile q := by
  obtain ⟨hcl, ⟨L, hL⟩, R, hR⟩ := hdone
  have ht := hi.tables
  obtain ⟨hLsh, -, hLt⟩ := ht.left L 4 hL
  obtain ⟨hRsh, -, hRL, hRt⟩ := ht.right R 4 hR
  refine ⟨L, R, hL, hR, hLsh, hRsh, hRL L 4 hL, ?_, ?_, ?_, fun q hqsh hqL hqR => ?_⟩
  · rw [ht.shell, hcl, parentAt_done hs.fds hs.fd0_free hs.fd1_free]
  · rw [hLt, leftAt_done hs.fds hs.fd0_free hs.fd1_free]
  · rw [hRt, rightAt_done hs.fds hs.fd0_free hs.fd1_free]
  · refine ht.others q hqsh (fun L' k hL' => ?_) (fun R' k hR' => ?_)
    · rw [hL] at hL'
      obtain ⟨rfl, rfl⟩ := Prod.mk.inj (Option.some.inj hL')
      exact hqL
    · rw [hR] at hR'
      obtain ⟨rfl, rfl⟩ := Prod.mk.inj (Option.some.inj hR')
      exact hqR

/-- At the end of the case the left child's standard output is the only
descriptor in the system on the write file, and the right child's standard
input the only one on the read file. -/
theorem PipeInv.holders (hs : PipeStart sh s₀ fd0 fd1 rf wf) (hi : PipeInv sh s₀ fd0 fd1 rf wf r)
    (hdone : r.Done) :
    ∃ L R, r.left = some (L, 4) ∧ r.right = some (R, 4) ∧ R ≠ L ∧
      (∀ q d, r.s.ofile q d = some wf ↔ q = L ∧ d = 1) ∧
      ∀ q d, r.s.ofile q d = some rf ↔ q = R ∧ d = 0 := by
  obtain ⟨L, R, hL, hR, hLsh, hRsh, hRL, hsh, hLt, hRt, hq⟩ := hi.done hs hdone
  -- the table of every process, by who it is
  have htable : ∀ q, r.s.ofile q = if q = L then Function.update (s₀.ofile sh) 1 (some wf)
      else if q = R then Function.update (s₀.ofile sh) 0 (some rf) else s₀.ofile q := by
    intro q
    by_cases hqL : q = L
    · rw [if_pos hqL, hqL, hLt]
    · by_cases hqR : q = R
      · rw [if_neg hqL, if_pos hqR, hqR, hRt]
      · rw [if_neg hqL, if_neg hqR]
        by_cases hqsh : q = sh
        · rw [hqsh, hsh]
        · exact hq q hqsh hqL hqR
  have h01 : (0 : Fd) ≠ 1 := by decide
  refine ⟨L, R, hL, hR, hRL, fun q d => ?_, fun q d => ?_⟩
  · rw [htable q]
    by_cases hqL : q = L
    · by_cases hd : d = 1
      · simp [hqL, hd]
      · simp [hqL, hd, hs.wf_fresh]
    · by_cases hqR : q = R
      · by_cases hd : d = 0
        · simp [hqR, hd, hRL, h01, hs.ne]
        · simp [hqR, hd, hRL, hs.wf_fresh]
      · simp [hqL, hqR, hs.wf_fresh]
  · rw [htable q]
    by_cases hqL : q = L
    · by_cases hd : d = 1
      · simp [hqL, hd, hRL.symm, h01.symm, hs.ne.symm]
      · simp [hqL, hd, hRL.symm, hs.rf_fresh]
    · by_cases hqR : q = R
      · by_cases hd : d = 0
        · simp [hqR, hd, hRL]
        · simp [hqR, hd, hRL, hs.rf_fresh]
      · simp [hqL, hqR, hs.rf_fresh]

/-- However the shell and its two children interleave their calls, and
whatever else moves the process table meanwhile, once all three are through
the shell's table is the one it had before `pipe`, the left child's is that
table with descriptor 1 on a file on the write end of the pipe `pipe` made,
the right child's is that table with descriptor 0 on a file on its read end,
and every other process's table is as before. -/
theorem pipe_plumbing (h₀ : Reachable s₀) (hin : s₀.ofile sh 0 ≠ none) (hout : s₀.ofile sh 1 ≠ none)
    (h : PipeReach sh s₀ r) (hdone : r.Done) :
    ∃ L R rf wf, r.left = some (L, 4) ∧ r.right = some (R, 4) ∧
      (r.s.ftable rf).OnEnd s₀.npipes false ∧ (r.s.ftable wf).OnEnd s₀.npipes true ∧
      r.s.ofile sh = s₀.ofile sh ∧ r.s.ofile L = Function.update (s₀.ofile sh) 1 (some wf) ∧
      r.s.ofile R = Function.update (s₀.ofile sh) 0 (some rf) ∧
      ∀ q, q ≠ sh → q ≠ L → q ≠ R → r.s.ofile q = s₀.ofile q := by
  obtain ⟨fd0, fd1, rf, wf, hs, hi⟩ := h.inv h₀ hin hout
  obtain ⟨L, R, hL, hR, -, -, -, hsh, hLt, hRt, hq⟩ := hi.done hs hdone
  exact ⟨L, R, rf, wf, hL, hR, hi.read_end, hi.write_end, hsh, hLt, hRt, hq⟩

theorem pipe_plumbing_console : ∃ r, PipeReach initproc consoleDup r ∧ r.Done ∧
    ∃ L R rf wf, r.left = some (L, 4) ∧ r.right = some (R, 4) ∧
      (r.s.ftable rf).OnEnd consoleDup.npipes false ∧ (r.s.ftable wf).OnEnd consoleDup.npipes true ∧
      r.s.ofile initproc = consoleDup.ofile initproc ∧
      r.s.ofile L = Function.update (consoleDup.ofile initproc) 1 (some wf) ∧
      r.s.ofile R = Function.update (consoleDup.ofile initproc) 0 (some rf) ∧
      ∀ q, q ≠ initproc → q ≠ L → q ≠ R → r.s.ofile q = consoleDup.ofile q := by
  obtain ⟨r, h, hdone⟩ := consoleDup_pipe_done
  exact ⟨r, h, hdone, pipe_plumbing reachable_consoleDup (by decide) (by decide) h hdone⟩

/-- Once all three are through, the left child's standard output is the
only descriptor in the whole system on the write end, and the right child's
standard input the only one on the read end: each file has one reference. -/
theorem pipe_ends_held_once (h₀ : Reachable s₀) (hin : s₀.ofile sh 0 ≠ none)
    (hout : s₀.ofile sh 1 ≠ none) (h : PipeReach sh s₀ r) (hdone : r.Done) :
    ∃ L R rf wf, r.left = some (L, 4) ∧ r.right = some (R, 4) ∧
      (r.s.ftable rf).OnEnd s₀.npipes false ∧ (r.s.ftable wf).OnEnd s₀.npipes true ∧
      (∀ q d, r.s.ofile q d = some wf ↔ q = L ∧ d = 1) ∧
      (∀ q d, r.s.ofile q d = some rf ↔ q = R ∧ d = 0) ∧
      (r.s.ftable wf).ref = 1 ∧ (r.s.ftable rf).ref = 1 := by
  obtain ⟨fd0, fd1, rf, wf, hs, hi⟩ := h.inv h₀ hin hout
  obtain ⟨L, R, hL, hR, -, hwf, hrf⟩ := hi.holders hs hdone
  have ha := hi.reach.inv.acct
  refine ⟨L, R, rf, wf, hL, hR, hi.read_end, hi.write_end, hwf, hrf, ?_, ?_⟩
  · rw [ha.ref_eq wf, fdCount_eq_one hwf, Multiset.count_zero]
  · rw [ha.ref_eq rf, fdCount_eq_one hrf, Multiset.count_zero]

theorem pipe_ends_held_once_console : ∃ r, PipeReach initproc consoleDup r ∧ r.Done ∧
    ∃ L R rf wf, r.left = some (L, 4) ∧ r.right = some (R, 4) ∧
      (r.s.ftable rf).OnEnd consoleDup.npipes false ∧ (r.s.ftable wf).OnEnd consoleDup.npipes true ∧
      (∀ q d, r.s.ofile q d = some wf ↔ q = L ∧ d = 1) ∧
      (∀ q d, r.s.ofile q d = some rf ↔ q = R ∧ d = 0) ∧
      (r.s.ftable wf).ref = 1 ∧ (r.s.ftable rf).ref = 1 := by
  obtain ⟨r, h, hdone⟩ := consoleDup_pipe_done
  exact ⟨r, h, hdone, pipe_ends_held_once reachable_consoleDup (by decide) (by decide) h hdone⟩

/-- Once all three are through, both ends of the pipe are open; the left
child's exit closes the write end, after which a read of the drained pipe
returns at once with nothing, end of file, and the right child's exit
closes the read end; neither exit closes the other end. -/
theorem pipe_eof (h₀ : Reachable s₀) (hin : s₀.ofile sh 0 ≠ none) (hout : s₀.ofile sh 1 ≠ none)
    (h : PipeReach sh s₀ r) (hdone : r.Done) :
    ∃ L R, r.left = some (L, 4) ∧ r.right = some (R, 4) ∧
      (r.s.pipes s₀.npipes).readopen = true ∧ (r.s.pipes s₀.npipes).writeopen = true ∧
      (∀ s', Files.exit r.s L = .ok s' →
        (s'.pipes s₀.npipes).writeopen = false ∧ (s'.pipes s₀.npipes).readopen = true ∧
        ∀ n killed, (s'.pipes s₀.npipes).nread = (s'.pipes s₀.npipes).nwrite →
          Pipes.piperead (s'.pipes s₀.npipes) n killed = (s'.pipes s₀.npipes, .done [])) ∧
      ∀ s', Files.exit r.s R = .ok s' →
        (s'.pipes s₀.npipes).readopen = false ∧ (s'.pipes s₀.npipes).writeopen = true := by
  obtain ⟨fd0, fd1, rf, wf, hs, hi⟩ := h.inv h₀ hin hout
  obtain ⟨L, R, hL, hR, hRL, hwf, hrf⟩ := hi.holders hs hdone
  have ha := hi.reach.inv.acct
  -- neither child names the other's file
  have hLrf : ∀ e, r.s.ofile L e ≠ some rf := fun e he => hRL ((hrf L e).mp he).1.symm
  have hRwf : ∀ e, r.s.ofile R e ≠ some wf := fun e he => hRL ((hwf R e).mp he).1
  refine ⟨L, R, hL, hR, ha.endOpen_of_onEnd hi.read_end, ha.endOpen_of_onEnd hi.write_end,
    fun s' hexit => ?_, fun s' hexit => ?_⟩
  · have hw : (s'.pipes s₀.npipes).writeopen = false :=
      exit_closes_end hi.reach hi.write_end (fun p d hp => ((hwf p d).mp hp).1) hexit
    refine ⟨hw, exit_keeps_end hi.reach hi.read_end hLrf hexit, fun n killed hempty => ?_⟩
    exact Pipes.Pipe.piperead_eof hempty hw
  · exact ⟨exit_closes_end hi.reach hi.read_end (fun p d hp => ((hrf p d).mp hp).1) hexit,
      exit_keeps_end hi.reach hi.write_end hRwf hexit⟩

theorem pipe_eof_console : ∃ r, PipeReach initproc consoleDup r ∧ r.Done ∧
    ∃ L R, r.left = some (L, 4) ∧ r.right = some (R, 4) ∧
      (r.s.pipes consoleDup.npipes).readopen = true ∧ (r.s.pipes consoleDup.npipes).writeopen = true ∧
      (∀ s', Files.exit r.s L = .ok s' →
        (s'.pipes consoleDup.npipes).writeopen = false ∧ (s'.pipes consoleDup.npipes).readopen = true ∧
        ∀ n killed, (s'.pipes consoleDup.npipes).nread = (s'.pipes consoleDup.npipes).nwrite →
          Pipes.piperead (s'.pipes consoleDup.npipes) n killed = (s'.pipes consoleDup.npipes, .done [])) ∧
      ∀ s', Files.exit r.s R = .ok s' →
        (s'.pipes consoleDup.npipes).readopen = false ∧ (s'.pipes consoleDup.npipes).writeopen = true := by
  obtain ⟨r, h, hdone⟩ := consoleDup_pipe_done
  exact ⟨r, h, hdone, pipe_eof reachable_consoleDup (by decide) (by decide) h hdone⟩

end Run

end Xv6.Sh
