import Xv6.Param
import Xv6.Basic

/-!
# The process table (`proc.c`)

The slots of `ptable.proc` with the fields the process tree is made of:
state, pid, parent and killed flag.  The kernel changes them under
`ptable.lock` in stretches that are the steps of `Step`: `allocproc`, the
rest of `fork`, `exit`, one scan of `wait`, `kill`, and the scheduler's
moves between sleeping, runnable and running.  `fork` releases the lock
between `allocproc` and setting the child's parent, so a slot can be an
`EMBRYO` with no parent yet.

`Inv` holds at boot and after every step: the parent of a process is a live
one (sleeping, runnable or running); every process that is neither unused
nor an embryo, other than `initproc`, has one; and a rank that each parent
link lowers exists, so the parent relation has no cycle.
-/

namespace Xv6.Procs

/-- `enum procstate`. -/
inductive ProcState
  | unused
  | embryo
  | sleeping
  | runnable
  | running
  | zombie
  deriving DecidableEq, Repr

/-- A process that exists and has not exited. -/
def ProcState.Live (s : ProcState) : Prop := s = .sleeping ∨ s = .runnable ∨ s = .running

instance : DecidablePred ProcState.Live := fun _ => inferInstanceAs (Decidable (_ ∨ _))

/-- A slot of `ptable.proc`; a `struct proc *` that is not null. -/
abbrev Slot := Fin nproc

/-- The fields of `struct proc` the process tree is made of. -/
structure Proc where
  state : ProcState
  pid : Int
  parent : Option Slot
  killed : Bool
  deriving DecidableEq, Repr

structure PTable where
  proc : Slot → Proc
  nextpid : Int

namespace PTable

def set (t : PTable) (p : Slot) (x : Proc) : PTable := { t with proc := Function.update t.proc p x }

def setState (t : PTable) (p : Slot) (s : ProcState) : PTable := t.set p { t.proc p with state := s }

@[simp] theorem set_proc_self (t : PTable) (p : Slot) (x : Proc) : (t.set p x).proc p = x := by
  simp [set]

@[simp] theorem set_proc_of_ne (t : PTable) {p q : Slot} (x : Proc) (h : q ≠ p) :
    (t.set p x).proc q = t.proc q := by
  simp [set, h]

end PTable

/-! ## The operations -/

/-- The unused slot with its zeroed fields. -/
def unusedProc : Proc := { state := .unused, pid := 0, parent := none, killed := false }

/-- `ptable` as the kernel starts: all slots unused, `nextpid = 1`. -/
def zeroTable : PTable := { proc := fun _ => unusedProc, nextpid := 1 }

/-- `allocproc`: the first unused slot becomes an `EMBRYO` with the next pid. -/
def allocproc (t : PTable) : Option (PTable × Slot) :=
  match (List.finRange nproc).find? (fun p => decide ((t.proc p).state = .unused)) with
  | none => none
  | some p =>
    some ({ t.set p { t.proc p with state := .embryo, pid := t.nextpid } with
      nextpid := t.nextpid + 1 }, p)

/-- The slot `userinit` takes for `initproc`: the first. -/
def initproc : Slot := ⟨0, by decide⟩

/-- `userinit`: the first process, runnable. -/
def userinit : PTable :=
  match allocproc zeroTable with
  | some (t, p) => t.setState p .runnable
  | none => zeroTable

/-- `fork` after `allocproc` gave it `np`: with the address space copied, the
child is linked to its parent and made runnable; otherwise the slot is freed. -/
def forkFinish (t : PTable) (c np : Slot) (copied : Bool) : PTable :=
  if copied then t.set np { t.proc np with parent := some c, state := .runnable }
  else t.setState np .unused

/-- `exit` of `c` under `ptable.lock`: its children pass to `initproc` and it
becomes a zombie; `none` for the panic of `initproc` exiting. -/
def exit (t : PTable) (c : Slot) : Option PTable :=
  if c = initproc then none
  else
    let t := { t with proc := fun p =>
      if (t.proc p).parent = some c then { t.proc p with parent := some initproc } else t.proc p }
    some (t.setState c .zombie)

/-- What one scan of `wait` does: return a zombie child's pid, return `-1`,
or sleep. -/
inductive WaitResult
  | pid (n : Int)
  | none
  | sleep
  deriving DecidableEq, Repr

/-- One scan of `wait` by `c`: the first zombie child is freed and its pid
returned; with no child, or when `c` is killed, `-1`; otherwise `c` sleeps. -/
def wait (t : PTable) (c : Slot) : PTable × WaitResult :=
  match (List.finRange nproc).find?
      (fun p => decide ((t.proc p).parent = some c ∧ (t.proc p).state = .zombie)) with
  | some p => (t.set p unusedProc, .pid (t.proc p).pid)
  | none =>
    if (List.finRange nproc).all (fun p => decide ((t.proc p).parent ≠ some c)) || (t.proc c).killed
    then (t, .none)
    else (t.setState c .sleeping, .sleep)

/-- `kill(pid)`: the first slot with that pid is marked killed and woken. -/
def kill (t : PTable) (pid : Int) : PTable × Bool :=
  match (List.finRange nproc).find? (fun p => decide ((t.proc p).pid = pid)) with
  | some p =>
    let s := if (t.proc p).state = .sleeping then ProcState.runnable else (t.proc p).state
    (t.set p { t.proc p with killed := true, state := s }, true)
  | none => (t, false)

/-- The end of `trap` for a trap from user space taken by the running
process `c`: a killed process calls `exit`, so `none` is the panic of
`initproc` exiting. -/
def trapExit (t : PTable) (c : Slot) : Option PTable :=
  if (t.proc c).killed then exit t c else some t

/-- The stretches under `ptable.lock` that change the process tree, each by a
running process where the kernel runs one on behalf of `myproc()`. -/
inductive Step : PTable → PTable → Prop
  | allocproc {t t' : PTable} {c np : Slot} (hc : (t.proc c).state = .running)
      (h : allocproc t = some (t', np)) : Step t t'
  | fork {t : PTable} {c np : Slot} (hc : (t.proc c).state = .running)
      (hnp : (t.proc np).state = .embryo) (copied : Bool) : Step t (forkFinish t c np copied)
  | exit {t t' : PTable} {c : Slot} (hc : (t.proc c).state = .running) (h : exit t c = some t') :
      Step t t'
  | wait {t : PTable} {c : Slot} (hc : (t.proc c).state = .running) : Step t (wait t c).1
  | kill {t : PTable} {c : Slot} (hc : (t.proc c).state = .running) (pid : Int) :
      Step t (kill t pid).1
  | schedule {t : PTable} {p : Slot} (h : (t.proc p).state = .runnable) :
      Step t (t.setState p .running)
  | yield {t : PTable} {c : Slot} (h : (t.proc c).state = .running) :
      Step t (t.setState c .runnable)
  | sleep {t : PTable} {c : Slot} (h : (t.proc c).state = .running) :
      Step t (t.setState c .sleeping)
  | wakeup {t : PTable} {p : Slot} (h : (t.proc p).state = .sleeping) :
      Step t (t.setState p .runnable)

inductive Reachable : PTable → Prop
  | boot : Reachable userinit
  | step {t t' : PTable} : Reachable t → Step t t' → Reachable t'

/-! ## What each operation does -/

namespace ProcState

theorem Live.ne_unused {s : ProcState} (h : s.Live) : s ≠ .unused := by
  rcases h with rfl | rfl | rfl <;> decide

theorem Live.ne_embryo {s : ProcState} (h : s.Live) : s ≠ .embryo := by
  rcases h with rfl | rfl | rfl <;> decide

theorem Live.ne_zombie {s : ProcState} (h : s.Live) : s ≠ .zombie := by
  rcases h with rfl | rfl | rfl <;> decide

theorem live_running : ProcState.running.Live := .inr (.inr rfl)

theorem live_runnable : ProcState.runnable.Live := .inr (.inl rfl)

theorem live_sleeping : ProcState.sleeping.Live := .inl rfl

end ProcState

open ProcState

variable {t t' : PTable} {c np : Slot}

theorem allocproc_spec (h : allocproc t = some (t', np)) :
    (t.proc np).state = .unused ∧
      t'.proc = Function.update t.proc np { t.proc np with state := .embryo, pid := t.nextpid } := by
  unfold allocproc at h
  split at h
  · cases h
  · rename_i p hp
    obtain ⟨rfl, rfl⟩ := Prod.mk.inj (Option.some.inj h)
    have hfound := List.find?_some hp
    simp only [decide_eq_true_eq] at hfound
    exact ⟨hfound, rfl⟩

theorem exit_spec (h : exit t c = some t') :
    c ≠ initproc ∧ ∀ p, (t'.proc p).state = (if p = c then .zombie else (t.proc p).state) ∧
      (t'.proc p).parent =
        (if (t.proc p).parent = some c then some initproc else (t.proc p).parent) := by
  unfold exit at h
  split_ifs at h with hinit
  cases h
  refine ⟨hinit, fun p => ?_⟩
  by_cases hp : p = c
  · subst hp
    by_cases hpar : (t.proc p).parent = some p <;> simp [PTable.setState, hpar]
  · by_cases hpar : (t.proc p).parent = some c <;> simp [PTable.setState, hp, hpar]

/-- A scan of `wait` that returns a pid freed a zombie child with that pid. -/
theorem wait_pid {n : Int} (h : (wait t c).2 = .pid n) :
    ∃ z, (t.proc z).parent = some c ∧ (t.proc z).state = .zombie ∧ (t.proc z).pid = n ∧
      (wait t c).1 = t.set z unusedProc := by
  unfold wait at h ⊢
  split at h
  · rename_i z hz
    have hfound := List.find?_some hz
    simp only [decide_eq_true_eq] at hfound
    obtain ⟨hpar, hzombie⟩ := hfound
    exact ⟨z, hpar, hzombie, WaitResult.pid.inj h, rfl⟩
  · split_ifs at h

/-- A scan of `wait` that neither returns a pid nor `-1` puts the caller to sleep. -/
theorem wait_sleep (h : ∀ n, (wait t c).2 ≠ .pid n) (h' : (wait t c).2 ≠ .none) :
    (wait t c).1 = t.setState c .sleeping := by
  unfold wait at h h' ⊢
  cases hfind : (List.finRange nproc).find?
      (fun p => decide ((t.proc p).parent = some c ∧ (t.proc p).state = .zombie)) with
  | some z =>
    simp only [hfind] at h
    exact absurd rfl (h _)
  | none =>
    simp only [hfind] at h' ⊢
    split_ifs at h' ⊢
    · exact absurd rfl h'
    · rfl

theorem kill_spec (pid : Int) :
    ∀ p, ((kill t pid).1.proc p).parent = (t.proc p).parent ∧
      (((kill t pid).1.proc p).state = (t.proc p).state ∨
        (t.proc p).state = .sleeping ∧ ((kill t pid).1.proc p).state = .runnable) := by
  intro p
  unfold kill
  split
  · rename_i q _
    by_cases hp : p = q
    · subst hp
      by_cases hs : (t.proc p).state = .sleeping <;> simp [hs]
    · simp [hp]
  · exact ⟨rfl, .inl rfl⟩

/-! ## The invariant of the process tree -/

/-- What every reachable process table satisfies. -/
structure Inv (t : PTable) : Prop where
  init_live : (t.proc initproc).state.Live
  init_root : (t.proc initproc).parent = none
  unused_root : ∀ p, (t.proc p).state = .unused → (t.proc p).parent = none
  embryo_root : ∀ p, (t.proc p).state = .embryo → (t.proc p).parent = none
  parent_live : ∀ p q, (t.proc p).parent = some q → (t.proc q).state.Live
  linked : ∀ p, p ≠ initproc → (t.proc p).state ≠ .unused → (t.proc p).state ≠ .embryo →
    (t.proc p).parent ≠ none
  ranked : ∃ r : Slot → Nat, ∀ p q, (t.proc p).parent = some q → r q < r p

/-- A step that keeps every parent and moves processes only between live
states keeps the invariant. -/
theorem Inv.of_states (hi : Inv t) (hparent : ∀ q, (t'.proc q).parent = (t.proc q).parent)
    (hstate : ∀ q, (t'.proc q).state = (t.proc q).state ∨
      ((t.proc q).state.Live ∧ (t'.proc q).state.Live)) : Inv t' := by
  have hlive : ∀ q, (t.proc q).state.Live → (t'.proc q).state.Live := fun q hq =>
    (hstate q).elim (fun h => h ▸ hq) And.right
  -- a state that is not live is the one the slot had before
  have hback : ∀ q, ¬(t'.proc q).state.Live → (t.proc q).state = (t'.proc q).state := fun q hq =>
    ((hstate q).resolve_right fun h => hq h.2).symm
  have hfwd : ∀ q, ¬(t.proc q).state.Live → (t'.proc q).state = (t.proc q).state := fun q hq =>
    (hstate q).resolve_right fun h => hq h.1
  obtain ⟨r, hr⟩ := hi.ranked
  constructor
  · exact hlive _ hi.init_live
  · rw [hparent]
    exact hi.init_root
  · intro p hp
    rw [hparent]
    exact hi.unused_root p ((hback p fun h => h.ne_unused hp).trans hp)
  · intro p hp
    rw [hparent]
    exact hi.embryo_root p ((hback p fun h => h.ne_embryo hp).trans hp)
  · intro p q hpq
    exact hlive q (hi.parent_live p q ((hparent p).symm.trans hpq))
  · intro p hinit hu he
    rw [hparent]
    refine hi.linked p hinit (fun h => hu ?_) (fun h => he ?_)
    · exact (hfwd p fun hl => hl.ne_unused h).trans h
    · exact (hfwd p fun hl => hl.ne_embryo h).trans h
  · exact ⟨r, fun p q hpq => hr p q ((hparent p).symm.trans hpq)⟩

theorem Inv.setState_live (hi : Inv t) {p : Slot} {s : ProcState} (hp : (t.proc p).state.Live)
    (hs : s.Live) : Inv (t.setState p s) := by
  refine hi.of_states (fun q => ?_) (fun q => ?_)
  · by_cases hq : q = p
    · subst hq
      simp [PTable.setState]
    · simp [PTable.setState, hq]
  · by_cases hq : q = p
    · subst hq
      exact .inr ⟨hp, by simpa [PTable.setState] using hs⟩
    · exact .inl (by simp [PTable.setState, hq])

/-- `allocproc` turns an unused slot, which no process names as its parent,
into an embryo. -/
theorem Inv.allocproc (hi : Inv t) (h : allocproc t = some (t', np)) : Inv t' := by
  obtain ⟨hunused, hproc⟩ := allocproc_spec h
  have hroot := hi.unused_root np hunused
  have hinit : initproc ≠ np := fun he => hi.init_live.ne_unused (he ▸ hunused)
  -- every other slot is as it was
  have hother : ∀ q, q ≠ np → t'.proc q = t.proc q := fun q hq => by rw [hproc]; simp [hq]
  have hnp : t'.proc np = { t.proc np with state := .embryo, pid := t.nextpid } := by
    rw [hproc]; simp
  obtain ⟨r, hr⟩ := hi.ranked
  have hparent : ∀ q, (t'.proc q).parent = (t.proc q).parent := fun q => by
    by_cases hq : q = np
    · subst hq; rw [hnp]
    · rw [hother q hq]
  constructor
  · rw [hother _ hinit]; exact hi.init_live
  · rw [hparent]; exact hi.init_root
  · intro p hp
    by_cases hq : p = np
    · subst hq; simp [hnp] at hp
    · rw [hother p hq] at hp ⊢; exact hi.unused_root p hp
  · intro p hp
    rw [hparent]
    by_cases hq : p = np
    · subst hq; exact hroot
    · rw [hother p hq] at hp; exact hi.embryo_root p hp
  · intro p q hpq
    have hq := hi.parent_live p q ((hparent p).symm.trans hpq)
    rw [hother q fun he => hq.ne_unused (he ▸ hunused)]
    exact hq
  · intro p hpi hu he
    by_cases hq : p = np
    · subst hq; simp [hnp] at he
    · rw [hother p hq] at hu he ⊢; exact hi.linked p hpi hu he
  · exact ⟨r, fun p q hpq => hr p q ((hparent p).symm.trans hpq)⟩

/-- A slot that is no process's parent can be released: it becomes unused,
with no parent. -/
theorem Inv.release (hi : Inv t) {z : Slot} (hinit : initproc ≠ z)
    (hnochild : ∀ p, (t.proc p).parent ≠ some z) {x : Proc} (hx : x.state = .unused)
    (hxp : x.parent = none) : Inv (t.set z x) := by
  obtain ⟨r, hr⟩ := hi.ranked
  have hparent : ∀ p q, ((t.set z x).proc p).parent = some q → (t.proc p).parent = some q ∧ p ≠ z :=
    fun p q hpq => by
      by_cases hp : p = z
      · subst hp
        rw [PTable.set_proc_self, hxp] at hpq
        cases hpq
      · rw [PTable.set_proc_of_ne _ _ hp] at hpq; exact ⟨hpq, hp⟩
  constructor
  · rw [PTable.set_proc_of_ne _ _ hinit]; exact hi.init_live
  · rw [PTable.set_proc_of_ne _ _ hinit]; exact hi.init_root
  · intro p hp
    by_cases hq : p = z
    · subst hq; rw [PTable.set_proc_self]; exact hxp
    · rw [PTable.set_proc_of_ne _ _ hq] at hp ⊢; exact hi.unused_root p hp
  · intro p hp
    by_cases hq : p = z
    · subst hq; rw [PTable.set_proc_self, hx] at hp; cases hp
    · rw [PTable.set_proc_of_ne _ _ hq] at hp ⊢; exact hi.embryo_root p hp
  · intro p q hpq
    obtain ⟨hold, -⟩ := hparent p q hpq
    have hqz : q ≠ z := by
      rintro rfl
      exact hnochild p hold
    rw [PTable.set_proc_of_ne _ _ hqz]
    exact hi.parent_live p q hold
  · intro p hpi hu he
    by_cases hq : p = z
    · subst hq; rw [PTable.set_proc_self] at hu; exact absurd hx hu
    · rw [PTable.set_proc_of_ne _ _ hq] at hu he ⊢; exact hi.linked p hpi hu he
  · exact ⟨r, fun p q hpq => hr p q (hparent p q hpq).1⟩

/-- The rest of `fork`: the embryo, which no process names as its parent,
becomes a runnable child of the caller, or an unused slot again. -/
theorem Inv.forkFinish (hi : Inv t) (hc : (t.proc c).state.Live)
    (hnp : (t.proc np).state = .embryo) (copied : Bool) : Inv (forkFinish t c np copied) := by
  have hinit : initproc ≠ np := fun he => hi.init_live.ne_embryo (he ▸ hnp)
  have hcnp : c ≠ np := fun he => hc.ne_embryo (he ▸ hnp)
  have hnochild : ∀ p, (t.proc p).parent ≠ some np := fun p hp =>
    (hi.parent_live p np hp).ne_embryo hnp
  obtain ⟨r, hr⟩ := hi.ranked
  cases copied with
  | false =>
    -- the slot goes back to unused, still without a parent
    simp only [Xv6.Procs.forkFinish, Bool.false_eq_true, if_false]
    exact hi.release hinit hnochild rfl (hi.embryo_root np hnp)
  | true =>
    have hother : ∀ q, q ≠ np →
        (t.set np { t.proc np with parent := some c, state := .runnable }).proc q = t.proc q :=
      fun q hq => by simp [hq]
    simp only [Xv6.Procs.forkFinish, if_true]
    constructor
    · rw [hother _ hinit]; exact hi.init_live
    · rw [hother _ hinit]; exact hi.init_root
    · intro p hp
      by_cases hq : p = np
      · subst hq; simp at hp
      · rw [hother p hq] at hp ⊢; exact hi.unused_root p hp
    · intro p hp
      by_cases hq : p = np
      · subst hq; simp at hp
      · rw [hother p hq] at hp ⊢; exact hi.embryo_root p hp
    · intro p q hpq
      by_cases hq : p = np
      · subst hq
        simp only [PTable.set_proc_self, Option.some.injEq] at hpq
        subst hpq
        rw [hother _ hcnp]; exact hc
      · rw [hother p hq] at hpq
        rw [hother q fun he => hnochild p (he ▸ hpq)]
        exact hi.parent_live p q hpq
    · intro p hpi hu he
      by_cases hq : p = np
      · subst hq; simp
      · rw [hother p hq] at hu he ⊢; exact hi.linked p hpi hu he
    · -- the child ranks just above its parent
      refine ⟨Function.update r np (r c + 1), fun p q hpq => ?_⟩
      by_cases hq : p = np
      · subst hq
        simp only [PTable.set_proc_self, Option.some.injEq] at hpq
        subst hpq
        simp [hcnp]
      · rw [hother p hq] at hpq
        have hqnp : q ≠ np := fun he => hnochild p (he ▸ hpq)
        simp only [Function.update_of_ne hq, Function.update_of_ne hqnp]
        exact hr p q hpq

/-- `exit`: the children of a live process pass to `initproc`, which has no
parent, and the process, then childless, becomes a zombie. -/
theorem Inv.exit (hi : Inv t) (hc : (t.proc c).state.Live) (h : exit t c = some t') : Inv t' := by
  obtain ⟨hcinit, hspec⟩ := exit_spec h
  have hstate : ∀ p, p ≠ c → (t'.proc p).state = (t.proc p).state := fun p hp => by
    rw [(hspec p).1, if_neg hp]
  have hinit : initproc ≠ c := fun he => hcinit he.symm
  obtain ⟨r, hr⟩ := hi.ranked
  constructor
  · rw [hstate _ hinit]; exact hi.init_live
  · rw [(hspec _).2, hi.init_root]; rfl
  · intro p hp
    have hpc : p ≠ c := fun he => by rw [(hspec p).1, if_pos he] at hp; cases hp
    rw [hstate p hpc] at hp
    rw [(hspec p).2, hi.unused_root p hp]; rfl
  · intro p hp
    have hpc : p ≠ c := fun he => by rw [(hspec p).1, if_pos he] at hp; cases hp
    rw [hstate p hpc] at hp
    rw [(hspec p).2, hi.embryo_root p hp]; rfl
  · intro p q hpq
    rw [(hspec p).2] at hpq
    split_ifs at hpq with hchild
    · -- a child of the exiting process now has `initproc` as its parent
      cases hpq
      rw [hstate _ hinit]; exact hi.init_live
    · have hqc : q ≠ c := fun he => hchild (he ▸ hpq)
      rw [hstate q hqc]; exact hi.parent_live p q hpq
  · intro p hpi hu he
    rw [(hspec p).2]
    split_ifs
    · simp
    · by_cases hpc : p = c
      · subst hpc; exact hi.linked p hpi hc.ne_unused hc.ne_embryo
      · rw [hstate p hpc] at hu he; exact hi.linked p hpi hu he
  · -- `initproc` ranks below every other slot
    refine ⟨fun q => if q = initproc then 0 else r q + 1, fun p q hpq => ?_⟩
    have hpinit : p ≠ initproc := fun he => by
      rw [he, (hspec _).2, hi.init_root] at hpq; cases hpq
    rw [(hspec p).2] at hpq
    simp only [if_neg hpinit]
    split_ifs at hpq with hchild
    · cases hpq; simp
    · split_ifs <;> simp [hr p q hpq]

/-- `wait` frees a zombie, which no process has as its parent. -/
theorem Inv.free (hi : Inv t) {z : Slot} (hz : (t.proc z).state = .zombie) :
    Inv (t.set z unusedProc) :=
  hi.release (fun he => hi.init_live.ne_zombie (he ▸ hz))
    (fun p hp => (hi.parent_live p z hp).ne_zombie hz) rfl rfl

theorem Inv.wait (hi : Inv t) (hc : (t.proc c).state.Live) : Inv (Procs.wait t c).1 := by
  by_cases hpid : ∃ n, (Procs.wait t c).2 = .pid n
  · obtain ⟨n, hn⟩ := hpid
    obtain ⟨z, -, hz, -, heq⟩ := wait_pid hn
    rw [heq]
    exact hi.free hz
  · by_cases hnone : (Procs.wait t c).2 = .none
    · -- `-1`: the scan changed nothing
      unfold Procs.wait at hnone ⊢
      split at hnone
      · cases hnone
      · split_ifs at hnone ⊢
        exact hi
    · rw [wait_sleep (fun n hn => hpid ⟨n, hn⟩) hnone]
      exact hi.setState_live hc live_sleeping

theorem Inv.kill (hi : Inv t) (pid : Int) : Inv (Procs.kill t pid).1 := by
  refine hi.of_states (fun q => (kill_spec pid q).1) (fun q => ?_)
  rcases (kill_spec pid q).2 with h | ⟨hs, hr⟩
  · exact .inl h
  · exact .inr ⟨hs ▸ live_sleeping, hr ▸ live_runnable⟩

theorem Inv.step (hi : Inv t) (h : Step t t') : Inv t' := by
  cases h with
  | allocproc _ h => exact hi.allocproc h
  | fork hc hnp copied => exact hi.forkFinish (hc ▸ live_running) hnp copied
  | exit hc h => exact hi.exit (hc ▸ live_running) h
  | wait hc => exact hi.wait (hc ▸ live_running)
  | kill _ pid => exact hi.kill pid
  | schedule h => exact hi.setState_live (h ▸ live_runnable) live_running
  | yield h => exact hi.setState_live (h ▸ live_running) live_runnable
  | sleep h => exact hi.setState_live (h ▸ live_running) live_sleeping
  | wakeup h => exact hi.setState_live (h ▸ live_sleeping) live_runnable

theorem userinit_proc (p : Slot) :
    userinit.proc p = if p = initproc then { unusedProc with state := .runnable, pid := 1 }
      else unusedProc := by
  have halloc : allocproc zeroTable =
      some ({ zeroTable.set initproc { unusedProc with state := .embryo, pid := 1 } with
        nextpid := 2 }, initproc) := rfl
  unfold userinit
  rw [halloc]
  by_cases hp : p = initproc
  · subst hp
    simp [PTable.setState]
  · simp [PTable.setState, hp, zeroTable]

theorem inv_userinit : Inv userinit := by
  constructor
  · simp [userinit_proc, live_runnable]
  · simp [userinit_proc, unusedProc]
  · intro p _
    by_cases hp : p = initproc <;> simp [userinit_proc, hp, unusedProc]
  · intro p _
    by_cases hp : p = initproc <;> simp [userinit_proc, hp, unusedProc]
  · intro p q hpq
    by_cases hp : p = initproc <;> simp [userinit_proc, hp, unusedProc] at hpq
  · intro p hp hu
    simp [userinit_proc, hp, unusedProc] at hu
  · exact ⟨fun _ => 0, fun p q hpq => by
      by_cases hp : p = initproc <;> simp [userinit_proc, hp, unusedProc] at hpq⟩

theorem Reachable.inv (h : Reachable t) : Inv t := by
  induction h with
  | boot => exact inv_userinit
  | step _ hs ih => exact ih.step hs

/-! ## The process tree -/

theorem reachable_init_running : Reachable (userinit.setState initproc .running) :=
  .step .boot (.schedule (by simp [userinit_proc]))

/-- `sys_kill` checks neither the caller nor the target: `initproc` forks a
child, the child kills pid `1`, and `initproc`'s next trap from user space
calls `exit`, which panics. -/
theorem initproc_exits_when_killed :
    ∃ t, Reachable t ∧ (t.proc initproc).state = .running ∧ (t.proc initproc).killed = true ∧
      trapExit t initproc = none := by
  let child : Slot := ⟨1, by decide⟩
  let t₁ := userinit.setState initproc .running
  -- `initproc` runs `fork`: `allocproc` takes slot `1`, and the child is linked and runnable
  let t₂ : PTable := { t₁.set child { t₁.proc child with state := .embryo, pid := t₁.nextpid } with
    nextpid := t₁.nextpid + 1 }
  have halloc : allocproc t₁ = some (t₂, child) := rfl
  have h₂ : Reachable t₂ := .step reachable_init_running (.allocproc (c := initproc) (by decide) halloc)
  let t₃ := forkFinish t₂ initproc child true
  have h₃ : Reachable t₃ := .step h₂ (.fork (c := initproc) (by decide) (by decide) true)
  -- the child is scheduled and kills pid `1`
  let t₄ := t₃.setState child .running
  have h₄ : Reachable t₄ := .step h₃ (.schedule (by decide))
  have h₅ : Reachable (kill t₄ 1).1 := .step h₄ (.kill (c := child) (by decide) 1)
  exact ⟨(kill t₄ 1).1, h₅, by decide, by decide, by decide⟩

end Xv6.Procs
