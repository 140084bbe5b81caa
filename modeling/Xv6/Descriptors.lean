import Xv6.Files

/-!
# The descriptor calls as a process sees them

A process reaches its open files through its table of descriptors.  This
module reads the calls of `Xv6.Files` off that table: `close` frees a
descriptor, `dup` puts the file of one in the lowest free descriptor, the
one `fdalloc` picks, `fork` gives the child a copy of the parent's table, and
`exit` empties the caller's.  `FdCall.apply` is what a close or a dup does to
the caller's table; `sysClose` and `sysDup` do exactly that
(`FdCall.run_ofile`), never fault while the counts balance
(`FdCall.run_ok`), and leave every other process's table alone (`Frame`).

Beside the tables a call changes the open-file table in its counts of
references only, but for a file whose last reference it drops: every file
that a descriptor still names after the call is the file it was (`Kept`).
-/

namespace Xv6.Files

open Procs

/-- A process's table of descriptors. -/
abbrev Table := Fd → Option FileIdx

/-- Descriptors are numbered from 0, the standard input. -/
instance : NeZero nofile := ⟨by decide⟩

/-- The descriptor `fdalloc` picks: the lowest free one. -/
def lowestFree (t : Table) : Option Fd := (List.finRange nofile).find? fun fd => (t fd).isNone

/-- `argfd` read off the caller's table. -/
def argfdOf (t : Table) (fd : Int) : Option (Fd × FileIdx) :=
  if 0 ≤ fd ∧ fd < nofile then
    let d : Fd := Fin.ofNat nofile fd.toNat
    (t d).map fun f => (d, f)
  else none

/-- A call of a user program on its descriptors. -/
inductive FdCall
  | close (fd : Int)
  | dup (fd : Int)
  deriving DecidableEq, Repr

/-- The call, made by process `c`. -/
def FdCall.run (s : Sys) (c : Procs.Slot) : FdCall → Except Fault (Sys × Int)
  | .close fd => sysClose s c fd
  | .dup fd => sysDup s c fd

/-- What the call does to the caller's table, decided as `sys_close` and
`sys_dup` decide it. -/
def FdCall.apply (t : Table) : FdCall → Table
  | .close fd =>
    match argfdOf t fd with
    | none => t
    | some (d, _) => Function.update t d none
  | .dup fd =>
    match argfdOf t fd with
    | none => t
    | some (_, f) =>
      match lowestFree t with
      | none => t
      | some e => Function.update t e (some f)

/-- Every file that a descriptor names in `s'` is the file it was in `s`,
but for its count of references. -/
def Kept (s s' : Sys) : Prop :=
  ∀ f, (∃ p d, s'.ofile p d = some f) → s'.ftable f = { s.ftable f with ref := (s'.ftable f).ref }

/-- Every file is the file it was, but for its count of references. -/
def RefsOnly (s s' : Sys) : Prop :=
  ∀ f, s'.ftable f = { s.ftable f with ref := (s'.ftable f).ref }

/-! ## Tables -/

section Tables

variable {t : Table} {d e : Fd} {f : FileIdx}

theorem lowestFree_eq_some_iff : lowestFree t = some e ↔ t e = none ∧ ∀ d < e, t d ≠ none := by
  rw [lowestFree, ← Fin.find?_eq_find?_finRange, Fin.find?_eq_some_iff]
  simp [Option.isNone_iff_eq_none, Option.isSome_iff_ne_none]

/-- Freeing a descriptor below which every one is open makes it the lowest
free one. -/
theorem lowestFree_update_none (h : ∀ d' < d, t d' ≠ none) :
    lowestFree (Function.update t d none) = some d := by
  refine lowestFree_eq_some_iff.mpr ⟨by simp, fun d' hd' => ?_⟩
  rw [Function.update_of_ne (ne_of_lt hd')]
  exact h d' hd'

@[simp] theorem argfdOf_fd (t : Table) (d : Fd) :
    argfdOf t ((d : Nat) : Int) = (t d).map fun f => (d, f) := by
  have hd : ((d : Nat) : Int) < nofile := by exact_mod_cast d.isLt
  simp only [argfdOf, Int.natCast_nonneg, hd, and_self, if_true, Int.toNat_natCast, Fin.ofNat_val_eq_self]

/-- A close of a descriptor frees it, whether it was open or not. -/
theorem apply_close (t : Table) (d : Fd) :
    (FdCall.close ((d : Nat) : Int)).apply t = Function.update t d none := by
  simp only [FdCall.apply, argfdOf_fd]
  cases hd : t d with
  | none =>
    simp only [Option.map_none]
    rw [← hd, Function.update_eq_self]
  | some g => rfl

theorem apply_dup (hd : t d = some f) (he : lowestFree t = some e) :
    (FdCall.dup ((d : Nat) : Int)).apply t = Function.update t e (some f) := by
  simp [FdCall.apply, hd, he]

end Tables

/-! ## The calls on the kernel's state -/

section Calls

variable {s s' : Sys} {c p np : Procs.Slot} {f : FileIdx} {fd r : Int}
  {hi : Multiset Nat} {he : Multiset (Nat × Bool)}

theorem argfd_eq_argfdOf (s : Sys) (p : Procs.Slot) (fd : Int) : argfd s p fd = argfdOf (s.ofile p) fd := by
  unfold argfd argfdOf
  split_ifs with h
  · simp only [Fin.ofNat, Nat.mod_eq_of_lt (show fd.toNat < nofile by omega)]
  · rfl

theorem fdalloc_eq (s : Sys) (p : Procs.Slot) (f : FileIdx) :
    fdalloc s p f = (lowestFree (s.ofile p)).map fun fd => (s.setOfile p fd (some f), fd) := by
  unfold fdalloc lowestFree
  split <;> simp_all

/-- A descriptor holds one reference to its file. -/
theorem Acct.one_le_ref (ha : Acct 0 hi he s) {d : Fd} (h : s.ofile p d = some f) :
    1 ≤ (s.ftable f).ref := by
  have hterm : (if s.ofile p d = some f then 1 else 0) ≤ fdCount s.ofile f :=
    Finset.single_le_sum (f := fun x : Procs.Slot × Fd => if s.ofile x.1 x.2 = some f then 1 else 0)
      (fun _ _ => Nat.zero_le _) (Finset.mem_univ (p, d))
  rw [if_pos h] at hterm
  rw [ha.ref_eq f]
  omega

/-- A file in use is named by a descriptor. -/
theorem Acct.exists_holder (ha : Acct 0 hi he s) (h : (s.ftable f).ref ≠ 0) :
    ∃ p d, s.ofile p d = some f := by
  rw [ha.ref_eq f, Multiset.count_zero, add_zero] at h
  obtain ⟨⟨p, d⟩, -, hx⟩ := Finset.exists_ne_zero_of_sum_ne_zero h
  exact ⟨p, d, by_contra fun hne => hx (if_neg hne)⟩

/-- A file named by exactly one descriptor is counted once. -/
theorem fdCount_eq_one {o : Procs.Slot → Fd → Option FileIdx} {a : Procs.Slot} {b : Fd}
    (h : ∀ q d, o q d = some f ↔ q = a ∧ d = b) : fdCount o f = 1 := by
  unfold fdCount
  rw [Finset.sum_eq_single (a, b)]
  · simp [(h a b).mpr ⟨rfl, rfl⟩]
  · rintro ⟨q, d⟩ - hne
    refine if_neg fun hq => hne ?_
    obtain ⟨rfl, rfl⟩ := (h q d).mp hq
    rfl
  · intro habs
    exact absurd (Finset.mem_univ _) habs

theorem fileclose_ok (h : 1 ≤ (s.ftable f).ref) : ∃ s', fileclose s f = .ok s' := by
  unfold fileclose
  dsimp only
  rw [if_neg (by omega)]
  split_ifs
  · exact ⟨_, rfl⟩
  · cases (s.ftable f).type <;> exact ⟨_, rfl⟩

/-- `fileclose` changes the entry of its file alone: one reference fewer, or
cleared with the last. -/
theorem fileclose_ftable (h : fileclose s f = .ok s') :
    (∀ g, g ≠ f → s'.ftable g = s.ftable g) ∧
      (s'.ftable f = { s.ftable f with ref := (s'.ftable f).ref } ∨
        (s'.ftable f).ref = 0 ∧ (s'.ftable f).type = .none) := by
  rcases fileclose_cases h with ⟨-, rfl⟩ | ⟨-, hcase⟩
  · refine ⟨fun g hg => by simp [Function.update_of_ne hg], .inl (by simp)⟩
  · -- the file is cleared; what it was open on changes beside the table
    have hcl : s'.ftable = Function.update s.ftable f (cleared (s.ftable f)) := by
      rcases hcase with ⟨-, rfl⟩ | ⟨-, rfl⟩ | ⟨-, rfl⟩
      · simp [pipeclose_eq]
      · rfl
      · rfl
    rw [hcl]
    exact ⟨fun g hg => by simp [Function.update_of_ne hg], .inr (by simp [cleared])⟩

theorem fileclose_npipes (h : fileclose s f = .ok s') : s'.npipes = s.npipes := by
  rcases fileclose_cases h with ⟨-, rfl⟩ | ⟨-, ⟨-, rfl⟩ | ⟨-, rfl⟩ | ⟨-, rfl⟩⟩
  · rfl
  · simp [pipeclose_eq]
  · rfl
  · rfl

/-- A file that `fileclose` leaves open on an end of a pipe was open on it. -/
theorem fileclose_onEnd (h : fileclose s f = .ok s') {g : FileIdx} {q : Nat} {w : Bool}
    (hg : (s'.ftable g).OnEnd q w) : (s.ftable g).OnEnd q w := by
  obtain ⟨hne, hf⟩ := fileclose_ftable h
  by_cases hgf : g = f
  · subst hgf
    rcases hf with hf | ⟨-, htype⟩
    · rw [hf] at hg
      exact hg
    · exact absurd hg.1 (by simp [htype])
  · rwa [hne g hgf] at hg

theorem sysClose_ok (ha : Acct 0 hi 0 s) : ∃ s' r, sysClose s c fd = .ok (s', r) := by
  unfold sysClose
  split
  · exact ⟨_, _, rfl⟩
  · rename_i d g hargfd
    obtain ⟨s₁, h₁⟩ := fileclose_ok (s := s.setOfile c d none) (f := g)
      (by simpa using ha.one_le_ref (argfd_spec hargfd))
    exact ⟨s₁, 0, by rw [h₁]; rfl⟩

theorem sysDup_ok (ha : Acct 0 hi 0 s) : ∃ s' r, sysDup s c fd = .ok (s', r) := by
  unfold sysDup
  split
  · exact ⟨_, _, rfl⟩
  · rename_i d g hargfd
    split
    · exact ⟨_, _, rfl⟩
    · rename_i s₁ e hfd
      obtain ⟨-, rfl⟩ := fdalloc_spec hfd
      have href : ¬(s.ftable g).ref < 1 := by
        have := ha.one_le_ref (argfd_spec hargfd)
        omega
      exact ⟨_, _, by simp only [filedup, Sys.setOfile_ftable, if_neg href]; rfl⟩

/-- `sys_close` does to the caller's table what `FdCall.apply` says. -/
theorem sysClose_ofile (h : sysClose s c fd = .ok (s', r)) :
    s'.ofile c = (FdCall.close fd).apply (s.ofile c) := by
  unfold sysClose at h
  rw [FdCall.apply, ← argfd_eq_argfdOf]
  rcases hargfd : argfd s c fd with _ | ⟨d, g⟩
  · rw [hargfd] at h
    cases h
    rfl
  · rw [hargfd] at h
    obtain ⟨s₁, hclose, h⟩ := Except.bind_eq_ok_iff.mp h
    cases h
    rw [(fileclose_procs hclose).2.1]
    simp

theorem sysDup_ofile (h : sysDup s c fd = .ok (s', r)) :
    s'.ofile c = (FdCall.dup fd).apply (s.ofile c) := by
  unfold sysDup at h
  rw [FdCall.apply, ← argfd_eq_argfdOf]
  rcases hargfd : argfd s c fd with _ | ⟨d, g⟩
  · rw [hargfd] at h
    cases h
    rfl
  · rw [hargfd] at h
    dsimp only at h ⊢
    rw [fdalloc_eq] at h
    cases hlow : lowestFree (s.ofile c) with
    | none =>
      simp only [hlow, Option.map_none] at h
      cases h
      rfl
    | some e =>
      simp only [hlow, Option.map_some] at h
      obtain ⟨s₂, hdup, h⟩ := Except.bind_eq_ok_iff.mp h
      cases h
      obtain ⟨-, rfl⟩ := filedup_spec hdup
      simp

theorem FdCall.run_ok (ha : Acct 0 hi 0 s) (call : FdCall) : ∃ s' r, call.run s c = .ok (s', r) := by
  cases call with
  | close fd => exact sysClose_ok ha
  | dup fd => exact sysDup_ok ha

theorem FdCall.run_ofile {call : FdCall} (h : call.run s c = .ok (s', r)) :
    s'.ofile c = call.apply (s.ofile c) := by
  cases call with
  | close fd => exact sysClose_ofile h
  | dup fd => exact sysDup_ofile h

theorem FdCall.run_acct {call : FdCall} (ha : Acct 0 hi 0 s) (h : call.run s c = .ok (s', r)) :
    Acct 0 hi 0 s' ∧ Frame c s s' := by
  cases call with
  | close fd => exact sysClose_acct ha h
  | dup fd => exact sysDup_acct ha h

theorem RefsOnly.refl (s : Sys) : RefsOnly s s := fun _ => rfl

theorem RefsOnly.trans {s₁ s₂ : Sys} (h₁ : RefsOnly s s₁) (h₂ : RefsOnly s₁ s₂) : RefsOnly s s₂ :=
  fun f => by rw [h₂ f, h₁ f]

theorem RefsOnly.kept (h : RefsOnly s s') : Kept s s' := fun f _ => h f

theorem RefsOnly.onEnd (h : RefsOnly s s') {q : Nat} {w : Bool} :
    (s'.ftable f).OnEnd q w ↔ (s.ftable f).OnEnd q w := by
  rw [h f]
  rfl

theorem Kept.onEnd (hk : Kept s s') {d : Fd} (hf : s'.ofile p d = some f) {q : Nat} {w : Bool} :
    (s'.ftable f).OnEnd q w ↔ (s.ftable f).OnEnd q w := by
  rw [hk f ⟨p, d, hf⟩]
  rfl

theorem filedup_refsOnly (h : filedup s f = .ok s') : RefsOnly s s' := by
  obtain ⟨-, rfl⟩ := filedup_spec h
  intro g
  by_cases hg : g = f
  · subst hg
    simp
  · simp [Function.update_of_ne hg]

theorem sysDup_refsOnly (h : sysDup s c fd = .ok (s', r)) : RefsOnly s s' := by
  unfold sysDup at h
  split at h
  · cases h
    exact .refl s
  · split at h
    · cases h
      exact .refl s
    · rename_i s₁ e hfd
      obtain ⟨s₂, hdup, h⟩ := Except.bind_eq_ok_iff.mp h
      cases h
      obtain ⟨-, rfl⟩ := fdalloc_spec hfd
      have hrefs := filedup_refsOnly hdup
      exact hrefs

/-- A close may clear the file it closes, but then no descriptor names it
any more. -/
theorem sysClose_kept (ha : Acct 0 hi 0 s) (h : sysClose s c fd = .ok (s', r)) : Kept s s' := by
  have ha' := (sysClose_acct ha h).1
  unfold sysClose at h
  split at h
  · cases h
    exact (RefsOnly.refl s).kept
  · rename_i d g hargfd
    obtain ⟨s₁, hclose, h⟩ := Except.bind_eq_ok_iff.mp h
    cases h
    obtain ⟨hne, hg⟩ := fileclose_ftable hclose
    rintro f ⟨q, e, hfe⟩
    by_cases hfg : f = g
    · subst hfg
      rcases hg with hg | ⟨hzero, -⟩
      · exact hg
      · -- a named file has a reference, so it was not the cleared one
        have := ha'.one_le_ref hfe
        omega
    · rw [hne f hfg]
      rfl

theorem FdCall.run_kept {call : FdCall} (ha : Acct 0 hi 0 s) (h : call.run s c = .ok (s', r)) :
    Kept s s' := by
  cases call with
  | close fd => exact sysClose_kept ha h
  | dup fd => exact (sysDup_refsOnly h).kept

theorem FdCall.step {call : FdCall} (hc : (s.pt.proc c).state = .running)
    (h : call.run s c = .ok (s', r)) : Step s s' := by
  cases call with
  | close fd => exact .close hc h
  | dup fd => exact .dup hc h

/-- A file with no reference is named by no descriptor. -/
theorem Acct.not_named (ha : Acct 0 hi he s) (h : (s.ftable f).ref = 0) (p : Procs.Slot) (d : Fd) :
    s.ofile p d ≠ some f := fun hf => by
  have := ha.one_le_ref hf
  omega

/-- A `pipealloc` that succeeds makes the next pipe, with a read file and a
write file on its ends that had no reference before. -/
theorem pipealloc_some {page : Option (Nat → UInt8)} {f0 f1 : FileIdx}
    (h : pipealloc s page = .ok (s', some (f0, f1))) :
    (s.ftable f0).ref = 0 ∧ (s.ftable f1).ref = 0 ∧ f0 ≠ f1 ∧ s'.ofile = s.ofile ∧
      (s'.ftable f0).OnEnd s.npipes false ∧ (s'.ftable f1).OnEnd s.npipes true := by
  unfold pipealloc at h
  split at h
  · cases h
  · rename_i s₁ g0 h0
    obtain ⟨hz0, rfl⟩ := filealloc_spec h0
    split at h
    · simp [Except.bind_eq_ok_iff, pure, Except.pure] at h
    · rename_i s₂ g1 h1
      obtain ⟨hz1, rfl⟩ := filealloc_spec h1
      have hne : g0 ≠ g1 := by
        rintro rfl
        simp at hz1
      split at h
      · simp [Except.bind_eq_ok_iff, pure, Except.pure] at h
      · cases h
        simp only [Sys.setFile_ftable, Function.update_of_ne hne.symm] at hz1
        refine ⟨hz0, hz1, hne, rfl, ?_, ?_⟩
        · simp [Function.update_of_ne hne]
        · simp

/-- A `sys_pipe` that returns 0 puts the read file and the write file of a
new pipe in the two lowest free descriptors of the caller. -/
theorem sysPipe_ok {page : Option (Nat → UInt8)} (h : sysPipe s c true page = .ok (s', 0)) :
    ∃ rf wf fd0 fd1, lowestFree (s.ofile c) = some fd0 ∧
      lowestFree (Function.update (s.ofile c) fd0 (some rf)) = some fd1 ∧
      s'.ofile c = Function.update (Function.update (s.ofile c) fd0 (some rf)) fd1 (some wf) ∧
      (∀ q, q ≠ c → s'.ofile q = s.ofile q) ∧
      (s.ftable rf).ref = 0 ∧ (s.ftable wf).ref = 0 ∧ rf ≠ wf ∧
      (s'.ftable rf).OnEnd s.npipes false ∧ (s'.ftable wf).OnEnd s.npipes true := by
  unfold sysPipe at h
  split at h
  · cases h
  · obtain ⟨⟨s₁, files⟩, hpa, h⟩ := Except.bind_eq_ok_iff.mp h
    dsimp only at h
    split at h
    · cases h
    · rename_i rf wf
      obtain ⟨hz0, hz1, hne, hof₁, hend₀, hend₁⟩ := pipealloc_some hpa
      rw [fdalloc_eq] at h
      cases h0 : lowestFree (s₁.ofile c) with
      | none =>
        -- no descriptor for the read end: `-1`
        simp [h0, pure, Except.pure] at h
      | some fd0 =>
        simp only [h0, Option.map_some] at h
        rw [fdalloc_eq] at h
        cases h1 : lowestFree (Function.update (s₁.ofile c) fd0 (some rf)) with
        | none =>
          simp [h1, pure, Except.pure] at h
        | some fd1 =>
          simp only [Sys.setOfile_ofile, Function.update_self, h1, Option.map_some] at h
          cases h
          rw [hof₁] at h0
          refine ⟨rf, wf, fd0, fd1, h0, by simpa [hof₁] using h1, by simp [hof₁],
            fun q hq => by simp [Function.update_of_ne hq, hof₁], hz0, hz1, hne,
            by simpa using hend₀, by simpa using hend₁⟩

/-- A call from a reachable state: the next state is reachable, the
caller's table is what `FdCall.apply` says, the others are as they were, and
every file still named is the one it was. -/
theorem Reachable.call {call : FdCall} (hs : Reachable s) (hc : (s.pt.proc c).state = .running)
    (h : call.run s c = .ok (s', r)) :
    Reachable s' ∧ s'.ofile c = call.apply (s.ofile c) ∧ (∀ q, q ≠ c → s'.ofile q = s.ofile q) ∧
      Kept s s' := by
  have ha := hs.inv.acct
  exact ⟨.step hs (FdCall.step hc h), FdCall.run_ofile h, (FdCall.run_acct ha h).2.ofile,
    FdCall.run_kept ha h⟩

end Calls

/-! ## `fork` and `exit` -/

section ForkExit

variable {s s' : Sys} {c np : Procs.Slot} {r : Int}

/-- The loop of `fork` copies each open descriptor of the parent into the
child's and changes nothing else but counts. -/
theorem forkFiles_ofile {fds : List Fd} (hcn : c ≠ np) (h : forkFiles c np fds s = .ok s') :
    (∀ q, q ≠ np → s'.ofile q = s.ofile q) ∧
      (∀ fd, s'.ofile np fd = if fd ∈ fds then (s.ofile c fd).or (s.ofile np fd) else s.ofile np fd) ∧
      RefsOnly s s' := by
  induction fds generalizing s with
  | nil =>
    cases h
    exact ⟨fun _ _ => rfl, fun _ => by simp, .refl _⟩
  | cons fd fds ih =>
    simp only [forkFiles] at h
    split at h
    · rename_i hnone
      obtain ⟨hq, hnp, hrefs⟩ := ih h
      refine ⟨hq, fun g => ?_, hrefs⟩
      rw [hnp g]
      by_cases hg : g = fd
      · subst hg
        simp [hnone]
      · simp [hg]
    · rename_i g hg
      obtain ⟨s₁, hdup, h⟩ := Except.bind_eq_ok_iff.mp h
      obtain ⟨-, rfl⟩ := filedup_spec hdup
      obtain ⟨hq, hnp, hrefs⟩ := ih h
      refine ⟨fun q hqn => ?_, fun e => ?_, (filedup_refsOnly hdup).trans hrefs⟩
      · rw [hq q hqn]
        simp [Function.update_of_ne hqn]
      · rw [hnp e]
        by_cases he : e = fd
        · subst he
          simp [Function.update_of_ne hcn, hg]
        · simp [Function.update_of_ne hcn, he]

/-- A `fork` that copies the address space gives the child a copy of the
parent's table. -/
theorem fork_ofile {pt : PTable} (hc : (s.pt.proc c).state = .running)
    (hidle : ∀ fd, s.ofile np fd = none) (halloc : allocproc s.pt = some (pt, np))
    (h : fork s c true = .ok (s', r)) :
    s'.ofile np = s.ofile c ∧ (∀ q, q ≠ np → s'.ofile q = s.ofile q) ∧ RefsOnly s s' := by
  have hcn : c ≠ np := by
    rintro rfl
    rw [(allocproc_spec halloc).1] at hc
    cases hc
  unfold Files.fork at h
  rw [halloc] at h
  dsimp only at h
  obtain ⟨s₁, hfiles, h⟩ := Except.bind_eq_ok_iff.mp h
  obtain ⟨hq, hnp, hrefs⟩ := forkFiles_ofile hcn hfiles
  split at h
  · cases h
  · rename_i ip hip
    cases h
    refine ⟨funext fun fd => ?_, hq, hrefs⟩
    simpa [hidle fd] using hnp fd

/-- The loop of `fork` does not fault while every file of the parent has a
reference: each `filedup` only adds one. -/
theorem forkFiles_ok {l : List Fd} (hcn : c ≠ np)
    (href : ∀ fd f, s.ofile c fd = some f → 1 ≤ (s.ftable f).ref) :
    ∃ s', forkFiles c np l s = .ok s' := by
  induction l generalizing s with
  | nil => exact ⟨s, rfl⟩
  | cons fd fds ih =>
    simp only [forkFiles]
    split
    · exact ih href
    · rename_i f hf
      have hdup : filedup s f = .ok (s.setFile f { s.ftable f with ref := (s.ftable f).ref + 1 }) := by
        have := href fd f hf
        simp only [filedup, if_neg (show ¬(s.ftable f).ref < 1 by omega)]
      rw [hdup]
      refine ih fun e g hg => ?_
      simp only [Sys.setOfile_ofile, Function.update_of_ne hcn, Sys.setFile_ofile] at hg
      have := href e g hg
      by_cases hgf : g = f
      · subst hgf
        simp
      · simp [Function.update_of_ne hgf, this]

theorem forkFiles_procs {fds : List Fd} (h : forkFiles c np fds s = .ok s') :
    s'.pt = s.pt ∧ s'.cwd = s.cwd := by
  induction fds generalizing s with
  | nil =>
    cases h
    exact ⟨rfl, rfl⟩
  | cons fd fds ih =>
    simp only [forkFiles] at h
    split at h
    · exact ih h
    · obtain ⟨s₁, hdup, h⟩ := Except.bind_eq_ok_iff.mp h
      obtain ⟨-, rfl⟩ := filedup_spec hdup
      obtain ⟨hpt, hcwd⟩ := ih h
      exact ⟨hpt, hcwd⟩

/-- `allocproc` finds a slot while one is unused. -/
theorem allocproc_of_unused {t : PTable} {p : Procs.Slot} (hp : (t.proc p).state = .unused) :
    ∃ t' np, allocproc t = some (t', np) := by
  unfold allocproc
  cases hfind : (List.finRange nproc).find? (fun q => decide ((t.proc q).state = .unused)) with
  | none =>
    have := List.find?_eq_none.mp hfind p (List.mem_finRange p)
    simp [hp] at this
  | some q => exact ⟨_, _, rfl⟩

/-- From a reachable state, a `fork` by a running process that copies the
address space succeeds whenever `allocproc` finds a slot, and leaves the
child runnable and every other process in its state. -/
theorem fork_ok {pt : PTable} (hs : Reachable s) (hc : (s.pt.proc c).state = .running)
    (halloc : allocproc s.pt = some (pt, np)) :
    ∃ s' pid, fork s c true = .ok (s', pid) ∧ (s'.pt.proc np).state = .runnable ∧
      ∀ q, q ≠ np → (s'.pt.proc q).state = (s.pt.proc q).state := by
  obtain ⟨hunused, hproc⟩ := allocproc_spec halloc
  have hcn : c ≠ np := by
    rintro rfl
    rw [hunused] at hc
    cases hc
  have ha := hs.inv.acct
  obtain ⟨s₁, hfiles⟩ := forkFiles_ok (l := List.finRange nofile) (s := { s with pt := pt }) hcn
    fun fd f hf => ha.one_le_ref hf
  obtain ⟨hpt₁, hcwd₁⟩ := forkFiles_procs hfiles
  -- a running process has a current directory
  obtain ⟨ip, hip⟩ := Option.isSome_iff_exists.mp (hs.inv.cwd_live c (hc ▸ ProcState.live_running))
  have hip₁ : s₁.cwd c = some ip := by rw [hcwd₁]; exact hip
  refine ⟨{ (s₁.addIref ip 1).setCwd np (some ip) with
      pt := forkFinish ((s₁.addIref ip 1).setCwd np (some ip)).pt c np true }, (pt.proc np).pid, ?_, ?_,
    fun q hq => ?_⟩
  · unfold Files.fork
    rw [halloc]
    simp only [Bool.not_true, Bool.false_eq_true, ite_false]
    rw [hfiles]
    simp only [bind, Except.bind, hip₁]
    rfl
  · simp [forkFinish, hpt₁]
  · simp [forkFinish, hpt₁, PTable.set_proc_of_ne _ _ hq, hproc, Function.update_of_ne hq]

/-- The loop of `exit` clears the descriptors it is given, and changes in
the open-file table only files they name, each of which at most loses what
it was open on. -/
theorem exitFiles_spec {fds : List Fd} (h : exitFiles c fds s = .ok s') :
    (∀ q, q ≠ c → s'.ofile q = s.ofile q) ∧
      (∀ fd, s'.ofile c fd = if fd ∈ fds then none else s.ofile c fd) ∧
      (∀ f, (∀ fd ∈ fds, s.ofile c fd ≠ some f) → s'.ftable f = s.ftable f) ∧
      (∀ f q w, (s'.ftable f).OnEnd q w → (s.ftable f).OnEnd q w) ∧ s'.npipes = s.npipes := by
  induction fds generalizing s with
  | nil =>
    cases h
    exact ⟨fun _ _ => rfl, fun _ => by simp, fun _ _ => rfl, fun _ _ _ => id, rfl⟩
  | cons fd fds ih =>
    simp only [exitFiles] at h
    split at h
    · rename_i hnone
      obtain ⟨hq, hc, hft, hend, hnp⟩ := ih h
      refine ⟨hq, fun e => ?_, fun f hf => hft f fun e he => hf e (.tail _ he), hend, hnp⟩
      rw [hc e]
      by_cases he : e = fd
      · subst he
        simp [hnone]
      · simp [he]
    · rename_i g hg
      obtain ⟨s₁, hclose, h⟩ := Except.bind_eq_ok_iff.mp h
      obtain ⟨-, hof₁, -, -⟩ := fileclose_procs hclose
      obtain ⟨hne, -⟩ := fileclose_ftable hclose
      obtain ⟨hq, hc, hft, hend, hnp⟩ := ih h
      refine ⟨fun q hqc => ?_, fun e => ?_, fun f hf => ?_, fun f q w hfe => ?_,
        hnp.trans (fileclose_npipes hclose :)⟩
      · simp [hq q hqc, Function.update_of_ne hqc, hof₁]
      · rw [hc e]
        by_cases he : e = fd
        · subst he
          simp
        · simp [he, hof₁]
      · -- a file the cleared descriptors do not name is not the one closed
        have hfg : f ≠ g := fun hfg => hf fd (.head _) (hfg ▸ hg)
        rw [hft f fun e he => ?_]
        · exact hne f hfg
        · by_cases hef : e = fd
          · subst hef
            simp
          · simpa [hef, hof₁] using hf e (.tail _ he)
      · exact fileclose_onEnd hclose (hend f q w hfe)

/-- `exit` clears the caller's table and changes nothing else of the
tables; in the open-file table it changes only files the caller named, each
of which at most loses what it was open on. -/
theorem exit_clears (h : exit s c = .ok s') :
    (∀ fd, s'.ofile c fd = none) ∧ (∀ q, q ≠ c → s'.ofile q = s.ofile q) ∧
      (∀ f, (∀ fd, s.ofile c fd ≠ some f) → s'.ftable f = s.ftable f) ∧
      (∀ f q w, (s'.ftable f).OnEnd q w → (s.ftable f).OnEnd q w) ∧ s'.npipes = s.npipes := by
  unfold Files.exit at h
  split at h
  · cases h
  · obtain ⟨s₁, hfiles, h⟩ := Except.bind_eq_ok_iff.mp h
    obtain ⟨hq, hc, hft, hend, hnp⟩ := exitFiles_spec hfiles
    split at h
    · cases h
    · dsimp only at h
      split at h
      · cases h
      · cases h
        refine ⟨fun fd => by simpa [Files.iput] using hc fd, fun q hqc => hq q hqc,
          fun f hf => hft f fun fd _ => hf fd, hend, hnp⟩

/-- At most one file is on an end of a pipe. -/
theorem Acct.onEnd_unique {hi : Multiset Nat} {f g : FileIdx} {q : Nat} {w : Bool}
    (ha : Acct 0 hi 0 s) (hq : q < s.npipes) (hf : (s.ftable f).OnEnd q w)
    (hg : (s.ftable g).OnEnd q w) : f = g := by
  by_contra hne
  have hends := ha.ends q hq w
  have hpair : 2 ≤ pipeEnds s.ftable q w := by
    have hsub := Finset.sum_le_sum_of_subset (f := fun x : FileIdx =>
      if (s.ftable x).OnEnd q w then 1 else 0) (Finset.subset_univ {f, g})
    rw [Finset.sum_pair hne, if_pos hf, if_pos hg] at hsub
    exact hsub
  have hle : (endOpen (s.pipes q) w).toNat ≤ 1 := Bool.toNat_le _
  simp only [Multiset.count_zero, Nat.add_zero] at hends
  omega

/-- An end with a file on it is open. -/
theorem Acct.endOpen_of_onEnd {hi : Multiset Nat} {g : FileIdx} {q : Nat} {w : Bool}
    (ha : Acct 0 hi 0 s) (hg : (s.ftable g).OnEnd q w) : endOpen (s.pipes q) w = true := by
  have hlt : q < s.npipes := by simpa [hg.2.1] using ha.pipe_lt g hg.1
  have hends := ha.ends q hlt w
  have hpos : 1 ≤ pipeEnds s.ftable q w :=
    le_of_eq_of_le (by rw [if_pos hg]) (Finset.single_le_sum (f := fun x : FileIdx =>
      if (s.ftable x).OnEnd q w then 1 else 0) (fun _ _ => Nat.zero_le _) (Finset.mem_univ g))
  rw [Multiset.count_zero, Nat.add_zero] at hends
  cases hopen : endOpen (s.pipes q) w
  · simp [hopen] at hends
    omega
  · rfl

/-- When `c` holds the only descriptors naming the file on an end of a
pipe, `c`'s exit closes that end. -/
theorem exit_closes_end {f : FileIdx} {q : Nat} {w : Bool} (hs : Reachable s)
    (hf : (s.ftable f).OnEnd q w) (honly : ∀ p d, s.ofile p d = some f → p = c)
    (h : exit s c = .ok s') : endOpen (s'.pipes q) w = false := by
  obtain ⟨hc, hq, -, hend, hnp⟩ := exit_clears h
  have ha := hs.inv.acct
  have ha' := (hs.inv.exit h).acct
  have hlt : q < s.npipes := by simpa [hf.2.1] using ha.pipe_lt f hf.1
  -- no descriptor names the file any more, so it is closed
  have hgone : (s'.ftable f).type = .none := by
    refine ha'.closed f ?_
    rw [ha'.ref_eq f, Multiset.count_zero, Nat.add_zero]
    refine Finset.sum_eq_zero fun x _ => if_neg fun hx => ?_
    by_cases hxc : x.1 = c
    · rw [hxc, hc] at hx
      cases hx
    · rw [hq x.1 hxc] at hx
      exact hxc (honly x.1 x.2 hx)
  -- and it was the only file on the end
  have hnone : ∀ g, ¬(s'.ftable g).OnEnd q w := fun g hg => by
    obtain rfl := ha.onEnd_unique hlt hf (hend g q w hg)
    exact absurd hg.1 (by simp [hgone])
  have hends := ha'.ends q (hnp ▸ hlt) w
  rw [pipeEnds_eq_zero hnone, Multiset.count_zero, Nat.add_zero] at hends
  cases hopen : endOpen (s'.pipes q) w
  · rfl
  · simp [hopen] at hends

/-- An end of a pipe stays open through an exit of a process that does not
name the file on it. -/
theorem exit_keeps_end {g : FileIdx} {q : Nat} {w : Bool} (hs : Reachable s)
    (hg : (s.ftable g).OnEnd q w) (hnot : ∀ e, s.ofile c e ≠ some g) (h : exit s c = .ok s') :
    endOpen (s'.pipes q) w = true := by
  obtain ⟨-, -, hft, -, -⟩ := exit_clears h
  have hg' : (s'.ftable g).OnEnd q w := by rwa [hft g hnot]
  exact (hs.inv.exit h).acct.endOpen_of_onEnd hg'

end ForkExit

end Xv6.Files
