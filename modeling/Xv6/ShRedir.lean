import Xv6.ShParse
import Xv6.ShRuncmd

/-!
# Redirections in `runcmd`

The REDIR case of `runcmd` in `sh.c` closes the redirected descriptor and
opens the file, which lands on that descriptor because `fdalloc` takes the
lowest free one and the descriptors below it are open.  `parseredirs` wraps
each redirection around the ones before it on the line, so `runcmd` meets the
last one first, and on each descriptor the first redirection of the line is
the one in force when the command runs: `echo hi > a > b` creates `b` and
writes to `a`.

`runRedirs` follows `runcmd` down the redirections of a command.  `RedirInv`
says what the redirections made so far have done to the caller's table: a
redirected descriptor holds a file of its own, open as its mode says, and
every other descriptor, of the caller or of any other process, is as it was.
Each redirection keeps it (`RedirInv.redir`), so once through, the innermost
redirection on each descriptor is in force (`redirs_innermost`), no file that
an outer one opened stays open (`redirs_no_leak`), and with the names found
and room in the file table the process never takes the `exit` of a failed
`open` (`redirs_run_through`).
-/

namespace Xv6.Sh

open Files Procs

/-- The REDIR case of `runcmd`, followed down the redirections of `cmd` by
process `c`: `close(rcmd->fd)`, then `open(rcmd->file, rcmd->mode)`, and the
message and `exit()` when the open fails.  `found` and `allowed` stand for the
first half of `sys_open` on the file named at a span of the line: what `namei`
or `create` finds, and the verdict of the permission checks.  The result is
the state and the command under the redirections, or `none` once the process
has exited. -/
def runRedirs (found : Nat × Nat → Option Nat) (allowed : Nat × Nat → Bool) (c : Procs.Slot) :
    Sys → Cmd → Except Fault (Sys × Option Cmd)
  | s, .redir cmd file mode fd => do
    let (s, _) ← sysClose s c fd.toInt
    let (s, r) ← Files.sysOpen s c (found file) (allowed file) mode
    if r < 0 then
      let s ← Files.exit s c
      return (s, none)
    runRedirs found allowed c s cmd
  | s, cmd => .ok (s, some cmd)

/-- The redirections of a command as `runcmd` meets them, outermost first:
descriptor, mode and the span of the file's name. -/
def Cmd.redirs : Cmd → List (Int32 × Int32 × (Nat × Nat))
  | .redir cmd file mode fd => (fd, mode, file) :: cmd.redirs
  | _ => []

/-- The command `runcmd` reaches under the redirections. -/
def Cmd.under : Cmd → Cmd
  | .redir cmd _ _ _ => cmd.under
  | cmd => cmd

/-- The redirection in force on descriptor `d` once `runcmd` is through the
redirections of a command: the innermost one on `d`. -/
def Cmd.redirOn (d : Int) : Cmd → Option (Int32 × (Nat × Nat))
  | .redir cmd file mode fd => (cmd.redirOn d).or (if fd.toInt = d then some (mode, file) else none)
  | _ => none

/-- A file as `sys_open` sets it for `omode` on inode slot `ip`. -/
def OpenedAs (x : Files.File) (ip : Nat) (omode : Int32) : Prop :=
  x.type = .inode ∧ x.ip = ip ∧ x.readable = (omode &&& oWronly == 0) ∧
    x.writable = (omode &&& oWronly != 0 || omode &&& oRdwr != 0)

instance (x : Files.File) (ip : Nat) (omode : Int32) : Decidable (OpenedAs x ip omode) :=
  inferInstanceAs (Decidable (_ ∧ _ ∧ _ ∧ _))

/-- The entries of the file table that are free. -/
def freeFiles (s : Sys) : Finset FileIdx := Finset.univ.filter fun f => (s.ftable f).ref = 0

/-! ## One redirection -/

section Calls

variable {s s' : Sys} {c : Procs.Slot} {r x : Int}

/-- `close` changes no entry of the file table but that of the file it
closes. -/
theorem sysClose_ftable_of_ne {D : Fd} (h : sysClose s c ((D : Nat) : Int) = .ok (s', x))
    {g : FileIdx} (hg : s.ofile c D ≠ some g) : s'.ftable g = s.ftable g := by
  unfold sysClose at h
  rw [argfd_eq_argfdOf, argfdOf_fd] at h
  cases hD : s.ofile c D with
  | none =>
    simp only [hD, Option.map_none] at h
    cases h
    rfl
  | some f =>
    simp only [hD, Option.map_some] at h
    obtain ⟨s₁, hclose, h⟩ := Except.bind_eq_ok_iff.mp h
    cases h
    have hgf : g ≠ f := fun e => hg (e ▸ hD)
    exact (fileclose_ftable hclose).1 g hgf

/-- `close` takes no entry of the file table out of the free ones. -/
theorem sysClose_freeFiles {D : Fd} (h : sysClose s c ((D : Nat) : Int) = .ok (s', x)) :
    freeFiles s ⊆ freeFiles s' := by
  intro g hg
  simp only [freeFiles, Finset.mem_filter, Finset.mem_univ, true_and] at hg ⊢
  by_cases hgD : s.ofile c D = some g
  · unfold sysClose at h
    rw [argfd_eq_argfdOf, argfdOf_fd, hgD] at h
    obtain ⟨s₁, hclose, -⟩ := Except.bind_eq_ok_iff.mp h
    -- a file with no reference cannot be closed
    rcases fileclose_cases hclose with ⟨hlt, -⟩ | ⟨h1, -⟩ <;> simp [hg] at *
  · rw [sysClose_ftable_of_ne h hgD, hg]

/-- An `open` that returns a descriptor: the name was found, and the call
put a free entry of the file table, now open on the inode as the mode says,
on the lowest free descriptor of the caller. -/
theorem sysOpen_spec {found : Option Nat} {allowed : Bool} {omode : Int32}
    (h : Files.sysOpen s c found allowed omode = .ok (s', r)) (hr : ¬r < 0) :
    ∃ ip g D, found = some ip ∧ (s.ftable g).ref = 0 ∧ lowestFree (s.ofile c) = some D ∧
      r = (D : Nat) ∧ s'.ofile c = Function.update (s.ofile c) D (some g) ∧
      s'.ftable g = { s.ftable g with
          ref := 1
          type := .inode
          ip := ip
          readable := omode &&& oWronly == 0
          writable := omode &&& oWronly != 0 || omode &&& oRdwr != 0 } ∧
      ∀ f, f ≠ g → s'.ftable f = s.ftable f := by
  unfold Files.sysOpen at h
  cases found with
  | none =>
    cases h
    exact absurd (by decide) hr
  | some ip =>
    dsimp only at h
    unfold openFile at h
    split at h
    · cases h
      exact absurd (by decide) hr
    split at h
    · cases h
      exact absurd (by decide) hr
    rename_i s₁ g halloc
    obtain ⟨hfree, rfl⟩ := filealloc_spec halloc
    split at h
    · obtain ⟨s₂, -, h⟩ := Except.bind_eq_ok_iff.mp h
      cases h
      exact absurd (by decide) hr
    rename_i s₂ D hfd
    have hlow := fdalloc_eq _ c g ▸ hfd
    obtain ⟨-, rfl⟩ := fdalloc_spec hfd
    cases h
    refine ⟨ip, g, D, rfl, hfree, by simpa using hlow, rfl, by simp, by simp, fun f hf => ?_⟩
    simp [Function.update_of_ne hf]

/-- A table with a free descriptor has a lowest one. -/
theorem lowestFree_of_free {t : Table} {d : Fd} (h : t d = none) : ∃ e, lowestFree t = some e :=
  Option.isSome_iff_exists.mp (List.find?_isSome.mpr ⟨d, List.mem_finRange d, by simp [h]⟩)

/-- With a free entry in the file table and a free descriptor, an `open`
of a name that was found and allowed returns the lowest free descriptor. -/
theorem sysOpen_ok {ip : Nat} {omode : Int32} {D : Fd} (hfree : (freeFiles s).Nonempty)
    (hlow : lowestFree (s.ofile c) = some D) :
    ∃ s', Files.sysOpen s c (some ip) true omode = .ok (s', (D : Nat)) := by
  obtain ⟨g, hg⟩ := hfree
  -- `filealloc` finds an entry, since `g` is one it may take
  obtain ⟨s₁, g', halloc⟩ : ∃ s₁ g', Files.filealloc (s.addIref ip 1) = some (s₁, g') := by
    unfold Files.filealloc
    cases hfind : (List.finRange nfile).find? (fun f => ((s.addIref ip 1).ftable f).ref == 0) with
    | none =>
      have := List.find?_eq_none.mp hfind g (List.mem_finRange g)
      simp [freeFiles] at hg this
      exact absurd hg this
    | some g' => exact ⟨_, g', rfl⟩
  simp only [Files.sysOpen, openFile, Bool.not_true, halloc, fdalloc_eq]
  obtain ⟨-, rfl⟩ := filealloc_spec halloc
  simp only [Sys.setFile_ofile, Sys.addIref_ofile, hlow, Option.map_some]
  exact ⟨_, rfl⟩

/-- An `open` that returns takes one entry out of the free ones. -/
theorem sysOpen_card {found : Option Nat} {allowed : Bool} {omode : Int32}
    (h : Files.sysOpen s c found allowed omode = .ok (s', r)) (hr : ¬r < 0) :
    (freeFiles s').card + 1 = (freeFiles s).card := by
  obtain ⟨ip, g, D, -, hfree, -, -, -, hg, hne⟩ := sysOpen_spec h hr
  have hfiles : freeFiles s' = (freeFiles s).erase g := by
    ext f
    by_cases hfg : f = g
    · subst hfg
      simp [freeFiles, hg]
    · simp [freeFiles, hne f hfg, hfg]
  rw [hfiles, Finset.card_erase_add_one (by simpa [freeFiles] using hfree)]

end Calls

/-! ## What the redirections made so far have done -/

/-- What the redirections made so far have done to `c`'s table since `s`,
`R d` being the one in force on descriptor `d`: the counts balance, every
other process's table and every descriptor of `c` that no redirection names
is as it was, and a redirected descriptor is the only one on its file, open
on what `found` gave for the name with the mode of its redirection. -/
structure RedirInv (found : Nat × Nat → Option Nat) (c : Procs.Slot) (s t : Sys)
    (R : Fd → Option (Int32 × (Nat × Nat))) : Prop where
  acct : Acct 0 {s.utableIp} 0 t
  others : ∀ p, p ≠ c → t.ofile p = s.ofile p
  kept : ∀ d, R d = none → t.ofile c d = s.ofile c d
  redirected : ∀ d omode file, R d = some (omode, file) →
    ∃ f ip, found file = some ip ∧ t.ofile c d = some f ∧ OpenedAs (t.ftable f) ip omode ∧
      ∀ p e, t.ofile p e = some f → p = c ∧ e = d

section Inv

variable {found : Nat × Nat → Option Nat} {allowed : Nat × Nat → Bool} {c : Procs.Slot}
  {s t t₁ t₂ s' : Sys} {R : Fd → Option (Int32 × (Nat × Nat))} {x r : Int}

theorem RedirInv.start (hs : Reachable s) : RedirInv found c s s fun _ => none :=
  ⟨hs.inv.acct, fun _ _ => rfl, fun _ _ => rfl, fun _ _ _ h => by cases h⟩

/-- No redirection closes a descriptor for good. -/
theorem RedirInv.open_of (hi : RedirInv found c s t R) {d : Fd} (hd : s.ofile c d ≠ none) :
    t.ofile c d ≠ none := by
  cases hR : R d with
  | none => rwa [hi.kept d hR]
  | some x =>
    obtain ⟨f, -, -, hf, -⟩ := hi.redirected d x.1 x.2 hR
    simp [hf]

/-- One redirection, `close(D)` and an `open` that returns, with every
descriptor below `D` open: the file lands on `D`, and the invariant holds
with the redirection in force there. -/
theorem RedirInv.redir (hi : RedirInv found c s t R) {D : Fd} {file : Nat × Nat} {omode : Int32}
    (hlow : ∀ d < D, s.ofile c d ≠ none) (hcl : sysClose t c ((D : Nat) : Int) = .ok (t₁, x))
    (hop : Files.sysOpen t₁ c (found file) (allowed file) omode = .ok (t₂, r)) (hr : ¬r < 0) :
    RedirInv found c s t₂ (Function.update R D (some (omode, file))) := by
  obtain ⟨ha₁, hfr₁⟩ := sysClose_acct hi.acct hcl
  obtain ⟨ha₂, hfr₂⟩ := sysOpen_acct ha₁ hop
  have hof₁ : t₁.ofile c = Function.update (t.ofile c) D none := by
    rw [sysClose_ofile hcl, apply_close]
  obtain ⟨ip, g, E, hfound, hfree, hE, -, hof₂, hg₂, hne₂⟩ := sysOpen_spec hop hr
  -- the open lands on `D`: it is free, and every descriptor below it is open
  have hED : E = D := by
    rw [hof₁, lowestFree_update_none fun d hd => hi.open_of (hlow d hd)] at hE
    exact (Option.some.inj hE).symm
  subst hED
  -- the new file was free after the close, so no descriptor held it
  have hnone : ∀ p e, t₁.ofile p e ≠ some g := by
    intro p e hpe
    have := ha₁.one_le_ref hpe
    omega
  refine ⟨ha₂, fun p hp => ?_, fun d hd => ?_, fun d omode' file' hd => ?_⟩
  · rw [hfr₂.ofile p hp, hfr₁.ofile p hp, hi.others p hp]
  · have hdE : d ≠ E := by
      rintro rfl
      simp at hd
    rw [Function.update_of_ne hdE] at hd
    rw [hof₂, Function.update_of_ne hdE, hof₁, Function.update_of_ne hdE, hi.kept d hd]
  · by_cases hdE : d = E
    · -- the descriptor of this redirection, on the new file
      subst hdE
      obtain ⟨rfl, rfl⟩ : omode = omode' ∧ file = file' := by simpa using hd
      refine ⟨g, ip, hfound, by simp [hof₂], by rw [hg₂]; exact ⟨rfl, rfl, rfl, rfl⟩,
        fun p e hpe => ?_⟩
      by_cases hp : p = c
      · subst hp
        by_cases he : e = d
        · exact ⟨rfl, he⟩
        · rw [hof₂, Function.update_of_ne he] at hpe
          exact absurd hpe (hnone _ _)
      · rw [hfr₂.ofile p hp] at hpe
        exact absurd hpe (hnone _ _)
    · -- an earlier redirection's descriptor: the close of `E` did not reach its file
      rw [Function.update_of_ne hdE] at hd
      obtain ⟨f, ip', hfound', hf, hopen, honly⟩ := hi.redirected d omode' file' hd
      have hfE : t.ofile c E ≠ some f := fun h => hdE (honly c E h).2.symm
      have hf₁ : t₁.ftable f = t.ftable f := sysClose_ftable_of_ne hcl hfE
      have hof₁d : t₁.ofile c d = some f := by rw [hof₁, Function.update_of_ne hdE, hf]
      have hfg : f ≠ g := fun e => hnone c d (e ▸ hof₁d)
      refine ⟨f, ip', hfound', by rw [hof₂, Function.update_of_ne hdE, hof₁d],
        by rw [hne₂ f hfg, hf₁]; exact hopen, fun p e hpe => ?_⟩
      by_cases hp : p = c
      · subst hp
        by_cases he : e = E
        · subst he
          rw [hof₂, Function.update_self, Option.some.injEq] at hpe
          exact absurd hpe.symm hfg
        · rw [hof₂, Function.update_of_ne he, hof₁, Function.update_of_ne he] at hpe
          exact honly p e hpe
      · rw [hfr₂.ofile p hp, hfr₁.ofile p hp] at hpe
        exact honly p e hpe

/-- What a redirection adds to those made before it: it is in force on its
descriptor unless one inside it is. -/
theorem redirOn_redir (cmd : Cmd) (file : Nat × Nat) (omode fd : Int32) {D : Fd}
    (hD : fd.toInt = ((D : Nat) : Int)) (R : Fd → Option (Int32 × (Nat × Nat))) (d : Fd) :
    ((Cmd.redir cmd file omode fd).redirOn d).or (R d) =
      (cmd.redirOn d).or (Function.update R D (some (omode, file)) d) := by
  rw [Cmd.redirOn, Option.or_assoc, hD, Function.update_apply]
  by_cases hdD : d = D
  · simp [hdD]
  · have hne : ((D : Nat) : Int) ≠ ((d : Nat) : Int) := fun h => hdD (Fin.ext (by omega)).symm
    simp [hdD, hne]

/-- The run of the redirections of a command keeps the invariant, with
the innermost redirection on each descriptor in force. -/
theorem RedirInv.run {cmd inner : Cmd} (hi : RedirInv found c s t R)
    (hfd : ∀ x ∈ cmd.redirs, ∃ D : Fd, x.1.toInt = D ∧ ∀ d < D, s.ofile c d ≠ none)
    (h : runRedirs found allowed c t cmd = .ok (s', some inner)) :
    RedirInv found c s s' fun d => (cmd.redirOn d).or (R d) := by
  induction cmd generalizing t R with
  | redir cmd file omode fd ih =>
    obtain ⟨D, hD, hlow⟩ := hfd _ List.mem_cons_self
    simp only [runRedirs, hD] at h
    obtain ⟨⟨t₁, x⟩, hcl, h⟩ := Except.bind_eq_ok_iff.mp h
    obtain ⟨⟨t₂, r⟩, hop, h⟩ := Except.bind_eq_ok_iff.mp h
    by_cases hr : r < 0
    · -- the open failed: the process exits, and does not reach the command
      rw [if_pos hr] at h
      rcases hexit : Files.exit t₂ c with e | s₃ <;>
        simp [hexit, bind, Except.bind, pure, Except.pure] at h
    · rw [if_neg hr] at h
      have hrun := ih (hi.redir hlow hcl hop hr) (fun y hy => hfd y (List.mem_cons_of_mem _ hy)) h
      simpa only [redirOn_redir cmd file omode fd hD R] using hrun
  | _ =>
    -- no redirection: `runcmd` is at the command already
    cases h
    simpa [Cmd.redirOn] using hi

end Inv

/-! ## Through the redirections -/

section Through

variable {found : Nat × Nat → Option Nat} {allowed : Nat × Nat → Bool} {c : Procs.Slot}
  {s s' : Sys} {cmd inner : Cmd}

/-- `echo>a>b`, as `parsecmd` reads it: the redirection to `b`, at bytes 7 to
8 of the line, around the one to `a`, at bytes 5 to 6. -/
def echoTwice : Cmd :=
  ((parsecmd [101, 99, 104, 111, 62, 97, 62, 98, 0]).toOption.map Prod.fst).getD (.exec [])

example : echoTwice.redirOn 1 = some (oWronly ||| oCreate, (5, 6)) := by decide

/-- `initproc`, with the console on descriptors 0 and 1, through the
redirections of `echo>a>b`, the names found in the inode slots 5 and 7. -/
def echoRedirected : Sys :=
  ((runRedirs (fun x => some x.1) (fun _ => true) initproc consoleDup echoTwice).toOption.map
    Prod.fst).getD Files.boot

theorem echoTwice_runs :
    runRedirs (fun x => some x.1) (fun _ => true) initproc consoleDup echoTwice =
      .ok (echoRedirected, some (.exec [(0, 4)])) := rfl

/-- Once through the redirections, a descriptor that a redirection names is
on the file of the innermost one, open on what its name was found to be as
its mode says, and is the only descriptor in the system on that file; every
other descriptor of the process, and the table of every other process, is as
it was. -/
theorem redirs_innermost (hs : Reachable s)
    (hfd : ∀ x ∈ cmd.redirs, ∃ D : Fd, x.1.toInt = D ∧ ∀ d < D, s.ofile c d ≠ none)
    (h : runRedirs found allowed c s cmd = .ok (s', some inner)) :
    (∀ p, p ≠ c → s'.ofile p = s.ofile p) ∧
    ∀ d : Fd, (cmd.redirOn d = none → s'.ofile c d = s.ofile c d) ∧
      ∀ omode file, cmd.redirOn d = some (omode, file) →
        ∃ f ip, found file = some ip ∧ s'.ofile c d = some f ∧ OpenedAs (s'.ftable f) ip omode ∧
          ∀ p e, s'.ofile p e = some f ↔ p = c ∧ e = d := by
  have h₀ : RedirInv found c s s fun _ => none := .start hs
  have hi := h₀.run hfd h
  refine ⟨hi.others, fun d => ⟨fun hd => hi.kept d (by simp [hd]), fun omode file hd => ?_⟩⟩
  obtain ⟨f, ip, hfound, hf, hopen, honly⟩ := hi.redirected d omode file (by simp [hd])
  refine ⟨f, ip, hfound, hf, hopen, fun p e => ⟨honly p e, ?_⟩⟩
  rintro ⟨rfl, rfl⟩
  exact hf

theorem redirs_innermost_echo :
    (∀ p, p ≠ initproc → echoRedirected.ofile p = consoleDup.ofile p) ∧
    ∀ d : Fd, (echoTwice.redirOn d = none →
        echoRedirected.ofile initproc d = consoleDup.ofile initproc d) ∧
      ∀ omode file, echoTwice.redirOn d = some (omode, file) →
        ∃ f ip, some file.1 = some ip ∧ echoRedirected.ofile initproc d = some f ∧
          OpenedAs (echoRedirected.ftable f) ip omode ∧
          ∀ p e, echoRedirected.ofile p e = some f ↔ p = initproc ∧ e = d :=
  redirs_innermost reachable_consoleDup (by decide) echoTwice_runs

/-- No file that a redirection opened stays in use but those in force: an
entry of the file table free before the redirections and in use after them is
the file of a redirected descriptor. -/
theorem redirs_no_leak (hs : Reachable s)
    (hfd : ∀ x ∈ cmd.redirs, ∃ D : Fd, x.1.toInt = D ∧ ∀ d < D, s.ofile c d ≠ none)
    (h : runRedirs found allowed c s cmd = .ok (s', some inner)) {f : FileIdx}
    (hfree : (s.ftable f).ref = 0) (hused : (s'.ftable f).ref ≠ 0) :
    ∃ d : Fd, cmd.redirOn d ≠ none ∧ s'.ofile c d = some f := by
  have h₀ : RedirInv found c s s fun _ => none := .start hs
  have hi := h₀.run hfd h
  obtain ⟨p, e, hpe⟩ := hi.acct.exists_holder hused
  -- no descriptor held `f` before the redirections
  have hnot : ∀ q d, s.ofile q d ≠ some f := by
    intro q d hq
    have := hs.inv.acct.one_le_ref hq
    omega
  by_cases hp : p = c
  · subst hp
    cases hR : cmd.redirOn e with
    | none => exact absurd (hi.kept e (by simp [hR]) ▸ hpe) (hnot p e)
    | some x => exact ⟨e, by simp [hR], hpe⟩
  · exact absurd (hi.others p hp ▸ hpe) (hnot p e)

theorem redirs_no_leak_echo :
    ∃ d : Fd, echoTwice.redirOn d ≠ none ∧ echoRedirected.ofile initproc d = some ⟨1, by decide⟩ :=
  redirs_no_leak reachable_consoleDup (by decide) echoTwice_runs (by decide) (by decide)

/-- What a failed `open` would stop: with every name found and allowed and a
free entry of the file table for each redirection, a running process gets
through the redirections of a command to the command under them. -/
theorem redirs_run_through {cmd : Cmd} (hs : Reachable s) (hc : (s.pt.proc c).state = .running)
    (hfd : ∀ x ∈ cmd.redirs, ∃ D : Fd, x.1.toInt = D)
    (hfound : ∀ x ∈ cmd.redirs, (found x.2.2).isSome ∧ allowed x.2.2 = true)
    (hroom : cmd.redirs.length ≤ (freeFiles s).card) :
    ∃ s', runRedirs found allowed c s cmd = .ok (s', some cmd.under) := by
  induction cmd generalizing s with
  | redir cmd file omode fd ih =>
    obtain ⟨D, hD⟩ := hfd _ List.mem_cons_self
    obtain ⟨hsome, hal⟩ := hfound _ List.mem_cons_self
    dsimp only at hD hsome hal
    obtain ⟨ip, hip⟩ := Option.isSome_iff_exists.mp hsome
    have ha := hs.inv.acct
    obtain ⟨t₁, x, hcl⟩ : ∃ t₁ x, sysClose s c ((D : Nat) : Int) = .ok (t₁, x) := sysClose_ok ha
    have hfr₁ := (sysClose_acct ha hcl).2
    -- the close frees `D` and takes no entry of the file table
    obtain ⟨E, hlow⟩ := lowestFree_of_free (t := t₁.ofile c) (d := D)
      (by simp [sysClose_ofile hcl, apply_close])
    have hroom₁ : cmd.redirs.length + 1 ≤ (freeFiles t₁).card :=
      (show cmd.redirs.length + 1 ≤ (freeFiles s).card by simpa [Cmd.redirs] using hroom).trans
        (Finset.card_le_card (sysClose_freeFiles hcl))
    obtain ⟨t₂, hop⟩ : ∃ t₂, Files.sysOpen t₁ c (some ip) true omode = .ok (t₂, (E : Nat)) :=
      sysOpen_ok (Finset.card_pos.mp (by omega)) hlow
    have hfr₂ := (sysOpen_acct (sysClose_acct ha hcl).1 hop).2
    have hcard := sysOpen_card hop (by omega)
    -- both calls are steps of the kernel, and leave the process running
    have hs₂ : Reachable t₂ := .step (.step hs (.close hc hcl)) (.open_ (by rw [hfr₁.pt]; exact hc) hop)
    obtain ⟨s', hrun⟩ := ih hs₂ (by rw [hfr₂.pt, hfr₁.pt]; exact hc)
      (fun y hy => hfd y (List.mem_cons_of_mem _ hy)) (fun y hy => hfound y (List.mem_cons_of_mem _ hy))
      (by omega)
    refine ⟨s', ?_⟩
    simp only [runRedirs, hD, hcl, hip, hal, hop, Cmd.under, Except.ok_bind]
    rw [if_neg (by omega), hrun]
  | _ => exact ⟨s, rfl⟩

theorem redirs_run_through_echo :
    ∃ s', runRedirs (fun x => some x.1) (fun _ => true) initproc consoleDup echoTwice =
      .ok (s', some echoTwice.under) :=
  redirs_run_through reachable_consoleDup (by decide) (by decide) (by decide) (by decide)

end Through

end Xv6.Sh
