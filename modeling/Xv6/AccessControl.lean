import Xv6.Boot

/-!
# Access control of `open`, `chmod` and `link`

`sys_open` decides what to check by comparing `omode` with `O_RDONLY`,
`O_WRONLY` and `O_RDWR` for equality, but sets the flags of the new file
from the bits `O_WRONLY` and `O_RDWR`.  The checks cover the flags for the
three modes and for no other value of `omode`.  Under `O_CREATE` an
existing file is reused by `create`, which checks only write permission,
and `sys_open` then gives it new permission bits and the caller as owner.
`sys_link` adds its record to the parent directory without the write
check that `create` and `sys_unlink` make.

The runs below start from the image `mkfs` writes with no host files:
`root` adds the user `ab` with password `cd`, forks, and the child logs in
as `ab`, becoming the process with uid `2`.
-/

namespace Xv6

open FsState

/-- The open file behind descriptor `fd` of process `pid`. -/
def System.descriptor (m : System) (pid : Nat) (fd : Int) : Option File :=
  ((m.kernel.procs pid).ofile.getD fd.toNat none).map fun f => m.kernel.ftable.getD f default

/-- The checks of `sys_open` cover the flags it sets, whatever the inode and
the user. -/
def OpenCovers (omode : Int32) : Prop :=
  ∀ uid x ip, openAllowed uid x omode = true →
    ((openedFile ip omode).readable = true → hasReadPermission uid x = true) ∧
    ((openedFile ip omode).writable = true → hasWritePermission uid x = true)

/-- A file no one but `root` may read or write. -/
def lockedFile : Inode :=
  { perm := 0, type := .file, major := 0, minor := 0, nlink := 1, data := [], owner := 0 }

theorem openAllowed_of_nonstandard {omode : Int32}
    (h : ¬(omode = oRdonly ∨ omode = oWronly ∨ omode = oRdwr)) (uid : UInt32) (x : Inode) :
    openAllowed uid x omode = true := by
  simp only [not_or] at h
  simp [openAllowed, h.1, h.2.1, h.2.2]

/-- The checks cover the flags exactly for the three standard modes. -/
theorem openCovers_iff (omode : Int32) :
    OpenCovers omode ↔ omode = oRdonly ∨ omode = oWronly ∨ omode = oRdwr := by
  constructor
  · intro hcover
    by_contra hmode
    have hno := hcover 2 lockedFile 0 (openAllowed_of_nonstandard hmode 2 lockedFile)
    have hread : hasReadPermission 2 lockedFile = false := by decide
    have hwrite : hasWritePermission 2 lockedFile = false := by decide
    by_cases hbit : omode &&& oWronly = 0
    · have hr : (openedFile 0 omode).readable = true := by simp [openedFile, hbit]
      simpa [hread] using hno.1 hr
    · have hw : (openedFile 0 omode).writable = true := by simp [openedFile, hbit]
      simpa [hwrite] using hno.2 hw
  · have hmodes : oRdonly ≠ oWronly ∧ oRdonly ≠ oRdwr ∧ oWronly ≠ oRdwr := by decide
    rintro (rfl | rfl | rfl) <;> intro uid x ip hallowed <;>
      simp only [openAllowed, Bool.and_eq_true, Bool.or_eq_true, Bool.not_eq_true',
        decide_eq_false_iff_not, hmodes, hmodes.1.symm, hmodes.2.1.symm, hmodes.2.2.symm,
        or_false, false_or, not_true_eq_false, not_false_eq_true, true_or, or_true,
        true_and, and_true] at hallowed
    · have hw : (openedFile ip oRdonly).writable = false := by
        simp only [openedFile]
        decide
      exact ⟨fun _ => hallowed, fun h => absurd h (by simp [hw])⟩
    · have hr : (openedFile ip oWronly).readable = false := by
        simp only [openedFile]
        decide
      exact ⟨fun h => absurd h (by simp [hr]), fun _ => hallowed⟩
    · exact ⟨fun _ => hallowed.1, fun _ => hallowed.2⟩

/-! ## Runs from the booted image -/

/-- The bytes `"ab"`, `"cd"`, `"/f"` and `"/x"`. -/
def nameAb : List UInt8 := [97, 98]
def passwdCd : List UInt8 := [99, 100]
def pathF : List UInt8 := [47, 102]
def pathX : List UInt8 := [47, 120]

/-- `root` adds `ab`, forks, and the child logs in as `ab`. -/
def loginAb : List (Nat × Syscall) :=
  [(1, .addUser nameAb passwdCd), (1, .fork), (2, .login nameAb passwdCd)]

theorem sysOpen_writable_without_write_permission :
    ∃ m, Reachable [] m ∧ ∃ m' fd f,
      syscall m 2 (.open_ passwdPath (oWronly ||| oRdwr)) = .ok (m', fd) ∧ 0 ≤ fd ∧
      m'.descriptor 2 fd = some f ∧ f.writable = true ∧
      (m.kernel.fs.inode f.ip).type = .file ∧
      hasWritePermission (m.kernel.procs 2).uid (m.kernel.fs.inode f.ip) = false := by
  have hcheck : (bootRun [] loginAb).any (fun m =>
      (syscall m 2 (.open_ passwdPath (oWronly ||| oRdwr))).toOption.any fun res =>
        (res.1.descriptor 2 res.2).any fun f =>
          decide (0 ≤ res.2) && f.writable && decide ((m.kernel.fs.inode f.ip).type = .file) &&
            !hasWritePermission (m.kernel.procs 2).uid (m.kernel.fs.inode f.ip)) = true := by
    decide +kernel
  obtain ⟨m, hreach, hcheck⟩ := exists_reachable_of_bootRun_any hcheck
  obtain ⟨⟨m', fd⟩, hcall, hcheck⟩ := Except.exists_of_toOption_any hcheck
  obtain ⟨f, hf, hcheck⟩ := (Option.any_eq_true _ _).mp hcheck
  simp only [Bool.and_eq_true, decide_eq_true_eq, Bool.not_eq_true'] at hcheck
  obtain ⟨⟨⟨hfd, hw⟩, htype⟩, hperm⟩ := hcheck
  exact ⟨m, hreach, m', fd, f, hcall, hfd, hf, hw, htype, hperm⟩

/-- `root` creates `/f`, lets others write it, and `ab` logs in. -/
def sharedFileRun : List (Nat × Syscall) :=
  [(1, .open_ pathF (oCreate ||| oRdwr)), (1, .chmod pathF 54)] ++ loginAb

theorem sysOpen_create_changes_owner :
    ∃ m, Reachable [] m ∧ ∃ m' r,
      syscall m 2 (.open_ pathF (oCreate ||| oRdwr)) = .ok (m', r) ∧
      (m.kernel.fs.inodes 3).type = .file ∧ (m'.kernel.fs.inodes 3).type = .file ∧
      (m.kernel.fs.inodes 3).owner = rootUid ∧ (m'.kernel.fs.inodes 3).owner = 2 := by
  have hcheck : (bootRun [] sharedFileRun).any (fun m =>
      (syscall m 2 (.open_ pathF (oCreate ||| oRdwr))).toOption.any fun res =>
        decide ((m.kernel.fs.inodes 3).type = .file) &&
          decide ((res.1.kernel.fs.inodes 3).type = .file) &&
          decide ((m.kernel.fs.inodes 3).owner = rootUid) &&
          decide ((res.1.kernel.fs.inodes 3).owner = 2)) = true := by
    decide +kernel
  obtain ⟨m, hreach, hcheck⟩ := exists_reachable_of_bootRun_any hcheck
  obtain ⟨⟨m', r⟩, hcall, hcheck⟩ := Except.exists_of_toOption_any hcheck
  simp only [Bool.and_eq_true, decide_eq_true_eq] at hcheck
  obtain ⟨⟨⟨hbefore, hafter⟩, howner⟩, howner'⟩ := hcheck
  exact ⟨m, hreach, m', r, hcall, hbefore, hafter, howner, howner'⟩

theorem sysLink_without_parent_write_permission :
    ∃ m, Reachable [] m ∧ ∃ m',
      syscall m 2 (.link passwdPath pathX) = .ok (m', 0) ∧
      hasWritePermission (m.kernel.procs 2).uid (m.kernel.fs.inodes rootino) = false ∧
      hasEntry (m.kernel.fs.inodes rootino) [120] = false ∧
      hasEntry (m'.kernel.fs.inodes rootino) [120] = true := by
  have hcheck : (bootRun [] loginAb).any (fun m =>
      (syscall m 2 (.link passwdPath pathX)).toOption.any fun res =>
        decide (res.2 = 0) &&
          !hasWritePermission (m.kernel.procs 2).uid (m.kernel.fs.inodes rootino) &&
          !hasEntry (m.kernel.fs.inodes rootino) [120] &&
          hasEntry (res.1.kernel.fs.inodes rootino) [120]) = true := by
    decide +kernel
  obtain ⟨m, hreach, hcheck⟩ := exists_reachable_of_bootRun_any hcheck
  obtain ⟨⟨m', r⟩, hcall, hcheck⟩ := Except.exists_of_toOption_any hcheck
  simp only [Bool.and_eq_true, decide_eq_true_eq, Bool.not_eq_true'] at hcheck
  obtain ⟨⟨⟨rfl, hperm⟩, hbefore⟩, hafter⟩ := hcheck
  exact ⟨m, hreach, m', hcall, hperm, hbefore, hafter⟩

/-- `create` refuses `ab` the file `/passwd` under `O_CREATE` for lack of
write permission, but returns with the inode it looked up still locked and
referenced; `sys_open` returns `-1`, and the next `open` of `/passwd`, by
`root`, sleeps on that lock for good. -/
theorem create_refusal_keeps_lock :
    ∃ m, Reachable [] m ∧ ∃ s' j,
      create m.kernel.fs (m.kernel.procs 2).uid (m.kernel.procs 2).cwd passwdPath .file 0 0 =
        .ok (s', none) ∧
      (m.kernel.fs.slot j).locked = false ∧ (s'.slot j).locked = true ∧
      (s'.slot j).ref = (m.kernel.fs.slot j).ref + 1 ∧
      ∃ m', syscall m 2 (.open_ passwdPath (oCreate ||| oRdwr)) = .ok (m', -1) ∧
        syscall m' 1 (.open_ passwdPath oRdonly) = .error .hang := by
  have hcheck : (bootRun [] loginAb).any (fun m =>
      (create m.kernel.fs (m.kernel.procs 2).uid (m.kernel.procs 2).cwd passwdPath .file 0 0
        ).toOption.any (fun res =>
          decide (res.2 = none) && !(m.kernel.fs.slot 1).locked && (res.1.slot 1).locked &&
            decide ((res.1.slot 1).ref = (m.kernel.fs.slot 1).ref + 1)) &&
      (syscall m 2 (.open_ passwdPath (oCreate ||| oRdwr))).toOption.any (fun res =>
          decide (res.2 = -1) &&
            decide ((syscall res.1 1 (.open_ passwdPath oRdonly)).map Prod.snd = .error .hang))) =
      true := by
    decide +kernel
  obtain ⟨m, hreach, hcheck⟩ := exists_reachable_of_bootRun_any hcheck
  simp only [Bool.and_eq_true] at hcheck
  obtain ⟨hcreate, hopen⟩ := hcheck
  obtain ⟨⟨s', r⟩, hcall, hcreate⟩ := Except.exists_of_toOption_any hcreate
  simp only [Bool.and_eq_true, decide_eq_true_eq, Bool.not_eq_true'] at hcreate
  obtain ⟨⟨⟨rfl, hfree⟩, hlocked⟩, href⟩ := hcreate
  obtain ⟨⟨m', r'⟩, hsys, hopen⟩ := Except.exists_of_toOption_any hopen
  simp only [Bool.and_eq_true, decide_eq_true_eq] at hopen
  obtain ⟨rfl, hhang⟩ := hopen
  -- the check compared the second `open`'s outcome with its machine dropped
  have hhang : syscall m' 1 (.open_ passwdPath oRdonly) = .error .hang := by
    cases h : syscall m' 1 (.open_ passwdPath oRdonly) with
    | error f =>
      rw [h] at hhang
      cases hhang
      rfl
    | ok _ =>
      rw [h] at hhang
      cases hhang
  exact ⟨m, hreach, s', 1, hcall, hfree, hlocked, href, m', hsys, hhang⟩

end Xv6
