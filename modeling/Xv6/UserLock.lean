import Xv6.UidCounter

/-!
# `utable_lock` and the interleavings of the user-table calls

The calls that take `utable_lock` as steps of the processes that make them,
in any interleaving.  A step is one stretch of a call between two points
where another process can observe it: each lock operation, each critical
section under `utable_lock` (the table operations of `UserTable`), and
each access made after the lock is let go.  The sleep-locks are
`utable_lock` and the inode locks; `add_user` and `delete_user` lock the
inode of `/passwd` inside `export_usertable` while they hold `utable_lock`,
and `filestat` holds the lock of the inode it reports on while `stati`
asks `get_username_with_uid` for the owner's name.

What the calls do to the file system and to the log is outside this
model: `begin_op` admits every operation, and `set_cwd_as_home_directory`
and `create_home_directory` are left out of `sys_login` and `sys_addUser`.
-/

namespace Xv6

inductive LockId where
  | utable
  | inode (inum : Nat)
  deriving DecidableEq, Repr

/-- Where a process is in a call: the names follow the statements of
`getuid`/`sys_login`, `add_user`, `delete_user` and `filestat`. -/
inductive Pc where
  | idle
  | loginCheck (username passwd : List UInt8)
  | loginAcquire (username passwd : List UInt8)
  | loginFind (username passwd : List UInt8)
  | loginRead (i : Nat)
  | loginChange (uid : UInt32)
  | addCheck (username passwd : List UInt8)
  | addAcquire (username passwd : List UInt8)
  | addScan (username passwd : List UInt8)
  | addLockPasswd (i : Nat)
  | addWrite (i : Nat)
  | addRelease (i : Nat)
  | addReturn (i : Nat)
  | deleteCheck (username : List UInt8)
  | deleteAcquire (username : List UInt8)
  | deleteFind (username : List UInt8)
  | deleteLockPasswd
  | deleteWrite
  | deleteRelease
  | statLock (inum : Nat)
  | statAcquire (inum : Nat)
  | statFind (inum : Nat)
  | statUnlock (inum : Nat)
  deriving DecidableEq, Repr

structure UProc where
  pc : Pc
  uid : UInt32
  deriving DecidableEq, Repr

structure UState where
  table : UserTable
  holder : LockId → Option Nat
  procs : Nat → UProc
  passwdInum : Nat

/-- The calls a process can start. -/
inductive UCall where
  | login (username passwd : List UInt8)
  | addUser (username passwd : List UInt8)
  | deleteUser (username : List UInt8)
  | fstat (inum : Nat)
  deriving DecidableEq, Repr

inductive UAction where
  | call (p : Nat) (c : UCall)
  | step (p : Nat)
  deriving DecidableEq, Repr

namespace UState

def setPc (s : UState) (p : Nat) (pc : Pc) : UState :=
  { s with procs := Function.update s.procs p { s.procs p with pc := pc } }

/-- `acquiresleep`: the lock goes to `p` when it is free; otherwise `p`
sleeps and takes no step. -/
def acquire (s : UState) (l : LockId) (p : Nat) : Option UState :=
  if s.holder l = none then some { s with holder := Function.update s.holder l (some p) }
  else none

/-- `releasesleep`, which frees the lock whoever holds it. -/
def release (s : UState) (l : LockId) : UState :=
  { s with holder := Function.update s.holder l none }

@[simp] theorem setPc_table (s : UState) (p : Nat) (pc : Pc) :
    (s.setPc p pc).table = s.table := rfl

@[simp] theorem release_table (s : UState) (l : LockId) : (s.release l).table = s.table := rfl

end UState

open UState

/-- One step of process `p`; `none` when it is idle or sleeps on a lock. -/
def stepProc (s : UState) (p : Nat) : Option UState :=
  match (s.procs p).pc with
  | .idle => none
  | .loginCheck u pw =>
      if isValidUsername u && isValidPasswd pw then some (s.setPc p (.loginAcquire u pw))
      else some ((s.release .utable).setPc p (.loginChange 0))
  | .loginAcquire u pw => (s.acquire .utable p).map (·.setPc p (.loginFind u pw))
  | .loginFind u pw =>
      match getuidLocked s.table u pw with
      | some i => some ((s.release .utable).setPc p (.loginRead i))
      | none => some ((s.release .utable).setPc p (.loginChange 0))
  | .loginRead i => some (s.setPc p (.loginChange (s.table.user i).uid))
  | .loginChange uid =>
      if uid = 0 then some (s.setPc p .idle)
      else some { s with procs := Function.update s.procs p { pc := .idle, uid := uid } }
  | .addCheck u pw =>
      if isValidUsername u && isValidPasswd pw then some (s.setPc p (.addAcquire u pw))
      else some (s.setPc p .idle)
  | .addAcquire u pw => (s.acquire .utable p).map (·.setPc p (.addScan u pw))
  | .addScan u pw =>
      match addUserLocked s.table u pw with
      | some (t, i) => some ({ s with table := t }.setPc p (.addLockPasswd i))
      | none => some ((s.release .utable).setPc p .idle)
  | .addLockPasswd i => (s.acquire (.inode s.passwdInum) p).map (·.setPc p (.addWrite i))
  | .addWrite i => some ((s.release (.inode s.passwdInum)).setPc p (.addRelease i))
  | .addRelease i => some ((s.release .utable).setPc p (.addReturn i))
  | .addReturn _ => some (s.setPc p .idle)
  | .deleteCheck u =>
      if isValidUsername u && strncmp usernameMaxlen rootName u ≠ 0 then
        some (s.setPc p (.deleteAcquire u))
      else some (s.setPc p .idle)
  | .deleteAcquire u => (s.acquire .utable p).map (·.setPc p (.deleteFind u))
  | .deleteFind u =>
      match deleteUserLocked s.table u with
      | some t => some ({ s with table := t }.setPc p .deleteLockPasswd)
      | none => some ((s.release .utable).setPc p .idle)
  | .deleteLockPasswd => (s.acquire (.inode s.passwdInum) p).map (·.setPc p .deleteWrite)
  | .deleteWrite => some ((s.release (.inode s.passwdInum)).setPc p .deleteRelease)
  | .deleteRelease => some ((s.release .utable).setPc p .idle)
  | .statLock inum => (s.acquire (.inode inum) p).map (·.setPc p (.statAcquire inum))
  | .statAcquire inum => (s.acquire .utable p).map (·.setPc p (.statFind inum))
  | .statFind inum => some ((s.release .utable).setPc p (.statUnlock inum))
  | .statUnlock inum => some ((s.release (.inode inum)).setPc p .idle)

/-- The first point of a call; `sys_addUser` and `sys_deleteUser` return
`-1` at once for a caller other than `ROOT_UID`. -/
def callPc (pr : UProc) : UCall → Pc
  | .login u pw => .loginCheck u pw
  | .addUser u pw => if pr.uid = rootUid then .addCheck u pw else .idle
  | .deleteUser u => if pr.uid = rootUid then .deleteCheck u else .idle
  | .fstat inum => .statLock inum

def exec (s : UState) : UAction → Option UState
  | .call p c => if (s.procs p).pc = .idle then some (s.setPc p (callPc (s.procs p) c)) else none
  | .step p => stepProc s p

def runActions (s : UState) : List UAction → Option UState
  | [] => some s
  | a :: as => (exec s a).bind fun s => runActions s as

/-- The states after each action in turn. -/
def traceActions (s : UState) : List UAction → Option (List UState)
  | [] => some []
  | a :: as => (exec s a).bind fun s => (traceActions s as).map (s :: ·)

/-- Every process idle with `ROOT_UID`, no lock held, and the table of
`create_usertable`. -/
def UState.init (passwdInum : Nat) : UState :=
  { table := createUsertable, holder := fun _ => none,
    procs := fun _ => { pc := .idle, uid := rootUid }, passwdInum := passwdInum }

def UReachable (passwdInum : Nat) (s : UState) : Prop :=
  Relation.ReflTransGen (fun s s' => ∃ a, exec s a = some s') (UState.init passwdInum) s

theorem runActions_steps {s s' : UState} {as : List UAction}
    (h : runActions s as = some s') :
    Relation.ReflTransGen (fun s s' => ∃ a, exec s a = some s') s s' := by
  induction as generalizing s with
  | nil =>
      simp only [runActions, Option.some.injEq] at h
      exact h ▸ .refl
  | cons a as ih =>
      simp only [runActions, Option.bind_eq_some_iff] at h
      obtain ⟨s₁, hexec, hrun⟩ := h
      exact Relation.ReflTransGen.head ⟨a, hexec⟩ (ih hrun)

theorem uReachable_of_runActions {n : Nat} {as : List UAction} {s : UState}
    (h : runActions (UState.init n) as = some s) : UReachable n s :=
  runActions_steps h

/-! ## `getuid` reads the uid after letting the lock go -/

/-- The uids of the live entries whose name and password match. -/
def matchingUids (t : UserTable) (username passwd : List UInt8) : List UInt32 :=
  (t.users.filter fun u =>
    u.uid != 0 && strncmp usernameMaxlen u.username username == 0 &&
      strncmp userPwMaxlen u.passwd passwd == 0).map (·.uid)

/-- Process `1` adds `ab`, which gets uid `2` in entry `9`. -/
def loginRaceSetup : List UAction :=
  [.call 1 (.addUser nameAb passwdCd)] ++ List.replicate 7 (.step 1)

/-- Process `2` logs in as `ab`; between its release of `utable_lock` and
its read of the entry, process `1` deletes `ab` and adds `ef`, which takes
the same entry. -/
def loginRace : List UAction :=
  [.call 2 (.login nameAb passwdCd), .step 2, .step 2, .step 2,
    .call 1 (.deleteUser nameAb)] ++ List.replicate 6 (.step 1) ++
  [.call 1 (.addUser nameEf passwdGh)] ++ List.replicate 7 (.step 1) ++
  [.step 2, .step 2]

theorem sysLogin_uid_never_matched :
    ∃ s₀ trace s, UReachable 2 s₀ ∧ traceActions s₀ loginRace = some trace ∧
      trace.getLast? = some s ∧
      (s₀.procs 2).pc = .idle ∧ (s.procs 2).pc = .idle ∧
      (s₀.procs 2).uid = rootUid ∧ (s.procs 2).uid = 3 ∧
      (3 : UInt32) ∉ matchingUids s₀.table nameAb passwdCd ∧
      ∀ t ∈ trace, (3 : UInt32) ∉ matchingUids t.table nameAb passwdCd := by
  have hcheck : ((runActions (UState.init 2) loginRaceSetup).any fun s₀ =>
      (traceActions s₀ loginRace).any fun trace =>
        trace.getLast?.any fun s =>
          decide ((s₀.procs 2).pc = .idle) && decide ((s.procs 2).pc = .idle) &&
            decide ((s₀.procs 2).uid = rootUid) && decide ((s.procs 2).uid = 3) &&
            decide ((3 : UInt32) ∉ matchingUids s₀.table nameAb passwdCd) &&
            trace.all fun t => decide ((3 : UInt32) ∉ matchingUids t.table nameAb passwdCd)) =
      true := by
    decide +kernel
  obtain ⟨s₀, hs₀, hcheck⟩ := (Option.any_eq_true _ _).mp hcheck
  obtain ⟨trace, htrace, hcheck⟩ := (Option.any_eq_true _ _).mp hcheck
  obtain ⟨s, hs, hcheck⟩ := (Option.any_eq_true _ _).mp hcheck
  simp only [Bool.and_eq_true, decide_eq_true_eq, List.all_eq_true] at hcheck
  obtain ⟨⟨⟨⟨⟨hidle₀, hidle⟩, huid₀⟩, huid⟩, hfresh⟩, hnever⟩ := hcheck
  exact ⟨s₀, trace, s, uReachable_of_runActions hs₀, htrace, hs, hidle₀, hidle, huid₀, huid,
    hfresh, hnever⟩

/-! ## Lock order between `utable_lock` and the inode of `/passwd` -/

/-- The sleep-lock the next step of a process acquires. -/
def wants (passwdInum : Nat) : Pc → Option LockId
  | .loginAcquire _ _ | .addAcquire _ _ | .deleteAcquire _ | .statAcquire _ => some .utable
  | .addLockPasswd _ | .deleteLockPasswd => some (.inode passwdInum)
  | .statLock inum => some (.inode inum)
  | _ => none

/-- Process `p` sleeps on a lock that process `q` holds. -/
def waitsFor (s : UState) (p q : Nat) : Bool :=
  match wants s.passwdInum (s.procs p).pc with
  | some l => s.holder l == some q
  | none => false

/-- A process asleep on a lock takes no step until the lock is let go. -/
theorem stepProc_eq_none_of_waitsFor {s : UState} {p q : Nat} (h : waitsFor s p q = true) :
    stepProc s p = none := by
  unfold waitsFor at h
  split at h
  · next l hl =>
      have hheld : s.holder l ≠ none := by
        intro hnone
        simp [hnone] at h
      cases hpc : (s.procs p).pc <;> simp only [wants, hpc, reduceCtorEq] at hl <;>
        (cases hl; simp [stepProc, hpc, UState.acquire, hheld])
  · simp at h

/-- `root` adds `ab` and, on another processor, stats `/passwd` (inode `2`)
while the first call holds `utable_lock`. -/
def lockOrderRace : List UAction :=
  [.call 2 (.addUser nameAb passwdCd), .step 2, .step 2, .step 2,
    .call 1 (.fstat 2), .step 1]

theorem addUser_filestat_deadlock :
    ∃ s, UReachable 2 s ∧ waitsFor s 1 2 = true ∧ waitsFor s 2 1 = true ∧
      stepProc s 1 = none ∧ stepProc s 2 = none := by
  have hcheck : (runActions (UState.init 2) lockOrderRace).any
      (fun s => waitsFor s 1 2 && waitsFor s 2 1) = true := by
    decide +kernel
  obtain ⟨s, hs, hcheck⟩ := (Option.any_eq_true _ _).mp hcheck
  simp only [Bool.and_eq_true] at hcheck
  exact ⟨s, uReachable_of_runActions hs, hcheck.1, hcheck.2,
    stepProc_eq_none_of_waitsFor hcheck.1, stepProc_eq_none_of_waitsFor hcheck.2⟩

/-! ## `getuid` lets go of a lock it does not hold -/

/-- The points of a call between its `acquiresleep(&utable_lock)` and its
`releasesleep(&utable_lock)`. -/
def Pc.InUtable : Pc → Bool
  | .loginFind _ _ | .addScan _ _ | .addLockPasswd _ | .addWrite _ | .addRelease _
  | .deleteFind _ | .deleteLockPasswd | .deleteWrite | .deleteRelease | .statFind _ => true
  | _ => false

/-- Process `1` adds `ab` and holds `utable_lock` while it scans the table;
process `2` logs in with the name `"x"`, too short for
`is_valid_username`, so `getuid` releases the lock at once; process `3`
then adds `ef` and takes the lock. -/
def exclusionRace : List UAction :=
  [.call 1 (.addUser nameAb passwdCd), .step 1, .step 1,
    .call 2 (.login [120] passwdCd), .step 2,
    .call 3 (.addUser nameEf passwdGh), .step 3, .step 3]

theorem getuid_release_breaks_exclusion :
    ∃ s, UReachable 2 s ∧ (s.procs 1).pc.InUtable = true ∧ (s.procs 3).pc.InUtable = true ∧
      s.holder .utable = some 3 := by
  have hcheck : (runActions (UState.init 2) exclusionRace).any (fun s =>
      (s.procs 1).pc.InUtable && (s.procs 3).pc.InUtable && s.holder .utable == some 3) =
      true := by
    decide +kernel
  obtain ⟨s, hs, hcheck⟩ := (Option.any_eq_true _ _).mp hcheck
  simp only [Bool.and_eq_true, beq_iff_eq] at hcheck
  obtain ⟨⟨hin₁, hin₃⟩, hholder⟩ := hcheck
  exact ⟨s, uReachable_of_runActions hs, hin₁, hin₃, hholder⟩

end Xv6
