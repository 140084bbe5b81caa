import Xv6.SysUser

/-!
# The booted kernel

The file system `mkfs` writes for a list of host files, seen through the
inode layer, and the state the kernel reaches before the first system
call: `userinit` makes `initproc` with `ROOT_UID` in `/`, and its
`forkret` runs `init_usertable`, which reads the table back from
`/passwd` or, on a fresh image, creates `/passwd` with a new table.
-/

namespace Xv6

open FsState

/-- `NINODES` of `mkfs.c`, the inode count in the superblock. -/
def mkfsNinodes : Nat := 200

/-- The dinode `mkfs` writes through its `ialloc`: one link, every mode bit
but the others' write bit, owned by `ROOT_UID`. -/
def mkfsInode (type : InodeType) (data : List UInt8) : Inode :=
  { perm := modeRusr ||| modeWusr ||| modeXusr ||| modeRoth ||| modeXoth, type := type,
    major := 0, minor := 0, nlink := 1, data := data, owner := rootUid }

/-- The name `mkfs` gives a host file: without a leading `_`. -/
def mkfsName (arg : List UInt8) : List UInt8 :=
  if arg.headD 0 = 95 then arg.tail else arg

/-- The root directory `mkfs` writes: `.` and `..`, one record per file
with inode numbers from `2` on, and the size set to
`((off/BSIZE)+1)*BSIZE`. -/
def mkfsRootData (names : List (List UInt8)) : List UInt8 :=
  let entries := direntBytes rootino dot ++ direntBytes rootino dotdot ++
    (names.zipIdx 2).flatMap fun (name, inum) => direntBytes inum (mkfsName name)
  entries ++ List.replicate ((entries.length / bsize + 1) * bsize - entries.length) 0

/-- The inodes of the image for host files given as name and contents. -/
def mkfsInodes (files : List (List UInt8 × List UInt8)) (inum : Nat) : Inode :=
  if inum = rootino then mkfsInode .dir (mkfsRootData (files.map Prod.fst))
  else if 2 ≤ inum ∧ inum < files.length + 2 then
    mkfsInode .file (files.getD (inum - 2) ([], [])).2
  else freshInode .free

def emptyIcache : List Slot :=
  List.replicate ninode { inum := 0, ref := 0, valid := false, locked := false }

def mkfsFs (files : List (List UInt8 × List UInt8)) : FsState :=
  { inodes := mkfsInodes files, icache := emptyIcache, ninodes := mkfsNinodes }

/-! ## Reading the table back -/

def uintOfBytes (b : List UInt8) : UInt32 :=
  (b.getD 0 0).toUInt32 ||| (b.getD 1 0).toUInt32 <<< 8 |||
    (b.getD 2 0).toUInt32 <<< 16 ||| (b.getD 3 0).toUInt32 <<< 24

/-- `sizeof(struct User)`. -/
def userSize : Nat := usernameMaxlen + userPwMaxlen + 4

def userOfBytes (b : List UInt8) : User :=
  { username := b.take usernameMaxlen,
    passwd := (b.drop usernameMaxlen).take userPwMaxlen,
    uid := uintOfBytes (b.drop (usernameMaxlen + userPwMaxlen)) }

def usertableOfBytes (nextUid : List UInt8) (b : List UInt8) : UserTable :=
  { nextUid := uintOfBytes nextUid,
    users := List.ofFn fun i : Fin nuser => userOfBytes ((b.drop (userSize * i)).take userSize),
    length_users := List.length_ofFn }

/-- The bytes `"/passwd"`. -/
def passwdPath : List UInt8 := [47, 112, 97, 115, 115, 119, 100]

/-- `create_usertable` run by process `pid`: the fresh table, written to a
new `/passwd` readable and writable by its owner `ROOT_UID` only. -/
def createUsertableFs (k : Kernel) (pid : Nat) : Except Fault Kernel := do
  let p := k.procs pid
  let (s, ip) ← create k.fs p.uid p.cwd passwdPath .file 0 0
  let some ip := ip | throw (.panic "failed to create user table!")
  let s := s.modify ip fun x => { x with perm := modeRusr ||| modeWusr, owner := rootUid }
  let s ← writeUsertable s ip createUsertable
  return { k with fs := s, users := createUsertable, utableIp := ip }

/-- `init_usertable` run by process `pid`: the inode of `/passwd` stays
referenced as `utable_ip`. -/
def initUsertable (k : Kernel) (pid : Nat) : Except Fault Kernel := do
  let p := k.procs pid
  let (s, ip) ← namei k.fs p.uid p.cwd passwdPath
  match ip with
  | none =>
      let k ← createUsertableFs (k.setFs s) pid
      let s ← iunlock k.fs k.utableIp
      return k.setFs s
  | some ip =>
      let s ← ilock s ip
      let some nextUid := readi (s.inode ip) 0 4
        | throw (.panic "failed to initialize user table!")
      if nextUid.length ≠ 4 then throw (.panic "failed to initialize user table!")
      let some b := readi (s.inode ip) 4 (UInt32.ofNat (nuser * userSize))
        | throw (.panic "failed to initialize user table!")
      if b.length ≠ nuser * userSize then throw (.panic "failed to initialize user table!")
      let s ← iunlock s ip
      return { k with fs := s, users := usertableOfBytes nextUid b, utableIp := ip }

/-- `userinit` and the first `forkret`: `initproc` is process `1`. -/
def boot (files : List (List UInt8 × List UInt8)) : Except Fault System := do
  let (s, cwd) ← namei (mkfsFs files) rootUid 0 [slash]
  let k : Kernel :=
    { fs := s, ftable := List.replicate nfile default,
      procs := fun _ =>
        { uid := rootUid, cwd := cwd.getD 0, ofile := List.replicate nofile none },
      users := createUsertable, utableIp := 0 }
  let k ← initUsertable k 1
  return { kernel := k, nextpid := 2 }

/-- The states the kernel reaches from the image of `files` by system
calls. -/
def Reachable (files : List (List UInt8 × List UInt8)) (m : System) : Prop :=
  ∃ m₀, boot files = .ok m₀ ∧ Relation.ReflTransGen Step m₀ m

/-- The state after the calls `cs` from the booted image of `files`. -/
def bootRun (files : List (List UInt8 × List UInt8)) (cs : List (Nat × Syscall)) :
    Option System :=
  (boot files).toOption.bind fun m => runCalls m cs

theorem reachable_of_bootRun {files : List (List UInt8 × List UInt8)} {m : System}
    {cs : List (Nat × Syscall)} (h : bootRun files cs = some m) : Reachable files m := by
  simp only [bootRun, Option.bind_eq_some_iff] at h
  obtain ⟨m₀, hboot, hrun⟩ := h
  exact ⟨m₀, Except.toOption_eq_some_iff.mp hboot, runCalls_steps hrun⟩

/-- A check that holds of the state the calls `cs` reach holds of a
reachable state. -/
theorem exists_reachable_of_bootRun_any {files : List (List UInt8 × List UInt8)}
    {cs : List (Nat × Syscall)} {p : System → Bool} (h : (bootRun files cs).any p = true) :
    ∃ m, Reachable files m ∧ p m = true := by
  obtain ⟨m, hrun, hp⟩ := (Option.any_eq_true _ _).mp h
  exact ⟨m, reachable_of_bootRun hrun, hp⟩

theorem reachable_of_runCalls {files : List (List UInt8 × List UInt8)} {m₀ m : System}
    {cs : List (Nat × Syscall)} (hboot : boot files = .ok m₀)
    (hrun : runCalls m₀ cs = some m) : Reachable files m :=
  ⟨m₀, hboot, runCalls_steps hrun⟩

end Xv6
