import Xv6.SysFile

/-!
# User-management system calls

`sysuser.c` and the parts of `usermanage.c` that touch the file system:
the table is written to `/passwd` through `writei` after every change, home
directories are created under `/` by `sys_addUser`, and `sys_login` moves
the caller into its home directory before it changes the caller's user.
With `fork` and the calls of `sysfile.c` they make the system-call step of
the whole kernel; its runs from the booted state are the reachable states.
-/

namespace Xv6

open FsState

/-! ## `/passwd` -/

/-- The four little-endian bytes of a `uint`. -/
def uintBytes (x : UInt32) : List UInt8 :=
  [x.toUInt8, (x >>> 8).toUInt8, (x >>> 16).toUInt8, (x >>> 24).toUInt8]

/-- The bytes of `struct User`: its two arrays, then its `uid`. -/
def userBytes (u : User) : List UInt8 :=
  u.username ++ u.passwd ++ uintBytes u.uid

def utableBytes (t : UserTable) : List UInt8 :=
  (t.users.map userBytes).flatten

/-- `write_usertable` on the locked inode in slot `ip`: `next_uid` at offset
`0`, then the entries from offset `4`. -/
def writeUsertable (s : FsState) (ip : Nat) (t : UserTable) : Except Fault FsState := do
  let some x := writei (s.inode ip) (uintBytes t.nextUid) 0
    | throw (.panic "failed to write user table!")
  let s := s.modify ip fun _ => x
  let some x := writei (s.inode ip) (utableBytes t) 4
    | throw (.panic "failed to write user table!")
  return s.modify ip fun _ => x

def exportUsertable (k : Kernel) : Except Fault Kernel := do
  let s ← ilock k.fs k.utableIp
  let s ← writeUsertable s k.utableIp k.users
  let s ← iunlock s k.utableIp
  return k.setFs s

/-- `add_user` on the kernel: the table operation, then the export. -/
def addUserExport (k : Kernel) (username passwd : List UInt8) : Except Fault (Kernel × UInt32) :=
  match addUser k.users username passwd with
  | none => .ok (k, 0)
  | some (t, uid) => do
      let k ← exportUsertable { k with users := t }
      return (k, uid)

def deleteUserExport (k : Kernel) (username : List UInt8) : Except Fault (Kernel × Int) :=
  match deleteUser k.users username with
  | none => .ok (k, -1)
  | some t => do
      let k ← exportUsertable { k with users := t }
      return (k, 0)

/-- Writing the table changes the contents of its inode and nothing else. -/
theorem writeUsertable_modify {s s' : FsState} {ip : Nat} {t : UserTable}
    (h : writeUsertable s ip t = .ok s') : ∃ d, s' = s.modify ip fun x => { x with data := d } := by
  unfold writeUsertable at h
  cases hw₁ : writei (s.inode ip) (uintBytes t.nextUid) 0 with
  | none =>
      rw [hw₁] at h
      cases h
  | some x₁ =>
      rw [hw₁] at h
      simp only at h
      cases hw₂ : writei ((s.modify ip fun _ => x₁).inode ip) (utableBytes t) 4 with
      | none =>
          rw [hw₂] at h
          cases h
      | some x₂ =>
          rw [hw₂] at h
          cases h
          refine ⟨x₂.data, ?_⟩
          rw [modify_modify]
          apply modify_congr
          rw [writei_eq_some_data hw₂, inode_modify_self, writei_eq_some_data hw₁]

/-- The export changes the contents of the table's inode and nothing else
of the file system. -/
theorem exportUsertable_eq_ok {k k' : Kernel} (h : exportUsertable k = .ok k') :
    ∃ s d, k' = k.setFs s ∧ s.ninodes = k.fs.ninodes ∧
      s.inodes = Function.update k.fs.inodes (k.fs.slot k.utableIp).inum
        { k.fs.inode k.utableIp with data := d } := by
  unfold exportUsertable at h
  obtain ⟨s₁, hlock, h⟩ := Except.bind_eq_ok_iff.mp h
  obtain ⟨s₂, hwrite, h⟩ := Except.bind_eq_ok_iff.mp h
  obtain ⟨s₃, hunlock, h⟩ := Except.bind_eq_ok_iff.mp h
  cases h
  obtain ⟨d, rfl⟩ := writeUsertable_modify hwrite
  have hc₁ := ilock_cacheOnly hlock
  have hc₃ := iunlock_cacheOnly hunlock
  refine ⟨s₃, d, rfl, ?_, ?_⟩
  · rw [hc₃.ninodes, modify_ninodes, hc₁.ninodes]
  · rw [hc₃.inodes, modify_inodes, hc₁.inodes, hc₁.inum, hc₁.inode_eq]

/-- An `add_user` that hands out a uid ran the table operation and the
export. -/
theorem addUserExport_eq_ok {k k' : Kernel} {username passwd : List UInt8} {uid : UInt32}
    (h : addUserExport k username passwd = .ok (k', uid)) (huid : uid ≠ 0) :
    ∃ t, addUser k.users username passwd = some (t, uid) ∧ ∃ s d,
      k' = { k with users := t }.setFs s ∧ s.ninodes = k.fs.ninodes ∧
      s.inodes = Function.update k.fs.inodes (k.fs.slot k.utableIp).inum
        { k.fs.inode k.utableIp with data := d } := by
  unfold addUserExport at h
  split at h
  · cases h
    exact absurd rfl huid
  · next t u hadd =>
      obtain ⟨k₁, hexport, h⟩ := Except.bind_eq_ok_iff.mp h
      cases h
      exact ⟨t, hadd, exportUsertable_eq_ok hexport⟩

/-! ## Home directories -/

/-- The path `"/"` followed by `strncpy(&path[1], username, USERNAME_MAXLEN)`. -/
def homePath (username : List UInt8) : List UInt8 :=
  slash :: strncpy usernameMaxlen username

theorem homePath_eq {username : List UInt8} (h : (cstr username).length < usernameMaxlen) :
    homePath username =
      slash :: (cstr username ++ List.replicate (usernameMaxlen - (cstr username).length) 0) := by
  rw [homePath, ← strncpy_cstr, strncpy_of_length_lt (zero_not_mem_cstr username) h]

def createHomeDirectory (k : Kernel) (pid : Nat) (username : List UInt8) (uid : UInt32) :
    Except Fault Kernel := do
  let p := k.procs pid
  let (s, ip) ← create k.fs p.uid p.cwd (homePath username) .dir 0 0
  match ip with
  | none => return k.setFs s
  | some ip =>
      let s := s.modify ip fun x =>
        { x with perm := modeRusr ||| modeWusr ||| modeXusr ||| modeRoth ||| modeXoth,
                 owner := uid }
      let s ← iunlockput s ip
      return k.setFs s

def setCwdAsHomeDirectory (k : Kernel) (pid : Nat) (username : List UInt8) :
    Except Fault Kernel := do
  let p := k.procs pid
  let path := if strncmp usernameMaxlen rootName username ≠ 0 then homePath username
    else [slash, 0]
  let (s, ip) ← namei k.fs p.uid p.cwd path
  match ip with
  | none => return k.setFs s
  | some ip =>
      let s ← ilock s ip
      if (s.inode ip).type ≠ .dir then
        let s ← iunlockput s ip
        return k.setFs s
      let s ← iunlock s ip
      let s ← iput s p.cwd
      return (k.setFs s).setProc pid { p with cwd := ip }

/-! ## The calls -/

def sysLogin (k : Kernel) (pid : Nat) (username passwd : List UInt8) :
    Except Fault (Kernel × Int) := do
  let uid := getuid k.users username passwd
  if uid = 0 then return (k, -1)
  let k ← setCwdAsHomeDirectory k pid username
  return (k.setProc pid { k.procs pid with uid := uid }, 0)

def sysAddUser (k : Kernel) (pid : Nat) (username passwd : List UInt8) :
    Except Fault (Kernel × Int) := do
  if (k.procs pid).uid ≠ rootUid then return (k, -1)
  let (k, uid) ← addUserExport k username passwd
  if uid = 0 then return (k, -1)
  let k ← createHomeDirectory k pid username uid
  return (k, 0)

def sysDeleteUser (k : Kernel) (pid : Nat) (username : List UInt8) :
    Except Fault (Kernel × Int) :=
  if (k.procs pid).uid ≠ rootUid then .ok (k, -1)
  else deleteUserExport k username

/-- `filedup` on every open descriptor, as `fork` copies the table. -/
def dupOfiles (ft : List File) : List (Option Nat) → List File
  | [] => ft
  | none :: fs => dupOfiles ft fs
  | some f :: fs =>
      dupOfiles (ft.set f { ft.getD f default with ref := (ft.getD f default).ref + 1 }) fs

/-- The calls of this model: `sysfile.c`, `sysuser.c` and `fork`. -/
inductive Syscall where
  | open_ (path : List UInt8) (omode : Int32)
  | link (old new : List UInt8)
  | unlink (path : List UInt8)
  | chmod (path : List UInt8) (mode : Int32)
  | mkdir (path : List UInt8)
  | mknod (path : List UInt8) (major minor : Int32)
  | chdir (path : List UInt8)
  | login (username passwd : List UInt8)
  | addUser (username passwd : List UInt8)
  | deleteUser (username : List UInt8)
  | fork
  deriving DecidableEq, Repr

/-- The processes so far: `initproc` is `1`, and `fork` numbers the others
in order. -/
structure System where
  kernel : Kernel
  nextpid : Nat

/-- `fork` as far as the modelled state goes: the child takes the parent's
user, a reference to its directory and its descriptors. -/
def sysFork (m : System) (pid : Nat) : System × Int :=
  if nproc < m.nextpid then (m, -1)
  else
    let k := m.kernel
    let p := k.procs pid
    let k := { k with fs := idup k.fs p.cwd, ftable := dupOfiles k.ftable p.ofile }
    ({ kernel := k.setProc m.nextpid p, nextpid := m.nextpid + 1 }, m.nextpid)

def syscall (m : System) (pid : Nat) : Syscall → Except Fault (System × Int)
  | .fork => .ok (sysFork m pid)
  | c =>
      let r : Except Fault (Kernel × Int) :=
        match c with
        | .open_ path omode => sysOpen m.kernel pid path omode
        | .link old new => sysLink m.kernel pid old new
        | .unlink path => sysUnlink m.kernel pid path
        | .chmod path mode => sysChmod m.kernel pid path mode
        | .mkdir path => sysMkdir m.kernel pid path
        | .mknod path major minor => sysMknod m.kernel pid path major minor
        | .chdir path => sysChdir m.kernel pid path
        | .login username passwd => sysLogin m.kernel pid username passwd
        | .addUser username passwd => sysAddUser m.kernel pid username passwd
        | .deleteUser username => sysDeleteUser m.kernel pid username
        | .fork => .ok (m.kernel, 0)
      r.map fun (k, v) => ({ m with kernel := k }, v)

/-- One system call by a process that exists, returning. -/
def Step (m m' : System) : Prop :=
  ∃ pid c v, 1 ≤ pid ∧ pid < m.nextpid ∧ syscall m pid c = .ok (m', v)

/-- Run the calls in order, each by a process that exists, as long as every
call returns. -/
def runCalls (m : System) : List (Nat × Syscall) → Option System
  | [] => some m
  | (pid, c) :: cs =>
      if 1 ≤ pid ∧ pid < m.nextpid then
        match syscall m pid c with
        | .ok (m', _) => runCalls m' cs
        | .error _ => none
      else none

theorem runCalls_steps {m m' : System} {cs : List (Nat × Syscall)}
    (h : runCalls m cs = some m') : Relation.ReflTransGen Step m m' := by
  induction cs generalizing m with
  | nil =>
      simp only [runCalls, Option.some.injEq] at h
      subst h
      exact .refl
  | cons call cs ih =>
      obtain ⟨pid, c⟩ := call
      simp only [runCalls] at h
      split_ifs at h with hpid
      split at h
      · next m₁ v hcall =>
          exact Relation.ReflTransGen.head ⟨pid, c, v, hpid.1, hpid.2, hcall⟩ (ih h)
      · simp at h

end Xv6
