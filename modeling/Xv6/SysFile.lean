import Xv6.Path
import Xv6.UserTable

/-!
# File-system system calls

`sysfile.c` over the kernel state: the inodes and their cache, the open-file
table `ftable`, the processes with their user, current directory and
descriptor table, and the user table with the slot of `/passwd`.  A call
is given its arguments as `argint`/`argstr` fetched them; a failed fetch
returns `-1` before any change.  Every call runs inside one transaction,
and `begin_op`/`end_op` carry no state here.
-/

namespace Xv6

open FsState

inductive FileType where
  | none
  | pipe
  | inode
  deriving DecidableEq, Repr, Inhabited

structure File where
  type : FileType
  ref : Int
  readable : Bool
  writable : Bool
  ip : Nat
  off : Nat
  deriving DecidableEq, Repr, Inhabited

structure Proc where
  uid : UInt32
  cwd : Nat
  ofile : List (Option Nat)
  deriving DecidableEq, Repr, Inhabited

structure Kernel where
  fs : FsState
  ftable : List File
  procs : Nat → Proc
  users : UserTable
  utableIp : Nat

namespace Kernel

def setFs (k : Kernel) (s : FsState) : Kernel := { k with fs := s }

def setProc (k : Kernel) (pid : Nat) (p : Proc) : Kernel :=
  { k with procs := Function.update k.procs pid p }

@[simp] theorem setFs_fs (k : Kernel) (s : FsState) : (k.setFs s).fs = s := rfl
@[simp] theorem setFs_procs (k : Kernel) (s : FsState) : (k.setFs s).procs = k.procs := rfl
@[simp] theorem setFs_users (k : Kernel) (s : FsState) : (k.setFs s).users = k.users := rfl
@[simp] theorem setFs_ftable (k : Kernel) (s : FsState) :
    (k.setFs s).ftable = k.ftable := rfl
@[simp] theorem setFs_utableIp (k : Kernel) (s : FsState) :
    (k.setFs s).utableIp = k.utableIp := rfl

end Kernel

/-! ## Open files -/

def filealloc (ft : List File) : Option (List File × Nat) :=
  (ft.findIdx? fun f => f.ref == 0).map fun i => (ft.set i { ft.getD i default with ref := 1 }, i)

def fdalloc (p : Proc) (f : Nat) : Option (Proc × Nat) :=
  (p.ofile.findIdx? Option.isNone).map fun fd => ({ p with ofile := p.ofile.set fd (some f) }, fd)

/-- `fileclose`; a pipe's own state is not part of this model, so closing
its last descriptor only clears the entry. -/
def fileclose (k : Kernel) (f : Nat) : Except Fault Kernel := do
  let ff := k.ftable.getD f default
  if ff.ref < 1 then throw (.panic "fileclose")
  if ff.ref - 1 > 0 then
    return { k with ftable := k.ftable.set f { ff with ref := ff.ref - 1 } }
  let k := { k with ftable := k.ftable.set f { ff with ref := 0, type := .none } }
  if ff.type = .inode then
    let s ← iput k.fs ff.ip
    return k.setFs s
  return k

/-! ## Creating an inode -/

/-- The bytes `"."` and `".."`. -/
def dot : List UInt8 := [46]
def dotdot : List UInt8 := [46, 46]

/-- The allocation path of `create`: a new inode linked as `name` in the
locked directory `dp`, with `.` and `..` when it is a directory. -/
def createNew (s : FsState) (dp : Nat) (name : List UInt8) (type : InodeType)
    (major minor : Int16) : Except Fault (FsState × Option Nat) := do
  let (s, ip) ← ialloc s type
  let s ← ilock s ip
  let s := s.modify ip fun x => { x with major := major, minor := minor, nlink := 1 }
  let s ← if type = .dir then do
      let s := s.modify dp fun x => { x with nlink := x.nlink + 1 }
      let (s, r) ← dirlink s ip dot (s.slot ip).inum
      if r < 0 then throw (.panic "create dots")
      let (s, r) ← dirlink s ip dotdot (s.slot dp).inum
      if r < 0 then throw (.panic "create dots")
      pure s
    else pure s
  let (s, r) ← dirlink s dp name (s.slot ip).inum
  if r < 0 then throw (.panic "create: dirlink")
  let s ← iunlockput s dp
  return (s, some ip)

/-- `create` for a caller with user `uid` and current directory `cwd`: the
slot of the created, or reused, inode, returned locked. -/
def create (s : FsState) (uid : UInt32) (cwd : Nat) (path : List UInt8)
    (type : InodeType) (major minor : Int16) : Except Fault (FsState × Option Nat) := do
  let (s, parent) ← nameiparent s uid cwd path
  match parent with
  | none => return (s, none)
  | some (dp, name) =>
      let s ← ilock s dp
      let (s, found) ← dirlookup s dp name
      match found with
      | some (ip, _) =>
          let s ← iunlockput s dp
          let s ← ilock s ip
          if type = .file ∧ (s.inode ip).type = .file then
            if !hasWritePermission uid (s.inode ip) then return (s, none)
            return (s, some ip)
          let s ← iunlockput s ip
          return (s, none)
      | none =>
          if !hasWritePermission uid (s.inode dp) then
            let s ← iunlockput s dp
            return (s, none)
          createNew s dp name type major minor

/-! ## What `create` makes -/

/-- The allocation that starts `createNew` under a directory `dp` that holds
a reference: a fresh dinode at a free number below the count, locked in a
slot other than `dp`'s. -/
theorem createNew_alloc {s s₁ s₂ : FsState} {dp ip : Nat} {type : InodeType}
    (halloc : ialloc s type = .ok (s₁, ip)) (hlock : ilock s₁ ip = .ok s₂)
    (hdp : 1 ≤ (s.slot dp).ref) (hdir : (s.inode dp).type = .dir) :
    ∃ inum, 1 ≤ inum ∧ inum < s.ninodes ∧ (s.inodes inum).type = .free ∧
      inum ≠ (s.slot dp).inum ∧ (s₂.slot ip).inum = inum ∧
      (s₂.slot dp).inum = (s.slot dp).inum ∧
      s₂.inodes = Function.update s.inodes inum (freshInode type) ∧ s₂.ninodes = s.ninodes := by
  obtain ⟨inum, hpos, hlt, hfree, hget⟩ := ialloc_eq_ok halloc
  obtain ⟨hinodes₁, hn₁, hslot₁, hother₁⟩ := iget_eq_ok hget
  -- a directory is not free, so the new number is not the parent's
  have hne : inum ≠ (s.slot dp).inum := by
    rintro rfl
    rw [FsState.inode, hfree] at hdir
    cases hdir
  have hip : ip ≠ dp := iget_ne_of_ref hget (by simp; omega) (by simpa using hne.symm)
  have hc₂ := ilock_cacheOnly hlock
  refine ⟨inum, hpos, hlt, hfree, hne, ?_, ?_, ?_, ?_⟩
  · rw [hc₂.inum, hslot₁]
  · rw [hc₂.inum, hother₁ dp (Ne.symm hip), slot_setInode]
  · rw [hc₂.inodes, hinodes₁, setInode_inodes]
  · rw [hc₂.ninodes, hn₁, setInode_ninodes]

/-- `createNew` of a directory under a directory `dp` that holds a
reference makes it at an inode that was free, with one link, and the
lookup of its name in `dp` then finds it. -/
theorem createNew_dir_eq_ok {s s' : FsState} {dp : Nat} {name : List UInt8} {major minor : Int16}
    {r : Option Nat} (h : createNew s dp name .dir major minor = .ok (s', r))
    (hdp : 1 ≤ (s.slot dp).ref) (hdir : (s.inode dp).type = .dir)
    (hlink : 0 ≤ (s.inode dp).nlink) (hcount : s.ninodes ≤ 2 ^ 16) :
    ∃ ip inum, r = some ip ∧ (s'.slot ip).inum = inum ∧ (s.inodes inum).type = .free ∧
      inum ≠ (s.slot dp).inum ∧ (s'.inodes inum).type = .dir ∧ (s'.inodes inum).nlink = 1 ∧
      ∃ off, dirlookupLoop (s'.inodes (s.slot dp).inum) name
        (s'.inodes (s.slot dp).inum).size 0 = .ok (some (inum, off)) := by
  unfold createNew at h
  obtain ⟨⟨s₁, ip⟩, halloc, h₁⟩ := Except.bind_eq_ok_iff.mp h
  obtain ⟨s₂, hlock, h₂⟩ := Except.bind_eq_ok_iff.mp h₁
  obtain ⟨inum, hpos, hlt, hfree, hne, hsi, hsd, hinodes₂, -⟩ :=
    createNew_alloc halloc hlock hdp hdir
  have hfresh : s₂.inodes inum = freshInode .dir := by
    rw [hinodes₂, Function.update_self]
  have hparent : s₂.inodes (s.slot dp).inum = s.inode dp := by
    rw [hinodes₂, Function.update_of_ne (Ne.symm hne)]
    rfl
  -- the records "." and ".." of the new directory
  obtain ⟨⟨s₅, r₁⟩, hdot, h₃⟩ := Except.bind_eq_ok_iff.mp h₂
  simp only [] at h₃
  split_ifs at h₃ with hr₁
  · obtain ⟨_, hthrow, -⟩ := Except.bind_eq_ok_iff.mp h₃
    cases hthrow
  obtain ⟨⟨s₆, r₂⟩, hdotdot, h₄⟩ := Except.bind_eq_ok_iff.mp h₃
  simp only [pure_bind] at h₄
  split_ifs at h₄ with hr₂
  · obtain ⟨_, hthrow, -⟩ := Except.bind_eq_ok_iff.mp h₄
    cases hthrow
  -- the record of the new directory in its parent
  obtain ⟨⟨s₇, r₃⟩, hname, h₅⟩ := Except.bind_eq_ok_iff.mp h₄
  simp only [] at h₅
  split_ifs at h₅ with hr₃
  · obtain ⟨_, hthrow, -⟩ := Except.bind_eq_ok_iff.mp h₅
    cases hthrow
  obtain ⟨s₈, hput, h₆⟩ := Except.bind_eq_ok_iff.mp h₅
  cases h₆
  obtain ⟨d₁, hs₅⟩ := dirlink_modify hdot (by omega)
  obtain ⟨d₂, hs₆⟩ := dirlink_modify hdotdot (by omega)
  obtain ⟨rfl, -⟩ := dirlink_eq_ok hname (by omega)
  obtain ⟨d₃, hs₇⟩ := dirlink_modify hname le_rfl
  have hslot₆ : ∀ j, s₆.slot j = s₂.slot j := by
    intro j
    rw [hs₆, slot_modify, hs₅]
    rfl
  have hslot₇ : ∀ j, s₇.slot j = s₂.slot j := by
    intro j
    rw [hs₇, slot_modify, hslot₆]
  have hpar : s₇.inode dp = { s.inode dp with nlink := (s.inode dp).nlink + 1, data := d₃ } := by
    simp [hs₇, hs₆, hs₅, FsState.inode, hsd, hsi, Function.update_apply, hne.symm, hparent]
  have hnew : s₇.inodes inum = { freshInode .dir with major := major, minor := minor, nlink := 1, data := d₂ } := by
    simp [hs₇, hs₆, hs₅, FsState.inode, hsd, hsi, Function.update_apply, hne, hfresh]
  obtain ⟨off, hoff⟩ := dirlink_lookup hname (by rw [hslot₆, hsi]; omega)
    (by rw [hslot₆, hsi]; omega)
  rw [hslot₆, hsi] at hoff
  have hc₈ := iunlockput_cacheOnly hput
    (by rw [hpar]; exact Int16.add_one_ne_zero_of_nonneg hlink)
  have hdpslot : (s₇.slot dp).inum = (s.slot dp).inum := by rw [hslot₇, hsd]
  refine ⟨ip, inum, rfl, ?_, hfree, hne, ?_, ?_, off, ?_⟩
  · rw [hc₈.inum, hslot₇, hsi]
  · rw [hc₈.inodes, hnew]
    rfl
  · rw [hc₈.inodes, hnew]
  · rw [hc₈.inodes, ← hdpslot]
    exact hoff

/-- `create` of a directory at `"/" ++ n`, where the caller may search and
write the root directory and it holds no record for `n`, makes it as
`createNew` does under the root. -/
theorem create_slash_dir_eq_ok {s s' : FsState} {uid : UInt32} {cwd : Nat} {n rest : List UInt8}
    {major minor : Int16} {r : Option Nat} (hn : n ≠ []) (hz : (0 : UInt8) ∉ n)
    (hs : slash ∉ n) (hrest : rest.headD 0 = 0) (hdir : (s.inodes rootino).type = .dir)
    (hexec : hasExecutePermission uid (s.inodes rootino) = true)
    (hwrite : hasWritePermission uid (s.inodes rootino) = true)
    (hlink : 0 ≤ (s.inodes rootino).nlink) (hcount : s.ninodes ≤ 2 ^ 16)
    (hnew : ∀ e, dirlookupLoop (s.inodes rootino) (n.take dirsiz) (s.inodes rootino).size 0 ≠
      .ok (some e))
    (h : create s uid cwd (slash :: (n ++ rest)) .dir major minor = .ok (s', r)) :
    ∃ ip inum, r = some ip ∧ (s'.slot ip).inum = inum ∧ (s.inodes inum).type = .free ∧
      inum ≠ rootino ∧ (s'.inodes inum).type = .dir ∧ (s'.inodes inum).nlink = 1 ∧
      ∃ off, dirlookupLoop (s'.inodes rootino) (n.take dirsiz)
        (s'.inodes rootino).size 0 = .ok (some (inum, off)) := by
  unfold create at h
  obtain ⟨⟨s₁, parent⟩, hparent, h₁⟩ := Except.bind_eq_ok_iff.mp h
  obtain ⟨dp, rfl, hdp, hinodes₁, hcount₁⟩ :=
    nameiparent_slash_append hn hz hs hrest hdir hexec hparent
  obtain ⟨s₂, hlock, h₂⟩ := Except.bind_eq_ok_iff.mp h₁
  have hc₂ := ilock_cacheOnly hlock
  have hroot : s₂.inode dp = s.inodes rootino := by
    rw [hc₂.inode_eq, FsState.inode, hdp, hinodes₁]
  obtain ⟨⟨s₃, found⟩, hlook, h₃⟩ := Except.bind_eq_ok_iff.mp h₂
  cases found with
  | some found =>
      obtain ⟨ip, off⟩ := found
      obtain ⟨-, inum, hloop, -⟩ := dirlookup_eq_ok_some hlook
      rw [hroot] at hloop
      exact absurd hloop (hnew _)
  | none =>
      obtain ⟨rfl, -, -⟩ := dirlookup_eq_ok_none hlook
      simp only [hroot, hwrite, Bool.not_true, Bool.false_eq_true, if_false] at h₃
      have hnode := createNew_dir_eq_ok h₃ (ilock_ref hlock) (by rw [hroot]; exact hdir)
        (by rw [hroot]; exact hlink) (by rw [hc₂.ninodes, hcount₁]; exact hcount)
      rw [hc₂.inum, hdp, hc₂.inodes, hinodes₁] at hnode
      exact hnode

/-! ## `open` -/

/-- The first half of `sys_open`: the inode the call opens, locked, by
`create` under `O_CREATE` and by `namei` otherwise. -/
def openInode (s : FsState) (p : Proc) (path : List UInt8) (omode : Int32) :
    Except Fault (FsState × Option Nat) := do
  if omode &&& oCreate ≠ 0 then
    let (s, ip) ← create s p.uid p.cwd path .file 0 0
    match ip with
    | none => return (s, none)
    | some ip =>
        return (s.modify ip fun x =>
          { x with perm := modeRusr ||| modeWusr ||| modeRoth, owner := p.uid }, some ip)
  else
    let (s, ip) ← namei s p.uid p.cwd path
    match ip with
    | none => return (s, none)
    | some ip =>
        let s ← ilock s ip
        if (s.inode ip).type = .dir ∧ omode ≠ oRdonly then
          let s ← iunlockput s ip
          return (s, none)
        return (s, some ip)

/-- The permission checks of `sys_open`, made by equality on `omode`. -/
def openAllowed (uid : UInt32) (x : Inode) (omode : Int32) : Bool :=
  (!(omode = oRdonly ∨ omode = oRdwr) || hasReadPermission uid x) &&
    (!(omode = oWronly ∨ omode = oRdwr) || hasWritePermission uid x)

/-- The open file `sys_open` fills in, with its flags from the bits of
`omode`. -/
def openedFile (ip : Nat) (omode : Int32) : File :=
  { type := .inode, ref := 1, readable := omode &&& oWronly = 0,
    writable := omode &&& oWronly ≠ 0 ∨ omode &&& oRdwr ≠ 0, ip := ip, off := 0 }

def sysOpen (k : Kernel) (pid : Nat) (path : List UInt8) (omode : Int32) :
    Except Fault (Kernel × Int) := do
  let p := k.procs pid
  let (s, ip) ← openInode k.fs p path omode
  match ip with
  | none => return (k.setFs s, -1)
  | some ip =>
      if !openAllowed p.uid (s.inode ip) omode then
        let s ← iunlockput s ip
        return (k.setFs s, -1)
      match filealloc k.ftable with
      | none =>
          let s ← iunlockput s ip
          return (k.setFs s, -1)
      | some (ft, f) =>
          match fdalloc p f with
          | none =>
              let k ← fileclose { k with fs := s, ftable := ft } f
              let s ← iunlockput k.fs ip
              return (k.setFs s, -1)
          | some (p, fd) =>
              let s ← iunlock s ip
              return ({ k with fs := s, ftable := ft.set f (openedFile ip omode) }.setProc
                pid p, fd)

/-! ## Links -/

def sysLink (k : Kernel) (pid : Nat) (old new : List UInt8) :
    Except Fault (Kernel × Int) := do
  let p := k.procs pid
  let (s, ip) ← namei k.fs p.uid p.cwd old
  match ip with
  | none => return (k.setFs s, -1)
  | some ip =>
      let s ← ilock s ip
      if (s.inode ip).type = .dir then
        let s ← iunlockput s ip
        return (k.setFs s, -1)
      let s := s.modify ip fun x => { x with nlink := x.nlink + 1 }
      let s ← iunlock s ip
      let undo (s : FsState) : Except Fault (Kernel × Int) := do
        let s ← ilock s ip
        let s := s.modify ip fun x => { x with nlink := x.nlink - 1 }
        let s ← iunlockput s ip
        return (k.setFs s, -1)
      let (s, parent) ← nameiparent s p.uid p.cwd new
      match parent with
      | none => undo s
      | some (dp, name) =>
          let s ← ilock s dp
          let (s, r) ← dirlink s dp name (s.slot ip).inum
          if r < 0 then
            let s ← iunlockput s dp
            undo s
          else
            let s ← iunlockput s dp
            let s ← iput s ip
            return (k.setFs s, 0)

/-- The loop of `isdirempty` from offset `off`: whether every record there
is free. -/
def isdiremptyLoop (dp : Inode) : Nat → Nat → Except Fault Bool
  | 0, _ => .ok true
  | fuel + 1, off =>
      if off < dp.size then
        match readi dp (UInt32.ofNat off) (UInt32.ofNat direntSize) with
        | some de =>
            if de.length ≠ direntSize then .error (.panic "isdirempty: readi")
            else if direntInum de ≠ 0 then .ok false
            else isdiremptyLoop dp fuel (off + direntSize)
        | none => .error (.panic "isdirempty: readi")
      else .ok true

def isdirempty (dp : Inode) : Except Fault Bool :=
  isdiremptyLoop dp dp.size (2 * direntSize)

def sysUnlink (k : Kernel) (pid : Nat) (path : List UInt8) :
    Except Fault (Kernel × Int) := do
  let p := k.procs pid
  let (s, parent) ← nameiparent k.fs p.uid p.cwd path
  match parent with
  | none => return (k.setFs s, -1)
  | some (dp, name) =>
      let s ← ilock s dp
      let bad (s : FsState) : Except Fault (Kernel × Int) := do
        let s ← iunlockput s dp
        return (k.setFs s, -1)
      if !hasWritePermission p.uid (s.inode dp) then bad s
      else if namecmp name dot = 0 ∨ namecmp name dotdot = 0 then bad s
      else
        let (s, found) ← dirlookup s dp name
        match found with
        | none => bad s
        | some (ip, off) =>
            let s ← ilock s ip
            if (s.inode ip).nlink < 1 then throw (.panic "unlink: nlink < 1")
            let empty ← if (s.inode ip).type = .dir then isdirempty (s.inode ip)
              else pure true
            if !empty then
              let s ← iunlockput s ip
              bad s
            else
              match writei (s.inode dp) (List.replicate direntSize 0) (UInt32.ofNat off) with
              | none => throw (.panic "unlink: writei")
              | some x =>
                  let s := s.modify dp fun _ => x
                  let s := if (s.inode ip).type = .dir then
                      s.modify dp fun x => { x with nlink := x.nlink - 1 }
                    else s
                  let s ← iunlockput s dp
                  let s := s.modify ip fun x => { x with nlink := x.nlink - 1 }
                  let s ← iunlockput s ip
                  return (k.setFs s, 0)

/-! ## Modes, directories and devices -/

def sysChmod (k : Kernel) (pid : Nat) (path : List UInt8) (mode : Int32) :
    Except Fault (Kernel × Int) := do
  let p := k.procs pid
  let (s, ip) ← namei k.fs p.uid p.cwd path
  match ip with
  | none => return (k.setFs s, -1)
  | some ip =>
      let s ← ilock s ip
      if !hasOwn p.uid (s.inode ip) then
        let s ← iunlockput s ip
        return (k.setFs s, -1)
      let s := s.modify ip fun x => { x with perm := (mode &&& modeAll).toUInt32.toUInt8 }
      let s ← iunlockput s ip
      return (k.setFs s, 0)

def sysMkdir (k : Kernel) (pid : Nat) (path : List UInt8) :
    Except Fault (Kernel × Int) := do
  let p := k.procs pid
  let (s, ip) ← create k.fs p.uid p.cwd path .dir 0 0
  match ip with
  | none => return (k.setFs s, -1)
  | some ip =>
      let s := s.modify ip fun x =>
        { x with perm := modeRusr ||| modeWusr ||| modeXusr ||| modeRoth ||| modeXoth,
                 owner := p.uid }
      let s ← iunlockput s ip
      return (k.setFs s, 0)

def sysMknod (k : Kernel) (pid : Nat) (path : List UInt8) (major minor : Int32) :
    Except Fault (Kernel × Int) := do
  let p := k.procs pid
  let (s, ip) ← create k.fs p.uid p.cwd path .dev major.toInt16 minor.toInt16
  match ip with
  | none => return (k.setFs s, -1)
  | some ip =>
      let s ← iunlockput s ip
      return (k.setFs s, 0)

def sysChdir (k : Kernel) (pid : Nat) (path : List UInt8) :
    Except Fault (Kernel × Int) := do
  let p := k.procs pid
  let (s, ip) ← namei k.fs p.uid p.cwd path
  match ip with
  | none => return (k.setFs s, -1)
  | some ip =>
      let s ← ilock s ip
      if (s.inode ip).type ≠ .dir ∨ !hasExecutePermission p.uid (s.inode ip) then
        let s ← iunlockput s ip
        return (k.setFs s, -1)
      let s ← iunlock s ip
      let s ← iput s p.cwd
      return ((k.setFs s).setProc pid { p with cwd := ip }, 0)

end Xv6
