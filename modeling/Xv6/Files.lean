import Xv6.Proc
import Xv6.Pipe
import Xv6.SysFile

/-!
# Open files through `fork`, `exit`, `dup`, `close`, `open` and `pipe`

`file.c`, `pipe.c` and the parts of `sysfile.c` and `proc.c` that move
references to open files: the process table with each process's
descriptors and current directory, `ftable`, the pipes `pipealloc` made,
and the reference counts of the inode cache's slots.  What the file system
answers (`namei`, `create`, the permission checks) and what `argptr`,
`copyuvm` and `kalloc` return are any outcome.  A pipe is named by the
order in which `pipealloc` made it: once its page is freed no file refers
to it, so the page `kalloc` hands out again makes a new one.

`Acct` is the accounting.  A file's `ref` is the number of descriptors
that name it, and a file with none is `FD_NONE`; each open end of a pipe
has exactly one file on it and a closed end none, and a pipe's page is
allocated exactly while an end is open; the reference count of an inode
slot is the number of files open on it and of processes in it.  Within a
call, the references its variables hold stand on three ledgers, each step
of the call moves one reference between a count and a ledger, and every
call ends with the ledgers empty.  `Inv` adds that a process that is unused
or a zombie holds nothing and that a live one has a directory.  It holds at
boot and after every step, so at every call boundary of every run.
-/

namespace Xv6.Files

open Procs

/-- `struct file`: its pipe by the index of the pipe's page, its inode by
cache slot, and the offset left out since no reference depends on it.
`ref` is a `Nat`: it is only ever incremented, or decremented from at
least 1. -/
structure File where
  type : FileType
  ref : Nat
  readable : Bool
  writable : Bool
  pipe : Nat
  ip : Nat
  deriving DecidableEq, Repr

/-- A slot of `ftable.file`: a `struct file *` that is not null. -/
abbrev FileIdx := Fin nfile

/-- A descriptor: an index of `ofile`. -/
abbrev Fd := Fin nofile

/-- The process table with each process's descriptors and current
directory, the open-file table, the pages of pipes (`npipes` of them handed
out so far, the next one fresh), the reference counts of the inode cache's
slots, and `utable_ip`, the slot of `/passwd` whose reference the user
table keeps. -/
structure Sys where
  pt : PTable
  ofile : Procs.Slot → Fd → Option FileIdx
  cwd : Procs.Slot → Option Nat
  ftable : FileIdx → File
  pipes : Nat → Pipes.Pipe
  palloc : Nat → Bool
  npipes : Nat
  iref : Nat → Int
  utableIp : Nat

namespace Sys

@[simps -fullyApplied]
def setFile (s : Sys) (f : FileIdx) (x : File) : Sys :=
  { s with ftable := Function.update s.ftable f x }

@[simps -fullyApplied]
def setOfile (s : Sys) (p : Procs.Slot) (fd : Fd) (x : Option FileIdx) : Sys :=
  { s with ofile := Function.update s.ofile p (Function.update (s.ofile p) fd x) }

@[simps -fullyApplied]
def setCwd (s : Sys) (p : Procs.Slot) (x : Option Nat) : Sys :=
  { s with cwd := Function.update s.cwd p x }

@[simps -fullyApplied]
def setPipe (s : Sys) (q : Nat) (x : Pipes.Pipe) : Sys :=
  { s with pipes := Function.update s.pipes q x }

@[simps -fullyApplied]
def setPalloc (s : Sys) (q : Nat) (b : Bool) : Sys :=
  { s with palloc := Function.update s.palloc q b }

/-- A change of the reference count of inode slot `ip`. -/
@[simps -fullyApplied]
def addIref (s : Sys) (ip : Nat) (d : Int) : Sys :=
  { s with iref := Function.update s.iref ip (s.iref ip + d) }

end Sys

/-! ## `file.c` and `pipe.c` -/

/-- `filealloc`: the first file with no reference, now with one. -/
def filealloc (s : Sys) : Option (Sys × FileIdx) :=
  match (List.finRange nfile).find? (fun f => (s.ftable f).ref == 0) with
  | none => none
  | some f => some (s.setFile f { s.ftable f with ref := 1 }, f)

def filedup (s : Sys) (f : FileIdx) : Except Fault Sys :=
  if (s.ftable f).ref < 1 then .error (.panic "filedup")
  else .ok (s.setFile f { s.ftable f with ref := (s.ftable f).ref + 1 })

/-- `pipeclose(p, writable)` on pipe `q`, with the `kfree` of its page
once both ends are closed. -/
def pipeclose (s : Sys) (q : Nat) (writable : Bool) : Sys :=
  let (p, free) := Pipes.pipeclose (s.pipes q) writable
  let s := s.setPipe q p
  if free then s.setPalloc q false else s

/-- `iput` as the open-file layer sees it: one reference fewer on the
slot. -/
def iput (s : Sys) (ip : Nat) : Sys := s.addIref ip (-1)

/-- `fileclose`: one reference fewer; the last one frees the file and
releases what it was open on. -/
def fileclose (s : Sys) (f : FileIdx) : Except Fault Sys :=
  let ff := s.ftable f
  if ff.ref < 1 then .error (.panic "fileclose")
  else if ff.ref - 1 > 0 then .ok (s.setFile f { ff with ref := ff.ref - 1 })
  else
    let s := s.setFile f { ff with ref := 0, type := .none }
    match ff.type with
    | .pipe => .ok (pipeclose s ff.pipe ff.writable)
    | .inode => .ok (iput s ff.ip)
    | .none => .ok s

/-- `pipealloc`; `page` is what `kalloc` returns, `none` for no page, and a
page is the pipe with the next index.  The result is the read and the write
file, or `none` for `-1`.  The `kfree` on the way out is never reached with
a page, since no failure follows the `kalloc`. -/
def pipealloc (s : Sys) (page : Option (Nat → UInt8)) :
    Except Fault (Sys × Option (FileIdx × FileIdx)) :=
  match filealloc s with
  | none => .ok (s, none)
  | some (s, f0) =>
    match filealloc s with
    | none => do
      let s ← fileclose s f0
      return (s, none)
    | some (s, f1) =>
      match page with
      | none => do
        let s ← fileclose s f0
        let s ← fileclose s f1
        return (s, none)
      | some data =>
        let q := s.npipes
        let s := { (s.setPipe q (Pipes.pipealloc data)).setPalloc q true with npipes := q + 1 }
        let s := s.setFile f0
          { s.ftable f0 with type := .pipe, readable := true, writable := false, pipe := q }
        let s := s.setFile f1
          { s.ftable f1 with type := .pipe, readable := false, writable := true, pipe := q }
        return (s, some (f0, f1))

/-! ## `sysfile.c` -/

/-- `fdalloc`: the first free descriptor of `p` now names `f`. -/
def fdalloc (s : Sys) (p : Procs.Slot) (f : FileIdx) : Option (Sys × Fd) :=
  match (List.finRange nofile).find? (fun fd => (s.ofile p fd).isNone) with
  | none => none
  | some fd => some (s.setOfile p fd (some f), fd)

/-- `argfd`: the descriptor argument and the file it names, if it is in
range and open. -/
def argfd (s : Sys) (p : Procs.Slot) (fd : Int) : Option (Fd × FileIdx) :=
  if h : 0 ≤ fd ∧ fd < nofile then
    let d : Fd := ⟨fd.toNat, by omega⟩
    (s.ofile p d).map fun f => (d, f)
  else none

def sysDup (s : Sys) (p : Procs.Slot) (fd : Int) : Except Fault (Sys × Int) :=
  match argfd s p fd with
  | none => .ok (s, -1)
  | some (_, f) =>
    match fdalloc s p f with
    | none => .ok (s, -1)
    | some (s, fd') => do
      let s ← filedup s f
      return (s, fd')

def sysClose (s : Sys) (p : Procs.Slot) (fd : Int) : Except Fault (Sys × Int) :=
  match argfd s p fd with
  | none => .ok (s, -1)
  | some (fd, f) => do
    let s ← fileclose (s.setOfile p fd none) f
    return (s, 0)

/-- The second half of `sys_open`: the first found inode slot `ip`, locked
and with the reference `namei` or `create` took, and `allowed` is the
permission checks' verdict. -/
def openFile (s : Sys) (p : Procs.Slot) (ip : Nat) (allowed : Bool) (omode : Int32) :
    Except Fault (Sys × Int) :=
  if !allowed then .ok (iput s ip, -1)
  else
    match filealloc s with
    | none => .ok (iput s ip, -1)
    | some (s, f) =>
      match fdalloc s p f with
      | none => do
        let s ← fileclose s f
        return (iput s ip, -1)
      | some (s, fd) =>
        .ok (s.setFile f { s.ftable f with
          type := .inode
          ip := ip
          readable := omode &&& oWronly == 0
          writable := omode &&& oWronly != 0 || omode &&& oRdwr != 0 }, fd)

/-- `sys_open`, given what its first half found: `none` when `namei` or
`create` failed. -/
def sysOpen (s : Sys) (p : Procs.Slot) (found : Option Nat) (allowed : Bool) (omode : Int32) :
    Except Fault (Sys × Int) :=
  match found with
  | none => .ok (s, -1)
  | some ip => openFile (s.addIref ip 1) p ip allowed omode

/-- `sys_pipe`; `argOk` says whether the user's array is valid. -/
def sysPipe (s : Sys) (p : Procs.Slot) (argOk : Bool) (page : Option (Nat → UInt8)) :
    Except Fault (Sys × Int) := do
  if !argOk then return (s, -1)
  let (s, files) ← pipealloc s page
  match files with
  | none => return (s, -1)
  | some (rf, wf) =>
    match fdalloc s p rf with
    | none => do
      let s ← fileclose s rf
      let s ← fileclose s wf
      return (s, -1)
    | some (s₁, fd0) =>
      match fdalloc s₁ p wf with
      | none => do
        let s ← fileclose (s₁.setOfile p fd0 none) rf
        let s ← fileclose s wf
        return (s, -1)
      | some (s, _) => return (s, 0)

/-- `sys_chdir`, given the directory `namei` found, with its reference, and
whether it is a directory the caller may search.  The change of directory
`sys_login` makes is the same but for the permission check. -/
def sysChdir (s : Sys) (p : Procs.Slot) (found : Option Nat) (isDir : Bool) : Except Fault (Sys × Int) :=
  match found with
  | none => .ok (s, -1)
  | some ip =>
    let s := s.addIref ip 1
    if !isDir then .ok (iput s ip, -1)
    else
      match s.cwd p with
      | none => .error (.panic "iput")
      | some old => .ok ((iput s old).setCwd p (some ip), 0)

/-! ## `proc.c` -/

/-- The loop of `fork` over the parent's descriptors: each open one is
`filedup`ed into the child's. -/
def forkFiles (c np : Procs.Slot) : List Fd → Sys → Except Fault Sys
  | [], s => .ok s
  | fd :: fds, s =>
    match s.ofile c fd with
    | none => forkFiles c np fds s
    | some f => do
      let s ← filedup s f
      forkFiles c np fds (s.setOfile np fd (some f))

/-- `fork` by `c`; `copied` says whether `copyuvm` succeeds. -/
def fork (s : Sys) (c : Procs.Slot) (copied : Bool) : Except Fault (Sys × Int) :=
  match allocproc s.pt with
  | none => .ok (s, -1)
  | some (pt, np) =>
    if !copied then .ok ({ s with pt := forkFinish pt c np false }, -1)
    else do
      let s ← forkFiles c np (List.finRange nofile) { s with pt := pt }
      match s.cwd c with
      | none => .error (.panic "idup")
      | some ip =>
        let s := (s.addIref ip 1).setCwd np (some ip)
        return ({ s with pt := forkFinish s.pt c np true }, (pt.proc np).pid)

/-- The loop of `exit` over the descriptors of `c`: each open one is
closed. -/
def exitFiles (c : Procs.Slot) : List Fd → Sys → Except Fault Sys
  | [], s => .ok s
  | fd :: fds, s =>
    match s.ofile c fd with
    | none => exitFiles c fds s
    | some f => do
      let s ← fileclose s f
      exitFiles c fds (s.setOfile c fd none)

/-- `exit` by `c`, up to the switch away from it. -/
def exit (s : Sys) (c : Procs.Slot) : Except Fault Sys := do
  if c = initproc then throw (.panic "init exiting")
  let s ← exitFiles c (List.finRange nofile) s
  match s.cwd c with
  | none => throw (.panic "iput")
  | some ip =>
    let s := (iput s ip).setCwd c none
    match Procs.exit s.pt c with
    | none => throw (.panic "init exiting")
    | some pt => return { s with pt := pt }

/-! ## Runs -/

/-- The kernel at the end of the first `forkret`: `initproc` runs with no
open file and the root directory, in the first cache slot, as its
directory, and `init_usertable` has kept `/passwd` in the second. -/
def boot : Sys where
  pt := userinit.setState initproc .running
  ofile := fun _ _ => none
  cwd := fun p => if p = initproc then some 0 else none
  ftable := fun _ => { type := .none, ref := 0, readable := false, writable := false, pipe := 0, ip := 0 }
  pipes := fun _ => Pipes.pipealloc fun _ => 0
  palloc := fun _ => false
  npipes := 0
  iref := fun ip => if ip = 0 ∨ ip = 1 then 1 else 0
  utableIp := 1

/-- A system call by the running process `c`, or a move of the process
table that touches no file: the scheduler's, `wait`'s and `kill`'s.  A call
is one step: its changes to `ftable` are made under `ftable.lock`, and
those to a descriptor table by its own process.  What `namei`, `create`,
the permission checks, `argptr`, `copyuvm` and `kalloc` return is any
outcome. -/
inductive Step : Sys → Sys → Prop
  | dup {s s' : Sys} {c : Procs.Slot} {fd r : Int} (hc : (s.pt.proc c).state = .running)
      (h : sysDup s c fd = .ok (s', r)) : Step s s'
  | close {s s' : Sys} {c : Procs.Slot} {fd r : Int} (hc : (s.pt.proc c).state = .running)
      (h : sysClose s c fd = .ok (s', r)) : Step s s'
  | open_ {s s' : Sys} {c : Procs.Slot} {found : Option Nat} {allowed : Bool} {omode : Int32}
      {r : Int} (hc : (s.pt.proc c).state = .running)
      (h : sysOpen s c found allowed omode = .ok (s', r)) : Step s s'
  | pipe {s s' : Sys} {c : Procs.Slot} {argOk : Bool} {page : Option (Nat → UInt8)} {r : Int}
      (hc : (s.pt.proc c).state = .running) (h : sysPipe s c argOk page = .ok (s', r)) :
      Step s s'
  | chdir {s s' : Sys} {c : Procs.Slot} {found : Option Nat} {isDir : Bool} {r : Int}
      (hc : (s.pt.proc c).state = .running) (h : sysChdir s c found isDir = .ok (s', r)) :
      Step s s'
  | fork {s s' : Sys} {c : Procs.Slot} {copied : Bool} {r : Int}
      (hc : (s.pt.proc c).state = .running) (h : fork s c copied = .ok (s', r)) : Step s s'
  | exit {s s' : Sys} {c : Procs.Slot} (hc : (s.pt.proc c).state = .running)
      (h : exit s c = .ok s') : Step s s'
  | wait {s : Sys} {c : Procs.Slot} (hc : (s.pt.proc c).state = .running) :
      Step s { s with pt := (Procs.wait s.pt c).1 }
  | kill {s : Sys} {c : Procs.Slot} (hc : (s.pt.proc c).state = .running) (pid : Int) :
      Step s { s with pt := (Procs.kill s.pt pid).1 }
  | schedule {s : Sys} {p : Procs.Slot} (h : (s.pt.proc p).state = .runnable) :
      Step s { s with pt := s.pt.setState p .running }
  | yield {s : Sys} {c : Procs.Slot} (h : (s.pt.proc c).state = .running) :
      Step s { s with pt := s.pt.setState c .runnable }
  | sleep {s : Sys} {c : Procs.Slot} (h : (s.pt.proc c).state = .running) :
      Step s { s with pt := s.pt.setState c .sleeping }
  | wakeup {s : Sys} {p : Procs.Slot} (h : (s.pt.proc p).state = .sleeping) :
      Step s { s with pt := s.pt.setState p .runnable }

inductive Reachable : Sys → Prop
  | boot : Reachable boot
  | step {s s' : Sys} : Reachable s → Step s s' → Reachable s'

/-! ## Who holds what -/

/-- The (process, descriptor) pairs of processes that are not `UNUSED`
whose descriptor names `f`. -/
def holders (s : Sys) (f : FileIdx) : Nat :=
  (Finset.univ.filter fun x : Procs.Slot × Fd =>
    (s.pt.proc x.1).state ≠ .unused ∧ s.ofile x.1 x.2 = some f).card

/-- The descriptors of any process that name `f`. -/
def fdCount (ofile : Procs.Slot → Fd → Option FileIdx) (f : FileIdx) : Nat :=
  ∑ x : Procs.Slot × Fd, if ofile x.1 x.2 = some f then 1 else 0

/-- Whether end `w` of a pipe is open: the write end for `true`. -/
def endOpen (p : Pipes.Pipe) (w : Bool) : Bool := if w then p.writeopen else p.readopen

/-- A file open on end `w` of pipe `q`. -/
def File.OnEnd (x : File) (q : Nat) (w : Bool) : Prop :=
  x.type = .pipe ∧ x.pipe = q ∧ x.writable = w

instance (x : File) (q : Nat) (w : Bool) : Decidable (x.OnEnd q w) :=
  inferInstanceAs (Decidable (_ ∧ _ ∧ _))

/-- A file open on inode slot `ip`. -/
def File.OnInode (x : File) (ip : Nat) : Prop := x.type = .inode ∧ x.ip = ip

instance (x : File) (ip : Nat) : Decidable (x.OnInode ip) :=
  inferInstanceAs (Decidable (_ ∧ _))

/-- The files open on end `w` of pipe `q`. -/
def pipeEnds (ftable : FileIdx → File) (q : Nat) (w : Bool) : Nat :=
  ∑ f : FileIdx, if (ftable f).OnEnd q w then 1 else 0

/-- The files open on inode slot `ip`. -/
def inodeFiles (ftable : FileIdx → File) (ip : Nat) : Nat :=
  ∑ f : FileIdx, if (ftable f).OnInode ip then 1 else 0

/-- The processes whose current directory is inode slot `ip`. -/
def cwdCount (cwd : Procs.Slot → Option Nat) (ip : Nat) : Nat :=
  ∑ p : Procs.Slot, if cwd p = some ip then 1 else 0

/-- The counts of the open-file layer.  Within a system call, `held` are
the file references, `heldIp` the inode references and `heldEnds` the pipe
ends that its variables hold: each is what a count is short of the
reference it balances. -/
structure Acct (held : Multiset FileIdx) (heldIp : Multiset Nat)
    (heldEnds : Multiset (Nat × Bool)) (s : Sys) : Prop where
  ref_eq : ∀ f, (s.ftable f).ref = fdCount s.ofile f + held.count f
  closed : ∀ f, (s.ftable f).ref = 0 → (s.ftable f).type = .none
  pipe_lt : ∀ f, (s.ftable f).type = .pipe → (s.ftable f).pipe < s.npipes
  ends : ∀ q < s.npipes, ∀ w,
    pipeEnds s.ftable q w + heldEnds.count (q, w) = (endOpen (s.pipes q) w).toNat
  alloc : ∀ q < s.npipes, s.palloc q = ((s.pipes q).readopen || (s.pipes q).writeopen)
  iref_eq : ∀ ip, s.iref ip = inodeFiles s.ftable ip + cwdCount s.cwd ip + heldIp.count ip

/-! ## The counts under updates -/

section Counts

theorem fdCount_update (ofile : Procs.Slot → Fd → Option FileIdx) (p : Procs.Slot) (fd : Fd)
    (x : Option FileIdx) (f : FileIdx) :
    fdCount (Function.update ofile p (Function.update (ofile p) fd x)) f +
        (if ofile p fd = some f then 1 else 0) =
      fdCount ofile f + if x = some f then 1 else 0 := by
  -- the table as a function of (process, descriptor) pairs, updated at one pair
  have hpair : ∀ y : Procs.Slot × Fd,
      Function.update ofile p (Function.update (ofile p) fd x) y.1 y.2 =
        Function.update (fun y : Procs.Slot × Fd => ofile y.1 y.2) (p, fd) x y := by
    rintro ⟨q, e⟩
    by_cases hq : q = p
    · subst hq
      by_cases he : e = fd
      · subst he; simp
      · simp [he]
    · simp [hq]
  unfold fdCount
  simp only [hpair]
  exact Fintype.count_update (fun y : Procs.Slot × Fd => ofile y.1 y.2) (p, fd) x (· = some f)

theorem pipeEnds_update (ftable : FileIdx → File) (f : FileIdx) (x : File) (q : Nat) (w : Bool) :
    pipeEnds (Function.update ftable f x) q w + (if (ftable f).OnEnd q w then 1 else 0) =
      pipeEnds ftable q w + if x.OnEnd q w then 1 else 0 :=
  Fintype.count_update ftable f x (·.OnEnd q w)

theorem inodeFiles_update (ftable : FileIdx → File) (f : FileIdx) (x : File) (ip : Nat) :
    inodeFiles (Function.update ftable f x) ip + (if (ftable f).OnInode ip then 1 else 0) =
      inodeFiles ftable ip + if x.OnInode ip then 1 else 0 :=
  Fintype.count_update ftable f x (·.OnInode ip)

theorem cwdCount_update (cwd : Procs.Slot → Option Nat) (p : Procs.Slot) (x : Option Nat)
    (ip : Nat) :
    cwdCount (Function.update cwd p x) ip + (if cwd p = some ip then 1 else 0) =
      cwdCount cwd ip + if x = some ip then 1 else 0 :=
  Fintype.count_update cwd p x (· = some ip)

end Counts

/-! ## What each function does -/

section Specs

variable {s s' : Sys} {f : FileIdx} {p : Procs.Slot} {fd : Fd}

@[simp] theorem File.onEnd_iff {x : File} {q : Nat} {w : Bool} :
    x.OnEnd q w ↔ x.type = .pipe ∧ x.pipe = q ∧ x.writable = w := Iff.rfl

@[simp] theorem File.onInode_iff {x : File} {ip : Nat} :
    x.OnInode ip ↔ x.type = .inode ∧ x.ip = ip := Iff.rfl

theorem filealloc_spec (h : filealloc s = some (s', f)) :
    (s.ftable f).ref = 0 ∧ s' = s.setFile f { s.ftable f with ref := 1 } := by
  unfold filealloc at h
  split at h
  · cases h
  · rename_i g hg
    obtain ⟨rfl, rfl⟩ := Prod.mk.inj (Option.some.inj h)
    have hfound := List.find?_some hg
    simp only [beq_iff_eq] at hfound
    exact ⟨hfound, rfl⟩

theorem fdalloc_spec {fd : Fd} (h : fdalloc s p f = some (s', fd)) :
    s.ofile p fd = none ∧ s' = s.setOfile p fd (some f) := by
  unfold fdalloc at h
  split at h
  · cases h
  · rename_i e he
    obtain ⟨rfl, rfl⟩ := Prod.mk.inj (Option.some.inj h)
    have hfound := List.find?_some he
    exact ⟨Option.isNone_iff_eq_none.mp hfound, rfl⟩

theorem filedup_spec (h : filedup s f = .ok s') :
    1 ≤ (s.ftable f).ref ∧ s' = s.setFile f { s.ftable f with ref := (s.ftable f).ref + 1 } := by
  unfold filedup at h
  split_ifs at h with hlt
  cases h
  exact ⟨by omega, rfl⟩

theorem argfd_spec {n : Int} {d : Fd} (h : argfd s p n = some (d, f)) : s.ofile p d = some f := by
  unfold argfd at h
  split_ifs at h with hn
  obtain ⟨g, hg, hgd⟩ := Option.map_eq_some_iff.mp h
  obtain ⟨rfl, rfl⟩ := Prod.mk.inj hgd
  exact hg

/-- The file as `fileclose` leaves it when it drops the last reference. -/
def cleared (x : File) : File := { x with ref := 0, type := .none }

/-- `fileclose` either drops a reference that is not the last, or drops the
last and releases what the file was open on. -/
theorem fileclose_cases (h : fileclose s f = .ok s') :
    (1 < (s.ftable f).ref ∧ s' = s.setFile f { s.ftable f with ref := (s.ftable f).ref - 1 }) ∨
    ((s.ftable f).ref = 1 ∧
      ((s.ftable f).type = .pipe ∧
          s' = pipeclose (s.setFile f (cleared (s.ftable f))) (s.ftable f).pipe (s.ftable f).writable ∨
        (s.ftable f).type = .inode ∧ s' = iput (s.setFile f (cleared (s.ftable f))) (s.ftable f).ip ∨
        (s.ftable f).type = .none ∧ s' = s.setFile f (cleared (s.ftable f)))) := by
  unfold fileclose at h
  dsimp only at h
  split_ifs at h with hlt hpos
  · cases h
    exact .inl ⟨by omega, rfl⟩
  · refine .inr ⟨by omega, ?_⟩
    -- the last reference: the source's three-way test on the old type
    cases htype : (s.ftable f).type <;> simp only [htype] at h <;> cases h
    · exact .inr (.inr ⟨rfl, rfl⟩)
    · exact .inl ⟨rfl, rfl⟩
    · exact .inr (.inl ⟨rfl, rfl⟩)

end Specs

/-! ## The ledgers through each step of a call -/

section Ledger

variable {held held' : Multiset FileIdx} {hi hi' : Multiset Nat} {he he' : Multiset (Nat × Bool)}
  {s s' : Sys} {f : FileIdx} {p : Procs.Slot} {fd : Fd} {ip : Nat}

/-- Changing one file moves what it is open on between the counts and the
ledgers. -/
theorem Acct.setFile (ha : Acct held hi he s) (f : FileIdx) (x : File)
    (href : x.ref + held.count f = (s.ftable f).ref + held'.count f)
    (hheld : ∀ g, g ≠ f → held'.count g = held.count g)
    (hclosed : x.ref = 0 → x.type = .none)
    (hlt : x.type = .pipe → x.pipe < s.npipes)
    (hends : ∀ q w, he'.count (q, w) + (if x.OnEnd q w then 1 else 0) =
      he.count (q, w) + if (s.ftable f).OnEnd q w then 1 else 0)
    (hips : ∀ ip, hi'.count ip + (if x.OnInode ip then 1 else 0) =
      hi.count ip + if (s.ftable f).OnInode ip then 1 else 0) :
    Acct held' hi' he' (s.setFile f x) where
  ref_eq g := by
    by_cases hg : g = f
    · subst hg
      have := ha.ref_eq g
      simp only [Sys.setFile_ftable, Function.update_self, Sys.setFile_ofile]
      omega
    · simp only [Sys.setFile_ftable, Function.update_of_ne hg, Sys.setFile_ofile, hheld g hg]
      exact ha.ref_eq g
  closed g := by
    by_cases hg : g = f
    · subst hg
      simpa using hclosed
    · simpa [Function.update_of_ne hg] using ha.closed g
  pipe_lt g := by
    by_cases hg : g = f
    · subst hg
      simpa using hlt
    · simpa [Function.update_of_ne hg] using ha.pipe_lt g
  ends q hq w := by
    have hupd := pipeEnds_update s.ftable f x q w
    have hold := ha.ends q hq w
    have hmove := hends q w
    simp only [Sys.setFile_ftable, Sys.setFile_pipes]
    omega
  alloc := ha.alloc
  iref_eq ip := by
    have hupd := inodeFiles_update s.ftable f x ip
    have hold := ha.iref_eq ip
    have hmove := hips ip
    simp only [Sys.setFile_ftable, Sys.setFile_iref, Sys.setFile_cwd]
    omega

/-- Changing one descriptor moves a file reference between the count and
the ledger. -/
theorem Acct.setOfile (ha : Acct held hi he s) (p : Procs.Slot) (fd : Fd) (x : Option FileIdx)
    (hheld : ∀ f, held'.count f + (if x = some f then 1 else 0) =
      held.count f + if s.ofile p fd = some f then 1 else 0) :
    Acct held' hi he (s.setOfile p fd x) where
  ref_eq f := by
    have hupd := fdCount_update s.ofile p fd x f
    have hold := ha.ref_eq f
    have hmove := hheld f
    simp only [Sys.setOfile_ftable, Sys.setOfile_ofile]
    omega
  closed := ha.closed
  pipe_lt := ha.pipe_lt
  ends := ha.ends
  alloc := ha.alloc
  iref_eq := ha.iref_eq

/-- Changing a current directory moves an inode reference between the
count and the ledger. -/
theorem Acct.setCwd (ha : Acct held hi he s) (p : Procs.Slot) (x : Option Nat)
    (hheld : ∀ ip, hi'.count ip + (if x = some ip then 1 else 0) =
      hi.count ip + if s.cwd p = some ip then 1 else 0) :
    Acct held hi' he (s.setCwd p x) where
  ref_eq := ha.ref_eq
  closed := ha.closed
  pipe_lt := ha.pipe_lt
  ends := ha.ends
  alloc := ha.alloc
  iref_eq ip := by
    have hupd := cwdCount_update s.cwd p x ip
    have hold := ha.iref_eq ip
    have hmove := hheld ip
    simp only [Sys.setCwd_iref, Sys.setCwd_ftable, Sys.setCwd_cwd]
    omega

theorem Acct.addIref (ha : Acct held hi he s) (ip : Nat) :
    Acct held (ip ::ₘ hi) he (s.addIref ip 1) where
  ref_eq := ha.ref_eq
  closed := ha.closed
  pipe_lt := ha.pipe_lt
  ends := ha.ends
  alloc := ha.alloc
  iref_eq j := by
    have hold := ha.iref_eq j
    by_cases hj : j = ip
    · subst hj
      simp only [Sys.addIref_iref, Function.update_self, Sys.addIref_ftable, Sys.addIref_cwd,
        Multiset.count_cons_self]
      omega
    · simp only [Sys.addIref_iref, Function.update_of_ne hj, Sys.addIref_ftable, Sys.addIref_cwd,
        Multiset.count_cons_of_ne hj]
      exact hold

theorem Acct.iput (ha : Acct held (ip ::ₘ hi) he s) : Acct held hi he (iput s ip) where
  ref_eq := ha.ref_eq
  closed := ha.closed
  pipe_lt := ha.pipe_lt
  ends := ha.ends
  alloc := ha.alloc
  iref_eq j := by
    have hold := ha.iref_eq j
    by_cases hj : j = ip
    · subst hj
      simp only [Multiset.count_cons_self] at hold
      simp only [Files.iput, Sys.addIref_iref, Function.update_self, Sys.addIref_ftable,
        Sys.addIref_cwd]
      omega
    · simp only [Multiset.count_cons_of_ne hj] at hold
      simp only [Files.iput, Sys.addIref_iref, Function.update_of_ne hj, Sys.addIref_ftable,
        Sys.addIref_cwd]
      exact hold

/-- A descriptor that was free takes a reference off the ledger. -/
theorem Acct.setOfile_some (ha : Acct (f ::ₘ held) hi he s) (hfree : s.ofile p fd = none) :
    Acct held hi he (s.setOfile p fd (some f)) :=
  ha.setOfile p fd (some f) fun g => by
    by_cases hg : g = f
    · subst hg
      simp [hfree]
    · simp [hfree, Multiset.count_cons_of_ne hg, Ne.symm hg]

/-- A descriptor that is cleared puts its reference on the ledger. -/
theorem Acct.setOfile_none (ha : Acct held hi he s) (hf : s.ofile p fd = some f) :
    Acct (f ::ₘ held) hi he (s.setOfile p fd none) :=
  ha.setOfile p fd none fun g => by
    by_cases hg : g = f
    · subst hg
      simp [hf]
    · simp [hf, Multiset.count_cons_of_ne hg, Ne.symm hg]

theorem Acct.fdalloc (ha : Acct (f ::ₘ held) hi he s) (h : fdalloc s p f = some (s', fd)) :
    Acct held hi he s' := by
  obtain ⟨hfree, rfl⟩ := fdalloc_spec h
  exact ha.setOfile_some hfree

theorem Acct.setCwd_some (ha : Acct held (ip ::ₘ hi) he s) (hnone : s.cwd p = none) :
    Acct held hi he (s.setCwd p (some ip)) :=
  ha.setCwd p (some ip) fun j => by
    by_cases hj : j = ip
    · subst hj
      simp [hnone]
    · simp [hnone, Multiset.count_cons_of_ne hj, Ne.symm hj]

theorem Acct.setCwd_none (ha : Acct held hi he s) (hcwd : s.cwd p = some ip) :
    Acct held (ip ::ₘ hi) he (s.setCwd p none) :=
  ha.setCwd p none fun j => by
    by_cases hj : j = ip
    · subst hj
      simp [hcwd]
    · simp [hcwd, Multiset.count_cons_of_ne hj, Ne.symm hj]

/-- A file whose count of references alone changes, the ledger of file
references making up the difference. -/
theorem Acct.setRef (ha : Acct held hi he s) (f : FileIdx) (n : Nat)
    (href : n + held.count f = (s.ftable f).ref + held'.count f)
    (hheld : ∀ g, g ≠ f → held'.count g = held.count g)
    (hclosed : n = 0 → (s.ftable f).type = .none) :
    Acct held' hi he (s.setFile f { s.ftable f with ref := n }) :=
  ha.setFile f _ href hheld hclosed (ha.pipe_lt f) (fun _ _ => rfl) (fun _ => rfl)

theorem Acct.filedup (ha : Acct held hi he s) (h : filedup s f = .ok s') :
    Acct (f ::ₘ held) hi he s' := by
  obtain ⟨-, rfl⟩ := filedup_spec h
  refine ha.setRef f _ ?_ (fun g hg => Multiset.count_cons_of_ne hg held) (by omega)
  rw [Multiset.count_cons_self]
  omega

theorem Acct.filealloc (ha : Acct held hi he s) (h : filealloc s = some (s', f)) :
    Acct (f ::ₘ held) hi he s' ∧ (s'.ftable f).ref = 1 ∧ (s'.ftable f).type = .none := by
  obtain ⟨hzero, rfl⟩ := filealloc_spec h
  -- a free file has no descriptor and no reference on the ledger
  have hfree := ha.ref_eq f
  refine ⟨ha.setRef f 1 ?_ (fun g hg => Multiset.count_cons_of_ne hg held) (by omega), ?_, ?_⟩
  · rw [Multiset.count_cons_self]
    omega
  · simp
  · simpa using ha.closed f hzero

/-- The last reference dropped: the file is cleared, and the pipe end or
inode it was open on passes to the ledgers. -/
theorem Acct.clear (ha : Acct (f ::ₘ held) hi he s) (hone : (s.ftable f).ref = 1) :
    Acct held (if (s.ftable f).type = .inode then (s.ftable f).ip ::ₘ hi else hi)
      (if (s.ftable f).type = .pipe then ((s.ftable f).pipe, (s.ftable f).writable) ::ₘ he else he)
      (s.setFile f (cleared (s.ftable f))) := by
  have hnone : fdCount s.ofile f + held.count f = 0 := by
    have := ha.ref_eq f
    rw [Multiset.count_cons_self] at this
    omega
  refine ha.setFile f _ ?_ (fun g hg => (Multiset.count_cons_of_ne hg held).symm) (fun _ => rfl)
    (fun h => by cases h) (fun q w => ?_) (fun ip => ?_)
  · simp only [cleared, Multiset.count_cons_self]
    omega
  · cases htype : (s.ftable f).type <;>
      simp [cleared, htype, Multiset.count_cons, Prod.ext_iff, eq_comm, and_comm]
  · cases htype : (s.ftable f).type <;> simp [cleared, htype, Multiset.count_cons, eq_comm]

/-- `pipeclose` on `p` closes end `w`, and frees the page when the other
end is closed too. -/
theorem pipeclose_flags (p : Pipes.Pipe) (w w' : Bool) :
    endOpen (Pipes.pipeclose p w).1 w' = (w' != w && endOpen p w') ∧
      (Pipes.pipeclose p w).2 = !endOpen p !w := by
  cases w <;> cases w' <;> simp [Pipes.pipeclose, endOpen]

theorem pipeclose_eq (s : Sys) (q : Nat) (w : Bool) :
    pipeclose s q w = (s.setPipe q (Pipes.pipeclose (s.pipes q) w).1).setPalloc q
      (s.palloc q && !(Pipes.pipeclose (s.pipes q) w).2) := by
  unfold pipeclose
  cases hfree : (Pipes.pipeclose (s.pipes q) w).2
  · simp only [hfree, Bool.not_false, Bool.and_true, Bool.false_eq_true, ite_false]
    simp [Sys.setPalloc, Sys.setPipe]
  · simp [hfree]

theorem Acct.pipeclose {q : Nat} {w : Bool} (ha : Acct held hi ((q, w) ::ₘ he) s)
    (hq : q < s.npipes) : Acct held hi he (pipeclose s q w) := by
  -- the end was open, with no other file or ledger entry on it
  have hopen := ha.ends q hq w
  rw [Multiset.count_cons_self] at hopen
  have hw : endOpen (s.pipes q) w = true := by
    cases h : endOpen (s.pipes q) w
    · rw [h] at hopen
      simp at hopen
    · rfl
  rw [pipeclose_eq]
  refine ⟨ha.ref_eq, ha.closed, ha.pipe_lt, fun q' hq' w' => ?_, fun q' hq' => ?_, ha.iref_eq⟩
  · have hold := ha.ends q' hq' w'
    by_cases hqq : q' = q
    · subst hqq
      simp only [Sys.setPalloc_ftable, Sys.setPipe_ftable, Sys.setPalloc_pipes, Sys.setPipe_pipes,
        Function.update_self, (pipeclose_flags _ w w').1]
      by_cases hww : w' = w
      · subst hww
        simp only [hw, Bool.toNat_true] at hopen
        simp only [bne_self_eq_false, Bool.false_and, Bool.toNat_false]
        omega
      · have hne : (w' != w) = true := bne_iff_ne.mpr hww
        rw [Multiset.count_cons_of_ne (by simp [hww])] at hold
        simpa [hne] using hold
    · rw [Multiset.count_cons_of_ne (by simp [hqq])] at hold
      simpa [Function.update_of_ne hqq] using hold
  · by_cases hqq : q' = q
    · subst hqq
      have hflags := pipeclose_flags (s.pipes q') w
      have hold := ha.alloc q' hq
      simp only [Sys.setPalloc_palloc, Sys.setPipe_palloc, Sys.setPalloc_pipes, Sys.setPipe_pipes,
        Function.update_self]
      cases w <;> simp_all [endOpen]
    · simpa [Function.update_of_ne hqq] using ha.alloc q' hq'

theorem Acct.fileclose (ha : Acct (f ::ₘ held) hi he s) (h : fileclose s f = .ok s') :
    Acct held hi he s' := by
  rcases fileclose_cases h with ⟨hgt, rfl⟩ | ⟨hone, hcase⟩
  · -- not the last reference
    refine ha.setRef f _ ?_ (fun g hg => (Multiset.count_cons_of_ne hg held).symm) (by omega)
    rw [Multiset.count_cons_self]
    omega
  · have hclear := ha.clear hone
    rcases hcase with ⟨hpipe, rfl⟩ | ⟨hinode, rfl⟩ | ⟨hnone, rfl⟩
    · simp only [hpipe, ite_true, reduceCtorEq, ite_false] at hclear
      exact hclear.pipeclose (ha.pipe_lt f hpipe)
    · simp only [hinode, ite_true, reduceCtorEq, ite_false] at hclear
      exact hclear.iput
    · simpa [hnone] using hclear

theorem pipeEnds_eq_zero {ftable : FileIdx → File} {q : Nat} {w : Bool}
    (h : ∀ f, ¬(ftable f).OnEnd q w) : pipeEnds ftable q w = 0 :=
  Finset.sum_eq_zero fun f _ => if_neg (h f)

/-- The page `kalloc` gave `pipealloc` becomes the next pipe, both ends on
the ledger until the two files are set on them. -/
theorem Acct.newPipe (ha : Acct held hi 0 s) (data : Nat → UInt8) :
    Acct held hi ((s.npipes, false) ::ₘ (s.npipes, true) ::ₘ 0)
      { (s.setPipe s.npipes (Pipes.pipealloc data)).setPalloc s.npipes true with
        npipes := s.npipes + 1 } where
  ref_eq := ha.ref_eq
  closed := ha.closed
  pipe_lt f hf := by
    have := ha.pipe_lt f hf
    simp only [Sys.setPalloc_ftable, Sys.setPipe_ftable]
    omega
  ends q hq w := by
    simp only [Sys.setPalloc_ftable, Sys.setPipe_ftable, Sys.setPalloc_pipes, Sys.setPipe_pipes]
    by_cases hqn : q = s.npipes
    · subst hqn
      -- no file is on the new pipe yet
      have hzero : pipeEnds s.ftable s.npipes w = 0 :=
        pipeEnds_eq_zero fun f hf => (Nat.lt_irrefl _ (hf.2.1 ▸ ha.pipe_lt f hf.1))
      cases w <;> simp [hzero, endOpen, Pipes.pipealloc]
    · have hlt : q < s.npipes := by
        simp only at hq
        omega
      have := ha.ends q hlt w
      simpa [Function.update_of_ne hqn, Multiset.count_cons, hqn] using this
  alloc q hq := by
    simp only [Sys.setPalloc_palloc, Sys.setPalloc_pipes, Sys.setPipe_pipes]
    by_cases hqn : q = s.npipes
    · subst hqn
      simp [Pipes.pipealloc]
    · have hlt : q < s.npipes := by
        simp only at hq
        omega
      simpa [Function.update_of_ne hqn] using ha.alloc q hlt
  iref_eq := ha.iref_eq

/-- A fresh file set on end `w` of pipe `q` takes that end off the ledger. -/
theorem Acct.setPipeEnd {q : Nat} {w : Bool} (ha : Acct held hi ((q, w) ::ₘ he) s) (rd : Bool)
    (hnone : (s.ftable f).type = .none) (hpos : 0 < (s.ftable f).ref) (hq : q < s.npipes) :
    Acct held hi he
      (s.setFile f { s.ftable f with type := .pipe, readable := rd, writable := w, pipe := q }) :=
  ha.setFile f _ (by simp) (fun _ _ => rfl) (by simp; omega) (fun _ => hq)
    (fun q' w' => by simp [hnone, Multiset.count_cons, Prod.ext_iff, eq_comm])
    (fun _ => by simp [hnone])

/-- A fresh file set on inode slot `ip` takes its reference off the ledger. -/
theorem Acct.setInode {rd wr : Bool} (ha : Acct held (ip ::ₘ hi) he s)
    (hnone : (s.ftable f).type = .none) (hpos : 0 < (s.ftable f).ref) :
    Acct held hi he
      (s.setFile f { s.ftable f with type := .inode, ip := ip, readable := rd, writable := wr }) :=
  ha.setFile f _ (by simp) (fun _ _ => rfl) (by simp; omega) (fun h => by cases h)
    (fun _ _ => by simp [hnone]) (fun j => by simp [hnone, Multiset.count_cons, eq_comm])

end Ledger

/-! ## Descriptors and the open-file table

The descriptors of a process and the open-file table change under
different locks, and the functions of one never read the other, so the
order in which a call changes them does not matter. -/

section Commute

variable {s s₁ : Sys} {f : FileIdx} {p : Procs.Slot} {fd : Fd} {x : Option FileIdx}

theorem filedup_setOfile (h : filedup s f = .ok s₁) :
    filedup (s.setOfile p fd x) f = .ok (s₁.setOfile p fd x) := by
  obtain ⟨hpos, rfl⟩ := filedup_spec h
  simp only [filedup, Sys.setOfile_ftable]
  rw [if_neg (by omega)]
  rfl

theorem fileclose_setOfile (h : fileclose s f = .ok s₁) :
    fileclose (s.setOfile p fd x) f = .ok (s₁.setOfile p fd x) := by
  rcases fileclose_cases h with ⟨hgt, rfl⟩ | ⟨hone, hcase⟩
  · simp only [fileclose, Sys.setOfile_ftable]
    rw [if_neg (by omega), if_pos (by omega)]
    rfl
  · simp only [fileclose, Sys.setOfile_ftable]
    rw [if_neg (by omega), if_neg (by omega)]
    rcases hcase with ⟨htype, rfl⟩ | ⟨htype, rfl⟩ | ⟨htype, rfl⟩ <;> simp only [htype]
    · rw [pipeclose_eq, pipeclose_eq]
      rfl
    · rfl
    · rfl

theorem filedup_of_setOfile {s₂ : Sys} (h : filedup (s.setOfile p fd x) f = .ok s₂) :
    ∃ s₁, filedup s f = .ok s₁ ∧ s₂ = s₁.setOfile p fd x := by
  obtain ⟨hpos, rfl⟩ := filedup_spec h
  refine ⟨s.setFile f { s.ftable f with ref := (s.ftable f).ref + 1 }, ?_, rfl⟩
  simp only [Sys.setOfile_ftable] at hpos
  simp only [filedup]
  rw [if_neg (by omega)]

end Commute

/-! ## The processes' side -/

/-- A slot whose process holds nothing: unused, or a zombie. -/
def Released (st : ProcState) : Prop := st = .unused ∨ st = .zombie

/-- What a system call of `c` leaves alone: the process table, the
descriptors and the directory of every other process, and the user table's
inode; `c` keeps a directory. -/
structure Frame (c : Procs.Slot) (s s' : Sys) : Prop where
  pt : s'.pt = s.pt
  ofile : ∀ p, p ≠ c → s'.ofile p = s.ofile p
  cwd : ∀ p, p ≠ c → s'.cwd p = s.cwd p
  cwd_self : (s.cwd c).isSome → (s'.cwd c).isSome
  utableIp : s'.utableIp = s.utableIp

section Frames

variable {c p : Procs.Slot} {s s₁ s₂ s' : Sys} {f : FileIdx} {fd : Fd}

theorem Frame.refl (c : Procs.Slot) (s : Sys) : Frame c s s :=
  ⟨rfl, fun _ _ => rfl, fun _ _ => rfl, id, rfl⟩

theorem Frame.trans (h₁ : Frame c s s₁) (h₂ : Frame c s₁ s₂) : Frame c s s₂ where
  pt := h₂.pt.trans h₁.pt
  ofile p hp := (h₂.ofile p hp).trans (h₁.ofile p hp)
  cwd p hp := (h₂.cwd p hp).trans (h₁.cwd p hp)
  cwd_self h := h₂.cwd_self (h₁.cwd_self h)
  utableIp := h₂.utableIp.trans h₁.utableIp

/-- A change to the open-file table, the pipes or the inode references
alone. -/
theorem Frame.of_procs (hpt : s'.pt = s.pt) (hof : s'.ofile = s.ofile) (hcwd : s'.cwd = s.cwd)
    (hu : s'.utableIp = s.utableIp) : Frame c s s' :=
  ⟨hpt, fun _ _ => hof ▸ rfl, fun _ _ => hcwd ▸ rfl, fun h => hcwd ▸ h, hu⟩

theorem Frame.setFile (x : File) : Frame c s (s.setFile f x) := Frame.of_procs rfl rfl rfl rfl

theorem Frame.setOfile (x : Option FileIdx) : Frame c s (s.setOfile c fd x) where
  pt := rfl
  ofile p hp := by simp [Function.update_of_ne hp]
  cwd _ _ := rfl
  cwd_self := id
  utableIp := rfl

theorem Frame.iput (ip : Nat) : Frame c s (iput s ip) := Frame.of_procs rfl rfl rfl rfl

theorem Frame.addIref (ip : Nat) : Frame c s (s.addIref ip 1) := Frame.of_procs rfl rfl rfl rfl

theorem Frame.filealloc (h : filealloc s = some (s', f)) : Frame c s s' := by
  obtain ⟨-, rfl⟩ := filealloc_spec h
  exact Frame.setFile _

theorem Frame.fdalloc (h : fdalloc s c f = some (s', fd)) : Frame c s s' := by
  obtain ⟨-, rfl⟩ := fdalloc_spec h
  exact Frame.setOfile _

theorem Frame.filedup (h : filedup s f = .ok s') : Frame c s s' := by
  obtain ⟨-, rfl⟩ := filedup_spec h
  exact Frame.setFile _

/-- `fileclose` changes no process's side of the state. -/
theorem fileclose_procs (h : fileclose s f = .ok s') :
    s'.pt = s.pt ∧ s'.ofile = s.ofile ∧ s'.cwd = s.cwd ∧ s'.utableIp = s.utableIp := by
  rcases fileclose_cases h with ⟨-, rfl⟩ | ⟨-, ⟨-, rfl⟩ | ⟨-, rfl⟩ | ⟨-, rfl⟩⟩
  · exact ⟨rfl, rfl, rfl, rfl⟩
  · rw [pipeclose_eq]
    exact ⟨rfl, rfl, rfl, rfl⟩
  · exact ⟨rfl, rfl, rfl, rfl⟩
  · exact ⟨rfl, rfl, rfl, rfl⟩

theorem Frame.fileclose (h : fileclose s f = .ok s') : Frame c s s' := by
  obtain ⟨hpt, hof, hcwd, hu⟩ := fileclose_procs h
  exact Frame.of_procs hpt hof hcwd hu

end Frames

/-! ## Each system call keeps the counts -/

section Calls

variable {s s' : Sys} {c : Procs.Slot} {r : Int} {hi : Multiset Nat}

theorem sysDup_acct {n : Int} (ha : Acct 0 hi 0 s) (h : sysDup s c n = .ok (s', r)) :
    Acct 0 hi 0 s' ∧ Frame c s s' := by
  unfold sysDup at h
  split at h
  · cases h
    exact ⟨ha, .refl c s⟩
  · rename_i fd₀ f hargfd
    split at h
    · cases h
      exact ⟨ha, .refl c s⟩
    · rename_i s₁ fd hfd
      simp only [Except.bind_eq_ok_iff, pure, Except.pure, Except.ok.injEq, Prod.mk.injEq] at h
      obtain ⟨s₂, hdup, rfl, -⟩ := h
      obtain ⟨hfree, rfl⟩ := fdalloc_spec hfd
      -- the new descriptor holds the reference `filedup` takes
      obtain ⟨s₃, hdup₃, rfl⟩ := filedup_of_setOfile hdup
      have ha₃ := ha.filedup hdup₃
      refine ⟨ha₃.setOfile_some ?_, (Frame.filedup hdup₃).trans (.setOfile _)⟩
      obtain ⟨-, rfl⟩ := filedup_spec hdup₃
      exact hfree

theorem sysClose_acct {n : Int} (ha : Acct 0 hi 0 s) (h : sysClose s c n = .ok (s', r)) :
    Acct 0 hi 0 s' ∧ Frame c s s' := by
  unfold sysClose at h
  split at h
  · cases h
    exact ⟨ha, .refl c s⟩
  · rename_i fd f hargfd
    simp only [Except.bind_eq_ok_iff, pure, Except.pure, Except.ok.injEq, Prod.mk.injEq] at h
    obtain ⟨s₁, hclose, rfl, -⟩ := h
    exact ⟨(ha.setOfile_none (argfd_spec hargfd)).fileclose hclose,
      (Frame.setOfile none).trans (.fileclose hclose)⟩

theorem openFile_acct {ip : Nat} {allowed : Bool} {omode : Int32} (ha : Acct 0 (ip ::ₘ hi) 0 s)
    (h : openFile s c ip allowed omode = .ok (s', r)) : Acct 0 hi 0 s' ∧ Frame c s s' := by
  unfold openFile at h
  split at h
  · -- refused: `iunlockput` drops the reference `namei` took
    cases h
    exact ⟨ha.iput, .iput ip⟩
  · split at h
    · cases h
      exact ⟨ha.iput, .iput ip⟩
    · rename_i s₁ f hf
      obtain ⟨ha₁, hone, hnone⟩ := ha.filealloc hf
      split at h
      · -- no descriptor: the file is closed while still `FD_NONE`
        simp only [Except.bind_eq_ok_iff, pure, Except.pure, Except.ok.injEq, Prod.mk.injEq] at h
        obtain ⟨s₂, hclose, rfl, -⟩ := h
        exact ⟨(ha₁.fileclose hclose).iput,
          ((Frame.filealloc hf).trans (.fileclose hclose)).trans (.iput ip)⟩
      · rename_i s₂ fd hfd
        cases h
        have ha₂ := ha₁.fdalloc hfd
        obtain ⟨-, rfl⟩ := fdalloc_spec hfd
        exact ⟨ha₂.setInode (by simpa using hnone) (by simp [hone]),
          ((Frame.filealloc hf).trans (.fdalloc hfd)).trans (.setFile _)⟩

theorem sysOpen_acct {found : Option Nat} {allowed : Bool} {omode : Int32} (ha : Acct 0 hi 0 s)
    (h : sysOpen s c found allowed omode = .ok (s', r)) : Acct 0 hi 0 s' ∧ Frame c s s' := by
  unfold sysOpen at h
  split at h
  · cases h
    exact ⟨ha, .refl c s⟩
  · rename_i ip
    obtain ⟨ha', hframe⟩ := openFile_acct (ha.addIref ip) h
    exact ⟨ha', (Frame.addIref ip).trans hframe⟩

/-- `pipealloc` returns its two files with their references on the ledger,
or nothing and the ledgers as they were. -/
theorem pipealloc_acct {held : Multiset FileIdx} {hi : Multiset Nat}
    {page : Option (Nat → UInt8)} {files : Option (FileIdx × FileIdx)} (ha : Acct held hi 0 s)
    (h : pipealloc s page = .ok (s', files)) :
    Frame c s s' ∧ (files = none → Acct held hi 0 s') ∧
      ∀ f0 f1, files = some (f0, f1) → Acct (f0 ::ₘ f1 ::ₘ held) hi 0 s' := by
  unfold pipealloc at h
  split at h
  · cases h
    exact ⟨.refl c s, fun _ => ha, fun _ _ h => by cases h⟩
  · rename_i s₁ f0 h0
    obtain ⟨ha₁, hone₀, hnone₀⟩ := ha.filealloc h0
    split at h
    · simp only [Except.bind_eq_ok_iff, pure, Except.pure, Except.ok.injEq, Prod.mk.injEq] at h
      obtain ⟨s₂, hclose, rfl, rfl⟩ := h
      exact ⟨(Frame.filealloc h0).trans (.fileclose hclose), fun _ => ha₁.fileclose hclose,
        fun _ _ h => by cases h⟩
    · rename_i s₂ f1 h1
      obtain ⟨ha₂, hone₁, hnone₁⟩ := ha₁.filealloc h1
      rw [Multiset.cons_swap] at ha₂
      -- the second file is another: the first already has its reference
      obtain ⟨hzero, hs₂⟩ := filealloc_spec h1
      have hne : f0 ≠ f1 := by
        rintro rfl
        omega
      have hframe₂ : Frame c s s₂ := (Frame.filealloc h0).trans (.filealloc h1)
      split at h
      · simp only [Except.bind_eq_ok_iff, pure, Except.pure, Except.ok.injEq, Prod.mk.injEq] at h
        obtain ⟨s₃, hclose₀, s₄, hclose₁, rfl, rfl⟩ := h
        exact ⟨(hframe₂.trans (.fileclose hclose₀)).trans (.fileclose hclose₁),
          fun _ => (ha₂.fileclose hclose₀).fileclose hclose₁, fun _ _ h => by cases h⟩
      · rename_i data
        cases h
        refine ⟨hframe₂.trans (.of_procs rfl rfl rfl rfl), (fun h => by cases h), ?_⟩
        rintro _ _ ⟨⟩
        have hf0 : s₂.ftable f0 = s₁.ftable f0 := by
          rw [hs₂]
          simp [Function.update_of_ne hne]
        have ha₃ := ha₂.newPipe data
        have ha₄ := ha₃.setPipeEnd (f := f0) true (by simp [hf0, hnone₀])
          (by simp [hf0, hone₀]) (by simp)
        exact ha₄.setPipeEnd (f := f1) false (by simp [Function.update_of_ne hne.symm, hnone₁])
          (by simp [Function.update_of_ne hne.symm, hone₁]) (by simp)

theorem sysPipe_acct {argOk : Bool} {page : Option (Nat → UInt8)} (ha : Acct 0 hi 0 s)
    (h : sysPipe s c argOk page = .ok (s', r)) : Acct 0 hi 0 s' ∧ Frame c s s' := by
  unfold sysPipe at h
  split at h
  · cases h
    exact ⟨ha, .refl c s⟩
  · obtain ⟨⟨s₁, files⟩, hpa, h⟩ := Except.bind_eq_ok_iff.mp h
    obtain ⟨hframe₁, hnone, hsome⟩ := pipealloc_acct (c := c) ha hpa
    dsimp only at h
    split at h
    · cases h
      exact ⟨hnone rfl, hframe₁⟩
    · rename_i rf wf
      have ha₁ := hsome rf wf rfl
      split at h
      · -- no descriptor for the read end: both files are closed
        simp only [Except.bind_eq_ok_iff, pure, Except.pure, Except.ok.injEq, Prod.mk.injEq] at h
        obtain ⟨s₂, hclose₀, s₃, hclose₁, rfl, -⟩ := h
        exact ⟨(ha₁.fileclose hclose₀).fileclose hclose₁,
          (hframe₁.trans (.fileclose hclose₀)).trans (.fileclose hclose₁)⟩
      · rename_i s₂ fd₀ hfd₀
        have ha₂ := ha₁.fdalloc hfd₀
        split at h
        · -- none for the write end: the read end's descriptor is cleared first
          simp only [Except.bind_eq_ok_iff, pure, Except.pure, Except.ok.injEq,
            Prod.mk.injEq] at h
          obtain ⟨s₃, hclose₀, s₄, hclose₁, rfl, -⟩ := h
          have hfd : s₂.ofile c fd₀ = some rf := by
            obtain ⟨-, rfl⟩ := fdalloc_spec hfd₀
            simp
          exact ⟨((ha₂.setOfile_none hfd).fileclose hclose₀).fileclose hclose₁,
            (((hframe₁.trans (.fdalloc hfd₀)).trans (.setOfile none)).trans
              (.fileclose hclose₀)).trans (.fileclose hclose₁)⟩
        · rename_i s₃ fd₁ hfd₁
          cases h
          exact ⟨ha₂.fdalloc hfd₁, (hframe₁.trans (.fdalloc hfd₀)).trans (.fdalloc hfd₁)⟩

theorem sysChdir_acct {found : Option Nat} {isDir : Bool} (ha : Acct 0 hi 0 s)
    (h : sysChdir s c found isDir = .ok (s', r)) : Acct 0 hi 0 s' ∧ Frame c s s' := by
  unfold sysChdir at h
  split at h
  · cases h
    exact ⟨ha, .refl c s⟩
  · rename_i ip
    have ha₁ := ha.addIref ip
    dsimp only at h
    split at h
    · cases h
      exact ⟨ha₁.iput, (Frame.addIref ip).trans (.iput ip)⟩
    · split at h
      · cases h
      · rename_i old hold
        cases h
        -- the directory's reference passes to `cwd`, and the old one's is dropped
        have ha₂ : Acct 0 (old ::ₘ hi) 0 ((s.addIref ip 1).setCwd c (some ip)) :=
          ha₁.setCwd c (some ip) fun j => by
            simp only [hold, Multiset.count_cons, Option.some.injEq]
            split_ifs <;> omega
        refine ⟨ha₂.iput, ⟨rfl, fun _ _ => rfl, fun p hp => ?_, fun _ => by simp, rfl⟩⟩
        simp [Files.iput, Function.update_of_ne hp]

end Calls

/-! ## `fork` and `exit` -/

section ForkExit

variable {held : Multiset FileIdx} {hi : Multiset Nat} {he : Multiset (Nat × Bool)}
  {c np : Procs.Slot}

/-- The loop of `fork`: each descriptor it copies into the child holds the
reference `filedup` took. -/
theorem forkFiles_acct {fds : List Fd} {s s' : Sys} (h : forkFiles c np fds s = .ok s')
    (hnd : fds.Nodup) (hfree : ∀ fd ∈ fds, s.ofile np fd = none) (ha : Acct held hi he s) :
    Acct held hi he s' ∧ Frame np s s' ∧ s'.cwd = s.cwd := by
  induction fds generalizing s with
  | nil =>
    cases h
    exact ⟨ha, .refl _ _, rfl⟩
  | cons fd fds ih =>
    simp only [forkFiles] at h
    have hrest := (List.nodup_cons.mp hnd).2
    split at h
    · exact ih h hrest (fun g hg => hfree g (.tail _ hg)) ha
    · rename_i f hf
      obtain ⟨s₁, hdup, h⟩ := Except.bind_eq_ok_iff.mp h
      have hprocs : s₁.ofile = s.ofile ∧ s₁.cwd = s.cwd := by
        obtain ⟨-, rfl⟩ := filedup_spec hdup
        exact ⟨rfl, rfl⟩
      have hfree₁ : ∀ g ∈ fd :: fds, s₁.ofile np g = none := hprocs.1 ▸ hfree
      have ha₁ := (ha.filedup hdup).setOfile_some (hfree₁ fd (.head _))
      -- the descriptors still to copy are other ones, still free
      have hfree₂ : ∀ g ∈ fds, (s₁.setOfile np fd (some f)).ofile np g = none := by
        intro g hg
        have hne : g ≠ fd := fun heq => (List.nodup_cons.mp hnd).1 (heq ▸ hg)
        simpa [Function.update_of_ne hne] using hfree₁ g (.tail _ hg)
      obtain ⟨ha', hframe, hcwd⟩ := ih h hrest hfree₂ ha₁
      exact ⟨ha', ((Frame.filedup hdup).trans (.setOfile _)).trans hframe,
        by simpa [hprocs.2] using hcwd⟩

/-- The loop of `exit`: each descriptor it clears gives its reference to
the `fileclose` that drops it. -/
theorem exitFiles_acct {fds : List Fd} {s s' : Sys} (h : exitFiles c fds s = .ok s')
    (ha : Acct held hi he s) :
    Acct held hi he s' ∧ Frame c s s' ∧ s'.cwd = s.cwd ∧
      ∀ fd, s'.ofile c fd = if fd ∈ fds then none else s.ofile c fd := by
  induction fds generalizing s with
  | nil =>
    cases h
    exact ⟨ha, .refl _ _, rfl, by simp⟩
  | cons fd fds ih =>
    simp only [exitFiles] at h
    split at h
    · rename_i hnone
      obtain ⟨ha', hframe, hcwd, hofile⟩ := ih h ha
      refine ⟨ha', hframe, hcwd, fun g => ?_⟩
      by_cases hg : g = fd
      · subst hg
        simp [hofile, hnone]
      · simp [hofile, hg]
    · rename_i f hf
      obtain ⟨s₁, hclose, h⟩ := Except.bind_eq_ok_iff.mp h
      obtain ⟨-, hof₁, hcwd₁, -⟩ := fileclose_procs hclose
      have ha₁ := (ha.setOfile_none hf).fileclose (fileclose_setOfile hclose)
      obtain ⟨ha', hframe, hcwd, hofile⟩ := ih h ha₁
      refine ⟨ha', ((Frame.fileclose hclose).trans (.setOfile _)).trans hframe,
        by simp [hcwd, hcwd₁], fun g => ?_⟩
      by_cases hg : g = fd
      · subst hg
        simp [hofile]
      · simp [hofile, hg, hof₁]

end ForkExit

/-! ## The invariant -/

/-- The counts balance with only the user table's reference held, a
process that is unused or a zombie holds nothing, and a live one has a
current directory. -/
structure Inv (s : Sys) : Prop where
  acct : Acct 0 {s.utableIp} 0 s
  idle : ∀ p, Released (s.pt.proc p).state → (∀ fd, s.ofile p fd = none) ∧ s.cwd p = none
  cwd_live : ∀ p, (s.pt.proc p).state.Live → (s.cwd p).isSome

section Preserve

open ProcState

variable {s s' : Sys} {c : Procs.Slot} {r : Int}

/-- The counts do not look at the process table. -/
theorem Acct.setPt {held : Multiset FileIdx} {hi : Multiset Nat} {he : Multiset (Nat × Bool)}
    (ha : Acct held hi he s) (t : PTable) : Acct held hi he { s with pt := t } :=
  ⟨ha.ref_eq, ha.closed, ha.pipe_lt, ha.ends, ha.alloc, ha.iref_eq⟩

theorem Released.not_live {st : ProcState} (h : Released st) (hl : st.Live) : False :=
  h.elim hl.ne_unused hl.ne_zombie

/-- A call of the running `c` that balances the counts and leaves other
processes alone. -/
theorem Inv.of_frame (hi : Inv s) (hc : (s.pt.proc c).state = .running)
    (ha : Acct 0 {s.utableIp} 0 s') (hf : Frame c s s') : Inv s' where
  acct := hf.utableIp ▸ ha
  idle p hp := by
    rw [hf.pt] at hp
    -- a process with nothing is not the running caller
    have hpc : p ≠ c := by
      rintro rfl
      exact hp.not_live (hc ▸ live_running)
    obtain ⟨hof, hcwd⟩ := hi.idle p hp
    exact ⟨fun fd => by rw [hf.ofile p hpc]; exact hof fd, by rw [hf.cwd p hpc]; exact hcwd⟩
  cwd_live p hp := by
    rw [hf.pt] at hp
    by_cases hpc : p = c
    · subst hpc
      exact hf.cwd_self (hi.cwd_live p hp)
    · rw [hf.cwd p hpc]
      exact hi.cwd_live p hp

/-- A move of the process table alone that releases no process that holds
something and makes no process live. -/
theorem Inv.setPt (hi : Inv s) (t : PTable)
    (hrel : ∀ p, Released (t.proc p).state → Released (s.pt.proc p).state)
    (hlive : ∀ p, (t.proc p).state.Live → (s.pt.proc p).state.Live) : Inv { s with pt := t } where
  acct := hi.acct.setPt t
  idle p hp := hi.idle p (hrel p hp)
  cwd_live p hp := hi.cwd_live p (hlive p hp)

theorem Inv.setState (hi : Inv s) {p : Procs.Slot} {st : ProcState}
    (hold : (s.pt.proc p).state.Live) (hnew : st.Live) : Inv { s with pt := s.pt.setState p st } := by
  refine hi.setPt _ (fun q hq => ?_) (fun q hq => ?_)
  · by_cases hqp : q = p
    · subst hqp
      simp [PTable.setState] at hq
      exact (hq.not_live hnew).elim
    · simpa [PTable.setState, hqp] using hq
  · by_cases hqp : q = p
    · subst hqp
      exact hold
    · simpa [PTable.setState, hqp] using hq

theorem Inv.wait (hi : Inv s) (hc : (s.pt.proc c).state = .running) :
    Inv { s with pt := (Procs.wait s.pt c).1 } := by
  by_cases hpid : ∃ n, (Procs.wait s.pt c).2 = .pid n
  · -- a zombie child is freed
    obtain ⟨n, hn⟩ := hpid
    obtain ⟨z, -, hz, -, heq⟩ := wait_pid hn
    rw [heq]
    refine hi.setPt _ (fun q hq => ?_) (fun q hq => ?_)
    · by_cases hqz : q = z
      · subst hqz
        exact .inr hz
      · simpa [hqz] using hq
    · by_cases hqz : q = z
      · subst hqz
        simp [unusedProc] at hq
        exact absurd rfl hq.ne_unused
      · simpa [hqz] using hq
  · by_cases hnone : (Procs.wait s.pt c).2 = .none
    · unfold Procs.wait at hnone ⊢
      split at hnone
      · cases hnone
      · split_ifs at hnone ⊢
        exact hi
    · rw [wait_sleep (fun n hn => hpid ⟨n, hn⟩) hnone]
      exact hi.setState (hc ▸ live_running) live_sleeping

theorem Inv.kill (hi : Inv s) (pid : Int) : Inv { s with pt := (Procs.kill s.pt pid).1 } := by
  refine hi.setPt _ (fun q hq => ?_) (fun q hq => ?_)
  · rcases (kill_spec pid q).2 with h | ⟨-, hr⟩
    · rwa [h] at hq
    · rw [hr] at hq
      exact (hq.not_live live_runnable).elim
  · rcases (kill_spec pid q).2 with h | ⟨hs, -⟩
    · rwa [h] at hq
    · exact hs ▸ live_sleeping

theorem Inv.fork {copied : Bool} (hi : Inv s) (h : fork s c copied = .ok (s', r)) : Inv s' := by
  unfold Files.fork at h
  split at h
  · cases h
    exact hi
  · rename_i pt np halloc
    obtain ⟨hunused, hproc⟩ := allocproc_spec halloc
    -- `allocproc` took a slot that held nothing
    obtain ⟨hof, hcwd⟩ := hi.idle np (.inl hunused)
    have hstate : ∀ p, p ≠ np → (pt.proc p).state = (s.pt.proc p).state := fun p hp => by
      simp [hproc, Function.update_of_ne hp]
    split at h
    · -- `copyuvm` failed: the slot is unused again
      cases h
      refine hi.setPt _ (fun q hq => ?_) (fun q hq => ?_)
      · by_cases hq' : q = np
        · exact hq' ▸ .inl hunused
        · simpa [forkFinish, PTable.setState, hq', hstate q hq'] using hq
      · by_cases hq' : q = np
        · subst hq'
          simp [forkFinish, PTable.setState] at hq
          exact absurd rfl hq.ne_unused
        · simpa [forkFinish, PTable.setState, hq', hstate q hq'] using hq
    · obtain ⟨s₁, hfiles, h⟩ := Except.bind_eq_ok_iff.mp h
      obtain ⟨ha₁, hframe₁, hcwd₁⟩ := forkFiles_acct hfiles (List.nodup_finRange _)
        (fun fd _ => hof fd) (hi.acct.setPt pt)
      split at h
      · cases h
      · rename_i ip hip
        cases h
        -- the child takes the reference `idup` took on the parent's directory
        have ha₂ := (ha₁.addIref ip).setCwd_some (p := np) (by simpa [hcwd₁] using hcwd)
        have hpt₁ : s₁.pt = pt := hframe₁.pt
        have hu : s₁.utableIp = s.utableIp := hframe₁.utableIp
        refine ⟨?_, fun p hp => ?_, fun p hp => ?_⟩
        · show Acct 0 {s₁.utableIp} 0 _
          rw [hu]
          exact ha₂.setPt _
        · have hpn : p ≠ np := by
            rintro rfl
            simp [forkFinish] at hp
            exact hp.not_live live_runnable
          simp only [forkFinish, if_true, Sys.setCwd_pt, Sys.addIref_pt, hpt₁, PTable.set_proc_of_ne _ _ hpn,
            hstate p hpn] at hp
          obtain ⟨hofp, hcwdp⟩ := hi.idle p hp
          refine ⟨fun fd => ?_, ?_⟩
          · simp [hframe₁.ofile p hpn, hofp fd]
          · simp [Function.update_of_ne hpn, hcwd₁, hcwdp]
        · by_cases hpn : p = np
          · subst hpn
            simp
          · simp only [forkFinish, if_true, Sys.setCwd_pt, Sys.addIref_pt, hpt₁,
              PTable.set_proc_of_ne _ _ hpn, hstate p hpn] at hp
            simpa [Function.update_of_ne hpn, hcwd₁] using hi.cwd_live p hp

theorem Inv.exit (hi : Inv s) (h : exit s c = .ok s') : Inv s' := by
  unfold Files.exit at h
  split at h
  · cases h
  · obtain ⟨s₁, hfiles, h⟩ := Except.bind_eq_ok_iff.mp h
    obtain ⟨ha₁, hframe₁, hcwd₁, hof₁⟩ := exitFiles_acct hfiles hi.acct
    split at h
    · cases h
    · rename_i ip hip
      dsimp only at h
      split at h
      · cases h
      · rename_i pt hpt
        cases h
        -- `iput(curproc->cwd)` drops the reference the directory held
        have ha₂ : Acct 0 {s.utableIp} 0 ((iput s₁ ip).setCwd c none) :=
          (ha₁.setCwd_none hip).iput
        obtain ⟨-, hstates⟩ := Procs.exit_spec hpt
        have hstate : ∀ p, (pt.proc p).state = if p = c then .zombie else (s.pt.proc p).state := by
          intro p
          rw [(hstates p).1]
          simp [Files.iput, hframe₁.pt]
        refine ⟨?_, fun p hp => ?_, fun p hp => ?_⟩
        · show Acct 0 {s₁.utableIp} 0 _
          rw [hframe₁.utableIp]
          exact ha₂.setPt pt
        · by_cases hpc : p = c
          · subst hpc
            exact ⟨fun fd => by simp [Files.iput, hof₁], by simp⟩
          · rw [hstate p, if_neg hpc] at hp
            obtain ⟨hofp, hcwdp⟩ := hi.idle p hp
            exact ⟨fun fd => by simp [Files.iput, hframe₁.ofile p hpc, hofp fd],
              by simp [Files.iput, Function.update_of_ne hpc, hcwd₁, hcwdp]⟩
        · have hpc : p ≠ c := by
            rintro rfl
            rw [hstate, if_pos rfl] at hp
            exact absurd rfl hp.ne_zombie
          rw [hstate p, if_neg hpc] at hp
          simpa [Files.iput, Function.update_of_ne hpc, hcwd₁] using hi.cwd_live p hp

theorem Inv.step (hi : Inv s) (h : Step s s') : Inv s' := by
  cases h with
  | dup hc h =>
    obtain ⟨ha, hf⟩ := sysDup_acct hi.acct h
    exact hi.of_frame hc ha hf
  | close hc h =>
    obtain ⟨ha, hf⟩ := sysClose_acct hi.acct h
    exact hi.of_frame hc ha hf
  | open_ hc h =>
    obtain ⟨ha, hf⟩ := sysOpen_acct hi.acct h
    exact hi.of_frame hc ha hf
  | pipe hc h =>
    obtain ⟨ha, hf⟩ := sysPipe_acct hi.acct h
    exact hi.of_frame hc ha hf
  | chdir hc h =>
    obtain ⟨ha, hf⟩ := sysChdir_acct hi.acct h
    exact hi.of_frame hc ha hf
  | fork _ h => exact hi.fork h
  | exit _ h => exact hi.exit h
  | wait hc => exact hi.wait hc
  | kill _ pid => exact hi.kill pid
  | schedule h => exact hi.setState (h ▸ live_runnable) live_running
  | yield h => exact hi.setState (h ▸ live_running) live_runnable
  | sleep h => exact hi.setState (h ▸ live_running) live_sleeping
  | wakeup h => exact hi.setState (h ▸ live_sleeping) live_runnable

theorem inv_boot : Inv boot where
  acct :=
    { ref_eq := fun f => by simp [boot, fdCount]
      closed := fun f _ => rfl
      pipe_lt := fun f h => by cases h
      ends := fun q hq => absurd hq (Nat.not_lt_zero q)
      alloc := fun q hq => absurd hq (Nat.not_lt_zero q)
      iref_eq := fun ip => by
        by_cases hip : ip = 0
        · subst hip
          simp [boot, inodeFiles, cwdCount, File.OnInode]
        · simp [boot, inodeFiles, cwdCount, File.OnInode, hip, Ne.symm hip,
            Multiset.count_singleton] }
  idle p hp := by
    -- only `initproc` is in use
    have hpi : p ≠ initproc := by
      rintro rfl
      simp [boot, PTable.setState, Released] at hp
    simp [boot, hpi]
  cwd_live p hp := by
    by_cases hpi : p = initproc
    · simp [boot, hpi]
    · have hunused : (boot.pt.proc p).state = .unused := by
        simp [boot, PTable.setState, userinit_proc, hpi, unusedProc]
      exact (hp.ne_unused hunused).elim

theorem Reachable.inv (h : Reachable s) : Inv s := by
  induction h with
  | boot => exact inv_boot
  | step _ hstep ih => exact ih.step hstep

end Preserve

/-! ## The reference counts of a reachable state -/

/-- Counting over the processes that are not `UNUSED` counts every
descriptor, since an unused slot has none. -/
theorem holders_eq_fdCount {s : Sys}
    (hidle : ∀ p, (s.pt.proc p).state = .unused → ∀ fd, s.ofile p fd = none) (f : FileIdx) :
    holders s f = fdCount s.ofile f := by
  unfold holders fdCount
  rw [Finset.card_filter]
  refine Finset.sum_congr rfl fun x _ => ?_
  by_cases hx : (s.pt.proc x.1).state = .unused
  · simp [hx, hidle x.1 hx x.2]
  · simp [hx]

theorem open_file_refcounts {s : Sys} (h : Reachable s) :
    (∀ f, (s.ftable f).ref = holders s f ∧ ((s.ftable f).ref = 0 → (s.ftable f).type = .none)) ∧
    (∀ q < s.npipes, (∀ w, pipeEnds s.ftable q w = (endOpen (s.pipes q) w).toNat) ∧
      s.palloc q = ((s.pipes q).readopen || (s.pipes q).writeopen)) ∧
    (∀ ip, s.iref ip = inodeFiles s.ftable ip + cwdCount s.cwd ip +
      if ip = s.utableIp then 1 else 0) := by
  have hi := h.inv
  have hunused : ∀ p, (s.pt.proc p).state = .unused → ∀ fd, s.ofile p fd = none :=
    fun p hp => (hi.idle p (.inl hp)).1
  refine ⟨fun f => ⟨?_, hi.acct.closed f⟩, fun q hq => ⟨fun w => ?_, hi.acct.alloc q hq⟩, fun ip => ?_⟩
  · rw [holders_eq_fdCount hunused, hi.acct.ref_eq f, Multiset.count_zero, Nat.add_zero]
  · have hends := hi.acct.ends q hq w
    rwa [Multiset.count_zero, Nat.add_zero] at hends
  · have hiref := hi.acct.iref_eq ip
    rw [Multiset.count_singleton] at hiref
    rw [hiref]
    split_ifs <;> simp only [Nat.cast_one, Nat.cast_zero]

/-- `initproc` makes a pipe. -/
theorem pipe_after_boot_refcounts :
    ∃ s', sysPipe boot initproc true (some fun _ => 0) = .ok (s', 0) ∧ Reachable s' ∧
      (∀ f, (s'.ftable f).ref = holders s' f ∧ ((s'.ftable f).ref = 0 → (s'.ftable f).type = .none)) ∧
      (∀ q < s'.npipes, (∀ w, pipeEnds s'.ftable q w = (endOpen (s'.pipes q) w).toNat) ∧
        s'.palloc q = ((s'.pipes q).readopen || (s'.pipes q).writeopen)) ∧
      (∀ ip, s'.iref ip = inodeFiles s'.ftable ip + cwdCount s'.cwd ip +
        if ip = s'.utableIp then 1 else 0) := by
  obtain ⟨s', hpipe⟩ : ∃ s', sysPipe boot initproc true (some fun _ => 0) = .ok (s', 0) :=
    ⟨_, rfl⟩
  have hreach : Reachable s' := .step .boot (.pipe (by simp [boot, PTable.setState]) hpipe)
  exact ⟨s', hpipe, hreach, open_file_refcounts hreach⟩

end Xv6.Files
