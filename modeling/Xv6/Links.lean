import Xv6.Boot

/-!
# Links and the directory tree

What the records of the directories say about the inodes.  The links of an
inode are counted over the records that name it, `.` apart, in the
directories that have links themselves: a directory unlinked while it is
still referenced keeps its records, `..` included, until `iput` frees it,
and they no longer count.  `iput` frees an inode only at its last reference
and with no links, and changes no count.

`create` reads neither count of its parent.  Under a directory that has
been unlinked while it is a process's current directory, a new file gets
its one link in records that no count sees (`createNew_file_linkCount`),
and a new directory gives the unlinked one a link again, so that it is
counted with a `..` naming a parent that no longer names it.
-/

namespace Xv6

open FsState

/-! ## Records and links -/

/-- The records of a directory's contents as inode number and name, one for
each `sizeof(struct dirent)` bytes. -/
def dirents (x : Inode) : List (Nat × List UInt8) :=
  (List.range (x.size / direntSize)).map fun i =>
    (direntInum (record x (i * direntSize)), direntName (record x (i * direntSize)))

/-- Whether the records of `x` count as links: `x` is a directory with links
of its own. -/
def Counted (x : Inode) : Prop := x.type = .dir ∧ 0 < x.nlink

instance : DecidablePred Counted := fun _ => inferInstanceAs (Decidable (_ ∧ _))

/-- The links the records of `x` give the inode `inum`: the records naming
it other than `.`, when `x` is counted. -/
def linksIn (x : Inode) (inum : Nat) : Nat :=
  if Counted x then ((dirents x).filter fun e => e.1 = inum ∧ namecmp e.2 dot ≠ 0).length
  else 0

/-- The links of `inum` over the inodes of the disk. -/
def linkCount (s : FsState) (inum : Nat) : Nat :=
  ((List.range s.ninodes).map fun d => linksIn (s.inodes d) inum).sum

section Frame

variable {s s' : FsState} {ip dp inum : Nat} {name : List UInt8}

theorem linksIn_of_not_counted {x : Inode} (hx : ¬Counted x) (inum : Nat) :
    linksIn x inum = 0 := by
  simp [linksIn, hx]

theorem linkCount_congr (hi : s'.inodes = s.inodes) (hn : s'.ninodes = s.ninodes) :
    linkCount s' = linkCount s := by
  funext inum
  simp only [linkCount, hi, hn]

theorem FsState.CacheOnly.linkCount_eq (h : CacheOnly s s') : linkCount s' = linkCount s :=
  linkCount_congr h.inodes h.ninodes

/-- Writing an inode that is counted neither before nor after changes no
count. -/
theorem linkCount_setInode {x : Inode} (hold : ¬Counted (s.inodes inum)) (hnew : ¬Counted x) :
    linkCount (s.setInode inum x) = linkCount s := by
  funext j
  simp only [linkCount, setInode_ninodes, setInode_inodes]
  congr 1
  apply List.map_congr_left
  intro d _
  by_cases hd : d = inum
  · subst hd
    rw [Function.update_self, linksIn_of_not_counted hnew, linksIn_of_not_counted hold]
  · rw [Function.update_of_ne hd]

/-! ## `iput` -/

/-- What `iput` does to the inodes: nothing, or, at the last reference to a
slot that has read an inode with no links, it frees that inode. -/
theorem iput_inodes (h : iput s ip = .ok s') :
    s'.ninodes = s.ninodes ∧
      (s'.inodes = s.inodes ∨
        (s.slot ip).valid = true ∧ (s.inode ip).nlink = 0 ∧ (s.slot ip).ref = 1 ∧
          s'.inodes = Function.update s.inodes (s.slot ip).inum
            { itrunc (s.inode ip) with type := .free }) := by
  unfold iput at h
  split_ifs at h with hlock
  cases h
  rw [setSlot_inodes, setSlot_ninodes]
  split
  · next hfree =>
      simp only [Bool.and_eq_true, beq_iff_eq] at hfree
      exact ⟨rfl, .inr ⟨hfree.1.1, hfree.1.2, hfree.2, rfl⟩⟩
  · exact ⟨rfl, .inl rfl⟩

/-- `iput` frees an inode only when it drops the last reference to the slot
holding it, which has read it and finds it with no links. -/
theorem iput_frees {j : Nat} (h : iput s ip = .ok s') (hj : (s.inodes j).type ≠ .free)
    (hj' : (s'.inodes j).type = .free) :
    j = (s.slot ip).inum ∧ (s.slot ip).valid = true ∧ (s.inode ip).nlink = 0 ∧
      (s.slot ip).ref = 1 := by
  rcases (iput_inodes h).2 with hsame | ⟨hvalid, hlink, href, hfreed⟩
  · rw [hsame] at hj'
    exact absurd hj' hj
  · by_cases hji : j = (s.slot ip).inum
    · exact ⟨hji, hvalid, hlink, href⟩
    · rw [hfreed, Function.update_of_ne hji] at hj'
      exact absurd hj' hj

/-- The inodes `iput` leaves alone: all but the one its slot holds. -/
theorem iput_inodes_of_ne {j : Nat} (h : iput s ip = .ok s') (hj : j ≠ (s.slot ip).inum) :
    s'.inodes j = s.inodes j := by
  rcases (iput_inodes h).2 with hsame | ⟨-, -, -, hfreed⟩
  · rw [hsame]
  · rw [hfreed, Function.update_of_ne hj]

/-- The inode `iput` frees has no links and is no directory after, so no
count changes. -/
theorem iput_linkCount (h : iput s ip = .ok s') : linkCount s' = linkCount s := by
  obtain ⟨hn, hsame | ⟨-, hlink, -, hfreed⟩⟩ := iput_inodes h
  · exact linkCount_congr hsame hn
  · have hset : linkCount s' = linkCount (s.setInode (s.slot ip).inum
        { itrunc (s.inode ip) with type := .free }) := linkCount_congr hfreed hn
    rw [hset]
    apply linkCount_setInode
    · rintro ⟨-, hpos⟩
      rw [← FsState.inode, hlink] at hpos
      exact absurd hpos (by decide)
    · rintro ⟨htype, -⟩
      cases htype

theorem iunlockput_linkCount (h : iunlockput s ip = .ok s') : linkCount s' = linkCount s := by
  obtain ⟨s₁, h₁, h₂⟩ := Except.bind_eq_ok_iff.mp h
  rw [iput_linkCount h₂, (iunlock_cacheOnly h₁).linkCount_eq]

theorem iunlockput_inodes_of_ne {j : Nat} (h : iunlockput s ip = .ok s')
    (hj : j ≠ (s.slot ip).inum) : s'.inodes j = s.inodes j := by
  obtain ⟨s₁, h₁, h₂⟩ := Except.bind_eq_ok_iff.mp h
  have hc₁ := iunlock_cacheOnly h₁
  rw [iput_inodes_of_ne h₂ (by rwa [hc₁.inum]), hc₁.inodes]

/-! ## Records written under a directory that is not counted -/

theorem dirlookup_linkCount {r : Option (Nat × Nat)} (h : dirlookup s dp name = .ok (s', r)) :
    linkCount s' = linkCount s := by
  cases r with
  | none => rw [(dirlookup_eq_ok_none h).1]
  | some e =>
      obtain ⟨ip, off⟩ := e
      obtain ⟨-, inum, -, hget⟩ := dirlookup_eq_ok_some h
      obtain ⟨hi, hn, -⟩ := iget_eq_ok hget
      exact linkCount_congr hi hn

/-- A `dirlink` into a directory that is not counted changes no count,
whatever it writes. -/
theorem dirlink_linkCount {r : Int} (h : dirlink s dp name inum = .ok (s', r))
    (hdp : ¬Counted (s.inode dp)) : linkCount s' = linkCount s := by
  unfold dirlink at h
  obtain ⟨⟨s₁, found⟩, hlook, hrest⟩ := Except.bind_eq_ok_iff.mp h
  cases found with
  | some found =>
      obtain ⟨s₂, hput, hret⟩ := Except.bind_eq_ok_iff.mp hrest
      cases hret
      rw [iput_linkCount hput, dirlookup_linkCount hlook]
  | none =>
      obtain ⟨rfl, -, -⟩ := dirlookup_eq_ok_none hlook
      obtain ⟨o, -, hwrite'⟩ := Except.bind_eq_ok_iff.mp hrest
      cases hwrite : writei (s₁.inode dp) (direntBytes inum name) (UInt32.ofNat o) with
      | none =>
          rw [hwrite] at hwrite'
          cases hwrite'
      | some y =>
          rw [hwrite] at hwrite'
          cases hwrite'
          -- the write changes the contents only, so `y` is not counted either
          have hy : ¬Counted y := by
            rw [writei_eq_some_data hwrite]
            exact hdp
          exact linkCount_setInode hdp hy

/-- `create`'s allocation path for a file under a directory that is not
counted: the file, at an inode number that was free, gets one link, and no
count changes. -/
theorem createNew_file_linkCount {major minor : Int16} {r : Option Nat}
    (h : createNew s dp name .file major minor = .ok (s', r)) (hdp : 1 ≤ (s.slot dp).ref)
    (hdir : (s.inode dp).type = .dir) (hlinks : ¬Counted (s.inode dp)) :
    ∃ ip inum, r = some ip ∧ (s'.slot ip).inum = inum ∧ (s.inodes inum).type = .free ∧
      (s'.inodes inum).type = .file ∧ (s'.inodes inum).nlink = 1 ∧
      linkCount s' = linkCount s := by
  unfold createNew at h
  obtain ⟨⟨s₁, ip⟩, halloc, h₁⟩ := Except.bind_eq_ok_iff.mp h
  obtain ⟨s₂, hlock, h₂⟩ := Except.bind_eq_ok_iff.mp h₁
  obtain ⟨inum, -, -, hfree, hne, hsi, hsd, hinodes₂, hn₂⟩ :=
    createNew_alloc halloc hlock hdp hdir
  have hfresh : s₂.inodes inum = freshInode .file := by
    rw [hinodes₂, Function.update_self]
  -- the fresh dinode replaces a free one, and neither is counted
  have hcount₂ : linkCount s₂ = linkCount s := by
    have hset : linkCount s₂ = linkCount (s.setInode inum (freshInode .file)) :=
      linkCount_congr hinodes₂ hn₂
    rw [hset]
    apply linkCount_setInode
    · rintro ⟨htype, -⟩
      rw [hfree] at htype
      cases htype
    · rintro ⟨htype, -⟩
      cases htype
  -- one link for the file; a file has no `.` and `..`
  set s₃ := s₂.modify ip fun x => { x with major := major, minor := minor, nlink := 1 }
  have hnew₃ : s₃.inodes inum = { freshInode .file with major := major, minor := minor, nlink := 1 } := by
    simp only [s₃, modify_inodes, hsi, Function.update_self, FsState.inode, hfresh]
  have hcount₃ : linkCount s₃ = linkCount s₂ := by
    apply linkCount_setInode
    · rintro ⟨htype, -⟩
      rw [hsi, hfresh] at htype
      cases htype
    · rintro ⟨htype, -⟩
      simp [FsState.inode, hsi, hfresh, freshInode] at htype
  have hparent₃ : s₃.inode dp = s.inode dp := by
    simp only [s₃, FsState.inode, slot_modify, modify_inodes, hsd, hsi,
      Function.update_of_ne (Ne.symm hne), hinodes₂]
  obtain ⟨s₃', hdots, h₃⟩ := Except.bind_eq_ok_iff.mp h₂
  cases hdots
  obtain ⟨⟨s₄, r₁⟩, hlink, h₃⟩ := Except.bind_eq_ok_iff.mp h₃
  simp only [] at h₃
  split_ifs at h₃ with hr₁
  · obtain ⟨_, hthrow, -⟩ := Except.bind_eq_ok_iff.mp h₃
    cases hthrow
  obtain ⟨s₅, hput, h₄⟩ := Except.bind_eq_ok_iff.mp h₃
  cases h₄
  obtain ⟨d, rfl⟩ := dirlink_modify hlink (Int.not_lt.mp hr₁)
  have hdp₄ : inum ≠ ((s₃.modify dp fun x => { x with data := d }).slot dp).inum := by
    rw [slot_modify, slot_modify, hsd]
    exact hne
  refine ⟨ip, inum, rfl, ?_, hfree, ?_, ?_, ?_⟩
  · rw [iunlockput_slot_inum hput, slot_modify, slot_modify, hsi]
  · rw [iunlockput_inodes_of_ne hput hdp₄, modify_inodes,
      Function.update_of_ne (by rwa [slot_modify] at hdp₄), hnew₃]
    rfl
  · rw [iunlockput_inodes_of_ne hput hdp₄, modify_inodes,
      Function.update_of_ne (by rwa [slot_modify] at hdp₄), hnew₃]
  · rw [iunlockput_linkCount hput, dirlink_linkCount hlink (by rw [hparent₃]; exact hlinks),
      hcount₃, hcount₂]

end Frame

/-! ## Runs from the booted image -/

/-- The paths `/d`, `f` and `x`. -/
def pathD : List UInt8 := [47, 100]
def nameF : List UInt8 := [102]
def nameX : List UInt8 := [120]

/-- `root` makes `/d`, moves into it and unlinks it: `/d` is empty, so
`sys_unlink` takes its link and its parent's, and the current directory
keeps it allocated. -/
def unlinkedCwd : List (Nat × Syscall) :=
  [(1, .mkdir pathD), (1, .chdir pathD), (1, .unlink pathD)]

/-- A file created in the unlinked directory keeps its link after the
directory is freed, and no record anywhere names it. -/
theorem create_in_unlinked_cwd_leaks :
    ∃ m, Reachable [] m ∧ ∃ inum, (m.kernel.fs.inodes inum).type = .file ∧
      (m.kernel.fs.inodes inum).nlink = 1 ∧ linkCount m.kernel.fs inum = 0 ∧
      ∀ d < m.kernel.fs.ninodes, ∀ e ∈ dirents (m.kernel.fs.inodes d), e.1 ≠ inum := by
  have hcheck : (bootRun [] (unlinkedCwd ++
      [(1, .open_ nameF (oCreate ||| oRdwr)), (1, .chdir [slash])])).any (fun m =>
        decide ((m.kernel.fs.inodes 4).type = .file ∧ (m.kernel.fs.inodes 4).nlink = 1 ∧
          linkCount m.kernel.fs 4 = 0 ∧
          ∀ d < m.kernel.fs.ninodes, ∀ e ∈ dirents (m.kernel.fs.inodes d), e.1 ≠ 4)) = true := by
    decide +kernel
  obtain ⟨m, hreach, hcheck⟩ := exists_reachable_of_bootRun_any hcheck
  exact ⟨m, hreach, 4, of_decide_eq_true hcheck⟩

/-- A directory made in the unlinked directory gives it a link again: it is
counted, and its `..` names the root, which holds no record naming it. -/
theorem mkdir_in_unlinked_cwd_orphans :
    ∃ m, Reachable [] m ∧ ∃ d, Counted (m.kernel.fs.inodes d) ∧
      ∃ name, (dirents (m.kernel.fs.inodes d))[1]? = some (rootino, name) ∧
        namecmp name dotdot = 0 ∧ ∀ e ∈ dirents (m.kernel.fs.inodes rootino), e.1 ≠ d := by
  have hcheck : (bootRun [] (unlinkedCwd ++ [(1, .mkdir nameX), (1, .chdir [slash])])).any
      (fun (m : System) => decide (Counted (m.kernel.fs.inodes 3) ∧
        ((dirents (m.kernel.fs.inodes 3))[1]?.map Prod.fst = some rootino) ∧
        ((dirents (m.kernel.fs.inodes 3))[1]?.map fun (e : Nat × List UInt8) => namecmp e.2 dotdot) =
          some 0 ∧
        ∀ e ∈ dirents (m.kernel.fs.inodes rootino), e.1 ≠ 3)) = true := by
    decide +kernel
  obtain ⟨m, hreach, hcheck⟩ := exists_reachable_of_bootRun_any hcheck
  obtain ⟨hcounted, hino, hname, hroot⟩ := of_decide_eq_true hcheck
  obtain ⟨⟨p, name⟩, he, rfl⟩ := Option.map_eq_some_iff.mp hino
  rw [he, Option.map_some, Option.some.injEq] at hname
  exact ⟨m, hreach, 3, hcounted, name, he, hname, hroot⟩

end Xv6
