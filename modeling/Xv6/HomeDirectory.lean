import Xv6.AccessControl

/-!
# Home directories

`sys_addUser` makes `"/" ++ username` a directory owned by the new user
through `create`, and returns `0` whatever `create` did.  When `/` already
holds a record for the name, such as `passwd` or the name of a program,
`create` of a directory finds it and gives up, and the home path keeps
naming what it named before.  Where `/` holds no record for the name, and
`root` may search and write `/`, the call makes the home directory: a
directory at an inode that was free before the call, owned by the uid
`add_user` handed out, and the inode every `namei` of the home path
resolves to.

The names of directory records are cut to `DIRSIZ` bytes, and a user name
may have up to fifteen; `hasEntry` and `namei` cut the name in the same
way, so the statements below hold for every valid name without a slash.
-/

namespace Xv6

open FsState

section Home

variable {k k' : Kernel} {pid : Nat} {name passwd : List UInt8}

theorem headD_replicate_zero (m : Nat) : (List.replicate m (0 : UInt8)).headD 0 = 0 := by
  cases m <;> rfl

/-- `create_home_directory` by a `root` process, for a name `/` holds no
record for, makes a directory at a free inode, owned by `uid`, and links
it under the name in `/`. -/
theorem createHomeDirectory_eq_ok {uid : UInt32} (hroot : (k.procs pid).uid = rootUid)
    (hlen : (cstr name).length < usernameMaxlen) (hne : cstr name ≠ [])
    (hslash : slash ∉ cstr name) (hdir : (k.fs.inodes rootino).type = .dir)
    (hexec : hasExecutePermission rootUid (k.fs.inodes rootino) = true)
    (hwrite : hasWritePermission rootUid (k.fs.inodes rootino) = true)
    (hlink : 0 ≤ (k.fs.inodes rootino).nlink) (hcount : k.fs.ninodes ≤ 2 ^ 16)
    (hfree : hasEntry (k.fs.inodes rootino) name = false)
    (h : createHomeDirectory k pid name uid = .ok k') :
    ∃ inum, (k.fs.inodes inum).type = .free ∧ (k'.fs.inodes inum).type = .dir ∧
      (k'.fs.inodes inum).owner = uid ∧ k'.users = k.users ∧
      ∃ off, dirlookupLoop (k'.fs.inodes rootino) name (k'.fs.inodes rootino).size 0 =
        .ok (some (inum, off)) := by
  unfold createHomeDirectory at h
  obtain ⟨⟨s, ip⟩, hcreate, h⟩ := Except.bind_eq_ok_iff.mp h
  rw [hroot, homePath_eq hlen] at hcreate
  -- `create` looks the name up cut to `DIRSIZ` bytes, as `hasEntry` does
  have hname := dirlookupLoop_congr_name (x := k.fs.inodes rootino) (namecmp_take_cstr name)
  have hnew : ∀ e, dirlookupLoop (k.fs.inodes rootino) ((cstr name).take dirsiz)
      (k.fs.inodes rootino).size 0 ≠ .ok (some e) := by
    rw [hname]
    exact hasEntry_eq_false_iff.mp hfree
  obtain ⟨j, inum, rfl, hslot, hwasfree, hnotroot, hisdir, hnlink, off, hloop⟩ :=
    create_slash_dir_eq_ok hne (zero_not_mem_cstr name) hslash (headD_replicate_zero _) hdir
      hexec hwrite hlink hcount hnew hcreate
  obtain ⟨s₂, hput, h⟩ := Except.bind_eq_ok_iff.mp h
  cases h
  have hc := iunlockput_cacheOnly hput (by simp [FsState.inode, hslot, hnlink])
  have hroot' : s₂.inodes rootino = s.inodes rootino := by
    rw [hc.inodes, modify_inodes, hslot, Function.update_of_ne (Ne.symm hnotroot)]
  have hhome : s₂.inodes inum = { s.inodes inum with
      perm := modeRusr ||| modeWusr ||| modeXusr ||| modeRoth ||| modeXoth, owner := uid } := by
    rw [hc.inodes, modify_inodes, hslot, Function.update_self, FsState.inode, hslot]
  refine ⟨inum, hwasfree, by simp [hhome, hisdir], by simp [hhome], rfl, off, ?_⟩
  simp only [Kernel.setFs_fs, hroot']
  rw [dirlookupLoop_congr_name (namecmp_take_cstr name)] at hloop
  exact hloop

/-- After a `sys_addUser` by `root` that returns `0`, for a name without a
slash that `/` held no record for: the name got the uid `add_user` handed
out, its home directory is a directory at an inode that was free before
the call and owned by that uid, `/` names it under the name, and every
`namei` of the home path that resolves resolves to it. -/
theorem sysAddUser_home_directory (hroot : (k.procs pid).uid = rootUid)
    (hslash : slash ∉ cstr name) (hdir : (k.fs.inodes rootino).type = .dir)
    (hexec : hasExecutePermission rootUid (k.fs.inodes rootino) = true)
    (hwrite : hasWritePermission rootUid (k.fs.inodes rootino) = true)
    (hlink : 0 ≤ (k.fs.inodes rootino).nlink) (hcount : k.fs.ninodes ≤ 2 ^ 16)
    (htable : (k.fs.slot k.utableIp).inum ≠ rootino)
    (hfree : hasEntry (k.fs.inodes rootino) name = false)
    (h : sysAddUser k pid name passwd = .ok (k', 0)) :
    ∃ t uid inum, addUser k.users name passwd = some (t, uid) ∧ k'.users = t ∧
      (k.fs.inodes inum).type = .free ∧ (k'.fs.inodes inum).type = .dir ∧
      (k'.fs.inodes inum).owner = uid ∧
      (∃ off, dirlookupLoop (k'.fs.inodes rootino) name (k'.fs.inodes rootino).size 0 =
        .ok (some (inum, off))) ∧
      ∀ uid' cwd s j, namei k'.fs uid' cwd (homePath name) = .ok (s, some j) →
        (s.slot j).inum = inum := by
  unfold sysAddUser at h
  simp only [hroot, ne_eq, not_true_eq_false, if_false] at h
  obtain ⟨⟨k₁, uid⟩, hadd, h⟩ := Except.bind_eq_ok_iff.mp h
  split_ifs at h with huid
  · cases h
  obtain ⟨k₂, hhome, h⟩ := Except.bind_eq_ok_iff.mp h
  cases h
  obtain ⟨t, haddu, s, d, rfl, hcount₁, hinodes₁⟩ := addUserExport_eq_ok hadd huid
  have hvalid := isValidUsername_of_addUser haddu
  simp only [isValidUsername, Bool.and_eq_true, decide_eq_true_eq,
    strlen_eq_length_cstr] at hvalid
  have hne : cstr name ≠ [] := by
    intro hnil
    rw [hnil] at hvalid
    simp at hvalid
  -- the export writes only the table's inode, which is not `/`
  have hroot₁ : s.inodes rootino = k.fs.inodes rootino := by
    rw [hinodes₁, Function.update_of_ne (Ne.symm htable)]
  have htype₁ : ∀ i, (s.inodes i).type = (k.fs.inodes i).type := by
    intro i
    rw [hinodes₁, Function.update_apply]
    split_ifs with hi
    · rw [hi]
      rfl
    · rfl
  obtain ⟨inum, hwasfree, hisdir, howner, husers, off, hloop⟩ :=
    createHomeDirectory_eq_ok (k := { k with users := t }.setFs s) hroot hvalid.2 hne hslash
      (by simp [hroot₁, hdir]) (by simp [hroot₁, hexec]) (by simp [hroot₁, hwrite])
      (by simp [hroot₁, hlink]) (by rw [Kernel.setFs_fs, hcount₁]; exact hcount)
      (by simp [hroot₁, hfree]) hhome
  refine ⟨t, uid, inum, haddu, husers, by rw [← htype₁]; exact hwasfree, hisdir, howner,
    ⟨off, hloop⟩, ?_⟩
  intro uid' cwd s' j hnamei
  rw [homePath_eq hvalid.2] at hnamei
  obtain ⟨off', hloop'⟩ := namei_slash_append hne (zero_not_mem_cstr name) hslash
    (headD_replicate_zero _) hnamei
  rw [dirlookupLoop_congr_name (namecmp_take_cstr name), hloop] at hloop'
  cases hloop'
  rfl

end Home

/-! ## From the booted image -/

/-- The bytes `"passwd"`. -/
def namePasswd : List UInt8 := [112, 97, 115, 115, 119, 100]

theorem sysAddUser_home_is_table_file :
    ∃ m, Reachable [] m ∧ ∃ m' t uid s j,
      syscall m 1 (.addUser namePasswd passwdCd) = .ok (m', 0) ∧
      addUser m.kernel.users namePasswd passwdCd = some (t, uid) ∧ uid = 2 ∧
      namei m'.kernel.fs rootUid (m'.kernel.procs 1).cwd (homePath namePasswd) =
        .ok (s, some j) ∧
      (s.inode j).type = .file ∧ (s.inode j).owner = rootUid := by
  have hcheck : (bootRun [] []).any (fun m =>
      (syscall m 1 (.addUser namePasswd passwdCd)).toOption.any fun res =>
        decide (res.2 = 0) &&
        (addUser m.kernel.users namePasswd passwdCd).any fun added =>
          decide (added.2 = 2) &&
          (namei res.1.kernel.fs rootUid (res.1.kernel.procs 1).cwd (homePath namePasswd)).toOption.any
            fun found => found.2.any fun j =>
              decide ((found.1.inode j).type = .file) && decide ((found.1.inode j).owner = rootUid)) =
        true := by
    decide +kernel
  obtain ⟨m, hreach, hcheck⟩ := exists_reachable_of_bootRun_any hcheck
  obtain ⟨⟨m', r⟩, hcall, hcheck⟩ := Except.exists_of_toOption_any hcheck
  simp only [Bool.and_eq_true, decide_eq_true_eq] at hcheck
  obtain ⟨rfl, hcheck⟩ := hcheck
  obtain ⟨⟨t, uid⟩, hadd, hcheck⟩ := (Option.any_eq_true _ _).mp hcheck
  simp only [Bool.and_eq_true, decide_eq_true_eq] at hcheck
  obtain ⟨huid, hcheck⟩ := hcheck
  obtain ⟨⟨s, j⟩, hnamei, hcheck⟩ := Except.exists_of_toOption_any hcheck
  obtain ⟨j, rfl, hcheck⟩ := (Option.any_eq_true _ _).mp hcheck
  simp only [Bool.and_eq_true, decide_eq_true_eq] at hcheck
  obtain ⟨htype, howner⟩ := hcheck
  exact ⟨m, hreach, m', t, uid, s, j, hcall, hadd, huid, hnamei, htype,
    howner⟩

theorem sysAddUser_home_directory_ab :
    ∃ m k', boot [] = .ok m ∧ sysAddUser m.kernel 1 nameAb passwdCd = .ok (k', 0) ∧
      ∃ t uid inum, addUser m.kernel.users nameAb passwdCd = some (t, uid) ∧ k'.users = t ∧
        (m.kernel.fs.inodes inum).type = .free ∧ (k'.fs.inodes inum).type = .dir ∧
        (k'.fs.inodes inum).owner = uid ∧
        (∃ off, dirlookupLoop (k'.fs.inodes rootino) nameAb (k'.fs.inodes rootino).size 0 =
          .ok (some (inum, off))) ∧
        ∀ uid' cwd s j, namei k'.fs uid' cwd (homePath nameAb) = .ok (s, some j) →
          (s.slot j).inum = inum := by
  have hcheck : (boot []).toOption.any (fun m =>
      decide ((m.kernel.procs 1).uid = rootUid) && decide (slash ∉ cstr nameAb) &&
        decide ((m.kernel.fs.inodes rootino).type = .dir) &&
        hasExecutePermission rootUid (m.kernel.fs.inodes rootino) &&
        hasWritePermission rootUid (m.kernel.fs.inodes rootino) &&
        decide (0 ≤ (m.kernel.fs.inodes rootino).nlink) &&
        decide (m.kernel.fs.ninodes ≤ 2 ^ 16) &&
        decide ((m.kernel.fs.slot m.kernel.utableIp).inum ≠ rootino) &&
        !hasEntry (m.kernel.fs.inodes rootino) nameAb &&
        (sysAddUser m.kernel 1 nameAb passwdCd).toOption.any fun res => decide (res.2 = 0)) =
      true := by
    decide +kernel
  obtain ⟨m, hboot, hcheck⟩ := Except.exists_of_toOption_any hcheck
  simp only [Bool.and_eq_true, decide_eq_true_eq, Bool.not_eq_true'] at hcheck
  obtain ⟨⟨⟨⟨⟨⟨⟨⟨⟨hroot, hslash⟩, hdir⟩, hexec⟩, hwrite⟩, hlink⟩, hcount⟩, htable⟩, hfree⟩,
    hcall⟩ := hcheck
  obtain ⟨⟨k', r⟩, hcall, hr⟩ := Except.exists_of_toOption_any hcall
  simp only [decide_eq_true_eq] at hr
  subst hr
  exact ⟨m, k', hboot, hcall, sysAddUser_home_directory hroot hslash hdir hexec hwrite hlink
    hcount htable hfree hcall⟩

end Xv6
