import Xv6.CString

/-!
# The user table

`usermanage.c` keeps `NUSER` entries of a user name, a password and a uid,
with uid `0` marking a free entry, and the counter `next_uid` that
`add_user` hands out and increments as a 32-bit `uint`.  This module holds
the table operations themselves, run as one step under `utable_lock`; the
writes of the table to `/passwd` and the interleavings the lock allows are
modelled on top of them.
-/

namespace Xv6

structure User where
  username : List UInt8
  passwd : List UInt8
  uid : UInt32
  deriving DecidableEq, Repr, Inhabited

/-- `utable` with its `NUSER` entries, and `next_uid`. -/
structure UserTable where
  nextUid : UInt32
  users : List User
  length_users : users.length = nuser

instance : DecidableEq UserTable := fun t u =>
  if h : t.nextUid = u.nextUid ∧ t.users = u.users then
    isTrue (by cases t; cases u; simp_all)
  else isFalse (by rintro rfl; exact h ⟨rfl, rfl⟩)

/-- The entry `memset` leaves: zero name, zero password, uid `0`. -/
def emptyUser : User :=
  { username := List.replicate usernameMaxlen 0,
    passwd := List.replicate userPwMaxlen 0, uid := 0 }

/-- The bytes `"root"`. -/
def rootName : List UInt8 := [114, 111, 111, 116]

/-- The bytes `"0000"`. -/
def rootPasswd : List UInt8 := [48, 48, 48, 48]

def isValidUsername (username : List UInt8) : Bool :=
  2 ≤ strlen username && strlen username < usernameMaxlen

def isValidPasswd (passwd : List UInt8) : Bool :=
  2 ≤ strlen passwd && strlen passwd < userPwMaxlen

def findUserWithUsername (users : List User) (username : List UInt8) : Option Nat :=
  users.findIdx? fun u => u.uid != 0 && strncmp usernameMaxlen u.username username == 0

def findUserWithUid (users : List User) (uid : UInt32) : Option Nat :=
  users.findIdx? fun u => u.uid != 0 && u.uid == uid

namespace UserTable

def user (t : UserTable) (i : Nat) : User := t.users.getD i default

/-- Overwrite entry `i`, keeping the table's `NUSER` entries. -/
def setUser (t : UserTable) (i : Nat) (u : User) : UserTable :=
  { t with users := t.users.set i u, length_users := by simp [t.length_users] }

@[simp] theorem setUser_nextUid (t : UserTable) (i : Nat) (u : User) :
    (t.setUser i u).nextUid = t.nextUid := rfl

theorem user_setUser (t : UserTable) {i j : Nat} (u : User) (hj : j < nuser) :
    (t.setUser i u).user j = if i = j then u else t.user j := by
  have hj' : j < t.users.length := t.length_users ▸ hj
  by_cases h : i = j
  · subst h
    simp [user, setUser, hj']
  · simp [user, setUser, h]

end UserTable

/-- `create_usertable`: `root` with password `0000` in entry `0`, every
other entry free, and `next_uid` one past `ROOT_UID`. -/
def createUsertable : UserTable :=
  { nextUid := rootUid + 1,
    users :=
      { username := strncpy usernameMaxlen rootName,
        passwd := strncpy userPwMaxlen rootPasswd, uid := rootUid } ::
        List.replicate (nuser - 1) emptyUser,
    length_users := rfl }

/-- The scan of `add_user` over the entries from index `i`: `none` when a
live entry already has the name, else the last free entry seen. -/
def addUserScan (username : List UInt8) : List User → Nat → Option Nat → Option (Option Nat)
  | [], _, empty => some empty
  | u :: us, i, empty =>
      if u.uid = 0 then addUserScan username us (i + 1) (some i)
      else if strncmp usernameMaxlen u.username username = 0 then none
      else addUserScan username us (i + 1) empty

/-- The part of `add_user` under `utable_lock`: `none` for the early
returns, else the table with the last free entry filled and the counter
advanced, and the index of that entry. -/
def addUserLocked (t : UserTable) (username passwd : List UInt8) :
    Option (UserTable × Nat) :=
  match addUserScan username t.users 0 none with
  | some (some i) =>
      let u : User :=
        { username := strncpy usernameMaxlen username,
          passwd := strncpy userPwMaxlen passwd, uid := t.nextUid }
      some ({ t.setUser i u with nextUid := t.nextUid + 1 }, i)
  | _ => none

/-- `add_user`: `none` for the early returns of `0`, else the table it
writes back and the uid of the filled entry, which `add_user` returns. -/
def addUser (t : UserTable) (username passwd : List UInt8) : Option (UserTable × UInt32) :=
  if !(isValidUsername username && isValidPasswd passwd) then none
  else (addUserLocked t username passwd).map fun (t', i) => (t', (t'.user i).uid)

/-- A name `add_user` accepts is a valid user name. -/
theorem isValidUsername_of_addUser {t t' : UserTable} {username passwd : List UInt8}
    {uid : UInt32} (h : addUser t username passwd = some (t', uid)) :
    isValidUsername username = true := by
  unfold addUser at h
  split_ifs at h with hvalid
  have hboth : isValidUsername username = true ∧ isValidPasswd passwd = true := by
    simpa using hvalid
  exact hboth.1

/-- The part of `delete_user` under `utable_lock`. -/
def deleteUserLocked (t : UserTable) (username : List UInt8) : Option UserTable :=
  (findUserWithUsername t.users username).map fun i => t.setUser i emptyUser

/-- `delete_user`: `none` for the early returns of `-1`, else the table with
the named entry cleared. -/
def deleteUser (t : UserTable) (username : List UInt8) : Option UserTable :=
  if !isValidUsername username then none
  else if strncmp usernameMaxlen rootName username = 0 then none
  else deleteUserLocked t username

/-- The part of `getuid` under `utable_lock`: the entry with this name and
password. -/
def getuidLocked (t : UserTable) (username passwd : List UInt8) : Option Nat :=
  match findUserWithUsername t.users username with
  | some i => if strncmp userPwMaxlen (t.user i).passwd passwd ≠ 0 then none else some i
  | none => none

/-- `getuid`: the uid of the entry with this name and password, `0` when
there is none. -/
def getuid (t : UserTable) (username passwd : List UInt8) : UInt32 :=
  if !(isValidUsername username && isValidPasswd passwd) then 0
  else ((getuidLocked t username passwd).map fun i => (t.user i).uid).getD 0

def getUsernameWithUid (t : UserTable) (uid : UInt32) : Option (List UInt8) :=
  (findUserWithUid t.users uid).map fun i => strncpy usernameMaxlen (t.user i).username

end Xv6
