import Xv6.AccessControl

/-!
# The 32-bit uid counter

`add_user` hands out `next_uid++` with no check, and `next_uid` is a
`uint`.  Adding and deleting one user over and over keeps the table as it
was and only advances the counter, so after `2^32 - 2` such rounds from
the table of `create_usertable` the counter has wrapped to `0`: the next
`add_user` fills an entry and gives it uid `0`, the mark of a free entry,
and the one after gives the next user `ROOT_UID`.
-/

namespace Xv6

/-- The table of `create_usertable` with the counter at `n`. -/
def freshTableAt (n : UInt32) : UserTable := { createUsertable with nextUid := n }

/-- The entry `add_user("ab", "cd")` writes when the counter is at `n`. -/
def userAb (n : UInt32) : User :=
  { username := strncpy usernameMaxlen nameAb, passwd := strncpy userPwMaxlen passwdCd, uid := n }

/-- `add_user("ab", "cd")` fills the last entry, `9`, of the fresh table. -/
def tableAbAt (n : UInt32) : UserTable :=
  { (freshTableAt n).setUser 9 (userAb n) with nextUid := n + 1 }

theorem createUsertable_eq_freshTableAt : createUsertable = freshTableAt 2 := rfl

theorem addUser_freshTableAt (n : UInt32) :
    addUser (freshTableAt n) nameAb passwdCd = some (tableAbAt n, n) := rfl

/-- With a non-zero uid the entry of `ab` is live, and `delete_user("ab")`
gives back the fresh table. -/
theorem deleteUser_tableAbAt {n : UInt32} (hn : n ≠ 0) :
    deleteUser (tableAbAt n) nameAb = some (freshTableAt (n + 1)) := by
  have hfind : findUserWithUsername (tableAbAt n).users nameAb = some 9 := by
    have hroot : strncmp usernameMaxlen (strncpy usernameMaxlen rootName) nameAb ≠ 0 := by
      decide
    have hab : strncmp usernameMaxlen (strncpy usernameMaxlen nameAb) nameAb = 0 := by
      decide
    simp only [findUserWithUsername, tableAbAt, freshTableAt, UserTable.setUser,
      createUsertable, userAb]
    rw [show nuser - 1 = 9 from rfl]
    simp [List.replicate_succ, List.findIdx?_cons, hn, hroot, hab, emptyUser, rootUid]
  have hvalid : isValidUsername nameAb = true := by decide
  have hnotroot : strncmp usernameMaxlen rootName nameAb ≠ 0 := by decide
  have hclear : createUsertable.users.set 9 emptyUser = createUsertable.users := by decide
  simp only [deleteUser, deleteUserLocked, hvalid, hnotroot, hfind, Bool.not_true,
    if_false, Bool.false_eq_true, Option.map_some]
  simp [tableAbAt, freshTableAt, UserTable.setUser, hclear]

/-- `k` rounds of `add_user("ab", "cd")` then `delete_user("ab")`, as long
as both return. -/
def churn : Nat → UserTable → Option UserTable
  | 0, t => some t
  | k + 1, t => do
      let (t, _) ← addUser t nameAb passwdCd
      let t ← deleteUser t nameAb
      churn k t

/-- Each round advances the counter by one, as long as the uid it hands
out is not `0`. -/
theorem churn_freshTableAt (k : Nat) {n : UInt32} (hn : 0 < n.toNat)
    (hk : n.toNat + k ≤ 2 ^ 32) :
    churn k (freshTableAt n) = some (freshTableAt (n + UInt32.ofNat k)) := by
  induction k generalizing n with
  | zero => simp [churn]
  | succ k ih =>
      have hne : n ≠ 0 := by
        intro h
        simp [h] at hn
      have hstep : n + UInt32.ofNat (k + 1) = n + 1 + UInt32.ofNat k := by
        apply UInt32.toNat_inj.mp
        simp only [UInt32.toNat_add, UInt32.toNat_ofNat', UInt32.toNat_one]
        omega
      simp only [churn, addUser_freshTableAt, Option.bind_eq_bind, Option.bind_some,
        deleteUser_tableAbAt hne, hstep]
      cases k with
      | zero => simp [churn]
      | succ k =>
          have hsucc : (n + 1).toNat = n.toNat + 1 := by
            rw [UInt32.toNat_add]
            simp only [UInt32.toNat_one]
            omega
          exact ih (by omega) (by omega)

/-- After `2^32 - 2` rounds the counter of the fresh table has wrapped to
`0`. -/
theorem churn_wraps :
    churn (2 ^ 32 - 2) createUsertable = some (freshTableAt 0) := by
  rw [createUsertable_eq_freshTableAt, churn_freshTableAt _ (by decide) (by decide)]
  rfl

/-- The bytes `"ef"` and `"gh"`. -/
def nameEf : List UInt8 := [101, 102]
def passwdGh : List UInt8 := [103, 104]

theorem addUser_wrap_names_free_entry :
    ∃ t₁ t₂, churn (2 ^ 32 - 2) createUsertable = some t₁ ∧
      addUser t₁ nameAb passwdCd = some (t₂, 0) ∧
      (t₂.user 9).uid = 0 ∧ (t₂.user 9).username ≠ List.replicate usernameMaxlen 0 := by
  refine ⟨freshTableAt 0, tableAbAt 0, churn_wraps, addUser_freshTableAt 0, rfl, ?_⟩
  decide

theorem addUser_reissues_rootUid :
    ∃ t₁ t₂ t₃, churn (2 ^ 32 - 2) createUsertable = some t₁ ∧
      addUser t₁ nameAb passwdCd = some (t₂, 0) ∧
      addUser t₂ nameEf passwdGh = some (t₃, rootUid) := by
  obtain ⟨t₃, ht₃⟩ : ∃ t₃, addUser (tableAbAt 0) nameEf passwdGh = some (t₃, rootUid) :=
    ⟨_, by rfl⟩
  exact ⟨freshTableAt 0, tableAbAt 0, t₃, churn_wraps, addUser_freshTableAt 0, ht₃⟩

end Xv6
