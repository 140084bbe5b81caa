import Xv6.Directory

/-!
# Path names

`skipelem` splits off the next element of a path and `namex` walks the
elements from the root or the current directory, checking at every
directory that it is one and that the caller may search it.  A path is the
byte list at the user's pointer, ended by its end or its first NUL.  The
walk consumes at least one byte per element, so the path length bounds it.
-/

namespace Xv6

open FsState

/-- The byte `'/'`. -/
def slash : UInt8 := 47

/-- `skipelem`: `none` when nothing but slashes is left, else the next
element cut to `DIRSIZ` bytes, and the path after it and the slashes that
follow. -/
def skipelem (path : List UInt8) : Option (List UInt8 × List UInt8) :=
  let path := path.dropWhile (· = slash)
  if path.headD 0 = 0 then none
  else
    let elem := path.takeWhile (fun c => c ≠ slash ∧ c ≠ 0)
    some (elem.take dirsiz, (path.drop elem.length).dropWhile (· = slash))

/-- The loop of `namex` from slot `ip` with the path still to walk.  The
result is the slot reached, if any, and the last element read into
`name`. -/
def namexLoop (uid : UInt32) (nameiparent : Bool) :
    Nat → FsState → Nat → List UInt8 → List UInt8 →
      Except Fault (FsState × Option Nat × List UInt8)
  | 0, s, _, _, name => .ok (s, none, name)
  | fuel + 1, s, ip, path, name =>
      match skipelem path with
      | none =>
          if nameiparent then do
            let s ← iput s ip
            return (s, none, name)
          else return (s, some ip, name)
      | some (name, path) => do
          let s ← ilock s ip
          if (s.inode ip).type ≠ .dir then
            let s ← iunlockput s ip
            return (s, none, name)
          else if !hasExecutePermission uid (s.inode ip) then
            let s ← iunlockput s ip
            return (s, none, name)
          else if nameiparent && path.headD 0 == 0 then
            let s ← iunlock s ip
            return (s, some ip, name)
          else
            let (s, found) ← dirlookup s ip name
            match found with
            | none =>
                let s ← iunlockput s ip
                return (s, none, name)
            | some (next, _) =>
                let s ← iunlockput s ip
                namexLoop uid nameiparent fuel s next path name

/-- `namex` for a process with user `uid` and current directory `cwd`. -/
def namex (s : FsState) (uid : UInt32) (cwd : Nat) (path : List UInt8)
    (nameiparent : Bool) : Except Fault (FsState × Option Nat × List UInt8) :=
  if path.headD 0 = slash then do
    let (s, ip) ← iget s rootino
    namexLoop uid nameiparent (path.length + 1) s ip path []
  else namexLoop uid nameiparent (path.length + 1) (idup s cwd) cwd path []

def namei (s : FsState) (uid : UInt32) (cwd : Nat) (path : List UInt8) :
    Except Fault (FsState × Option Nat) := do
  let (s, ip, _) ← namex s uid cwd path false
  return (s, ip)

def nameiparent (s : FsState) (uid : UInt32) (cwd : Nat) (path : List UInt8) :
    Except Fault (FsState × Option (Nat × List UInt8)) := do
  let (s, ip, name) ← namex s uid cwd path true
  return (s, ip.map fun ip => (ip, name))

/-! ## Paths of one element -/

section Single

variable {s s' : FsState} {uid : UInt32} {cwd : Nat} {n rest : List UInt8}

theorem dropWhile_slash_of_headD_zero (h : rest.headD 0 = 0) :
    rest.dropWhile (· = slash) = rest := by
  cases rest with
  | nil => rfl
  | cons c rest =>
      simp only [List.headD_cons] at h
      subst h
      rw [List.dropWhile_cons, if_neg (by decide)]

/-- Nothing but an end is left: the walk is over. -/
theorem skipelem_eq_none_of_headD_zero (h : rest.headD 0 = 0) : skipelem rest = none := by
  simp only [skipelem, dropWhile_slash_of_headD_zero h, h, if_true]

/-- The element of `"/" ++ n`, where `n` holds no slash and no NUL and what
follows starts with a NUL or is empty. -/
theorem skipelem_slash_append (hn : n ≠ []) (hz : (0 : UInt8) ∉ n) (hs : slash ∉ n)
    (hrest : rest.headD 0 = 0) : skipelem (slash :: (n ++ rest)) = some (n.take dirsiz, rest) := by
  obtain ⟨c, n', rfl⟩ := List.exists_cons_of_ne_nil hn
  have hc : c ≠ 0 ∧ c ≠ slash := by
    simp only [List.mem_cons, not_or] at hz hs
    exact ⟨Ne.symm hz.1, Ne.symm hs.1⟩
  have hdrop : (slash :: (c :: n' ++ rest)).dropWhile (· = slash) = c :: n' ++ rest := by
    rw [List.dropWhile_cons, if_pos (by simp), List.cons_append, List.dropWhile_cons,
      if_neg (by simpa using hc.2)]
  have hrest' : rest.takeWhile (fun c => c ≠ slash ∧ c ≠ 0) = [] := by
    cases rest with
    | nil => rfl
    | cons d rest =>
        simp only [List.headD_cons] at hrest
        subst hrest
        simp
  have htake : (c :: n' ++ rest).takeWhile (fun c => c ≠ slash ∧ c ≠ 0) = c :: n' := by
    rw [List.takeWhile_append_of_pos, hrest', List.append_nil]
    intro a ha
    have ha₀ : a ≠ 0 := fun h => hz (h ▸ ha)
    have has : a ≠ slash := fun h => hs (h ▸ ha)
    simp [ha₀, has]
  unfold skipelem
  rw [hdrop]
  dsimp only
  rw [htake, List.drop_left, dropWhile_slash_of_headD_zero hrest, List.cons_append,
    List.headD_cons, if_neg hc.1]

theorem namex_of_headD_slash {path : List UInt8} {b : Bool} {r : Option Nat}
    {nm : List UInt8} (hpath : path.headD 0 = slash)
    (h : namex s uid cwd path b = .ok (s', r, nm)) :
    ∃ s₁ ip, iget s rootino = .ok (s₁, ip) ∧
      namexLoop uid b (path.length + 1) s₁ ip path [] = .ok (s', r, nm) := by
  unfold namex at h
  rw [if_pos hpath] at h
  obtain ⟨⟨s₁, ip⟩, hget, hloop⟩ := Except.bind_eq_ok_iff.mp h
  exact ⟨s₁, ip, hget, hloop⟩

/-- A walk for the parent over a path of one element stops at the
directory it starts from, locked by nobody and with nothing else
changed. -/
theorem namexLoop_parent {fuel ip : Nat} {path elem name nm : List UInt8} {r : Option Nat}
    (hskip : skipelem path = some (elem, rest)) (hrest : rest.headD 0 = 0)
    (hdir : (s.inode ip).type = .dir) (hexec : hasExecutePermission uid (s.inode ip) = true)
    (h : namexLoop uid true (fuel + 1) s ip path name = .ok (s', r, nm)) :
    r = some ip ∧ nm = elem ∧ CacheOnly s s' := by
  simp only [namexLoop, hskip] at h
  obtain ⟨s₁, hlock, h⟩ := Except.bind_eq_ok_iff.mp h
  have hc₁ := ilock_cacheOnly hlock
  rw [hc₁.inode_eq] at h
  simp only [hdir, ne_eq, not_true_eq_false, if_false, hexec, Bool.not_true,
    Bool.false_eq_true, hrest, beq_self_eq_true, Bool.and_self, if_true] at h
  obtain ⟨s₂, hunlock, h⟩ := Except.bind_eq_ok_iff.mp h
  cases h
  exact ⟨rfl, rfl, hc₁.trans (iunlock_cacheOnly hunlock)⟩

/-- A walk over a path of one element that resolves does so through one
lookup in the directory it starts from. -/
theorem namexLoop_lookup {fuel ip j : Nat} {path elem name nm : List UInt8}
    (hskip : skipelem path = some (elem, rest)) (hrest : skipelem rest = none)
    (h : namexLoop uid false (fuel + 2) s ip path name = .ok (s', some j, nm)) :
    ∃ off, dirlookupLoop (s.inode ip) elem (s.inode ip).size 0 =
      .ok (some ((s'.slot j).inum, off)) := by
  simp only [namexLoop, hskip] at h
  obtain ⟨s₁, hlock, h⟩ := Except.bind_eq_ok_iff.mp h
  rw [← (ilock_cacheOnly hlock).inode_eq]
  simp only [Bool.false_and, Bool.false_eq_true, if_false] at h
  split_ifs at h with hnotdir hnoexec
  · obtain ⟨s₂, -, h⟩ := Except.bind_eq_ok_iff.mp h
    cases h
  · obtain ⟨s₂, -, h⟩ := Except.bind_eq_ok_iff.mp h
    cases h
  · obtain ⟨⟨s₂, found⟩, hlook, h⟩ := Except.bind_eq_ok_iff.mp h
    cases found with
    | none =>
        obtain ⟨s₃, -, h⟩ := Except.bind_eq_ok_iff.mp h
        cases h
    | some found =>
        obtain ⟨next, off⟩ := found
        obtain ⟨s₃, hput, h⟩ := Except.bind_eq_ok_iff.mp h
        simp only [hrest] at h
        cases h
        obtain ⟨-, inum, hloop, hget⟩ := dirlookup_eq_ok_some hlook
        refine ⟨off, ?_⟩
        rw [iunlockput_slot_inum hput, (iget_eq_ok hget).2.2.1]
        exact hloop

/-- `namei` of `"/" ++ n` resolves, if at all, to the inode the root
directory's record for `n` names. -/
theorem namei_slash_append {j : Nat} (hn : n ≠ []) (hz : (0 : UInt8) ∉ n) (hs : slash ∉ n)
    (hrest : rest.headD 0 = 0) (h : namei s uid cwd (slash :: (n ++ rest)) = .ok (s', some j)) :
    ∃ off, dirlookupLoop (s.inodes rootino) (n.take dirsiz) (s.inodes rootino).size 0 =
      .ok (some ((s'.slot j).inum, off)) := by
  unfold namei at h
  obtain ⟨⟨s₁, r, nm⟩, hx, hret⟩ := Except.bind_eq_ok_iff.mp h
  cases hret
  obtain ⟨s₂, ip, hget, hloop⟩ := namex_of_headD_slash rfl hx
  obtain ⟨hinodes, -, hslot, -⟩ := iget_eq_ok hget
  have hroot : s₂.inode ip = s.inodes rootino := by
    rw [FsState.inode, hinodes, hslot]
  rw [← hroot]
  exact namexLoop_lookup (skipelem_slash_append hn hz hs hrest)
    (skipelem_eq_none_of_headD_zero hrest) hloop

/-- `nameiparent` of `"/" ++ n`, where the caller may search the root
directory, is the root directory and the name `n`. -/
theorem nameiparent_slash_append {r : Option (Nat × List UInt8)} (hn : n ≠ [])
    (hz : (0 : UInt8) ∉ n) (hs : slash ∉ n) (hrest : rest.headD 0 = 0)
    (hdir : (s.inodes rootino).type = .dir)
    (hexec : hasExecutePermission uid (s.inodes rootino) = true)
    (h : nameiparent s uid cwd (slash :: (n ++ rest)) = .ok (s', r)) :
    ∃ dp, r = some (dp, n.take dirsiz) ∧ (s'.slot dp).inum = rootino ∧
      s'.inodes = s.inodes ∧ s'.ninodes = s.ninodes := by
  unfold nameiparent at h
  obtain ⟨⟨s₁, ip, nm⟩, hx, hret⟩ := Except.bind_eq_ok_iff.mp h
  cases hret
  obtain ⟨s₂, dp, hget, hloop⟩ := namex_of_headD_slash rfl hx
  obtain ⟨hinodes, hcount, hslot, -⟩ := iget_eq_ok hget
  have hroot : s₂.inode dp = s.inodes rootino := by
    rw [FsState.inode, hinodes, hslot]
  obtain ⟨rfl, rfl, hc⟩ := namexLoop_parent (skipelem_slash_append hn hz hs hrest) hrest
    (hroot ▸ hdir) (hroot ▸ hexec) hloop
  exact ⟨dp, rfl, (hc.inum dp).trans hslot, hc.inodes.trans hinodes,
    hc.ninodes.trans hcount⟩

end Single

end Xv6
