import Xv6.Basic
import Xv6.CString

/-!
# Inodes and the inode cache

The inode layer of `fs.c` above the blocks.  An inode is held as the fields
of `struct dinode` with its contents as one byte list (`data`, whose length
is `size`); how those bytes sit in disk blocks is the subject of the block
layer, and `readi`/`writei` here are the byte-list operations that layer
implements.  The in-memory cache `icache.inode` is kept as its `NINODE`
slots with their `inum`, `ref`, `valid` and sleep-lock; a pointer
`struct inode *` is a slot index.  The inode fields themselves are held
once: every field change of the modelled paths is followed by `iupdate`,
so the cached copy and the disk copy agree between calls.

A kernel path ends in a `Fault` when it panics, or when it sleeps on a lock
the calling process holds itself, which never wakes.
-/

namespace Xv6

inductive Fault where
  | panic (msg : String)
  | hang
  deriving DecidableEq, Repr

structure Inode where
  perm : UInt8
  type : InodeType
  major : Int16
  minor : Int16
  nlink : Int16
  data : List UInt8
  owner : UInt32
  deriving DecidableEq, Repr, Inhabited

def Inode.size (ip : Inode) : Nat := ip.data.length

/-- The bookkeeping of one `icache` entry: the inode it holds, its
reference count, whether its fields have been read, and its sleep-lock. -/
structure Slot where
  inum : Nat
  ref : Int
  valid : Bool
  locked : Bool
  deriving DecidableEq, Repr, Inhabited

structure FsState where
  inodes : Nat → Inode
  icache : List Slot
  ninodes : Nat

namespace FsState

def slot (s : FsState) (ip : Nat) : Slot := s.icache.getD ip default

def inode (s : FsState) (ip : Nat) : Inode := s.inodes (s.slot ip).inum

def setSlot (s : FsState) (ip : Nat) (e : Slot) : FsState :=
  { s with icache := s.icache.set ip e }

def setInode (s : FsState) (inum : Nat) (x : Inode) : FsState :=
  { s with inodes := Function.update s.inodes inum x }

/-- Change the fields of the inode held by slot `ip`, as the kernel does
under the inode's lock before `iupdate`. -/
def modify (s : FsState) (ip : Nat) (f : Inode → Inode) : FsState :=
  s.setInode (s.slot ip).inum (f (s.inode ip))

@[simp] theorem setSlot_inodes (s : FsState) (ip : Nat) (e : Slot) :
    (s.setSlot ip e).inodes = s.inodes := rfl

@[simp] theorem setSlot_ninodes (s : FsState) (ip : Nat) (e : Slot) :
    (s.setSlot ip e).ninodes = s.ninodes := rfl

@[simp] theorem setInode_icache (s : FsState) (inum : Nat) (x : Inode) :
    (s.setInode inum x).icache = s.icache := rfl

@[simp] theorem setInode_ninodes (s : FsState) (inum : Nat) (x : Inode) :
    (s.setInode inum x).ninodes = s.ninodes := rfl

@[simp] theorem setInode_inodes (s : FsState) (inum : Nat) (x : Inode) :
    (s.setInode inum x).inodes = Function.update s.inodes inum x := rfl

@[simp] theorem modify_icache (s : FsState) (ip : Nat) (f : Inode → Inode) :
    (s.modify ip f).icache = s.icache := rfl

@[simp] theorem modify_ninodes (s : FsState) (ip : Nat) (f : Inode → Inode) :
    (s.modify ip f).ninodes = s.ninodes := rfl

theorem slot_eq_getElem (s : FsState) {ip : Nat} (h : ip < s.icache.length) :
    s.slot ip = s.icache[ip] := by
  simp [slot, h]

theorem slot_setSlot_of_ne (s : FsState) {ip j : Nat} (e : Slot) (h : ip ≠ j) :
    (s.setSlot ip e).slot j = s.slot j := by
  simp [slot, setSlot, h]

theorem slot_setSlot_self (s : FsState) {ip : Nat} (e : Slot) (h : ip < s.icache.length) :
    (s.setSlot ip e).slot ip = e := by
  simp [slot, setSlot, h]

/-- Writing a slot past the end of the cache changes nothing. -/
theorem setSlot_of_length_le (s : FsState) {ip : Nat} (e : Slot) (h : s.icache.length ≤ ip) :
    s.setSlot ip e = s := by
  simp [setSlot, List.set_eq_of_length_le h]

@[simp] theorem modify_inodes (s : FsState) (ip : Nat) (f : Inode → Inode) :
    (s.modify ip f).inodes = Function.update s.inodes (s.slot ip).inum (f (s.inode ip)) := rfl

@[simp] theorem slot_setInode (s : FsState) (inum : Nat) (x : Inode) (j : Nat) :
    (s.setInode inum x).slot j = s.slot j := rfl

@[simp] theorem slot_modify (s : FsState) (ip : Nat) (f : Inode → Inode) (j : Nat) :
    (s.modify ip f).slot j = s.slot j := rfl

theorem inode_modify (s : FsState) (ip : Nat) (f : Inode → Inode) (j : Nat) :
    (s.modify ip f).inode j =
      if (s.slot j).inum = (s.slot ip).inum then f (s.inode ip) else s.inode j := by
  simp only [inode, modify, slot_setInode, setInode_inodes, Function.update_apply]

@[simp] theorem inode_modify_self (s : FsState) (ip : Nat) (f : Inode → Inode) :
    (s.modify ip f).inode ip = f (s.inode ip) := by
  simp [inode_modify]

theorem modify_congr (s : FsState) (ip : Nat) {f g : Inode → Inode}
    (h : f (s.inode ip) = g (s.inode ip)) : s.modify ip f = s.modify ip g := by
  simp only [modify, h]

@[simp] theorem modify_modify (s : FsState) (ip : Nat) (f g : Inode → Inode) :
    (s.modify ip f).modify ip g = s.modify ip fun x => g (f x) := by
  rw [modify, slot_modify, inode_modify_self]
  simp only [modify, setInode, Function.update_idem]

/-- `s'` differs from `s` at most in the counts, flags and locks of the
cache: the same inodes, and every slot holding the same inode. -/
structure CacheOnly (s s' : FsState) : Prop where
  inodes : s'.inodes = s.inodes
  ninodes : s'.ninodes = s.ninodes
  inum : ∀ j, (s'.slot j).inum = (s.slot j).inum

namespace CacheOnly

variable {s₁ s₂ s₃ : FsState}

theorem refl (s : FsState) : CacheOnly s s := ⟨rfl, rfl, fun _ => rfl⟩

theorem trans (h₁ : CacheOnly s₁ s₂) (h₂ : CacheOnly s₂ s₃) : CacheOnly s₁ s₃ :=
  ⟨h₂.inodes.trans h₁.inodes, h₂.ninodes.trans h₁.ninodes,
    fun j => (h₂.inum j).trans (h₁.inum j)⟩

theorem inode_eq (h : CacheOnly s₁ s₂) (j : Nat) : s₂.inode j = s₁.inode j := by
  simp only [FsState.inode, h.inodes, h.inum]

end CacheOnly

theorem cacheOnly_setSlot (s : FsState) (ip : Nat) (e : Slot) (he : e.inum = (s.slot ip).inum) :
    CacheOnly s (s.setSlot ip e) := by
  refine ⟨rfl, rfl, fun j => ?_⟩
  by_cases hj : ip = j
  · subst hj
    by_cases hlt : ip < s.icache.length
    · rw [slot_setSlot_self s e hlt, he]
    · rw [setSlot_of_length_le s e (Nat.le_of_not_lt hlt)]
  · rw [slot_setSlot_of_ne s e hj]

/-- A slot with a reference is a slot of the cache. -/
theorem lt_length_of_ref_pos (s : FsState) {ip : Nat} (h : 0 < (s.slot ip).ref) :
    ip < s.icache.length := by
  by_contra hge
  rw [slot, List.getD_eq_getElem?_getD, List.getElem?_eq_none (Nat.le_of_not_lt hge)] at h
  exact absurd h (by decide)

theorem slot_setSlot_eq_ite (s : FsState) {ip : Nat} (e : Slot) (h : ip < s.icache.length) (k : Nat) :
    (s.setSlot ip e).slot k = if k = ip then e else s.slot k := by
  split_ifs with hk
  · subst hk
    exact slot_setSlot_self s e h
  · exact slot_setSlot_of_ne s e (Ne.symm hk)

@[simp] theorem setSlot_setSlot (s : FsState) (ip : Nat) (e e' : Slot) :
    (s.setSlot ip e).setSlot ip e' = s.setSlot ip e' := by
  simp [setSlot, List.set_set]

/-- Slots with a reference hold distinct inodes. -/
def Distinct (s : FsState) : Prop :=
  ∀ j k, 0 < (s.slot j).ref → 0 < (s.slot k).ref → (s.slot j).inum = (s.slot k).inum → j = k

/-- A step after which every slot with a reference had one before and holds
the same inode keeps the slots with a reference distinct. -/
theorem Distinct.of_slots {s s' : FsState} (h : s.Distinct)
    (hslot : ∀ k, 0 < (s'.slot k).ref → 0 < (s.slot k).ref ∧ (s'.slot k).inum = (s.slot k).inum) :
    s'.Distinct := by
  intro j k hj hk he
  obtain ⟨hj', hje⟩ := hslot j hj
  obtain ⟨hk', hke⟩ := hslot k hk
  exact h j k hj' hk' (by rw [← hje, ← hke, he])

end FsState

open FsState

/-! ## Cache entries -/

/-- `iget`: the slot already holding `inum` with a positive count, else the
first slot with count zero, recycled. -/
def iget (s : FsState) (inum : Nat) : Except Fault (FsState × Nat) :=
  match s.icache.findIdx? (fun e => decide (0 < e.ref) && e.inum == inum) with
  | some ip => .ok (s.setSlot ip { s.slot ip with ref := (s.slot ip).ref + 1 }, ip)
  | none =>
      match s.icache.findIdx? (fun e => e.ref == 0) with
      | some ip =>
          .ok (s.setSlot ip { s.slot ip with inum := inum, ref := 1, valid := false },
            ip)
      | none => .error (.panic "iget: no inodes")

def idup (s : FsState) (ip : Nat) : FsState :=
  s.setSlot ip { s.slot ip with ref := (s.slot ip).ref + 1 }

def ilock (s : FsState) (ip : Nat) : Except Fault FsState :=
  if (s.slot ip).ref < 1 then .error (.panic "ilock")
  else if (s.slot ip).locked then .error .hang
  else if !(s.slot ip).valid && (s.inode ip).type = .free then
    .error (.panic "ilock: no type")
  else .ok (s.setSlot ip { s.slot ip with locked := true, valid := true })

def iunlock (s : FsState) (ip : Nat) : Except Fault FsState :=
  if !(s.slot ip).locked || (s.slot ip).ref < 1 then .error (.panic "iunlock")
  else .ok (s.setSlot ip { s.slot ip with locked := false })

/-- `itrunc` on the contents: the file becomes empty. -/
def itrunc (x : Inode) : Inode := { x with data := [] }

/-- `iput`: drop a reference; the last reference to an inode with no links
truncates and frees it. -/
def iput (s : FsState) (ip : Nat) : Except Fault FsState :=
  if (s.slot ip).locked then .error .hang
  else
    let e := s.slot ip
    let s :=
      if e.valid && (s.inode ip).nlink == 0 && e.ref == 1 then
        (s.modify ip fun x => { itrunc x with type := .free }).setSlot ip
          { e with valid := false }
      else s
    .ok (s.setSlot ip { s.slot ip with ref := (s.slot ip).ref - 1 })

def iunlockput (s : FsState) (ip : Nat) : Except Fault FsState := do
  let s ← iunlock s ip
  iput s ip

/-- The dinode `ialloc` writes: zero fields and the requested type. -/
def freshInode (type : InodeType) : Inode :=
  { perm := 0, type := type, major := 0, minor := 0, nlink := 0, data := [],
    owner := 0 }

/-- `ialloc`: the first free inode number from `1` on. -/
def ialloc (s : FsState) (type : InodeType) : Except Fault (FsState × Nat) :=
  match (List.range' 1 (s.ninodes - 1)).find? (fun i => (s.inodes i).type == .free) with
  | some inum => iget (s.setInode inum (freshInode type)) inum
  | none => .error (.panic "ialloc: no inodes")

/-! ## Contents -/

/-- `readi` on a file or directory; `none` is the `-1` of an offset past
the end or of a range that overflows 32 bits. -/
def readi (x : Inode) (off n : UInt32) : Option (List UInt8) :=
  if x.size < off.toNat ∨ off + n < off then none
  else some ((x.data.drop off.toNat).take n.toNat)

/-- `writei` of the bytes `src` (its `n` bytes) on a file or directory. -/
def writei (x : Inode) (src : List UInt8) (off : UInt32) : Option Inode :=
  let n : UInt32 := UInt32.ofNat src.length
  if x.size < off.toNat ∨ off + n < off then none
  else if maxfile * bsize < off.toNat + n.toNat then none
  else some { x with data := x.data.overwrite off.toNat src }

/-! ## Permissions -/

def hasOwn (uid : UInt32) (x : Inode) : Bool :=
  uid == x.owner || uid == rootUid

def hasPermission (uownMask otherMask : UInt8) (uid : UInt32) (x : Inode) : Bool :=
  if x.type = .dev then true
  else if hasOwn uid x then x.perm &&& uownMask != 0
  else x.perm &&& otherMask != 0

def hasReadPermission (uid : UInt32) (x : Inode) : Bool :=
  hasPermission modeRusr modeRoth uid x

def hasWritePermission (uid : UInt32) (x : Inode) : Bool :=
  hasPermission modeWusr modeWoth uid x

def hasExecutePermission (uid : UInt32) (x : Inode) : Bool :=
  hasPermission modeXusr modeXoth uid x

/-! ## What the cache operations change -/

section Specs

variable {s s' : FsState} {ip inum : Nat}

/-- What `iget` can do: count one more reference on the slot holding
`inum` with a reference, or, when there is none, recycle a slot with no
reference, to be read from disk by the next `ilock`. -/
theorem iget_eq_ok_cases (h : iget s inum = .ok (s', ip)) :
    ip < s.icache.length ∧
      ((0 < (s.slot ip).ref ∧ (s.slot ip).inum = inum ∧
          s' = s.setSlot ip { s.slot ip with ref := (s.slot ip).ref + 1 }) ∨
        ((s.slot ip).ref = 0 ∧ (∀ j, 0 < (s.slot j).ref → (s.slot j).inum ≠ inum) ∧
          s' = s.setSlot ip { s.slot ip with inum := inum, ref := 1, valid := false })) := by
  unfold iget at h
  cases hfind : s.icache.findIdx? (fun e => decide (0 < e.ref) && e.inum == inum) with
  | some i =>
      rw [hfind] at h
      cases h
      obtain ⟨hlt, hp, -⟩ := List.findIdx?_eq_some_iff_getElem.mp hfind
      simp only [Bool.and_eq_true, decide_eq_true_eq, beq_iff_eq] at hp
      rw [← slot_eq_getElem s hlt] at hp
      exact ⟨hlt, .inl ⟨hp.1, hp.2, rfl⟩⟩
  | none =>
      rw [hfind] at h
      cases hfree : s.icache.findIdx? (fun e => e.ref == 0) with
      | some i =>
          rw [hfree] at h
          cases h
          obtain ⟨hlt, hp, -⟩ := List.findIdx?_eq_some_iff_getElem.mp hfree
          simp only [beq_iff_eq] at hp
          refine ⟨hlt, .inr ⟨by rw [slot_eq_getElem s hlt]; exact hp, fun j hj hinum => ?_, rfl⟩⟩
          -- a slot with a reference holding `inum` would have been found first
          have hjlt := s.lt_length_of_ref_pos hj
          have hnot := List.findIdx?_eq_none_iff.mp hfind _ (List.getElem_mem hjlt)
          rw [← slot_eq_getElem s hjlt] at hnot
          simp [hj, hinum] at hnot
      | none =>
          rw [hfree] at h
          cases h

theorem ilock_eq (h : ilock s ip = .ok s') :
    1 ≤ (s.slot ip).ref ∧ (s.slot ip).locked = false ∧
      ((s.slot ip).valid = true ∨ (s.inode ip).type ≠ .free) ∧
        s' = s.setSlot ip { s.slot ip with locked := true, valid := true } := by
  unfold ilock at h
  split_ifs at h with href hlock hfree
  cases h
  refine ⟨Int.not_lt.mp href, by simpa using hlock, ?_, rfl⟩
  cases hv : (s.slot ip).valid
  · simp_all
  · exact .inl rfl

theorem iunlock_eq (h : iunlock s ip = .ok s') :
    (s.slot ip).locked = true ∧ 1 ≤ (s.slot ip).ref ∧
      s' = s.setSlot ip { s.slot ip with locked := false } := by
  unfold iunlock at h
  split_ifs at h with hbad
  cases h
  simp only [Bool.or_eq_true, Bool.not_eq_true', decide_eq_true_eq, not_or] at hbad
  exact ⟨by simpa using hbad.1, Int.not_lt.mp hbad.2, rfl⟩

/-- What `iput` can do: drop one reference, and when it was the last one to a
valid inode with no links, free that inode and mark its slot invalid. -/
theorem iput_cases (h : iput s ip = .ok s') :
    (s.slot ip).locked = false ∧
      (((s.slot ip).valid = true ∧ (s.inode ip).nlink = 0 ∧ (s.slot ip).ref = 1 ∧
          s' = (s.modify ip fun x => { itrunc x with type := .free }).setSlot ip
            { s.slot ip with valid := false, ref := 0 }) ∨
        (¬((s.slot ip).valid = true ∧ (s.inode ip).nlink = 0 ∧ (s.slot ip).ref = 1) ∧
          s' = s.setSlot ip { s.slot ip with ref := (s.slot ip).ref - 1 })) := by
  unfold iput at h
  split_ifs at h with hlock
  cases h
  refine ⟨by simpa using hlock, ?_⟩
  by_cases hfree : (s.slot ip).valid = true ∧ (s.inode ip).nlink = 0 ∧ (s.slot ip).ref = 1
  · obtain ⟨hv, hn, hr⟩ := hfree
    have hlt : ip < s.icache.length := s.lt_length_of_ref_pos (by omega)
    refine .inl ⟨hv, hn, hr, ?_⟩
    rw [if_pos (by simp [hv, hn, hr]), setSlot_setSlot, slot_setSlot_self _ _ (by simpa using hlt), hr]
    rfl
  · refine .inr ⟨hfree, ?_⟩
    rw [if_neg (by simpa using hfree)]

/-- `iget` leaves the inodes alone and hands out a slot holding `inum`; the
other slots are as they were. -/
theorem iget_eq_ok (h : iget s inum = .ok (s', ip)) :
    s'.inodes = s.inodes ∧ s'.ninodes = s.ninodes ∧ (s'.slot ip).inum = inum ∧
      ∀ j, j ≠ ip → s'.slot j = s.slot j := by
  obtain ⟨hlt, ⟨-, hinum, rfl⟩ | ⟨-, -, rfl⟩⟩ := iget_eq_ok_cases h
  · refine ⟨rfl, rfl, ?_, fun j hj => slot_setSlot_of_ne s _ (Ne.symm hj)⟩
    rw [slot_setSlot_self s _ hlt]
    exact hinum
  · refine ⟨rfl, rfl, ?_, fun j hj => slot_setSlot_of_ne s _ (Ne.symm hj)⟩
    rw [slot_setSlot_self s _ hlt]

/-- `iget` never hands out a slot that holds another inode with a
positive count. -/
theorem iget_ne_of_ref {j : Nat} (h : iget s inum = .ok (s', ip)) (hj : 0 < (s.slot j).ref)
    (hne : (s.slot j).inum ≠ inum) : ip ≠ j := by
  rintro rfl
  obtain ⟨-, ⟨-, hinum, -⟩ | ⟨hzero, -, -⟩⟩ := iget_eq_ok_cases h
  · exact hne hinum
  · omega

/-- The slot `ilock` locks holds a reference. -/
theorem ilock_ref (h : ilock s ip = .ok s') : 1 ≤ (s'.slot ip).ref := by
  obtain ⟨href, -, -, rfl⟩ := ilock_eq h
  rw [slot_setSlot_self s _ (s.lt_length_of_ref_pos (by omega))]
  exact href

theorem ilock_cacheOnly (h : ilock s ip = .ok s') : CacheOnly s s' := by
  obtain ⟨-, -, -, rfl⟩ := ilock_eq h
  exact cacheOnly_setSlot s ip _ rfl

theorem iunlock_cacheOnly (h : iunlock s ip = .ok s') : CacheOnly s s' := by
  obtain ⟨-, -, rfl⟩ := iunlock_eq h
  exact cacheOnly_setSlot s ip _ rfl

/-- `iput` keeps every slot's inode number; it changes an inode only when
it frees one with no links. -/
theorem iput_slot_inum (h : iput s ip = .ok s') (j : Nat) :
    (s'.slot j).inum = (s.slot j).inum := by
  obtain ⟨-, ⟨-, -, -, rfl⟩ | ⟨-, rfl⟩⟩ := iput_cases h
  · refine (cacheOnly_setSlot _ ip _ ?_).inum j
    rfl
  · refine (cacheOnly_setSlot s ip _ ?_).inum j
    rfl

theorem iput_cacheOnly (h : iput s ip = .ok s') (hlink : (s.inode ip).nlink ≠ 0) :
    CacheOnly s s' := by
  obtain ⟨-, ⟨-, hnlink, -, -⟩ | ⟨-, rfl⟩⟩ := iput_cases h
  · exact absurd hnlink hlink
  · exact cacheOnly_setSlot s ip _ rfl

theorem iunlockput_slot_inum (h : iunlockput s ip = .ok s') (j : Nat) :
    (s'.slot j).inum = (s.slot j).inum := by
  obtain ⟨s₁, h₁, h₂⟩ := Except.bind_eq_ok_iff.mp h
  rw [iput_slot_inum h₂, (iunlock_cacheOnly h₁).inum]

theorem iunlockput_cacheOnly (h : iunlockput s ip = .ok s') (hlink : (s.inode ip).nlink ≠ 0) :
    CacheOnly s s' := by
  obtain ⟨s₁, h₁, h₂⟩ := Except.bind_eq_ok_iff.mp h
  have hc₁ := iunlock_cacheOnly h₁
  exact hc₁.trans (iput_cacheOnly h₂ (by rwa [hc₁.inode_eq]))

/-- `ialloc` takes a free inode number below the count, writes a fresh
dinode there and `iget`s it. -/
theorem ialloc_eq_ok {type : InodeType} (h : ialloc s type = .ok (s', ip)) :
    ∃ inum, 1 ≤ inum ∧ inum < s.ninodes ∧ (s.inodes inum).type = .free ∧
      iget (s.setInode inum (freshInode type)) inum = .ok (s', ip) := by
  unfold ialloc at h
  cases hfind : (List.range' 1 (s.ninodes - 1)).find? (fun i => (s.inodes i).type == .free) with
  | some inum =>
      rw [hfind] at h
      have hmem := List.mem_range'_1.mp (List.mem_of_find?_eq_some hfind)
      have hfree : (s.inodes inum).type = .free := by simpa using List.find?_some hfind
      exact ⟨inum, hmem.1, by omega, hfree, h⟩
  | none =>
      rw [hfind] at h
      cases h

/-- `writei` changes the contents and nothing else. -/
theorem writei_eq_some_data {x y : Inode} {src : List UInt8} {off : UInt32}
    (h : writei x src off = some y) : y = { x with data := y.data } := by
  unfold writei at h
  dsimp only at h
  split_ifs at h
  cases h
  rfl

/-- A `writei` that succeeds starts within the file, ends within
`MAXFILE` blocks, and lays `src` over the contents at `off`. -/
theorem writei_eq_some {x y : Inode} {src : List UInt8} {off : UInt32}
    (h : writei x src off = some y) (hsrc : src.length < 2 ^ 32) :
    off.toNat ≤ x.size ∧ off.toNat + src.length ≤ maxfile * bsize ∧
      y = { x with data := x.data.overwrite off.toNat src } := by
  unfold writei at h
  have hn : (UInt32.ofNat src.length).toNat = src.length := by
    rw [UInt32.toNat_ofNat', Nat.mod_eq_of_lt hsrc]
  dsimp only at h
  split_ifs at h with hrange hmax
  cases h
  simp only [not_or, not_lt] at hrange
  exact ⟨hrange.1, by omega, rfl⟩

end Specs

end Xv6
