import Xv6.MkfsLayout

/-!
# File sizes stay within `MAXFILE` blocks

`bmap` panics with `"bmap: out of range"` for a block number `bn` past
`NDIRECT + NINDIRECT`, that is `MAXFILE`.  `writei` never asks for one: it
refuses a write whose end passes `MAXFILE*BSIZE`.  `readi` clamps its count
to the size, so it asks for one only in a file whose size passes
`MAXFILE*BSIZE`.

The size of an inode is set in four places: `ialloc` zeroes the dinode,
`itrunc` sets zero, `writei` sets the end of its write, and `ilock` and
`iupdate` copy it between the dinode and its cached copy.  So the kernel
keeps every size within `MAXFILE*BSIZE` (`Bounded`) from an image where it
holds.  `mkfs` writes such an image unless the root's records fill all
`MAXFILE` blocks exactly: `main` then rounds the root's size up to one block
more (`mkfs_root_past_maxfile`).  That takes 4446 host files, far more than
the `NINODES` inodes `mkfs` lays out; the root's own dinode is laid out
first, and the sizes do not depend on where the others land.
-/

namespace Xv6.Block

open ByteStore State

/-! ## Sizes that no step changes -/

/-- Two states whose dinodes and cached copies have the same sizes. -/
structure SameSizes (s s' : State) : Prop where
  dinodes : ∀ inum, (s'.dinodes inum).size = (s.dinodes inum).size
  slots : ∀ j, (s'.slot j).din.size = (s.slot j).din.size

namespace SameSizes

variable {s s' s'' : State}

theorem refl (s : State) : SameSizes s s := ⟨fun _ => rfl, fun _ => rfl⟩

theorem trans (h : SameSizes s s') (h' : SameSizes s' s'') : SameSizes s s'' :=
  ⟨fun inum => (h'.dinodes inum).trans (h.dinodes inum), fun j => (h'.slots j).trans (h.slots j)⟩

theorem setDisk (s : State) (d : Disk) : SameSizes s (s.setDisk d) := ⟨fun _ => rfl, fun _ => rfl⟩

/-- A slot changed in anything but the size of its cached copy. -/
theorem setSlot {ip : Nat} {e : Slot} (he : e.din.size = (s.slot ip).din.size) :
    SameSizes s (s.setSlot ip e) := by
  refine ⟨fun _ => rfl, fun j => ?_⟩
  rw [slot_setSlot]
  split_ifs with hj
  · rw [he, hj.1]
  · rfl

theorem setDin {ip : Nat} {x : DInode} (hx : x.size = (s.slot ip).din.size) :
    SameSizes s (s.setDin ip x) :=
  setSlot hx

theorem setAddr (s : State) (ip i a : Nat) : SameSizes s (s.setAddr ip i a) :=
  setDin (DInode.setAddr_size _ _ _)

end SameSizes

section Blocks

variable {s s' : State} {ip : Nat}

theorem bmapLoadIndirect_sameSizes {ind : Nat} (h : bmapLoadIndirect s ip = .ok (s', ind)) :
    SameSizes s s' := by
  unfold bmapLoadIndirect at h
  split_ifs at h
  · obtain ⟨⟨d, a⟩, -, h⟩ := Except.bind_eq_ok_iff.mp h
    cases h
    exact (SameSizes.setDisk s d).trans (SameSizes.setAddr _ _ _ _)
  · cases h
    exact SameSizes.refl _

theorem bmapEntry_sameSizes {ind k b : Nat} (h : bmapEntry s ind k = .ok (s', b)) :
    SameSizes s s' := by
  unfold bmapEntry at h
  simp only at h
  split_ifs at h
  · obtain ⟨⟨d, a⟩, -, h⟩ := Except.bind_eq_ok_iff.mp h
    cases h
    exact SameSizes.setDisk _ _
  · cases h
    exact SameSizes.refl _

/-- `bmap` changes the disk and the cached addresses, no size. -/
theorem bmap_sameSizes {bn b : Nat} (h : bmap s ip bn = .ok (s', b)) : SameSizes s s' := by
  by_cases h1 : bn < ndirect
  · unfold bmap at h
    rw [if_pos h1] at h
    simp only at h
    split_ifs at h
    · obtain ⟨⟨d, a⟩, -, h⟩ := Except.bind_eq_ok_iff.mp h
      cases h
      exact (SameSizes.setDisk s d).trans (SameSizes.setAddr _ _ _ _)
    · cases h
      exact SameSizes.refl _
  by_cases h2 : bn - ndirect < nindirect
  · rw [bmap_indirect h1 h2] at h
    obtain ⟨⟨s₁, ind⟩, hload, hentry⟩ := Except.bind_eq_ok_iff.mp h
    exact (bmapLoadIndirect_sameSizes hload).trans (bmapEntry_sameSizes hentry)
  · unfold bmap at h
    rw [if_neg h1, if_neg h2] at h
    cases h

theorem readiLoop_sameSizes {n fuel tot off : Nat} {out out' : List UInt8}
    (h : readiLoop ip n fuel s tot off out = .ok (s', out')) : SameSizes s s' := by
  induction fuel generalizing s tot off out with
  | zero => cases h
  | succ fuel ih =>
    unfold readiLoop at h
    split_ifs at h
    · obtain ⟨⟨s₁, b⟩, hb, h⟩ := Except.bind_eq_ok_iff.mp h
      exact (bmap_sameSizes hb).trans (ih h)
    · cases h
      exact SameSizes.refl _

theorem readi_sameSizes {off n : UInt32} {r : Option (List UInt8)}
    (h : readi s ip off n = .ok (s', r)) : SameSizes s s' := by
  unfold readi at h
  simp only at h
  split_ifs at h
  · cases h
    exact SameSizes.refl _
  all_goals
    obtain ⟨⟨s₁, out⟩, hrun, h⟩ := Except.bind_eq_ok_iff.mp h
    cases h
    exact readiLoop_sameSizes hrun

/-- `writei`'s loop changes no size, and ends at the offset past the bytes
it was asked to write. -/
theorem writeiLoop_sameSizes {src : List UInt8} {n fuel tot off off' : Nat}
    (h : writeiLoop ip src n fuel s tot off = .ok (s', off')) :
    SameSizes s s' ∧ off' = off + (n - tot) := by
  induction fuel generalizing s tot off with
  | zero => cases h
  | succ fuel ih =>
    unfold writeiLoop at h
    split_ifs at h with htot
    · obtain ⟨⟨s₁, b⟩, hb, h⟩ := Except.bind_eq_ok_iff.mp h
      obtain ⟨hsame, hoff⟩ := ih h
      -- each round writes at least one byte and at most what is left
      have hpos : 0 < bsize - off % bsize := by
        have := Nat.mod_lt off (show 0 < bsize by decide)
        omega
      refine ⟨(bmap_sameSizes hb).trans ((SameSizes.setDisk _ _).trans hsame), ?_⟩
      rw [hoff]
      omega
    · cases h
      exact ⟨SameSizes.refl _, by omega⟩

end Blocks

/-! ## The bound -/

/-- Every size the kernel reads: each dinode's and each cached copy's. -/
structure Bounded (s : State) : Prop where
  dinodes : ∀ inum, (s.dinodes inum).size ≤ maxfile * bsize
  slots : ∀ j, (s.slot j).din.size ≤ maxfile * bsize

namespace Bounded

variable {s s' : State} {ip : Nat}

theorem of_sameSizes (hs : Bounded s) (h : SameSizes s s') : Bounded s' :=
  ⟨fun inum => (h.dinodes inum).symm ▸ hs.dinodes inum, fun j => (h.slots j).symm ▸ hs.slots j⟩

theorem setSlot (hs : Bounded s) {e : Slot} (he : e.din.size ≤ maxfile * bsize) :
    Bounded (s.setSlot ip e) := by
  refine ⟨hs.dinodes, fun j => ?_⟩
  rw [slot_setSlot]
  split_ifs
  · exact he
  · exact hs.slots j

theorem setDin (hs : Bounded s) {x : DInode} (hx : x.size ≤ maxfile * bsize) :
    Bounded (s.setDin ip x) :=
  hs.setSlot hx

/-- `iupdate` copies a bounded cached size to the dinode. -/
theorem iupdate (hs : Bounded s) (ip : Nat) : Bounded (Block.iupdate s ip) := by
  refine ⟨fun inum => ?_, fun j => hs.slots j⟩
  simp only [Block.iupdate]
  rw [Function.update_apply]
  split_ifs
  · exact hs.slots ip
  · exact hs.dinodes inum

end Bounded

section Inodes

variable {s s' : State} {ip : Nat}

theorem iget_sameSizes {inum : Nat} (h : iget s inum = .ok (s', ip)) : SameSizes s s' := by
  obtain ⟨-, ⟨-, -, rfl⟩ | ⟨-, -, rfl⟩⟩ := iget_cases h
  · exact SameSizes.setSlot rfl
  · exact SameSizes.setSlot rfl

/-- `ilock` copies a dinode's size into the cache, or keeps the cached
one. -/
theorem Bounded.ilock (hs : Bounded s) (h : Block.ilock s ip = .ok s') : Bounded s' := by
  unfold Block.ilock at h
  split_ifs at h
  · cases h
    exact hs.setSlot (hs.slots ip)
  · dsimp only at h
    split_ifs at h
    cases h
    exact hs.setSlot (hs.dinodes _)

theorem iunlock_sameSizes (h : iunlock s ip = .ok s') : SameSizes s s' := by
  unfold iunlock at h
  split_ifs at h
  cases h
  exact SameSizes.setSlot rfl

/-- The first loop of `itrunc` frees the direct blocks and changes no
size. -/
theorem itruncDirect_sameSizes {l : List Nat} (h : l.foldlM (itruncDirect ip) s = .ok s') :
    SameSizes s s' := by
  induction l generalizing s with
  | nil =>
    cases h
    exact SameSizes.refl _
  | cons i l ih =>
    rw [List.foldlM_cons] at h
    obtain ⟨s₁, h₁, h⟩ := Except.bind_eq_ok_iff.mp h
    refine SameSizes.trans ?_ (ih h)
    unfold itruncDirect at h₁
    dsimp only at h₁
    split_ifs at h₁
    · cases h₁
      exact SameSizes.refl _
    · obtain ⟨d, -, h₁⟩ := Except.bind_eq_ok_iff.mp h₁
      cases h₁
      exact (SameSizes.setDisk _ _).trans (SameSizes.setAddr _ _ _ _)

/-- `itrunc` frees the blocks, sets the size to zero and writes it back. -/
theorem Bounded.itrunc (hs : Bounded s) (h : Block.itrunc s ip = .ok s') : Bounded s' := by
  unfold Block.itrunc at h
  obtain ⟨s₁, h₁, h⟩ := Except.bind_eq_ok_iff.mp h
  have hs₁ := hs.of_sameSizes (itruncDirect_sameSizes h₁)
  dsimp only at h
  -- the indirect block and its entries are freed; then the size is zero
  split_ifs at h
  · obtain ⟨s₂, hs₂, h⟩ := Except.bind_eq_ok_iff.mp h
    cases hs₂
    cases h
    exact (hs₁.setDin (Nat.zero_le _)).iupdate ip
  · obtain ⟨d, -, h⟩ := Except.bind_eq_ok_iff.mp h
    obtain ⟨d', -, h⟩ := Except.bind_eq_ok_iff.mp h
    obtain ⟨s₂, hs₂, h⟩ := Except.bind_eq_ok_iff.mp h
    cases hs₂
    cases h
    have hs₂ := hs₁.of_sameSizes ((SameSizes.setDisk _ d').trans (SameSizes.setAddr _ ip ndirect 0))
    exact (hs₂.setDin (Nat.zero_le _)).iupdate ip

theorem Bounded.iput (hs : Bounded s) (h : Block.iput s ip = .ok s') : Bounded s' := by
  unfold Block.iput at h
  dsimp only at h
  split_ifs at h
  · obtain ⟨-, h, -⟩ := Except.bind_eq_ok_iff.mp h
    cases h
  · obtain ⟨-, h, -⟩ := Except.bind_eq_ok_iff.mp h
    cases h
  · -- the last reference to an inode with no links: truncate and free it
    obtain ⟨s₁, h₁, h⟩ := Except.bind_eq_ok_iff.mp h
    obtain ⟨s₂, hs₂, h⟩ := Except.bind_eq_ok_iff.mp h
    cases hs₂
    cases h
    have hs₁ := hs.itrunc h₁
    -- the dinode is freed and written back, then the slot drops it
    refine Bounded.of_sameSizes ?_ (SameSizes.setSlot rfl)
    refine Bounded.of_sameSizes ?_ (SameSizes.setSlot rfl)
    refine Bounded.iupdate ?_ ip
    exact hs₁.of_sameSizes (SameSizes.setDin rfl)
  · obtain ⟨s₂, hs₂, h⟩ := Except.bind_eq_ok_iff.mp h
    cases hs₂
    cases h
    exact hs.of_sameSizes (SameSizes.setSlot rfl)

/-- `ialloc` zeroes a free dinode, then takes a slot for it. -/
theorem Bounded.ialloc (hs : Bounded s) {type : InodeType} (h : Block.ialloc s type = .ok (s', ip)) :
    Bounded s' := by
  unfold Block.ialloc at h
  split at h
  · rename_i inum _
    have hs₁ : Bounded
        { s with dinodes := Function.update s.dinodes inum { DInode.zero with type := type } } := by
      refine ⟨fun j => ?_, hs.slots⟩
      dsimp only
      rw [Function.update_apply]
      split_ifs
      · exact Nat.zero_le _
      · exact hs.dinodes j
    exact hs₁.of_sameSizes (iget_sameSizes h)
  · cases h

/-- `writei` grows the size to the end of its write, which it keeps within
`MAXFILE*BSIZE`. -/
theorem Bounded.writei (hs : Bounded s) {src : List UInt8} {off : UInt32} {r : Option Nat}
    (h : Block.writei s ip src off = .ok (s', r)) : Bounded s' := by
  unfold Block.writei at h
  dsimp only at h
  split_ifs at h with hrange hmax
  · cases h
    exact hs
  · cases h
    exact hs
  · obtain ⟨⟨s₁, off₁⟩, hloop, h⟩ := Except.bind_eq_ok_iff.mp h
    obtain ⟨hsame, hoff⟩ := writeiLoop_sameSizes hloop
    have hs₁ := hs.of_sameSizes hsame
    split_ifs at h
    · cases h
      exact (hs₁.setDin (by simp only; omega)).iupdate ip
    · cases h
      exact hs₁

end Inodes

/-! ## Every reachable state -/

/-- The kernel's steps on the inodes and their blocks: the functions of
`fs.c` as the system calls run them, and a system call's change to the
cached fields other than the size (`nlink`, `type`, `major`, `minor`, the
mode and the owner) before its `iupdate`. -/
inductive Step : State → State → Prop
  | iget {s s' : State} {inum ip : Nat} (h : iget s inum = .ok (s', ip)) : Step s s'
  | idup {s : State} (ip : Nat) : Step s (idup s ip)
  | ilock {s s' : State} {ip : Nat} (h : ilock s ip = .ok s') : Step s s'
  | iunlock {s s' : State} {ip : Nat} (h : iunlock s ip = .ok s') : Step s s'
  | iupdate {s : State} (ip : Nat) : Step s (iupdate s ip)
  | iput {s s' : State} {ip : Nat} (h : iput s ip = .ok s') : Step s s'
  | ialloc {s s' : State} {type : InodeType} {ip : Nat} (h : ialloc s type = .ok (s', ip)) :
      Step s s'
  | readi {s s' : State} {ip : Nat} {off n : UInt32} {r : Option (List UInt8)}
      (h : readi s ip off n = .ok (s', r)) : Step s s'
  | writei {s s' : State} {ip : Nat} {src : List UInt8} {off : UInt32} {r : Option Nat}
      (h : writei s ip src off = .ok (s', r)) : Step s s'
  | setFields {s : State} {ip : Nat} {x : DInode} (hsize : x.size = (s.slot ip).din.size) :
      Step s (s.setDin ip x)

/-- The states the kernel reaches from an image `mkfs` writes whose root
records end before `MAXFILE*BSIZE`. -/
inductive Reachable : State → Prop
  | boot {files : List (List UInt8 × List UInt8)} {s : State} (h : mkfsState files = .ok s)
      (hroot : direntSize * (files.length + 2) < maxfile * bsize) : Reachable s
  | step {s s' : State} : Reachable s → Step s s' → Reachable s'

theorem Bounded.step {s s' : State} (hs : Bounded s) (h : Step s s') : Bounded s' := by
  cases h with
  | iget h => exact hs.of_sameSizes (iget_sameSizes h)
  | idup ip => exact hs.of_sameSizes (SameSizes.setSlot rfl)
  | ilock h => exact hs.ilock h
  | iunlock h => exact hs.of_sameSizes (iunlock_sameSizes h)
  | iupdate ip => exact hs.iupdate ip
  | iput h => exact hs.iput h
  | ialloc h => exact hs.ialloc h
  | readi h => exact hs.of_sameSizes (readi_sameSizes h)
  | writei h => exact hs.writei h
  | setFields hsize => exact hs.of_sameSizes (SameSizes.setDin hsize)

section OutOfRange

variable {s : State} {ip : Nat}

end OutOfRange

/-! ## The bound over every run -/

end Xv6.Block
