import Xv6.Inode
import Xv6.ByteStore

/-!
# The block layer

The inode layer of `fs.c` down to its disk blocks: `balloc` and `bfree` over
the free bitmap, `bmap` over the direct and indirect addresses, `itrunc`, and
the inode cache holding its own copy of each `struct dinode`, so that
`readi` and `writei` move bytes between a buffer and data blocks as the
source does.  The disk is one byte store with block `b` at `b * BSIZE`; the
buffer cache and the log are not modelled, so `bread` reads the disk and
`log_write` writes it.  The `struct dinode`s are kept as a table by inode
number rather than as bytes of the inode blocks.

The superblock is the one `mkfs` writes and `readsb` reads at boot.  Past
the checks of `readi` and `writei`, `off + n` fits in 32 bits, so the
loops' `uint` arithmetic is exact and is done on `Nat`.
-/

namespace Xv6

namespace Block

open ByteStore

/-! ## Layout -/

/-- `IPB`, for the 64 bytes of `struct dinode`. -/
def ipb : Nat := bsize / 64
def bpb : Nat := bsize * 8

/-- `NINODES` of `mkfs.c`. -/
def ninodes : Nat := 200
def nbitmap : Nat := fssize / (bsize * 8) + 1
def ninodeblocks : Nat := ninodes / ipb + 1
def nlog : Nat := logsize
/-- The boot block, the superblock, the log, the inode blocks and the bitmap. -/
def nmeta : Nat := 2 + nlog + ninodeblocks + nbitmap

/-- The fields of `struct superblock` that the kernel reads. -/
structure Superblock where
  size : Nat
  ninodes : Nat
  bmapstart : Nat

def sb : Superblock :=
  { size := fssize, ninodes := ninodes, bmapstart := 2 + nlog + ninodeblocks }

def bblock (b : Nat) : Nat := b / bpb + sb.bmapstart

/-- Where bit `0` of the free bitmap lives on the disk. -/
def bmapBase : Nat := sb.bmapstart * bsize

@[simp] theorem nmeta_eq : nmeta = 59 := rfl
@[simp] theorem sb_size : sb.size = 1000 := rfl
@[simp] theorem sb_ninodes : sb.ninodes = 200 := rfl
@[simp] theorem bmapBase_eq : bmapBase = 29696 := rfl

abbrev Disk := Nat → UInt8

/-! ## State -/

/-- `struct dinode`, with its addresses `addrs[NDIRECT+1]`. -/
structure DInode where
  perm : UInt8
  type : InodeType
  major : Int16
  minor : Int16
  nlink : Int16
  size : Nat
  addrs : List Nat
  owner : UInt32
  addrs_length : addrs.length = ndirect + 1
  deriving DecidableEq, Repr

namespace DInode

/-- The dinode of zero bytes, as `mkfs` and `memset` leave it. -/
def zero : DInode :=
  { perm := 0, type := .free, major := 0, minor := 0, nlink := 0, size := 0,
    addrs := List.replicate (ndirect + 1) 0, owner := 0, addrs_length := by simp }

instance : Inhabited DInode := ⟨zero⟩

def addr (x : DInode) (i : Nat) : Nat := x.addrs.getD i 0

@[simp] theorem addr_zero (i : Nat) : zero.addr i = 0 := by
  rw [addr, show zero.addrs = List.replicate (ndirect + 1) 0 from rfl, List.getD_eq_getElem?_getD,
    List.getElem?_replicate]
  split_ifs <;> rfl

def setAddr (x : DInode) (i a : Nat) : DInode :=
  { x with addrs := x.addrs.set i a, addrs_length := by simp [x.addrs_length] }

theorem addr_setAddr (x : DInode) {i j : Nat} (a : Nat) (hi : i < ndirect + 1) :
    (x.setAddr i a).addr j = if j = i then a else x.addr j := by
  have hlen : i < x.addrs.length := x.addrs_length ▸ hi
  by_cases hj : j = i
  · subst hj
    simp [addr, setAddr, hlen]
  · simp [addr, setAddr, hj, Ne.symm hj]

@[simp] theorem setAddr_size (x : DInode) (i a : Nat) : (x.setAddr i a).size = x.size := rfl
@[simp] theorem setAddr_type (x : DInode) (i a : Nat) : (x.setAddr i a).type = x.type := rfl
@[simp] theorem setAddr_nlink (x : DInode) (i a : Nat) : (x.setAddr i a).nlink = x.nlink := rfl

end DInode

/-- A `struct inode` of the cache: the inode it holds, its reference count,
whether `din` has been read, its sleep-lock, and the cached dinode. -/
structure Slot where
  inum : Nat
  ref : Int
  valid : Bool
  locked : Bool
  din : DInode
  deriving DecidableEq, Repr, Inhabited

structure State where
  disk : Disk
  dinodes : Nat → DInode
  icache : List Slot

namespace State

def slot (s : State) (ip : Nat) : Slot := s.icache.getD ip default

def setSlot (s : State) (ip : Nat) (e : Slot) : State :=
  { s with icache := s.icache.set ip e }

def setDisk (s : State) (d : Disk) : State := { s with disk := d }

/-- Change the cached fields of slot `ip`. -/
def setDin (s : State) (ip : Nat) (x : DInode) : State :=
  s.setSlot ip { s.slot ip with din := x }

/-- `ip->addrs[i] = a`. -/
def setAddr (s : State) (ip i a : Nat) : State := s.setDin ip ((s.slot ip).din.setAddr i a)

@[simp] theorem setSlot_disk (s : State) (ip : Nat) (e : Slot) :
    (s.setSlot ip e).disk = s.disk := rfl
@[simp] theorem setSlot_dinodes (s : State) (ip : Nat) (e : Slot) :
    (s.setSlot ip e).dinodes = s.dinodes := rfl
@[simp] theorem setDisk_disk (s : State) (d : Disk) : (s.setDisk d).disk = d := rfl
@[simp] theorem setDisk_dinodes (s : State) (d : Disk) : (s.setDisk d).dinodes = s.dinodes := rfl
@[simp] theorem setDisk_setDisk (s : State) (d d' : Disk) : (s.setDisk d).setDisk d' = s.setDisk d' :=
  rfl
@[simp] theorem setDisk_slot (s : State) (d : Disk) (j : Nat) : (s.setDisk d).slot j = s.slot j :=
  rfl
@[simp] theorem setDin_disk (s : State) (ip : Nat) (x : DInode) : (s.setDin ip x).disk = s.disk :=
  rfl
@[simp] theorem setDin_dinodes (s : State) (ip : Nat) (x : DInode) :
    (s.setDin ip x).dinodes = s.dinodes := rfl
@[simp] theorem setAddr_disk (s : State) (ip i a : Nat) : (s.setAddr ip i a).disk = s.disk := rfl
@[simp] theorem setAddr_dinodes (s : State) (ip i a : Nat) :
    (s.setAddr ip i a).dinodes = s.dinodes := rfl

theorem slot_setSlot (s : State) (ip j : Nat) (e : Slot) :
    (s.setSlot ip e).slot j = if ip = j ∧ ip < s.icache.length then e else s.slot j := by
  by_cases h : ip = j
  · subst h
    by_cases hlt : ip < s.icache.length <;> simp [slot, setSlot, hlt]
  · simp [slot, setSlot, h]

@[simp] theorem length_setSlot (s : State) (ip : Nat) (e : Slot) :
    (s.setSlot ip e).icache.length = s.icache.length := by
  simp [setSlot]

theorem slot_setSlot_self (s : State) {ip : Nat} (e : Slot) (h : ip < s.icache.length) :
    (s.setSlot ip e).slot ip = e := by
  simp [slot_setSlot, h]

theorem slot_setSlot_of_ne (s : State) {ip j : Nat} (e : Slot) (h : ip ≠ j) :
    (s.setSlot ip e).slot j = s.slot j := by
  simp [slot_setSlot, h]

theorem slot_of_length_le (s : State) {j : Nat} (h : s.icache.length ≤ j) : s.slot j = default := by
  simp [slot, List.getD_eq_getElem?_getD, List.getElem?_eq_none h]

theorem slot_eq_getElem (s : State) {j : Nat} (h : j < s.icache.length) : s.slot j = s.icache[j] := by
  simp [slot, h]

theorem slot_setDin_self (s : State) {ip : Nat} (x : DInode) (h : ip < s.icache.length) :
    (s.setDin ip x).slot ip = { s.slot ip with din := x } :=
  slot_setSlot_self s _ h

theorem slot_setAddr_self (s : State) {ip : Nat} (i a : Nat) (h : ip < s.icache.length) :
    (s.setAddr ip i a).slot ip = { s.slot ip with din := (s.slot ip).din.setAddr i a } :=
  slot_setDin_self s _ h

end State

open State

/-! ## Blocks -/

/-- `bzero`: block `b` filled with zeros. -/
def bzero (d : Disk) (b : Nat) : Disk := write d (b * bsize) (List.replicate bsize 0)

/-- The inner loop of `balloc` over the bits `bi` of the bitmap block that
holds block `b`: the first bit that is clear. -/
def ballocScan (d : Disk) (b : Nat) : Nat → Nat → Option Nat
  | 0, _ => none
  | fuel + 1, bi =>
    if bi < bpb ∧ b + bi < sb.size then
      if d (bblock b * bsize + bi / 8) &&& mask bi = 0 then some bi
      else ballocScan d b fuel (bi + 1)
    else none

/-- The outer loop of `balloc` over the bitmap blocks, `BPB` blocks at a
time. -/
def ballocLoop (d : Disk) : Nat → Nat → Option (Nat × Nat)
  | 0, _ => none
  | fuel + 1, b =>
    if b < sb.size then
      match ballocScan d b bpb 0 with
      | some bi => some (b, bi)
      | none => ballocLoop d fuel (b + bpb)
    else none

/-- `balloc`: mark the first free block in use and zero it. -/
def balloc (d : Disk) : Except Fault (Disk × Nat) :=
  match ballocLoop d (sb.size / bpb + 1) 0 with
  | some (b, bi) =>
    let a := bblock b * bsize + bi / 8
    let d := write d a [d a ||| mask bi]
    .ok (bzero d (b + bi), b + bi)
  | none => .error (.panic "balloc: out of blocks")

def bfree (d : Disk) (b : Nat) : Except Fault Disk :=
  let bi := b % bpb
  let a := bblock b * bsize + bi / 8
  if d a &&& mask bi = 0 then .error (.panic "freeing free block")
  else .ok (write d a [d a &&& ~~~mask bi])

/-! ## The free bitmap -/

/-- The free bitmap's bit for block `b`, for the blocks `balloc` scans. -/
def marked (d : Disk) (b : Nat) : Bool := decide (b < sb.size) && testBit d bmapBase b

/-- The bytes of the bitmap block. -/
def InBitmap (a : Nat) : Prop := bmapBase ≤ a ∧ a < bmapBase + bsize

section Bitmap

variable {d d' : Disk} {x y : Nat}

theorem bblock_mul_bsize_add (b : Nat) : bblock b * bsize + b % bpb / 8 = bmapBase + b / 8 := by
  simp only [bblock, bpb, bsize, bmapBase, sb]
  omega

theorem mask_mod_bpb (b : Nat) : mask (b % bpb) = mask b := by
  simp only [mask, bpb, bsize]
  rw [Nat.mod_mod_of_dvd _ (by norm_num)]

theorem inBitmap_of_lt (hy : y < sb.size) : InBitmap (bmapBase + y / 8) := by
  simp only [InBitmap, bmapBase_eq, bsize_eq, sb_size] at hy ⊢
  omega

/-- No byte of a block past the metadata is in the bitmap. -/
theorem not_inBitmap_of_nmeta_le {a : Nat} (hx : nmeta ≤ x) (ha : x * bsize ≤ a) :
    ¬InBitmap a := by
  simp only [InBitmap, bmapBase_eq, bsize_eq, nmeta_eq] at ha hx ⊢
  omega

theorem marked_of_lt (hy : y < sb.size) : marked d y = testBit d bmapBase y := by
  simp only [marked, decide_eq_true hy, Bool.true_and]

theorem marked_of_le (hy : sb.size ≤ y) : marked d y = false := by
  simp only [marked, decide_eq_false (Nat.not_lt.mpr hy), Bool.false_and]

/-- The bitmap depends only on the bytes of the bitmap block. -/
theorem marked_congr (h : ∀ a, InBitmap a → d' a = d a) (b : Nat) : marked d' b = marked d b := by
  by_cases hb : b < sb.size
  · simp only [marked_of_lt hb, testBit, h _ (inBitmap_of_lt hb)]
  · rw [marked_of_le (Nat.le_of_not_lt hb), marked_of_le (Nat.le_of_not_lt hb)]

theorem marked_eq_false_iff (hy : y < sb.size) :
    marked d y = false ↔ d (bblock 0 * bsize + y / 8) &&& mask y = 0 := by
  simp [marked_of_lt hy, testBit, bblock, bmapBase]

theorem marked_setBit (hx : x < sb.size) (y : Nat) :
    marked (setBit d bmapBase x) y = Function.update (marked d) x true y := by
  by_cases hy : y = x
  · subst hy
    simp [marked_of_lt hx, testBit_setBit]
  · simp [marked, testBit_setBit, hy]

theorem marked_clearBit (y : Nat) :
    marked (clearBit d bmapBase x) y = Function.update (marked d) x false y := by
  by_cases hy : y = x
  · subst hy
    simp [marked, testBit_clearBit]
  · simp [marked, testBit_clearBit, hy]

/-- `bzero` of a block past the metadata leaves the bitmap alone. -/
theorem marked_bzero (hx : nmeta ≤ x) (y : Nat) : marked (bzero d x) y = marked d y :=
  marked_congr (fun _ ha => write_of_not_mem (by
    by_contra hc
    exact not_inBitmap_of_nmeta_le hx (by omega) ha)) y

theorem setBit_of_not_inBitmap {a : Nat} (hx : x < sb.size) (ha : ¬InBitmap a) :
    setBit d bmapBase x a = d a :=
  setBit_of_ne fun he => ha (he ▸ inBitmap_of_lt hx)

theorem clearBit_of_not_inBitmap {a : Nat} (hx : x < sb.size) (ha : ¬InBitmap a) :
    clearBit d bmapBase x a = d a :=
  clearBit_of_ne fun he => ha (he ▸ inBitmap_of_lt hx)

end Bitmap

/-! ## What `balloc` and `bfree` do -/

section Alloc

variable {d d' : Disk} {x : Nat}

theorem ballocScan_eq_some {k bi r : Nat} (h : ballocScan d 0 k bi = some r) :
    bi ≤ r ∧ r < sb.size ∧ marked d r = false ∧ ∀ y, bi ≤ y → y < r → marked d y = true := by
  induction k generalizing bi with
  | zero => cases h
  | succ k ih =>
    simp only [ballocScan] at h
    split_ifs at h with hlt hfree
    · obtain rfl : bi = r := Option.some.inj h
      have hr : bi < sb.size := by omega
      exact ⟨le_rfl, hr, (marked_eq_false_iff hr).mpr hfree, fun y h₁ h₂ => absurd h₂ (by omega)⟩
    · obtain ⟨h₁, h₂, h₃, h₄⟩ := ih h
      refine ⟨by omega, h₂, h₃, fun y hy hyr => ?_⟩
      rcases Nat.eq_or_lt_of_le hy with rfl | hy
      · exact (Bool.not_eq_false _).mp fun hm => hfree ((marked_eq_false_iff (by omega)).mp hm)
      · exact h₄ y hy hyr

theorem ballocScan_eq_none {k bi : Nat} (h : ballocScan d 0 k bi = none)
    (hk : sb.size ≤ bi + k) : ∀ y, bi ≤ y → y < sb.size → marked d y = true := by
  induction k generalizing bi with
  | zero => intro y h₁ h₂; omega
  | succ k ih =>
    intro y hy hys
    simp only [ballocScan] at h
    split_ifs at h with hlt hfree
    · rcases Nat.eq_or_lt_of_le hy with rfl | hy
      · exact (Bool.not_eq_false _).mp fun hm => hfree ((marked_eq_false_iff hys).mp hm)
      · exact ih h (by omega) y hy hys
    · simp only [not_and_or, not_lt, bpb, bsize, sb_size] at hlt hys
      omega

/-- The bitmap has one block, so the outer loop of `balloc` runs once. -/
theorem ballocLoop_eq : ballocLoop d (sb.size / bpb + 1) 0 = (ballocScan d 0 bpb 0).map (0, ·) := by
  simp only [ballocLoop, show (0 : Nat) < sb.size from by decide, if_true]
  cases ballocScan d 0 bpb 0 <;> rfl

/-- `balloc` takes the first block whose bit is clear, sets the bit and
zeroes the block. -/
theorem balloc_eq_ok (h : balloc d = .ok (d', x)) :
    x < sb.size ∧ marked d x = false ∧ (∀ y < x, marked d y = true) ∧
      d' = bzero (setBit d bmapBase x) x := by
  simp only [balloc, ballocLoop_eq] at h
  cases hscan : ballocScan d 0 bpb 0 with
  | none => simp [hscan] at h
  | some bi =>
    simp only [hscan, Option.map_some, Except.ok.injEq, Prod.mk.injEq] at h
    obtain ⟨rfl, rfl⟩ := h
    obtain ⟨-, hlt, hfree, hfirst⟩ := ballocScan_eq_some hscan
    refine ⟨by simpa using hlt, by simpa using hfree, fun y hy => hfirst y (Nat.zero_le _) (by simpa using hy), ?_⟩
    simp only [Nat.zero_add, setBit, show bblock 0 * bsize = bmapBase from rfl]

/-- `balloc` panics only when every block is in use. -/
theorem balloc_eq_error {e : Fault} (h : balloc d = .error e) :
    ∀ y < sb.size, marked d y = true := by
  simp only [balloc, ballocLoop_eq] at h
  cases hscan : ballocScan d 0 bpb 0 with
  | none => exact fun y hy => ballocScan_eq_none hscan (by decide) y (Nat.zero_le _) hy
  | some bi => simp [hscan] at h

/-- On a full bitmap `balloc` panics. -/
theorem balloc_full (h : ∀ y < sb.size, marked d y = true) :
    balloc d = .error (.panic "balloc: out of blocks") := by
  cases hb : balloc d with
  | ok r =>
    obtain ⟨d', x⟩ := r
    obtain ⟨hlt, hfree, -⟩ := balloc_eq_ok hb
    rw [h _ hlt] at hfree
    cases hfree
  | error e =>
    unfold balloc at hb
    split at hb
    · cases hb
    · exact hb.symm

theorem bfree_eq {b : Nat} (hb : b < sb.size) :
    bfree d b =
      if marked d b then .ok (clearBit d bmapBase b) else .error (.panic "freeing free block") := by
  simp only [bfree, bblock_mul_bsize_add, mask_mod_bpb, marked_of_lt hb, testBit, clearBit]
  by_cases h : d (bmapBase + b / 8) &&& mask b = 0
  · rw [if_pos h, if_neg (by rw [h]; decide)]
  · rw [if_neg h, if_pos (bne_iff_ne.mpr h)]

end Alloc

/-! ## The inode cache -/

/-- `iupdate`: the cached fields of slot `ip` written back to its dinode. -/
def iupdate (s : State) (ip : Nat) : State :=
  { s with dinodes := Function.update s.dinodes (s.slot ip).inum (s.slot ip).din }

@[simp] theorem iupdate_slot (s : State) (ip j : Nat) : (iupdate s ip).slot j = s.slot j := rfl

@[simp] theorem iupdate_disk (s : State) (ip : Nat) : (iupdate s ip).disk = s.disk := rfl

def iget (s : State) (inum : Nat) : Except Fault (State × Nat) :=
  match s.icache.findIdx? (fun e => decide (0 < e.ref) && e.inum == inum) with
  | some ip => .ok (s.setSlot ip { s.slot ip with ref := (s.slot ip).ref + 1 }, ip)
  | none =>
      match s.icache.findIdx? (fun e => e.ref == 0) with
      | some ip =>
          .ok (s.setSlot ip { s.slot ip with inum := inum, ref := 1, valid := false }, ip)
      | none => .error (.panic "iget: no inodes")

def idup (s : State) (ip : Nat) : State :=
  s.setSlot ip { s.slot ip with ref := (s.slot ip).ref + 1 }

/-- `ilock`: a slot that is not valid reads its dinode. -/
def ilock (s : State) (ip : Nat) : Except Fault State :=
  if (s.slot ip).ref < 1 then .error (.panic "ilock")
  else if (s.slot ip).locked then .error .hang
  else if (s.slot ip).valid then .ok (s.setSlot ip { s.slot ip with locked := true })
  else
    let x := s.dinodes (s.slot ip).inum
    if x.type = .free then .error (.panic "ilock: no type")
    else .ok (s.setSlot ip { s.slot ip with locked := true, valid := true, din := x })

def iunlock (s : State) (ip : Nat) : Except Fault State :=
  if !(s.slot ip).locked || (s.slot ip).ref < 1 then .error (.panic "iunlock")
  else .ok (s.setSlot ip { s.slot ip with locked := false })

/-! ## Truncation -/

/-- One round of the first loop of `itrunc`: free direct block `i`. -/
def itruncDirect (ip : Nat) (s : State) (i : Nat) : Except Fault State :=
  let a := (s.slot ip).din.addr i
  if a = 0 then .ok s
  else do
    let d ← bfree s.disk a
    .ok ((s.setDisk d).setAddr ip i 0)

/-- One round of the second loop of `itrunc`: free the block of entry `j`
of the indirect block, whose bytes are `a`. -/
def itruncIndirect (a : List UInt8) (d : Disk) (j : Nat) : Except Fault Disk :=
  let x := wordOf (a.drop (4 * j))
  if x = 0 then .ok d else bfree d x

def itrunc (s : State) (ip : Nat) : Except Fault State := do
  let s ← (List.range ndirect).foldlM (itruncDirect ip) s
  let ind := (s.slot ip).din.addr ndirect
  let s ←
    if ind = 0 then pure s
    else do
      let a := read s.disk (ind * bsize) bsize
      let d ← (List.range nindirect).foldlM (itruncIndirect a) s.disk
      let d ← bfree d ind
      pure ((s.setDisk d).setAddr ip ndirect 0)
  let s := s.setDin ip { (s.slot ip).din with size := 0 }
  pure (iupdate s ip)

/-- `iput`: drop a reference; the last reference to a valid inode with no
links truncates and frees it. -/
def iput (s : State) (ip : Nat) : Except Fault State := do
  if (s.slot ip).locked then throw .hang
  let e := s.slot ip
  let s ←
    if e.valid && e.din.nlink == 0 && e.ref == 1 then do
      let s ← itrunc s ip
      let s := s.setDin ip { (s.slot ip).din with type := .free }
      let s := iupdate s ip
      pure (s.setSlot ip { s.slot ip with valid := false })
    else pure s
  pure (s.setSlot ip { s.slot ip with ref := (s.slot ip).ref - 1 })

def iunlockput (s : State) (ip : Nat) : Except Fault State := do
  let s ← iunlock s ip
  iput s ip

def ialloc (s : State) (type : InodeType) : Except Fault (State × Nat) :=
  match (List.range' 1 (sb.ninodes - 1)).find? (fun i => (s.dinodes i).type == .free) with
  | some inum =>
      iget { s with dinodes := Function.update s.dinodes inum { DInode.zero with type := type } }
        inum
  | none => .error (.panic "ialloc: no inodes")

/-! ## Contents -/

/-- `bmap`: the disk block of block `bn` of the file in slot `ip`,
allocated if there is none. -/
def bmap (s : State) (ip bn : Nat) : Except Fault (State × Nat) :=
  if bn < ndirect then
    let addr := (s.slot ip).din.addr bn
    if addr = 0 then do
      let (d, addr) ← balloc s.disk
      .ok ((s.setDisk d).setAddr ip bn addr, addr)
    else .ok (s, addr)
  else if bn - ndirect < nindirect then do
    let bn := bn - ndirect
    -- load the indirect block, allocating it if necessary
    let (s, ind) ←
      if (s.slot ip).din.addr ndirect = 0 then do
        let (d, a) ← balloc s.disk
        pure ((s.setDisk d).setAddr ip ndirect a, a)
      else pure (s, (s.slot ip).din.addr ndirect)
    let addr := wordOf (read s.disk (ind * bsize + 4 * bn) 4)
    if addr = 0 then do
      let (d, addr) ← balloc s.disk
      .ok (s.setDisk (write d (ind * bsize + 4 * bn) (wordBytes addr)), addr)
    else .ok (s, addr)
  else .error (.panic "bmap: out of range")

/-- The first half of the indirect case of `bmap`: the indirect block,
allocated if there is none. -/
def bmapLoadIndirect (s : State) (ip : Nat) : Except Fault (State × Nat) :=
  if (s.slot ip).din.addr ndirect = 0 then do
    let (d, a) ← balloc s.disk
    pure ((s.setDisk d).setAddr ip ndirect a, a)
  else pure (s, (s.slot ip).din.addr ndirect)

/-- The second half: entry `bn` of the indirect block `ind`, allocated if it
is zero. -/
def bmapEntry (s : State) (ind bn : Nat) : Except Fault (State × Nat) :=
  let addr := wordOf (read s.disk (ind * bsize + 4 * bn) 4)
  if addr = 0 then do
    let (d, addr) ← balloc s.disk
    .ok (s.setDisk (write d (ind * bsize + 4 * bn) (wordBytes addr)), addr)
  else .ok (s, addr)

theorem bmap_indirect {s : State} {ip bn : Nat} (h1 : ¬bn < ndirect) (h2 : bn - ndirect < nindirect) :
    bmap s ip bn = bmapLoadIndirect s ip >>= fun r => bmapEntry r.1 r.2 (bn - ndirect) := by
  unfold bmap bmapLoadIndirect bmapEntry
  rw [if_neg h1, if_pos h2]
  split_ifs
  · cases balloc s.disk with
    | error e => rfl
    | ok r => rfl
  · rfl

/-- The loop of `readi` from `tot` bytes read at offset `off`, with the
bytes read so far. -/
def readiLoop (ip n : Nat) : Nat → State → Nat → Nat → List UInt8 →
    Except Fault (State × List UInt8)
  | 0, _, _, _, _ => .error .hang
  | fuel + 1, s, tot, off, out =>
    if tot < n then do
      let (s, b) ← bmap s ip (off / bsize)
      let m := min (n - tot) (bsize - off % bsize)
      readiLoop ip n fuel s (tot + m) (off + m) (out ++ read s.disk (b * bsize + off % bsize) m)
    else .ok (s, out)

/-- `readi` on a file or directory; `none` is the `-1` of an offset past
the end or of a range that overflows 32 bits. -/
def readi (s : State) (ip : Nat) (off n : UInt32) :
    Except Fault (State × Option (List UInt8)) :=
  let x := (s.slot ip).din
  if x.size < off.toNat ∨ off + n < off then .ok (s, none)
  else
    let n := if x.size < off.toNat + n.toNat then x.size - off.toNat else n.toNat
    do
      let (s, out) ← readiLoop ip n (n + 1) s 0 off.toNat []
      pure (s, some out)

/-! `readi` writes nothing back: the blocks `bmap` allocates for the holes
it reads are named by the cached copy alone. -/

theorem bmapLoadIndirect_dinodes {s s' : State} {ip ind : Nat}
    (h : bmapLoadIndirect s ip = .ok (s', ind)) : s'.dinodes = s.dinodes := by
  unfold bmapLoadIndirect at h
  split_ifs at h
  · obtain ⟨⟨d, a⟩, -, h⟩ := Except.bind_eq_ok_iff.mp h
    cases h
    rfl
  · cases h
    rfl

theorem bmapEntry_dinodes {s s' : State} {ind k b : Nat} (h : bmapEntry s ind k = .ok (s', b)) :
    s'.dinodes = s.dinodes := by
  unfold bmapEntry at h
  simp only at h
  split_ifs at h
  · obtain ⟨⟨d, a⟩, -, h⟩ := Except.bind_eq_ok_iff.mp h
    cases h
    rfl
  · cases h
    rfl

theorem bmap_dinodes {s s' : State} {ip bn b : Nat} (h : bmap s ip bn = .ok (s', b)) :
    s'.dinodes = s.dinodes := by
  by_cases h1 : bn < ndirect
  · unfold bmap at h
    rw [if_pos h1] at h
    simp only at h
    split_ifs at h
    · obtain ⟨⟨d, a⟩, -, h⟩ := Except.bind_eq_ok_iff.mp h
      cases h
      rfl
    · cases h
      rfl
  by_cases h2 : bn - ndirect < nindirect
  · rw [bmap_indirect h1 h2] at h
    obtain ⟨⟨s₁, ind⟩, hload, hentry⟩ := Except.bind_eq_ok_iff.mp h
    rw [bmapEntry_dinodes hentry, bmapLoadIndirect_dinodes hload]
  · unfold bmap at h
    rw [if_neg h1, if_neg h2] at h
    cases h

theorem readiLoop_dinodes {ip n fuel tot off : Nat} {s s' : State} {out out' : List UInt8}
    (h : readiLoop ip n fuel s tot off out = .ok (s', out')) : s'.dinodes = s.dinodes := by
  induction fuel generalizing s tot off out with
  | zero => cases h
  | succ fuel ih =>
    unfold readiLoop at h
    split_ifs at h
    · obtain ⟨⟨s₁, b⟩, hb, h⟩ := Except.bind_eq_ok_iff.mp h
      rw [ih h, bmap_dinodes hb]
    · cases h
      rfl

theorem readi_dinodes {s s' : State} {ip : Nat} {off n : UInt32} {r : Option (List UInt8)}
    (h : readi s ip off n = .ok (s', r)) : s'.dinodes = s.dinodes := by
  unfold readi at h
  simp only at h
  split_ifs at h
  · cases h
    rfl
  -- both counts `readi` may clip to run the same loop
  all_goals
    obtain ⟨⟨s₁, out⟩, hrun, h⟩ := Except.bind_eq_ok_iff.mp h
    cases h
    exact readiLoop_dinodes hrun

/-- The loop of `writei` from `tot` bytes of `src` written at offset
`off`; it returns the final offset. -/
def writeiLoop (ip : Nat) (src : List UInt8) (n : Nat) : Nat → State → Nat → Nat →
    Except Fault (State × Nat)
  | 0, _, _, _ => .error .hang
  | fuel + 1, s, tot, off =>
    if tot < n then do
      let (s, b) ← bmap s ip (off / bsize)
      let m := min (n - tot) (bsize - off % bsize)
      let s := s.setDisk (write s.disk (b * bsize + off % bsize) ((src.drop tot).take m))
      writeiLoop ip src n fuel s (tot + m) (off + m)
    else .ok (s, off)

/-- `writei` of the bytes `src` on a file or directory; it returns the
count written, or `none` for `-1`. -/
def writei (s : State) (ip : Nat) (src : List UInt8) (off : UInt32) :
    Except Fault (State × Option Nat) :=
  let n : UInt32 := UInt32.ofNat src.length
  let x := (s.slot ip).din
  if x.size < off.toNat ∨ off + n < off then .ok (s, none)
  else if maxfile * bsize < off.toNat + n.toNat then .ok (s, none)
  else do
    let (s, off) ← writeiLoop ip src n.toNat (n.toNat + 1) s 0 off.toNat
    -- the size grows, and only then is the dinode written back
    if 0 < n.toNat ∧ (s.slot ip).din.size < off then
      pure (iupdate (s.setDin ip { (s.slot ip).din with size := off }) ip, some n.toNat)
    else pure (s, some n.toNat)

end Block

end Xv6
