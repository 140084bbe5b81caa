import Xv6.BlockFile

/-!
# The sizes and the root directory `mkfs` writes

`iappend` adds its bytes at the end of a file, so each call grows the size
by their count, and its `assert(fbn < MAXFILE)` keeps the end within
`MAXFILE` blocks.  The root directory gets one record of `sizeof(struct
dirent)` bytes for `.`, for `..` and for each host file, and `main` then sets
its size to `((off/BSIZE)+1)*BSIZE`.  That is one block past the records
when they end on a block boundary: the size then covers a block the root
does not have, and when the records fill all `MAXFILE` blocks it passes
`MAXFILE*BSIZE`.

For host files that are all empty, `freeblock` is taken by the root alone,
so its blocks are laid out in order from `nmeta` on: the direct blocks,
the indirect block, then the blocks its entries name (`RootLayout`).
-/

namespace Xv6.Block

open ByteStore Mkfs

/-! ## Sizes -/

section Sizes

variable {fuel : Nat} {m m' : Mkfs} {din din' : DInode} {p : List UInt8} {off off' : Nat}

@[simp] theorem wsect_dinodes (m : Mkfs) (sec : Nat) (buf : List UInt8) :
    (m.wsect sec buf).dinodes = m.dinodes := rfl

@[simp] theorem wsect_freeinode (m : Mkfs) (sec : Nat) (buf : List UInt8) :
    (m.wsect sec buf).freeinode = m.freeinode := rfl

@[simp] theorem wsect_freeblock (m : Mkfs) (sec : Nat) (buf : List UInt8) :
    (m.wsect sec buf).freeblock = m.freeblock := rfl

theorem balloc_dinodes {used : Nat} (h : m.balloc used = .ok m') :
    m'.dinodes = m.dinodes := by
  unfold Mkfs.balloc at h
  by_cases hu : bsize * 8 ≤ used
  · rw [if_pos hu] at h
    cases h
  · rw [if_neg hu] at h
    rw [← Except.ok.inj h]
    exact wsect_dinodes _ _ _

/-- One round of `iappend`'s loop writes no dinode and allocates no inode. -/
theorem appendBlock_dinodes (m : Mkfs) (din : DInode) (fbn : Nat) :
    (m.appendBlock din fbn).1.dinodes = m.dinodes ∧
      (m.appendBlock din fbn).1.freeinode = m.freeinode := by
  unfold appendBlock
  dsimp only
  split_ifs <;> exact ⟨rfl, rfl⟩

/-- The loop of `iappend` ends at the offset past the bytes, within
`MAXFILE` blocks when there are any, and writes no dinode. -/
theorem iappendLoop_off (h : iappendLoop fuel m din p off = .ok (m', din', off')) :
    off' = off + p.length ∧ (p ≠ [] → off' ≤ maxfile * bsize) ∧ m'.dinodes = m.dinodes ∧
      m'.freeinode = m.freeinode := by
  induction fuel generalizing m din p off with
  | zero => cases h
  | succ fuel ih =>
    simp only [iappendLoop] at h
    split_ifs at h with hlen hfbn
    · cases h
      exact ⟨by simp [hlen], fun hp => absurd (List.length_eq_zero_iff.mp hlen) hp, rfl, rfl⟩
    · rcases hab : m.appendBlock din (off / bsize) with ⟨m₁, din₁, x⟩
      rw [hab] at h
      obtain ⟨hoff, hbound, hdin, hfree⟩ := ih h
      -- the round writes `n1` bytes, up to the end of block `fbn`
      have hfit : off < (off / bsize + 1) * bsize := by
        simp only [bsize_eq]
        omega
      have h₁ := appendBlock_dinodes m din (off / bsize)
      rw [hab] at h₁
      refine ⟨by rw [hoff, List.length_drop]; omega, fun _ => ?_, hdin.trans h₁.1, hfree.trans h₁.2⟩
      · by_cases hrest : p.drop (min p.length ((off / bsize + 1) * bsize - off)) = []
        · rw [hoff, hrest, List.length_nil, Nat.add_zero]
          have : off / bsize + 1 ≤ maxfile := by omega
          have : (off / bsize + 1) * bsize ≤ maxfile * bsize := Nat.mul_le_mul_right _ this
          omega
        · exact hbound hrest

/-- `iappend` grows the file by the bytes, keeps its end within `MAXFILE`
blocks when there are any, and writes no other dinode. -/
theorem iappend_sizes {inum : Nat} (h : m.iappend inum p = .ok m') :
    (m'.dinodes inum).size = (m.dinodes inum).size + p.length ∧
      (p ≠ [] → (m'.dinodes inum).size ≤ maxfile * bsize) ∧
      (∀ j ≠ inum, m'.dinodes j = m.dinodes j) ∧ m'.freeinode = m.freeinode := by
  obtain ⟨⟨m₁, din₁, off₁⟩, hloop, h⟩ := Except.bind_eq_ok_iff.mp h
  cases h
  obtain ⟨hoff, hbound, hdin, hfree⟩ := iappendLoop_off hloop
  simp only [winode, Function.update_self]
  exact ⟨hoff, hbound, fun j hj => by rw [Function.update_of_ne hj, hdin], hfree⟩

/-- What `mkfs` keeps while it adds host files: the root holds `k` records,
its inode is taken, and every other inode ends within `MAXFILE` blocks. -/
structure Sized (m : Mkfs) (k : Nat) : Prop where
  root : (m.dinodes rootino).size = direntSize * k
  freeinode : rootino < m.freeinode
  others : ∀ j ≠ rootino, (m.dinodes j).size ≤ maxfile * bsize

theorem Sized.iappend_root {k : Nat} (hs : Sized m k) (hp : p.length = direntSize)
    (h : m.iappend rootino p = .ok m') : Sized m' (k + 1) := by
  obtain ⟨hsize, -, hother, hfree⟩ := iappend_sizes h
  refine ⟨by rw [hsize, hs.root, hp]; ring, hfree ▸ hs.freeinode, fun j hj => ?_⟩
  rw [hother j hj]
  exact hs.others j hj

theorem Sized.iappend_file {k inum : Nat} (hs : Sized m k) (hinum : inum ≠ rootino) (hp : p ≠ [])
    (h : m.iappend inum p = .ok m') : Sized m' k := by
  obtain ⟨-, hbound, hother, hfree⟩ := iappend_sizes h
  refine ⟨by rw [hother _ hinum.symm, hs.root], hfree ▸ hs.freeinode, fun j hj => ?_⟩
  by_cases hji : j = inum
  · subst hji
    exact hbound hp
  · rw [hother j hji]
    exact hs.others j hj

/-- `ialloc` takes a fresh inode past the root, of size zero. -/
theorem Sized.ialloc {k : Nat} (hs : Sized m k) (type : InodeType) :
    Sized (m.ialloc type).1 k ∧ (m.ialloc type).2 ≠ rootino := by
  have hne : m.freeinode ≠ rootino := Nat.ne_of_gt hs.freeinode
  refine ⟨⟨?_, ?_, fun j hj => ?_⟩, hne⟩
  · simp only [Mkfs.ialloc, winode, Function.update_of_ne hne.symm]
    exact hs.root
  · simp only [Mkfs.ialloc, winode]
    exact Nat.lt_succ_of_lt hs.freeinode
  · simp only [Mkfs.ialloc, winode]
    by_cases hjf : j = m.freeinode
    · subst hjf
      simp [freshDInode, DInode.zero]
    · rw [Function.update_of_ne hjf]
      exact hs.others j hj

/-- The host's `read` returns no empty chunk. -/
theorem ne_nil_of_mem_readChunks {c bs : List UInt8} :
    ∀ {fuel}, c ∈ readChunks fuel bs → c ≠ [] := by
  intro fuel
  induction fuel generalizing bs with
  | zero =>
    intro h
    simp [readChunks] at h
  | succ fuel ih =>
    intro h
    unfold readChunks at h
    split_ifs at h with hbs
    · simp at h
    · rcases List.mem_cons.mp h with rfl | h
      · simp [hbs]
      · exact ih h

theorem Sized.iappend_chunks {k inum : Nat} (hs : Sized m k) (hinum : inum ≠ rootino)
    {bufs : List (List UInt8)} (hne : ∀ b ∈ bufs, b ≠ [])
    (h : bufs.foldlM (fun m buf => m.iappend inum buf) m = .ok m') : Sized m' k := by
  induction bufs generalizing m with
  | nil =>
    cases h
    exact hs
  | cons buf bufs ih =>
    rw [List.foldlM_cons] at h
    obtain ⟨m₁, h₁, h⟩ := Except.bind_eq_ok_iff.mp h
    exact ih (hs.iappend_file hinum (hne buf List.mem_cons_self) h₁)
      (fun b hb => hne b (List.mem_cons_of_mem _ hb)) h

/-- One host file: its record in the root, then its contents in its own
inode. -/
theorem Sized.addFile {k : Nat} (hs : Sized m k) {file : List UInt8 × List UInt8}
    (h : m.addFile file = .ok m') : Sized m' (k + 1) := by
  unfold Mkfs.addFile at h
  by_cases hslash : slash ∈ file.1
  · simp [hslash] at h
  · simp only [hslash, if_false] at h
    obtain ⟨hs₁, hinum⟩ := hs.ialloc .file
    rcases hia : m.ialloc .file with ⟨m₁, inum⟩
    rw [hia] at h hs₁ hinum
    obtain ⟨m₂, h₂, h⟩ := Except.bind_eq_ok_iff.mp h
    exact (hs₁.iappend_root (length_direntBytes _ _) h₂).iappend_chunks hinum
      (fun _ hb => ne_nil_of_mem_readChunks hb) h

theorem Sized.addFiles {k : Nat} (hs : Sized m k) {files : List (List UInt8 × List UInt8)}
    (h : files.foldlM Mkfs.addFile m = .ok m') : Sized m' (k + files.length) := by
  induction files generalizing m k with
  | nil =>
    cases h
    exact hs
  | cons file files ih =>
    rw [List.foldlM_cons] at h
    obtain ⟨m₁, h₁, h⟩ := Except.bind_eq_ok_iff.mp h
    have := ih (hs.addFile h₁) h
    rwa [List.length_cons, Nat.add_comm files.length 1, ← Nat.add_assoc]

theorem appendBlock_type (m : Mkfs) (din : DInode) (fbn : Nat) :
    (m.appendBlock din fbn).2.1.type = din.type := by
  unfold appendBlock
  dsimp only
  split_ifs <;> rfl

theorem iappendLoop_type (h : iappendLoop fuel m din p off = .ok (m', din', off')) :
    din'.type = din.type := by
  induction fuel generalizing m din p off with
  | zero => cases h
  | succ fuel ih =>
    simp only [iappendLoop] at h
    split_ifs at h
    · cases h
      rfl
    · rcases hab : m.appendBlock din (off / bsize) with ⟨m₁, din₁, x⟩
      have htype := appendBlock_type m din (off / bsize)
      rw [hab] at h htype
      exact (ih h).trans htype

theorem iappend_type {inum : Nat} (h : m.iappend inum p = .ok m') (j : Nat) :
    (m'.dinodes j).type = (m.dinodes j).type := by
  obtain ⟨⟨m₁, din₁, off₁⟩, hloop, h⟩ := Except.bind_eq_ok_iff.mp h
  cases h
  obtain ⟨-, -, hdin, -⟩ := iappendLoop_off hloop
  simp only [winode]
  by_cases hj : j = inum
  · subst hj
    have htype := iappendLoop_type hloop
    rw [Function.update_self]
    exact htype
  · rw [Function.update_of_ne hj, hdin]

/-- What `mkfs` keeps of the root after its first `ialloc`. -/
structure RootDir (m : Mkfs) : Prop where
  type : (m.dinodes rootino).type = .dir
  freeinode : rootino < m.freeinode

theorem RootDir.iappend {inum : Nat} (h : RootDir m) (ha : m.iappend inum p = .ok m') :
    RootDir m' :=
  ⟨(iappend_type ha rootino).trans h.type, (iappend_sizes ha).2.2.2 ▸ h.freeinode⟩

theorem RootDir.ialloc (h : RootDir m) (type : InodeType) : RootDir (m.ialloc type).1 := by
  have hne : m.freeinode ≠ rootino := Nat.ne_of_gt h.freeinode
  refine ⟨?_, ?_⟩
  · simp only [Mkfs.ialloc, winode, Function.update_of_ne hne.symm]
    exact h.type
  · simp only [Mkfs.ialloc, winode]
    exact Nat.lt_succ_of_lt h.freeinode

theorem RootDir.foldlM {α : Type} {f : Mkfs → α → Except Fault Mkfs}
    (hf : ∀ {m m'} a, RootDir m → f m a = .ok m' → RootDir m') {l : List α} (h : RootDir m)
    (hl : l.foldlM f m = .ok m') : RootDir m' := by
  induction l generalizing m with
  | nil =>
    cases hl
    exact h
  | cons a l ih =>
    rw [List.foldlM_cons] at hl
    obtain ⟨m₁, h₁, hl⟩ := Except.bind_eq_ok_iff.mp hl
    exact ih (hf a h h₁) hl

theorem RootDir.addFile (h : RootDir m) {file : List UInt8 × List UInt8}
    (ha : m.addFile file = .ok m') : RootDir m' := by
  unfold Mkfs.addFile at ha
  by_cases hslash : slash ∈ file.1
  · simp [hslash] at ha
  · simp only [hslash, if_false] at ha
    have h₁ := h.ialloc .file
    rcases hia : m.ialloc .file with ⟨m₁, inum⟩
    rw [hia] at ha h₁
    obtain ⟨m₂, h₂, ha⟩ := Except.bind_eq_ok_iff.mp ha
    exact RootDir.foldlM (fun _ hm hi => hm.iappend hi) (h₁.iappend h₂) ha

/-- A round of `iappend`'s loop whose bytes fit in the rest of one block is
its last: it takes the block from `appendBlock`, lays the bytes into it and
ends past them. -/
theorem iappendLoop_within_block (hp : p ≠ []) (hfit : off % bsize + p.length ≤ bsize)
    (hfbn : off / bsize < maxfile) (fuel : Nat) :
    iappendLoop (fuel + 2) m din p off =
      .ok (((m.appendBlock din (off / bsize)).1.wsect (m.appendBlock din (off / bsize)).2.2
          (((m.appendBlock din (off / bsize)).1.rsect (m.appendBlock din (off / bsize)).2.2).overwrite
            (off % bsize) p),
        (m.appendBlock din (off / bsize)).2.1, off + p.length)) := by
  have hlen : p.length ≠ 0 := fun h => hp (List.length_eq_zero_iff.mp h)
  have hn1 : min p.length ((off / bsize + 1) * bsize - off) = p.length := by
    simp only [bsize_eq] at hfit ⊢
    omega
  have hoff : off - off / bsize * bsize = off % bsize := by
    rw [Nat.mod_def, Nat.mul_comm]
  rw [iappendLoop, if_neg hlen, if_neg (by omega)]
  simp only [hn1, List.take_length, List.drop_length, hoff]
  rw [iappendLoop, if_pos List.length_nil]

end Sizes

/-! ## Words of a sector

`iappend` reads a sector, changes some of its bytes and writes it back:
only the changed bytes differ on the disk. -/

section Sector

variable {d : Nat → UInt8}

/-- Writing back a range read from the disk with `bs` laid over part of it
writes `bs` alone. -/
theorem write_read_overwrite {a n off : Nat} {bs : List UInt8} (h : off + bs.length ≤ n) :
    write d a ((read d a n).overwrite off bs) = write d (a + off) bs := by
  funext q
  have hlen : ((read d a n).overwrite off bs).length = n := by
    rw [List.length_overwrite (by simp; omega), length_read]
    omega
  by_cases hq : a ≤ q ∧ q < a + n
  · rw [write_of_mem hq.1 (by omega), List.getD_eq_getElem?_getD,
      List.getElem?_overwrite (by simp; omega)]
    by_cases hin : off ≤ q - a ∧ q - a < off + bs.length
    · rw [if_pos hin, write_of_mem (by omega) (by omega), List.getD_eq_getElem?_getD,
        show q - a - off = q - (a + off) by omega]
    · rw [if_neg hin, write_of_not_mem (by omega), List.getElem?_eq_getElem (by simp; omega),
        Option.getD_some, getElem_read, Nat.add_sub_cancel' hq.1]
  · rw [write_of_not_mem (by omega), write_of_not_mem (by omega)]

/-- The word at offset `4 * k` of a range read from the disk. -/
theorem wordOf_drop_read {a n k : Nat} (h : 4 * k + 4 ≤ n) :
    wordOf ((read d a n).drop (4 * k)) = word d (a + 4 * k) := by
  have hbyte : ∀ i < 4, ((read d a n).drop (4 * k)).getD i 0 = (read d (a + 4 * k) 4).getD i 0 := by
    intro i hi
    rw [List.getD_eq_getElem?_getD, List.getD_eq_getElem?_getD, List.getElem?_drop,
      List.getElem?_eq_getElem (by simp; omega), List.getElem?_eq_getElem (by simp; omega),
      getElem_read, getElem_read, Nat.add_assoc]
  simp only [word, wordOf, hbyte 0 (by omega), hbyte 1 (by omega), hbyte 2 (by omega),
    hbyte 3 (by omega)]

/-- The word laid at offset `off` reads back. -/
theorem wordOf_drop_overwrite {xs : List UInt8} {off v : Nat} (h : off ≤ xs.length)
    (hv : v < 2 ^ 32) : wordOf ((xs.overwrite off (wordBytes v)).drop off) = v := by
  have htake : ((xs.overwrite off (wordBytes v)).drop off).take (wordBytes v).length =
      wordBytes v := List.take_drop_overwrite h
  have hbyte : ∀ i < 4,
      ((xs.overwrite off (wordBytes v)).drop off).getD i 0 = (wordBytes v).getD i 0 := by
    intro i hi
    conv_rhs => rw [← htake]
    rw [List.getD_eq_getElem?_getD, List.getD_eq_getElem?_getD, List.getElem?_take,
      if_pos (by simpa using hi)]
  calc wordOf ((xs.overwrite off (wordBytes v)).drop off) = wordOf (wordBytes v) := by
        simp only [wordOf, hbyte 0 (by omega), hbyte 1 (by omega), hbyte 2 (by omega),
          hbyte 3 (by omega)]
    _ = v := wordOf_wordBytes hv

end Sector

/-! ## The root's blocks -/

section Root

variable {m : Mkfs} {din : DInode} {n : Nat}

/-- The blocks that `len` bytes take, `⌈len / BSIZE⌉`. -/
def blocksFor (len : Nat) : Nat := (len + bsize - 1) / bsize

/-- The block the root's file block `b` gets when the root alone takes
blocks: the direct blocks first, then the indirect block, then the blocks
its entries name. -/
def rootBlock (b : Nat) : Nat := if b < ndirect then nmeta + b else nmeta + 1 + b

/-- Where entry `j` of the root's indirect block lies on the disk. -/
def entryAddr (j : Nat) : Nat := (nmeta + ndirect) * bsize + 4 * j

/-- The addresses `din` and the disk hold the root's first `n` blocks where
the layout puts them and nothing past them, and `freeblock` is the next
block. -/
structure RootBlocks (m : Mkfs) (din : DInode) (n : Nat) : Prop where
  direct : ∀ i < ndirect, din.addr i = if i < n then rootBlock i else 0
  indirect : din.addr ndirect = if ndirect < n then nmeta + ndirect else 0
  entry : ∀ j < nindirect,
    word m.disk (entryAddr j) = if ndirect + j < n then rootBlock (ndirect + j) else 0
  freeblock : m.freeblock = nmeta + n + if ndirect < n then 1 else 0

theorem rootBlock_pos (b : Nat) : 0 < rootBlock b := by
  unfold rootBlock
  split_ifs <;> simp

theorem rootBlock_ne_indirect (b : Nat) : rootBlock b ≠ nmeta + ndirect := by
  unfold rootBlock
  split_ifs <;> omega

/-- Entry `k` of the indirect block, as `appendBlock` reads it. -/
theorem wordOf_drop_rsect (m : Mkfs) {k : Nat} (hk : k < nindirect) :
    wordOf ((m.rsect (nmeta + ndirect)).drop (4 * k)) = word m.disk (entryAddr k) := by
  rw [rsect, wordOf_drop_read (by simp only [nindirect_eq, bsize_eq] at hk ⊢; omega)]
  rfl

/-- A block the root has already: `appendBlock` allocates nothing. -/
theorem RootBlocks.appendBlock_old (h : RootBlocks m din n) {b : Nat} (hb : b < n)
    (hbn : b < ndirect + nindirect) : m.appendBlock din b = (m, din, rootBlock b) := by
  unfold appendBlock
  by_cases hd : b < ndirect
  · have haddr : din.addr b = rootBlock b := by rw [h.direct b hd, if_pos hb]
    simp only [hd, if_true, haddr, (rootBlock_pos b).ne', if_false]
  · have hind : din.addr ndirect = nmeta + ndirect := by rw [h.indirect, if_pos (by omega)]
    have hentry : wordOf ((m.rsect (nmeta + ndirect)).drop (4 * (b - ndirect))) = rootBlock b := by
      rw [wordOf_drop_rsect m (by omega), h.entry _ (by omega), if_pos (by omega),
        Nat.add_sub_cancel' (by omega)]
    simp only [hd, if_false, hind, show nmeta + ndirect ≠ 0 by simp, hentry,
      (rootBlock_pos b).ne']

/-- The first half of `appendBlock`'s indirect case, for a block past the
direct ones: the indirect block is `nmeta + NDIRECT`, taken from
`freeblock` when the root has none yet. -/
theorem RootBlocks.indirect_ready (h : RootBlocks m din n) (hn : ndirect ≤ n) {m₁ : Mkfs}
    {din₁ : DInode}
    (h₁ : (if din.addr ndirect = 0 then
        ({ m with freeblock := m.freeblock + 1 }, din.setAddr ndirect m.freeblock)
      else (m, din)) = (m₁, din₁)) :
    m₁.disk = m.disk ∧ m₁.dinodes = m.dinodes ∧ m₁.freeinode = m.freeinode ∧
      m₁.freeblock = nmeta + n + 1 ∧ din₁.addr ndirect = nmeta + ndirect ∧
      (∀ i < ndirect, din₁.addr i = din.addr i) ∧ din₁.size = din.size := by
  split_ifs at h₁ with hz
  · -- the first block past the direct ones: the indirect block is taken now
    obtain ⟨rfl, rfl⟩ := Prod.mk.inj h₁
    have hnd : n = ndirect := by
      by_contra hne
      rw [h.indirect, if_pos (by omega)] at hz
      simp at hz
    have hfree : m.freeblock = nmeta + ndirect := by
      rw [h.freeblock, if_neg (by omega), hnd, Nat.add_zero]
    refine ⟨rfl, rfl, rfl, by rw [hfree, hnd], ?_, fun i hi => ?_, rfl⟩
    · rw [DInode.addr_setAddr _ _ (by omega), if_pos rfl, hfree]
    · rw [DInode.addr_setAddr _ _ (by omega), if_neg (by omega)]
  · obtain ⟨rfl, rfl⟩ := Prod.mk.inj h₁
    have hlt : ndirect < n := by
      by_contra hge
      rw [h.indirect, if_neg hge] at hz
      exact hz rfl
    refine ⟨rfl, rfl, rfl, by rw [h.freeblock, if_pos hlt], ?_, fun _ _ => rfl, rfl⟩
    rw [h.indirect, if_pos hlt]

/-- The root's next block: `appendBlock` takes `freeblock` for it, and
before it the indirect block when it is the first block past the direct
ones. -/
theorem RootBlocks.appendBlock_new (h : RootBlocks m din n) (hn : n < ndirect + nindirect) :
    RootBlocks (m.appendBlock din n).1 (m.appendBlock din n).2.1 (n + 1) ∧
      (m.appendBlock din n).2.2 = rootBlock n ∧ (m.appendBlock din n).2.1.size = din.size := by
  unfold appendBlock
  by_cases hd : n < ndirect
  · have haddr : din.addr n = 0 := by rw [h.direct n hd, if_neg (lt_irrefl n)]
    have hfree : m.freeblock = rootBlock n := by
      rw [h.freeblock, if_neg (by omega), rootBlock, if_pos hd, Nat.add_zero]
    simp only [hd, if_true, haddr]
    refine ⟨⟨fun i hi => ?_, ?_, fun j hj => ?_, ?_⟩, ?_, rfl⟩
    · rw [DInode.addr_setAddr _ _ (by omega)]
      by_cases hin : i = n
      · rw [if_pos hin, if_pos (by omega), hfree, hin]
      · rw [if_neg hin, h.direct i hi]
        exact if_congr (by omega) rfl rfl
    · rw [DInode.addr_setAddr _ _ (by omega), if_neg (by omega), h.indirect, if_neg (by omega),
        if_neg (by omega)]
    · rw [h.entry j hj, if_neg (by omega), if_neg (by omega)]
    · simp only [h.freeblock, if_neg (show ¬ndirect < n by omega),
        if_neg (show ¬ndirect < n + 1 by omega)]
      omega
    · rw [DInode.addr_setAddr _ _ (by omega), if_pos rfl, hfree]
  · simp only [hd, if_false]
    rcases hA : (if din.addr ndirect = 0 then
        ({ m with freeblock := m.freeblock + 1 }, din.setAddr ndirect m.freeblock)
      else (m, din)) with ⟨m₁, din₁⟩
    obtain ⟨hdisk, -, -, hfree, hind, hdir, hsize⟩ := h.indirect_ready (by omega) hA
    -- entry `n - NDIRECT` is still zero, so it is taken from `freeblock`
    have hk : n - ndirect < nindirect := by omega
    have hzero : wordOf ((m₁.rsect (nmeta + ndirect)).drop (4 * (n - ndirect))) = 0 := by
      rw [wordOf_drop_rsect m₁ hk, hdisk, h.entry _ hk, if_neg (by omega)]
    have hroom : 4 * (n - ndirect) + (wordBytes m₁.freeblock).length ≤ bsize := by
      simp only [length_wordBytes, bsize_eq]
      simp only [nindirect_eq] at hk
      omega
    have hlt : m₁.freeblock < 2 ^ 32 := by
      rw [hfree]
      simp only [nmeta_eq, ndirect_eq, nindirect_eq] at hn ⊢
      omega
    have hblock : m₁.freeblock = rootBlock n := by rw [hfree, rootBlock, if_neg hd]; omega
    simp only [hA, hind, hzero, if_true]
    refine ⟨⟨fun i hi => ?_, ?_, fun j hj => ?_, ?_⟩, ?_, hsize⟩
    · rw [hdir i hi, h.direct i hi, if_pos (by omega), if_pos (by omega)]
    · rw [hind, if_pos (by omega)]
    · -- the indirect block written back with entry `n - NDIRECT` set
      simp only [wsect, rsect]
      rw [write_read_overwrite hroom]
      change word (setWord m₁.disk (entryAddr (n - ndirect)) m₁.freeblock) (entryAddr j) = _
      by_cases hj' : j = n - ndirect
      · rw [hj', word_setWord_self hlt, if_pos (by omega), Nat.add_sub_cancel' (by omega),
          hblock]
      · rw [word_setWord_of_disjoint (by simp only [entryAddr]; omega), hdisk, h.entry j hj]
        exact if_congr (by omega) rfl rfl
    · rw [wsect_freeblock, if_pos (by omega)]
      dsimp only
      omega
    · rw [wordOf_drop_overwrite (by simp only [rsect, length_read]; omega) hlt, hblock]

/-- A record's bytes go to a block the layout gave a file block, never to
the indirect block: the entries stay. -/
theorem RootBlocks.wsect_data (h : RootBlocks m din n) (b off : Nat) {bs : List UInt8}
    (hoff : off + bs.length ≤ bsize) :
    RootBlocks (m.wsect (rootBlock b) ((m.rsect (rootBlock b)).overwrite off bs)) din n := by
  refine ⟨h.direct, h.indirect, fun j hj => ?_, h.freeblock⟩
  have hne := rootBlock_ne_indirect b
  simp only [wsect, rsect]
  rw [write_read_overwrite hoff, word_write_of_disjoint, h.entry j hj]
  -- the record's block lies wholly before or wholly after the indirect block
  simp only [entryAddr, nindirect_eq, bsize_eq] at hj hoff ⊢
  rcases Nat.lt_or_gt_of_ne hne with hlt | hgt
  · have : (rootBlock b + 1) * 512 ≤ (nmeta + ndirect) * 512 := Nat.mul_le_mul_right _ hlt
    omega
  · have : (nmeta + ndirect + 1) * 512 ≤ rootBlock b * 512 := Nat.mul_le_mul_right _ hgt
    omega

theorem RootBlocks.congr {m' : Mkfs} {din' : DInode} (h : RootBlocks m din n)
    (haddrs : din'.addrs = din.addrs) (hdisk : m'.disk = m.disk)
    (hfree : m'.freeblock = m.freeblock) : RootBlocks m' din' n := by
  have haddr : ∀ i, din'.addr i = din.addr i := fun i => by simp only [DInode.addr, haddrs]
  exact ⟨fun i hi => (haddr i).trans (h.direct i hi), (haddr ndirect).trans h.indirect,
    fun j hj => hdisk ▸ h.entry j hj, hfree.trans h.freeblock⟩

/-- The block `appendBlock` gives a record at offset `off`, a multiple of
`sizeof(struct dirent)`: the root's last block, or its next one when the
records so far end on a block boundary. -/
theorem RootBlocks.appendBlock_record (h : RootBlocks m din (blocksFor off))
    (hdiv : direntSize ∣ off) (hoff : off + direntSize ≤ maxfile * bsize) :
    RootBlocks (m.appendBlock din (off / bsize)).1 (m.appendBlock din (off / bsize)).2.1
        (blocksFor (off + direntSize)) ∧
      (m.appendBlock din (off / bsize)).2.2 = rootBlock (off / bsize) ∧
      (m.appendBlock din (off / bsize)).2.1.size = din.size := by
  obtain ⟨q, rfl⟩ := hdiv
  simp only [blocksFor, direntSize, bsize_eq, maxfile_eq] at h hoff ⊢
  by_cases hnew : 16 * q % 512 = 0
  · -- a new block: the records so far end on a block boundary
    have hfbn : 16 * q / 512 = (16 * q + 512 - 1) / 512 := by omega
    have hnext : (16 * q + 16 + 512 - 1) / 512 = (16 * q + 512 - 1) / 512 + 1 := by omega
    rw [hfbn, hnext]
    exact h.appendBlock_new (by simp only [ndirect_eq, nindirect_eq]; omega)
  · have hold : 16 * q / 512 < (16 * q + 512 - 1) / 512 := by omega
    have hsame : (16 * q + 16 + 512 - 1) / 512 = (16 * q + 512 - 1) / 512 := by omega
    rw [hsame, h.appendBlock_old hold (by simp only [ndirect_eq, nindirect_eq]; omega)]
    exact ⟨h, rfl, rfl⟩

/-- The root of an image whose host files are all empty, after `k`
records: its blocks are laid out by `rootBlock`. -/
structure RootLayout (m : Mkfs) (k : Nat) : Prop where
  size : (m.dinodes rootino).size = direntSize * k
  blocks : RootBlocks m (m.dinodes rootino) (blocksFor (direntSize * k))
  freeinode : rootino < m.freeinode

/-- `iappend` of one record to the root, while the records fit in `MAXFILE`
blocks, succeeds and keeps the layout. -/
theorem RootLayout.iappend {k : Nat} (h : RootLayout m k) {p : List UInt8}
    (hp : p.length = direntSize) (hk : direntSize * (k + 1) ≤ maxfile * bsize) :
    ∃ m', m.iappend rootino p = .ok m' ∧ RootLayout m' (k + 1) := by
  have hne : p ≠ [] := by
    rintro rfl
    simp [direntSize] at hp
  have hoff : direntSize * k + direntSize ≤ maxfile * bsize := by rw [← Nat.mul_succ]; exact hk
  have hfit : direntSize * k % bsize + p.length ≤ bsize := by
    simp only [hp, direntSize, bsize_eq]
    omega
  have hfbn : direntSize * k / bsize < maxfile := by
    simp only [direntSize, bsize_eq, maxfile_eq] at hoff ⊢
    omega
  obtain ⟨hblocks, hx, hsize⟩ := h.blocks.appendBlock_record (Dvd.intro k rfl) hoff
  have hloop : iappendLoop (direntSize - 1 + 2) m (m.dinodes rootino) p (direntSize * k) = _ :=
    iappendLoop_within_block hne hfit hfbn (direntSize - 1)
  rw [show direntSize - 1 + 2 = p.length + 1 by simp [hp, direntSize]] at hloop
  refine ⟨_, by rw [Mkfs.iappend, rinode, h.size, hloop]; rfl, ?_⟩
  rw [hx]
  have hdata := hblocks.wsect_data (direntSize * k / bsize) (direntSize * k % bsize) hfit
  refine ⟨?_, ?_, ?_⟩
  · simp only [winode, Function.update_self, hp, Nat.mul_succ]
  · simp only [winode, Function.update_self, Nat.mul_succ]
    exact hdata.congr rfl rfl rfl
  · simp only [winode, wsect_freeinode]
    rw [(appendBlock_dinodes _ _ _).2]
    exact h.freeinode

/-- `ialloc` writes a dinode past the root and touches no block. -/
theorem RootLayout.ialloc {k : Nat} (h : RootLayout m k) (type : InodeType) :
    RootLayout (m.ialloc type).1 k := by
  have hne : m.freeinode ≠ rootino := Nat.ne_of_gt h.freeinode
  have hroot : (m.ialloc type).1.dinodes rootino = m.dinodes rootino := by
    simp only [Mkfs.ialloc, winode, Function.update_of_ne hne.symm]
  refine ⟨hroot ▸ h.size, h.blocks.congr (by rw [hroot]) rfl rfl, ?_⟩
  simp only [Mkfs.ialloc, winode]
  exact Nat.lt_succ_of_lt h.freeinode

/-- An empty host file: its inode, and its record in the root. -/
theorem RootLayout.addFile {k : Nat} (h : RootLayout m k) {name : List UInt8}
    (hname : slash ∉ name) (hk : direntSize * (k + 1) ≤ maxfile * bsize) :
    ∃ m', m.addFile (name, []) = .ok m' ∧ RootLayout m' (k + 1) := by
  obtain ⟨m', hm', h'⟩ := (h.ialloc .file).iappend
    (p := direntBytes (m.ialloc .file).2 (mkfsName name)) (length_direntBytes _ _) hk
  refine ⟨m', ?_, h'⟩
  simp only [Mkfs.addFile, hname, if_false, hm', List.length_nil, readChunks]
  rfl

/-- Empty host files, each with a name free of `/`. -/
def EmptyFiles (files : List (List UInt8 × List UInt8)) : Prop :=
  ∀ f ∈ files, slash ∉ f.1 ∧ f.2 = []

theorem RootLayout.addFiles {k : Nat} (h : RootLayout m k) {files : List (List UInt8 × List UInt8)}
    (hfiles : EmptyFiles files) (hk : direntSize * (k + files.length) ≤ maxfile * bsize) :
    ∃ m', files.foldlM Mkfs.addFile m = .ok m' ∧ RootLayout m' (k + files.length) := by
  induction files generalizing m k with
  | nil => exact ⟨m, rfl, h⟩
  | cons file files ih =>
    obtain ⟨hname, hdata⟩ := hfiles file List.mem_cons_self
    obtain ⟨name, data⟩ := file
    simp only at hname hdata
    subst hdata
    have hk₁ : direntSize * (k + 1) ≤ maxfile * bsize := by
      simp only [List.length_cons] at hk
      exact le_trans (Nat.mul_le_mul_left _ (by omega)) hk
    obtain ⟨m₁, hm₁, h₁⟩ := h.addFile hname hk₁
    obtain ⟨m', hm', h'⟩ := ih h₁ (fun f hf => hfiles f (List.mem_cons_of_mem _ hf))
      (by simp only [List.length_cons] at hk; rwa [Nat.add_assoc, Nat.add_comm 1])
    refine ⟨m', by rw [List.foldlM_cons, hm₁]; exact hm', ?_⟩
    rwa [List.length_cons, Nat.add_comm files.length 1, ← Nat.add_assoc]

/-- The bitmap `balloc` writes lies before the root's indirect block. -/
theorem RootBlocks.balloc {m' : Mkfs} {used : Nat} (h : RootBlocks m din n)
    (hb : m.balloc used = .ok m') : RootBlocks m' din n := by
  unfold Mkfs.balloc at hb
  by_cases hu : bsize * 8 ≤ used
  · rw [if_pos hu] at hb
    cases hb
  · rw [if_neg hu] at hb
    rw [← Except.ok.inj hb]
    refine ⟨h.direct, h.indirect, fun j hj => ?_, by rw [wsect_freeblock]; exact h.freeblock⟩
    -- the bitmap block is one block long
    have hlen : ∀ (l : List Nat) (buf : List UInt8),
        (l.foldl (fun buf i => buf.set (i / 8) (buf.getD (i / 8) 0 ||| mask i)) buf).length =
          buf.length := by
      intro l
      induction l with
      | nil => intro buf; rfl
      | cons i l ih => intro buf; rw [List.foldl_cons, ih, List.length_set]
    have hbm : sb.bmapstart = 58 := rfl
    simp only [wsect]
    rw [word_write_of_disjoint, h.entry j hj]
    rw [hlen, List.length_replicate, hbm]
    simp only [entryAddr, nmeta_eq, ndirect_eq, bsize_eq, nindirect_eq] at hj ⊢
    omega

/-- What `mkfs` has before the first record: the root's dinode from
`ialloc`, an image of zeros, and `freeblock` at `nmeta`. -/
theorem rootLayout_start :
    RootLayout (({ disk := fun _ => 0, dinodes := fun _ => DInode.zero, freeinode := 1 + 1
                   freeblock := nmeta } : Mkfs).winode 1 (freshDInode .dir)) 0 := by
  refine ⟨rfl, ⟨fun i _ => ?_, ?_, fun j _ => ?_, ?_⟩, by decide⟩
  · change DInode.zero.addr i = _
    simp [blocksFor]
  · change DInode.zero.addr ndirect = _
    simp [blocksFor]
  · simp [winode, word, wordOf, ByteStore.read, blocksFor]
  · simp [winode, blocksFor]

/-- `mkfs` on empty host files whose records fit in `MAXFILE` blocks
succeeds; the root has its first `⌈records / BSIZE⌉` blocks where
`rootBlock` puts them, and its size is rounded up to one block past the
block the records end in. -/
theorem mkfs_empty_files {files : List (List UInt8 × List UInt8)} (hfiles : EmptyFiles files)
    (hfit : direntSize * (files.length + 2) ≤ maxfile * bsize) :
    ∃ m, mkfs files = .ok m ∧
      (m.dinodes rootino).size = (direntSize * (files.length + 2) / bsize + 1) * bsize ∧
      RootBlocks m (m.dinodes rootino) (blocksFor (direntSize * (files.length + 2))) := by
  have hdot := rootLayout_start.iappend (p := direntBytes 1 dot) (length_direntBytes _ _)
    (le_trans (Nat.mul_le_mul_left _ (by omega)) hfit)
  obtain ⟨m₂, h₂, hl₂⟩ := hdot
  obtain ⟨m₃, h₃, hl₃⟩ := hl₂.iappend (p := direntBytes 1 dotdot) (length_direntBytes _ _)
    (le_trans (Nat.mul_le_mul_left _ (by omega)) hfit)
  obtain ⟨m₄, h₄, hl₄⟩ := hl₃.addFiles hfiles (by rwa [Nat.add_comm 0 1, Nat.add_comm 1 1,
    Nat.add_comm 2 files.length])
  rw [show 0 + 1 + 1 + files.length = files.length + 2 by omega] at hl₄
  -- the rounded root, then the bitmap
  set m₅ := m₄.winode 1 { m₄.rinode 1 with size := ((m₄.rinode 1).size / bsize + 1) * bsize }
  have hfree : ¬bsize * 8 ≤ m₅.freeblock := by
    have hif : (if ndirect < blocksFor (direntSize * (files.length + 2)) then 1 else 0) ≤ 1 := by
      split_ifs <;> omega
    have hU : blocksFor (direntSize * (files.length + 2)) ≤ maxfile := by
      simp only [blocksFor, direntSize, bsize_eq, maxfile_eq] at hfit ⊢
      omega
    rw [show m₅.freeblock = m₄.freeblock from rfl, hl₄.blocks.freeblock]
    simp only [bsize_eq, nmeta_eq, maxfile_eq] at hU ⊢
    omega
  have hb₅ : RootBlocks m₅ (m₅.dinodes rootino) (blocksFor (direntSize * (files.length + 2))) :=
    hl₄.blocks.congr rfl rfl rfl
  obtain ⟨m₆, h₆⟩ : ∃ m₆, m₅.balloc m₅.freeblock = .ok m₆ :=
    ⟨_, by rw [Mkfs.balloc, if_neg hfree]⟩
  have hrun : mkfs files = .ok m₆ := by
    unfold mkfs
    simp only [Mkfs.ialloc, rootino, ne_eq, not_true_eq_false, if_false]
    simp only [rootino] at h₂ h₃
    rw [h₂, Except.ok_bind, h₃, Except.ok_bind, h₄, Except.ok_bind]
    exact h₆
  have hroot : m₆.dinodes rootino = m₅.dinodes rootino := by rw [balloc_dinodes h₆]
  refine ⟨m₆, hrun, ?_, hroot ▸ hb₅.balloc h₆⟩
  have hsize : (m₄.rinode 1).size = direntSize * (files.length + 2) := hl₄.size
  rw [hroot]
  simp only [m₅, winode, rootino, Function.update_self, hsize]

/-- The block that holds file block `b` of the dinode `x` in the image, as
`bmap` finds it before it allocates: zero for a block the file does not
have. -/
def imageBlock (m : Mkfs) (x : DInode) (b : Nat) : Nat :=
  if b < ndirect then x.addr b
  else if x.addr ndirect = 0 then 0
  else word m.disk (x.addr ndirect * bsize + 4 * (b - ndirect))

theorem RootBlocks.imageBlock_eq (h : RootBlocks m din n) {b : Nat}
    (hb : b < ndirect + nindirect) : imageBlock m din b = if b < n then rootBlock b else 0 := by
  unfold imageBlock
  by_cases hd : b < ndirect
  · rw [if_pos hd, h.direct b hd]
  · rw [if_neg hd, h.indirect]
    by_cases hn : ndirect < n
    · rw [if_pos hn, if_neg (by simp)]
      have hentry := h.entry (b - ndirect) (by omega)
      rw [Nat.add_sub_cancel' (by omega)] at hentry
      exact hentry
    · rw [if_neg hn, if_pos rfl, if_neg (by omega)]

/-- In the image of empty host files, the root has a block for each of its
first `⌈records / BSIZE⌉` file blocks and for no other; `main` sets its size
one block past the block the records end in, which passes its blocks
exactly when the records end on a block boundary. -/
theorem mkfs_root_size_past_blocks (files : List (List UInt8 × List UInt8))
    (hfiles : EmptyFiles files) (hfit : direntSize * (files.length + 2) ≤ maxfile * bsize) :
    ∃ m, mkfs files = .ok m ∧
      (∀ b < maxfile,
        imageBlock m (m.dinodes rootino) b ≠ 0 ↔ b < blocksFor (direntSize * (files.length + 2))) ∧
      (m.dinodes rootino).size = (direntSize * (files.length + 2) / bsize + 1) * bsize ∧
      (blocksFor (direntSize * (files.length + 2)) * bsize < (m.dinodes rootino).size ↔
        direntSize * (files.length + 2) % bsize = 0) := by
  obtain ⟨m, hrun, hsize, hblocks⟩ := mkfs_empty_files hfiles hfit
  refine ⟨m, hrun, fun b hb => ?_, hsize, ?_⟩
  · rw [hblocks.imageBlock_eq (by simpa using hb)]
    split_ifs with hlt
    · exact iff_of_true (rootBlock_pos b).ne' hlt
    · exact iff_of_false (fun h => h rfl) hlt
  · rw [hsize]
    simp only [blocksFor, bsize_eq]
    omega

/-- The thirty empty host files `A` to `^`: their 32 records fill the root's
first block, whose size `mkfs` sets to two blocks. -/
theorem hostFiles_root_past_blocks :
    ∃ m, mkfs hostFiles = .ok m ∧ imageBlock m (m.dinodes rootino) 0 ≠ 0 ∧
      imageBlock m (m.dinodes rootino) 1 = 0 ∧ (m.dinodes rootino).size = 2 * bsize := by
  have hlen : hostFiles.length = 30 := rfl
  obtain ⟨m, hrun, hblocks, hsize, -⟩ :=
    mkfs_root_size_past_blocks hostFiles (by unfold EmptyFiles; decide) (by rw [hlen]; decide)
  rw [hlen] at hblocks hsize
  refine ⟨m, hrun, (hblocks 0 (by decide)).mpr (by decide), ?_, by rw [hsize]; rfl⟩
  by_contra hne
  exact absurd ((hblocks 1 (by decide)).mp hne) (by decide)

end Root

end Xv6.Block
