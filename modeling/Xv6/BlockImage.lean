import Xv6.Boot
import Xv6.BlockFs

/-!
# The image `mkfs` writes

`mkfs.c` at the block level: it allocates inodes from `1` on and blocks from
the first one past the metadata on, appends the root directory's records and
each host file's contents with `iappend`, rounds the root's size up past its
last block, and finally marks every block below `freeblock` in the bitmap.
The host's `read` of a file is a list of chunks of at most `BSIZE` bytes.
The image starts as zero bytes; the superblock `mkfs` writes into block `1`
is `sb`, which the block layer takes as given.
-/

namespace Xv6

namespace Block

open ByteStore

/-- `mkfs` while it runs: the image, its dinodes, and the counters
`freeinode` and `freeblock`. -/
structure Mkfs where
  disk : Disk
  dinodes : Nat → DInode
  freeinode : Nat
  freeblock : Nat

namespace Mkfs

def wsect (m : Mkfs) (sec : Nat) (buf : List UInt8) : Mkfs :=
  { m with disk := write m.disk (sec * bsize) buf }

def rsect (m : Mkfs) (sec : Nat) : List UInt8 := read m.disk (sec * bsize) bsize

def winode (m : Mkfs) (inum : Nat) (x : DInode) : Mkfs :=
  { m with dinodes := Function.update m.dinodes inum x }

def rinode (m : Mkfs) (inum : Nat) : DInode := m.dinodes inum

/-- The dinode `mkfs`'s `ialloc` writes: one link, no data, every mode bit
but the others' write bit, owned by `ROOT_UID`. -/
def freshDInode (type : InodeType) : DInode :=
  { DInode.zero with
    type := type, nlink := 1, owner := rootUid,
    perm := modeRusr ||| modeWusr ||| modeXusr ||| modeRoth ||| modeXoth }

def ialloc (m : Mkfs) (type : InodeType) : Mkfs × Nat :=
  ({ m with freeinode := m.freeinode + 1 }.winode m.freeinode (freshDInode type), m.freeinode)

/-- The block that holds file block `fbn` of `din` in `iappend`, taking
`freeblock` for an address that is still zero, with the in-memory copy of
the indirect block written back when an entry of it is taken. -/
def appendBlock (m : Mkfs) (din : DInode) (fbn : Nat) : Mkfs × DInode × Nat :=
  if fbn < ndirect then
    let (m, din) :=
      if din.addr fbn = 0 then ({ m with freeblock := m.freeblock + 1 }, din.setAddr fbn m.freeblock)
      else (m, din)
    (m, din, din.addr fbn)
  else
    let (m, din) :=
      if din.addr ndirect = 0 then
        ({ m with freeblock := m.freeblock + 1 }, din.setAddr ndirect m.freeblock)
      else (m, din)
    let ind := din.addr ndirect
    let indirect := m.rsect ind
    let k := fbn - ndirect
    let (m, indirect) :=
      if wordOf (indirect.drop (4 * k)) = 0 then
        let indirect := indirect.overwrite (4 * k) (wordBytes m.freeblock)
        ({ m with freeblock := m.freeblock + 1 }.wsect ind indirect, indirect)
      else (m, indirect)
    (m, din, wordOf (indirect.drop (4 * k)))

/-- The loop of `iappend` over the bytes `p` still to append at offset
`off`. -/
def iappendLoop : Nat → Mkfs → DInode → List UInt8 → Nat → Except Fault (Mkfs × DInode × Nat)
  | 0, _, _, _, _ => .error .hang
  | fuel + 1, m, din, p, off =>
    if p.length = 0 then .ok (m, din, off)
    else
      let fbn := off / bsize
      if maxfile ≤ fbn then .error (.panic "assert fbn < MAXFILE")
      else
        let (m, din, x) := m.appendBlock din fbn
        let n1 := min p.length ((fbn + 1) * bsize - off)
        let m := m.wsect x ((m.rsect x).overwrite (off - fbn * bsize) (p.take n1))
        iappendLoop fuel m din (p.drop n1) (off + n1)

def iappend (m : Mkfs) (inum : Nat) (p : List UInt8) : Except Fault Mkfs := do
  let din := m.rinode inum
  let (m, din, off) ← iappendLoop (p.length + 1) m din p din.size
  pure (m.winode inum { din with size := off })

/-- `mkfs`'s `balloc`: the bitmap block with the first `used` bits set. -/
def balloc (m : Mkfs) (used : Nat) : Except Fault Mkfs :=
  if bsize * 8 ≤ used then .error (.panic "assert used < BSIZE*8")
  else
    let buf := (List.range used).foldl
      (fun buf i => buf.set (i / 8) (buf.getD (i / 8) 0 ||| mask i)) (List.replicate bsize 0)
    .ok (m.wsect sb.bmapstart buf)

/-- The chunks the host's `read` returns for a file, `BSIZE` bytes at a time. -/
def readChunks : Nat → List UInt8 → List (List UInt8)
  | 0, _ => []
  | fuel + 1, bs => if bs = [] then [] else bs.take bsize :: readChunks fuel (bs.drop bsize)

/-- One host file: its record in the root and its contents. -/
def addFile (m : Mkfs) (file : List UInt8 × List UInt8) : Except Fault Mkfs := do
  if slash ∈ file.1 then throw (.panic "assert index(argv[i], '/') == 0")
  let (m, inum) := m.ialloc .file
  let m ← m.iappend rootino (direntBytes inum (mkfsName file.1))
  (readChunks file.2.length file.2).foldlM (fun m buf => m.iappend inum buf) m

end Mkfs

open Mkfs

def mkfs (files : List (List UInt8 × List UInt8)) : Except Fault Mkfs := do
  let m : Mkfs :=
    { disk := fun _ => 0, dinodes := fun _ => DInode.zero, freeinode := 1, freeblock := nmeta }
  let (m, root) := m.ialloc .dir
  if root ≠ rootino then throw (.panic "assert rootino == ROOTINO")
  let m ← m.iappend root (direntBytes root dot)
  let m ← m.iappend root (direntBytes root dotdot)
  let m ← files.foldlM addFile m
  -- fix size of root inode dir
  let din := m.rinode root
  let m := m.winode root { din with size := (din.size / bsize + 1) * bsize }
  m.balloc m.freeblock

def emptySlot : Slot := { inum := 0, ref := 0, valid := false, locked := false, din := default }

/-- The kernel's state on the image of `files`, with an empty inode cache. -/
def mkfsState (files : List (List UInt8 × List UInt8)) : Except Fault State := do
  let m ← mkfs files
  pure { disk := m.disk, dinodes := m.dinodes, icache := List.replicate ninode emptySlot }

end Block

end Xv6
