import Mathlib.Tactic

/-!
# Kernel constants

The sizes, modes and flags of `param.h`, `fs.h`, `fcntl.h` and `stat.h`
that the modelled functions read, under the source's names.  The inode
types `T_DIR`, `T_FILE` and `T_DEV`, together with the free type `0`, are
the constructors of `InodeType`.
-/

namespace Xv6

/-! ## `param.h` -/

def nproc : Nat := 64
def nofile : Nat := 16
def nfile : Nat := 100
def ninode : Nat := 50
def maxopblocks : Nat := 10
def logsize : Nat := maxopblocks * 3
def nbuf : Nat := maxopblocks * 3
def fssize : Nat := 1000
def usernameMaxlen : Nat := 16
def userPwMaxlen : Nat := 16
def nuser : Nat := 10
def rootUid : UInt32 := 1

/-! ## `fs.h` -/

def rootino : Nat := 1
def bsize : Nat := 512
def ndirect : Nat := 11
def nindirect : Nat := bsize / 4
def maxfile : Nat := ndirect + nindirect
def dirsiz : Nat := 14

def modeRusr : UInt8 := 32
def modeWusr : UInt8 := 16
def modeXusr : UInt8 := 8
def modeRoth : UInt8 := 4
def modeWoth : UInt8 := 2
def modeXoth : UInt8 := 1
def modeAll : Int32 := 63

/-! ## `fcntl.h` -/

def oRdonly : Int32 := 0x000
def oWronly : Int32 := 0x001
def oRdwr : Int32 := 0x002
def oCreate : Int32 := 0x200

/-! ## `stat.h` -/

/-- The `type` field of an inode: `0` for a free inode, then `T_DIR`,
`T_FILE` and `T_DEV`. -/
inductive InodeType where
  | free
  | dir
  | file
  | dev
  deriving DecidableEq, Repr, Inhabited

@[simp] theorem maxfile_eq : maxfile = 139 := rfl
@[simp] theorem bsize_eq : bsize = 512 := rfl
@[simp] theorem ndirect_eq : ndirect = 11 := rfl
@[simp] theorem nindirect_eq : nindirect = 128 := rfl
@[simp] theorem dirsiz_eq : dirsiz = 14 := rfl

end Xv6
