import Xv6.Param
import Xv6.Basic
import Xv6.ByteStore
import Xv6.Allocation
import Xv6.CString
import Xv6.Inode
import Xv6.BlockFs
import Xv6.Directory
import Xv6.Path
import Xv6.UserTable
import Xv6.SysFile
import Xv6.SysUser
import Xv6.Boot
import Xv6.BlockImage
import Xv6.BlockSafety
import Xv6.AccessControl
import Xv6.UidCounter
import Xv6.UserLock
import Xv6.HomeDirectory
import Xv6.Links
import Xv6.BlockFile
import Xv6.LogFootprint
import Xv6.Writes
import Xv6.Log
import Xv6.LogCrash
import Xv6.Ring
import Xv6.DList
import Xv6.Pipe
import Xv6.Console
import Xv6.Umalloc
import Xv6.Proc
import Xv6.Bio
import Xv6.Vm
import Xv6.PageDir
import Xv6.Copyout
import Xv6.PathWalk
import Xv6.Files
import Xv6.Printint
import Xv6.StarPattern
import Xv6.Grep
import Xv6.Syscall
import Xv6.WhileLoop
import Xv6.Mp
import Xv6.LogBuffers
import Xv6.MkfsLayout
import Xv6.FileSize
import Xv6.Passwd
import Xv6.Memmove
import Xv6.Cli
import Xv6.Dealloc
import Xv6.ShLex
import Xv6.ShParse
import Xv6.ShGrammar
import Xv6.ShParsecmd
import Xv6.Tiling
import Xv6.LinkedPath
import Xv6.UmallocHeap
import Xv6.UmallocMalloc
import Xv6.UmallocRun
import Xv6.Descriptors
import Xv6.ShRuncmd
import Xv6.ShRedir
