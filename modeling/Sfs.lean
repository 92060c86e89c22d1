import Sfs.Lib.Memory
import Sfs.Lib.Prog
import Sfs.Lib.Run
import Sfs.Lib.DList
import Sfs.Lib.WordLoop
import Sfs.Blockdev
import Sfs.Io
import Sfs.Cache
import Sfs.Filedev
import Sfs.Utils
import Sfs.Strings
import Sfs.Entry
import Sfs.Words
import Sfs.Unit
import Sfs.Alloc
import Sfs.Search
import Sfs.DelList
import Sfs.Ops
import Sfs.Mount
import Sfs.Mksfs
import Sfs.SizeArgs
import Sfs.Volume
import Sfs.Index
import Sfs.Scan
import Sfs.FreeList
import Sfs.ListSpec
import Sfs.ListWalk
import Sfs.ListOps
import Sfs.Read
import Sfs.Remount
import Sfs.Format
import Sfs.Names
import Sfs.Files
import Sfs.Create
import Sfs.Remove
import Sfs.Grow
import Sfs.Write
import Sfs.Rename
import Sfs.Session
import Sfs.FirstFit
import Sfs.Slots
import Sfs.Tree
import Sfs.Owners
import Sfs.Audit
import Sfs.Stored
import Sfs.Readdir
import Sfs.ScanEnds
import Sfs.Watchdog
import Sfs.Coalesced
import Sfs.Extents
import Sfs.Listing
import Sfs.Lookup
import Sfs.EmptyDir
import Sfs.Freed
import Sfs.Shrink
import Sfs.Recorded
import Sfs.Relabel
import Sfs.Fixfs
import Sfs.Directory
import Sfs.Atomic
import Sfs.FuseOps
import Sfs.Callbacks
import Sfs.InodeNumbers
import Sfs.Renaming
import Sfs.InodeRuns
import Sfs.Leftover
import Sfs.StaleCache
import Sfs.OpenFiles
import Sfs.Ancestors
import Sfs.SlotCount
import Sfs.Checksum
import Sfs.TreeView
import Sfs.Refine
import Sfs.CoalescedOps
import Sfs.Durable
import Sfs.Room
import Sfs.Statfs
import Sfs.Mounting
import Sfs.Instants
import Sfs.Cycles
import Sfs.Lock
import Sfs.Failures
import Sfs.UserRuns
