import Sfs.Search
import Sfs.DelList

/-!
# The operations

The operations of the file system, one C file each in the source: `sfs_open`,
`sfs_creat`, `sfs_mkdir`, `sfs_rmdir`, `sfs_unlink`, `sfs_delete`, `sfs_rename`,
`sfs_read`, `sfs_write` and `sfs_truncate`.

`check_dirs` cuts and restores the caller's path in place, so the operations
that call it return the path as they leave it next to their result.
-/

namespace Sfs

open Lib

/-! ## Writing names -/

/-- The name in the head: the whole of it by `strcpy` when it has `n = 1`
slots, else its first part by `memcpy`.  A `strcpy` past the end of the name
field is undefined. -/
def putName (kind : NameKind) (entr : Entry) (path : Buf) (n : Nat) : SfsM Entry :=
  if n = 1 then
    if kind.first < strlen path + 1 then .stuck else pure (strcpy entr kind.name path)
  else pure (memcpy entr kind.name path kind.first)

/-- The loop that writes `n` continuation slots from `start` on. -/
def writeCont : Entry → Buf → Nat → Nat → SfsM Entry
  | entr, _, _, 0 => pure entr
  | entr, path, start, n + 1 => do
    let entr := strncpy entr 0 path indexEntrySize
    let _ ← writeEntry start entr
    writeCont entr (path.drop indexEntrySize) (start + indexEntrySize) n

/-! ## Paths -/

/-- `sfs_open`. -/
def sfsOpen (filepath : Buf) : SfsM Nat := do
  let entr ← uninit
  let (file, entr) ← searchFile filepath entr
  if file ≠ 0 then pure file
  else
    let (file, _) ← searchDir filepath entr
    if file = 0 then
      setErrno eNOENT
      pure file
    else pure file

/-- The end of `sfs_creat`, from `alloc_entry` on. -/
def creatEntry (filepath : Buf) (entr : Entry) : SfsM Int := do
  let n := countEntry firstFileNameSize (strlen filepath + 1)
  let (start, entr) ← allocEntry entr.zero n
  if start = 0 then
    setErrno eNOSPC
    pure (-1)
  else
    let entr ← putName fileKind entr filepath n
    let now ← getTime
    let entr := entr.set .timeStamp now
    let entr := entr.set .entryType EntryType.fileEntry.code
    let entr := entr.set .contEntries (n - 1)
    let entr := entr.set .startBlock 0
    let entr := entr.set .endBlock 0
    let entr := entr.set .size 0
    let _ ← writeEntry start entr
    let _ ← writeCont entr (filepath.drop firstFileNameSize) (start + indexEntrySize) (n - 1)
    update
    setErrno 0
    pure 0

/-- `sfs_creat`. -/
def sfsCreat (filepath : Buf) : SfsM (Int × Buf) := do
  let entr ← uninit
  if isCorrectFilepath filepath = false then
    setErrno eINVAL
    pure (-1, filepath)
  else
    let (ret, filepath, entr) ← checkDirs filepath entr
    if ret ≠ 0 then
      setErrno eEXIST
      pure (-1, filepath)
    else
      let (start, entr) ← searchDir filepath entr
      if start ≠ 0 then
        setErrno eEXIST
        pure (-1, filepath)
      else
        let (start, entr) ← searchFile filepath entr
        if start ≠ 0 then
          setErrno eEXIST
          pure (-1, filepath)
        else
          let ret ← creatEntry filepath entr
          pure (ret, filepath)

/-- The end of `sfs_mkdir`, from `alloc_entry` on. -/
def mkdirEntry (dirpath : Buf) (entr : Entry) : SfsM Int := do
  let n := countEntry firstDirNameSize (strlen dirpath + 1)
  let (start, entr) ← allocEntry entr.zero n
  if start = 0 then
    setErrno eNOSPC
    pure (-1)
  else
    let entr ← putName dirKind entr dirpath n
    let now ← getTime
    let entr := entr.set .timeStamp now
    let entr := entr.set .entryType EntryType.dirEntry.code
    let entr := entr.set .contEntries (n - 1)
    let _ ← writeEntry start entr
    let _ ← writeCont entr (dirpath.drop firstDirNameSize) (start + indexEntrySize) (n - 1)
    update
    setErrno 0
    pure 0

/-- `sfs_mkdir`, which does not look for a file of the same path. -/
def sfsMkdir (dirpath : Buf) : SfsM (Int × Buf) := do
  let entr ← uninit
  if isCorrectDirpath dirpath = false then
    setErrno eINVAL
    pure (-1, dirpath)
  else
    let (ret, dirpath, entr) ← checkDirs dirpath entr
    if ret ≠ 0 then
      setErrno eEXIST
      pure (-1, dirpath)
    else
      let (start, entr) ← searchDir dirpath entr
      if start ≠ 0 then
        setErrno eEXIST
        pure (-1, dirpath)
      else
        let ret ← mkdirEntry dirpath entr
        pure (ret, dirpath)

/-- `sfs_rmdir`. -/
def sfsRmdir (dirpath : Buf) : SfsM Int := do
  let entr ← uninit
  let fs ← unit
  if isCorrectFilepath dirpath = false then
    setErrno eINVAL
    pure (-1)
  else
    let (start, entr) ← searchDir dirpath entr
    if start = 0 then
      setErrno eINVAL
      pure (-1)
    else
      let (off, entr) ← searchFileMask dirpath entr fs.entryStart
      if off ≠ start then
        setErrno eNOTEMPTY
        pure (-1)
      else
        let (off, entr) ← searchFileMask dirpath entr (u64 (off + indexEntrySize))
        if off ≠ 0 then
          setErrno eNOTEMPTY
          pure (-1)
        else
          let (start, entr) ← searchDir dirpath entr
          let n := entr.get .contEntries
          let entr := entr.set .contEntries 0
          let entr := entr.set .entryType EntryType.unusedEntry.code
          let _ ← writeEntry start entr
          let _ ← freeEntry entr (start + indexEntrySize) n
          update
          pure 0

/-- `sfs_unlink`: the offset of the file, now marked as deleted, or 0. -/
def sfsUnlink (filepath : Buf) : SfsM Nat := do
  let entr ← uninit
  if isCorrectFilepath filepath = false then
    setErrno eINVAL
    pure 0
  else
    let (start, entr) ← searchFile filepath entr
    if start = 0 then
      setErrno eNOENT
      pure 0
    else
      let entr := entr.set .entryType EntryType.delFileEntry.code
      let _ ← writeEntry start entr
      update
      setErrno 0
      pure start

/-- `sfs_delete`: frees the slots and the blocks of a file. -/
def sfsDelete (file : Nat) : SfsM Int := do
  let entr ← uninit
  let (ret, entr) ← readEntry file entr
  if ret = minusOne then
    setErrno eIO
    pure 0
  else
    let n := entr.get .contEntries
    let startBlock := entr.get .startBlock
    let endBlock := entr.get .endBlock
    let entr := entr.set .entryType EntryType.unusedEntry.code
    let _ ← writeEntry file entr
    let (_, entr) ← freeEntry entr (file + indexEntrySize) n
    let _ ← delFileListAdd entr startBlock endBlock
    update
    setErrno 0
    pure 0

/-- The end of `sfs_rename`, from the removal of the old entry on. -/
def renameEntry (file newOff n : Nat) (newpath : Buf) (entr : Entry) : SfsM Nat := do
  let time := entr.get .timeStamp
  let size := entr.get .size
  let start := entr.get .startBlock
  let stop := entr.get .endBlock
  let ret ← sfsDelete file
  if ret = -1 then pure 0
  else
    let (ret, entr) ← readEntry newOff entr
    if ret = minusOne then
      setErrno eIO
      pure 0
    else
      let entr := entr.set .timeStamp time
      let entr := entr.set .size size
      let entr := entr.set .startBlock start
      let entr := entr.set .endBlock stop
      let entr := entr.set .entryType EntryType.fileEntry.code
      let entr := entr.set .contEntries (n - 1)
      let entr ← putName fileKind entr newpath n
      let _ ← writeEntry newOff entr
      let _ ← writeCont entr (newpath.drop firstFileNameSize) (newOff + indexEntrySize) (n - 1)
      update
      setErrno 0
      pure newOff

/-- `sfs_rename`: the offset of the entry under its new name, or 0. -/
def sfsRename (file : Nat) (newpath : Buf) : SfsM (Nat × Buf) := do
  let entr ← uninit
  if isCorrectFilepath newpath = false then
    setErrno eINVAL
    pure (0, newpath)
  else
    let (ret, newpath, entr) ← checkDirs newpath entr
    if ret ≠ 0 then
      setErrno eEXIST
      pure (0, newpath)
    else
      let (newOff, entr) ← searchDir newpath entr
      if newOff ≠ 0 then
        setErrno eEXIST
        pure (0, newpath)
      else
        let (newOff, entr) ← searchFile newpath entr
        if newOff ≠ 0 then
          setErrno eEXIST
          pure (0, newpath)
        else
          let n := countEntry firstFileNameSize (strlen newpath + 1)
          let (newOff, entr) ← allocEntry entr.zero n
          if newOff = 0 then
            setErrno eNOSPC
            pure (0, newpath)
          else
            let (ret, entr) ← readEntry file entr
            if ret = minusOne then
              setErrno eIO
              pure (0, newpath)
            else if entr.get .entryType ≠ EntryType.fileEntry.code then
              setErrno eINVAL
              pure (0, newpath)
            else
              let ret ← renameEntry file newOff n newpath entr
              pure (ret, newpath)

/-! ## Contents -/

/-- `sfs_read`: the size it returns, and the caller's memory. -/
def sfsRead (file : Nat) (data : Mem) (size off : Nat) : SfsM (Nat × Mem) := do
  let entr ← uninit
  let (ret, entr) ← readEntry file entr
  if ret = minusOne then
    setErrno eIO
    pure (minusOne, data)
  else
    let fileSize := entr.get .size
    let fileStart := entr.get .startBlock
    if fileSize < off then
      setErrno eINVAL
      pure (minusOne, data)
    else
      let readSize := if fileSize < u64 (off + size) then fileSize - off else size
      update
      setErrno 0
      let bs ← blockSize
      readDataM (u64 (fileStart * bs + off)) data readSize

/-- The last block of an extent from `start` on for `size` bytes. -/
def endBlockFor (blockSize start size : Nat) : Nat :=
  u64 (start + realSize blockSize size / blockSize + minusOne)

/-- The attempt to grow a file in place, which only a file with blocks makes. -/
def expandFile (file oldStart newSize : Nat) (entr : Entry) : SfsM (Int × Entry) :=
  if oldStart ≠ 0 then tryExpand file newSize entr else pure (1, entr)

/-- The growth of a file to `newSize`, shared by `sfs_write` and
`sfs_truncate`: in place when the blocks after it are free, else to a new
extent, to which the old one is copied after it was put on the list.  Returns
the new extent, or the value of `sfs_errno` for the failure. -/
def growFile (copyErrno file oldStart oldEnd newSize : Nat) (entr : Entry) :
    SfsM (Except Nat (Nat × Nat) × Entry) := do
  let bs ← blockSize
  let (expanded, entr) ← expandFile file oldStart newSize entr
  if expanded = 0 then pure (.ok (oldStart, endBlockFor bs oldStart newSize), entr)
  else
    let (newStart, entr) ← delFileListAlloc entr newSize
    if newStart = 0 then pure (.error eNOSPC, entr)
    else if oldStart ≠ 0 then
      let (_, entr) ← delFileListAdd entr oldStart oldEnd
      let ret ← copyBlockM oldStart newStart (u64 (sub64 oldEnd oldStart + 1))
      if ret ≠ 0 then pure (.error copyErrno, entr)
      else pure (.ok (newStart, endBlockFor bs newStart newSize), entr)
    else pure (.ok (newStart, endBlockFor bs newStart newSize), entr)

/-- The extent of a file that is to hold `newSize` bytes. -/
def extentFor (copyErrno file oldSize oldStart oldEnd newSize : Nat) (entr : Entry) :
    SfsM (Except Nat (Nat × Nat) × Entry) := do
  let bs ← blockSize
  if realSize bs oldSize < realSize bs newSize then
    growFile copyErrno file oldStart oldEnd newSize entr
  else pure (.ok (oldStart, oldEnd), entr)

/-- The stores under the label `END` of `sfs_write` and `sfs_truncate`. -/
def setExtent (file newStart newEnd newSize : Nat) (entr : Entry) : SfsM Unit := do
  let (_, entr) ← readEntry file entr
  let entr := entr.set .startBlock newStart
  let entr := entr.set .endBlock newEnd
  let entr := entr.set .size newSize
  let now ← getTime
  let entr := entr.set .timeStamp now
  let _ ← writeEntry file entr
  update
  setErrno 0

/-- `sfs_write`. -/
def sfsWrite (file : Nat) (data : Mem) (size off : Nat) : SfsM Nat := do
  let entr ← uninit
  let (ret, entr) ← readEntry file entr
  if ret = minusOne then
    setErrno eIO
    pure minusOne
  else
    let bs ← blockSize
    let oldSize := entr.get .size
    let oldStart := entr.get .startBlock
    let oldEnd := entr.get .endBlock
    let newSize := if oldSize < u64 (off + size) then u64 (off + size) else oldSize
    let (grown, entr) ← extentFor eIO file oldSize oldStart oldEnd newSize entr
    match grown with
    | .error code =>
      setErrno code
      pure minusOne
    | .ok (newStart, newEnd) =>
      setExtent file newStart newEnd newSize entr
      writeDataM (u64 (newStart * bs + off)) data size

/-- `sfs_truncate`. -/
def sfsTruncate (file newSize : Nat) : SfsM Int := do
  let entr ← uninit
  let (ret, entr) ← readEntry file entr
  if ret = minusOne then
    setErrno eIO
    pure 0
  else
    let bs ← blockSize
    let oldSize := entr.get .size
    let oldStart := entr.get .startBlock
    let oldEnd := entr.get .endBlock
    if newSize = 0 then
      let (_, entr) ← delFileListAdd entr oldStart oldEnd
      setExtent file 0 0 newSize entr
      pure 0
    else if realSize bs newSize < realSize bs oldSize then
      let (ret, entr) ← fileShrink file newSize entr
      if ret ≠ 0 then pure (-1)
      else
        setExtent file oldStart (endBlockFor bs oldStart newSize) newSize entr
        pure 0
    else
      let (grown, entr) ← extentFor eNOSPC file oldSize oldStart oldEnd newSize entr
      match grown with
      | .error code =>
        setErrno code
        pure (-1)
      | .ok (newStart, newEnd) =>
        setExtent file newStart newEnd newSize entr
        pure 0

end Sfs
