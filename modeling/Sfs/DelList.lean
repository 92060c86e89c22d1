import Sfs.Alloc

/-!
# The list of free extents

Free blocks of the data area are kept in a doubly linked list of `*free` nodes
in the index, from `fs->del_begin` on.  This file has the list functions of
`fsutils.c` and `statfs.c`: adding an extent, taking blocks off it for a file
that is moved or grown in place, and measuring it.

Every walk counts down a watchdog.  A C loop `while (off != 0 && watchdog--)`
that ends because the watchdog is used up leaves it at its maximum, and the
test `watchdog == 0` after the loop catches a list that ends on the very last
count.
-/

namespace Sfs

open Lib

/-- `get_real_size`: the size rounded up to whole blocks. -/
def realSize (blockSize size : Nat) : Nat :=
  u64 (blockSize * (size / blockSize + if size % blockSize = 0 then 0 else 1))

/-- `get_size`: the bytes of the extent of a node. -/
def extentSize (blockSize : Nat) (entr : Entry) : Nat :=
  u64 (blockSize * u64 (sub64 (entr.get .endBlock) (entr.get .startBlock) + 1))

/-- `1 + (fs->vol_ident - fs->entry_start) / INDEX_ENTRY_SIZE`. -/
def watchdogStart (fs : SfsUnit) : Nat :=
  if fs.entryStart ≤ fs.volIdent then 1 + (fs.volIdent - fs.entryStart) / indexEntrySize
  else u64 (sub64 0 ((fs.entryStart - fs.volIdent) / indexEntrySize) + 1)

/-- `del_next`: the next node of the list, loaded into the entry, or 0, or
`(off_t) -1`. -/
def delNext (entr : Entry) : SfsM (Nat × Entry) := do
  let ret := entr.get .nextDel
  if ret = 0 then pure (0, entr)
  else
    let (r, entr) ← readEntry ret entr
    if r = minusOne then pure (minusOne, entr) else pure (ret, entr)

/-- The steps by which the list functions change one field of a node: read the
entry, set the field, write the entry. -/
def patchEntry (off : Nat) (f : Field) (x : Nat) (entr : Entry) : SfsM Entry := do
  let (_, entr) ← readEntry off entr
  let entr := entr.set f x
  let _ ← writeEntry off entr
  pure entr

/-- The link from `prev`, or from `del_begin`, to `next`. -/
def relinkPrev (prev next : Nat) (entr : Entry) : SfsM Entry :=
  if prev ≠ 0 then patchEntry prev .nextDel next entr
  else do
    setDelBegin next
    pure entr

/-- The link from `next` back to `prev`. -/
def relinkNext (prev next : Nat) (entr : Entry) : SfsM Entry :=
  if next ≠ 0 then patchEntry next .prevDel prev entr else pure entr

/-- `del_file_list_remove`. -/
def delFileListRemove (off : Nat) (entr : Entry) : SfsM Entry := do
  let (_, entr) ← readEntry off entr
  let prev := entr.get .prevDel
  let next := entr.get .nextDel
  let entr ← relinkPrev prev next entr
  let entr ← relinkNext prev next entr
  let (_, entr) ← freeEntry entr off 1
  pure entr

/-! ## Adding an extent -/

/-- Where the walk of `del_file_list_add` ends: `none` for its early return,
else the watchdog, `prev` and `next`. -/
abbrev AddWalk := Option (Nat × Nat × Nat) × Entry

/-- The walk of `del_file_list_add`, by the watchdog.  It looks for the node
whose extent ends before `start` and the node whose extent starts after `stop`. -/
def delFileListAddLoop (start stop : Nat) : Nat → Nat → Nat → Nat → Entry → SfsM AddWalk
  | 0, off, prev, next, entr => pure (some (if off = 0 then 0 else minusOne, prev, next), entr)
  | watchdog + 1, off, prev, next, entr =>
    if off = 0 then pure (some (watchdog + 1, prev, next), entr)
    else if u64 (entr.get .endBlock + 1) = start then do
      -- The `continue`: a failure of `del_next` is not looked at here.
      let (off', entr) ← delNext entr
      delFileListAddLoop start stop watchdog off' off next entr
    else do
      let next := if u64 (entr.get .startBlock + minusOne) = stop then off else next
      let (off, entr) ← delNext entr
      if off = minusOne then pure (none, entr)
      else if prev ≠ 0 ∧ next ≠ 0 then pure (some (watchdog, prev, next), entr)
      else delFileListAddLoop start stop watchdog off prev next entr

/-- `"*free"`. -/
def freeName : Buf := [0x2A, 0x66, 0x72, 0x65, 0x65, 0]

/-- The end of `del_file_list_add` when no neighbour was found: a new node at
the head of the list. -/
def delFileListPush (entr : Entry) (start stop : Nat) : SfsM (Int × Entry) := do
  let (new, entr) ← allocEntry entr 1
  if new = 0 then
    setErrno eNOMEM
    pure (-1, entr)
  else
    let fs ← unit
    let entr := entr.set .entryType EntryType.delFileEntry.code
    let entr := entr.set .contEntries 0
    let entr := entr.set .prevDel 0
    let entr := entr.set .nextDel fs.delBegin
    let entr := entr.set .startBlock start
    let entr := entr.set .endBlock stop
    let entr := strcpy entr fileKind.name freeName
    let _ ← writeEntry new entr
    let entr ← relinkNext new fs.delBegin entr
    setDelBegin new
    pure (0, entr)

/-- The end of `del_file_list_add` when the walk found neighbours. -/
def delFileListMerge (entr : Entry) (start stop prev next : Nat) : SfsM (Int × Entry) :=
  if next ≠ 0 then do
    let (_, entr) ← readEntry next entr
    let entr := entr.set .startBlock start
    if prev ≠ 0 then
      let (_, entr) ← readEntry prev entr
      let prevStart := entr.get .startBlock
      let entr ← delFileListRemove prev entr
      let entr ← patchEntry next .startBlock prevStart entr
      pure (0, entr)
    else
      let _ ← writeEntry next entr
      pure (0, entr)
  else if prev ≠ 0 then do
    let entr ← patchEntry prev .endBlock stop entr
    pure (0, entr)
  else delFileListPush entr start stop

/-- `del_file_list_add`. -/
def delFileListAdd (entr : Entry) (start stop : Nat) : SfsM (Int × Entry) := do
  let fs ← unit
  if start = 0 ∧ stop = 0 then pure (0, entr)
  else
    let (_, entr) ← readEntry fs.delBegin entr
    let (walk, entr) ←
      delFileListAddLoop start stop (watchdogStart fs) fs.delBegin 0 0 entr
    match walk with
    | none => pure (-1, entr)
    | some (watchdog, prev, next) =>
      if watchdog = 0 then pure (-1, entr)
      else delFileListMerge entr start stop prev next

/-! ## Taking blocks off the list -/

/-- The walk of `del_file_list_alloc`, by the watchdog, for the first node of
the largest size: `none` for its early return, else the watchdog, `cur_max` and
`cur_max_entr`. -/
def delFileListAllocLoop (blockSize : Nat) :
    Nat → Nat → Nat → Nat → Entry → SfsM (Option (Nat × Nat × Nat) × Entry)
  | 0, off, curMax, curMaxEntr, entr =>
    pure (some (if off = 0 then 0 else minusOne, curMax, curMaxEntr), entr)
  | watchdog + 1, off, curMax, curMaxEntr, entr =>
    if off = 0 then pure (some (watchdog + 1, curMax, curMaxEntr), entr)
    else do
      let (ret, entr) ← readEntry off entr
      if ret = 0 then pure (none, entr)
      else
        let curSize := extentSize blockSize entr
        let curMaxEntr := if curMax < curSize then off else curMaxEntr
        let curMax := if curMax < curSize then curSize else curMax
        let (off, entr) ← delNext entr
        delFileListAllocLoop blockSize watchdog off curMax curMaxEntr entr

/-- `del_file_list_alloc`: the first block of an extent for `size` bytes, or 0. -/
def delFileListAlloc (entr : Entry) (size : Nat) : SfsM (Nat × Entry) := do
  let fs ← unit
  let bs ← blockSize
  let real := realSize bs size
  let (walk, entr) ← delFileListAllocLoop bs (watchdogStart fs) fs.delBegin 0 fs.delBegin entr
  match walk with
  | none => pure (0, entr)
  | some (watchdog, curMax, curMaxEntr) =>
    if watchdog = 0 then pure (0, entr)
    else if curMax < real then
      setErrno eNOSPC
      pure (0, entr)
    else if real = curMax then
      let (_, entr) ← readEntry curMaxEntr entr
      let ret := entr.get .startBlock
      let entr ← delFileListRemove curMaxEntr entr
      pure (ret, entr)
    else
      let (_, entr) ← readEntry curMaxEntr entr
      let ret := entr.get .startBlock
      let entr := entr.set .startBlock (u64 (ret + real / bs))
      let _ ← writeEntry curMaxEntr entr
      pure (ret, entr)

/-- The walk of `try_expand`, by the watchdog, for the node that starts after
the file and has enough blocks: `none` for its early return, else the watchdog
and the node. -/
def tryExpandLoop (blockSize stop delta : Nat) :
    Nat → Nat → Entry → SfsM (Option (Nat × Nat) × Entry)
  | 0, off, entr => pure (some (if off = 0 then 0 else minusOne, off), entr)
  | watchdog + 1, off, entr =>
    if off = 0 then pure (some (watchdog + 1, 0), entr)
    else do
      let (ret, entr) ← readEntry off entr
      if ret = 0 then pure (none, entr)
      else if entr.get .startBlock = u64 (stop + 1) ∧ delta ≤ extentSize blockSize entr then
        pure (some (watchdog, off), entr)
      else
        let (off, entr) ← delNext entr
        tryExpandLoop blockSize stop delta watchdog off entr

/-- `try_expand`: 0 when the blocks after the file were taken for it.
`delta_block` is a number of bytes. -/
def tryExpand (off newSize : Nat) (entr : Entry) : SfsM (Int × Entry) := do
  let fs ← unit
  let bs ← blockSize
  let (_, entr) ← readEntry off entr
  let stop := entr.get .endBlock
  let delta := sub64 (realSize bs newSize) (realSize bs (entr.get .size))
  let (walk, entr) ← tryExpandLoop bs stop delta (watchdogStart fs) fs.delBegin entr
  match walk with
  | none => pure (-1, entr)
  | some (watchdog, off) =>
    if watchdog = 0 then pure (-1, entr)
    else if off = 0 then pure (1, entr)
    else if extentSize bs entr = delta then
      let entr ← delFileListRemove off entr
      pure (0, entr)
    else if delta < extentSize bs entr then
      let entr := entr.set .startBlock (u64 (entr.get .startBlock + delta / bs))
      let _ ← writeEntry off entr
      pure (0, entr)
    else pure (0, entr)

/-- `file_shrink`.  `delta_block`, a number of bytes, is taken for a number of
blocks. -/
def fileShrink (off newSize : Nat) (entr : Entry) : SfsM (Int × Entry) := do
  let bs ← blockSize
  let (_, entr) ← readEntry off entr
  let stop := entr.get .endBlock
  let delta := sub64 (realSize bs (entr.get .size)) (realSize bs newSize)
  if delta = 0 then pure (0, entr)
  else
    let (_, entr) ← delFileListAdd entr (u64 (sub64 stop delta + 1)) stop
    pure (0, entr)

/-! ## Measuring the list -/

/-- The walk of `scan_del_file_list`, by the watchdog: `none` for its error
returns, else the watchdog and the sum of the sizes. -/
def scanDelFileListLoop (blockSize : Nat) :
    Nat → Nat → Nat → Entry → SfsM (Option (Nat × Nat) × Entry)
  | 0, off, curSize, entr => pure (some (if off = 0 then 0 else minusOne, curSize), entr)
  | watchdog + 1, off, curSize, entr =>
    if off = 0 then pure (some (watchdog + 1, curSize), entr)
    else do
      let (ret, entr) ← readEntry off entr
      if ret = 0 then
        setErrno eIO
        pure (none, entr)
      else
        let curSize := u64 (curSize + extentSize blockSize entr)
        let (off, entr) ← delNext entr
        if off = minusOne then
          setErrno eFAULT
          pure (none, entr)
        else scanDelFileListLoop blockSize watchdog off curSize entr

/-- `scan_del_file_list`: the bytes of the free extents, or -1. -/
def scanDelFileList (entr : Entry) : SfsM (Nat × Entry) := do
  let fs ← unit
  let bs ← blockSize
  let (walk, entr) ← scanDelFileListLoop bs (watchdogStart fs) fs.delBegin 0 entr
  match walk with
  | none => pure (minusOne, entr)
  | some (watchdog, curSize) =>
    if watchdog = 0 then
      setErrno eTIMEDOUT
      pure (minusOne, entr)
    else
      setErrno 0
      pure (curSize, entr)

/-- `count_space`: adds the size of the extent of a live file. -/
def countSpace : Callback Nat := fun entr _ size =>
  if entr.get .entryType ≠ EntryType.fileEntry.code then pure (0, entr, size)
  else do
    let bs ← blockSize
    pure (0, entr, u64 (size + extentSize bs entr))

/-- `scan_used_space`: the bytes of the extents of the live files. -/
def scanUsedSpace (entr : Entry) : SfsM (Nat × Entry) := do
  let (_, entr, size) ← entryParse entr countSpace 0
  pure (size, entr)

end Sfs
