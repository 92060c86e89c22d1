import Sfs.Search
import Sfs.DelList

/-!
# Mounting and unmounting

`sfs_init` reads the geometry of the volume from the MBR, checks it, and looks
for the head of the list of free extents, which is not stored anywhere.
`sfs_release` records the time in the volume identifier.

`fs_sync` flushes the device; every write of the model is on the device at
once, so it has no counterpart here.
-/

namespace Sfs

open Lib

/-! ## The MBR -/

/-- `offsetof` of the fields of `mbr_t`. -/
def mbrDataAreaSize : Nat := 412
def mbrIndexAreaSize : Nat := 420
def mbrMagicNumber : Nat := 428
def mbrSfsVersion : Nat := 431
def mbrTotalSize : Nat := 432
def mbrReservedSize : Nat := 440
def mbrBlockSize : Nat := 444
def mbrChecksum : Nat := 445

/-- `offsetof(vol_ident_entry, time_stamp)`. -/
def volTimeStamp : Nat := 4

/-- The locals of `sfs_init` that hold fields of the MBR. -/
structure MbrFields where
  dataAreaSize : Nat
  indexAreaSize : Nat
  reservedSize : Nat
  magicNumber : Mem
  sfsV : Nat
  checksum : Nat
  totalSize : Nat
  bSizeP2 : Nat

/-- A number of `size` bytes read from `offset`, or `none` when the read fails. -/
def readNum (offset size : Nat) : SfsM (Option Nat) := do
  let (ret, data) ← readDataM offset (fun _ => 0) size
  if ret = minusOne then pure none else pure (some (getLE data 0 size))

/-- The reads at the start of `sfs_init`, in its order. -/
def readMbr : SfsM (Option MbrFields) := do
  let some dataAreaSize ← readNum mbrDataAreaSize 8 | pure none
  let some indexAreaSize ← readNum mbrIndexAreaSize 8 | pure none
  let some reservedSize ← readNum mbrReservedSize 4 | pure none
  let (ret, magicNumber) ← readDataM mbrMagicNumber (fun _ => 0) 3
  if ret = minusOne then pure none
  else
    let some sfsV ← readNum mbrSfsVersion 1 | pure none
    let some checksum ← readNum mbrChecksum 1 | pure none
    let some totalSize ← readNum mbrTotalSize 8 | pure none
    let some bSizeP2 ← readNum mbrBlockSize 1 | pure none
    pure (some { dataAreaSize, indexAreaSize, reservedSize, magicNumber, sfsV, checksum,
                 totalSize, bSizeP2 })

/-! ## Mounting -/

/-- `search_begin`. -/
def searchBegin : Callback Unit := fun entr _ data =>
  if entr.get .entryType ≠ EntryType.delFileEntry.code then pure (0, entr, data)
  else if entr.get .prevDel = 0 then pure (1, entr, data)
  else pure (0, entr, data)

/-- The end of `sfs_init`, once `entry_start` and `vol_ident` are set. -/
def mountIndex (fs : SfsUnit) : SfsM Int := do
  let some zeroFolder ← readNum (u64 (fs.entryStart + 2 * indexEntrySize)) 1 |
    do setErrno eINVAL; pure (-1)
  if zeroFolder ≠ EntryType.dirEntry.code then
    setErrno eINVAL
    pure (-1)
  else
    let entr ← uninit
    let (delBegin, _, _) ← entryParse entr searchBegin ()
    setUnit { fs with delBegin := delBegin }
    let some zeroName ← readNum (u64 (fs.entryStart + 2 * indexEntrySize + dirKind.name)) 1 |
      do setErrno eINVAL; pure (-1)
    if zeroName ≠ 0 then
      setErrno eINVAL
      pure (-1)
    else
      let some time ← readNum (u64 (volTimeStamp + fs.volIdent)) 8 |
        do setErrno eIO; pure (-1)
      setUnit { fs with delBegin := delBegin, time := time }
      let ret ← writeDataM (u64 (volTimeStamp + fs.volIdent)) (fun _ => 0) 8
      if ret = minusOne then
        setErrno eIO
        pure (-1)
      else
        setErrno 0
        pure 0

/-- `sfs_init`.  `reserved_size` is a `uint32_t`, also after it was multiplied;
a shift by 64 or more is undefined. -/
def sfsInit : SfsM Int := do
  setErrno eIO
  let some mbr ← readMbr | pure (-1)
  setErrno 0
  if mbr.checksum ≠
      calcChecksum mbr.magicNumber mbr.sfsV mbr.totalSize mbr.reservedSize mbr.bSizeP2 then
    setErrno eINVAL
    pure (-1)
  else if 64 ≤ mbr.bSizeP2 then .stuck
  else
    let blockSize := u64 (128 * 2 ^ mbr.bSizeP2)
    let reservedSize := mbr.reservedSize * blockSize % 4294967296
    let dataAreaSize := u64 (mbr.dataAreaSize * blockSize)
    let entryStart := u64 (reservedSize + dataAreaSize)
    let volIdent := sub64 (u64 (entryStart + mbr.indexAreaSize)) indexEntrySize
    let fs ← unit
    let fs := { fs with entryStart := entryStart, volIdent := volIdent }
    setUnit fs
    mountIndex fs

/-- `sfs_release`. -/
def sfsRelease : SfsM Int := do
  update
  let fs ← unit
  let ret ← writeDataM (u64 (fs.volIdent + volTimeStamp)) (putLE (fun _ => 0) 0 8 fs.time) 8
  if ret = minusOne then
    setErrno eIO
    pure (-1)
  else
    setErrno 0
    pure 0

end Sfs
