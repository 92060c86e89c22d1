import Sfs.Mount

/-!
# Formatting

`mksfs`: the options its `main` computes from the size of the image and the
arguments, and `image_create`, which writes the MBR and the index of an empty
volume.
-/

namespace Sfs

open Lib

/-- `struct sfs_options`, without the file name. -/
structure SfsOptions where
  timeStamp : Nat
  dataSize : Nat
  indexSize : Nat
  totalBlock : Nat
  reservedSize : Nat
  blockSize : Nat
  label : Buf

/-! ## The options -/

/-- `MBR_SIZE`. -/
abbrev mbrSize : Nat := 512

/-- `INDEX_MIN_SIZE`. -/
abbrev indexMinSize : Nat := 128

/-- What `sscanf(parameter, "%lu%c%c", ..)` finds: how many items it converted,
the number as an `ssize_t`, and the two characters after it. -/
structure Scanned where
  retCode : Int
  number : Int
  lastSym : UInt8
  errC : UInt8

/-- A value of type `ssize_t`. -/
def wrapSigned (n : Int) : Int :=
  (n + 9223372036854775808) % 18446744073709551616 - 9223372036854775808

/-- A signed value as a `size_t`. -/
def toSizeT (n : Int) : Nat := (n % 18446744073709551616).toNat

/-- `convert_size`; `none` for `EINVAL`. -/
def convertSize (parameter : Scanned) (fileS : Nat) : Option Nat :=
  if parameter.errC ≠ 0 ∨ parameter.retCode = 0 ∨ parameter.number < 0 then none
  else if parameter.lastSym = 0x25 then
    if fileS ≠ 0 then some (toSizeT ((wrapSigned (fileS * parameter.number)).tdiv 100)) else none
  else if parameter.lastSym = 0x42 ∨ parameter.lastSym = 0x62 ∨ parameter.lastSym = 0 then
    some (toSizeT parameter.number)
  else if parameter.lastSym = 0x4B ∨ parameter.lastSym = 0x6B then
    some (toSizeT (1024 * parameter.number))
  else if parameter.lastSym = 0x4D ∨ parameter.lastSym = 0x6D then
    some (toSizeT (1024 * 1024 * parameter.number))
  else if parameter.lastSym = 0x47 ∨ parameter.lastSym = 0x67 then
    some (toSizeT (1024 * 1024 * 1024 * parameter.number))
  else none

/-- The block size of `main`: a power of two from 256 on, 512 by default. -/
def mksfsBlockSize : Option Scanned → Option Nat
  | none => some 512
  | some blockSizeS =>
    match convertSize blockSizeS 0 with
    | none => none
    | some blockSize =>
      -- The loop doubles `divisor` from 256 until it matches or turns negative.
      if blockSize ≤ 128 ∨ ¬ ∃ k, k < 55 ∧ blockSize = 256 * 2 ^ k then none else some blockSize

/-- The index size of `main` before it is aligned.  The default goes through a
`double`, which is exact up to 2 ^ 53 and keeps what is above 10M above it. -/
def mksfsIndexSize (fileSize : Nat) : Option Scanned → Option Nat
  | none =>
    let indexSize := u64 (5 * fileSize) / 100
    if 10 * 1024 * 1024 < indexSize then some (10 * 1024 * 1024) else some indexSize
  | some indexSizeS =>
    match convertSize indexSizeS fileSize with
    | none => none
    | some indexSize => if indexSize = 0 then none else some indexSize

/-- The check of a label character, a signed `char`. -/
def isLabelChar (c : UInt8) : Bool :=
  !(c.toInt8.toInt < 0x20 || c == 0x22 || c == 0x2A || c == 0x3A || c == 0x3C || c == 0x3E ||
    c == 0x3F || c == 0x5C || c == 0x7F)

/-- `rsrvd_size` of `main`: the MBR fills whole blocks. -/
def mksfsReserved (blockSize : Nat) : Nat := if blockSize ≤ mbrSize then mbrSize else blockSize

/-- The alignment of the index size to whole blocks. -/
def mksfsAlign (blockSize indexSize : Nat) : Nat :=
  if indexSize % blockSize ≠ 0 then u64 (indexSize + (blockSize - indexSize % blockSize))
  else indexSize

/-- `index_sz_perblk`. -/
def mksfsIndexBlocks (blockSize indexSize : Nat) : Nat :=
  if indexSize % blockSize = 0 then indexSize / blockSize else indexSize / blockSize + 1

/-- The checks and computations of `main`; `none` when it exits with an error. -/
def mksfsOptions (fileSize : Nat) (blockSizeS indexSizeS : Option Scanned) (label : Buf)
    (now : Nat) : Option SfsOptions :=
  if fileSize < mbrSize + indexMinSize then none
  else
    match mksfsBlockSize blockSizeS with
    | none => none
    | some blockSize =>
      if fileSize < blockSize then none
      else if fileSize % blockSize ≠ 0 then none
      else
        let rsrvdSize := mksfsReserved blockSize
        match mksfsIndexSize fileSize indexSizeS with
        | none => none
        | some indexSize =>
          let indexSize := mksfsAlign blockSize indexSize
          if sub64 fileSize rsrvdSize < indexSize then none
          else if indexSize < indexMinSize then none
          else if 52 ≤ strlen label then none
          else if ((cstr label).all isLabelChar) = false then none
          else
            let totalBlocks := fileSize / blockSize
            let rsrvd := rsrvdSize / blockSize
            let indexSzPerblk := mksfsIndexBlocks blockSize indexSize
            some {
              timeStamp := now
              dataSize := sub64 (sub64 totalBlocks rsrvd) indexSzPerblk
              indexSize := indexSize
              totalBlock := totalBlocks
              reservedSize := rsrvd
              blockSize := Nat.log2 blockSize - 7
              label := label }

/-! ## The image -/

/-- `mbr_block`, with its checksum still 0. -/
def mbrBlock (opts : SfsOptions) : Mem :=
  let m : Mem := fun _ => 0
  let m := putLE m 404 8 opts.timeStamp
  let m := putLE m mbrDataAreaSize 8 opts.dataSize
  let m := putLE m mbrIndexAreaSize 8 opts.indexSize
  let m := putLE m mbrMagicNumber 1 0x53
  let m := putLE m (mbrMagicNumber + 1) 1 0x46
  let m := putLE m (mbrMagicNumber + 2) 1 0x53
  let m := putLE m mbrTotalSize 8 opts.totalBlock
  let m := putLE m mbrReservedSize 4 opts.reservedSize
  putLE m mbrBlockSize 1 opts.blockSize

/-- The sum of the `n` bytes from `p` on, as a `uint8_t`. -/
def byteSum (m : Mem) (p : Nat) : Nat → Nat
  | 0 => 0
  | n + 1 => ((m p).toNat + byteSum m (p + 1) n) % 256

/-- An entry of zeros with its type. -/
def emptyEntry (type : EntryType) : Entry := Entry.set (fun _ => 0) .entryType type.code

/-- `vol_entry`. -/
def volEntry (opts : SfsOptions) : Entry :=
  memcpy (putLE (emptyEntry .volIdent) volTimeStamp 8 opts.timeStamp) 12 opts.label
    (strlen opts.label)

/-- `del_entry`.  The reserved size went through a `uint32_t`. -/
def freeEntryOf (opts : SfsOptions) : Entry :=
  let entr := emptyEntry .delFileEntry
  let entr := entr.set .startBlock (opts.reservedSize % 4294967296)
  let entr := entr.set .endBlock (u64 (opts.reservedSize % 4294967296 + opts.dataSize + minusOne))
  strncpy entr fileKind.name freeName 29

/-- The loop that fills the rest of the index with unused entries. -/
def fillUnused (stop : Nat) : Nat → Nat → SfsM Int
  | 0, _ => .stuck
  | fuel + 1, i =>
    if i < stop then do
      let ret ← writeDataM i (emptyEntry .unusedEntry) indexEntrySize
      if ret = minusOne then pure (-1) else fillUnused stop fuel (i + indexEntrySize)
    else pure 0

/-- `image_create` on the device it opens. -/
def imageCreate (opts : SfsOptions) : SfsM Int := do
  let blockSize := 2 ^ (opts.blockSize + 7)
  let gOffsetStart := sub64 (u64 (opts.totalBlock * blockSize)) opts.indexSize
  let gOffsetVol := sub64 (u64 (opts.totalBlock * blockSize)) indexEntrySize
  let mbr := mbrBlock opts
  let mbr := putLE mbr mbrChecksum 1 (byteSum mbr mbrMagicNumber 17)
  let ret ← writeDataM 0 mbr mbrSize
  if ret = minusOne then pure (-1)
  else
    let ret ← writeDataM gOffsetVol (volEntry opts) indexEntrySize
    if ret = minusOne then pure (-1)
    else
      let ret ← writeDataM gOffsetStart (emptyEntry .startEntry) indexEntrySize
      if ret = minusOne then pure (-1)
      else
        let ret ← writeDataM (gOffsetStart + 64) (freeEntryOf opts) indexEntrySize
        if ret = minusOne then pure (-1)
        else
          let ret ← writeDataM (gOffsetStart + 128) (emptyEntry .dirEntry) indexEntrySize
          if ret = minusOne then pure (-1)
          else
            fillUnused gOffsetVol ((gOffsetVol - gOffsetStart) / indexEntrySize + 1)
              (gOffsetStart + 192)

/-- `filedev_create` and `filedev_init` over a file that works. -/
def openDevice (blockSize size : Nat) (file : Mem) (buf : Mem) : BlockDev where
  size := size
  blockSize := blockSize
  data := file
  buf := buf
  bufNum := none
  faults := fun _ => none
  accesses := 0

end Sfs
