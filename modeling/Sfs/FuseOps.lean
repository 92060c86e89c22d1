import Sfs.Inode
import Sfs.Ops
import Sfs.Readdir

/-!
# The callbacks

The callbacks of `main.c` that keep the inode map: `getattr`, `open`, `opendir`,
`readdir`, `mknod`, `mkdir`, `unlink`, `rmdir`, `release`, `rename`, `read`,
`write`, `truncate` and `ftruncate`.

Each is given the path behind its leading slash, as the callbacks see it after
`path++`, and returns what it returns to FUSE.
-/

namespace Sfs

open Lib

/-- `sfs_description` and `inode_map`, with what lies outside the program: whether
each `realloc` succeeds, and what an uninitialised `sfs_attr` holds. -/
structure Fuse where
  sys : Sys
  map : InodeMap
  memory : Nat → Bool
  tries : Nat
  attr : SfsAttr

/-- A callback; `none` when it does something undefined or never returns. -/
abbrev FuseM := StateT Fuse Option

namespace Fuse

/-! ## Access to the state -/

/-- A call of a function of the file system. -/
def call {α : Type} (p : SfsM α) : FuseM α := fun s =>
  (s.sys.exec p).map fun x => (x.1, { s with sys := x.2 })

/-- `-sfs_errno`. -/
def negErrno : FuseM Int := fun s => some (-s.sys.errno, s)

/-- A function of the inode map. -/
def ask {α : Type} (f : InodeMap → α) : FuseM α := fun s => some (f s.map, s)

/-- An assignment in the inode map. -/
def change (f : InodeMap → InodeMap) : FuseM Unit := fun s => some ((), { s with map := f s.map })

/-- `pino_add`. -/
def pinoAdd (pino : Nat) : FuseM Nat := fun s =>
  let (vino, map) := s.map.pinoAdd (s.memory s.tries) pino
  some (vino, { s with map := map, tries := s.tries + 1 })

/-- The inode of an offset, which `get_vino` finds or `pino_add` makes. -/
def vinoFor (pino : Nat) : FuseM Nat := do
  let vino ← ask fun m => m.getVino pino
  if vino = 0 then pinoAdd pino else pure vino

/-- The value that an `int` keeps of a size. -/
def cInt (n : Nat) : Int := (BitVec.ofNat 32 n).toInt

/-- What an uninitialised `sfs_attr` holds. -/
def uninitAttr : FuseM SfsAttr := fun s => some (s.attr, s)

end Fuse

abbrev eNOTDIR : Nat := 20

abbrev eNOTSUP : Nat := 95

/-- `PATH_MAX`. -/
def pathMax : Nat := 4096

/-- `new_path`. -/
def newPath (path : Buf) : Buf :=
  let p := (cstr path).take (pathMax - 1)
  p ++ List.replicate (pathMax - p.length) 0

open Fuse

/-! ## Attributes and handles -/

/-- `fuse_sfs_getattr`, with `st_ino` and what it takes the rest of `stbuf` from. -/
def fuseSfsGetattr (path : Buf) : FuseM (Int × Nat × SfsAttr) := do
  let attr ← uninitAttr
  let pino ← call (sfsOpen path)
  if pino = 0 then
    let err ← negErrno
    pure (err, 0, attr)
  else
    let vino ← vinoFor pino
    if vino = 0 then pure (-eNOMEM, 0, attr)
    else
      let (ret, attr) ← call (sfsGetattr pino attr)
      if ret ≠ 0 then
        let err ← negErrno
        pure (err, 0, attr)
      else pure (0, vino, attr)

/-- `fuse_sfs_open`, with `fi->fh`. -/
def fuseSfsOpen (path : Buf) : FuseM (Int × Nat) := do
  let pino ← call (sfsOpen path)
  if pino = 0 then
    let err ← negErrno
    pure (err, 0)
  else
    let vino ← vinoFor pino
    if vino = 0 then pure (-eNOMEM, 0)
    else
      change fun m => m.setOpenbit vino
      pure (0, vino)

/-- The removal of the file of an inode, shared by `fuse_sfs_unlink` and
`fuse_sfs_release`: 0, or -1 for a failure. -/
def deleteVino (vino pino : Nat) : FuseM Int := do
  let ret ← call (sfsDelete pino)
  if ret = -1 then pure (-1)
  else
    change fun m => m.setPino vino 0
    pure 0

/-- `fuse_sfs_release` of a handle. -/
def fuseSfsRelease (vino : Nat) : FuseM Int := do
  let dirty ← ask fun m => m.getDirty vino
  if dirty = 1 then
    let pino ← ask fun m => m.getPino vino
    let ret ← deleteVino vino pino
    if ret = -1 then negErrno
    else
      change fun m => m.clrOpenbit vino
      pure 0
  else
    change fun m => m.clrOpenbit vino
    pure 0

/-- `fuse_sfs_opendir`, with `fi->fh`. -/
def fuseSfsOpendir (path : Buf) : FuseM (Int × Nat) := do
  let attr ← uninitAttr
  let pino ← call (sfsOpen path)
  if pino = 0 then
    let err ← negErrno
    pure (err, 0)
  else
    let (ret, attr) ← call (sfsGetattr pino attr)
    if ret ≠ 0 then
      let err ← negErrno
      pure (err, 0)
    else if attr.type = .file then pure (-eNOTDIR, 0)
    else
      let vino ← vinoFor pino
      if vino = 0 then pure (-eNOMEM, 0) else pure (0, vino)

/-! ## Directories -/

/-- What the `filler` is given for an entry. -/
structure Dirent where
  name : Buf
  ino : Nat
  type : IterType
  size : Nat
  time : Nat
  deriving DecidableEq

/-- The loop of `fuse_sfs_readdir`, where `full k` says that the `filler` takes no
more after its call `k`. -/
def fuseReaddirLoop (len a : Nat) (full : Nat → Bool) :
    Nat → Nat → DirIter → Buf → FuseM (Int × List Dirent)
  | 0, _, _, _ => fun _ => none
  | fuel + 1, k, iter, name => do
    let (ret, iter, filename) ← call (sfsReaddir iter name)
    if ret ≠ 0 then pure (-1, [])
    else
      match filename with
      | none => pure (0, [])
      | some name => do
        let vino ← vinoFor iter.curOff
        if vino = 0 then pure (-eNOMEM, [])
        else
          let item := ⟨cstr (name.drop (len + a)), vino, iter.type, iter.size, iter.time⟩
          if full k then pure (0, [item])
          else
            let name ← call (putChar name len 0)
            let (ret, items) ← fuseReaddirLoop len a full fuel (k + 1) iter name
            pure (ret, item :: items)

/-- `fuse_sfs_readdir`. -/
def fuseSfsReaddir (full : Nat → Bool) (path : Buf) : FuseM (Int × List Dirent) := do
  let cpath := newPath path
  let len := strlen cpath
  let a := if len = 0 then 0 else 1
  let fs ← call unit
  fuseReaddirLoop len a full (scanFuel fs.entryStart + 1) 0 ⟨pathMax, 0, 0, 0, .file⟩ cpath

/-- `fuse_sfs_mkdir`. -/
def fuseSfsMkdir (path : Buf) : FuseM Int := do
  let (ret, _) ← call (sfsMkdir (newPath path))
  if ret = -1 then negErrno else pure 0

/-- `fuse_sfs_rmdir`. -/
def fuseSfsRmdir (path : Buf) : FuseM Int := do
  let ret ← call (sfsRmdir path)
  if ret = -1 then pure (-1) else pure 0

/-! ## Files -/

/-- `S_IFREG`. -/
def sIFREG : Nat := 0o100000

/-- `S_IFDIR`. -/
def sIFDIR : Nat := 0o040000

/-- The creation of a file that `fuse_sfs_mknod` makes for each type in `mode`:
the path, or `none` for a failure. -/
def mknodCreat (mode type : Nat) (cpath : Buf) : FuseM (Option Buf) :=
  if mode &&& type = 0 then pure (some cpath)
  else do
    let (ret, cpath) ← call (sfsCreat cpath)
    if ret = -1 then pure none else pure (some cpath)

/-- `fuse_sfs_mknod`. -/
def fuseSfsMknod (path : Buf) (mode : Nat) : FuseM Int :=
  if mode &&& sIFREG = 0 then pure (-eNOTSUP)
  else do
    match ← mknodCreat mode sIFREG (newPath path) with
    | none => negErrno
    | some cpath =>
      match ← mknodCreat mode sIFDIR cpath with
      | none => negErrno
      | some _ =>
        call (setErrno 0)
        negErrno

/-- `fuse_sfs_unlink`. -/
def fuseSfsUnlink (path : Buf) : FuseM Int := do
  let pino ← call (sfsUnlink path)
  if pino = 0 then negErrno
  else
    let vino ← ask fun m => m.getVino pino
    if vino = 0 then
      let ret ← call (sfsDelete pino)
      if ret = -1 then negErrno else pure 0
    else
      let bit ← ask fun m => m.getOpenbit vino
      if bit = 1 then
        change fun m => m.setDirty vino
        pure 0
      else
        let ret ← deleteVino vino pino
        if ret = -1 then negErrno else pure 0

/-- `fuse_sfs_read` of a handle, with the caller's buffer. -/
def fuseSfsRead (vino : Nat) (buf : Mem) (size offset : Nat) : FuseM (Int × Mem) := do
  let pino ← ask fun m => m.getPino vino
  let (ret, buf) ← call (sfsRead pino buf size offset)
  if cInt ret = -1 then
    let err ← negErrno
    pure (err, buf)
  else pure (cInt ret, buf)

/-- `fuse_sfs_write` of a handle. -/
def fuseSfsWrite (vino : Nat) (buf : Mem) (size offset : Nat) : FuseM Int := do
  let pino ← ask fun m => m.getPino vino
  let ret ← call (sfsWrite pino buf size offset)
  if cInt ret = -1 then negErrno else pure (cInt ret)

/-- `fuse_sfs_truncate`. -/
def fuseSfsTruncate (path : Buf) (length : Nat) : FuseM Int := do
  let pino ← call (sfsOpen path)
  if pino = 0 then negErrno
  else
    let ret ← call (sfsTruncate pino length)
    if ret ≠ 0 then negErrno else pure 0

/-- `fuse_sfs_ftruncate` of a handle. -/
def fuseSfsFtruncate (vino length : Nat) : FuseM Int := do
  let pino ← ask fun m => m.getPino vino
  let ret ← call (sfsTruncate pino length)
  if ret ≠ 0 then negErrno else pure 0

/-! ## Renaming -/

/-- `sfs_errno = code` and the return after it. -/
def exitWith (code : Nat) : FuseM Int := do
  call (setErrno code)
  negErrno

/-- The end of `fuse_sfs_rename`, when the entry has moved to `pino`. -/
def renameVino (oldPino pino : Nat) : FuseM Int :=
  if oldPino = pino then exitWith 0
  else do
    let vino ← ask fun m => m.getVino oldPino
    if vino = 0 then
      let vino ← pinoAdd pino
      if vino = 0 then exitWith eNOMEM else exitWith 0
    else
      change fun m => m.setPino vino pino
      exitWith 0

/-- The move of a directory: its entry is removed, and made again under the new
path. -/
def renameDir (src dest : Buf) (oldPino : Nat) : FuseM Int := do
  let ret ← call (sfsRmdir src)
  if ret = -1 then negErrno
  else
    let (ret, dest) ← call (sfsMkdir dest)
    if ret = -1 then negErrno
    else
      let pino ← call (sfsOpen dest)
      if pino = 0 then negErrno else renameVino oldPino pino

/-- `fuse_sfs_rename`. -/
def fuseSfsRename (src dest : Buf) : FuseM Int := do
  let attr ← uninitAttr
  let oldPino ← call (sfsOpen (newPath src))
  if oldPino = 0 then negErrno
  else
    let (ret, attr) ← call (sfsGetattr oldPino attr)
    if ret = -1 then negErrno
    else if attr.type = .dir then renameDir (newPath src) (newPath dest) oldPino
    else
      let (pino, _) ← call (sfsRename oldPino (newPath dest))
      if pino = 0 then negErrno else renameVino oldPino pino

end Sfs
