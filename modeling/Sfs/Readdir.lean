import Sfs.Search

/-!
# Listing a directory

`sfs_readdir`, with `read_file_name` and `read_dir_name` of `fsutils.c`, and
`sfs_getattr`.

The buffer of a `diriter` serves three purposes: it holds the path of the
directory when `sfs_readdir` is called, the mask of the search while it runs,
and the path found when it returns.  A store past its end is undefined.

`read_file_name` and `read_dir_name` are the same code for the two kinds of
entry, and are `readName` here.
-/

namespace Sfs

open Lib

/-- `enum iter_types`. -/
inductive IterType where
  | file
  | dir
  deriving DecidableEq, Repr

/-- `diriter`, without its `filename`: that is a pointer to the caller's buffer
until `sfs_readdir` sets it to `NULL`. -/
structure DirIter where
  len : Nat
  curOff : Nat
  size : Nat
  time : Nat
  type : IterType

/-- `name[i] = c`. -/
def putChar (name : Buf) (i : Nat) (c : UInt8) : SfsM Buf :=
  if i < name.length then pure (name.set i c) else .stuck

/-- `is_leaf`, of the string at position `i` of the buffer. -/
def isLeaf (path : Buf) (i : Nat) : Bool := !(cstr (path.drop i)).contains 0x2F

/-! ## Names -/

/-- The loop of `read_file_name` and `read_dir_name`, by `len`: what is left of
`len`, the buffer and the position of `curout` in it, and the entry. -/
def readNameLoop : Nat → Entry → Nat → Nat → Nat → Buf → Nat → SfsM (Nat × Buf × Nat × Entry)
  | 0, entr, _, _, _, str, out => pure (0, str, out, entr)
  | len + 1, entr, off, cur, curpos, str, out =>
    if len = 0 ∨ entr cur = 0 then pure (len + 1, str, out, entr)
    else do
      let str ← putChar str out (entr cur)
      if curpos - 1 = 0 then
        let off := u64 (off + indexEntrySize)
        let (_, entr) ← readEntry off entr
        readNameLoop len entr off 0 indexEntrySize str (out + 1)
      else readNameLoop len entr off (cur + 1) (curpos - 1) str (out + 1)

/-- `read_file_name` and `read_dir_name`.  The pointer `curin` is never `NULL`,
so a name that does not fit is left without a terminator. -/
def readName (kind : NameKind) (entr : Entry) (off : Nat) (str : Buf) (len : Nat) :
    SfsM (Int × Buf × Entry) := do
  let (len, str, out, entr) ← readNameLoop len entr off kind.name kind.first str 0
  if len = 1 then
    setErrno eNOMEM
    pure (-1, str, entr)
  else
    let str ← putChar str out 0
    pure (0, str, entr)

/-! ## The iterator -/

/-- How a branch of `sfs_readdir` for one kind of entry ends. -/
inductive Branch where
  | failed
  | restart
  | found

/-- The branch of `sfs_readdir` for the entries of one kind, taken when the type
byte of the entry says so. -/
def readdirBranch (kind : NameKind) (type : IterType) (size startLen add : Nat) (iter : DirIter)
    (name : Buf) (entr : Entry) (off : Nat) : SfsM (Branch × DirIter × Buf × Entry) :=
  if entr.get .entryType ≠ kind.type.code then pure (.found, iter, name, entr)
  else do
    let iter := { iter with size := size, time := entr.get .timeStamp }
    let (ret, name, entr) ← readName kind entr off name iter.len
    if ret = -1 then pure (.failed, iter, name, entr)
    else if strlen name = startLen then pure (.restart, iter, name, entr)
    else if isLeaf name (startLen + add) = false then pure (.restart, iter, name, entr)
    else pure (.found, { iter with type := type }, name, entr)

/-- The two branches.  The second looks at the type byte again, in the entry as
the first has left it. -/
def readdirEntry (startLen add : Nat) (iter : DirIter) (name : Buf) (entr : Entry) (off : Nat) :
    SfsM (Branch × DirIter × Buf × Entry) := do
  let (branch, iter, name, entr) ←
    readdirBranch fileKind .file (entr.get .size) startLen add iter name entr off
  match branch with
  | .found => readdirBranch dirKind .dir 0 startLen add iter name entr off
  | _ => pure (branch, iter, name, entr)

/-- The mask of the search, put into the buffer under the label `RESTART`. -/
def putMask (startLen add : Nat) (name : Buf) : SfsM Buf :=
  if name.char 0 ≠ 0 then do
    let name ← putChar name startLen 0x2F
    putChar name (startLen + add) 0
  else pure name

/-- `sfs_readdir` from the label `RESTART` on.  The result has no buffer when
`filename` was set to `NULL`. -/
def readdirLoop (startLen add : Nat) :
    Nat → DirIter → Buf → Entry → Nat → SfsM (Int × DirIter × Option Buf)
  | 0, _, _, _, _ => .stuck
  | fuel + 1, iter, name, entr, off => do
    let name ← putMask startLen add name
    let (off, entr) ← searchFileMask name entr off
    if off = 0 then pure (0, iter, none)
    else
      let (branch, iter, name, entr) ← readdirEntry startLen add iter name entr off
      match branch with
      | .failed => pure (-1, iter, some name)
      | .restart => readdirLoop startLen add fuel iter name entr (u64 (off + indexEntrySize))
      | .found =>
        let iter := { iter with curOff := u64 (off + indexEntrySize) }
        if isCorrectFilepath name = false then
          readdirLoop startLen add fuel iter name entr (u64 (off + indexEntrySize))
        else
          setErrno 0
          pure (0, iter, some name)

/-- `sfs_readdir` of an iterator whose `filename` points to `name`. -/
def sfsReaddir (iter : DirIter) (name : Buf) : SfsM (Int × DirIter × Option Buf) := do
  let entr ← uninit
  let fs ← unit
  if isCorrectFilepath name = false then
    setErrno eINVAL
    pure (-1, iter, some name)
  else
    let (start, entr) ← searchDir name entr
    if start = 0 then
      setErrno eNOENT
      pure (-1, iter, some name)
    else
      let off := if iter.curOff = 0 then fs.entryStart else iter.curOff
      let startLen := min (strlen name) iter.len
      let add := if startLen = 0 then 0 else 1
      readdirLoop startLen add (scanFuel off + 1) iter name entr off

/-! ## Attributes -/

/-- `sfs_attr`. -/
structure SfsAttr where
  time : Nat
  size : Nat
  off : Nat
  type : IterType

/-- `sfs_getattr`.  The attributes of an entry that is neither a file nor a
directory are left as they are. -/
def sfsGetattr (file : Nat) (attr : SfsAttr) : SfsM (Int × SfsAttr) := do
  let entr ← uninit
  let (ret, entr) ← readEntry file entr
  if ret = minusOne then
    setErrno eIO
    pure (-1, attr)
  else
    setErrno 0
    if entr.get .entryType = EntryType.fileEntry.code then
      pure (0, ⟨entr.get .timeStamp, entr.get .size, file, .file⟩)
    else if entr.get .entryType = EntryType.dirEntry.code then
      pure (0, ⟨entr.get .timeStamp, 0, file, .dir⟩)
    else pure (0, attr)

end Sfs
