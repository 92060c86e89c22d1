import Sfs.Alloc

/-!
# Finding names

The searches of `fsutils.c`: by full path for a file or a directory, by prefix
for both, and the check that every directory on a path exists.

`read_file_entry` and `read_dir_entry`, and `search_file` and `search_dir`, are
the same code for the two kinds of entry, and are `readNameEntry` and
`searchName` here.
-/

namespace Sfs

open Lib

/-! ## Comparing a path with a name -/

/-- The loop over the part of the name that is in the head: the positions of
`cur` and `curin` and the count after it, or `none` when a character differs. -/
def matchHead (entr : Entry) : Nat → Buf → Nat → Option (Nat × Buf × Nat)
  | cur, curin, 0 => some (cur, curin, 0)
  | cur, curin, c + 1 =>
    if curin.char 0 = 0 then some (cur, curin, c + 1)
    else if entr cur ≠ curin.char 0 then none
    else matchHead entr (cur + 1) (curin.drop 1) c

/-- The loop over the rest of the name and the comparison after it: whether
`*cur` and `*curin` are equal where the loop ends. -/
def matchCont : Buf → Entry → Nat → Nat → Nat → Nat → SfsM (Bool × Entry)
  | [], entr, _, cur, _, _ => pure (entr cur == 0, entr)
  | ch :: curin, entr, entryOff, cur, c, ce =>
    if entr cur = 0 ∨ ch = 0 ∨ ce = 0 then pure (entr cur == ch, entr)
    else if entr cur ≠ ch then pure (false, entr)
    else if c - 1 = 0 then do
      let (ret, entr) ← readEntry (entryOff + indexEntrySize) entr
      if ret = 0 then pure (false, entr)
      else matchCont curin entr (entryOff + indexEntrySize) 0 indexEntrySize (ce - 1)
    else matchCont curin entr entryOff (cur + 1) (c - 1) ce

/-- `read_file_entry` and `read_dir_entry`. -/
def readNameEntry (kind : NameKind) : Callback Buf := fun entr entryOff curin =>
  let data := curin
  if entr.get .entryType ≠ kind.type.code then pure (0, entr, data)
  else if curin.char 0 = 0 then
    if entr kind.name ≠ 0 then pure (0, entr, data) else pure (1, entr, data)
  else
    let ce := entr.get .contEntries
    match matchHead entr kind.name curin kind.first with
    | none => pure (0, entr, data)
    | some (cur, curin, c) =>
      if curin.char 0 = 0 ∧ c ≠ 0 then
        if entr cur = 0 then pure (1, entr, data) else pure (0, entr, data)
      else if curin.char 0 = 0 ∧ ce = 0 then
        if entr cur ≠ 0 then pure (0, entr, data) else pure (1, entr, data)
      else if ce = 0 then pure (0, entr, data)
      else do
        let (ret, entr) ← readEntry (entryOff + indexEntrySize) entr
        if ret = 0 then pure (0, entr, data)
        else
          let (same, entr) ← matchCont curin entr (entryOff + indexEntrySize) 0 indexEntrySize ce
          if same = false then pure (0, entr, data)
          else
            let (ret, entr) ← readEntry entryOff entr
            if ret = 0 then pure (0, entr, data) else pure (1, entr, data)

def readFileEntry : Callback Buf := readNameEntry fileKind

def readDirEntry : Callback Buf := readNameEntry dirKind

/-! ## Searching for a path -/

/-- The loop of `search_file` over the continuation slots, which compares each
with its part of the path once more. -/
def verifyCont : Entry → Nat → Buf → Nat → SfsM (Bool × Entry)
  | entr, _, _, 0 => pure (true, entr)
  | entr, curOff, filepath, n + 1 => do
    let (ret, entr) ← readEntry curOff entr
    if ret = minusOne then
      setErrno eIO
      pure (false, entr)
    else if strncmp entr 0 filepath indexEntrySize ≠ 0 then pure (false, entr)
    else verifyCont entr (curOff + indexEntrySize) (filepath.drop indexEntrySize) n

/-- `search_file` and `search_dir`: the offset of the entry, or 0. -/
def searchName (kind : NameKind) (filepath : Buf) (entr : Entry) : SfsM (Nat × Entry) := do
  setErrno 0
  let (startOff, entr, _) ← entryParse entr (readNameEntry kind) filepath
  if startOff = 0 then pure (0, entr)
  else
    let n := entr.get .contEntries
    if n = 0 then pure (startOff, entr)
    else
      let (same, entr) ← verifyCont entr (startOff + indexEntrySize)
        (filepath.drop kind.first) n
      if same = false then pure (0, entr)
      else
        let (_, entr) ← readEntry startOff entr
        pure (startOff, entr)

def searchFile (filepath : Buf) (entr : Entry) : SfsM (Nat × Entry) :=
  searchName fileKind filepath entr

def searchDir (filepath : Buf) (entr : Entry) : SfsM (Nat × Entry) :=
  searchName dirKind filepath entr

/-! ## Searching for a prefix -/

/-- The last loop of `check_file_mask`, over the slots after the head, however
many of them belong to the entry. -/
def matchMask : Buf → Entry → Nat → Nat → Nat → SfsM (Int × Entry)
  | [], entr, _, _, _ => pure (1, entr)
  | ch :: curin, entr, entryOff, cur, c =>
    if ch = 0 ∨ c = 0 then pure (1, entr)
    else if entr cur ≠ ch then pure (0, entr)
    else if c - 1 = 0 then do
      let (_, entr) ← readEntry (u64 (entryOff + indexEntrySize)) entr
      matchMask curin entr (u64 (entryOff + indexEntrySize)) 0 indexEntrySize
    else matchMask curin entr entryOff (cur + 1) (c - 1)

/-- `check_file_mask` for an entry of the kind its type byte says. -/
def checkNameMask (kind : NameKind) (entr : Entry) (entryOff : Nat) (curin : Buf) :
    SfsM (Int × Entry) :=
  if curin.char 0 = 0 then pure (1, entr)
  else
    match matchHead entr kind.name curin kind.first with
    | none => pure (0, entr)
    | some (_, curin, _) => do
      let (_, entr) ← readEntry (u64 (entryOff + indexEntrySize)) entr
      matchMask curin entr (u64 (entryOff + indexEntrySize)) 0 indexEntrySize

/-- `check_file_mask`. -/
def checkFileMask (entr : Entry) (entryOff : Nat) (data : Buf) : SfsM (Int × Entry) :=
  if entr.get .entryType = EntryType.fileEntry.code then checkNameMask fileKind entr entryOff data
  else if entr.get .entryType = EntryType.dirEntry.code then
    checkNameMask dirKind entr entryOff data
  else pure (0, entr)

/-- The loop of `search_file_mask`. -/
def searchFileMaskLoop (filepath : Buf) (stop : Nat) : Nat → Entry → Nat → SfsM (Nat × Entry)
  | 0, _, _ => .stuck
  | fuel + 1, entr, entrOff =>
    if entrOff = stop then pure (0, entr)
    else do
      let (_, entr) ← readEntry entrOff entr
      if entr.get .entryType = EntryType.fileEntry.code ∨
          entr.get .entryType = EntryType.dirEntry.code then
        let (found, entr) ← checkFileMask entr entrOff filepath
        if found ≠ 0 then
          let (_, entr) ← readEntry entrOff entr
          pure (entrOff, entr)
        else searchFileMaskLoop filepath stop fuel entr (u64 (entrOff + indexEntrySize))
      else searchFileMaskLoop filepath stop fuel entr (u64 (entrOff + indexEntrySize))

/-- `search_file_mask`: the first file or directory from `entrOff` on whose
name starts with the mask, or 0. -/
def searchFileMask (filepath : Buf) (entr : Entry) (entrOff : Nat) : SfsM (Nat × Entry) := do
  setErrno 0
  let fs ← unit
  searchFileMaskLoop filepath fs.volIdent (scanFuel entrOff) entr entrOff

/-! ## Checking the directories of a path -/

/-- The loop of `check_dirs`, which cuts the caller's string at every slash and
restores it.  `ret` is an `int`, so it keeps the low half of an offset. -/
def checkDirsLoop : Nat → Buf → Entry → Nat → SfsM (Int × Buf × Entry)
  | 0, filepath, entr, _ => pure (0, filepath, entr)
  | n + 1, filepath, entr, cur =>
    if filepath.char cur = 0x2F then do
      let filepath := filepath.set cur 0
      let (ret, entr) ← searchDir filepath entr
      let filepath := filepath.set cur 0x2F
      if ret % 4294967296 = 0 then pure (-1, filepath, entr)
      else checkDirsLoop n filepath entr (cur + 1)
    else checkDirsLoop n filepath entr (cur + 1)

/-- `check_dirs`: 0, or -1 when a directory is missing, and the path. -/
def checkDirs (filepath : Buf) (entr : Entry) : SfsM (Int × Buf × Entry) :=
  checkDirsLoop (strlen filepath + 1) filepath entr 0

end Sfs
