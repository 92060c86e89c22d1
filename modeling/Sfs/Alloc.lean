import Sfs.Unit

/-!
# Scanning the index and allocating slots

`entry_parse` of `callback.c`, which walks the slots from `entry_start` to
`vol_ident`, and the slot allocator of `alloc.c`, which is one of its callbacks.

Offsets are 64-bit patterns, of negative values too.  An `off_t` that is moved
past `2 ^ 63` overflows, which C leaves undefined; `scanFuel` is the number of
slots a scan can visit before that.
-/

namespace Sfs

open Lib

/-- The number of loop tests of a scan from `off` before the offset overflows. -/
def scanFuel (off : Nat) : Nat := (sub64 9223372036854775808 off + 63) / indexEntrySize

/-- The type of the callbacks of `entry_parse`.  Each returns its verdict, the
entry it may have overwritten and its data. -/
abbrev Callback (δ : Type) := Entry → Nat → δ → SfsM (Int × Entry × δ)

/-- The loop of `entry_parse`. -/
def entryParseLoop {δ : Type} (callback : Callback δ) (stop : Nat) :
    Nat → Nat → Entry → δ → SfsM (Nat × Entry × δ)
  | 0, _, _, _ => .stuck
  | fuel + 1, start, entr, data =>
    if start = stop then pure (0, entr, data)
    else do
      let (ret, entr) ← readEntry start entr
      if ret = minusOne then
        setErrno eIO
        pure (0, entr, data)
      else
        let (found, entr, data) ← callback entr start data
        if found ≠ 0 then pure (start, entr, data)
        else entryParseLoop callback stop fuel (u64 (start + indexEntrySize)) entr data

/-- `entry_parse`: the offset of the first slot the callback accepts, or 0. -/
def entryParse {δ : Type} (entr : Entry) (callback : Callback δ) (data : δ) :
    SfsM (Nat × Entry × δ) := do
  let fs ← unit
  entryParseLoop callback fs.volIdent (scanFuel fs.entryStart) fs.entryStart entr data

/-- `search_free_entry`, where the pair is (`START`, `CUR`). -/
def searchFreeEntry : Callback (Nat × Nat) := fun entr _ (start, cur) =>
  if entr.get .entryType ≠ EntryType.unusedEntry.code then pure (0, entr, (start, start))
  else if cur - 1 = 0 then pure (start, entr, (start, cur - 1))
  else pure (0, entr, (start, cur - 1))

/-- `alloc_entry`: the first of `n` consecutive unused slots, or 0.  The slots
stay unused until the caller writes them.  The way back from the last slot to
the first is a product of `int`s, which overflows from 2^31 on. -/
def allocEntry (entr : Entry) (n : Nat) : SfsM (Nat × Entry) := do
  if n = 0 then pure (0, entr)
  else
    let (ret, entr, _) ← entryParse entr searchFreeEntry (n, n)
    if ret = 0 then pure (0, entr)
    else if 2147483648 ≤ indexEntrySize * (n - 1) then .stuck
    else pure (ret - indexEntrySize * (n - 1), entr)

/-- `free_one_entry`. -/
def freeOneEntry (entr : Entry) (entrOff : Nat) : SfsM (Int × Entry) := do
  let (ret, entr) ← readEntry entrOff entr
  if ret = minusOne then pure (-1, entr)
  else
    let entr := entr.set .entryType EntryType.unusedEntry.code
    let _ ← writeEntry entrOff entr
    pure (0, entr)

/-- `free_entry`: `n` slots from `entrOff` on. -/
def freeEntry : Entry → Nat → Nat → SfsM (Int × Entry)
  | entr, _, 0 => pure (0, entr)
  | entr, entrOff, n + 1 => do
    let (ret, entr) ← freeOneEntry entr entrOff
    if ret = -1 then pure (-1, entr)
    else freeEntry entr (entrOff + indexEntrySize) n

end Sfs
