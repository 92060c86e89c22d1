import Sfs.Utils

/-!
# Index entries

The 64-byte slots of the index area (`entry.h`).  `file_entry`,
`del_file_entry` and `dir_entry` are packed structs that agree on the position
of every field they share, so one `Field` serves them all; a `*free` node keeps
its list links in the fields `size` and `time_stamp` (`NEXT_DEL`, `PREV_DEL`).

The lemmas say how a field read from a position of memory answers to a field
stored at a position; an entry in a local variable is at position 0, a slot of
the disk at its offset.
-/

namespace Sfs

open Lib

/-- `entry`: a local variable of 64 bytes. -/
abbrev Entry := Mem

/-- `enum entry_type`. -/
inductive EntryType where
  | volIdent
  | startEntry
  | unusedEntry
  | dirEntry
  | fileEntry
  | unusableEntry
  | delDirEntry
  | delFileEntry
  deriving DecidableEq, Repr

/-- The byte that stands for an entry type. -/
def EntryType.code : EntryType → Nat
  | volIdent => 0x01
  | startEntry => 0x02
  | unusedEntry => 0x10
  | dirEntry => 0x11
  | fileEntry => 0x12
  | unusableEntry => 0x18
  | delDirEntry => 0x19
  | delFileEntry => 0x1A

/-- The fields of `file_entry` before its name; `dir_entry` has the first
three. -/
inductive Field where
  | entryType
  | contEntries
  | timeStamp
  | startBlock
  | endBlock
  | size
  deriving DecidableEq, Repr

namespace Field

/-- `PREV_DEL`. -/
abbrev prevDel : Field := timeStamp

/-- `NEXT_DEL`. -/
abbrev nextDel : Field := size

def pos : Field → Nat
  | entryType => 0
  | contEntries => 1
  | timeStamp => 2
  | startBlock => 10
  | endBlock => 18
  | size => 26

def width : Field → Nat
  | entryType | contEntries => 1
  | timeStamp | startBlock | endBlock | size => 8

end Field

/-- The field `f` of the entry at `off`. -/
def fieldAt (m : Mem) (off : Nat) (f : Field) : Nat := getLE m (off + f.pos) f.width

/-- The field `f` of the entry at `off` set to `v`. -/
def setFieldAt (m : Mem) (off : Nat) (f : Field) (v : Nat) : Mem :=
  putLE m (off + f.pos) f.width v

/-- `entr->f`. -/
abbrev Entry.get (entr : Entry) (f : Field) : Nat := fieldAt entr 0 f

/-- `entr->f = v`. -/
abbrev Entry.set (entr : Entry) (f : Field) (v : Nat) : Entry := setFieldAt entr 0 f v

/-- What tells the two kinds of named entries apart: the type byte, the
position of the name and how much of it the head holds. -/
structure NameKind where
  type : EntryType
  name : Nat
  first : Nat
  deriving DecidableEq

/-- `file_entry`. -/
abbrev fileKind : NameKind := ⟨.fileEntry, 34, firstFileNameSize⟩

/-- `dir_entry`. -/
abbrev dirKind : NameKind := ⟨.dirEntry, 10, firstDirNameSize⟩

/-- `memset(entr, 0, INDEX_ENTRY_SIZE)`. -/
def Entry.zero (entr : Entry) : Entry := blit entr 0 (fun _ => 0) 0 indexEntrySize

/-! ## Reading and setting fields -/

theorem Field.pos_add_width_le (f : Field) : f.pos + f.width ≤ 34 := by
  cases f <;> decide

/-- Different fields do not share bytes. -/
theorem Field.disjoint {f g : Field} (h : f ≠ g) :
    f.pos + f.width ≤ g.pos ∨ g.pos + g.width ≤ f.pos := by
  cases f <;> cases g <;> first | exact absurd rfl h | decide

theorem fieldAt_lt (m : Mem) (off : Nat) (f : Field) : fieldAt m off f < 18446744073709551616 := by
  have h := getLE_lt m (off + f.pos) f.width
  have hw : 256 ^ f.width ≤ 18446744073709551616 := by cases f <;> decide
  exact Nat.lt_of_lt_of_le h hw

theorem fieldAt_congr {m m' : Mem} {off off' : Nat} {f : Field}
    (h : ∀ k, k < 34 → m (off + k) = m' (off' + k)) : fieldAt m off f = fieldAt m' off' f := by
  have hle := f.pos_add_width_le
  refine getLE_congr fun k hk => ?_
  rw [Nat.add_assoc, Nat.add_assoc]
  exact h (f.pos + k) (by omega)

theorem fieldAt_setFieldAt_same (m : Mem) (off : Nat) (f : Field) (v : Nat) :
    fieldAt (setFieldAt m off f v) off f = v % 256 ^ f.width :=
  getLE_putLE_same m _ _ v

theorem fieldAt_setFieldAt_field {f g : Field} (h : f ≠ g) (m : Mem) (off : Nat) (v : Nat) :
    fieldAt (setFieldAt m off f v) off g = fieldAt m off g := by
  have hd := Field.disjoint h
  exact getLE_putLE_of_disjoint (by omega)

/-- Entries at different slots do not share bytes. -/
theorem fieldAt_setFieldAt_slot {off off' : Nat} (h : off + 64 ≤ off' ∨ off' + 64 ≤ off) (m : Mem)
    (f g : Field) (v : Nat) :
    fieldAt (setFieldAt m off f v) off' g = fieldAt m off' g := by
  have hf := f.pos_add_width_le
  have hg := g.pos_add_width_le
  exact getLE_putLE_of_disjoint (by omega)

theorem setFieldAt_outside {m : Mem} {off k v : Nat} {f : Field} (h : k < off ∨ off + 34 ≤ k) :
    setFieldAt m off f v k = m k := by
  have hf := f.pos_add_width_le
  exact putLE_outside (by omega)

/-- The first byte of an entry is its type. -/
theorem fieldAt_entryType (m : Mem) (off : Nat) : fieldAt m off .entryType = (m off).toNat := by
  simp [fieldAt, Field.pos, Field.width, getLE]

theorem fieldAt_contEntries (m : Mem) (off : Nat) :
    fieldAt m off .contEntries = (m (off + 1)).toNat := by
  simp [fieldAt, Field.pos, Field.width, getLE]

theorem fieldAt_blit_entry {m : Mem} {off : Nat} {junk : Entry} {f : Field} :
    fieldAt (blit junk 0 m off indexEntrySize) 0 f = fieldAt m off f := by
  refine fieldAt_congr fun k hk => ?_
  rw [Nat.zero_add, blit_inside (Nat.zero_le k) (by unfold indexEntrySize; omega), Nat.sub_zero]

/-- Setting a field before an entry is written, or in the slot it is written
to. -/
theorem blit_setFieldAt (data : Mem) (entr : Entry) (off : Nat) (f : Field) (v : Nat) :
    blit data off (setFieldAt entr 0 f v) 0 indexEntrySize
      = setFieldAt (blit data off entr 0 indexEntrySize) off f v := by
  have hf := f.pos_add_width_le
  unfold setFieldAt
  rw [Nat.zero_add]
  exact blit_putLE data entr off f.pos f.width v indexEntrySize (by unfold indexEntrySize; omega)

end Sfs
