import Sfs.Volume
import Sfs.DelList
import Sfs.Lib.DList

/-!
# Well-formed volumes

What the index of a mounted volume looks like between two operations.  The
slots from `entry_start` to `vol_ident` split into the start slot, unused
slots, nodes of the list of free extents, and groups of a head and its
continuation slots.

The split is a matter of the first byte of every slot.  A slot whose first byte
is an entry type stands for itself, and the number of continuation slots of a
head is in the head, so `Layout` need not list the groups; that they do not
overlap follows (`Layout.no_cross`).

* `Geometry` has the areas of the volume, and `SameArea` two volumes with the
  same;
* `Layout` has the slots;
* `Layout.update`, `Layout.splice`, `Layout.fill` and `Layout.release` are the
  changes of slots that keep it.
-/

namespace Sfs

open Lib

/-- The bytes that `enum entry_type` names. -/
def IsType (b : Nat) : Prop := ∃ type : EntryType, type.code = b

theorem isType_code (type : EntryType) : IsType type.code := ⟨type, rfl⟩

theorem isType_iff {b : Nat} : IsType b ↔ b ∈ [0x01, 0x02, 0x10, 0x11, 0x12, 0x18, 0x19, 0x1A] := by
  constructor
  · intro ⟨type, h⟩
    subst h
    cases type <;> decide
  · intro h
    simp only [List.mem_cons, List.not_mem_nil, or_false] at h
    rcases h with rfl | rfl | rfl | rfl | rfl | rfl | rfl | rfl
    exacts [⟨.volIdent, rfl⟩, ⟨.startEntry, rfl⟩, ⟨.unusedEntry, rfl⟩, ⟨.dirEntry, rfl⟩,
      ⟨.fileEntry, rfl⟩, ⟨.unusableEntry, rfl⟩, ⟨.delDirEntry, rfl⟩, ⟨.delFileEntry, rfl⟩]

instance (b : Nat) : Decidable (IsType b) := decidable_of_iff _ isType_iff.symm

namespace Vol

variable {v v' : Vol}

/-! ## Slots and their fields -/

/-- The first byte of the slot at an offset. -/
abbrev type (v : Vol) (off : Nat) : Nat := v.get off .entryType

/-- The number of continuation slots the entry at an offset claims. -/
abbrev cont (v : Vol) (off : Nat) : Nat := v.get off .contEntries

/-- The offset of a slot of the index. -/
structure Slot (v : Vol) (off : Nat) : Prop where
  ge : v.fs.entryStart ≤ off
  lt : off < v.fs.volIdent
  aligned : off % 64 = 0

/-- The slot is the head of a group or a node of the list. -/
def Head (v : Vol) (off : Nat) : Prop :=
  v.type off = EntryType.dirEntry.code ∨ v.type off = EntryType.fileEntry.code ∨
    v.type off = EntryType.delFileEntry.code

/-- Where the group of the head at an offset ends. -/
abbrev groupEnd (v : Vol) (off : Nat) : Nat := off + 64 * (v.cont off + 1)

theorem get_lt (v : Vol) (off : Nat) (f : Field) : v.get off f < 18446744073709551616 :=
  fieldAt_lt v.data off f

theorem type_eq (v : Vol) (off : Nat) : v.type off = (v.data off).toNat :=
  fieldAt_entryType v.data off

/-- A field of a slot after a store to a field of a slot. -/
theorem get_set {off off' : Nat} (hoff : off % 64 = 0) (hoff' : off' % 64 = 0) (f g : Field)
    (x : Nat) :
    (v.set off f x).get off' g
      = if off' = off ∧ g = f then x % 256 ^ f.width else v.get off' g := by
  unfold get set
  dsimp only
  by_cases heq : off' = off
  · subst heq
    by_cases hfield : g = f
    · subst hfield
      rw [if_pos ⟨rfl, rfl⟩, fieldAt_setFieldAt_same]
    · rw [if_neg fun h => hfield h.2, fieldAt_setFieldAt_field (Ne.symm hfield)]
  · rw [if_neg fun h => heq h.1, fieldAt_setFieldAt_slot (by omega)]

theorem get_set_same (v : Vol) (off : Nat) (f : Field) (x : Nat) :
    (v.set off f x).get off f = x % 256 ^ f.width := fieldAt_setFieldAt_same _ _ _ _

theorem get_set_field (v : Vol) (off : Nat) {f g : Field} (h : f ≠ g) (x : Nat) :
    (v.set off f x).get off g = v.get off g := fieldAt_setFieldAt_field h _ _ _

theorem get_set_slot {off off' : Nat} (hoff : off % 64 = 0) (hoff' : off' % 64 = 0)
    (h : off' ≠ off) (f g : Field) (x : Nat) : (v.set off f x).get off' g = v.get off' g := by
  rw [get_set hoff hoff', if_neg fun h' => h h'.1]

theorem set_outside {off k : Nat} (f : Field) (x : Nat) (h : k < off ∨ off + 34 ≤ k) :
    (v.set off f x).data k = v.data k := setFieldAt_outside h

/-- A field of a slot after an entry was stored at it. -/
theorem get_store_same (v : Vol) (off : Nat) (entr : Entry) (f : Field) :
    (v.store off entr).get off f = fieldAt entr 0 f := by
  unfold get store
  refine fieldAt_congr fun k hk => ?_
  dsimp only
  rw [blit_add (by unfold indexEntrySize; omega)]

theorem store_outside {off k : Nat} (entr : Entry) (h : k < off ∨ off + 64 ≤ k) :
    (v.store off entr).data k = v.data k := blit_outside h

theorem get_store_slot {off off' : Nat} (hoff : off % 64 = 0) (hoff' : off' % 64 = 0)
    (h : off' ≠ off) (entr : Entry) (f : Field) : (v.store off entr).get off' f = v.get off' f :=
  fieldAt_congr fun _ _ => store_outside entr (by omega)

@[simp] theorem store_fs (v : Vol) (off : Nat) (entr : Entry) : (v.store off entr).fs = v.fs := rfl

/-- Equal bytes give equal fields. -/
theorem get_congr {off : Nat} {f : Field} (h : ∀ k, k < 34 → v'.data (off + k) = v.data (off + k)) :
    v'.get off f = v.get off f := fieldAt_congr h

/-- Equal bytes give equal fields, for the two fields of the layout. -/
theorem type_congr {off : Nat} (h : v'.data off = v.data off) : v'.type off = v.type off := by
  rw [type_eq, type_eq, h]

theorem cont_congr {off : Nat} (h : v'.data (off + 1) = v.data (off + 1)) :
    v'.cont off = v.cont off := by
  unfold cont get
  rw [fieldAt_contEntries, fieldAt_contEntries, h]

end Vol

/-! ## The areas -/

/-- The index is made of whole slots inside the device. -/
structure Area (v : Vol) : Prop where
  sized : v.Sized
  start_aligned : v.fs.entryStart % 64 = 0
  aligned : v.fs.volIdent % 64 = 0
  nonempty : v.fs.entryStart < v.fs.volIdent
  inside : v.fs.volIdent + 64 ≤ v.size

/-- A slot of the index is inside the device. -/
theorem Area.slot_le {v : Vol} {off : Nat} (h : Area v) (hoff : v.Slot off) :
    off + 64 ≤ v.size := by
  have h₁ := hoff.lt
  have h₂ := h.inside
  omega

/-- The blocks from `lo` to `hi` are the data area, and the index follows it. -/
structure Geometry (v : Vol) (lo hi : Nat) : Prop where
  sized : v.Sized
  lo_pos : 0 < lo
  lo_le : lo ≤ hi
  entryStart : v.fs.entryStart = hi * v.blockSize
  aligned : v.fs.volIdent % 64 = 0
  nonempty : v.fs.entryStart < v.fs.volIdent
  inside : v.fs.volIdent + 64 ≤ v.size

namespace Geometry

variable {v : Vol} {lo hi off : Nat}

theorem start_aligned (h : Geometry v lo hi) : v.fs.entryStart % 64 = 0 := by
  obtain ⟨k, hk⟩ := h.sized.slots
  rw [h.entryStart, hk, ← Nat.mul_assoc, Nat.mul_comm hi, Nat.mul_assoc, Nat.mul_mod_right]

theorem area (h : Geometry v lo hi) : Area v :=
  ⟨h.sized, h.start_aligned, h.aligned, h.nonempty, h.inside⟩

theorem start_pos (h : Geometry v lo hi) : 0 < v.fs.entryStart := by
  have hhi := Nat.lt_of_lt_of_le h.lo_pos h.lo_le
  have hmul := Nat.mul_pos hhi h.sized.pos
  rwa [← h.entryStart] at hmul

theorem slot_start (h : Geometry v lo hi) : v.Slot v.fs.entryStart :=
  ⟨Nat.le_refl _, h.nonempty, h.start_aligned⟩

theorem slot_pos (h : Geometry v lo hi) (hoff : v.Slot off) : 0 < off :=
  Nat.lt_of_lt_of_le h.start_pos hoff.ge

theorem slot_le (h : Geometry v lo hi) (hoff : v.Slot off) : off + 64 ≤ v.size :=
  h.area.slot_le hoff

/-- Block numbers of the data area are far from the end of an `off_t`. -/
theorem blockSize_le (h : Geometry v lo hi) : v.blockSize ≤ v.size := by
  have h₁ := Nat.le_mul_of_pos_left v.blockSize (Nat.lt_of_lt_of_le h.lo_pos h.lo_le)
  have h₂ := h.entryStart
  have h₃ := h.nonempty
  have h₄ := h.inside
  omega

theorem block_lt (h : Geometry v lo hi) : hi < 9223372036854775808 := by
  have h₁ := Nat.le_mul_of_pos_right hi h.sized.pos
  have h₂ := h.entryStart
  have h₃ := h.nonempty
  have h₄ := h.inside
  have h₅ := h.sized.small
  omega

end Geometry

/-! ## The slots -/

/-- The slots split into the start slot, unused slots and groups. -/
structure Layout (v : Vol) : Prop where
  start : v.type v.fs.entryStart = EntryType.startEntry.code
  /-- No other slot has the type of the start slot, and none has a type that no
  operation writes. -/
  known : ∀ off, v.Slot off → off ≠ v.fs.entryStart → IsType (v.type off) →
    v.type off = EntryType.unusedEntry.code ∨ v.Head off
  inside : ∀ off, v.Slot off → v.Head off → v.groupEnd off ≤ v.fs.volIdent
  pieces : ∀ off, v.Slot off → v.Head off → ∀ j, j < v.cont off →
    ¬ IsType (v.type (off + 64 * (j + 1)))
  covered : ∀ off, v.Slot off → ¬ IsType (v.type off) →
    ∃ head, v.Slot head ∧ v.Head head ∧ head < off ∧ off < v.groupEnd head

namespace Layout

variable {v v' : Vol} {off head : Nat}

theorem isType_of_head (h : v.Head off) : IsType (v.type off) := by
  rcases h with h | h | h <;> rw [h] <;> exact isType_code _

/-- A slot that stands for itself is in no other group. -/
theorem no_cross (hl : Layout v) (hhead : v.Slot head) (hh : v.Head head) (hoff : v.Slot off)
    (ht : IsType (v.type off)) (hlt : head < off) : v.groupEnd head ≤ off := by
  by_contra hin
  rw [Vol.groupEnd, Nat.not_le] at hin
  have h₁ := hhead.aligned
  have h₂ := hoff.aligned
  have hj := hl.pieces head hhead hh ((off - head) / 64 - 1) (by omega)
  rw [show head + 64 * ((off - head) / 64 - 1 + 1) = off by omega] at hj
  exact hj ht

/-- The groups of two heads do not overlap. -/
theorem disjoint (hl : Layout v) (hhead : v.Slot head) (hh : v.Head head) (hoff : v.Slot off)
    (hh' : v.Head off) (hne : head ≠ off) : v.groupEnd head ≤ off ∨ v.groupEnd off ≤ head := by
  rcases Nat.lt_or_gt_of_ne hne with hlt | hlt
  · exact Or.inl (hl.no_cross hhead hh hoff (isType_of_head hh') hlt)
  · exact Or.inr (hl.no_cross hoff hh' hhead (isType_of_head hh) hlt)

/-- A slot that carries a type is covered by no head, so the covering head of a
slot is the only one. -/
theorem cover_unique (hl : Layout v) {head' : Nat} (hs : v.Slot head) (hh : v.Head head)
    (hs' : v.Slot head') (hh' : v.Head head') (hlt : head ≤ off) (hin : off < v.groupEnd head)
    (hlt' : head' ≤ off) (hin' : off < v.groupEnd head') : head = head' := by
  by_contra hne
  rcases hl.disjoint hs hh hs' hh' hne with h | h
  · exact absurd (Nat.lt_of_lt_of_le hin h) (by omega)
  · exact absurd (Nat.lt_of_lt_of_le hin' h) (by omega)

end Layout

/-- Two volumes on one device with the same areas. -/
structure SameArea (v v' : Vol) : Prop where
  blockSize : v'.blockSize = v.blockSize
  size : v'.size = v.size
  entryStart : v'.fs.entryStart = v.fs.entryStart
  volIdent : v'.fs.volIdent = v.fs.volIdent

namespace SameArea

variable {v v' v'' : Vol} {off lo hi : Nat}

theorem refl (v : Vol) : SameArea v v := ⟨rfl, rfl, rfl, rfl⟩

theorem trans (h : SameArea v v') (h' : SameArea v' v'') : SameArea v v'' :=
  ⟨h'.blockSize.trans h.blockSize, h'.size.trans h.size, h'.entryStart.trans h.entryStart,
    h'.volIdent.trans h.volIdent⟩

theorem symm (h : SameArea v v') : SameArea v' v :=
  ⟨h.blockSize.symm, h.size.symm, h.entryStart.symm, h.volIdent.symm⟩

theorem slot (h : SameArea v v') : v'.Slot off ↔ v.Slot off := by
  constructor
  · exact fun hs => ⟨h.entryStart ▸ hs.ge, h.volIdent ▸ hs.lt, hs.aligned⟩
  · exact fun hs => ⟨h.entryStart ▸ hs.ge, h.volIdent ▸ hs.lt, hs.aligned⟩

theorem geometry (h : SameArea v v') (hg : Geometry v lo hi) : Geometry v' lo hi where
  sized := hg.sized.congr h.blockSize h.size
  lo_pos := hg.lo_pos
  lo_le := hg.lo_le
  entryStart := by rw [h.entryStart, h.blockSize, hg.entryStart]
  aligned := by rw [h.volIdent]; exact hg.aligned
  nonempty := by rw [h.entryStart, h.volIdent]; exact hg.nonempty
  inside := by rw [h.volIdent, h.size]; exact hg.inside

end SameArea

/-- The slot stands for itself alone. -/
def Vol.Single (v : Vol) (off : Nat) : Prop :=
  v.type off = EntryType.unusedEntry.code ∨ (v.Head off ∧ v.cont off = 0)

namespace Layout

variable {v v' : Vol} {off head lo hi : Nat}

theorem isType_of_single (h : v.Single off) : IsType (v.type off) := by
  rcases h with h | h
  · rw [h]
    exact isType_code _
  · exact isType_of_head h.1

theorem not_single_start (hl : Layout v) : ¬ v.Single v.fs.entryStart := by
  intro h
  rcases h with h | ⟨h | h | h, -⟩ <;> rw [hl.start] at h <;> exact absurd h (by decide)

theorem start_not_head (hl : Layout v) : ¬ v.Head v.fs.entryStart := by
  intro h
  rcases h with h | h | h <;> rw [hl.start] at h <;> exact absurd h (by decide)

/-- A change that keeps every slot, up to slots that stand for themselves alone
before and after it, keeps the layout. -/
theorem update (hl : Layout v) (hg : Geometry v lo hi) (ha : SameArea v v')
    (hkeep : ∀ off, v.Slot off →
      (v'.type off = v.type off ∧ (v.Head off → v'.cont off = v.cont off)) ∨
      (v.Single off ∧ v'.Single off)) : Layout v' := by
  have hhead : ∀ off, v.Slot off → v'.Head off →
      (v.Head off ∧ v'.cont off = v.cont off) ∨ v'.cont off = 0 := by
    intro off hoff hh
    rcases hkeep off hoff with ⟨ht, hc⟩ | ⟨-, hsingle⟩
    · rw [Vol.Head, ht] at hh
      exact Or.inl ⟨hh, hc hh⟩
    · rcases hsingle with hu | hs
      · rcases hh with h | h | h <;> rw [hu] at h <;> exact absurd h (by decide)
      · exact Or.inr hs.2
  have htype : ∀ off, v.Slot off → (IsType (v'.type off) ↔ IsType (v.type off)) := by
    intro off hoff
    rcases hkeep off hoff with ⟨ht, -⟩ | ⟨hs, hs'⟩
    · rw [ht]
    · exact ⟨fun _ => isType_of_single hs, fun _ => isType_of_single hs'⟩
  refine ⟨?_, ?_, ?_, ?_, ?_⟩
  · rw [ha.entryStart]
    rcases hkeep _ hg.slot_start with ⟨ht, -⟩ | ⟨hs, -⟩
    · rw [ht]
      exact hl.start
    · exact absurd hs hl.not_single_start
  · intro off hoff hne ht
    have hoff' := ha.slot.1 hoff
    rw [ha.entryStart] at hne
    rcases hkeep off hoff' with ⟨hsame, -⟩ | ⟨-, hs⟩
    · rw [hsame] at ht ⊢
      rw [Vol.Head, hsame]
      exact hl.known off hoff' hne ht
    · exact hs.imp_right And.left
  · intro off hoff hh
    have hoff' := ha.slot.1 hoff
    rw [ha.volIdent, Vol.groupEnd]
    rcases hhead off hoff' hh with ⟨hh', hc⟩ | hc
    · rw [hc]
      exact hl.inside off hoff' hh'
    · rw [hc]
      have hlt := hoff'.lt
      have hal := hoff'.aligned
      have hvi := hg.aligned
      omega
  · intro off hoff hh j hj
    have hoff' := ha.slot.1 hoff
    rcases hhead off hoff' hh with ⟨hh', hc⟩ | hc
    · rw [hc] at hj
      have hin := hl.inside off hoff' hh'
      rw [Vol.groupEnd] at hin
      have hge := hoff'.ge
      have hal := hoff'.aligned
      rw [htype _ ⟨by omega, by omega, by omega⟩]
      exact hl.pieces off hoff' hh' j hj
    · omega
  · intro off hoff ht
    have hoff' := ha.slot.1 hoff
    rw [htype off hoff'] at ht
    obtain ⟨head, hs, hh, hlt, hin⟩ := hl.covered off hoff' ht
    rcases hkeep head hs with ⟨hsame, hc⟩ | ⟨hsingle, -⟩
    · refine ⟨head, ha.slot.2 hs, ?_, hlt, ?_⟩
      · rw [Vol.Head, hsame]
        exact hh
      · rw [Vol.groupEnd, hc hh]
        exact hin
    · -- A single head covers nothing but itself.
      exfalso
      have hal := hs.aligned
      have hal' := hoff'.aligned
      rcases hsingle with hu | ⟨-, hc⟩
      · rcases hh with h | h | h <;> rw [hu] at h <;> exact absurd h (by decide)
      · rw [Vol.groupEnd, hc] at hin
        omega

/-- The slots outside a run of slots that no group crosses, and the slots of the
run by themselves, make a layout. -/
theorem splice (hl : Layout v) (hg : Geometry v lo hi) (ha : SameArea v v') {a b : Nat}
    (hstart : v.fs.entryStart < a) (hb : b ≤ v.fs.volIdent)
    (hout : ∀ off, v.Slot off → off < a ∨ b ≤ off →
      v'.type off = v.type off ∧ (v.Head off → v'.cont off = v.cont off))
    (hbefore : ∀ head, v.Slot head → v.Head head → head < a → v.groupEnd head ≤ a)
    (hwithin : ∀ head, v.Slot head → v.Head head → a ≤ head → head < b → v.groupEnd head ≤ b)
    (hknown : ∀ off, v.Slot off → a ≤ off → off < b → IsType (v'.type off) →
      v'.type off = EntryType.unusedEntry.code ∨ v'.Head off)
    (hgroup : ∀ off, v.Slot off → a ≤ off → off < b → v'.Head off →
      v'.groupEnd off ≤ b ∧ ∀ j, j < v'.cont off → ¬ IsType (v'.type (off + 64 * (j + 1))))
    (hcovered : ∀ off, v.Slot off → a ≤ off → off < b → ¬ IsType (v'.type off) →
      ∃ head, v.Slot head ∧ v'.Head head ∧ head < off ∧ off < v'.groupEnd head) : Layout v' := by
  have hhead : ∀ off, v.Slot off → off < a ∨ b ≤ off →
      (v'.Head off ↔ v.Head off) := fun off hoff ho => by
    rw [Vol.Head, Vol.Head, (hout off hoff ho).1]
  have hsplit : ∀ off, (a ≤ off ∧ off < b) ∨ off < a ∨ b ≤ off := fun off => by omega
  refine ⟨?_, ?_, ?_, ?_, ?_⟩
  · rw [ha.entryStart, (hout _ hg.slot_start (Or.inl hstart)).1]
    exact hl.start
  · intro off hoff hne ht
    have hoff' := ha.slot.1 hoff
    rw [ha.entryStart] at hne
    rcases hsplit off with ⟨h₁, h₂⟩ | ho
    · exact hknown off hoff' h₁ h₂ ht
    · rw [(hout off hoff' ho).1] at ht ⊢
      rw [hhead off hoff' ho]
      exact hl.known off hoff' hne ht
  · intro off hoff hh
    have hoff' := ha.slot.1 hoff
    rw [ha.volIdent]
    rcases hsplit off with ⟨h₁, h₂⟩ | ho
    · exact Nat.le_trans (hgroup off hoff' h₁ h₂ hh).1 hb
    · have hh' := (hhead off hoff' ho).1 hh
      rw [Vol.groupEnd, (hout off hoff' ho).2 hh']
      exact hl.inside off hoff' hh'
  · intro off hoff hh j hj
    have hoff' := ha.slot.1 hoff
    rcases hsplit off with ⟨h₁, h₂⟩ | ho
    · exact (hgroup off hoff' h₁ h₂ hh).2 j hj
    · have hh' := (hhead off hoff' ho).1 hh
      rw [(hout off hoff' ho).2 hh'] at hj
      have hin := hl.inside off hoff' hh'
      have hpiece := hl.pieces off hoff' hh' j hj
      have hge := hoff'.ge
      have hal := hoff'.aligned
      have hslot : v.Slot (off + 64 * (j + 1)) := by
        rw [Vol.groupEnd] at hin
        exact ⟨by omega, by omega, by omega⟩
      rw [(hout _ hslot ?_).1]
      · exact hpiece
      · rcases ho with ho | ho
        · have hend := hbefore off hoff' hh' ho
          rw [Vol.groupEnd] at hend
          omega
        · omega
  · intro off hoff ht
    have hoff' := ha.slot.1 hoff
    rcases hsplit off with ⟨h₁, h₂⟩ | ho
    · obtain ⟨head, hs, hh, hlt, hin⟩ := hcovered off hoff' h₁ h₂ ht
      exact ⟨head, ha.slot.2 hs, hh, hlt, hin⟩
    · rw [(hout off hoff' ho).1] at ht
      obtain ⟨head, hs, hh, hlt, hin⟩ := hl.covered off hoff' ht
      have ho' : head < a ∨ b ≤ head := by
        rcases hsplit head with ⟨h₁, h₂⟩ | ho'
        · have hend := hwithin head hs hh h₁ h₂
          omega
        · exact ho'
      refine ⟨head, ha.slot.2 hs, (hhead head hs ho').2 hh, hlt, ?_⟩
      rw [Vol.groupEnd, (hout head hs ho').2 hh]
      exact hin

/-- Unused slots filled with a head and its continuation slots. -/
theorem fill (hl : Layout v) (hg : Geometry v lo hi) (ha : SameArea v v') {a n : Nat}
    (hslot : v.Slot a) (hn : 0 < n) (hend : a + 64 * n ≤ v.fs.volIdent)
    (hunused : ∀ j, j < n → v.type (a + 64 * j) = EntryType.unusedEntry.code)
    (hout : ∀ off, v.Slot off → off < a ∨ a + 64 * n ≤ off →
      v'.type off = v.type off ∧ (v.Head off → v'.cont off = v.cont off))
    (hhead : v'.Head a) (hcont : v'.cont a = n - 1)
    (hpieces : ∀ j, 0 < j → j < n → ¬ IsType (v'.type (a + 64 * j))) : Layout v' := by
  have hal := hslot.aligned
  have hfirst : v.type a = EntryType.unusedEntry.code := hunused 0 hn
  have hne : v.fs.entryStart ≠ a := by
    intro heq
    rw [← heq, hl.start] at hfirst
    exact absurd hfirst (by decide)
  have hnotHead : ∀ off, v.Slot off → a ≤ off → off < a + 64 * n → ¬ v.Head off := by
    intro off hoff h₁ h₂ hh
    have hu := hunused ((off - a) / 64) (by omega)
    have hal' := hoff.aligned
    rw [show a + 64 * ((off - a) / 64) = off by omega] at hu
    rcases hh with h | h | h <;> rw [hu] at h <;> exact absurd h (by decide)
  -- Every slot of the run but the first one is a piece.
  have hpiece : ∀ off, v.Slot off → a < off → off < a + 64 * n → ¬ IsType (v'.type off) := by
    intro off hoff h₁ h₂
    have hal' := hoff.aligned
    have hp := hpieces ((off - a) / 64) (by omega) (by omega)
    rwa [show a + 64 * ((off - a) / 64) = off by omega] at hp
  refine hl.splice hg ha (Nat.lt_of_le_of_ne hslot.ge hne) hend hout ?_ ?_ ?_ ?_ ?_
  · intro head hs hh hlt
    exact hl.no_cross hs hh hslot (hfirst ▸ isType_code _) hlt
  · intro head hs hh h₁ h₂
    exact absurd hh (hnotHead head hs h₁ h₂)
  · intro off hoff h₁ h₂ ht
    rcases Nat.eq_or_lt_of_le h₁ with heq | hlt
    · exact Or.inr (heq ▸ hhead)
    · exact absurd ht (hpiece off hoff hlt h₂)
  · intro off hoff h₁ h₂ hh
    rcases Nat.eq_or_lt_of_le h₁ with heq | hlt
    · rw [← heq, Vol.groupEnd, hcont]
      exact ⟨by omega, fun j hj => hpieces (j + 1) (by omega) (by omega)⟩
    · exact absurd (isType_of_head hh) (hpiece off hoff hlt h₂)
  · intro off hoff h₁ h₂ ht
    refine ⟨a, hslot, hhead, ?_, ?_⟩
    · rcases Nat.eq_or_lt_of_le h₁ with heq | hlt
      · exact absurd (isType_of_head (heq ▸ hhead)) ht
      · exact hlt
    · rw [Vol.groupEnd, hcont]
      omega

/-- A group whose slots all become unused. -/
theorem release (hl : Layout v) (hg : Geometry v lo hi) (ha : SameArea v v') {a : Nat}
    (hslot : v.Slot a) (hhead : v.Head a)
    (hunused : ∀ j, j < v.cont a + 1 → v'.type (a + 64 * j) = EntryType.unusedEntry.code)
    (hout : ∀ off, v.Slot off → off < a ∨ v.groupEnd a ≤ off →
      v'.type off = v.type off ∧ (v.Head off → v'.cont off = v.cont off)) : Layout v' := by
  have hal := hslot.aligned
  have hne : v.fs.entryStart ≠ a := by
    intro heq
    exact hl.start_not_head (heq ▸ hhead)
  have hall : ∀ off, v.Slot off → a ≤ off → off < v.groupEnd a →
      v'.type off = EntryType.unusedEntry.code := by
    intro off hoff h₁ h₂
    have hal' := hoff.aligned
    rw [Vol.groupEnd] at h₂
    have hu := hunused ((off - a) / 64) (by omega)
    rwa [show a + 64 * ((off - a) / 64) = off by omega] at hu
  refine hl.splice hg ha (Nat.lt_of_le_of_ne hslot.ge hne) (hl.inside a hslot hhead) hout
    ?_ ?_ ?_ ?_ ?_
  · intro head hs hh hlt
    exact hl.no_cross hs hh hslot (isType_of_head hhead) hlt
  · intro head hs hh h₁ h₂
    rcases Nat.eq_or_lt_of_le h₁ with heq | hlt
    · rw [← heq]
    · exact absurd (hl.no_cross hslot hhead hs (isType_of_head hh) hlt) (Nat.not_le.2 h₂)
  · exact fun off hoff h₁ h₂ _ => Or.inl (hall off hoff h₁ h₂)
  · intro off hoff h₁ h₂ hh
    have hu := hall off hoff h₁ h₂
    rcases hh with h | h | h <;> rw [hu] at h <;> exact absurd h (by decide)
  · intro off hoff h₁ h₂ ht
    rw [hall off hoff h₁ h₂] at ht
    exact absurd (isType_code _) ht

end Layout

end Sfs
