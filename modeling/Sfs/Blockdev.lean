import Sfs.Lib.Memory

/-!
# The block device

`struct block_dev_t` with the accesses of `filedev.c`, the device under every
mounted volume: a backing store, a one-block buffer, and the number of the
block the buffer holds.  `filedev_read` refuses a block that reaches past
`size`; `filedev_write` has no such check.

Whether an access fails for a reason of the medium is up to the environment:
`faults n` is `none` when the `n`-th access works, and otherwise gives the
bytes that a failed read leaves in the buffer or a failed write leaves in the
block.
-/

namespace Sfs

open Lib

/-- `(size_t) -1`, which is also the bit pattern of `(off_t) -1`. -/
abbrev minusOne : Nat := 18446744073709551615

/-- The value of an unsigned 64-bit expression. -/
abbrev u64 (n : Nat) : Nat := n % 18446744073709551616

theorem u64_of_lt {n : Nat} (h : n < 18446744073709551616) : u64 n = n := Nat.mod_eq_of_lt h

/-- The difference of two unsigned 64-bit values. -/
def sub64 (a b : Nat) : Nat := if b ≤ a then a - b else 18446744073709551616 - (b - a)

theorem sub64_of_le {a b : Nat} (h : b ≤ a) : sub64 a b = a - b := if_pos h

/-- `struct block_dev_t` over its backing file.  `bufNum` is `none` for
`(bnum_t) -1`. -/
structure BlockDev where
  size : Nat
  blockSize : Nat
  data : Mem
  buf : Mem
  bufNum : Option Nat
  faults : Nat → Option Mem
  accesses : Nat

namespace BlockDev

/-- `filedev_read` of one block into `buf`.  The range check precedes the
transfer, so a block out of range leaves the buffer as it was. -/
def read (dev : BlockDev) (bnum : Nat) : Bool × BlockDev :=
  let done := { dev with accesses := dev.accesses + 1 }
  match dev.faults dev.accesses with
  | some junk => (false, { done with buf := junk })
  | none =>
    if dev.size < bnum * dev.blockSize + dev.blockSize then (false, done)
    else (true, { done with buf := blit dev.buf 0 dev.data (bnum * dev.blockSize) dev.blockSize })

/-- `filedev_write` of one block from `buf`. -/
def write (dev : BlockDev) (bnum : Nat) : Bool × BlockDev :=
  let done := { dev with accesses := dev.accesses + 1 }
  match dev.faults dev.accesses with
  | some junk =>
    (false, { done with data := blit dev.data (bnum * dev.blockSize) junk 0 dev.blockSize })
  | none =>
    (true, { done with data := blit dev.data (bnum * dev.blockSize) dev.buf 0 dev.blockSize })

/-! ## Devices that work -/

/-- No access fails for a reason of the medium. -/
def Quiet (dev : BlockDev) : Prop := ∀ n, dev.faults n = none

/-- Block `b` lies inside the device. -/
def HasBlock (dev : BlockDev) (b : Nat) : Prop :=
  b * dev.blockSize + dev.blockSize ≤ dev.size

/-- Every block that holds a byte of `[offset, offset + n)`, and the block of
`offset` itself, lies inside the device. -/
def HasRange (dev : BlockDev) (offset n : Nat) : Prop :=
  ∀ b, offset / dev.blockSize ≤ b → b ≤ (offset + (n - 1)) / dev.blockSize → dev.HasBlock b

/-- The cache holds nothing, or it holds a block of the device as the device
has it. -/
def Coherent (dev : BlockDev) : Prop :=
  ∀ b, dev.bufNum = some b → dev.HasBlock b ∧
    ∀ i, i < dev.blockSize → dev.buf i = dev.data (b * dev.blockSize + i)

instance (dev : BlockDev) (b : Nat) : Decidable (dev.HasBlock b) :=
  inferInstanceAs (Decidable (_ ≤ _))

/-- A device whose length is a number of blocks has every block of a request
that lies inside it. -/
theorem hasRange_of_le {dev : BlockDev} {offset n : Nat} (hbs : 0 < dev.blockSize)
    (hdvd : dev.blockSize ∣ dev.size) (hn : 0 < n) (hle : offset + n ≤ dev.size) :
    dev.HasRange offset n := by
  intro b _ hb
  obtain ⟨c, hc⟩ := hdvd
  have hlt : (offset + (n - 1)) / dev.blockSize < c := by
    rw [Nat.div_lt_iff_lt_mul hbs, Nat.mul_comm, ← hc]
    omega
  have hle' : (b + 1) * dev.blockSize ≤ c * dev.blockSize :=
    Nat.mul_le_mul_right _ (by omega)
  rw [Nat.succ_mul, Nat.mul_comm c, ← hc] at hle'
  exact hle'

/-- The request may be empty when its block is there. -/
theorem hasRange_of_block {dev : BlockDev} {offset n : Nat} (hbs : 0 < dev.blockSize)
    (hdvd : dev.blockSize ∣ dev.size) (hle : offset + n ≤ dev.size)
    (hblock : dev.HasBlock (offset / dev.blockSize)) : dev.HasRange offset n := by
  rcases Nat.eq_zero_or_pos n with rfl | hn
  · intro b hfrom hto
    obtain rfl : b = offset / dev.blockSize := Nat.le_antisymm hto hfrom
    exact hblock
  · exact hasRange_of_le hbs hdvd hn hle

/-- Two states of one device, whose data may differ. -/
structure SameDevice (dev dev' : BlockDev) : Prop where
  size : dev'.size = dev.size
  blockSize : dev'.blockSize = dev.blockSize
  faults : dev'.faults = dev.faults

/-- Two states of one device that differ only in the cache. -/
structure SameDisk (dev dev' : BlockDev) : Prop extends SameDevice dev dev' where
  data : dev'.data = dev.data

namespace SameDevice

variable {dev dev' dev'' : BlockDev}

theorem trans (h : dev.SameDevice dev') (h' : dev'.SameDevice dev'') : dev.SameDevice dev'' :=
  ⟨h'.size.trans h.size, h'.blockSize.trans h.blockSize, h'.faults.trans h.faults⟩

theorem quiet (h : dev.SameDevice dev') (hq : dev.Quiet) : dev'.Quiet := by
  intro n
  rw [h.faults]
  exact hq n

theorem hasBlock (h : dev.SameDevice dev') {b : Nat} : dev'.HasBlock b ↔ dev.HasBlock b := by
  rw [HasBlock, HasBlock, h.size, h.blockSize]

theorem hasRange (h : dev.SameDevice dev') {offset n : Nat} (hr : dev.HasRange offset n) :
    dev'.HasRange offset n := by
  intro b hb hb'
  rw [h.blockSize] at hb hb'
  exact h.hasBlock.2 (hr b hb hb')

end SameDevice

namespace SameDisk

variable {dev dev' dev'' : BlockDev}

theorem refl (dev : BlockDev) : dev.SameDisk dev := ⟨⟨rfl, rfl, rfl⟩, rfl⟩

theorem trans (h : dev.SameDisk dev') (h' : dev'.SameDisk dev'') : dev.SameDisk dev'' :=
  ⟨h.toSameDevice.trans h'.toSameDevice, h'.data.trans h.data⟩

end SameDisk

/-- The `i`-th access from now works. -/
def Works (dev : BlockDev) (i : Nat) : Prop := dev.faults (dev.accesses + i) = none

theorem Quiet.works {dev : BlockDev} (hq : dev.Quiet) (i : Nat) : dev.Works i := hq _

/-- After `n` accesses of the same device, the `i`-th access from then is the
`n + i`-th from before. -/
theorem SameDevice.works {dev dev' : BlockDev} (h : dev.SameDevice dev') {n : Nat}
    (hn : dev'.accesses = dev.accesses + n) (i : Nat) : dev'.Works i ↔ dev.Works (n + i) := by
  rw [Works, Works, h.faults, hn, Nat.add_assoc]

@[simp] theorem read_bufNum (dev : BlockDev) (b : Nat) : (dev.read b).2.bufNum = dev.bufNum := by
  unfold read
  dsimp only
  split
  · rfl
  · split <;> rfl

@[simp] theorem write_bufNum (dev : BlockDev) (b : Nat) :
    (dev.write b).2.bufNum = dev.bufNum := by
  unfold write
  dsimp only
  split <;> rfl

theorem read_of_works {d : BlockDev} (hw : d.Works 0) {b : Nat} (hb : d.HasBlock b) :
    ∃ d', d.read b = (true, d') ∧ d.SameDisk d' ∧ d'.bufNum = d.bufNum ∧
      d'.buf = blit d.buf 0 d.data (b * d.blockSize) d.blockSize ∧
      d'.accesses = d.accesses + 1 := by
  unfold HasBlock at hb
  have hnone : d.faults d.accesses = none := hw
  have hread : d.read b = (true, { d with
      accesses := d.accesses + 1
      buf := blit d.buf 0 d.data (b * d.blockSize) d.blockSize }) := by
    simp only [read, hnone, if_neg (Nat.not_lt.2 hb)]
  exact ⟨_, hread, ⟨⟨rfl, rfl, rfl⟩, rfl⟩, rfl, rfl, rfl⟩

theorem read_of_not_hasBlock {d : BlockDev} (hw : d.Works 0) {b : Nat}
    (hb : ¬ d.HasBlock b) :
    d.read b = (false, { d with accesses := d.accesses + 1 }) := by
  unfold HasBlock at hb
  have hnone : d.faults d.accesses = none := hw
  simp only [read, hnone, if_pos (Nat.not_le.1 hb)]

theorem read_of_not_works {d : BlockDev} (hw : ¬ d.Works 0) (b : Nat) :
    ∃ d', d.read b = (false, d') ∧ d'.bufNum = d.bufNum := by
  obtain ⟨junk, hjunk⟩ := Option.ne_none_iff_exists'.1 hw
  rw [Nat.add_zero] at hjunk
  have hread : d.read b = (false, { d with
      accesses := d.accesses + 1
      buf := junk }) := by
    simp only [read, hjunk]
  exact ⟨_, hread, rfl⟩

theorem write_of_works {d : BlockDev} (hw : d.Works 0) (b : Nat) :
    ∃ d', d.write b = (true, d') ∧ d.SameDevice d' ∧ d'.bufNum = d.bufNum ∧
      d'.buf = d.buf ∧
      d'.data = blit d.data (b * d.blockSize) d.buf 0 d.blockSize ∧
      d'.accesses = d.accesses + 1 := by
  have hnone : d.faults d.accesses = none := hw
  have hwrite : d.write b = (true, { d with
      accesses := d.accesses + 1
      data := blit d.data (b * d.blockSize) d.buf 0 d.blockSize }) := by
    simp only [write, hnone]
  exact ⟨_, hwrite, ⟨rfl, rfl, rfl⟩, rfl, rfl, rfl, rfl⟩

theorem write_of_not_works {d : BlockDev} (hw : ¬ d.Works 0) (b : Nat) :
    ∃ d' junk, d.write b = (false, d') ∧ d.SameDevice d' ∧
      d'.bufNum = d.bufNum ∧ d'.buf = d.buf ∧
      d'.data = blit d.data (b * d.blockSize) junk 0 d.blockSize := by
  obtain ⟨junk, hjunk⟩ := Option.ne_none_iff_exists'.1 hw
  rw [Nat.add_zero] at hjunk
  have hwrite : d.write b = (false, { d with
      accesses := d.accesses + 1
      data := blit d.data (b * d.blockSize) junk 0 d.blockSize }) := by
    simp only [write, hjunk]
  exact ⟨_, junk, hwrite, ⟨rfl, rfl, rfl⟩, rfl, rfl, rfl⟩

/-- An empty cache agrees with any device. -/
theorem coherent_of_none {dev : BlockDev} (h : dev.bufNum = none) : dev.Coherent := by
  intro b hb
  rw [h] at hb
  cases hb

/-- A cache filled by a read of block `b` agrees with the device. -/
theorem coherent_of_read {dev dev' : BlockDev} {b : Nat} (hsame : dev.SameDisk dev')
    (hblock : dev.HasBlock b) (hnum : dev'.bufNum = some b)
    (hbuf : ∀ i, i < dev.blockSize → dev'.buf i = dev.data (b * dev.blockSize + i)) :
    dev'.Coherent := by
  intro b' hb'
  rw [hnum] at hb'
  obtain rfl : b = b' := Option.some.inj hb'
  refine ⟨hsame.hasBlock.2 hblock, fun i hi => ?_⟩
  rw [hsame.blockSize] at hi ⊢
  rw [hbuf i hi, hsame.data]

end BlockDev

end Sfs
