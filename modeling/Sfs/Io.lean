import Sfs.Blockdev

/-!
# Byte transfers through the one-block buffer

`read_data`, `write_data` and `copy_block` of `io.c`.  A request is cut into a
leading partial block, a loop of whole blocks and a trailing partial block,
all moved through `dev->buf`; `dev->buf_num` is updated by hand along the way.

The caller's memory is a `Mem` that starts at the pointer it passes, and
`pos` is where the running pointer stands in it.

Main results:

* `readData_of_fits` and `readData_of_spans` give the memory and the device after
  a read on a device that works, for a request in one block and for a longer one;
* `writeData_eq` and `copyBlock_eq` give the device after a write and a copy.
-/

namespace Sfs

open Lib

/-! ## The functions -/

/-- The `while (size >= bsize)` loop of `read_data` and the trailing partial
block after it.  `size + 1` rounds of fuel are enough. -/
def readBlocks : Nat → BlockDev → Mem → Nat → Nat → Nat → Bool × Mem × BlockDev
  | 0, dev, data, _, _, _ => (false, data, dev)
  | fuel + 1, dev, data, pos, size, bnum =>
    if dev.blockSize ≤ size then
      match dev.read bnum with
      | (false, dev) => (false, data, dev)
      | (true, dev) =>
        readBlocks fuel dev (blit data pos dev.buf 0 dev.blockSize) (pos + dev.blockSize)
          (size - dev.blockSize) (bnum + 1)
    else if size = 0 then (true, data, dev)
    else
      -- `buf_num` is set before the read that may fail.
      match { dev with bufNum := some bnum }.read bnum with
      | (false, dev) => (false, data, dev)
      | (true, dev) => (true, blit data pos dev.buf 0 size, dev)

/-- The first block of `read_data`: nothing to do when the cache holds it. -/
def readFirst (dev : BlockDev) (bnum : Nat) : Bool × BlockDev :=
  if dev.bufNum = some bnum then (true, dev)
  else
    match dev.read bnum with
    | (false, dev) => (false, dev)
    | (true, dev) => (true, { dev with bufNum := some bnum })

/-- `read_data`. -/
def readData (dev : BlockDev) (offset : Nat) (data : Mem) (size : Nat) : Nat × Mem × BlockDev :=
  let bsize := dev.blockSize
  let bnum := offset / bsize
  let curPos := offset % bsize
  match readFirst dev bnum with
  | (false, dev) => (minusOne, data, dev)
  | (true, dev) =>
    if u64 (curPos + size) ≤ bsize then (size, blit data 0 dev.buf curPos size, dev)
    else
      -- The pointer moves by `bsize + cur_pos`, past the bytes just copied.
      match readBlocks (size + 1) dev (blit data 0 dev.buf curPos (bsize - curPos))
          (bsize + curPos) (size - (bsize - curPos)) (bnum + 1) with
      | (false, data, dev) => (minusOne, data, dev)
      | (true, data, dev) => (size, data, dev)

/-- The `while (size >= bsize)` loop of `write_data` and the trailing partial
block after it. -/
def writeBlocks : Nat → BlockDev → Mem → Nat → Nat → Nat → Bool × BlockDev
  | 0, dev, _, _, _, _ => (false, dev)
  | fuel + 1, dev, data, pos, size, bnum =>
    if dev.blockSize ≤ size then
      match { dev with buf := blit dev.buf 0 data pos dev.blockSize }.write bnum with
      | (false, dev) => (false, dev)
      | (true, dev) =>
        writeBlocks fuel { dev with bufNum := none } data (pos + dev.blockSize)
          (size - dev.blockSize) (bnum + 1)
    else if size = 0 then (true, dev)
    else
      match { dev with bufNum := some bnum }.read bnum with
      | (false, dev) => (false, dev)
      | (true, dev) => { dev with buf := blit dev.buf 0 data pos size }.write bnum

/-- `write_data`. -/
def writeData (dev : BlockDev) (offset : Nat) (data : Mem) (size : Nat) : Nat × BlockDev :=
  let bsize := dev.blockSize
  let bnum := offset / bsize
  let curPos := offset % bsize
  match dev.read bnum with
  | (false, dev) => (minusOne, dev)
  | (true, dev) =>
    let dev := { dev with bufNum := some bnum }
    if u64 (curPos + size) ≤ bsize then
      match { dev with buf := blit dev.buf curPos data 0 size }.write bnum with
      | (false, dev) => (minusOne, dev)
      | (true, dev) => (size, { dev with bufNum := none })
    else
      match { dev with buf := blit dev.buf curPos data 0 (bsize - curPos) }.write bnum with
      | (false, dev) => (minusOne, dev)
      | (true, dev) =>
        match writeBlocks (size + 1) dev data (bsize - curPos) (size - (bsize - curPos))
            (bnum + 1) with
        | (false, dev) => (minusOne, dev)
        | (true, dev) => (size, dev)

/-- `copy_block`: `size` blocks from `src` on to `dest` on, through the buffer
and without a word to `buf_num`. -/
def copyBlock : BlockDev → Nat → Nat → Nat → Int × BlockDev
  | dev, _, _, 0 => (0, dev)
  | dev, src, dest, size + 1 =>
    match dev.read src with
    | (false, dev) => (-1, dev)
    | (true, dev) =>
      match dev.write dest with
      | (false, dev) => (-1, dev)
      | (true, dev) => copyBlock dev (src + 1) (dest + 1) size

/-! ## Reading from a device that works -/

/-- The blocks from `bnum` on that hold the `n` bytes after their start. -/
def BlockDev.HasBlocks (dev : BlockDev) (bnum n : Nat) : Prop :=
  ∀ b, bnum ≤ b → b * dev.blockSize < bnum * dev.blockSize + n → dev.HasBlock b

theorem BlockDev.HasBlocks.tail {dev : BlockDev} {bnum n : Nat}
    (h : dev.HasBlocks bnum n) (hn : dev.blockSize ≤ n) :
    dev.HasBlocks (bnum + 1) (n - dev.blockSize) := by
  intro b hb hlt
  refine h b (by omega) ?_
  rw [Nat.succ_mul] at hlt
  omega

theorem BlockDev.SameDevice.hasBlocks {dev dev' : BlockDev} (h : dev.SameDevice dev')
    {bnum n : Nat} (hin : dev.HasBlocks bnum n) : dev'.HasBlocks bnum n := by
  intro b hb hlt
  rw [h.blockSize] at hlt
  exact h.hasBlock.2 (hin b hb hlt)

/-- Copying part of one block of the disk through the buffer. -/
theorem blit_through_buf {dst buf data : Mem} {i j p bs n : Nat} (hn : p + n ≤ bs) :
    blit dst i (blit buf 0 data j bs) p n = blit dst i data (j + p) n := by
  refine blit_congr (fun _ _ => rfl) fun k hk => ?_
  rw [blit_inside (by omega) (by omega), Nat.sub_zero, Nat.add_assoc]

theorem readBlocks_eq {dev : BlockDev} (hq : dev.Quiet) (hbs : 0 < dev.blockSize) (fuel : Nat)
    (data : Mem) (pos size bnum : Nat) (hfuel : size < fuel) (hin : dev.HasBlocks bnum size) :
    ∃ dev', readBlocks fuel dev data pos size bnum =
        (true, blit data pos dev.data (bnum * dev.blockSize) size, dev') ∧ dev.SameDisk dev' := by
  induction fuel generalizing dev data pos size bnum with
  | zero => omega
  | succ fuel ih =>
    rw [readBlocks]
    by_cases hsize : dev.blockSize ≤ size
    · have hblock : dev.HasBlock bnum := hin bnum (Nat.le_refl _) (by omega)
      obtain ⟨dev₁, hread, hsame, -, hbuf, -⟩ := BlockDev.read_of_works (hq.works 0) hblock
      rw [if_pos hsize, hread]
      dsimp only
      obtain ⟨dev', hrun, hsame'⟩ := ih (hsame.quiet hq) (by rw [hsame.blockSize]; exact hbs)
        (blit data pos dev₁.buf 0 dev₁.blockSize) (pos + dev₁.blockSize)
        (size - dev₁.blockSize) (bnum + 1) (by rw [hsame.blockSize]; omega)
        (hsame.hasBlocks (by rw [hsame.blockSize]; exact hin.tail hsize))
      refine ⟨dev', ?_, hsame.trans hsame'⟩
      rw [hrun, hbuf, hsame.blockSize, hsame.data, blit_through_buf (by omega), Nat.add_zero,
        Nat.succ_mul, blit_blit_append, Nat.add_sub_cancel' hsize]
    · rw [if_neg hsize]
      by_cases hzero : size = 0
      · rw [if_pos hzero, hzero, blit_zero]
        exact ⟨dev, rfl, .refl dev⟩
      · have hblock : { dev with bufNum := some bnum }.HasBlock bnum :=
          hin bnum (Nat.le_refl _) (by omega)
        obtain ⟨dev₁, hread, hsame, -, hbuf, -⟩ :=
          BlockDev.read_of_works (d := { dev with bufNum := some bnum }) (hq _) hblock
        rw [if_neg hzero, hread]
        dsimp only
        refine ⟨dev₁, ?_, ⟨⟨hsame.size, hsame.blockSize, hsame.faults⟩, hsame.data⟩⟩
        rw [hbuf, blit_through_buf (by dsimp only; omega), Nat.add_zero]

/-- The first block of a read ends up in the buffer, under its number. -/
theorem readFirst_eq {dev : BlockDev} (hq : dev.Quiet) (hc : dev.Coherent) {bnum : Nat}
    (hblock : dev.HasBlock bnum) :
    ∃ dev', readFirst dev bnum = (true, dev') ∧ dev.SameDisk dev' ∧ dev'.bufNum = some bnum ∧
      ∀ i, i < dev.blockSize → dev'.buf i = dev.data (bnum * dev.blockSize + i) := by
  unfold readFirst
  by_cases hhit : dev.bufNum = some bnum
  · rw [if_pos hhit]
    exact ⟨dev, rfl, .refl dev, hhit, (hc bnum hhit).2⟩
  · obtain ⟨dev₁, hread, hsame, -, hbuf, -⟩ := BlockDev.read_of_works (hq.works 0) hblock
    rw [if_neg hhit, hread]
    refine ⟨_, rfl, ⟨⟨hsame.size, hsame.blockSize, hsame.faults⟩, hsame.data⟩, rfl, ?_⟩
    intro i hi
    rw [hbuf, blit_inside (Nat.zero_le i) (by omega), Nat.sub_zero]

/-- The bytes of a request that stays in one block come from that block. -/
theorem blit_from_block {dst buf data : Mem} {i offset bs n : Nat}
    (hbuf : ∀ k, k < bs → buf k = data (offset / bs * bs + k)) (hn : offset % bs + n ≤ bs) :
    blit dst i buf (offset % bs) n = blit dst i data offset n := by
  refine blit_congr (fun _ _ => rfl) fun k hk => ?_
  rw [hbuf _ (by omega), ← Nat.add_assoc, Nat.mul_comm, Nat.div_add_mod]

section ReadData

variable {dev : BlockDev} {offset size : Nat}

/-- A read inside one block. -/
theorem readData_of_fits (hq : dev.Quiet) (hc : dev.Coherent) (hbs : dev.blockSize < 2 ^ 63)
    (hblock : dev.HasBlock (offset / dev.blockSize))
    (hfits : offset % dev.blockSize + size ≤ dev.blockSize) (data : Mem) :
    ∃ dev', readData dev offset data size = (size, blit data 0 dev.data offset size, dev') ∧
      dev.SameDisk dev' ∧ dev'.bufNum = some (offset / dev.blockSize) ∧ dev'.Coherent := by
  obtain ⟨dev₁, hfirst, hsame, hnum, hbuf⟩ := readFirst_eq hq hc hblock
  refine ⟨dev₁, ?_, hsame, hnum, BlockDev.coherent_of_read hsame hblock hnum hbuf⟩
  have hwrap : u64 (offset % dev.blockSize + size) = offset % dev.blockSize + size :=
    Nat.mod_eq_of_lt (by omega)
  unfold readData
  dsimp only
  rw [hfirst]
  dsimp only
  rw [hwrap, if_pos hfits, blit_from_block hbuf hfits]

/-- A read of more than one block.  The bytes after the first block land
`2 * cur_pos` places too far on. -/
theorem readData_of_spans (hq : dev.Quiet) (hc : dev.Coherent) (hbs : 0 < dev.blockSize)
    (hrange : dev.HasRange offset size)
    (hwrap : offset % dev.blockSize + size < 18446744073709551616)
    (hspan : dev.blockSize < offset % dev.blockSize + size) (data : Mem) :
    ∃ dev', readData dev offset data size =
        (size, blit (blit data 0 dev.data offset (dev.blockSize - offset % dev.blockSize))
          (dev.blockSize + offset % dev.blockSize) dev.data
          ((offset / dev.blockSize + 1) * dev.blockSize)
          (size - (dev.blockSize - offset % dev.blockSize)), dev') ∧
      dev.SameDisk dev' := by
  have hcur : offset % dev.blockSize < dev.blockSize := Nat.mod_lt _ hbs
  have hdm : dev.blockSize * (offset / dev.blockSize) + offset % dev.blockSize = offset :=
    Nat.div_add_mod _ _
  have hfirstBlock : dev.HasBlock (offset / dev.blockSize) :=
    hrange _ (Nat.le_refl _) (Nat.div_le_div_right (by omega))
  obtain ⟨dev₁, hfirst, hsame, -, hbuf⟩ := readFirst_eq hq hc hfirstBlock
  have hrest : dev₁.HasBlocks (offset / dev.blockSize + 1)
      (size - (dev.blockSize - offset % dev.blockSize)) := by
    refine hsame.hasBlocks fun b hb hlt => hrange b (by omega) ?_
    rw [Nat.le_div_iff_mul_le hbs]
    rw [Nat.succ_mul, Nat.mul_comm (offset / dev.blockSize)] at hlt
    omega
  obtain ⟨dev₂, hrun, hsame₂⟩ := readBlocks_eq (hsame.quiet hq)
    (by rw [hsame.blockSize]; exact hbs) (size + 1)
    (blit data 0 dev₁.buf (offset % dev.blockSize) (dev.blockSize - offset % dev.blockSize))
    (dev.blockSize + offset % dev.blockSize)
    (size - (dev.blockSize - offset % dev.blockSize)) (offset / dev.blockSize + 1)
    (by omega) hrest
  refine ⟨dev₂, ?_, hsame.trans hsame₂⟩
  unfold readData
  dsimp only
  rw [hfirst]
  dsimp only
  rw [u64, Nat.mod_eq_of_lt hwrap, if_neg (Nat.not_le.2 hspan), hrun, hsame.blockSize,
    hsame.data, blit_from_block hbuf (by omega)]

end ReadData

/-! ## Writing to a device that works -/

/-- A block read, patched and written back is a patch of the disk. -/
theorem blit_patched_block {disk buf data : Mem} {a c pos n bs : Nat}
    (hbuf : ∀ k, k < bs → buf k = disk (a + k)) (hn : c + n ≤ bs) :
    blit disk a (blit buf c data pos n) 0 bs = blit disk (a + c) data pos n := by
  funext k
  by_cases hk : a ≤ k ∧ k < a + bs
  · rw [blit_inside hk.1 hk.2, Nat.zero_add]
    by_cases hin : a + c ≤ k ∧ k < a + c + n
    · rw [blit_inside (by omega) (by omega), blit_inside hin.1 hin.2]
      congr 1
      omega
    · rw [blit_outside (by omega), blit_outside (by omega), hbuf _ (by omega)]
      congr 1
      omega
  · rw [blit_outside (by omega), blit_outside (by omega)]

/-- What `buf_num` is after the rest of a write, past its first block. -/
def tailCached (bs : Nat) (cached : Option Nat) (bnum size : Nat) : Option Nat :=
  if size = 0 then cached else if size % bs = 0 then none else some (bnum + size / bs)

/-- What `buf_num` is after a write. -/
def writeCached (bs offset size : Nat) : Option Nat :=
  if offset % bs + size ≤ bs then none
  else tailCached bs none (offset / bs + 1) (size - (bs - offset % bs))

theorem tailCached_step {bs size bnum : Nat} {cached : Option Nat} (hbs : 0 < bs)
    (hsize : bs ≤ size) :
    tailCached bs none (bnum + 1) (size - bs) = tailCached bs cached bnum size := by
  have hdiv : size / bs = (size - bs) / bs + 1 := by
    rw [← Nat.add_div_right _ hbs, Nat.sub_add_cancel hsize]
  have hmod : (size - bs) % bs = size % bs := (Nat.mod_eq_sub_mod hsize).symm
  unfold tailCached
  rw [hmod, if_neg (show size ≠ 0 by omega)]
  by_cases hzero : size - bs = 0
  · have hmod' : size % bs = 0 := by rw [← hmod, hzero, Nat.zero_mod]
    rw [if_pos hzero, if_pos hmod']
  · rw [if_neg hzero]
    by_cases hm : size % bs = 0
    · rw [if_pos hm, if_pos hm]
    · rw [if_neg hm, if_neg hm, hdiv]
      congr 1
      omega

theorem writeBlocks_eq {dev : BlockDev} (hq : dev.Quiet) (hbs : 0 < dev.blockSize) (fuel : Nat)
    (data : Mem) (pos size bnum : Nat) (hfuel : size < fuel) (hc : dev.Coherent)
    (hin : dev.HasBlocks bnum size) :
    ∃ dev', writeBlocks fuel dev data pos size bnum = (true, dev') ∧ dev.SameDevice dev' ∧
      dev'.data = blit dev.data (bnum * dev.blockSize) data pos size ∧
      dev'.bufNum = tailCached dev.blockSize dev.bufNum bnum size ∧ dev'.Coherent := by
  induction fuel generalizing dev data pos size bnum with
  | zero => omega
  | succ fuel ih =>
    rw [writeBlocks]
    by_cases hsize : dev.blockSize ≤ size
    · obtain ⟨dev₁, hwrite, hsame, -, -, hdata, -⟩ := BlockDev.write_of_works
        (d := { dev with buf := blit dev.buf 0 data pos dev.blockSize }) (hq _) bnum
      have hbs₁ : dev₁.blockSize = dev.blockSize := hsame.blockSize
      have hdata₁ : dev₁.data = blit dev.data (bnum * dev.blockSize) data pos dev.blockSize := by
        rw [hdata]
        refine blit_congr (fun _ _ => rfl) fun k hk => ?_
        dsimp only at hk ⊢
        rw [blit_add hk]
      have hq₁ : dev₁.Quiet := hsame.quiet hq
      have hrest : dev₁.HasBlocks (bnum + 1) (size - dev₁.blockSize) := by
        rw [hbs₁]
        exact hsame.hasBlocks (hin.tail hsize)
      rw [if_pos hsize, hwrite]
      dsimp only
      obtain ⟨dev', hrun, hsame', hdata', hnum', hc'⟩ := @ih { dev₁ with bufNum := none }
        hq₁ (by dsimp only; omega) data (pos + dev₁.blockSize) (size - dev₁.blockSize)
        (bnum + 1) (by omega) (fun _ h => nomatch h) hrest
      refine ⟨dev', hrun, ⟨hsame'.size.trans hsame.size, hsame'.blockSize.trans hbs₁,
        hsame'.faults.trans hsame.faults⟩, ?_, ?_, hc'⟩
      · rw [hdata', hbs₁, hdata₁, Nat.succ_mul, blit_blit_append, Nat.add_sub_cancel' hsize]
      · rw [hnum', hbs₁]
        exact tailCached_step hbs hsize
    · rw [if_neg hsize]
      by_cases hzero : size = 0
      · rw [if_pos hzero, hzero, blit_zero]
        exact ⟨dev, rfl, ⟨rfl, rfl, rfl⟩, rfl, rfl, hc⟩
      · have hblock : { dev with bufNum := some bnum }.HasBlock bnum :=
          hin bnum (Nat.le_refl _) (by omega)
        obtain ⟨dev₁, hread, hsame, hnum, hbuf, -⟩ :=
          BlockDev.read_of_works (d := { dev with bufNum := some bnum }) (hq _) hblock
        have hbs₁ : dev₁.blockSize = dev.blockSize := hsame.blockSize
        obtain ⟨dev₂, hwrite, hsame₂, hnum₂, hbuf₂, hdata₂, -⟩ := BlockDev.write_of_works
          (d := { dev₁ with buf := blit dev₁.buf 0 data pos size }) (hsame.quiet hq _) bnum
        have hbs₂ : dev₂.blockSize = dev.blockSize := hsame₂.blockSize.trans hbs₁
        have hbuf₁ : ∀ k, k < dev.blockSize → dev₁.buf k = dev.data (bnum * dev.blockSize + k) := by
          intro k hk
          rw [hbuf, blit_inside (by omega) (by simpa using hk), Nat.sub_zero]
        rw [if_neg hzero, hread]
        dsimp only
        refine ⟨dev₂, hwrite, ⟨hsame₂.size.trans hsame.size, hbs₂,
          hsame₂.faults.trans hsame.faults⟩, ?_, ?_, ?_⟩
        · rw [hdata₂]
          dsimp only
          rw [hbs₁, show dev₁.data = dev.data from hsame.data,
            blit_patched_block hbuf₁ (by omega), Nat.add_zero]
        · rw [hnum₂]
          dsimp only
          rw [hnum, tailCached, if_neg hzero, Nat.mod_eq_of_lt (by omega), if_neg hzero,
            Nat.div_eq_of_lt (by omega), Nat.add_zero]
        · intro b hb
          rw [hnum₂] at hb
          dsimp only at hb
          rw [hnum] at hb
          obtain rfl : bnum = b := Option.some.inj hb
          refine ⟨hsame₂.hasBlock.2 (hsame.hasBlock.2 hblock), fun i hi => ?_⟩
          rw [hdata₂, hbuf₂, hbs₂]
          dsimp only
          rw [hbs₁, blit_add (by omega), Nat.zero_add]

section WriteData

variable {dev : BlockDev} {offset size : Nat}

/-- A write is a splice: the bytes of the request change, nothing else. -/
theorem writeData_eq (hq : dev.Quiet) (hbs : 0 < dev.blockSize)
    (hrange : dev.HasRange offset size)
    (hwrap : offset % dev.blockSize + size < 18446744073709551616) (data : Mem) :
    ∃ dev', writeData dev offset data size = (size, dev') ∧ dev.SameDevice dev' ∧
      dev'.data = blit dev.data offset data 0 size ∧
      dev'.bufNum = writeCached dev.blockSize offset size ∧ dev'.Coherent := by
  have hcur : offset % dev.blockSize < dev.blockSize := Nat.mod_lt _ hbs
  have hdm : dev.blockSize * (offset / dev.blockSize) + offset % dev.blockSize = offset :=
    Nat.div_add_mod _ _
  have hdm' : offset / dev.blockSize * dev.blockSize + offset % dev.blockSize = offset := by
    rw [Nat.mul_comm]; exact hdm
  have hfirst : dev.HasBlock (offset / dev.blockSize) :=
    hrange _ (Nat.le_refl _) (Nat.div_le_div_right (by omega))
  obtain ⟨dev₁, hread, hsame₁, -, hbuf₁, -⟩ := BlockDev.read_of_works (hq.works 0) hfirst
  have hbs₁ : dev₁.blockSize = dev.blockSize := hsame₁.blockSize
  have hblock₁ : ∀ k, k < dev.blockSize →
      dev₁.buf k = dev.data (offset / dev.blockSize * dev.blockSize + k) := by
    intro k hk
    rw [hbuf₁, blit_inside (by omega) (by simpa using hk), Nat.sub_zero]
  unfold writeData
  dsimp only
  rw [hread]
  dsimp only
  rw [u64, Nat.mod_eq_of_lt hwrap, writeCached]
  by_cases hfits : offset % dev.blockSize + size ≤ dev.blockSize
  · obtain ⟨dev₂, hwrite, hsame₂, -, -, hdata₂, -⟩ := BlockDev.write_of_works
      (d := { dev₁ with
        bufNum := some (offset / dev.blockSize)
        buf := blit dev₁.buf (offset % dev.blockSize) data 0 size })
      (hsame₁.quiet hq _) (offset / dev.blockSize)
    rw [if_pos hfits, if_pos hfits, hwrite]
    refine ⟨_, rfl, ⟨hsame₂.size.trans hsame₁.size, hsame₂.blockSize.trans hbs₁,
      hsame₂.faults.trans hsame₁.faults⟩, ?_, rfl, fun _ h => nomatch h⟩
    dsimp only at hdata₂ ⊢
    rw [hdata₂, hbs₁, hsame₁.data, blit_patched_block hblock₁ hfits, hdm']
  · obtain ⟨dev₂, hwrite, hsame₂, hnum₂, hbuf₂, hdata₂, -⟩ := BlockDev.write_of_works
      (d := { dev₁ with
        bufNum := some (offset / dev.blockSize)
        buf := blit dev₁.buf (offset % dev.blockSize) data 0
          (dev.blockSize - offset % dev.blockSize) })
      (hsame₁.quiet hq _) (offset / dev.blockSize)
    have hbs₂ : dev₂.blockSize = dev.blockSize := hsame₂.blockSize.trans hbs₁
    have hsame : dev.SameDevice dev₂ :=
      ⟨hsame₂.size.trans hsame₁.size, hbs₂, hsame₂.faults.trans hsame₁.faults⟩
    have hc₂ : dev₂.Coherent := by
      intro b hb
      rw [hnum₂] at hb
      obtain rfl : offset / dev.blockSize = b := Option.some.inj hb
      refine ⟨hsame.hasBlock.2 hfirst, fun i hi => ?_⟩
      rw [hbs₂] at hi
      rw [hdata₂, hbuf₂]
      dsimp only
      rw [hbs₂, hbs₁, blit_add hi, Nat.zero_add]
    have hrest : dev₂.HasBlocks (offset / dev.blockSize + 1)
        (size - (dev.blockSize - offset % dev.blockSize)) := by
      refine hsame.hasBlocks fun b hb hlt => hrange b (by omega) ?_
      rw [Nat.le_div_iff_mul_le hbs]
      rw [Nat.succ_mul, Nat.mul_comm (offset / dev.blockSize)] at hlt
      omega
    obtain ⟨dev₃, hrun, hsame₃, hdata₃, hnum₃, hc₃⟩ := writeBlocks_eq (hsame.quiet hq)
      (by omega) (size + 1) data (dev.blockSize - offset % dev.blockSize)
      (size - (dev.blockSize - offset % dev.blockSize)) (offset / dev.blockSize + 1)
      (by omega) hc₂ hrest
    rw [if_neg hfits, if_neg hfits, hwrite]
    dsimp only
    rw [hrun]
    refine ⟨dev₃, rfl, hsame.trans hsame₃, ?_, ?_, hc₃⟩
    · dsimp only at hdata₂
      rw [hdata₃, hdata₂, hbs₂, hbs₁, hsame₁.data, blit_patched_block hblock₁ (by omega), hdm']
      have hnext : (offset / dev.blockSize + 1) * dev.blockSize
          = offset + (dev.blockSize - offset % dev.blockSize) := by
        rw [Nat.succ_mul, Nat.mul_comm]; omega
      have happend := blit_blit_append dev.data data offset 0
        (dev.blockSize - offset % dev.blockSize) (size - (dev.blockSize - offset % dev.blockSize))
      rw [Nat.zero_add] at happend
      rw [hnext, happend]
      congr 1
      omega
    · have hpos : size - (dev.blockSize - offset % dev.blockSize) ≠ 0 := by omega
      rw [hnum₃, hbs₂, tailCached, tailCached, if_neg hpos, if_neg hpos]

end WriteData

/-- A copy between block ranges that do not meet, with nothing cached. -/
theorem copyBlock_eq {dev : BlockDev} (hq : dev.Quiet) (src dest n : Nat)
    (hsrc : ∀ i, i < n → dev.HasBlock (src + i)) (hdisj : src + n ≤ dest ∨ dest + n ≤ src) :
    ∃ dev', copyBlock dev src dest n = (0, dev') ∧ dev.SameDevice dev' ∧
      dev'.data = blit dev.data (dest * dev.blockSize) dev.data (src * dev.blockSize)
        (n * dev.blockSize) ∧ dev'.bufNum = dev.bufNum := by
  induction n generalizing dev src dest with
  | zero =>
    rw [copyBlock, Nat.zero_mul, blit_zero]
    exact ⟨dev, rfl, ⟨rfl, rfl, rfl⟩, rfl, rfl⟩
  | succ n ih =>
    have hfirst : dev.HasBlock src := hsrc 0 (by omega)
    obtain ⟨dev₁, hread, hsame₁, hnum₁, hbuf₁, -⟩ := BlockDev.read_of_works (hq.works 0) hfirst
    obtain ⟨dev₂, hwrite, hsame₂, hnum₂, -, hdata₂, -⟩ :=
      BlockDev.write_of_works ((hsame₁.quiet hq).works 0) dest
    have hsame := hsame₁.toSameDevice.trans hsame₂
    have hdata : dev₂.data = blit dev.data (dest * dev.blockSize) dev.data
        (src * dev.blockSize) dev.blockSize := by
      rw [hdata₂, hsame₁.data, hsame₁.blockSize, hbuf₁]
      exact blit_through_buf (by omega)
    have hrest : ∀ i, i < n → dev₂.HasBlock (src + 1 + i) := by
      intro i hi
      rw [Nat.add_assoc, Nat.add_comm 1 i]
      exact hsame.hasBlock.2 (hsrc (i + 1) (by omega))
    obtain ⟨dev', hrun, hsame', hdata', hnum'⟩ :=
      ih (hsame.quiet hq) (src + 1) (dest + 1) hrest (by omega)
    rw [copyBlock, hread]
    dsimp only
    rw [hwrite]
    refine ⟨dev', hrun, hsame.trans hsame', ?_, (hnum'.trans hnum₂).trans hnum₁⟩
    -- The blocks still to be copied are not among those already written.
    have hsrcKept : ∀ k, k < n * dev.blockSize →
        dev₂.data ((src + 1) * dev.blockSize + k) = dev.data ((src + 1) * dev.blockSize + k) := by
      intro k hk
      rw [hdata]
      refine blit_outside ?_
      rcases hdisj with h | h
      · have := Nat.mul_le_mul_right dev.blockSize h
        rw [Nat.add_mul, Nat.succ_mul] at this
        rw [Nat.succ_mul]
        omega
      · have := Nat.mul_le_mul_right dev.blockSize (show dest + 1 ≤ src by omega)
        rw [Nat.succ_mul] at this
        rw [Nat.succ_mul]
        omega
    rw [hdata', hsame.blockSize, blit_congr (fun _ _ => rfl) hsrcKept, hdata, Nat.succ_mul,
      Nat.succ_mul, blit_blit_append, Nat.succ_mul, Nat.add_comm (n * dev.blockSize)]

end Sfs
