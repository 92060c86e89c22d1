import Sfs.Cache

/-!
# Writes over the backing file

The device of `filedev.c` with the file under it: `filedev_read` and
`filedev_write` through `lseek`, `read` and `write` as POSIX has them, where a
write past the end of a file extends it.  `write_data` reaches the two through
the pointers in `struct block_dev_t`, so it is written here once more over
`DevOps`, and `writeDataOn_ops` says that over `BlockDev` it is the
`writeData` of the rest of the development.

Main results:

* `writeData_splice`: on a device that works, a write to a place inside it
  replaces the bytes of the request and no others;
* `staysInside_iff`: over the backing file, the whole blocks of a request
  behind its first one are written without a look at the size of the device.
-/

namespace Sfs

open Lib

/-! ## Splices -/

/-- A write that begins inside the device and does not reach past its end
replaces the bytes of the request, and keeps every other byte. -/
theorem writeData_splice {dev : BlockDev} (hq : dev.Quiet) (hbs : 0 < dev.blockSize)
    (hdvd : dev.blockSize ∣ dev.size) (hlt : dev.size < 2 ^ 64) {offset size : Nat}
    (hin : offset + size ≤ dev.size) (hstart : offset < dev.size) (data : Mem) :
    (writeData dev offset data size).1 = size ∧
      ∀ k, (writeData dev offset data size).2.data k =
        if offset ≤ k ∧ k < offset + size then data (k - offset) else dev.data k := by
  have hle : offset % dev.blockSize ≤ offset := Nat.mod_le _ _
  have hrange : dev.HasRange offset size := by
    intro b hb hb'
    -- An empty request still has the block it begins in.
    refine BlockDev.hasRange_of_le hbs hdvd (n := max size 1) (by omega) (by omega) b hb ?_
    rw [show max size 1 - 1 = size - 1 by omega]
    exact hb'
  obtain ⟨dev', hwrite, -, hdata, -⟩ := writeData_eq hq hbs hrange (by omega) data
  rw [hwrite]
  refine ⟨rfl, fun k => ?_⟩
  rw [hdata, blit, Nat.zero_add]

theorem writeData_splice_twoBlocks :
    (writeData twoBlocks 200 (fun _ => 7) 300).1 = 300 ∧
      ∀ k, (writeData twoBlocks 200 (fun _ => 7) 300).2.data k =
        if 200 ≤ k ∧ k < 200 + 300 then 7 else twoBlocks.data k :=
  @writeData_splice twoBlocks (fun _ => rfl) (by decide) ⟨2, rfl⟩ (by decide) 200 300
    (by decide) (by decide) fun _ => 7

/-- An empty write right behind the last byte is refused: its first block is
read all the same. -/
theorem writeData_empty_at_end :
    twoBlocks.Quiet ∧ 512 + 0 ≤ twoBlocks.size ∧
      (writeData twoBlocks 512 (fun _ => 7) 0).1 ≠ 0 := by
  exact ⟨fun _ => rfl, by decide, by decide⟩

/-! ## The backing file -/

/-- An open file: its bytes, its length, and the largest length that the
system lets it have. -/
structure File where
  length : Nat
  bytes : Mem
  limit : Nat
  length_le : length ≤ limit
  limit_lt : limit < 2 ^ 63

namespace File

/-- The byte at position `k`, if the file is that long. -/
def byte (f : File) (k : Nat) : Option UInt8 := if k < f.length then some (f.bytes k) else none

/-- `lseek` to an absolute position: an `off_t`, which must not be negative. -/
def lseek (pos : Nat) : Option Nat := if pos < 2 ^ 63 then some pos else none

/-- The number of bytes that `read` gets of `n` bytes at `pos`. -/
def read (f : File) (pos n : Nat) : Nat := min n (f.length - pos)

/-- `write` of `n` bytes at `pos`: as many as there is room for, and -1 when
there is none.  A gap behind the old end reads as zeros. -/
def write (f : File) (pos : Nat) (src : Mem) (n : Nat) : Int × File :=
  if h : f.limit ≤ pos then (-1, f)
  else
    let put := min n (f.limit - pos)
    (put, { f with
      length := max f.length (pos + put)
      bytes := blit (fun k => if k < f.length then f.bytes k else 0) pos src 0 put
      length_le := by have := f.length_le; omega })

theorem byte_of_limit {f : File} {k : Nat} (h : f.limit ≤ k) : f.byte k = none := by
  have := f.length_le
  exact if_neg (by omega)

@[simp] theorem write_limit (f : File) (pos : Nat) (src : Mem) (n : Nat) :
    (f.write pos src n).2.limit = f.limit := by
  unfold write
  split <;> rfl

/-- A write that puts all its bytes found room for them. -/
theorem write_full {f : File} {pos n : Nat} {src : Mem} (hn : 0 < n) :
    (f.write pos src n).1 = n ↔ pos + n ≤ f.limit := by
  unfold write
  split
  · simp only [Int.reduceNeg]
    omega
  · simp only [Nat.cast_inj]
    omega

/-- A write leaves the bytes behind it alone. -/
theorem write_byte_behind {f : File} {pos n k : Nat} {src : Mem} (hk : pos + n ≤ k) :
    (f.write pos src n).2.byte k = f.byte k := by
  unfold write
  split
  · rfl
  · rename_i hroom
    have hlen : k < max f.length (pos + min n (f.limit - pos)) ↔ k < f.length := by omega
    simp only [byte, hlen]
    split
    · rename_i hk'
      rw [blit_outside (by omega), if_pos hk']
    · rfl

/-- A write leaves the bytes before it alone. -/
theorem write_byte_before {f : File} {pos n k : Nat} {src : Mem} (hk : k < pos)
    (hlen : k < f.length) : (f.write pos src n).2.byte k = f.byte k := by
  unfold write
  split
  · rfl
  · simp only [byte]
    rw [if_pos (by omega), if_pos hlen, blit_outside (Or.inl hk), if_pos hlen]

/-- What a write with room for a byte leaves in its place. -/
theorem write_byte_inside {f : File} {pos n k : Nat} {src : Mem} (hk : pos ≤ k) (hk' : k < pos + n)
    (hroom : k < f.limit) : (f.write pos src n).2.byte k = some (src (k - pos)) := by
  unfold write
  rw [dif_neg (by omega)]
  simp only [byte]
  rw [if_pos (by omega), blit_inside hk (by omega), Nat.zero_add]

/-- A write never makes a file shorter. -/
theorem length_le_write (f : File) (pos : Nat) (src : Mem) (n : Nat) :
    f.length ≤ (f.write pos src n).2.length := by
  unfold write
  split
  · exact Nat.le_refl _
  · exact Nat.le_max_left _ _

end File

/-! ## The device -/

/-- The device that `filedev_create` makes of an open file, with the cache in
any state. -/
structure FileDev where
  size : Nat
  blockSize : Nat
  file : File
  buf : Mem
  bufNum : Option Nat
  blockSize_pos : 0 < blockSize
  blockSize_dvd : blockSize ∣ size
  size_lt : size < 2 ^ 64
  blockSize_lt : blockSize < 2 ^ 64

/-- `filedev_create`, and the cache of `filedev_init`.  A block size of 0 is a
division by zero. -/
def filedevCreate (file : File) (buf : Mem) (blockSize size : Nat) (hlt : size < 2 ^ 64)
    (hbs : blockSize < 2 ^ 64) : Option FileDev :=
  if h : 0 < blockSize ∧ size % blockSize = 0 then
    some { size, blockSize, file, buf, bufNum := none, blockSize_pos := h.1,
           blockSize_dvd := Nat.dvd_of_mod_eq_zero h.2, size_lt := hlt, blockSize_lt := hbs }
  else none

namespace FileDev

/-- `filedev_read` of one block. -/
def read (dev : FileDev) (bnum : Nat) : Bool × FileDev :=
  let startPos := u64 (bnum * dev.blockSize)
  if dev.size < u64 (startPos + dev.blockSize) then (false, dev)
  else
    match File.lseek startPos with
    | none => (false, dev)
    | some pos =>
      let size := dev.file.read pos dev.blockSize
      (size = dev.blockSize, { dev with buf := blit dev.buf 0 dev.file.bytes pos size })

/-- `filedev_write` of one block. -/
def write (dev : FileDev) (bnum : Nat) : Bool × FileDev :=
  match File.lseek (u64 (bnum * dev.blockSize)) with
  | none => (false, dev)
  | some pos =>
    let (size, file) := dev.file.write pos dev.buf dev.blockSize
    (size = dev.blockSize, { dev with file })

end FileDev

/-- What `write_data` reaches of a `struct block_dev_t`: `block_size`, its
edits of `buf` and `buf_num`, and the functions behind `read` and `write`. -/
structure DevOps (σ : Type) where
  blockSize : σ → Nat
  fill : (Mem → Mem) → σ → σ
  setBufNum : Option Nat → σ → σ
  read : σ → Nat → Bool × σ
  write : σ → Nat → Bool × σ

def BlockDev.ops : DevOps BlockDev where
  blockSize dev := dev.blockSize
  fill f dev := { dev with buf := f dev.buf }
  setBufNum bnum dev := { dev with bufNum := bnum }
  read := BlockDev.read
  write := BlockDev.write

def FileDev.ops : DevOps FileDev where
  blockSize dev := dev.blockSize
  fill f dev := { dev with buf := f dev.buf }
  setBufNum bnum dev := { dev with bufNum := bnum }
  read := FileDev.read
  write := FileDev.write

section

variable {σ : Type} (ops : DevOps σ)

/-- The `while (size >= bsize)` loop of `write_data` and the trailing partial
block after it. -/
def writeBlocksOn : Nat → σ → Mem → Nat → Nat → Nat → Bool × σ
  | 0, dev, _, _, _, _ => (false, dev)
  | fuel + 1, dev, data, pos, size, bnum =>
    if ops.blockSize dev ≤ size then
      match ops.write (ops.fill (fun buf => blit buf 0 data pos (ops.blockSize dev)) dev) bnum with
      | (false, dev) => (false, dev)
      | (true, dev) =>
        writeBlocksOn fuel (ops.setBufNum none dev) data (pos + ops.blockSize dev)
          (size - ops.blockSize dev) (bnum + 1)
    else if size = 0 then (true, dev)
    else
      match ops.read (ops.setBufNum (some bnum) dev) bnum with
      | (false, dev) => (false, dev)
      | (true, dev) => ops.write (ops.fill (fun buf => blit buf 0 data pos size) dev) bnum

/-- `write_data` of a device with these functions. -/
def writeDataOn (dev : σ) (offset : Nat) (data : Mem) (size : Nat) : Nat × σ :=
  let bsize := ops.blockSize dev
  let bnum := offset / bsize
  let curPos := offset % bsize
  match ops.read dev bnum with
  | (false, dev) => (minusOne, dev)
  | (true, dev) =>
    let dev := ops.setBufNum (some bnum) dev
    if u64 (curPos + size) ≤ bsize then
      match ops.write (ops.fill (fun buf => blit buf curPos data 0 size) dev) bnum with
      | (false, dev) => (minusOne, dev)
      | (true, dev) => (size, ops.setBufNum none dev)
    else
      match ops.write (ops.fill (fun buf => blit buf curPos data 0 (bsize - curPos)) dev) bnum with
      | (false, dev) => (minusOne, dev)
      | (true, dev) =>
        match writeBlocksOn ops (size + 1) dev data (bsize - curPos) (size - (bsize - curPos))
            (bnum + 1) with
        | (false, dev) => (minusOne, dev)
        | (true, dev) => (size, dev)

end

section

variable (dev : BlockDev) (f : Mem → Mem) (cached : Option Nat) (bnum : Nat)

@[simp] theorem BlockDev.ops_blockSize : BlockDev.ops.blockSize dev = dev.blockSize := rfl
@[simp] theorem BlockDev.ops_fill :
    BlockDev.ops.fill f dev = { dev with buf := f dev.buf } := rfl
@[simp] theorem BlockDev.ops_setBufNum :
    BlockDev.ops.setBufNum cached dev = { dev with bufNum := cached } := rfl
@[simp] theorem BlockDev.ops_read : BlockDev.ops.read dev bnum = dev.read bnum := rfl
@[simp] theorem BlockDev.ops_write : BlockDev.ops.write dev bnum = dev.write bnum := rfl

end

theorem writeBlocksOn_ops (fuel : Nat) (dev : BlockDev) (data : Mem) (pos size bnum : Nat) :
    writeBlocksOn BlockDev.ops fuel dev data pos size bnum =
      writeBlocks fuel dev data pos size bnum := by
  induction fuel generalizing dev pos size bnum with
  | zero => rfl
  | succ fuel ih =>
    rw [writeBlocksOn, writeBlocks]
    by_cases hsize : dev.blockSize ≤ size
    · rw [if_pos hsize, if_pos (by exact hsize)]
      simp only [BlockDev.ops_blockSize, BlockDev.ops_fill, BlockDev.ops_write]
      rcases BlockDev.write _ bnum with ⟨_ | _, dev₁⟩
      · rfl
      · exact ih _ _ _ _
    · rw [if_neg hsize, if_neg (by exact hsize)]
      by_cases hzero : size = 0
      · rw [if_pos hzero, if_pos hzero]
      · rw [if_neg hzero, if_neg hzero]
        simp only [BlockDev.ops_setBufNum, BlockDev.ops_read]
        rcases BlockDev.read _ bnum with ⟨_ | _, dev₁⟩ <;> rfl

/-- Over the device of the other modules, this is their `write_data`. -/
theorem writeDataOn_ops (dev : BlockDev) (offset : Nat) (data : Mem) (size : Nat) :
    writeDataOn BlockDev.ops dev offset data size = writeData dev offset data size := by
  unfold writeDataOn writeData
  simp only [BlockDev.ops_blockSize, BlockDev.ops_read]
  rcases dev.read (offset / dev.blockSize) with ⟨_ | _, dev₁⟩
  · rfl
  · simp only [BlockDev.ops_setBufNum, BlockDev.ops_fill, BlockDev.ops_write, writeBlocksOn_ops]
    split
    · rcases BlockDev.write _ (offset / dev.blockSize) with ⟨_ | _, dev₂⟩ <;> rfl
    · rcases BlockDev.write _ (offset / dev.blockSize) with ⟨_ | _, dev₂⟩
      · rfl
      · simp only
        rcases writeBlocks _ _ _ _ _ _ with ⟨_ | _, dev₃⟩ <;> rfl

/-! ## Accesses of the backing file -/

namespace FileDev

section

variable (dev : FileDev) (f : Mem → Mem) (cached : Option Nat) (bnum : Nat)

@[simp] theorem ops_blockSize : FileDev.ops.blockSize dev = dev.blockSize := rfl
@[simp] theorem ops_fill : FileDev.ops.fill f dev = { dev with buf := f dev.buf } := rfl
@[simp] theorem ops_setBufNum :
    FileDev.ops.setBufNum cached dev = { dev with bufNum := cached } := rfl
@[simp] theorem ops_read : FileDev.ops.read dev bnum = dev.read bnum := rfl
@[simp] theorem ops_write : FileDev.ops.write dev bnum = dev.write bnum := rfl

end

/-- Block `b` lies inside the device, and the backing file is long enough for
it. -/
def HasBlock (dev : FileDev) (b : Nat) : Prop :=
  b * dev.blockSize + dev.blockSize ≤ dev.size ∧
    b * dev.blockSize + dev.blockSize ≤ dev.file.length

instance (dev : FileDev) (b : Nat) : Decidable (dev.HasBlock b) :=
  inferInstanceAs (Decidable (_ ∧ _))

variable {dev : FileDev} {b : Nat}

/-- Neither the sum nor the position wraps for a block that is there. -/
theorem read_eq (hb : b * dev.blockSize < 2 ^ 64) :
    ∃ buf, dev.read b = (decide (dev.HasBlock b), { dev with buf }) := by
  have hpos := dev.blockSize_pos
  have hlt := dev.blockSize_lt
  have hle := dev.file.length_le
  have hlimit := dev.file.limit_lt
  unfold read
  dsimp only
  rw [u64_of_lt hb]
  by_cases hsize : dev.size < u64 (b * dev.blockSize + dev.blockSize)
  · have hno : ¬ dev.HasBlock b := by
      intro h
      have hwrap : u64 (b * dev.blockSize + dev.blockSize) ≤ b * dev.blockSize + dev.blockSize :=
        Nat.mod_le _ _
      exact absurd h.1 (by omega)
    rw [if_pos hsize, decide_eq_false hno]
    exact ⟨dev.buf, rfl⟩
  · rw [if_neg hsize, File.lseek]
    by_cases hseek : b * dev.blockSize < 2 ^ 63
    · rw [if_pos hseek]
      refine ⟨_, Prod.ext (decide_eq_decide.2 ?_) rfl⟩
      -- A block from position 0 on is the only one that can be so long.
      have hsum : b * dev.blockSize + dev.blockSize < 2 ^ 64 := by
        rcases Nat.eq_zero_or_pos b with rfl | hb'
        · omega
        · have := Nat.le_mul_of_pos_left dev.blockSize hb'
          omega
      rw [u64_of_lt hsum] at hsize
      unfold HasBlock File.read
      omega
    · have hno : ¬ dev.HasBlock b := fun h => by
        have := h.2
        omega
      rw [if_neg hseek, decide_eq_false hno]
      exact ⟨dev.buf, rfl⟩

/-- No size of the device stands between a block and the backing file. -/
theorem write_eq (hb : b * dev.blockSize < 2 ^ 64) :
    dev.write b = (decide (b * dev.blockSize + dev.blockSize ≤ dev.file.limit),
      { dev with file := (dev.file.write (b * dev.blockSize) dev.buf dev.blockSize).2 }) := by
  have hpos := dev.blockSize_pos
  have hlimit := dev.file.limit_lt
  unfold write
  rw [u64_of_lt hb, File.lseek]
  by_cases hseek : b * dev.blockSize < 2 ^ 63
  · rw [if_pos hseek]
    exact Prod.ext (decide_eq_decide.2 (File.write_full hpos)) rfl
  · rw [if_neg hseek, decide_eq_false (by omega), File.write, dif_pos (by omega)]

end FileDev

section

variable {dev : FileDev} {fuel pos size bnum : Nat} {data : Mem}

/-- A round of the loop. -/
theorem writeBlocksOn_whole (hb : bnum * dev.blockSize < 2 ^ 64) (hsize : dev.blockSize ≤ size) :
    writeBlocksOn FileDev.ops (fuel + 1) dev data pos size bnum =
      let file := (dev.file.write (bnum * dev.blockSize) (blit dev.buf 0 data pos dev.blockSize)
        dev.blockSize).2
      let buf := blit dev.buf 0 data pos dev.blockSize
      if bnum * dev.blockSize + dev.blockSize ≤ dev.file.limit then
        writeBlocksOn FileDev.ops fuel { dev with file, buf, bufNum := none } data
          (pos + dev.blockSize) (size - dev.blockSize) (bnum + 1)
      else (false, { dev with file, buf }) := by
  rw [writeBlocksOn, if_pos (by exact hsize)]
  simp only [FileDev.ops_blockSize, FileDev.ops_fill, FileDev.ops_write]
  rw [FileDev.write_eq (by exact hb)]
  by_cases hroom : bnum * dev.blockSize + dev.blockSize ≤ dev.file.limit
  · rw [if_pos hroom, decide_eq_true (by exact hroom)]
    rfl
  · rw [if_neg hroom, decide_eq_false (by exact hroom)]

/-- The trailing partial block, which is read first. -/
theorem writeBlocksOn_part (hb : bnum * dev.blockSize < 2 ^ 64) (hsize : size < dev.blockSize)
    (hpos : size ≠ 0) :
    ∃ buf, writeBlocksOn FileDev.ops (fuel + 1) dev data pos size bnum =
      (decide (dev.HasBlock bnum), if dev.HasBlock bnum then
        { dev with
          buf, bufNum := some bnum
          file := (dev.file.write (bnum * dev.blockSize) buf dev.blockSize).2 }
      else { dev with buf, bufNum := some bnum }) := by
  obtain ⟨buf, hread⟩ := @FileDev.read_eq { dev with bufNum := some bnum } bnum hb
  rw [writeBlocksOn, if_neg (by exact Nat.not_le.2 hsize), if_neg hpos]
  simp only [FileDev.ops_setBufNum, FileDev.ops_read, FileDev.ops_fill, FileDev.ops_write]
  rw [hread]
  by_cases hblock : dev.HasBlock bnum
  · have hroom : bnum * dev.blockSize + dev.blockSize ≤ dev.file.limit :=
      Nat.le_trans hblock.2 dev.file.length_le
    rw [decide_eq_true (by exact hblock)]
    simp only [hblock, decide_true, if_true]
    rw [FileDev.write_eq (by exact hb), decide_eq_true (by exact hroom)]
    exact ⟨_, rfl⟩
  · rw [decide_eq_false (by exact hblock)]
    simp only [hblock, decide_false, if_false]
    exact ⟨_, rfl⟩

end

/-! ## What the rest of a request leaves alone -/

section

variable {dev : FileDev} {pos size bnum : Nat} {data : Mem}

/-- The position behind the first block of a longer request. -/
theorem next_block (dev : FileDev) (bnum : Nat) {size : Nat} (hsize : dev.blockSize ≤ size) :
    (bnum + 1) * dev.blockSize + (size - dev.blockSize) = bnum * dev.blockSize + size ∧
      (bnum + 1) * dev.blockSize + (size - dev.blockSize) / dev.blockSize * dev.blockSize =
        bnum * dev.blockSize + size / dev.blockSize * dev.blockSize := by
  have hdiv : size / dev.blockSize = (size - dev.blockSize) / dev.blockSize + 1 := by
    rw [← Nat.add_div_right _ dev.blockSize_pos, Nat.sub_add_cancel hsize]
  rw [hdiv, Nat.succ_mul, Nat.succ_mul]
  omega

/-- Kept are the bytes the file has before the first block, the bytes outside
the device when no whole block lies there, and the bytes it cannot have. -/
theorem writeBlocksOn_byte {fuel k : Nat} (hlt : bnum * dev.blockSize + size < 2 ^ 64)
    (hk : (k < bnum * dev.blockSize ∧ k < dev.file.length) ∨
      (dev.size ≤ k ∧ bnum * dev.blockSize + size / dev.blockSize * dev.blockSize ≤ dev.size) ∨
      dev.file.limit ≤ k) :
    (writeBlocksOn FileDev.ops fuel dev data pos size bnum).2.file.byte k = dev.file.byte k := by
  induction fuel generalizing dev pos size bnum with
  | zero => rfl
  | succ fuel ih =>
    by_cases hsize : dev.blockSize ≤ size
    · obtain ⟨hnext, hnext'⟩ := next_block dev bnum hsize
      have hmul := Nat.succ_mul bnum dev.blockSize
      -- The block of this round is behind `k`, or inside the device.
      have hbyte : ∀ src : Mem, (dev.file.write (bnum * dev.blockSize) src
          dev.blockSize).2.byte k = dev.file.byte k := by
        intro src
        rcases hk with ⟨hbefore, hlen⟩ | ⟨hout, hin⟩ | hlimit
        · exact File.write_byte_before hbefore hlen
        · exact File.write_byte_behind (by omega)
        · rw [File.byte_of_limit hlimit]
          exact File.byte_of_limit (by rw [File.write_limit]; exact hlimit)
      rw [writeBlocksOn_whole (by omega) hsize]
      dsimp only
      split
      · rw [ih]
        · exact hbyte _
        · dsimp only
          omega
        · dsimp only
          rcases hk with ⟨hbefore, hlen⟩ | ⟨hout, hin⟩ | hlimit
          · refine Or.inl ⟨by omega, Nat.lt_of_lt_of_le hlen ?_⟩
            exact File.length_le_write _ _ _ _
          · exact Or.inr (Or.inl ⟨hout, by omega⟩)
          · rw [File.write_limit]
            exact Or.inr (Or.inr hlimit)
      · exact hbyte _
    · by_cases hzero : size = 0
      · rw [writeBlocksOn, if_neg (by exact hsize), if_pos hzero]
      · obtain ⟨buf, hpart⟩ := @writeBlocksOn_part dev fuel pos size bnum data (by omega)
          (Nat.not_le.1 hsize) hzero
        rw [hpart]
        by_cases hblock : dev.HasBlock bnum
        · simp only [hblock, if_true]
          have hinside := hblock.1
          rcases hk with ⟨hbefore, hlen⟩ | ⟨hout, -⟩ | hlimit
          · exact File.write_byte_before hbefore hlen
          · exact File.write_byte_behind (by omega)
          · rw [File.byte_of_limit hlimit]
            exact File.byte_of_limit (by rw [File.write_limit]; exact hlimit)
        · simp only [hblock, if_false]

/-- What succeeds ended inside the device, unless a whole block outside it
found room in the file. -/
theorem writeBlocksOn_true {fuel : Nat} (hlt : bnum * dev.blockSize + size < 2 ^ 64)
    (hstart : bnum * dev.blockSize ≤ dev.size)
    (hin : bnum * dev.blockSize + size / dev.blockSize * dev.blockSize ≤ dev.size ∨
      dev.file.limit ≤ dev.size)
    (htrue : (writeBlocksOn FileDev.ops fuel dev data pos size bnum).1 = true) :
    bnum * dev.blockSize + size ≤ dev.size := by
  induction fuel generalizing dev pos size bnum with
  | zero => cases htrue
  | succ fuel ih =>
    by_cases hsize : dev.blockSize ≤ size
    · obtain ⟨hnext, hnext'⟩ := next_block dev bnum hsize
      have hmul := Nat.succ_mul bnum dev.blockSize
      rw [writeBlocksOn_whole (by omega) hsize] at htrue
      dsimp only at htrue
      split at htrue
      · rename_i hroom
        have hend := ih (by dsimp only; omega) (by dsimp only; omega)
          (by dsimp only; rw [File.write_limit]; omega) htrue
        dsimp only at hend
        omega
      · cases htrue
    · by_cases hzero : size = 0
      · omega
      · obtain ⟨buf, hpart⟩ := @writeBlocksOn_part dev fuel pos size bnum data (by omega)
          (Nat.not_le.1 hsize) hzero
        rw [hpart] at htrue
        have hinside := (of_decide_eq_true htrue).1
        omega

/-- The first whole block outside the device is written when the file has room
for a byte of it. -/
theorem writeBlocksOn_overrun {fuel : Nat} (hfuel : size < fuel)
    (hlt : bnum * dev.blockSize + size < 2 ^ 64) (hstart : bnum * dev.blockSize ≤ dev.size)
    (hout : dev.size < bnum * dev.blockSize + size / dev.blockSize * dev.blockSize)
    (hroom : dev.size < dev.file.limit) :
    (writeBlocksOn FileDev.ops fuel dev data pos size bnum).2.file.byte dev.size =
      some (data (pos + (dev.size - bnum * dev.blockSize))) := by
  have hpos := dev.blockSize_pos
  induction fuel generalizing dev pos size bnum with
  | zero => omega
  | succ fuel ih =>
    have hsize : dev.blockSize ≤ size := by
      by_contra hlt'
      rw [Nat.div_eq_of_lt (by omega)] at hout
      omega
    obtain ⟨hnext, hnext'⟩ := next_block dev bnum hsize
    have hmul := Nat.succ_mul bnum dev.blockSize
    rw [writeBlocksOn_whole (by omega) hsize]
    dsimp only
    rcases Nat.eq_or_lt_of_le hstart with heq | hbefore
    · -- This round writes the block; no later one comes back to it.
      have hbyte : ∀ src : Mem, (dev.file.write (bnum * dev.blockSize) src
          dev.blockSize).2.byte dev.size = some (src 0) := by
        intro src
        rw [File.write_byte_inside (by omega) (by omega) hroom, heq, Nat.sub_self]
      have hvalue : blit dev.buf 0 data pos dev.blockSize 0 =
          data (pos + (dev.size - bnum * dev.blockSize)) := by
        rw [blit_inside (Nat.le_refl _) (by omega), heq, Nat.sub_self, Nat.sub_self]
      split
      · rw [writeBlocksOn_byte, hbyte, hvalue]
        · dsimp only
          omega
        · refine Or.inl ⟨by dsimp only; omega, ?_⟩
          have hsome := hbyte (blit dev.buf 0 data pos dev.blockSize)
          by_contra hge
          rw [File.byte, if_neg hge] at hsome
          cases hsome
      · rw [hbyte, hvalue]
    · -- A block before it lies inside the device, so the file has room for it.
      have hle : bnum * dev.blockSize + dev.blockSize ≤ dev.size := by
        obtain ⟨c, hc⟩ := dev.blockSize_dvd
        rw [hc, Nat.mul_comm, Nat.mul_lt_mul_left hpos] at hbefore
        rw [hc, Nat.mul_comm dev.blockSize c, ← hmul]
        exact Nat.mul_le_mul_right _ hbefore
      rw [if_pos (by omega)]
      have hnextRound := @ih { dev with
          file := (dev.file.write (bnum * dev.blockSize) (blit dev.buf 0 data pos dev.blockSize)
            dev.blockSize).2
          buf := blit dev.buf 0 data pos dev.blockSize
          bufNum := none }
        (pos + dev.blockSize) (size - dev.blockSize) (bnum + 1) (by omega) (by dsimp only; omega)
        (by dsimp only; omega) (by dsimp only; omega) (by rw [File.write_limit]; exact hroom) hpos
      rw [hnextRound]
      dsimp only
      congr 2
      omega

end

/-! ## Requests that stay inside -/

/-- Whatever is written, no byte of the file outside the device changes or
comes to be, and a request that reaches past the end of the device fails. -/
def StaysInside (dev : FileDev) (offset size : Nat) : Prop :=
  ∀ data : Mem,
    (∀ k, dev.size ≤ k →
      (writeDataOn FileDev.ops dev offset data size).2.file.byte k = dev.file.byte k) ∧
    (dev.size < offset + size → (writeDataOn FileDev.ops dev offset data size).1 = minusOne)

/-- The number of whole blocks of a request behind its first block. -/
def wholeBlocks (bsize offset size : Nat) : Nat := (size - (bsize - offset % bsize)) / bsize

/-- The end of these blocks. -/
def wholeEnd (bsize offset size : Nat) : Nat :=
  (offset / bsize + 1) * bsize + wholeBlocks bsize offset size * bsize

section

variable {dev : FileDev} {offset size : Nat} {data : Mem}

/-- A request whose first block is not there fails and changes nothing. -/
theorem writeDataOn_refused (hoffset : offset < 2 ^ 63)
    (hfirst : ¬ dev.HasBlock (offset / dev.blockSize)) :
    (writeDataOn FileDev.ops dev offset data size).1 = minusOne ∧
      (writeDataOn FileDev.ops dev offset data size).2.file = dev.file := by
  have hle := Nat.div_mul_le_self offset dev.blockSize
  obtain ⟨buf, hread⟩ := @FileDev.read_eq dev (offset / dev.blockSize) (by omega)
  rw [decide_eq_false hfirst] at hread
  unfold writeDataOn
  simp only [FileDev.ops_blockSize, FileDev.ops_read]
  rw [hread]
  exact ⟨rfl, rfl⟩

/-- A request that fits into its first block. -/
theorem writeDataOn_fits (hoffset : offset < 2 ^ 63) (hsize : size < 2 ^ 63)
    (hfirst : dev.HasBlock (offset / dev.blockSize))
    (hfits : offset % dev.blockSize + size ≤ dev.blockSize) {k : Nat} (hk : dev.size ≤ k) :
    (writeDataOn FileDev.ops dev offset data size).2.file.byte k = dev.file.byte k := by
  have hle := Nat.div_mul_le_self offset dev.blockSize
  have hmod := Nat.mod_le offset dev.blockSize
  have hinside := hfirst.1
  obtain ⟨buf, hread⟩ := @FileDev.read_eq dev (offset / dev.blockSize) (by omega)
  rw [decide_eq_true hfirst] at hread
  have hroom := Nat.le_trans hfirst.2 dev.file.length_le
  have hwrap : u64 (offset % dev.blockSize + size) ≤ dev.blockSize := by
    rw [u64_of_lt (by omega)]
    exact hfits
  unfold writeDataOn
  simp only [FileDev.ops_blockSize, FileDev.ops_read]
  rw [hread]
  simp only [FileDev.ops_setBufNum, FileDev.ops_fill, FileDev.ops_write, hwrap, if_true]
  rw [FileDev.write_eq (by dsimp only; omega), decide_eq_true (by exact hroom)]
  refine File.write_byte_behind ?_
  dsimp only
  omega

/-- A request with more than one block: the first is written back with its new
bytes, then the loop runs on a file that differs in this block. -/
theorem writeDataOn_spans (hoffset : offset < 2 ^ 63) (hsize : size < 2 ^ 63)
    (hfirst : dev.HasBlock (offset / dev.blockSize))
    (hspan : dev.blockSize < offset % dev.blockSize + size) :
    ∃ dev₁ : FileDev, dev₁.size = dev.size ∧ dev₁.blockSize = dev.blockSize ∧
      dev₁.file.limit = dev.file.limit ∧
      (∀ k, dev.size ≤ k → dev₁.file.byte k = dev.file.byte k) ∧
      ∀ r, r = writeBlocksOn FileDev.ops (size + 1) dev₁ data
          (dev.blockSize - offset % dev.blockSize)
          (size - (dev.blockSize - offset % dev.blockSize)) (offset / dev.blockSize + 1) →
        writeDataOn FileDev.ops dev offset data size = (if r.1 then size else minusOne, r.2) := by
  have hle := Nat.div_mul_le_self offset dev.blockSize
  have hmod := Nat.mod_le offset dev.blockSize
  have hinside := hfirst.1
  obtain ⟨buf, hread⟩ := @FileDev.read_eq dev (offset / dev.blockSize) (by omega)
  rw [decide_eq_true hfirst] at hread
  have hroom := Nat.le_trans hfirst.2 dev.file.length_le
  have hwrap : ¬ u64 (offset % dev.blockSize + size) ≤ dev.blockSize := by
    rw [u64_of_lt (by omega)]
    exact Nat.not_le.2 hspan
  refine ⟨{ dev with
    bufNum := some (offset / dev.blockSize)
    buf := blit buf (offset % dev.blockSize) data 0 (dev.blockSize - offset % dev.blockSize)
    file := (dev.file.write (offset / dev.blockSize * dev.blockSize)
      (blit buf (offset % dev.blockSize) data 0 (dev.blockSize - offset % dev.blockSize))
      dev.blockSize).2 }, rfl, rfl, File.write_limit _ _ _ _, ?_, ?_⟩
  · intro k hk
    exact File.write_byte_behind (by omega)
  · rintro ⟨_ | _, dev₂⟩ hr
    all_goals
      unfold writeDataOn
      simp only [FileDev.ops_blockSize, FileDev.ops_read]
      rw [hread]
      simp only [FileDev.ops_setBufNum, FileDev.ops_fill, FileDev.ops_write, hwrap, if_false]
      rw [FileDev.write_eq (by dsimp only; omega), decide_eq_true (by exact hroom)]
      dsimp only
      rw [← hr]
      rfl

/-- `write_data` stays inside the device exactly when it refuses the request at
its first block, or the whole blocks behind that block end inside the device,
or the file has no room past the end of the device. -/
theorem staysInside_iff (hoffset : offset < 2 ^ 63) (hsize : size < 2 ^ 63) :
    StaysInside dev offset size ↔ ¬ dev.HasBlock (offset / dev.blockSize) ∨
      wholeEnd dev.blockSize offset size ≤ dev.size ∨ dev.file.limit ≤ dev.size := by
  have hbs := dev.blockSize_pos
  have hmod := Nat.mod_lt offset hbs
  have hmodle := Nat.mod_le offset dev.blockSize
  have hdm : offset / dev.blockSize * dev.blockSize + offset % dev.blockSize = offset := by
    rw [Nat.mul_comm]
    exact Nat.div_add_mod _ _
  have hmul : (offset / dev.blockSize + 1) * dev.blockSize =
      offset / dev.blockSize * dev.blockSize + dev.blockSize := Nat.succ_mul _ _
  by_cases hfirst : dev.HasBlock (offset / dev.blockSize)
  swap
  · refine iff_of_true (fun data => ?_) (Or.inl hfirst)
    obtain ⟨hret, hfile⟩ := @writeDataOn_refused dev offset size data hoffset hfirst
    exact ⟨fun k _ => by rw [hfile], fun _ => hret⟩
  have hinside := hfirst.1
  by_cases hfits : offset % dev.blockSize + size ≤ dev.blockSize
  · refine iff_of_true (fun data => ⟨fun k hk => ?_, fun hout => ?_⟩) (Or.inr (Or.inl ?_))
    · exact writeDataOn_fits hoffset hsize hfirst hfits hk
    · omega
    · rw [wholeEnd, wholeBlocks, Nat.sub_eq_zero_of_le (by omega), Nat.zero_div]
      omega
  have hspan := Nat.not_le.1 hfits
  -- The rest of the request starts behind the first block.
  have hrest : (offset / dev.blockSize + 1) * dev.blockSize +
      (size - (dev.blockSize - offset % dev.blockSize)) = offset + size := by omega
  constructor
  · intro h
    refine Or.inr (by_contra fun hno => ?_)
    obtain ⟨hend, hlimit⟩ := not_or.1 hno
    -- Data that differ from what the file has behind the device.
    obtain ⟨c, hc⟩ : ∃ c, some c ≠ dev.file.byte dev.size := by
      cases dev.file.byte dev.size with
      | none => exact ⟨0, by simp⟩
      | some b => exact ⟨b + 1, by simp⟩
    obtain ⟨dev₁, hsz, hbs₁, hlimit₁, -, heq⟩ :=
      @writeDataOn_spans dev offset size (fun _ => c) hoffset hsize hfirst hspan
    have hkept := (h fun _ => c).1 dev.size (Nat.le_refl _)
    rw [heq _ rfl] at hkept
    have hover := @writeBlocksOn_overrun dev₁ (dev.blockSize - offset % dev.blockSize)
      (size - (dev.blockSize - offset % dev.blockSize)) (offset / dev.blockSize + 1) (fun _ => c)
      (size + 1) (by omega) (by rw [hbs₁]; omega) (by rw [hbs₁, hsz]; omega)
      (by rw [hbs₁, hsz]; exact Nat.not_le.1 hend)
      (by rw [hsz, hlimit₁]; exact Nat.not_le.1 hlimit)
    rw [hsz] at hover
    exact hc (hover.symm.trans hkept)
  · intro h data
    have hin := h.resolve_left (not_not.2 hfirst)
    obtain ⟨dev₁, hsz, hbs₁, hlimit, hbyte, heq⟩ :=
      @writeDataOn_spans dev offset size data hoffset hsize hfirst hspan
    rw [heq _ rfl]
    refine ⟨fun k hk => ?_, fun hout => if_neg fun htrue => ?_⟩
    · refine Eq.trans (writeBlocksOn_byte ?_ (Or.inr ?_)) (hbyte k hk)
      · rw [hbs₁]
        omega
      · rw [hbs₁, hsz, hlimit]
        exact hin.imp (fun hend => ⟨hk, hend⟩) fun hlim => Nat.le_trans hlim hk
    · have hend := writeBlocksOn_true (by rw [hbs₁]; omega) (by rw [hbs₁, hsz]; omega)
        (by rw [hbs₁, hsz, hlimit]; exact hin) htrue
      rw [hbs₁, hsz] at hend
      omega

end

/-- Two blocks of 512 bytes over a file of exactly that length, which may
grow. -/
def shortDev : FileDev where
  size := 1024
  blockSize := 512
  file := { length := 1024, bytes := fun _ => 0, limit := 2 ^ 63 - 1,
            length_le := by decide, limit_lt := by decide }
  buf := fun _ => 0
  bufNum := none
  blockSize_pos := by decide
  blockSize_dvd := ⟨2, rfl⟩
  size_lt := by decide
  blockSize_lt := by decide

theorem staysInside_iff_shortDev :
    StaysInside shortDev 512 700 ↔ ¬ shortDev.HasBlock (512 / 512) ∨
      wholeEnd 512 512 700 ≤ 1024 ∨ shortDev.file.limit ≤ 1024 :=
  @staysInside_iff shortDev 512 700 (by decide) (by decide)

/-- A block behind the end of the device is written, and the request reported
as done. -/
theorem write_past_end :
    filedevCreate shortDev.file shortDev.buf 512 1024 (by decide) (by decide) = some shortDev ∧
      (writeDataOn FileDev.ops shortDev 512 (fun _ => 7) 1024).1 = 1024 ∧
      shortDev.file.byte 1024 = none ∧
      (writeDataOn FileDev.ops shortDev 512 (fun _ => 7) 1024).2.file.byte 1024 = some 7 ∧
      ¬ StaysInside shortDev 512 1024 := by
  refine ⟨rfl, by decide, by decide, by decide, fun h => ?_⟩
  have hfails := (h fun _ => 7).2 (by decide)
  exact absurd hfails (by decide)

end Sfs
