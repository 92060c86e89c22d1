import Sfs.Cache
import Sfs.Ops
import Sfs.Volume

/-!
# When a read is exact

A read is exact when it returns the size asked for, stores the bytes of the
device there, and stores nothing else.  `read_data` advances the caller's
pointer by `bsize + cur_pos` behind the first block instead of
`bsize - cur_pos`, so a read that crosses the end of its first block is exact
only if it starts at the start of that block.

* `readExact_iff` is that condition for `read_data`;
* `sfsRead_run` reduces `sfs_read` to one call of `read_data`;
* `read_exact_iff` puts both together.
-/

namespace Sfs

open Lib

/-- `read_data` stores the bytes of the device into the caller's memory,
whatever that held, and nothing else. -/
def BlockDev.ReadExact (dev : BlockDev) (offset size : Nat) : Prop :=
  ∀ data, ∃ dev', readData dev offset data size = (size, blit data 0 dev.data offset size, dev')

section ReadData

variable {dev : BlockDev} {offset size : Nat}

/-- Where the bytes behind the first block go, the byte after the first block
is not stored. -/
theorem not_readExact_of_spans (hq : dev.Quiet) (hc : dev.Coherent) (hbs : 0 < dev.blockSize)
    (hrange : dev.HasRange offset size)
    (hwrap : offset % dev.blockSize + size < 18446744073709551616)
    (hcur : offset % dev.blockSize ≠ 0)
    (hspan : dev.blockSize < offset % dev.blockSize + size) : ¬ dev.ReadExact offset size := by
  intro hexact
  have hlt : offset % dev.blockSize < dev.blockSize := Nat.mod_lt _ hbs
  -- A memory that differs from the device wherever a byte is to be stored.
  obtain ⟨dev', hread⟩ := hexact fun i => dev.data (offset + i) + 1
  obtain ⟨dev'', hread', -⟩ := readData_of_spans hq hc hbs hrange hwrap hspan
    fun i => dev.data (offset + i) + 1
  rw [hread'] at hread
  have hmem := congrFun (Prod.mk.inj (Prod.mk.inj hread).2).1
    (dev.blockSize - offset % dev.blockSize)
  rw [blit_outside (by omega), blit_outside (by omega),
    blit_inside (Nat.zero_le _) (by omega), Nat.sub_zero] at hmem
  exact absurd hmem (by simp)

theorem readExact_of_aligned (hq : dev.Quiet) (hc : dev.Coherent) (hbs : 0 < dev.blockSize)
    (hrange : dev.HasRange offset size)
    (hwrap : offset % dev.blockSize + size < 18446744073709551616)
    (hcur : offset % dev.blockSize = 0)
    (hspan : dev.blockSize < offset % dev.blockSize + size) : dev.ReadExact offset size := by
  intro data
  obtain ⟨dev', hread, -⟩ := readData_of_spans hq hc hbs hrange hwrap hspan data
  refine ⟨dev', ?_⟩
  have hdiv : dev.blockSize * (offset / dev.blockSize) = offset := by
    have h := Nat.div_add_mod offset dev.blockSize
    omega
  have hnext : (offset / dev.blockSize + 1) * dev.blockSize = offset + dev.blockSize := by
    rw [Nat.succ_mul, Nat.mul_comm, hdiv]
  have hjoin := blit_blit_append data dev.data 0 offset dev.blockSize (size - dev.blockSize)
  rw [Nat.zero_add, Nat.add_sub_cancel' (show dev.blockSize ≤ size by omega)] at hjoin
  rw [hread, hcur, Nat.sub_zero, Nat.add_zero, hnext, hjoin]

/-- The block of the offset is read first, also when nothing is asked for. -/
theorem readData_of_not_hasBlock (hq : dev.Quiet) (hc : dev.Coherent)
    (hblock : ¬ dev.HasBlock (offset / dev.blockSize)) (data : Mem) :
    (readData dev offset data size).1 = minusOne := by
  have hmiss : dev.bufNum ≠ some (offset / dev.blockSize) := fun hhit => hblock (hc _ hhit).1
  have hfirst : readFirst dev (offset / dev.blockSize)
      = (false, { dev with accesses := dev.accesses + 1 }) := by
    rw [readFirst, if_neg hmiss, BlockDev.read_of_not_hasBlock (hq.works 0) hblock]
  unfold readData
  dsimp only
  rw [hfirst]

/-- A read on a device whose reads work, and whose size is a number of blocks, is exact if
and only if the block of the offset is one of the device, and the read starts at the start
of a block or ends in the block it starts in. -/
theorem readExact_iff (hq : dev.Quiet) (hc : dev.Coherent) (hbs : 0 < dev.blockSize)
    (hdvd : dev.blockSize ∣ dev.size) (hle : offset + size ≤ dev.size)
    (hsmall : dev.size < 9223372036854775808) :
    dev.ReadExact offset size ↔ dev.HasBlock (offset / dev.blockSize) ∧
      (offset % dev.blockSize = 0 ∨ offset % dev.blockSize + size ≤ dev.blockSize) := by
  by_cases hblock : dev.HasBlock (offset / dev.blockSize)
  swap
  · refine iff_of_false (fun h => ?_) fun h => hblock h.1
    obtain ⟨dev', hread⟩ := h fun _ => 0
    have hret := (congrArg Prod.fst hread).symm.trans (readData_of_not_hasBlock hq hc hblock _)
    unfold minusOne at hret
    omega
  rw [and_iff_right hblock]
  have hrange := BlockDev.hasRange_of_block hbs hdvd hle hblock
  have hmod := Nat.mod_le offset dev.blockSize
  have hbsize : dev.blockSize ≤ dev.size := Nat.le_of_add_left_le hblock
  by_cases hfits : offset % dev.blockSize + size ≤ dev.blockSize
  · refine iff_of_true (fun data => ?_) (Or.inr hfits)
    obtain ⟨dev', hread, -⟩ := readData_of_fits hq hc (by omega) hblock hfits data
    exact ⟨dev', hread⟩
  · have hspan := Nat.not_le.1 hfits
    by_cases hcur : offset % dev.blockSize = 0
    · exact iff_of_true (readExact_of_aligned hq hc hbs hrange (by omega) hcur hspan)
        (Or.inl hcur)
    · exact iff_of_false (not_readExact_of_spans hq hc hbs hrange (by omega) hcur hspan)
        fun h => h.elim hcur hfits

/-- Whatever happens, `read_data` returns the size or -1. -/
theorem readData_ret (dev : BlockDev) (offset : Nat) (data : Mem) (size : Nat) :
    (readData dev offset data size).1 = size ∨
      (readData dev offset data size).1 = minusOne := by
  unfold readData
  dsimp only
  split
  · exact Or.inr rfl
  · split
    · exact Or.inl rfl
    · split
      · exact Or.inr rfl
      · exact Or.inl rfl

end ReadData

/-! ## Reading a file -/

/-- `sfs_read` returns the number of bytes of the file from `off` on, at most
`size`, and stores these bytes and nothing else. -/
def Sys.ReadExact (s : Sys) (file size off : Nat) : Prop :=
  ∀ data, ∃ s', s.exec (sfsRead file data size off) =
    some ((min size (s.vol.get file .size - off),
      blit data 0 s.dev.data (s.vol.get file .startBlock * s.dev.blockSize + off)
        (min size (s.vol.get file .size - off))), s')

/-- The number of bytes `sfs_read` asks `read_data` for. -/
def readSize (fileSize size off : Nat) : Nat :=
  if fileSize < u64 (off + size) then fileSize - off else size

section SfsRead

variable {s : Sys} {file size off : Nat}

theorem exec_issue {α : Type} {s s' : Sys} {e : Cmd} {f : e.Reply → SfsM α} {r : e.Reply}
    (h : Sys.handle e s = some (r, s')) : s.exec (issue e >>= f) = s'.exec (f r) := by
  rw [Sys.exec, Prog.exec_bind]
  unfold issue
  rw [Prog.exec_perform, h]
  rfl

theorem exec_uninit {α : Type} (s : Sys) (f : Mem → SfsM α) :
    s.exec (uninit >>= f) = s.exec (f s.stack) := exec_issue rfl

theorem exec_blockSize {α : Type} (s : Sys) (f : Nat → SfsM α) :
    s.exec (blockSize >>= f) = s.exec (f s.dev.blockSize) := exec_issue rfl

theorem exec_setErrno {α : Type} (s : Sys) (code : Nat) (f : Unit → SfsM α) :
    s.exec (setErrno code >>= f) = Sys.exec { s with errno := code } (f ()) := exec_issue rfl

theorem exec_update {α : Type} (s : Sys) (f : Unit → SfsM α) :
    s.exec (update >>= f) = Sys.exec { s with
      ticks := s.ticks + 1
      fs := { s.fs with time := u64 (s.clock s.ticks) } } (f ()) := rfl

/-- `read_entry` on a device whose reads work. -/
theorem exec_readEntry {α : Type} (hq : s.dev.Quiet) (hc : s.dev.Coherent) (hs : s.vol.Sized)
    (hfile : file % 64 = 0) (hin : file + 64 ≤ s.dev.size) (entr : Entry) :
    ∃ dev, s.dev.SameDisk dev ∧ dev.Coherent ∧ ∀ f : Nat × Entry → SfsM α,
      s.exec (readEntry file entr >>= f)
        = Sys.exec { s with dev := dev } (f (64, s.vol.load file entr)) := by
  have hblock : s.dev.HasBlock (file / s.dev.blockSize) :=
    hs.hasBlock (show file < s.vol.size from Nat.lt_of_lt_of_le (by omega) hin)
  have hbsize : s.dev.blockSize ≤ s.dev.size := Nat.le_of_add_left_le hblock
  have hsmall : s.dev.size < 9223372036854775808 := hs.small
  obtain ⟨dev, hread, hsame, -, hcoh⟩ := readData_of_fits hq hc (by omega) hblock
    (show file % s.dev.blockSize + indexEntrySize ≤ s.dev.blockSize from
      hs.fits (by unfold indexEntrySize; omega)) entr
  refine ⟨dev, hsame, hcoh, fun f => ?_⟩
  unfold readEntry
  rw [if_neg (by unfold indexEntrySize; omega)]
  refine exec_issue ?_
  dsimp only [Sys.handle]
  rw [hread]
  rfl

/-- `sfs_read` within the file is one call of `read_data`. -/
theorem sfsRead_run (size : Nat) (hq : s.dev.Quiet) (hc : s.dev.Coherent) (hs : s.vol.Sized)
    (hfile : file % 64 = 0) (hin : file + 64 ≤ s.dev.size) (hoff : off ≤ s.vol.get file .size) :
    ∃ dev, s.dev.SameDisk dev ∧ dev.Coherent ∧ ∀ data, ∃ s',
      s.exec (sfsRead file data size off) =
        some (((readData dev (u64 (s.vol.get file .startBlock * s.dev.blockSize + off)) data
            (readSize (s.vol.get file .size) size off)).1,
          (readData dev (u64 (s.vol.get file .startBlock * s.dev.blockSize + off)) data
            (readSize (s.vol.get file .size) size off)).2.1), s') := by
  obtain ⟨dev, hsame, hcoh, hread⟩ := exec_readEntry (α := Nat × Mem) hq hc hs hfile hin s.stack
  refine ⟨dev, hsame, hcoh, fun data => ?_⟩
  unfold sfsRead
  rw [exec_uninit, hread]
  dsimp only
  rw [if_neg (by decide)]
  simp only [Vol.get_load]
  rw [if_neg (Nat.not_lt.2 hoff), exec_update, exec_setErrno, exec_blockSize, ← readSize]
  dsimp only
  rw [hsame.blockSize]
  exact ⟨_, (Prog.exec_perform _ _ _).trans rfl⟩

/-- The condition under which `sfs_read` is exact: the sum of its arguments
does not wrap around, and the read it comes down to is exact.  That one reads the block
where the request starts, also when no bytes are left. -/
theorem sfsReadExact_iff (hq : s.dev.Quiet) (hc : s.dev.Coherent) (hs : s.vol.Sized)
    (hfile : file % 64 = 0) (hin : file + 64 ≤ s.dev.size) (hoff : off ≤ s.vol.get file .size)
    (hle : s.vol.get file .startBlock * s.dev.blockSize + s.vol.get file .size ≤ s.dev.size)
    (hsize : size < 18446744073709551616) :
    s.ReadExact file size off ↔ off + size < 18446744073709551616 ∧
      s.dev.HasBlock ((s.vol.get file .startBlock * s.dev.blockSize + off) / s.dev.blockSize) ∧
      (off % s.dev.blockSize = 0 ∨
        off % s.dev.blockSize + min size (s.vol.get file .size - off) ≤ s.dev.blockSize) := by
  have hsmall : s.dev.size < 9223372036854775808 := hs.small
  obtain ⟨dev, hsame, hcoh, hrun⟩ := sfsRead_run size hq hc hs hfile hin hoff
  have hoffset : u64 (s.vol.get file .startBlock * s.dev.blockSize + off)
      = s.vol.get file .startBlock * s.dev.blockSize + off := by
    unfold u64
    omega
  rw [hoffset] at hrun
  have hmod : (s.vol.get file .startBlock * s.dev.blockSize + off) % s.dev.blockSize
      = off % s.dev.blockSize := Nat.mul_add_mod' _ _ _
  by_cases hsum : off + size < 18446744073709551616
  · have hread : readSize (s.vol.get file .size) size off
        = min size (s.vol.get file .size - off) := by
      unfold readSize
      rw [u64, Nat.mod_eq_of_lt hsum]
      split <;> omega
    rw [hread] at hrun
    have hexact : dev.ReadExact (s.vol.get file .startBlock * s.dev.blockSize + off)
        (min size (s.vol.get file .size - off)) ↔ _ :=
      readExact_iff (hsame.quiet hq) hcoh (by rw [hsame.blockSize]; exact hs.pos)
        (by rw [hsame.blockSize, hsame.size]; exact hs.blocks) (by rw [hsame.size]; omega)
        (by rw [hsame.size]; exact hsmall)
    rw [hsame.hasBlock, hsame.blockSize, hmod] at hexact
    rw [and_iff_right hsum, ← hexact]
    constructor
    · intro h data
      obtain ⟨s', hs'⟩ := hrun data
      obtain ⟨s'', hs''⟩ := h data
      rw [hs'] at hs''
      obtain ⟨hret, hmem⟩ := Prod.mk.inj (Prod.mk.inj (Option.some.inj hs'')).1
      refine ⟨_, Prod.ext hret (Prod.ext ?_ rfl)⟩
      rw [hmem, hsame.data]
    · intro h data
      obtain ⟨s', hs'⟩ := hrun data
      obtain ⟨dev', hdev'⟩ := h data
      refine ⟨s', ?_⟩
      rw [hs', hdev', hsame.data]
  · refine iff_of_false (fun h => ?_) fun h => hsum h.1
    obtain ⟨s', hs'⟩ := hrun fun _ => 0
    obtain ⟨s'', hs''⟩ := h fun _ => 0
    rw [hs'] at hs''
    have hret := (Prod.mk.inj (Prod.mk.inj (Option.some.inj hs'')).1).1
    have hread : readSize (s.vol.get file .size) size off = size := by
      unfold readSize u64
      rw [if_neg (by omega)]
    rw [hread] at hret
    rcases readData_ret dev (s.vol.get file .startBlock * s.dev.blockSize + off) (fun _ => 0) size
      with h | h
    · rw [h] at hret
      omega
    · rw [h, minusOne] at hret
      omega

end SfsRead

/-- Reading is exact on a device whose reads work, with a cache that is empty or
agrees with the device, exactly when the block of the offset is one of the device (it is
not for the empty request at the end of the device), and the read starts at the start of a
block or does not leave the block it starts in; and reading a file is, when moreover the
end of the request is an `off_t`. -/
theorem read_exact_iff (dev : BlockDev) (hq : dev.Quiet) (hc : dev.Coherent)
    (hbs : 0 < dev.blockSize) (hdvd : dev.blockSize ∣ dev.size)
    (hsmall : dev.size < 9223372036854775808) :
    (∀ offset size : Nat, offset + size ≤ dev.size →
      (dev.ReadExact offset size ↔ dev.HasBlock (offset / dev.blockSize) ∧
        (offset % dev.blockSize = 0 ∨ offset % dev.blockSize + size ≤ dev.blockSize))) ∧
    (∀ (s : Sys) (file size off : Nat), s.dev = dev → s.vol.Sized →
      file % 64 = 0 → file + 64 ≤ dev.size → size < 18446744073709551616 →
      off ≤ s.vol.get file .size →
      s.vol.get file .startBlock * dev.blockSize + s.vol.get file .size ≤ dev.size →
      (s.ReadExact file size off ↔ off + size < 18446744073709551616 ∧
        dev.HasBlock ((s.vol.get file .startBlock * dev.blockSize + off) / dev.blockSize) ∧
        (off % dev.blockSize = 0 ∨
          off % dev.blockSize + min size (s.vol.get file .size - off) ≤ dev.blockSize))) := by
  refine ⟨fun _ _ hle => readExact_iff hq hc hbs hdvd hle hsmall, ?_⟩
  intro s file size off hdev hs hfile hin hsize hoff hle
  subst hdev
  exact sfsReadExact_iff hq hc hs hfile hin hoff hle hsize

/-- A volume of two blocks with a file of 100 bytes in the second one, whose
entry is at 64. -/
def oneFile : Sys where
  dev := { twoBlocks with
    data := fun i =>
      if i = 64 then 0x12 else if i = 74 ∨ i = 82 then 1 else if i = 90 then 100 else 0 }
  fs := ⟨0, 0, 0, 128⟩
  errno := 0
  clock := fun _ => 0
  ticks := 0
  stack := fun _ => 0

theorem oneFile_sized : oneFile.vol.Sized :=
  ⟨by decide, ⟨4, rfl⟩, ⟨2, rfl⟩, by decide⟩

theorem read_exact_oneFile :
    (twoBlocks.ReadExact 1 255 ∧ ¬ twoBlocks.ReadExact 1 256 ∧ ¬ twoBlocks.ReadExact 512 0) ∧
      oneFile.ReadExact 64 200 10 := by
  have hread := fun offset n => (read_exact_iff twoBlocks (fun _ => rfl)
    (BlockDev.coherent_of_none rfl) (by decide) ⟨2, rfl⟩ (by decide)).1 offset n
  refine ⟨⟨?_, fun h => ?_, fun h => ?_⟩, ?_⟩
  · exact (hread 1 255 (by decide)).2 ⟨by decide, Or.inr (by decide)⟩
  · exact absurd ((hread 1 256 (by decide)).1 h).2 (by decide)
  · exact absurd ((hread 512 0 (by decide)).1 h).1 (by decide)
  · exact ((read_exact_iff oneFile.dev (fun _ => rfl) (BlockDev.coherent_of_none rfl) (by decide)
      ⟨2, rfl⟩ (by decide)).2 oneFile 64 200 10 rfl oneFile_sized rfl (by decide) (by decide)
      (by decide) (by decide)).2 ⟨by decide, by decide, Or.inr (by decide)⟩

/-- A read of 256 bytes from the second byte of the device on. -/
theorem read_not_exact_over_block_end :
    twoBlocks.Quiet ∧ twoBlocks.Coherent ∧ 1 + 256 ≤ twoBlocks.size ∧ twoBlocks.HasRange 1 256 ∧
      ¬ twoBlocks.ReadExact 1 256 := by
  have hquiet : twoBlocks.Quiet := fun _ => rfl
  have hcoh : twoBlocks.Coherent := BlockDev.coherent_of_none rfl
  have hrange : twoBlocks.HasRange 1 256 :=
    BlockDev.hasRange_of_le (by decide) ⟨2, rfl⟩ (by decide) (by decide)
  refine ⟨hquiet, hcoh, by decide, hrange, fun h => ?_⟩
  exact absurd ((readExact_iff hquiet hcoh (by decide) ⟨2, rfl⟩ (by decide) (by decide)).1 h).2
    (by decide)

end Sfs
