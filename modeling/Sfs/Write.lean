import Sfs.Grow

/-!
# Writing and truncating files

* `gives_sfsWrite`: the file gets an extent for the new end and the bytes are
  stored in it, or there is no room and nothing changes;
* `gives_sfsTruncate`: the file gets an extent for the new size.  A new size
  that takes whole blocks off a file that stays non-empty is left out: there
  `file_shrink` goes wrong.
-/

namespace Sfs

open Lib

/-- The volume after `size` bytes were stored from byte `off` of a file on. -/
def Vol.stored (v : Vol) (file off : Nat) (data : Mem) (size : Nat) : Vol :=
  { v with data := blit v.data (v.get file .startBlock * v.blockSize + off) data 0 size }

section Stored

variable {v : Vol} {nodes : List Nat} {lo hi file off size : Nat}

/-- The bytes of a file from its start to its size are before the index. -/
theorem Blocks.range_le (hw : Blocks v nodes lo hi) (hfile : v.IsFile nodes file)
    (hle : off + size ≤ v.get file .size) :
    v.get file .startBlock * v.blockSize + off + size ≤ v.fs.entryStart := by
  have hstart := hw.geometry.start_pos
  by_cases hz : v.get file .size = 0
  · rw [(hw.start_eq_zero hfile).2 hz]
    omega
  · have hlast := (hw.fileByte hfile (show v.get file .size - 1 < v.get file .size by omega)).2
    omega

/-- Storing bytes of a file changes nothing in the index. -/
theorem Blocks.stored_sameIndex (hw : Blocks v nodes lo hi) (hfile : v.IsFile nodes file)
    (hle : off + size ≤ v.get file .size) (data : Mem) :
    SameIndex v (v.stored file off data size) := by
  have hrange := hw.range_le hfile hle
  refine ⟨⟨rfl, rfl, rfl, rfl⟩, rfl, fun k hk => blit_outside ?_⟩
  omega

end Stored

section Operations

variable {t : Img} {nodes : List Nat} {lo hi file newSize : Nat}

/-- The end of `sfs_write` and `sfs_truncate`: the new extent and size are
stored. -/
theorem gives_setMoved {v : Vol} {nodes' : List Nat} {start stop : Nat}
    (hmoved : v.Moved t.vol nodes nodes' lo hi file start stop newSize)
    (hw : Blocks v nodes lo hi) (hfile : v.IsFile nodes file)
    (hsize : newSize < 18446744073709551616) (entr : Entry) :
    Gives (setExtent file start stop newSize entr) t fun _ t' =>
      v.Resized t'.vol nodes nodes' lo hi file newSize ∧ t'.vol.get file .startBlock = start := by
  have hg := hmoved.keeps.area.geometry hw.geometry
  have hslot := hmoved.isFile.1
  have hbound := hg.block_lt
  have hle := (hmoved.fits.bounds hg.lo_le hw.geometry.sized.pos).1
  refine (gives_setExtent hg.sized hslot.ge hslot.aligned (hg.slot_le hslot) entr).mono
    fun _ t' ⟨time, time', hvol⟩ => ?_
  have hres := (hmoved.setExtent hw hfile hsize time)
  have hsame := SameIndex.withTime (t.vol.setExtent file start stop newSize time) time'
  rw [hvol]
  refine ⟨⟨hres.keeps.trans (hsame.keeps file), hsame.blocks hres.blocks,
    hsame.isFile_iff.2 hres.isFile, hres.type, ?_, hres.size, hres.free, hres.owns, hres.frame,
    hres.content, hres.rest⟩, ?_⟩
  · exact fun s hs => (hsame.sameGroup hres.isFile.1).hasName (hres.name s hs)
  · exact Vol.get_setExtent_start (by omega)

/-- The blocks of a file that ends before byte 2^63 have less than 2^64 bytes. -/
theorem Blocks.written_lt {v : Vol} (hw : Blocks v nodes lo hi) (hfile : v.IsFile nodes file)
    {size off : Nat} (hlt : off + size < 9223372036854775808) :
    v.blockSize * blocksOf v.blockSize (max (v.get file .size) (off + size))
      < 18446744073709551616 := by
  have hold := hw.size_lt hfile
  have hdev := hw.geometry.sized.small
  exact Nat.lt_of_lt_of_le (blocksOf_lt hw.geometry.sized.pos _) (by omega)

/-- `sfs_write` stores the bytes in the file, which grows to hold them, or
changes nothing because there is no room. -/
theorem gives_sfsWrite (hw : Blocks t.vol nodes lo hi) (hfile : t.vol.IsFile nodes file)
    {size off : Nat} (hlt : off + size < 18446744073709551616)
    (hsize : t.vol.blockSize * blocksOf t.vol.blockSize (max (t.vol.get file .size) (off + size))
      < 18446744073709551616)
    (hsafe : t.vol.GrowsSafely nodes file (max (t.vol.get file .size) (off + size)))
    (data : Mem) :
    Gives (sfsWrite file data size off) t fun r t' =>
      (r = minusOne ∧ t'.vol = t.vol) ∨
        (r = size ∧ ∃ w nodes', t.vol.Resized w nodes nodes' lo hi file
          (max (t.vol.get file .size) (off + size)) ∧ t'.vol = w.stored file off data size) := by
  have hg := hw.geometry
  have hslot := hfile.1
  have hold := hw.size_lt hfile
  have hdev := hg.sized.small
  have hnew : (if t.vol.get file .size < off + size then off + size else t.vol.get file .size)
      = max (t.vol.get file .size) (off + size) := by
    split <;> omega
  unfold sfsWrite
  rw [gives_uninit, gives_readEntry hg.sized hslot.ge hslot.aligned (hg.slot_le hslot)]
  dsimp only
  rw [if_neg (by decide), gives_blockSize, Vol.get_load, Vol.get_load, Vol.get_load,
    u64_of_lt (by omega), hnew, gives_bind]
  refine (gives_extentFor (t := { t with clean := false }) hw hfile hsize
    (blocksOf_mono hg.sized.pos (Nat.le_max_left _ _)) hsafe eIO _).mono
    fun ⟨grown, entr₁⟩ t₁ h₁ => ?_
  dsimp only at h₁ ⊢
  rcases h₁ with ⟨rfl, hvol⟩ | ⟨start, stop, nodes', rfl, hmoved⟩
  · dsimp only
    rw [gives_setErrno, gives_pure]
    exact Or.inl ⟨rfl, hvol⟩
  · dsimp only
    rw [gives_bind]
    refine (gives_setMoved hmoved hw hfile (by omega) entr₁).mono fun _ t₂ ⟨hres, hstart⟩ => ?_
    have hg₂ := hres.blocks.geometry
    have hfit : off + size ≤ t₂.vol.get file .size := by
      rw [hres.size]
      exact Nat.le_max_right _ _
    have hrange := hres.blocks.range_le hres.isFile hfit
    have hin := hg₂.inside
    have hne := hg₂.nonempty
    have hsmall := hg₂.sized.small
    have hbs : t₂.vol.blockSize = t.vol.blockSize := hres.keeps.area.blockSize
    rw [hstart, hbs] at hrange
    rw [u64_of_lt (by omega), gives_tail, gives_writeRange hg₂.sized (by omega) (by omega),
      gives_pure]
    refine Or.inr ⟨rfl, t₂.vol, nodes', hres, ?_⟩
    dsimp only
    rw [Vol.stored, hstart, hbs]

/-- A file whose blocks all go on the list. -/
theorem Vol.Moved.drop {v w : Vol} {nodes' : List Nat} (hw : Blocks v nodes lo hi)
    (hfile : v.IsFile nodes file)
    (hstep : FreeStep v w nodes nodes' lo hi fun b => v.Free nodes b ∨ v.FileOwns file b) :
    v.Moved w nodes nodes' lo hi file 0 0 0 :=
  Vol.Moved.of_freeStep hw hfile hstep (SameIndex.refl w) (Or.inl ⟨rfl, rfl, rfl⟩)
    (fun _ => ⟨fun h => ⟨h, fun h' => h'.1 rfl⟩, And.left⟩) (fun _ h => absurd rfl h)
    (fun _ _ _ => rfl) fun _ _ h => absurd h (Nat.not_lt_zero _)

/-- What must hold for `sfs_truncate` to go right: the rounded size fits an
`off_t`, no block is taken off a file that stays non-empty, and the blocks that
go can be put on the list. -/
structure Vol.TruncatesSafely (v : Vol) (nodes : List Nat) (file newSize : Nat) : Prop where
  size : newSize + v.blockSize ≤ 18446744073709551616
  blocks : newSize ≠ 0 → blocksOf v.blockSize (v.get file .size) ≤ blocksOf v.blockSize newSize
  drop : newSize = 0 → v.get file .size ≠ 0 →
    v.CanRecord nodes (v.get file .startBlock) (v.get file .endBlock)
  grow : v.GrowsSafely nodes file newSize

/-- `sfs_truncate` to 0 puts the blocks of the file on the list. -/
theorem gives_sfsTruncate_zero (hw : Blocks t.vol nodes lo hi) (hfile : t.vol.IsFile nodes file)
    (hrec : t.vol.get file .size ≠ 0 →
      t.vol.CanRecord nodes (t.vol.get file .startBlock) (t.vol.get file .endBlock)) :
    Gives (sfsTruncate file 0) t fun r t' =>
      r = 0 ∧ ∃ nodes', t.vol.Resized t'.vol nodes nodes' lo hi file 0 := by
  have hg := hw.geometry
  have hslot := hfile.1
  unfold sfsTruncate
  rw [gives_uninit, gives_readEntry hg.sized hslot.ge hslot.aligned (hg.slot_le hslot)]
  dsimp only
  rw [if_neg (by decide), gives_blockSize, Vol.get_load, Vol.get_load, Vol.get_load, if_pos rfl,
    gives_bind]
  have hdrop : Gives (delFileListAdd (t.vol.load file t.stack) (t.vol.get file .startBlock)
      (t.vol.get file .endBlock)) { t with clean := false } fun _ t' =>
        ∃ nodes', t.vol.Moved t'.vol nodes nodes' lo hi file 0 0 0 := by
    by_cases hempty : t.vol.get file .size = 0
    · rcases hw.fileOk file hfile with ⟨-, hs, he⟩ | ⟨hpos, -⟩
      · rw [hs, he]
        unfold delFileListAdd
        rw [gives_unit, if_pos ⟨rfl, rfl⟩, gives_pure]
        refine ⟨nodes, Vol.Moved.drop hw hfile ⟨hw.space, ListStep.refl hw.space.toFreeList,
          fun b => ?_⟩⟩
        exact (or_iff_left fun h => h.1 hempty).symm
      · omega
    · obtain ⟨hlo, hle, hhi, -⟩ := hw.fileExtent hfile hempty
      refine (gives_delFileListAdd (t := { t with clean := false }) hg hw.space hlo hle hhi
        fun b h₁ h₂ => hw.apart file hfile b ⟨hempty, h₁, h₂⟩).mono fun r t' h => ?_
      rcases h with ⟨-, -, nodes', hstep⟩ | ⟨-, -, hnot⟩
      · refine ⟨nodes', Vol.Moved.drop hw hfile (hstep.congr fun b => ?_)⟩
        exact or_congr_right (and_iff_right hempty).symm
      · exact absurd (hrec hempty) hnot
  refine hdrop.mono fun ⟨_, entr₁⟩ t₁ ⟨nodes', hmoved⟩ => ?_
  dsimp only
  rw [gives_bind]
  refine (gives_setMoved hmoved hw hfile (by decide) entr₁).mono fun _ t₂ ⟨hres, _⟩ => ?_
  rw [gives_pure]
  exact ⟨rfl, nodes', hres⟩

/-- `sfs_truncate` to a size that takes no block off the file gives it the new
size, or changes nothing because there is no room. -/
theorem gives_sfsTruncate_grow (hw : Blocks t.vol nodes lo hi) (hfile : t.vol.IsFile nodes file)
    (hz : newSize ≠ 0) (hlt : newSize < 18446744073709551616)
    (hsize : t.vol.blockSize * blocksOf t.vol.blockSize newSize < 18446744073709551616)
    (hmore : blocksOf t.vol.blockSize (t.vol.get file .size) ≤ blocksOf t.vol.blockSize newSize)
    (hsafe : t.vol.GrowsSafely nodes file newSize) :
    Gives (sfsTruncate file newSize) t fun r t' =>
      (r = -1 ∧ t'.vol = t.vol) ∨
        (r = 0 ∧ ∃ nodes', t.vol.Resized t'.vol nodes nodes' lo hi file newSize) := by
  have hg := hw.geometry
  have hbs := hg.sized.pos
  have hslot := hfile.1
  have hold := hw.size_lt hfile
  have hdev := hg.sized.small
  unfold sfsTruncate
  rw [gives_uninit, gives_readEntry hg.sized hslot.ge hslot.aligned (hg.slot_le hslot)]
  dsimp only
  rw [if_neg (by decide), gives_blockSize, Vol.get_load, Vol.get_load, Vol.get_load, if_neg hz,
    realSize_eq_of_lt hsize, realSize_eq hbs (by omega), if_neg, gives_bind]
  · refine (gives_extentFor (t := { t with clean := false }) hw hfile hsize hmore hsafe
      eNOSPC _).mono fun ⟨grown, entr₁⟩ t₁ h₁ => ?_
    dsimp only at h₁ ⊢
    rcases h₁ with ⟨rfl, hvol⟩ | ⟨start, stop, nodes', rfl, hmoved⟩
    · dsimp only
      rw [gives_setErrno, gives_pure]
      exact Or.inl ⟨rfl, hvol⟩
    · dsimp only
      rw [gives_bind]
      refine (gives_setMoved hmoved hw hfile hlt entr₁).mono fun _ t₂ ⟨hres, _⟩ => ?_
      rw [gives_pure]
      exact Or.inr ⟨rfl, nodes', hres⟩
  · exact Nat.not_lt.2 (Nat.mul_le_mul_left _ hmore)

/-- `sfs_truncate` gives the file the new size, or changes nothing because there
is no room. -/
theorem gives_sfsTruncate (hw : Blocks t.vol nodes lo hi) (hfile : t.vol.IsFile nodes file)
    (hsafe : t.vol.TruncatesSafely nodes file newSize) :
    Gives (sfsTruncate file newSize) t fun r t' =>
      (r = -1 ∧ t'.vol = t.vol) ∨
        (r = 0 ∧ ∃ nodes', t.vol.Resized t'.vol nodes nodes' lo hi file newSize) := by
  have hbs := hw.geometry.sized.pos
  have hsize := hsafe.size
  by_cases hz : newSize = 0
  · subst hz
    exact (gives_sfsTruncate_zero hw hfile (hsafe.drop rfl)).mono fun _ _ h => Or.inr h
  · exact gives_sfsTruncate_grow hw hfile hz (by omega)
      (Nat.lt_of_lt_of_le (blocksOf_lt hbs newSize) hsize) (hsafe.blocks hz) hsafe.grow

end Operations

end Sfs
