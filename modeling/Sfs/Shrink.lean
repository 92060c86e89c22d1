import Sfs.Extents

/-!
# Truncating files

`sfs_truncate` gives a file that needs as many blocks as before, or more, or
none, what it should.  When a file loses blocks and keeps others, `file_shrink`
takes the number of bytes it loses for a number of blocks, and hands blocks to
the list that are not the file's to give.

* `ListAdded.exists_node`: a node of the new list takes the blocks, whatever
  they are;
* `gives_fileShrink`: so a block that the file keeps is on the list, or an
  extent ends before it starts;
* `sfsTruncate_right_iff` says when `sfs_truncate` does what it should.
-/

namespace Sfs

open Lib

section List

variable {v v' : Vol} {nodes nodes' : List Nat} {lo hi start stop : Nat}

/-- A node of the new list takes the blocks: it starts with them, unless another
one ended right before them. -/
theorem Vol.ListAdded.exists_node (h : v.ListAdded nodes start stop v' nodes')
    (hf : FreeSpace v nodes lo hi) (hg : Geometry v lo hi) (hstart : start < 18446744073709551616)
    (hstop : stop < hi) (hside : ∀ o, o ∈ nodes → v.Before o start → ¬ v.After o stop) :
    ∃ a, a ∈ nodes' ∧ v'.get a .startBlock ≤ start ∧ stop ≤ v'.get a .endBlock ∧
      v'.get a .endBlock < hi ∧
      (v'.get a .startBlock = start ∨ ∃ o, o ∈ nodes ∧ v.Before o start) := by
  have hbound := hg.block_lt
  cases h with
  | @joinNext next hnext after _ =>
    have hs : (v.set next .startBlock start).get next .startBlock = start := by
      rw [Vol.get_set_same]
      exact Nat.mod_eq_of_lt hstart
    have he : (v.set next .startBlock start).get next .endBlock = v.get next .endBlock :=
      Vol.get_set_field v next (by decide) start
    have hord := hf.ordered next hnext
    unfold Vol.After at after
    refine ⟨next, hnext, Nat.le_of_eq hs, ?_, ?_, Or.inl hs⟩
    · rw [he]
      omega
    · rw [he]
      exact hf.lt next hnext
  | @joinPrev prev hprev before _ =>
    have hs : (v.set prev .endBlock stop).get prev .startBlock = v.get prev .startBlock :=
      Vol.get_set_field v prev (by decide) stop
    have he : (v.set prev .endBlock stop).get prev .endBlock = stop := by
      rw [Vol.get_set_same]
      exact Nat.mod_eq_of_lt (show stop < 18446744073709551616 by omega)
    have hord := hf.ordered prev hprev
    refine ⟨prev, hprev, ?_, Nat.le_of_eq he.symm, ?_, Or.inr ⟨prev, hprev, before⟩⟩
    · rw [hs]
      unfold Vol.Before at before
      omega
    · rw [he]
      exact hstop
  | @joinBoth prev next hprev before hnext after =>
    have hne : next ≠ prev := fun heq => hside prev hprev before (heq ▸ after)
    have hs : ((v.unlink prev).set next .startBlock (v.get prev .startBlock)).get next .startBlock
        = v.get prev .startBlock := by
      rw [Vol.get_set_same]
      exact Nat.mod_eq_of_lt (v.get_lt prev .startBlock)
    have he : ((v.unlink prev).set next .startBlock (v.get prev .startBlock)).get next .endBlock
        = v.get next .endBlock :=
      (Vol.get_set_field _ next (by decide) _).trans
        (hf.get_unlink hprev (hf.slot next hnext) (by decide) (by decide) (by decide))
    have hord := hf.ordered prev hprev
    have hord' := hf.ordered next hnext
    refine ⟨next, hf.nodup.mem_erase_iff.2 ⟨hne, hnext⟩, ?_, ?_, ?_, Or.inr ⟨prev, hprev, before⟩⟩
    · rw [hs]
      unfold Vol.Before at before
      omega
    · rw [he]
      unfold Vol.After at after
      omega
    · rw [he]
      exact hf.lt next hnext
  | @push new entr _ _ slot _ _ node _ =>
    have hbegin : v.fs.delBegin % 64 = 0 := by
      by_cases h0 : v.fs.delBegin = 0
      · omega
      · exact (hf.slot _ (hf.chain.first_mem h0)).aligned
    have hlt : new < 18446744073709551616 := by
      have h₁ := hg.slot_le slot
      have h₂ := hg.sized.small
      omega
    have hget : ∀ f : Field, f = .startBlock ∨ f = .endBlock →
        (v.push new entr).get new f = fieldAt entr 0 f := by
      rintro f (rfl | rfl) <;>
      · rw [Vol.get_push slot.aligned hlt hbegin slot.aligned, if_neg, if_pos rfl]
        rintro ⟨-, -, hf⟩
        cases hf
    have hs : (v.push new entr).get new .startBlock = start :=
      (hget _ (Or.inl rfl)).trans node.start
    have he : (v.push new entr).get new .endBlock = stop := (hget _ (Or.inr rfl)).trans node.stop
    refine ⟨new, List.mem_cons_self, Nat.le_of_eq hs, Nat.le_of_eq he.symm, ?_, Or.inl hs⟩
    rw [he]
    exact hstop

end List

section Shrink

variable {t : Img} {nodes : List Nat} {lo hi file newSize : Nat}

/-- `file_shrink` of a file that keeps a block puts the last block it keeps on
the list, or makes an extent that ends before it starts. -/
theorem gives_fileShrink (hw : Blocks t.vol nodes lo hi) (hfile : t.vol.IsFile nodes file)
    (hspare : ∃ o, t.vol.Slot o ∧ t.vol.type o = EntryType.unusedEntry.code) (hpos : 0 < newSize)
    (hless : blocksOf t.vol.blockSize newSize < blocksOf t.vol.blockSize (t.vol.get file .size))
    (entr : Entry) :
    Gives (fileShrink file newSize entr) t fun r t' => r.1 = 0 ∧ ∃ nodes' a,
      ListStep t.vol t'.vol nodes nodes' ∧ a ∈ nodes' ∧
        (t'.vol.Owns a (t.vol.get file .startBlock + blocksOf t.vol.blockSize newSize - 1) ∨
          t'.vol.get a .endBlock + 1 < t'.vol.get a .startBlock) := by
  have hg := hw.geometry
  have hbs := hg.sized.pos
  have hslot := hfile.1
  have hdev := hg.sized.small
  have hbound := hg.block_lt
  have hlo₀ := hg.lo_pos
  have hold := hw.size_lt hfile
  have hkeep := blocksOf_pos hbs hpos
  have hsome : t.vol.get file .size ≠ 0 := by
    intro hz
    rw [hz, blocksOf_zero] at hless
    omega
  obtain ⟨hlo, hle, hhi, hcount⟩ := hw.fileExtent hfile hsome
  generalize hd : blocksOf t.vol.blockSize (t.vol.get file .size) -
    blocksOf t.vol.blockSize newSize = d
  -- A block has more than one byte, so the bytes are more than the blocks.
  have hbytes : d < t.vol.blockSize * d := by
    have h64 := Nat.le_of_dvd hbs hg.sized.slots
    have hmul := Nat.mul_le_mul_right d h64
    omega
  have hfit : t.vol.blockSize * d < 9223372036854775808 := by
    have h₁ := blocksOf_lt hbs (t.vol.get file .size)
    have h₂ := Nat.mul_le_mul_left t.vol.blockSize
      (show d ≤ blocksOf t.vol.blockSize (t.vol.get file .size) by omega)
    have h₃ := Nat.mul_le_mul_left t.vol.blockSize
      (show blocksOf t.vol.blockSize (t.vol.get file .size) ≤ hi by omega)
    have h₄ := hg.entryStart
    have h₅ := hg.nonempty
    have h₆ := hg.inside
    rw [Nat.mul_comm _ hi, ← h₄] at h₃
    omega
  have hnew : newSize + t.vol.blockSize ≤ 18446744073709551616 := by
    have h₁ := le_blocksOf hbs newSize
    have h₂ := Nat.mul_le_mul_left t.vol.blockSize (Nat.le_of_lt hless)
    have h₃ := blocksOf_lt hbs (t.vol.get file .size)
    have h₄ := hg.blockSize_le
    omega
  have hdelta : sub64 (realSize t.vol.blockSize (t.vol.get file .size))
      (realSize t.vol.blockSize newSize) = t.vol.blockSize * d := by
    rw [realSize_eq hbs (by omega), realSize_eq hbs hnew, sub64_of_le
      (Nat.mul_le_mul_left _ (Nat.le_of_lt hless)), ← hd, Nat.mul_sub]
  unfold fileShrink
  rw [gives_blockSize, gives_readEntry hg.sized hslot.ge hslot.aligned (hg.slot_le hslot)]
  dsimp only
  rw [Vol.get_load, Vol.get_load, hdelta, if_neg (by omega)]
  generalize hfirst : u64 (sub64 (t.vol.get file .endBlock) (t.vol.blockSize * d) + 1) = first
  -- The difference wraps around when the file is too close to block 0.
  have hcase : (first + t.vol.blockSize * d = t.vol.get file .endBlock + 1) ∨
      9223372036854775808 ≤ first ∧ first < 18446744073709551616 := by
    rw [← hfirst]
    unfold sub64 u64
    split
    · exact Or.inl (by omega)
    · by_cases hone : t.vol.blockSize * d = t.vol.get file .endBlock + 1
      · exact Or.inl (by omega)
      · exact Or.inr (by omega)
  have hlt : first < 18446744073709551616 := by omega
  have hfar : 9223372036854775808 ≤ first → ∀ o, o ∈ nodes → ¬ t.vol.Before o first := by
    intro hbig o ho hb
    have h := hw.space.lt o ho
    unfold Vol.Before at hb
    omega
  have hside : ∀ o, o ∈ nodes → t.vol.Before o first →
      ¬ t.vol.After o (t.vol.get file .endBlock) := by
    intro o ho hb
    rcases hcase with h | ⟨hbig, -⟩
    · exact hw.space.not_after_of_before (by omega) ho hb
    · exact absurd hb (hfar hbig o ho)
  rw [gives_bind]
  refine (gives_delFileListAdd_added (t := { t with clean := false }) hg hw.space (by omega) hlt
    (show t.vol.get file .endBlock < 18446744073709551616 by omega) hside).mono
    fun ⟨_, entr₁⟩ t₁ h₁ => ?_
  rw [gives_pure]
  refine ⟨rfl, ?_⟩
  rcases h₁ with ⟨-, -, nodes', hadd⟩ | ⟨-, -, hrec⟩
  · obtain ⟨a, ha, hs, he, hhigh, hor⟩ := hadd.exists_node hw.space hg hlt hhi hside
    refine ⟨nodes', a, hadd.listStep hg hw.space.toFreeList hside, ha, ?_⟩
    rcases hcase with h | ⟨hbig, -⟩
    · exact Or.inl ⟨by omega, by omega⟩
    · refine Or.inr ?_
      rw [hor.resolve_right fun ⟨o, ho, hb⟩ => hfar hbig o ho hb]
      omega
  · exact absurd (Or.inl hspare) hrec

end Shrink

/-- What `sfs_truncate` of a file to a size is for: the file has the size, as
many blocks as that takes and its first bytes, the free blocks are those of before
with the blocks it gave up and without those it took, and the other files are as
they were. -/
structure Vol.Truncated (v v' : Vol) (nodes : List Nat) (lo hi file newSize : Nat) : Prop where
  size : v'.get file .size = newSize
  extent : FitsSize v.blockSize lo hi (v'.get file .startBlock) (v'.get file .endBlock) newSize
  content : ∀ i, i < v.get file .size → i < newSize →
    v'.data (v'.get file .startBlock * v.blockSize + i)
      = v.data (v.get file .startBlock * v.blockSize + i)
  free : ∃ nodes', FreeSpace v' nodes' lo hi ∧ ∀ b, v'.Free nodes' b ↔
    (v.Free nodes b ∨ v.FileOwns file b) ∧ ¬ v'.FileOwns file b
  others : ∀ o, o ≠ file → v.IsFile nodes o → v.SameGroup v' o ∧
    ∀ k, k < v.fs.entryStart → v.FileOwns o (k / v.blockSize) → v'.data k = v.data k

theorem Vol.Resized.truncated {v v' : Vol} {nodes nodes' : List Nat} {lo hi file newSize : Nat}
    (h : v.Resized v' nodes nodes' lo hi file newSize) (hw : Blocks v nodes lo hi)
    (hfile : v.IsFile nodes file) : v.Truncated v' nodes lo hi file newSize := by
  have hok := h.blocks.fileOk file h.isFile
  rw [Vol.FileOk, h.size, h.keeps.area.blockSize] at hok
  refine ⟨h.size, hok, h.content, ⟨nodes', h.blocks.space, h.free⟩, fun o hne ho => ?_⟩
  refine ⟨h.keeps.sameFile o hne ho, fun k hk hown => h.frame k hk fun hnew => ?_⟩
  rcases h.owns _ hnew with hfree | hold
  · exact hw.apart o ho _ hown hfree
  · exact hne (hw.alone o file ho hfile _ hown hold)

/-- The stores of an extent do not touch the nodes. -/
theorem FreeList.get_setExtent {v v' : Vol} {nodes : List Nat} {file start stop size time o : Nat}
    (hf : FreeList v nodes) (hfile : v.IsFile nodes file)
    (hdata : v'.data = (v.setExtent file start stop size time).data) (ho : o ∈ nodes) (f : Field) :
    v'.get o f = v.get o f := by
  have hne : o ≠ file := fun heq => hfile.not_mem hf (heq ▸ ho)
  exact (Vol.get_congr fun k _ => congrFun hdata (o + k)).trans
    (Vol.get_setExtent_slot hfile.1.aligned (hf.slot o ho).aligned hne f)

section Truncate

variable {t : Img} {s : Sys} {nodes : List Nat} {lo hi file newSize : Nat}

/-- `sfs_truncate` that takes blocks from a file and leaves it others returns 0,
and does not do what it should. -/
theorem gives_sfsTruncate_shrink (hw : Blocks t.vol nodes lo hi) (hfile : t.vol.IsFile nodes file)
    (hspare : ∃ o, t.vol.Slot o ∧ t.vol.type o = EntryType.unusedEntry.code) (hpos : 0 < newSize)
    (hless : blocksOf t.vol.blockSize newSize < blocksOf t.vol.blockSize (t.vol.get file .size)) :
    Gives (sfsTruncate file newSize) t fun r t' => r = 0 ∧
      ¬ t.vol.Truncated t'.vol nodes lo hi file newSize := by
  have hg := hw.geometry
  have hbs := hg.sized.pos
  have hslot := hfile.1
  have hdev := hg.sized.small
  have hbound := hg.block_lt
  have hold := hw.size_lt hfile
  have hsome : t.vol.get file .size ≠ 0 := by
    intro hz
    rw [hz, blocksOf_zero] at hless
    omega
  obtain ⟨hlo, hle, hhi, hcount⟩ := hw.fileExtent hfile hsome
  have hnew : newSize + t.vol.blockSize ≤ 18446744073709551616 := by
    have h₁ := le_blocksOf hbs newSize
    have h₂ := Nat.mul_le_mul_left t.vol.blockSize (Nat.le_of_lt hless)
    have h₃ := blocksOf_lt hbs (t.vol.get file .size)
    have h₄ := hg.blockSize_le
    omega
  unfold sfsTruncate
  rw [gives_uninit, gives_readEntry hg.sized hslot.ge hslot.aligned (hg.slot_le hslot)]
  dsimp only
  rw [if_neg (by decide), gives_blockSize, Vol.get_load, Vol.get_load, Vol.get_load,
    if_neg (by omega), realSize_eq hbs hnew, realSize_eq hbs (by omega),
    if_pos ((Nat.mul_lt_mul_left hbs).2 hless), gives_bind]
  refine (gives_fileShrink (t := { t with clean := false }) hw hfile hspare hpos hless _).mono
    fun ⟨ret, entr₁⟩ t₁ ⟨hret, nodes', a, hstep, ha, hbad⟩ => ?_
  dsimp only at hret hstep hbad ⊢
  have hg₁ := hstep.area.geometry hg
  have hfile₁ := (hstep.isFile_iff hw.space.toFreeList).2 hfile
  have hslot₁ := hfile₁.1
  rw [if_neg (not_not.2 hret), gives_bind]
  refine (gives_setExtent hg₁.sized hslot₁.ge hslot₁.aligned (hg₁.slot_le hslot₁) entr₁).mono
    fun _ t₂ ⟨time, time', hvol⟩ => ?_
  rw [gives_pure]
  refine ⟨rfl, fun htrunc => ?_⟩
  have hdata : t₂.vol.data = (t₁.vol.setExtent file (t.vol.get file .startBlock)
      (endBlockFor t.vol.blockSize (t.vol.get file .startBlock) newSize) newSize time).data := by
    rw [hvol]
  have hget := fun o ho f => hstep.list.get_setExtent (o := o) hfile₁ hdata ho f
  have hlist : FreeList t₂.vol nodes' :=
    hstep.list.congr (by rw [hvol]; exact ⟨rfl, rfl, rfl, rfl⟩) (by rw [hvol]) hget
  obtain ⟨nodes'', hspace, hfree⟩ := htrunc.free
  obtain rfl := hlist.unique hspace.toFreeList
  rcases hbad with hown | hbad
  · -- The last block of the file is on the list.
    have hstart : t₂.vol.get file .startBlock = t.vol.get file .startBlock := by
      rw [hvol]
      exact Vol.get_setExtent_start (by omega)
    have hnext := htrunc.extent
    rw [hstart] at hnext
    have hblocks := blocksOf_pos hbs hpos
    rcases hnext with ⟨hz, -⟩ | ⟨-, -, -, hend⟩
    · omega
    · have hlast : t₂.vol.FileOwns file
          (t.vol.get file .startBlock + blocksOf t.vol.blockSize newSize - 1) := by
        rw [Vol.FileOwns, Vol.Owns, htrunc.size, hstart]
        omega
      refine ((hfree _).1 ⟨a, ha, ?_⟩).2 hlast
      rw [Vol.Owns, hget a ha, hget a ha]
      exact hown
  · have hord := hspace.ordered a ha
    rw [hget a ha, hget a ha] at hord
    omega

/-- `sfs_truncate` does what it should whenever it returns 0, if and only if the
new size is 0 or takes at least as many blocks as the old one. -/
theorem sfsTruncate_right_iff (hq : s.dev.Quiet) (hc : s.dev.Coherent)
    (hw : Blocks s.vol nodes lo hi)
    (hlive : s.vol.LiveFile file)
    (hspare : ∃ o, s.vol.Slot o ∧ s.vol.type o = EntryType.unusedEntry.code)
    (hnew : newSize < 9223372036854775808) :
    ∃ r s', s.exec (sfsTruncate file newSize) = some (r, s') ∧
      ((r = 0 → s.vol.Truncated s'.vol nodes lo hi file newSize) ↔
        newSize = 0 ∨ blocksOf s.vol.blockSize (s.vol.get file .size)
          ≤ blocksOf s.vol.blockSize newSize) := by
  have hfile : s.vol.IsFile nodes file := hlive.isFile
  have hshow := Sys.shows_img hq hc hw.geometry.sized
  have hbig := hw.geometry.blockSize_le
  have hdev := hw.geometry.sized.small
  by_cases hcond : newSize = 0 ∨ blocksOf s.vol.blockSize (s.vol.get file .size)
      ≤ blocksOf s.vol.blockSize newSize
  · have hsafe : s.vol.TruncatesSafely nodes file newSize := by
      obtain ⟨o, ho, hu⟩ := hspare
      refine ⟨by omega, fun hz => hcond.resolve_left hz, fun _ _ => Or.inl ⟨o, ho, hu⟩,
        fun _ _ _ _ => Or.inl (Or.inl ⟨o, ho, hu⟩)⟩
    obtain ⟨r, s', t', hrun, hshow', hres⟩ :=
      transfer hshow (gives_sfsTruncate (t := s.img) hw hfile hsafe)
    refine ⟨r, s', hrun, fun _ => hcond, fun _ hr => ?_⟩
    rcases hres with ⟨hr', -⟩ | ⟨-, nodes', hres⟩
    · exact absurd (hr'.symm.trans hr) (by decide)
    · rw [← hshow'.vol] at hres
      exact hres.truncated hw hfile
  · obtain ⟨hz, hless⟩ := not_or.1 hcond
    obtain ⟨r, s', t', hrun, hshow', hr, hnot⟩ := transfer hshow
      (gives_sfsTruncate_shrink (t := s.img) hw hfile hspare (Nat.pos_of_ne_zero hz)
        (Nat.not_le.1 hless))
    rw [← hshow'.vol] at hnot
    exact ⟨r, s', hrun, fun h => absurd (h hr) hnot, fun h => absurd h hcond⟩

theorem sfsTruncate_right_iff_written :
    ∃ s r s', Written s ∧ s.exec (sfsTruncate 3776 0) = some (r, s') ∧
      (r = 0 → s.vol.Truncated s'.vol [3648] 1 7 3776 0) := by
  obtain ⟨s, -, -, -, -, -, h⟩ := exists_written
  obtain ⟨r, s', hrun, hiff⟩ :=
    sfsTruncate_right_iff h.quiet h.coherent h.wellFormed.toBlocks h.live
    ⟨3840, h.spare⟩ (show 0 < 9223372036854775808 by decide)
  exact ⟨s, r, s', h, hrun, hiff.2 (Or.inl rfl)⟩

/-- A file of two blocks, truncated to 100 bytes: `sfs_truncate` returns 0, and
the file is not what it should be. -/
theorem truncate_to_block_wrong :
    ∃ s s', Written s ∧ s.exec (sfsTruncate 3776 100) = some (0, s') ∧
      ¬ s.vol.Truncated s'.vol [3648] 1 7 3776 100 := by
  obtain ⟨s, -, -, -, -, -, h⟩ := exists_written
  have hblocks :
      blocksOf s.vol.blockSize 100 < blocksOf s.vol.blockSize (s.vol.get 3776 .size) := by
    rw [h.blockSize, h.size]
    decide
  obtain ⟨r, s', t', hrun, hshow, rfl, hnot⟩ := transfer
    (Sys.shows_img h.quiet h.coherent h.wellFormed.geometry.sized)
    (gives_sfsTruncate_shrink (t := s.img) h.wellFormed.toBlocks h.live.isFile
      ⟨3840, h.spare⟩ (show 0 < 100 by decide) hblocks)
  rw [← hshow.vol] at hnot
  exact ⟨s, s', h, hrun, hnot⟩

end Truncate

end Sfs
