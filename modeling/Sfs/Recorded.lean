import Sfs.Shrink

/-!
# Blocks that are lost

The blocks that a file gives up are put on the list by `del_file_list_add`,
which fails when the index is full and no extent is next to them.  Its callers
do not look at what it returns.

* `Vol.NothingLost` is what a change of a file should leave behind;
* `gives_sfsTruncate_zero_lost`: a file that is emptied when its blocks cannot be
  recorded loses them;
* `resize_loses_nothing` says when `sfs_truncate` and `sfs_write` lose no block.
-/

namespace Sfs

open Lib

/-- After a change of a file to a size, the blocks it gave up are on the list,
and its entry has its type and name, the size, and blocks for it. -/
structure Vol.NothingLost (v v' : Vol) (lo hi file newSize : Nat) : Prop where
  blocks : ∃ nodes, FreeList v' nodes ∧
    ∀ b, v.FileOwns file b → ¬ v'.FileOwns file b → v'.Free nodes b
  type : v'.type file = v.type file
  name : ∀ p, HasName v fileKind file p → HasName v' fileKind file p
  size : v'.get file .size = newSize
  extent : FitsSize v.blockSize lo hi (v'.get file .startBlock) (v'.get file .endBlock) newSize

section

variable {v v' : Vol} {t : Img} {nodes nodes' : List Nat} {lo hi file newSize : Nat}

theorem Vol.Resized.nothingLost (h : v.Resized v' nodes nodes' lo hi file newSize) :
    v.NothingLost v' lo hi file newSize := by
  have hok := h.blocks.fileOk file h.isFile
  rw [Vol.FileOk, h.size, h.keeps.area.blockSize] at hok
  exact ⟨⟨nodes', h.blocks.space.toFreeList, fun b hold hnew => (h.free b).2 ⟨Or.inr hold, hnew⟩⟩,
    h.type, h.name, h.size, hok⟩

/-- A change outside the index does not matter. -/
theorem Vol.NothingLost.sameIndex {w : Vol} (h : v.NothingLost w lo hi file newSize)
    (hsame : SameIndex w v') (hslot : w.Slot file) : v.NothingLost v' lo hi file newSize := by
  obtain ⟨nodes, hlist, hfree⟩ := h.blocks
  have hget := hsame.get_eq hslot
  have howns : ∀ b, v'.FileOwns file b ↔ w.FileOwns file b := fun b => by
    rw [Vol.FileOwns, Vol.FileOwns, Vol.Owns, Vol.Owns, hget, hget, hget]
  refine ⟨⟨nodes, ?_, fun b hold hnew => ?_⟩, (hget _).trans h.type, fun p hp => ?_,
    (hget _).trans h.size, ?_⟩
  · exact hlist.congr hsame.area hsame.delBegin fun o ho => hsame.get_eq (hlist.slot o ho)
  · exact (hsame.free_iff hlist).2 (hfree b hold fun hb => hnew ((howns b).2 hb))
  · exact (hsame.sameGroup hslot).hasName (h.name p hp)
  · rw [hget, hget]
    exact h.extent

/-- `sfs_truncate` to 0 of a file whose blocks cannot be recorded loses them. -/
theorem gives_sfsTruncate_zero_lost (hw : Blocks t.vol nodes lo hi)
    (hfile : t.vol.IsFile nodes file) (hsome : t.vol.get file .size ≠ 0)
    (hrec : ¬ t.vol.CanRecord nodes (t.vol.get file .startBlock) (t.vol.get file .endBlock)) :
    Gives (sfsTruncate file 0) t fun r t' => r = 0 ∧ ¬ t.vol.NothingLost t'.vol lo hi file 0 := by
  have hg := hw.geometry
  have hslot := hfile.1
  have hpos := hg.lo_pos
  have hbound := hg.block_lt
  obtain ⟨hlo, hle, hhi, -⟩ := hw.fileExtent hfile hsome
  unfold sfsTruncate
  rw [gives_uninit, gives_readEntry hg.sized hslot.ge hslot.aligned (hg.slot_le hslot)]
  dsimp only
  rw [if_neg (by decide), gives_blockSize, Vol.get_load, Vol.get_load, Vol.get_load, if_pos rfl,
    gives_bind]
  refine (gives_delFileListAdd_added (t := { t with clean := false }) hg hw.space (by omega)
    (by omega) (by omega) fun _ => hw.space.not_after_of_before hle).mono
    fun ⟨_, entr⟩ t₁ h => ?_
  rcases h with ⟨-, -, _, hadd⟩ | ⟨-, hvol₁, -⟩
  · exact absurd hadd.canRecord hrec
  · dsimp only at hvol₁ ⊢
    rw [gives_bind]
    rw [← hvol₁] at hw hfile hg hslot hsome hlo hle ⊢
    refine (gives_setExtent hg.sized hslot.ge hslot.aligned (hg.slot_le hslot) entr).mono
      fun _ t₂ ⟨time, time', hvol⟩ => ?_
    rw [gives_pure]
    refine ⟨rfl, fun hkept => ?_⟩
    have hdata : t₂.vol.data = (t₁.vol.setExtent file 0 0 0 time).data := by
      rw [hvol]
    have hget := fun o ho f => hw.space.get_setExtent (o := o) hfile hdata ho f
    have hlist : FreeList t₂.vol nodes :=
      hw.space.toFreeList.congr (by rw [hvol]; exact ⟨rfl, rfl, rfl, rfl⟩) (by rw [hvol]) hget
    -- The list is the old one, and the first block of the file was not on it.
    obtain ⟨nodes', hlist', hfree⟩ := hkept.blocks
    obtain rfl := hlist.unique hlist'
    have hown : t₁.vol.FileOwns file (t₁.vol.get file .startBlock) :=
      ⟨hsome, Nat.le_refl _, hle⟩
    refine hw.apart file hfile _ hown ((Vol.free_congr hget).1 (hfree _ hown fun hnew => ?_))
    exact hnew.1 hkept.size

/-- The file has blocks and needs more of them for the size. -/
def Vol.Outgrows (v : Vol) (file newSize : Nat) : Prop :=
  v.get file .size ≠ 0 ∧ realSize v.blockSize (v.get file .size) < realSize v.blockSize newSize

/-- A size so large that its blocks do not fit an `off_t` is rounded to less than
a block, so it takes no more blocks than the file has. -/
theorem Vol.Outgrows.fits (h : v.Outgrows file newSize) (hw : Blocks v nodes lo hi)
    (hfile : v.IsFile nodes file) (hlt : newSize < 18446744073709551616) :
    v.blockSize * blocksOf v.blockSize newSize < 18446744073709551616 ∧
      blocksOf v.blockSize (v.get file .size) < blocksOf v.blockSize newSize := by
  have hbs := hw.geometry.sized.pos
  have hdev := hw.geometry.sized.small
  have hold := hw.size_lt hfile
  obtain ⟨hsome, hmore⟩ := h
  have hone := Nat.mul_le_mul_left v.blockSize (blocksOf_pos hbs (Nat.pos_of_ne_zero hsome))
  have hround := blocksOf_lt hbs newSize
  rw [realSize_eq hbs (show v.get file .size + v.blockSize ≤ _ by omega)] at hmore
  have hfit : v.blockSize * blocksOf v.blockSize newSize < 18446744073709551616 := by
    by_contra hbig
    have hwrap : realSize v.blockSize newSize
        = v.blockSize * blocksOf v.blockSize newSize - 18446744073709551616 := by
      show v.blockSize * blocksOf v.blockSize newSize % 18446744073709551616 = _
      omega
    omega
  rw [realSize_eq_of_lt hfit] at hmore
  exact ⟨hfit, (Nat.mul_lt_mul_left hbs).1 hmore⟩

end

section

variable {s : Sys} {nodes : List Nat} {lo hi file : Nat}

/-- `sfs_truncate` to 0 loses no block if and only if the file has none or its
blocks can be recorded; `sfs_truncate` and `sfs_write` that take a file to a new
extent lose none if its blocks can be recorded then. -/
theorem resize_loses_nothing (hq : s.dev.Quiet) (hc : s.dev.Coherent)
    (hw : Blocks s.vol nodes lo hi)
    (hlive : s.vol.LiveFile file) :
    (∃ s', s.exec (sfsTruncate file 0) = some (0, s') ∧
      (s.vol.NothingLost s'.vol lo hi file 0 ↔ s.vol.get file .size = 0 ∨
        s.vol.CanRecord nodes (s.vol.get file .startBlock) (s.vol.get file .endBlock))) ∧
    (∀ newSize, newSize < 18446744073709551616 → s.vol.Outgrows file newSize →
      s.vol.GrowsSafely nodes file newSize →
      ∃ r s', s.exec (sfsTruncate file newSize) = some (r, s') ∧
        (r = 0 → s.vol.NothingLost s'.vol lo hi file newSize)) ∧
    ∀ (data : Mem) (size off : Nat), off + size < 18446744073709551616 →
      s.vol.Outgrows file (max (s.vol.get file .size) (off + size)) →
      s.vol.GrowsSafely nodes file (max (s.vol.get file .size) (off + size)) →
      ∃ r s', s.exec (sfsWrite file data size off) = some (r, s') ∧
        (r ≠ minusOne →
          s.vol.NothingLost s'.vol lo hi file (max (s.vol.get file .size) (off + size))) := by
  have hfile : s.vol.IsFile nodes file := hlive.isFile
  have hshow := Sys.shows_img hq hc hw.geometry.sized
  refine ⟨?_, fun newSize hlt hout hsafe => ?_, fun data size off hlt hout hsafe => ?_⟩
  · by_cases hcond : s.vol.get file .size = 0 ∨
        s.vol.CanRecord nodes (s.vol.get file .startBlock) (s.vol.get file .endBlock)
    · obtain ⟨r, s', t', hrun, hshow', rfl, nodes', hres⟩ := transfer hshow
        (gives_sfsTruncate_zero (t := s.img) hw hfile fun hsome => hcond.resolve_left hsome)
      rw [← hshow'.vol] at hres
      exact ⟨s', hrun, fun _ => hcond, fun _ => hres.nothingLost⟩
    · obtain ⟨hsome, hrec⟩ := not_or.1 hcond
      obtain ⟨r, s', t', hrun, hshow', rfl, hlost⟩ := transfer hshow
        (gives_sfsTruncate_zero_lost (t := s.img) hw hfile hsome hrec)
      rw [← hshow'.vol] at hlost
      exact ⟨s', hrun, fun h => absurd h hlost, fun h => absurd h hcond⟩
  · obtain ⟨hfit, hmore⟩ := hout.fits hw hfile hlt
    have hz : newSize ≠ 0 := by
      rintro rfl
      rw [blocksOf_zero] at hmore
      omega
    obtain ⟨r, s', t', hrun, hshow', hres⟩ := transfer hshow
      (gives_sfsTruncate_grow (t := s.img) hw hfile hz hlt hfit (Nat.le_of_lt hmore) hsafe)
    refine ⟨r, s', hrun, fun hr => ?_⟩
    rcases hres with ⟨hr', -⟩ | ⟨-, nodes', hres⟩
    · exact absurd (hr'.symm.trans hr) (by decide)
    · rw [← hshow'.vol] at hres
      exact hres.nothingLost
  · have hold := hw.size_lt hfile
    have hdev := hw.geometry.sized.small
    obtain ⟨hfit, -⟩ := hout.fits hw hfile (by omega)
    obtain ⟨r, s', t', hrun, hshow', hres⟩ := transfer hshow
      (gives_sfsWrite (t := s.img) hw hfile hlt hfit hsafe data)
    refine ⟨r, s', hrun, fun hr => ?_⟩
    rcases hres with ⟨hr', -⟩ | ⟨-, w, nodes', hres, hvol⟩
    · exact absurd hr' hr
    · rw [hshow'.vol, hvol]
      refine hres.nothingLost.sameIndex (hres.blocks.stored_sameIndex hres.isFile ?_ data)
        hres.isFile.1
      rw [hres.size]
      exact Nat.le_max_right _ _

/-- The first of two files is cut off and moved behind the second. -/
theorem resize_loses_nothing_twoFiles :
    ∃ s₀ s s₁ s₂ s₃, FreshlyMounted blankOpts 512 s₀ ∧
      run Op.step ⟨s₀, []⟩ twoFiles = some s ∧ s.sys.vol.get 3776 .startBlock = 1 ∧
      (s.sys.exec (sfsTruncate 3776 0) = some (0, s₁) ∧
        s.sys.vol.NothingLost s₁.vol 1 7 3776 0) ∧
      (s.sys.exec (sfsTruncate 3776 1100) = some (0, s₂) ∧ s₂.vol.get 3776 .startBlock = 4 ∧
        s.sys.vol.NothingLost s₂.vol 1 7 3776 1100) ∧
      s.sys.exec (sfsWrite 3776 (fun _ => 8) 600 600) = some (600, s₃) ∧
        s₃.vol.get 3776 .startBlock = 4 ∧ s.sys.vol.NothingLost s₃.vol 1 7 3776 1200 := by
  have hview : (blankRun twoFiles).map (fun s => decide (
      (s.sys.vol.blockSize = 512 ∧ s.sys.vol.LiveFile 3776 ∧ s.sys.vol.get 3776 .size = 600 ∧
        s.sys.vol.get 3776 .startBlock = 1) ∧
      (s.sys.vol.Slot 3968 ∧ s.sys.vol.type 3968 = EntryType.unusedEntry.code) ∧
      (s.sys.exec (sfsTruncate 3776 1100)).map (fun x => (x.1, x.2.vol.get 3776 .startBlock))
        = some (0, 4) ∧
      (s.sys.exec (sfsWrite 3776 (fun _ => 8) 600 600)).map
        (fun x => (x.1, x.2.vol.get 3776 .startBlock)) = some (600, 4))) = some true := by
    decide +kernel
  obtain ⟨s₀, s, hfresh, hmount, hrun, hview⟩ := blankRun_eq hview
  obtain ⟨⟨hbs, hlive, hsize, hstart⟩, hspare, htrunc, hwritten⟩ := of_decide_eq_true hview
  obtain ⟨hq, hc, nodes, hw⟩ := blankRun_light hmount (by decide +kernel) hrun
  have hunused : s.sys.vol.UnusedRun 3968 1 := fun j hj => by
    obtain rfl : j = 0 := by omega
    exact hspare
  have hout : ∀ newSize, newSize = 1100 ∨ newSize = 1200 → s.sys.vol.Outgrows 3776 newSize := by
    intro newSize hn
    rw [Vol.Outgrows, hbs, hsize]
    rcases hn with rfl | rfl <;> decide
  obtain ⟨⟨s₁, hrun₁, hiff⟩, hgrow, hwrite⟩ := resize_loses_nothing hq hc hw.toBlocks hlive
  obtain ⟨r₂, s₂, hrun₂, hlost₂⟩ := hgrow 1100 (by decide) (hout _ (Or.inl rfl))
    fun _ _ _ _ => Vol.canMove_of_unused hunused
  rw [hsize] at hwrite
  obtain ⟨r₃, s₃, hrun₃, hlost₃⟩ := hwrite (fun _ => 8) 600 600 (by decide) (hout _ (Or.inr rfl))
    fun _ _ _ _ => Vol.canMove_of_unused hunused
  rw [hrun₂] at htrunc
  rw [hrun₃] at hwritten
  obtain ⟨rfl, hmoved⟩ := Prod.mk.inj (Option.some.inj htrunc)
  obtain ⟨rfl, hmoved'⟩ := Prod.mk.inj (Option.some.inj hwritten)
  exact ⟨s₀, s, s₁, s₂, s₃, hfresh, hrun, hstart,
    ⟨hrun₁, hiff.2 (Or.inr (Or.inl ⟨3968, hspare⟩))⟩, ⟨hrun₂, hmoved, hlost₂ rfl⟩,
    hrun₃, hmoved', hlost₃ (by decide)⟩

/-- Four files that fill the index of the small disk, the first two with a block. -/
def fullOps : List Op :=
  [.creat [0x61, 0], .creat [0x62, 0], .creat [0x63, 0], .creat [0x64, 0],
    .write 3776 (fun _ => 7) 1 0, .write 3840 (fun _ => 7) 1 0]

/-- `sfs_truncate` of the first file to 0 returns 0, and its block is lost. -/
theorem truncate_loses_block :
    ∃ s s₁ s', blankMounted = some s ∧ run Op.step ⟨s, []⟩ fullOps = some s₁ ∧
      s₁.sys.dev.Quiet ∧ s₁.sys.dev.Coherent ∧ WellFormed s₁.sys.vol [3648] 1 7 ∧
      s₁.sys.vol.LiveFile 3776 ∧ s₁.sys.exec (sfsTruncate 3776 0) = some (0, s') ∧
      ¬ s₁.sys.vol.NothingLost s'.vol 1 7 3776 0 := by
  have hview : (blankRun fullOps).map (fun s' : Session =>
      ([s'.sys.fs.delBegin, s'.sys.vol.next 3648, s'.sys.fs.entryStart, s'.sys.fs.volIdent],
        (List.range 7).all fun i => s'.sys.vol.type (3584 + 64 * i) != 0x10,
        [s'.sys.vol.type 3776, s'.sys.vol.get 3776 .size, s'.sys.vol.get 3776 .startBlock,
          s'.sys.vol.get 3776 .endBlock, s'.sys.vol.get 3648 .startBlock,
          s'.sys.vol.get 3648 .endBlock]))
      = some ([3648, 0, 3584, 4032], true, [0x12, 1, 1, 1, 3, 6]) := by decide +kernel
  obtain ⟨s, s₁, -, hmount, hrun, hview⟩ := blankRun_eq hview
  simp only [Prod.mk.injEq, List.cons.injEq, and_true] at hview
  obtain ⟨⟨hbegin, hnext, hstart, hident⟩, hfull, htype, hsize, hs, he, hns, hne⟩ := hview
  obtain ⟨hq, hc, nodes, hw⟩ := blankRun_light hmount (by decide +kernel) hrun
  obtain rfl : nodes = [3648] := hw.space.eq_of_begin hbegin (by decide) hnext
  have hlive : s₁.sys.vol.LiveFile 3776 :=
    ⟨⟨hstart.trans_le (by decide), Nat.lt_of_lt_of_eq (by decide) hident.symm, by decide⟩, htype⟩
  have hrec : ¬ s₁.sys.vol.CanRecord [3648] (s₁.sys.vol.get 3776 .startBlock)
      (s₁.sys.vol.get 3776 .endBlock) := by
    rw [hs, he]
    rintro (⟨o, ho, hu⟩ | ⟨o, ho, hside⟩)
    · -- None of the seven slots of the index is unused.
      have hge : 3584 ≤ o := Nat.le_trans (Nat.le_of_eq hstart.symm) ho.ge
      have hlt : o < 4032 := Nat.lt_of_lt_of_eq ho.lt hident
      have hal := ho.aligned
      have h := List.all_eq_true.1 hfull ((o - 3584) / 64) (List.mem_range.2 (by omega))
      rw [show 3584 + 64 * ((o - 3584) / 64) = o by omega, bne_iff_ne] at h
      exact h hu
    · obtain rfl := List.mem_singleton.1 ho
      rw [Vol.Before, Vol.After, hns, hne] at hside
      omega
  obtain ⟨r, s', t', hgo, hshow, rfl, hlost⟩ := transfer
    (Sys.shows_img hq hc hw.geometry.sized) (gives_sfsTruncate_zero_lost (t := s₁.sys.img)
      hw.toBlocks hlive.isFile (by rw [show s₁.sys.img.vol.get 3776 .size = 1 from hsize]; decide)
      hrec)
  rw [← hshow.vol] at hlost
  exact ⟨s, s₁, s', hmount, hrun, hq, hc, hw, hlive, hgo, hlost⟩

end

end Sfs
