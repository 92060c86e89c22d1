import Sfs.Freed
import Sfs.Owners

/-!
# The free space through the operations

No operation leaves two free extents that touch, an empty one, or a node without
its name.  The operations that resize a file are followed to the list functions
they use; the others keep the nodes as they are.

* `post_growFile_coalesced` is the part of a resize that changes the list;
* `gives_sfsWrite_coalesced`, `gives_sfsTruncate_coalesced` and
  `gives_sfsDelete_coalesced` are the operations that use it;
* `Change.coalesced` says that an operation keeps the free space coalesced.
-/

namespace Sfs

open Lib

/-! ## Operations that keep the nodes -/

section Keep

variable {v v' w : Vol} {nodes : List Nat} {lo hi a o : Nat}

/-- Bytes before the index do not matter to the free space. -/
theorem Coalesced.sameIndex (hc : Coalesced v nodes lo hi) (h : SameIndex v v') :
    Coalesced v' nodes lo hi :=
  hc.congr h.area h.delBegin (fun o ho f => h.get_eq (hc.slot o ho) f) fun o ho =>
    (hc.named o ho).congr fun _ _ _ => h.data _ (Nat.le_add_right_of_le (hc.slot o ho).ge)

theorem Vol.Added.coalesced {kind : NameKind} {s : Buf} (h : v.Added v' kind a s) (hl : Layout v)
    (hc : Coalesced v nodes lo hi) : Coalesced v' nodes lo hi := by
  refine hc.congr h.area h.delBegin (h.get_node hl hc.toFreeList) fun o ho => ?_
  have hhead : v.Head o := Or.inr (Or.inr (hc.type o ho))
  refine (hc.named o ho).congr fun i _ hi => ?_
  exact h.sameGroup hl (hc.slot o ho) hhead _ (Nat.le_add_right _ _) (by rw [Vol.groupEnd]; omega)

theorem Vol.Retyped.coalesced {type : EntryType} (h : v.Retyped v' a type) (hnot : a ∉ nodes)
    (hc : Coalesced v nodes lo hi) : Coalesced v' nodes lo hi := by
  refine hc.congr h.area h.delBegin (h.get_node hc.toFreeList hnot) fun o ho => ?_
  have hal := h.slot.aligned
  have hal' := (hc.slot o ho).aligned
  exact (hc.named o ho).congr fun i hi hi' => h.frame _ (by omega)

/-- The stores of `setExtent` are in the entry of the file. -/
theorem Coalesced.setExtent {file start stop size time : Nat} (hc : Coalesced v nodes lo hi)
    (hfile : file % 64 = 0) (hnot : file ∉ nodes) :
    Coalesced (v.setExtent file start stop size time) nodes lo hi := by
  have hne : ∀ o, o ∈ nodes → o ≠ file := fun o ho heq => hnot (heq ▸ ho)
  refine hc.congr (v.setExtent_area file start stop size time) rfl (fun o ho f => ?_) fun o ho => ?_
  · exact Vol.get_setExtent_slot hfile (hc.slot o ho).aligned (hne o ho) f
  · have hal := (hc.slot o ho).aligned
    have hother := hne o ho
    exact (hc.named o ho).congr fun i hi hi' => Vol.setExtent_outside (by omega)

end Keep

/-- No extent of the list touches a range of blocks on both sides. -/
theorem Coalesced.not_both {v : Vol} {nodes : List Nat} {lo hi start stop o : Nat}
    (hc : Coalesced v nodes lo hi) (hle : start ≤ stop) (ho : o ∈ nodes)
    (hbefore : v.Before o start) : ¬ v.After o stop := by
  intro hafter
  have hfill := hc.nonempty o ho
  unfold Vol.Before at hbefore
  unfold Vol.After at hafter
  omega

/-! ## Operations that resize a file -/

section Resize

variable {t : Img} {nodes : List Nat} {lo hi file newSize : Nat}

/-- Taking the blocks behind the file, or nothing. -/
theorem gives_expandFile_coalesced (hw : Blocks t.vol nodes lo hi)
    (hc : Coalesced t.vol nodes lo hi) (hfile : t.vol.IsFile nodes file)
    (hsize : t.vol.blockSize * blocksOf t.vol.blockSize newSize < 18446744073709551616)
    (hmore : blocksOf t.vol.blockSize (t.vol.get file .size) < blocksOf t.vol.blockSize newSize)
    (entr : Entry) :
    Gives (expandFile file (t.vol.get file .startBlock) newSize entr) t fun r t' =>
      (r.1 ≠ 0 ∧ t'.vol = t.vol) ∨ (r.1 = 0 ∧ ∃ nodes', Coalesced t'.vol nodes' lo hi) := by
  have hg := hw.geometry
  have hbs := hg.sized.pos
  have hold := hw.size_lt hfile
  have hdev := hg.sized.small
  unfold expandFile
  by_cases hz : t.vol.get file .size = 0
  · rw [if_neg (not_not.2 ((hw.start_eq_zero hfile).2 hz)), gives_pure]
    exact Or.inl ⟨one_ne_zero, rfl⟩
  · obtain ⟨-, -, hhi, -⟩ := hw.fileExtent hfile hz
    have hdelta : sub64 (realSize t.vol.blockSize newSize)
        (realSize t.vol.blockSize (t.vol.get file .size)) = t.vol.blockSize *
          (blocksOf t.vol.blockSize newSize - blocksOf t.vol.blockSize (t.vol.get file .size)) := by
      rw [realSize_eq_of_lt hsize, realSize_eq hbs (by omega), sub64_of_le, Nat.mul_sub]
      exact Nat.mul_le_mul_left _ (Nat.le_of_lt hmore)
    rw [if_pos fun h => hz ((hw.start_eq_zero hfile).1 h)]
    refine (gives_tryExpand hg hw.space hfile.1 hhi hdelta).mono fun r t' h => ?_
    rcases h with ⟨hr, hvol, -⟩ | ⟨hr, -, a, ha, -, hroom, hvol⟩
    · exact Or.inl ⟨by rw [hr]; exact one_ne_zero, hvol⟩
    · exact Or.inr ⟨hr, _, hvol ▸ hc.takeFront ha (Nat.sub_pos_of_lt hmore) hroom⟩

/-- A copy into the data area leaves the index as it is. -/
theorem post_copyBlock {src dest n : Nat}
    (hdest : (dest + n) * t.vol.blockSize ≤ t.vol.fs.entryStart) :
    Prog.Post Img.handle (copyBlockM src dest n) t fun _ t' => SameIndex t.vol t'.vol := by
  intro r t' hrun
  replace hrun : Img.handle (.copyBlock src dest n) t = some (r, t') :=
    (Prog.exec_perform _ _ _).symm.trans hrun
  dsimp only [Img.handle] at hrun
  split at hrun
  case isTrue =>
    cases hrun
    exact SameIndex.refl _
  case isFalse =>
    split at hrun
    case isTrue => cases hrun
    split at hrun
    case isTrue =>
      cases hrun
      refine ⟨⟨rfl, rfl, rfl, rfl⟩, rfl, fun k hk => blit_outside (Or.inr ?_)⟩
      rw [← Nat.add_mul]
      exact Nat.le_trans hdest hk
    case isFalse => cases hrun

/-- A file that grows takes the front of an extent, and when it moves its old
blocks are put on the list. -/
theorem post_growFile_coalesced (hw : Blocks t.vol nodes lo hi)
    (hc : Coalesced t.vol nodes lo hi) (hfile : t.vol.IsFile nodes file)
    (hsize : t.vol.blockSize * blocksOf t.vol.blockSize newSize < 18446744073709551616)
    (hmore : blocksOf t.vol.blockSize (t.vol.get file .size) < blocksOf t.vol.blockSize newSize)
    (code : Nat) (entr : Entry) :
    Prog.Post Img.handle (growFile code file (t.vol.get file .startBlock)
      (t.vol.get file .endBlock) newSize entr) t fun _ t' =>
        ∃ nodes', Coalesced t'.vol nodes' lo hi := by
  have hblocks : 0 < blocksOf t.vol.blockSize newSize := Nat.lt_of_le_of_lt (Nat.zero_le _) hmore
  have hbs : Gives blockSize t fun bs t' => bs = t.vol.blockSize ∧ t' = t :=
    ⟨_, _, rfl, rfl, rfl⟩
  unfold growFile
  refine hbs.post.bind ?_
  rintro _ t ⟨rfl, rfl⟩
  refine (gives_expandFile_coalesced hw hc hfile hsize hmore entr).post.bind
    fun ⟨expanded, entr₁⟩ t₁ h₁ => ?_
  dsimp only at h₁ ⊢
  rcases h₁ with ⟨hne, hvol₁⟩ | ⟨hz, hcoal⟩
  · rw [if_neg hne]
    rw [← hvol₁] at hw hc hfile hsize hmore hblocks ⊢
    have hg := hw.geometry
    refine (gives_delFileListAlloc hg hw.space (realSize_eq_of_lt hsize) hblocks).post.bind
      fun ⟨start, entr₂⟩ t₂ h₂ => ?_
    dsimp only at h₂ ⊢
    rcases h₂ with ⟨hz, hvol₂, -, -⟩ | ⟨-, a, ha, hstart, hroom, -, hvol₂⟩
    · rw [if_pos hz]
      exact Prog.post_pure ⟨nodes, hvol₂ ▸ hc⟩
    · have hc₂ : Coalesced t₂.vol (t₁.vol.nodesAfter nodes a (blocksOf t₁.vol.blockSize newSize))
          lo hi := hvol₂ ▸ hc.takeFront ha hblocks hroom
      have hstep := hw.space.takeFront ha hblocks hroom
      rw [← hvol₂, ← hstart] at hstep
      have hg₂ := hstep.step.area.geometry hg
      have hge := hw.space.ge a ha
      have hlast := hw.space.lt a ha
      have hlo := hg.lo_pos
      rw [if_neg (show start ≠ 0 by omega)]
      by_cases hz : t₁.vol.get file .size = 0
      · rw [if_neg (not_not.2 ((hw.start_eq_zero hfile).2 hz))]
        exact Prog.post_pure ⟨_, hc₂⟩
      · obtain ⟨hlo₁, hle₁, hhi₁, hcount⟩ := hw.fileExtent hfile hz
        have hbound := hg.block_lt
        rw [if_pos fun h => hz ((hw.start_eq_zero hfile).1 h)]
        refine (gives_delFileListAdd_added hg₂ hc₂.toFreeSpace (by omega) (by omega) (by omega)
          fun o ho => hc₂.not_both hle₁ ho).post.bind fun ⟨_, entr₃⟩ t₃ h₃ => ?_
        dsimp only at h₃ ⊢
        have hc₃ : SameArea t₁.vol t₃.vol ∧ ∃ nodes', Coalesced t₃.vol nodes' lo hi := by
          rcases h₃ with ⟨-, -, nodes', hadd⟩ | ⟨-, hvol₃, -⟩
          · have hfresh : ∀ b, t₁.vol.get file .startBlock ≤ b → b ≤ t₁.vol.get file .endBlock →
                ¬ t₂.vol.Free _ b := fun b h₁ h₂ hb =>
              hw.apart file hfile b ⟨hz, h₁, h₂⟩ ((hstep.free b).1 hb).1
            exact ⟨hstep.step.area.trans
              (hadd.step hg₂ hc₂.toFreeSpace hlo₁ hle₁ hhi₁ hfresh).step.area,
              nodes', hc₂.added hg₂ hadd hlo₁ hle₁ hhi₁ hfresh⟩
          · rw [hvol₃]
            exact ⟨hstep.step.area, _, hc₂⟩
        obtain ⟨harea, nodes', hcoal⟩ := hc₃
        have hn : u64 (sub64 (t₁.vol.get file .endBlock) (t₁.vol.get file .startBlock) + 1)
            = blocksOf t₁.vol.blockSize (t₁.vol.get file .size) := by
          rw [sub64_of_le hle₁]
          unfold u64
          omega
        have hdest : (start + blocksOf t₁.vol.blockSize (t₁.vol.get file .size))
            * t₃.vol.blockSize ≤ t₃.vol.fs.entryStart := by
          unfold Vol.extent at hroom
          rw [harea.blockSize, harea.entryStart, hg.entryStart]
          exact Nat.mul_le_mul_right _ (by omega)
        rw [hn]
        refine (post_copyBlock hdest).bind fun ret t₄ hsame => ?_
        by_cases hret : ret = 0
        · rw [if_neg (not_not.2 hret)]
          exact Prog.post_pure ⟨nodes', hcoal.sameIndex hsame⟩
        · rw [if_pos hret]
          exact Prog.post_pure ⟨nodes', hcoal.sameIndex hsame⟩
  · rw [if_pos hz]
    exact Prog.post_pure hcoal

theorem gives_extentFor_coalesced (hw : Blocks t.vol nodes lo hi)
    (hc : Coalesced t.vol nodes lo hi) (hfile : t.vol.IsFile nodes file)
    (hsize : t.vol.blockSize * blocksOf t.vol.blockSize newSize < 18446744073709551616)
    (hmore : blocksOf t.vol.blockSize (t.vol.get file .size) ≤ blocksOf t.vol.blockSize newSize)
    (hsafe : t.vol.GrowsSafely nodes file newSize) (code : Nat) (entr : Entry) :
    Gives (extentFor code file (t.vol.get file .size) (t.vol.get file .startBlock)
      (t.vol.get file .endBlock) newSize entr) t fun _ t' =>
        ∃ nodes', Coalesced t'.vol nodes' lo hi := by
  refine Prog.Post.ends ?_ (gives_extentFor hw hfile hsize hmore hsafe code entr)
  have hbs : Gives blockSize t fun bs t' => bs = t.vol.blockSize ∧ t' = t :=
    ⟨_, _, rfl, rfl, rfl⟩
  unfold extentFor
  refine hbs.post.bind ?_
  rintro _ t ⟨rfl, rfl⟩
  have hpos := hw.geometry.sized.pos
  have hold := hw.size_lt hfile
  have hdev := hw.geometry.sized.small
  rw [realSize_eq_of_lt hsize, realSize_eq hpos (by omega)]
  by_cases hlt : blocksOf t.vol.blockSize (t.vol.get file .size) < blocksOf t.vol.blockSize newSize
  · rw [if_pos ((Nat.mul_lt_mul_left hpos).2 hlt)]
    exact post_growFile_coalesced hw hc hfile hsize hlt code entr
  · rw [if_neg fun h => hlt ((Nat.mul_lt_mul_left hpos).1 h)]
    exact Prog.post_pure ⟨nodes, hc⟩

/-- The new extent is stored in the entry of the file, which is no node. -/
theorem gives_setExtent_coalesced {v : Vol} {nodes' : List Nat} {start stop : Nat}
    (hmoved : v.Moved t.vol nodes nodes' lo hi file start stop newSize)
    (hw : Blocks v nodes lo hi) (hc : ∃ nodes', Coalesced t.vol nodes' lo hi) (entr : Entry) :
    Gives (setExtent file start stop newSize entr) t fun _ t' =>
      Coalesced t'.vol nodes' lo hi := by
  obtain ⟨nodes₁, hc⟩ := hc
  obtain rfl := hc.toFreeList.unique hmoved.space.toFreeList
  have hg := hmoved.keeps.area.geometry hw.geometry
  have hslot := hmoved.isFile.1
  refine (gives_setExtent hg.sized hslot.ge hslot.aligned (hg.slot_le hslot) entr).mono
    fun _ t' ⟨time, time', hvol⟩ => ?_
  rw [hvol]
  exact (hc.setExtent hslot.aligned (hmoved.isFile.not_mem hc.toFreeList)).withTime time'

/-- A write keeps the free space coalesced. -/
theorem gives_sfsWrite_coalesced (hw : Blocks t.vol nodes lo hi)
    (hc : Coalesced t.vol nodes lo hi) (hfile : t.vol.IsFile nodes file) {size off : Nat}
    (hlt : off + size < 9223372036854775808)
    (hsafe : t.vol.GrowsSafely nodes file (max (t.vol.get file .size) (off + size)))
    (data : Mem) :
    Gives (sfsWrite file data size off) t fun _ t' => ∃ nodes', Coalesced t'.vol nodes' lo hi := by
  have hg := hw.geometry
  have hslot := hfile.1
  have hsize := hw.written_lt hfile hlt
  have hold := hw.size_lt hfile
  have hdev := hg.sized.small
  have hmore : blocksOf t.vol.blockSize (t.vol.get file .size)
      ≤ blocksOf t.vol.blockSize (max (t.vol.get file .size) (off + size)) :=
    blocksOf_mono hg.sized.pos (Nat.le_max_left _ _)
  have hnew : (if t.vol.get file .size < off + size then off + size else t.vol.get file .size)
      = max (t.vol.get file .size) (off + size) := by
    split <;> omega
  unfold sfsWrite
  rw [gives_uninit, gives_readEntry hg.sized hslot.ge hslot.aligned (hg.slot_le hslot)]
  dsimp only
  rw [if_neg (by decide), gives_blockSize, Vol.get_load, Vol.get_load, Vol.get_load,
    u64_of_lt (by omega), hnew, gives_bind]
  refine ((gives_extentFor (t := { t with clean := false }) hw hfile hsize hmore hsafe eIO _).and
    (gives_extentFor_coalesced (t := { t with clean := false }) hw hc hfile hsize hmore hsafe
      eIO _)).mono fun ⟨grown, entr₁⟩ t₁ ⟨h₁, hcoal⟩ => ?_
  dsimp only at h₁ ⊢
  rcases h₁ with ⟨rfl, -⟩ | ⟨start, stop, nodes', rfl, hmoved⟩
  · dsimp only
    rw [gives_setErrno, gives_pure]
    exact hcoal
  · dsimp only
    rw [gives_bind]
    refine ((gives_setMoved hmoved hw hfile (by omega) entr₁).and
      (gives_setExtent_coalesced hmoved hw hcoal entr₁)).mono
      fun _ t₂ ⟨⟨hres, hstart⟩, hcoal₂⟩ => ?_
    have hg₂ := hres.blocks.geometry
    have hfit : off + size ≤ t₂.vol.get file .size := by
      rw [hres.size]
      exact Nat.le_max_right _ _
    have hrange := hres.blocks.range_le hres.isFile hfit
    have hsame := hres.blocks.stored_sameIndex hres.isFile hfit data
    have hin := hg₂.inside
    have hne := hg₂.nonempty
    have hsmall := hg₂.sized.small
    have hbs : t₂.vol.blockSize = t.vol.blockSize := hres.keeps.area.blockSize
    rw [hstart, hbs] at hrange
    rw [u64_of_lt (by omega), gives_tail, gives_writeRange hg₂.sized (by omega) (by omega),
      gives_pure]
    have hstored : { t₂.vol with
        data := blit t₂.vol.data (start * t.vol.blockSize + off) data 0 size }
        = t₂.vol.stored file off data size := by
      rw [Vol.stored, hstart, ← hbs]
    exact ⟨nodes', hstored ▸ hcoal₂.sameIndex hsame⟩

/-- A file whose blocks all go on the list keeps it coalesced. -/
theorem gives_dropBlocks_coalesced (hw : Blocks t.vol nodes lo hi)
    (hc : Coalesced t.vol nodes lo hi) (hfile : t.vol.IsFile nodes file)
    (hrec : t.vol.get file .size ≠ 0 →
      t.vol.CanRecord nodes (t.vol.get file .startBlock) (t.vol.get file .endBlock))
    (entr : Entry) :
    Gives (delFileListAdd entr (t.vol.get file .startBlock) (t.vol.get file .endBlock)) t
      fun _ t' => ∃ nodes', t.vol.Moved t'.vol nodes nodes' lo hi file 0 0 0 ∧
        Coalesced t'.vol nodes' lo hi := by
  have hg := hw.geometry
  have hlo₀ := hg.lo_pos
  by_cases hempty : t.vol.get file .size = 0
  · rcases hw.fileOk file hfile with ⟨-, hs, he⟩ | ⟨hpos, -⟩
    · rw [hs, he]
      unfold delFileListAdd
      rw [gives_unit, if_pos ⟨rfl, rfl⟩, gives_pure]
      refine ⟨nodes, Vol.Moved.drop hw hfile ⟨hw.space, ListStep.refl hw.space.toFreeList,
        fun b => ?_⟩, hc⟩
      exact (or_iff_left fun h => h.1 hempty).symm
    · omega
  · obtain ⟨hlo, hle, hhi, -⟩ := hw.fileExtent hfile hempty
    have hbound := hg.block_lt
    refine (gives_delFileListAdd_added hg hw.space (by omega) (by omega) (by omega)
      fun o ho => hc.not_both hle ho).mono fun r t' h => ?_
    rcases h with ⟨-, -, nodes', hadd⟩ | ⟨-, -, hnot⟩
    · have hfresh : ∀ b, t.vol.get file .startBlock ≤ b → b ≤ t.vol.get file .endBlock →
          ¬ t.vol.Free nodes b := fun b h₁ h₂ => hw.apart file hfile b ⟨hempty, h₁, h₂⟩
      have hstep := hadd.step hg hw.space hlo hle hhi hfresh
      refine ⟨nodes', Vol.Moved.drop hw hfile (hstep.congr fun b => ?_),
        hc.added hg hadd hlo hle hhi hfresh⟩
      exact or_congr_right (and_iff_right hempty).symm
    · exact absurd (hrec hempty) hnot

/-- A truncation keeps the free space coalesced. -/
theorem gives_sfsTruncate_coalesced (hw : Blocks t.vol nodes lo hi)
    (hc : Coalesced t.vol nodes lo hi) (hfile : t.vol.IsFile nodes file)
    (hsafe : t.vol.TruncatesSafely nodes file newSize) :
    Gives (sfsTruncate file newSize) t fun _ t' => ∃ nodes', Coalesced t'.vol nodes' lo hi := by
  have hg := hw.geometry
  have hbs := hg.sized.pos
  have hslot := hfile.1
  have hold := hw.size_lt hfile
  have hdev := hg.sized.small
  have hfit := hsafe.size
  unfold sfsTruncate
  rw [gives_uninit, gives_readEntry hg.sized hslot.ge hslot.aligned (hg.slot_le hslot)]
  dsimp only
  rw [if_neg (by decide), gives_blockSize, Vol.get_load, Vol.get_load, Vol.get_load]
  by_cases hz : newSize = 0
  · subst hz
    rw [if_pos rfl, gives_bind]
    refine (gives_dropBlocks_coalesced (t := { t with clean := false }) hw hc hfile
      (hsafe.drop rfl) _).mono fun ⟨_, entr₁⟩ t₁ ⟨nodes', hmoved, hcoal⟩ => ?_
    dsimp only
    rw [gives_bind]
    refine (gives_setExtent_coalesced hmoved hw ⟨nodes', hcoal⟩ entr₁).mono fun _ t₂ hcoal₂ => ?_
    rw [gives_pure]
    exact ⟨nodes', hcoal₂⟩
  · have hmore := hsafe.blocks hz
    have hsize : t.vol.blockSize * blocksOf t.vol.blockSize newSize < 18446744073709551616 :=
      Nat.lt_of_lt_of_le (blocksOf_lt hbs newSize) hfit
    rw [if_neg hz, realSize_eq_of_lt hsize, realSize_eq hbs (by omega),
      if_neg (Nat.not_lt.2 (Nat.mul_le_mul_left _ hmore)), gives_bind]
    refine ((gives_extentFor (t := { t with clean := false }) hw hfile hsize hmore hsafe.grow
      eNOSPC _).and (gives_extentFor_coalesced (t := { t with clean := false }) hw hc hfile hsize
        hmore hsafe.grow eNOSPC _)).mono fun ⟨grown, entr₁⟩ t₁ ⟨h₁, hcoal⟩ => ?_
    dsimp only at h₁ ⊢
    rcases h₁ with ⟨rfl, -⟩ | ⟨start, stop, nodes', rfl, hmoved⟩
    · dsimp only
      rw [gives_setErrno, gives_pure]
      exact hcoal
    · dsimp only
      rw [gives_bind]
      refine (gives_setExtent_coalesced hmoved hw hcoal entr₁).mono fun _ t₂ hcoal₂ => ?_
      rw [gives_pure]
      exact ⟨nodes', hcoal₂⟩

end Resize

/-! ## Steps -/

/-- A deletion puts the blocks of the file on the list. -/
theorem gives_sfsDelete_coalesced {t : Img} {nodes : List Nat} {lo hi a : Nat}
    (hw : Blocks t.vol nodes lo hi) (hc : Coalesced t.vol nodes lo hi)
    (hfile : t.vol.IsFile nodes a) :
    Gives (sfsDelete a) t fun _ t' => ∃ nodes', Coalesced t'.vol nodes' lo hi := by
  refine (gives_sfsDelete_freed hw hfile).mono fun _ t' ⟨_, w, nodes', time, hfreed, hvol⟩ => ?_
  rw [hvol]
  exact ⟨nodes', (hfreed.coalesced hw hc hfile).withTime time⟩

/-- The operations that put blocks on the list or take blocks from it. -/
def Op.UsesList : Op → Prop
  | delete _ | write .. | truncate .. => True
  | _ => False

/-- An operation keeps the free space coalesced, when those that change the list
do. -/
theorem Change.coalesced {V V' : View} {lo hi : Nat} {op : Op} (h : Change lo hi V op V')
    (hV : V.Sound lo hi) (hc : Coalesced V.vol V.nodes lo hi)
    (hlist : op.UsesList → ∃ nodes', Coalesced V'.vol nodes' lo hi) :
    Coalesced V'.vol V'.nodes lo hi := by
  have hl := hV.layout
  have hf := hc.toFreeList
  have hf' := (h.sound hV).space.toFreeList
  have hused : op.UsesList → Coalesced V'.vol V'.nodes lo hi := by
    intro hop
    obtain ⟨nodes', hc'⟩ := hlist hop
    obtain rfl := hc'.toFreeList.unique hf'
    exact hc'
  cases h with
  | same => exact hc
  | created hadd | madeDir hadd => exact hadd.coalesced hl hc
  | removed hname _ hrel => exact hrel.coalesced hl (hname.isDir.not_mem hf) hc
  | unlinked hname htype =>
    exact htype.coalesced (hname.liveFile.isFile.not_mem hf) hc
  | renamed hlive _ _ _ hren =>
    have hfile : V.vol.IsFile V.nodes _ := hlive.isFile
    have hnot := hfile.not_mem hf
    have hl' := (hren.released.wellFormed hV.toWellFormed hnot).layout
    exact hren.added.coalesced hl' (hren.released.coalesced hl hnot hc)
  | deleted | written | truncated => exact hused trivial

/-- The list of a fresh volume has one node. -/
theorem Fresh.coalesced {v : Vol} {opts : SfsOptions} {bs : Nat} (h : Fresh v opts bs)
    (hdata : 0 < opts.dataSize) :
    Coalesced v [v.fs.entryStart + 64] opts.reservedSize
      (opts.reservedSize + opts.dataSize) := by
  refine h.freeSpace.coalesced_singleton (Nat.lt_add_of_pos_right hdata) fun i hi => ?_
  have hlen : freeName.length = 6 := rfl
  have hname : fileKind.name = 34 := rfl
  rw [h.freeEntry (fileKind.name + i) (by omega)]
  unfold freeEntryOf strncpy
  dsimp only
  rw [blit_add (by omega), Nat.zero_add]
  have hstr : strlen freeName = 5 := rfl
  by_cases hlt : i < strlen freeName
  · rw [if_pos hlt]
  · obtain rfl : i = 5 := by omega
    rfl

end Sfs
