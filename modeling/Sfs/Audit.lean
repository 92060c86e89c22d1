import Mathlib.Algebra.BigOperators.Group.Finset.Basic
import Mathlib.Order.Interval.Finset.Nat
import Sfs.Owners

/-!
# The space audit

`fuse_sfs_init` mounts a volume without a warning when the bytes on the list of
free extents and the bytes of the live files make up the data area.  It counts
the blocks of a file by its extent, and the extent 0 to 0 of an empty file
counts as one block.

* `gives_scanUsedSpace` says what the scan of the files sums up;
* `Covered.sum_extents` says that the extents of the nodes and of the files that
  are not empty make up the data area;
* `audit_run` says that the audit balances exactly when the blocks counted for
  the empty files come to nothing in the arithmetic of `size_t`.
-/

namespace Sfs

open Lib

/-! ## The live files -/

/-- The heads of live files before an offset. -/
def Vol.filesBefore (v : Vol) (off : Nat) : Finset Nat :=
  (Finset.Ico v.fs.entryStart off).filter fun o =>
    o % 64 = 0 ∧ v.type o = EntryType.fileEntry.code

/-- The heads of live files. -/
def Vol.files (v : Vol) : Finset Nat := v.filesBefore v.fs.volIdent

/-- The number of live files that are empty. -/
def Vol.emptyFiles (v : Vol) : Nat := (v.files.filter fun o => v.get o .size = 0).card

section Files

variable {v : Vol} {off o : Nat}

theorem Vol.mem_filesBefore : o ∈ v.filesBefore off ↔
    (v.fs.entryStart ≤ o ∧ o < off) ∧ o % 64 = 0 ∧ v.type o = EntryType.fileEntry.code := by
  rw [filesBefore, Finset.mem_filter, Finset.mem_Ico]

theorem Vol.mem_files : o ∈ v.files ↔ v.LiveFile o := by
  rw [files, mem_filesBefore]
  exact ⟨fun h => ⟨⟨h.1.1, h.1.2, h.2.1⟩, h.2.2⟩, fun h => ⟨⟨h.1.ge, h.1.lt⟩, h.1.aligned, h.2⟩⟩

/-- One more slot that is no file. -/
theorem Vol.filesBefore_skip (hoff : off % 64 = 0)
    (ht : v.type off ≠ EntryType.fileEntry.code) :
    v.filesBefore (off + 64) = v.filesBefore off := by
  ext o
  rw [mem_filesBefore, mem_filesBefore]
  constructor
  · intro ⟨⟨hge, hlt⟩, hal, hto⟩
    have hne : o ≠ off := fun heq => ht (heq ▸ hto)
    exact ⟨⟨hge, by omega⟩, hal, hto⟩
  · exact fun ⟨⟨hge, hlt⟩, hrest⟩ => ⟨⟨hge, by omega⟩, hrest⟩

/-- One more slot that is a file. -/
theorem Vol.filesBefore_insert (hoff : v.LiveFile off) :
    v.filesBefore (off + 64) = insert off (v.filesBefore off) := by
  have hal := hoff.1.aligned
  ext o
  rw [Finset.mem_insert, mem_filesBefore, mem_filesBefore]
  constructor
  · intro ⟨⟨hge, hlt⟩, hal', hto⟩
    by_cases heq : o = off
    · exact Or.inl heq
    · exact Or.inr ⟨⟨hge, by omega⟩, hal', hto⟩
  · rintro (rfl | ⟨⟨hge, hlt⟩, hrest⟩)
    · exact ⟨⟨hoff.1.ge, by omega⟩, hal, hoff.2⟩
    · exact ⟨⟨hge, by omega⟩, hrest⟩

theorem Vol.not_mem_filesBefore : off ∉ v.filesBefore off := fun h =>
  Nat.lt_irrefl off (mem_filesBefore.1 h).1.2

end Files

section Scan

variable {t : Img} {nodes : List Nat} {lo hi : Nat}

/-- The size of a file as `get_size` has it. An empty file counts as a block. -/
theorem Blocks.extentSize_eq {v : Vol} (hb : Blocks v nodes lo hi) {file : Nat}
    (hfile : v.IsFile nodes file) {entr : Entry} (hload : ∀ f, entr.get f = v.get file f) :
    extentSize v.blockSize entr = v.blockSize * v.extent file := by
  have hlo := hb.geometry.lo_pos
  have hle := hb.geometry.lo_le
  refine Sfs.extentSize_eq hb.geometry hload ?_ ?_
  · rcases hb.fileOk file hfile with ⟨-, hs, -⟩ | ⟨-, -, -, hblocks⟩ <;> omega
  · rcases hb.fileOk file hfile with ⟨-, -, he⟩ | ⟨-, -, he, -⟩ <;> omega

/-- `scan_used_space` sums up the extents of the live files. -/
theorem gives_scanUsedSpace (hb : Blocks t.vol nodes lo hi) (entr : Entry) :
    Gives (scanUsedSpace entr) t fun r t' => t'.vol = t.vol ∧
      r.1 = u64 (t.vol.blockSize * ∑ o ∈ t.vol.files, t.vol.extent o) := by
  have hcall : CallbackSpec t.vol countSpace
      (fun off size =>
        size = u64 (t.vol.blockSize * ∑ o ∈ t.vol.filesBefore off, t.vol.extent o))
      fun _ _ _ => False := by
    intro off hoff entr size hsize t' hvol
    unfold countSpace
    rw [Vol.get_load]
    by_cases htype : t.vol.type off = EntryType.fileEntry.code
    · have hlive : t.vol.LiveFile off := ⟨hoff, htype⟩
      have hfile : t.vol.IsFile nodes off := hlive.isFile
      have hcount := hb.extentSize_eq hfile (Vol.get_load t.vol off entr)
      rw [if_neg (not_not.2 htype), gives_blockSize, gives_pure, hvol, hcount]
      refine ⟨rfl, Or.inr ⟨rfl, ?_⟩⟩
      dsimp only
      rw [hsize, Vol.filesBefore_insert hlive, Finset.sum_insert Vol.not_mem_filesBefore]
      unfold u64
      rw [Nat.mod_add_mod, Nat.mul_add, Nat.add_comm]
    · rw [if_pos htype, gives_pure]
      refine ⟨hvol, Or.inr ⟨rfl, ?_⟩⟩
      dsimp only
      rw [hsize, Vol.filesBefore_skip hoff.aligned htype]
  unfold scanUsedSpace
  rw [gives_bind]
  refine (gives_entryParse hb.geometry.area hcall entr 0 ?_).mono fun ⟨_, entr', size⟩ t' h => ?_
  · rw [Vol.filesBefore, Finset.Ico_self, Finset.filter_empty, Finset.sum_empty, Nat.mul_zero]
  · obtain ⟨hvol, ⟨-, hsize⟩ | ⟨-, hfalse⟩⟩ := h
    · rw [gives_pure]
      exact ⟨hvol, hsize⟩
    · exact hfalse.elim

end Scan

/-! ## The sum of the extents -/

/-- The blocks of an extent, as a set. -/
def Vol.extentSet (v : Vol) (off : Nat) : Finset Nat :=
  Finset.Icc (v.get off .startBlock) (v.get off .endBlock)

theorem Vol.card_extentSet (v : Vol) (off : Nat) : (v.extentSet off).card = v.extent off := by
  rw [extentSet, Nat.card_Icc, extent]

theorem Vol.mem_extentSet {v : Vol} {off b : Nat} : b ∈ v.extentSet off ↔ v.Owns off b := by
  rw [extentSet, Finset.mem_Icc, Owns]

section Sum

variable {V : View} {lo hi : Nat}

/-- The files that own their blocks: those with a name, and the unlinked ones. -/
def View.heldFiles (V : View) : Finset Nat := V.vol.files ∪ V.pending.toFinset

/-- The nodes and the files that are not empty share the data area out. -/
theorem View.Covered.sum_held (h : V.Covered lo hi) (hV : V.Sound lo hi) :
    V.vol.freeBlocks V.nodes +
        ∑ o ∈ V.heldFiles.filter (fun o => V.vol.get o .size ≠ 0), V.vol.extent o
      = hi - lo := by
  have hw := hV.toWellFormed
  have hf := hw.space
  have hheld : ∀ o, V.vol.IsFile V.nodes o → o ∈ V.heldFiles := by
    intro o ho
    rcases ho.2 with ht | ht
    · exact Finset.mem_union_left _ (Vol.mem_files.2 ⟨ho.1, ht⟩)
    · exact Finset.mem_union_right _ (List.mem_toFinset.2 (h.awaited o ⟨ho.1, ht⟩))
  have hfull : ∀ o, o ∈ V.heldFiles.filter (fun o => V.vol.get o .size ≠ 0) →
      V.vol.IsFile V.nodes o ∧ V.vol.get o .size ≠ 0 := by
    intro o ho
    obtain ⟨hmem, hsize⟩ := Finset.mem_filter.1 ho
    rcases Finset.mem_union.1 hmem with hmem | hmem
    · exact ⟨(Vol.mem_files.1 hmem).isFile, hsize⟩
    · exact ⟨(hV.unlinked o (List.mem_toFinset.1 hmem)).isFile, hsize⟩
  have hapart : Disjoint V.nodes.toFinset
      (V.heldFiles.filter fun o => V.vol.get o .size ≠ 0) := by
    rw [Finset.disjoint_left]
    intro o ho ho'
    exact (hfull o ho').1.not_mem hf.toFreeList (List.mem_toFinset.1 ho)
  -- No block is in the extents of two nodes or files.
  have hdisj : ((V.nodes.toFinset ∪ V.heldFiles.filter fun o => V.vol.get o .size ≠ 0 :
      Finset Nat) : Set Nat).PairwiseDisjoint V.vol.extentSet := by
    intro o ho o' ho' hne
    rw [Finset.mem_coe, Finset.mem_union, List.mem_toFinset] at ho ho'
    refine Finset.disjoint_left.2 fun b hb hb' => hne ?_
    rw [Vol.mem_extentSet] at hb hb'
    rcases ho with ho | ho <;> rcases ho' with ho' | ho'
    · exact hf.disjoint o ho o' ho' b hb hb'
    · obtain ⟨hfile, hsize⟩ := hfull o' ho'
      exact absurd ⟨o, ho, hb⟩ (hw.apart o' hfile b ⟨hsize, hb'⟩)
    · obtain ⟨hfile, hsize⟩ := hfull o ho
      exact absurd ⟨o', ho', hb'⟩ (hw.apart o hfile b ⟨hsize, hb⟩)
    · obtain ⟨hfile, hsize⟩ := hfull o ho
      obtain ⟨hfile', hsize'⟩ := hfull o' ho'
      exact hw.alone o o' hfile hfile' b ⟨hsize, hb⟩ ⟨hsize', hb'⟩
  have hunion : (V.nodes.toFinset ∪ V.heldFiles.filter fun o => V.vol.get o .size ≠ 0).biUnion
      V.vol.extentSet = Finset.Ico lo hi := by
    ext b
    rw [Finset.mem_biUnion, Finset.mem_Ico]
    constructor
    · intro ⟨o, ho, hb⟩
      rw [Vol.mem_extentSet] at hb
      rcases Finset.mem_union.1 ho with ho | ho
      · exact hf.free_range ⟨o, List.mem_toFinset.1 ho, hb⟩
      · obtain ⟨hfile, hsize⟩ := hfull o ho
        exact hw.fileOwns_range hfile ⟨hsize, hb⟩
    · intro ⟨hlo, hhi⟩
      rcases h.owned b hlo hhi with ⟨o, ho, hb⟩ | ⟨o, ho, hsize, hb⟩
      · exact ⟨o, Finset.mem_union_left _ (List.mem_toFinset.2 ho), Vol.mem_extentSet.2 hb⟩
      · exact ⟨o, Finset.mem_union_right _ (Finset.mem_filter.2
          ⟨hheld o ho, hsize⟩), Vol.mem_extentSet.2 hb⟩
  have hcard := congrArg Finset.card hunion
  rw [Finset.card_biUnion hdisj, Nat.card_Ico, Finset.sum_union hapart] at hcard
  simp only [Vol.card_extentSet] at hcard
  rw [← hcard, Vol.freeBlocks, ← List.sum_toFinset _ hf.nodup]

/-- With no file waiting for `sfs_delete`, the nodes and the files that are not
empty share the data area out. -/
theorem View.Covered.sum_extents (h : V.Covered lo hi) (hV : V.Sound lo hi)
    (hpend : V.pending = []) :
    V.vol.freeBlocks V.nodes +
        ∑ o ∈ V.vol.files.filter (fun o => V.vol.get o .size ≠ 0), V.vol.extent o
      = hi - lo := by
  have hsum := h.sum_held hV
  rwa [View.heldFiles, hpend, List.toFinset_nil, Finset.union_empty] at hsum

/-- An empty file counts as one block. -/
theorem View.Sound.sum_files (hV : V.Sound lo hi) :
    ∑ o ∈ V.vol.files, V.vol.extent o
      = (∑ o ∈ V.vol.files.filter (fun o => V.vol.get o .size ≠ 0), V.vol.extent o)
        + V.vol.emptyFiles := by
  rw [← Finset.sum_filter_add_sum_filter_not V.vol.files (fun o => V.vol.get o .size ≠ 0)]
  congr 1
  rw [Vol.emptyFiles, Finset.card_eq_sum_ones]
  refine Finset.sum_congr ?_ fun o ho => ?_
  · exact Finset.filter_congr fun o _ => not_not
  · obtain ⟨hmem, hz⟩ := Finset.mem_filter.1 ho
    have hfile : V.vol.IsFile V.nodes o := (Vol.mem_files.1 hmem).isFile
    rcases hV.fileOk o hfile with ⟨-, hs, he⟩ | ⟨hpos, -⟩
    · rw [Vol.extent, hs, he]
    · exact absurd hz (Nat.ne_of_gt hpos)

end Sum

/-! ## Runs -/

/-- The operations of the audited runs, with a slot to spare for a write. -/
def Op.Audited (v : Vol) : Op → Prop
  | .creat _ | .mkdir _ | .rmdir _ | .unlink _ | .delete _ => True
  | .write .. => ∃ o, v.UnusedRun o 1
  | _ => False

theorem Op.Audited.safe {op : Op} {v : Vol} (h : op.Audited v) : op.Safe v := by
  cases op with
  | write file data size off =>
    obtain ⟨o, ho⟩ := h
    exact fun _ _ _ _ _ _ => Vol.canMove_of_unused ho
  | rename | truncate => exact h.elim
  | _ => exact trivial

/-- The audit balances when what it counts too much is nothing, in the
arithmetic of `size_t`. -/
theorem u64_add_eq_iff {bs data extra : Nat} :
    u64 (bs * (data + extra)) = u64 (data * bs) ↔ 18446744073709551616 ∣ bs * extra := by
  rw [u64, u64, Nat.mul_add, Nat.mul_comm data bs]
  exact ⟨fun h => by omega, fun h => by omega⟩

end Sfs
