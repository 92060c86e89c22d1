import Sfs.Remove

/-!
# Renaming files

`sfs_rename` looks for slots for the new name, deletes the file, and writes the
new entry with the size and the extent of the old one.

* `gives_sfsRename_relabeled` is the call for any file: `sfs_delete` puts its
  blocks on the list of free extents, and the new entry has them all the same;
* `gives_sfsRename` is the call for an empty file, whose old group goes and a new
  one comes.
-/

namespace Sfs

open Lib

/-- What renaming an empty file does: its group goes, and a group with the new
name comes in slots that were unused. -/
structure Vol.Renamed (v v' : Vol) (file a : Nat) (s : Buf) (w : Vol) : Prop where
  released : v.Released w file
  added : w.Added v' fileKind a s
  size : v'.get a .size = 0
  start : v'.get a .startBlock = 0
  stop : v'.get a .endBlock = 0

/-- What renaming any file does: it is deleted, and a group with the new name, the
size and the extent is written to slots that were unused before that. -/
structure Vol.Relabeled (v v' : Vol) (nodes : List Nat) (file a : Nat) (s : Buf) (w : Vol)
    (nodes' : List Nat) : Prop where
  freed : v.FileFreed nodes file w nodes'
  placed : w.Placed v' fileKind a s
  unused : v.UnusedRun a (v'.cont a + 1)
  size : v'.get a .size = v.get file .size
  start : v'.get a .startBlock = v.get file .startBlock
  stop : v'.get a .endBlock = v.get file .endBlock

/-- `sfs_rename` to the path goes ahead: the path is correct, its directories are
there, nothing has it yet, and there are slots for it. -/
structure Vol.Renames (v : Vol) (q : Buf) : Prop where
  correct : isCorrectFilepath q = true
  dirs : v.HasDirs (cstr q)
  unused : ∀ o, ¬ v.Live o (cstr q)
  slots : ∃ a, v.UnusedRun a (countEntry fileKind.first (strlen q + 1))

/-- The first `n` unused slots in a row. -/
def Vol.FirstRun (v : Vol) (a n : Nat) : Prop :=
  v.UnusedRun a n ∧ ∀ o, o < a → ¬ v.UnusedRun o n

section Rename

variable {v v' : Vol} {t : Img} {nodes : List Nat} {lo hi file : Nat} {q : Buf}

/-- An empty file that is relabeled is renamed. -/
theorem Vol.Relabeled.renamed {v v' w : Vol} {nodes' : List Nat} {a : Nat} {s : Buf}
    (h : v.Relabeled v' nodes file a s w nodes') (hw : Blocks v nodes lo hi)
    (hfile : v.IsFile nodes file) (hz : v.get file .size = 0) : v.Renamed v' file a s w := by
  have hempty : v.get file .startBlock = 0 ∧ v.get file .endBlock = 0 := by
    rcases hw.fileOk file hfile with ⟨-, h⟩ | ⟨hpos, -⟩
    · exact h
    · omega
  have hrel := h.freed.released_of_empty hz
  refine ⟨hrel, h.placed.added fun j hj => ?_, h.size.trans hz, h.start.trans hempty.1,
    h.stop.trans hempty.2⟩
  -- The slots for the new name are still unused.
  obtain ⟨hslot, hu⟩ := h.unused j hj
  refine ⟨hrel.area.slot.2 hslot, ?_⟩
  by_cases hin : file ≤ a + 64 * j ∧ a + 64 * j < v.groupEnd file
  · exact hrel.type_inside hslot.aligned hin.1 hin.2
  · rw [hrel.type_outside (by omega)]
    exact hu

/-- The end of `sfs_rename`. -/
theorem gives_renameEntry (hw : Blocks t.vol nodes lo hi) (hfile : t.vol.IsFile nodes file)
    (hq : GoodPath q) (hpath : IsPath (cstr q)) {a : Nat}
    (hrun : t.vol.UnusedRun a (countEntry fileKind.first (strlen q + 1))) {e : Entry}
    (hload : ∀ f, e.get f = t.vol.get file f) :
    Gives (renameEntry file a (countEntry fileKind.first (strlen q + 1)) q e) t fun r t' =>
      r = a ∧ ∃ w nodes', t.vol.Relabeled t'.vol nodes file a (cstr q) w nodes' := by
  obtain ⟨hpos, hlt⟩ := countEntry_pos fileKind_fits hq
  have hg := hw.geometry
  have hzero : (0 : Int) ≠ -1 := by decide
  unfold renameEntry
  dsimp only
  rw [gives_bind, hload, hload, hload, hload]
  refine (gives_sfsDelete_freed hw hfile).mono fun ret t₁
    ⟨hret, w, nodes', time, hfreed, hvol⟩ => ?_
  subst hret
  have harea : SameArea t.vol t₁.vol := by
    have h := (hfreed.deleted hw hfile).keeps.area
    rw [hvol]
    exact ⟨h.blockSize, h.size, h.entryStart, h.volIdent⟩
  have hg₁ := harea.geometry hg
  have hslots : ∀ j, j < countEntry fileKind.first (strlen q + 1) → t₁.vol.Slot (a + 64 * j) :=
    fun j hj => harea.slot.2 (hrun j hj).1
  have hslot := hslots 0 hpos
  rw [Nat.mul_zero, Nat.add_zero] at hslot
  rw [if_neg hzero, gives_readEntry hg₁.sized hslot.ge hslot.aligned (hg₁.slot_le hslot)]
  dsimp only
  rw [if_neg (by decide), gives_bind]
  refine (gives_putName fileKind_fits hq _).mono fun e₁ t₂ ⟨ht₂, hkeep, hname⟩ => ?_
  subst ht₂
  have hget : ∀ f, Entry.get e₁ f = _ := fun f => fieldAt_congr fun k hk =>
    hkeep (0 + k) (show 0 + k < 34 by omega)
  have hcont : e₁.get .contEntries = countEntry fileKind.first (strlen q + 1) - 1 := by
    rw [hget, fieldAt_setFieldAt_same]
    exact Nat.mod_eq_of_lt (Nat.lt_of_le_of_lt (Nat.sub_le _ _) hlt)
  rw [gives_bind]
  refine (gives_placeGroup (t := { t₁ with clean := false }) hg₁ fileKind_fits hq hpath hslots
    ?_ hcont hname).mono fun _ t₃ h₃ => ?_
  · rw [hget]
    simp (disch := decide) only [fieldAt_setFieldAt_field, fieldAt_setFieldAt_same]
    rfl
  · rw [gives_bind]
    refine h₃.mono fun _ t₄ ⟨hplaced, hfield, _⟩ => ?_
    rw [gives_update, gives_setErrno, gives_pure]
    have hupd : ∀ f, Vol.get t₄.updated.vol a f = e₁.get f := fun f => hfield f
    have hplaced' : w.Placed t₄.updated.vol fileKind a (cstr q) := by
      have h : t₁.vol.Placed t₄.updated.vol fileKind a (cstr q) := hplaced.withTime _
      rw [hvol] at h
      exact ⟨⟨h.area.blockSize, h.area.size, h.area.entryStart, h.area.volIdent⟩, h.delBegin,
        h.named, h.pieces, h.frame⟩
    refine ⟨rfl, w, nodes', hfreed, hplaced', ?_, ?_, ?_, ?_⟩
    · rw [show t₄.updated.vol.cont a = _ from (hupd _).trans hcont, Nat.sub_add_cancel hpos]
      exact hrun
    all_goals
      rw [hupd, hget]
      simp (disch := decide) only [fieldAt_setFieldAt_field, fieldAt_setFieldAt_same]
      exact Nat.mod_eq_of_lt (t.vol.get_lt file _)

/-- `sfs_rename` gives a live file the path if and only if the path is correct,
its directories are found, nothing has it, and there are slots for it; else it
changes nothing. -/
theorem gives_sfsRename_iff (hw : WellFormed t.vol nodes lo hi)
    (hfile : t.vol.IsFile nodes file) (hq : GoodPath q) :
    Gives (sfsRename file q) t fun r t' => r.2 = q ∧
      ((r.1 = 0 ∧ t'.vol = t.vol ∧ ¬ (t.vol.type file = EntryType.fileEntry.code ∧
        t.vol.Renames q ∧ t.vol.FindsDirs (cstr q))) ∨
        (r.1 ≠ 0 ∧ IsPath (cstr q) ∧ t.vol.Renames q ∧ t.vol.FindsDirs (cstr q) ∧
          t.vol.FirstRun r.1 (countEntry fileKind.first (strlen q + 1)) ∧
          ∃ w nodes', t.vol.Relabeled t'.vol nodes file r.1 (cstr q) w nodes')) := by
  obtain ⟨hpos, -⟩ := countEntry_pos fileKind_fits hq
  unfold sfsRename
  rw [gives_uninit]
  by_cases hcorrect : isCorrectFilepath q = false
  · rw [if_pos hcorrect, gives_setErrno, gives_pure]
    refine ⟨rfl, Or.inl ⟨rfl, rfl, fun ⟨_, h, _⟩ => ?_⟩⟩
    exact Bool.noConfusion (hcorrect.symm.trans h.correct)
  have hgood : isCorrectFilepath q = true := Bool.not_eq_false _ ▸ hcorrect
  have hpath := hq.isPath_of_filepath hgood
  rw [if_neg hcorrect]
  refine gives_probe 0 (fun p entr => do
    let n := countEntry firstFileNameSize (strlen p + 1)
    let x ← allocEntry entr.zero n
    if x.1 = 0 then
      setErrno eNOSPC
      pure (0, p)
    else
      let y ← readEntry file x.2
      if y.1 = minusOne then
        setErrno eIO
        pure (0, p)
      else if y.2.get .entryType ≠ EntryType.fileEntry.code then
        setErrno eINVAL
        pure (0, p)
      else
        let ret ← renameEntry file x.1 n p y.2
        pure (ret, p)) hw.indexed
    (fun hnot t' hvol => ⟨rfl, Or.inl ⟨rfl, hvol, fun ⟨_, h, hdirs⟩ => hnot ⟨hdirs, h.unused⟩⟩⟩)
    (fun hdirs hnone entr t₁ hvol => ?_) _
  dsimp only
  rw [← hvol] at hw hfile hdirs hnone ⊢
  have hg := hw.geometry
  rw [gives_bind]
  refine (gives_allocEntry hg.area hg.start_pos hpos (countEntry_le _ _) _).mono
    fun ⟨a, entr₁⟩ t₂ ⟨hvol₂, h₂⟩ => ?_
  dsimp only at h₂ ⊢
  rcases h₂ with ⟨ha, hfull⟩ | ⟨ha, hrun, hfirst⟩
  · rw [if_pos ha, gives_setErrno, gives_pure]
    refine ⟨rfl, Or.inl ⟨rfl, hvol₂, fun ⟨_, h, _⟩ => ?_⟩⟩
    obtain ⟨o, hrun⟩ := h.slots
    exact hfull o hrun
  · rw [← hvol₂] at hw hg hfile hdirs hnone hrun hfirst ⊢
    have hslot := hfile.1
    have hren : t₂.vol.Renames q := ⟨hgood, hdirs.hasDirs, hnone, a, hrun⟩
    rw [if_neg ha, gives_readEntry hg.sized hslot.ge hslot.aligned (hg.slot_le hslot)]
    dsimp only
    rw [if_neg (by decide), Vol.get_load]
    by_cases htype : t₂.vol.type file = EntryType.fileEntry.code
    · rw [if_neg (not_not.2 htype), gives_bind]
      refine (gives_renameEntry (t := { t₂ with clean := false }) hw.toBlocks hfile hq hpath hrun
        (Vol.get_load _ _ _)).mono fun ret t₃ ⟨hret, h₃⟩ => ?_
      subst hret
      rw [gives_pure]
      exact ⟨rfl, Or.inr ⟨ha, hpath, hren, hdirs, ⟨hrun, hfirst⟩, h₃⟩⟩
    · rw [if_pos htype, gives_setErrno, gives_pure]
      exact ⟨rfl, Or.inl ⟨rfl, rfl, fun h => htype h.1⟩⟩

/-- `sfs_rename` gives a file a path that named nothing and whose directories are
all there, or changes nothing. -/
theorem gives_sfsRename_relabeled (hw : WellFormed t.vol nodes lo hi)
    (hfile : t.vol.IsFile nodes file) (hq : GoodPath q) :
    Gives (sfsRename file q) t fun r t' => r.2 = q ∧
      ((r.1 = 0 ∧ t'.vol = t.vol) ∨ (r.1 ≠ 0 ∧ IsPath (cstr q) ∧ t.vol.Renames q ∧
        ∃ w nodes', t.vol.Relabeled t'.vol nodes file r.1 (cstr q) w nodes')) :=
  (gives_sfsRename_iff hw hfile hq).mono fun _ _ ⟨hpath, h⟩ =>
    ⟨hpath, h.imp (fun h => ⟨h.1, h.2.1⟩) fun h =>
      ⟨h.1, h.2.1, h.2.2.1, h.2.2.2.2.2⟩⟩

/-- `sfs_rename` of an empty file gives it a path that named nothing and whose
directories are all there, or changes nothing. -/
theorem gives_sfsRename (hw : WellFormed t.vol nodes lo hi) (hfile : t.vol.IsFile nodes file)
    (hq : GoodPath q) (hz : t.vol.Renames q → t.vol.get file .size = 0) :
    Gives (sfsRename file q) t fun r t' => r.2 = q ∧
      ((r.1 = 0 ∧ t'.vol = t.vol) ∨
        (r.1 ≠ 0 ∧ IsPath (cstr q) ∧ t.vol.Renames q ∧ t.vol.get file .size = 0 ∧
          ∃ w, t.vol.Renamed t'.vol file r.1 (cstr q) w)) := by
  refine (gives_sfsRename_relabeled hw hfile hq).mono fun r t' ⟨hpath, h⟩ => ⟨hpath, ?_⟩
  refine h.imp_right fun ⟨ha, hgood, hren, w, nodes', hrel⟩ => ?_
  exact ⟨ha, hgood, hren, hz hren, w, hrel.renamed hw.toBlocks hfile (hz hren)⟩

end Rename

end Sfs
