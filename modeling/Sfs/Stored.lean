import Sfs.Tree

/-!
# What a write stores

`Vol.Written` is all that `sfs_write` does to a well-formed volume: the bytes
are in the file, which has grown if it had to, and nothing else is different.

* `Vol.Keeps.fileBytes` says that the bytes of the other files stay when nothing
  is written outside the blocks of one;
* `sfsWrite_stores` says that a write that returns its size does this, and that
  one that does not changes nothing.
-/

namespace Sfs

open Lib

/-- A byte of a file, by its position in the file. -/
def Vol.fileByte (v : Vol) (file i : Nat) : UInt8 :=
  v.data (v.get file .startBlock * v.blockSize + i)

/-- What a write of `size` bytes at `off` does. -/
structure Vol.Written (v v' : Vol) (nodes nodes' : List Nat) (lo hi file : Nat) (data : Mem)
    (size off : Nat) : Prop where
  newSize : v'.get file .size = max (v.get file .size) (off + size)
  stored : ∀ i, i < size → v'.fileByte file (off + i) = data i
  /-- The bytes of before that the write leaves, also when the file has moved. -/
  kept : ∀ i, i < v.get file .size → i < off ∨ off + size ≤ i →
    v'.fileByte file i = v.fileByte file i
  free : ∀ b, v'.Free nodes' b ↔ (v.Free nodes b ∨ v.FileOwns file b) ∧ ¬ v'.FileOwns file b
  wellFormed : WellFormed v' nodes' lo hi
  area : SameArea v v'
  live : v'.LiveFile file
  name : ∀ s, HasName v fileKind file s → HasName v' fileKind file s
  /-- The other files keep their entries, names and bytes. -/
  files : ∀ o, o ≠ file → (v'.IsFile nodes' o ↔ v.IsFile nodes o)
  fileGroup : ∀ o, o ≠ file → v.IsFile nodes o → v.SameGroup v' o
  fileBytes : ∀ o, o ≠ file → v.IsFile nodes o → ∀ i, i < v.get o .size →
    v'.fileByte o i = v.fileByte o i
  dirs : ∀ o, v'.IsDir o ↔ v.IsDir o
  dirGroup : ∀ o, v.IsDir o → v.SameGroup v' o
  /-- No byte before the index is written outside the blocks the file has now. -/
  blocks : ∀ k, k < v.fs.entryStart → ¬ v'.FileOwns file (k / v.blockSize) →
    v'.data k = v.data k
  /-- Nothing is written from the volume identifier on. -/
  rest : ∀ k, v.fs.volIdent ≤ k → v'.data k = v.data k

section Written

variable {v w : Vol} {nodes nodes' : List Nat} {lo hi file off size : Nat} {data : Mem}

/-- The bytes that are stored are in blocks of the file. -/
theorem Blocks.stored_other (hb : Blocks v nodes lo hi) (hfile : v.IsFile nodes file)
    (hfit : off + size ≤ v.get file .size) {k : Nat} (hk : ¬ v.FileOwns file (k / v.blockSize)) :
    (v.stored file off data size).data k = v.data k := by
  refine blit_outside ?_
  by_contra hin
  have hown := (hb.fileByte hfile (i := k - v.get file .startBlock * v.blockSize) (by omega)).1
  rw [Nat.add_sub_cancel' (by omega)] at hown
  exact hk hown

/-- The bytes of the other files stay when those outside the blocks of the file
do. -/
theorem Vol.Keeps.fileBytes {v' : Vol} (h : v.Keeps v' nodes nodes' file)
    (hb : Blocks v nodes lo hi) (hb' : Blocks v' nodes' lo hi) (hfile : v'.IsFile nodes' file)
    (hframe : ∀ k, k < v.fs.entryStart → ¬ v'.FileOwns file (k / v.blockSize) →
      v'.data k = v.data k)
    {o i : Nat} (hne : o ≠ file) (ho : v.IsFile nodes o) (hi : i < v.get o .size) :
    v'.fileByte o i = v.fileByte o i := by
  have hstart := (h.sameFile o hne ho).get_eq .startBlock
  obtain ⟨hown, hk⟩ := hb.fileByte ho hi
  rw [Vol.fileByte, hstart, h.area.blockSize, Vol.fileByte]
  refine hframe _ hk fun hown' => hne ?_
  exact hb'.alone o file ((h.file o hne).2 ho) hfile _ ((h.fileOwns_iff hne ho).2 hown) hown'

/-- Resizing and storing is what a write does. -/
theorem Vol.Resized.written
    (h : v.Resized w nodes nodes' lo hi file (max (v.get file .size) (off + size)))
    (hw : WellFormed v nodes lo hi) (hlive : v.LiveFile file) (data : Mem) :
    v.Written (w.stored file off data size) nodes nodes' lo hi file data size off := by
  have hfile : v.IsFile nodes file := hlive.isFile
  have hfit : off + size ≤ w.get file .size := by
    rw [h.size]
    exact Nat.le_max_right _ _
  have hsame := h.blocks.stored_sameIndex h.isFile hfit data
  have hslot := h.isFile.1
  have hget : ∀ f, (w.stored file off data size).get file f = w.get file f := hsame.get_eq hslot
  have howns : ∀ b, (w.stored file off data size).FileOwns file b ↔ w.FileOwns file b := fun b =>
    (hsame.sameGroup hslot).fileOwns_iff
  have hbs : w.blockSize = v.blockSize := h.keeps.area.blockSize
  have hblocks : ∀ k, k < v.fs.entryStart → ¬ w.FileOwns file (k / v.blockSize) →
      (w.stored file off data size).data k = v.data k := by
    intro k hk hown
    rw [h.blocks.stored_other h.isFile hfit (by rw [hbs]; exact hown)]
    exact h.frame k hk hown
  have hbyte : ∀ i, (w.stored file off data size).fileByte file i
      = blit w.data (w.get file .startBlock * w.blockSize + off) data 0 size
        (w.get file .startBlock * w.blockSize + i) := by
    intro i
    rw [Vol.fileByte, hget]
    rfl
  have hkeep := h.keeps.trans (hsame.keeps file)
  have hnot : ∀ o, v.IsDir o → o ≠ file := fun o ho heq => absurd hfile (heq ▸ ho).not_isFile
  have hnot' : ∀ o, (w.stored file off data size).IsDir o → o ≠ file := fun o ho heq =>
    absurd (hsame.isFile_iff.2 h.isFile) (heq ▸ ho).not_isFile
  refine ⟨(hget _).trans h.size, ?_, ?_, ?_, hsame.wellFormed (h.wellFormed hw hfile),
    h.keeps.area.trans hsame.area, ⟨hsame.area.slot.2 hslot, ?_⟩, ?_, hkeep.file, hkeep.sameFile,
    ?_, ?_, fun o ho => hkeep.sameDir o (hnot o ho) ho, ?_, ?_⟩
  · intro i hi
    rw [hbyte, ← Nat.add_assoc, blit_add hi, Nat.zero_add]
  · intro i hi hout
    rw [hbyte, blit_outside (by omega), Vol.fileByte, hbs]
    exact h.content i hi (Nat.lt_of_lt_of_le hi (Nat.le_max_left _ _))
  · intro b
    rw [hsame.free_iff h.blocks.space.toFreeList, howns]
    exact h.free b
  · exact (hget _).trans (h.type.trans hlive.2)
  · exact fun s hs => (hsame.sameGroup hslot).hasName (h.name s hs)
  · intro o hne ho i hi
    exact hkeep.fileBytes hw.toBlocks (hsame.blocks h.blocks) (hsame.isFile_iff.2 h.isFile)
      (fun k hk hown => hblocks k hk fun h' => hown ((howns _).2 h')) hne ho hi
  · intro o
    exact ⟨fun ho => (hkeep.dir o (hnot' o ho)).1 ho, fun ho => (hkeep.dir o (hnot o ho)).2 ho⟩
  · intro k hk hown
    exact hblocks k hk fun h' => hown ((howns _).2 h')
  · intro k hk
    rw [hsame.data k, h.rest k hk]
    rw [h.keeps.area.entryStart]
    exact Nat.le_trans (Nat.le_of_lt hw.geometry.nonempty) hk

end Written

/-- On a device that works, with a slot to spare, `sfs_write` either returns the
size and stores the bytes and nothing else, or it fails and changes nothing. -/
theorem sfsWrite_stores {s : Sys} {nodes : List Nat} {lo hi : Nat} (hq : s.dev.Quiet)
    (hc : s.dev.Coherent) (hw : WellFormed s.vol nodes lo hi) (hslot : ∃ o, s.vol.UnusedRun o 1)
    {file size off : Nat} (hlive : s.vol.LiveFile file)
    (hlt : off + size < 9223372036854775808) (data : Mem) :
    ∃ ret s', s.exec (sfsWrite file data size off) = some (ret, s') ∧
      (ret = size → ∃ nodes', s.vol.Written s'.vol nodes nodes' lo hi file data size off) ∧
      (ret ≠ size → ret = minusOne ∧ s'.vol = s.vol) := by
  obtain ⟨o, ho⟩ := hslot
  have hat : Session.At ⟨s, []⟩ ⟨s.vol, nodes, []⟩ := ⟨hq, hc, rfl, rfl⟩
  obtain ⟨ret, s', hrun, -, -, h⟩ := hat.exec (p := sfsWrite file data size off)
    (Q := fun r v' => (r = minusOne ∧ v' = s.vol) ∨
      (r = size ∧ ∃ w nodes', s.vol.Resized w nodes nodes' lo hi file
        (max (s.vol.get file .size) (off + size)) ∧ v' = w.stored file off data size))
    hw.geometry.sized fun t ht => by
      dsimp only at ht
      have hb := hw.toBlocks
      rw [← ht] at hb hlive ho ⊢
      exact gives_sfsWrite hb hlive.isFile (by omega) (hb.written_lt hlive.isFile hlt)
        (fun _ _ _ _ => Vol.canMove_of_unused ho) data
  refine ⟨ret, s', hrun, ?_, ?_⟩
  · intro hret
    rcases h with ⟨hfail, -⟩ | ⟨-, w, nodes', hres, hvol⟩
    · exact absurd (hret.symm.trans hfail) (by unfold minusOne; omega)
    · rw [hvol]
      exact ⟨nodes', hres.written hw hlive data⟩
  · intro hret
    rcases h with hfail | ⟨hsize, -⟩
    · exact hfail
    · exact absurd hsize hret

theorem sfsWrite_stores_newFile :
    ∃ s s' : Session, run Op.step s [.creat pathA] = some s' ∧ ∃ nodes ret s'',
      s'.sys.exec (sfsWrite 3776 (fun _ => 7) 600 0) = some (ret, s'') ∧
      (ret = 600 → ∃ nodes', s'.sys.vol.Written s''.vol nodes nodes' 1 7 3776 (fun _ => 7) 600 0) ∧
      (ret ≠ 600 → ret = minusOne ∧ s''.vol = s'.sys.vol) := by
  have hview : (blankRun [.creat pathA]).map (fun s' =>
      [s'.sys.fs.entryStart, s'.sys.fs.volIdent, s'.sys.vol.type 3776, s'.sys.vol.type 3840])
      = some [3584, 4032, 0x12, 0x10] := by decide +kernel
  obtain ⟨s, s', hfresh, -, hrun, hview⟩ := blankRun_eq hview
  simp only [List.cons.injEq, and_true] at hview
  obtain ⟨hstart, hident, htype, hunused⟩ := hview
  have hops : MeetsOps (fun v p op => op.Accepts v p ∧ op.Safe v) ⟨s, []⟩ [.creat pathA] :=
    ⟨⟨pathA_good, trivial⟩, fun _ _ => trivial⟩
  obtain ⟨V, hat, hV⟩ := Session.Sound.run ⟨_, hfresh.start.1, hfresh.start.2⟩ hops hrun
  have hslot : ∀ off, 3584 ≤ off → off < 4032 → off % 64 = 0 → s'.sys.vol.Slot off :=
    fun off h₁ h₂ h₃ => ⟨hstart.trans_le h₁, Nat.lt_of_lt_of_eq h₂ hident.symm, h₃⟩
  have hw : WellFormed s'.sys.vol V.nodes 1 7 := by
    rw [hat.vol]
    exact hV.toWellFormed
  have hfree : s'.sys.vol.UnusedRun 3840 1 := by
    intro j hj
    obtain rfl : j = 0 := Nat.lt_one_iff.1 hj
    exact ⟨hslot 3840 (by decide) (by decide) (by decide), hunused⟩
  obtain ⟨ret, s'', hexec, hret⟩ := sfsWrite_stores hat.quiet hat.coherent hw ⟨3840, hfree⟩
    ⟨hslot 3776 (by decide) (by decide) (by decide), htype⟩ (show 0 + 600 < _ by decide)
    fun _ => 7
  exact ⟨⟨s, []⟩, s', hrun, V.nodes, ret, s'', hexec, hret⟩

end Sfs
