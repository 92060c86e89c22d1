import Sfs.Renaming
import Sfs.Lib.FileTree

/-!
# The file tree of a volume

A sound session stands for a file tree: the live names of the index, the bytes of
the extents of the files, and the offsets that `sfs_unlink` returned.  Handles are
offsets of entries.

* `View.tree` is the tree, and `View.Sound.wellNamed` says that its names are in
  order;
* `Vol.Keeps.tree` is the frame of every operation: what does not change on the
  volume does not change in the tree;
* a lemma for each operation says which call of a file system the change of the
  volume is, as `View.Sound.creat_step` does for `sfs_creat`.
-/

namespace Sfs

open Lib FileTree

/-- The directory is on the path: it ends before one of its slashes. -/
def Above (d p : Buf) : Prop := ∃ i, ∃ hi : i < p.length, p[i] = 0x2F ∧ d = p.take i

/-- Paths, offsets of entries, and bytes. -/
abbrev Tree := FileTree Buf Nat UInt8

def nameKind : FileTree.Kind → NameKind
  | .file => fileKind
  | .dir => dirKind

theorem nameKind_fits (k : FileTree.Kind) : (nameKind k).Fits := by
  cases k
  · exact fileKind_fits
  · exact dirKind_fits

theorem nameKind_code_inj {k k' : FileTree.Kind}
    (h : (nameKind k).type.code = (nameKind k').type.code) : k = k' := by
  cases k <;> cases k' <;> first | rfl | exact absurd h (by decide)

open Classical in
/-- The tree that a session stands for. -/
noncomputable def View.tree (V : View) : Tree where
  named k p h := Named V.vol (nameKind k) h p
  content h := if V.vol.IsFile V.nodes h then some (V.vol.content h) else none
  unlinked h := h ∈ V.pending

section

variable {V : View} {v' w : Vol} {nodes' pending' : List Nat} {lo hi a o file : Nat} {p s q : Buf}

theorem View.content_file (h : V.vol.IsFile V.nodes o) :
    V.tree.content o = some (V.vol.content o) := if_pos h

theorem View.content_none (h : ¬ V.vol.IsFile V.nodes o) : V.tree.content o = none := if_neg h

theorem Vol.content_length (v : Vol) (file : Nat) : (v.content file).length = v.get file .size := by
  simp [Vol.content]

theorem Vol.content_getElem? {v : Vol} {i : Nat} (hi : i < v.get file .size) :
    (v.content file)[i]? = some (v.fileByte file i) := by
  simp [Vol.content, hi]

/-- The directories on a path are there. -/
theorem Vol.HasDirs.reaches (h : V.vol.HasDirs p) : V.tree.Reaches Above p := by
  intro d hd
  obtain ⟨i, hi, hslash, rfl⟩ := hd
  exact h i hi hslash

/-! ## Names -/

theorem Named.tree_head {k : FileTree.Kind} (h : V.tree.named k p o) : V.vol.Head o :=
  (nameKind_fits k).isHead h.type

/-- An entry has one kind and one path. -/
theorem View.named_unique {k k' : FileTree.Kind} (h : V.tree.named k p o)
    (h' : V.tree.named k' s o) : k = k' ∧ p = s := by
  obtain rfl := nameKind_code_inj (h.type.symm.trans h'.type)
  exact ⟨rfl, h.toHasName.unique h'.toHasName⟩

theorem View.named_live {k : FileTree.Kind} (h : V.tree.named k p o) : V.vol.Live o p := by
  cases k
  · exact Or.inl h
  · exact Or.inr h

/-- An entry with a path is not unlinked. -/
theorem View.Sound.named_not_pending (hV : V.Sound lo hi) {k : FileTree.Kind}
    (h : V.tree.named k p o) : o ∉ V.pending := by
  intro hmem
  have htype := (hV.unlinked o hmem).2.1
  rcases View.named_live h with hn | hn <;> exact absurd (htype.symm.trans hn.type) (by decide)

theorem not_live_of_free (hfree : ∀ o, ¬ V.vol.Live o p) : V.tree.Free p :=
  fun _ o hn => hfree o (View.named_live hn)

/-! ## The frame -/

/-- What stays on the volume stays in the tree. -/
theorem Vol.Keeps.tree (h : V.vol.Keeps v' V.nodes nodes' a)
    (hcontent : ∀ o, o ≠ a → V.vol.IsFile V.nodes o → v'.content o = V.vol.content o)
    (hpending : ∀ o, o ≠ a → (o ∈ pending' ↔ o ∈ V.pending)) :
    V.tree.Keeps (View.tree ⟨v', nodes', pending'⟩) a where
  named k p o hne := by
    cases k with
    | file => exact h.namedFile_iff hne
    | dir => exact h.named_iff hne
  content o hne := by
    by_cases hfile : V.vol.IsFile V.nodes o
    · rw [View.content_file hfile, ← hcontent o hne hfile]
      exact View.content_file ((h.file o hne).2 hfile)
    · rw [View.content_none hfile]
      exact View.content_none fun hfile' => hfile ((h.file o hne).1 hfile')
  unlinked o hne := hpending o hne

/-- A new entry stands for a new name. -/
theorem Vol.Added.tree {kind : FileTree.Kind} (h : V.vol.Added v' (nameKind kind) a s)
    (hV : V.Sound lo hi) :
    V.tree.Adds (View.tree ⟨v', V.nodes, V.pending⟩) kind s a where
  toKeeps := (h.keeps hV.layout).tree
    (fun _ hne hfile => (h.keeps hV.layout).content hV.toBlocks
      (Vol.SameData.of_frame h.frame h.slot.ge) hne hfile) fun _ _ => Iff.rfl
  fresh := {
    named := fun _ _ hn => h.not_head (Named.tree_head hn)
    content := View.content_none fun hfile => h.not_head hfile.head
    unlinked := hV.not_mem h.not_pending }
  name k q := by
    constructor
    · intro hn
      exact View.named_unique (V := ⟨v', V.nodes, V.pending⟩) hn h.named
    · intro hn
      obtain ⟨rfl, rfl⟩ := hn
      exact h.named
  linked := hV.not_mem h.not_pending

/-- An entry whose slots are free stands for nothing. -/
theorem View.gone (hhead : ¬ V.vol.Head a) (hpending : a ∉ V.pending) : V.tree.New a where
  named _ _ hn := hhead (Named.tree_head hn)
  content := View.content_none fun hfile => hhead hfile.head
  unlinked := hpending

theorem Vol.Released.tree (h : V.vol.Released v' a) (hV : V.Sound lo hi)
    (hnot : a ∉ V.pending) : V.tree.Drops (View.tree ⟨v', V.nodes, V.pending⟩) a where
  toKeeps := (h.keeps hV.layout).tree
    (fun _ hne hfile => (h.keeps hV.layout).content hV.toBlocks
      (Vol.SameData.of_frame h.frame h.slot.ge) hne hfile) fun _ _ => Iff.rfl
  gone := View.gone h.not_head hnot

/-! ## The operations -/

/-- `sfs_creat` of a free path. -/
theorem View.Sound.creat_step (hV : V.Sound lo hi) (hadd : V.vol.Added v' fileKind a (cstr q))
    (hdirs : V.vol.HasDirs (cstr q)) (hnone : ∀ o, ¬ V.vol.Live o (cstr q))
    (hempty : v'.get a .size = 0) :
    Step Above V.tree (.creat (cstr q)) .done (View.tree { V with vol := v' }) := by
  have hkind : V.vol.Added v' (nameKind .file) a (cstr q) := hadd
  have hfile : v'.IsFile V.nodes a := hadd.named.liveFile.isFile
  refine .creat (not_live_of_free hnone) hdirs.reaches (hkind.tree hV) ?_
  rw [View.content_file (V := { V with vol := v' }) hfile]
  simp [Vol.content, hempty]

/-- `sfs_mkdir` of a path that no directory has. -/
theorem View.Sound.mkdir_step (hV : V.Sound lo hi) (hadd : V.vol.Added v' dirKind a (cstr q))
    (hmakes : V.vol.MakesDir q) :
    Step Above V.tree (.mkdir (cstr q)) .done (View.tree { V with vol := v' }) := by
  have hkind : V.vol.Added v' (nameKind .dir) a (cstr q) := hadd
  have hdir : v'.IsDir a := hadd.named.isDir
  exact .mkdir hmakes.unused hmakes.dirs.reaches (hkind.tree hV)
    (View.content_none (V := { V with vol := v' }) hdir.not_isFile)

/-- `sfs_rmdir` of a directory with nothing under it. -/
theorem View.Sound.rmdir_step (hV : V.Sound lo hi) (hname : Named V.vol dirKind a (cstr q))
    (honly : OnlyUnder V.vol a (cstr q)) (hrel : V.vol.Released v' a) :
    Step Above V.tree (.rmdir (cstr q)) .done (View.tree { V with vol := v' }) := by
  refine .rmdir hname (View.content_none hname.isDir.not_isFile) (fun k p o hn hup => ?_)
    (hrel.tree hV (hV.not_mem hname.isDir.not_pending))
  obtain ⟨i, hi, hslash, hq⟩ := hup
  have hprefix : cstr q <+: p := hq ▸ List.take_prefix i p
  obtain rfl := honly o p (View.named_live hn) hprefix
  -- The path under the directory is its own, and so not longer.
  have hsame : p = cstr q := (View.named_live hn).unique (Or.inr hname)
  have hlen := congrArg List.length hq
  rw [hsame, List.length_take] at hlen
  rw [hsame] at hi
  omega

/-- `sfs_unlink` of a file. -/
theorem View.Sound.unlink_step (hV : V.Sound lo hi) (hname : Named V.vol fileKind a (cstr q))
    (htype : V.vol.Retyped v' a .delFileEntry) :
    Step Above V.tree (.unlink (cstr q)) (.handle a)
      (View.tree { V with vol := v', pending := a :: V.pending }) := by
  have hfile : V.vol.IsFile V.nodes a := hname.liveFile.isFile
  have hfile' : v'.IsFile V.nodes a :=
    ⟨htype.area.slot.2 htype.slot, Or.inr ⟨htype.type, hfile.not_mem hV.space.toFreeList⟩⟩
  have hdata : V.vol.SameData v' := fun k hk => htype.frame k (by have := htype.slot.ge; omega)
  have hkeeps : V.vol.Keeps v' V.nodes V.nodes a := htype.keeps hV.layout
  refine .unlink hname (hkeeps.tree (fun o hne ho => hkeeps.content hV.toBlocks hdata hne ho)
    fun o hne => List.mem_cons.trans (or_iff_right hne)) (fun k p hn => ?_) ?_ List.mem_cons_self
  · rcases View.named_live hn with hn | hn <;>
      exact absurd (htype.type.symm.trans hn.type) (by decide)
  · rw [View.content_file hfile]
    refine (View.content_file hfile').trans (congrArg some ?_)
    have hget : ∀ f : Field, f ≠ .entryType → v'.get a f = V.vol.get a f := fun f hf =>
      htype.get_eq htype.slot.aligned (Or.inr hf)
    unfold Vol.content
    rw [hget .size (by decide)]
    refine List.map_congr_left fun i hi => ?_
    have hbyte := (hV.toBlocks.fileByte hfile (List.mem_range.1 hi)).2
    unfold Vol.fileByte
    rw [hget .startBlock (by decide), htype.area.blockSize, hdata _ hbyte]

/-- `sfs_delete` of an unlinked file. -/
theorem View.Sound.delete_step (hV : V.Sound lo hi)
    (hdel : V.vol.Deleted v' V.nodes nodes' lo hi a) (hmem : a ∈ V.pending) :
    Step Above V.tree (.delete a) .done (View.tree ⟨v', nodes', V.pending.erase a⟩) := by
  refine .delete hmem ⟨hdel.keeps.tree (fun o hne ho => hdel.keeps.content hV.toBlocks
    hdel.sameData hne ho) fun o hne => List.mem_erase_of_ne hne, fun k p hn => ?_,
    View.content_none hdel.not_file, hV.distinct.not_mem_erase⟩
  rcases View.named_live hn with hn | hn
  · exact hdel.not_file hn.liveFile.isFile
  · exact hdel.not_dir hn.isDir

/-- `sfs_rename` of an empty file, that goes to another slot. -/
theorem View.Sound.rename_step (hV : V.Sound lo hi) (hlive : V.vol.LiveFile file)
    (hgoes : V.vol.Renames q) (hempty : V.vol.get file .size = 0)
    (hren : V.vol.Renamed v' file a (cstr q) w) :
    Step Above V.tree (.rename file (cstr q)) (.handle a) (View.tree { V with vol := v' }) := by
  have hfile : V.vol.IsFile V.nodes file := hlive.isFile
  have hnot := hfile.not_mem hV.space.toFreeList
  have hmid : View.Sound { V with vol := w } lo hi := hV.of_keeps (hren.released.keeps hV.layout)
    (hren.released.wellFormed hV.toWellFormed hnot) hlive.not_pending
  have hkind : w.Added v' (nameKind .file) a (cstr q) := hren.added
  have hfile' : v'.IsFile V.nodes a := hren.added.named.liveFile.isFile
  obtain ⟨s, hs, -⟩ := hV.fileName file hfile
  refine .rename (not_live_of_free hgoes.unused) hgoes.dirs.reaches ⟨s, hs, hlive.1, hlive.2⟩
    (hren.released.tree hV (hV.not_mem hlive.not_pending)) (hkind.tree hmid) ?_
  rw [View.content_file hfile, View.content_file (V := { V with vol := v' }) hfile']
  simp [Vol.content, hempty, hren.size]

/-- A file with an entry of another extent: names and links are those of before. -/
theorem View.Sound.stores (hV : V.Sound lo hi) (hlive : V.vol.LiveFile file)
    (hk : V.vol.Keeps v' V.nodes nodes' file) (hfile' : v'.IsFile nodes' file)
    (htype : v'.type file = V.vol.type file)
    (hname : ∀ s, HasName V.vol fileKind file s → HasName v' fileKind file s)
    (hbytes : ∀ o, o ≠ file → V.vol.IsFile V.nodes o → ∀ i, i < V.vol.get o .size →
      v'.fileByte o i = V.vol.fileByte o i) :
    V.tree.Stores (View.tree ⟨v', nodes', V.pending⟩) file (V.vol.content file)
      (v'.content file) where
  toKeeps := by
    refine hk.tree (fun o hne ho => ?_) fun _ _ => Iff.rfl
    unfold Vol.content
    rw [(hk.sameFile o hne ho).get_eq .size]
    exact List.map_congr_left fun i hi => hbytes o hne ho i (List.mem_range.1 hi)
  name k p := by
    obtain ⟨s, hs, -⟩ := hV.fileName file hlive.isFile
    have hold : V.tree.named .file s file := ⟨hs, hlive.1, hlive.2⟩
    have hnew : FileTree.named (View.tree ⟨v', nodes', V.pending⟩) .file s file :=
      ⟨hname s hs, hfile'.1, htype.trans hlive.2⟩
    constructor
    · intro hn
      obtain ⟨rfl, rfl⟩ := View.named_unique hn hnew
      exact hold
    · intro hn
      obtain ⟨rfl, rfl⟩ := View.named_unique hn hold
      exact hnew
  link := Iff.rfl
  before := View.content_file hlive.isFile
  after := View.content_file (V := ⟨v', nodes', V.pending⟩) hfile'

/-- The bytes that a call of `sfs_write` is given. -/
def bytesOf (data : Mem) (size : Nat) : List UInt8 := (List.range size).map data

/-- `sfs_write` of a live file. -/
theorem View.Sound.write_step (hV : V.Sound lo hi) (hlive : V.vol.LiveFile file) {size off : Nat}
    {data : Mem}
    (hres : V.vol.Resized w V.nodes nodes' lo hi file (max (V.vol.get file .size) (off + size))) :
    Step Above V.tree (.write file off (bytesOf data size)) .done
      (View.tree ⟨w.stored file off data size, nodes', V.pending⟩) := by
  have hwrite := hres.written hV.toWellFormed hlive data
  have hfit : off + size ≤ w.get file .size := by
    rw [hres.size]
    exact Nat.le_max_right _ _
  have hsame := hres.blocks.stored_sameIndex hres.isFile hfit data
  refine .write (hV.stores hlive (hres.keeps.trans (hsame.keeps file)) hwrite.live.isFile
    (hwrite.live.2.trans hlive.2.symm) hwrite.name hwrite.fileBytes) ?_
  have hlen : (bytesOf data size).length = size := by simp [bytesOf]
  refine ⟨?_, fun i hi => ?_, fun i hi hout => ?_⟩
  · rw [Vol.content_length, Vol.content_length, hlen, hwrite.newSize]
  · rw [hlen] at hi
    rw [Vol.content_getElem? (by rw [hwrite.newSize]; omega), hwrite.stored i hi]
    simp [bytesOf, hi]
  · rw [Vol.content_length] at hi
    rw [hlen] at hout
    rw [Vol.content_getElem? (by rw [hwrite.newSize]; omega), Vol.content_getElem? hi,
      hwrite.kept i hi hout]

/-- `sfs_truncate` of a live file. -/
theorem View.Sound.truncate_step (hV : V.Sound lo hi) (hlive : V.vol.LiveFile file) {size : Nat}
    (hres : V.vol.Resized v' V.nodes nodes' lo hi file size) :
    Step Above V.tree (.truncate file size) .done (View.tree ⟨v', nodes', V.pending⟩) := by
  refine .truncate (hV.stores hlive hres.keeps hres.isFile hres.type hres.name
    fun o hne ho i hi => hres.keeps.fileBytes hV.toBlocks hres.blocks hres.isFile hres.frame hne ho
      hi) ⟨?_, fun i hi hlt => ?_⟩
  · rw [Vol.content_length, hres.size]
  · rw [Vol.content_length] at hi
    rw [Vol.content_getElem? (by rw [hres.size]; exact hlt), Vol.content_getElem? hi]
    unfold Vol.fileByte
    rw [hres.keeps.area.blockSize, hres.content i hi hlt]

/-! ## The calls that only look -/

/-- The tree does not know the time of the unit. -/
theorem View.same_withTime (time : Nat) :
    V.tree.Same (View.tree { V with vol := { V.vol with fs := { V.vol.fs with time := time } } })
    where
  named k p o := by
    have hkeeps : V.vol.Keeps _ V.nodes V.nodes (o + 1) :=
      (SameIndex.withTime V.vol time).keeps (o + 1)
    have hne : o ≠ o + 1 := Nat.ne_of_lt (Nat.lt_succ_self o)
    cases k with
    | file => exact hkeeps.namedFile_iff hne
    | dir => exact hkeeps.named_iff hne
  content o := by
    have hiff : Vol.IsFile _ V.nodes o ↔ V.vol.IsFile V.nodes o :=
      (SameIndex.withTime V.vol time).isFile_iff
    by_cases hfile : V.vol.IsFile V.nodes o
    · rw [View.content_file hfile]
      exact View.content_file (hiff.2 hfile)
    · rw [View.content_none hfile]
      exact View.content_none fun hfile' => hfile (hiff.1 hfile')
  unlinked _ := Iff.rfl

/-- A sound view does not know it either. -/
theorem View.Sound.withTime (hV : V.Sound lo hi) (time : Nat) :
    View.Sound { V with vol := { V.vol with fs := { V.vol.fs with time := time } } } lo hi := by
  have hsame := SameIndex.withTime V.vol time
  refine ⟨hsame.wellFormed hV.toWellFormed, fun f hf => ?_, hV.distinct⟩
  exact ((hsame.keeps (f + 1)).pending_iff (Nat.ne_of_lt (Nat.lt_succ_self f))).2
    (hV.unlinked f hf)

/-- Every session of a rooted volume with one file and one directory to a path has
its names in order. -/
theorem View.Sound.wellNamed (hV : V.Sound lo hi) (hroot : V.vol.Rooted)
    (hone : ∀ k p o o', V.tree.named k p o → V.tree.named k p o' → o = o') :
    V.tree.WellNamed Above where
  handle := hone
  name _ _ _ _ _ h h' := View.named_unique h h'
  rooted _ _ _ h := (hroot _ _ (View.named_live h)).reaches
  apart _ _ _ h := hV.named_not_pending h

end

end Sfs
