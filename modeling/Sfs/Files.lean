import Sfs.Names
import Sfs.ListOps

/-!
# Well-formed volumes

A volume between two operations: the index splits into groups, the list of free
extents is well linked, every file has a name and an extent that fits its size,
and no block has two owners.

A file is a group whose head has the type of a file, or the type of a deleted
file without being a node of the list: such a file is unlinked and waits for
`sfs_delete`.

* `Blocks` is all of it but the names, and `WellFormed` is all of it;
* `Blocks.edit` is the rule by which the operations keep it: they change one
  group and the list, and keep the bytes of every other group (`Vol.Keeps`);
* `ListStep.keeps` says that the list functions keep the groups.
-/

namespace Sfs

open Lib

/-! ## Files and directories -/

namespace Vol

variable {v v' : Vol} {nodes : List Nat} {off : Nat}

/-- The slot is the head of a file, live or unlinked. -/
def IsFile (v : Vol) (nodes : List Nat) (off : Nat) : Prop :=
  v.Slot off ∧ (v.type off = EntryType.fileEntry.code ∨
    (v.type off = EntryType.delFileEntry.code ∧ off ∉ nodes))

/-- The slot is the head of a directory. -/
def IsDir (v : Vol) (off : Nat) : Prop := v.Slot off ∧ v.type off = EntryType.dirEntry.code

/-- The slot is the head of a file that `sfs_unlink` marked and `sfs_delete` has
not seen yet. -/
def Pending (v : Vol) (nodes : List Nat) (off : Nat) : Prop :=
  v.Slot off ∧ v.type off = EntryType.delFileEntry.code ∧ off ∉ nodes

/-- Block `b` belongs to the file, which is not empty. -/
def FileOwns (v : Vol) (off b : Nat) : Prop := v.get off .size ≠ 0 ∧ v.Owns off b

/-- The extent of a file fits its size. An empty file has the extent 0 to 0. -/
def FileOk (v : Vol) (lo hi off : Nat) : Prop :=
  (v.get off .size = 0 ∧ v.get off .startBlock = 0 ∧ v.get off .endBlock = 0) ∨
    (0 < v.get off .size ∧ lo ≤ v.get off .startBlock ∧ v.get off .endBlock < hi ∧
      v.get off .endBlock + 1 = v.get off .startBlock + blocksOf v.blockSize (v.get off .size))

theorem Pending.isFile (h : v.Pending nodes off) : v.IsFile nodes off := ⟨h.1, Or.inr h.2⟩

theorem IsFile.head (h : v.IsFile nodes off) : v.Head off := by
  rcases h.2 with h | h
  · exact Or.inr (Or.inl h)
  · exact Or.inr (Or.inr h.1)

theorem IsDir.head (h : v.IsDir off) : v.Head off := Or.inl h.2

/-- A directory is no file. -/
theorem IsDir.not_isFile (h : v.IsDir off) : ¬ v.IsFile nodes off := by
  intro hf
  have ht := h.2
  rcases hf.2 with hf | ⟨hf, -⟩ <;> rw [ht] at hf <;> exact absurd hf (by decide)

/-- A file is no node of the list. -/
theorem IsFile.not_mem (h : v.IsFile nodes off) (hf : FreeList v nodes) : off ∉ nodes := by
  intro hmem
  rcases h.2 with ht | ht
  · rw [hf.type off hmem] at ht
    exact absurd ht (by decide)
  · exact ht.2 hmem

/-- A head is a node, a file or a directory. -/
theorem Head.cases (h : v.Head off) (hoff : v.Slot off) :
    off ∈ nodes ∨ v.IsFile nodes off ∨ v.IsDir off := by
  by_cases hmem : off ∈ nodes
  · exact Or.inl hmem
  · rcases h with h | h | h
    · exact Or.inr (Or.inr ⟨hoff, h⟩)
    · exact Or.inr (Or.inl ⟨hoff, Or.inl h⟩)
    · exact Or.inr (Or.inl ⟨hoff, Or.inr ⟨h, hmem⟩⟩)

end Vol

/-- The characters of a path. -/
def IsPath (s : Buf) : Prop := ∀ c, c ∈ s → isCorrectChar c = true

/-- A character of a path is no entry type. -/
theorem not_isType_of_isCorrectChar {c : UInt8} (h : isCorrectChar c = true) :
    ¬ IsType c.toNat := by
  intro ht
  rw [isType_iff] at ht
  simp only [List.mem_cons, List.not_mem_nil, or_false] at ht
  have hc : c = UInt8.ofNat c.toNat := (UInt8.ofNat_toNat).symm
  rcases ht with ht | ht | ht | ht | ht | ht | ht | ht <;> rw [ht] at hc <;> subst hc <;>
    exact absurd h (by decide)

/-! ## Well-formed volumes -/

/-- The slots and the blocks of a volume between two operations, with the blocks
from `lo` to `hi` for data. -/
structure Blocks (v : Vol) (nodes : List Nat) (lo hi : Nat) : Prop where
  geometry : Geometry v lo hi
  layout : Layout v
  space : FreeSpace v nodes lo hi
  fileOk : ∀ off, v.IsFile nodes off → v.FileOk lo hi off
  /-- No block of a file is free. -/
  apart : ∀ off, v.IsFile nodes off → ∀ b, v.FileOwns off b → ¬ v.Free nodes b
  /-- No block belongs to two files. -/
  alone : ∀ off off', v.IsFile nodes off → v.IsFile nodes off' →
    ∀ b, v.FileOwns off b → v.FileOwns off' b → off = off'

/-- A volume between two operations, where every file and directory has a
name. -/
structure WellFormed (v : Vol) (nodes : List Nat) (lo hi : Nat) : Prop
    extends Blocks v nodes lo hi where
  fileName : ∀ off, v.IsFile nodes off → ∃ s, HasName v fileKind off s ∧ IsPath s
  dirName : ∀ off, v.IsDir off → ∃ s, HasName v dirKind off s ∧ IsPath s

/-- The blocks of a file are blocks of the data area. -/
theorem Blocks.fileOwns_range {v : Vol} {nodes : List Nat} {lo hi off b : Nat}
    (h : Blocks v nodes lo hi) (hoff : v.IsFile nodes off) (hb : v.FileOwns off b) :
    lo ≤ b ∧ b < hi := by
  obtain ⟨hsize, hge, hle⟩ := hb
  rcases h.fileOk off hoff with ⟨hz, -⟩ | ⟨-, hlo, hhi, -⟩
  · exact absurd hz hsize
  · omega

namespace WellFormed

variable {v : Vol} {nodes : List Nat} {lo hi off b : Nat}

theorem fileNamed (h : WellFormed v nodes lo hi) : v.AllNamed fileKind := by
  intro off hoff ht
  obtain ⟨s, hs, -⟩ := h.fileName off ⟨hoff, Or.inl ht⟩
  exact ⟨s, hs⟩

theorem dirNamed (h : WellFormed v nodes lo hi) : v.AllNamed dirKind := by
  intro off hoff ht
  obtain ⟨s, hs, -⟩ := h.dirName off ⟨hoff, ht⟩
  exact ⟨s, hs⟩

theorem indexed (h : WellFormed v nodes lo hi) : Indexed v lo hi :=
  ⟨h.geometry, h.layout, h.fileNamed, h.dirNamed⟩

/-- A live path is a path. -/
theorem isPath (h : WellFormed v nodes lo hi) {s : Buf} (hs : v.Live off s) : IsPath s := by
  rcases hs with hs | hs
  · obtain ⟨s', hs', hpath⟩ := h.fileName off ⟨hs.slot, Or.inl hs.type⟩
    rwa [hs.toHasName.unique hs']
  · obtain ⟨s', hs', hpath⟩ := h.dirName off ⟨hs.slot, hs.type⟩
    rwa [hs.toHasName.unique hs']

end WellFormed

/-! ## Groups that keep their bytes -/

/-- The group of the head keeps its bytes. -/
def Vol.SameGroup (v v' : Vol) (off : Nat) : Prop :=
  ∀ k, off ≤ k → k < v.groupEnd off → v'.data k = v.data k

namespace Vol.SameGroup

variable {v v' v'' : Vol} {off lo hi : Nat} {kind : NameKind} {s : Buf}

theorem get_eq (h : v.SameGroup v' off) (f : Field) : v'.get off f = v.get off f :=
  Vol.get_congr fun k hk => h _ (Nat.le_add_right off k) (by rw [groupEnd]; omega)

theorem groupEnd_eq (h : v.SameGroup v' off) : v'.groupEnd off = v.groupEnd off := by
  rw [groupEnd, groupEnd, cont, h.get_eq]

theorem symm (h : v.SameGroup v' off) : v'.SameGroup v off := fun k hk hk' =>
  (h k hk (by rwa [h.groupEnd_eq] at hk')).symm

theorem trans (h : v.SameGroup v' off) (h' : v'.SameGroup v'' off) : v.SameGroup v'' off :=
  fun k hk hk' => (h' k hk (by rwa [h.groupEnd_eq])).trans (h k hk hk')

theorem owns_iff (h : v.SameGroup v' off) {b : Nat} : v'.Owns off b ↔ v.Owns off b := by
  rw [Owns, Owns, h.get_eq, h.get_eq]

theorem fileOwns_iff (h : v.SameGroup v' off) {b : Nat} : v'.FileOwns off b ↔ v.FileOwns off b := by
  rw [FileOwns, FileOwns, h.get_eq, h.owns_iff]

theorem fileOk (h : v.SameGroup v' off) (hbs : v'.blockSize = v.blockSize)
    (hok : v.FileOk lo hi off) : v'.FileOk lo hi off := by
  unfold FileOk
  rw [h.get_eq, h.get_eq, h.get_eq, hbs]
  exact hok

theorem hasName (h : v.SameGroup v' off) (hname : HasName v kind off s) :
    HasName v' kind off s := by
  have hroom := hname.room
  have hcont : v'.cont off = v.cont off := h.get_eq _
  refine ⟨hname.str.congr fun i hi => ?_, by rw [hcont]; exact hroom, fun j hj hj' hlt => ?_⟩
  · exact h _ (by omega) (by rw [groupEnd]; omega)
  · rw [hcont] at hj'
    rw [h _ (by omega) (by rw [groupEnd]; omega)]
    exact hname.tail j hj hj' hlt

theorem named (h : v.SameGroup v' off) (ha : SameArea v v') (hname : Named v kind off s) :
    Named v' kind off s :=
  ⟨h.hasName hname.toHasName, ha.slot.2 hname.slot, (h.get_eq _).trans hname.type⟩

/-- A store elsewhere keeps the group. -/
theorem of_frame {a e : Nat} (hframe : ∀ k, k < a ∨ e ≤ k → v'.data k = v.data k)
    (hdisj : v.groupEnd off ≤ a ∨ e ≤ off) : v.SameGroup v' off :=
  fun k hk hk' => hframe k (by omega)

end Vol.SameGroup

namespace ListStep

variable {v v' : Vol} {nodes nodes' : List Nat} {off lo hi : Nat}

/-- A slot in a group that is no node is not at the disposal of the list
functions. -/
theorem not_loose (hl : Layout v) (hf : FreeList v nodes) (hoff : v.Slot off) (hh : v.Head off)
    (hnot : off ∉ nodes) {o : Nat} (hge : off ≤ o) (hlt : o < v.groupEnd off) :
    ¬ v.Loose nodes o := by
  intro ⟨ho, hloose⟩
  have htype : IsType (v.type o) := by
    rcases hloose with hmem | hu
    · rw [hf.type o hmem]
      exact isType_code _
    · rw [hu]
      exact isType_code _
  rcases Nat.eq_or_lt_of_le hge with heq | hlt'
  · subst heq
    rcases hloose with hmem | hu
    · exact hnot hmem
    · rcases hh with h | h | h <;> rw [hu] at h <;> exact absurd h (by decide)
  · exact absurd (hl.no_cross hoff hh ho htype hlt') (Nat.not_le.2 hlt)

/-- The list functions keep every group that is no node. -/
theorem sameGroup (h : ListStep v v' nodes nodes') (hl : Layout v) (hf : FreeList v nodes)
    (hoff : v.Slot off) (hh : v.Head off) (hnot : off ∉ nodes) : v.SameGroup v' off := by
  intro k hk hk'
  refine h.frame k fun o ho => ?_
  by_contra hin
  have hal := hoff.aligned
  have hal' := ho.1.aligned
  refine not_loose hl hf hoff hh hnot (o := o) (by omega) ?_ ho
  rw [Vol.groupEnd] at hk' ⊢
  omega

/-- The list functions make no file and lose none. -/
theorem isFile_iff (h : ListStep v v' nodes nodes') (hf : FreeList v nodes) :
    v'.IsFile nodes' off ↔ v.IsFile nodes off := by
  have key : ∀ (w w' : Vol) (ns ns' : List Nat), FreeList w ns →
      (∀ o, w.Slot o ↔ w'.Slot o) → (∀ o, w.Loose ns o ↔ w'.Loose ns' o) →
      (∀ o, w'.Slot o → ¬ w'.Loose ns' o → w.type o = w'.type o) →
      w'.IsFile ns' off → FreeList w' ns' → w.IsFile ns off := by
    intro w w' ns ns' hw hslot hloose htype hfile hw'
    have hnot : ¬ w'.Loose ns' off := by
      intro ⟨_, hl⟩
      rcases hl with hmem | hu
      · exact hfile.not_mem hw' hmem
      · rcases hfile.2 with ht | ⟨ht, -⟩ <;> rw [hu] at ht <;> exact absurd ht (by decide)
    refine ⟨(hslot off).2 hfile.1, ?_⟩
    rw [htype off hfile.1 hnot]
    refine hfile.2.imp_right fun ht => ⟨ht.1, fun hmem => hnot ?_⟩
    exact (hloose off).1 ⟨hw.slot off hmem, Or.inl hmem⟩
  have hkeep : ∀ o, v.Slot o → ¬ v.Loose nodes o → v'.type o = v.type o := fun o ho hl =>
    h.get_eq ho.aligned hl _
  constructor
  · intro hfile
    exact key v v' nodes nodes' hf (fun o => h.area.slot.symm) (fun o => (h.loose o).symm)
      (fun o ho hl => (hkeep o (h.area.slot.1 ho) fun hl' => hl ((h.loose o).2 hl')).symm)
      hfile h.list
  · intro hfile
    exact key v' v nodes' nodes h.list (fun o => h.area.slot) h.loose hkeep hfile hf

theorem isDir_iff (h : ListStep v v' nodes nodes') (hf : FreeList v nodes) :
    v'.IsDir off ↔ v.IsDir off := by
  have key : ∀ (w : Vol) (ns : List Nat), FreeList w ns → w.IsDir off → ¬ w.Loose ns off := by
    intro w ns hw hdir ⟨_, hl⟩
    have ht := hdir.2
    rcases hl with hmem | hu
    · rw [hw.type off hmem] at ht
      exact absurd ht (by decide)
    · rw [hu] at ht
      exact absurd ht (by decide)
  constructor
  · intro hdir
    have hslot := h.area.slot.1 hdir.1
    have hnot : ¬ v.Loose nodes off := fun hl => key v' nodes' h.list hdir ((h.loose off).2 hl)
    exact ⟨hslot, (h.get_eq hslot.aligned hnot _).symm.trans hdir.2⟩
  · intro hdir
    have hnot := key v nodes hf hdir
    exact ⟨h.area.slot.2 hdir.1, by rw [Vol.type, h.get_eq hdir.1.aligned hnot]; exact hdir.2⟩

end ListStep

/-- The list stays as it is when its nodes do. -/
theorem FreeList.congr {v v' : Vol} {nodes : List Nat} (hf : FreeList v nodes) (ha : SameArea v v')
    (hbegin : v'.fs.delBegin = v.fs.delBegin)
    (hget : ∀ off, off ∈ nodes → ∀ f, v'.get off f = v.get off f) : FreeList v' nodes where
  chain := by
    rw [hbegin]
    exact hf.chain.congr (fun o ho => hget o ho _) fun o ho => hget o ho _
  nodup := hf.nodup
  slot o ho := ha.slot.2 (hf.slot o ho)
  type o ho := (hget o ho _).trans (hf.type o ho)
  cont o ho := (hget o ho _).trans (hf.cont o ho)

theorem FreeSpace.congr {v v' : Vol} {nodes : List Nat} {lo hi : Nat}
    (hf : FreeSpace v nodes lo hi) (ha : SameArea v v')
    (hbegin : v'.fs.delBegin = v.fs.delBegin)
    (hget : ∀ off, off ∈ nodes → ∀ f, v'.get off f = v.get off f) : FreeSpace v' nodes lo hi where
  toFreeList := hf.toFreeList.congr ha hbegin hget
  ge o ho := by
    rw [hget o ho]
    exact hf.ge o ho
  lt o ho := by
    rw [hget o ho]
    exact hf.lt o ho
  ordered o ho := by
    rw [hget o ho, hget o ho]
    exact hf.ordered o ho
  filled hlt o ho := by
    rw [hget o ho, hget o ho]
    exact hf.filled hlt o ho
  disjoint o ho o' ho' b hb hb' := by
    rw [Vol.Owns, hget o ho, hget o ho] at hb
    rw [Vol.Owns, hget o' ho', hget o' ho'] at hb'
    exact hf.disjoint o ho o' ho' b hb hb'

/-- The free blocks stay as they are when the nodes do. -/
theorem Vol.free_congr {v v' : Vol} {nodes : List Nat} {b : Nat}
    (hget : ∀ off, off ∈ nodes → ∀ f, v'.get off f = v.get off f) :
    v'.Free nodes b ↔ v.Free nodes b := by
  refine exists_congr fun o => and_congr_right fun ho => ?_
  rw [Vol.Owns, Vol.Owns, hget o ho, hget o ho]

/-- The bytes before the index stay. -/
def Vol.SameData (v v' : Vol) : Prop := ∀ k, k < v.fs.entryStart → v'.data k = v.data k

namespace Vol.SameData

variable {v v' v'' : Vol} {nodes nodes' : List Nat}

theorem trans (h : v.SameData v') (ha : SameArea v v') (h' : v'.SameData v'') : v.SameData v'' :=
  fun k hk => (h' k (by rwa [ha.entryStart])).trans (h k hk)

/-- A change of slots keeps them. -/
theorem of_frame {a e : Nat} (hframe : ∀ k, k < a ∨ e ≤ k → v'.data k = v.data k)
    (hge : v.fs.entryStart ≤ a) : v.SameData v' :=
  fun k hk => hframe k (Or.inl (Nat.lt_of_lt_of_le hk hge))

end Vol.SameData

/-- The list functions write nothing before the index. -/
theorem ListStep.sameData {v v' : Vol} {nodes nodes' : List Nat}
    (h : ListStep v v' nodes nodes') : v.SameData v' :=
  fun k hk => h.frame k fun _ ho => Or.inl (Nat.lt_of_lt_of_le hk ho.1.ge)

/-! ## Changing one group -/

/-- The files and directories but the one at `a` stay, with their bytes in the
index. -/
structure Vol.Keeps (v v' : Vol) (nodes nodes' : List Nat) (a : Nat) : Prop where
  area : SameArea v v'
  file : ∀ o, o ≠ a → (v'.IsFile nodes' o ↔ v.IsFile nodes o)
  dir : ∀ o, o ≠ a → (v'.IsDir o ↔ v.IsDir o)
  sameFile : ∀ o, o ≠ a → v.IsFile nodes o → v.SameGroup v' o
  sameDir : ∀ o, o ≠ a → v.IsDir o → v.SameGroup v' o

namespace Vol.Keeps

variable {v v' v'' : Vol} {nodes nodes' nodes'' : List Nat} {a o : Nat} {s : Buf}

theorem trans (h : v.Keeps v' nodes nodes' a) (h' : v'.Keeps v'' nodes' nodes'' a) :
    v.Keeps v'' nodes nodes'' a where
  area := h.area.trans h'.area
  file o hne := (h'.file o hne).trans (h.file o hne)
  dir o hne := (h'.dir o hne).trans (h.dir o hne)
  sameFile o hne ho := (h.sameFile o hne ho).trans (h'.sameFile o hne ((h.file o hne).2 ho))
  sameDir o hne ho := (h.sameDir o hne ho).trans (h'.sameDir o hne ((h.dir o hne).2 ho))

theorem symm (h : v.Keeps v' nodes nodes' a) : v'.Keeps v nodes' nodes a where
  area := h.area.symm
  file o hne := (h.file o hne).symm
  dir o hne := (h.dir o hne).symm
  sameFile o hne ho := (h.sameFile o hne ((h.file o hne).1 ho)).symm
  sameDir o hne ho := (h.sameDir o hne ((h.dir o hne).1 ho)).symm

theorem live (h : v.Keeps v' nodes nodes' a) (hne : o ≠ a) (hlive : v.Live o s) : v'.Live o s := by
  rcases hlive with hn | hn
  · exact Or.inl ((h.sameFile o hne ⟨hn.slot, Or.inl hn.type⟩).named h.area hn)
  · exact Or.inr ((h.sameDir o hne ⟨hn.slot, hn.type⟩).named h.area hn)

/-- The live entries but the one at `a` stay. -/
theorem live_iff (h : v.Keeps v' nodes nodes' a) (hne : o ≠ a) : v'.Live o s ↔ v.Live o s :=
  ⟨h.symm.live hne, h.live hne⟩

theorem named (h : v.Keeps v' nodes nodes' a) (hne : o ≠ a) (hn : Named v dirKind o s) :
    Named v' dirKind o s := (h.sameDir o hne ⟨hn.slot, hn.type⟩).named h.area hn

/-- The directories but the one at `a` stay. -/
theorem named_iff (h : v.Keeps v' nodes nodes' a) (hne : o ≠ a) :
    Named v' dirKind o s ↔ Named v dirKind o s := ⟨h.symm.named hne, h.named hne⟩

theorem pending (h : v.Keeps v' nodes nodes' a) (hne : o ≠ a) (hp : v.Pending nodes o) :
    v'.Pending nodes' o := by
  have hfile := hp.isFile
  have htype : v'.type o = v.type o := (h.sameFile o hne hfile).get_eq _
  obtain ⟨hslot, ht⟩ := (h.file o hne).2 hfile
  rw [htype, hp.2.1] at ht
  exact ⟨hslot, htype.trans hp.2.1, (ht.resolve_left (by decide)).2⟩

/-- The unlinked files but the one at `a` stay. -/
theorem pending_iff (h : v.Keeps v' nodes nodes' a) (hne : o ≠ a) :
    v'.Pending nodes' o ↔ v.Pending nodes o := ⟨h.symm.pending hne, h.pending hne⟩

theorem fileOwns_iff (h : v.Keeps v' nodes nodes' a) (hne : o ≠ a) (ho : v.IsFile nodes o)
    {b : Nat} : v'.FileOwns o b ↔ v.FileOwns o b := (h.sameFile o hne ho).fileOwns_iff

end Vol.Keeps

/-- The list functions keep every file and directory. -/
theorem ListStep.keeps {v v' : Vol} {nodes nodes' : List Nat}
    (h : ListStep v v' nodes nodes') (hl : Layout v) (hf : FreeList v nodes) (a : Nat) :
    v.Keeps v' nodes nodes' a where
  area := h.area
  file _ _ := h.isFile_iff hf
  dir _ _ := h.isDir_iff hf
  sameFile _ _ ho := h.sameGroup hl hf ho.1 ho.head (ho.not_mem hf)
  sameDir o _ ho := by
    refine h.sameGroup hl hf ho.1 ho.head fun hmem => ?_
    have ht := ho.2
    rw [hf.type o hmem] at ht
    exact absurd ht (by decide)

namespace Blocks

variable {v v' : Vol} {nodes nodes' : List Nat} {lo hi : Nat}

/-- A change of the list and of the group at `a` that keeps the other groups and
gives away no block twice. -/
theorem edit (h : Blocks v nodes lo hi) {a : Nat} (hk : v.Keeps v' nodes nodes' a)
    (hl : Layout v') (hf : FreeSpace v' nodes' lo hi)
    (hok : v'.IsFile nodes' a → v'.FileOk lo hi a)
    (hfree : ∀ b, v'.Free nodes' b → ∀ o, o ≠ a → v.IsFile nodes o → ¬ v.FileOwns o b)
    (hnew : v'.IsFile nodes' a → ∀ b, v'.FileOwns a b →
      ¬ v'.Free nodes' b ∧ ∀ o, o ≠ a → v.IsFile nodes o → ¬ v.FileOwns o b) :
    Blocks v' nodes' lo hi := by
  have hfile : ∀ o, o ≠ a → v'.IsFile nodes' o → v.IsFile nodes o ∧ v.SameGroup v' o :=
    fun o hne ho => ⟨(hk.file o hne).1 ho, hk.sameFile o hne ((hk.file o hne).1 ho)⟩
  refine ⟨hk.area.geometry h.geometry, hl, hf, ?_, ?_, ?_⟩
  · intro o ho
    by_cases heq : o = a
    · subst heq
      exact hok ho
    · obtain ⟨ho', hsame⟩ := hfile o heq ho
      exact hsame.fileOk hk.area.blockSize (h.fileOk o ho')
  · intro o ho b hb hfr
    by_cases heq : o = a
    · subst heq
      exact (hnew ho b hb).1 hfr
    · obtain ⟨ho', hsame⟩ := hfile o heq ho
      exact hfree b hfr o heq ho' (hsame.fileOwns_iff.1 hb)
  · intro o o' ho ho' b hb hb'
    by_cases heq : o = a <;> by_cases heq' : o' = a
    · rw [heq, heq']
    · subst heq
      obtain ⟨hold, hsame⟩ := hfile o' heq' ho'
      exact absurd (hsame.fileOwns_iff.1 hb') ((hnew ho b hb).2 o' heq' hold)
    · subst heq'
      obtain ⟨hold, hsame⟩ := hfile o heq ho
      exact absurd (hsame.fileOwns_iff.1 hb) ((hnew ho' b hb').2 o heq hold)
    · obtain ⟨hold, hsame⟩ := hfile o heq ho
      obtain ⟨hold', hsame'⟩ := hfile o' heq' ho'
      exact h.alone o o' hold hold' b (hsame.fileOwns_iff.1 hb) (hsame'.fileOwns_iff.1 hb')

/-- The list functions may free any block that no file owns. -/
theorem freeStep (h : Blocks v nodes lo hi) {P : Nat → Prop}
    (hstep : FreeStep v v' nodes nodes' lo hi P)
    (hP : ∀ b, P b → ∀ o, v.IsFile nodes o → ¬ v.FileOwns o b) : Blocks v' nodes' lo hi := by
  have hf := h.space.toFreeList
  have hl := h.layout
  have hzero : ¬ v'.Slot 0 := fun hs =>
    absurd (h.geometry.slot_pos (hstep.step.area.slot.1 hs)) (Nat.lt_irrefl 0)
  exact h.edit (hstep.step.keeps hl hf 0) (hstep.step.layout hf h.geometry hl) hstep.space
    (fun hfile => absurd hfile.1 hzero) (fun b hb o _ ho => hP b ((hstep.free b).1 hb) o ho)
    fun hfile => absurd hfile.1 hzero

end Blocks

/-- Names stay when only the group at `a` changes, and that has a name. -/
theorem WellFormed.of_keeps {v v' : Vol} {nodes nodes' : List Nat} {lo hi a : Nat}
    (h : WellFormed v nodes lo hi) (hk : v.Keeps v' nodes nodes' a) (hb : Blocks v' nodes' lo hi)
    (hfname : v'.IsFile nodes' a → ∃ s, HasName v' fileKind a s ∧ IsPath s)
    (hdname : v'.IsDir a → ∃ s, HasName v' dirKind a s ∧ IsPath s) :
    WellFormed v' nodes' lo hi := by
  refine ⟨hb, ?_, ?_⟩
  · intro o ho
    by_cases heq : o = a
    · subst heq
      exact hfname ho
    · have ho' := (hk.file o heq).1 ho
      obtain ⟨s, hs, hpath⟩ := h.fileName o ho'
      exact ⟨s, (hk.sameFile o heq ho').hasName hs, hpath⟩
  · intro o ho
    by_cases heq : o = a
    · subst heq
      exact hdname ho
    · have ho' := (hk.dir o heq).1 ho
      obtain ⟨s, hs, hpath⟩ := h.dirName o ho'
      exact ⟨s, (hk.sameDir o heq ho').hasName hs, hpath⟩

/-! ## Changes outside the index -/

/-- Nothing of the index changed, nor the list. -/
structure SameIndex (v v' : Vol) : Prop where
  area : SameArea v v'
  delBegin : v'.fs.delBegin = v.fs.delBegin
  data : ∀ k, v.fs.entryStart ≤ k → v'.data k = v.data k

namespace SameIndex

variable {v v' : Vol} {nodes : List Nat} {lo hi off : Nat}

theorem refl (v : Vol) : SameIndex v v := ⟨SameArea.refl v, rfl, fun _ _ => rfl⟩

/-- The time of the unit is no part of the index. -/
theorem withTime (v : Vol) (time : Nat) :
    SameIndex v { v with fs := { v.fs with time := time } } :=
  ⟨⟨rfl, rfl, rfl, rfl⟩, rfl, fun _ _ => rfl⟩

theorem get_eq (h : SameIndex v v') (hoff : v.Slot off) (f : Field) : v'.get off f = v.get off f :=
  Vol.get_congr fun _ _ => h.data _ (Nat.le_add_right_of_le hoff.ge)

theorem sameGroup (h : SameIndex v v') (hoff : v.Slot off) : v.SameGroup v' off :=
  fun k hk _ => h.data k (Nat.le_trans hoff.ge hk)

theorem isFile_iff (h : SameIndex v v') : v'.IsFile nodes off ↔ v.IsFile nodes off := by
  rw [Vol.IsFile, Vol.IsFile, h.area.slot]
  exact and_congr_right fun hoff => by rw [Vol.type, h.get_eq hoff]

theorem isDir_iff (h : SameIndex v v') : v'.IsDir off ↔ v.IsDir off := by
  rw [Vol.IsDir, Vol.IsDir, h.area.slot]
  exact and_congr_right fun hoff => by rw [Vol.type, h.get_eq hoff]

theorem keeps (h : SameIndex v v') (a : Nat) : v.Keeps v' nodes nodes a :=
  ⟨h.area, fun _ _ => h.isFile_iff, fun _ _ => h.isDir_iff, fun _ _ ho => h.sameGroup ho.1,
    fun _ _ ho => h.sameGroup ho.1⟩

theorem layout (h : SameIndex v v') (hl : Layout v) (hg : Geometry v lo hi) : Layout v' :=
  hl.update hg h.area fun _ ho => Or.inl ⟨h.get_eq ho _, fun _ => h.get_eq ho _⟩

theorem space (h : SameIndex v v') (hf : FreeSpace v nodes lo hi) : FreeSpace v' nodes lo hi :=
  hf.congr h.area h.delBegin fun o ho => h.get_eq (hf.slot o ho)

theorem free_iff (h : SameIndex v v') (hf : FreeList v nodes) {b : Nat} :
    v'.Free nodes b ↔ v.Free nodes b :=
  Vol.free_congr fun o ho => h.get_eq (hf.slot o ho)

theorem blocks (h : SameIndex v v') (hb : Blocks v nodes lo hi) : Blocks v' nodes lo hi := by
  have hzero : ¬ v'.Slot 0 := fun hs =>
    absurd (hb.geometry.slot_pos (h.area.slot.1 hs)) (Nat.lt_irrefl 0)
  exact hb.edit (h.keeps 0) (h.layout hb.layout hb.geometry) (h.space hb.space)
    (fun hfile => absurd hfile.1 hzero)
    (fun b hfree o _ ho hown => hb.apart o ho b hown ((h.free_iff hb.space.toFreeList).1 hfree))
    fun hfile => absurd hfile.1 hzero

theorem wellFormed (h : SameIndex v v') (hw : WellFormed v nodes lo hi) :
    WellFormed v' nodes lo hi := by
  have hzero : ¬ v'.Slot 0 := fun hs =>
    absurd (hw.geometry.slot_pos (h.area.slot.1 hs)) (Nat.lt_irrefl 0)
  exact hw.of_keeps (h.keeps 0) (h.blocks hw.toBlocks) (fun hfile => absurd hfile.1 hzero)
    fun hdir => absurd hdir.1 hzero

end SameIndex

end Sfs
