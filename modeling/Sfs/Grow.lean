import Sfs.Remove

/-!
# Growing files

`sfs_write` and `sfs_truncate` give a file another extent: they take blocks from
the list, put blocks on it, copy the contents when the file moves, and store the
new extent and size in the entry.

* `Vol.Resized` is what that does to a volume;
* `gives_expandFile` takes the blocks behind the file, and `gives_growFile` takes
  an extent elsewhere and copies the contents;
* `gives_extentFor` says how an extent for a size is found: it is there already,
  the blocks behind the file are taken, the file moves, or there is no room.
-/

namespace Sfs

open Lib

/-! ## Storing an extent -/

/-- The volume after the stores under the label `END`. -/
def Vol.setExtent (v : Vol) (file start stop size time : Nat) : Vol :=
  (((v.set file .startBlock start).set file .endBlock stop).set file .size size).set file
    .timeStamp time

namespace Vol

variable {v : Vol} {file start stop size time o : Nat}

theorem setExtent_area (v : Vol) (file start stop size time : Nat) :
    SameArea v (v.setExtent file start stop size time) := ⟨rfl, rfl, rfl, rfl⟩

theorem setExtent_outside {k : Nat} (hk : k < file ∨ file + 34 ≤ k) :
    (v.setExtent file start stop size time).data k = v.data k := by
  unfold setExtent
  rw [set_outside _ _ hk, set_outside _ _ hk, set_outside _ _ hk, set_outside _ _ hk]

/-- The two fields of the layout stay. -/
theorem get_setExtent {f : Field} (hf : f = .entryType ∨ f = .contEntries) :
    (v.setExtent file start stop size time).get file f = v.get file f := by
  have hne : ∀ g : Field, (g = .startBlock ∨ g = .endBlock ∨ g = .size ∨ g = .timeStamp) →
      g ≠ f := by
    rintro g hg rfl
    rcases hf with rfl | rfl <;> simp at hg
  unfold setExtent
  rw [get_set_field _ _ (hne _ (by simp)), get_set_field _ _ (hne _ (by simp)),
    get_set_field _ _ (hne _ (by simp)), get_set_field _ _ (hne _ (by simp))]

theorem get_setExtent_start (h : start < 18446744073709551616) :
    (v.setExtent file start stop size time).get file .startBlock = start := by
  unfold setExtent
  rw [get_set_field _ _ (by decide), get_set_field _ _ (by decide), get_set_field _ _ (by decide),
    get_set_same]
  exact Nat.mod_eq_of_lt h

theorem get_setExtent_stop (h : stop < 18446744073709551616) :
    (v.setExtent file start stop size time).get file .endBlock = stop := by
  unfold setExtent
  rw [get_set_field _ _ (by decide), get_set_field _ _ (by decide), get_set_same]
  exact Nat.mod_eq_of_lt h

theorem get_setExtent_size (h : size < 18446744073709551616) :
    (v.setExtent file start stop size time).get file .size = size := by
  unfold setExtent
  rw [get_set_field _ _ (by decide), get_set_same]
  exact Nat.mod_eq_of_lt h

theorem get_setExtent_slot (hfile : file % 64 = 0) (ho : o % 64 = 0) (hne : o ≠ file) (f : Field) :
    (v.setExtent file start stop size time).get o f = v.get o f := by
  unfold setExtent
  rw [get_set_slot hfile ho hne, get_set_slot hfile ho hne, get_set_slot hfile ho hne,
    get_set_slot hfile ho hne]

theorem type_setExtent (hfile : v.Slot file) (ho : v.Slot o) :
    (v.setExtent file start stop size time).type o = v.type o := by
  by_cases heq : o = file
  · exact heq ▸ get_setExtent (Or.inl rfl)
  · exact get_setExtent_slot hfile.aligned ho.aligned heq _

theorem cont_setExtent (hfile : v.Slot file) (ho : v.Slot o) :
    (v.setExtent file start stop size time).cont o = v.cont o := by
  by_cases heq : o = file
  · exact heq ▸ get_setExtent (Or.inr rfl)
  · exact get_setExtent_slot hfile.aligned ho.aligned heq _

/-- A file is no node of the list. -/
theorem get_setExtent_node {nodes : List Nat} (hf : FreeList v nodes) (hfile : v.IsFile nodes file)
    (ho : o ∈ nodes) (f : Field) :
    (v.setExtent file start stop size time).get o f = v.get o f :=
  get_setExtent_slot hfile.1.aligned (hf.slot o ho).aligned
    (fun heq => hfile.not_mem hf (heq ▸ ho)) f

/-- The other groups are elsewhere. -/
theorem sameGroup_setExtent (hl : Layout v) (hfile : v.Slot file) (hhead : v.Head file)
    (ho : v.Slot o) (hh : v.Head o) (hne : o ≠ file) :
    v.SameGroup (v.setExtent file start stop size time) o := by
  refine SameGroup.of_frame (a := file) (e := file + 34) (fun k hk => setExtent_outside hk) ?_
  rcases hl.disjoint ho hh hfile hhead hne with hlt | hlt
  · exact Or.inl hlt
  · rw [groupEnd] at hlt
    exact Or.inr (by omega)

theorem keeps_setExtent {nodes : List Nat} (hl : Layout v) (hfile : v.IsFile nodes file) :
    v.Keeps (v.setExtent file start stop size time) nodes nodes file := by
  have harea := v.setExtent_area file start stop size time
  refine ⟨harea, fun o _ => ?_, fun o _ => ?_,
    fun o hne ho => sameGroup_setExtent hl hfile.1 hfile.head ho.1 ho.head hne,
    fun o hne ho => sameGroup_setExtent hl hfile.1 hfile.head ho.1 ho.head hne⟩
  · rw [IsFile, IsFile, harea.slot]
    exact and_congr_right fun ho => by rw [type_setExtent hfile.1 ho]
  · rw [IsDir, IsDir, harea.slot]
    exact and_congr_right fun ho => by rw [type_setExtent hfile.1 ho]

/-- The name begins where the stores end. -/
theorem hasName_setExtent {s : Buf} (hfile : v.Slot file) (h : HasName v fileKind file s) :
    HasName (v.setExtent file start stop size time) fileKind file s := by
  have hcont : (v.setExtent file start stop size time).cont file = v.cont file :=
    cont_setExtent hfile hfile
  refine ⟨h.str.congr fun i _ => setExtent_outside (Or.inr ?_), by rw [hcont]; exact h.room,
    fun j hj hj' hlt => ?_⟩
  · show file + 34 ≤ file + 34 + i
    omega
  · rw [hcont] at hj'
    rw [setExtent_outside (Or.inr (by omega))]
    exact h.tail j hj hj' hlt

theorem fileOwns_setExtent {b : Nat} (hstart : start < 18446744073709551616)
    (hstop : stop < 18446744073709551616) (hsize : size < 18446744073709551616) :
    (v.setExtent file start stop size time).FileOwns file b ↔
      size ≠ 0 ∧ start ≤ b ∧ b ≤ stop := by
  rw [FileOwns, Owns, get_setExtent_start hstart, get_setExtent_stop hstop,
    get_setExtent_size hsize]

end Vol

/-- The stores of the new extent and size. -/
theorem gives_setExtent {t : Img} {file start stop size : Nat} (hs : t.vol.Sized)
    (hge : t.vol.fs.entryStart ≤ file) (hfile : file % 64 = 0) (hle : file + 64 ≤ t.vol.size)
    (entr : Entry) :
    Gives (setExtent file start stop size entr) t fun _ t' =>
      ∃ time time', t'.vol = { t.vol.setExtent file start stop size time with
        fs := { t.vol.fs with time := time' } } := by
  unfold setExtent
  rw [gives_readEntry hs hge hfile hle, gives_getTime,
    gives_writeEntry (by exact hs) hfile (by exact hle), gives_update]
  dsimp only
  rw [Vol.store_set, Vol.store_set, Vol.store_set, Vol.store_set, Vol.store_load]
  exact ⟨(), _, rfl, _, _, rfl⟩

/-! ## A file with another extent -/

/-- What a file has after a change of its size: every other file and directory
stays, the blocks it lost are free and those it got were free, and the bytes of
all other blocks are the same. -/
structure Vol.Resized (v v' : Vol) (nodes nodes' : List Nat) (lo hi file newSize : Nat) : Prop where
  keeps : v.Keeps v' nodes nodes' file
  blocks : Blocks v' nodes' lo hi
  isFile : v'.IsFile nodes' file
  type : v'.type file = v.type file
  name : ∀ s, HasName v fileKind file s → HasName v' fileKind file s
  size : v'.get file .size = newSize
  free : ∀ b, v'.Free nodes' b ↔ (v.Free nodes b ∨ v.FileOwns file b) ∧ ¬ v'.FileOwns file b
  owns : ∀ b, v'.FileOwns file b → v.Free nodes b ∨ v.FileOwns file b
  frame : ∀ k, k < v.fs.entryStart → ¬ v'.FileOwns file (k / v.blockSize) → v'.data k = v.data k
  content : ∀ i, i < v.get file .size → i < newSize →
    v'.data (v'.get file .startBlock * v.blockSize + i)
      = v.data (v.get file .startBlock * v.blockSize + i)
  rest : ∀ k, v.fs.volIdent ≤ k → v'.data k = v.data k

section Resize

variable {v v' : Vol} {nodes nodes' : List Nat} {lo hi file start stop size : Nat}

/-- An extent of blocks that fits a size. -/
def FitsSize (blockSize lo hi start stop size : Nat) : Prop :=
  (size = 0 ∧ start = 0 ∧ stop = 0) ∨
    (0 < size ∧ lo ≤ start ∧ stop < hi ∧ stop + 1 = start + blocksOf blockSize size)

/-- What the list functions and the copy leave for the stores of the new extent. -/
structure Vol.Moved (v v' : Vol) (nodes nodes' : List Nat) (lo hi file start stop size : Nat) :
    Prop where
  keeps : v.Keeps v' nodes nodes' file
  layout : Layout v'
  space : FreeSpace v' nodes' lo hi
  same : v.SameGroup v' file
  isFile : v'.IsFile nodes' file
  fits : FitsSize v.blockSize lo hi start stop size
  free : ∀ b, v'.Free nodes' b ↔ (v.Free nodes b ∨ v.FileOwns file b) ∧
    ¬ (size ≠ 0 ∧ start ≤ b ∧ b ≤ stop)
  owns : ∀ b, size ≠ 0 → start ≤ b → b ≤ stop → v.Free nodes b ∨ v.FileOwns file b
  frame : ∀ k, k < v.fs.entryStart → ¬ (size ≠ 0 ∧ start ≤ k / v.blockSize ∧
    k / v.blockSize ≤ stop) → v'.data k = v.data k
  content : ∀ i, i < v.get file .size → i < size →
    v'.data (start * v.blockSize + i) = v.data (v.get file .startBlock * v.blockSize + i)
  rest : ∀ k, v.fs.volIdent ≤ k → v'.data k = v.data k

theorem FitsSize.bounds {blockSize : Nat} (h : FitsSize blockSize lo hi start stop size)
    (hlo : lo ≤ hi) (hbs : 0 < blockSize) : start ≤ hi ∧ stop ≤ hi := by
  rcases h with ⟨-, h₁, h₂⟩ | ⟨hpos, h₁, h₂, h₃⟩
  · omega
  · have hb := blocksOf_pos hbs hpos
    omega

/-- A byte of a file is in a block of its extent. -/
theorem FitsSize.byte_lt {blockSize i : Nat} (h : FitsSize blockSize lo hi start stop size)
    (hbs : 0 < blockSize) (hlt : i < size) : start * blockSize + i < hi * blockSize := by
  rcases h with ⟨hz, -⟩ | ⟨-, -, hhi, hblocks⟩
  · omega
  · have hcap := le_blocksOf hbs size
    have hmul := Nat.mul_le_mul_right blockSize (show stop + 1 ≤ hi by omega)
    rw [hblocks, Nat.add_mul, Nat.mul_comm (blocksOf blockSize size)] at hmul
    omega

/-- What is free or owned by a file is not owned by another one. -/
theorem Blocks.not_owns_other {b o : Nat} (hw : Blocks v nodes lo hi) (hfile : v.IsFile nodes file)
    (hb : v.Free nodes b ∨ v.FileOwns file b) (hne : o ≠ file) (ho : v.IsFile nodes o) :
    ¬ v.FileOwns o b := by
  intro hown
  rcases hb with hb | hb
  · exact hw.apart o ho b hown hb
  · exact hne (hw.alone o file ho hfile b hown hb)

theorem Vol.Moved.fileOwns (h : v.Moved v' nodes nodes' lo hi file start stop size)
    (hw : Blocks v nodes lo hi) (hsize : size < 18446744073709551616) (time b : Nat) :
    (v'.setExtent file start stop size time).FileOwns file b ↔
      size ≠ 0 ∧ start ≤ b ∧ b ≤ stop := by
  have hbound := (h.keeps.area.geometry hw.geometry).block_lt
  obtain ⟨hle₁, hle₂⟩ := h.fits.bounds hw.geometry.lo_le hw.geometry.sized.pos
  exact Vol.fileOwns_setExtent (by omega) (by omega) hsize

/-- The list does not change with the stores. -/
theorem Vol.Moved.free_iff (h : v.Moved v' nodes nodes' lo hi file start stop size)
    (time b : Nat) :
    (v'.setExtent file start stop size time).Free nodes' b ↔
      (v.Free nodes b ∨ v.FileOwns file b) ∧ ¬ (size ≠ 0 ∧ start ≤ b ∧ b ≤ stop) := by
  refine (Vol.free_congr fun o ho => ?_).trans (h.free b)
  exact Vol.get_setExtent_node h.space.toFreeList h.isFile ho

/-- The blocks are in order after the stores. -/
theorem Vol.Moved.blocks (h : v.Moved v' nodes nodes' lo hi file start stop size)
    (hw : Blocks v nodes lo hi) (hfile : v.IsFile nodes file)
    (hsize : size < 18446744073709551616) (time : Nat) :
    Blocks (v'.setExtent file start stop size time) nodes' lo hi := by
  have hg := h.keeps.area.geometry hw.geometry
  have hbound := hg.block_lt
  obtain ⟨hle₁, hle₂⟩ := h.fits.bounds hg.lo_le hw.geometry.sized.pos
  have harea := v'.setExtent_area file start stop size time
  have hlayout : Layout (v'.setExtent file start stop size time) :=
    h.layout.update hg harea fun o ho =>
      Or.inl ⟨Vol.type_setExtent h.isFile.1 ho, fun _ => Vol.cont_setExtent h.isFile.1 ho⟩
  have hspace : FreeSpace (v'.setExtent file start stop size time) nodes' lo hi :=
    h.space.congr harea rfl fun o ho =>
      Vol.get_setExtent_node h.space.toFreeList h.isFile ho
  refine hw.edit (h.keeps.trans (Vol.keeps_setExtent h.layout h.isFile)) hlayout hspace
    (fun _ => ?_) (fun b hb o hne ho => ?_) fun _ b hb => ?_
  · unfold Vol.FileOk
    rw [Vol.get_setExtent_start (by omega), Vol.get_setExtent_stop (by omega),
      Vol.get_setExtent_size hsize, harea.blockSize, h.keeps.area.blockSize]
    exact h.fits
  · exact hw.not_owns_other hfile ((h.free_iff time b).1 hb).1 hne ho
  · have hb' := (h.fileOwns hw hsize time b).1 hb
    exact ⟨fun hfree => ((h.free_iff time b).1 hfree).2 hb', fun o hne ho =>
      hw.not_owns_other hfile (h.owns b hb'.1 hb'.2.1 hb'.2.2) hne ho⟩

/-- The stores of the new extent finish the change. -/
theorem Vol.Moved.setExtent (h : v.Moved v' nodes nodes' lo hi file start stop size)
    (hw : Blocks v nodes lo hi) (hfile : v.IsFile nodes file)
    (hsize : size < 18446744073709551616) (time : Nat) :
    v.Resized (v'.setExtent file start stop size time) nodes nodes' lo hi file size := by
  have hbound := (h.keeps.area.geometry hw.geometry).block_lt
  obtain ⟨hle₁, hle₂⟩ := h.fits.bounds hw.geometry.lo_le hw.geometry.sized.pos
  have hslot := h.isFile.1
  have htype : (v'.setExtent file start stop size time).type file = v'.type file :=
    Vol.type_setExtent hslot hslot
  have howns := h.fileOwns hw hsize time
  -- The stores are behind the blocks.
  have hdata : ∀ k, k < v.fs.entryStart →
      (v'.setExtent file start stop size time).data k = v'.data k := fun k hk =>
    Vol.setExtent_outside (Or.inl (Nat.lt_of_lt_of_le hk hfile.1.ge))
  refine ⟨h.keeps.trans (Vol.keeps_setExtent h.layout h.isFile), h.blocks hw hfile hsize time,
    ⟨(v'.setExtent_area file start stop size time).slot.2 hslot, ?_⟩,
    htype.trans (h.same.get_eq _),
    fun s hs => Vol.hasName_setExtent hslot (h.same.hasName hs),
    Vol.get_setExtent_size hsize, fun b => ?_, fun b hb => ?_, fun k hk hb => ?_,
    fun i hlt hlt' => ?_, fun k hk => ?_⟩
  · rw [htype]
    exact h.isFile.2
  · rw [h.free_iff time b, howns b]
  · rw [howns b] at hb
    exact h.owns b hb.1 hb.2.1 hb.2.2
  · rw [howns] at hb
    rw [hdata k hk]
    exact h.frame k hk hb
  · rw [Vol.get_setExtent_start (by omega), ← h.content i hlt hlt']
    refine hdata _ ?_
    rw [hw.geometry.entryStart]
    exact h.fits.byte_lt hw.geometry.sized.pos hlt'
  · have hlt := hfile.1.lt
    have hal := hw.geometry.aligned
    have hal' := hslot.aligned
    rw [Vol.setExtent_outside (Or.inr (by omega))]
    exact h.rest k hk

theorem Vol.Resized.wellFormed (h : v.Resized v' nodes nodes' lo hi file size)
    (hw : WellFormed v nodes lo hi) (hfile : v.IsFile nodes file) : WellFormed v' nodes' lo hi := by
  refine hw.of_keeps h.keeps h.blocks (fun _ => ?_) fun hdir => absurd h.isFile hdir.not_isFile
  obtain ⟨s, hs, hpath⟩ := hw.fileName file hfile
  exact ⟨s, h.name s hs, hpath⟩

/-- Changes of the list, and then of blocks of the new extent. -/
theorem Vol.Moved.of_freeStep {w : Vol} {P : Nat → Prop} (hw : Blocks v nodes lo hi)
    (hfile : v.IsFile nodes file) (hstep : FreeStep v w nodes nodes' lo hi P)
    (hsame : SameIndex w v') (hfits : FitsSize v.blockSize lo hi start stop size)
    (hP : ∀ b, P b ↔ (v.Free nodes b ∨ v.FileOwns file b) ∧
      ¬ (size ≠ 0 ∧ start ≤ b ∧ b ≤ stop))
    (howns : ∀ b, size ≠ 0 → start ≤ b → b ≤ stop → v.Free nodes b ∨ v.FileOwns file b)
    (hframe : ∀ k, k < v.fs.entryStart → ¬ (size ≠ 0 ∧ start ≤ k / v.blockSize ∧
      k / v.blockSize ≤ stop) → v'.data k = w.data k)
    (hcontent : ∀ i, i < v.get file .size → i < size →
      v'.data (start * v.blockSize + i) = v.data (v.get file .startBlock * v.blockSize + i)) :
    v.Moved v' nodes nodes' lo hi file start stop size := by
  have hl := hw.layout
  have hf := hw.space.toFreeList
  have harea := hstep.step.area
  have hslot := hfile.1
  refine ⟨(hstep.step.keeps hl hf file).trans (hsame.keeps file),
    hsame.layout (hstep.step.layout hf hw.geometry hl) (harea.geometry hw.geometry),
    hsame.space hstep.space,
    (hstep.step.sameGroup hl hf hslot hfile.head (hfile.not_mem hf)).trans
      (hsame.sameGroup (harea.slot.2 hslot)),
    hsame.isFile_iff.2 ((hstep.step.isFile_iff hf).2 hfile), hfits, ?_, howns, ?_, hcontent, ?_⟩
  · intro b
    rw [hsame.free_iff hstep.space.toFreeList, hstep.free b, hP b]
  · intro k hk hout
    rw [hframe k hk hout]
    exact hstep.step.sameData k hk
  · intro k hk
    have hnonempty := hw.geometry.nonempty
    have hal := hw.geometry.aligned
    rw [hsame.data k (by rw [harea.entryStart]; omega)]
    refine hstep.step.frame k fun o ho => Or.inr ?_
    have hlt := ho.1.lt
    have hal' := ho.1.aligned
    omega

/-- A file whose blocks do for the new size. -/
theorem Vol.Moved.stay (hw : Blocks v nodes lo hi) (hfile : v.IsFile nodes file)
    (hblocks : blocksOf v.blockSize size = blocksOf v.blockSize (v.get file .size)) :
    v.Moved v nodes nodes lo hi file (v.get file .startBlock) (v.get file .endBlock) size := by
  have hbs := hw.geometry.sized.pos
  have hzero : size = 0 ↔ v.get file .size = 0 := by
    constructor
    · intro hz
      by_contra hpos
      have h := blocksOf_pos hbs (Nat.pos_of_ne_zero hpos)
      rw [← hblocks, hz, blocksOf_zero] at h
      exact Nat.lt_irrefl 0 h
    · intro hz
      by_contra hpos
      have h := blocksOf_pos hbs (Nat.pos_of_ne_zero hpos)
      rw [hblocks, hz, blocksOf_zero] at h
      exact Nat.lt_irrefl 0 h
  have howns : ∀ b, v.FileOwns file b ↔
      size ≠ 0 ∧ v.get file .startBlock ≤ b ∧ b ≤ v.get file .endBlock := fun b =>
    and_congr_left fun _ => not_congr hzero.symm
  have hstep : FreeStep v v nodes nodes lo hi (v.Free nodes) :=
    ⟨hw.space, ListStep.refl hw.space.toFreeList, fun _ => Iff.rfl⟩
  refine Vol.Moved.of_freeStep hw hfile hstep (SameIndex.refl v) ?_ ?_ ?_
    (fun _ _ _ => rfl) fun _ _ _ => rfl
  · rcases hw.fileOk file hfile with ⟨hz, h⟩ | ⟨hpos, h₁, h₂, h₃⟩
    · exact Or.inl ⟨hzero.2 hz, h⟩
    · exact Or.inr ⟨by omega, h₁, h₂, by rw [hblocks]; exact h₃⟩
  · intro b
    rw [← howns b]
    constructor
    · exact fun hb => ⟨Or.inl hb, fun hb' => hw.apart file hfile b hb' hb⟩
    · exact fun hb => hb.1.resolve_right hb.2
  · exact fun b h₁ h₂ h₃ => Or.inr ((howns b).2 ⟨h₁, h₂, h₃⟩)

end Resize

/-! ## Finding an extent -/

/-- When `k` blocks are taken from a greatest extent, the blocks of the file can
be put on the list: there is a node next to them or an unused slot, or the
greatest extent is used up and its node becomes one. -/
def Vol.CanMove (v : Vol) (nodes : List Nat) (file k : Nat) : Prop :=
  v.CanRecord nodes (v.get file .startBlock) (v.get file .endBlock) ∨
    ∃ a, a ∈ nodes ∧ v.extent a = k ∧ ∀ o, o ∈ nodes → v.extent o ≤ k

/-- With a slot to spare a file can move. -/
theorem Vol.canMove_of_unused {v : Vol} {nodes : List Nat} {file o k : Nat}
    (h : v.UnusedRun o 1) : v.CanMove nodes file k :=
  Or.inl (Or.inl ⟨o, h 0 Nat.one_pos⟩)

/-- A node that is used up leaves an unused slot. -/
theorem FreeList.unused_of_exact {v : Vol} {nodes : List Nat} (hf : FreeList v nodes) {a k : Nat}
    (ha : a ∈ nodes) (hk : v.extent a = k) :
    (v.takeFront a k).Slot a ∧ (v.takeFront a k).type a = EntryType.unusedEntry.code := by
  unfold Vol.takeFront
  rw [if_pos hk]
  refine ⟨(v.unlink_area a).slot.2 (hf.slot a ha), ?_⟩
  rw [hf.type_unlink ha (hf.slot a ha), if_pos rfl]

theorem Vol.CanMove.canRecord {v : Vol} {nodes : List Nat} {lo hi file a k : Nat}
    (h : v.CanMove nodes file k) (hf : FreeSpace v nodes lo hi) (ha : a ∈ nodes)
    (hle : k ≤ v.extent a) (hgreatest : ∀ o, o ∈ nodes → v.extent o ≤ v.extent a)
    (hnext : ¬ v.After a (v.get file .endBlock)) :
    (v.takeFront a k).CanRecord (v.nodesAfter nodes a k) (v.get file .startBlock)
      (v.get file .endBlock) := by
  by_cases hfit : v.extent a = k
  · exact Or.inl ⟨a, hf.unused_of_exact ha hfit⟩
  · have htake : v.takeFront a k = v.set a .startBlock (v.get a .startBlock + k) := by
      rw [Vol.takeFront, if_neg hfit]
    have hnodes : v.nodesAfter nodes a k = nodes := by rw [Vol.nodesAfter, if_neg hfit]
    have hal := (hf.slot a ha).aligned
    have hget : ∀ o, v.Slot o → ∀ f : Field, o ≠ a ∨ f ≠ .startBlock →
        (v.takeFront a k).get o f = v.get o f := by
      intro o ho f hne
      rw [htake, Vol.get_set hal ho.aligned, if_neg fun heq => ?_]
      rcases hne with hne | hne
      · exact hne heq.1
      · exact hne heq.2
    rcases h with h | ⟨b, hb, hb', hmax⟩
    · rcases h with ⟨o, ho, hu⟩ | ⟨o, ho, hside⟩
      · have htype := hget o ho .entryType (Or.inr (by decide))
        refine Or.inl ⟨o, ?_, ?_⟩
        · rw [htake]
          exact (v.set_area a .startBlock _).slot.2 ho
        · rw [Vol.type, htype]
          exact hu
      · refine Or.inr ⟨o, hnodes.symm ▸ ho, ?_⟩
        rcases hside with hb | hafter
        · refine Or.inl ?_
          rw [Vol.Before, hget o (hf.slot o ho) .endBlock (Or.inr (by decide))]
          exact hb
        · refine Or.inr ?_
          have hne : o ≠ a := fun heq => hnext (heq ▸ hafter)
          rw [Vol.After, hget o (hf.slot o ho) .startBlock (Or.inl hne)]
          exact hafter
    · have h₁ := hgreatest b hb
      have h₂ := hmax a ha
      omega

/-- The volume after a copy of `n` blocks. -/
def Vol.copied (v : Vol) (src dest n : Nat) : Vol :=
  { v with
    data := blit v.data (dest * v.blockSize) v.data (src * v.blockSize) (n * v.blockSize) }

/-- A copy between block ranges that do not meet, with nothing cached. -/
theorem gives_copyBlock {α : Type} {t : Img} {Q : α → Img → Prop} {src dest size : Nat}
    {f : Int → SfsM α} (hclean : t.clean = true) (hpos : size ≠ 0)
    (hle : (src + size) * t.vol.blockSize ≤ t.vol.size) (hdest : dest ≠ 0)
    (hdata : (dest + size) * t.vol.blockSize ≤ t.vol.fs.entryStart)
    (hdisj : src + size ≤ dest ∨ dest + size ≤ src) :
    Gives (copyBlockM src dest size >>= f) t Q ↔
      Gives (f 0) { t with vol := t.vol.copied src dest size } Q := by
  refine gives_issue ?_
  dsimp only [Img.handle, Vol.copied]
  rw [if_neg hpos, if_neg fun h => h.2.elim hdest (Nat.not_lt.2 hdata),
    if_pos ⟨hclean, hle, hdisj⟩]

section ExtentFor

variable {t : Img} {nodes : List Nat} {lo hi file newSize : Nat}

/-- The last block of an extent that fits a size. -/
theorem endBlockFor_eq {bs start size : Nat} (hbs : 0 < bs)
    (hsize : bs * blocksOf bs size < 18446744073709551616) (hpos : 0 < size)
    (hlt : start + blocksOf bs size ≤ 18446744073709551616) :
    endBlockFor bs start size + 1 = start + blocksOf bs size := by
  have hb := blocksOf_pos hbs hpos
  rw [endBlockFor, realSize_eq_of_lt hsize, Nat.mul_div_cancel_left _ hbs]
  unfold u64 minusOne
  omega

/-- The blocks of a non-empty file. -/
theorem Blocks.fileExtent {v : Vol} (hw : Blocks v nodes lo hi)
    (hfile : v.IsFile nodes file) (hpos : v.get file .size ≠ 0) :
    lo ≤ v.get file .startBlock ∧ v.get file .startBlock ≤ v.get file .endBlock ∧
      v.get file .endBlock < hi ∧ v.get file .endBlock + 1
        = v.get file .startBlock + blocksOf v.blockSize (v.get file .size) := by
  rcases hw.fileOk file hfile with ⟨hz, -⟩ | ⟨h₀, h₁, h₂, h₃⟩
  · exact absurd hz hpos
  · have hb := blocksOf_pos hw.geometry.sized.pos h₀
    exact ⟨h₁, by omega, h₂, h₃⟩

/-- A file starts at block 0 when it is empty. -/
theorem Blocks.start_eq_zero {v : Vol} (hw : Blocks v nodes lo hi)
    (hfile : v.IsFile nodes file) : v.get file .startBlock = 0 ↔ v.get file .size = 0 := by
  have hlo := hw.geometry.lo_pos
  rcases hw.fileOk file hfile with ⟨hz, hs, -⟩ | ⟨h₀, h₁, -⟩
  · exact ⟨fun _ => hz, fun _ => hs⟩
  · omega

/-- A size that fits an extent is far from the end of an `off_t`. -/
theorem Vol.FileOk.size_lt {v : Vol} (h : v.FileOk lo hi file) (hg : Geometry v lo hi) :
    v.get file .size + v.blockSize ≤ v.size := by
  have h₁ := hg.entryStart
  have h₂ := hg.nonempty
  have h₃ := hg.inside
  have hbs := hg.sized.pos
  have hlo := hg.lo_pos
  rcases h with ⟨hz, -⟩ | ⟨-, hs, he, hblocks⟩
  · rw [hz, Nat.zero_add]
    exact hg.blockSize_le
  · have hcap := le_blocksOf hbs (v.get file .size)
    have hmul := Nat.mul_le_mul_right v.blockSize
      (show blocksOf v.blockSize (v.get file .size) + 1 ≤ hi by omega)
    rw [Nat.succ_mul, Nat.mul_comm] at hmul
    omega

/-- The sizes of files are far from the end of an `off_t`. -/
theorem Blocks.size_lt {v : Vol} (hw : Blocks v nodes lo hi) (hfile : v.IsFile nodes file) :
    v.get file .size + v.blockSize ≤ v.size :=
  (hw.fileOk file hfile).size_lt hw.geometry

/-- The bytes of a file are in its blocks, before the index. -/
theorem Blocks.fileByte {v : Vol} (hw : Blocks v nodes lo hi) (hfile : v.IsFile nodes file)
    {i : Nat} (hlt : i < v.get file .size) :
    v.FileOwns file ((v.get file .startBlock * v.blockSize + i) / v.blockSize) ∧
      v.get file .startBlock * v.blockSize + i < v.fs.entryStart := by
  have hbs := hw.geometry.sized.pos
  have hpos : v.get file .size ≠ 0 := by omega
  obtain ⟨-, -, hhi, hblocks⟩ := hw.fileExtent hfile hpos
  have hcap := le_blocksOf hbs (v.get file .size)
  have hdiv : (v.get file .startBlock * v.blockSize + i) / v.blockSize
      = v.get file .startBlock + i / v.blockSize := by
    rw [Nat.add_comm, Nat.add_mul_div_right _ _ hbs, Nat.add_comm]
  have hin : i / v.blockSize < blocksOf v.blockSize (v.get file .size) :=
    (Nat.div_lt_iff_lt_mul hbs).2 (by rw [Nat.mul_comm]; omega)
  constructor
  · rw [hdiv]
    exact ⟨hpos, Nat.le_add_right _ _, by omega⟩
  · have hmul := Nat.mul_le_mul_right v.blockSize (show v.get file .endBlock + 1 ≤ hi by omega)
    rw [hblocks, Nat.add_mul, Nat.mul_comm (blocksOf v.blockSize (v.get file .size))] at hmul
    rw [hw.geometry.entryStart]
    omega

/-- If the file has to move to hold `newSize` bytes, its old blocks can be put on
the list. -/
def Vol.GrowsSafely (v : Vol) (nodes : List Nat) (file newSize : Nat) : Prop :=
  v.get file .size ≠ 0 →
  blocksOf v.blockSize (v.get file .size) < blocksOf v.blockSize newSize →
  (∀ a, a ∈ nodes → ¬ v.Fits a (v.get file .endBlock + 1) (v.blockSize *
    (blocksOf v.blockSize newSize - blocksOf v.blockSize (v.get file .size)))) →
  (∃ a, a ∈ nodes ∧ blocksOf v.blockSize newSize ≤ v.extent a) →
  v.CanMove nodes file (blocksOf v.blockSize newSize)

/-- The attempt to take the blocks behind the file. -/
theorem gives_expandFile (hw : Blocks t.vol nodes lo hi) (hfile : t.vol.IsFile nodes file)
    (hsize : t.vol.blockSize * blocksOf t.vol.blockSize newSize < 18446744073709551616)
    (hmore : blocksOf t.vol.blockSize (t.vol.get file .size) < blocksOf t.vol.blockSize newSize)
    (entr : Entry) :
    Gives (expandFile file (t.vol.get file .startBlock) newSize entr) t fun r t' =>
      (r.1 ≠ 0 ∧ t'.vol = t.vol ∧ (t.vol.get file .size ≠ 0 → ∀ a, a ∈ nodes →
        ¬ t.vol.Fits a (t.vol.get file .endBlock + 1) (t.vol.blockSize *
          (blocksOf t.vol.blockSize newSize - blocksOf t.vol.blockSize (t.vol.get file .size))))) ∨
      (r.1 = 0 ∧ ∃ nodes', t.vol.Moved t'.vol nodes nodes' lo hi file (t.vol.get file .startBlock)
        (endBlockFor t.vol.blockSize (t.vol.get file .startBlock) newSize) newSize) := by
  have hg := hw.geometry
  have hbs := hg.sized.pos
  have hbound := hg.block_lt
  have hdev := hg.sized.small
  have hold := hw.size_lt hfile
  have hone : (1 : Int) ≠ 0 := one_ne_zero
  unfold expandFile
  by_cases hz : t.vol.get file .size = 0
  · rw [if_neg (not_not.2 ((hw.start_eq_zero hfile).2 hz)), gives_pure]
    exact Or.inl ⟨hone, rfl, fun h => absurd hz h⟩
  · obtain ⟨hlo, hle, hhi, hblocks⟩ := hw.fileExtent hfile hz
    have hdelta : sub64 (realSize t.vol.blockSize newSize)
        (realSize t.vol.blockSize (t.vol.get file .size)) = t.vol.blockSize *
          (blocksOf t.vol.blockSize newSize - blocksOf t.vol.blockSize (t.vol.get file .size)) := by
      rw [realSize_eq_of_lt hsize, realSize_eq hbs (by omega), sub64_of_le, Nat.mul_sub]
      exact Nat.mul_le_mul_left _ (Nat.le_of_lt hmore)
    rw [if_pos fun h => hz ((hw.start_eq_zero hfile).1 h)]
    refine (gives_tryExpand hg hw.space hfile.1 hhi hdelta).mono fun r t' h => ?_
    rcases h with ⟨hr, hvol, hnone⟩ | ⟨hr, -, a, ha, hnext, hroom, hvol⟩
    · exact Or.inl ⟨by rw [hr]; exact hone, hvol, fun _ => hnone⟩
    · have hlast := hw.space.lt a ha
      have hpos : 0 < newSize := by
        by_contra hn
        rw [Nat.eq_zero_of_not_pos hn, blocksOf_zero] at hmore
        exact absurd hmore (Nat.not_lt_zero _)
      unfold Vol.extent at hroom
      have hstop : endBlockFor t.vol.blockSize (t.vol.get file .startBlock) newSize + 1
          = t.vol.get file .startBlock + blocksOf t.vol.blockSize newSize :=
        endBlockFor_eq hbs hsize hpos (by omega)
      have hstep := hw.space.takeFront ha (k := blocksOf t.vol.blockSize newSize
        - blocksOf t.vol.blockSize (t.vol.get file .size)) (by omega) hroom
      rw [← hvol] at hstep
      suffices h : ∃ nodes', t.vol.Moved t'.vol nodes nodes' lo hi file
          (t.vol.get file .startBlock)
          (endBlockFor t.vol.blockSize (t.vol.get file .startBlock) newSize) newSize from
        Or.inr ⟨hr, h⟩
      -- The new blocks are blocks of the node, the old ones are the file's.
      have hown : ∀ b, t.vol.FileOwns file b ↔
          t.vol.get file .startBlock ≤ b ∧ b ≤ t.vol.get file .endBlock := fun b =>
        and_iff_right hz
      have hfree : ∀ b, t.vol.get a .startBlock ≤ b → b ≤ t.vol.get a .endBlock →
          t.vol.Free nodes b := fun b h₁ h₂ => ⟨a, ha, h₁, h₂⟩
      have hapart := fun b hb => hw.apart file hfile b ((hown b).2 hb)
      refine ⟨_, Vol.Moved.of_freeStep hw hfile hstep (SameIndex.refl _)
        (Or.inr ⟨hpos, hlo, by omega, hstop⟩) ?_ ?_ (fun _ _ _ => rfl) ?_⟩
      · intro b
        have h₁ := hapart b
        rw [hown b]
        constructor
        · exact fun hb => ⟨Or.inl hb.1, fun hin => h₁ (by have h₂ := hb.2; omega) hb.1⟩
        · intro hb
          have h₂ := hb.2
          refine ⟨hb.1.resolve_right (by omega), by omega⟩
      · intro b _ h₁ h₂
        by_cases hin : b ≤ t.vol.get file .endBlock
        · exact Or.inr ((hown b).2 ⟨h₁, hin⟩)
        · exact Or.inl (hfree b (by omega) (by omega))
      · intro i hlt _
        exact hstep.step.sameData _ (hw.fileByte hfile hlt).2

/-- The growth of an empty file, to an extent of `k` blocks from the list. -/
theorem Vol.Moved.first {v w : Vol} {nodes' : List Nat} {start k : Nat}
    (hw : Blocks v nodes lo hi) (hfile : v.IsFile nodes file) (hz : v.get file .size = 0)
    (hpos : 0 < newSize) (hk : k = blocksOf v.blockSize newSize)
    (hstep : FreeStep v w nodes nodes' lo hi fun b =>
      v.Free nodes b ∧ ¬ (start ≤ b ∧ b < start + k))
    (hfree : ∀ b, start ≤ b → b < start + k → v.Free nodes b) {stop : Nat}
    (hstop : stop + 1 = start + k) : v.Moved w nodes nodes' lo hi file start stop newSize := by
  have hblocks := blocksOf_pos hw.geometry.sized.pos hpos
  have hnone : ∀ b, ¬ v.FileOwns file b := fun b hb => hb.1 hz
  have hfirst := hw.space.free_range (hfree start (Nat.le_refl _) (by omega))
  have hlast := hw.space.free_range (hfree stop (by omega) (by omega))
  refine Vol.Moved.of_freeStep hw hfile hstep (SameIndex.refl w)
    (Or.inr ⟨hpos, hfirst.1, hlast.2, by omega⟩) ?_ ?_ (fun _ _ _ => rfl)
    (fun i hlt _ => absurd hlt (by omega))
  · intro b
    rw [or_iff_left (hnone b)]
    refine and_congr_right fun _ => not_congr ?_
    omega
  · exact fun b _ h₁ h₂ => Or.inl (hfree b h₁ (by omega))

/-- The move of a file: its old blocks are put on the list, and copied. -/
theorem Vol.Moved.move {v w : Vol} {nodes' : List Nat} {start k : Nat}
    (hw : Blocks v nodes lo hi) (hfile : v.IsFile nodes file) (hz : v.get file .size ≠ 0)
    (hpos : 0 < newSize) (hk : k = blocksOf v.blockSize newSize)
    (hmore : blocksOf v.blockSize (v.get file .size) < k)
    (hstep : FreeStep v w nodes nodes' lo hi fun b =>
      (v.Free nodes b ∧ ¬ (start ≤ b ∧ b < start + k)) ∨
        (v.get file .startBlock ≤ b ∧ b ≤ v.get file .endBlock))
    (hfree : ∀ b, start ≤ b → b < start + k → v.Free nodes b) {stop : Nat}
    (hstop : stop + 1 = start + k) :
    v.Moved (w.copied (v.get file .startBlock) start (blocksOf v.blockSize (v.get file .size)))
      nodes nodes' lo hi file start stop newSize := by
  have hg := hw.geometry
  have hbs := hg.sized.pos
  have hold : ∀ b, v.FileOwns file b ↔
      v.get file .startBlock ≤ b ∧ b ≤ v.get file .endBlock := fun b => and_iff_right hz
  have hfirst := hw.space.free_range (hfree start (Nat.le_refl _) (by omega))
  have hlast := hw.space.free_range (hfree stop (by omega) (by omega))
  have hcopied := Nat.mul_le_mul_right v.blockSize (Nat.le_of_lt hmore)
  have hend := Nat.mul_le_mul_right v.blockSize (show start + k ≤ hi by omega)
  rw [Nat.add_mul, ← hg.entryStart] at hend
  have hdata : (w.copied (v.get file .startBlock) start
      (blocksOf v.blockSize (v.get file .size))).data
        = blit w.data (start * v.blockSize) w.data (v.get file .startBlock * v.blockSize)
          (blocksOf v.blockSize (v.get file .size) * v.blockSize) := by
    rw [Vol.copied, hstep.step.area.blockSize]
  have hsame : SameIndex w (w.copied (v.get file .startBlock) start
      (blocksOf v.blockSize (v.get file .size))) := by
    refine ⟨⟨rfl, rfl, rfl, rfl⟩, rfl, fun k' hk' => ?_⟩
    rw [hstep.step.area.entryStart] at hk'
    rw [hdata, blit_outside (by omega)]
  refine Vol.Moved.of_freeStep hw hfile hstep hsame (Or.inr ⟨hpos, hfirst.1, hlast.2, by omega⟩)
    ?_ ?_ ?_ ?_
  · intro b
    rw [hold b]
    have hapart : start ≤ b → b < start + k →
        ¬ (v.get file .startBlock ≤ b ∧ b ≤ v.get file .endBlock) := fun h₁ h₂ hin =>
      hw.apart file hfile b ((hold b).2 hin) (hfree b h₁ h₂)
    constructor
    · intro hb
      rcases hb with ⟨hb, hout⟩ | hin
      · exact ⟨Or.inl hb, fun h => hout ⟨h.2.1, by omega⟩⟩
      · exact ⟨Or.inr hin, fun h => hapart h.2.1 (by omega) hin⟩
    · intro ⟨hb, hout⟩
      exact hb.imp_left fun hb => ⟨hb, fun h => hout ⟨by omega, h.1, by omega⟩⟩
  · exact fun b _ h₁ h₂ => Or.inl (hfree b h₁ (by omega))
  · -- The copy stays inside the new extent.
    intro k' _ hout
    rw [hdata]
    refine blit_outside ?_
    by_contra hin
    refine hout ⟨by omega, (Nat.le_div_iff_mul_le hbs).2 (by omega), ?_⟩
    have hlt : k' / v.blockSize < start + k :=
      (Nat.div_lt_iff_lt_mul hbs).2 (by rw [Nat.add_mul]; omega)
    omega
  · intro i hlt _
    have hcap := le_blocksOf hbs (v.get file .size)
    rw [Nat.mul_comm] at hcap
    rw [hdata, blit_add (by omega)]
    exact hstep.step.sameData _ (hw.fileByte hfile hlt).2

/-- The first blocks of a node are free. -/
theorem FreeSpace.front_free {v : Vol} {a start k : Nat} (hf : FreeSpace v nodes lo hi)
    (ha : a ∈ nodes) (hstart : start = v.get a .startBlock) (hpos : 0 < k)
    (hroom : k ≤ v.extent a) :
    (∀ b, start ≤ b → b < start + k → v.Free nodes b) ∧ start + k ≤ hi := by
  have hlast := hf.lt a ha
  unfold Vol.extent at hroom
  exact ⟨fun b h₁ h₂ => ⟨a, ha, by omega, by omega⟩, by omega⟩

/-- The number of blocks that is copied. -/
theorem Blocks.extent_count {v : Vol} (hw : Blocks v nodes lo hi) (hfile : v.IsFile nodes file)
    (hz : v.get file .size ≠ 0) :
    u64 (sub64 (v.get file .endBlock) (v.get file .startBlock) + 1)
      = blocksOf v.blockSize (v.get file .size) := by
  obtain ⟨-, hle, hhi, hcount⟩ := hw.fileExtent hfile hz
  have hbound := hw.geometry.block_lt
  rw [sub64_of_le hle]
  unfold u64
  omega

/-- The blocks of a file and as many free ones are blocks of the device and of the data
area, and do not meet. -/
theorem Blocks.copy_fits {v : Vol} {start : Nat} (hw : Blocks v nodes lo hi)
    (hfile : v.IsFile nodes file) (hz : v.get file .size ≠ 0)
    (hfree : ∀ b, start ≤ b → b < start + blocksOf v.blockSize (v.get file .size) → v.Free nodes b)
    (hend : start + blocksOf v.blockSize (v.get file .size) ≤ hi) :
    (v.get file .startBlock + blocksOf v.blockSize (v.get file .size)) * v.blockSize ≤ v.size ∧
      (start + blocksOf v.blockSize (v.get file .size)) * v.blockSize ≤ v.fs.entryStart ∧
      (v.get file .startBlock + blocksOf v.blockSize (v.get file .size) ≤ start ∨
        start + blocksOf v.blockSize (v.get file .size) ≤ v.get file .startBlock) := by
  have hg := hw.geometry
  have hent := hg.entryStart
  obtain ⟨-, hle, hhi, hcount⟩ := hw.fileExtent hfile hz
  refine ⟨?_, ?_, ?_⟩
  · have hmul := Nat.mul_le_mul_right v.blockSize (show v.get file .endBlock + 1 ≤ hi by omega)
    have hin := hg.inside
    have hlt := hg.nonempty
    rw [← hcount]
    omega
  · rw [hent]
    exact Nat.mul_le_mul_right v.blockSize hend
  · have hb := blocksOf_pos hg.sized.pos (Nat.pos_of_ne_zero hz)
    by_contra hmeet
    refine hw.apart file hfile (max start (v.get file .startBlock)) ⟨hz, by omega, by omega⟩ ?_
    exact hfree _ (by omega) (by omega)

/-- The old blocks of a file are put on the list, and copied to blocks that were free. -/
theorem gives_moveFile {v : Vol} {nodes₁ : List Nat} {start stop : Nat}
    (hw : Blocks v nodes lo hi) (hfile : v.IsFile nodes file) (hz : v.get file .size ≠ 0)
    (hpos : 0 < newSize)
    (hmore : blocksOf v.blockSize (v.get file .size) < blocksOf v.blockSize newSize)
    (hstep : FreeStep v t.vol nodes nodes₁ lo hi fun b =>
      v.Free nodes b ∧ ¬ (start ≤ b ∧ b < start + blocksOf v.blockSize newSize))
    (hfree : ∀ b, start ≤ b → b < start + blocksOf v.blockSize newSize → v.Free nodes b)
    (hstart : start ≠ 0) (hend : start + blocksOf v.blockSize newSize ≤ hi)
    (hstop : stop + 1 = start + blocksOf v.blockSize newSize)
    (hrec : t.vol.CanRecord nodes₁ (v.get file .startBlock) (v.get file .endBlock))
    (code : Nat) (entr : Entry) :
    Gives (delFileListAdd entr (v.get file .startBlock) (v.get file .endBlock) >>= fun x =>
        copyBlockM (v.get file .startBlock) start
            (u64 (sub64 (v.get file .endBlock) (v.get file .startBlock) + 1)) >>= fun ret =>
          if ret ≠ 0 then pure (.error code, x.2) else pure (.ok (start, stop), x.2)) t
      fun (r : Except Nat (Nat × Nat) × Entry) t' => ∃ nodes', r.1 = .ok (start, stop) ∧
        v.Moved t'.vol nodes nodes' lo hi file start stop newSize := by
  have hsome := blocksOf_pos hw.geometry.sized.pos (Nat.pos_of_ne_zero hz)
  obtain ⟨hlo, hle, hhi, -⟩ := hw.fileExtent hfile hz
  obtain ⟨hsrc, hdest, hdisj⟩ := hw.copy_fits hfile hz
    (fun b h₁ h₂ => hfree b h₁ (by omega)) (by omega)
  have hown : ∀ b, v.get file .startBlock ≤ b → b ≤ v.get file .endBlock → ¬ v.Free nodes b :=
    fun b h₁ h₂ => hw.apart file hfile b ⟨hz, h₁, h₂⟩
  rw [gives_bind]
  refine (gives_delFileListAdd (hstep.step.area.geometry hw.geometry) hstep.space hlo hle hhi
    fun b h₁ h₂ hb => hown b h₁ h₂ ((hstep.free b).1 hb).1).mono fun ⟨_, entr₁⟩ t₁ h₁ => ?_
  dsimp only at h₁ ⊢
  rcases h₁ with ⟨-, hclean, nodes', hadd⟩ | ⟨-, -, hrec'⟩
  · have hall := hstep.trans (hadd.congr fun b => or_congr_left (hstep.free b))
    have harea := hall.step.area
    rw [hw.extent_count hfile hz, gives_copyBlock hclean (Nat.pos_iff_ne_zero.1 hsome)
      (by rw [harea.blockSize, harea.size]; exact hsrc) hstart
      (by rw [harea.blockSize, harea.entryStart]; exact hdest) hdisj, if_neg (not_not.2 rfl),
      gives_pure]
    exact ⟨nodes', rfl, Vol.Moved.move hw hfile hz hpos rfl hmore hall hfree hstop⟩
  · exact absurd hrec hrec'

/-- A file that needs more blocks gets them, or stays as it is because no free
extent is large enough. -/
theorem gives_growFile (hw : Blocks t.vol nodes lo hi) (hfile : t.vol.IsFile nodes file)
    (hsize : t.vol.blockSize * blocksOf t.vol.blockSize newSize < 18446744073709551616)
    (hmore : blocksOf t.vol.blockSize (t.vol.get file .size) < blocksOf t.vol.blockSize newSize)
    (hsafe : t.vol.GrowsSafely nodes file newSize) (code : Nat) (entr : Entry) :
    Gives (growFile code file (t.vol.get file .startBlock) (t.vol.get file .endBlock) newSize entr)
      t fun r t' => (r.1 = .error eNOSPC ∧ t'.vol = t.vol) ∨
        ∃ start stop nodes', r.1 = .ok (start, stop) ∧
          t.vol.Moved t'.vol nodes nodes' lo hi file start stop newSize := by
  have hpos : 0 < newSize := by
    by_contra hn
    rw [Nat.eq_zero_of_not_pos hn, blocksOf_zero] at hmore
    exact absurd hmore (Nat.not_lt_zero _)
  unfold growFile
  rw [gives_blockSize, gives_bind]
  refine (gives_expandFile hw hfile hsize hmore entr).mono fun ⟨expanded, entr₁⟩ t₁ h₁ => ?_
  dsimp only at h₁ ⊢
  rcases h₁ with ⟨hne, hvol₁, hnone⟩ | ⟨hz, nodes', hmoved⟩
  · rw [if_neg hne, gives_bind]
    rw [← hvol₁] at hw hfile hsize hmore hsafe hnone ⊢
    have hg := hw.geometry
    have hf := hw.space
    have hbs := hg.sized.pos
    have hblocks := blocksOf_pos hbs hpos
    have hbound := hg.block_lt
    have hlo := hg.lo_pos
    refine (gives_delFileListAlloc hg hf (realSize_eq_of_lt hsize) hblocks).mono
      fun ⟨start, entr₂⟩ t₂ h₂ => ?_
    dsimp only at h₂ ⊢
    rcases h₂ with ⟨hz, hvol₂, -, -⟩ | ⟨-, a, ha, hstart, hroom, hgreatest, hvol₂⟩
    · rw [if_pos hz, gives_pure]
      exact Or.inl ⟨rfl, hvol₂⟩
    · have hge := hf.ge a ha
      obtain ⟨hfree, hend⟩ := hf.front_free ha hstart hblocks hroom
      have hstop : endBlockFor t₁.vol.blockSize start newSize + 1
          = start + blocksOf t₁.vol.blockSize newSize :=
        endBlockFor_eq hbs hsize hpos (by omega)
      have hstep := hf.takeFront ha hblocks hroom
      rw [← hvol₂, ← hstart] at hstep
      rw [if_neg (show start ≠ 0 by omega)]
      by_cases hz : t₁.vol.get file .size = 0
      · rw [if_neg (not_not.2 ((hw.start_eq_zero hfile).2 hz)), gives_pure]
        exact Or.inr ⟨_, _, _, rfl, Vol.Moved.first hw hfile hz hpos rfl hstep hfree hstop⟩
      · have hrec : t₂.vol.CanRecord (t₁.vol.nodesAfter nodes a (blocksOf t₁.vol.blockSize newSize))
            (t₁.vol.get file .startBlock) (t₁.vol.get file .endBlock) := by
          rw [hvol₂]
          refine (hsafe hz hmore (hnone hz) ⟨a, ha, hroom⟩).canRecord hf ha hroom hgreatest
            fun hafter => hnone hz a ha ⟨hafter, ?_⟩
          exact Nat.mul_le_mul_left _ (by omega)
        rw [if_pos fun h => hz ((hw.start_eq_zero hfile).1 h)]
        refine (gives_moveFile hw hfile hz hpos hmore hstep hfree (by omega) hend hstop hrec code
          entr₂).mono fun r t' h => ?_
        obtain ⟨nodes', hr, hmoved⟩ := h
        exact Or.inr ⟨_, _, nodes', hr, hmoved⟩
  · rw [if_pos hz, gives_pure]
    exact Or.inr ⟨_, _, nodes', rfl, hmoved⟩

/-- A file gets an extent for its new size, or stays as it is because no free
extent is large enough. -/
theorem gives_extentFor (hw : Blocks t.vol nodes lo hi) (hfile : t.vol.IsFile nodes file)
    (hsize : t.vol.blockSize * blocksOf t.vol.blockSize newSize < 18446744073709551616)
    (hmore : blocksOf t.vol.blockSize (t.vol.get file .size) ≤ blocksOf t.vol.blockSize newSize)
    (hsafe : t.vol.GrowsSafely nodes file newSize) (code : Nat) (entr : Entry) :
    Gives (extentFor code file (t.vol.get file .size) (t.vol.get file .startBlock)
      (t.vol.get file .endBlock) newSize entr) t fun r t' =>
        (r.1 = .error eNOSPC ∧ t'.vol = t.vol) ∨
          ∃ start stop nodes', r.1 = .ok (start, stop) ∧
            t.vol.Moved t'.vol nodes nodes' lo hi file start stop newSize := by
  have hbs := hw.geometry.sized.pos
  have hold := hw.size_lt hfile
  have hdev := hw.geometry.sized.small
  unfold extentFor
  rw [gives_blockSize, realSize_eq_of_lt hsize, realSize_eq hbs (by omega)]
  by_cases hlt : blocksOf t.vol.blockSize (t.vol.get file .size) < blocksOf t.vol.blockSize newSize
  · rw [if_pos ((Nat.mul_lt_mul_left hbs).2 hlt)]
    exact gives_growFile hw hfile hsize hlt hsafe code entr
  · rw [if_neg fun h => hlt ((Nat.mul_lt_mul_left hbs).1 h), gives_pure]
    exact Or.inr ⟨_, _, nodes, rfl, Vol.Moved.stay hw hfile (by omega)⟩

end ExtentFor

end Sfs
