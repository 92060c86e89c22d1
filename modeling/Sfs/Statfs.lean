import Sfs.Audit
import Sfs.Callbacks
import Sfs.Durable
import Sfs.OpenFiles

/-!
# What `statfs` reports

`fuse_sfs_statfs` reads the sizes of the areas from the MBR, and counts the free
blocks and the unused slots by walking the list and the index.

* `scanFreeInode` and `fuseSfsStatfs` are the functions of the source;
* `gives_scanFreeInode` is the walk over the index;
* `Layout.card_slots` shares the slots of the index out: the start slot, the unused
  slots and the slots of the groups;
* `Healthy.readMbr` reads the MBR, also where it is two blocks;
* `statfs_run` says that after every run of operations in order the report adds up.
-/

namespace Sfs

open Lib FileTree Fuse

/-! ## The functions -/

/-- `count_unused_entry`. -/
def countUnusedEntry : Callback Nat := fun entr _ size =>
  if entr.get .entryType = EntryType.unusedEntry.code then pure (0, entr, u64 (size + 1))
  else pure (0, entr, size)

/-- `scan_free_inode`: the number of unused slots. -/
def scanFreeInode (entr : Entry) : SfsM (Nat × Entry) := do
  let (_, entr, size) ← entryParse entr countUnusedEntry 0
  pure (size, entr)

/-- The fields of `struct statvfs` that are set. -/
structure StatVfs where
  bsize : Nat
  frsize : Nat
  blocks : Nat
  bfree : Nat
  bavail : Nat
  files : Nat
  ffree : Nat
  favail : Nat
  fsid : Nat
  flag : Nat
  namemax : Nat

/-- `fuse_sfs_statfs`. -/
def fuseSfsStatfs : FuseM (Int × StatVfs) := do
  let entr ← call uninit
  let mbr ← call uninit
  let (_, mbr) ← call (readDataM 0 mbr mbrSize)
  let bsize ← call blockSize
  let (size, entr) ← call (scanDelFileList entr)
  let (ffree, _) ← call (scanFreeInode entr)
  pure (0, {
    bsize := bsize
    frsize := bsize
    blocks := getLE mbr mbrDataAreaSize 8
    bfree := size / bsize
    bavail := size / bsize
    files := getLE mbr mbrIndexAreaSize 8 / indexEntrySize
    ffree := ffree
    favail := ffree
    fsid := (mbr mbrMagicNumber).toNat
    flag := 0
    namemax := pathMax })

/-! ## Slots of the index -/

/-- The slots before an offset that start with a byte. -/
def Vol.typedBefore (v : Vol) (code off : Nat) : Finset Nat :=
  (Finset.Ico v.fs.entryStart off).filter fun o => o % 64 = 0 ∧ v.type o = code

/-- The slots of the index. -/
def Vol.slots (v : Vol) : Finset Nat :=
  (Finset.Ico v.fs.entryStart v.fs.volIdent).filter fun o => o % 64 = 0

instance (v : Vol) (off : Nat) : Decidable (v.Head off) := inferInstanceAs (Decidable (_ ∨ _ ∨ _))

/-- The heads: files, directories, unlinked files and nodes of the list. -/
def Vol.heads (v : Vol) : Finset Nat := v.slots.filter v.Head

section Slots

variable {v : Vol} {off o code lo hi : Nat}

theorem Vol.mem_slots : o ∈ v.slots ↔ v.Slot o := by
  rw [slots, Finset.mem_filter, Finset.mem_Ico]
  exact ⟨fun h => ⟨h.1.1, h.1.2, h.2⟩, fun h => ⟨⟨h.ge, h.lt⟩, h.aligned⟩⟩

theorem Vol.mem_heads : o ∈ v.heads ↔ v.Slot o ∧ v.Head o := by
  rw [heads, Finset.mem_filter, mem_slots]

theorem Vol.typedBefore_succ (hoff : v.Slot off) :
    (v.typedBefore code (off + 64)).card
      = (v.typedBefore code off).card + if v.type off = code then 1 else 0 := by
  have hal := hoff.aligned
  have hge := hoff.ge
  split
  case isTrue ht =>
    have hset : v.typedBefore code (off + 64) = insert off (v.typedBefore code off) := by
      ext o
      simp only [typedBefore, Finset.mem_insert, Finset.mem_filter, Finset.mem_Ico]
      constructor
      · intro ⟨⟨hge', hlt⟩, hal', hto⟩
        by_cases heq : o = off
        · exact Or.inl heq
        · exact Or.inr ⟨⟨hge', by omega⟩, hal', hto⟩
      · rintro (rfl | ⟨⟨hge', hlt⟩, hrest⟩)
        · exact ⟨⟨hge, by omega⟩, hal, ht⟩
        · exact ⟨⟨hge', by omega⟩, hrest⟩
    rw [hset, Finset.card_insert_of_notMem]
    simp [typedBefore]
  case isFalse ht =>
    refine (congrArg Finset.card (Finset.ext fun o => ?_)).trans (Nat.add_zero _).symm
    simp only [typedBefore, Finset.mem_filter, Finset.mem_Ico]
    constructor
    · intro ⟨⟨hge', hlt⟩, hal', hto⟩
      have hne : o ≠ off := fun heq => ht (heq ▸ hto)
      exact ⟨⟨hge', by omega⟩, hal', hto⟩
    · exact fun ⟨⟨hge', hlt⟩, hrest⟩ => ⟨⟨hge', by omega⟩, hrest⟩

theorem Vol.typedBefore_unused :
    v.typedBefore EntryType.unusedEntry.code v.fs.volIdent = v.unusedSlots := by
  ext o
  rw [mem_unusedSlots, typedBefore, Finset.mem_filter, Finset.mem_Ico]
  exact ⟨fun h => ⟨⟨h.1.1, h.1.2, h.2.1⟩, h.2.2⟩, fun h => ⟨⟨h.1.ge, h.1.lt⟩, h.1.aligned, h.2⟩⟩

/-- The index has one slot in 64 bytes. -/
theorem Vol.card_slots (ha : Area v) : 64 * v.slots.card = v.fs.volIdent - v.fs.entryStart := by
  have h₁ := ha.start_aligned
  have h₂ := ha.aligned
  have h₃ := ha.nonempty
  have hset : v.slots = (Finset.range ((v.fs.volIdent - v.fs.entryStart) / 64)).image
      fun j => v.fs.entryStart + 64 * j := by
    ext o
    simp only [slots, Finset.mem_filter, Finset.mem_Ico, Finset.mem_image, Finset.mem_range]
    constructor
    · intro ⟨⟨hge, hlt⟩, hal⟩
      exact ⟨(o - v.fs.entryStart) / 64, by omega, by omega⟩
    · rintro ⟨j, hj, rfl⟩
      omega
  rw [hset, Finset.card_image_of_injective, Finset.card_range]
  · omega
  · intro i j hij
    dsimp only at hij
    omega

/-- A slot is the start slot, unused, or of one group. -/
theorem Layout.card_slots (hl : Layout v) (ha : Area v) :
    v.slots.card = 1 + v.unusedSlots.card + ∑ o ∈ v.heads, (v.cont o + 1) := by
  have hstart : v.Slot v.fs.entryStart :=
    ⟨Nat.le_refl _, ha.nonempty, ha.start_aligned⟩
  have hgroup : ∀ {a o}, a ∈ v.heads → o ∈ v.groupSlots a → v.Slot o := by
    intro a o ha' ho
    obtain ⟨hslot, hhead⟩ := Vol.mem_heads.1 ha'
    obtain ⟨j, hj, rfl⟩ := Vol.mem_groupSlots.1 ho
    have hge := hslot.ge
    have hal := hslot.aligned
    have hend := hl.inside a hslot hhead
    rw [Vol.groupEnd] at hend
    exact ⟨by omega, by omega, by omega⟩
  have hnot : ∀ {a o}, a ∈ v.heads → o ∈ v.groupSlots a → IsType (v.type o) → o = a := by
    intro a o ha' ho ht
    obtain ⟨hslot, hhead⟩ := Vol.mem_heads.1 ha'
    obtain ⟨j, hj, rfl⟩ := Vol.mem_groupSlots.1 ho
    cases j with
    | zero => rfl
    | succ j => exact absurd ht (hl.pieces a hslot hhead j hj)
  have hall : v.slots = insert v.fs.entryStart (v.unusedSlots ∪ v.heads.biUnion v.groupSlots) := by
    ext o
    rw [Vol.mem_slots, Finset.mem_insert, Finset.mem_union, Vol.mem_unusedSlots, Finset.mem_biUnion]
    constructor
    · intro ho
      by_cases hfirst : o = v.fs.entryStart
      · exact Or.inl hfirst
      refine Or.inr ?_
      by_cases ht : IsType (v.type o)
      · rcases hl.known o ho hfirst ht with hu | hh
        · exact Or.inl ⟨ho, hu⟩
        · exact Or.inr ⟨o, Vol.mem_heads.2 ⟨ho, hh⟩, Vol.mem_groupSlots.2 ⟨0, Nat.zero_le _, rfl⟩⟩
      · obtain ⟨head, hslot, hhead, hlt, hin⟩ := hl.covered o ho ht
        have hal := ho.aligned
        have hal' := hslot.aligned
        rw [Vol.groupEnd] at hin
        exact Or.inr ⟨head, Vol.mem_heads.2 ⟨hslot, hhead⟩,
          Vol.mem_groupSlots.2 ⟨(o - head) / 64, by omega, by omega⟩⟩
    · rintro (rfl | ⟨ho, -⟩ | ⟨a, ha', ho⟩)
      · exact hstart
      · exact ho
      · exact hgroup ha' ho
  have hfirst : v.fs.entryStart ∉ v.unusedSlots ∪ v.heads.biUnion v.groupSlots := by
    rw [Finset.mem_union, Vol.mem_unusedSlots, Finset.mem_biUnion]
    rintro (⟨-, hu⟩ | ⟨a, ha', ho⟩)
    · exact absurd (hl.start.symm.trans hu) (by decide)
    · have heq := hnot ha' ho (by rw [hl.start]; exact isType_code _)
      have hhead := (Vol.mem_heads.1 ha').2
      rw [← heq] at hhead
      rcases hhead with h | h | h <;> exact absurd (hl.start.symm.trans h) (by decide)
  have hapart : Disjoint v.unusedSlots (v.heads.biUnion v.groupSlots) := by
    rw [Finset.disjoint_left]
    intro o hu ho
    obtain ⟨a, ha', ho⟩ := Finset.mem_biUnion.1 ho
    have hu := (Vol.mem_unusedSlots.1 hu).2
    have heq := hnot ha' ho (by rw [hu]; exact isType_code _)
    have hhead := (Vol.mem_heads.1 ha').2
    rw [← heq] at hhead
    rcases hhead with h | h | h <;> exact absurd (hu.symm.trans h) (by decide)
  have hgroups : (v.heads : Set Nat).PairwiseDisjoint v.groupSlots := by
    intro a ha' b hb hne
    obtain ⟨hslot, hhead⟩ := Vol.mem_heads.1 ha'
    obtain ⟨hslot', hhead'⟩ := Vol.mem_heads.1 hb
    refine Finset.disjoint_left.2 fun o ho ho' => hne ?_
    obtain ⟨j, hj, rfl⟩ := Vol.mem_groupSlots.1 ho
    obtain ⟨j', hj', heq⟩ := Vol.mem_groupSlots.1 ho'
    have hal := hslot.aligned
    have hal' := hslot'.aligned
    have hin : a + 64 * j < v.groupEnd a := by
      rw [Vol.groupEnd]
      omega
    have hin' : a + 64 * j < v.groupEnd b := by
      rw [Vol.groupEnd]
      omega
    exact hl.cover_unique hslot hhead hslot' hhead' (Nat.le_add_right _ _) hin (by omega) hin'
  rw [hall, Finset.card_insert_of_notMem hfirst, Finset.card_union_of_disjoint hapart,
    Finset.card_biUnion hgroups]
  simp only [Vol.card_groupSlots]
  omega

end Slots

/-! ## The walks -/

section Walks

variable {t : Img} {v : Vol} {nodes : List Nat} {lo hi : Nat}

/-- `scan_free_inode` counts the unused slots. -/
theorem gives_scanFreeInode (ha : Area t.vol) (entr : Entry) :
    Gives (scanFreeInode entr) t fun r t' => t'.vol = t.vol ∧ r.1 = t.vol.unusedSlots.card := by
  have hsmall := ha.sized.small
  have hin := ha.inside
  have hlt : ∀ off, off ≤ t.vol.fs.volIdent →
      (t.vol.typedBefore EntryType.unusedEntry.code off).card < 9223372036854775808 := by
    intro off hoff
    refine Nat.lt_of_le_of_lt (Finset.card_filter_le _ _) ?_
    rw [Nat.card_Ico]
    omega
  have hcall : CallbackSpec t.vol countUnusedEntry
      (fun off size => size = (t.vol.typedBefore EntryType.unusedEntry.code off).card)
      fun _ _ _ => False := by
    intro off hoff entr size hsize t' hvol
    have hsucc : (t.vol.typedBefore EntryType.unusedEntry.code (off + 64)).card = _ :=
      Vol.typedBefore_succ hoff
    have hbound := hlt off (Nat.le_of_lt hoff.lt)
    unfold countUnusedEntry
    rw [Vol.get_load]
    by_cases htype : t.vol.type off = EntryType.unusedEntry.code
    · rw [if_pos htype, gives_pure]
      refine ⟨hvol, Or.inr ⟨rfl, ?_⟩⟩
      dsimp only
      rw [hsize, hsucc, if_pos htype, u64_of_lt (by omega)]
    · rw [if_neg htype, gives_pure]
      refine ⟨hvol, Or.inr ⟨rfl, ?_⟩⟩
      dsimp only
      rw [hsize, hsucc, if_neg htype, Nat.add_zero]
  have hempty : t.vol.typedBefore EntryType.unusedEntry.code t.vol.fs.entryStart = ∅ := by
    rw [Vol.typedBefore, Finset.Ico_self, Finset.filter_empty]
  unfold scanFreeInode
  rw [gives_bind]
  refine (gives_entryParse ha hcall entr 0 ?_).mono fun ⟨_, entr', size⟩ t' h => ?_
  · rw [hempty, Finset.card_empty]
  · obtain ⟨hvol, ⟨-, hsize⟩ | ⟨-, hfalse⟩⟩ := h
    · rw [gives_pure, ← Vol.typedBefore_unused]
      exact ⟨hvol, hsize⟩
    · exact hfalse.elim

theorem ignores_blockSize {α : Type} {f : Nat → SfsM α} (h : Ignores v hi (f v.blockSize)) :
    Ignores v hi (blockSize >>= f) := by
  intro s hs
  have hbs : s.dev.blockSize = v.blockSize := congrArg Vol.blockSize hs.vol
  have hrun := h s hs
  rw [← hbs] at hrun
  exact hrun

/-- `scan_del_file_list` reads the index first, or nothing. -/
theorem ignores_scanDelFileList (hg : Geometry v lo hi) (hf : FreeList v nodes) (entr : Entry) :
    Ignores v hi (scanDelFileList entr) := by
  unfold scanDelFileList
  refine ignores_unit (ignores_blockSize ?_)
  rw [watchdogStart, if_pos (Nat.le_of_lt hg.nonempty), Nat.add_comm, scanDelFileListLoop]
  by_cases hz : v.fs.delBegin = 0
  · rw [if_pos hz]
    exact (ignores_setErrno 0).bind fun _ => ignores_pure _
  · have hslot := hf.slot _ (hf.chain.first_mem hz)
    rw [if_neg hz]
    exact (((reloads_readEntry hg hslot).bind _).bind _).ignores

/-- `scan_free_inode` reads the index first. -/
theorem ignores_scanFreeInode (hg : Geometry v lo hi) (entr : Entry) :
    Ignores v hi (scanFreeInode entr) :=
  ((reloads_entryParse hg _ _).bind _).ignores

end Walks

/-! ## The MBR -/

/-- A read from the start of the device is exact, over one block or more. -/
theorem readData_start {dev : BlockDev} {n : Nat} (hq : dev.Quiet) (hc : dev.Coherent)
    (hbs : 0 < dev.blockSize) (hsmall : dev.blockSize < 9223372036854775808)
    (hlt : n < 9223372036854775808) (hrange : dev.HasRange 0 n) (data : Mem) :
    (readData dev 0 data n).1 = n ∧ ∀ k, k < n → (readData dev 0 data n).2.1 k = dev.data k := by
  have hmod : 0 % dev.blockSize = 0 := Nat.zero_mod _
  have hdiv : 0 / dev.blockSize = 0 := Nat.zero_div _
  by_cases hfits : n ≤ dev.blockSize
  · obtain ⟨dev', hrun, -⟩ := @readData_of_fits _ 0 n hq hc hsmall
      (hrange _ (Nat.le_refl _) (Nat.div_le_div_right (by omega)))
      (by rw [hmod, Nat.zero_add]; exact hfits) data
    rw [hrun]
    refine ⟨rfl, fun k hk => ?_⟩
    dsimp only
    rw [blit_inside (Nat.zero_le k) (by omega), Nat.zero_add, Nat.sub_zero]
  · obtain ⟨dev', hrun, -⟩ := @readData_of_spans _ 0 n hq hc hbs hrange
      (by rw [hmod]; omega) (by rw [hmod, Nat.zero_add]; omega) data
    rw [hrun]
    refine ⟨rfl, fun k hk => ?_⟩
    dsimp only
    rw [hmod, hdiv, Nat.zero_add, Nat.sub_zero, Nat.add_zero, Nat.one_mul]
    by_cases hfirst : k < dev.blockSize
    · rw [blit_outside (by omega), blit_inside (Nat.zero_le k) (by omega), Nat.zero_add,
        Nat.sub_zero]
    · rw [blit_inside (by omega) (by omega)]
      congr 1
      omega

/-- The MBR, which may be two blocks. -/
theorem Healthy.readMbr {s : Sys} {v : Vol} {lo hi : Nat} (h : Healthy v s) (hg : Geometry v lo hi)
    (hle : 512 ≤ v.fs.entryStart) (data : Mem) :
    ∃ m s', s.exec (readDataM 0 data mbrSize) = some ((mbrSize, m), s') ∧ Rests v hi s' ∧
      ∀ k, k < 512 → m k = v.data k := by
  obtain ⟨r, s', hrun, hrests⟩ := h.readData hg (n := mbrSize) (by rwa [Nat.zero_add]) data
  have hdevbs : s.dev.blockSize = v.blockSize := congrArg Vol.blockSize h.vol
  have hdata : s.dev.data = v.data := congrArg Vol.data h.vol
  have hbs := hg.sized.pos
  have hle' := hg.blockSize_le
  have hsmall := hg.sized.small
  obtain ⟨hret, hbytes⟩ := readData_start h.quiet h.coherent (by rw [hdevbs]; exact hbs)
    (by rw [hdevbs]; omega) (show mbrSize < 9223372036854775808 by decide)
    (h.hasRange hg (by rwa [Nat.zero_add])) data
  have hexec : s.exec (readDataM 0 data mbrSize)
      = some (((Sfs.readData s.dev 0 data mbrSize).1,
          (Sfs.readData s.dev 0 data mbrSize).2.1), { s with
          dev := (Sfs.readData s.dev 0 data mbrSize).2.2
          errno := s.errnoAfter ((Sfs.readData s.dev 0 data mbrSize).1 == minusOne) }) :=
    Prog.exec_perform Sys.handle (.readData 0 data mbrSize) s
  rw [hexec] at hrun
  obtain ⟨rfl, rfl⟩ := Prod.mk.inj (Option.some.inj hrun)
  refine ⟨_, _, ?_, hrests, fun k hk => (hbytes k hk).trans (by rw [hdata])⟩
  rw [hexec, hret]

/-! ## The report -/

/-- The report is about the volume: the free blocks and those of the files that are not
empty make up the data area, and the unused slots, the start slot, the slot of the
volume identifier and the slots of the groups make up the index area. -/
structure StatVfs.Reports (st : StatVfs) (V : View) (opts : SfsOptions) : Prop where
  bsize : st.bsize = V.vol.blockSize
  frsize : st.frsize = st.bsize
  blocks : st.blocks = opts.dataSize
  bfree : st.bfree
      + ∑ o ∈ V.heldFiles.filter (fun o => V.vol.get o .size ≠ 0), V.vol.extent o = st.blocks
  bavail : st.bavail = st.bfree
  files : 64 * st.files = opts.indexSize
  ffree : st.ffree = V.vol.unusedSlots.card
  slots : st.ffree + 2 + ∑ o ∈ V.vol.heads, (V.vol.cont o + 1) = st.files
  favail : st.favail = st.ffree
  rest : st.fsid = 83 ∧ st.flag = 0 ∧ st.namemax = 4096

/-- What the walk over the list gives, divided by the size of a block. -/
theorem u64_mul_div {bs n : Nat} (hbs : 0 < bs) (hlt : bs * n < 18446744073709551616) :
    u64 (bs * n) / bs = n := by
  rw [u64_of_lt hlt, Nat.mul_div_cancel_left n hbs]

section Report

variable {s : Fuse} {V : View} {opts : SfsOptions}

/-- The fields that come from the MBR, once it is read. -/
theorem View.Formatted.fields (hf : V.Formatted opts) (hbs : 0 < V.vol.blockSize) {m : Mem}
    (hm : ∀ k, k < 512 → m k = V.vol.data k) :
    getLE m mbrDataAreaSize 8 = opts.dataSize ∧ getLE m mbrIndexAreaSize 8 = opts.indexSize ∧
      m mbrMagicNumber = mbrImage opts mbrMagicNumber := by
  have heq : ∀ off n, off + n ≤ 512 → getLE m off n = getLE (mbrImage opts) off n :=
    fun off n hle => getLE_congr fun k hk => (hm (off + k) (by omega)).trans (hf.mbr _ (by omega))
  obtain ⟨hdata, hindex, -⟩ := mbrImage_fields hf.consistent hbs
  exact ⟨(heq _ _ (by decide)).trans hdata, (heq _ _ (by decide)).trans hindex,
    (hm _ (by decide)).trans (hf.mbr _ (by decide))⟩

theorem View.Formatted.mbr_le {lo hi : Nat} (hf : V.Formatted opts) (hV : V.Sound lo hi)
    (hlo : lo = opts.reservedSize) : 512 ≤ V.vol.fs.entryStart := by
  have hmbr := hf.consistent.mbr
  rw [← hlo] at hmbr
  have hlt := hV.geometry.lt_entryStart (k := 511) (by omega)
  omega

/-- The free blocks are less than the bytes of a device. -/
theorem View.Formatted.freeBytes_lt (hf : V.Formatted opts)
    (hV : V.Sound opts.reservedSize (opts.reservedSize + opts.dataSize)) :
    V.vol.blockSize * V.vol.freeBlocks V.nodes < 9223372036854775808 := by
  have hsum := hf.covered.sum_held hV
  rw [Nat.add_sub_cancel_left] at hsum
  have hfew : V.vol.freeBlocks V.nodes ≤ opts.totalBlock := by
    rw [← hf.consistent.sum]
    exact Nat.le_trans (hsum ▸ Nat.le_add_right _ _)
      (Nat.le_trans (Nat.le_add_left _ _) (Nat.le_add_right _ _))
  calc V.vol.blockSize * V.vol.freeBlocks V.nodes
      ≤ V.vol.blockSize * opts.totalBlock := Nat.mul_le_mul_left _ hfew
    _ = V.vol.size := by rw [Nat.mul_comm, hf.consistent.total]
    _ < 9223372036854775808 := hf.consistent.small

/-- `fuse_sfs_statfs` on a device that rests with a coherent cache. -/
theorem leads_fuseSfsStatfs (h : Healthy V.vol s.sys)
    (hV : V.Sound opts.reservedSize (opts.reservedSize + opts.dataSize)) (hf : V.Formatted opts) :
    Leads fuseSfsStatfs s fun r s' => r.1 = 0 ∧ r.2.Reports V opts ∧
      s' = { s with sys := s'.sys } ∧
      Rests V.vol (opts.reservedSize + opts.dataSize) s'.sys := by
  have hg := hV.geometry
  have hbs := hg.sized.pos
  have hlist := hV.space
  have hmbr := hf.mbr_le hV rfl
  obtain ⟨m, s₁, hrun₁, hrests₁, hm⟩ := h.readMbr hg hmbr s.sys.stack
  obtain ⟨r₂, s₂, t₂, hrun₂, ⟨hvol₂, hfree⟩, hrests₂, -⟩ := hrests₁.exec hg.sized
    (ignores_scanDelFileList hg hlist.toFreeList s.sys.stack) fun t ht =>
      ht ▸ gives_scanDelFileList (t := t) s.sys.stack (ht ▸ hg) (ht ▸ hlist)
  rw [hvol₂] at hrests₂
  obtain ⟨r₃, s₃, t₃, hrun₃, ⟨hvol₃, hunused⟩, hrests₃, -⟩ := hrests₂.exec hg.sized
    (ignores_scanFreeInode hg r₂.2) fun t ht =>
      ht ▸ gives_scanFreeInode (t := t) (ht ▸ hg.area) r₂.2
  rw [hvol₃] at hrests₃
  obtain ⟨hdata, hindex, hmagic⟩ := hf.fields hbs hm
  have hsum := hf.covered.sum_held hV
  have hslots := V.vol.card_slots hg.area
  have hshare := hV.layout.card_slots hg.area
  have hend := hf.described.index
  have hmagicByte : mbrImage opts mbrMagicNumber = 0x53 := by
    simp [mbrImage, mbrBlock, putLE, mbrMagicNumber, mbrTotalSize, mbrReservedSize, mbrBlockSize,
      mbrChecksum]
  unfold fuseSfsStatfs
  rw [leads_call_eq (show s.sys.exec uninit = some (s.sys.stack, s.sys) from rfl),
    leads_call_eq (show s.sys.exec uninit = some (s.sys.stack, s.sys) from rfl),
    leads_call_eq hrun₁,
    leads_call_eq (show s₁.exec blockSize = some (s₁.dev.blockSize, s₁) from rfl),
    leads_call_eq hrun₂, leads_call_eq hrun₃, leads_pure]
  have hbsize : s₁.dev.blockSize = V.vol.blockSize :=
    congrArg Vol.blockSize (hrests₁.elim (fun h => h.vol) fun h => h.vol)
  have hsize : V.vol.blockSize * V.vol.freeBlocks V.nodes < 18446744073709551616 :=
    Nat.lt_trans (hf.freeBytes_lt hV) (by decide)
  have hfiles : opts.indexSize = 64 * V.vol.slots.card + 64 := by
    rw [(hf.fields hbs fun _ _ => rfl).2.1] at hend
    have hlt := hg.nonempty
    omega
  refine ⟨rfl, ?_, rfl, hrests₃⟩
  constructor
  case bsize => exact hbsize
  case frsize => rfl
  case blocks => exact hdata
  case bfree =>
    dsimp only
    rw [hfree, hbsize, u64_mul_div hbs hsize, hdata, hsum, Nat.add_sub_cancel_left]
  case bavail => rfl
  case files =>
    dsimp only
    rw [hindex, hfiles]
    show 64 * ((64 * V.vol.slots.card + 64) / 64) = 64 * V.vol.slots.card + 64
    omega
  case ffree => exact hunused
  case slots =>
    dsimp only
    rw [hindex, hunused, hfiles, hshare]
    show V.vol.unusedSlots.card + 2 + _ = (64 * _ + 64) / 64
    omega
  case favail => rfl
  case rest => exact ⟨by rw [hmagic, hmagicByte]; rfl, rfl, rfl⟩

end Report

/-- In every state that operations in order reach from the first mount on, provided that
they do not damage the volume, `fuse_sfs_statfs` answers, and its report is about the
volume. -/
theorem statfs_run {opts : SfsOptions} {bs : Nat} {s : Sys} (hs : FreshlyMounted opts bs s)
    {ops : List Op} (hops : MeetsOps (fun v p op => op.Accepts v p ∧ op.Safe v) ⟨s, []⟩ ops)
    (n : Nat) :
    ∃ s' nodes, run Op.step ⟨s, []⟩ (ops.take n) = some s' ∧ FreeList s'.sys.vol nodes ∧
      ∀ f : Fuse, f.sys = s'.sys → Leads fuseSfsStatfs f fun r f' =>
        r.1 = 0 ∧ r.2.Reports ⟨s'.sys.vol, nodes, s'.pending⟩ opts ∧
          f'.sys.vol = s'.sys.vol ∧ f'.map = f.map := by
  obtain ⟨s', V', hrun, hat', hV', hf⟩ := run_changes (I := fun V => V.Formatted opts)
    (fun _ _ _ _ h => h) (fun _ _ _ hV hI _ hch => hch.formatted hV hI)
    hs.start.1 hs.start.2 hs.formatted hops n
  refine ⟨s', V'.nodes, hrun, ?_, fun f hsys => ?_⟩
  · rw [hat'.vol]
    exact hV'.space.toFreeList
  have hhealthy : Healthy V'.vol f.sys := by
    rw [hsys]
    exact ⟨hat'.vol, hat'.quiet, hat'.coherent⟩
  refine (leads_fuseSfsStatfs hhealthy hV' hf).mono fun r f' ⟨hret, hreports, hmap, hrests⟩ => ?_
  refine ⟨hret, ?_, ?_, (congrArg Fuse.map hmap :)⟩
  · rw [hat'.vol, hat'.pending]
    exact hreports
  · rw [hat'.vol]
    exact hrests.elim (fun h => h.vol) fun h => h.vol

theorem statfs_run_pathA :
    ∃ s, FreshlyMounted blankOpts 512 s ∧ ∃ s' nodes,
      run Op.step ⟨s, []⟩ ([Op.creat pathA, .write 3776 (fun _ => 7) 600 0].take 2) = some s' ∧
      FreeList s'.sys.vol nodes ∧
      ∀ f : Fuse, f.sys = s'.sys → Leads fuseSfsStatfs f fun r f' =>
        r.1 = 0 ∧ r.2.Reports ⟨s'.sys.vol, nodes, s'.pending⟩ blankOpts ∧
          f'.sys.vol = s'.sys.vol ∧ f'.map = f.map := by
  have hsome : blankMounted.isSome = true := by decide +kernel
  obtain ⟨s, hmount⟩ := Option.isSome_iff_exists.1 hsome
  have hops : MeetsOps (fun v p op => op.Accepts v p ∧ op.Light v) ⟨s, []⟩
      [.creat pathA, .write 3776 (fun _ => 7) 600 0] := blankRun_meets hmount (by decide +kernel)
  have hfresh := blankMounted_fresh hmount
  exact ⟨s, hfresh, statfs_run hfresh (hops.mono fun _ _ hop => ⟨hop.1, hop.2.safe⟩) 2⟩

end Sfs
