import Sfs.Mount
import Sfs.Scan
import Sfs.FreeList

/-!
# Unmounting and mounting again

`del_begin` is not on the disk.  `sfs_init` takes the first slot of type
`DEL_FILE_ENTRY` whose `time_stamp` is 0 for the head of the list, and on a
well-formed volume the head is the only such slot: the nodes behind it have a
previous node, and a file that was unlinked has a time stamp.

* `Described` says that the MBR of the disk describes the areas of the volume;
* `gives_sfsInit` is `sfs_init` on a disk with a given MBR and list;
* `remount` is `sfs_release` followed by `sfs_init`.
-/

namespace Sfs

open Lib

/-! ## The MBR -/

/-- The block size that the MBR states. -/
def mbrBlockBytes (data : Mem) : Nat := 128 * 2 ^ getLE data mbrBlockSize 1

/-- The device has a valid MBR, which describes the areas of the volume. -/
structure Described (v : Vol) : Prop where
  inside : 512 ≤ v.size
  checksum : getLE v.data mbrChecksum 1
    = calcChecksum (fun i => v.data (mbrMagicNumber + i)) (getLE v.data mbrSfsVersion 1)
        (getLE v.data mbrTotalSize 8) (getLE v.data mbrReservedSize 4)
        (getLE v.data mbrBlockSize 1)
  blockSize : mbrBlockBytes v.data = v.blockSize
  reserved : getLE v.data mbrReservedSize 4 * mbrBlockBytes v.data < 4294967296
  entryStart : v.fs.entryStart
    = (getLE v.data mbrReservedSize 4 + getLE v.data mbrDataAreaSize 8) * mbrBlockBytes v.data
  index : v.fs.entryStart + getLE v.data mbrIndexAreaSize 8 = v.fs.volIdent + 64

/-- A store outside the MBR does not matter. -/
theorem Described.congr {v v' : Vol} (h : Described v) (ha : SameArea v v')
    (heq : ∀ k, 412 ≤ k → k < 446 → v'.data k = v.data k) : Described v' := by
  have hnum : ∀ off n, 412 ≤ off → off + n ≤ 446 → getLE v'.data off n = getLE v.data off n := by
    intro off n h₁ h₂
    exact getLE_congr fun k hk => heq (off + k) (by omega) (by omega)
  have hblock : getLE v'.data mbrBlockSize 1 = getLE v.data mbrBlockSize 1 :=
    hnum _ _ (by decide) (by decide)
  have hbytes : mbrBlockBytes v'.data = mbrBlockBytes v.data := by
    rw [mbrBlockBytes, mbrBlockBytes, hblock]
  have hmagic : ∀ a b c d, calcChecksum (fun i => v'.data (mbrMagicNumber + i)) a b c d
      = calcChecksum (fun i => v.data (mbrMagicNumber + i)) a b c d := by
    intro a b c d
    simp only [calcChecksum]
    rw [heq _ (by decide) (by decide), heq _ (by decide) (by decide),
      heq _ (by decide) (by decide)]
  have hreserved : getLE v'.data mbrReservedSize 4 = getLE v.data mbrReservedSize 4 :=
    hnum _ _ (by decide) (by decide)
  refine ⟨by rw [ha.size]; exact h.inside, ?_, by rw [hbytes, ha.blockSize]; exact h.blockSize,
    by rw [hreserved, hbytes]; exact h.reserved, ?_, ?_⟩
  · rw [hnum mbrChecksum 1 (by decide) (by decide), hnum mbrSfsVersion 1 (by decide) (by decide),
      hnum mbrTotalSize 8 (by decide) (by decide), hreserved, hblock, hmagic]
    exact h.checksum
  · rw [ha.entryStart, hreserved, hnum mbrDataAreaSize 8 (by decide) (by decide), hbytes]
    exact h.entryStart
  · rw [ha.entryStart, ha.volIdent, hnum mbrIndexAreaSize 8 (by decide) (by decide)]
    exact h.index

section ReadMbr

variable {t : Img} {α : Type} {Q : α → Img → Prop}

/-- A number inside one slot, read. -/
theorem gives_readNum {off n : Nat} {f : Option Nat → SfsM α} (hs : t.vol.Sized)
    (hsee : t.indexOnly = false ∨ off = 0 ∨ t.vol.fs.entryStart ≤ off) (hn : off % 64 + n ≤ 64)
    (hoff : off < t.vol.size) :
    Gives (readNum off n >>= f) t Q ↔
      Gives (f (some (getLE t.vol.data off n))) { t with clean := false } Q := by
  have hload : getLE (blit (fun _ => 0) 0 t.vol.data off n) 0 n = getLE t.vol.data off n :=
    getLE_congr fun k hk => by
      rw [Nat.zero_add, blit_inside (Nat.zero_le k) (by omega), Nat.sub_zero]
  rw [gives_bind]
  unfold readNum
  rw [gives_readData hs hsee hn hoff]
  dsimp only
  rw [if_neg (ne_minusOne (by omega)), gives_pure, hload]

/-- The fields of the MBR of a disk. -/
def mbrFields (data : Mem) : MbrFields where
  dataAreaSize := getLE data mbrDataAreaSize 8
  indexAreaSize := getLE data mbrIndexAreaSize 8
  reservedSize := getLE data mbrReservedSize 4
  magicNumber := blit (fun _ => 0) 0 data mbrMagicNumber 3
  sfsV := getLE data mbrSfsVersion 1
  checksum := getLE data mbrChecksum 1
  totalSize := getLE data mbrTotalSize 8
  bSizeP2 := getLE data mbrBlockSize 1

theorem gives_readMbr {f : Option MbrFields → SfsM α} (hs : t.vol.Sized)
    (hsee : t.indexOnly = false) (hsize : 446 ≤ t.vol.size) :
    Gives (readMbr >>= f) t Q ↔
      Gives (f (some (mbrFields t.vol.data))) { t with clean := false } Q := by
  have hrule : ∀ {off n : Nat} {β : Type} {g : Option Nat → SfsM β} {R : β → Img → Prop},
      off % 64 + n ≤ 64 → off < 446 → ∀ u : Img, u.vol = t.vol → u.indexOnly = t.indexOnly →
        (Gives (readNum off n >>= g) u R ↔
          Gives (g (some (getLE t.vol.data off n))) { u with clean := false } R) := by
    intro off n β g R hn hoff u hu hindex
    rw [gives_readNum (by rw [hu]; exact hs) (Or.inl (hindex.trans hsee)) hn (by rw [hu]; omega),
      hu]
  rw [gives_bind]
  unfold readMbr
  rw [hrule (by decide) (by decide) t rfl rfl]
  dsimp only
  rw [hrule (by decide) (by decide) { t with clean := false } rfl rfl]
  dsimp only
  rw [hrule (by decide) (by decide) { t with clean := false } rfl rfl]
  dsimp only
  have hmagic : mbrMagicNumber < t.vol.size := Nat.lt_of_lt_of_le (by decide) hsize
  rw [gives_readData (t := { t with clean := false }) hs (Or.inl hsee) (by decide) hmagic]
  dsimp only
  rw [if_neg (by decide), hrule (by decide) (by decide) { t with clean := false } rfl rfl]
  dsimp only
  rw [hrule (by decide) (by decide) { t with clean := false } rfl rfl]
  dsimp only
  rw [hrule (by decide) (by decide) { t with clean := false } rfl rfl]
  dsimp only
  rw [hrule (by decide) (by decide) { t with clean := false } rfl rfl]
  dsimp only
  rw [gives_pure]
  rfl

end ReadMbr

/-! ## The head of the list -/

/-- The slot looks to `sfs_init` like the head of the list. -/
def Vol.Begins (v : Vol) (off : Nat) : Prop :=
  v.type off = EntryType.delFileEntry.code ∧ v.prev off = 0

/-- `search_begin` finds the first slot that looks like the head. -/
theorem searchBegin_spec (v : Vol) :
    CallbackSpec v searchBegin
      (fun off _ => ∀ o, v.Slot o → o < off → ¬ v.Begins o) fun off _ _ => v.Begins off := by
  intro off hslot entr data hinv t ht
  have hal := hslot.aligned
  have hnext : ¬ v.Begins off → ∀ o, v.Slot o → o < off + 64 → ¬ v.Begins o := by
    intro hnot o ho hlt hb
    have hal' := ho.aligned
    rcases Nat.lt_or_ge o off with h | h
    · exact hinv o ho h hb
    · obtain rfl : o = off := by omega
      exact hnot hb
  unfold searchBegin
  rw [Vol.get_load, Vol.get_load]
  by_cases htype : v.type off = EntryType.delFileEntry.code
  · rw [if_neg (not_not.2 htype)]
    by_cases hprev : v.prev off = 0
    · rw [if_pos hprev, gives_pure]
      exact ⟨ht, Or.inl ⟨Int.one_ne_zero, htype, hprev⟩⟩
    · rw [if_neg hprev, gives_pure]
      exact ⟨ht, Or.inr ⟨rfl, hnext fun h => hprev h.2⟩⟩
  · rw [if_pos htype, gives_pure]
    exact ⟨ht, Or.inr ⟨rfl, hnext fun h => htype h.1⟩⟩

/-- The slots whose first byte is that of a deleted file are the nodes of the
list, from `first` on, and unlinked files with a time stamp. -/
structure ListAt (v : Vol) (first : Nat) (nodes : List Nat) : Prop where
  chain : Chain v.next v.prev 0 first nodes
  slot : ∀ off, off ∈ nodes → v.Slot off
  type : ∀ off, off ∈ nodes → v.type off = EntryType.delFileEntry.code
  only : ∀ off, v.Slot off → v.type off = EntryType.delFileEntry.code → off ∉ nodes →
    v.get off .timeStamp ≠ 0

/-- The head is the only slot that looks like one. -/
theorem ListAt.begins_iff {v : Vol} {first off : Nat} {nodes : List Nat} (h : ListAt v first nodes)
    (hoff : v.Slot off) : v.Begins off ↔ off ∈ nodes ∧ off = first := by
  constructor
  · intro ⟨htype, hprev⟩
    have hmem : off ∈ nodes := by
      by_contra hnot
      exact h.only off hoff htype hnot hprev
    exact ⟨hmem, (h.chain.prev_eq_zero hmem).1 hprev⟩
  · intro ⟨hmem, heq⟩
    exact ⟨h.type off hmem, (h.chain.prev_eq_zero hmem).2 heq⟩

/-- A mounting scan finds the head of the list, or 0 when there is none. -/
theorem gives_searchBegin {t : Img} {first : Nat} {nodes : List Nat} (ha : Area t.vol)
    (hl : ListAt t.vol first nodes) (entr : Entry) :
    Gives (entryParse entr searchBegin ()) t fun r t' => t'.vol = t.vol ∧ r.1 = first := by
  refine (gives_entryParse ha (searchBegin_spec t.vol) entr () fun o ho hlt => ?_).mono
    fun r t' h => ?_
  · exact absurd ho.ge (Nat.not_le.2 hlt)
  · obtain ⟨hvol, hres⟩ := h
    refine ⟨hvol, ?_⟩
    rcases hres with ⟨hz, hnone⟩ | ⟨hslot, hbegins⟩
    · by_contra hne
      have hmem := hl.chain.first_mem fun h0 => hne (hz.trans h0.symm)
      have hslot := hl.slot first hmem
      exact hnone first hslot hslot.lt ((hl.begins_iff hslot).2 ⟨hmem, rfl⟩)
    · exact ((hl.begins_iff hslot).1 hbegins).2

/-! ## Mounting -/

section WithUnit

variable {v : Vol} {fs : SfsUnit} {first : Nat} {nodes : List Nat}

/-- The index does not depend on the other fields of the unit. -/
theorem Area.withUnit (h : Area v) (hstart : fs.entryStart = v.fs.entryStart)
    (hident : fs.volIdent = v.fs.volIdent) : Area { v with fs := fs } where
  sized := h.sized.congr rfl rfl
  start_aligned := by rw [hstart]; exact h.start_aligned
  aligned := by rw [hident]; exact h.aligned
  nonempty := by rw [hstart, hident]; exact h.nonempty
  inside := by rw [hident]; exact h.inside

theorem ListAt.withUnit (h : ListAt v first nodes) (hstart : fs.entryStart = v.fs.entryStart)
    (hident : fs.volIdent = v.fs.volIdent) : ListAt { v with fs := fs } first nodes := by
  have hslot : ∀ off, Vol.Slot { v with fs := fs } off ↔ v.Slot off := fun off =>
    SameArea.slot ⟨rfl, rfl, hstart, hident⟩
  exact ⟨h.chain, fun off hoff => (hslot off).2 (h.slot off hoff), h.type,
    fun off hoff => h.only off ((hslot off).1 hoff)⟩

end WithUnit

/-- The end of `sfs_init`: the list is found, and the time stamp of the volume
identifier is zeroed. -/
theorem gives_mountIndex {t : Img} {fs : SfsUnit} {first : Nat} {nodes : List Nat}
    (ha : Area t.vol) (hl : ListAt t.vol first nodes)
    (hstart : fs.entryStart = t.vol.fs.entryStart) (hident : fs.volIdent = t.vol.fs.volIdent)
    (hroot : t.vol.type (fs.entryStart + 2 * indexEntrySize) = EntryType.dirEntry.code)
    (hname : t.vol.data (fs.entryStart + 2 * indexEntrySize + dirKind.name) = 0)
    (hslots : fs.entryStart + 192 ≤ fs.volIdent) :
    Gives (mountIndex fs) t fun r t' => r = 0 ∧
      t'.vol = { t.vol with
        data := blit t.vol.data (volTimeStamp + fs.volIdent) (fun _ => 0) 0 8
        fs := { fs with
          time := getLE t.vol.data (volTimeStamp + fs.volIdent) 8
          delBegin := first } } := by
  have hs := ha.sized
  have hal := ha.start_aligned
  have hal' := ha.aligned
  have hin := ha.inside
  rw [← hstart] at hal
  rw [← hident] at hal' hin
  have hsmall := hs.small
  have hbyte : ∀ off, getLE t.vol.data off 1 = (t.vol.data off).toNat := getLE_one t.vol.data
  have hstamp : (volTimeStamp + fs.volIdent) % 64 + 8 ≤ 64 := by
    unfold volTimeStamp
    omega
  have hstamp' : volTimeStamp + fs.volIdent + 8 ≤ t.vol.size := by
    unfold volTimeStamp
    omega
  unfold mountIndex
  rw [u64_of_lt (n := fs.entryStart + 2 * indexEntrySize) (by unfold indexEntrySize; omega),
    u64_of_lt (n := fs.entryStart + 2 * indexEntrySize + dirKind.name)
      (by show fs.entryStart + 2 * 64 + 10 < _; omega),
    u64_of_lt (n := volTimeStamp + fs.volIdent) (by omega),
    gives_readNum hs (by exact Or.inr (Or.inr (by omega))) (by unfold indexEntrySize; omega)
      (by unfold indexEntrySize; omega)]
  dsimp only
  rw [hbyte, ← Vol.type_eq, if_neg (not_not.2 hroot), gives_uninit, gives_bind]
  refine (gives_searchBegin (t := { t with clean := false }) ha hl _).mono
    fun ⟨found, entr₁, data₁⟩ ⟨vol₁, clean₁, errno₁, clock₁, ticks₁, stack₁, _⟩ ⟨hvol, hfound⟩ => ?_
  dsimp only at hvol hfound ⊢
  subst hvol hfound
  have hsized : ∀ fs', Vol.Sized { t.vol with fs := fs' } := fun _ => hs.congr rfl rfl
  have hnameIn : fs.entryStart + 2 * indexEntrySize + dirKind.name < t.vol.size := by
    show fs.entryStart + 2 * 64 + 10 < t.vol.size
    omega
  have hstampIn : volTimeStamp + fs.volIdent < t.vol.size := by omega
  have hge : fs.entryStart ≤ fs.entryStart + 2 * indexEntrySize + dirKind.name := by
    rw [Nat.add_assoc]
    exact Nat.le_add_right _ _
  have hge' : fs.entryStart ≤ volTimeStamp + fs.volIdent := by omega
  rw [gives_setUnit (by exact Or.inr hstart), gives_readNum (by exact hsized _)
    (by exact Or.inr (Or.inr hge)) (by unfold indexEntrySize; omega) (by exact hnameIn)]
  dsimp only
  rw [hbyte, hname, if_neg (by decide), gives_readNum (by exact hsized _)
    (by exact Or.inr (Or.inr hge')) hstamp (by exact hstampIn)]
  dsimp only
  rw [gives_setUnit (by exact Or.inr rfl), gives_writeData (by exact hsized _) hstamp
    (by exact hstampIn)
    (by exact hstamp')]
  dsimp only
  rw [if_neg (by decide), gives_setErrno, gives_pure]
  exact ⟨rfl, rfl⟩

/-- `sfs_init` sets the unit up from the MBR and the list it finds, whatever
was in the unit. -/
theorem gives_sfsInit {t : Img} {v : Vol} {first : Nat} {nodes : List Nat} (fs : SfsUnit)
    (hv : t.vol = { v with fs := fs }) (hd : Described v) (ha : Area v)
    (hl : ListAt v first nodes)
    (hroot : v.type (v.fs.entryStart + 128) = EntryType.dirEntry.code)
    (hname : v.data (v.fs.entryStart + 138) = 0) (hslots : v.fs.entryStart + 192 ≤ v.fs.volIdent)
    (hsee : t.indexOnly = false) :
    Gives sfsInit t fun r t' => r = 0 ∧
      t'.vol = { v with
        data := blit v.data (volTimeStamp + v.fs.volIdent) (fun _ => 0) 0 8
        fs := { v.fs with
          time := getLE v.data (volTimeStamp + v.fs.volIdent) 8
          delBegin := first } } := by
  obtain ⟨vol, clean, errno, clock, ticks, stack, indexOnly⟩ := t
  dsimp only at hv hsee
  subst hv
  have hs : Vol.Sized { v with fs := fs } := ha.sized.congr rfl rfl
  have hin := ha.inside
  have hsmall := ha.sized.small
  have hlt := ha.nonempty
  have hmbr : 446 ≤ v.size := Nat.le_trans (by decide) hd.inside
  have hbytes : v.blockSize < 9223372036854775808 :=
    Nat.lt_of_le_of_lt (Nat.le_of_dvd (by omega) ha.sized.blocks) hsmall
  have hshift : getLE v.data mbrBlockSize 1 < 64 := by
    by_contra hge
    have hpow := Nat.pow_le_pow_right (show 0 < 2 by decide) (Nat.not_lt.1 hge)
    have hblock := hd.blockSize
    unfold mbrBlockBytes at hblock
    omega
  -- No area ends past the end of an `off_t`, so no product wraps around.
  have hstart := hd.entryStart
  have hreserved := hd.reserved
  have hindex := hd.index
  rw [hd.blockSize] at hstart hreserved
  rw [Nat.add_mul] at hstart
  have hunit : ∀ fs' : SfsUnit, fs'.entryStart = v.fs.entryStart → fs'.volIdent = v.fs.volIdent →
      Area { v with fs := fs' } ∧ ListAt { v with fs := fs' } first nodes :=
    fun fs' h₁ h₂ => ⟨ha.withUnit h₁ h₂, hl.withUnit h₁ h₂⟩
  have hfields : u64 (128 * 2 ^ (mbrFields v.data).bSizeP2) = v.blockSize := by
    rw [← hd.blockSize]
    refine Nat.mod_eq_of_lt ?_
    show mbrBlockBytes v.data < 18446744073709551616
    rw [hd.blockSize]
    omega
  have hfs : (⟨fs.time, v.fs.entryStart, fs.delBegin, v.fs.volIdent⟩ : SfsUnit) =
      { fs with
        entryStart := u64 ((mbrFields v.data).reservedSize * v.blockSize % 4294967296 +
          u64 ((mbrFields v.data).dataAreaSize * v.blockSize))
        volIdent := sub64 (u64 (u64 ((mbrFields v.data).reservedSize * v.blockSize % 4294967296 +
          u64 ((mbrFields v.data).dataAreaSize * v.blockSize)) + (mbrFields v.data).indexAreaSize))
          indexEntrySize } := by
    have h₁ : u64 ((mbrFields v.data).reservedSize * v.blockSize % 4294967296 +
          u64 ((mbrFields v.data).dataAreaSize * v.blockSize)) = v.fs.entryStart := by
      unfold mbrFields u64
      dsimp only
      rw [Nat.mod_eq_of_lt hreserved]
      omega
    have h₂ : sub64 (u64 (v.fs.entryStart + (mbrFields v.data).indexAreaSize)) indexEntrySize
        = v.fs.volIdent := by
      show sub64 ((v.fs.entryStart + getLE v.data mbrIndexAreaSize 8) % _) 64 = _
      rw [hindex, Nat.mod_eq_of_lt (by omega), sub64_of_le (by omega), Nat.add_sub_cancel]
    rw [h₁, h₂]
  have hsum : (mbrFields v.data).checksum = calcChecksum (mbrFields v.data).magicNumber
      (mbrFields v.data).sfsV (mbrFields v.data).totalSize (mbrFields v.data).reservedSize
      (mbrFields v.data).bSizeP2 := hd.checksum
  unfold sfsInit
  rw [gives_setErrno, gives_readMbr (by exact hs) hsee (by exact hmbr)]
  dsimp only
  rw [gives_setErrno, if_neg (not_not.2 hsum), if_neg (by exact Nat.not_le.2 hshift), hfields,
    gives_unit, gives_setUnit (Or.inl hsee), ← hfs]
  obtain ⟨ha', hl'⟩ := hunit ⟨fs.time, v.fs.entryStart, fs.delBegin, v.fs.volIdent⟩ rfl rfl
  exact gives_mountIndex ha' hl' rfl rfl hroot hname hslots

/-! ## Unmounting -/

/-- `sfs_release` stores the time in the volume identifier. -/
theorem gives_sfsRelease {t : Img} (ha : Area t.vol) :
    Gives sfsRelease t fun r t' => r = 0 ∧
      t'.vol = { t.vol with
        data := blit t.vol.data (t.vol.fs.volIdent + volTimeStamp)
          (putLE (fun _ => 0) 0 8 (u64 (t.clock t.ticks))) 0 8
        fs := { t.vol.fs with time := u64 (t.clock t.ticks) } } := by
  have hal := ha.aligned
  have hin := ha.inside
  have hsized : t.updated.vol.Sized := ha.sized.congr rfl rfl
  have hstamp : (t.vol.fs.volIdent + volTimeStamp) % 64 + 8 ≤ 64 := by
    unfold volTimeStamp
    omega
  have hstamp' : t.vol.fs.volIdent + volTimeStamp + 8 ≤ t.vol.size := by
    unfold volTimeStamp
    omega
  have hstampIn : t.vol.fs.volIdent + volTimeStamp < t.vol.size := by omega
  have hsmall := ha.sized.small
  have hwrap : u64 (t.updated.vol.fs.volIdent + volTimeStamp) = t.vol.fs.volIdent + volTimeStamp :=
    u64_of_lt (n := t.vol.fs.volIdent + volTimeStamp) (by omega)
  unfold sfsRelease
  rw [gives_update, gives_unit, hwrap, gives_writeData (by exact hsized) (by exact hstamp)
    (by exact hstampIn) (by exact hstamp')]
  dsimp only
  rw [if_neg (by decide), gives_setErrno, gives_pure]
  exact ⟨rfl, rfl⟩

/-- What `sfs_init` has to find on the disk to mount the volume again. -/
structure Remountable (v : Vol) (nodes : List Nat) : Prop where
  area : Area v
  described : Described v
  list : ListAt v v.fs.delBegin nodes
  root : v.Slot (v.fs.entryStart + 128)
  rootType : v.type (v.fs.entryStart + 128) = EntryType.dirEntry.code
  rootName : v.data (v.fs.entryStart + 128 + dirKind.name) = 0

/-- Nothing of this is in the volume identifier. -/
theorem Remountable.congr {v v' : Vol} {nodes : List Nat} (h : Remountable v nodes)
    (ha : SameArea v v') (hfirst : v'.fs.delBegin = v.fs.delBegin)
    (hout : ∀ k, k < v.fs.volIdent + volTimeStamp ∨ v.fs.volIdent + volTimeStamp + 8 ≤ k →
      v'.data k = v.data k) : Remountable v' nodes := by
  have hal := h.area.aligned
  have hal' := h.area.start_aligned
  unfold volTimeStamp at hout
  have hget : ∀ off, v.Slot off → ∀ f, v'.get off f = v.get off f := by
    intro off hoff f
    have h₁ := hoff.lt
    have h₂ := hoff.aligned
    exact Vol.get_congr fun k hk => hout _ (by omega)
  have hroot := h.root.lt
  refine ⟨⟨?_, ?_, ?_, ?_, ?_⟩, h.described.congr ha fun k h₁ h₂ => hout k (by omega),
    ⟨?_, ?_, ?_, ?_⟩, ?_, ?_, ?_⟩
  · exact h.area.sized.congr ha.blockSize ha.size
  · rw [ha.entryStart]
    exact h.area.start_aligned
  · rw [ha.volIdent]
    exact h.area.aligned
  · rw [ha.entryStart, ha.volIdent]
    exact h.area.nonempty
  · rw [ha.volIdent, ha.size]
    exact h.area.inside
  · rw [hfirst]
    exact h.list.chain.congr (fun off hoff => hget off (h.list.slot off hoff) _)
      fun off hoff => hget off (h.list.slot off hoff) _
  · exact fun off hoff => ha.slot.2 (h.list.slot off hoff)
  · intro off hoff
    rw [Vol.type, hget off (h.list.slot off hoff)]
    exact h.list.type off hoff
  · intro off hoff htype hnot
    have hoff' := ha.slot.1 hoff
    rw [Vol.type, hget off hoff'] at htype
    rw [hget off hoff']
    exact h.list.only off hoff' htype hnot
  · rw [ha.entryStart]
    exact ha.slot.2 h.root
  · rw [ha.entryStart, Vol.type, hget _ h.root]
    exact h.rootType
  · rw [ha.entryStart, hout _ (Or.inl (by
      show v.fs.entryStart + 128 + 10 < v.fs.volIdent + 4
      omega))]
    exact h.rootName

/-- A device that shows the volume shows it with another unit, too. -/
theorem Shows.withUnit {s : Sys} {t : Img} (h : Shows s t) (fs : SfsUnit) :
    Shows { s with fs := fs } { t with vol := { t.vol with fs := fs }, indexOnly := false } := by
  have hopen : Shows s { t with indexOnly := false } :=
    ⟨h.vol, h.clean, h.errno, h.clock, h.ticks, h.stack, h.quiet, h.coherent, h.sized⟩
  obtain ⟨s', hs', hshow⟩ := Img.handle_simulated (e := .setUnit fs) hopen rfl
  cases hs'
  exact hshow

/-- Unmounting and mounting again yields the unit there was, and changes nothing
on the device but the time stamp of the volume identifier. -/
theorem remount {s : Sys} {nodes : List Nat} (hq : s.dev.Quiet) (hc : s.dev.Coherent)
    (hm : Remountable s.vol nodes) (fs : SfsUnit) :
    ∃ s₁ s₂, s.exec sfsRelease = some (0, s₁) ∧
      Sys.exec { s₁ with fs := fs } sfsInit = some (0, s₂) ∧
      s₂.fs.entryStart = s.fs.entryStart ∧ s₂.fs.volIdent = s.fs.volIdent ∧
      s₂.fs.delBegin = s.fs.delBegin ∧ (s₂.fs.delBegin = 0 ↔ nodes = []) ∧
      s₂.fs.time = s₁.fs.time ∧
      getLE s₁.dev.data (s.fs.volIdent + volTimeStamp) 8 = s₁.fs.time ∧
      ∀ k, k < s.fs.volIdent + volTimeStamp ∨ s.fs.volIdent + volTimeStamp + 8 ≤ k →
        s₂.dev.data k = s.dev.data k := by
  obtain ⟨r₁, s₁, t₁, hrun₁, hshow₁, hr₁, hvol₁⟩ :=
    transfer (Sys.shows_img hq hc hm.area.sized) (gives_sfsRelease hm.area)
  subst hr₁
  have hout₁ : ∀ k, k < s.fs.volIdent + volTimeStamp ∨ s.fs.volIdent + volTimeStamp + 8 ≤ k →
      t₁.vol.data k = s.vol.data k := by
    intro k hk
    rw [hvol₁]
    exact blit_outside hk
  have ha₁ : SameArea s.vol t₁.vol := by
    rw [hvol₁]
    exact ⟨rfl, rfl, rfl, rfl⟩
  have hm₁ : Remountable t₁.vol nodes := hm.congr ha₁ (by rw [hvol₁]; rfl) hout₁
  obtain ⟨r₂, s₂, t₂, hrun₂, hshow₂, hr₂, hvol₂⟩ := transfer (hshow₁.withUnit fs)
    (gives_sfsInit fs rfl hm₁.described hm₁.area hm₁.list hm₁.rootType hm₁.rootName (by
      have h₁ := hm₁.root.lt
      have h₂ := hm₁.area.aligned
      have h₃ := hm₁.area.start_aligned
      omega) rfl)
  subst hr₂
  have hident : t₁.vol.fs.volIdent = s.fs.volIdent := ha₁.volIdent
  have htime : getLE t₁.vol.data (s.fs.volIdent + volTimeStamp) 8 = t₁.vol.fs.time := by
    rw [hvol₁]
    dsimp only
    rw [show s.img.vol.fs.volIdent = s.fs.volIdent from rfl,
      getLE_blit_of_subset (Nat.le_refl _) (Nat.le_refl _), Nat.sub_self, getLE_putLE_same]
    exact Nat.mod_mod_of_dvd _ (by decide)
  have hstamp : volTimeStamp + t₁.vol.fs.volIdent = s.fs.volIdent + volTimeStamp := by
    rw [hident, Nat.add_comm]
  have hfs₂ : s₂.fs = { t₁.vol.fs with
      time := getLE t₁.vol.data (s.fs.volIdent + volTimeStamp) 8
      delBegin := t₁.vol.fs.delBegin } := by
    rw [hshow₂.fs, hvol₂, hstamp]
  refine ⟨s₁, s₂, hrun₁, hrun₂, ?_, ?_, ?_, ?_, ?_, ?_, ?_⟩
  · rw [hfs₂]
    exact ha₁.entryStart
  · rw [hfs₂]
    exact ha₁.volIdent
  · rw [hfs₂, hvol₁]
    rfl
  · rw [hfs₂]
    exact hm₁.list.chain.first_eq_zero
  · rw [hfs₂, htime, hshow₁.fs]
  · rw [hshow₁.data, htime, hshow₁.fs]
  · intro k hk
    rw [hshow₂.data, hvol₂, hstamp]
    dsimp only
    rw [blit_outside hk]
    exact hout₁ k hk

/-- A volume of four blocks: two reserved ones, one for data, which is free, and
an index of four slots. -/
def tinyVolume : Sys where
  dev := {
    size := 1024
    blockSize := 256
    data := fun i =>
      if i = 412 then 1 else if i = 421 then 1 else if i = 440 then 2 else if i = 444 then 1
      else if i = 445 then 3 else if i = 768 then 0x02 else if i = 832 then 0x1A
      else if i = 842 ∨ i = 850 then 2 else if i = 896 then 0x11 else if i = 960 then 0x01 else 0
    buf := fun _ => 0
    bufNum := none
    faults := fun _ => none
    accesses := 0 }
  fs := ⟨0, 768, 832, 960⟩
  errno := 0
  clock := fun _ => 9
  ticks := 0
  stack := fun _ => 0

theorem tinyVolume_remountable : Remountable tinyVolume.vol [832] := by
  have hslot : ∀ off, tinyVolume.vol.Slot off → off = 768 ∨ off = 832 ∨ off = 896 := by
    intro off hoff
    have h₁ : 768 ≤ off := hoff.ge
    have h₂ : off < 960 := hoff.lt
    have h₃ := hoff.aligned
    omega
  have hnode : tinyVolume.vol.Slot 832 := ⟨by decide, by decide, by decide⟩
  refine ⟨⟨⟨by decide, ⟨4, rfl⟩, ⟨4, rfl⟩, by decide⟩, by decide, by decide, by decide, by decide⟩,
    ⟨by decide, by decide, by decide, by decide, by decide, by decide⟩,
    ⟨⟨rfl, by decide, by decide, ?_⟩, ?_, ?_, ?_⟩, ⟨by decide, by decide, by decide⟩, by decide,
    by decide⟩
  · show tinyVolume.vol.next 832 = 0
    decide
  · intro off hoff
    rw [List.mem_singleton.1 hoff]
    exact hnode
  · intro off hoff
    rw [List.mem_singleton.1 hoff]
    decide
  · intro off hoff htype hnot
    rcases hslot off hoff with rfl | rfl | rfl
    · exact absurd htype (by decide)
    · exact absurd (List.mem_singleton_self _) hnot
    · exact absurd htype (by decide)

theorem remount_tinyVolume :
    ∃ s₁ s₂, tinyVolume.exec sfsRelease = some (0, s₁) ∧
      Sys.exec { s₁ with fs := ⟨5, 6, 7, 8⟩ } sfsInit = some (0, s₂) ∧
      s₂.fs.entryStart = 768 ∧ s₂.fs.volIdent = 960 ∧ s₂.fs.delBegin = 832 := by
  obtain ⟨s₁, s₂, h₁, h₂, hstart, hident, hbegin, -⟩ :=
    remount (s := tinyVolume) (fun _ => rfl) (BlockDev.coherent_of_none rfl)
      tinyVolume_remountable ⟨5, 6, 7, 8⟩
  exact ⟨s₁, s₂, h₁, h₂, hstart, hident, hbegin⟩

end Sfs
