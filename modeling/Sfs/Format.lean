import Sfs.Mksfs
import Sfs.Remount
import Sfs.ListOps

/-!
# Formatting and mounting

`image_create` places the index from the end of the device and `sfs_init` looks
for it from the start, with sizes that are partly in blocks and partly in bytes.

* `Consistent` is what the sizes among the options have to do with each other,
  and `mksfsOptions_consistent` says that `main` computes such options;
* `gives_imageCreate` is the disk that `image_create` makes;
* `formatted` says what is mounted after that.
-/

namespace Sfs

open Lib

/-! ## The options -/

/-- The sizes among the options fit together, for a device of `size` bytes in
blocks of `bs` bytes. -/
structure Consistent (opts : SfsOptions) (bs size : Nat) : Prop where
  small : size < 9223372036854775808
  blockSize : 2 ^ (opts.blockSize + 7) = bs
  shift : 0 < opts.blockSize
  total : opts.totalBlock * bs = size
  reserved_pos : 0 < opts.reservedSize
  reserved_lt : opts.reservedSize < 256
  mbr : 512 ≤ opts.reservedSize * bs
  narrow : opts.reservedSize * bs < 4294967296
  index : bs ∣ opts.indexSize
  index_ge : 256 ≤ opts.indexSize
  sum : opts.reservedSize + opts.dataSize + opts.indexSize / bs = opts.totalBlock

section Options

variable {fileSize now : Nat} {blockSizeS indexSizeS : Option Scanned} {label : Buf}
  {opts : SfsOptions} {bs : Nat}

/-- The block size that `main` accepts is a power of two from 256 on. -/
theorem mksfsBlockSize_pow (h : mksfsBlockSize blockSizeS = some bs) : ∃ k, bs = 2 ^ (k + 8) := by
  unfold mksfsBlockSize at h
  split at h
  · exact ⟨1, (Option.some.inj h).symm⟩
  · split at h
    · cases h
    · rename_i blockSize _
      split at h
      · cases h
      · rename_i hok
        obtain ⟨k, -, hk⟩ := not_not.1 (not_or.1 hok).2
        refine ⟨k, ?_⟩
        rw [← Option.some.inj h, hk, Nat.pow_add, Nat.mul_comm]

/-- What the checks of `main` leave. -/
theorem mksfsOptions_some (h : mksfsOptions fileSize blockSizeS indexSizeS label now = some opts) :
    ∃ bs index, mksfsBlockSize blockSizeS = some bs ∧ bs ≤ fileSize ∧ fileSize % bs = 0 ∧
      640 ≤ fileSize ∧ 128 ≤ mksfsAlign bs index ∧
      mksfsAlign bs index ≤ sub64 fileSize (mksfsReserved bs) ∧
      opts = {
        timeStamp := now
        dataSize := sub64 (sub64 (fileSize / bs) (mksfsReserved bs / bs))
          (mksfsIndexBlocks bs (mksfsAlign bs index))
        indexSize := mksfsAlign bs index
        totalBlock := fileSize / bs
        reservedSize := mksfsReserved bs / bs
        blockSize := Nat.log2 bs - 7
        label := label } := by
  unfold mksfsOptions at h
  split at h
  case isTrue => cases h
  case isFalse hsize =>
    split at h
    case h_1 => cases h
    case h_2 bs hbs =>
      split at h
      case isTrue => cases h
      case isFalse hle =>
        split at h
        case isTrue => cases h
        case isFalse hmod =>
          split at h
          case h_1 => cases h
          case h_2 index _ =>
            dsimp only at h
            split at h
            case isTrue => cases h
            case isFalse hfit =>
              split at h
              case isTrue => cases h
              case isFalse hmin =>
                split at h
                case isTrue => cases h
                case isFalse =>
                  split at h
                  case isTrue => cases h
                  case isFalse =>
                    exact ⟨bs, index, hbs, Nat.not_lt.1 hle, not_not.1 hmod, Nat.not_lt.1 hsize,
                      Nat.not_lt.1 hmin, Nat.not_lt.1 hfit, (Option.some.inj h).symm⟩

/-- The reserved area is one block or two, and large enough for the MBR. -/
theorem mksfsReserved_spec (k : Nat) :
    2 ^ (k + 8) ∣ mksfsReserved (2 ^ (k + 8)) ∧ 512 ≤ mksfsReserved (2 ^ (k + 8)) ∧
      mksfsReserved (2 ^ (k + 8)) ≤ 2 * 2 ^ (k + 8) ∧
      mksfsReserved (2 ^ (k + 8)) ≤ max 512 (2 ^ (k + 8)) := by
  have h256 : 256 ≤ 2 ^ (k + 8) := Nat.pow_le_pow_right (show 0 < 2 by decide)
    (by omega : 8 ≤ k + 8)
  unfold mksfsReserved mbrSize
  by_cases h512 : 2 ^ (k + 8) ≤ 512
  · rw [if_pos h512]
    refine ⟨?_, Nat.le_refl _, by omega, Nat.le_max_left _ _⟩
    have hk : k + 8 ≤ 9 := (Nat.pow_le_pow_iff_right (by decide)).1 (h512 : 2 ^ (k + 8) ≤ 2 ^ 9)
    exact Nat.pow_dvd_pow 2 hk
  · rw [if_neg h512]
    exact ⟨Nat.dvd_refl _, by omega, by omega, Nat.le_max_right _ _⟩

/-- The aligned index size is a number of blocks. -/
theorem mksfsAlign_dvd {k : Nat} (hk : k ≤ 64) (index : Nat) :
    2 ^ k ∣ mksfsAlign (2 ^ k) index := by
  unfold mksfsAlign
  by_cases hz : index % 2 ^ k = 0
  · rw [if_neg (not_not.2 hz)]
    exact Nat.dvd_of_mod_eq_zero hz
  · rw [if_pos hz]
    have hlt := Nat.mod_lt index (Nat.pow_pos (show 0 < 2 by decide) : 0 < 2 ^ k)
    have hdm := Nat.div_add_mod index (2 ^ k)
    have hsum : index + (2 ^ k - index % 2 ^ k) = 2 ^ k * (index / 2 ^ k + 1) := by
      rw [Nat.mul_succ]
      omega
    rw [hsum, u64, Nat.dvd_mod_iff (Nat.pow_dvd_pow 2 hk : 2 ^ k ∣ 2 ^ 64)]
    exact Nat.dvd_mul_right _ _

/-- `main` computes sizes that fit together, for every block size up to the
largest one `fuse_sfs` can mount. -/
theorem mksfsOptions_consistent (hfile : fileSize < 9223372036854775808)
    (hbs : mksfsBlockSize blockSizeS = some bs) (hmax : bs ≤ 2 ^ 30)
    (h : mksfsOptions fileSize blockSizeS indexSizeS label now = some opts) :
    Consistent opts bs fileSize := by
  obtain ⟨bs', index, hbs', hle, hmod, hmin, hindex, hfit, hopts⟩ := mksfsOptions_some h
  rw [hbs] at hbs'
  obtain rfl := Option.some.inj hbs'
  obtain ⟨k, rfl⟩ := mksfsBlockSize_pow hbs
  have hpos : 0 < 2 ^ (k + 8) := Nat.pow_pos (by decide)
  have h256 : 256 ≤ 2 ^ (k + 8) := Nat.pow_le_pow_right (show 0 < 2 by decide)
    (by omega : 8 ≤ k + 8)
  have hk : k + 8 ≤ 64 := by
    have h30 := (Nat.pow_le_pow_iff_right (by decide)).1 hmax
    omega
  obtain ⟨hrdvd, hr512, hr2, hrmax⟩ := mksfsReserved_spec k
  have hidvd := mksfsAlign_dvd hk index
  generalize hindexEq : mksfsAlign (2 ^ (k + 8)) index = idx at *
  generalize hrEq : mksfsReserved (2 ^ (k + 8)) = r at *
  have hlog : Nat.log2 (2 ^ (k + 8)) - 7 = k + 1 := by
    rw [Nat.log2_two_pow]
    omega
  generalize hbsEq : 2 ^ (k + 8) = bs at *
  -- All three areas are numbers of blocks.
  obtain ⟨r', rfl⟩ := hrdvd
  obtain ⟨i', rfl⟩ := hidvd
  obtain ⟨t', rfl⟩ := Nat.dvd_of_mod_eq_zero hmod
  have hrpos : 0 < r' := by
    by_contra hz
    rw [Nat.eq_zero_of_not_pos hz, Nat.mul_zero] at hr512
    omega
  have hipos : 0 < i' := by
    by_contra hz
    rw [Nat.eq_zero_of_not_pos hz, Nat.mul_zero] at hindex
    omega
  have hrle : r' ≤ 2 := by
    rw [Nat.mul_comm 2] at hr2
    exact Nat.le_of_mul_le_mul_left hr2 hpos
  have hrt : bs * r' ≤ bs * t' := by omega
  have hit : r' + i' ≤ t' := by
    rw [sub64_of_le hrt, ← Nat.mul_sub] at hfit
    have h₁ := Nat.le_of_mul_le_mul_left hfit hpos
    have h₂ := Nat.le_of_mul_le_mul_left hrt hpos
    omega
  have hblocks : mksfsIndexBlocks bs (bs * i') = i' := by
    unfold mksfsIndexBlocks
    rw [if_pos (Nat.mul_mod_right bs i'), Nat.mul_div_cancel_left i' hpos]
  subst hopts
  constructor
  case small => exact hfile
  case blockSize =>
    dsimp only
    rw [hlog, ← hbsEq]
  case shift =>
    dsimp only
    rw [hlog]
    exact Nat.succ_pos k
  case total =>
    dsimp only
    rw [Nat.mul_div_cancel_left t' hpos, Nat.mul_comm]
  case reserved_pos =>
    dsimp only
    rwa [Nat.mul_div_cancel_left r' hpos]
  case reserved_lt =>
    dsimp only
    rw [Nat.mul_div_cancel_left r' hpos]
    omega
  case mbr =>
    dsimp only
    rwa [Nat.mul_div_cancel_left r' hpos, Nat.mul_comm]
  case narrow =>
    dsimp only
    rw [Nat.mul_div_cancel_left r' hpos, Nat.mul_comm]
    omega
  case index => exact Nat.dvd_mul_right bs i'
  case index_ge => exact Nat.le_trans h256 (Nat.le_mul_of_pos_right bs hipos)
  case sum =>
    dsimp only
    rw [Nat.mul_div_cancel_left t' hpos, Nat.mul_div_cancel_left r' hpos,
      Nat.mul_div_cancel_left i' hpos, hblocks, sub64_of_le (show r' ≤ t' by omega),
      sub64_of_le (show i' ≤ t' - r' by omega)]
    omega

end Options

/-! ## The image -/

/-- The slot at an offset is the entry. -/
def Holds (data : Mem) (off : Nat) (entr : Entry) : Prop := ∀ k, k < 64 → data (off + k) = entr k

/-- The MBR with its checksum. -/
def mbrImage (opts : SfsOptions) : Mem :=
  putLE (mbrBlock opts) mbrChecksum 1 (byteSum (mbrBlock opts) mbrMagicNumber 17)

/-- The disk that `image_create` makes: the MBR, and from `start` to `ident`
the start entry, the free node, the root directory, unused entries and the
volume identifier. -/
structure Image (data : Mem) (opts : SfsOptions) (start ident : Nat) : Prop where
  mbr : ∀ k, k < 512 → data k = mbrImage opts k
  startEntry : Holds data start (emptyEntry .startEntry)
  freeEntry : Holds data (start + 64) (freeEntryOf opts)
  root : Holds data (start + 128) (emptyEntry .dirEntry)
  unused : ∀ off, start + 192 ≤ off → off < ident → off % 64 = 0 →
    Holds data off (emptyEntry .unusedEntry)
  volIdent : Holds data ident (volEntry opts)

theorem Holds.fieldAt {data : Mem} {off : Nat} {entr : Entry} (h : Holds data off entr)
    (f : Field) :
    Sfs.fieldAt data off f = fieldAt entr 0 f :=
  fieldAt_congr fun k hk => by rw [h k (by omega), Nat.zero_add]

theorem holds_store (v : Vol) (off : Nat) (entr : Entry) :
    Holds (v.store off entr).data off entr := by
  intro k hk
  unfold Vol.store
  dsimp only
  rw [blit_add (by unfold indexEntrySize; omega), Nat.zero_add]

/-- A store to another slot. -/
theorem Holds.store {v : Vol} {off off' : Nat} {entr entr' : Entry} (h : Holds v.data off entr)
    (hne : off + 64 ≤ off' ∨ off' + 64 ≤ off) : Holds (v.store off' entr').data off entr := by
  intro k hk
  rw [Vol.store_outside _ (by omega), h k hk]

/-- The volume after `n` slots from an offset on were stored. -/
def Vol.fill (v : Vol) (entr : Entry) (off : Nat) : Nat → Vol
  | 0 => v
  | n + 1 => (v.store off entr).fill entr (off + 64) n

theorem Vol.fill_outside {v : Vol} {entr : Entry} {off n k : Nat}
    (hk : k < off ∨ off + 64 * n ≤ k) :
    (v.fill entr off n).data k = v.data k := by
  induction n generalizing v off with
  | zero => rfl
  | succ n ih =>
    rw [Vol.fill, ih (by omega), Vol.store_outside _ (by omega)]

theorem Vol.fill_holds (v : Vol) (entr : Entry) (off : Nat) {n j : Nat} (hj : j < n) :
    Holds (v.fill entr off n).data (off + 64 * j) entr := by
  induction n generalizing v off j with
  | zero => omega
  | succ n ih =>
    cases j with
    | zero =>
      intro k hk
      rw [Vol.fill, Vol.fill_outside (by omega), Nat.mul_zero, Nat.add_zero]
      exact holds_store v off entr k hk
    | succ j =>
      have h := ih (v.store off entr) (off + 64) (show j < n by omega)
      rwa [show off + 64 + 64 * j = off + 64 * (j + 1) by omega] at h

theorem Vol.fill_area (v : Vol) (entr : Entry) (off n : Nat) :
    (v.fill entr off n).blockSize = v.blockSize ∧ (v.fill entr off n).size = v.size ∧
      (v.fill entr off n).fs = v.fs := by
  induction n generalizing v off with
  | zero => exact ⟨rfl, rfl, rfl⟩
  | succ n ih => exact ih (v.store off entr) (off + 64)

theorem gives_fillUnused {t : Img} (hs : t.vol.Sized) (n : Nat) {stop fuel i : Nat}
    (hi : i % 64 = 0) (hstop : i + 64 * n = stop) (hle : stop ≤ t.vol.size) (hfuel : n < fuel) :
    Gives (fillUnused stop fuel i) t fun r t' =>
      r = 0 ∧ t'.vol = t.vol.fill (emptyEntry .unusedEntry) i n := by
  induction n generalizing t fuel i with
  | zero =>
    obtain ⟨fuel, rfl⟩ := Nat.exists_eq_succ_of_ne_zero (Nat.ne_of_gt hfuel)
    rw [fillUnused, if_neg (by omega), gives_pure]
    exact ⟨rfl, rfl⟩
  | succ n ih =>
    obtain ⟨fuel, rfl⟩ := Nat.exists_eq_succ_of_ne_zero (Nat.ne_of_gt (Nat.lt_of_le_of_lt
      (Nat.zero_le _) hfuel))
    rw [fillUnused, if_pos (by omega), gives_writeData hs (by unfold indexEntrySize; omega)
      (by omega) (by unfold indexEntrySize; omega)]
    rw [if_neg (by decide)]
    exact ih (t := { t with
        vol := t.vol.store i (emptyEntry .unusedEntry)
        clean := true })
      (hs.congr rfl rfl) (by unfold indexEntrySize; omega) (by unfold indexEntrySize; omega) hle
      (by omega)

/-- The volume after the stores of `image_create` before its loop. -/
def Vol.imageHead (v : Vol) (opts : SfsOptions) (start ident : Nat) : Vol :=
  ((((({ v with data := blit v.data 0 (mbrImage opts) 0 mbrSize } : Vol).store ident
    (volEntry opts)).store start (emptyEntry .startEntry)).store (start + 64)
      (freeEntryOf opts)).store (start + 128) (emptyEntry .dirEntry))

/-- The stores of `image_create` make the image. -/
theorem Vol.image_fill {v : Vol} {opts : SfsOptions} {start ident n : Nat}
    (hstart : 512 ≤ start) (hal : start % 64 = 0) (hend : start + 192 + 64 * n = ident) :
    Image ((v.imageHead opts start ident).fill (emptyEntry .unusedEntry) (start + 192) n).data opts
      start ident := by
  have hkeep : ∀ off entr, off + 64 ≤ start + 192 ∨ ident ≤ off →
      Holds (v.imageHead opts start ident).data off entr →
      Holds ((v.imageHead opts start ident).fill (emptyEntry .unusedEntry) (start + 192) n).data
        off entr := by
    intro off entr ho h k hk
    rw [Vol.fill_outside (by omega)]
    exact h k hk
  refine ⟨?_, ?_, ?_, ?_, ?_, ?_⟩
  · intro k hk
    rw [Vol.fill_outside (by omega), imageHead, store_outside _ (by omega),
      store_outside _ (by omega), store_outside _ (by omega), store_outside _ (by omega)]
    dsimp only
    rw [blit_inside (Nat.zero_le k) (by unfold mbrSize; omega), Nat.zero_add, Nat.sub_zero]
  · refine hkeep _ _ (by omega) ?_
    unfold imageHead
    refine Holds.store ?_ (by omega)
    refine Holds.store ?_ (by omega)
    exact holds_store _ start _
  · refine hkeep _ _ (by omega) ?_
    unfold imageHead
    refine Holds.store ?_ (by omega)
    exact holds_store _ (start + 64) _
  · refine hkeep _ _ (by omega) ?_
    exact holds_store _ (start + 128) _
  · intro off h₁ h₂ h₃
    have h := (v.imageHead opts start ident).fill_holds (emptyEntry .unusedEntry) (start + 192)
      (show (off - (start + 192)) / 64 < n by omega)
    rwa [show start + 192 + 64 * ((off - (start + 192)) / 64) = off by omega] at h
  · refine hkeep _ _ (Or.inr (Nat.le_refl _)) ?_
    unfold imageHead
    refine Holds.store ?_ (by omega)
    refine Holds.store ?_ (by omega)
    refine Holds.store ?_ (by omega)
    exact holds_store _ ident _

/-- `image_create` on a device of the size the options were computed for. -/
theorem gives_imageCreate {t : Img} {opts : SfsOptions} {bs : Nat} (hs : t.vol.Sized)
    (hbs : t.vol.blockSize = bs) (hc : Consistent opts bs t.vol.size) :
    Gives (imageCreate opts) t fun r t' =>
      r = 0 ∧ t'.vol.blockSize = bs ∧ t'.vol.size = t.vol.size ∧
        Image t'.vol.data opts (t.vol.size - opts.indexSize) (t.vol.size - 64) := by
  obtain ⟨i, hi⟩ := hc.index
  have hsmall := hc.small
  have hidx := hc.index_ge
  have hle : 512 + opts.indexSize ≤ t.vol.size := by
    have h₁ := hc.mbr
    have h₂ := hc.total
    have h₃ := hc.sum
    have hpos := hs.pos
    rw [hbs] at hpos
    rw [hi, Nat.mul_div_cancel_left i hpos] at h₃
    rw [← h₂, ← h₃, hi, Nat.add_mul, Nat.add_mul, Nat.mul_comm bs i]
    omega
  have hal : t.vol.size % 64 = 0 ∧ opts.indexSize % 64 = 0 := by
    have h64 : 64 ∣ bs := hbs ▸ hs.slots
    exact ⟨Nat.mod_eq_zero_of_dvd (Nat.dvd_trans hs.slots hs.blocks),
      Nat.mod_eq_zero_of_dvd (Nat.dvd_trans h64 ⟨i, hi⟩)⟩
  obtain ⟨hal₁, hal₂⟩ := hal
  have hstart : sub64 (u64 (opts.totalBlock * 2 ^ (opts.blockSize + 7))) opts.indexSize
      = t.vol.size - opts.indexSize := by
    rw [hc.blockSize, hc.total, u64_of_lt (by omega), sub64_of_le (by omega)]
  have hident : sub64 (u64 (opts.totalBlock * 2 ^ (opts.blockSize + 7))) indexEntrySize
      = t.vol.size - 64 := by
    rw [hc.blockSize, hc.total, u64_of_lt (by omega), sub64_of_le (by
      unfold indexEntrySize; omega)]
  unfold imageCreate
  dsimp only
  rw [hstart, hident]
  generalize hg : t.vol.size - opts.indexSize = start
  generalize hv : t.vol.size - 64 = ident
  have hfirst : 0 < t.vol.size := by omega
  rw [gives_writeRange hs hfirst (by unfold mbrSize; omega), if_neg (by decide)]
  -- The slots that are written one by one.
  have hstore : ∀ (u : Img) (off : Nat) (entr : Entry) (f : Nat → SfsM Int) (Q : Int → Img → Prop),
      u.vol.blockSize = t.vol.blockSize → u.vol.size = t.vol.size → off % 64 = 0 →
      off + 64 ≤ t.vol.size → (Gives (writeDataM off entr indexEntrySize >>= f) u Q ↔
        Gives (f 64) { u with vol := u.vol.store off entr, clean := true } Q) := by
    intro u off entr f Q hb hsz hoff hin
    exact gives_writeData (hs.congr hb hsz) (by unfold indexEntrySize; omega) (by omega)
      (by unfold indexEntrySize; omega)
  rw [hstore _ _ _ _ _ (by rfl) (by rfl) (by omega) (by omega), if_neg (by decide),
    hstore _ _ _ _ _ (by rfl) (by rfl) (by omega) (by omega), if_neg (by decide),
    hstore _ _ _ _ _ (by rfl) (by rfl) (by omega) (by omega), if_neg (by decide),
    hstore _ _ _ _ _ (by rfl) (by rfl) (by omega) (by omega), if_neg (by decide)]
  have hlen : start + 192 + 64 * ((ident - (start + 192)) / 64) = ident := by omega
  have hsized : (t.vol.imageHead opts start ident).Sized := hs.congr rfl rfl
  refine (gives_fillUnused (t := { t with
      vol := t.vol.imageHead opts start ident
      clean := true }) hsized ((ident - (start + 192)) / 64) (by omega) hlen
    (show ident ≤ t.vol.size by omega) (by unfold indexEntrySize; omega)).mono
    fun r t' ⟨hr, hvol⟩ => ?_
  obtain ⟨hb, hsz, -⟩ := (t.vol.imageHead opts start ident).fill_area (emptyEntry .unusedEntry)
    (start + 192) ((ident - (start + 192)) / 64)
  rw [hvol]
  exact ⟨hr, hb.trans hbs, hsz, Vol.image_fill (by omega) (by omega) hlen⟩

/-! ## The MBR of the image -/

/-- The checksum that `image_create` stores is the one `sfs_init` computes,
because the reserved size fits into a byte. -/
theorem byteSum_mbrBlock (opts : SfsOptions) (hr : opts.reservedSize < 256) :
    byteSum (mbrBlock opts) mbrMagicNumber 17 =
      (0x53 + 0x46 + 0x53 +
        (opts.totalBlock / 2 ^ 56 % 256 + opts.totalBlock / 2 ^ 48 % 256 +
          opts.totalBlock / 2 ^ 40 % 256 + opts.totalBlock / 2 ^ 32 % 256 +
          opts.totalBlock / 2 ^ 24 % 256 + opts.totalBlock / 2 ^ 16 % 256 +
          opts.totalBlock / 2 ^ 8 % 256 + opts.totalBlock % 256) +
        opts.reservedSize % 256 + opts.blockSize % 256) % 256 := by
  simp [byteSum, mbrBlock, putLE, mbrMagicNumber, mbrDataAreaSize, mbrIndexAreaSize, mbrTotalSize,
    mbrReservedSize, mbrBlockSize]
  omega

section MbrImage

variable {opts : SfsOptions} {bs size : Nat}

/-- The numbers in the MBR are the options. -/
theorem mbrImage_fields (hc : Consistent opts bs size) (hbs : 0 < bs) :
    getLE (mbrImage opts) mbrDataAreaSize 8 = opts.dataSize ∧
      getLE (mbrImage opts) mbrIndexAreaSize 8 = opts.indexSize ∧
      getLE (mbrImage opts) mbrTotalSize 8 = opts.totalBlock ∧
      getLE (mbrImage opts) mbrReservedSize 4 = opts.reservedSize ∧
      getLE (mbrImage opts) mbrBlockSize 1 = opts.blockSize := by
  have hsmall := hc.small
  have htotal := Nat.le_mul_of_pos_right opts.totalBlock hbs
  rw [hc.total] at htotal
  have hsum := hc.sum
  obtain ⟨i, hi⟩ := hc.index
  have hindex : opts.indexSize ≤ size := by
    rw [hi, Nat.mul_div_cancel_left i hbs] at hsum
    rw [← hc.total, hi, Nat.mul_comm]
    exact Nat.mul_le_mul_right bs (by omega)
  have hdata : opts.dataSize ≤ opts.totalBlock := by
    rw [← hsum]
    exact Nat.le_trans (Nat.le_add_left _ _) (Nat.le_add_right _ _)
  have hshift : opts.blockSize < 256 := by
    by_contra hge
    have hpow := Nat.pow_le_pow_right (show 0 < 2 by decide) (show 64 ≤ opts.blockSize + 7 by omega)
    rw [hc.blockSize] at hpow
    have hmbr := hc.narrow
    have hle := Nat.le_mul_of_pos_left bs hc.reserved_pos
    omega
  have hres := hc.reserved_lt
  unfold mbrImage mbrBlock
  dsimp only
  simp (disch := decide) only [getLE_putLE_of_disjoint, getLE_putLE_same]
  refine ⟨Nat.mod_eq_of_lt (by omega), Nat.mod_eq_of_lt (by omega), Nat.mod_eq_of_lt (by omega),
    Nat.mod_eq_of_lt (by omega), Nat.mod_eq_of_lt (by omega)⟩

theorem mbrImage_checksum (hc : Consistent opts bs size) (hbs : 0 < bs) :
    getLE (mbrImage opts) mbrChecksum 1
      = calcChecksum (fun i => mbrImage opts (mbrMagicNumber + i))
          (getLE (mbrImage opts) mbrSfsVersion 1) (getLE (mbrImage opts) mbrTotalSize 8)
          (getLE (mbrImage opts) mbrReservedSize 4) (getLE (mbrImage opts) mbrBlockSize 1) := by
  have hres := hc.reserved_lt
  obtain ⟨-, -, htotal, hreserved, hshift⟩ := mbrImage_fields hc hbs
  have hshift' := getLE_lt (mbrImage opts) mbrBlockSize 1
  rw [hshift] at hshift'
  have hversion : getLE (mbrImage opts) mbrSfsVersion 1 = 0 := by
    unfold mbrImage mbrBlock
    dsimp only
    simp (disch := decide) only [getLE_putLE_of_disjoint]
    rfl
  have hmagic : (mbrImage opts mbrMagicNumber).toNat = 0x53 ∧
      (mbrImage opts (mbrMagicNumber + 1)).toNat = 0x46 ∧
      (mbrImage opts (mbrMagicNumber + 2)).toNat = 0x53 := by
    simp [mbrImage, mbrBlock, putLE, mbrMagicNumber, mbrTotalSize, mbrReservedSize, mbrBlockSize,
      mbrChecksum]
  have hstored : getLE (mbrImage opts) mbrChecksum 1
      = byteSum (mbrBlock opts) mbrMagicNumber 17 % 256 := by
    unfold mbrImage
    rw [getLE_putLE_same, Nat.pow_one]
  rw [hstored, byteSum_mbrBlock opts hres, hversion, htotal, hreserved, hshift]
  unfold calcChecksum
  dsimp only
  rw [Nat.add_zero mbrMagicNumber, hmagic.1, hmagic.2.1, hmagic.2.2]
  omega

end MbrImage

/-! ## The fresh volume -/

/-- A volume as it is when it is mounted for the first time. -/
structure Fresh (v : Vol) (opts : SfsOptions) (bs : Nat) : Prop where
  sized : v.Sized
  blockSize : v.blockSize = bs
  consistent : Consistent opts bs v.size
  entryStart : v.fs.entryStart = v.size - opts.indexSize
  volIdent : v.fs.volIdent = v.size - 64
  delBegin : v.fs.delBegin = v.fs.entryStart + 64
  startEntry : Holds v.data v.fs.entryStart (emptyEntry .startEntry)
  freeEntry : Holds v.data (v.fs.entryStart + 64) (freeEntryOf opts)
  root : Holds v.data (v.fs.entryStart + 128) (emptyEntry .dirEntry)
  unused : ∀ off, v.fs.entryStart + 192 ≤ off → v.Slot off →
    Holds v.data off (emptyEntry .unusedEntry)
  identType : v.type v.fs.volIdent = EntryType.volIdent.code

theorem fieldAt_zeros (off : Nat) (f : Field) : fieldAt (fun _ => 0) off f = 0 :=
  getLE_zeros _ _

theorem emptyEntry_type (type : EntryType) :
    fieldAt (emptyEntry type) 0 .entryType = type.code := by
  unfold emptyEntry
  rw [fieldAt_setFieldAt_same]
  cases type <;> rfl

theorem emptyEntry_field (type : EntryType) {f : Field} (hf : f ≠ .entryType) :
    fieldAt (emptyEntry type) 0 f = 0 := by
  unfold emptyEntry
  rw [fieldAt_setFieldAt_field (Ne.symm hf), fieldAt_zeros]

/-- The fields of the free node of the image. -/
theorem freeEntryOf_field (opts : SfsOptions) (f : Field) :
    fieldAt (freeEntryOf opts) 0 f =
      if f = .endBlock then u64 (opts.reservedSize % 4294967296 + opts.dataSize + minusOne)
      else if f = .startBlock then opts.reservedSize % 4294967296
      else if f = .entryType then EntryType.delFileEntry.code else 0 := by
  have hname :
      ∀ (e : Entry), fieldAt (strncpy e fileKind.name freeName 29) 0 f = fieldAt e 0 f := by
    intro e
    refine fieldAt_congr fun k hk => ?_
    rw [strncpy, blit_outside (Or.inl (by
      show 0 + k < 34
      omega))]
  unfold freeEntryOf
  dsimp only
  rw [hname]
  by_cases hend : f = .endBlock
  · subst hend
    rw [if_pos rfl, fieldAt_setFieldAt_same]
    exact Nat.mod_mod_of_dvd _ (by decide)
  · rw [if_neg hend, fieldAt_setFieldAt_field (Ne.symm hend)]
    by_cases hstart : f = .startBlock
    · subst hstart
      rw [if_pos rfl, fieldAt_setFieldAt_same]
      exact Nat.mod_eq_of_lt (Nat.lt_trans (Nat.mod_lt _ (by decide)) (by decide))
    · rw [if_neg hstart, fieldAt_setFieldAt_field (Ne.symm hstart)]
      by_cases htype : f = .entryType
      · subst htype
        rw [if_pos rfl, emptyEntry_type]
      · rw [if_neg htype, emptyEntry_field _ htype]

namespace Fresh

variable {v : Vol} {opts : SfsOptions} {bs : Nat}

/-- The index starts behind the data area. -/
theorem entryStart_eq (h : Fresh v opts bs) :
    v.fs.entryStart = (opts.reservedSize + opts.dataSize) * v.blockSize := by
  obtain ⟨i, hi⟩ := h.consistent.index
  have hsum := h.consistent.sum
  have hpos := h.sized.pos
  rw [h.blockSize] at hpos ⊢
  rw [hi, Nat.mul_div_cancel_left i hpos] at hsum
  rw [h.entryStart, ← h.consistent.total, ← hsum, hi, Nat.add_mul _ i, Nat.mul_comm bs i,
    Nat.add_sub_cancel]

theorem index_le (h : Fresh v opts bs) : opts.indexSize ≤ v.size := by
  obtain ⟨i, hi⟩ := h.consistent.index
  have hsum := h.consistent.sum
  have hpos := h.sized.pos
  rw [h.blockSize] at hpos
  rw [hi, Nat.mul_div_cancel_left i hpos] at hsum
  rw [hi, ← h.consistent.total, ← hsum, Nat.mul_comm]
  exact Nat.mul_le_mul_right bs (Nat.le_add_left _ _)

theorem geometry (h : Fresh v opts bs) :
    Geometry v opts.reservedSize (opts.reservedSize + opts.dataSize) where
  sized := h.sized
  lo_pos := h.consistent.reserved_pos
  lo_le := Nat.le_add_right _ _
  entryStart := h.entryStart_eq
  aligned := by
    have hdvd := Nat.dvd_trans h.sized.slots h.sized.blocks
    rw [h.volIdent]
    omega
  nonempty := by
    have hidx := h.consistent.index_ge
    have hle := h.index_le
    rw [h.entryStart, h.volIdent]
    omega
  inside := by
    have hidx := h.consistent.index_ge
    have hle := h.index_le
    rw [h.volIdent]
    omega

/-- The slots up to the first unused one. -/
theorem slots_le (h : Fresh v opts bs) : v.fs.entryStart + 192 ≤ v.fs.volIdent := by
  have hidx := h.consistent.index_ge
  have hle := h.index_le
  rw [h.entryStart, h.volIdent]
  omega

/-- Every slot of the index is one of the four kinds. -/
theorem slot_cases (h : Fresh v opts bs) {off : Nat} (hoff : v.Slot off) :
    off = v.fs.entryStart ∨ off = v.fs.entryStart + 64 ∨ off = v.fs.entryStart + 128 ∨
      v.fs.entryStart + 192 ≤ off := by
  have hal := h.geometry.start_aligned
  have hal' := hoff.aligned
  have hge := hoff.ge
  omega

/-- The type of a slot. -/
theorem type_eq (h : Fresh v opts bs) {off : Nat} (hoff : v.Slot off) :
    v.type off =
      if off = v.fs.entryStart then EntryType.startEntry.code
      else if off = v.fs.entryStart + 64 then EntryType.delFileEntry.code
      else if off = v.fs.entryStart + 128 then EntryType.dirEntry.code
      else EntryType.unusedEntry.code := by
  unfold Vol.type Vol.get
  rcases h.slot_cases hoff with heq | heq | heq | hge
  · rw [if_pos heq, heq, h.startEntry.fieldAt, emptyEntry_type]
  · rw [if_neg (by omega), if_pos heq, heq, h.freeEntry.fieldAt, freeEntryOf_field]
    rfl
  · rw [if_neg (by omega), if_neg (by omega), if_pos heq, heq, h.root.fieldAt, emptyEntry_type]
  · rw [if_neg (by omega), if_neg (by omega), if_neg (by omega), (h.unused off hge hoff).fieldAt,
      emptyEntry_type]

theorem cont_eq (h : Fresh v opts bs) {off : Nat} (hoff : v.Slot off) : v.cont off = 0 := by
  unfold Vol.cont Vol.get
  rcases h.slot_cases hoff with heq | heq | heq | hge
  · rw [heq, h.startEntry.fieldAt, emptyEntry_field _ (by decide)]
  · rw [heq, h.freeEntry.fieldAt, freeEntryOf_field]
    rfl
  · rw [heq, h.root.fieldAt, emptyEntry_field _ (by decide)]
  · rw [(h.unused off hge hoff).fieldAt, emptyEntry_field _ (by decide)]

theorem layout (h : Fresh v opts bs) : Layout v := by
  have htypes : ∀ off, v.Slot off → IsType (v.type off) := by
    intro off hoff
    rw [h.type_eq hoff]
    split
    · exact isType_code _
    · split
      · exact isType_code _
      · split <;> exact isType_code _
  refine ⟨?_, ?_, ?_, ?_, ?_⟩
  · rw [h.type_eq h.geometry.slot_start, if_pos rfl]
  · intro off hoff hne _
    rw [Vol.Head, h.type_eq hoff, if_neg hne]
    split
    · exact Or.inr (Or.inr (Or.inr rfl))
    · split
      · exact Or.inr (Or.inl rfl)
      · exact Or.inl rfl
  · intro off hoff _
    have hal := h.geometry.aligned
    have hal' := hoff.aligned
    have hlt := hoff.lt
    rw [Vol.groupEnd, h.cont_eq hoff]
    omega
  · intro off hoff _ j hj
    rw [h.cont_eq hoff] at hj
    omega
  · exact fun off hoff hnot => absurd (htypes off hoff) hnot

/-- The list has one node, for the whole data area. -/
theorem freeSpace (h : Fresh v opts bs) :
    FreeSpace v [v.fs.entryStart + 64] opts.reservedSize (opts.reservedSize + opts.dataSize) := by
  have hg := h.geometry
  have hle := h.slots_le
  have hslot : v.Slot (v.fs.entryStart + 64) :=
    ⟨Nat.le_add_right _ _, by omega, by have hal := hg.start_aligned; omega⟩
  have hpos := hg.slot_pos hslot
  have hbound := hg.block_lt
  have hrpos := h.consistent.reserved_pos
  have hrlt := h.consistent.reserved_lt
  have hfield : ∀ f, v.get (v.fs.entryStart + 64) f = fieldAt (freeEntryOf opts) 0 f :=
    fun f => h.freeEntry.fieldAt f
  have hstart : v.get (v.fs.entryStart + 64) .startBlock = opts.reservedSize := by
    rw [hfield, freeEntryOf_field, if_neg (by decide), if_pos rfl]
    omega
  have hend : v.get (v.fs.entryStart + 64) .endBlock + 1
      = opts.reservedSize + opts.dataSize := by
    rw [hfield, freeEntryOf_field, if_pos rfl]
    unfold u64 minusOne
    omega
  have hall : ∀ {P : Nat → Prop}, P (v.fs.entryStart + 64) →
      ∀ off, off ∈ [v.fs.entryStart + 64] → P off := by
    intro P hP off hoff
    rw [List.mem_singleton.1 hoff]
    exact hP
  refine ⟨⟨?_, List.nodup_singleton _, hall hslot, hall ?_, hall (h.cont_eq hslot)⟩, hall ?_,
    hall ?_, hall ?_, fun hlt => hall ?_, ?_⟩
  · refine ⟨h.delBegin, Nat.ne_of_gt hpos, ?_, ?_⟩
    · rw [Vol.prev, hfield, freeEntryOf_field]
      rfl
    · show v.next (v.fs.entryStart + 64) = 0
      rw [Vol.next, hfield, freeEntryOf_field]
      rfl
  · rw [h.type_eq hslot, if_neg (by omega), if_pos rfl]
  · rw [hstart]
  · omega
  · omega
  · omega
  · intro off hoff off' hoff' _ _ _
    rw [List.mem_singleton.1 hoff, List.mem_singleton.1 hoff']

end Fresh

/-! ## Mounting the image -/

/-- The fields of the volume that `sfs_init` mounts from an image. -/
def imageUnit (opts : SfsOptions) (size time : Nat) : SfsUnit :=
  ⟨time, size - opts.indexSize, size - opts.indexSize + 64, size - 64⟩

section Mount

variable {v : Vol} {opts : SfsOptions} {bs : Nat}

/-- The image, seen through the unit that describes it, with any time stamp in
the volume identifier. -/
theorem fresh_of_image (hs : v.Sized) (hbs : v.blockSize = bs) (hc : Consistent opts bs v.size)
    (him : Image v.data opts (v.size - opts.indexSize) (v.size - 64)) (time : Nat) (stamp : Mem) :
    Fresh { v with
      data := blit v.data (volTimeStamp + (v.size - 64)) stamp 0 8
      fs := imageUnit opts v.size time } opts bs := by
  have hidx := hc.index_ge
  have hle : v.size - opts.indexSize + 192 ≤ v.size - 64 ∧ opts.indexSize ≤ v.size := by
    obtain ⟨i, hi⟩ := hc.index
    have hsum := hc.sum
    have hpos := hs.pos
    rw [hbs] at hpos
    rw [hi, Nat.mul_div_cancel_left i hpos] at hsum
    have hmul := Nat.mul_le_mul_right bs (show i ≤ opts.totalBlock by omega)
    rw [hc.total, Nat.mul_comm, ← hi] at hmul
    omega
  have hkeep : ∀ off entr, off + 64 ≤ v.size - 64 → Holds v.data off entr →
      Holds (blit v.data (volTimeStamp + (v.size - 64)) stamp 0 8) off entr := by
    intro off entr ho h k hk
    rw [blit_outside (by unfold volTimeStamp; omega)]
    exact h k hk
  refine ⟨hs.congr rfl rfl, hbs, hc, rfl, rfl, rfl, ?_, ?_, ?_, ?_, ?_⟩
  · refine hkeep _ _ ?_ him.startEntry
    show v.size - opts.indexSize + 64 ≤ v.size - 64
    omega
  · refine hkeep _ _ ?_ him.freeEntry
    show v.size - opts.indexSize + 64 + 64 ≤ v.size - 64
    omega
  · refine hkeep _ _ ?_ him.root
    show v.size - opts.indexSize + 128 + 64 ≤ v.size - 64
    omega
  · intro off hge hoff
    have hlt : off < v.size - 64 := hoff.lt
    have hal : (v.size - 64) % 64 = 0 := by
      have hdvd := Nat.dvd_trans hs.slots hs.blocks
      omega
    have hal' := hoff.aligned
    exact hkeep off _ (by omega) (him.unused off hge hlt hal')
  · unfold Vol.type Vol.get
    dsimp only [imageUnit]
    rw [fieldAt_entryType, blit_outside (by unfold volTimeStamp; omega)]
    have h := him.volIdent 0 (by decide)
    rw [Nat.add_zero] at h
    rw [h]
    rfl

/-- The image has everything that `sfs_init` looks for. -/
theorem described_of_image (hs : v.Sized) (hbs : v.blockSize = bs)
    (hc : Consistent opts bs v.size)
    (him : Image v.data opts (v.size - opts.indexSize) (v.size - 64)) (time : Nat) :
    Described { v with fs := imageUnit opts v.size time } := by
  have hpos := hs.pos
  rw [hbs] at hpos
  obtain ⟨hdata, hindex, htotal, hreserved, hshift⟩ := mbrImage_fields hc hpos
  have hnum : ∀ off n, off + n ≤ 512 → getLE v.data off n = getLE (mbrImage opts) off n :=
    fun off n hn => getLE_congr fun k hk => him.mbr _ (by omega)
  have hblock : getLE v.data mbrBlockSize 1 = opts.blockSize :=
    (hnum _ _ (by decide)).trans hshift
  have hbytes : mbrBlockBytes v.data = bs := by
    rw [mbrBlockBytes, hblock, ← hc.blockSize, Nat.pow_add, Nat.mul_comm]
  have hres : getLE v.data mbrReservedSize 4 = opts.reservedSize :=
    (hnum _ _ (by decide)).trans hreserved
  have hfresh := fresh_of_image hs hbs hc him time
    (fun i => v.data (volTimeStamp + (v.size - 64) + i))
  have hstart : v.size - opts.indexSize = (opts.reservedSize + opts.dataSize) * v.blockSize :=
    hfresh.entryStart_eq
  have hidx : opts.indexSize ≤ v.size := hfresh.index_le
  refine ⟨?_, ?_, hbytes.trans hbs.symm, ?_, ?_, ?_⟩
  · have hmbr := hc.mbr
    have hmul := Nat.mul_le_mul_right v.blockSize (Nat.le_add_right opts.reservedSize opts.dataSize)
    rw [← hstart, hbs] at hmul
    show 512 ≤ v.size
    omega
  · dsimp only
    have h := mbrImage_checksum hc hpos
    have hmagic : ∀ a b c d, calcChecksum (fun i => v.data (mbrMagicNumber + i)) a b c d
        = calcChecksum (fun i => mbrImage opts (mbrMagicNumber + i)) a b c d := by
      intro a b c d
      simp only [calcChecksum]
      rw [him.mbr _ (by decide), him.mbr _ (by decide), him.mbr _ (by decide)]
    rw [hnum _ _ (by decide), hmagic, hnum _ _ (by decide), hnum _ _ (by decide),
      hnum _ _ (by decide), hnum _ _ (by decide)]
    exact h
  · show getLE v.data mbrReservedSize 4 * mbrBlockBytes v.data < 4294967296
    rw [hres, hbytes]
    exact hc.narrow
  · show v.size - opts.indexSize
      = (getLE v.data mbrReservedSize 4 + getLE v.data mbrDataAreaSize 8) * mbrBlockBytes v.data
    rw [hres, hbytes, hnum _ _ (by decide), hdata, ← hbs]
    exact hstart
  · show v.size - opts.indexSize + getLE v.data mbrIndexAreaSize 8 = v.size - 64 + 64
    rw [hnum _ _ (by decide), hindex]
    have h64 : 64 ≤ v.size := by
      have hidx' := hc.index_ge
      omega
    omega

/-- Mounting an image gives a fresh volume. -/
theorem gives_mountImage {t : Img} (hs : t.vol.Sized) (hbs : t.vol.blockSize = bs)
    (hc : Consistent opts bs t.vol.size)
    (him : Image t.vol.data opts (t.vol.size - opts.indexSize) (t.vol.size - 64))
    (hsee : t.indexOnly = false) :
    Gives sfsInit t fun r t' => r = 0 ∧ Fresh t'.vol opts bs ∧
      t'.vol.size = t.vol.size ∧ t'.vol.fs.time = u64 opts.timeStamp := by
  -- The bytes of the time stamp as they are, for the volume before `sfs_init`.
  have hfresh := fresh_of_image hs hbs hc him 0
    (fun i => t.vol.data (volTimeStamp + (t.vol.size - 64) + i))
  have hsame : blit t.vol.data (volTimeStamp + (t.vol.size - 64))
      (fun i => t.vol.data (volTimeStamp + (t.vol.size - 64) + i)) 0 8 = t.vol.data := by
    funext k
    by_cases hk : volTimeStamp + (t.vol.size - 64) ≤ k ∧ k < volTimeStamp + (t.vol.size - 64) + 8
    · rw [blit_inside hk.1 hk.2, Nat.zero_add, Nat.add_sub_cancel' hk.1]
    · rw [blit_outside (by omega)]
  rw [hsame] at hfresh
  have hlist := hfresh.freeSpace
  have hroot := hfresh.slots_le
  have hg := hfresh.geometry
  have hslot : Vol.Slot { t.vol with fs := imageUnit opts t.vol.size 0 }
      (t.vol.size - opts.indexSize + 128) :=
    ⟨Nat.le_add_right _ _, by
      have h : t.vol.size - opts.indexSize + 192 ≤ t.vol.size - 64 := hroot
      show t.vol.size - opts.indexSize + 128 < t.vol.size - 64
      omega, by
      have h : (t.vol.size - opts.indexSize) % 64 = 0 := hg.start_aligned
      omega⟩
  have hat : ListAt { t.vol with fs := imageUnit opts t.vol.size 0 }
      (t.vol.size - opts.indexSize + 64) [t.vol.size - opts.indexSize + 64] := by
    refine ⟨hlist.chain, hlist.slot, hlist.type, fun off hoff htype hnot => ?_⟩
    exfalso
    rw [hfresh.type_eq hoff] at htype
    split at htype
    · exact absurd htype (by decide)
    · split at htype
      · rename_i heq
        exact hnot (List.mem_singleton.2 heq)
      · split at htype <;> exact absurd htype (by decide)
  refine (gives_sfsInit (v := { t.vol with fs := imageUnit opts t.vol.size 0 }) t.vol.fs rfl
    (described_of_image hs hbs hc him 0) hg.area hat ?_ ?_ hroot hsee).mono fun r t'
      ⟨hr, hvol⟩ => ?_
  · show Vol.type _ (t.vol.size - opts.indexSize + 128) = _
    have h₁ : t.vol.size - opts.indexSize + 128 ≠ t.vol.size - opts.indexSize := by omega
    have h₂ : t.vol.size - opts.indexSize + 128 ≠ t.vol.size - opts.indexSize + 64 := by omega
    rw [hfresh.type_eq hslot, if_neg (by exact h₁), if_neg (by exact h₂), if_pos (by rfl)]
  · exact hfresh.root 10 (by decide)
  · rw [hvol]
    refine ⟨hr, ?_, rfl, ?_⟩
    · exact fresh_of_image hs hbs hc him
        (getLE t.vol.data (volTimeStamp + (t.vol.size - 64)) 8) (fun _ => 0)
    · show getLE t.vol.data (volTimeStamp + (t.vol.size - 64)) 8 = u64 opts.timeStamp
      have hbytes : getLE t.vol.data (volTimeStamp + (t.vol.size - 64)) 8
          = getLE (volEntry opts) volTimeStamp 8 := by
        refine getLE_congr fun k hk => ?_
        rw [show volTimeStamp + (t.vol.size - 64) + k = t.vol.size - 64 +
          (volTimeStamp + k) by omega]
        exact him.volIdent _ (by unfold volTimeStamp; omega)
      rw [hbytes]
      unfold volEntry memcpy
      rw [getLE_blit_of_disjoint (Or.inl (by decide)), getLE_putLE_same]
      rfl

end Mount

/-- The index of a volume that was just formatted: the start entry, a free node
for the whole data area, the root directory, unused entries, and the volume
identifier behind them. -/
structure FreshIndex (v : Vol) (opts : SfsOptions) : Prop where
  startType : v.type v.fs.entryStart = EntryType.startEntry.code
  nodeType : v.type (v.fs.entryStart + 64) = EntryType.delFileEntry.code
  nodeName : HoldsStr v.data (v.fs.entryStart + 64 + fileKind.name) (cstr freeName)
  nodeLinks : v.prev (v.fs.entryStart + 64) = 0 ∧ v.next (v.fs.entryStart + 64) = 0
  nodeStart : v.get (v.fs.entryStart + 64) .startBlock = opts.reservedSize
  nodeEnd : v.get (v.fs.entryStart + 64) .endBlock + 1 = opts.reservedSize + opts.dataSize
  rootType : v.type (v.fs.entryStart + 128) = EntryType.dirEntry.code
  rootName : v.data (v.fs.entryStart + 128 + dirKind.name) = 0
  unused : ∀ off, v.Slot off → v.fs.entryStart + 192 ≤ off →
    v.type off = EntryType.unusedEntry.code
  last : v.fs.entryStart + 192 ≤ v.fs.volIdent
  identType : v.type v.fs.volIdent = EntryType.volIdent.code

theorem Fresh.index {v : Vol} {opts : SfsOptions} {bs : Nat} (h : Fresh v opts bs) :
    FreshIndex v opts := by
  have hf := h.freeSpace
  have hmem : v.fs.entryStart + 64 ∈ [v.fs.entryStart + 64] := List.mem_singleton_self _
  have hslot := hf.slot _ hmem
  have hfield : ∀ f, v.get (v.fs.entryStart + 64) f = fieldAt (freeEntryOf opts) 0 f :=
    fun f => h.freeEntry.fieldAt f
  have hrlt := h.consistent.reserved_lt
  have hrpos := h.consistent.reserved_pos
  have hbound := h.geometry.block_lt
  refine ⟨?_, hf.type _ hmem, ?_, ⟨?_, ?_⟩, ?_, ?_, ?_, ?_, ?_, h.slots_le, h.identType⟩
  · rw [h.type_eq h.geometry.slot_start, if_pos rfl]
  · -- The name field is what `strncpy` put there.
    have hchar : ∀ i, i < 29 → v.data (v.fs.entryStart + 64 + fileKind.name + i)
        = if i < strlen freeName then freeName.char i else 0 := by
      intro i hi
      rw [Nat.add_assoc (v.fs.entryStart + 64)]
      refine (h.freeEntry (fileKind.name + i) (show 34 + i < 64 by omega)).trans ?_
      unfold freeEntryOf strncpy
      dsimp only
      rw [blit_add hi, Nat.zero_add]
    refine ⟨fun i hi => ?_, cstr_ne_zero _, ?_⟩
    · have hi' : i < strlen freeName := by rwa [← cstr_length]
      rw [hchar i (Nat.lt_trans hi' (by decide)), if_pos hi']
      exact char_eq_cstr freeName hi
    · rw [cstr_length, hchar _ (by decide), if_neg (Nat.lt_irrefl _)]
  · rw [Vol.prev, hfield, freeEntryOf_field]
    rfl
  · rw [Vol.next, hfield, freeEntryOf_field]
    rfl
  · rw [hfield, freeEntryOf_field, if_neg (by decide), if_pos rfl]
    omega
  · rw [hfield, freeEntryOf_field, if_pos rfl]
    unfold u64 minusOne
    omega
  · have hroot : v.Slot (v.fs.entryStart + 128) := by
      have hle := h.slots_le
      have hal := h.geometry.start_aligned
      exact ⟨Nat.le_add_right _ _, by omega, by omega⟩
    rw [h.type_eq hroot, if_neg (by omega), if_neg (by omega), if_pos rfl]
  · exact h.root dirKind.name (by decide)
  · intro off hoff hge
    rw [h.type_eq hoff, if_neg (by omega), if_neg (by omega), if_neg (by omega)]

/-- A device for which `mksfs` computed its options is made of whole slots and
blocks. -/
theorem sized_of_mksfs {s : Sys} {fileSize bs : Nat} {blockSizeS : Option Scanned}
    {opts : SfsOptions} (hbs : mksfsBlockSize blockSizeS = some bs)
    (hc : Consistent opts bs fileSize) (hfile : fileSize < 9223372036854775808)
    (hb : s.dev.blockSize = bs) (hsz : s.dev.size = fileSize) : s.vol.Sized := by
  obtain ⟨k, hk⟩ := mksfsBlockSize_pow hbs
  refine ⟨?_, ?_, ?_, ?_⟩
  · show 0 < s.dev.blockSize
    rw [hb, hk]
    exact Nat.pow_pos (by decide)
  · show 64 ∣ s.dev.blockSize
    rw [hb, hk]
    exact Nat.pow_dvd_pow 2 (by omega : 6 ≤ k + 8)
  · show s.dev.blockSize ∣ s.dev.size
    rw [hb, hsz, ← hc.total]
    exact Nat.dvd_mul_left _ _
  · show s.dev.size < _
    rw [hsz]
    exact hfile

/-- What `main` of `mksfs` computes, `image_create` writes, and `sfs_init`
mounts, agree. -/
theorem format_then_mount {fileSize now bs : Nat} {blockSizeS indexSizeS : Option Scanned}
    {label : Buf} {opts : SfsOptions} (hfile : fileSize < 9223372036854775808)
    (hbs : mksfsBlockSize blockSizeS = some bs) (hmax : bs ≤ 2 ^ 30)
    (hnow : now < 18446744073709551616)
    (h : mksfsOptions fileSize blockSizeS indexSizeS label now = some opts) :
    opts.reservedSize + opts.dataSize + opts.indexSize / bs = opts.totalBlock ∧
    ∀ s : Sys, s.dev.Quiet → s.dev.Coherent → s.dev.blockSize = bs → s.dev.size = fileSize →
      ∃ s₁, s.exec (imageCreate opts) = some (0, s₁) ∧
      ∀ s₂ : Sys, s₂.dev.Quiet → s₂.dev.Coherent → s₂.dev.blockSize = bs →
        s₂.dev.size = fileSize → s₂.dev.data = s₁.dev.data →
        ∃ s₃, s₂.exec sfsInit = some (0, s₃) ∧
          s₃.fs.entryStart = opts.totalBlock * bs - opts.indexSize ∧
          s₃.fs.volIdent = opts.totalBlock * bs - 64 ∧
          s₃.fs.delBegin = s₃.fs.entryStart + 64 ∧ s₃.fs.time = now ∧
          FreshIndex s₃.vol opts ∧
          ∀ entr, ∃ entr' s₄,
            s₃.exec (scanDelFileList entr) = some ((opts.dataSize * bs, entr'), s₄) := by
  have hc := mksfsOptions_consistent hfile hbs hmax h
  have htime : opts.timeStamp = now := by
    obtain ⟨bs', index, -, -, -, -, -, -, hopts⟩ := mksfsOptions_some h
    rw [hopts]
  have hsized : ∀ s : Sys, s.dev.blockSize = bs → s.dev.size = fileSize → s.vol.Sized :=
    fun s => sized_of_mksfs hbs hc hfile
  refine ⟨hc.sum, fun s hq hco hb hsz => ?_⟩
  obtain ⟨r₁, s₁, t₁, hrun₁, hshow₁, hr₁, hb₁, hsz₁, him⟩ :=
    transfer (Sys.shows_img hq hco (hsized s hb hsz))
      (gives_imageCreate (hsized s hb hsz) hb (hsz ▸ hc))
  subst hr₁
  refine ⟨s₁, hrun₁, fun s₂ hq₂ hco₂ hb₂ hsz₂ hdata => ?_⟩
  have hsz₁' : t₁.vol.size = fileSize := hsz₁.trans hsz
  have him₂ : Image s₂.vol.data opts (s₂.vol.size - opts.indexSize) (s₂.vol.size - 64) := by
    show Image s₂.dev.data opts (s₂.dev.size - opts.indexSize) (s₂.dev.size - 64)
    have hsize : s.img.vol.size = fileSize := hsz
    rw [hdata, hshow₁.data, hsz₂, ← hsize]
    exact him
  obtain ⟨r₃, s₃, t₃, hrun₃, hshow₃, hr₃, hfresh, hsz₃, htime₃⟩ :=
    transfer (Sys.shows_img hq₂ hco₂ (hsized s₂ hb₂ hsz₂))
      (gives_mountImage (t := s₂.img) (hsized s₂ hb₂ hsz₂) hb₂ (by
        show Consistent opts bs s₂.dev.size
        rw [hsz₂]
        exact hc) him₂ rfl)
  subst hr₃
  have hsize₃ : t₃.vol.size = opts.totalBlock * bs := by
    rw [hc.total, ← hsz₂]
    exact hsz₃
  refine ⟨s₃, hrun₃, ?_, ?_, ?_, ?_, ?_, fun entr => ?_⟩
  · rw [hshow₃.fs, hfresh.entryStart, hsize₃]
  · rw [hshow₃.fs, hfresh.volIdent, hsize₃]
  · rw [hshow₃.fs]
    exact hfresh.delBegin
  · rw [hshow₃.fs, htime₃, htime, u64, Nat.mod_eq_of_lt hnow]
  · rw [hshow₃.vol]
    exact hfresh.index
  · obtain ⟨r₄, s₄, t₄, hrun₄, -, -, hret⟩ :=
      transfer hshow₃ (gives_scanDelFileList entr hfresh.geometry hfresh.freeSpace)
    refine ⟨r₄.2, s₄, ?_⟩
    rw [hrun₄]
    have hblocks : t₃.vol.freeBlocks [t₃.vol.fs.entryStart + 64] = opts.dataSize := by
      have hstart := hfresh.index.nodeStart
      have hend := hfresh.index.nodeEnd
      unfold Vol.freeBlocks Vol.extent
      rw [List.map_singleton, List.sum_singleton]
      omega
    have hmul := Nat.mul_le_mul_right bs (Nat.le_add_left opts.dataSize opts.reservedSize)
    have hmul' :=
      Nat.mul_le_mul_right bs (show opts.reservedSize + opts.dataSize ≤ opts.totalBlock by
      rw [← hc.sum]
      exact Nat.le_add_right _ _)
    rw [hc.total] at hmul'
    rw [hblocks, hfresh.blockSize, Nat.mul_comm, u64, Nat.mod_eq_of_lt (by omega)] at hret
    rw [← hret]

/-- A disk of 4096 zeros in blocks of 512 bytes. -/
def blankDisk : Sys where
  dev := openDevice 512 4096 (fun _ => 0) fun _ => 0
  fs := ⟨0, 0, 0, 0⟩
  errno := 0
  clock := fun _ => 0
  ticks := 0
  stack := fun _ => 0

theorem format_then_mount_blankDisk :
    ∃ opts, mksfsOptions 4096 none none [0] 7 = some opts ∧
      ∃ s₁ s₃, blankDisk.exec (imageCreate opts) = some (0, s₁) ∧
        Sys.exec { blankDisk with dev := { blankDisk.dev with data := s₁.dev.data } } sfsInit
          = some (0, s₃) ∧
        s₃.fs.entryStart = 3584 ∧ s₃.fs.volIdent = 4032 ∧ s₃.fs.time = 7 := by
  refine ⟨_, rfl, ?_⟩
  obtain ⟨-, hformat⟩ := format_then_mount (by decide) (rfl : mksfsBlockSize none = some 512)
    (by decide) (by decide)
    (rfl : mksfsOptions 4096 none none [0] 7 = some _)
  have hcoh : ∀ d : Mem, BlockDev.Coherent { blankDisk.dev with data := d } :=
    fun d => BlockDev.coherent_of_none rfl
  obtain ⟨s₁, hrun₁, hmount⟩ := hformat blankDisk (fun _ => rfl) (hcoh _) rfl rfl
  obtain ⟨s₃, hrun₃, hstart, hident, -, htime, -⟩ :=
    hmount { blankDisk with dev := { blankDisk.dev with data := s₁.dev.data } } (fun _ => rfl)
      (hcoh _) rfl rfl rfl
  exact ⟨s₁, s₃, hrun₁, hrun₃, hstart, hident, htime⟩

end Sfs
