import Sfs.Durable
import Sfs.Fixfs
import Sfs.FuseOps
import Sfs.Statfs

/-!
# Mounting an image

`fuse_sfs_init` finds the size of the blocks and of the device in the MBR of the
image file, opens the device, mounts the unit with `sfs_init`, checks the time of the
last change and the sum of the spaces, and asks the user where one of them is not as
it should be.  `fuse_sfs_destroy` unmounts the unit.

* `Boot` is what `fuse_sfs_init` meets outside the program, `fuseSfsInit` and
  `fuseSfsDestroy` are the functions of the source;
* `Vol.SameSlots` relates two volumes that differ behind the slots of the index only,
  in the volume identifier, and `restamped` is what does not change with that;
* `Boot.decides` is what comes of the questions to the user;
* `Rests.release` is an unmount, and `View.Sound.init` says when an image is mounted and
  what it is then.
-/

namespace Sfs

open Lib FileTree

/-! ## The functions -/

/-- `S_IFBLK`. -/
def sIFBLK : Nat := 0o060000

/-- What `fuse_sfs_init` meets outside the program: the attributes of the image and its
length, whether it can be opened, what is in new memory, which accesses fail, the keys
that the user types, and what `inode_map_create` gets, if anything. -/
structure Boot where
  mode : Nat
  mtime : Int
  length : Nat
  readable : Bool
  writable : Bool
  unit : SfsUnit
  buf : Mem
  faults : Nat → Option Mem
  keys : List UInt8
  table : Option FileT

/-- A `read` of `n` bytes into a variable that is 0: what it returns, and the variable. -/
def Boot.read (b : Boot) (image : Mem) (pos n : Nat) : Int × Nat :=
  if b.readable then
    let ret := min n (b.length - pos)
    (ret, getLE image pos ret)
  else (-1, 0)

/-- What a `time_t` holds that is read as 64 bits. -/
def timeT (n : Nat) : Int := (BitVec.ofNat 64 n).toInt

/-- The difference of two `time_t`, `st_mtime` and the time of the unit; `none` where it
overflows, which is undefined. -/
def Boot.lateness (b : Boot) (time : Nat) : Option Int :=
  let late := b.mtime - timeT time
  if -9223372036854775808 ≤ late ∧ late < 9223372036854775808 then some late else none

/-- A question that is asked until one of two keys is typed.  At the end of the input
it is asked for ever. -/
def askKey (yes no answer : UInt8) : List UInt8 → Option (UInt8 × List UInt8)
  | [] => if answer = yes ∨ answer = no then some (answer, []) else none
  | key :: keys =>
    if answer = yes ∨ answer = no then some (answer, key :: keys) else askKey yes no key keys

/-- A question under a condition, with the answer and the keys that are left. -/
def askWhen (c : Prop) [Decidable c] (yes no answer : UInt8) (keys : List UInt8) :
    Option (UInt8 × List UInt8) :=
  if c then askKey yes no answer keys else some (answer, keys)

/-- A function that sets up or takes down the unit; `none` when it does something
undefined or never returns. -/
abbrev MountM := StateT Sys Option

/-- A call of a function of the file system. -/
def MountM.call {α : Type} (p : SfsM α) : MountM α := fun s => s.exec p

/-- `filedev_create`, `filedev_init` and the `malloc` of the unit. -/
def Boot.attach (b : Boot) (bs size : Nat) (s : Sys) : Sys :=
  { s with
    dev := { openDevice bs size s.dev.data b.buf with faults := b.faults }
    fs := b.unit }

/-- The keys `Y`, `n`, `y` and `N`. -/
def keyYes : UInt8 := 0x59

def keyNo : UInt8 := 0x6E

def keyYesAnyway : UInt8 := 0x79

def keyNoThanks : UInt8 := 0x4E

/-- `fuse_sfs_init` from the question about the time of modification on, with the
inode map, or `none` where it exits. -/
def fuseSfsCheck (b : Boot) : MountM (Option InodeMap) := do
  let fs ← MountM.call unit
  let late ← b.lateness fs.time
  let (answer, keys) ← askWhen (1 < late) keyYes keyNo 0 b.keys
  if answer = keyNo then pure none
  else
    let mbr ← MountM.call uninit
    let (_, mbr) ← MountM.call (readDataM 0 mbr mbrSize)
    let bs ← MountM.call blockSize
    let dataSize := u64 (getLE mbr mbrDataAreaSize 8 * bs)
    let entr ← MountM.call uninit
    let (freeSize, entr) ← MountM.call (scanDelFileList entr)
    if freeSize = minusOne then pure none
    else
      let (usedSize, entr) ← MountM.call (scanUsedSpace entr)
      let (answer, _) ←
        askWhen (dataSize ≠ u64 (freeSize + usedSize)) keyYesAnyway keyNoThanks answer keys
      if answer = keyNoThanks then pure none
      else
        let _ ← MountM.call (fixNonDelFile entr)
        match b.table with
        | none =>
          let _ ← MountM.call sfsRelease
          pure none
        | some junk => pure (some (inodeMapCreate junk))

/-- `fuse_sfs_init`.  The shift is one of an `int`, so undefined from 24 on. -/
def fuseSfsInit (b : Boot) : MountM (Option InodeMap) := do
  let s ← get
  let image := s.dev.data
  if b.mode &&& sIFBLK = 0 ∧ b.mode &&& sIFREG = 0 then pure none
  else
    let (ret, bsP2) := b.read image mbrBlockSize 1
    if ret = 0 then pure none
    else if 24 ≤ bsP2 then failure
    else
      let bs := 128 * 2 ^ bsP2
      if bs ≤ 128 then pure none
      else
        let (ret, fileSize) := b.read image mbrTotalSize 8
        if ret = 0 then pure none
        else if b.writable = false then pure none
        else
          set (b.attach bs (u64 (fileSize * bs)) s)
          let ret ← MountM.call sfsInit
          if ret < 0 then pure none else fuseSfsCheck b

/-- `fuse_sfs_destroy`. -/
def fuseSfsDestroy : MountM Unit := do
  let _ ← MountM.call sfsRelease
  pure ()

/-! ## Volumes with the same slots -/

/-- The volumes differ behind the slots of the index and in the time of the unit only. -/
structure Vol.SameSlots (v v' : Vol) : Prop where
  area : SameArea v v'
  delBegin : v'.fs.delBegin = v.fs.delBegin
  data : ∀ k, k < v.fs.volIdent → v'.data k = v.data k

namespace Vol.SameSlots

variable {v v' v'' : Vol} {nodes : List Nat} {lo hi off : Nat}

theorem trans (h : v.SameSlots v') (h' : v'.SameSlots v'') : v.SameSlots v'' where
  area := h.area.trans h'.area
  delBegin := h'.delBegin.trans h.delBegin
  data k hk := (h'.data k (by rw [h.area.volIdent]; exact hk)).trans (h.data k hk)

theorem get_eq (h : v.SameSlots v') (ha : Area v) (hoff : v.Slot off) (f : Field) :
    v'.get off f = v.get off f := by
  have hlt := hoff.lt
  have hal := hoff.aligned
  have hal' := ha.aligned
  exact Vol.get_congr fun k hk => h.data _ (by omega)

theorem type_eq (h : v.SameSlots v') (ha : Area v) (hoff : v.Slot off) :
    v'.type off = v.type off := h.get_eq ha hoff _

theorem sameGroup (h : v.SameSlots v') (hl : Layout v) (hoff : v.Slot off) (hhead : v.Head off) :
    v.SameGroup v' off :=
  fun k _ hk => h.data k (Nat.lt_of_lt_of_le hk (hl.inside off hoff hhead))

theorem isFile_iff (h : v.SameSlots v') (ha : Area v) :
    v'.IsFile nodes off ↔ v.IsFile nodes off := by
  rw [Vol.IsFile, Vol.IsFile, h.area.slot]
  exact and_congr_right fun hoff => by rw [h.type_eq ha hoff]

theorem isDir_iff (h : v.SameSlots v') (ha : Area v) : v'.IsDir off ↔ v.IsDir off := by
  rw [Vol.IsDir, Vol.IsDir, h.area.slot]
  exact and_congr_right fun hoff => by rw [h.type_eq ha hoff]

theorem keeps (h : v.SameSlots v') (hl : Layout v) (ha : Area v) (a : Nat) :
    v.Keeps v' nodes nodes a where
  area := h.area
  file _ _ := h.isFile_iff ha
  dir _ _ := h.isDir_iff ha
  sameFile _ _ ho := h.sameGroup hl ho.1 ho.head
  sameDir _ _ ho := h.sameGroup hl ho.1 (Or.inl ho.2)

theorem space (h : v.SameSlots v') (ha : Area v) (hf : FreeSpace v nodes lo hi) :
    FreeSpace v' nodes lo hi :=
  hf.congr h.area h.delBegin fun o ho => h.get_eq ha (hf.slot o ho)

theorem free_iff (h : v.SameSlots v') (ha : Area v) (hf : FreeList v nodes) {b : Nat} :
    v'.Free nodes b ↔ v.Free nodes b :=
  Vol.free_congr fun o ho => h.get_eq ha (hf.slot o ho)

theorem wellFormed (h : v.SameSlots v') (hw : WellFormed v nodes lo hi) :
    WellFormed v' nodes lo hi := by
  have hg := hw.geometry
  have ha := hg.area
  have hzero : ¬ v'.Slot 0 := fun hs =>
    absurd (hg.slot_pos (h.area.slot.1 hs)) (Nat.lt_irrefl 0)
  have hkeeps : v.Keeps v' nodes nodes 0 := h.keeps hw.layout ha 0
  have hlayout : Layout v' :=
    hw.layout.update hg h.area fun o ho => Or.inl ⟨h.type_eq ha ho, fun _ => h.get_eq ha ho _⟩
  refine hw.of_keeps hkeeps ?_ (fun hfile => absurd hfile.1 hzero) fun hdir => absurd hdir.1 hzero
  refine hw.edit hkeeps hlayout (h.space ha hw.space) (fun hfile => absurd hfile.1 hzero)
    (fun b hfree o _ ho hown => ?_) fun hfile => absurd hfile.1 hzero
  exact hw.apart o ho b hown ((h.free_iff ha hw.space.toFreeList).1 hfree)

theorem emptyFiles (h : v.SameSlots v') (ha : Area v) : v'.emptyFiles = v.emptyFiles := by
  refine congrArg Finset.card (Finset.ext fun o => ?_)
  have hslot : v'.Slot o ↔ v.Slot o := h.area.slot
  simp only [Finset.mem_filter, Vol.mem_files, Vol.LiveFile, hslot, and_assoc]
  exact and_congr_right fun ho => by rw [h.type_eq ha ho, h.get_eq ha ho]

theorem coalesced (h : v.SameSlots v') (ha : Area v) (hc : Coalesced v nodes lo hi) :
    Coalesced v' nodes lo hi :=
  hc.congr h.area h.delBegin (fun o ho => h.get_eq ha (hc.slot o ho)) fun o ho =>
    (hc.named o ho).congr fun i _ hi => h.data _ (by
      have hlt := (hc.slot o ho).lt
      have hal := (hc.slot o ho).aligned
      have hal' := ha.aligned
      omega)

end Vol.SameSlots

section Restamped

variable {V : View} {v' : Vol} {lo hi : Nat} {opts : SfsOptions}

theorem View.Sound.restamped (hV : V.Sound lo hi) (h : V.vol.SameSlots v') :
    View.Sound ⟨v', V.nodes, V.pending⟩ lo hi := by
  refine ⟨h.wellFormed hV.toWellFormed, fun f hf => ?_, hV.distinct⟩
  exact ((h.keeps hV.layout hV.geometry.area (f + 1)).pending_iff
    (Nat.ne_of_lt (Nat.lt_succ_self f))).2 (hV.unlinked f hf)

/-- The tree of a volume is in the slots and in the blocks. -/
theorem View.Sound.same_restamped (hV : V.Sound lo hi) (h : V.vol.SameSlots v') :
    V.tree.Same (View.tree ⟨v', V.nodes, V.pending⟩) where
  named k p o := by
    have hkeeps : V.vol.Keeps v' V.nodes V.nodes (o + 1) :=
      h.keeps hV.layout hV.geometry.area (o + 1)
    have hne : o ≠ o + 1 := Nat.ne_of_lt (Nat.lt_succ_self o)
    cases k with
    | file => exact hkeeps.namedFile_iff hne
    | dir => exact hkeeps.named_iff hne
  content o := by
    have ha := hV.geometry.area
    have hiff : v'.IsFile V.nodes o ↔ V.vol.IsFile V.nodes o := h.isFile_iff ha
    by_cases hfile : V.vol.IsFile V.nodes o
    · rw [View.content_file hfile]
      refine (View.content_file (hiff.2 hfile)).trans (congrArg some ?_)
      show v'.content o = V.vol.content o
      unfold Vol.content Vol.fileByte
      rw [h.get_eq ha hfile.1, h.get_eq ha hfile.1, h.area.blockSize]
      refine List.map_congr_left fun i hi => h.data _ ?_
      have hle := hV.range_le hfile (Nat.le_of_eq (Nat.zero_add (V.vol.get o .size)))
      have hlt := hV.geometry.nonempty
      have hmem := List.mem_range.1 hi
      omega
    · rw [View.content_none hfile]
      exact View.content_none fun hfile' => hfile (hiff.1 hfile')
  unlinked _ := Iff.rfl

theorem View.Durable.restamped (hD : V.Durable opts)
    (hV : V.Sound opts.reservedSize (opts.reservedSize + opts.dataSize))
    (h : V.vol.SameSlots v') : View.Durable ⟨v', V.nodes, V.pending⟩ opts := by
  have hg := hV.geometry
  have ha := hg.area
  have hsame := hV.same_restamped h
  have hzero : ¬ V.vol.Slot 0 := fun hs => absurd (hg.slot_pos hs) (Nat.lt_irrefl 0)
  have hcov : View.Covered ⟨v', V.nodes, V.pending⟩ opts.reservedSize
      (opts.reservedSize + opts.dataSize) :=
    hD.covered.of_keeps_none (h.keeps hV.layout ha 0) hzero fun b hb =>
      (h.free_iff ha hV.space.toFreeList).2 hb
  refine ⟨hD.toFormatted.of_same h.area (fun k hk => h.data k ?_) hcov,
    hD.names.congr hsame.named hsame.unlinked, ?_, h.coalesced ha hD.coalesced⟩
  · exact Nat.lt_trans (hg.lt_entryStart hk) hg.nonempty
  · rw [h.area.entryStart]
    exact (hsame.named .dir [] _).2 hD.root

end Restamped

/-! ## Unmounting -/

/-- The time stamp of the volume identifier. -/
def Vol.stamp (v : Vol) : Nat := getLE v.data (volTimeStamp + v.fs.volIdent) 8

section Release

variable {dev : BlockDev} {v : Vol} {lo hi offset size : Nat}

/-- `write_data` reads its first block whatever is in the cache. -/
theorem writeData_forget (hq : dev.Quiet) (hblock : dev.HasBlock (offset / dev.blockSize))
    (data : Mem) :
    writeData dev offset data size = writeData { dev with bufNum := none } offset data size := by
  have hnone : dev.faults dev.accesses = none := hq _
  unfold BlockDev.HasBlock at hblock
  unfold writeData
  simp [BlockDev.read, hnone, Nat.not_lt.2 hblock]

theorem reloads_sfsRelease (hg : Geometry v lo hi) : Reloads v hi sfsRelease := by
  intro s hs
  have hin := hg.inside
  have hsmall := hg.sized.small
  have hfs : s.fs = v.fs := congrArg Vol.fs hs.vol
  have hbs : s.dev.blockSize = v.blockSize := congrArg Vol.blockSize hs.vol
  have hsize : s.dev.size = v.size := congrArg Vol.size hs.vol
  have hoffset : u64 (s.fs.volIdent + volTimeStamp) = v.fs.volIdent + 4 := by
    rw [hfs]
    exact u64_of_lt (n := v.fs.volIdent + 4) (by omega)
  have hblock : s.dev.HasBlock ((v.fs.volIdent + 4) / s.dev.blockSize) := by
    have hhas := hg.sized.hasBlock (show v.fs.volIdent + 4 < v.size by omega)
    unfold BlockDev.HasBlock
    rw [hbs, hsize]
    exact hhas
  -- The time is in the unit, and the write does not look at the cache.
  let s₁ : Sys := { s with ticks := s.ticks + 1, fs := { s.fs with time := u64 (s.clock s.ticks) } }
  have hupdate : s.exec update = some ((), s₁) := rfl
  have hupdate' : s.forget.exec update = some ((), s₁.forget) := rfl
  have hwrite : ∀ data, s₁.exec (writeDataM (u64 (s₁.fs.volIdent + volTimeStamp)) data 8)
      = s₁.forget.exec (writeDataM (u64 (s₁.fs.volIdent + volTimeStamp)) data 8) := by
    intro data
    show Sys.handle (.writeData _ data 8) s₁ >>= _
      = Sys.handle (.writeData _ data 8) s₁.forget >>= _
    unfold Sys.handle
    dsimp only
    have hforget : writeData s₁.dev (v.fs.volIdent + 4) data 8 = _ :=
      writeData_forget hs.quiet hblock data
    rw [show s₁.fs.volIdent = s.fs.volIdent from rfl, hoffset, hforget]
    rfl
  unfold sfsRelease
  rw [Sys.exec_bind hupdate, Sys.exec_bind hupdate',
    Sys.exec_bind (show s₁.exec unit = some (s₁.fs, s₁) from rfl),
    Sys.exec_bind (show s₁.forget.exec unit = some (s₁.fs, s₁.forget) from rfl),
    Sys.exec, Sys.exec, Prog.exec_bind, Prog.exec_bind]
  exact congrArg (· >>= _) (hwrite _)

/-- `sfs_release` leaves the time in the volume identifier, and the slots as they are. -/
theorem Rests.release {s : Sys} (h : Rests v hi s) (hg : Geometry v lo hi) :
    ∃ s' v', s.exec sfsRelease = some (0, s') ∧ v.SameSlots v' ∧ Rests v' hi s' ∧
      v'.stamp = s'.fs.time := by
  have hp : ∀ t : Img, t.vol = v → Gives sfsRelease t fun r t' => r = 0 ∧ ∃ time,
      t'.vol = { v with
        data := blit v.data (v.fs.volIdent + volTimeStamp) (putLE (fun _ => 0) 0 8 (u64 time)) 0 8
        fs := { v.fs with time := u64 time } } := by
    intro t ht
    have hgives := gives_sfsRelease (t := t) (ht ▸ hg.area)
    rw [ht] at hgives
    exact hgives.mono fun r t' hr => ⟨hr.1, _, hr.2⟩
  obtain ⟨r, s', t', hrun, ⟨rfl, time, hvol⟩, hrests, -⟩ :=
    h.exec hg.sized (reloads_sfsRelease hg).ignores hp
  have hfs : s'.fs.time = t'.vol.fs.time :=
    congrArg (fun w => w.fs.time) (hrests.elim (fun h => h.vol) fun h => h.vol)
  refine ⟨s', t'.vol, hrun, ?_, hrests, ?_⟩
  · rw [hvol]
    exact ⟨⟨rfl, rfl, rfl, rfl⟩, rfl, fun k hk => blit_outside (Or.inl (Nat.lt_add_right _ hk))⟩
  · rw [hfs, hvol, Vol.stamp]
    dsimp only
    rw [Nat.add_comm volTimeStamp, getLE_blit_of_subset (Nat.le_refl _) (Nat.le_refl _),
      Nat.sub_self, getLE_putLE_same]
    exact Nat.mod_mod_of_dvd _ (by decide)

end Release

/-! ## Opening the image -/

/-- The image is a file or a block device that can be opened, has the length that the
MBR says, and works. -/
structure Boot.Works (b : Boot) (size : Nat) : Prop where
  mode : b.mode &&& sIFBLK ≠ 0 ∨ b.mode &&& sIFREG ≠ 0
  length : size ≤ b.length
  readable : b.readable = true
  writable : b.writable = true
  faults : ∀ n, b.faults n = none

theorem Boot.Works.read_eq {b : Boot} {size pos n : Nat} (h : b.Works size) (image : Mem)
    (hle : pos + n ≤ size) : b.read image pos n = ((n : Int), getLE image pos n) := by
  have hlen := h.length
  unfold Boot.read
  rw [if_pos h.readable, Nat.min_eq_left (by omega)]

/-- A call in a function that mounts. -/
theorem MountM.call_bind {α β : Type} {p : SfsM α} {s s' : Sys} {a : α}
    (hrun : s.exec p = some (a, s')) (f : α → MountM β) : (MountM.call p >>= f) s = f a s' := by
  show (s.exec p).bind _ = _
  rw [hrun]
  rfl

theorem MountM.get_bind {α : Type} (f : Sys → MountM α) (s : Sys) :
    ((get : MountM Sys) >>= f) s = f s s := rfl

theorem MountM.set_bind {α : Type} (s s' : Sys) (f : PUnit → MountM α) :
    ((set s' : MountM PUnit) >>= f) s = f ⟨⟩ s' := rfl

section Opening

variable {b : Boot} {s : Sys} {v : Vol} {nodes : List Nat}

/-- `sfs_init` on the device that is opened over the image. -/
theorem Boot.Works.mounts (h : b.Works v.size) (hm : Remountable v nodes)
    (hdata : s.dev.data = v.data) :
    ∃ s' v', (b.attach v.blockSize v.size s).exec sfsInit = some (0, s') ∧ v.SameSlots v' ∧
      Healthy v' s' ∧ s'.fs.time = v.stamp := by
  have hq : (b.attach v.blockSize v.size s).dev.Quiet := h.faults
  have hc : (b.attach v.blockSize v.size s).dev.Coherent := BlockDev.coherent_of_none rfl
  have hvol : (b.attach v.blockSize v.size s).vol = { v with fs := b.unit } := by
    show (⟨v.blockSize, v.size, s.dev.data, b.unit⟩ : Vol) = _
    rw [hdata]
  have hsized : (b.attach v.blockSize v.size s).vol.Sized := by
    rw [hvol]
    exact hm.area.sized.congr rfl rfl
  obtain ⟨r, s', t', hrun, hshow, rfl, hvol'⟩ :=
    transfer (Sys.shows_img hq hc hsized) (hm.mounts hvol rfl)
  have hvol'' : s'.vol = t'.vol := hshow.vol
  refine ⟨s', t'.vol, hrun, ?_, ⟨hvol'', hshow.quiet, hshow.coherent⟩, ?_⟩
  · rw [hvol']
    refine ⟨⟨rfl, rfl, rfl, rfl⟩, rfl, fun k hk => ?_⟩
    show blit v.data (volTimeStamp + v.fs.volIdent) (fun _ => 0) 0 8 k = v.data k
    exact blit_outside (Or.inl (Nat.lt_of_lt_of_le hk (Nat.le_add_left _ _)))
  · have htime := congrArg (fun w : Vol => w.fs.time) (hvol''.trans hvol')
    exact htime

/-- `fuse_sfs_init` finds the device that the MBR describes. -/
theorem Boot.Works.init_eq {opts : SfsOptions} (h : b.Works v.size) (hm : Remountable v nodes)
    (hc : Consistent opts v.blockSize v.size) (hshift : opts.blockSize < 24)
    (hmbr : ∀ k, k < 512 → v.data k = mbrImage opts k) (hdata : s.dev.data = v.data) :
    ∃ s' v', fuseSfsInit b s = fuseSfsCheck b s' ∧ v.SameSlots v' ∧ Healthy v' s' ∧
      s'.fs.time = v.stamp := by
  obtain ⟨s', v', hrun, hrest⟩ := h.mounts (s := s) hm hdata
  have hin := hm.described.inside
  have hbs := hc.blockSize
  have hpow : 2 ^ (opts.blockSize + 7) = 128 * 2 ^ opts.blockSize := by
    rw [Nat.pow_add, Nat.mul_comm]
  have hpos : 0 < 2 ^ opts.blockSize := Nat.pow_pos (by decide)
  have hlarge : 2 ≤ 2 ^ opts.blockSize :=
    Nat.pow_le_pow_right (show 0 < 2 by decide) hc.shift
  have hfield : ∀ off n, off + n ≤ 512 → getLE v.data off n = getLE (mbrImage opts) off n :=
    fun off n hle => getLE_congr fun k hk => hmbr (off + k) (by omega)
  obtain ⟨-, -, htotal, -, hblock⟩ := mbrImage_fields hc (by omega)
  have hread₁ : b.read s.dev.data mbrBlockSize 1 = (((1 : Nat) : Int), opts.blockSize) := by
    rw [h.read_eq _ (Nat.le_trans (by decide) hin), hdata, hfield _ _ (by decide), hblock]
  have hread₂ : b.read s.dev.data mbrTotalSize 8 = (((8 : Nat) : Int), opts.totalBlock) := by
    rw [h.read_eq _ (Nat.le_trans (by decide) hin), hdata, hfield _ _ (by decide), htotal]
  have hmode : ¬ (b.mode &&& sIFBLK = 0 ∧ b.mode &&& sIFREG = 0) := fun hz =>
    h.mode.elim (fun hne => hne hz.1) fun hne => hne hz.2
  have hsize : u64 (opts.totalBlock * (128 * 2 ^ opts.blockSize)) = v.size := by
    rw [← hpow, hbs, hc.total]
    exact u64_of_lt (Nat.lt_trans hc.small (by decide))
  refine ⟨s', v', ?_, hrest⟩
  unfold fuseSfsInit
  rw [MountM.get_bind]
  dsimp only
  rw [if_neg hmode, hread₁]
  dsimp only
  rw [if_neg (by decide), if_neg (Nat.not_le.2 hshift), if_neg (by omega), hread₂]
  dsimp only
  rw [if_neg (by decide), if_neg (by rw [h.writable]; decide), hsize, ← hpow, hbs,
    MountM.set_bind, MountM.call_bind hrun, if_neg (by decide)]

end Opening

/-! ## Questions -/

/-- What the user lets `fuse_sfs_init` do about an image that was changed late, or
whose space does not add up: go on, or exit.  At the end of the input it asks for
ever. -/
def Boot.decides (b : Boot) (late broken : Prop) [Decidable late] [Decidable broken] :
    Option Bool := do
  let (answer, keys) ← askWhen late keyYes keyNo 0 b.keys
  if answer = keyNo then some false
  else
    let (answer, _) ← askWhen broken keyYesAnyway keyNoThanks answer keys
    some (decide (answer ≠ keyNoThanks))

section Check

variable {b : Boot} {s : Sys} {V : View} {opts : SfsOptions} {junk : FileT}

theorem ignores_scanUsedSpace {v : Vol} {lo hi : Nat} (hg : Geometry v lo hi) (entr : Entry) :
    Ignores v hi (scanUsedSpace entr) := ((reloads_entryParse hg _ _).bind _).ignores

theorem ignores_fixNonDelFile {v : Vol} {lo hi : Nat} (hg : Geometry v lo hi) (entr : Entry) :
    Ignores v hi (fixNonDelFile entr) := ((reloads_entryParse hg _ _).bind _).ignores

theorem MountM.lift_bind {α β : Type} (o : Option α) (f : α → MountM β) (s : Sys) :
    ((liftM o : MountM α) >>= f) s = o.bind fun a => f a s := by
  cases o <;> rfl

theorem askWhen_congr {c c' : Prop} [Decidable c] [Decidable c'] (h : c ↔ c')
    {yes no answer : UInt8} {keys : List UInt8} :
    askWhen c yes no answer keys = askWhen c' yes no answer keys := by
  simp [askWhen, h]

/-- `fix_non_del_file` where no unlinked file waits. -/
theorem View.Sound.fixes {t : Img} {lo hi : Nat} (hV : V.Sound lo hi) (hcov : V.Covered lo hi)
    (hc : Coalesced V.vol V.nodes lo hi) (hpend : V.pending = []) (ht : t.vol = V.vol)
    (entr : Entry) :
    Gives (fixNonDelFile entr) t fun _ t' => V.vol.SameSlots t'.vol := by
  obtain ⟨vol, nodes, pending⟩ := V
  dsimp only at ht hc hpend ⊢
  subst ht hpend
  have hlist := hV.space.toFreeList
  refine (gives_fixNonDelFile hV.toWellFormed hc.named entr).mono
    fun r t' ⟨_, hw, hrevived⟩ => ⟨hrevived.area, ?_, fun k _ => hrevived.same k fun _ hrev => ?_⟩
  · have hchain := hw.space.chain
    have hchain' := hlist.chain
    cases nodes with
    | nil => exact hchain.trans hchain'.symm
    | cons o l => exact hchain.1.trans hchain'.1.symm
  · by_cases hk : k ∈ nodes
    · exact (hc.named k hk).not_revives hrev
    · exact List.not_mem_nil (hcov.awaited k ⟨hrev.1, hrev.2.1, hk⟩)

/-- The rest of `fuse_sfs_init` on a unit that is as the last one left it. -/
theorem Healthy.check (h : Healthy V.vol s)
    (hV : V.Sound opts.reservedSize (opts.reservedSize + opts.dataSize)) (hD : V.Durable opts)
    (hpend : V.pending = []) (hjunk : b.table = some junk) :
    ∃ s₁ s₂ v', fuseSfsCheck b s = ((b.lateness s.fs.time).bind fun late =>
          b.decides (1 < late) (u64 (V.vol.blockSize * V.vol.emptyFiles) ≠ 0)).map
        (fun go => if go then (some (inodeMapCreate junk), s₂) else (none, s₁)) ∧
      V.vol.SameSlots v' ∧ Rests v' (opts.reservedSize + opts.dataSize) s₂ ∧
      Rests V.vol (opts.reservedSize + opts.dataSize) s₁ := by
  have hg := hV.geometry
  have hb := hV.toWellFormed.toBlocks
  have hbs := hg.sized.pos
  have hlist := hV.space
  obtain ⟨m, s₁, hrun₁, hrests₁, hm⟩ := h.readMbr hg (hD.mbr_le hV rfl) s.stack
  obtain ⟨r₂, s₂, t₂, hrun₂, ⟨hvol₂, hfree⟩, hrests₂, -⟩ := hrests₁.exec hg.sized
    (ignores_scanDelFileList hg hlist.toFreeList s₁.stack) fun t ht =>
      ht ▸ gives_scanDelFileList (t := t) s₁.stack (ht ▸ hg) (ht ▸ hlist)
  rw [hvol₂] at hrests₂
  obtain ⟨r₃, s₃, t₃, hrun₃, ⟨hvol₃, hused⟩, hrests₃, -⟩ := hrests₂.exec hg.sized
    (ignores_scanUsedSpace hg r₂.2) fun t ht =>
      ht ▸ gives_scanUsedSpace (t := t) (ht ▸ hb) r₂.2
  rw [hvol₃] at hrests₃
  obtain ⟨r₄, s₄, t₄, hrun₄, hsame, hrests₄, -⟩ := hrests₃.exec hg.sized
    (ignores_fixNonDelFile hg r₃.2) fun t ht => hV.fixes hD.covered hD.coalesced hpend ht r₃.2
  obtain ⟨hdata, -, -⟩ := hD.fields hbs hm
  have hbsize : s₁.dev.blockSize = V.vol.blockSize :=
    congrArg Vol.blockSize (hrests₁.elim (fun h => h.vol) fun h => h.vol)
  have hreal : r₂.1 ≠ minusOne := by
    have hlt := hD.freeBytes_lt hV
    rw [hfree, u64_of_lt (Nat.lt_trans hlt (by decide))]
    unfold minusOne
    omega
  have hbroken : u64 (getLE m mbrDataAreaSize 8 * s₁.dev.blockSize) ≠ u64 (r₂.1 + r₃.1) ↔
      u64 (V.vol.blockSize * V.vol.emptyFiles) ≠ 0 := by
    have hsum := hD.covered.sum_extents hV hpend
    have hadd : u64 (r₂.1 + r₃.1)
        = u64 (V.vol.blockSize * (opts.dataSize + V.vol.emptyFiles)) := by
      rw [Nat.add_sub_cancel_left] at hsum
      rw [hfree, hused, hV.sum_files, ← hsum, Nat.add_assoc, u64, u64, u64, u64, Nat.add_mod_mod,
        Nat.mod_add_mod, ← Nat.mul_add]
    rw [hdata, hbsize, hadd, not_iff_not, eq_comm, u64_add_eq_iff, Nat.dvd_iff_mod_eq_zero, u64]
  unfold fuseSfsCheck Boot.decides
  rw [MountM.call_bind (show s.exec unit = some (s.fs, s) from rfl), MountM.lift_bind]
  rcases b.lateness s.fs.time with _ | late
  · exact ⟨s₃, s₄, t₄.vol, rfl, hsame, hrests₄, hrests₃⟩
  dsimp only [Option.bind_some]
  rw [MountM.lift_bind]
  cases hask : askWhen (1 < late) keyYes keyNo 0 b.keys with
  | none => exact ⟨s₃, s₄, t₄.vol, rfl, hsame, hrests₄, hrests₃⟩
  | some x =>
    obtain ⟨answer, keys⟩ := x
    by_cases hno : answer = keyNo
    · refine ⟨s, s₄, t₄.vol, ?_, hsame, hrests₄, Or.inl h⟩
      dsimp only [Option.bind_eq_bind, Option.bind_some]
      rw [if_pos hno, if_pos hno]
      rfl
    · refine ⟨s₃, s₄, t₄.vol, ?_, hsame, hrests₄, hrests₃⟩
      dsimp only [Option.bind_eq_bind, Option.bind_some]
      rw [if_neg hno, if_neg hno,
        MountM.call_bind (show s.exec uninit = some (s.stack, s) from rfl),
        MountM.call_bind hrun₁]
      dsimp only
      rw [MountM.call_bind (show s₁.exec blockSize = some (s₁.dev.blockSize, s₁) from rfl),
        MountM.call_bind (show s₁.exec uninit = some (s₁.stack, s₁) from rfl),
        MountM.call_bind hrun₂]
      rw [if_neg hreal, MountM.call_bind hrun₃, MountM.lift_bind, askWhen_congr hbroken]
      cases hask' : askWhen (u64 (V.vol.blockSize * V.vol.emptyFiles) ≠ 0) keyYesAnyway keyNoThanks
          answer keys with
      | none => rfl
      | some y =>
        obtain ⟨answer', keys'⟩ := y
        dsimp only [Option.bind_some]
        by_cases hno' : answer' = keyNoThanks
        · rw [if_pos hno', decide_eq_false (not_not.2 hno')]
          rfl
        · rw [if_neg hno', MountM.call_bind hrun₄, hjunk, decide_eq_true hno']
          rfl

/-- `fuse_sfs_init` of an image whose last session was ended in order mounts it
exactly when the user lets it, and leaves its slots as they are, also where it exits.  What
the process had in its memory before does not matter. -/
theorem View.Sound.init (hdata : s.dev.data = V.vol.data)
    (hV : V.Sound opts.reservedSize (opts.reservedSize + opts.dataSize)) (hD : V.Durable opts)
    (hpend : V.pending = []) (hshift : opts.blockSize < 24) (hb : b.Works V.vol.size)
    (hjunk : b.table = some junk) :
    ∃ s₁ s₂ v₁ v₂, fuseSfsInit b s = ((b.lateness V.vol.stamp).bind fun late =>
          b.decides (1 < late) (u64 (V.vol.blockSize * V.vol.emptyFiles) ≠ 0)).map
        (fun go => if go then (some (inodeMapCreate junk), s₂) else (none, s₁)) ∧
      V.vol.SameSlots v₁ ∧ Rests v₁ (opts.reservedSize + opts.dataSize) s₁ ∧
      V.vol.SameSlots v₂ ∧ Rests v₂ (opts.reservedSize + opts.dataSize) s₂ := by
  have hm : Remountable V.vol V.nodes := hV.remountable hD.covered hD.described hD.root hpend
  obtain ⟨s', v', hinit, hsame, hhealthy, htime⟩ := hb.init_eq hm hD.consistent hshift hD.mbr hdata
  have hV' : View.Sound ⟨v', V.nodes, V.pending⟩ _ _ := hV.restamped hsame
  have hD' : View.Durable ⟨v', V.nodes, V.pending⟩ opts := hD.restamped hV hsame
  obtain ⟨s₁, s₂, v₂, hcheck, hsame₂, hrests₂, hrests₁⟩ := hhealthy.check hV' hD' hpend hjunk
  refine ⟨s₁, s₂, v', v₂, ?_, hsame, hrests₁, hsame.trans hsame₂, hrests₂⟩
  have hempty : Vol.emptyFiles v' = V.vol.emptyFiles := hsame.emptyFiles hV.geometry.area
  have hbs : v'.blockSize = V.vol.blockSize := hsame.area.blockSize
  simp only [htime, hempty, hbs] at hcheck
  rw [hinit, hcheck]

end Check

end Sfs
