import Sfs.Unit

/-!
# The volume behind the cache

The functions of the file system are written against the transfer functions,
and on a device that works, with a coherent cache, those read and write the
bytes of the device and nothing else.  `Img.handle` gives the commands that
meaning.  It has no buffer: all it keeps of the cache is whether it is known to
be empty, which `copy_block` depends on.

* `Img.handle_simulated` says that the commands of `Sys.handle` do what
  `Img.handle` says;
* `transfer` carries a proof about a program over `Img.handle` to the program on
  the device.
-/

namespace Sfs

open Lib

/-- The contents of a mounted volume. -/
structure Vol where
  blockSize : Nat
  size : Nat
  data : Mem
  fs : SfsUnit

/-- A volume with the surroundings of a call. `clean` says that the cache is
empty, and `indexOnly` that bytes from before the index are not to be seen, but
for the first block. -/
structure Img where
  vol : Vol
  clean : Bool
  errno : Nat
  clock : Nat → Nat
  ticks : Nat
  stack : Mem
  indexOnly : Bool

namespace Vol

/-- Block `b` lies inside the device. -/
def HasBlock (v : Vol) (b : Nat) : Prop := b * v.blockSize + v.blockSize ≤ v.size

instance (v : Vol) (b : Nat) : Decidable (v.HasBlock b) :=
  inferInstanceAs (Decidable (_ ≤ _))

/-- What every device made by `filedev_create` meets, and what the index needs
of it: whole blocks, whole slots in a block, and offsets that fit an `off_t`. -/
structure Sized (v : Vol) : Prop where
  pos : 0 < v.blockSize
  slots : 64 ∣ v.blockSize
  blocks : v.blockSize ∣ v.size
  small : v.size < 9223372036854775808

end Vol

namespace Img

/-- The commands as accesses to the bytes of the volume.  There is no answer
where the buffer would show: a read of several blocks, a write past the end of
the device, a copy while something is cached or onto itself.  And there is none
where an image of which only the index is to be seen would show more: a read
before the index, a copy into it or into the first block, another place for it. -/
def handle : Prog.Handler Cmd Cmd.Reply Img
  | .readData offset data size, t =>
    if t.indexOnly = true ∧ offset ≠ 0 ∧ offset < t.vol.fs.entryStart then none
    else if offset % t.vol.blockSize + size ≤ t.vol.blockSize then
      if t.vol.HasBlock (offset / t.vol.blockSize) then
        some ((size, blit data 0 t.vol.data offset size), { t with clean := false })
      else some ((minusOne, data), { t with errno := eIO })
    else none
  | .writeData offset data size, t =>
    if t.vol.HasBlock (offset / t.vol.blockSize) then
      if offset + size ≤ t.vol.size then
        some (size, { t with
          vol := { t.vol with data := blit t.vol.data offset data 0 size }
          clean := decide (offset % t.vol.blockSize + size ≤ t.vol.blockSize) })
      else none
    else some (minusOne, { t with errno := eIO })
  | .copyBlock src dest size, t =>
    if size = 0 then some ((0 : Int), t)
    else if t.indexOnly = true ∧
        (dest = 0 ∨ t.vol.fs.entryStart < (dest + size) * t.vol.blockSize) then none
    else if t.clean = true ∧ (src + size) * t.vol.blockSize ≤ t.vol.size ∧
        (src + size ≤ dest ∨ dest + size ≤ src) then
      some ((0 : Int), { t with vol := { t.vol with
        data := blit t.vol.data (dest * t.vol.blockSize) t.vol.data (src * t.vol.blockSize)
          (size * t.vol.blockSize) } })
    else none
  | .blockSize, t => some (t.vol.blockSize, t)
  | .devSize, t => some (t.vol.size, t)
  | .unit, t => some (t.vol.fs, t)
  | .setUnit fs, t =>
    if t.indexOnly = true ∧ fs.entryStart ≠ t.vol.fs.entryStart then none
    else some ((), { t with vol := { t.vol with fs := fs } })
  | .setErrno code, t => some ((), { t with errno := code })
  | .getTime, t => some (u64 (t.clock t.ticks), { t with ticks := t.ticks + 1 })
  | .uninit, t => some (t.stack, t)

end Img

/-! ## The device behind the volume -/

/-- The volume a state of the device holds. -/
def Sys.vol (s : Sys) : Vol := ⟨s.dev.blockSize, s.dev.size, s.dev.data, s.fs⟩

/-- A device that works, with a coherent cache, shows the volume. -/
structure Shows (s : Sys) (t : Img) : Prop where
  vol : s.vol = t.vol
  clean : t.clean = true → s.dev.bufNum = none
  errno : s.errno = t.errno
  clock : s.clock = t.clock
  ticks : s.ticks = t.ticks
  stack : s.stack = t.stack
  quiet : s.dev.Quiet
  coherent : s.dev.Coherent
  sized : t.vol.Sized

/-- The image of a state, taking nothing for granted about the cache. -/
def Sys.img (s : Sys) : Img := ⟨s.vol, false, s.errno, s.clock, s.ticks, s.stack, false⟩

theorem Sys.shows_img {s : Sys} (hq : s.dev.Quiet) (hc : s.dev.Coherent) (hs : s.vol.Sized) :
    Shows s s.img :=
  ⟨rfl, fun h => Bool.noConfusion h, rfl, rfl, rfl, rfl, hq, hc, hs⟩

theorem ne_minusOne {n : Nat} (h : n < 9223372036854775808) : n ≠ minusOne := by
  unfold minusOne
  omega

section Simulation

variable {s : Sys} {t t' : Img}

namespace Shows

theorem blockSize (h : Shows s t) : s.dev.blockSize = t.vol.blockSize :=
  congrArg Vol.blockSize h.vol

theorem size (h : Shows s t) : s.dev.size = t.vol.size := congrArg Vol.size h.vol

theorem data (h : Shows s t) : s.dev.data = t.vol.data := congrArg Vol.data h.vol

theorem fs (h : Shows s t) : s.fs = t.vol.fs := congrArg Vol.fs h.vol

theorem hasBlock (h : Shows s t) {b : Nat} : s.dev.HasBlock b ↔ t.vol.HasBlock b := by
  rw [BlockDev.HasBlock, Vol.HasBlock, h.blockSize, h.size]

/-- A state after a transfer shows the volume after it. -/
theorem after_transfer (h : Shows s t) {dev : BlockDev} {vol : Vol} {clean : Bool}
    {errno errno' : Nat} (hsame : s.dev.SameDevice dev)
    (hvol : vol = { t.vol with data := dev.data })
    (hclean : clean = true → dev.bufNum = none) (herrno : errno = errno') (hc : dev.Coherent) :
    Shows { s with dev := dev, errno := errno }
      { t with vol := vol, clean := clean, errno := errno' } where
  vol := by
    have hbs := hsame.blockSize.trans h.blockSize
    have hsize := hsame.size.trans h.size
    simp only [Sys.vol, hbs, hsize, h.fs, hvol]
  clean := hclean
  errno := herrno
  clock := h.clock
  ticks := h.ticks
  stack := h.stack
  quiet := hsame.quiet h.quiet
  coherent := hc
  sized := by
    subst hvol
    exact ⟨h.sized.pos, h.sized.slots, h.sized.blocks, h.sized.small⟩

theorem readData {offset size : Nat} {data : Mem} {r : Nat × Mem} (h : Shows s t)
    (hrun : Img.handle (.readData offset data size) t = some (r, t')) :
    ∃ s', Sys.handle (.readData offset data size) s = some (r, s') ∧ Shows s' t' := by
  dsimp only [Img.handle] at hrun
  rw [← h.blockSize, ← h.data] at hrun
  split at hrun
  case isTrue => cases hrun
  split at hrun
  case isTrue hfits =>
    split at hrun
    case isTrue hblock =>
      cases hrun
      have hblock' : s.dev.HasBlock (offset / s.dev.blockSize) := h.hasBlock.2 hblock
      have hsmall : s.dev.blockSize ≤ s.dev.size := Nat.le_of_add_left_le hblock'
      have hlt := h.sized.small
      rw [← h.size] at hlt
      obtain ⟨dev', hread, hsame, -, hc⟩ :=
        readData_of_fits h.quiet h.coherent (by omega) hblock' hfits data
      have hret : (size == minusOne) = false := beq_eq_false_iff_ne.2 (ne_minusOne (by omega))
      refine ⟨_, ?_, h.after_transfer hsame.toSameDevice ?_ (fun hf => Bool.noConfusion hf)
        h.errno hc⟩
      · simp only [Sys.handle, hread, hret, Sys.errnoAfter]
        rfl
      · rw [hsame.data, h.data]
    case isFalse hblock =>
      cases hrun
      have hblock' : ¬ s.dev.HasBlock (offset / s.dev.blockSize) := fun hb =>
        hblock (h.hasBlock.1 hb)
      have hmiss : s.dev.bufNum ≠ some (offset / s.dev.blockSize) := fun hb =>
        hblock' (h.coherent _ hb).1
      have hread : Sfs.readData s.dev offset data size
          = (minusOne, data, { s.dev with accesses := s.dev.accesses + 1 }) := by
        unfold Sfs.readData readFirst
        dsimp only
        rw [if_neg hmiss, BlockDev.read_of_not_hasBlock (h.quiet.works 0) hblock']
      have hshow : Shows { s with
          dev := { s.dev with accesses := s.dev.accesses + 1 }
          errno := eIO } { t with errno := eIO } :=
        h.after_transfer ⟨rfl, rfl, rfl⟩ (by rw [h.data]) h.clean rfl h.coherent
      refine ⟨_, ?_, hshow⟩
      simp only [Sys.handle, hread, Sys.errnoAfter]
      rfl
  case isFalse => cases hrun

theorem writeData {offset size : Nat} {data : Mem} {r : Nat} (h : Shows s t)
    (hrun : Img.handle (.writeData offset data size) t = some (r, t')) :
    ∃ s', Sys.handle (.writeData offset data size) s = some (r, s') ∧ Shows s' t' := by
  have hs := h.sized
  dsimp only [Img.handle] at hrun
  rw [← h.blockSize, ← h.size, ← h.data] at hrun
  split at hrun
  case isTrue hblock =>
    have hblock' : s.dev.HasBlock (offset / s.dev.blockSize) := h.hasBlock.2 hblock
    split at hrun
    case isTrue hle =>
      cases hrun
      have hsmall := hs.small
      rw [← h.size] at hsmall
      have hmod : offset % s.dev.blockSize ≤ offset := Nat.mod_le _ _
      have hbs : 0 < s.dev.blockSize := by rw [h.blockSize]; exact hs.pos
      have hrange : s.dev.HasRange offset size := by
        rcases Nat.eq_zero_or_pos size with hzero | hpos
        · intro b hb hb'
          rw [hzero] at hb'
          obtain rfl : b = offset / s.dev.blockSize := Nat.le_antisymm hb' hb
          exact hblock'
        · exact BlockDev.hasRange_of_le hbs
            (by rw [h.blockSize, h.size]; exact hs.blocks) hpos hle
      obtain ⟨dev', hwrite, hsame, hdata, hnum, hc⟩ :=
        writeData_eq h.quiet hbs hrange (by omega) data
      have hret : (size == minusOne) = false := beq_eq_false_iff_ne.2 (ne_minusOne (by omega))
      refine ⟨_, ?_, h.after_transfer hsame ?_ ?_ h.errno hc⟩
      · simp only [Sys.handle, hwrite, hret, Sys.errnoAfter]
        rfl
      · rw [hdata, h.blockSize, h.size]
      · intro hfits
        rw [hnum, writeCached, if_pos (of_decide_eq_true hfits)]
    case isFalse => cases hrun
  case isFalse hblock =>
    cases hrun
    have hblock' : ¬ s.dev.HasBlock (offset / s.dev.blockSize) := fun hb => hblock (h.hasBlock.1 hb)
    have hwrite : Sfs.writeData s.dev offset data size
        = (minusOne, { s.dev with accesses := s.dev.accesses + 1 }) := by
      unfold Sfs.writeData
      dsimp only
      rw [BlockDev.read_of_not_hasBlock (h.quiet.works 0) hblock']
    have hshow : Shows { s with
        dev := { s.dev with accesses := s.dev.accesses + 1 }
        errno := eIO } { t with errno := eIO } :=
      h.after_transfer ⟨rfl, rfl, rfl⟩ (by rw [h.data]) h.clean rfl h.coherent
    refine ⟨_, ?_, hshow⟩
    simp only [Sys.handle, hwrite, Sys.errnoAfter]
    rfl

theorem copyBlock {src dest size : Nat} {r : Int} (h : Shows s t)
    (hrun : Img.handle (.copyBlock src dest size) t = some (r, t')) :
    ∃ s', Sys.handle (.copyBlock src dest size) s = some (r, s') ∧ Shows s' t' := by
  dsimp only [Img.handle] at hrun
  split at hrun
  case isTrue hzero =>
    cases hrun
    subst hzero
    exact ⟨s, rfl, h⟩
  case isFalse =>
    rw [← h.blockSize, ← h.size, ← h.data] at hrun
    split at hrun
    case isTrue => cases hrun
    split at hrun
    case isTrue hcopy =>
      cases hrun
      obtain ⟨hclean, hle, hdisj⟩ := hcopy
      have hsrc : ∀ i, i < size → s.dev.HasBlock (src + i) := by
        intro i hi
        have hmul := Nat.mul_le_mul_right s.dev.blockSize (show src + i + 1 ≤ src + size by omega)
        rw [Nat.succ_mul] at hmul
        exact Nat.le_trans hmul hle
      obtain ⟨dev', hcopy, hsame, hdata, hnum⟩ := copyBlock_eq h.quiet src dest size hsrc hdisj
      have hnone : dev'.bufNum = none := hnum.trans (h.clean hclean)
      refine ⟨_, ?_, h.after_transfer hsame ?_ (fun _ => hnone) h.errno
        (BlockDev.coherent_of_none hnone)⟩
      · simp only [Sys.handle, hcopy, Sys.errnoAfter]
        rfl
      · rw [hdata, h.blockSize, h.size]
    case isFalse => cases hrun

end Shows

/-- The commands on the device do what they do to the volume. -/
theorem Img.handle_simulated {e : Cmd} {r : e.Reply} (h : Shows s t)
    (hrun : Img.handle e t = some (r, t')) :
    ∃ s', Sys.handle e s = some (r, s') ∧ Shows s' t' := by
  cases e with
  | readData offset data size => exact h.readData hrun
  | writeData offset data size => exact h.writeData hrun
  | copyBlock src dest size => exact h.copyBlock hrun
  | blockSize =>
    cases hrun
    exact ⟨s, by rw [← h.blockSize]; rfl, h⟩
  | devSize =>
    cases hrun
    exact ⟨s, by rw [← h.size]; rfl, h⟩
  | unit =>
    cases hrun
    exact ⟨s, by rw [← h.fs]; rfl, h⟩
  | setUnit fs =>
    dsimp only [Img.handle] at hrun
    split at hrun
    case isTrue => cases hrun
    cases hrun
    refine ⟨_, rfl, ?_, h.clean, h.errno, h.clock, h.ticks, h.stack, h.quiet, h.coherent, ?_⟩
    · simp only [Sys.vol, h.blockSize, h.size, h.data]
    · exact ⟨h.sized.pos, h.sized.slots, h.sized.blocks, h.sized.small⟩
  | setErrno code =>
    cases hrun
    exact ⟨_, rfl, h.vol, h.clean, rfl, h.clock, h.ticks, h.stack, h.quiet, h.coherent, h.sized⟩
  | getTime =>
    cases hrun
    refine ⟨{ s with ticks := s.ticks + 1 }, ?_, h.vol, h.clean, h.errno, h.clock, ?_, h.stack,
      h.quiet, h.coherent, h.sized⟩
    · rw [← h.clock, ← h.ticks]
      rfl
    · exact congrArg (· + 1) h.ticks
  | uninit =>
    cases hrun
    exact ⟨s, by rw [← h.stack]; rfl, h⟩

/-- A run on the volume is a run on every device that shows it. -/
theorem Shows.exec {α : Type} {p : SfsM α} {r : α} (h : Shows s t)
    (hrun : p.exec Img.handle t = some (r, t')) : ∃ s', s.exec p = some (r, s') ∧ Shows s' t' :=
  Prog.exec_simulates (h := Sys.handle) (k := Img.handle) (S := Shows)
    (fun _ _ _ _ _ hst he => Img.handle_simulated hst he) h hrun

end Simulation

/-- What a program does to the volume, it does on every device that shows it. -/
theorem transfer {α : Type} {p : SfsM α} {s : Sys} {t : Img} {Q : α → Img → Prop}
    (h : Shows s t) (hp : p.Ends Img.handle t Q) :
    ∃ r s' t', s.exec p = some (r, s') ∧ Shows s' t' ∧ Q r t' := by
  obtain ⟨r, t', hrun, hQ⟩ := hp
  obtain ⟨s', hrun', hshow⟩ := h.exec hrun
  exact ⟨r, s', t', hrun', hshow, hQ⟩

/-! ## Rules for the commands -/

/-- The program returns on the volume, with `Q` of its value and the volume. -/
abbrev Gives {α : Type} (p : SfsM α) (t : Img) (Q : α → Img → Prop) : Prop :=
  p.Ends Img.handle t Q

namespace Vol

/-- The field of the entry at an offset. -/
def get (v : Vol) (off : Nat) (f : Field) : Nat := fieldAt v.data off f

/-- The volume with a field of the entry at an offset set. -/
def set (v : Vol) (off : Nat) (f : Field) (x : Nat) : Vol :=
  { v with data := setFieldAt v.data off f x }

/-- The entry at an offset, loaded over a local. -/
def load (v : Vol) (off : Nat) (entr : Entry) : Entry := blit entr 0 v.data off indexEntrySize

/-- The volume with an entry stored at an offset. -/
def store (v : Vol) (off : Nat) (entr : Entry) : Vol :=
  { v with data := blit v.data off entr 0 indexEntrySize }

@[simp] theorem get_load (v : Vol) (off : Nat) (entr : Entry) (f : Field) :
    (v.load off entr).get f = v.get off f := fieldAt_blit_entry

@[simp] theorem store_load (v : Vol) (off : Nat) (entr : Entry) :
    v.store off (v.load off entr) = v := by
  unfold store load
  rw [blit_blit_self]

@[simp] theorem store_set (v : Vol) (off : Nat) (entr : Entry) (f : Field) (x : Nat) :
    v.store off (entr.set f x) = (v.store off entr).set off f x := by
  unfold store set Entry.set
  rw [blit_setFieldAt]

@[simp] theorem set_blockSize (v : Vol) (off : Nat) (f : Field) (x : Nat) :
    (v.set off f x).blockSize = v.blockSize := rfl

@[simp] theorem set_size (v : Vol) (off : Nat) (f : Field) (x : Nat) :
    (v.set off f x).size = v.size := rfl

@[simp] theorem set_fs (v : Vol) (off : Nat) (f : Field) (x : Nat) :
    (v.set off f x).fs = v.fs := rfl

/-- Two volumes of the same geometry. -/
theorem Sized.congr {v v' : Vol} (h : v.Sized) (hbs : v'.blockSize = v.blockSize)
    (hsize : v'.size = v.size) : v'.Sized :=
  ⟨by rw [hbs]; exact h.pos, by rw [hbs]; exact h.slots, by rw [hbs, hsize]; exact h.blocks,
    by rw [hsize]; exact h.small⟩

/-- A run of bytes inside one slot is inside one block. -/
theorem Sized.fits {v : Vol} (h : v.Sized) {off n : Nat} (hn : off % 64 + n ≤ 64) :
    off % v.blockSize + n ≤ v.blockSize := by
  obtain ⟨k, hk⟩ := h.slots
  have hpos := h.pos
  have hmod : off % v.blockSize % 64 = off % 64 := Nat.mod_mod_of_dvd off h.slots
  have hlt : off % v.blockSize < v.blockSize := Nat.mod_lt _ hpos
  omega

/-- A byte inside the device is in a block of it. -/
theorem Sized.hasBlock {v : Vol} (h : v.Sized) {off : Nat} (hoff : off < v.size) :
    v.HasBlock (off / v.blockSize) := by
  obtain ⟨c, hc⟩ := h.blocks
  have hlt : off / v.blockSize < c := by
    rw [Nat.div_lt_iff_lt_mul h.pos, Nat.mul_comm, ← hc]
    exact hoff
  have hle := Nat.mul_le_mul_right v.blockSize hlt
  rw [Nat.succ_mul, Nat.mul_comm c, ← hc] at hle
  exact hle

end Vol

section Rules

variable {α : Type} {t : Img} {Q : α → Img → Prop}

@[simp] theorem gives_pure {a : α} : Gives (pure a) t Q ↔ Q a t := Prog.ends_pure

theorem gives_bind {β : Type} {p : SfsM β} {f : β → SfsM α} :
    Gives (p >>= f) t Q ↔ Gives p t fun b t' => Gives (f b) t' Q := Prog.ends_bind

/-- The last command of a program, as a command before `pure`. -/
theorem gives_tail {p : SfsM α} : Gives p t Q ↔ Gives (p >>= fun a => (pure a : SfsM α)) t Q := by
  simp only [gives_bind, gives_pure]

theorem gives_issue {e : Cmd} {f : e.Reply → SfsM α} {r : e.Reply} {t' : Img}
    (h : Img.handle e t = some (r, t')) : Gives (issue e >>= f) t Q ↔ Gives (f r) t' Q := by
  rw [gives_bind]
  exact Prog.ends_perform h

@[simp] theorem gives_blockSize {f : Nat → SfsM α} :
    Gives (blockSize >>= f) t Q ↔ Gives (f t.vol.blockSize) t Q := gives_issue rfl

@[simp] theorem gives_unit {f : SfsUnit → SfsM α} :
    Gives (unit >>= f) t Q ↔ Gives (f t.vol.fs) t Q := gives_issue rfl

theorem gives_setUnit {fs : SfsUnit} {f : Unit → SfsM α}
    (h : t.indexOnly = false ∨ fs.entryStart = t.vol.fs.entryStart) :
    Gives (setUnit fs >>= f) t Q ↔ Gives (f ()) { t with vol := { t.vol with fs := fs } } Q := by
  refine gives_issue ?_
  dsimp only [Img.handle]
  rw [if_neg fun hn => h.elim (fun h => Bool.noConfusion (h.symm.trans hn.1)) hn.2]

@[simp] theorem gives_setErrno {code : Nat} {f : Unit → SfsM α} :
    Gives (setErrno code >>= f) t Q ↔ Gives (f ()) { t with errno := code } Q :=
  gives_issue rfl

@[simp] theorem gives_getTime {f : Nat → SfsM α} :
    Gives (getTime >>= f) t Q ↔
      Gives (f (u64 (t.clock t.ticks))) { t with ticks := t.ticks + 1 } Q :=
  gives_issue rfl

@[simp] theorem gives_uninit {f : Mem → SfsM α} :
    Gives (uninit >>= f) t Q ↔ Gives (f t.stack) t Q := gives_issue rfl

/-- The image after `update`. -/
def Img.updated (t : Img) : Img :=
  { t with
    ticks := t.ticks + 1
    vol := { t.vol with fs := { t.vol.fs with time := u64 (t.clock t.ticks) } } }

@[simp] theorem gives_update {f : Unit → SfsM α} :
    Gives (update >>= f) t Q ↔ Gives (f ()) t.updated Q := by
  show Gives
    (getTime >>= fun now => unit >>= fun fs => setUnit { fs with time := now } >>= f) t Q ↔ _
  rw [gives_getTime, gives_unit]
  exact gives_setUnit (Or.inr rfl)

@[simp] theorem gives_setDelBegin {off : Nat} {f : Unit → SfsM α} :
    Gives (setDelBegin off >>= f) t Q ↔
      Gives (f ()) { t with vol := { t.vol with fs := { t.vol.fs with delBegin := off } } } Q := by
  show Gives (unit >>= fun fs => setUnit { fs with delBegin := off } >>= f) t Q ↔ _
  rw [gives_unit]
  exact gives_setUnit (Or.inr rfl)

/-- Bytes of one slot, read. -/
theorem gives_readData {off n : Nat} {data : Mem} {f : Nat × Mem → SfsM α} (hs : t.vol.Sized)
    (hsee : t.indexOnly = false ∨ off = 0 ∨ t.vol.fs.entryStart ≤ off) (hn : off % 64 + n ≤ 64)
    (hoff : off < t.vol.size) :
    Gives (readDataM off data n >>= f) t Q ↔
      Gives (f (n, blit data 0 t.vol.data off n)) { t with clean := false } Q := by
  refine gives_issue ?_
  dsimp only [Img.handle]
  have hopen : ¬ (t.indexOnly = true ∧ off ≠ 0 ∧ off < t.vol.fs.entryStart) := by
    intro ⟨hindex, hne, hlt⟩
    rcases hsee with h | h | h
    · exact Bool.noConfusion (h.symm.trans hindex)
    · exact hne h
    · exact Nat.not_le.2 hlt h
  rw [if_neg hopen, if_pos (hs.fits hn), if_pos (hs.hasBlock hoff)]

/-- Bytes of the device, written. -/
theorem gives_writeRange {off n : Nat} {data : Mem} {f : Nat → SfsM α} (hs : t.vol.Sized)
    (hoff : off < t.vol.size) (hle : off + n ≤ t.vol.size) :
    Gives (writeDataM off data n >>= f) t Q ↔
      Gives (f n) { t with
        vol := { t.vol with data := blit t.vol.data off data 0 n }
        clean := decide (off % t.vol.blockSize + n ≤ t.vol.blockSize) } Q := by
  refine gives_issue ?_
  dsimp only [Img.handle]
  rw [if_pos (hs.hasBlock hoff), if_pos hle]

/-- Bytes of one slot, written. -/
theorem gives_writeData {off n : Nat} {data : Mem} {f : Nat → SfsM α} (hs : t.vol.Sized)
    (hn : off % 64 + n ≤ 64) (hoff : off < t.vol.size) (hle : off + n ≤ t.vol.size) :
    Gives (writeDataM off data n >>= f) t Q ↔
      Gives (f n) { t with
        vol := { t.vol with data := blit t.vol.data off data 0 n }
        clean := true } Q := by
  rw [gives_writeRange hs hoff hle, decide_eq_true (hs.fits hn)]

theorem gives_readEntry_or_zero {off : Nat} {entr : Entry} {f : Nat × Entry → SfsM α}
    (hs : t.vol.Sized) (hsee : off = 0 ∨ t.vol.fs.entryStart ≤ off) (hoff : off % 64 = 0)
    (hle : off + 64 ≤ t.vol.size) :
    Gives (readEntry off entr >>= f) t Q ↔
      Gives (f (64, t.vol.load off entr)) { t with clean := false } Q := by
  unfold readEntry
  rw [if_neg (by unfold indexEntrySize; omega)]
  exact gives_readData hs (Or.inr hsee) (by unfold indexEntrySize; omega) (by omega)

/-- An entry of the index, read. -/
theorem gives_readEntry {off : Nat} {entr : Entry} {f : Nat × Entry → SfsM α} (hs : t.vol.Sized)
    (hge : t.vol.fs.entryStart ≤ off) (hoff : off % 64 = 0) (hle : off + 64 ≤ t.vol.size) :
    Gives (readEntry off entr >>= f) t Q ↔
      Gives (f (64, t.vol.load off entr)) { t with clean := false } Q :=
  gives_readEntry_or_zero hs (Or.inr hge) hoff hle

theorem gives_writeEntry {off : Nat} {entr : Entry} {f : Nat → SfsM α} (hs : t.vol.Sized)
    (hoff : off % 64 = 0) (hle : off + 64 ≤ t.vol.size) :
    Gives (writeEntry off entr >>= f) t Q ↔
      Gives (f 64) { t with vol := t.vol.store off entr, clean := true } Q := by
  unfold writeEntry
  rw [if_neg (by unfold indexEntrySize; omega)]
  exact gives_writeData hs (by unfold indexEntrySize; omega) (by omega) hle

end Rules

end Sfs
