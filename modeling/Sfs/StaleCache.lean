import Sfs.Callbacks
import Sfs.Read

/-!
# The cache after a read

The loop of `read_data` over whole blocks leaves `buf_num` at the first block of
the read, so after `sfs_read` the cache may hold another block of the file under
that number.  No other function minds: each of them reads an entry of the index
first, or reads nothing.

* `Stale` is such a cache, and `Reloads` and `Ignores` say of a program that it
  does not mind;
* `Rests` is a device between two calls;
* `Rests.call` carries what a function does to the volume over to such a device,
  and `Rests.sfsRead` is the call that may leave the cache stale.
-/

namespace Sfs

open Lib Fuse

/-! ## The block a read leaves in the cache -/

section

variable {dev : BlockDev}

/-- What `buf_num` is after the blocks of a read behind the first one. -/
def readCached (bs : Nat) (cached : Option Nat) (bnum size : Nat) : Option Nat :=
  if size % bs = 0 then cached else some (bnum + size / bs)

theorem readBlocks_bufNum (hq : dev.Quiet) (hbs : 0 < dev.blockSize) (fuel : Nat) (data : Mem)
    (pos size bnum : Nat) (hfuel : size < fuel) (hin : dev.HasBlocks bnum size) :
    (readBlocks fuel dev data pos size bnum).2.2.bufNum
      = readCached dev.blockSize dev.bufNum bnum size := by
  induction fuel generalizing dev data pos size bnum with
  | zero => omega
  | succ fuel ih =>
    rw [readBlocks]
    by_cases hsize : dev.blockSize ≤ size
    · have hblock : dev.HasBlock bnum := hin bnum (Nat.le_refl _) (by omega)
      obtain ⟨dev₁, hread, hsame, hnum, -, -⟩ := BlockDev.read_of_works (hq.works 0) hblock
      rw [if_pos hsize, hread]
      dsimp only
      rw [ih (hsame.quiet hq) (by rw [hsame.blockSize]; exact hbs) _ _ _ _
        (by rw [hsame.blockSize]; omega)
        (hsame.hasBlocks (by rw [hsame.blockSize]; exact hin.tail hsize)), hnum, hsame.blockSize]
      unfold readCached
      have hdiv : size / dev.blockSize = (size - dev.blockSize) / dev.blockSize + 1 := by
        rw [← Nat.add_div_right _ hbs, Nat.sub_add_cancel hsize]
      rw [← Nat.mod_eq_sub_mod hsize, hdiv]
      simp [Nat.add_assoc, Nat.add_comm 1]
    · rw [if_neg hsize]
      unfold readCached
      rw [Nat.mod_eq_of_lt (Nat.not_le.1 hsize), Nat.div_eq_of_lt (Nat.not_le.1 hsize)]
      by_cases hzero : size = 0
      · rw [if_pos hzero, if_pos hzero]
      · have hblock : { dev with bufNum := some bnum }.HasBlock bnum :=
          hin bnum (Nat.le_refl _) (by omega)
        obtain ⟨dev₁, hread, -, hnum, -, -⟩ :=
          BlockDev.read_of_works (d := { dev with bufNum := some bnum }) (hq _) hblock
        rw [if_neg hzero, if_neg hzero, hread]
        exact hnum

/-- A first block that is not cached is read from the disk. -/
theorem readFirst_miss {b : Nat} (hq : dev.Quiet) (hblock : dev.HasBlock b)
    (hmiss : dev.bufNum ≠ some b) :
    readFirst dev b = readFirst { dev with bufNum := none } b := by
  have hnone : dev.faults dev.accesses = none := hq _
  unfold BlockDev.HasBlock at hblock
  unfold readFirst
  rw [if_neg hmiss, if_neg (by simp)]
  simp [BlockDev.read, hnone, Nat.not_lt.2 hblock]

/-- A read of bytes of the device leaves the disk as it was, and the cache
coherent or under the number of one of the blocks it has read. -/
theorem readData_rests {offset size : Nat} (hq : dev.Quiet) (hc : dev.Coherent)
    (hbs : 0 < dev.blockSize) (hsmall : dev.size < 9223372036854775808)
    (hoffset : dev.HasBlock (offset / dev.blockSize)) (hrange : dev.HasRange offset size)
    (hle : offset + size ≤ dev.size) (data : Mem) :
    ∃ r, readData dev offset data size = r ∧ dev.SameDisk r.2.2 ∧
      (r.2.2.Coherent ∨
        ∃ b, r.2.2.bufNum = some b ∧ 0 < size ∧ b ≤ (offset + (size - 1)) / dev.blockSize) := by
  have hcur : offset % dev.blockSize < dev.blockSize := Nat.mod_lt _ hbs
  have hmod : offset % dev.blockSize ≤ offset := Nat.mod_le _ _
  have hbsize : dev.blockSize ≤ dev.size := Nat.le_of_add_left_le hoffset
  refine ⟨_, rfl, ?_⟩
  by_cases hfits : offset % dev.blockSize + size ≤ dev.blockSize
  · obtain ⟨dev', hrun, hsame, -, hcoh⟩ :=
      readData_of_fits hq hc (by omega) hoffset hfits data
    rw [hrun]
    exact ⟨hsame, Or.inl hcoh⟩
  · have hdm : dev.blockSize * (offset / dev.blockSize) + offset % dev.blockSize = offset :=
      Nat.div_add_mod _ _
    obtain ⟨dev₁, hfirst, hsame, hnum, -⟩ := readFirst_eq hq hc hoffset
    have hrest : dev₁.HasBlocks (offset / dev.blockSize + 1)
        (size - (dev.blockSize - offset % dev.blockSize)) := by
      refine hsame.hasBlocks fun b hb hlt => hrange b (by omega) ?_
      rw [Nat.le_div_iff_mul_le hbs]
      rw [Nat.succ_mul, Nat.mul_comm (offset / dev.blockSize)] at hlt
      omega
    have hbs₁ : 0 < dev₁.blockSize := by rw [hsame.blockSize]; exact hbs
    have hcached := readBlocks_bufNum (hsame.quiet hq) hbs₁ (size + 1)
      (blit data 0 dev₁.buf (offset % dev.blockSize) (dev.blockSize - offset % dev.blockSize))
      (dev.blockSize + offset % dev.blockSize)
      (size - (dev.blockSize - offset % dev.blockSize)) (offset / dev.blockSize + 1) (by omega)
      hrest
    obtain ⟨dev₂, hrun, hsame₂⟩ := readBlocks_eq (hsame.quiet hq) hbs₁ (size + 1)
      (blit data 0 dev₁.buf (offset % dev.blockSize) (dev.blockSize - offset % dev.blockSize))
      (dev.blockSize + offset % dev.blockSize)
      (size - (dev.blockSize - offset % dev.blockSize)) (offset / dev.blockSize + 1) (by omega)
      hrest
    rw [hrun] at hcached
    unfold readData
    dsimp only at hcached ⊢
    rw [hfirst]
    dsimp only
    rw [u64, Nat.mod_eq_of_lt (by omega), if_neg hfits, hrun]
    refine ⟨hsame.trans hsame₂, Or.inr ?_⟩
    rw [hsame.blockSize, hnum] at hcached
    unfold readCached at hcached
    have hfirst : offset / dev.blockSize ≤ (offset + (size - 1)) / dev.blockSize :=
      Nat.div_le_div_right (Nat.le_add_right _ _)
    split at hcached
    · exact ⟨_, hcached, by omega, hfirst⟩
    · rename_i hpart
      refine ⟨_, hcached, by omega, ?_⟩
      -- The last byte of the read is in the partial block behind the whole ones.
      rw [Nat.le_div_iff_mul_le hbs]
      have hdiv := Nat.div_add_mod (size - (dev.blockSize - offset % dev.blockSize)) dev.blockSize
      rw [Nat.add_mul, Nat.add_mul, Nat.mul_comm (offset / dev.blockSize),
        Nat.mul_comm ((size - (dev.blockSize - offset % dev.blockSize)) / dev.blockSize)]
      omega

end

/-! ## Programs that do not mind -/

/-- The state with nothing cached. -/
def Sys.forget (s : Sys) : Sys := { s with dev := { s.dev with bufNum := none } }

/-- A device that works holds the volume, and the cache is under the number of a
block before `hi`. -/
structure Stale (v : Vol) (hi : Nat) (s : Sys) : Prop where
  vol : s.vol = v
  quiet : s.dev.Quiet
  cached : ∃ b, s.dev.bufNum = some b ∧ b < hi

/-- With nothing cached a device is healthy. -/
theorem Stale.forget {v : Vol} {hi : Nat} {s : Sys} (h : Stale v hi s) : Healthy v s.forget :=
  ⟨h.vol, h.quiet, BlockDev.coherent_of_none rfl⟩

/-- The program runs as if nothing was cached. -/
def Reloads {α : Type} (v : Vol) (hi : Nat) (p : SfsM α) : Prop :=
  ∀ s, Stale v hi s → s.exec p = s.forget.exec p

/-- The program runs as if nothing was cached, or leaves the cache alone. -/
def Ignores {α : Type} (v : Vol) (hi : Nat) (p : SfsM α) : Prop :=
  ∀ s, Stale v hi s → s.exec p = s.forget.exec p ∨
    ∃ a s', s.exec p = some (a, s') ∧ s.forget.exec p = some (a, s'.forget) ∧ Stale v hi s'

section

variable {α β : Type} {v : Vol} {lo hi off : Nat} {entr : Entry} {q : Buf}

theorem Reloads.bind {p : SfsM α} (h : Reloads v hi p) (f : α → SfsM β) :
    Reloads v hi (p >>= f) := by
  intro s hs
  rw [Sys.exec, Sys.exec, Prog.exec_bind, Prog.exec_bind]
  rw [show p.exec Sys.handle s = p.exec Sys.handle s.forget from h s hs]

theorem Reloads.ignores {p : SfsM α} (h : Reloads v hi p) : Ignores v hi p :=
  fun s hs => Or.inl (h s hs)

theorem ignores_pure (a : α) : Ignores v hi (pure a : SfsM α) :=
  fun s hs => Or.inr ⟨a, s, rfl, rfl, hs⟩

theorem Ignores.bind {p : SfsM α} {f : α → SfsM β} (h : Ignores v hi p)
    (hf : ∀ a, Ignores v hi (f a)) : Ignores v hi (p >>= f) := by
  intro s hs
  rcases h s hs with heq | ⟨a, s', hrun, hrun', hs'⟩
  · refine Or.inl ?_
    rw [Sys.exec, Sys.exec, Prog.exec_bind, Prog.exec_bind]
    rw [show p.exec Sys.handle s = p.exec Sys.handle s.forget from heq]
  · rw [Sys.exec_bind hrun, Sys.exec_bind hrun']
    exact hf a s' hs'

/-- Commands that leave the device alone. -/
theorem ignores_setErrno (code : Nat) : Ignores v hi (setErrno code) :=
  fun s hs => Or.inr ⟨(), { s with errno := code }, rfl, rfl, hs.vol, hs.quiet, hs.cached⟩

theorem ignores_uninit : Ignores v hi uninit := fun s hs => Or.inr ⟨s.stack, s, rfl, rfl, hs⟩

theorem ignores_ite {c : Prop} [Decidable c] {p p' : SfsM α} (h : Ignores v hi p)
    (h' : Ignores v hi p') : Ignores v hi (if c then p else p') := by
  split
  · exact h
  · exact h'

theorem reloads_uninit {f : Mem → SfsM α} (h : ∀ m, Reloads v hi (f m)) :
    Reloads v hi (uninit >>= f) := fun s hs => h s.stack s hs

theorem reloads_setErrno {code : Nat} {f : Unit → SfsM α} (h : Reloads v hi (f ())) :
    Reloads v hi (setErrno code >>= f) :=
  fun s hs => h { s with errno := code } ⟨hs.vol, hs.quiet, hs.cached⟩

theorem reloads_unit {f : SfsUnit → SfsM α} (h : Reloads v hi (f v.fs)) :
    Reloads v hi (unit >>= f) := by
  intro s hs
  have hfs : s.fs = v.fs := congrArg Vol.fs hs.vol
  have hrun := h s hs
  rw [← hfs] at hrun
  exact hrun

/-! ## Entries of the index -/

/-- A slot of the index is in no block of the data area. -/
theorem Geometry.block_ge (hg : Geometry v lo hi) (hoff : v.Slot off) :
    hi ≤ off / v.blockSize := by
  rw [Nat.le_div_iff_mul_le hg.sized.pos, ← hg.entryStart]
  exact hoff.ge

/-- `read_entry` of a slot of the index reads its block. -/
theorem reloads_readEntry (hg : Geometry v lo hi) (hoff : v.Slot off) :
    Reloads v hi (readEntry off entr) := by
  intro s hs
  obtain ⟨b, hnum, hlt⟩ := hs.cached
  have hbs : s.dev.blockSize = v.blockSize := congrArg Vol.blockSize hs.vol
  have hle := hg.slot_le hoff
  have hblock : v.HasBlock (off / v.blockSize) := hg.sized.hasBlock (by omega)
  have hhas : s.dev.HasBlock (off / s.dev.blockSize) := by
    unfold BlockDev.HasBlock
    rw [hbs, show s.dev.size = v.size from congrArg Vol.size hs.vol]
    exact hblock
  have hmiss : s.dev.bufNum ≠ some (off / s.dev.blockSize) := by
    rw [hnum, hbs]
    have hge := hg.block_ge hoff
    intro heq
    have hb := Option.some.inj heq
    omega
  have hread : Sfs.readData s.dev off entr indexEntrySize
      = Sfs.readData s.forget.dev off entr indexEntrySize := by
    unfold Sfs.readData
    dsimp only
    rw [readFirst_miss hs.quiet hhas hmiss]
    rfl
  unfold readEntry
  rw [if_neg (by have hal := hoff.aligned; unfold indexEntrySize; omega)]
  show Sys.handle (.readData off entr indexEntrySize) s >>= _
    = Sys.handle (.readData off entr indexEntrySize) s.forget >>= _
  unfold Sys.handle
  dsimp only
  rw [hread]
  rfl

theorem scanFuel_pos (h : off < 9223372036854775808) : ∃ n, scanFuel off = n + 1 := by
  refine ⟨scanFuel off - 1, ?_⟩
  unfold scanFuel indexEntrySize
  rw [sub64_of_le (Nat.le_of_lt h)]
  omega

/-- A scan of the index starts with its first slot. -/
theorem reloads_entryParse {δ : Type} (hg : Geometry v lo hi) (callback : Callback δ) (data : δ) :
    Reloads v hi (entryParse entr callback data) := by
  have hlt := hg.nonempty
  have hin := hg.inside
  have hsmall := hg.sized.small
  obtain ⟨n, hn⟩ := scanFuel_pos (show v.fs.entryStart < 9223372036854775808 by omega)
  have hslot : v.Slot v.fs.entryStart := ⟨Nat.le_refl _, hlt, hg.start_aligned⟩
  unfold entryParse
  refine reloads_unit ?_
  rw [hn, entryParseLoop, if_neg (Nat.ne_of_lt hlt)]
  exact (reloads_readEntry hg hslot).bind _

theorem reloads_searchName (hg : Geometry v lo hi) (kind : NameKind) :
    Reloads v hi (searchName kind q entr) := by
  unfold searchName
  exact reloads_setErrno ((reloads_entryParse hg _ _).bind _)

/-! ## The functions of the file system -/

theorem ignores_checkDirs (hg : Geometry v lo hi) : Ignores v hi (checkDirs q entr) := by
  have hloop : ∀ (n : Nat) (p : Buf) (entr : Entry) (cur : Nat),
      Ignores v hi (checkDirsLoop n p entr cur) := by
    intro n
    induction n with
    | zero => exact fun p entr cur => ignores_pure _
    | succ n ih =>
      intro p entr cur
      rw [checkDirsLoop]
      refine ignores_ite ?_ (ih _ _ _)
      exact (reloads_searchName hg _).ignores.bind fun _ => ignores_ite (ignores_pure _) (ih _ _ _)
  exact hloop _ _ _ _

theorem reloads_sfsOpen (hg : Geometry v lo hi) : Reloads v hi (sfsOpen q) := by
  unfold sfsOpen
  exact reloads_uninit fun entr => (reloads_searchName hg _).bind _

theorem ignores_sfsUnlink (hg : Geometry v lo hi) : Ignores v hi (sfsUnlink q) := by
  unfold sfsUnlink
  refine ignores_uninit.bind fun entr => ignores_ite ?_ ((reloads_searchName hg _).bind _).ignores
  exact (ignores_setErrno _).bind fun _ => ignores_pure _

theorem ignores_sfsCreat (hg : Geometry v lo hi) : Ignores v hi (sfsCreat q) := by
  unfold sfsCreat
  refine ignores_uninit.bind fun entr => ignores_ite ?_ ?_
  · exact (ignores_setErrno _).bind fun _ => ignores_pure _
  · refine (ignores_checkDirs hg).bind fun x => ignores_ite ?_ ?_
    · exact (ignores_setErrno _).bind fun _ => ignores_pure _
    · exact ((reloads_searchName hg _).bind _).ignores

theorem reloads_sfsDelete (hg : Geometry v lo hi) (hoff : v.Slot off) :
    Reloads v hi (sfsDelete off) := by
  unfold sfsDelete
  exact reloads_uninit fun entr => (reloads_readEntry hg hoff).bind _

theorem reloads_sfsWrite (hg : Geometry v lo hi) (hoff : v.Slot off) (data : Mem)
    (size pos : Nat) : Reloads v hi (sfsWrite off data size pos) := by
  unfold sfsWrite
  exact reloads_uninit fun entr => (reloads_readEntry hg hoff).bind _

theorem reloads_sfsRead (hg : Geometry v lo hi) (hoff : v.Slot off) (data : Mem)
    (size pos : Nat) : Reloads v hi (sfsRead off data size pos) := by
  unfold sfsRead
  exact reloads_uninit fun entr => (reloads_readEntry hg hoff).bind _

/-! ## A device between two calls -/

/-- A device that works holds the volume, with a coherent cache or a stale one. -/
def Rests (v : Vol) (hi : Nat) (s : Sys) : Prop := Healthy v s ∨ Stale v hi s

/-- What a function does to the volume, it does to such a device. -/
theorem Rests.exec {s : Sys} {p : SfsM α} {Q : α → Img → Prop} (h : Rests v hi s) (hs : v.Sized)
    (hp : Ignores v hi p) (hgives : ∀ t : Img, t.vol = v → Gives p t Q) :
    ∃ r s' t', s.exec p = some (r, s') ∧ Q r t' ∧ Rests t'.vol hi s' ∧ s'.errno = t'.errno := by
  rcases h with h | h
  · obtain ⟨r, s', t', hrun, hshow, hQ⟩ :=
      transfer (Sys.shows_img h.quiet h.coherent (by rw [h.vol]; exact hs)) (hgives s.img h.vol)
    exact ⟨r, s', t', hrun, hQ, Or.inl (Healthy.of_shows hshow rfl), hshow.errno⟩
  · have h' := h.forget
    obtain ⟨r, s', t', hrun, hshow, hQ⟩ :=
      transfer (Sys.shows_img h'.quiet h'.coherent (by rw [h'.vol]; exact hs))
        (hgives s.forget.img h'.vol)
    rcases hp s h with heq | ⟨a, s₁, hrun₁, hrun₂, hs₁⟩
    · exact ⟨r, s', t', heq.trans hrun, hQ, Or.inl (Healthy.of_shows hshow rfl), hshow.errno⟩
    · rw [hrun] at hrun₂
      cases hrun₂
      refine ⟨_, s₁, t', hrun₁, hQ, Or.inr ⟨hshow.vol, hs₁.quiet, hs₁.cached⟩, hshow.errno⟩

theorem Rests.call {s : Fuse} {p : SfsM α} {Q : α → Img → Prop} (h : Rests v hi s.sys)
    (hs : v.Sized) (hp : Ignores v hi p) (hgives : ∀ t : Img, t.vol = v → Gives p t Q) :
    Leads (Fuse.call p) s fun r s' => s' = { s with sys := s'.sys } ∧
      ∃ t', Q r t' ∧ Rests t'.vol hi s'.sys ∧ s'.sys.errno = t'.errno := by
  obtain ⟨r, sys, t', hrun, hQ, hrests, herr⟩ := h.exec hs hp hgives
  exact ⟨r, { s with sys := sys }, by rw [Fuse.call, hrun]; rfl, rfl, t', hQ, hrests, herr⟩

/-- A read of bytes before the index. -/
theorem Healthy.readData {s : Sys} {offset n : Nat} (h : Healthy v s) (hg : Geometry v lo hi)
    (hle : offset + n ≤ v.fs.entryStart) (data : Mem) :
    ∃ r s', s.exec (readDataM offset data n) = some (r, s') ∧ Rests v hi s' := by
  have hbs := hg.sized.pos
  have hsmall := hg.sized.small
  have hin := hg.inside
  have hne := hg.nonempty
  have hdevbs : s.dev.blockSize = v.blockSize := congrArg Vol.blockSize h.vol
  have hdevsize : s.dev.size = v.size := congrArg Vol.size h.vol
  have hhas : ∀ {k : Nat}, k < v.size → s.dev.HasBlock (k / s.dev.blockSize) := by
    intro k hk
    unfold BlockDev.HasBlock
    rw [hdevbs, hdevsize]
    exact hg.sized.hasBlock hk
  have hrange : s.dev.HasRange offset n := by
    intro b _ hb
    have hlast := hhas (k := offset + (n - 1)) (by omega)
    have hmul := Nat.mul_le_mul_right s.dev.blockSize hb
    unfold BlockDev.HasBlock at hlast ⊢
    omega
  obtain ⟨r, hrun, hdisk, hcache⟩ := readData_rests h.quiet h.coherent (by omega) (by omega)
    (hhas (by omega)) hrange (by omega) data
  refine ⟨(r.1, r.2.1), { s with
    dev := r.2.2
    errno := s.errnoAfter (r.1 == minusOne) }, ?_, ?_⟩
  · refine (Prog.exec_perform Sys.handle (.readData offset data n) s).trans ?_
    simp only [Sys.handle, hrun]
    rfl
  · have hvol : Sys.vol { s with
        dev := r.2.2
        errno := s.errnoAfter (r.1 == minusOne) } = v := by
      rw [← h.vol]
      simp only [Sys.vol, hdisk.blockSize, hdisk.size, hdisk.data]
    rcases hcache with hcoh | ⟨b, hnum, hpos, hb⟩
    · exact Or.inl ⟨hvol, hdisk.quiet h.quiet, hcoh⟩
    · refine Or.inr ⟨hvol, hdisk.quiet h.quiet, b, hnum, Nat.lt_of_le_of_lt hb ?_⟩
      rw [hdevbs, Nat.div_lt_iff_lt_mul hbs, ← hg.entryStart]
      omega

/-- `sfs_read` of a file changes the time of the unit at most. -/
theorem Rests.sfsRead {s : Sys} {nodes : List Nat} {file size pos : Nat} (h : Rests v hi s)
    (hw : Blocks v nodes lo hi) (hfile : v.IsFile nodes file)
    (hlt : pos + size < 9223372036854775808) (data : Mem) :
    ∃ r s' time, s.exec (sfsRead file data size pos) = some (r, s') ∧
      Rests { v with fs := { v.fs with time := time } } hi s' := by
  have hg := hw.geometry
  have hslot := hfile.1
  have hsmall := hg.sized.small
  have hin := hg.inside
  have hne := hg.nonempty
  obtain ⟨s₀, h₀, heq⟩ : ∃ s₀, Healthy v s₀ ∧
      s.exec (Sfs.sfsRead file data size pos) = s₀.exec (Sfs.sfsRead file data size pos) := by
    rcases h with h | h
    · exact ⟨s, h, rfl⟩
    · exact ⟨s.forget, h.forget, reloads_sfsRead hg hslot data size pos s h⟩
  rw [heq]
  have hvol := h₀.vol
  obtain ⟨dev, hsame, hcoh, hread⟩ := exec_readEntry (α := Nat × Mem) h₀.quiet h₀.coherent
    (by rw [hvol]; exact hg.sized) hslot.aligned
    (by rw [show s₀.dev.size = v.size from congrArg Vol.size hvol]; exact hg.slot_le hslot) s₀.stack
  have hdevbs : dev.blockSize = v.blockSize := hsame.blockSize.trans (congrArg Vol.blockSize hvol)
  have hsame' : ∀ fs errno ticks, Sys.vol ⟨dev, fs, errno, s₀.clock, ticks, s₀.stack⟩
      = { v with fs := fs } := by
    intro fs errno ticks
    rw [← hvol]
    simp only [Sys.vol, hsame.blockSize, hsame.size, hsame.data]
  have hquiet := hsame.quiet h₀.quiet
  have hfs : s₀.fs = v.fs := congrArg Vol.fs hvol
  unfold Sfs.sfsRead
  rw [exec_uninit, hread]
  dsimp only
  rw [if_neg (by decide), Vol.get_load, Vol.get_load, hvol]
  by_cases hoff : v.get file .size < pos
  · rw [if_pos hoff, exec_setErrno]
    exact ⟨_, _, v.fs.time, rfl, Or.inl ⟨(hsame' _ _ _).trans (by rw [hfs]), hquiet, hcoh⟩⟩
  · rw [if_neg hoff, exec_update, exec_setErrno, exec_blockSize]
    dsimp only
    have hclip : (if v.get file .size < u64 (pos + size) then v.get file .size - pos else size)
        ≤ v.get file .size - pos := by
      rw [u64_of_lt (by omega)]
      split <;> omega
    have hrange : v.get file .startBlock * v.blockSize + pos + (v.get file .size - pos)
        ≤ v.fs.entryStart := hw.range_le hfile (by omega)
    have hoffset : u64 (v.get file .startBlock * dev.blockSize + pos)
        = v.get file .startBlock * v.blockSize + pos := by
      rw [hdevbs]
      exact u64_of_lt (by omega)
    rw [hoffset, hfs]
    generalize (if v.get file .size < u64 (pos + size) then v.get file .size - pos else size)
      = n at hclip ⊢
    have hsameIndex := SameIndex.withTime v (u64 (s₀.clock s₀.ticks))
    have hend : v.get file .startBlock * v.blockSize + pos + n ≤ v.fs.entryStart := by omega
    obtain ⟨r, s', hrun, hrests⟩ := Healthy.readData ⟨hsame' _ 0 (s₀.ticks + 1), hquiet, hcoh⟩
      (hsameIndex.blocks hw).geometry hend data
    exact ⟨r, s', _, hrun, hrests⟩

end

end Sfs
