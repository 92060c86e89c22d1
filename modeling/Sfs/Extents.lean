import Sfs.Coalesced
import Sfs.Session

/-!
# The list functions on a device

The three functions that change the list of free extents, as operations on a
coalesced set of free blocks, on a device that works:

* `delFileListAdd_inserts`: `del_file_list_add` puts an extent into the set;
* `delFileListAlloc_takes`: `del_file_list_alloc` takes a run of blocks out of
  it, and fails only when there is no such run;
* `tryExpand_takes`: `try_expand` takes the blocks behind a file out of it
  exactly when they are all free.
-/

namespace Sfs

open Lib

/-- Only bytes of slots in `P` are different. -/
def Vol.ChangesOnly (v v' : Vol) (P : Nat → Prop) : Prop :=
  ∀ k, (∀ off, P off → k < off ∨ off + 64 ≤ k) → v'.data k = v.data k

namespace Vol

variable {v v' : Vol} {nodes nodes' : List Nat} {lo hi start stop a : Nat}

theorem ChangesOnly.mono {P Q : Nat → Prop} (h : v.ChangesOnly v' P) (hPQ : ∀ off, P off → Q off) :
    v.ChangesOnly v' Q := fun k hk => h k fun off hoff => hk off (hPQ off hoff)

theorem changesOnly_set (v : Vol) (off : Nat) (f : Field) (x : Nat) :
    v.ChangesOnly (v.set off f x) fun o => o = off := fun k hk =>
  set_outside f x (by
    have h := hk off rfl
    omega)

/-- `del_file_list_remove` changes slots of nodes only. -/
theorem changesOnly_unlink (hf : FreeList v nodes) (ha : a ∈ nodes) :
    v.ChangesOnly (v.unlink a) fun o => o ∈ nodes := fun _ hk =>
  unlink_outside (hk a ha) (fun h0 => hk _ (hf.prev_mem ha h0)) fun h0 => hk _ (hf.next_mem ha h0)

/-- `del_file_list_add` changes slots of nodes and at most one unused slot. -/
theorem ListAdded.changesOnly (h : v.ListAdded nodes start stop v' nodes') (hf : FreeList v nodes) :
    ∃ new, v.ChangesOnly v' fun off =>
      off ∈ nodes ∨ (off = new ∧ v.Slot new ∧ v.type new = EntryType.unusedEntry.code) := by
  cases h with
  | joinNext hnext _ _ =>
    refine ⟨0, (changesOnly_set v _ _ _).mono ?_⟩
    rintro off rfl
    exact Or.inl hnext
  | joinPrev hprev _ _ =>
    refine ⟨0, (changesOnly_set v _ _ _).mono ?_⟩
    rintro off rfl
    exact Or.inl hprev
  | joinBoth hprev _ hnext _ =>
    refine ⟨0, fun k hk => ?_⟩
    rw [changesOnly_set _ _ _ _ k fun off hoff => hk off (Or.inl (hoff ▸ hnext))]
    exact changesOnly_unlink hf hprev k fun off hoff => hk off (Or.inl hoff)
  | @push new _ _ _ slot unused _ _ _ =>
    refine ⟨new, fun k hk => push_outside (hk new (Or.inr ⟨rfl, slot, unused⟩)) fun h0 => ?_⟩
    exact hk _ (Or.inl (hf.chain.first_mem h0))

/-- Taking blocks from a node changes slots of nodes only. -/
theorem changesOnly_takeFront (hf : FreeList v nodes) (ha : a ∈ nodes) (n : Nat) :
    v.ChangesOnly (v.takeFront a n) fun off => off ∈ nodes := by
  unfold takeFront
  split
  · exact changesOnly_unlink hf ha
  · refine (changesOnly_set v _ _ _).mono ?_
    rintro off rfl
    exact ha

end Vol

/-! ## A disk with a file -/

/-- A file of two blocks on the small disk. -/
def writtenOps : List Op := [.creat pathA, .write 3776 (fun _ => 7) 600 0]

/-- What a disk with a file has: the file at slot 3776 in the blocks 1 and 2,
the node at slot 3648 for the blocks 3 to 6, and unused slots. -/
structure Written (s : Sys) : Prop where
  quiet : s.dev.Quiet
  coherent : s.dev.Coherent
  wellFormed : WellFormed s.vol [3648] 1 7
  coalesced : Coalesced s.vol [3648] 1 7
  blockSize : s.vol.blockSize = 512
  live : s.vol.LiveFile 3776
  size : s.vol.get 3776 .size = 600
  start : s.vol.get 3776 .startBlock = 1
  stop : s.vol.get 3776 .endBlock = 2
  nodeStart : s.vol.get 3648 .startBlock = 3
  nodeStop : s.vol.get 3648 .endBlock = 6
  spare : s.vol.Slot 3840 ∧ s.vol.type 3840 = EntryType.unusedEntry.code

theorem Written.free {s : Sys} (h : Written s) {b : Nat} (hge : 3 ≤ b) (hle : b ≤ 6) :
    s.vol.Free [3648] b :=
  ⟨3648, List.mem_singleton_self _, h.nodeStart.trans_le hge, hle.trans_eq h.nodeStop.symm⟩

theorem Written.not_free {s : Sys} (h : Written s) {b : Nat} (hlt : b < 3) :
    ¬ s.vol.Free [3648] b := by
  rintro ⟨o, ho, hge, -⟩
  rw [List.mem_singleton.1 ho, h.nodeStart] at hge
  omega

theorem exists_written : ∃ s s₀ s', blankMounted = some s₀ ∧
    run Op.step ⟨s₀, []⟩ writtenOps = some s' ∧ s'.sys = s ∧ Written s := by
  have hview : (blankRun writtenOps).map (fun s' : Session =>
      ([s'.sys.fs.delBegin, s'.sys.vol.next 3648, s'.sys.vol.blockSize, s'.sys.vol.type 3776,
        s'.sys.vol.get 3776 .size, s'.sys.vol.get 3776 .startBlock, s'.sys.vol.get 3776 .endBlock,
        s'.sys.vol.get 3648 .startBlock, s'.sys.vol.get 3648 .endBlock, s'.sys.vol.type 3840,
        s'.sys.fs.entryStart, s'.sys.fs.volIdent],
        (List.range 6).all fun i => s'.sys.vol.data (3648 + (34 + i)) == freeName.char i))
      = some ([3648, 0, 512, 0x12, 600, 1, 2, 3, 6, 0x10, 3584, 4032], true) := by
    decide +kernel
  obtain ⟨s₀, s', -, hmount, hrun, hview⟩ := blankRun_eq hview
  simp only [List.cons.injEq, Prod.mk.injEq, and_true] at hview
  obtain ⟨⟨hbegin, hnext, hbs, htype, hsize, hstart, hstop, hns, hne, hspare, hes, hvi⟩, hname⟩ :=
    hview
  obtain ⟨hq, hc, nodes, hw⟩ := blankRun_light hmount (by decide +kernel) hrun
  obtain rfl : nodes = [3648] := hw.space.eq_of_begin hbegin (by decide) hnext
  have hslot : ∀ o, 3584 ≤ o → o < 4032 → o % 64 = 0 → s'.sys.vol.Slot o := fun o h₁ h₂ h₃ =>
    ⟨hes.trans_le h₁, Nat.lt_of_lt_of_eq h₂ hvi.symm, h₃⟩
  refine ⟨s'.sys, s₀, s', hmount, hrun, rfl, hq, hc, hw, ?_, hbs, ⟨?_, htype⟩, hsize, hstart, hstop,
    hns, hne, ?_, hspare⟩
  · refine hw.space.coalesced_singleton (by decide) fun i hi => ?_
    exact beq_iff_eq.1 (List.all_eq_true.1 hname i (List.mem_range.2 hi))
  · exact hslot _ (by decide) (by decide) (by decide)
  · exact hslot _ (by decide) (by decide) (by decide)

/-! ## The list functions -/

section

variable {s : Sys} {nodes : List Nat} {lo hi start stop : Nat}

/-- `del_file_list_add` of blocks of the data area that are not free puts them
into the set, where there is a slot for a node or an extent next to them, and
else fails and changes nothing. -/
theorem delFileListAdd_inserts (entr : Entry) (hq : s.dev.Quiet) (hc : s.dev.Coherent)
    (hg : Geometry s.vol lo hi) (hf : Coalesced s.vol nodes lo hi) (hlo : lo ≤ start)
    (hle : start ≤ stop) (hhi : stop < hi)
    (hfresh : ∀ b, start ≤ b → b ≤ stop → ¬ s.vol.Free nodes b) :
    ∃ r s', s.exec (delFileListAdd entr start stop) = some (r, s') ∧
      (s.vol.CanRecord nodes start stop → r.1 = 0 ∧ SameArea s.vol s'.vol ∧
        s'.fs.time = s.fs.time ∧ ∃ nodes', Coalesced s'.vol nodes' lo hi ∧
          (∀ b, s'.vol.Free nodes' b ↔ s.vol.Free nodes b ∨ (start ≤ b ∧ b ≤ stop)) ∧
          ∃ new, s.vol.ChangesOnly s'.vol fun off => off ∈ nodes ∨
            (off = new ∧ s.vol.Slot new ∧ s.vol.type new = EntryType.unusedEntry.code)) ∧
      (¬ s.vol.CanRecord nodes start stop → r.1 = -1 ∧ s'.vol = s.vol) := by
  have hpos := hg.lo_pos
  have hbound := hg.block_lt
  obtain ⟨r, s', t', hrun, hshow, hres⟩ := transfer (Sys.shows_img hq hc hg.sized)
    (gives_delFileListAdd_added hg hf.toFreeSpace (by omega) (by omega) (by omega)
      fun _ => hf.not_after_of_before hle)
  refine ⟨r, s', hrun, fun hrec => ?_, fun hrec => ?_⟩
  · rcases hres with ⟨hr, -, nodes', hadd⟩ | ⟨-, -, hnot⟩
    · have hstep := hadd.step hg hf.toFreeSpace hlo hle hhi hfresh
      have htime := hstep.step.time
      rw [← hshow.vol] at hadd hstep htime
      exact ⟨hr, hstep.step.area, htime, nodes', hf.added hg hadd hlo hle hhi hfresh, hstep.free,
        hadd.changesOnly hf.toFreeList⟩
    · exact absurd hrec hnot
  · rcases hres with ⟨-, -, nodes', hadd⟩ | ⟨hr, hvol, -⟩
    · exact absurd hadd.canRecord hrec
    · exact ⟨hr, hshow.vol.trans hvol⟩

theorem delFileListAdd_inserts_written :
    ∃ s r s' nodes', Written s ∧ s.exec (delFileListAdd (fun _ => 0) 1 2) = some (r, s') ∧
      r.1 = 0 ∧ Coalesced s'.vol nodes' 1 7 ∧
      ∀ b, s'.vol.Free nodes' b ↔ s.vol.Free [3648] b ∨ (1 ≤ b ∧ b ≤ 2) := by
  obtain ⟨s, -, -, -, -, -, h⟩ := exists_written
  obtain ⟨r, s', hrun, hadd, -⟩ := delFileListAdd_inserts (fun _ => 0) h.quiet h.coherent
    h.wellFormed.geometry h.coalesced (show 1 ≤ 1 by decide) (show 1 ≤ 2 by decide)
    (show 2 < 7 by decide) fun b _ hb hfree => h.not_free (by omega) hfree
  obtain ⟨hr, -, -, nodes', hcoal, hfree, -⟩ := hadd (Or.inl ⟨3840, h.spare⟩)
  exact ⟨s, r, s', nodes', h, hrun, hr, hcoal, hfree⟩

/-- `del_file_list_alloc` takes a run of as many free blocks as the size needs,
and fails with `ENOSPC` exactly when there is none. -/
theorem delFileListAlloc_takes {size : Nat} (entr : Entry) (hq : s.dev.Quiet) (hc : s.dev.Coherent)
    (hg : Geometry s.vol lo hi) (hf : Coalesced s.vol nodes lo hi) (hpos : 1 ≤ size)
    (hsize : size < 9223372036854775808) :
    ∃ r s', s.exec (delFileListAlloc entr size) = some (r, s') ∧
      ((¬ ∃ start, ∀ j, j < blocksOf s.vol.blockSize size → s.vol.Free nodes (start + j)) →
        r.1 = 0 ∧ s'.errno = eNOSPC ∧ s'.vol = s.vol) ∧
      ((∃ start, ∀ j, j < blocksOf s.vol.blockSize size → s.vol.Free nodes (start + j)) →
        r.1 ≠ 0 ∧ (∀ j, j < blocksOf s.vol.blockSize size → s.vol.Free nodes (r.1 + j)) ∧
        SameArea s.vol s'.vol ∧ s'.fs.time = s.fs.time ∧ ∃ nodes', Coalesced s'.vol nodes' lo hi ∧
          (∀ b, s'.vol.Free nodes' b ↔ s.vol.Free nodes b ∧
            ¬ (r.1 ≤ b ∧ b < r.1 + blocksOf s.vol.blockSize size)) ∧
          s.vol.ChangesOnly s'.vol fun off => off ∈ nodes) := by
  have hbs := hg.sized.pos
  have hk := blocksOf_pos hbs hpos
  have hlo := hg.lo_pos
  have hdev := hg.sized.small
  have hbig := hg.blockSize_le
  obtain ⟨r, s', t', hrun, hshow, hres⟩ := transfer (p := delFileListAlloc entr size)
    (Sys.shows_img hq hc hg.sized) (gives_delFileListAlloc hg hf.toFreeSpace
      (realSize_eq hbs (show size + s.vol.blockSize ≤ 18446744073709551616 by omega)) hk)
  refine ⟨r, s', hrun, ?_⟩
  rw [hf.run_iff hk]
  rcases hres with ⟨hr, hvol, herrno, hsmall⟩ | ⟨-, a, ha, hr, hroom, -, hvol⟩
  · refine ⟨fun _ => ⟨hr, hshow.errno.trans herrno, hshow.vol.trans hvol⟩, ?_⟩
    rintro ⟨a, ha, hle⟩
    exact absurd hle (Nat.not_le.2 (hsmall a ha))
  · refine ⟨fun hnone => absurd ⟨a, ha, hroom⟩ hnone, fun _ => ?_⟩
    have hge := hf.ge a ha
    have hstep := hf.toFreeSpace.takeFront ha hk hroom
    have hcoal := hf.takeFront ha hk hroom
    have honly := Vol.changesOnly_takeFront hf.toFreeList ha (blocksOf s.vol.blockSize size)
    have hvol' : s'.vol = s.vol.takeFront a (blocksOf s.vol.blockSize size) := hshow.vol.trans hvol
    have htime := hstep.step.time
    rw [← hvol'] at hstep hcoal honly htime
    have hr' : r.1 = s.vol.get a .startBlock := hr
    replace hroom : blocksOf s.vol.blockSize size ≤
      s.vol.get a .endBlock + 1 - s.vol.get a .startBlock := hroom
    refine ⟨by omega, fun j hj => ⟨a, ha, by omega, by omega⟩, hstep.step.area, htime, _, hcoal, ?_,
      honly⟩
    rw [hr']
    exact hstep.free

theorem delFileListAlloc_takes_written :
    ∃ s r s', Written s ∧ s.exec (delFileListAlloc (fun _ => 0) 600) = some (r, s') ∧ r.1 ≠ 0 := by
  obtain ⟨s, -, -, -, -, -, h⟩ := exists_written
  obtain ⟨r, s', hrun, -, htake⟩ := delFileListAlloc_takes (fun _ => 0) h.quiet h.coherent
    h.wellFormed.geometry h.coalesced (show 1 ≤ 600 by decide) (by decide)
  refine ⟨s, r, s', h, hrun, (htake ⟨3, fun j hj => h.free (by omega) ?_⟩).1⟩
  have hk : blocksOf s.vol.blockSize 600 = 2 := by
    rw [h.blockSize]
    rfl
  omega

/-- `try_expand` takes the blocks that a file needs behind its last one exactly
when they are all free, and else changes nothing; the slot of the file stays as
it is. -/
theorem tryExpand_takes {file newSize d : Nat} (entr : Entry) (hq : s.dev.Quiet)
    (hc : s.dev.Coherent) (hg : Geometry s.vol lo hi) (hf : Coalesced s.vol nodes lo hi)
    (hfile : s.vol.IsFile nodes file) (hok : s.vol.FileOk lo hi file)
    (hsome : s.vol.get file .size ≠ 0) (hapart : ∀ b, s.vol.Owns file b → ¬ s.vol.Free nodes b)
    (hnew : newSize < 9223372036854775808) (hd : 0 < d)
    (hmore : blocksOf s.vol.blockSize newSize =
      blocksOf s.vol.blockSize (s.vol.get file .size) + d) :
    ∃ r s', s.exec (tryExpand file newSize entr) = some (r, s') ∧
      (r.1 = 0 ↔ ∀ b, s.vol.get file .endBlock < b → b ≤ s.vol.get file .endBlock + d →
        s.vol.Free nodes b) ∧
      (r.1 = 0 → SameArea s.vol s'.vol ∧ s'.fs.time = s.fs.time ∧
        ∃ nodes', Coalesced s'.vol nodes' lo hi ∧
          (∀ b, s'.vol.Free nodes' b ↔ s.vol.Free nodes b ∧
            ¬ (s.vol.get file .endBlock < b ∧ b ≤ s.vol.get file .endBlock + d)) ∧
          s.vol.ChangesOnly s'.vol fun off => off ∈ nodes) ∧
      (r.1 ≠ 0 → s'.vol = s.vol) ∧
      ∀ k, file ≤ k → k < file + 64 → s'.vol.data k = s.vol.data k := by
  have hbs := hg.sized.pos
  have hdev := hg.sized.small
  have hbig := hg.blockSize_le
  have hold := hok.size_lt hg
  have hslot := hfile.1
  rcases hok with ⟨hz, -⟩ | ⟨hpos, hlo, hhi, hcount⟩
  · exact absurd hz hsome
  have hblocks := blocksOf_pos hbs hpos
  have hstop : ¬ s.vol.Free nodes (s.vol.get file .endBlock) := hapart _ ⟨by omega, Nat.le_refl _⟩
  have hdelta : sub64 (realSize s.vol.blockSize newSize)
      (realSize s.vol.blockSize (s.vol.get file .size)) = s.vol.blockSize * d := by
    rw [realSize_eq hbs (by omega), realSize_eq hbs (by omega), sub64_of_le
      (Nat.mul_le_mul_left _ (by omega)), ← Nat.mul_sub, hmore, Nat.add_sub_cancel_left]
  obtain ⟨r, s', t', hrun, hshow, hres⟩ := transfer (p := tryExpand file newSize entr)
    (Sys.shows_img hq hc hg.sized) (gives_tryExpand hg hf.toFreeSpace hslot hhi hdelta)
  refine ⟨r, s', hrun, ?_⟩
  rw [hf.behind_iff hd hstop]
  rcases hres with ⟨hr, hvol, hnone⟩ | ⟨hr, -, a, ha, hstart, hroom, hvol⟩
  · have hr0 : r.1 ≠ 0 := by
      rw [hr]
      exact one_ne_zero
    have hvol' : s'.vol = s.vol := hshow.vol.trans hvol
    refine ⟨⟨fun h => absurd h hr0, ?_⟩, fun h => absurd h hr0, fun _ => hvol', fun k _ _ => ?_⟩
    · rintro ⟨a, ha, hstart, hroom⟩
      exact absurd ⟨hstart, Nat.mul_le_mul_left _ hroom⟩ (hnone a ha)
    · rw [hvol']
  · replace hstart : s.vol.get a .startBlock = s.vol.get file .endBlock + 1 := hstart
    have hstep := hf.toFreeSpace.takeFront ha hd hroom
    have hcoal := hf.takeFront ha hd hroom
    have honly := Vol.changesOnly_takeFront hf.toFreeList ha d
    have hvol' : s'.vol = s.vol.takeFront a d := hshow.vol.trans hvol
    have htime := hstep.step.time
    rw [← hvol'] at hstep hcoal honly htime
    refine ⟨⟨fun _ => ⟨a, ha, hstart, hroom⟩, fun _ => hr⟩, fun _ => ?_, fun h => absurd hr h, ?_⟩
    · refine ⟨hstep.step.area, htime, _, hcoal, fun b => ?_, honly⟩
      have hrange : (s.vol.get a .startBlock ≤ b ∧ b < s.vol.get a .startBlock + d) ↔
          (s.vol.get file .endBlock < b ∧ b ≤ s.vol.get file .endBlock + d) := by
        omega
      rw [hstep.free b, hrange]
    · intro k hk hk'
      refine honly k fun off hoff => ?_
      have hne : off ≠ file := by
        rintro rfl
        exact hfile.not_mem hf.toFreeList hoff
      have hal := (hf.slot off hoff).aligned
      have hal' := hslot.aligned
      omega

theorem tryExpand_takes_written :
    ∃ s r s', Written s ∧ s.exec (tryExpand 3776 1100 fun _ => 0) = some (r, s') ∧ r.1 = 0 := by
  obtain ⟨s, -, -, -, -, -, h⟩ := exists_written
  have hw := h.wellFormed
  have hfile : s.vol.IsFile [3648] 3776 := h.live.isFile
  have hsome : s.vol.get 3776 .size ≠ 0 := by
    rw [h.size]
    decide
  obtain ⟨r, s', hrun, hiff, -⟩ := tryExpand_takes (fun _ => 0) h.quiet
    h.coherent hw.geometry h.coalesced hfile (hw.fileOk _ hfile) hsome
    (fun b hb => hw.apart _ hfile b ⟨hsome, hb⟩) (show 1100 < 9223372036854775808 by decide)
    Nat.one_pos (by rw [h.blockSize, h.size]; decide)
  refine ⟨s, r, s', h, hrun, hiff.2 fun b hlt hle => h.free ?_ ?_⟩
  all_goals
    rw [h.stop] at hlt hle
    omega

end

end Sfs
