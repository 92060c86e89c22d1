import Sfs.Remove
import Sfs.Session

/-!
# First-fit allocation of slots

`alloc_entry` counts unused slots down from `n` and starts over at every slot in
use, so what it accepts is the last slot of the first run, and the first slot of
the run is computed backwards: `INDEX_ENTRY_SIZE * (n - 1)`, a product of `int`s.

* `allocEntry_firstFit_iff`: it is a first-fit allocator, undone by
  `free_entry`, unless that product overflows;
* `exec_freeEntry`: freeing a run gives its slots back and no others.
-/

namespace Sfs

open Lib

/-- An index as `sfs_init` finds it: whole slots inside the device, behind at
least one block. -/
structure Vol.HasIndex (v : Vol) : Prop where
  sized : v.Sized
  start_pos : 0 < v.fs.entryStart
  start_aligned : v.fs.entryStart % 64 = 0
  aligned : v.fs.volIdent % 64 = 0
  le : v.fs.entryStart ≤ v.fs.volIdent
  inside : v.fs.volIdent + 64 ≤ v.size

/-- The slots that are `UNUSED_ENTRY`. -/
def Vol.unused (v : Vol) : Set Nat := {o | v.Slot o ∧ v.type o = EntryType.unusedEntry.code}

theorem Geometry.hasIndex {v : Vol} {lo hi : Nat} (h : Geometry v lo hi) : v.HasIndex :=
  ⟨h.sized, h.start_pos, h.start_aligned, h.aligned, Nat.le_of_lt h.nonempty, h.inside⟩

/-- A run is a set of unused slots. -/
theorem Vol.UnusedRun.mem {v : Vol} {o n j : Nat} (h : v.UnusedRun o n) (hj : j < n) :
    o + 64 * j ∈ v.unused := h j hj

/-! ## What the allocator is for -/

/-- The call returns the first run of `n` unused slots, or 0 when there is none,
and writes nothing. -/
def AllocatesFirst (s : Sys) (n : Nat) : Prop :=
  ∀ entr, ∃ r s', s.exec (allocEntry entr n) = some (r, s') ∧ s'.vol = s.vol ∧
    (r.1 = 0 ↔ ∀ o, ¬ s.vol.UnusedRun o n) ∧
    (r.1 ≠ 0 → IsLeast {o | s.vol.UnusedRun o n} r.1)

/-- Whatever is written into a run, freeing it brings the unused slots back. -/
def FreesBack (s : Sys) (n : Nat) : Prop :=
  ∀ o, s.vol.UnusedRun o n → ∀ s₁ : Sys, s₁.dev.Quiet → s₁.dev.Coherent →
    SameArea s.vol s₁.vol → (∀ k, k < o ∨ o + 64 * n ≤ k → s₁.vol.data k = s.vol.data k) →
    ∀ entr, ∃ r s₂, s₁.exec (freeEntry entr o n) = some (r, s₂) ∧ r.1 = 0 ∧
      s₂.vol.unused = s.vol.unused

section

variable {s : Sys} {n : Nat}

/-- The scan of `alloc_entry` on a device that works. -/
theorem exec_searchFreeEntry (hq : s.dev.Quiet) (hc : s.dev.Coherent) (hi : s.vol.HasIndex)
    (hn : 0 < n) (entr : Entry) :
    ∃ r s', s.exec (entryParse entr searchFreeEntry (n, n)) = some (r, s') ∧ s'.vol = s.vol ∧
      ((r.1 = 0 ∧ ∀ o, ¬ s.vol.UnusedRun o n) ∨
        (s.vol.fs.entryStart ≤ r.1 - 64 * (n - 1) ∧ s.vol.UnusedRun (r.1 - 64 * (n - 1)) n ∧
          ∀ o, o < r.1 - 64 * (n - 1) → ¬ s.vol.UnusedRun o n)) := by
  rcases Nat.eq_or_lt_of_le hi.le with hempty | hnonempty
  · -- No slot: the first test of the loop ends it.
    have hinside := hi.inside
    have hsmall := hi.sized.small
    obtain ⟨fuel, hfuel⟩ : ∃ fuel, scanFuel s.vol.fs.entryStart = fuel + 1 := by
      refine ⟨scanFuel s.vol.fs.entryStart - 1, ?_⟩
      unfold scanFuel indexEntrySize
      rw [sub64_of_le (by omega)]
      omega
    refine ⟨(0, entr, (n, n)), s, ?_, rfl, Or.inl ⟨rfl, fun o hall => ?_⟩⟩
    · unfold entryParse
      rw [Sys.exec_bind (show s.exec unit = some (s.vol.fs, s) from rfl), hfuel, entryParseLoop,
        if_pos hempty]
      rfl
    · have hslot := (hall 0 hn).1
      have hge := hslot.ge
      have hlt := hslot.lt
      omega
  · have hg : Area s.vol := ⟨hi.sized, hi.start_aligned, hi.aligned, hnonempty, hi.inside⟩
    obtain ⟨r, s', t', hrun, hshow, hvol, hres⟩ :=
      transfer (Sys.shows_img hq hc hi.sized) (gives_searchFreeEntry (t := s.img) hg hn entr)
    refine ⟨r, s', hrun, hshow.vol.trans hvol, ?_⟩
    rcases hres with hnone | ⟨-, -, hrun, hfirst⟩
    · exact Or.inl hnone
    · exact Or.inr ⟨(hrun 0 hn).1.ge, hrun, hfirst⟩

/-- The call after its scan. -/
theorem exec_allocEntry {r : Nat × Entry × Nat × Nat} {s' : Sys} {entr : Entry} (hn : 0 < n)
    (hscan : s.exec (entryParse entr searchFreeEntry (n, n)) = some (r, s')) :
    s.exec (allocEntry entr n) =
      if r.1 = 0 then some ((0, r.2.1), s')
      else if 2147483648 ≤ 64 * (n - 1) then none
      else some ((r.1 - 64 * (n - 1), r.2.1), s') := by
  obtain ⟨ret, e, data⟩ := r
  unfold allocEntry
  rw [if_neg (by omega), Sys.exec_bind hscan]
  dsimp only
  by_cases hz : ret = 0
  · rw [if_pos hz, if_pos hz]
    rfl
  · rw [if_neg hz, if_neg hz]
    split <;> rfl

/-- A run whose size is no `int` is undefined behaviour. -/
theorem exec_allocEntry_overflow (hq : s.dev.Quiet) (hc : s.dev.Coherent) (hi : s.vol.HasIndex)
    (hn : 33554432 < n) {o : Nat} (hrun : s.vol.UnusedRun o n) (entr : Entry) :
    s.exec (allocEntry entr n) = none := by
  have hpos := hi.start_pos
  have hn₀ : 0 < n := by omega
  obtain ⟨r, s', hscan, -, hres⟩ := exec_searchFreeEntry hq hc hi hn₀ entr
  rw [exec_allocEntry hn₀ hscan]
  rcases hres with ⟨-, hnone⟩ | ⟨hge, -, -⟩
  · exact absurd hrun (hnone o)
  · rw [if_neg (by omega), if_pos (by omega)]

theorem allocatesFirst (hq : s.dev.Quiet) (hc : s.dev.Coherent) (hi : s.vol.HasIndex)
    (hn : 0 < n) (hint : n ≤ 33554432 ∨ ∀ o, ¬ s.vol.UnusedRun o n) : AllocatesFirst s n := by
  intro entr
  have hpos := hi.start_pos
  obtain ⟨r, s', hscan, hvol, hres⟩ := exec_searchFreeEntry hq hc hi hn entr
  rw [exec_allocEntry hn hscan]
  rcases hres with ⟨hz, hnone⟩ | ⟨hge, hrun, hfirst⟩
  · rw [if_pos hz]
    exact ⟨_, s', rfl, hvol, iff_of_true rfl hnone, fun h => absurd rfl h⟩
  · have hsmall := hint.resolve_right fun hnone => hnone _ hrun
    rw [if_neg (by omega), if_neg (by omega)]
    refine ⟨_, s', rfl, hvol, iff_of_false ?_ fun hnone => hnone _ hrun, fun _ => ⟨hrun, ?_⟩⟩
    · dsimp only
      omega
    · intro o ho
      exact Nat.not_lt.1 fun hlt => hfirst o hlt ho

/-- `free_entry` of a run gives its slots back, and no others. -/
theorem exec_freeEntry (hi : s.vol.HasIndex) : FreesBack s n := by
  intro o hrun s₁ hq hc harea hdata entr
  rcases Nat.eq_zero_or_pos n with rfl | hn
  · have hsame : s₁.vol.unused = s.vol.unused := by
      ext x
      exact and_congr harea.slot (by rw [Vol.type_congr (hdata x (by omega))])
    exact ⟨_, s₁, rfl, rfl, hsame⟩
  have hinside := hi.inside
  have hlast := (hrun (n - 1) (by omega)).1.lt
  have hal := (hrun 0 hn).1.aligned
  have hs₁ : s₁.vol.Sized := hi.sized.congr harea.blockSize harea.size
  have hge : s₁.vol.fs.entryStart ≤ o := by
    rw [harea.entryStart]
    exact (hrun 0 hn).1.ge
  obtain ⟨r, s₂, t₂, hexec, hshow, hz, hfreed, -⟩ := transfer (Sys.shows_img hq hc hs₁)
    (gives_freeEntry (t := s₁.img) hs₁ hge (show o % 64 = 0 by omega) n (by
      show o + 64 * n ≤ s₁.vol.size
      rw [harea.size]
      omega) entr)
  refine ⟨r, s₂, hexec, hz, ?_⟩
  have hvol : s₂.vol = s₁.vol.freeSlots o n := hshow.vol.trans hfreed
  have harea₂ : SameArea s.vol s₂.vol := by
    rw [hvol]
    exact harea.trans (Vol.freeSlots_area _ _ _)
  ext x
  by_cases hin : ∃ j, j < n ∧ x = o + 64 * j
  · obtain ⟨j, hj, rfl⟩ := hin
    refine iff_of_true ⟨harea₂.slot.2 (hrun j hj).1, ?_⟩ (hrun.mem hj)
    rw [hvol]
    exact Vol.freeSlots_type (by omega) n hj
  · -- A slot of the index that is not in the run does not meet it.
    refine ⟨fun hx => ⟨harea₂.slot.1 hx.1, ?_⟩, fun hx => ⟨harea₂.slot.2 hx.1, ?_⟩⟩
    all_goals
      have hxal := hx.1.aligned
      have hout : x < o ∨ o + 64 * n ≤ x := by
        by_contra hno
        exact hin ⟨(x - o) / 64, by omega, by omega⟩
      have htype : s₂.vol.type x = s.vol.type x := by
        rw [hvol, Vol.type_congr (Vol.freeSlots_outside n hout), Vol.type_congr (hdata x hout)]
      simpa [htype] using hx.2

/-- `alloc_entry` is a first-fit allocator that `free_entry` undoes if and only
if the run it finds is at most 2^25 slots long, or there is none. -/
theorem allocEntry_firstFit_iff (hq : s.dev.Quiet) (hc : s.dev.Coherent) (hi : s.vol.HasIndex)
    (hn : 0 < n) :
    AllocatesFirst s n ∧ FreesBack s n ↔ n ≤ 33554432 ∨ ∀ o, ¬ s.vol.UnusedRun o n := by
  constructor
  · rintro ⟨halloc, -⟩
    by_contra hno
    obtain ⟨hbig, hsome⟩ := not_or.1 hno
    obtain ⟨o, hrun⟩ := not_forall_not.1 hsome
    obtain ⟨r, s', hexec, -⟩ := halloc fun _ => 0
    rw [exec_allocEntry_overflow hq hc hi (Nat.not_le.1 hbig) hrun] at hexec
    cases hexec
  · intro hint
    exact ⟨allocatesFirst hq hc hi hn hint, exec_freeEntry hi⟩

end

/-- Of two files the first is deleted. -/
def gapOps : List Op := [.creat pathA, .creat pathB, .unlink pathA, .delete 3776]

/-- Two slots are not found in the gap that the file leaves, but behind the other one. -/
theorem allocEntry_firstFit_gap : ∃ s₀ s, FreshlyMounted blankOpts 512 s₀ ∧
    run Op.step ⟨s₀, []⟩ gapOps = some s ∧ s.sys.vol.UnusedRun 3776 1 ∧
    AllocatesFirst s.sys 2 ∧ FreesBack s.sys 2 ∧
    ∃ r s', s.sys.exec (allocEntry (fun _ => 0) 2) = some (r, s') ∧ r.1 = 3904 := by
  have hview : (blankRun gapOps).map (fun s => decide (
      (s.sys.vol.Slot 3776 ∧ s.sys.vol.type 3776 = EntryType.unusedEntry.code) ∧
      (s.sys.exec (allocEntry (fun _ => 0) 2)).map (fun x => x.1.1) = some 3904)) = some true := by
    decide +kernel
  obtain ⟨s₀, s, hfresh, hmount, hrun, hview⟩ := blankRun_eq hview
  obtain ⟨hgap, halloc⟩ := of_decide_eq_true hview
  obtain ⟨hq, hc, nodes, hw⟩ := blankRun_light hmount (by decide +kernel) hrun
  obtain ⟨⟨r, s'⟩, hcall, hr⟩ := Option.map_eq_some_iff.1 halloc
  obtain ⟨hfirst, hback⟩ := (allocEntry_firstFit_iff hq hc hw.indexed.geometry.hasIndex
    (Nat.zero_lt_two)).2 (Or.inl (by decide))
  refine ⟨s₀, s, hfresh, hrun, fun j hj => ?_, hfirst, hback, r, s', hcall, hr⟩
  obtain rfl : j = 0 := by omega
  exact hgap

/-- A device of 2 GiB, nearly all of it unused slots. -/
def vastIndex : Sys where
  dev := { size := 2147484672, blockSize := 512, data := fun _ => 0x10, buf := fun _ => 0,
           bufNum := none, faults := fun _ => none, accesses := 0 }
  fs := { time := 0, entryStart := 512, delBegin := 0, volIdent := 2147484224 }
  errno := 0
  clock := fun _ => 0
  ticks := 0
  stack := fun _ => 0

/-- A run of 2^25 + 1 slots is there, and the call for it overflows. -/
theorem allocEntry_vast : vastIndex.dev.Quiet ∧ vastIndex.dev.Coherent ∧
    vastIndex.vol.HasIndex ∧ vastIndex.vol.UnusedRun 512 33554433 ∧
    ¬ AllocatesFirst vastIndex 33554433 := by
  have hq : vastIndex.dev.Quiet := fun _ => rfl
  have hc : vastIndex.dev.Coherent := BlockDev.coherent_of_none rfl
  have hi : vastIndex.vol.HasIndex :=
    ⟨⟨by decide, ⟨8, rfl⟩, ⟨4194306, rfl⟩, by decide⟩, by decide, rfl, rfl, by decide, by decide⟩
  have hrun : vastIndex.vol.UnusedRun 512 33554433 := by
    intro j hj
    refine ⟨⟨Nat.le_add_right 512 _, ?_, by omega⟩, Vol.type_eq _ _⟩
    show 512 + 64 * j < 2147484224
    omega
  refine ⟨hq, hc, hi, hrun, fun halloc => ?_⟩
  obtain ⟨r, s', hexec, -⟩ := halloc fun _ => 0
  rw [exec_allocEntry_overflow hq hc hi (by decide) hrun] at hexec
  cases hexec

end Sfs
