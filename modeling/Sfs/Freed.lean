import Mathlib.Data.Finset.Card
import Mathlib.Data.Finset.Image
import Sfs.Extents

/-!
# What deleting a file returns

`sfs_delete` gives back the slots of the file first, so there is always a slot
for a node when the blocks of the file have to be recorded.

* `FileFreed.coalesced`: the free extents stay apart;
* `FileFreed.card_unusedSlots`: every slot of the group becomes unused, except
  for one that the list may take, and a slot comes back when two extents are
  joined;
* `sfsDelete_returns` puts this together on a device that works.
-/

namespace Sfs

open Lib

/-- The unused slots of the index. -/
def Vol.unusedSlots (v : Vol) : Finset Nat :=
  (Finset.range v.fs.volIdent).filter fun o =>
    v.fs.entryStart ≤ o ∧ o % 64 = 0 ∧ v.type o = EntryType.unusedEntry.code

/-- The slots of the group at `a`. -/
def Vol.groupSlots (v : Vol) (a : Nat) : Finset Nat :=
  (Finset.range (v.cont a + 1)).image fun j => a + 64 * j

section Slots

variable {v v' w : Vol} {nodes nodes' : List Nat} {a o lo hi : Nat}

theorem Vol.mem_unusedSlots :
    o ∈ v.unusedSlots ↔ v.Slot o ∧ v.type o = EntryType.unusedEntry.code := by
  simp only [unusedSlots, Finset.mem_filter, Finset.mem_range]
  constructor
  · rintro ⟨hlt, hge, hal, ht⟩
    exact ⟨⟨hge, hlt, hal⟩, ht⟩
  · rintro ⟨hslot, ht⟩
    exact ⟨hslot.lt, hslot.ge, hslot.aligned, ht⟩

theorem Vol.mem_groupSlots : o ∈ v.groupSlots a ↔ ∃ j, j ≤ v.cont a ∧ o = a + 64 * j := by
  simp only [groupSlots, Finset.mem_image, Finset.mem_range, Nat.lt_succ_iff, eq_comm]

theorem Vol.card_groupSlots (v : Vol) (a : Nat) : (v.groupSlots a).card = v.cont a + 1 := by
  rw [groupSlots, Finset.card_image_of_injective, Finset.card_range]
  intro i j hij
  dsimp only at hij
  omega

/-- A slot that is unused or a node is in one of two sets. -/
theorem Vol.loose_iff (hf : FreeList v nodes) :
    v.Loose nodes o ↔ o ∈ v.unusedSlots ∪ nodes.toFinset := by
  rw [Finset.mem_union, mem_unusedSlots, List.mem_toFinset, Loose]
  constructor
  · rintro ⟨hslot, hmem | ht⟩
    · exact Or.inr hmem
    · exact Or.inl ⟨hslot, ht⟩
  · rintro (⟨hslot, ht⟩ | hmem)
    · exact ⟨hslot, Or.inr ht⟩
    · exact ⟨hf.slot o hmem, Or.inl hmem⟩

/-- A node is not unused. -/
theorem FreeList.disjoint_unusedSlots (hf : FreeList v nodes) :
    Disjoint v.unusedSlots nodes.toFinset := by
  apply Finset.disjoint_left.2
  intro o ho hmem
  have ht := (Vol.mem_unusedSlots.1 ho).2
  rw [hf.type o (List.mem_toFinset.1 hmem)] at ht
  exact absurd ht (by decide)

/-- The slots of a file are neither unused nor nodes. -/
theorem Vol.IsFile.disjoint_groupSlots (h : v.IsFile nodes a) (hl : Layout v)
    (hf : FreeList v nodes) :
    Disjoint (v.unusedSlots ∪ nodes.toFinset) (v.groupSlots a) := by
  apply Finset.disjoint_left.2
  intro o ho hgroup
  obtain ⟨hslot, hloose⟩ := (Vol.loose_iff hf).2 ho
  obtain ⟨j, hj, rfl⟩ := Vol.mem_groupSlots.1 hgroup
  have htype : IsType (v.type (a + 64 * j)) := by
    rcases hloose with hmem | ht
    · rw [hf.type _ hmem]
      exact isType_code _
    · rw [ht]
      exact isType_code _
  cases j with
  | zero =>
    rcases hloose with hmem | ht
    · exact h.not_mem hf hmem
    · rw [Nat.mul_zero, Nat.add_zero] at ht
      rcases h.2 with ht' | ⟨ht', -⟩ <;> rw [ht] at ht' <;> exact absurd ht' (by decide)
  | succ j => exact hl.pieces a h.1 h.head j hj htype

/-- Releasing a group makes its slots unused, and no other. -/
theorem Vol.Released.loose_iff (h : v.Released w a) (hl : Layout v) :
    w.Loose nodes o ↔ v.Loose nodes o ∨ o ∈ v.groupSlots a := by
  have hal := h.slot.aligned
  have hend := hl.inside a h.slot h.head
  rw [mem_groupSlots, Loose, Loose, h.area.slot]
  by_cases hin : a ≤ o ∧ o < v.groupEnd a
  · constructor
    · rintro ⟨hslot, -⟩
      have hal' := hslot.aligned
      rw [groupEnd] at hin
      exact Or.inr ⟨(o - a) / 64, by omega, by omega⟩
    · rintro (⟨hslot, -⟩ | ⟨j, hj, rfl⟩)
      · exact ⟨hslot, Or.inr (h.type_inside hslot.aligned hin.1 hin.2)⟩
      · have hge := h.slot.ge
        have hal' : (a + 64 * j) % 64 = 0 := by omega
        exact ⟨⟨by omega, by omega, hal'⟩, Or.inr (h.type_inside hal' hin.1 hin.2)⟩
  · rw [h.type_outside (by omega)]
    refine ⟨Or.inl, ?_⟩
    rintro (hloose | ⟨j, hj, rfl⟩)
    · exact hloose
    · rw [groupEnd] at hin
      omega

end Slots

section File

variable {v v' w : Vol} {nodes nodes' : List Nat} {a o lo hi : Nat}

/-- Free space stays coalesced when its nodes stay as they are. -/
theorem Coalesced.congr (hc : Coalesced v nodes lo hi) (ha : SameArea v v')
    (hbegin : v'.fs.delBegin = v.fs.delBegin)
    (hget : ∀ o, o ∈ nodes → ∀ f, v'.get o f = v.get o f)
    (hnamed : ∀ o, o ∈ nodes → v'.Starred o) : Coalesced v' nodes lo hi := by
  refine ⟨hc.toFreeSpace.congr ha hbegin hget, fun o ho => ?_, fun o ho o' ho' => ?_, hnamed⟩
  · rw [hget o ho, hget o ho]
    exact hc.nonempty o ho
  · rw [hget o ho, hget o' ho']
    exact hc.separate o ho o' ho'

theorem Coalesced.withTime (hc : Coalesced v nodes lo hi) (time : Nat) :
    Coalesced { v with fs := { v.fs with time := time } } nodes lo hi :=
  hc.congr ⟨rfl, rfl, rfl, rfl⟩ rfl (fun _ _ _ => rfl) hc.named

theorem Vol.Released.coalesced (h : v.Released w a) (hl : Layout v) (hnot : a ∉ nodes)
    (hc : Coalesced v nodes lo hi) : Coalesced w nodes lo hi := by
  refine hc.congr h.area h.delBegin (h.get_node hl hc.toFreeList hnot) fun o ho i hi' => ?_
  have hlen : freeName.length = 6 := rfl
  have hname : fileKind.name = 34 := rfl
  have hhead : v.Head o := Or.inr (Or.inr (hc.type o ho))
  rw [h.sameGroup hl (hc.slot o ho) hhead (fun heq => hnot (heq ▸ ho)) _ (Nat.le_add_right _ _)
    (by rw [groupEnd]; omega)]
  exact hc.named o ho i hi'

namespace Vol.FileFreed

/-- The free extents stay apart. -/
theorem coalesced (h : v.FileFreed nodes a v' nodes') (hw : Blocks v nodes lo hi)
    (hc : Coalesced v nodes lo hi) (hfile : v.IsFile nodes a) : Coalesced v' nodes' lo hi := by
  have hl := hw.layout
  have hnot := hfile.not_mem hc.toFreeList
  cases h with
  | empty hrel => exact hrel.coalesced hl hnot hc
  | @blocks w _ _ hrel hsome hadd =>
    rcases hw.fileOk a hfile with ⟨hz, -⟩ | ⟨hpos, hlo, hhi, hsize⟩
    · exact absurd hz hsome
    have hblocks := blocksOf_pos hw.geometry.sized.pos hpos
    refine (hrel.coalesced hl hnot hc).added (hrel.area.geometry hw.geometry) hadd hlo
      (by omega) hhi
      fun b h₁ h₂ hb => hw.apart a hfile b ⟨hsome, h₁, h₂⟩ ?_
    exact (Vol.free_congr (hrel.get_node hl hc.toFreeList hnot)).1 hb

/-- The slots of the group are unused or nodes, next to those of before. -/
theorem loose_iff (h : v.FileFreed nodes a v' nodes') (hw : Blocks v nodes lo hi)
    (hfile : v.IsFile nodes a) : v'.Loose nodes' o ↔ v.Loose nodes o ∨ o ∈ v.groupSlots a := by
  have hl := hw.layout
  cases h with
  | empty hrel => exact hrel.loose_iff hl
  | @blocks w _ _ hrel hsome hadd =>
    have hw₁ := hrel.blocks hw (hfile.not_mem hw.space.toFreeList)
    rcases hw.fileOk a hfile with ⟨hz, -⟩ | ⟨hpos, hlo, hhi, hsize⟩
    · exact absurd hz hsome
    have hblocks := blocksOf_pos hw.geometry.sized.pos hpos
    have hget := hrel.get_node hl hw.space.toFreeList (hfile.not_mem hw.space.toFreeList)
    have hstep := hadd.step hw₁.geometry hw₁.space hlo (by omega) hhi fun b h₁ h₂ hb =>
      hw.apart a hfile b ⟨hsome, h₁, h₂⟩ ((Vol.free_congr hget).1 hb)
    rw [hstep.step.loose]
    exact hrel.loose_iff hl

/-- The slots of the group come to the unused ones, and those of nodes that are
gone; those of new nodes go. -/
theorem card_unusedSlots (h : v.FileFreed nodes a v' nodes') (hw : Blocks v nodes lo hi)
    (hfile : v.IsFile nodes a) :
    v'.unusedSlots.card + (nodes'.toFinset \ nodes.toFinset).card =
      v.unusedSlots.card + (1 + v.cont a) + (nodes.toFinset \ nodes'.toFinset).card := by
  have hf := hw.space.toFreeList
  have hf' : FreeList v' nodes' := (h.deleted hw hfile).blocks.space.toFreeList
  have hset : v'.unusedSlots ∪ nodes'.toFinset =
      v.unusedSlots ∪ nodes.toFinset ∪ v.groupSlots a := by
    ext o
    rw [← Vol.loose_iff hf', h.loose_iff hw hfile, Vol.loose_iff hf, Finset.mem_union (s := _ ∪ _)]
  have hcard := congrArg Finset.card hset
  rw [Finset.card_union_of_disjoint hf'.disjoint_unusedSlots,
    Finset.card_union_of_disjoint (hfile.disjoint_groupSlots hw.layout hf),
    Finset.card_union_of_disjoint hf.disjoint_unusedSlots, Vol.card_groupSlots] at hcard
  have h₁ := Finset.card_sdiff_add_card nodes'.toFinset nodes.toFinset
  have h₂ := Finset.card_sdiff_add_card nodes.toFinset nodes'.toFinset
  rw [Finset.union_comm] at h₂
  omega

end Vol.FileFreed

end File

section

variable {s : Sys} {nodes : List Nat} {lo hi a : Nat}

/-- `sfs_delete` of a file succeeds, whether there is an unused slot or not: the
slots of its group are unused or taken by the list, its blocks are free, the free
extents stay apart, and no other group and no data changes. -/
theorem sfsDelete_returns (hq : s.dev.Quiet) (hc : s.dev.Coherent) (hw : Blocks s.vol nodes lo hi)
    (hf : Coalesced s.vol nodes lo hi) (hfile : s.vol.IsFile nodes a) :
    ∃ s' nodes', s.exec (sfsDelete a) = some (0, s') ∧ SameArea s.vol s'.vol ∧
      Coalesced s'.vol nodes' lo hi ∧ Blocks s'.vol nodes' lo hi ∧
      (∀ b, s'.vol.Free nodes' b ↔ s.vol.Free nodes b ∨ s.vol.FileOwns a b) ∧
      (∀ j, j ≤ s.vol.cont a → s'.vol.Loose nodes' (a + 64 * j)) ∧
      s'.vol.unusedSlots.card + (nodes'.toFinset \ nodes.toFinset).card =
        s.vol.unusedSlots.card + (1 + s.vol.cont a) + (nodes.toFinset \ nodes'.toFinset).card ∧
      (∀ o, s.vol.Slot o → s.vol.Head o → o ∉ nodes → o ≠ a → s.vol.SameGroup s'.vol o) ∧
      ∀ k, k < s.vol.fs.entryStart → s'.vol.data k = s.vol.data k := by
  obtain ⟨r, s', t', hrun, hshow, hr, w, nodes', time, hfreed, hvol⟩ := transfer
    (Sys.shows_img hq hc hw.geometry.sized) (gives_sfsDelete_freed (t := s.img) hw hfile)
  replace hvol := hshow.vol.trans hvol
  replace hfreed : s.vol.FileFreed nodes a w nodes' := hfreed
  have hdel := (hfreed.deleted hw hfile).withTime time
  have hcoal := (hfreed.coalesced hw hf hfile).withTime time
  have hcount := hfreed.card_unusedSlots hw hfile
  have hloose : ∀ o, w.Loose nodes' o ↔ _ := fun o => hfreed.loose_iff (o := o) hw hfile
  subst hr
  refine ⟨s', nodes', hrun, ?_⟩
  rw [hvol]
  refine ⟨hdel.keeps.area, hcoal, hdel.blocks, hdel.free, fun j hj => ?_, hcount, ?_, hdel.sameData⟩
  · have h := (hloose _).2 (Or.inr (Vol.mem_groupSlots.2 ⟨j, hj, rfl⟩))
    exact ⟨⟨h.1.ge, h.1.lt, h.1.aligned⟩, h.2⟩
  · intro o hslot hhead hnot hne
    rcases hhead.cases hslot with hmem | ho | ho
    · exact absurd hmem hnot
    · exact hdel.keeps.sameFile o hne ho
    · exact hdel.keeps.sameDir o hne ho

theorem sfsDelete_returns_written :
    ∃ s s' nodes', Written s ∧ s.exec (sfsDelete 3776) = some (0, s') ∧
      Coalesced s'.vol nodes' 1 7 ∧ ∀ b, s'.vol.Free nodes' b ↔
        s.vol.Free [3648] b ∨ s.vol.FileOwns 3776 b := by
  obtain ⟨s, -, -, -, -, -, h⟩ := exists_written
  obtain ⟨s', nodes', hrun, -, hcoal, -, hfree, -⟩ := sfsDelete_returns h.quiet h.coherent
    h.wellFormed.toBlocks h.coalesced h.live.isFile
  exact ⟨s, s', nodes', h, hrun, hcoal, hfree⟩

end

end Sfs
