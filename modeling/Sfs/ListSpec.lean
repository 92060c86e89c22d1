import Sfs.Scan
import Sfs.FreeList

/-!
# Steps of the free space

What the list functions of `DelList` store, seen as operations on the set of free
blocks.  `FreeStep` is such an operation: it keeps the list well linked and its
extents disjoint, and touches nothing but nodes and unused slots.

* `FreeSpace.setStart`, `FreeSpace.setEnd` and `FreeSpace.unlink` take blocks from
  a node;
* `FreeSpace.push` adds a node;
* `FreeSpace.joinNext`, `FreeSpace.joinPrev` and `FreeSpace.joinBoth` add blocks
  next to nodes.
-/

namespace Sfs

open Lib

/-- Block `b` is in the extent of a node other than the one at `a`. -/
def Vol.FreeBut (v : Vol) (nodes : List Nat) (a b : Nat) : Prop :=
  ∃ off, off ∈ nodes ∧ off ≠ a ∧ v.Owns off b

theorem Vol.free_iff {v : Vol} {nodes : List Nat} {a b : Nat} (ha : a ∈ nodes) :
    v.Free nodes b ↔ v.FreeBut nodes a b ∨ v.Owns a b := by
  constructor
  · intro ⟨off, hoff, hb⟩
    by_cases heq : off = a
    · exact Or.inr (heq ▸ hb)
    · exact Or.inl ⟨off, hoff, heq, hb⟩
  · intro h
    rcases h with ⟨off, hoff, -, hb⟩ | hb
    · exact ⟨off, hoff, hb⟩
    · exact ⟨a, ha, hb⟩

/-- A step of the list, after which the blocks of `P` are free. -/
structure FreeStep (v v' : Vol) (nodes nodes' : List Nat) (lo hi : Nat) (P : Nat → Prop) :
    Prop where
  space : FreeSpace v' nodes' lo hi
  step : ListStep v v' nodes nodes'
  free : ∀ b, v'.Free nodes' b ↔ P b

namespace FreeSpace

variable {v v' : Vol} {nodes nodes' : List Nat} {a b lo hi : Nat}

theorem not_owns (hf : FreeSpace v nodes lo hi) (ha : a ∈ nodes) (hb : v.FreeBut nodes a b) :
    ¬ v.Owns a b := by
  intro hown
  obtain ⟨off, hoff, hne, hb⟩ := hb
  exact hne (hf.disjoint off hoff a ha b hb hown)

theorem free_range (hf : FreeSpace v nodes lo hi) (hb : v.Free nodes b) : lo ≤ b ∧ b < hi := by
  obtain ⟨off, hoff, hge, hle⟩ := hb
  exact ⟨Nat.le_trans (hf.ge off hoff) hge, Nat.lt_of_le_of_lt hle (hf.lt off hoff)⟩

/-- A change of the list at one node, to blocks that no other node has. -/
theorem change (hf : FreeSpace v nodes lo hi) (hstep : ListStep v v' nodes nodes') (a : Nat)
    (hmem : ∀ off, off ≠ a → (off ∈ nodes' ↔ off ∈ nodes))
    (hkeep : ∀ off, off ∈ nodes → off ≠ a →
      v'.get off .startBlock = v.get off .startBlock ∧ v'.get off .endBlock = v.get off .endBlock)
    (ha : a ∈ nodes' → lo ≤ v'.get a .startBlock ∧
      v'.get a .startBlock ≤ v'.get a .endBlock ∧ v'.get a .endBlock < hi)
    (hnew : a ∈ nodes' → ∀ b, v'.Owns a b → ¬ v.FreeBut nodes a b) :
    FreeStep v v' nodes nodes' lo hi fun b =>
      v.FreeBut nodes a b ∨ (a ∈ nodes' ∧ v'.Owns a b) := by
  have hold : ∀ off, off ∈ nodes' → off ≠ a → off ∈ nodes ∧
      v'.get off .startBlock = v.get off .startBlock ∧ v'.get off .endBlock = v.get off .endBlock :=
    fun off hoff hne => ⟨(hmem off hne).1 hoff, hkeep off ((hmem off hne).1 hoff) hne⟩
  have howns : ∀ off, off ∈ nodes' → off ≠ a → ∀ b, v'.Owns off b ↔ v.Owns off b := by
    intro off hoff hne b
    obtain ⟨-, hs, he⟩ := hold off hoff hne
    rw [Vol.Owns, Vol.Owns, hs, he]
  refine ⟨⟨hstep.list, ?_, ?_, ?_, ?_, ?_⟩, hstep, ?_⟩
  · intro off hoff
    by_cases heq : off = a
    · subst heq
      exact (ha hoff).1
    · obtain ⟨hmem', hs, -⟩ := hold off hoff heq
      rw [hs]
      exact hf.ge off hmem'
  · intro off hoff
    by_cases heq : off = a
    · subst heq
      exact (ha hoff).2.2
    · obtain ⟨hmem', -, he⟩ := hold off hoff heq
      rw [he]
      exact hf.lt off hmem'
  · intro off hoff
    by_cases heq : off = a
    · subst heq
      exact Nat.le_succ_of_le (ha hoff).2.1
    · obtain ⟨hmem', hs, he⟩ := hold off hoff heq
      rw [hs, he]
      exact hf.ordered off hmem'
  · intro hlt off hoff
    by_cases heq : off = a
    · subst heq
      exact (ha hoff).2.1
    · obtain ⟨hmem', hs, he⟩ := hold off hoff heq
      rw [hs, he]
      exact hf.filled hlt off hmem'
  · intro off hoff off' hoff' b hb hb'
    by_cases heq : off = a <;> by_cases heq' : off' = a
    · rw [heq, heq']
    · subst heq
      have hown := (howns off' hoff' heq' b).1 hb'
      exact absurd ⟨off', (hmem off' heq').1 hoff', heq', hown⟩ (hnew hoff b hb)
    · subst heq'
      have hown := (howns off hoff heq b).1 hb
      exact absurd ⟨off, (hmem off heq).1 hoff, heq, hown⟩ (hnew hoff' b hb')
    · exact hf.disjoint off ((hmem off heq).1 hoff) off' ((hmem off' heq').1 hoff') b
        ((howns off hoff heq b).1 hb) ((howns off' hoff' heq' b).1 hb')
  · intro b
    constructor
    · intro ⟨off, hoff, hb⟩
      by_cases heq : off = a
      · subst heq
        exact Or.inr ⟨hoff, hb⟩
      · exact Or.inl ⟨off, (hmem off heq).1 hoff, heq, (howns off hoff heq b).1 hb⟩
    · intro h
      rcases h with ⟨off, hoff, hne, hb⟩ | ⟨hmem', hb⟩
      · have hoff' := (hmem off hne).2 hoff
        exact ⟨off, hoff', (howns off hoff' hne b).2 hb⟩
      · exact ⟨a, hmem', hb⟩

end FreeSpace

namespace ListStep

variable {v v' v'' : Vol} {nodes nodes' nodes'' : List Nat} {off lo hi : Nat}

theorem refl (hf : FreeList v nodes) : ListStep v v nodes nodes :=
  ⟨SameArea.refl v, rfl, hf, fun _ => Iff.rfl, fun _ _ => rfl⟩

theorem trans (h : ListStep v v' nodes nodes') (h' : ListStep v' v'' nodes' nodes'') :
    ListStep v v'' nodes nodes'' where
  area := h.area.trans h'.area
  time := h'.time.trans h.time
  list := h'.list
  loose off := (h'.loose off).trans (h.loose off)
  frame k hk := (h'.frame k fun off hoff => hk off ((h.loose off).1 hoff)).trans (h.frame k hk)

/-- A slot that is neither a node nor unused keeps its bytes. -/
theorem slot_eq (h : ListStep v v' nodes nodes') (hoff : off % 64 = 0)
    (hloose : ¬ v.Loose nodes off) {k : Nat} (hk : off ≤ k) (hk' : k < off + 64) :
    v'.data k = v.data k := by
  refine h.frame k fun o ho => ?_
  have hne : o ≠ off := fun heq => hloose (heq ▸ ho)
  have hal := ho.1.aligned
  omega

theorem get_eq (h : ListStep v v' nodes nodes') (hoff : off % 64 = 0)
    (hloose : ¬ v.Loose nodes off) (f : Field) : v'.get off f = v.get off f :=
  Vol.get_congr fun k hk => h.slot_eq hoff hloose (by omega) (by omega)

/-- The list functions keep the layout of the index. -/
theorem layout (h : ListStep v v' nodes nodes') (hf : FreeList v nodes) (hg : Geometry v lo hi)
    (hl : Layout v) : Layout v' := by
  have hsingle : ∀ (w : Vol) ns, FreeList w ns → ∀ o, w.Loose ns o → w.Single o := by
    intro w ns hw o ho
    rcases ho.2 with hmem | hu
    · exact Or.inr ⟨Or.inr (Or.inr (hw.type o hmem)), hw.cont o hmem⟩
    · exact Or.inl hu
  refine hl.update hg h.area fun o ho => ?_
  by_cases hloose : v.Loose nodes o
  · exact Or.inr ⟨hsingle v nodes hf o hloose, hsingle v' nodes' h.list o ((h.loose o).2 hloose)⟩
  · exact Or.inl ⟨h.get_eq ho.aligned hloose _, fun _ => h.get_eq ho.aligned hloose _⟩

end ListStep

namespace FreeStep

variable {v v' v'' : Vol} {nodes nodes' nodes'' : List Nat} {lo hi : Nat} {P Q : Nat → Prop}

theorem congr (h : FreeStep v v' nodes nodes' lo hi P) (hP : ∀ b, P b ↔ Q b) :
    FreeStep v v' nodes nodes' lo hi Q :=
  ⟨h.space, h.step, fun b => (h.free b).trans (hP b)⟩

theorem trans (h : FreeStep v v' nodes nodes' lo hi P)
    (h' : FreeStep v' v'' nodes' nodes'' lo hi Q) : FreeStep v v'' nodes nodes'' lo hi Q :=
  ⟨h'.space, h.step.trans h'.step, h'.free⟩

end FreeStep

namespace FreeList

variable {v : Vol} {nodes : List Nat} {off : Nat}

/-- A store to the extent of a node. -/
theorem set_step (hf : FreeList v nodes) (hoff : off ∈ nodes) {g : Field} (x : Nat)
    (hg : g = .startBlock ∨ g = .endBlock) : ListStep v (v.set off g x) nodes nodes := by
  have hget : ∀ o, v.Slot o → ∀ f : Field, f ≠ g → (v.set off g x).get o f = v.get o f := by
    intro o ho f hne
    rw [Vol.get_set (hf.slot off hoff).aligned ho.aligned, if_neg fun h => hne h.2]
  have hne : ∀ f : Field, f ≠ .startBlock → f ≠ .endBlock → f ≠ g := by
    rcases hg with rfl | rfl
    · exact fun _ h _ => h
    · exact fun _ _ h => h
  refine ⟨Vol.set_area v off g x, rfl,
    ⟨?_, hf.nodup, fun o ho => (Vol.set_area v off g x).slot.2 (hf.slot o ho), ?_, ?_⟩, ?_, ?_⟩
  · refine hf.chain.congr (fun o ho => ?_) fun o ho => ?_
    · exact hget o (hf.slot o ho) _ (hne _ (by decide) (by decide))
    · exact hget o (hf.slot o ho) _ (hne _ (by decide) (by decide))
  · intro o ho
    rw [Vol.type, hget o (hf.slot o ho) _ (hne _ (by decide) (by decide))]
    exact hf.type o ho
  · intro o ho
    rw [Vol.cont, hget o (hf.slot o ho) _ (hne _ (by decide) (by decide))]
    exact hf.cont o ho
  · intro o
    rw [Vol.Loose, Vol.Loose, (Vol.set_area v off g x).slot]
    refine and_congr_right fun ho => ?_
    rw [Vol.type, hget o ho _ (hne _ (by decide) (by decide))]
  · intro k hk
    have hout := hk off ⟨hf.slot off hoff, Or.inl hoff⟩
    exact Vol.set_outside _ _ (by omega)

end FreeList

/-! ## Edits of one node -/

namespace FreeSpace

variable {v : Vol} {nodes : List Nat} {off new lo hi x : Nat}

/-- A node with another first block. -/
theorem setStart (hf : FreeSpace v nodes lo hi) (hoff : off ∈ nodes) (hge : lo ≤ x)
    (hle : x ≤ v.get off .endBlock)
    (hnew : ∀ b, x ≤ b → b ≤ v.get off .endBlock → ¬ v.FreeBut nodes off b) :
    FreeStep v (v.set off .startBlock x) nodes nodes lo hi fun b =>
      v.FreeBut nodes off b ∨ (x ≤ b ∧ b ≤ v.get off .endBlock) := by
  have hlt := v.get_lt off .endBlock
  have hstart : (v.set off .startBlock x).get off .startBlock = x := by
    rw [Vol.get_set_same]
    exact Nat.mod_eq_of_lt (Nat.lt_of_le_of_lt hle hlt)
  have hend : (v.set off .startBlock x).get off .endBlock = v.get off .endBlock :=
    Vol.get_set_field v off (by decide) x
  have howns : ∀ b, (v.set off .startBlock x).Owns off b ↔ x ≤ b ∧ b ≤ v.get off .endBlock := by
    intro b
    rw [Vol.Owns, hstart, hend]
  refine (hf.change (hf.set_step hoff x (Or.inl rfl)) off (fun _ _ => Iff.rfl) ?_ ?_ ?_).congr ?_
  · intro o ho hne
    have h := fun g => v.get_set_slot (hf.slot off hoff).aligned (hf.slot o ho).aligned hne
      .startBlock g x
    exact ⟨h _, h _⟩
  · rw [hstart, hend]
    exact fun _ => ⟨hge, hle, hf.lt off hoff⟩
  · intro _ b hb
    exact hnew b ((howns b).1 hb).1 ((howns b).1 hb).2
  · intro b
    rw [howns b]
    exact or_congr_right (and_iff_right hoff)

/-- A node with another last block. -/
theorem setEnd (hf : FreeSpace v nodes lo hi) (hoff : off ∈ nodes) (hlt : x < hi)
    (hx : x < 18446744073709551616) (hle : v.get off .startBlock ≤ x)
    (hnew : ∀ b, v.get off .startBlock ≤ b → b ≤ x → ¬ v.FreeBut nodes off b) :
    FreeStep v (v.set off .endBlock x) nodes nodes lo hi fun b =>
      v.FreeBut nodes off b ∨ (v.get off .startBlock ≤ b ∧ b ≤ x) := by
  have hend : (v.set off .endBlock x).get off .endBlock = x := by
    rw [Vol.get_set_same]
    exact Nat.mod_eq_of_lt hx
  have hstart : (v.set off .endBlock x).get off .startBlock = v.get off .startBlock :=
    Vol.get_set_field v off (by decide) x
  have howns : ∀ b, (v.set off .endBlock x).Owns off b ↔ v.get off .startBlock ≤ b ∧ b ≤ x := by
    intro b
    rw [Vol.Owns, hstart, hend]
  refine (hf.change (hf.set_step hoff x (Or.inr rfl)) off (fun _ _ => Iff.rfl) ?_ ?_ ?_).congr ?_
  · intro o ho hne
    have h := fun g => v.get_set_slot (hf.slot off hoff).aligned (hf.slot o ho).aligned hne
      .endBlock g x
    exact ⟨h _, h _⟩
  · rw [hstart, hend]
    exact fun _ => ⟨hf.ge off hoff, hle, hlt⟩
  · intro _ b hb
    exact hnew b ((howns b).1 hb).1 ((howns b).1 hb).2
  · intro b
    rw [howns b]
    exact or_congr_right (and_iff_right hoff)

/-- A node taken off the list. -/
theorem unlink (hf : FreeSpace v nodes lo hi) (hoff : off ∈ nodes) :
    FreeStep v (v.unlink off) nodes (nodes.erase off) lo hi (v.FreeBut nodes off) := by
  have hgone : off ∉ nodes.erase off := fun h => (hf.nodup.mem_erase_iff.1 h).1 rfl
  refine (hf.change (hf.unlink_step hoff) off ?_ ?_ (fun h => absurd h hgone)
    fun h => absurd h hgone).congr ?_
  · exact fun o hne => hf.nodup.mem_erase_iff.trans (and_iff_right hne)
  · intro o ho _
    exact ⟨hf.get_unlink hoff (hf.slot o ho) (by decide) (by decide) (by decide),
      hf.get_unlink hoff (hf.slot o ho) (by decide) (by decide) (by decide)⟩
  · exact fun b => or_iff_left fun h => hgone h.1

end FreeSpace

/-! ## A new node -/

namespace Vol

/-- The volume after the end of `del_file_list_add` for a new node. -/
def push (v : Vol) (new : Nat) (entr : Entry) : Vol :=
  let v' := (v.store new entr).linkNext new v.fs.delBegin
  { v' with fs := { v'.fs with delBegin := new } }

variable {v : Vol} {new o : Nat} {entr : Entry}

theorem push_area (v : Vol) (new : Nat) (entr : Entry) : SameArea v (v.push new entr) := by
  have h := (v.store new entr).linkNext_area new v.fs.delBegin
  exact ⟨h.blockSize, h.size, h.entryStart, h.volIdent⟩

theorem push_time (v : Vol) (new : Nat) (entr : Entry) :
    (v.push new entr).fs.time = v.fs.time := by
  rw [push, linkNext_fs]
  rfl

theorem get_push (hnew : new % 64 = 0) (hlt : new < 18446744073709551616)
    (hbegin : v.fs.delBegin % 64 = 0) (ho : o % 64 = 0) (g : Field) :
    (v.push new entr).get o g =
      if v.fs.delBegin ≠ 0 ∧ o = v.fs.delBegin ∧ g = .prevDel then new
      else if o = new then fieldAt entr 0 g else v.get o g := by
  have h : (v.push new entr).get o g
      = ((v.store new entr).linkNext new v.fs.delBegin).get o g := rfl
  rw [h, get_linkNext hbegin ho hlt]
  by_cases heq : o = new
  · rw [if_pos heq, heq, get_store_same]
  · rw [if_neg heq, get_store_slot hnew ho heq]

theorem push_outside {k : Nat} (hk : k < new ∨ new + 64 ≤ k)
    (hbegin : v.fs.delBegin ≠ 0 → k < v.fs.delBegin ∨ v.fs.delBegin + 64 ≤ k) :
    (v.push new entr).data k = v.data k := by
  have h : (v.push new entr).data k
      = ((v.store new entr).linkNext new v.fs.delBegin).data k := rfl
  rw [h, linkNext_outside hbegin, store_outside _ hk]

end Vol

/-- The entry is a node for the blocks from `start` to `stop`, to stand before
`next`. -/
structure IsNode (entr : Entry) (next start stop : Nat) : Prop where
  type : entr.get .entryType = EntryType.delFileEntry.code
  cont : entr.get .contEntries = 0
  prev : entr.get .prevDel = 0
  next : entr.get .nextDel = next
  start : entr.get .startBlock = start
  stop : entr.get .endBlock = stop

namespace FreeSpace

variable {v : Vol} {nodes : List Nat} {new lo hi start stop : Nat} {entr : Entry}

/-- A node put at the head of the list, in an unused slot. -/
theorem push_step (hf : FreeList v nodes) (hg : Geometry v lo hi) (hslot : v.Slot new)
    (hunused : v.type new = EntryType.unusedEntry.code)
    (he : IsNode entr v.fs.delBegin start stop) :
    ListStep v (v.push new entr) nodes (new :: nodes) := by
  have hne : ∀ o, o ∈ nodes → o ≠ new := by
    intro o ho heq
    have ht := hf.type o ho
    rw [heq, hunused] at ht
    exact absurd ht (by decide)
  have hbegin : v.fs.delBegin = 0 ∨ v.fs.delBegin ∈ nodes := by
    by_cases hz : v.fs.delBegin = 0
    · exact Or.inl hz
    · exact Or.inr (hf.chain.first_mem hz)
  have halign : v.fs.delBegin % 64 = 0 := by
    rcases hbegin with hz | hmem
    · rw [hz]
    · exact (hf.slot _ hmem).aligned
  have hsize := hg.slot_le hslot
  have hsmall := hg.sized.small
  have hget : ∀ o, v.Slot o → ∀ g, (v.push new entr).get o g =
      if v.fs.delBegin ≠ 0 ∧ o = v.fs.delBegin ∧ g = .prevDel then new
      else if o = new then fieldAt entr 0 g else v.get o g :=
    fun o ho g => Vol.get_push hslot.aligned (by omega) halign ho.aligned g
  -- The new node, which is not the old head.
  have hnew : ∀ g, (v.push new entr).get new g = entr.get g := by
    intro g
    rw [hget new hslot, if_neg, if_pos rfl]
    intro h
    exact hne _ (hbegin.resolve_left h.1) h.2.1.symm
  have hkeep : ∀ o, v.Slot o → o ≠ new → ∀ g : Field, g ≠ .prevDel →
      (v.push new entr).get o g = v.get o g := by
    intro o ho hne' g hg'
    rw [hget o ho, if_neg fun h => hg' h.2.2, if_neg hne']
  have harea := v.push_area new entr
  refine ⟨harea, v.push_time new entr, ⟨?_, ?_, ?_, ?_, ?_⟩, ?_, ?_⟩
  · show Chain (v.push new entr).next (v.push new entr).prev 0 new (new :: nodes)
    refine hf.chain.pushFront (Nat.ne_of_gt (hg.slot_pos hslot)) hf.nodup ?_ ?_ ?_ ?_
    · rw [Vol.next, hnew]
      exact he.next
    · rw [Vol.prev, hnew]
      exact he.prev
    · exact fun o ho => hkeep o (hf.slot o ho) (hne o ho) _ (by decide)
    · intro o ho
      rw [Vol.prev, hget o (hf.slot o ho)]
      by_cases heq : o = v.fs.delBegin
      · rw [if_pos ⟨fun hz => hf.ne_zero ho (heq.trans hz), heq, rfl⟩, if_pos heq]
      · rw [if_neg fun h => heq h.2.1, if_neg (hne o ho), if_neg heq]
  · exact List.nodup_cons.2 ⟨fun hmem => hne new hmem rfl, hf.nodup⟩
  · intro o ho
    rcases List.mem_cons.1 ho with heq | ho
    · exact heq ▸ harea.slot.2 hslot
    · exact harea.slot.2 (hf.slot o ho)
  · intro o ho
    rcases List.mem_cons.1 ho with heq | ho
    · rw [heq, Vol.type, hnew]
      exact he.type
    · rw [Vol.type, hkeep o (hf.slot o ho) (hne o ho) _ (by decide)]
      exact hf.type o ho
  · intro o ho
    rcases List.mem_cons.1 ho with heq | ho
    · rw [heq, Vol.cont, hnew]
      exact he.cont
    · rw [Vol.cont, hkeep o (hf.slot o ho) (hne o ho) _ (by decide)]
      exact hf.cont o ho
  · intro o
    rw [Vol.Loose, Vol.Loose, harea.slot, List.mem_cons]
    refine and_congr_right fun ho => ?_
    by_cases heq : o = new
    · exact ⟨fun _ => Or.inr (heq ▸ hunused), fun _ => Or.inl (Or.inl heq)⟩
    · rw [Vol.type, hkeep o ho heq _ (by decide)]
      exact or_congr_left (or_iff_right heq)
  · intro k hk
    refine Vol.push_outside (hk new ⟨hslot, Or.inr hunused⟩) fun hz => ?_
    have hmem := hbegin.resolve_left hz
    exact hk _ ⟨hf.slot _ hmem, Or.inl hmem⟩

/-- A new node for blocks that no node has. -/
theorem push (hf : FreeSpace v nodes lo hi) (hg : Geometry v lo hi) (hslot : v.Slot new)
    (hunused : v.type new = EntryType.unusedEntry.code)
    (he : IsNode entr v.fs.delBegin start stop) (hlo : lo ≤ start) (hle : start ≤ stop)
    (hhi : stop < hi) (hfresh : ∀ b, start ≤ b → b ≤ stop → ¬ v.Free nodes b) :
    FreeStep v (v.push new entr) nodes (new :: nodes) lo hi fun b =>
      v.Free nodes b ∨ (start ≤ b ∧ b ≤ stop) := by
  have hstep := push_step hf.toFreeList hg hslot hunused he
  have hnot : new ∉ nodes := by
    intro hmem
    rw [hf.type new hmem] at hunused
    exact absurd hunused (by decide)
  have halign : v.fs.delBegin % 64 = 0 := by
    by_cases hz : v.fs.delBegin = 0
    · rw [hz]
    · exact (hf.slot _ (hf.chain.first_mem hz)).aligned
  have hlt : new < 18446744073709551616 := by
    have h₁ := hg.slot_le hslot
    have h₂ := hg.sized.small
    omega
  have hget : ∀ o, v.Slot o → ∀ g : Field, g ≠ .prevDel →
      (v.push new entr).get o g = if o = new then fieldAt entr 0 g else v.get o g := by
    intro o ho g hne
    rw [Vol.get_push hslot.aligned hlt halign ho.aligned, if_neg fun h => hne h.2.2]
  have hstart : (v.push new entr).get new .startBlock = start := by
    rw [hget new hslot _ (by decide), if_pos rfl]
    exact he.start
  have hstop : (v.push new entr).get new .endBlock = stop := by
    rw [hget new hslot _ (by decide), if_pos rfl]
    exact he.stop
  have hbut : ∀ b, v.FreeBut nodes new b ↔ v.Free nodes b := by
    intro b
    constructor
    · exact fun ⟨off, hoff, _, hb⟩ => ⟨off, hoff, hb⟩
    · exact fun ⟨off, hoff, hb⟩ => ⟨off, hoff, fun heq => hnot (heq ▸ hoff), hb⟩
  refine (hf.change hstep new ?_ ?_ ?_ ?_).congr ?_
  · intro o hne
    rw [List.mem_cons, or_iff_right hne]
  · intro o ho hne
    rw [hget o (hf.slot o ho) _ (by decide), hget o (hf.slot o ho) _ (by decide), if_neg hne,
      if_neg hne]
    exact ⟨rfl, rfl⟩
  · rw [hstart, hstop]
    exact fun _ => ⟨hlo, hle, hhi⟩
  · intro _ b hb
    rw [Vol.Owns, hstart, hstop] at hb
    rw [hbut b]
    exact hfresh b hb.1 hb.2
  · intro b
    rw [hbut b, Vol.Owns, hstart, hstop]
    exact or_congr_right (and_iff_right List.mem_cons_self)

end FreeSpace

/-! ## Freed blocks joined to their neighbours -/

namespace FreeSpace

variable {v : Vol} {nodes : List Nat} {prev next lo hi start stop : Nat}

/-- The node after the blocks takes them. -/
theorem joinNext (hf : FreeSpace v nodes lo hi) (hnext : next ∈ nodes)
    (hadj : v.get next .startBlock = stop + 1) (hlo : lo ≤ start) (hle : start ≤ stop)
    (hhi : stop < hi) (hfresh : ∀ b, start ≤ b → b ≤ stop → ¬ v.Free nodes b) :
    FreeStep v (v.set next .startBlock start) nodes nodes lo hi fun b =>
      v.Free nodes b ∨ (start ≤ b ∧ b ≤ stop) := by
  have hend := hf.filled (by omega) next hnext
  refine (hf.setStart hnext hlo (by omega) ?_).congr ?_
  · intro b h₁ h₂ hb
    by_cases h : b ≤ stop
    · exact hfresh b h₁ h ((Vol.free_iff hnext).2 (Or.inl hb))
    · exact hf.not_owns hnext hb ⟨by omega, h₂⟩
  · intro b
    rw [Vol.free_iff hnext, or_assoc, Vol.Owns, hadj]
    refine or_congr_right ?_
    omega

/-- The node before the blocks takes them. -/
theorem joinPrev (hf : FreeSpace v nodes lo hi) (hprev : prev ∈ nodes)
    (hadj : v.get prev .endBlock + 1 = start) (hle : start ≤ stop) (hhi : stop < hi)
    (hsmall : hi ≤ 18446744073709551616)
    (hfresh : ∀ b, start ≤ b → b ≤ stop → ¬ v.Free nodes b) :
    FreeStep v (v.set prev .endBlock stop) nodes nodes lo hi fun b =>
      v.Free nodes b ∨ (start ≤ b ∧ b ≤ stop) := by
  have hord := hf.ordered prev hprev
  refine (hf.setEnd hprev hhi (by omega) (by omega) ?_).congr ?_
  · intro b h₁ h₂ hb
    by_cases h : start ≤ b
    · exact hfresh b h h₂ ((Vol.free_iff hprev).2 (Or.inl hb))
    · exact hf.not_owns hprev hb ⟨h₁, by omega⟩
  · intro b
    rw [Vol.free_iff hprev, or_assoc, Vol.Owns]
    refine or_congr_right ?_
    omega

/-- The node after the blocks takes them and the blocks of the node before them,
which goes. -/
theorem joinBoth (hf : FreeSpace v nodes lo hi) (hprev : prev ∈ nodes) (hnext : next ∈ nodes)
    (hadj : v.get prev .endBlock + 1 = start) (hadj' : v.get next .startBlock = stop + 1)
    (hle : start ≤ stop) (hhi : stop < hi)
    (hfresh : ∀ b, start ≤ b → b ≤ stop → ¬ v.Free nodes b) :
    FreeStep v ((v.unlink prev).set next .startBlock (v.get prev .startBlock)) nodes
      (nodes.erase prev) lo hi fun b => v.Free nodes b ∨ (start ≤ b ∧ b ≤ stop) := by
  have hlt : lo < hi := by
    have h₁ := hf.ge prev hprev
    have h₂ := hf.ordered prev hprev
    omega
  have hfill := hf.filled hlt prev hprev
  have hfill' := hf.filled hlt next hnext
  have hne : next ≠ prev := by
    intro heq
    rw [heq] at hadj' hfill'
    omega
  have hun := hf.unlink hprev
  have hmem : next ∈ nodes.erase prev := (List.mem_erase_of_ne hne).2 hnext
  have hgets : ∀ g : Field, g ≠ .entryType → g ≠ .prevDel → g ≠ .nextDel →
      (v.unlink prev).get next g = v.get next g := fun g h₁ h₂ h₃ =>
    hf.get_unlink hprev (hf.slot next hnext) h₁ h₂ h₃
  have hend := hgets .endBlock (by decide) (by decide) (by decide)
  have hstart := hgets .startBlock (by decide) (by decide) (by decide)
  -- The blocks of the nodes that stay as they are.
  have hbut : ∀ b, (v.unlink prev).FreeBut (nodes.erase prev) next b ↔
      v.FreeBut nodes prev b ∧ ¬ v.Owns next b := by
    intro b
    have hfree := Vol.free_iff (v := v.unlink prev) (b := b) hmem
    rw [hun.free b, Vol.Owns, hstart, hend] at hfree
    constructor
    · intro hb
      refine ⟨hfree.2 (Or.inl hb), fun hown => hun.space.not_owns hmem hb ?_⟩
      rw [Vol.Owns, hstart, hend]
      exact hown
    · exact fun ⟨hb, hnot⟩ => (hfree.1 hb).resolve_right hnot
  refine hun.trans ((hun.space.setStart hmem (hf.ge prev hprev) ?_ ?_).congr ?_)
  · rw [hend]
    omega
  · intro b h₁ h₂ hb
    rw [hend] at h₂
    obtain ⟨hb', hnot⟩ := (hbut b).1 hb
    by_cases hp : b ≤ v.get prev .endBlock
    · exact hf.not_owns hprev hb' ⟨h₁, hp⟩
    · by_cases hs : b ≤ stop
      · exact hfresh b (by omega) hs ((Vol.free_iff hprev).2 (Or.inl hb'))
      · exact hnot ⟨by omega, h₂⟩
  · intro b
    rw [hbut b, hend, Vol.free_iff hprev]
    have hsplit : (v.get prev .startBlock ≤ b ∧ b ≤ v.get next .endBlock) ↔
        v.Owns prev b ∨ (start ≤ b ∧ b ≤ stop) ∨ v.Owns next b := by
      unfold Vol.Owns
      omega
    have hown : v.Owns next b → v.FreeBut nodes prev b := fun h => ⟨next, hnext, hne, h⟩
    rw [hsplit]
    by_cases h : v.Owns next b
    · simp only [h, hown h, true_and, not_true, or_true, true_or]
    · simp only [h, not_false_iff, and_true, or_false, or_assoc]

end FreeSpace

end Sfs
