import Sfs.Index

/-!
# The list of free extents, on the disk

`FreeList` says that the nodes of a list of slots are linked from `del_begin`
on, and `FreeSpace` that they stand for disjoint extents of the data area.
`ListStep` is what a list function may do to a volume: it touches nothing but
nodes and unused slots, and turns one into the other.

The rest of the file computes the volume after `del_file_list_remove` and
`free_entry`, and shows what the walks of the other list functions find.
-/

namespace Sfs

open Lib

namespace Vol

/-- `NEXT_DEL` of the node at an offset. -/
abbrev next (v : Vol) (off : Nat) : Nat := v.get off .nextDel

/-- `PREV_DEL` of the node at an offset. -/
abbrev prev (v : Vol) (off : Nat) : Nat := v.get off .prevDel

/-- Block `b` is in the extent of the entry at an offset. -/
def Owns (v : Vol) (off b : Nat) : Prop :=
  v.get off .startBlock ≤ b ∧ b ≤ v.get off .endBlock

instance (v : Vol) (off b : Nat) : Decidable (v.Owns off b) :=
  inferInstanceAs (Decidable (_ ∧ _))

end Vol

/-- The nodes of the list of free extents, in its order. -/
structure FreeList (v : Vol) (nodes : List Nat) : Prop where
  chain : Chain v.next v.prev 0 v.fs.delBegin nodes
  nodup : nodes.Nodup
  slot : ∀ off, off ∈ nodes → v.Slot off
  type : ∀ off, off ∈ nodes → v.type off = EntryType.delFileEntry.code
  cont : ∀ off, off ∈ nodes → v.cont off = 0

/-- The nodes stand for disjoint extents of the data area.  Only an empty data
area has a node for no block at all. -/
structure FreeSpace (v : Vol) (nodes : List Nat) (lo hi : Nat) : Prop
    extends FreeList v nodes where
  ge : ∀ off, off ∈ nodes → lo ≤ v.get off .startBlock
  lt : ∀ off, off ∈ nodes → v.get off .endBlock < hi
  ordered : ∀ off, off ∈ nodes → v.get off .startBlock ≤ v.get off .endBlock + 1
  filled : lo < hi → ∀ off, off ∈ nodes → v.get off .startBlock ≤ v.get off .endBlock
  disjoint : ∀ off, off ∈ nodes → ∀ off', off' ∈ nodes → ∀ b, v.Owns off b → v.Owns off' b →
    off = off'

/-- Block `b` is on the list. -/
def Vol.Free (v : Vol) (nodes : List Nat) (b : Nat) : Prop := ∃ off, off ∈ nodes ∧ v.Owns off b

/-- A slot the list functions may use. -/
def Vol.Loose (v : Vol) (nodes : List Nat) (off : Nat) : Prop :=
  v.Slot off ∧ (off ∈ nodes ∨ v.type off = EntryType.unusedEntry.code)

/-- What a list function does to a volume. -/
structure ListStep (v v' : Vol) (nodes nodes' : List Nat) : Prop where
  area : SameArea v v'
  time : v'.fs.time = v.fs.time
  list : FreeList v' nodes'
  loose : ∀ off, v'.Loose nodes' off ↔ v.Loose nodes off
  frame : ∀ k, (∀ off, v.Loose nodes off → k < off ∨ off + 64 ≤ k) → v'.data k = v.data k

namespace FreeList

variable {v v' : Vol} {nodes : List Nat} {off lo hi : Nat}

theorem ne_zero (hf : FreeList v nodes) (hoff : off ∈ nodes) : off ≠ 0 := hf.chain.ne_zero hoff

/-- The volume determines its list. -/
theorem unique {nodes' : List Nat} (hf : FreeList v nodes) (hf' : FreeList v nodes') :
    nodes = nodes' := hf.chain.unique hf'.chain

theorem next_mem (hf : FreeList v nodes) (hoff : off ∈ nodes) (hz : v.next off ≠ 0) :
    v.next off ∈ nodes := (hf.chain.next_mem hoff).resolve_left hz

theorem prev_mem (hf : FreeList v nodes) (hoff : off ∈ nodes) (hz : v.prev off ≠ 0) :
    v.prev off ∈ nodes := (hf.chain.prev_mem hoff).resolve_left hz

/-- The list is shorter than the index, so no walk uses up its watchdog. -/
theorem length_lt (hf : FreeList v nodes) (hg : Geometry v lo hi) :
    nodes.length < watchdogStart v.fs := by
  have hnodup : (nodes.map fun off => (off - v.fs.entryStart) / 64).Nodup := by
    refine (List.nodup_map_iff_inj_on hf.nodup).2 fun a ha b hb heq => ?_
    have h₁ := hf.slot a ha
    have h₂ := hf.slot b hb
    have h₃ := h₁.ge
    have h₄ := h₂.ge
    have h₅ := h₁.aligned
    have h₆ := h₂.aligned
    omega
  have hsub : (nodes.map fun off => (off - v.fs.entryStart) / 64) ⊆
      List.range ((v.fs.volIdent - v.fs.entryStart) / 64) := by
    intro i hi
    obtain ⟨off, hoff, rfl⟩ := List.mem_map.1 hi
    have h₁ := (hf.slot off hoff).lt
    have h₂ := (hf.slot off hoff).ge
    have h₃ := (hf.slot off hoff).aligned
    have h₄ := hg.aligned
    rw [List.mem_range]
    omega
  have hlen := hnodup.length_le_of_subset hsub
  rw [List.length_map, List.length_range] at hlen
  rw [watchdogStart, if_pos (Nat.le_of_lt hg.nonempty)]
  unfold indexEntrySize
  omega

end FreeList

/-! ## Removing a node -/

namespace Vol

/-- The volume after the link from `prev`, or from `del_begin`, was set. -/
def linkPrev (v : Vol) (prev next : Nat) : Vol :=
  if prev ≠ 0 then v.set prev .nextDel next
  else { v with fs := { v.fs with delBegin := next } }

/-- The volume after the link from `next` back was set. -/
def linkNext (v : Vol) (prev next : Nat) : Vol :=
  if next ≠ 0 then v.set next .prevDel prev else v

/-- The volume after `del_file_list_remove`. -/
def unlink (v : Vol) (off : Nat) : Vol :=
  ((v.linkPrev (v.prev off) (v.next off)).linkNext (v.prev off) (v.next off)).set off
    .entryType EntryType.unusedEntry.code

/-- The volume after `free_entry`. -/
def freeSlots (v : Vol) (off : Nat) : Nat → Vol
  | 0 => v
  | n + 1 => (v.set off .entryType EntryType.unusedEntry.code).freeSlots (off + 64) n

end Vol

section Programs

variable {t : Img} {nodes : List Nat} {off lo hi : Nat}

/-- Freeing one slot. -/
theorem gives_freeOneEntry (hs : t.vol.Sized) (hge : t.vol.fs.entryStart ≤ off)
    (hoff : off % 64 = 0) (hle : off + 64 ≤ t.vol.size) (entr : Entry) :
    Gives (freeOneEntry entr off) t fun r t' =>
      r.1 = 0 ∧ t'.vol = t.vol.set off .entryType EntryType.unusedEntry.code ∧
        t'.clean = true := by
  unfold freeOneEntry
  rw [gives_readEntry hs hge hoff hle]
  dsimp only
  rw [if_neg (by decide), gives_writeEntry (by exact hs) hoff (by exact hle)]
  simp

theorem gives_freeEntry (hs : t.vol.Sized) (hge : t.vol.fs.entryStart ≤ off) (hoff : off % 64 = 0)
    (n : Nat) (hle : off + 64 * n ≤ t.vol.size) (entr : Entry) :
    Gives (freeEntry entr off n) t fun r t' =>
      r.1 = 0 ∧ t'.vol = t.vol.freeSlots off n ∧ (0 < n ∨ t.clean = true → t'.clean = true) := by
  induction n generalizing t off entr with
  | zero =>
    rw [freeEntry, gives_pure]
    exact ⟨rfl, rfl, fun h => h.resolve_left (Nat.lt_irrefl 0)⟩
  | succ n ih =>
    rw [freeEntry, gives_bind]
    refine (gives_freeOneEntry hs hge hoff (by omega) entr).mono fun ⟨ret, entr₁⟩ t₁ h₁ => ?_
    obtain ⟨hret, hvol, hclean⟩ := h₁
    dsimp only at hret ⊢
    rw [if_neg (by rw [hret]; decide)]
    have hs₁ : t₁.vol.Sized := by
      rw [hvol]
      exact hs.congr rfl rfl
    have hge₁ : t₁.vol.fs.entryStart ≤ off + indexEntrySize := by
      rw [hvol]
      exact Nat.le_add_right_of_le hge
    refine (ih hs₁ hge₁ (by unfold indexEntrySize; omega) (by rw [hvol]; exact (by
      unfold indexEntrySize; omega : off + indexEntrySize + 64 * n ≤ t.vol.size)) entr₁).mono
      fun r t₂ h₂ => ?_
    refine ⟨h₂.1, ?_, fun _ => h₂.2.2 (Or.inr hclean)⟩
    rw [h₂.2.1, hvol]
    rfl

theorem gives_patchEntry (hs : t.vol.Sized) (hge : t.vol.fs.entryStart ≤ off)
    (hoff : off % 64 = 0) (hle : off + 64 ≤ t.vol.size) (f : Field) (x : Nat) (entr : Entry) :
    Gives (patchEntry off f x entr) t fun _ t' =>
      t' = { t with vol := t.vol.set off f x, clean := true } := by
  unfold patchEntry
  rw [gives_readEntry hs hge hoff hle]
  dsimp only
  rw [gives_writeEntry (by exact hs) hoff (by exact hle)]
  simp

theorem gives_relinkPrev {prev next : Nat} (hs : t.vol.Sized)
    (hprev : prev ≠ 0 → t.vol.fs.entryStart ≤ prev ∧ prev % 64 = 0 ∧ prev + 64 ≤ t.vol.size)
    (entr : Entry) :
    Gives (relinkPrev prev next entr) t fun _ t' => t'.vol = t.vol.linkPrev prev next := by
  unfold relinkPrev Vol.linkPrev
  by_cases hz : prev = 0
  · rw [if_neg (not_not.2 hz), if_neg (not_not.2 hz), gives_setDelBegin, gives_pure]
  · obtain ⟨hge, hal, hin⟩ := hprev hz
    rw [if_pos hz, if_pos hz]
    exact (gives_patchEntry hs hge hal hin _ _ _).mono fun _ t' ht' => by rw [ht']

theorem gives_relinkNext {prev next : Nat} (hs : t.vol.Sized)
    (hnext : next ≠ 0 → t.vol.fs.entryStart ≤ next ∧ next % 64 = 0 ∧ next + 64 ≤ t.vol.size)
    (entr : Entry) :
    Gives (relinkNext prev next entr) t fun _ t' =>
      t'.vol = t.vol.linkNext prev next ∧ (t.clean = true → t'.clean = true) := by
  unfold relinkNext Vol.linkNext
  by_cases hz : next = 0
  · rw [if_neg (not_not.2 hz), if_neg (not_not.2 hz), gives_pure]
    exact ⟨rfl, id⟩
  · obtain ⟨hge, hal, hin⟩ := hnext hz
    rw [if_pos hz, if_pos hz]
    exact (gives_patchEntry hs hge hal hin _ _ _).mono fun _ t' ht' => by
      rw [ht']
      exact ⟨rfl, fun _ => rfl⟩

end Programs

namespace Vol

variable {v : Vol} {off o prev next : Nat}

theorem linkPrev_area (v : Vol) (prev next : Nat) : SameArea v (v.linkPrev prev next) := by
  unfold linkPrev
  split <;> exact ⟨rfl, rfl, rfl, rfl⟩

theorem linkNext_area (v : Vol) (prev next : Nat) : SameArea v (v.linkNext prev next) := by
  unfold linkNext
  split <;> exact ⟨rfl, rfl, rfl, rfl⟩

theorem linkPrev_fs (v : Vol) (prev next : Nat) :
    (v.linkPrev prev next).fs
      = { v.fs with delBegin := if prev ≠ 0 then v.fs.delBegin else next } := by
  unfold linkPrev
  split <;> rfl

theorem linkNext_fs (v : Vol) (prev next : Nat) : (v.linkNext prev next).fs = v.fs := by
  unfold linkNext
  split <;> rfl

theorem get_linkPrev (hprev : prev % 64 = 0) (ho : o % 64 = 0) (hlt : next < 18446744073709551616)
    (g : Field) :
    (v.linkPrev prev next).get o g
      = if prev ≠ 0 ∧ o = prev ∧ g = .nextDel then next else v.get o g := by
  unfold linkPrev
  by_cases hz : prev = 0
  · rw [if_neg (not_not.2 hz), if_neg fun h => h.1 hz]
    rfl
  · rw [if_pos hz, get_set hprev ho]
    by_cases h : o = prev ∧ g = .nextDel
    · rw [if_pos h, if_pos ⟨hz, h⟩]
      exact Nat.mod_eq_of_lt hlt
    · rw [if_neg h, if_neg fun h' => h h'.2]

theorem get_linkNext (hnext : next % 64 = 0) (ho : o % 64 = 0) (hlt : prev < 18446744073709551616)
    (g : Field) :
    (v.linkNext prev next).get o g
      = if next ≠ 0 ∧ o = next ∧ g = .prevDel then prev else v.get o g := by
  unfold linkNext
  by_cases hz : next = 0
  · rw [if_neg (not_not.2 hz), if_neg fun h => h.1 hz]
  · rw [if_pos hz, get_set hnext ho]
    by_cases h : o = next ∧ g = .prevDel
    · rw [if_pos h, if_pos ⟨hz, h⟩]
      exact Nat.mod_eq_of_lt hlt
    · rw [if_neg h, if_neg fun h' => h h'.2]

theorem linkPrev_outside {k : Nat} (hk : prev ≠ 0 → k < prev ∨ prev + 64 ≤ k) :
    (v.linkPrev prev next).data k = v.data k := by
  unfold linkPrev
  by_cases hz : prev = 0
  · rw [if_neg (not_not.2 hz)]
  · have hout := hk hz
    rw [if_pos hz, set_outside _ _ (by omega)]

theorem linkNext_outside {k : Nat} (hk : next ≠ 0 → k < next ∨ next + 64 ≤ k) :
    (v.linkNext prev next).data k = v.data k := by
  unfold linkNext
  by_cases hz : next = 0
  · rw [if_neg (not_not.2 hz)]
  · have hout := hk hz
    rw [if_pos hz, set_outside _ _ (by omega)]

theorem unlink_fs (v : Vol) (off : Nat) :
    (v.unlink off).fs = { v.fs with
      delBegin := if v.prev off ≠ 0 then v.fs.delBegin else v.next off } := by
  unfold unlink
  rw [set_fs, linkNext_fs, linkPrev_fs]

theorem set_area (v : Vol) (off : Nat) (f : Field) (x : Nat) : SameArea v (v.set off f x) :=
  ⟨rfl, rfl, rfl, rfl⟩

theorem unlink_area (v : Vol) (off : Nat) : SameArea v (v.unlink off) := by
  unfold unlink
  exact ((v.linkPrev_area _ _).trans (linkNext_area _ _ _)).trans (set_area _ _ _ _)

/-- The fields of the slots after `del_file_list_remove`. -/
theorem get_unlink (hoff : off % 64 = 0) (hprev : v.prev off % 64 = 0) (hnext : v.next off % 64 = 0)
    (ho : o % 64 = 0) (g : Field) :
    (v.unlink off).get o g =
      if o = off ∧ g = .entryType then EntryType.unusedEntry.code
      else if v.next off ≠ 0 ∧ o = v.next off ∧ g = .prevDel then v.prev off
      else if v.prev off ≠ 0 ∧ o = v.prev off ∧ g = .nextDel then v.next off
      else v.get o g := by
  unfold unlink
  rw [get_set hoff ho, get_linkNext hnext ho (v.get_lt off .prevDel),
    get_linkPrev hprev ho (v.get_lt off .nextDel)]
  by_cases h : o = off ∧ g = .entryType
  · rw [if_pos h, if_pos h]
    rfl
  · rw [if_neg h, if_neg h]

/-- `del_file_list_remove` changes only bytes of the node and its neighbours. -/
theorem unlink_outside {k : Nat} (hk : k < off ∨ off + 64 ≤ k)
    (hkp : v.prev off ≠ 0 → k < v.prev off ∨ v.prev off + 64 ≤ k)
    (hkn : v.next off ≠ 0 → k < v.next off ∨ v.next off + 64 ≤ k) :
    (v.unlink off).data k = v.data k := by
  unfold unlink
  rw [set_outside _ _ (by omega), linkNext_outside hkn, linkPrev_outside hkp]

end Vol

section Programs

variable {t : Img} {off : Nat}

/-- The volume after `del_file_list_remove` when the links of the node lead
nowhere or to slots. -/
theorem gives_delFileListRemove (hs : t.vol.Sized) (hge : t.vol.fs.entryStart ≤ off)
    (hoff : off % 64 = 0) (hle : off + 64 ≤ t.vol.size)
    (hprev : t.vol.prev off ≠ 0 → t.vol.fs.entryStart ≤ t.vol.prev off ∧
      t.vol.prev off % 64 = 0 ∧ t.vol.prev off + 64 ≤ t.vol.size)
    (hnext : t.vol.next off ≠ 0 → t.vol.fs.entryStart ≤ t.vol.next off ∧
      t.vol.next off % 64 = 0 ∧ t.vol.next off + 64 ≤ t.vol.size) (entr : Entry) :
    Gives (delFileListRemove off entr) t fun _ t' =>
      t'.vol = t.vol.unlink off ∧ t'.clean = true := by
  unfold delFileListRemove
  rw [gives_readEntry hs hge hoff hle]
  simp only [Vol.get_load]
  rw [gives_bind]
  refine (gives_relinkPrev (by exact hs) (by exact hprev) _).mono fun entr₁ t₁ h₁ => ?_
  have ha₁ := t.vol.linkPrev_area (t.vol.prev off) (t.vol.next off)
  have hs₁ : t₁.vol.Sized := by rw [h₁]; exact hs.congr ha₁.blockSize ha₁.size
  rw [gives_bind]
  refine (gives_relinkNext hs₁ (by rw [h₁, ha₁.size, ha₁.entryStart]; exact hnext) entr₁).mono
    fun entr₂ t₂ ⟨h₂, _⟩ => ?_
  have ha₂ := t₁.vol.linkNext_area (t.vol.prev off) (t.vol.next off)
  have hs₂ : t₂.vol.Sized := by rw [h₂]; exact hs₁.congr ha₂.blockSize ha₂.size
  rw [gives_bind]
  have hge₂ : t₂.vol.fs.entryStart ≤ off := by
    rw [h₂, ha₂.entryStart, h₁, ha₁.entryStart]
    exact hge
  refine (gives_freeEntry hs₂ hge₂ hoff 1 (by rw [h₂, ha₂.size, h₁, ha₁.size]; omega) entr₂).mono
    fun ⟨_, _⟩ t₃ ⟨_, hvol, hclean⟩ => ?_
  rw [gives_pure]
  refine ⟨?_, hclean (Or.inl (by decide))⟩
  rw [hvol, h₂, h₁, Vol.unlink]
  rfl

end Programs

namespace FreeList

variable {v v' : Vol} {nodes : List Nat} {off lo hi : Nat}

theorem prev_aligned (hf : FreeList v nodes) (hoff : off ∈ nodes) : v.prev off % 64 = 0 := by
  rcases hf.chain.prev_mem hoff with hz | hmem
  · rw [hz]
  · exact (hf.slot _ hmem).aligned

theorem next_aligned (hf : FreeList v nodes) (hoff : off ∈ nodes) : v.next off % 64 = 0 := by
  rcases hf.chain.next_mem hoff with hz | hmem
  · rw [hz]
  · exact (hf.slot _ hmem).aligned

/-- The fields of a slot that stay as they are when a node is removed. -/
theorem get_unlink (hf : FreeList v nodes) (hoff : off ∈ nodes) {o : Nat} (ho : v.Slot o)
    {g : Field} (htype : g ≠ .entryType) (hprev : g ≠ .prevDel) (hnext : g ≠ .nextDel) :
    (v.unlink off).get o g = v.get o g := by
  rw [Vol.get_unlink (hf.slot off hoff).aligned (hf.prev_aligned hoff) (hf.next_aligned hoff)
    ho.aligned, if_neg fun h => htype h.2, if_neg fun h => hprev h.2.2, if_neg fun h => hnext h.2.2]

theorem type_unlink (hf : FreeList v nodes) (hoff : off ∈ nodes) {o : Nat} (ho : v.Slot o) :
    (v.unlink off).type o = if o = off then EntryType.unusedEntry.code else v.type o := by
  rw [Vol.type, Vol.get_unlink (hf.slot off hoff).aligned (hf.prev_aligned hoff)
    (hf.next_aligned hoff) ho.aligned]
  by_cases heq : o = off
  · rw [if_pos ⟨heq, rfl⟩, if_pos heq]
  · rw [if_neg fun h => heq h.1, if_neg heq, if_neg fun h => Field.noConfusion h.2.2,
      if_neg fun h => Field.noConfusion h.2.2]

/-- Removing a node takes it off the list and frees its slot. -/
theorem unlink_step (hf : FreeList v nodes) (hoff : off ∈ nodes) :
    ListStep v (v.unlink off) nodes (nodes.erase off) := by
  have harea := v.unlink_area off
  have hget := fun o (ho : v.Slot o) => Vol.get_unlink (hf.slot off hoff).aligned
    (hf.prev_aligned hoff) (hf.next_aligned hoff) ho.aligned
  have hmem : ∀ o, o ∈ nodes.erase off ↔ o ≠ off ∧ o ∈ nodes := fun o => hf.nodup.mem_erase_iff
  refine ⟨harea, by rw [v.unlink_fs], ⟨?_, ?_, ?_, ?_, ?_⟩, ?_, ?_⟩
  · have hchain : Chain (v.unlink off).next (v.unlink off).prev 0
        (if v.fs.delBegin = off then v.next off else v.fs.delBegin) (nodes.erase off) := by
      refine hf.chain.unlink hf.nodup (fun h => hf.ne_zero h rfl) hoff ?_ ?_
      · intro o ho hne
        rw [Vol.next, hget o (hf.slot o ho), if_neg fun h => hne h.1,
          if_neg fun h => Field.noConfusion h.2.2]
        by_cases heq : o = v.prev off
        · rw [if_pos ⟨fun hz => hf.ne_zero ho (heq.trans hz), heq, rfl⟩, if_pos heq]
        · rw [if_neg fun h => heq h.2.1, if_neg heq]
      · intro o ho hne
        rw [Vol.prev, hget o (hf.slot o ho), if_neg fun h => hne h.1]
        by_cases heq : o = v.next off
        · rw [if_pos ⟨fun hz => hf.ne_zero ho (heq.trans hz), heq, rfl⟩, if_pos heq]
        · rw [if_neg fun h => heq h.2.1, if_neg fun h => Field.noConfusion h.2.2, if_neg heq]
    have hbegin : (v.unlink off).fs.delBegin
        = if v.fs.delBegin = off then v.next off else v.fs.delBegin := by
      rw [v.unlink_fs]
      have hiff := hf.chain.prev_eq_zero hoff
      by_cases heq : v.fs.delBegin = off
      · rw [if_pos heq, if_neg (not_not.2 (hiff.2 heq.symm))]
      · rw [if_neg heq, if_pos fun hz => heq (hiff.1 hz).symm]
    rw [hbegin]
    exact hchain
  · exact hf.nodup.erase off
  · intro o ho
    exact harea.slot.2 (hf.slot o ((hmem o).1 ho).2)
  · intro o ho
    obtain ⟨hne, ho'⟩ := (hmem o).1 ho
    rw [hf.type_unlink hoff (hf.slot o ho'), if_neg hne]
    exact hf.type o ho'
  · intro o ho
    obtain ⟨hne, ho'⟩ := (hmem o).1 ho
    rw [Vol.cont, hf.get_unlink hoff (hf.slot o ho') (by decide) (by decide) (by decide)]
    exact hf.cont o ho'
  · intro o
    rw [Vol.Loose, Vol.Loose, harea.slot, hmem o]
    refine and_congr_right fun ho => ?_
    rw [hf.type_unlink hoff ho]
    by_cases heq : o = off
    · rw [if_pos heq, heq]
      exact ⟨fun _ => Or.inl hoff, fun _ => Or.inr rfl⟩
    · rw [if_neg heq]
      exact or_congr_left (and_iff_right heq)
  · intro k hk
    have hnode : ∀ o, o ∈ nodes → k < o ∨ o + 64 ≤ k := fun o ho =>
      hk o ⟨hf.slot o ho, Or.inl ho⟩
    exact Vol.unlink_outside (hnode off hoff) (fun hz => hnode _ (hf.prev_mem hoff hz))
      fun hz => hnode _ (hf.next_mem hoff hz)

end FreeList

end Sfs
