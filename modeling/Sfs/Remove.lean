import Sfs.Create

/-!
# Removing names

`sfs_unlink` gives a file another type, `sfs_rmdir` and `sfs_delete` make the
slots of a group unused, and `sfs_delete` puts the blocks of the file on the
list of free extents.

* `Vol.Retyped` and `Vol.Released` are what that does to the index;
* `gives_sfsUnlink`, `gives_sfsRmdir` and `gives_sfsDelete` say that the
  operations do it, or fail and change nothing.
-/

namespace Sfs

open Lib

/-! ## A head with another type -/

/-- The head at `a` has another type, and nothing else changed. -/
structure Vol.Retyped (v v' : Vol) (a : Nat) (type : EntryType) : Prop where
  area : SameArea v v'
  delBegin : v'.fs.delBegin = v.fs.delBegin
  slot : v.Slot a
  head : v.Head a
  type : v'.type a = type.code
  frame : ∀ k, k ≠ a → v'.data k = v.data k

namespace Vol.Retyped

variable {v v' : Vol} {type : EntryType} {nodes : List Nat} {a o lo hi : Nat} {s : Buf}

theorem withTime (h : v.Retyped v' a type) (time : Nat) :
    v.Retyped { v' with fs := { v'.fs with time := time } } a type :=
  ⟨⟨h.area.blockSize, h.area.size, h.area.entryStart, h.area.volIdent⟩, h.delBegin, h.slot, h.head,
    h.type, h.frame⟩

/-- Every field but the type of the head stays. -/
theorem get_eq (h : v.Retyped v' a type) (ho : o % 64 = 0) {f : Field}
    (hne : o ≠ a ∨ f ≠ .entryType) : v'.get o f = v.get o f := by
  have hal := h.slot.aligned
  have hle := f.pos_add_width_le
  unfold Vol.get fieldAt
  refine getLE_congr fun k hk => h.frame _ ?_
  rcases hne with hne | hne
  · omega
  · have hpos : 0 < f.pos := by
      cases f
      · exact absurd rfl hne
      all_goals decide
    omega

theorem sameGroup (h : v.Retyped v' a type) (hl : Layout v) (hoff : v.Slot o) (hh : v.Head o)
    (hne : o ≠ a) : v.SameGroup v' o := by
  intro k hk hk'
  refine h.frame k fun heq => ?_
  subst heq
  exact absurd (hl.no_cross hoff hh h.slot (Layout.isType_of_head h.head)
    (Nat.lt_of_le_of_ne hk hne)) (Nat.not_le.2 hk')

theorem layout (h : v.Retyped v' a type) (hl : Layout v) (hg : Geometry v lo hi)
    (hh : v'.Head a) : Layout v' := by
  have htype : ∀ o, v.Slot o → o ≠ a → v'.type o = v.type o := fun o ho hne =>
    h.get_eq ho.aligned (Or.inl hne)
  have hcont : ∀ o, v.Slot o → v'.cont o = v.cont o := fun o ho =>
    h.get_eq ho.aligned (Or.inr (by decide))
  have hhead : ∀ o, v.Slot o → (v'.Head o ↔ v.Head o) := by
    intro o ho
    by_cases heq : o = a
    · subst heq
      exact ⟨fun _ => h.head, fun _ => hh⟩
    · rw [Vol.Head, Vol.Head, htype o ho heq]
  have histype : ∀ o, v.Slot o → (IsType (v'.type o) ↔ IsType (v.type o)) := by
    intro o ho
    by_cases heq : o = a
    · subst heq
      exact ⟨fun _ => Layout.isType_of_head h.head, fun _ => Layout.isType_of_head hh⟩
    · rw [htype o ho heq]
  have hend : ∀ o, v.Slot o → v'.groupEnd o = v.groupEnd o := fun o ho => by
    rw [groupEnd, groupEnd, hcont o ho]
  refine ⟨?_, ?_, ?_, ?_, ?_⟩
  · rw [h.area.entryStart, htype _ hg.slot_start]
    · exact hl.start
    · intro heq
      exact hl.start_not_head (heq ▸ h.head)
  · intro o ho hne ht
    have ho' := h.area.slot.1 ho
    rw [h.area.entryStart] at hne
    by_cases heq : o = a
    · subst heq
      exact Or.inr hh
    · rw [htype o ho' heq] at ht ⊢
      exact (hl.known o ho' hne ht).imp_right (hhead o ho').2
  · intro o ho hh'
    have ho' := h.area.slot.1 ho
    rw [hend o ho', h.area.volIdent]
    exact hl.inside o ho' ((hhead o ho').1 hh')
  · intro o ho hh' j hj
    have ho' := h.area.slot.1 ho
    rw [hcont o ho'] at hj
    have hin := hl.inside o ho' ((hhead o ho').1 hh')
    have hge := ho'.ge
    have hal := ho'.aligned
    rw [groupEnd] at hin
    rw [histype _ ⟨by omega, by omega, by omega⟩]
    exact hl.pieces o ho' ((hhead o ho').1 hh') j hj
  · intro o ho ht
    have ho' := h.area.slot.1 ho
    rw [histype o ho'] at ht
    obtain ⟨head, hs, hh', hlt, hin⟩ := hl.covered o ho' ht
    exact ⟨head, h.area.slot.2 hs, (hhead head hs).2 hh', hlt, by rwa [hend head hs]⟩

theorem get_node (h : v.Retyped v' a type) (hf : FreeList v nodes) (hnot : a ∉ nodes) (o : Nat)
    (ho : o ∈ nodes) (f : Field) : v'.get o f = v.get o f :=
  h.get_eq (hf.slot o ho).aligned (Or.inl fun heq => hnot (heq ▸ ho))

/-- The name of the head stays. -/
theorem hasName (h : v.Retyped v' a type) {kind : NameKind} (hk : 0 < kind.name)
    (hname : HasName v kind a s) : HasName v' kind a s := by
  have hcont : v'.cont a = v.cont a := h.get_eq h.slot.aligned (Or.inr (by decide))
  refine ⟨hname.str.congr fun i _ => h.frame _ (by omega), by rw [hcont]; exact hname.room, ?_⟩
  intro j hj hj' hlt
  rw [hcont] at hj'
  rw [h.frame _ (by omega)]
  exact hname.tail j hj hj' hlt

theorem keeps (h : v.Retyped v' a type) (hl : Layout v) : v.Keeps v' nodes nodes a := by
  have htypes : ∀ o, v.Slot o → o ≠ a → v'.type o = v.type o := fun o ho hne =>
    h.get_eq ho.aligned (Or.inl hne)
  refine ⟨h.area, ?_, ?_, fun o hne ho => h.sameGroup hl ho.1 ho.head hne,
    fun o hne ho => h.sameGroup hl ho.1 ho.head hne⟩
  · intro o hne
    rw [IsFile, IsFile, h.area.slot]
    exact and_congr_right fun hslot => by rw [htypes o hslot hne]
  · intro o hne
    rw [IsDir, IsDir, h.area.slot]
    exact and_congr_right fun hslot => by rw [htypes o hslot hne]

/-- A file that becomes unlinked, or live again. -/
theorem wellFormed (h : v.Retyped v' a type) (hw : WellFormed v nodes lo hi)
    (hfile : v.IsFile nodes a) (htype : type = .fileEntry ∨ type = .delFileEntry) :
    WellFormed v' nodes lo hi := by
  have hl := hw.layout
  have hf := hw.space.toFreeList
  have hnot := hfile.not_mem hf
  have hget := h.get_node hf hnot
  have hal := h.slot.aligned
  have hsame : ∀ f : Field, f ≠ .entryType → v'.get a f = v.get a f := fun f hne =>
    h.get_eq hal (Or.inr hne)
  have hfile' : v'.IsFile nodes a := by
    refine ⟨h.area.slot.2 h.slot, ?_⟩
    rcases htype with rfl | rfl
    · exact Or.inl h.type
    · exact Or.inr ⟨h.type, hnot⟩
  have howns : ∀ b, v'.FileOwns a b ↔ v.FileOwns a b := fun b => by
    rw [FileOwns, FileOwns, Owns, Owns, hsame _ (by decide), hsame _ (by decide),
      hsame _ (by decide)]
  have hfree : ∀ b, v'.Free nodes b ↔ v.Free nodes b := fun b => Vol.free_congr hget
  refine hw.of_keeps (h.keeps hl) (hw.toBlocks.edit (h.keeps hl)
    (h.layout hl hw.geometry hfile'.head) (hw.space.congr h.area h.delBegin hget) ?_ ?_ ?_) ?_ ?_
  · intro _
    unfold FileOk
    rw [hsame _ (by decide), hsame _ (by decide), hsame _ (by decide), h.area.blockSize]
    exact hw.fileOk a hfile
  · intro b hb o _ ho hown
    exact hw.apart o ho b hown ((hfree b).1 hb)
  · intro _ b hb
    refine ⟨fun hb' => hw.apart a hfile b ((howns b).1 hb) ((hfree b).1 hb'), ?_⟩
    intro o hne ho hown
    exact hne (hw.alone o a ho hfile b hown ((howns b).1 hb))
  · intro _
    obtain ⟨s, hs, hpath⟩ := hw.fileName a hfile
    exact ⟨s, h.hasName (by decide) hs, hpath⟩
  · exact fun hdir => absurd hfile' (IsDir.not_isFile hdir)

/-- An unlinked file is not live; everything else is live as before. -/
theorem live_iff (h : v.Retyped v' a .delFileEntry) (hl : Layout v) :
    v'.Live o s ↔ v.Live o s ∧ o ≠ a := by
  have hnot : o = a → ¬ v'.Live o s := by
    intro heq hlive
    subst heq
    rcases hlive with hn | hn <;> exact absurd (h.type.symm.trans hn.type) (by decide)
  have hkeep : v.Keeps v' [] [] a := h.keeps hl
  constructor
  · intro hlive
    have hne : o ≠ a := fun heq => hnot heq hlive
    exact ⟨(hkeep.live_iff hne).1 hlive, hne⟩
  · intro ⟨hlive, hne⟩
    exact (hkeep.live_iff hne).2 hlive

end Vol.Retyped

/-! ## A group whose slots are unused -/

namespace Vol

variable {v : Vol} {off : Nat}

/-- `free_entry` writes nothing but the slots it frees. -/
theorem freeSlots_outside (n : Nat) {k : Nat} (hk : k < off ∨ off + 64 * n ≤ k) :
    (v.freeSlots off n).data k = v.data k := by
  induction n generalizing v off with
  | zero => rfl
  | succ n ih =>
    rw [freeSlots, ih (by omega)]
    exact putLE_outside (by show k < off + 0 ∨ off + 0 + 1 ≤ k; omega)

theorem freeSlots_area (v : Vol) (off n : Nat) : SameArea v (v.freeSlots off n) := by
  induction n generalizing v off with
  | zero => exact SameArea.refl v
  | succ n ih => exact (set_area _ _ _ _).trans (ih _ _)

theorem freeSlots_fs (v : Vol) (off n : Nat) : (v.freeSlots off n).fs = v.fs := by
  induction n generalizing v off with
  | zero => rfl
  | succ n ih => exact ih _ _

/-- The slots that `free_entry` frees are unused. -/
theorem freeSlots_type (hoff : off % 64 = 0) (n : Nat) {j : Nat} (hj : j < n) :
    (v.freeSlots off n).type (off + 64 * j) = EntryType.unusedEntry.code := by
  induction n generalizing v off j with
  | zero => exact absurd hj (Nat.not_lt_zero j)
  | succ n ih =>
    rw [freeSlots]
    cases j with
    | zero =>
      rw [type_congr (freeSlots_outside n (Or.inl (by omega)))]
      exact get_set_same _ _ _ _
    | succ j =>
      rw [show off + 64 * (j + 1) = off + 64 + 64 * j by omega]
      exact ih (by omega) (by omega)

end Vol

/-- The slots of the group at `a` are unused, and nothing else changed. -/
structure Vol.Released (v v' : Vol) (a : Nat) : Prop where
  area : SameArea v v'
  delBegin : v'.fs.delBegin = v.fs.delBegin
  slot : v.Slot a
  head : v.Head a
  unused : ∀ j, j ≤ v.cont a → v'.type (a + 64 * j) = EntryType.unusedEntry.code
  frame : ∀ k, k < a ∨ v.groupEnd a ≤ k → v'.data k = v.data k

namespace Vol.Released

variable {v v' : Vol} {nodes : List Nat} {a o lo hi : Nat} {s : Buf}

theorem withTime (h : v.Released v' a) (time : Nat) :
    v.Released { v' with fs := { v'.fs with time := time } } a :=
  ⟨⟨h.area.blockSize, h.area.size, h.area.entryStart, h.area.volIdent⟩, h.delBegin, h.slot, h.head,
    h.unused, h.frame⟩

/-- A head stored with another type, and the slots behind it freed. -/
theorem of_store {e : Entry} {n : Nat} (hslot : v.Slot a) (hh : v.Head a)
    (htype : e.get .entryType = EntryType.unusedEntry.code) (hn : n = v.cont a) :
    v.Released ((v.store a e).freeSlots (a + 64) n) a := by
  have hal := hslot.aligned
  have harea : SameArea v (v.store a e) := ⟨rfl, rfl, rfl, rfl⟩
  refine ⟨harea.trans (freeSlots_area _ _ _), by rw [freeSlots_fs]; rfl, hslot, hh, ?_, ?_⟩
  · intro j hj
    cases j with
    | zero =>
      rw [type_congr (freeSlots_outside n (Or.inl (by omega)))]
      exact (get_store_same v a e _).trans htype
    | succ j =>
      rw [show a + 64 * (j + 1) = a + 64 + 64 * j by omega]
      exact freeSlots_type (by omega) n (by omega)
  · intro k hk
    rw [groupEnd] at hk
    rw [freeSlots_outside n (by omega)]
    exact store_outside e (by omega)

/-- The slots of the group are no longer heads. -/
theorem type_inside (h : v.Released v' a) (ho : o % 64 = 0) (hge : a ≤ o)
    (hlt : o < v.groupEnd a) : v'.type o = EntryType.unusedEntry.code := by
  have hal := h.slot.aligned
  rw [groupEnd] at hlt
  have hu := h.unused ((o - a) / 64) (by omega)
  rwa [show a + 64 * ((o - a) / 64) = o by omega] at hu

theorem outside_of_head (h : v.Released v' a) (hoff : v.Slot o) (hh : v'.Head o) :
    o < a ∨ v.groupEnd a ≤ o := by
  by_contra hin
  have hu := h.type_inside hoff.aligned (by omega) (by omega)
  rcases hh with hh | hh | hh <;> rw [hu] at hh <;> exact absurd hh (by decide)

theorem type_outside (h : v.Released v' a) (ho : o < a ∨ v.groupEnd a ≤ o) :
    v'.type o = v.type o := Vol.type_congr (h.frame o ho)

/-- The other groups keep their bytes. -/
theorem sameGroup (h : v.Released v' a) (hl : Layout v) (hoff : v.Slot o) (hh : v.Head o)
    (hne : o ≠ a) : v.SameGroup v' o :=
  Vol.SameGroup.of_frame h.frame (hl.disjoint hoff hh h.slot h.head hne)

theorem layout (h : v.Released v' a) (hl : Layout v) (hg : Geometry v lo hi) : Layout v' := by
  refine hl.release hg h.area h.slot h.head (fun j hj => h.unused j (Nat.lt_succ_iff.1 hj)) ?_
  intro off hoff hout
  have hal := hoff.aligned
  have hal' := h.slot.aligned
  refine ⟨h.type_outside hout, fun _ => Vol.cont_congr (h.frame _ ?_)⟩
  rw [groupEnd] at hout ⊢
  omega

theorem get_node (h : v.Released v' a) (hl : Layout v) (hf : FreeList v nodes) (hnot : a ∉ nodes)
    (o : Nat) (ho : o ∈ nodes) (f : Field) : v'.get o f = v.get o f :=
  (h.sameGroup hl (hf.slot o ho) (Or.inr (Or.inr (hf.type o ho))) fun heq =>
    hnot (heq ▸ ho)).get_eq f

theorem keeps (h : v.Released v' a) (hl : Layout v) : v.Keeps v' nodes nodes a where
  area := h.area
  file o hne := by
    constructor
    · intro hfile
      have hslot := h.area.slot.1 hfile.1
      have hout := h.outside_of_head hslot hfile.head
      rw [IsFile, h.type_outside hout] at hfile
      exact ⟨hslot, hfile.2⟩
    · intro hfile
      refine ⟨h.area.slot.2 hfile.1, ?_⟩
      rw [Vol.type, (h.sameGroup hl hfile.1 hfile.head hne).get_eq]
      exact hfile.2
  dir o hne := by
    constructor
    · intro hdir
      have hslot := h.area.slot.1 hdir.1
      have hout := h.outside_of_head hslot hdir.head
      rw [IsDir, h.type_outside hout] at hdir
      exact ⟨hslot, hdir.2⟩
    · intro hdir
      exact ⟨h.area.slot.2 hdir.1, ((h.sameGroup hl hdir.1 hdir.head hne).get_eq _).trans hdir.2⟩
  sameFile o hne ho := h.sameGroup hl ho.1 ho.head hne
  sameDir o hne ho := h.sameGroup hl ho.1 ho.head hne

/-- The slot of the old head is unused. -/
theorem type_first (h : v.Released v' a) : v'.type a = EntryType.unusedEntry.code :=
  h.unused 0 (Nat.zero_le _)

theorem not_head (h : v.Released v' a) : ¬ v'.Head a := by
  intro hh
  have ht := h.type_first
  rcases hh with hh | hh | hh <;> rw [ht] at hh <;> exact absurd hh (by decide)

/-- A volume stays well formed when a file or a directory goes. -/
theorem blocks (h : v.Released v' a) (hb : Blocks v nodes lo hi) (hnot : a ∉ nodes) :
    Blocks v' nodes lo hi := by
  have hl := hb.layout
  have hget := h.get_node hl hb.space.toFreeList hnot
  have hgone : ¬ v'.IsFile nodes a := fun hfile => h.not_head hfile.head
  refine hb.edit (h.keeps hl) (h.layout hl hb.geometry) (hb.space.congr h.area h.delBegin hget)
    (fun hfile => absurd hfile hgone) ?_ fun hfile => absurd hfile hgone
  intro b hfree o _ ho hown
  exact hb.apart o ho b hown ((Vol.free_congr hget).1 hfree)

theorem wellFormed (h : v.Released v' a) (hw : WellFormed v nodes lo hi) (hnot : a ∉ nodes) :
    WellFormed v' nodes lo hi :=
  hw.of_keeps (h.keeps hw.layout) (h.blocks hw.toBlocks hnot)
    (fun hfile => absurd hfile.head h.not_head) fun hdir => absurd hdir.head h.not_head

/-- Everything but the old entry is live as before. -/
theorem live_iff (h : v.Released v' a) (hl : Layout v) : v'.Live o s ↔ v.Live o s ∧ o ≠ a := by
  have hkeep : v.Keeps v' [] [] a := h.keeps hl
  constructor
  · intro hlive
    have hne : o ≠ a := fun heq => h.not_head (heq ▸ hlive.head)
    exact ⟨(hkeep.live_iff hne).1 hlive, hne⟩
  · intro ⟨hlive, hne⟩
    exact (hkeep.live_iff hne).2 hlive

end Vol.Released

/-- `sfs_unlink` marks the first file with the path as deleted, or changes
nothing. -/
theorem gives_sfsUnlink {t : Img} {nodes : List Nat} {lo hi : Nat} {q : Buf}
    (hw : WellFormed t.vol nodes lo hi) :
    Gives (sfsUnlink q) t fun r t' =>
      (r = 0 ∧ t'.vol = t.vol) ∨
        (r ≠ 0 ∧ t.vol.First fileKind r (cstr q) ∧ t.vol.Retyped t'.vol r .delFileEntry) := by
  have hg := hw.geometry
  unfold sfsUnlink
  rw [gives_uninit]
  by_cases hcorrect : isCorrectFilepath q = false
  · rw [if_pos hcorrect, gives_setErrno, gives_pure]
    exact Or.inl ⟨rfl, rfl⟩
  · rw [if_neg hcorrect, gives_bind]
    refine (gives_searchName hg hw.layout fileKind_fits hw.fileNamed _).mono
      fun ⟨start, entr₁⟩ t₁ ⟨hvol, h₁⟩ => ?_
    dsimp only at h₁ ⊢
    rcases h₁ with ⟨hz, -⟩ | ⟨hz, hnamed, hbefore, e, he⟩
    · rw [if_pos hz, gives_setErrno, gives_pure]
      exact Or.inl ⟨rfl, hvol⟩
    · have hslot := hnamed.slot
      rw [if_neg hz, he]
      rw [← hvol] at hg hnamed hbefore hslot ⊢
      rw [gives_writeEntry hg.sized hslot.aligned (hg.slot_le hslot), Vol.store_set, Vol.store_load,
        gives_update, gives_setErrno, gives_pure]
      have htype : t₁.vol.Retyped (t₁.vol.set start .entryType EntryType.delFileEntry.code) start
          .delFileEntry := by
        refine ⟨Vol.set_area _ _ _ _, rfl, hslot, fileKind_fits.isHead hnamed.type,
          Vol.get_set_same _ _ _ _, fun k hk => ?_⟩
        exact putLE_outside (by show k < start + 0 ∨ start + 0 + 1 ≤ k; omega)
      exact Or.inr ⟨hz, ⟨hnamed, hbefore⟩, htype.withTime _⟩

/-- The first search of `sfs_rmdir` finds the directory, and the second one finds
nothing: the directory is the only live entry whose path starts with its own. -/
def OnlyUnder (v : Vol) (a : Nat) (s : Buf) : Prop :=
  ∀ o s', v.Live o s' → s <+: s' → o = a

/-- `sfs_rmdir` of the path goes ahead: the path is correct and the only live
entry under it is the directory. -/
def Vol.RemovesDir (v : Vol) (q : Buf) : Prop :=
  isCorrectFilepath q = true ∧ ∃ a, Named v dirKind a (cstr q) ∧ OnlyUnder v a (cstr q)

/-- `sfs_rmdir` frees the slots of a directory under whose path there is
nothing, or changes nothing because there is none. -/
theorem gives_sfsRmdir_iff {t : Img} {lo hi : Nat} {q : Buf} (hw : Indexed t.vol lo hi) :
    Gives (sfsRmdir q) t fun r t' =>
      (r = -1 ∧ t'.vol = t.vol ∧ ¬ t.vol.RemovesDir q) ∨
        (r = 0 ∧ isCorrectFilepath q = true ∧ ∃ a, Named t.vol dirKind a (cstr q) ∧
          OnlyUnder t.vol a (cstr q) ∧ t.vol.Released t'.vol a) := by
  have hg := hw.geometry
  have hl := hw.layout
  have hfile := hw.fileNamed
  have hdir := hw.dirNamed
  unfold sfsRmdir
  rw [gives_uninit, gives_unit]
  by_cases hcorrect : isCorrectFilepath q = false
  · rw [if_pos hcorrect, gives_setErrno, gives_pure]
    exact Or.inl ⟨rfl, rfl, fun h => Bool.noConfusion (hcorrect.symm.trans h.1)⟩
  rw [if_neg hcorrect, gives_bind]
  refine (gives_searchName hg hl dirKind_fits hdir _).mono
    fun ⟨start, entr₁⟩ t₁ ⟨hvol₁, h₁⟩ => ?_
  dsimp only at h₁ ⊢
  rcases h₁ with ⟨hz, hnone⟩ | ⟨hz, hnamed, -, -⟩
  · rw [if_pos hz, gives_setErrno, gives_pure]
    exact Or.inl ⟨rfl, hvol₁, fun ⟨_, a, hnamed, _⟩ => hnone a hnamed⟩
  rw [if_neg hz, gives_bind]
  rw [← hvol₁] at hg hl hfile hdir hnamed ⊢
  have hin := hg.slot_start
  refine (gives_searchFileMask hg hl hfile hdir _ ⟨Nat.le_refl _, Nat.le_of_lt hg.nonempty,
    hg.start_aligned⟩).mono fun ⟨off, entr₂⟩ t₂ ⟨hvol₂, h₂⟩ => ?_
  dsimp only at h₂ ⊢
  by_cases hoff : off = start
  · subst hoff
    rcases h₂ with ⟨hz₂, -⟩ | ⟨-, -, -, hbefore, -⟩
    · exact absurd hz₂ hz
    rw [if_neg (not_not.2 rfl), gives_bind]
    rw [← hvol₂] at hg hl hfile hdir hnamed hbefore ⊢
    have hslot := hnamed.slot
    have hge := hslot.ge
    have hlt := hslot.lt
    have hal := hslot.aligned
    have hal' := hg.aligned
    have hnext : t₂.vol.fs.entryStart ≤ off + 64 ∧ off + 64 ≤ t₂.vol.fs.volIdent ∧
        (off + 64) % 64 = 0 := by omega
    have hsmall := hg.sized.small
    have hinside := hg.inside
    rw [show u64 (off + indexEntrySize) = off + 64 from
      u64_of_lt (by unfold indexEntrySize; omega)]
    refine (gives_searchFileMask hg hl hfile hdir _ hnext).mono fun ⟨off', entr₃⟩ t₃
      ⟨hvol₃, h₃⟩ => ?_
    dsimp only at h₃ ⊢
    rcases h₃ with ⟨hz₃, hafter⟩ | ⟨hz₃, hle, ⟨s, hlive, hpre⟩, -⟩
    · rw [if_neg (not_not.2 hz₃), gives_bind]
      rw [← hvol₃] at hg hl hdir hnamed hbefore hafter ⊢
      refine (gives_searchName hg hl dirKind_fits hdir _).mono
        fun ⟨a, entr₄⟩ t₄ ⟨hvol₄, h₄⟩ => ?_
      dsimp only at h₄ ⊢
      rcases h₄ with ⟨-, hnone⟩ | ⟨-, hnamed', -, e, rfl⟩
      · exact absurd hnamed (hnone off)
      have honly : OnlyUnder t₃.vol off (cstr q) := by
        intro o s hlive hpre
        have hge' := hlive.slot.ge
        have hal'' := hlive.slot.aligned
        by_contra hne
        by_cases hlt' : o < off
        · exact hbefore o s hge' hlt' hlive hpre
        · exact hafter o s (by omega) hlive hpre
      obtain rfl : a = off := honly a _ (Or.inr hnamed') (List.prefix_refl _)
      rw [← hvol₄] at hg hl hnamed honly ⊢
      have hslot := hnamed.slot
      have hhead := dirKind_fits.isHead hnamed.type
      have hend := hl.inside a hslot hhead
      have hin := hg.inside
      unfold Vol.groupEnd at hend
      rw [gives_writeEntry hg.sized hslot.aligned (hg.slot_le hslot), gives_bind]
      rw [Vol.get_load]
      refine (gives_freeEntry (t := { t₄ with
          vol := t₄.vol.store a _
          clean := true }) (hg.sized.congr rfl rfl)
        (Nat.le_add_right_of_le hslot.ge) (show (a + 64) % 64 = 0 by omega) _
        (show a + 64 + 64 * t₄.vol.cont a ≤ t₄.vol.size by omega) _).mono
        fun ⟨ret, entr₅⟩ t₅ ⟨_, hvol₅, _⟩ => ?_
      rw [gives_update, gives_pure]
      refine Or.inr ⟨rfl, Bool.not_eq_false _ ▸ hcorrect, a, hnamed, honly,
        Vol.Released.withTime ?_ _⟩
      rw [hvol₅]
      exact Vol.Released.of_store hslot hhead (fieldAt_setFieldAt_same _ _ _ _) rfl
    · rw [if_pos hz₃, gives_setErrno, gives_pure]
      -- The directory and the entry behind it both have the prefix.
      refine Or.inl ⟨rfl, hvol₃, fun ⟨_, a, _, honly⟩ => ?_⟩
      have heq := honly off _ (Or.inr hnamed) (List.prefix_refl _)
      have heq' := honly off' s hlive hpre
      omega
  · rw [if_pos hoff, gives_setErrno, gives_pure]
    refine Or.inl ⟨rfl, hvol₂, fun ⟨_, a, _, honly⟩ => ?_⟩
    have heq := honly start _ (Or.inr hnamed) (List.prefix_refl _)
    rcases h₂ with ⟨-, hnone⟩ | ⟨-, -, ⟨s, hlive, hpre⟩, -⟩
    · exact hnone start _ hnamed.slot.ge (Or.inr hnamed) (List.prefix_refl _)
    · exact hoff ((honly off s hlive hpre).trans heq.symm)

/-- `sfs_rmdir` frees the slots of a directory under whose path there is
nothing, or changes nothing. -/
theorem gives_sfsRmdir {t : Img} {nodes : List Nat} {lo hi : Nat} {q : Buf}
    (hw : WellFormed t.vol nodes lo hi) :
    Gives (sfsRmdir q) t fun r t' =>
      (r = -1 ∧ t'.vol = t.vol) ∨
        (r = 0 ∧ ∃ a, Named t.vol dirKind a (cstr q) ∧ OnlyUnder t.vol a (cstr q) ∧
          t.vol.Released t'.vol a) :=
  (gives_sfsRmdir_iff hw.indexed).mono fun _ _ h =>
    h.imp (fun h => ⟨h.1, h.2.1⟩) fun h => ⟨h.1, h.2.2⟩

/-- What `sfs_delete` does with a file: its entry is gone, and its blocks are
free. -/
structure Vol.Deleted (v v' : Vol) (nodes nodes' : List Nat) (lo hi a : Nat) : Prop where
  keeps : v.Keeps v' nodes nodes' a
  blocks : Blocks v' nodes' lo hi
  not_file : ¬ v'.IsFile nodes' a
  not_dir : ¬ v'.IsDir a
  free : ∀ b, v'.Free nodes' b ↔ v.Free nodes b ∨ v.FileOwns a b
  sameData : v.SameData v'

/-- The slots of the file at `a` are unused, and then its blocks are put on the
list. -/
inductive Vol.FileFreed (v : Vol) (nodes : List Nat) (a : Nat) : Vol → List Nat → Prop
  | empty {v' : Vol} (released : v.Released v' a) (size : v.get a .size = 0) :
    v.FileFreed nodes a v' nodes
  | blocks {w v' : Vol} {nodes' : List Nat} (released : v.Released w a) (size : v.get a .size ≠ 0)
    (added : w.ListAdded nodes (v.get a .startBlock) (v.get a .endBlock) v' nodes') :
    v.FileFreed nodes a v' nodes'

/-- An empty file has no blocks for the list. -/
theorem Vol.FileFreed.released_of_empty {v v' : Vol} {nodes nodes' : List Nat} {a : Nat}
    (h : v.FileFreed nodes a v' nodes') (hz : v.get a .size = 0) : v.Released v' a := by
  cases h with
  | empty hrel _ => exact hrel
  | blocks _ hsome _ => exact absurd hz hsome

theorem Vol.FileFreed.deleted {v v' : Vol} {nodes nodes' : List Nat} {lo hi a : Nat}
    (h : v.FileFreed nodes a v' nodes') (hw : Blocks v nodes lo hi) (hfile : v.IsFile nodes a) :
    v.Deleted v' nodes nodes' lo hi a := by
  have hl := hw.layout
  have hf := hw.space.toFreeList
  have hnot := hfile.not_mem hf
  cases h with
  | empty hrel hz =>
    have hget := hrel.get_node hl hf hnot
    refine ⟨hrel.keeps hl, hrel.blocks hw hnot, fun h => hrel.not_head h.head,
      fun h => hrel.not_head h.head, fun b => ?_, Vol.SameData.of_frame hrel.frame hfile.1.ge⟩
    rw [Vol.free_congr hget]
    exact (or_iff_left fun h => h.1 hz).symm
  | @blocks w _ _ hrel hsome hadd =>
    have hw₁ := hrel.blocks hw hnot
    have hget := hrel.get_node hl hf hnot
    have hkeep : v.Keeps w nodes nodes a := hrel.keeps hl
    have hdata : v.SameData w := Vol.SameData.of_frame hrel.frame hfile.1.ge
    have hfree : ∀ b, w.Free nodes b ↔ v.Free nodes b := fun b => Vol.free_congr hget
    rcases hw.fileOk a hfile with ⟨hz, -⟩ | ⟨hpos, hlo, hhi, hsize⟩
    · exact absurd hz hsome
    have hblocks := blocksOf_pos hw.geometry.sized.pos hpos
    have hown : ∀ b, v.get a .startBlock ≤ b → b ≤ v.get a .endBlock → v.FileOwns a b :=
      fun b h₁ h₂ => ⟨hsome, h₁, h₂⟩
    have hstep := hadd.step hw₁.geometry hw₁.space hlo (by omega) hhi fun b h₁ h₂ hb =>
      hw.apart a hfile b (hown b h₁ h₂) ((hfree b).1 hb)
    have hkeep' := hkeep.trans (hstep.step.keeps hw₁.layout hw₁.space.toFreeList a)
    have hgone : ¬ w.IsFile nodes a := fun h => hrel.not_head h.head
    refine ⟨hkeep', hw₁.freeStep hstep ?_,
      fun h => hgone ((hstep.step.isFile_iff hw₁.space.toFreeList).1 h),
      fun h => hrel.not_head ((hstep.step.isDir_iff hw₁.space.toFreeList).1 h).head, ?_,
      hdata.trans hrel.area hstep.step.sameData⟩
    · intro b hb o ho hb'
      have hne : o ≠ a := fun heq => hgone (heq ▸ ho)
      have ho' := (hkeep.file o hne).1 ho
      have hb'' := (hkeep.fileOwns_iff hne ho').1 hb'
      rcases hb with hb | ⟨h₁, h₂⟩
      · exact hw.apart o ho' b hb'' ((hfree b).1 hb)
      · exact hne (hw.alone o a ho' hfile b hb'' (hown b h₁ h₂))
    · intro b
      rw [hstep.free b, hfree b]
      exact or_congr_right ⟨fun h => hown b h.1 h.2, fun h => h.2⟩

/-- The end of `sfs_delete`: with the slots of the file unused, there is a slot
for a node, so its blocks are put on the list. -/
theorem gives_deleteBlocks {t : Img} {v : Vol} {nodes : List Nat} {lo hi a : Nat}
    (hw : Blocks v nodes lo hi) (hfile : v.IsFile nodes a) (hrel : v.Released t.vol a)
    (entr : Entry) :
    Gives (delFileListAdd entr (v.get a .startBlock) (v.get a .endBlock)) t fun _ t' =>
      ∃ nodes', v.FileFreed nodes a t'.vol nodes' := by
  have hw₁ := hrel.blocks hw (hfile.not_mem hw.space.toFreeList)
  rcases hw.fileOk a hfile with ⟨hz, hs, he⟩ | ⟨hpos, hlo, hhi, hsize⟩
  · rw [hs, he, delFileListAdd, gives_unit, if_pos ⟨rfl, rfl⟩, gives_pure]
    exact ⟨nodes, .empty hrel hz⟩
  · have hblocks := blocksOf_pos hw.geometry.sized.pos hpos
    have hbound := hw.geometry.block_lt
    have hzero := hw.geometry.lo_pos
    refine (gives_delFileListAdd_added hw₁.geometry hw₁.space (by omega) (by omega)
      (by omega) fun _ => hw₁.space.not_after_of_before (by omega)).mono fun r t' h => ?_
    rcases h with ⟨-, -, nodes', hadd⟩ | ⟨-, -, hrec⟩
    · exact ⟨nodes', .blocks hrel (Nat.ne_of_gt hpos) hadd⟩
    · exact absurd (Or.inl ⟨a, hrel.area.slot.2 hrel.slot, hrel.type_first⟩) hrec

theorem Vol.Deleted.withTime {v v' : Vol} {nodes nodes' : List Nat} {lo hi a : Nat}
    (h : v.Deleted v' nodes nodes' lo hi a) (time : Nat) :
    v.Deleted { v' with fs := { v'.fs with time := time } } nodes nodes' lo hi a := by
  have hsame := SameIndex.withTime v' time
  exact ⟨h.keeps.trans (hsame.keeps a), hsame.blocks h.blocks,
    fun hfile => h.not_file (hsame.isFile_iff.1 hfile),
    fun hdir => h.not_dir (hsame.isDir_iff.1 hdir), h.free, h.sameData⟩

theorem Vol.Deleted.wellFormed {v v' : Vol} {nodes nodes' : List Nat} {lo hi a : Nat}
    (h : v.Deleted v' nodes nodes' lo hi a) (hw : WellFormed v nodes lo hi) :
    WellFormed v' nodes' lo hi :=
  hw.of_keeps h.keeps h.blocks (fun hfile => absurd hfile h.not_file)
    fun hdir => absurd hdir h.not_dir

/-- `sfs_delete` frees the slots of a file, and then hands its blocks to
`del_file_list_add`. -/
theorem gives_freeFile {t : Img} {nodes : List Nat} {lo hi a : Nat} {Q : Vol → Prop}
    (hw : Blocks t.vol nodes lo hi) (hfile : t.vol.IsFile nodes a)
    (hlist : ∀ entr (t₁ : Img), t.vol.Released t₁.vol a →
      Gives (delFileListAdd entr (t.vol.get a .startBlock) (t.vol.get a .endBlock)) t₁ fun _ t' =>
        ∀ time, Q { t'.vol with fs := { t'.vol.fs with time := time } }) :
    Gives (sfsDelete a) t fun r t' => r = 0 ∧ Q t'.vol := by
  have hg := hw.geometry
  have hslot := hfile.1
  have hend := hw.layout.inside a hslot hfile.head
  have hin := hg.inside
  have hal := hslot.aligned
  unfold Vol.groupEnd at hend
  unfold sfsDelete
  rw [gives_uninit, gives_readEntry hg.sized hslot.ge hal (hg.slot_le hslot)]
  dsimp only
  rw [if_neg (by decide), gives_writeEntry (by exact hg.sized) hal (by exact hg.slot_le hslot),
    gives_bind, Vol.get_load, Vol.get_load, Vol.get_load]
  refine (gives_freeEntry (t := { t with
      vol := t.vol.store a _
      clean := true }) (hg.sized.congr rfl rfl)
    (Nat.le_add_right_of_le hslot.ge) (show (a + 64) % 64 = 0 by omega) _
    (show a + 64 + 64 * t.vol.cont a ≤ t.vol.size by omega) _).mono
    fun ⟨_, entr₁⟩ t₁ ⟨_, hvol₁, _⟩ => ?_
  have hrel : t.vol.Released t₁.vol a := by
    rw [hvol₁]
    exact Vol.Released.of_store hslot hfile.head (fieldAt_setFieldAt_same _ _ _ _) rfl
  rw [gives_bind]
  refine (hlist _ t₁ hrel).mono fun _ t₂ h₂ => ?_
  rw [gives_update, gives_setErrno, gives_pure]
  exact ⟨rfl, h₂ _⟩

/-- `sfs_delete` frees the slots of a file and puts its blocks on the list. -/
theorem gives_sfsDelete_freed {t : Img} {nodes : List Nat} {lo hi a : Nat}
    (hw : Blocks t.vol nodes lo hi) (hfile : t.vol.IsFile nodes a) :
    Gives (sfsDelete a) t fun r t' => r = 0 ∧ ∃ w nodes' time, t.vol.FileFreed nodes a w nodes' ∧
      t'.vol = { w with fs := { w.fs with time := time } } := by
  refine gives_freeFile (Q := fun v => ∃ w nodes' time, t.vol.FileFreed nodes a w nodes' ∧
    v = { w with fs := { w.fs with time := time } }) hw hfile fun entr t₁ hrel => ?_
  exact (gives_deleteBlocks hw hfile hrel entr).mono fun _ t' ⟨nodes', h⟩ time =>
    ⟨t'.vol, nodes', time, h, rfl⟩

theorem gives_sfsDelete {t : Img} {nodes : List Nat} {lo hi a : Nat}
    (hw : Blocks t.vol nodes lo hi) (hfile : t.vol.IsFile nodes a) :
    Gives (sfsDelete a) t fun r t' =>
      r = 0 ∧ ∃ nodes', t.vol.Deleted t'.vol nodes nodes' lo hi a := by
  refine (gives_sfsDelete_freed hw hfile).mono fun r t' ⟨hr, w, nodes', time, h, hvol⟩ => ?_
  rw [hvol]
  exact ⟨hr, nodes', (h.deleted hw hfile).withTime time⟩

end Sfs
