import Sfs.Ops
import Sfs.Files

/-!
# Adding names

`sfs_creat` and `sfs_mkdir` look for unused slots in a row, write a head and the
rest of the path behind it.  `Vol.Added` is what that does to a volume: one more
group, in slots that were unused, and nothing else.

* `gives_sfsCreat` and `gives_sfsMkdir` say that the operations add the group or
  fail and change nothing;
* `Added.wellFormed` says that the volume stays well formed.
-/

namespace Sfs

open Lib

/-- A path in a buffer as `new_path` makes it: zero-padded, and short enough for
its slots to be counted in a byte. -/
structure GoodPath (q : Buf) : Prop where
  padded : ZeroPadded q
  short : strlen q < 16256

/-! ## Counting the slots of a name -/

section CountEntry

variable {kind : NameKind} {q : Buf}

/-- A name has one slot, or one more than it needs for its characters. -/
theorem countEntry_cases (hk : kind.Fits) (hq : GoodPath q) :
    (countEntry kind.first (strlen q + 1) = 1 ∧ strlen q + 1 ≤ kind.first) ∨
      (1 < countEntry kind.first (strlen q + 1) ∧ countEntry kind.first (strlen q + 1) < 256 ∧
        kind.name + strlen q + 1 < 64 * countEntry kind.first (strlen q + 1)) := by
  have hends := hk.ends
  have hpos := hk.pos
  have hshort := hq.short
  unfold countEntry indexEntrySize
  by_cases hle : strlen q + 1 ≤ kind.first
  · rw [if_pos hle]
    exact Or.inl ⟨rfl, hle⟩
  · rw [if_neg hle, if_neg (by omega), Nat.mod_eq_of_lt (a := 1) (by decide),
      Nat.mod_eq_of_lt (by omega)]
    exact Or.inr (by omega)

theorem countEntry_pos (hk : kind.Fits) (hq : GoodPath q) :
    0 < countEntry kind.first (strlen q + 1) ∧ countEntry kind.first (strlen q + 1) < 256 := by
  rcases countEntry_cases hk hq with h | h <;> omega

/-- The name and its terminator fit into the slots. -/
theorem countEntry_room (hk : kind.Fits) (hq : GoodPath q) :
    kind.name + strlen q < 64 * countEntry kind.first (strlen q + 1) := by
  have hends := hk.ends
  rcases countEntry_cases hk hq with h | h <;> omega

end CountEntry

/-! ## Writing a name -/

/-- The characters of the name in the head. -/
theorem gives_putName {t : Img} {kind : NameKind} {q : Buf} (hk : kind.Fits) (hq : GoodPath q)
    (entr : Entry) :
    Gives (putName kind entr q (countEntry kind.first (strlen q + 1))) t fun e t' =>
      t' = t ∧ (∀ k, k < kind.name → e k = entr k) ∧ ∀ i, i < kind.first →
        (countEntry kind.first (strlen q + 1) = 1 → i ≤ strlen q) →
          e (kind.name + i) = q.char i := by
  have hbyte : ∀ n i, i < n → memcpy entr kind.name q n (kind.name + i) = q.char i := by
    intro n i hi
    rw [memcpy, blit_add hi, Nat.zero_add]
  have hkeep : ∀ n k, k < kind.name → memcpy entr kind.name q n k = entr k := by
    intro n k hk'
    rw [memcpy, blit_outside (Or.inl hk')]
  unfold putName
  rcases countEntry_cases hk hq with ⟨hone, hle⟩ | ⟨hmany, -⟩
  · rw [if_pos hone, if_neg (by omega), gives_pure]
    exact ⟨rfl, hkeep _, fun i _ hi' => hbyte _ i (by have h := hi' hone; omega)⟩
  · rw [if_neg (by omega), gives_pure]
    exact ⟨rfl, hkeep _, fun i hi _ => hbyte _ i hi⟩

/-- A character of a slot that `strncpy` filled from a zero-padded path. -/
theorem strncpy_char {q : Buf} (hq : ZeroPadded q) (entr : Entry) {i : Nat} (hi : i < 64) :
    strncpy entr 0 q 64 i = q.char i := by
  unfold strncpy
  rw [blit_inside (Nat.zero_le i) (by omega), Nat.sub_zero, Nat.zero_add]
  by_cases hlt : i < strlen q
  · rw [if_pos hlt]
  · rw [if_neg hlt, hq i (by omega)]

/-- The continuation slots hold the rest of the path. -/
theorem gives_writeCont {t : Img} {q : Buf} (hq : ZeroPadded q) (hs : t.vol.Sized) (n : Nat)
    {start : Nat} (hal : start % 64 = 0) (hle : start + 64 * n ≤ t.vol.size) (entr : Entry) :
    Gives (writeCont entr q start n) t fun _ t' =>
      SameArea t.vol t'.vol ∧ t'.vol.fs = t.vol.fs ∧
        (∀ k, k < start ∨ start + 64 * n ≤ k → t'.vol.data k = t.vol.data k) ∧
        ∀ i, i < 64 * n → t'.vol.data (start + i) = q.char i := by
  induction n generalizing t q start entr with
  | zero =>
    rw [writeCont, gives_pure]
    exact ⟨SameArea.refl _, rfl, fun _ _ => rfl, fun i hi => absurd hi (by omega)⟩
  | succ n ih =>
    rw [writeCont, gives_writeEntry hs hal (by omega)]
    refine (ih (hq.drop 64) (t := { t with
        vol := t.vol.store start (strncpy entr 0 q indexEntrySize)
        clean := true }) (hs.congr rfl rfl)
      (show (start + 64) % 64 = 0 by omega)
      (show start + 64 + 64 * n ≤ t.vol.size by omega) _).mono fun _ t' h => ?_
    obtain ⟨harea, hfs, hout, hin⟩ := h
    refine ⟨⟨harea.blockSize, harea.size, harea.entryStart, harea.volIdent⟩, hfs, ?_, ?_⟩
    · intro k hk
      rw [hout k (by omega)]
      exact Vol.store_outside _ (by omega)
    · intro i hi
      by_cases hfirst : i < 64
      · rw [hout (start + i) (by omega)]
        show blit t.vol.data start _ 0 indexEntrySize (start + i) = _
        rw [blit_add (by unfold indexEntrySize; omega), Nat.zero_add]
        exact strncpy_char hq entr hfirst
      · have hbyte := hin (i - 64) (by omega)
        rw [char_drop, show 64 + (i - 64) = i by omega] at hbyte
        rw [← hbyte]
        congr 1
        omega

/-! ## The volume with one more name -/

/-- A group with the name `s`, written at `a` over what was there. -/
structure Vol.Placed (v v' : Vol) (kind : NameKind) (a : Nat) (s : Buf) : Prop where
  area : SameArea v v'
  delBegin : v'.fs.delBegin = v.fs.delBegin
  named : Named v' kind a s
  pieces : ∀ j, 0 < j → j ≤ v'.cont a → ¬ IsType (v'.type (a + 64 * j))
  frame : ∀ k, k < a ∨ v'.groupEnd a ≤ k → v'.data k = v.data k

/-- A new group with the name `s`, in slots that were unused. -/
structure Vol.Added (v v' : Vol) (kind : NameKind) (a : Nat) (s : Buf) : Prop where
  area : SameArea v v'
  delBegin : v'.fs.delBegin = v.fs.delBegin
  unused : v.UnusedRun a (v'.cont a + 1)
  named : Named v' kind a s
  pieces : ∀ j, 0 < j → j ≤ v'.cont a → ¬ IsType (v'.type (a + 64 * j))
  frame : ∀ k, k < a ∨ v'.groupEnd a ≤ k → v'.data k = v.data k

namespace Vol.Placed

/-- In slots that were unused it is a new group. -/
theorem added {v v' : Vol} {kind : NameKind} {a : Nat} {s : Buf} (h : v.Placed v' kind a s)
    (hrun : v.UnusedRun a (v'.cont a + 1)) : v.Added v' kind a s :=
  ⟨h.area, h.delBegin, hrun, h.named, h.pieces, h.frame⟩

/-- The time of the unit is no part of the index. -/
theorem withTime {v v' : Vol} {kind : NameKind} {a : Nat} {s : Buf} (h : v.Placed v' kind a s)
    (time : Nat) : v.Placed { v' with fs := { v'.fs with time := time } } kind a s :=
  ⟨⟨h.area.blockSize, h.area.size, h.area.entryStart, h.area.volIdent⟩, h.delBegin,
    ⟨⟨h.named.str, h.named.room, h.named.tail⟩,
      ⟨h.named.slot.ge, h.named.slot.lt, h.named.slot.aligned⟩, h.named.type⟩, h.pieces, h.frame⟩

/-- The bytes of a head and of the continuation slots make a group. -/
theorem of_bytes {v v' : Vol} {kind : NameKind} {a : Nat} {q : Buf} (hk : kind.Fits)
    (hq : GoodPath q) (hpath : IsPath (cstr q))
    (ha : SameArea v v') (hbegin : v'.fs.delBegin = v.fs.delBegin)
    (hslot : v.Slot a)
    (htype : v'.type a = kind.type.code)
    (hcont : v'.cont a = countEntry kind.first (strlen q + 1) - 1)
    (hhead : ∀ i, i < kind.first → (countEntry kind.first (strlen q + 1) = 1 → i ≤ strlen q) →
      v'.data (a + kind.name + i) = q.char i)
    (hrest : ∀ i, i < 64 * (countEntry kind.first (strlen q + 1) - 1) →
      v'.data (a + 64 + i) = q.char (kind.first + i))
    (hframe : ∀ k, k < a ∨ a + 64 * countEntry kind.first (strlen q + 1) ≤ k →
      v'.data k = v.data k) : v.Placed v' kind a (cstr q) := by
  obtain ⟨hpos, hlt⟩ := countEntry_pos hk hq
  have hroom := countEntry_room hk hq
  have hends := hk.ends
  have hlen := cstr_length q
  generalize hn : countEntry kind.first (strlen q + 1) = n at *
  have hn' : v'.cont a + 1 = n := by omega
  have hcase : n = 1 → strlen q < kind.first := by omega
  -- The name runs on from the head to the slots behind it.
  have hbyte : ∀ i, kind.name + i < 64 * n → (n = 1 → i ≤ strlen q) →
      v'.data (a + kind.name + i) = q.char i := by
    intro i hi hone
    by_cases hfirst : i < kind.first
    · exact hhead i hfirst hone
    · have h := hrest (i - kind.first) (by omega)
      rw [show kind.first + (i - kind.first) = i by omega] at h
      rw [← h]
      congr 1
      omega
  have hpiece : ∀ j, 0 < j → j ≤ v'.cont a →
      v'.data (a + 64 * j) = q.char (64 * j - kind.name) := by
    intro j hj hj'
    rw [← hbyte (64 * j - kind.name) (by omega) (by omega)]
    congr 1
    omega
  refine ⟨ha, hbegin, ⟨⟨⟨?_, cstr_ne_zero q, ?_⟩, ?_, ?_⟩, ha.slot.2 hslot, htype⟩, ?_, ?_⟩
  · intro i hi
    rw [hbyte i (by omega) (by omega), char_eq_cstr q hi]
  · rw [hlen, hbyte _ hroom (fun _ => Nat.le_refl _), char_strlen]
  · rw [hn', hlen]
    exact hroom
  · intro j hj hj' hlt'
    rw [hpiece j hj hj']
    exact hq.padded _ (by omega)
  · intro j hj hj'
    rw [Vol.type_eq, hpiece j hj hj']
    by_cases hin : 64 * j - kind.name < (cstr q).length
    · rw [char_eq_cstr q hin]
      exact not_isType_of_isCorrectChar (hpath _ (List.getElem_mem hin))
    · rw [hq.padded _ (by omega)]
      decide
  · intro k hk'
    rw [groupEnd, hn'] at hk'
    exact hframe k hk'

end Vol.Placed

namespace Vol.Added

variable {v v' : Vol} {kind : NameKind} {nodes : List Nat} {a o lo hi : Nat} {s s' : Buf}

theorem placed (h : v.Added v' kind a s) : v.Placed v' kind a s :=
  ⟨h.area, h.delBegin, h.named, h.pieces, h.frame⟩

theorem slot (h : v.Added v' kind a s) : v.Slot a := (h.unused 0 (Nat.succ_pos _)).1

theorem type_first (h : v.Added v' kind a s) : v.type a = EntryType.unusedEntry.code :=
  (h.unused 0 (Nat.succ_pos _)).2

theorem aligned (h : v.Added v' kind a s) : a % 64 = 0 := h.slot.aligned

/-- A slot of the new group was unused. -/
theorem type_inside (h : v.Added v' kind a s) (ho : o % 64 = 0) (hge : a ≤ o)
    (hlt : o < v'.groupEnd a) : v.type o = EntryType.unusedEntry.code := by
  have hal := h.aligned
  rw [groupEnd] at hlt
  have hu := (h.unused ((o - a) / 64) (by omega)).2
  rwa [show a + 64 * ((o - a) / 64) = o by omega] at hu

/-- A head of before is outside the new group. -/
theorem outside_of_head (h : v.Added v' kind a s) (hoff : v.Slot o) (hh : v.Head o) :
    o < a ∨ v'.groupEnd a ≤ o := by
  by_contra hin
  have hu := h.type_inside hoff.aligned (by omega) (by omega)
  rcases hh with hh | hh | hh <;> rw [hu] at hh <;> exact absurd hh (by decide)

/-- A head of after, other than the new one, is outside the new group. -/
theorem outside_of_head' (h : v.Added v' kind a s) (hoff : v.Slot o) (hh : v'.Head o)
    (hne : o ≠ a) : o < a ∨ v'.groupEnd a ≤ o := by
  by_contra hin
  have hal := h.aligned
  have hal' := hoff.aligned
  rw [groupEnd] at hin
  refine h.pieces ((o - a) / 64) (by omega) (by omega) ?_
  rw [show a + 64 * ((o - a) / 64) = o by omega]
  exact Layout.isType_of_head hh

/-- A group of before keeps its bytes. -/
theorem sameGroup (h : v.Added v' kind a s) (hl : Layout v) (hoff : v.Slot o) (hh : v.Head o) :
    v.SameGroup v' o := by
  refine Vol.SameGroup.of_frame h.frame ?_
  rcases h.outside_of_head hoff hh with hlt | hge
  · refine Or.inl (hl.no_cross hoff hh h.slot ?_ hlt)
    rw [h.type_first]
    exact isType_code _
  · exact Or.inr hge

theorem type_outside (h : v.Added v' kind a s) (ho : o < a ∨ v'.groupEnd a ≤ o) :
    v'.type o = v.type o := Vol.type_congr (h.frame o ho)

theorem layout (h : v.Added v' kind a s) (hk : kind.Fits) (hl : Layout v)
    (hg : Geometry v lo hi) : Layout v' := by
  have hend : a + 64 * (v'.cont a + 1) ≤ v.fs.volIdent := by
    have hlast := (h.unused (v'.cont a) (Nat.lt_succ_self _)).1
    have hlt := hlast.lt
    have hal := hlast.aligned
    have hal' := hg.aligned
    omega
  refine hl.fill hg h.area h.slot (Nat.succ_pos (v'.cont a)) hend (fun j hj => (h.unused j hj).2)
    ?_ (hk.isHead h.named.type) rfl
    fun j hj hj' => h.pieces j hj (Nat.lt_succ_iff.1 hj')
  intro off hoff hout
  have hal := hoff.aligned
  have hal' := h.aligned
  refine ⟨h.type_outside hout, fun _ => Vol.cont_congr (h.frame _ ?_)⟩
  rw [groupEnd]
  omega

/-- The nodes of the list keep their fields. -/
theorem get_node (h : v.Added v' kind a s) (hl : Layout v) (hf : FreeList v nodes) (o : Nat)
    (ho : o ∈ nodes) (f : Field) : v'.get o f = v.get o f :=
  (h.sameGroup hl (hf.slot o ho) (Or.inr (Or.inr (hf.type o ho)))).get_eq f

/-- Every file and directory of before stays. -/
theorem keeps (h : v.Added v' kind a s) (hl : Layout v) : v.Keeps v' nodes nodes a where
  area := h.area
  file o hne := by
    constructor
    · intro hfile
      have hslot := h.area.slot.1 hfile.1
      have hout := h.outside_of_head' hslot hfile.head hne
      rw [IsFile, h.type_outside hout] at hfile
      exact ⟨hslot, hfile.2⟩
    · intro hfile
      refine ⟨h.area.slot.2 hfile.1, ?_⟩
      rw [Vol.type, (h.sameGroup hl hfile.1 hfile.head).get_eq]
      exact hfile.2
  dir o hne := by
    constructor
    · intro hdir
      have hslot := h.area.slot.1 hdir.1
      have hout := h.outside_of_head' hslot hdir.head hne
      rw [IsDir, h.type_outside hout] at hdir
      exact ⟨hslot, hdir.2⟩
    · intro hdir
      exact ⟨h.area.slot.2 hdir.1, ((h.sameGroup hl hdir.1 hdir.head).get_eq _).trans hdir.2⟩
  sameFile _ _ ho := h.sameGroup hl ho.1 ho.head
  sameDir _ _ ho := h.sameGroup hl ho.1 ho.head

/-- The slot of the new head was no head. -/
theorem not_head (h : v.Added v' kind a s) : ¬ v.Head a := by
  intro hh
  have ht := h.type_first
  rcases hh with hh | hh | hh <;> rw [ht] at hh <;> exact absurd hh (by decide)

/-- A volume stays well formed when a directory or an empty file is added. -/
theorem wellFormed (h : v.Added v' kind a s) (hk : kind = fileKind ∨ kind = dirKind)
    (hpath : IsPath s) (hw : WellFormed v nodes lo hi)
    (hempty : kind = fileKind →
      v'.get a .size = 0 ∧ v'.get a .startBlock = 0 ∧ v'.get a .endBlock = 0) :
    WellFormed v' nodes lo hi := by
  have hfits : kind.Fits := by
    rcases hk with rfl | rfl
    · exact fileKind_fits
    · exact dirKind_fits
  have hl := hw.layout
  have hget := h.get_node hl hw.space.toFreeList
  -- The new head is a file only if it was made as one.
  have hkind : v'.IsFile nodes a → kind = fileKind := by
    intro hfile
    rcases hk with rfl | rfl
    · rfl
    · exact absurd hfile (IsDir.not_isFile ⟨h.named.slot, h.named.type⟩)
  have hfree : ∀ b, v'.Free nodes b ↔ v.Free nodes b := fun b => Vol.free_congr hget
  refine hw.of_keeps (h.keeps hl) (hw.toBlocks.edit (h.keeps hl) (h.layout hfits hl hw.geometry)
    (hw.space.congr h.area h.delBegin hget) ?_ ?_ ?_) ?_ ?_
  · intro hfile
    exact Or.inl (hempty (hkind hfile))
  · intro b hb o _ ho hown
    exact hw.apart o ho b hown ((hfree b).1 hb)
  · intro hfile b hb
    exact absurd (hempty (hkind hfile)).1 hb.1
  · intro hfile
    obtain rfl := hkind hfile
    exact ⟨s, h.named.toHasName, hpath⟩
  · intro hdir
    rcases hk with rfl | rfl
    · have hfile : v'.IsFile nodes a := ⟨h.named.slot, Or.inl h.named.type⟩
      exact absurd hfile (IsDir.not_isFile hdir)
    · exact ⟨s, h.named.toHasName, hpath⟩

/-- The live entries of before, and the new one. -/
theorem live_iff (h : v.Added v' kind a s) (hk : kind = fileKind ∨ kind = dirKind)
    (hl : Layout v) :
    v'.Live o s' ↔ v.Live o s' ∨ (o = a ∧ s' = s) := by
  have hnew : v'.Live a s := by
    rcases hk with rfl | rfl
    · exact Or.inl h.named
    · exact Or.inr h.named
  by_cases heq : o = a
  · subst heq
    have hnot : ¬ v.Live o s' := fun hlive => h.not_head hlive.head
    constructor
    · exact fun hlive => Or.inr ⟨rfl, hlive.unique hnew⟩
    · intro hlive
      rcases hlive with hlive | ⟨-, rfl⟩
      · exact absurd hlive hnot
      · exact hnew
  · have hkeep : v.Keeps v' [] [] a := h.keeps hl
    rw [hkeep.live_iff heq]
    exact ⟨Or.inl, fun hlive => hlive.resolve_right fun h' => heq h'.1⟩

/-- The time of the unit is no part of the index. -/
theorem withTime (h : v.Added v' kind a s) (time : Nat) :
    v.Added { v' with fs := { v'.fs with time := time } } kind a s :=
  (h.placed.withTime time).added h.unused

end Vol.Added

/-! ## The operations -/

section Operations

variable {t : Img} {nodes : List Nat} {lo hi : Nat} {kind : NameKind} {q : Buf}

/-- `write_entry`, at the end of a program. -/
theorem gives_store (hs : t.vol.Sized) {off : Nat} (hoff : off % 64 = 0)
    (hle : off + 64 ≤ t.vol.size) (entr : Entry) :
    Gives (writeEntry off entr) t fun _ t' =>
      t' = { t with vol := t.vol.store off entr, clean := true } := by
  rw [gives_tail, gives_writeEntry hs hoff hle, gives_pure]

/-- A head and the slots behind it, written one after the other. -/
theorem gives_placeGroup (hg : Geometry t.vol lo hi) (hk : kind.Fits) (hq : GoodPath q)
    (hpath : IsPath (cstr q)) {a : Nat}
    (hslots : ∀ j, j < countEntry kind.first (strlen q + 1) → t.vol.Slot (a + 64 * j)) {e : Entry}
    (htype : e.get .entryType = kind.type.code)
    (hcont : e.get .contEntries = countEntry kind.first (strlen q + 1) - 1)
    (hname : ∀ i, i < kind.first → (countEntry kind.first (strlen q + 1) = 1 → i ≤ strlen q) →
      e (kind.name + i) = q.char i) :
    Gives (writeEntry a e) t fun _ t₁ =>
      Gives (writeCont e (q.drop kind.first) (a + indexEntrySize)
        (countEntry kind.first (strlen q + 1) - 1)) t₁ fun _ t' =>
          t.vol.Placed t'.vol kind a (cstr q) ∧ (∀ f, t'.vol.get a f = e.get f) ∧
            t'.vol.fs = t.vol.fs := by
  obtain ⟨hpos, -⟩ := countEntry_pos hk hq
  have hends := hk.ends
  have hslot := hslots 0 hpos
  rw [Nat.mul_zero, Nat.add_zero] at hslot
  have hal := hslot.aligned
  have hlast := hg.slot_le (hslots (countEntry kind.first (strlen q + 1) - 1) (by omega))
  have hs := hg.sized
  refine (gives_store hs hal (hg.slot_le hslot) e).mono fun _ t₁ ht₁ => ?_
  subst ht₁
  refine (gives_writeCont (hq.padded.drop kind.first) (t := { t with
    vol := t.vol.store a e
    clean := true }) (hs.congr rfl rfl) (countEntry kind.first (strlen q + 1) - 1)
    (show (a + 64) % 64 = 0 by omega)
    (show a + 64 + 64 * (countEntry kind.first (strlen q + 1) - 1) ≤ t.vol.size by omega) e).mono
    fun _ t' ⟨harea, hfs, hout, hin⟩ => ?_
  have hhead : ∀ i, i < 64 → t'.vol.data (a + i) = e i := by
    intro i hi
    rw [hout _ (by omega)]
    show blit t.vol.data a e 0 indexEntrySize (a + i) = _
    rw [blit_add (by unfold indexEntrySize; omega), Nat.zero_add]
  have hget : ∀ f, t'.vol.get a f = e.get f := fun f =>
    fieldAt_congr fun k hk' => by rw [hhead k (by omega), Nat.zero_add]
  refine ⟨Vol.Placed.of_bytes hk hq hpath ?_ (by rw [hfs]; rfl) hslot ((hget _).trans htype)
    ((hget _).trans hcont) ?_ ?_ ?_, hget, hfs⟩
  · exact ⟨harea.blockSize, harea.size, harea.entryStart, harea.volIdent⟩
  · intro i hi hone
    rw [Nat.add_assoc, hhead _ (by omega)]
    exact hname i hi hone
  · intro i hi
    rw [hin i hi, char_drop]
  · intro k hk'
    rw [hout k (by omega)]
    exact Vol.store_outside _ (by omega)

/-- A head and the slots behind it, written to unused slots. -/
theorem gives_writeGroup (hg : Geometry t.vol lo hi) (hk : kind.Fits) (hq : GoodPath q)
    (hpath : IsPath (cstr q)) {a : Nat}
    (hrun : t.vol.UnusedRun a (countEntry kind.first (strlen q + 1))) {e : Entry}
    (htype : e.get .entryType = kind.type.code)
    (hcont : e.get .contEntries = countEntry kind.first (strlen q + 1) - 1)
    (hname : ∀ i, i < kind.first → (countEntry kind.first (strlen q + 1) = 1 → i ≤ strlen q) →
      e (kind.name + i) = q.char i) :
    Gives (writeEntry a e) t fun _ t₁ =>
      Gives (writeCont e (q.drop kind.first) (a + indexEntrySize)
        (countEntry kind.first (strlen q + 1) - 1)) t₁ fun _ t' =>
          t.vol.Added t'.vol kind a (cstr q) ∧ (∀ f, t'.vol.get a f = e.get f) ∧
            t'.vol.fs = t.vol.fs := by
  obtain ⟨hpos, -⟩ := countEntry_pos hk hq
  refine (gives_placeGroup hg hk hq hpath (fun j hj => (hrun j hj).1) htype hcont hname).mono
    fun _ _ h => h.mono fun _ t' ⟨hplaced, hget, hfs⟩ => ⟨hplaced.added ?_, hget, hfs⟩
  have hcont' : t'.vol.cont a = countEntry kind.first (strlen q + 1) - 1 := (hget _).trans hcont
  rwa [hcont', Nat.sub_add_cancel hpos]

/-- What creating an entry does: one more group at the first place that has room
for it, or nothing. -/
def Creates (v v' : Vol) (kind : NameKind) (q : Buf) (ret : Int) : Prop :=
  (ret = -1 ∧ v' = v) ∨
    (ret = 0 ∧ ∃ a, v.Added v' kind a (cstr q) ∧
      v.UnusedRun a (countEntry kind.first (strlen q + 1)) ∧
      (∀ o, o < a → ¬ v.UnusedRun o (countEntry kind.first (strlen q + 1))) ∧
      (kind = fileKind →
        v'.get a .size = 0 ∧ v'.get a .startBlock = 0 ∧ v'.get a .endBlock = 0))

/-- `sfs_mkdir` of the path goes ahead: the path is correct, its directories are
there, no directory has it yet, and there are slots for it. -/
structure Vol.MakesDir (v : Vol) (q : Buf) : Prop where
  correct : isCorrectDirpath q = true
  dirs : v.HasDirs (cstr q)
  unused : ∀ o, ¬ Named v dirKind o (cstr q)
  slots : ∃ a, v.UnusedRun a (countEntry dirKind.first (strlen q + 1))

/-- The end of `sfs_creat`. -/
theorem gives_creatEntry (hg : Geometry t.vol lo hi) (hq : GoodPath q) (hpath : IsPath (cstr q))
    (entr : Entry) :
    Gives (creatEntry q entr) t fun r t' => Creates t.vol t'.vol fileKind q r := by
  obtain ⟨hpos, hlt⟩ := countEntry_pos fileKind_fits hq
  unfold creatEntry
  dsimp only
  rw [gives_bind]
  refine (gives_allocEntry hg.area hg.start_pos hpos (countEntry_le _ _) _).mono
    fun ⟨a, entr₁⟩ t₁ ⟨hvol, h₁⟩ => ?_
  dsimp only at h₁ ⊢
  rcases h₁ with ⟨hz, -⟩ | ⟨hz, hrun, hfirst⟩
  · rw [if_pos hz, gives_setErrno, gives_pure]
    exact Or.inl ⟨rfl, hvol⟩
  · rw [if_neg hz, gives_bind]
    rw [← hvol] at hg hrun hfirst ⊢
    refine (gives_putName fileKind_fits hq entr₁).mono fun e t₂ ⟨ht₂, _, hname⟩ => ?_
    subst ht₂
    rw [gives_getTime, gives_bind]
    refine (gives_writeGroup (t := { t₂ with ticks := t₂.ticks + 1 }) hg fileKind_fits hq hpath hrun
      ?_ ?_ ?_).mono fun _ t₃ h₃ => ?_
    · simp (disch := decide) only [fieldAt_setFieldAt_field, fieldAt_setFieldAt_same]
      rfl
    · simp (disch := decide) only [fieldAt_setFieldAt_field, fieldAt_setFieldAt_same]
      exact Nat.mod_eq_of_lt (Nat.lt_of_le_of_lt (Nat.sub_le _ _) hlt)
    · intro i hi hone
      have hout : 34 ≤ fileKind.name + i := Nat.le_add_right 34 i
      rw [← hname i hi hone]
      simp only [Entry.set]
      rw [setFieldAt_outside (by omega), setFieldAt_outside (by omega),
        setFieldAt_outside (by omega), setFieldAt_outside (by omega),
        setFieldAt_outside (by omega), setFieldAt_outside (by omega)]
    · rw [gives_bind]
      refine h₃.mono fun _ t₄ ⟨hadd, hget, hfs⟩ => ?_
      rw [gives_update, gives_setErrno, gives_pure]
      refine Or.inr ⟨rfl, a, hadd.withTime _, hrun, hfirst, fun _ => ?_⟩
      have hfield : ∀ f, Vol.get t₄.updated.vol a f = t₄.vol.get a f := fun _ => rfl
      rw [hfield, hfield, hfield, hget, hget, hget]
      simp (disch := decide) only [fieldAt_setFieldAt_field, fieldAt_setFieldAt_same]
      exact ⟨rfl, rfl, rfl⟩

/-- The end of `sfs_mkdir`, which fails only for want of slots. -/
theorem gives_mkdirEntry (hg : Geometry t.vol lo hi) (hq : GoodPath q) (hpath : IsPath (cstr q))
    (entr : Entry) :
    Gives (mkdirEntry q entr) t fun r t' => Creates t.vol t'.vol dirKind q r ∧
      (r = -1 → t'.errno = eNOSPC ∧
        ∀ o, ¬ t.vol.UnusedRun o (countEntry dirKind.first (strlen q + 1))) := by
  obtain ⟨hpos, hlt⟩ := countEntry_pos dirKind_fits hq
  unfold mkdirEntry
  dsimp only
  rw [gives_bind]
  refine (gives_allocEntry hg.area hg.start_pos hpos (countEntry_le _ _) _).mono
    fun ⟨a, entr₁⟩ t₁ ⟨hvol, h₁⟩ => ?_
  dsimp only at h₁ ⊢
  rcases h₁ with ⟨hz, hnone⟩ | ⟨hz, hrun, hfirst⟩
  · rw [if_pos hz, gives_setErrno, gives_pure]
    exact ⟨Or.inl ⟨rfl, hvol⟩, fun _ => ⟨rfl, hnone⟩⟩
  · rw [if_neg hz, gives_bind]
    rw [← hvol] at hg hrun hfirst ⊢
    refine (gives_putName dirKind_fits hq entr₁).mono fun e t₂ ⟨ht₂, _, hname⟩ => ?_
    subst ht₂
    rw [gives_getTime, gives_bind]
    refine (gives_writeGroup (t := { t₂ with ticks := t₂.ticks + 1 }) hg dirKind_fits hq hpath hrun
      ?_ ?_ ?_).mono fun _ t₃ h₃ => ?_
    · simp (disch := decide) only [fieldAt_setFieldAt_field, fieldAt_setFieldAt_same]
      rfl
    · simp (disch := decide) only [fieldAt_setFieldAt_same]
      exact Nat.mod_eq_of_lt (Nat.lt_of_le_of_lt (Nat.sub_le _ _) hlt)
    · intro i hi hone
      -- The fields of a directory end where its name starts.
      have hout : ∀ (m : Mem) (f : Field) (x : Nat), f.pos + f.width ≤ 10 →
          setFieldAt m 0 f x (dirKind.name + i) = m (dirKind.name + i) := by
        intro m f x hf
        exact putLE_outside (Or.inr (by show 0 + f.pos + f.width ≤ 10 + i; omega))
      rw [← hname i hi hone]
      simp only [Entry.set]
      rw [hout _ _ _ (by decide), hout _ _ _ (by decide), hout _ _ _ (by decide)]
    · rw [gives_bind]
      refine h₃.mono fun _ t₄ ⟨hadd, _, _⟩ => ?_
      rw [gives_update, gives_setErrno, gives_pure]
      have hret : (0 : Int) ≠ -1 := by decide
      exact ⟨Or.inr ⟨rfl, a, hadd.withTime _, hrun, hfirst, fun h => absurd h (by decide)⟩,
        fun h => absurd h hret⟩

/-- A correct string has the characters of a path, as far as it is checked. -/
theorem isPath_of_isCorrectString {n : Nat} (hlen : strlen q ≤ n)
    (h : isCorrectString q n = true) : IsPath (cstr q) := by
  induction q generalizing n with
  | nil => exact fun _ hc => absurd hc List.not_mem_nil
  | cons c q ih =>
    rw [cstr]
    by_cases hz : c = 0
    · rw [if_pos hz]
      exact fun _ hc => absurd hc List.not_mem_nil
    · rw [strlen, if_neg hz] at hlen
      cases n with
      | zero => omega
      | succ n =>
        rw [isCorrectString, if_neg hz] at h
        rw [if_neg hz]
        by_cases hchar : isCorrectChar c = true
        · rw [if_pos hchar] at h
          intro d hd
          rcases List.mem_cons.1 hd with rfl | hd
          · exact hchar
          · exact ih (by omega) h d hd
        · rw [if_neg hchar] at h
          exact Bool.noConfusion h

theorem GoodPath.isPath_of_filepath (hq : GoodPath q) (h : isCorrectFilepath q = true) :
    IsPath (cstr q) :=
  isPath_of_isCorrectString (by have hs := hq.short; unfold maxFilePath; omega) h

theorem GoodPath.isPath_of_dirpath (hq : GoodPath q) (h : isCorrectDirpath q = true) :
    IsPath (cstr q) :=
  isPath_of_isCorrectString (by have hs := hq.short; unfold maxDirPath; omega) h

/-- The checks that `sfs_creat` and `sfs_rename` make before they look for slots:
the directories of the path are there, and nothing has the path. -/
theorem gives_probe {α : Type} {Q : α × Buf → Img → Prop} (fail : α)
    (go : Buf → Entry → SfsM (α × Buf)) (hw : Indexed t.vol lo hi)
    (hfail : ¬ (t.vol.FindsDirs (cstr q) ∧ ∀ o, ¬ t.vol.Live o (cstr q)) →
      ∀ t' : Img, t'.vol = t.vol → Q (fail, q) t')
    (hgo : t.vol.FindsDirs (cstr q) → (∀ o, ¬ t.vol.Live o (cstr q)) →
      ∀ entr (t' : Img), t'.vol = t.vol → Gives (go q entr) t' Q) (entr : Entry) :
    Gives (checkDirs q entr >>= fun x =>
      if x.1 ≠ 0 then setErrno eEXIST >>= fun _ => pure (fail, x.2.1)
      else searchDir x.2.1 x.2.2 >>= fun y =>
        if y.1 ≠ 0 then setErrno eEXIST >>= fun _ => pure (fail, x.2.1)
        else searchFile x.2.1 y.2 >>= fun z =>
          if z.1 ≠ 0 then setErrno eEXIST >>= fun _ => pure (fail, x.2.1) else
            go x.2.1 z.2) t Q := by
  have hg := hw.geometry
  have hl := hw.layout
  have hfile := hw.fileNamed
  have hdir := hw.dirNamed
  have hstop : ¬ (t.vol.FindsDirs (cstr q) ∧ ∀ o, ¬ t.vol.Live o (cstr q)) →
      ∀ t' : Img, t'.vol = t.vol →
        Gives (setErrno eEXIST >>= fun _ => (pure (fail, q) : SfsM (α × Buf))) t' Q := by
    intro hnot t' hvol
    rw [gives_setErrno, gives_pure]
    exact hfail hnot _ hvol
  rw [gives_bind]
  refine (gives_checkDirs_iff hg hl hdir entr).mono
    fun ⟨ret, p, entr₁⟩ t₁ ⟨hvol₁, hp, hdirs⟩ => ?_
  dsimp only at hp hdirs ⊢
  subst hp
  by_cases hret : ret = 0
  · rw [if_neg (not_not.2 hret), gives_bind]
    rw [← hvol₁] at hg hl hfile hdir hdirs hgo hstop
    refine (gives_searchName hg hl dirKind_fits hdir entr₁).mono
      fun ⟨start, entr₂⟩ t₂ ⟨hvol₂, h₂⟩ => ?_
    dsimp only at h₂ ⊢
    rcases h₂ with ⟨hz, hnodir⟩ | ⟨hz, hfound, -⟩
    · rw [if_neg (not_not.2 hz), gives_bind]
      rw [← hvol₂] at hg hl hfile hdir hdirs hnodir hgo hstop
      refine (gives_searchName hg hl fileKind_fits hfile entr₂).mono
        fun ⟨start', entr₃⟩ t₃ ⟨hvol₃, h₃⟩ => ?_
      dsimp only at h₃ ⊢
      rcases h₃ with ⟨hz', hnofile⟩ | ⟨hz', hfound, -⟩
      · rw [if_neg (not_not.2 hz')]
        exact hgo (hdirs.1 hret) (fun o h => h.elim (hnofile o) (hnodir o)) entr₃ t₃ hvol₃
      · rw [if_pos hz']
        exact hstop (fun h => h.2 _ (Or.inl hfound)) t₃ hvol₃
    · rw [if_pos hz]
      exact hstop (fun h => h.2 _ (Or.inr hfound)) t₂ hvol₂
  · rw [if_pos hret]
    exact hstop (fun h => hret (hdirs.2 h.1)) t₁ hvol₁

/-- `sfs_creat` adds an empty file under a path that names nothing yet and whose
directories are all there, or changes nothing. -/
theorem gives_sfsCreat (hw : Indexed t.vol lo hi) (hq : GoodPath q) :
    Gives (sfsCreat q) t fun r t' => r.2 = q ∧
      Creates t.vol t'.vol fileKind q r.1 ∧
      (r.1 = 0 → IsPath (cstr q) ∧ t.vol.HasDirs (cstr q) ∧ ∀ o, ¬ t.vol.Live o (cstr q)) := by
  have hfail : (-1 : Int) ≠ 0 := by decide
  unfold sfsCreat
  rw [gives_uninit]
  by_cases hcorrect : isCorrectFilepath q = false
  · rw [if_pos hcorrect, gives_setErrno, gives_pure]
    exact ⟨rfl, Or.inl ⟨rfl, rfl⟩, fun h => absurd h hfail⟩
  · have hpath := hq.isPath_of_filepath (Bool.not_eq_false _ ▸ hcorrect)
    rw [if_neg hcorrect]
    refine gives_probe (-1) (fun p entr => creatEntry p entr >>= fun ret => pure (ret, p)) hw
      (fun _ t' hvol => ?_) (fun hdirs hnone entr t' hvol => ?_) _
    · exact ⟨rfl, Or.inl ⟨rfl, hvol⟩, fun h => absurd h hfail⟩
    · have hg := hw.geometry
      rw [← hvol] at hg hdirs hnone ⊢
      rw [gives_bind]
      refine (gives_creatEntry hg hq hpath entr).mono fun r t'' h => ?_
      rw [gives_pure]
      exact ⟨rfl, h, fun _ => ⟨hpath, hdirs.hasDirs, hnone⟩⟩

/-- `sfs_mkdir` adds a directory if and only if the path is correct, its
directories are found, no directory has it yet, and there are slots for it; else
it says why not. -/
theorem gives_sfsMkdir_iff (hw : Indexed t.vol lo hi) (hq : GoodPath q) :
    Gives (sfsMkdir q) t fun r t' => r.2 = q ∧
      Creates t.vol t'.vol dirKind q r.1 ∧
      (r.1 = 0 ↔ t.vol.MakesDir q ∧ t.vol.FindsDirs (cstr q)) ∧ (r.1 = -1 → t'.errno ≠ 0) := by
  have hg := hw.geometry
  have hl := hw.layout
  have hdir := hw.dirNamed
  have hfail : (-1 : Int) ≠ 0 := by decide
  have hinval : eINVAL ≠ 0 := by decide
  have hexist : eEXIST ≠ 0 := by decide
  unfold sfsMkdir
  rw [gives_uninit]
  by_cases hcorrect : isCorrectDirpath q = false
  · rw [if_pos hcorrect, gives_setErrno, gives_pure]
    refine ⟨rfl, Or.inl ⟨rfl, rfl⟩, iff_of_false hfail fun h => ?_, fun _ => hinval⟩
    exact Bool.noConfusion (hcorrect.symm.trans h.1.correct)
  · have hgood : isCorrectDirpath q = true := Bool.not_eq_false _ ▸ hcorrect
    have hpath := hq.isPath_of_dirpath hgood
    rw [if_neg hcorrect, gives_bind]
    refine (gives_checkDirs_iff hg hl hdir _).mono fun ⟨ret, p, entr₁⟩ t₁ ⟨hvol₁, hp, hdirs⟩ => ?_
    dsimp only at hp hdirs ⊢
    subst hp
    by_cases hret : ret = 0
    · rw [if_neg (not_not.2 hret), gives_bind]
      rw [← hvol₁] at hg hl hdir hdirs ⊢
      refine (gives_searchName hg hl dirKind_fits hdir entr₁).mono
        fun ⟨start, entr₂⟩ t₂ ⟨hvol₂, h₂⟩ => ?_
      dsimp only at h₂ ⊢
      rcases h₂ with ⟨hz, hnodir⟩ | ⟨hz, hfound, -⟩
      · rw [if_neg (not_not.2 hz), gives_bind]
        rw [← hvol₂] at hg hdirs hnodir ⊢
        refine (gives_mkdirEntry hg hq hpath entr₂).mono fun r t₃ ⟨h₃, hspace⟩ => ?_
        have hfinds := hdirs.1 hret
        rw [gives_pure]
        rcases h₃ with ⟨rfl, hvol₃⟩ | ⟨rfl, a, hadd⟩
        · obtain ⟨herrno, hnone⟩ := hspace rfl
          refine ⟨rfl, Or.inl ⟨rfl, hvol₃⟩, iff_of_false hfail fun h => ?_, fun _ => ?_⟩
          · obtain ⟨a, hrun⟩ := h.1.slots
            exact hnone a hrun
          · rw [herrno]
            decide
        · refine ⟨rfl, Or.inr ⟨rfl, a, hadd⟩, iff_of_true rfl ⟨?_, hfinds⟩, fun h => ?_⟩
          · exact ⟨hgood, hfinds.hasDirs, hnodir, a, hadd.2.1⟩
          · exact absurd h.symm hfail
      · rw [if_pos hz, gives_setErrno, gives_pure]
        exact ⟨rfl, Or.inl ⟨rfl, hvol₂⟩, iff_of_false hfail fun h => h.1.unused _ hfound,
          fun _ => hexist⟩
    · rw [if_pos hret, gives_setErrno, gives_pure]
      exact ⟨rfl, Or.inl ⟨rfl, hvol₁⟩, iff_of_false hfail fun h => hret (hdirs.2 h.2),
        fun _ => hexist⟩

/-- `sfs_mkdir` adds a directory under a path that names no directory yet and
whose directories are all there, or changes nothing. -/
theorem gives_sfsMkdir (hw : Indexed t.vol lo hi) (hq : GoodPath q) :
    Gives (sfsMkdir q) t fun r t' => r.2 = q ∧
      Creates t.vol t'.vol dirKind q r.1 ∧ (r.1 = 0 → IsPath (cstr q) ∧ t.vol.MakesDir q) :=
  (gives_sfsMkdir_iff hw hq).mono fun _ _ ⟨hpath, hcreates, hiff, _⟩ =>
    ⟨hpath, hcreates, fun hr =>
      have hmakes := (hiff.1 hr).1
      ⟨hq.isPath_of_dirpath hmakes.correct, hmakes⟩⟩

end Operations

end Sfs
