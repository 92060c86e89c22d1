import Sfs.Search
import Sfs.Scan

/-!
# Names in the index

The name of a file or directory starts in its head and continues in the slots
behind it.  The name field ends with the head, so on the disk the characters
stand in one run, and `HasName` can speak of the run as one string.

* `matchHead_spec` and `gives_matchCont` are the comparison of a name with a
  path, over the head and over the continuation slots;
* `gives_readNameEntry` says that `read_file_entry` and `read_dir_entry` accept
  exactly the path itself;
* `gives_searchName` says that `search_file` and `search_dir` find the first
  entry with the path, and nothing else.
-/

namespace Sfs

open Lib

/-- The entry at an offset has the name `s`, with the first byte of every slot
behind the terminator zero. -/
structure HasName (v : Vol) (kind : NameKind) (off : Nat) (s : Buf) : Prop where
  str : HoldsStr v.data (off + kind.name) s
  room : kind.name + s.length < 64 * (v.cont off + 1)
  tail : ∀ j, 0 < j → j ≤ v.cont off → kind.name + s.length < 64 * j → v.data (off + 64 * j) = 0

/-- A live entry: a file or a directory with its path. -/
structure Named (v : Vol) (kind : NameKind) (off : Nat) (s : Buf) : Prop
    extends HasName v kind off s where
  slot : v.Slot off
  type : v.type off = kind.type.code

/-- The name field ends with the head. -/
structure NameKind.Fits (kind : NameKind) : Prop where
  ends : kind.name + kind.first = 64
  pos : 0 < kind.first
  head : kind.type.code = EntryType.dirEntry.code ∨ kind.type.code = EntryType.fileEntry.code

theorem fileKind_fits : fileKind.Fits := ⟨rfl, by decide, Or.inr rfl⟩

theorem dirKind_fits : dirKind.Fits := ⟨rfl, by decide, Or.inl rfl⟩

theorem NameKind.Fits.isHead {kind : NameKind} (hk : kind.Fits) {v : Vol} {off : Nat}
    (h : v.type off = kind.type.code) : v.Head off := by
  rcases hk.head with hd | hf
  · exact Or.inl (h.trans hd)
  · exact Or.inr (Or.inl (h.trans hf))

theorem HasName.unique {v : Vol} {kind : NameKind} {off : Nat} {s s' : Buf}
    (h : HasName v kind off s) (h' : HasName v kind off s') : s = s' := h.str.unique h'.str

/-- The bytes of a loaded slot. -/
theorem load_byte {v : Vol} {off i : Nat} {entr : Entry} (hi : i < 64) :
    v.load off entr i = v.data (off + i) := by
  unfold Vol.load
  rw [blit_inside (Nat.zero_le i) (by unfold indexEntrySize; omega), Nat.sub_zero]

/-! ## The head -/

/-- Where the comparison with the head ends. -/
theorem matchHead_spec {m : Mem} {p : Nat} {q : Buf} {entr : Entry} {name first : Nat}
    (hentr : ∀ i, i < first → entr (name + i) = m (p + i)) (c k : Nat) (hk : k + c = first)
    (hagree : Agrees m p q.char k) :
    (matchHead entr (name + k) (q.drop k) c = none ∧
      ∃ k', k' < first ∧ Agrees m p q.char k' ∧ m (p + k') ≠ q.char k' ∧ q.char k' ≠ 0) ∨
    (∃ k', k' ≤ first ∧ Agrees m p q.char k' ∧ (k' = first ∨ q.char k' = 0) ∧
      matchHead entr (name + k) (q.drop k) c = some (name + k', q.drop k', first - k')) := by
  induction c generalizing k with
  | zero =>
    refine Or.inr ⟨k, by omega, hagree, Or.inl (by omega), ?_⟩
    rw [matchHead, show first - k = 0 by omega]
  | succ c ih =>
    rw [matchHead, char_drop, Nat.add_zero]
    by_cases hz : q.char k = 0
    · rw [if_pos hz]
      refine Or.inr ⟨k, by omega, hagree, Or.inr hz, ?_⟩
      rw [show first - k = c + 1 by omega]
    · rw [if_neg hz, hentr k (by omega)]
      by_cases hne : m (p + k) = q.char k
      · rw [if_neg (not_not.2 hne), Nat.add_assoc, List.drop_drop]
        exact ih (k + 1) (by omega) (hagree.succ hne hz)
      · rw [if_pos hne]
        exact Or.inl ⟨rfl, k, by omega, hagree, hne, hz⟩

/-! ## The continuation slots -/

section Match

variable {t : Img} {kind : NameKind} {off lo hi : Nat} {s q : Buf}

/-- A continuation slot, or the slot behind the last one, is on the device. -/
theorem Layout.piece_inside (hl : Layout t.vol) (hg : Geometry t.vol lo hi) (hoff : t.vol.Slot off)
    (hh : t.vol.Head off) {j : Nat} (hj : j ≤ t.vol.cont off + 1) :
    (off + 64 * j) % 64 = 0 ∧ off + 64 * j + 64 ≤ t.vol.size := by
  have hin := hl.inside off hoff hh
  have hend := hg.inside
  have hal := hoff.aligned
  rw [Vol.groupEnd] at hin
  omega

/-- Where one of the strings ends or they differ, the two characters tell
whether the name is the path. -/
theorem HasName.eq_iff_of_stop {v : Vol} (hname : HasName v kind off s) {k : Nat} {ch : UInt8}
    (hagree : Agrees v.data (off + kind.name) q.char k) (hch : q.char k = ch)
    (hend : v.data (off + kind.name + k) = 0 ∨ ch = 0 ∨ v.data (off + kind.name + k) ≠ ch) :
    (v.data (off + kind.name + k) == ch) = true ↔ s = cstr q := by
  rw [beq_iff_eq, ← hch]
  constructor
  · intro heq
    have hzero : q.char k = 0 := by
      rcases hend with h | h | h
      · rw [← heq, h]
      · rw [hch, h]
      · exact absurd (heq.trans hch) h
    exact hagree.eq hname.str (holdsStr_char q) (heq.trans hzero) hzero
  · intro heq
    by_contra hne
    exact hagree.ne hname.str (holdsStr_char q) hne heq

/-- The comparison over the continuation slots tells whether the name is the
path. -/
theorem gives_matchCont (hg : Geometry t.vol lo hi) (hl : Layout t.vol)
    (hoff : t.vol.Slot off) (hh : t.vol.Head off) (hname : HasName t.vol kind off s) {rest : Buf}
    {k j : Nat} (cur : Nat) {entr : Entry} (hrest : q.drop k = rest)
    (hpos : kind.name + k = 64 * j + cur)
    (hcur : cur < 64) (hj' : j ≤ t.vol.cont off + 1)
    (hentr : ∀ i, i < 64 → entr i = t.vol.data (off + 64 * j + i))
    (hagree : Agrees t.vol.data (off + kind.name) q.char k) :
    Gives (matchCont rest entr (off + 64 * j) cur (64 - cur) (t.vol.cont off + 1 - j)) t
      fun r t' => t'.vol = t.vol ∧ (r.1 = true ↔ s = cstr q) := by
  have hbyte : entr cur = t.vol.data (off + kind.name + k) := by
    rw [hentr cur hcur]
    congr 1
    omega
  induction rest generalizing t k j cur entr with
  | nil =>
    have hnil : q.char k = 0 := by
      have h := char_drop q k 0
      rw [hrest] at h
      exact h.symm
    rw [matchCont, gives_pure, hbyte]
    exact ⟨rfl, hname.eq_iff_of_stop hagree hnil (Or.inr (Or.inl rfl))⟩
  | cons ch rest ih =>
    have hch : q.char k = ch := by
      have h := char_drop q k 0
      rw [hrest] at h
      exact h.symm
    rw [matchCont]
    by_cases hend : entr cur = 0 ∨ ch = 0 ∨ t.vol.cont off + 1 - j = 0
    · rw [if_pos hend, gives_pure, hbyte]
      refine ⟨rfl, hname.eq_iff_of_stop hagree hch ?_⟩
      rcases hend with h | h | h
      · exact Or.inl (hbyte ▸ h)
      · exact Or.inr (Or.inl h)
      · -- The name ends before the slots do.
        exfalso
        have hle := hagree.le_left hname.str
        have hroom := hname.room
        omega
    · obtain ⟨-, hch0, hce⟩ : entr cur ≠ 0 ∧ ch ≠ 0 ∧ t.vol.cont off + 1 - j ≠ 0 :=
        ⟨fun h => hend (Or.inl h), fun h => hend (Or.inr (Or.inl h)),
          fun h => hend (Or.inr (Or.inr h))⟩
      rw [if_neg hend]
      by_cases hne : entr cur = ch
      · rw [if_neg (not_not.2 hne)]
        have hagree' : Agrees t.vol.data (off + kind.name) q.char (k + 1) :=
          hagree.succ (by rw [← hbyte, hne, hch]) (by rw [hch]; exact hch0)
        have hdrop : q.drop (k + 1) = rest := by
          rw [← List.drop_drop, hrest]
          rfl
        by_cases hlast : 64 - cur - 1 = 0
        · -- The next slot.
          obtain ⟨hal, hin⟩ := hl.piece_inside hg hoff hh (show j + 1 ≤ t.vol.cont off + 1 by omega)
          rw [if_pos hlast, show off + 64 * j + indexEntrySize = off + 64 * (j + 1) by
            unfold indexEntrySize; omega,
            gives_readEntry hg.sized (Nat.le_add_right_of_le hoff.ge) hal hin]
          dsimp only
          rw [if_neg (by decide), Nat.sub_sub]
          refine ih (t := { t with clean := false }) hg hl hoff hh hname 0 hdrop
            (show kind.name + (k + 1) = 64 * (j + 1) + 0 by omega) (by decide)
            (show j + 1 ≤ t.vol.cont off + 1 by omega) ?_ hagree' ?_
          · exact fun i hi => load_byte hi
          · show t.vol.load (off + 64 * (j + 1)) entr 0 = _
            rw [load_byte (by decide)]
            congr 1
            omega
        · rw [if_neg hlast, Nat.sub_sub]
          refine ih hg hl hoff hh hname (cur + 1) hdrop
            (show kind.name + (k + 1) = 64 * j + (cur + 1) by omega) (by omega) hj' hentr hagree' ?_
          rw [hentr (cur + 1) (by omega)]
          congr 1
          omega
      · rw [if_pos hne, gives_pure]
        have h := hname.eq_iff_of_stop hagree hch (Or.inr (Or.inr (hbyte ▸ hne)))
        rw [← hbyte, beq_eq_false_iff_ne.2 hne] at h
        exact ⟨rfl, h⟩

/-! ## The whole name -/

/-- Every entry of the kind has a name. -/
def Vol.AllNamed (v : Vol) (kind : NameKind) : Prop :=
  ∀ off, v.Slot off → v.type off = kind.type.code → ∃ s, HasName v kind off s

/-- The index is split into groups, and its files and directories have names. -/
structure Indexed (v : Vol) (lo hi : Nat) : Prop where
  geometry : Geometry v lo hi
  layout : Layout v
  fileNamed : v.AllNamed fileKind
  dirNamed : v.AllNamed dirKind

/-- `read_file_entry` and `read_dir_entry` accept an entry of their kind whose
name is the path, and leave its head in the buffer. -/
theorem gives_readNameEntry (hg : Geometry t.vol lo hi) (hl : Layout t.vol) (hk : kind.Fits)
    (hall : t.vol.AllNamed kind) (hoff : t.vol.Slot off) (entr : Entry) :
    Gives (readNameEntry kind (t.vol.load off entr) off q) t fun r t' =>
      t'.vol = t.vol ∧ r.2.2 = q ∧
        ((r.1 ≠ 0 ∧ Named t.vol kind off (cstr q) ∧ ∃ e, r.2.1 = t.vol.load off e) ∨
          (r.1 = 0 ∧ ¬ Named t.vol kind off (cstr q))) := by
  unfold readNameEntry
  dsimp only
  rw [Vol.get_load, Vol.get_load]
  by_cases htype : t.vol.type off = kind.type.code
  · rw [if_neg (not_not.2 htype)]
    obtain ⟨s, hname⟩ := hall off hoff htype
    have hnamed : Named t.vol kind off (cstr q) ↔ s = cstr q :=
      ⟨fun h => hname.unique h.toHasName, fun h => ⟨h ▸ hname, hoff, htype⟩⟩
    have hends := hk.ends
    have hpos := hk.pos
    have hbyte : ∀ k, k < kind.first →
        t.vol.load off entr (kind.name + k) = t.vol.data (off + kind.name + k) := by
      intro k hk'
      rw [load_byte (by omega), Nat.add_assoc]
    -- The answer where one of the strings ends within the head.
    have hstop : ∀ k, k < kind.first → Agrees t.vol.data (off + kind.name) q.char k →
        q.char k = 0 → (t.vol.load off entr (kind.name + k) = 0 ↔ s = cstr q) := by
      intro k hk' hagree hzero
      rw [hbyte k hk', ← hname.eq_iff_of_stop hagree hzero (Or.inr (Or.inl rfl)), beq_iff_eq]
    by_cases hempty : q.char 0 = 0
    · rw [if_pos hempty]
      by_cases hzero : t.vol.load off entr kind.name = 0
      · rw [if_neg (not_not.2 hzero), gives_pure]
        have heq := (hstop 0 hpos agrees_zero hempty).1 hzero
        exact ⟨rfl, rfl, Or.inl ⟨one_ne_zero, hnamed.2 heq, entr, rfl⟩⟩
      · rw [if_pos hzero, gives_pure]
        exact ⟨rfl, rfl, Or.inr ⟨rfl, fun h => hzero ((hstop 0 hpos agrees_zero hempty).2
          (hnamed.1 h))⟩⟩
    · rw [if_neg hempty]
      rcases matchHead_spec hbyte kind.first 0 (Nat.zero_add _) agrees_zero with
        ⟨hnone, k, hk', hagree, hne, -⟩ | ⟨k, hk', hagree, hend, hsome⟩
      · rw [Nat.add_zero, List.drop_zero] at hnone
        rw [hnone]
        dsimp only
        rw [gives_pure]
        refine ⟨rfl, rfl, Or.inr ⟨rfl, fun h => ?_⟩⟩
        exact hagree.ne hname.str (holdsStr_char q) hne (hnamed.1 h)
      · rw [Nat.add_zero, List.drop_zero] at hsome
        rw [hsome]
        dsimp only
        rw [char_drop, Nat.add_zero]
        by_cases hin : q.char k = 0 ∧ kind.first - k ≠ 0
        · rw [if_pos hin]
          by_cases hzero : t.vol.load off entr (kind.name + k) = 0
          · rw [if_pos hzero, gives_pure]
            have heq := (hstop k (by omega) hagree hin.1).1 hzero
            exact ⟨rfl, rfl, Or.inl ⟨one_ne_zero, hnamed.2 heq, entr, rfl⟩⟩
          · rw [if_neg hzero, gives_pure]
            exact ⟨rfl, rfl, Or.inr ⟨rfl, fun h =>
              hzero ((hstop k (by omega) hagree hin.1).2 (hnamed.1 h))⟩⟩
        · -- The head is full, so the name goes on behind it.
          obtain rfl : k = kind.first := by
            rcases hend with h | h
            · exact h
            · by_contra hne
              exact hin ⟨h, by omega⟩
          have hroom := hname.room
          have hle := hagree.le_left hname.str
          have hce : t.vol.cont off ≠ 0 := by
            intro hz
            rw [hz] at hroom
            omega
          obtain ⟨hal, hle'⟩ := hl.piece_inside hg hoff (hk.isHead htype)
            (show 1 ≤ t.vol.cont off + 1 by omega)
          rw [if_neg hin, if_neg fun h => hce h.2, if_neg hce,
            gives_readEntry hg.sized (Nat.le_add_right_of_le hoff.ge) (by exact hal)
            (by exact hle')]
          dsimp only
          rw [if_neg (by decide), gives_bind]
          refine (gives_matchCont (t := { t with clean := false }) (j := 1) hg hl hoff
            (hk.isHead htype) hname 0 rfl (by omega) (by decide) (by omega)
            (fun i hi => load_byte hi) hagree).mono fun ⟨same, entr₁⟩ t₁ ⟨hvol, hsame⟩ => ?_
          dsimp only at hsame ⊢
          cases same with
          | false =>
            rw [if_pos rfl, gives_pure]
            exact ⟨hvol, rfl, Or.inr ⟨rfl, fun h => Bool.noConfusion (hsame.2 (hnamed.1 h))⟩⟩
          | true =>
            have hge₁ : t₁.vol.fs.entryStart ≤ off := by rw [hvol]; exact hoff.ge
            have hin₁ : off + 64 ≤ t₁.vol.size := by rw [hvol]; exact hg.slot_le hoff
            rw [if_neg (by decide),
              gives_readEntry (by rw [hvol]; exact hg.sized) hge₁ hoff.aligned hin₁]
            dsimp only
            rw [if_neg (by decide), gives_pure]
            exact ⟨hvol, rfl, Or.inl ⟨one_ne_zero, hnamed.2 (hsame.1 rfl), entr₁, by rw [hvol]⟩⟩
  · rw [if_pos htype, gives_pure]
    exact ⟨rfl, rfl, Or.inr ⟨rfl, fun h => htype h.type⟩⟩

/-! ## Searching for a path -/

/-- A name agrees with itself in every continuation slot. -/
theorem HasName.strncmp_piece {v : Vol} (hk : kind.Fits) (h : HasName v kind off (cstr q))
    {j : Nat} (hj : 0 < j) (hj' : j ≤ v.cont off) (entr : Entry) :
    strncmp (v.load (off + 64 * j) entr) 0 (q.drop (kind.first + 64 * (j - 1))) 64 = 0 := by
  have hends := hk.ends
  refine strncmp_eq_zero fun i hi hall => ?_
  rw [Nat.zero_add, load_byte hi, char_drop]
  -- No character so far is zero, so the position is inside the name.
  have hin : ¬ kind.name + (cstr q).length < 64 * j := fun hlt =>
    hall 0 (Nat.zero_le i) (by rw [load_byte (by decide)]; exact h.tail j hj hj' hlt)
  have hlt : 64 * j + i - kind.name < (cstr q).length := by
    by_contra hge
    refine hall (kind.name + (cstr q).length - 64 * j) (by omega) ?_
    rw [load_byte (by omega), ← h.str.nul]
    congr 1
    omega
  rw [show off + 64 * j + i = off + kind.name + (64 * j + i - kind.name) by omega,
    h.str.char _ hlt, ← char_eq_cstr q hlt]
  congr 1
  omega

/-- The second comparison of `search_file` and `search_dir` finds no
difference. -/
theorem gives_verifyCont (hg : Geometry t.vol lo hi) (hl : Layout t.vol) (hk : kind.Fits)
    (hoff : t.vol.Slot off) (hh : t.vol.Head off) (hname : HasName t.vol kind off (cstr q))
    (n : Nat) {j : Nat} (hj : 0 < j) (hn : j + n = t.vol.cont off + 1) (entr : Entry) :
    Gives (verifyCont entr (off + 64 * j) (q.drop (kind.first + 64 * (j - 1))) n) t
      fun r t' => t'.vol = t.vol ∧ r.1 = true := by
  induction n generalizing t j entr with
  | zero =>
    rw [verifyCont, gives_pure]
    exact ⟨rfl, rfl⟩
  | succ n ih =>
    obtain ⟨hal, hin⟩ := hl.piece_inside hg hoff hh (show j ≤ t.vol.cont off + 1 by omega)
    rw [verifyCont, gives_readEntry hg.sized (Nat.le_add_right_of_le hoff.ge) hal hin]
    dsimp only
    rw [if_neg (by decide),
      if_neg (not_not.2 (by exact hname.strncmp_piece hk hj (by omega) entr)),
      List.drop_drop, show off + 64 * j + indexEntrySize = off + 64 * (j + 1) by
        unfold indexEntrySize; omega,
      show kind.first + 64 * (j - 1) + indexEntrySize = kind.first + 64 * (j + 1 - 1) by
        unfold indexEntrySize; omega]
    exact ih (t := { t with clean := false }) hg hl hoff hh hname (Nat.succ_pos j)
      (show j + 1 + n = t.vol.cont off + 1 by omega) _

/-- `search_file` and `search_dir` find the first entry of their kind with the
path, or return 0 because there is none. -/
theorem gives_searchName (hg : Geometry t.vol lo hi) (hl : Layout t.vol) (hk : kind.Fits)
    (hall : t.vol.AllNamed kind) (entr : Entry) :
    Gives (searchName kind q entr) t fun r t' =>
      t'.vol = t.vol ∧
        ((r.1 = 0 ∧ ∀ o, ¬ Named t.vol kind o (cstr q)) ∨
          (r.1 ≠ 0 ∧ Named t.vol kind r.1 (cstr q) ∧
            (∀ o, o < r.1 → ¬ Named t.vol kind o (cstr q)) ∧ ∃ e, r.2 = t.vol.load r.1 e)) := by
  have hspec : CallbackSpec t.vol (readNameEntry kind)
      (fun off data => data = q ∧ ∀ o, o < off → ¬ Named t.vol kind o (cstr q))
      (fun off entr _ => Named t.vol kind off (cstr q) ∧
        (∀ o, o < off → ¬ Named t.vol kind o (cstr q)) ∧ ∃ e, entr = t.vol.load off e) := by
    intro off hoff entr data ⟨hdata, hnone⟩ t₁ hvol
    subst hdata
    rw [← hvol] at hg hl hall hoff hnone ⊢
    refine (gives_readNameEntry hg hl hk hall hoff entr).mono fun r t₂ ⟨hvol₂, hdata₂, hr⟩ => ?_
    refine ⟨hvol₂, ?_⟩
    rcases hr with ⟨hne, hnamed, hload⟩ | ⟨hz, hnot⟩
    · exact Or.inl ⟨hne, hnamed, hnone, hload⟩
    · refine Or.inr ⟨hz, hdata₂, fun o ho hnamed => ?_⟩
      have hal := hoff.aligned
      have hal' := hnamed.slot.aligned
      rcases Nat.lt_or_ge o off with hlt | hge
      · exact hnone o hlt hnamed
      · obtain rfl : o = off := by omega
        exact hnot hnamed
  unfold searchName
  rw [gives_setErrno, gives_bind]
  refine (gives_entryParse (t := { t with errno := 0 }) hg.area hspec entr q
    ⟨rfl, fun o ho hnamed => absurd hnamed.slot.ge (Nat.not_le.2 ho)⟩).mono
    fun ⟨off, entr₁, data⟩ t₁ ⟨hvol, h₁⟩ => ?_
  dsimp only at hvol h₁ ⊢
  rcases h₁ with ⟨hz, -, hnone⟩ | ⟨hoff, hnamed, hfirst, e, he⟩
  · rw [if_pos hz, gives_pure]
    exact ⟨hvol, Or.inl ⟨rfl, fun o hnamed => hnone o hnamed.slot.lt hnamed⟩⟩
  · have hpos := hg.slot_pos hoff
    have hh := hk.isHead hnamed.type
    rw [if_neg (by omega), he, Vol.get_load]
    by_cases hcont : t.vol.cont off = 0
    · rw [if_pos hcont, gives_pure]
      exact ⟨hvol, Or.inr ⟨Nat.ne_of_gt hpos, hnamed, hfirst, e, rfl⟩⟩
    · rw [if_neg hcont, gives_bind]
      rw [← hvol] at hg hl hoff hh hnamed hfirst ⊢
      refine (gives_verifyCont hg hl hk hoff hh hnamed.toHasName (t₁.vol.cont off)
        (j := 1) Nat.one_pos (Nat.add_comm 1 _) _).mono fun ⟨same, entr₂⟩ t₂ ⟨hvol₂, hsame⟩ => ?_
      dsimp only at hsame ⊢
      rw [if_neg (by rw [hsame]; decide)]
      have hge₂ : t₂.vol.fs.entryStart ≤ off := by rw [hvol₂]; exact hoff.ge
      have hin₂ : off + 64 ≤ t₂.vol.size := by rw [hvol₂]; exact hg.slot_le hoff
      rw [gives_readEntry (by rw [hvol₂]; exact hg.sized) hge₂ hoff.aligned hin₂, gives_pure]
      exact ⟨hvol₂, Or.inr ⟨Nat.ne_of_gt hpos, hnamed, hfirst, entr₂, by rw [hvol₂]⟩⟩

/-! ## Searching for a prefix -/

/-- The comparison of a mask with the slots behind the head. -/
theorem gives_matchMask (hg : Geometry t.vol lo hi) (hl : Layout t.vol)
    (hoff : t.vol.Slot off) (hh : t.vol.Head off) (hname : HasName t.vol kind off s) {rest : Buf}
    {k j : Nat} (cur : Nat) {entr : Entry} (hrest : q.drop k = rest)
    (hpos : kind.name + k = 64 * j + cur)
    (hcur : cur < 64) (hentr : ∀ i, i < 64 → entr i = t.vol.data (off + 64 * j + i))
    (hagree : Agrees t.vol.data (off + kind.name) q.char k) :
    Gives (matchMask rest entr (off + 64 * j) cur (64 - cur)) t
      fun r t' => t'.vol = t.vol ∧ (r.1 ≠ 0 ↔ cstr q <+: s) := by
  have hbyte : entr cur = t.vol.data (off + kind.name + k) := by
    rw [hentr cur hcur]
    congr 1
    omega
  have hq := holdsStr_char q
  induction rest generalizing t k j cur entr with
  | nil =>
    have hnil : q.char k = 0 := by
      have h := char_drop q k 0
      rw [hrest] at h
      exact h.symm
    rw [matchMask, gives_pure]
    exact ⟨rfl, fun _ => hagree.isPrefix hname.str hq hnil, fun _ => one_ne_zero⟩
  | cons ch rest ih =>
    have hch : q.char k = ch := by
      have h := char_drop q k 0
      rw [hrest] at h
      exact h.symm
    rw [matchMask]
    by_cases hend : ch = 0 ∨ 64 - cur = 0
    · have hnil : q.char k = 0 := hch.trans (hend.resolve_right (by omega))
      rw [if_pos hend, gives_pure]
      exact ⟨rfl, fun _ => hagree.isPrefix hname.str hq hnil, fun _ => one_ne_zero⟩
    · rw [if_neg hend]
      have hch0 : q.char k ≠ 0 := fun h => hend (Or.inl (hch.symm.trans h))
      by_cases hne : entr cur = ch
      · rw [if_neg (not_not.2 hne)]
        have hagree' : Agrees t.vol.data (off + kind.name) q.char (k + 1) :=
          hagree.succ (by rw [← hbyte, hne, hch]) hch0
        have hdrop : q.drop (k + 1) = rest := by
          rw [← List.drop_drop, hrest]
          rfl
        by_cases hlast : 64 - cur - 1 = 0
        · have hle := hagree'.le_left hname.str
          have hroom := hname.room
          obtain ⟨hal, hin⟩ := hl.piece_inside hg hoff hh (show j + 1 ≤ t.vol.cont off + 1 by omega)
          have hsmall := hg.sized.small
          rw [if_pos hlast, show off + 64 * j + indexEntrySize = off + 64 * (j + 1) by
            unfold indexEntrySize; omega, u64_of_lt (by omega),
            gives_readEntry hg.sized (Nat.le_add_right_of_le hoff.ge) hal hin]
          dsimp only
          refine ih (t := { t with clean := false }) hg hl hoff hh hname 0 hdrop
            (show kind.name + (k + 1) = 64 * (j + 1) + 0 by omega) (by decide)
            (fun i hi => load_byte hi) hagree' ?_
          show t.vol.load (off + 64 * (j + 1)) entr 0 = _
          rw [load_byte (by decide)]
          congr 1
          omega
        · rw [if_neg hlast, Nat.sub_sub]
          refine ih hg hl hoff hh hname (cur + 1) hdrop
            (show kind.name + (k + 1) = 64 * j + (cur + 1) by omega) (by omega) hentr hagree' ?_
          rw [hentr (cur + 1) (by omega)]
          congr 1
          omega
      · rw [if_pos hne, gives_pure]
        refine ⟨rfl, fun h => absurd rfl h, fun h => absurd h ?_⟩
        exact hagree.not_isPrefix hname.str hq hch0 (by rw [← hbyte, hch]; exact hne)

/-- `check_file_mask` on an entry of a kind, loaded: whether the mask is a
prefix of its name. -/
theorem gives_checkNameMask (hg : Geometry t.vol lo hi) (hl : Layout t.vol) (hk : kind.Fits)
    (hnamed : Named t.vol kind off s) (entr : Entry) :
    Gives (checkNameMask kind (t.vol.load off entr) off q) t fun r t' =>
      t'.vol = t.vol ∧ (r.1 ≠ 0 ↔ cstr q <+: s) := by
  have hh := hk.isHead hnamed.type
  have hq := holdsStr_char q
  unfold checkNameMask
  by_cases hempty : q.char 0 = 0
  · rw [if_pos hempty, gives_pure]
    exact ⟨rfl, fun _ => agrees_zero.isPrefix hnamed.str hq hempty, fun _ => one_ne_zero⟩
  · have hends := hk.ends
    have hbyte : ∀ k, k < kind.first →
        t.vol.load off entr (kind.name + k) = t.vol.data (off + kind.name + k) := by
      intro k hk'
      rw [load_byte (by omega), Nat.add_assoc]
    rw [if_neg hempty]
    rcases matchHead_spec hbyte kind.first 0 (Nat.zero_add _) agrees_zero with
      ⟨hnone, k, -, hagree, hne, hz⟩ | ⟨k, hk', hagree, hend, hsome⟩
    · rw [Nat.add_zero, List.drop_zero] at hnone
      rw [hnone]
      dsimp only
      rw [gives_pure]
      exact ⟨rfl, fun h => absurd rfl h,
        fun h => absurd h (hagree.not_isPrefix hnamed.str hq hz hne)⟩
    · rw [Nat.add_zero, List.drop_zero] at hsome
      rw [hsome]
      dsimp only
      obtain ⟨hal, hin⟩ := hl.piece_inside hg hnamed.slot hh (show 1 ≤ t.vol.cont off + 1 by omega)
      have hsmall := hg.sized.small
      rw [u64_of_lt (by unfold indexEntrySize; omega),
        gives_readEntry hg.sized (Nat.le_add_right_of_le hnamed.slot.ge) hal hin]
      dsimp only
      by_cases hzero : q.char k = 0
      · -- The mask ends in the head.
        have hpre := hagree.isPrefix hnamed.str hq hzero
        generalize hrest : q.drop k = rest
        cases rest with
        | nil =>
          rw [matchMask, gives_pure]
          exact ⟨rfl, fun _ => hpre, fun _ => one_ne_zero⟩
        | cons ch rest =>
          have hch : ch = 0 := by
            have h := char_drop q k 0
            rw [hrest, Nat.add_zero, hzero] at h
            exact h
          rw [matchMask, if_pos (Or.inl hch), gives_pure]
          exact ⟨rfl, fun _ => hpre, fun _ => one_ne_zero⟩
      · obtain rfl : k = kind.first := hend.resolve_right hzero
        exact gives_matchMask (t := { t with clean := false }) (j := 1) hg hl
          hnamed.slot hh hnamed.toHasName 0 rfl (by omega) (by decide) (fun i hi => load_byte hi)
          hagree

end Match

/-- A live entry: a file or a directory, with its path. -/
def Vol.Live (v : Vol) (off : Nat) (s : Buf) : Prop :=
  Named v fileKind off s ∨ Named v dirKind off s

theorem Vol.Live.slot {v : Vol} {off : Nat} {s : Buf} (h : v.Live off s) : v.Slot off := by
  rcases h with h | h
  · exact h.slot
  · exact h.slot

theorem Vol.Live.head {v : Vol} {off : Nat} {s : Buf} (h : v.Live off s) : v.Head off := by
  rcases h with h | h
  · exact fileKind_fits.isHead h.type
  · exact dirKind_fits.isHead h.type

theorem Vol.Live.unique {v : Vol} {off : Nat} {s s' : Buf} (h : v.Live off s)
    (h' : v.Live off s') : s = s' := by
  have hcodes : fileKind.type.code ≠ dirKind.type.code := by decide
  rcases h with h | h <;> rcases h' with h' | h'
  · exact h.toHasName.unique h'.toHasName
  · exact absurd (h.type.symm.trans h'.type) hcodes
  · exact absurd (h'.type.symm.trans h.type) hcodes
  · exact h.toHasName.unique h'.toHasName

section Mask

variable {t : Img} {off lo hi : Nat} {q : Buf}

/-- The loop of `search_file_mask` finds the first live entry from an offset on
whose path starts with the mask. -/
theorem gives_searchFileMaskLoop (off : Nat) (hg : Geometry t.vol lo hi) (hl : Layout t.vol)
    (hfile : t.vol.AllNamed fileKind) (hdir : t.vol.AllNamed dirKind) (fuel : Nat) (entr : Entry)
    (hoff : t.vol.fs.entryStart ≤ off ∧ off ≤ t.vol.fs.volIdent ∧ off % 64 = 0)
    (hfuel : (t.vol.fs.volIdent - off) / 64 < fuel) :
    Gives (searchFileMaskLoop q t.vol.fs.volIdent fuel entr off) t fun r t' =>
      t'.vol = t.vol ∧
        ((r.1 = 0 ∧ ∀ o s, off ≤ o → t.vol.Live o s → ¬ cstr q <+: s) ∨
          (r.1 ≠ 0 ∧ off ≤ r.1 ∧ (∃ s, t.vol.Live r.1 s ∧ cstr q <+: s) ∧
            (∀ o s, off ≤ o → o < r.1 → t.vol.Live o s → ¬ cstr q <+: s) ∧
            ∃ e, r.2 = t.vol.load r.1 e)) := by
  induction fuel generalizing t off entr with
  | zero => omega
  | succ fuel ih =>
    rw [searchFileMaskLoop]
    by_cases hend : off = t.vol.fs.volIdent
    · rw [if_pos hend, gives_pure]
      exact ⟨rfl, Or.inl ⟨rfl, fun o s ho hlive => absurd hlive.slot.lt (by omega)⟩⟩
    · have hal := hg.aligned
      have hin := hg.inside
      have hsmall := hg.sized.small
      have hslot : t.vol.Slot off := ⟨hoff.1, by omega, hoff.2.2⟩
      -- The rest of the loop, when the entry here is no match.
      have hnext : ∀ t₁ : Img, t₁.vol = t.vol → ∀ e,
          (∀ s, t.vol.Live off s → ¬ cstr q <+: s) →
          Gives (searchFileMaskLoop q t.vol.fs.volIdent fuel e (u64 (off + indexEntrySize))) t₁
            fun r t' => t'.vol = t.vol ∧
              ((r.1 = 0 ∧ ∀ o s, off ≤ o → t.vol.Live o s → ¬ cstr q <+: s) ∨
                (r.1 ≠ 0 ∧ off ≤ r.1 ∧ (∃ s, t.vol.Live r.1 s ∧ cstr q <+: s) ∧
                  (∀ o s, off ≤ o → o < r.1 → t.vol.Live o s → ¬ cstr q <+: s) ∧
                  ∃ e, r.2 = t.vol.load r.1 e)) := by
        intro t₁ hvol e hnot
        have hskip : ∀ o s, off ≤ o → t.vol.Live o s → cstr q <+: s → off + 64 ≤ o := by
          intro o s ho hlive hpre
          have hal' := hlive.slot.aligned
          by_contra hlt
          obtain rfl : o = off := by omega
          exact hnot s hlive hpre
        rw [u64_of_lt (by unfold indexEntrySize; omega)]
        rw [← hvol] at hg hl hfile hdir hoff hfuel hend hskip ⊢
        refine (ih (off + indexEntrySize) hg hl hfile hdir e ?_ ?_).mono
          fun r t₂ ⟨hvol₂, hr⟩ => ⟨hvol₂, ?_⟩
        · unfold indexEntrySize
          rw [hvol] at hoff hend ⊢
          omega
        · unfold indexEntrySize
          rw [hvol] at hoff hfuel hend ⊢
          omega
        · rcases hr with ⟨hz, hnone⟩ | ⟨hz, hle, hfound, hfirst, hload⟩
          · exact Or.inl ⟨hz, fun o s ho hlive hpre =>
              hnone o s (hskip o s ho hlive hpre) hlive hpre⟩
          · refine Or.inr ⟨hz, Nat.le_of_add_right_le hle, hfound, fun o s ho hlt hlive hpre => ?_,
              hload⟩
            exact hfirst o s (hskip o s ho hlive hpre) hlt hlive hpre
      rw [if_neg hend, gives_readEntry hg.sized hslot.ge hslot.aligned (hg.slot_le hslot)]
      dsimp only
      rw [Vol.get_load]
      -- A file or directory is compared with the mask.
      have hkind : ∀ kind : NameKind, kind.Fits → (∃ s, Named t.vol kind off s) →
          (∀ s, Named t.vol kind off s → t.vol.Live off s) →
          Gives (checkNameMask kind (t.vol.load off entr) off q)
            { t with clean := false } fun r t₁ => t₁.vol = t.vol ∧
              (r.1 ≠ 0 ↔ ∃ s, t.vol.Live off s ∧ cstr q <+: s) := by
        intro kind hk ⟨s, hnamed⟩ hlive
        refine (gives_checkNameMask (t := { t with clean := false }) hg hl hk hnamed entr).mono
          fun r t₁ ⟨hvol, hr⟩ => ⟨hvol, hr.trans ⟨fun h => ⟨s, hlive s hnamed, h⟩, ?_⟩⟩
        intro ⟨s', hs', hpre⟩
        rwa [hs'.unique (hlive s hnamed)] at hpre
      by_cases htype : t.vol.type off = EntryType.fileEntry.code ∨
          t.vol.type off = EntryType.dirEntry.code
      · rw [if_pos htype, gives_bind]
        have hcheck : Gives (checkFileMask (t.vol.load off entr) off q)
            { t with clean := false } fun r t₁ => t₁.vol = t.vol ∧
              (r.1 ≠ 0 ↔ ∃ s, t.vol.Live off s ∧ cstr q <+: s) := by
          unfold checkFileMask
          rw [Vol.get_load]
          by_cases hf : t.vol.type off = EntryType.fileEntry.code
          · rw [if_pos hf]
            obtain ⟨s, hname⟩ := hfile off hslot hf
            exact hkind fileKind fileKind_fits ⟨s, hname, hslot, hf⟩ fun s h => Or.inl h
          · have hd := htype.resolve_left hf
            rw [if_neg hf, if_pos hd]
            obtain ⟨s, hname⟩ := hdir off hslot hd
            exact hkind dirKind dirKind_fits ⟨s, hname, hslot, hd⟩ fun s h => Or.inr h
        refine hcheck.mono fun ⟨found, entr₁⟩ t₁ ⟨hvol, hfound⟩ => ?_
        dsimp only at hfound ⊢
        by_cases hz : found = 0
        · rw [if_neg (not_not.2 hz)]
          exact hnext t₁ hvol _ fun s hlive hpre => hfound.2 ⟨s, hlive, hpre⟩ hz
        · have hge₁ : t₁.vol.fs.entryStart ≤ off := by rw [hvol]; exact hslot.ge
          have hin₁ : off + 64 ≤ t₁.vol.size := by rw [hvol]; exact hg.slot_le hslot
          rw [if_pos hz, gives_readEntry (by rw [hvol]; exact hg.sized) hge₁ hslot.aligned hin₁,
            gives_pure]
          exact ⟨hvol, Or.inr ⟨Nat.ne_of_gt (hg.slot_pos hslot), Nat.le_refl off, hfound.1 hz,
            fun o s ho hlt => absurd hlt (Nat.not_lt.2 ho), entr₁, by rw [hvol]⟩⟩
      · rw [if_neg htype]
        refine hnext { t with clean := false } rfl _ fun s hlive _ => htype ?_
        rcases hlive with h | h
        · exact Or.inl h.type
        · exact Or.inr h.type

/-- `search_file_mask` finds the first live entry from an offset on whose path
starts with the mask, or returns 0 because there is none. -/
theorem gives_searchFileMask (hg : Geometry t.vol lo hi) (hl : Layout t.vol)
    (hfile : t.vol.AllNamed fileKind) (hdir : t.vol.AllNamed dirKind) (entr : Entry)
    (hoff : t.vol.fs.entryStart ≤ off ∧ off ≤ t.vol.fs.volIdent ∧ off % 64 = 0) :
    Gives (searchFileMask q entr off) t fun r t' =>
      t'.vol = t.vol ∧
        ((r.1 = 0 ∧ ∀ o s, off ≤ o → t.vol.Live o s → ¬ cstr q <+: s) ∨
          (r.1 ≠ 0 ∧ off ≤ r.1 ∧ (∃ s, t.vol.Live r.1 s ∧ cstr q <+: s) ∧
            (∀ o s, off ≤ o → o < r.1 → t.vol.Live o s → ¬ cstr q <+: s) ∧
            ∃ e, r.2 = t.vol.load r.1 e)) := by
  have hin := hg.inside
  have hsmall := hg.sized.small
  unfold searchFileMask
  rw [gives_setErrno, gives_unit]
  refine gives_searchFileMaskLoop (t := { t with errno := 0 }) off hg hl hfile hdir _ entr hoff ?_
  unfold scanFuel indexEntrySize
  rw [sub64_of_le (by omega)]
  dsimp only
  omega

/-! ## The directories of a path -/

/-- Every directory on the path is there. -/
def Vol.HasDirs (v : Vol) (s : Buf) : Prop :=
  ∀ i (hi : i < s.length), s[i] = 0x2F → ∃ o, Named v dirKind o (s.take i)

/-- The first entry of the kind with the path. -/
def Vol.First (v : Vol) (kind : NameKind) (a : Nat) (s : Buf) : Prop :=
  Named v kind a s ∧ ∀ o, o < a → ¬ Named v kind o s

theorem Vol.First.unique {v : Vol} {kind : NameKind} {a b : Nat} {s : Buf}
    (ha : v.First kind a s) (hb : v.First kind b s) : a = b := by
  rcases Nat.lt_trichotomy a b with hlt | heq | hlt
  · exact absurd ha.1 (hb.2 a hlt)
  · exact heq
  · exact absurd hb.1 (ha.2 b hlt)

/-- There is a directory with the path, and the offset of the first one is no
multiple of 2 ^ 32: `check_dirs` keeps it in an `int`. -/
def Vol.FindsDir (v : Vol) (s : Buf) : Prop :=
  ∃ o, v.First dirKind o s ∧ o % 4294967296 ≠ 0

/-- The check of the directories on the path finds every one. -/
def Vol.FindsDirs (v : Vol) (s : Buf) : Prop :=
  ∀ i (hi : i < s.length), s[i] = 0x2F → v.FindsDir (s.take i)

theorem Vol.FindsDirs.hasDirs {v : Vol} {s : Buf} (h : v.FindsDirs s) : v.HasDirs s :=
  fun i hi hslash =>
    let ⟨o, hfirst, _⟩ := h i hi hslash
    ⟨o, hfirst.1⟩

/-- The loop of `check_dirs`: it leaves the volume and the path as they are, and
succeeds if the directories from a position on are found. -/
theorem gives_checkDirsLoop (hg : Geometry t.vol lo hi) (hl : Layout t.vol)
    (hdir : t.vol.AllNamed dirKind) (n : Nat) {cur : Nat} (hn : cur + n = strlen q + 1)
    (entr : Entry) :
    Gives (checkDirsLoop n q entr cur) t fun r t' =>
      t'.vol = t.vol ∧ r.2.1 = q ∧
        (r.1 = 0 ↔ ∀ i (hi : i < (cstr q).length), cur ≤ i → (cstr q)[i] = 0x2F →
          t.vol.FindsDir ((cstr q).take i)) := by
  have hlen := cstr_length q
  induction n generalizing t cur entr with
  | zero =>
    rw [checkDirsLoop, gives_pure]
    exact ⟨rfl, rfl, iff_of_true rfl fun i hi hle => absurd hi (by omega)⟩
  | succ n ih =>
    -- The rest of the path.
    have hnext : ∀ t₁ : Img, t₁.vol = t.vol → ∀ e,
        (∀ hi : cur < (cstr q).length, (cstr q)[cur] = 0x2F →
          t.vol.FindsDir ((cstr q).take cur)) →
        Gives (checkDirsLoop n q e (cur + 1)) t₁ fun r t' =>
          t'.vol = t.vol ∧ r.2.1 = q ∧
            (r.1 = 0 ↔ ∀ i (hi : i < (cstr q).length), cur ≤ i → (cstr q)[i] = 0x2F →
              t.vol.FindsDir ((cstr q).take i)) := by
      intro t₁ hvol e hhere
      rw [← hvol] at hg hl hdir hhere ⊢
      refine (ih hg hl hdir (by omega) e).mono fun r t' ⟨hvol', hpath, hr⟩ =>
        ⟨hvol', hpath, hr.trans ⟨fun h i hi hle hslash => ?_, fun h i hi hle => ?_⟩⟩
      · rcases Nat.eq_or_lt_of_le hle with heq | hlt
        · subst heq
          exact hhere hi hslash
        · exact h i hi hlt hslash
      · exact h i hi (Nat.le_of_lt hle)
    rw [checkDirsLoop]
    by_cases hslash : q.char cur = 0x2F
    · have hcur : cur < strlen q := by
        by_contra hge
        rw [show cur = strlen q by omega, char_strlen] at hslash
        exact absurd hslash (by decide)
      have hhere : ∀ hi : cur < (cstr q).length, (cstr q)[cur] = 0x2F := fun hi => by
        rw [← hslash, char_eq_cstr q hi]
      have hback := set_char_self q 0 hcur
      rw [hslash] at hback
      rw [if_pos hslash, gives_bind]
      refine (gives_searchName hg hl dirKind_fits hdir entr).mono
        fun ⟨ret, entr₁⟩ t₁ ⟨hvol, h₁⟩ => ?_
      dsimp only at h₁ ⊢
      rw [cstr_set_zero q hcur] at h₁
      rw [hback]
      by_cases hz : ret % 4294967296 = 0
      · rw [if_pos hz, gives_pure]
        have hne : (-1 : Int) ≠ 0 := by decide
        refine ⟨hvol, rfl, iff_of_false hne fun h => ?_⟩
        -- The first directory is the one that was found, if any was.
        obtain ⟨o, hfirst, ho⟩ := h cur (hlen ▸ hcur) (Nat.le_refl cur) (hhere _)
        rcases h₁ with ⟨-, hnone⟩ | ⟨-, hnamed, hbefore, -⟩
        · exact hnone o hfirst.1
        · exact ho (hfirst.unique ⟨hnamed, hbefore⟩ ▸ hz)
      · rw [if_neg hz]
        refine hnext t₁ hvol entr₁ fun _ _ => ?_
        rcases h₁ with ⟨hret, -⟩ | ⟨-, hnamed, hbefore, -⟩
        · exact absurd (by rw [hret]) hz
        · exact ⟨ret, ⟨hnamed, hbefore⟩, hz⟩
    · rw [if_neg hslash]
      refine hnext t rfl entr fun hi h => absurd ?_ hslash
      rw [char_eq_cstr q hi, h]

/-- `check_dirs` leaves the volume and the path as they are, and succeeds if and
only if every directory on the path is found. -/
theorem gives_checkDirs_iff (hg : Geometry t.vol lo hi) (hl : Layout t.vol)
    (hdir : t.vol.AllNamed dirKind) (entr : Entry) :
    Gives (checkDirs q entr) t fun r t' =>
      t'.vol = t.vol ∧ r.2.1 = q ∧ (r.1 = 0 ↔ t.vol.FindsDirs (cstr q)) := by
  refine (gives_checkDirsLoop hg hl hdir _ (Nat.zero_add _) entr).mono
    fun r t' ⟨hvol, hpath, hr⟩ => ⟨hvol, hpath, hr.trans ⟨fun h i hi => ?_, fun h i hi _ => h i hi⟩⟩
  exact h i hi (Nat.zero_le i)

/-- `check_dirs` leaves the volume and the path as they are, and succeeds only
if every directory on the path is there. -/
theorem gives_checkDirs (hg : Geometry t.vol lo hi) (hl : Layout t.vol)
    (hdir : t.vol.AllNamed dirKind) (entr : Entry) :
    Gives (checkDirs q entr) t fun r t' =>
      t'.vol = t.vol ∧ r.2.1 = q ∧ (r.1 = 0 → t.vol.HasDirs (cstr q)) :=
  (gives_checkDirs_iff hg hl hdir entr).mono fun _ _ ⟨hvol, hpath, hr⟩ =>
    ⟨hvol, hpath, fun hz => (hr.1 hz).hasDirs⟩

end Mask

end Sfs
