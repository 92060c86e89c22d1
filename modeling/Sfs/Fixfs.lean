import Sfs.Coalesced
import Sfs.Lookup

/-!
# Recovering unlinked files

`fix_non_del_file` of `fixfs.c`, which is called when a volume is mounted: it
makes every deleted file that is no free extent a file again.  Which is which it
tells by the name, with a `strcmp` for which two strings are equal as soon as
one of them starts with the other.

* `gives_fixNonDelFile`: the heads it takes for files get their type back, and
  no other byte changes;
* `looksFree_iff`: a name that starts with `free`, or that `free` starts with, is
  taken for a free extent;
* `fixNonDelFile_recovers_iff` says when every unlinked file is recovered.
-/

namespace Sfs

open Lib

/-! ## The program -/

/-- The name `free`, without its terminator. -/
def bareFree : Buf := [0x66, 0x72, 0x65, 0x65]

/-- The name in the entry is `free` or `*free` for `strcmp`. -/
def LooksFree (entr : Entry) : Prop :=
  strcmp entr fileKind.name (bareFree ++ [0]) = 0 ∨ strcmp entr fileKind.name freeName = 0

instance (entr : Entry) : Decidable (LooksFree entr) := inferInstanceAs (Decidable (_ ∨ _))

/-- `fix_del_file`. -/
def fixDelFile : Callback Unit := fun entr entryOff data =>
  if entr.get .entryType = EntryType.delFileEntry.code ∧ ¬ LooksFree entr then do
    let entr := entr.set .entryType EntryType.fileEntry.code
    let _ ← writeEntry entryOff entr
    pure (0, entr, data)
  else pure (0, entr, data)

/-- `fix_non_del_file`. -/
def fixNonDelFile (entr : Entry) : SfsM (Int × Entry) := do
  let (_, entr, _) ← entryParse entr fixDelFile ()
  pure (0, entr)

/-! ## What it does to a volume -/

/-- The slot is taken for an unlinked file. -/
def Vol.Revives (v : Vol) (off : Nat) : Prop :=
  v.Slot off ∧ v.type off = EntryType.delFileEntry.code ∧
    ¬ LooksFree (v.load off fun _ => 0)

/-- The slots before `stop` that are taken for unlinked files are files, and no
other byte is different. -/
structure Vol.Revived (v w : Vol) (nodes : List Nat) (stop : Nat) : Prop where
  area : SameArea v w
  revived : ∀ off, off < stop → v.Revives off → w.data off = 0x12
  same : ∀ k, (k < stop → ¬ v.Revives k) → w.data k = v.data k
  isFile : ∀ off, w.IsFile nodes off ↔ v.IsFile nodes off
  name : ∀ off p, v.IsFile nodes off → HasName v fileKind off p → HasName w fileKind off p

section

variable {v w : Vol} {t : Img} {nodes : List Nat} {lo hi off : Nat} {p : Buf}

/-- The comparison looks at the slot only. -/
theorem looksFree_congr {e e' : Entry} (h : ∀ i, i < 64 → e i = e' i) :
    LooksFree e ↔ LooksFree e' := by
  have hcmp : ∀ q : Buf, q.length < 30 →
      strcmp e fileKind.name q = strcmp e' fileKind.name q := by
    have hgen : ∀ (q : Buf) (n : Nat), n + q.length ≤ 64 → strcmp e n q = strcmp e' n q := by
      intro q
      induction q with
      | nil => exact fun _ _ => rfl
      | cons c q ih =>
        intro n hn
        rw [List.length_cons] at hn
        rw [strcmp, strcmp, h n (by omega), ih (n + 1) (by omega)]
    exact fun q hq => hgen q _ (by show 34 + q.length ≤ 64; omega)
  unfold LooksFree
  rw [hcmp _ (by decide), hcmp _ (by decide)]

/-- Neither name has a zero byte inside. -/
theorem starFree_ne_zero : ∀ c ∈ 0x2A :: bareFree, c ≠ 0 := by
  simp [bareFree]

/-- A name is taken for a free extent when it is a start of `free` or `*free`, or
starts with one of them. -/
theorem looksFree_iff (hname : HasName v fileKind off p) {entr : Entry}
    (hentr : ∀ i, i < 64 → entr i = v.data (off + i)) :
    LooksFree entr ↔ (p <+: bareFree ∨ bareFree <+: p) ∨
      (p <+: 0x2A :: bareFree ∨ 0x2A :: bareFree <+: p) := by
  have hbyte : ∀ i, i < 30 → i ≤ p.length → entr (34 + i) = p.char i := by
    intro i hi hle
    rw [hentr (34 + i) (by omega), ← Nat.add_assoc]
    rcases Nat.lt_or_eq_of_le hle with hlt | rfl
    · rw [Buf.char, List.getD_eq_getElem?_getD, List.getElem?_eq_getElem hlt]
      exact hname.str.char i hlt
    · rw [char_of_length_le (Nat.le_refl _)]
      exact hname.str.nul
  have hne := hname.str.ne_zero
  have hne' : ∀ c ∈ bareFree, c ≠ 0 := fun c hc => starFree_ne_zero c (List.mem_cons_of_mem _ hc)
  refine or_congr (strcmp_eq_zero_iff hne hne' fun i hi hle => hbyte i ?_ hle)
    (strcmp_eq_zero_iff hne starFree_ne_zero fun i hi hle => hbyte i ?_ hle)
  · exact Nat.lt_trans hi (by decide)
  · exact Nat.lt_trans hi (by decide)

/-- A node is taken for a free extent. -/
theorem Vol.Starred.not_revives (h : v.Starred off) : ¬ v.Revives off := by
  intro ⟨_, _, hlooks⟩
  have hbyte : ∀ i, i < (0x2A :: bareFree).length → i ≤ (0x2A :: bareFree).length →
      v.load off (fun _ => 0) (fileKind.name + i) = Buf.char (0x2A :: bareFree) i := by
    intro i hi _
    have hlen : (0x2A :: bareFree).length = 5 := rfl
    have hsix : freeName.length = 6 := rfl
    have hpos : fileKind.name = 34 := rfl
    rw [load_byte (by omega), h i (by omega)]
    match i, hi with
    | 0, _ | 1, _ | 2, _ | 3, _ | 4, _ => rfl
  apply hlooks
  exact Or.inr
    ((strcmp_eq_zero_iff starFree_ne_zero starFree_ne_zero hbyte).2 (Or.inl (List.prefix_refl _)))

theorem Vol.Revived.refl (v : Vol) (nodes : List Nat) (hstop : off ≤ v.fs.entryStart) :
    v.Revived v nodes off := by
  refine ⟨SameArea.refl v, fun o ho hr => ?_, fun _ _ => rfl, fun _ => Iff.rfl, fun _ _ _ h => h⟩
  have hge := hr.1.ge
  omega

/-- The next slot is not taken for an unlinked file. -/
theorem Vol.Revived.skip (h : v.Revived w nodes off) (hoff : off % 64 = 0)
    (hnot : ¬ v.Revives off) :
    v.Revived w nodes (off + 64) := by
  have honly : ∀ o, o < off + 64 → v.Revives o → o < off := by
    intro o ho hr
    have hal := hr.1.aligned
    have hne : o ≠ off := fun heq => hnot (heq ▸ hr)
    omega
  exact ⟨h.area, fun o ho hr => h.revived o (honly o ho hr) hr,
    fun k hk => h.same k fun hlt hr => hk (by omega) hr, h.isFile, h.name⟩

/-- The next slot gets its type back. -/
theorem Vol.Revived.step (h : v.Revived w nodes off) (hw : WellFormed w nodes lo hi)
    {w' : Vol} (hr : v.Revives off) (hfile : w.IsFile nodes off)
    (htype : w.Retyped w' off .fileEntry) : v.Revived w' nodes (off + 64) := by
  have hkeep : w.Keeps w' nodes nodes off := htype.keeps hw.layout
  have hfile' : w'.IsFile nodes off := ⟨htype.area.slot.2 htype.slot, Or.inl htype.type⟩
  refine ⟨h.area.trans htype.area, fun o ho hro => ?_, fun k hk => ?_, fun o => ?_,
    fun o p ho hp => ?_⟩
  · have hal := hro.1.aligned
    have hal' := hr.1.aligned
    by_cases heq : o = off
    · subst heq
      have hcode := htype.type
      rw [Vol.type_eq] at hcode
      exact UInt8.toNat_inj.1 hcode
    · rw [htype.frame o heq]
      exact h.revived o (by omega) hro
  · have hne : k ≠ off := fun heq => hk (by omega) (heq ▸ hr)
    rw [htype.frame k hne]
    exact h.same k fun hlt => hk (by omega)
  · by_cases heq : o = off
    · subst heq
      exact ⟨fun _ => (h.isFile o).1 hfile, fun _ => hfile'⟩
    · exact (hkeep.file o heq).trans (h.isFile o)
  · have hp' := h.name o p ho hp
    by_cases heq : o = off
    · subst heq
      exact htype.hasName (by decide) hp'
    · exact (hkeep.sameFile o heq ((h.isFile o).2 ho)).hasName hp'

/-- The scan of `fix_non_del_file` from a slot on. -/
theorem gives_fixLoop (hw : WellFormed t.vol nodes lo hi) (hnamed : ∀ o, o ∈ nodes → v.Starred o)
    (fuel start : Nat) (hrev : v.Revived t.vol nodes start)
    (hstart : v.fs.entryStart ≤ start ∧ start ≤ v.fs.volIdent ∧ start % 64 = 0)
    (hfuel : (v.fs.volIdent - start) / 64 < fuel) (entr : Entry) :
    Gives (entryParseLoop fixDelFile v.fs.volIdent fuel start entr ()) t fun _ t' =>
      WellFormed t'.vol nodes lo hi ∧ v.Revived t'.vol nodes v.fs.volIdent := by
  induction fuel generalizing t start entr with
  | zero => omega
  | succ fuel ih =>
    have hg := hw.geometry
    have hin := hg.inside
    have hsmall := hg.sized.small
    have hend := hrev.area.volIdent
    rw [entryParseLoop]
    by_cases hlast : start = v.fs.volIdent
    · rw [if_pos hlast, gives_pure]
      exact ⟨hw, hlast ▸ hrev⟩
    · have hal := hg.aligned
      have hslot : v.Slot start := ⟨hstart.1, by omega, hstart.2.2⟩
      have hslot' : t.vol.Slot start := hrev.area.slot.2 hslot
      have hbyte : ∀ i, t.vol.data (start + i) = v.data (start + i) := fun i =>
        hrev.same _ fun hlt => absurd hlt (by omega)
      have htype : t.vol.type start = v.type start := Vol.type_congr (hbyte 0)
      have hlooks : LooksFree (t.vol.load start entr) ↔ LooksFree (v.load start fun _ => 0) :=
        looksFree_congr fun i hi => by rw [load_byte hi, load_byte hi, hbyte i]
      have hnext : u64 (start + indexEntrySize) = start + 64 :=
        u64_of_lt (by unfold indexEntrySize; omega)
      rw [if_neg hlast, gives_readEntry hg.sized hslot'.ge hstart.2.2 (hg.slot_le hslot')]
      dsimp only
      rw [if_neg (by decide), fixDelFile, Vol.get_load]
      by_cases hr : v.Revives start
      · have hdel : t.vol.get start .entryType = EntryType.delFileEntry.code := htype.trans hr.2.1
        have hnot : start ∉ nodes := fun hmem => (hnamed start hmem).not_revives hr
        have hfile : t.vol.IsFile nodes start := ⟨hslot', Or.inr ⟨hdel, hnot⟩⟩
        have hret : t.vol.Retyped (t.vol.set start .entryType EntryType.fileEntry.code) start
            .fileEntry :=
          ⟨Vol.set_area _ _ _ _, rfl, hslot', hfile.head, Vol.get_set_same _ _ _ _, fun k hk =>
            putLE_outside (by show k < start + 0 ∨ start + 0 + 1 ≤ k; omega)⟩
        rw [if_pos ⟨hdel, fun h => hr.2.2 (hlooks.1 h)⟩, gives_bind,
          gives_writeEntry (by exact hg.sized) hstart.2.2 (by exact hg.slot_le hslot'), gives_pure,
          Vol.store_set, Vol.store_load]
        dsimp only
        rw [if_neg (by decide), hnext]
        exact ih (hret.wellFormed hw hfile (Or.inl rfl)) _ (hrev.step hw hr hfile hret)
          (by omega) (by omega) _
      · have hcond : ¬ (t.vol.get start .entryType = EntryType.delFileEntry.code ∧
            ¬ LooksFree (t.vol.load start entr)) := fun h =>
          hr ⟨hslot, htype.symm.trans h.1, fun hl => h.2 (hlooks.2 hl)⟩
        rw [if_neg hcond, gives_bind, gives_pure]
        dsimp only
        rw [if_neg (by decide), hnext]
        exact ih (t := { t with clean := false }) hw _ (hrev.skip hstart.2.2 hr) (by omega)
          (by omega) _

/-- `fix_non_del_file` gives the slots that it takes for unlinked files their
type back, and changes no other byte. -/
theorem gives_fixNonDelFile (hw : WellFormed t.vol nodes lo hi)
    (hnamed : ∀ o, o ∈ nodes → t.vol.Starred o) (entr : Entry) :
    Gives (fixNonDelFile entr) t fun r t' => r.1 = 0 ∧ WellFormed t'.vol nodes lo hi ∧
      t.vol.Revived t'.vol nodes t.vol.fs.volIdent := by
  have hg := hw.geometry
  have hlt := hg.nonempty
  have hin := hg.inside
  have hsmall := hg.sized.small
  unfold fixNonDelFile entryParse
  rw [gives_bind, gives_unit]
  refine (gives_fixLoop hw hnamed _ _ (Vol.Revived.refl _ _ (Nat.le_refl _))
    ⟨Nat.le_refl _, Nat.le_of_lt hlt, hg.start_aligned⟩ ?_ entr).mono fun _ t' h => ?_
  · unfold scanFuel indexEntrySize
    rw [sub64_of_le (by omega)]
    omega
  · rw [gives_pure]
    exact ⟨rfl, h⟩

end

/-! ## Recovery -/

section

variable {s s' : Sys} {nodes : List Nat} {lo hi a : Nat} {p : Buf}

/-- What the recovery of the unlinked files is for: each is a file again that
`sfs_open` finds, and but for their types no byte is different. -/
structure Recovered (s s' : Sys) (nodes : List Nat) : Prop where
  type : ∀ a, s.vol.Pending nodes a → s'.vol.type a = EntryType.fileEntry.code
  opens : ∀ a q, s.vol.Pending nodes a → HasName s.vol fileKind a (cstr q) →
    ∃ s'', s'.exec (sfsOpen q) = some (a, s'')
  same : ∀ k, ¬ s.vol.Pending nodes k → s'.vol.data k = s.vol.data k

/-- The name is neither a start of `free` nor starts with it, and no file in a
slot before has it. -/
structure Vol.Recoverable (v : Vol) (nodes : List Nat) (a : Nat) (p : Buf) : Prop where
  short : ¬ p <+: bareFree
  long : ¬ bareFree <+: p
  first : ∀ o, v.IsFile nodes o → HasName v fileKind o p → a ≤ o

/-- No path starts with `*`, so only `free` counts. -/
theorem looksFree_path_iff {v : Vol} (hname : HasName v fileKind a p) (hpath : IsPath p)
    {entr : Entry} (hentr : ∀ i, i < 64 → entr i = v.data (a + i)) :
    LooksFree entr ↔ p <+: bareFree ∨ bareFree <+: p := by
  rw [looksFree_iff hname hentr]
  refine or_iff_left_of_imp fun h => ?_
  cases p with
  | nil => exact Or.inl List.nil_prefix
  | cons c p =>
    have hc := hpath c List.mem_cons_self
    have hstar : c = 0x2A := by
      rcases h with h | h
      · exact (List.cons_prefix_cons.1 h).1
      · exact (List.cons_prefix_cons.1 h).1.symm
    rw [hstar] at hc
    exact absurd hc (by decide)

theorem Vol.Pending.revives_iff {v : Vol} (h : v.Pending nodes a) (hname : HasName v fileKind a p)
    (hpath : IsPath p) : v.Revives a ↔ ¬ p <+: bareFree ∧ ¬ bareFree <+: p := by
  rw [Vol.Revives, looksFree_path_iff hname hpath fun i hi => load_byte hi, not_or]
  exact ⟨fun hr => hr.2.2, fun hne => ⟨h.1, h.2.1, hne⟩⟩

/-- `fix_non_del_file` recovers every unlinked file and changes nothing else if
and only if the name of each is neither a start of `free` nor starts with it, and
no other file in a slot before has it. -/
theorem fixNonDelFile_recovers_iff (hq : s.dev.Quiet) (hc : s.dev.Coherent)
    (hw : WellFormed s.vol nodes lo hi) (hnamed : ∀ o, o ∈ nodes → s.vol.Starred o)
    (entr : Entry) :
    ∃ r s', s.exec (fixNonDelFile entr) = some (r, s') ∧ (Recovered s s' nodes ↔
      ∀ a p, s.vol.Pending nodes a → HasName s.vol fileKind a p → s.vol.Recoverable nodes a p) := by
  obtain ⟨r, s', t', hrun, hshow, -, hw', hrev⟩ := transfer
    (Sys.shows_img hq hc hw.geometry.sized) (gives_fixNonDelFile (t := s.img) hw hnamed entr)
  rw [← hshow.vol] at hw' hrev
  replace hrev : s.vol.Revived s'.vol nodes s.vol.fs.volIdent := hrev
  refine ⟨r, s', hrun, ?_⟩
  have hcodes : EntryType.delFileEntry.code ≠ EntryType.fileEntry.code := by decide
  have hfirst : ∀ a, s.vol.Revives a → s'.vol.type a = EntryType.fileEntry.code := by
    intro a hr
    rw [Vol.type_eq, hrev.revived a hr.1.lt hr]
    rfl
  have hlive : ∀ a q, s.vol.Revives a → s.vol.Pending nodes a → HasName s.vol fileKind a (cstr q) →
      Named s'.vol fileKind a (cstr q) := fun a q hr hp hname =>
    ⟨hrev.name a _ hp.isFile hname, hrev.area.slot.2 hp.1, hfirst a hr⟩
  have hback : ∀ o p, Named s'.vol fileKind o p → s.vol.IsFile nodes o ∧
      HasName s.vol fileKind o p := by
    intro o p ho
    have hfile : s.vol.IsFile nodes o := (hrev.isFile o).1 ⟨ho.slot, Or.inl ho.type⟩
    obtain ⟨p', hp', -⟩ := hw.fileName o hfile
    rw [ho.toHasName.unique (hrev.name o p' hfile hp')]
    exact ⟨hfile, hp'⟩
  constructor
  · intro hrec a p hp hname
    have hrevives : ∀ a, s.vol.Pending nodes a → s.vol.Revives a := by
      intro a hp
      by_contra hr
      have hsame : s'.vol.type a = s.vol.type a := Vol.type_congr (hrev.same a fun _ => hr)
      rw [hrec.type a hp, hp.2.1] at hsame
      exact hcodes hsame.symm
    obtain ⟨p', hp', hpath⟩ := hw.fileName a hp.isFile
    obtain rfl := hname.unique hp'
    obtain ⟨hshort, hlong⟩ := (hp.revives_iff hname hpath).1 (hrevives a hp)
    refine ⟨hshort, hlong, fun o ho hname' => ?_⟩
    -- The path in a buffer, for `sfs_open`.
    have hcstr : cstr (p ++ [0]) = p := cstr_append_zero hname.str.ne_zero []
    have hnamed' : Named s'.vol fileKind o (cstr (p ++ [0])) := by
      rw [hcstr]
      refine ⟨hrev.name o p ho hname', hrev.area.slot.2 ho.1, ?_⟩
      by_cases hmark : s.vol.Pending nodes o
      · exact hrec.type o hmark
      · rw [Vol.type_congr (hrec.same o hmark)]
        exact ho.2.resolve_right fun h => hmark ⟨ho.1, h⟩
    obtain ⟨s'', hopen⟩ := hrec.opens a (p ++ [0]) hp (hcstr.symm ▸ hname)
    obtain ⟨r', s₁, hopen', -, hle⟩ := sfsOpen_first hshow.quiet hshow.coherent hw'.indexed hnamed'
    rw [hopen] at hopen'
    cases hopen'
    exact hle o hnamed'
  · intro hall
    have hrevives : ∀ a, s.vol.Pending nodes a → s.vol.Revives a := by
      intro a hp
      obtain ⟨p, hname, hpath⟩ := hw.fileName a hp.isFile
      have hrec := hall a p hp hname
      exact (hp.revives_iff hname hpath).2 ⟨hrec.short, hrec.long⟩
    refine ⟨fun a hp => hfirst a (hrevives a hp), fun a q hp hname => ?_, fun k hk => ?_⟩
    · have hnamed' := hlive a q (hrevives a hp) hp hname
      obtain ⟨r', s₁, hopen, hn, hle⟩ :=
        sfsOpen_first hshow.quiet hshow.coherent hw'.indexed hnamed'
      obtain ⟨hfile, hname'⟩ := hback r' _ hn
      have heq : r' = a :=
        Nat.le_antisymm (hle a hnamed') ((hall a _ hp hname).first r' hfile hname')
      rw [heq] at hopen
      exact ⟨s₁, hopen⟩
    · -- A node is not taken for a file, so what is taken for one is one.
      exact hrev.same k fun _ hr => hk ⟨hr.1, hr.2.1, fun hmem => (hnamed k hmem).not_revives hr⟩

theorem fixNonDelFile_recovers_iff_unlinked :
    ∃ s r s', s.vol.Pending [3648] 3776 ∧ s.exec (fixNonDelFile fun _ => 0) = some (r, s') ∧
      Recovered s s' [3648] := by
  have hview : (blankRun [.creat pathA, .unlink pathA]).map (fun s' : Session =>
      ([s'.sys.fs.delBegin, s'.sys.vol.next 3648, s'.sys.fs.entryStart, s'.sys.fs.volIdent,
        s'.sys.vol.type 3776], s'.sys.vol.data (3776 + 34),
        (List.range 6).all fun i => s'.sys.vol.data (3648 + (34 + i)) == freeName.char i,
        (List.range 7).all fun i => s'.sys.vol.type (3584 + 64 * i) != 0x12 &&
          (s'.sys.vol.type (3584 + 64 * i) != 0x1A || i == 1 || i == 3)))
      = some ([3648, 0, 3584, 4032, 0x1A], 0x61, true, true) := by decide +kernel
  obtain ⟨s, s', -, hmount, hrun, hview⟩ := blankRun_eq hview
  simp only [Prod.mk.injEq, List.cons.injEq, and_true] at hview
  obtain ⟨⟨hbegin, hnext, hstart, hident, htype⟩, hchar, hstar, hall⟩ := hview
  obtain ⟨hq, hc, nodes, hw⟩ := blankRun_light hmount (by decide +kernel) hrun
  obtain rfl : nodes = [3648] := hw.space.eq_of_begin hbegin (by decide) hnext
  have hnamed : ∀ o, o ∈ [3648] → s'.sys.vol.Starred o := by
    intro o ho i hi
    obtain rfl := List.mem_singleton.1 ho
    exact beq_iff_eq.1 (List.all_eq_true.1 hstar i (List.mem_range.2 hi))
  -- The unlinked file is the only file.
  have honly : ∀ o, s'.sys.vol.IsFile [3648] o → o = 3776 := by
    intro o ho
    have hge : 3584 ≤ o := Nat.le_trans (Nat.le_of_eq hstart.symm) ho.1.ge
    have hlt : o < 4032 := Nat.lt_of_lt_of_eq ho.1.lt hident
    have hal := ho.1.aligned
    have h := List.all_eq_true.1 hall ((o - 3584) / 64) (List.mem_range.2 (by omega))
    rw [show 3584 + 64 * ((o - 3584) / 64) = o by omega] at h
    simp only [Bool.and_eq_true, Bool.or_eq_true, bne_iff_ne, beq_iff_eq] at h
    rcases ho.2 with ht | ⟨ht, hnot⟩
    · exact absurd ht h.1
    · have hne : o ≠ 3648 := fun heq => hnot (List.mem_singleton.2 heq)
      have hcase := h.2.imp_left fun h' => h'.resolve_left fun h'' => h'' ht
      omega
  obtain ⟨r, s₁, hrun₁, hiff⟩ := fixNonDelFile_recovers_iff hq hc hw hnamed fun _ => 0
  have hslot : s'.sys.vol.Slot 3776 :=
    ⟨hstart.trans_le (by decide), Nat.lt_of_lt_of_eq (by decide) hident.symm, by decide⟩
  refine ⟨s'.sys, r, s₁, ⟨hslot, htype, by decide⟩, hrun₁, hiff.2 fun a p hp hname => ?_⟩
  obtain rfl := honly a hp.isFile
  cases p with
  | nil => exact absurd (hname.str.nul.symm.trans hchar) (by decide)
  | cons c p =>
    have hc : c = 0x61 := (hname.str.char 0 (Nat.succ_pos _)).symm.trans hchar
    subst hc
    refine ⟨?_, ?_, fun o ho _ => Nat.le_of_eq (honly o ho).symm⟩
    · exact fun h => absurd (List.cons_prefix_cons.1 h).1 (by decide)
    · exact fun h => absurd (List.cons_prefix_cons.1 h).1 (by decide)

/-- An unlinked file `f` is taken for a free extent. -/
theorem fix_misses_f :
    ∃ s s₁ r s', blankMounted = some s ∧
      run Op.step ⟨s, []⟩ [.creat [0x66, 0], .unlink [0x66, 0]] = some s₁ ∧
      WellFormed s₁.sys.vol [3648] 1 7 ∧ s₁.sys.vol.Pending [3648] 3776 ∧
      s₁.sys.exec (fixNonDelFile fun _ => 0) = some (r, s') ∧ ¬ Recovered s₁.sys s' [3648] := by
  have hview : (blankRun [.creat [0x66, 0], .unlink [0x66, 0]]).map (fun s' : Session =>
      ([s'.sys.fs.delBegin, s'.sys.vol.next 3648, s'.sys.fs.entryStart, s'.sys.fs.volIdent,
        s'.sys.vol.type 3776],
        (s'.sys.exec (fixNonDelFile fun _ => 0)).map fun r => r.2.vol.type 3776))
      = some ([3648, 0, 3584, 4032, 0x1A], some 0x1A) := by decide +kernel
  obtain ⟨s, s₁, -, hmount, hrun, hview⟩ := blankRun_eq hview
  simp only [Prod.mk.injEq, List.cons.injEq, and_true] at hview
  obtain ⟨⟨hbegin, hnext, hstart, hident, htype⟩, hret⟩ := hview
  obtain ⟨hq, hc, nodes, hw⟩ := blankRun_light hmount (by decide +kernel) hrun
  obtain rfl : nodes = [3648] := hw.space.eq_of_begin hbegin (by decide) hnext
  have hp : s₁.sys.vol.Pending [3648] 3776 :=
    ⟨⟨hstart.trans_le (by decide), Nat.lt_of_lt_of_eq (by decide) hident.symm, by decide⟩, htype,
      by decide⟩
  obtain ⟨⟨r, s'⟩, hgo, hret⟩ := Option.map_eq_some_iff.1 hret
  refine ⟨s, s₁, r, s', hmount, hrun, hw, hp, hgo, fun hrec => ?_⟩
  have ht := hrec.type 3776 hp
  rw [hret] at ht
  exact absurd ht (by decide)

end

end Sfs
