import Sfs.Listing
import Sfs.Session

/-!
# Names and what is found under them

What a name in the index is for: `search_file` and `search_dir` lead from it to
its entry, and `read_file_name` and `read_dir_name` lead back.

* `search_exact` says that a search finds the entry with precisely the path, and
  that nothing else ever matches, and `searchFileMask_exact` the same of a search
  for a prefix;
* `readName_exact_iff` says which buffers a name is read into;
* `creat_mkdir_roundTrip` says that what `sfs_creat` and `sfs_mkdir` write is
  found under the path and read back as it.
-/

namespace Sfs

open Lib

section

variable {s s' : Sys} {kind : NameKind} {q : Buf} {lo hi a : Nat}

/-! ## Searching -/

/-- No two live entries of the kind have the same name. -/
def Vol.OnePerName (v : Vol) (kind : NameKind) : Prop :=
  ∀ a b p, Named v kind a p → Named v kind b p → a = b

/-- The offset and the entry are the answer to a search for the path. -/
structure FindsHead (v : Vol) (kind : NameKind) (path : Buf) (r : Nat × Entry) : Prop where
  finds : ∀ a, Named v kind a path → r.1 = a
  named : r.1 ≠ 0 → Named v kind r.1 path
  entry : r.1 ≠ 0 → ∀ i, i < 64 → r.2 i = v.data (r.1 + i)
  none : (∀ a, ¬ Named v kind a path) → r.1 = 0
  /-- A continuation slot is never found. -/
  apart : ∀ o j, v.Slot o → v.Head o → 0 < j → j ≤ v.cont o → r.1 ≠ o + 64 * j

/-- A search returns on every device that works, and gives the answer. -/
theorem searchName_finds (hq : s.dev.Quiet) (hc : s.dev.Coherent) (hindex : Indexed s.vol lo hi)
    (hk : kind.Fits) (hall : s.vol.AllNamed kind) (hone : s.vol.OnePerName kind) (q : Buf)
    (entr : Entry) :
    ∃ r s', s.exec (searchName kind q entr) = some (r, s') ∧ s'.vol = s.vol ∧
      FindsHead s.vol kind (cstr q) r := by
  have hg := hindex.geometry
  have hl := hindex.layout
  obtain ⟨r, s', t', hrun, hshow, hvol, hres⟩ := transfer (Sys.shows_img hq hc hg.sized)
    (gives_searchName (q := q) hg hl hk hall entr)
  refine ⟨r, s', hrun, hshow.vol.trans hvol, ?_⟩
  rcases hres with ⟨hz, hnone⟩ | ⟨hz, hnamed, -, e, he⟩
  · refine ⟨fun a ha => absurd ha (hnone a), fun h => absurd hz h, fun h => absurd hz h,
      fun _ => hz, fun o j _ _ hj _ => ?_⟩
    omega
  · replace hnamed : Named s.vol kind r.1 (cstr q) := hnamed
    refine ⟨fun a ha => hone _ _ _ hnamed ha, fun _ => hnamed, fun _ i hi => ?_,
      fun h => absurd hnamed (h _), fun o j ho hh hj hj' heq => ?_⟩
    · rw [he]
      exact load_byte hi
    · -- A continuation slot has no type of a head.
      apply hl.pieces o ho hh (j - 1) (by omega)
      rw [Nat.sub_add_cancel hj]
      apply Layout.isType_of_head
      rw [← heq]
      exact hk.isHead hnamed.type

/-- `search_file` and `search_dir` return the head of the live entry of their
kind whose name is the path, with the entry in the buffer, and 0 when there is
none. -/
theorem search_exact (hq : s.dev.Quiet) (hc : s.dev.Coherent) (hindex : Indexed s.vol lo hi)
    (hfile : s.vol.OnePerName fileKind) (hdir : s.vol.OnePerName dirKind) (q : Buf)
    (entr : Entry) :
    (∃ r s', s.exec (searchFile q entr) = some (r, s') ∧ s'.vol = s.vol ∧
      FindsHead s.vol fileKind (cstr q) r) ∧
    ∃ r s', s.exec (searchDir q entr) = some (r, s') ∧ s'.vol = s.vol ∧
      FindsHead s.vol dirKind (cstr q) r :=
  ⟨searchName_finds hq hc hindex fileKind_fits hindex.fileNamed hfile q entr,
    searchName_finds hq hc hindex dirKind_fits hindex.dirNamed hdir q entr⟩

/-- Names that are on a list once are there once. -/
theorem Vol.HasNames.onePerName {v : Vol} {names : List (Nat × Buf)} (h : v.HasNames kind names)
    (hone : ∀ x ∈ names, ∀ y ∈ names, x.2 = y.2 → x.1 = y.1) : v.OnePerName kind :=
  fun a b p ha hb => hone (a, p) (h.named_iff.1 ha) (b, p) (h.named_iff.1 hb) rfl

/-- The file `a/c` and the directory `a` are found. -/
theorem search_exact_smallTree : ∃ s r s₁ r' s₂, SmallTree s ∧
    s.exec (searchFile pathAC fun _ => 0) = some (r, s₁) ∧ r.1 = 3904 ∧
    s.exec (searchDir pathA fun _ => 0) = some (r', s₂) ∧ r'.1 = 3840 := by
  obtain ⟨-, s', -, -, h⟩ := exists_smallTree
  obtain ⟨nodes, hw⟩ := h.wellFormed
  have hfind := search_exact h.quiet h.coherent hw.indexed (h.files.onePerName (by decide))
    (h.dirs.onePerName (by decide))
  obtain ⟨⟨r, s₁, hrun, -, hfile⟩, -⟩ := hfind pathAC fun _ => 0
  obtain ⟨-, r', s₂, hrun', -, hdir⟩ := hfind pathA fun _ => 0
  exact ⟨s'.sys, r, s₁, r', s₂, h, hrun, hfile.finds _ (h.files.named_iff.2 (by decide)), hrun',
    hdir.finds _ (h.dirs.named_iff.2 (by decide))⟩

/-! ## Searching for a prefix -/

/-- The offset and the entry are the answer to a search for the mask from a slot
on: the first live entry whose path starts with the mask, and 0 only when there
is none. -/
structure FindsMask (v : Vol) (mask : Buf) (off : Nat) (r : Nat × Entry) : Prop where
  found : r.1 ≠ 0 → off ≤ r.1 ∧ ∃ p, v.Live r.1 p ∧ mask <+: p
  first : ∀ o p, off ≤ o → v.Live o p → mask <+: p → r.1 ≠ 0 ∧ r.1 ≤ o
  entry : r.1 ≠ 0 → ∀ i, i < 64 → r.2 i = v.data (r.1 + i)

/-- `search_file_mask` finds the first live entry from a slot on whose path
starts with the mask, and leaves it in the buffer. -/
theorem searchFileMask_exact (hq : s.dev.Quiet) (hc : s.dev.Coherent)
    (hindex : Indexed s.vol lo hi) (q : Buf) (entr : Entry) {off : Nat}
    (hge : s.fs.entryStart ≤ off) (hle : off ≤ s.fs.volIdent) (hal : off % 64 = 0) :
    ∃ r s', s.exec (searchFileMask q entr off) = some (r, s') ∧ s'.vol = s.vol ∧
      FindsMask s.vol (cstr q) off r := by
  obtain ⟨r, s', t', hrun, hshow, hvol, hres⟩ := transfer
    (Sys.shows_img hq hc hindex.geometry.sized)
    (gives_searchFileMask (t := s.img) (q := q) hindex.geometry hindex.layout hindex.fileNamed
      hindex.dirNamed entr ⟨hge, hle, hal⟩)
  refine ⟨r, s', hrun, hshow.vol.trans hvol, ?_⟩
  rcases hres with ⟨hz, hnone⟩ | ⟨hz, hle', hlive, hbefore, e, he⟩
  · exact ⟨fun h => absurd hz h, fun o p ho hlive hpre => absurd hpre (hnone o p ho hlive),
      fun h => absurd hz h⟩
  · refine ⟨fun _ => ⟨hle', hlive⟩, fun o p ho hlive' hpre => ⟨hz, ?_⟩, fun _ i hi => ?_⟩
    · by_contra hlt
      exact hbefore o p ho (Nat.not_le.1 hlt) hlive' hpre
    · rw [he]
      exact load_byte hi

/-- With the mask `a/` it finds the file `a/c`, and not the directory `a` before it. -/
theorem searchFileMask_exact_smallTree : ∃ s r s', SmallTree s ∧
    s.exec (searchFileMask [0x61, 0x2F, 0] (fun _ => 0) s.fs.entryStart) = some (r, s') ∧
    r.1 = 3904 := by
  obtain ⟨-, s', -, -, h⟩ := exists_smallTree
  generalize s'.sys = s at h
  obtain ⟨nodes, hw⟩ := h.wellFormed
  have hg := hw.indexed.geometry
  obtain ⟨r, s₁, hrun, -, hfind⟩ := searchFileMask_exact h.quiet h.coherent hw.indexed
    [0x61, 0x2F, 0] (fun _ => 0) (Nat.le_refl _) (Nat.le_of_lt hg.nonempty) hg.start_aligned
  have hfile : Named s.vol fileKind 3904 [0x61, 0x2F, 0x63] := h.files.named_iff.2 (by decide)
  obtain ⟨hz, -⟩ := hfind.first _ _ hfile.slot.ge (Or.inl hfile) (by decide)
  obtain ⟨-, p, hlive, hpre⟩ := hfind.found hz
  have honly : ∀ x ∈ smallEntries, [0x61, 0x2F] <+: x.2 → x.1 = 3904 := by decide
  exact ⟨s, r, s₁, h, hrun, honly _ (h.live_mem hlive) hpre⟩

/-! ## Opening -/

/-- What `sfs_open` gives for a path: the first file that has it, or the first
directory when there is no file. -/
def Vol.Opens (v : Vol) (s : Buf) (a : Nat) : Prop :=
  v.First fileKind a s ∨ (∀ o, ¬ Named v fileKind o s) ∧ v.First dirKind a s

/-- `sfs_open` gives the entry, or 0 when nothing has the path. -/
theorem gives_sfsOpen {t : Img} (hindex : Indexed t.vol lo hi) :
    Gives (sfsOpen q) t fun r t' => t'.vol = t.vol ∧
      ((r = 0 ∧ ∀ o, ¬ t.vol.Live o (cstr q)) ∨ (r ≠ 0 ∧ t.vol.Opens (cstr q) r)) := by
  unfold sfsOpen
  rw [gives_uninit, gives_bind]
  refine (gives_searchName hindex.geometry hindex.layout fileKind_fits hindex.fileNamed _).mono
    fun ⟨r, entr⟩ t₁ ⟨hvol₁, h⟩ => ?_
  dsimp only at h ⊢
  rcases h with ⟨hr, hnofile⟩ | ⟨hr, hnamed, hbefore, -⟩
  · rw [if_neg (not_not.2 hr), gives_bind]
    rw [← hvol₁] at hindex hnofile ⊢
    refine (gives_searchName hindex.geometry hindex.layout dirKind_fits hindex.dirNamed _).mono
      fun ⟨r', entr'⟩ t₂ ⟨hvol₂, h⟩ => ?_
    dsimp only at h ⊢
    rcases h with ⟨hr', hnodir⟩ | ⟨hr', hnamed, hbefore, -⟩
    · rw [if_pos hr', gives_setErrno, gives_pure]
      exact ⟨hvol₂, Or.inl ⟨hr', fun o h => h.elim (hnofile o) (hnodir o)⟩⟩
    · rw [if_neg hr', gives_pure]
      exact ⟨hvol₂, Or.inr ⟨hr', Or.inr ⟨hnofile, hnamed, hbefore⟩⟩⟩
  · rw [if_pos hr, gives_pure]
    exact ⟨hvol₁, Or.inr ⟨hr, Or.inl ⟨hnamed, hbefore⟩⟩⟩

/-- `sfs_open` gives the first file with the path, if there is one. -/
theorem sfsOpen_first (hq : s.dev.Quiet) (hc : s.dev.Coherent) (hindex : Indexed s.vol lo hi)
    (hnamed : Named s.vol fileKind a (cstr q)) :
    ∃ r s', s.exec (sfsOpen q) = some (r, s') ∧ Named s.vol fileKind r (cstr q) ∧
      ∀ o, Named s.vol fileKind o (cstr q) → r ≤ o := by
  obtain ⟨r, s', t', hrun, -, -, hres⟩ := transfer
    (Sys.shows_img hq hc hindex.geometry.sized) (gives_sfsOpen (t := s.img) (q := q) hindex)
  refine ⟨r, s', hrun, ?_⟩
  rcases hres with ⟨-, hnone⟩ | ⟨-, hfirst | ⟨hnofile, -⟩⟩
  · exact absurd (Or.inl hnamed) (hnone a)
  · exact ⟨hfirst.1, fun o ho => Nat.not_lt.1 fun hlt => hfirst.2 o hlt ho⟩
  · exact absurd hnamed (hnofile a)

/-! ## Reading a name -/

/-- What `read_file_name` and `read_dir_name` are for: a buffer of `len` bytes
with room for the name and its terminator gets them, any other makes the call
fail, and nothing is written behind it. -/
structure ReadsName (p buf : Buf) (len : Nat) (r : Int × Buf × Entry) (errno : Nat) : Prop where
  fits : p.length + 1 ≤ len → r.1 = 0 ∧ r.2.1.take (p.length + 1) = p ++ [0]
  short : len < p.length + 1 → r.1 = -1 ∧ errno = eNOMEM
  inside : r.2.1.drop len = buf.drop len

/-- A name is read whenever it should be, and only then, if and only if the
buffer is not just as long as the name with its terminator. -/
theorem readName_exact_iff (hq : s.dev.Quiet) (hc : s.dev.Coherent) (hindex : Indexed s.vol lo hi)
    (hk : kind = fileKind ∨ kind = dirKind) {p : Buf} (hnamed : Named s.vol kind a p)
    {entr : Entry} (hentr : ∀ x, x < 64 → entr x = s.vol.data (a + x)) {buf : Buf} {len : Nat}
    (hlen : 1 ≤ len) (hbuf : len ≤ buf.length) :
    ∃ r s', s.exec (readName kind entr a buf len) = some (r, s') ∧ s'.vol = s.vol ∧
      (ReadsName p buf len r s'.errno ↔ len ≠ p.length + 1) := by
  have hfits : kind.Fits := by
    rcases hk with rfl | rfl
    · exact fileKind_fits
    · exact dirKind_fits
  obtain ⟨r, s', t', hrun, hshow, hvol, -, hr⟩ := transfer
    (Sys.shows_img hq hc hindex.geometry.sized)
    (gives_readName_all (t := s.img) hindex.geometry hindex.layout hfits hnamed hlen hbuf hentr)
  refine ⟨r, s', hrun, hshow.vol.trans hvol, ?_⟩
  split at hr
  · -- There is a place to spare.
    rename_i hroom
    obtain ⟨hret, hstr⟩ := hr
    refine iff_of_true ⟨fun _ => ⟨hret, ?_⟩, fun h => ?_, ?_⟩ (by omega)
    · rw [hstr]
      rw [List.take_append, List.take_of_length_le (Nat.le_succ _), Nat.add_sub_cancel_left]
      rfl
    · omega
    · rw [hstr, List.drop_append, List.drop_eq_nil_of_le (by omega), List.nil_append]
      obtain ⟨k, hk⟩ : ∃ k, len - p.length = k + 1 := ⟨len - p.length - 1, by omega⟩
      rw [hk, List.drop_succ_cons, List.drop_drop]
      congr 1
      omega
  · rename_i hroom
    obtain ⟨hret, herrno, hstr⟩ := hr
    constructor
    · -- A name that just fits is refused.
      intro h heq
      have hz := (h.fits (Nat.le_of_eq heq.symm)).1
      rw [hret] at hz
      exact absurd hz (by decide)
    · intro hne
      refine ⟨fun h => ?_, fun _ => ⟨hret, hshow.errno.trans herrno⟩, ?_⟩
      · omega
      · rw [hstr, List.drop_append, List.drop_eq_nil_of_le, List.nil_append, List.drop_drop,
          List.length_take_of_le (by omega)]
        · congr 1
          omega
        · rw [List.length_take_of_le (by omega)]
          omega

/-! ## Adding a name -/

/-- The entries of a kind have names when one is added. -/
theorem Vol.Added.allNamed {v v' : Vol} {p : Buf} (h : v.Added v' kind a p) (hk : kind.Fits)
    (hl : Layout v) (hall : v.AllNamed kind) : v'.AllNamed kind := by
  intro off hoff ht
  by_cases heq : off = a
  · subst heq
    exact ⟨p, h.named.toHasName⟩
  · have hslot := h.area.slot.1 hoff
    have hout := h.outside_of_head' hslot (hk.isHead ht) heq
    rw [h.type_outside hout] at ht
    obtain ⟨p', hname⟩ := hall off hslot ht
    exact ⟨p', (h.sameGroup hl hslot (hk.isHead ht)).hasName hname⟩

/-- The heads of before, and the new one. -/
theorem Vol.Added.head_iff {v v' : Vol} {p : Buf} {o : Nat} (h : v.Added v' kind a p)
    (hk : kind.Fits) (ho : v.Slot o) : v'.Head o ↔ v.Head o ∨ o = a := by
  have hcongr : ∀ {w w' : Vol}, w'.type o = w.type o → w.Head o → w'.Head o := by
    intro w w' ht hh
    rwa [Head, ht]
  constructor
  · intro hh
    by_cases heq : o = a
    · exact Or.inr heq
    · exact Or.inl (hcongr (h.type_outside (h.outside_of_head' ho hh heq)).symm hh)
  · rintro (hh | rfl)
    · exact hcongr (h.type_outside (h.outside_of_head ho hh)) hh
    · exact hk.isHead h.named.type

/-- A name in a buffer, before its terminator. -/
theorem cstr_append_zero {p : Buf} (hp : ∀ c ∈ p, c ≠ 0) (rest : Buf) :
    cstr (p ++ 0 :: rest) = p := by
  induction p with
  | nil => rfl
  | cons c p ih =>
    rw [List.cons_append, cstr, if_neg (hp c (List.mem_cons_self ..)),
      ih fun d hd => hp d (List.mem_cons_of_mem _ hd)]

/-- The entry at `a` is what was added under the path: its slots were unused,
nothing else changed, its name is read back as the path, and a search for the
path finds it. -/
structure RoundTrip (s s' : Sys) (kind : NameKind) (q : Buf) (a : Nat) : Prop where
  type : s'.vol.type a = kind.type.code
  new : ¬ s.vol.Head a
  heads : ∀ o, s.vol.Slot o → (s'.vol.Head o ↔ s.vol.Head o ∨ o = a)
  unused : s.vol.UnusedRun a (s'.vol.cont a + 1)
  frame : ∀ k, k < a ∨ s'.vol.groupEnd a ≤ k → s'.vol.data k = s.vol.data k
  reads : ∀ (entr : Entry) (buf : Buf) (len : Nat), (∀ x, x < 64 → entr x = s'.vol.data (a + x)) →
    strlen q + 2 ≤ len → len ≤ buf.length →
    ∃ r s'', s'.exec (readName kind entr a buf len) = some (r, s'') ∧ r.1 = 0 ∧
      cstr r.2.1 = cstr q
  found : ∀ entr, ∃ r s'', s'.exec (searchName kind q entr) = some (r, s'') ∧ r.1 = a

/-- An entry that is added under a path that no entry of its kind has. -/
theorem Vol.Added.roundTrip (h : s.vol.Added s'.vol kind a (cstr q))
    (hk : kind = fileKind ∨ kind = dirKind) (hq : s'.dev.Quiet) (hc : s'.dev.Coherent)
    (hindex : Indexed s.vol lo hi) (hnone : ∀ o, ¬ Named s.vol kind o (cstr q)) :
    RoundTrip s s' kind q a := by
  have hl := hindex.layout
  obtain ⟨hfits, hall⟩ : kind.Fits ∧ s.vol.AllNamed kind := by
    rcases hk with rfl | rfl
    · exact ⟨fileKind_fits, hindex.fileNamed⟩
    · exact ⟨dirKind_fits, hindex.dirNamed⟩
  have hg' : Geometry s'.vol lo hi := h.area.geometry hindex.geometry
  have hl' := h.layout hfits hl hindex.geometry
  have hall' := h.allNamed hfits hl hall
  refine ⟨h.named.type, h.not_head, fun o ho => h.head_iff hfits ho, h.unused, h.frame, ?_, ?_⟩
  · intro entr buf len hentr hlen hbuf
    obtain ⟨r, s'', t', hrun, -, -, hr, hstr, -⟩ := transfer (Sys.shows_img hq hc hg'.sized)
      (gives_readName (t := s'.img) hg' hl' hfits h.named
        ((cstr_length q).symm ▸ hlen) hbuf hentr)
    refine ⟨r, s'', hrun, hr, ?_⟩
    rw [hstr]
    exact cstr_append_zero (cstr_ne_zero q) _
  · intro entr
    obtain ⟨r, s'', t', hrun, -, -, hres⟩ := transfer (Sys.shows_img hq hc hg'.sized)
      (gives_searchName (t := s'.img) (q := q) hg' hl' hfits hall' entr)
    refine ⟨r, s'', hrun, ?_⟩
    rcases hres with ⟨-, hnot⟩ | ⟨-, hnamed, -, -⟩
    · exact absurd h.named (hnot a)
    · -- Another entry with the path was there before.
      by_contra hne
      have hslot := h.area.slot.1 hnamed.slot
      have hhead := hfits.isHead hnamed.type
      have hout := h.outside_of_head' hslot hhead hne
      have hold : s.vol.Head r.1 := ((h.head_iff hfits hslot).1 hhead).resolve_right hne
      exact hnone r.1 ((h.sameGroup hl hslot hold).symm.named h.area.symm hnamed)

/-- When `sfs_creat` or `sfs_mkdir` returns 0, there is one new entry of its
kind, in slots that were unused; its name is read back as the path, and a search
for the path finds it. -/
theorem creat_mkdir_roundTrip (hq : s.dev.Quiet) (hc : s.dev.Coherent)
    (hindex : Indexed s.vol lo hi) (hpath : GoodPath q) :
    (∃ r s', s.exec (sfsCreat q) = some (r, s') ∧
      (r.1 = 0 → ∃ a, RoundTrip s s' fileKind q a)) ∧
    ∃ r s', s.exec (sfsMkdir q) = some (r, s') ∧
      (r.1 = 0 → ∃ a, RoundTrip s s' dirKind q a) := by
  have hfail : (-1 : Int) ≠ 0 := by decide
  have hshow := Sys.shows_img hq hc hindex.geometry.sized
  constructor
  · obtain ⟨r, s', t', hrun, hshow', -, hadd, hnone⟩ :=
      transfer hshow (gives_sfsCreat (t := s.img) hindex hpath)
    refine ⟨r, s', hrun, fun hr => ?_⟩
    rcases hadd with ⟨hr', -⟩ | ⟨-, a, hadd, -⟩
    · exact absurd (hr'.symm.trans hr) hfail
    · rw [← hshow'.vol] at hadd
      exact ⟨a, hadd.roundTrip (Or.inl rfl) hshow'.quiet hshow'.coherent hindex
        fun o h => (hnone hr).2.2 o (Or.inl h)⟩
  · obtain ⟨r, s', t', hrun, hshow', -, hadd, hmakes⟩ :=
      transfer hshow (gives_sfsMkdir (t := s.img) hindex hpath)
    refine ⟨r, s', hrun, fun hr => ?_⟩
    rcases hadd with ⟨hr', -⟩ | ⟨-, a, hadd, -⟩
    · exact absurd (hr'.symm.trans hr) hfail
    · rw [← hshow'.vol] at hadd
      exact ⟨a, hadd.roundTrip (Or.inr rfl) hshow'.quiet hshow'.coherent hindex
        (hmakes hr).2.unused⟩

theorem creat_mkdir_roundTrip_pathA : ∃ s r s' r' s'', FreshlyMounted blankOpts 512 s ∧
    s.exec (sfsCreat pathA) = some (r, s') ∧ s.exec (sfsMkdir pathA) = some (r', s'') ∧
    (r.1 = 0 ∧ ∃ a, RoundTrip s s' fileKind pathA a) ∧
    (r'.1 = 0 ∧ ∃ a, RoundTrip s s'' dirKind pathA a) := by
  have hret : (blankMounted.bind fun s => do
      let (r, _) ← s.exec (sfsCreat pathA)
      let (r', _) ← s.exec (sfsMkdir pathA)
      pure (r.1, r'.1)) = some (0, 0) := by decide +kernel
  obtain ⟨s, hs, hret⟩ := Option.bind_eq_some_iff.1 hret
  have hmount := blankMounted_fresh hs
  obtain ⟨hq, hc, hfresh⟩ := hmount.fresh
  obtain ⟨⟨r, s', hrun, hback⟩, r', s'', hrun', hback'⟩ :=
    creat_mkdir_roundTrip hq hc hfresh.wellFormed.indexed pathA_good
  rw [hrun, hrun'] at hret
  obtain ⟨hr, hr'⟩ := Prod.mk.inj (Option.some.inj hret)
  exact ⟨s, r, s', r', s'', hmount, hrun, hrun', ⟨hr, hback hr⟩, hr', hback' hr'⟩

/-! ## A name that just fits -/

/-- The small disk with the file `a` in its root, and nothing else. -/
theorem exists_fileA : ∃ s s', FreshlyMounted blankOpts 512 s ∧
    run Op.step ⟨s, []⟩ [.creat pathA] = some s' ∧ s'.sys.dev.Quiet ∧ s'.sys.dev.Coherent ∧
    (∃ nodes, WellFormed s'.sys.vol nodes 1 7) ∧ Named s'.sys.vol dirKind 3712 [] ∧
    Named s'.sys.vol fileKind 3776 [0x61] := by
  have hview : (blankRun [.creat pathA]).map (fun s => decide (Named s.sys.vol dirKind 3712 [] ∧
      Named s.sys.vol fileKind 3776 [0x61])) = some true := by decide +kernel
  obtain ⟨s, s', hfresh, hmount, hrun, hview⟩ := blankRun_eq hview
  obtain ⟨hq, hc, hw⟩ := blankRun_light hmount (by decide +kernel) hrun
  exact ⟨s, s', hfresh, hrun, hq, hc, hw, of_decide_eq_true hview⟩

/-- The name `a` is not read into two bytes. -/
theorem readName_refuses_fit :
    ∃ s s' r s'', FreshlyMounted blankOpts 512 s ∧
      run Op.step ⟨s, []⟩ [.creat pathA] = some s' ∧ Named s'.sys.vol fileKind 3776 [0x61] ∧
      s'.sys.exec (readName fileKind (s'.sys.vol.load 3776 fun _ => 0) 3776 [0, 0] 2)
        = some (r, s'') ∧ ¬ ReadsName [0x61] [0, 0] 2 r s''.errno := by
  obtain ⟨s, s', hfresh, hrun, hq, hc, ⟨nodes, hw⟩, -, hnamed⟩ := exists_fileA
  have hindex := hw.indexed
  have hload : ∀ x, x < 64 →
      (s'.sys.vol.load 3776 fun _ => 0) x = s'.sys.vol.data (3776 + x) := fun x hx => load_byte hx
  have hbuf : 2 ≤ ([0, 0] : Buf).length := by decide
  obtain ⟨r, s'', t', hread, -, -, -, hr⟩ := transfer (Sys.shows_img hq hc hindex.geometry.sized)
    (gives_readName_all (t := s'.sys.img) hindex.geometry hindex.layout fileKind_fits hnamed
      (by decide) hbuf hload)
  rw [if_neg (by decide)] at hr
  refine ⟨s, s', r, s'', hfresh, hrun, hnamed, hread, fun h => ?_⟩
  have hz := (h.fits (by decide)).1
  rw [hr.1] at hz
  exact absurd hz (by decide)

/-- Three bytes are enough. -/
theorem readName_exact_fileA :
    ∃ (s' : Sys) (r : Int × Buf × Entry) (s'' : Sys), Named s'.vol fileKind 3776 [0x61] ∧
      s'.exec (readName fileKind (s'.vol.load 3776 fun _ => 0) 3776 [0, 0, 0] 3) = some (r, s'') ∧
      ReadsName [0x61] [0, 0, 0] 3 r s''.errno := by
  obtain ⟨s, s', hfresh, hrun, hq, hc, ⟨nodes, hw⟩, -, hnamed⟩ := exists_fileA
  have hindex := hw.indexed
  have hload : ∀ x, x < 64 →
      (s'.sys.vol.load 3776 fun _ => 0) x = s'.sys.vol.data (3776 + x) := fun x hx => load_byte hx
  have hbuf : 3 ≤ ([0, 0, 0] : Buf).length := by decide
  obtain ⟨r, s'', hread, -, hiff⟩ :=
    readName_exact_iff hq hc hindex (Or.inl rfl) hnamed hload (by decide) hbuf
  exact ⟨s'.sys, r, s'', hnamed, hread, hiff.2 (by decide)⟩

end

end Sfs
