import Sfs.Session
import Sfs.ScanEnds

/-!
# Calls that fail

An operation that refuses leaves the volume as it was.

Every operation first looks: it checks the path, searches the index, and walks
the list, and on a device that works none of this stores anything (`Healthy`
says what such a step leaves).  Only then does it store, and from there on it
does not fail any more: what is left of the program has no failure value, or
could fail only through the device.

* `After` is what is known of the runs that return.  Nothing more can be said of
  a path that does not fit the index, for which an operation is undefined;
* `failure_atomic` is the result for the seven operations.
-/

namespace Sfs

open Lib

/-- The function, whenever it returns from the state. -/
abbrev After {α : Type} (p : SfsM α) (s : Sys) (Q : α → Sys → Prop) : Prop :=
  p.Post Sys.handle s Q

/-- A device that works, with a coherent cache, holds the volume. -/
structure Healthy (v : Vol) (s : Sys) : Prop where
  vol : s.vol = v
  quiet : s.dev.Quiet
  coherent : s.dev.Coherent

/-- A device that works, of the geometry of the volume. -/
structure Working (v : Vol) (s : Sys) : Prop where
  blockSize : s.dev.blockSize = v.blockSize
  size : s.dev.size = v.size
  quiet : s.dev.Quiet

section

variable {α β : Type} {v : Vol} {s : Sys} {lo hi file n : Nat} {q : Buf}

theorem Healthy.working (h : Healthy v s) : Working v s :=
  ⟨congrArg Vol.blockSize h.vol, congrArg Vol.size h.vol, h.quiet⟩

/-! ## Steps that only look -/

/-- What a function does to the volume, it does here. -/
theorem Healthy.after {p : SfsM α} {Q : α → Img → Prop} (h : Healthy v s) (hs : v.Sized)
    (hp : ∀ t : Img, t.vol = v → Gives p t Q) :
    After p s fun r s' => ∃ t', Shows s' t' ∧ Q r t' := by
  intro r s' (hrun : s.exec p = some (r, s'))
  obtain ⟨r', s₁, t', hrun', hshow, hQ⟩ :=
    transfer (Sys.shows_img h.quiet h.coherent (by rw [h.vol]; exact hs)) (hp s.img h.vol)
  rw [hrun] at hrun'
  cases hrun'
  exact ⟨t', hshow, hQ⟩

theorem Healthy.of_shows {t : Img} (h : Shows s t) (hvol : t.vol = v) : Healthy v s :=
  ⟨h.vol.trans hvol, h.quiet, h.coherent⟩

/-- A function that changes nothing on the volume. -/
theorem Healthy.looks {p : SfsM α} {P : α → Prop} (h : Healthy v s) (hs : v.Sized)
    (hp : ∀ t : Img, t.vol = v → Gives p t fun r t' => t'.vol = v ∧ P r) :
    After p s fun r s' => Healthy v s' ∧ P r := by
  refine (h.after hs hp).mono fun r s' ⟨t', hshow, hvol, hP⟩ => ?_
  exact ⟨Healthy.of_shows hshow hvol, hP⟩

/-- The end of a call that fails. -/
theorem after_fail (h : Healthy v s) (hs : v.Sized) (code : Nat) {a : α}
    {Q : α → Sys → Prop} (hQ : ∀ s', Healthy v s' → Q a s') :
    After (setErrno code >>= fun _ => pure a) s Q := by
  have hp : ∀ t : Img, t.vol = v → Gives (setErrno code >>= fun _ => (pure a : SfsM α)) t
      fun r t' => t'.vol = v ∧ r = a := by
    intro t hvol
    rw [gives_setErrno, gives_pure]
    exact ⟨hvol, rfl⟩
  refine (h.looks hs hp).mono fun r s' ⟨hs', hr⟩ => ?_
  subst hr
  exact hQ s' hs'

theorem after_uninit (h : Healthy v s) (hs : v.Sized) :
    After uninit s fun _ s' => Healthy v s' := by
  have hp : ∀ t : Img, t.vol = v → Gives uninit t fun _ t' => t'.vol = v ∧ True := by
    intro t hvol
    rw [gives_tail, gives_uninit, gives_pure]
    exact ⟨hvol, trivial⟩
  exact (h.looks hs hp).mono fun _ _ hr => hr.1

/-- A function that has no failure value. -/
theorem after_succeeds {p : SfsM α} {fail : α} (hp : p.All (fun _ => True) fun r => r ≠ fail)
    (s : Sys) (v : Vol) : After p s fun r s' => r = fail → s'.vol = v :=
  (hp.post s).mono fun _ _ hr h => absurd h hr

theorem after_checkDirs (h : Healthy v s) (hw : Indexed v lo hi) (q : Buf) (entr : Entry) :
    After (checkDirs q entr) s fun r s' => Healthy v s' ∧ r.2.1 = q := by
  refine h.looks hw.geometry.sized fun t hvol => ?_
  subst hvol
  exact (gives_checkDirs hw.geometry hw.layout hw.dirNamed entr).mono
    fun r t' hr => ⟨hr.1, hr.2.1⟩

theorem after_searchDir (h : Healthy v s) (hw : Indexed v lo hi) (q : Buf) (entr : Entry) :
    After (searchDir q entr) s fun _ s' => Healthy v s' := by
  have hp : ∀ t : Img, t.vol = v → Gives (searchDir q entr) t fun _ t' => t'.vol = v ∧ True := by
    intro t hvol
    subst hvol
    exact (gives_searchName hw.geometry hw.layout dirKind_fits hw.dirNamed entr).mono
      fun r t' hr => ⟨hr.1, trivial⟩
  exact (h.looks hw.geometry.sized hp).mono fun _ _ hr => hr.1

theorem after_searchFile (h : Healthy v s) (hw : Indexed v lo hi) (q : Buf) (entr : Entry) :
    After (searchFile q entr) s fun _ s' => Healthy v s' := by
  have hp : ∀ t : Img, t.vol = v → Gives (searchFile q entr) t fun _ t' => t'.vol = v ∧ True := by
    intro t hvol
    subst hvol
    exact (gives_searchName hw.geometry hw.layout fileKind_fits hw.fileNamed entr).mono
      fun r t' hr => ⟨hr.1, trivial⟩
  exact (h.looks hw.geometry.sized hp).mono fun _ _ hr => hr.1

/-- The checks that `sfs_creat` and `sfs_rename` make before they look for
slots. -/
theorem after_probe {γ : Type} (fail : γ) (go : Buf → Entry → SfsM (γ × Buf)) (h : Healthy v s)
    (hw : Indexed v lo hi) {Q : γ × Buf → Sys → Prop}
    (hfail : ∀ s', Healthy v s' → Q (fail, q) s')
    (hgo : ∀ entr s', Healthy v s' → After (go q entr) s' Q) (entr : Entry) :
    After (checkDirs q entr >>= fun x =>
      if x.1 ≠ 0 then setErrno eEXIST >>= fun _ => pure (fail, x.2.1)
      else searchDir x.2.1 x.2.2 >>= fun y =>
        if y.1 ≠ 0 then setErrno eEXIST >>= fun _ => pure (fail, x.2.1)
        else searchFile x.2.1 y.2 >>= fun z =>
          if z.1 ≠ 0 then setErrno eEXIST >>= fun _ => pure (fail, x.2.1) else
            go x.2.1 z.2) s Q := by
  have hs := hw.geometry.sized
  refine (after_checkDirs h hw q entr).bind fun ⟨ret, path, entr₁⟩ s₁ ⟨h₁, hpath⟩ => ?_
  dsimp only at hpath ⊢
  subst hpath
  split
  · exact after_fail h₁ hs _ hfail
  · refine (after_searchDir h₁ hw _ entr₁).bind fun ⟨start, entr₂⟩ s₂ h₂ => ?_
    dsimp only
    split
    · exact after_fail h₂ hs _ hfail
    · refine (after_searchFile h₂ hw _ entr₂).bind fun ⟨start', entr₃⟩ s₃ h₃ => ?_
      dsimp only
      split
      · exact after_fail h₃ hs _ hfail
      · exact hgo entr₃ s₃ h₃

/-- Slots that `alloc_entry` returns are slots of the index. -/
theorem after_allocEntry (h : Healthy v s) (hg : Geometry v lo hi) (entr : Entry) {n : Nat}
    (hint : n ≤ 33554432) :
    After (allocEntry entr n) s fun r s' => Healthy v s' ∧ (r.1 = 0 ∨ v.Slot r.1 ∧ 0 < n) := by
  refine h.looks hg.sized fun t hvol => ?_
  subst hvol
  by_cases hn : n = 0
  · rw [allocEntry, if_pos hn, gives_pure]
    exact ⟨rfl, Or.inl rfl⟩
  · have hpos := Nat.pos_of_ne_zero hn
    refine (gives_allocEntry hg.area hg.start_pos hpos hint entr).mono
      fun r t' ⟨hvol, hr⟩ => ⟨hvol, ?_⟩
    rcases hr with ⟨hz, -⟩ | ⟨-, hrun, -⟩
    · exact Or.inl hz
    · exact Or.inr ⟨(hrun 0 hpos).1, hpos⟩

/-! ## Making files and directories -/

/-- `sfs_creat` that fails. -/
theorem after_sfsCreat (h : Healthy v s) (hw : Indexed v lo hi) (q : Buf) :
    After (sfsCreat q) s fun r s' => r.2 = q ∧ (r.1 = -1 → s'.vol = v) := by
  have hs := hw.geometry.sized
  have hfail : ∀ s', Healthy v s' → ((-1 : Int), q).2 = q ∧ ((-1 : Int) = -1 → s'.vol = v) :=
    fun s' h' => ⟨rfl, fun _ => h'.vol⟩
  unfold sfsCreat
  refine (after_uninit h hs).bind fun entr s₁ h₁ => ?_
  split
  · exact after_fail h₁ hs _ hfail
  · refine after_probe (-1 : Int) (fun path e => creatEntry path e >>= fun ret => pure (ret, path))
      h₁ hw hfail (fun e s₂ h₂ => ?_) entr
    have hend : After (creatEntry q e) s₂ fun r s' => r = -1 → s'.vol = v := by
      unfold creatEntry
      refine (after_allocEntry h₂ hw.geometry _ (countEntry_le _ _)).bind
        fun ⟨start, e₁⟩ s₃ ⟨h₃, _⟩ => ?_
      dsimp only
      split
      · exact after_fail h₃ hs _ fun s' h' _ => h'.vol
      · -- Nothing fails after the slots are found.
        apply after_succeeds
        exact Prog.all_tail fun _ => Prog.all_tail fun _ => Prog.all_tail fun _ =>
          Prog.all_tail fun _ => Prog.all_tail fun _ => Prog.all_tail fun _ =>
            Prog.all_pure (by decide)
    refine hend.bind fun ret s₃ hret => ?_
    exact Prog.post_pure ⟨rfl, hret⟩

/-- `sfs_mkdir` that fails. -/
theorem after_sfsMkdir (h : Healthy v s) (hw : Indexed v lo hi) (q : Buf) :
    After (sfsMkdir q) s fun r s' => r.2 = q ∧ (r.1 = -1 → s'.vol = v) := by
  have hs := hw.geometry.sized
  have hfail : ∀ s', Healthy v s' → ((-1 : Int), q).2 = q ∧ ((-1 : Int) = -1 → s'.vol = v) :=
    fun s' h' => ⟨rfl, fun _ => h'.vol⟩
  unfold sfsMkdir
  refine (after_uninit h hs).bind fun entr s₁ h₁ => ?_
  split
  · exact after_fail h₁ hs _ hfail
  · refine (after_checkDirs h₁ hw q entr).bind fun ⟨ret, path, entr₁⟩ s₂ ⟨h₂, hpath⟩ => ?_
    dsimp only at hpath ⊢
    subst hpath
    split
    · exact after_fail h₂ hs _ hfail
    · refine (after_searchDir h₂ hw _ entr₁).bind fun ⟨start, entr₂⟩ s₃ h₃ => ?_
      dsimp only
      split
      · exact after_fail h₃ hs _ hfail
      · have hend : After (mkdirEntry path entr₂) s₃ fun r s' => r = -1 → s'.vol = v := by
          unfold mkdirEntry
          refine (after_allocEntry h₃ hw.geometry _ (countEntry_le _ _)).bind
            fun ⟨start', e₁⟩ s₄ ⟨h₄, _⟩ => ?_
          dsimp only
          split
          · exact after_fail h₄ hs _ fun s' h' _ => h'.vol
          · apply after_succeeds
            exact Prog.all_tail fun _ => Prog.all_tail fun _ => Prog.all_tail fun _ =>
              Prog.all_tail fun _ => Prog.all_tail fun _ => Prog.all_tail fun _ =>
                Prog.all_pure (by decide)
        refine hend.bind fun ret s₄ hret => ?_
        exact Prog.post_pure ⟨rfl, hret⟩

/-! ## Removing -/

/-- `sfs_rmdir` that fails. -/
theorem after_sfsRmdir (h : Healthy v s) (hw : Indexed v lo hi) (q : Buf) :
    After (sfsRmdir q) s fun r s' => r = -1 → s'.vol = v := by
  intro r s' hrun hr
  obtain ⟨t', hshow, hvol⟩ := h.after (Q := fun r t' => r = -1 → t'.vol = v) hw.geometry.sized
    (fun t hvol => by
      subst hvol
      refine (gives_sfsRmdir_iff hw).mono fun r t' hr hfail => ?_
      rcases hr with ⟨-, hvol, -⟩ | ⟨hz, -⟩
      · exact hvol
      · exact absurd (hfail.symm.trans hz) (by decide)) r s' hrun
  exact hshow.vol.trans (hvol hr)

/-- `sfs_unlink` that fails. -/
theorem after_sfsUnlink {nodes : List Nat} (h : Healthy v s) (hw : WellFormed v nodes lo hi)
    (q : Buf) : After (sfsUnlink q) s fun r s' => r = 0 → s'.vol = v := by
  intro r s' hrun hr
  obtain ⟨t', hshow, hvol⟩ := h.after (Q := fun r t' => r = 0 → t'.vol = v) hw.geometry.sized
    (fun t hvol => by
      subst hvol
      refine (gives_sfsUnlink hw).mono fun r t' hr hfail => ?_
      rcases hr with ⟨-, hvol⟩ | ⟨hne, -⟩
      · exact hvol
      · exact absurd hfail hne) r s' hrun
  exact hshow.vol.trans (hvol hr)

/-! ## A device that works -/

theorem Working.exec {p : SfsM α} {a : α} {s' : Sys} (h : Working v s)
    (hrun : s.exec p = some (a, s')) : Working v s' := by
  have hsame := exec_sameDevice hrun
  exact ⟨hsame.blockSize.trans h.blockSize, hsame.size.trans h.size, hsame.quiet h.quiet⟩

/-- A read inside one block returns its size, whatever the cache holds. -/
theorem readData_returns {dev : BlockDev} {off size : Nat} (hq : dev.Quiet)
    (hblock : dev.HasBlock (off / dev.blockSize))
    (hfits : off % dev.blockSize + size ≤ dev.blockSize)
    (hlt : dev.blockSize < 18446744073709551616) (data : Mem) :
    (readData dev off data size).1 = size := by
  have hfirst : ∃ d, readFirst dev (off / dev.blockSize) = (true, d) := by
    unfold readFirst
    by_cases hcached : dev.bufNum = some (off / dev.blockSize)
    · exact ⟨dev, if_pos hcached⟩
    · obtain ⟨d, hread, -⟩ := BlockDev.read_of_works (hq.works 0) hblock
      rw [if_neg hcached, hread]
      exact ⟨_, rfl⟩
  obtain ⟨d, hd⟩ := hfirst
  unfold readData
  dsimp only
  rw [hd]
  dsimp only
  rw [if_pos (by rw [u64_of_lt (by omega)]; exact hfits)]

/-- A copy returns 0 when the blocks it reads are there. -/
theorem copyBlock_returns {dev : BlockDev} (hq : dev.Quiet) (src dest n : Nat)
    (hsrc : ∀ i, i < n → dev.HasBlock (src + i)) : (copyBlock dev src dest n).1 = 0 := by
  induction n generalizing dev src dest with
  | zero => rfl
  | succ n ih =>
    obtain ⟨dev₁, hread, hsame₁, -⟩ := BlockDev.read_of_works (hq.works 0) (hsrc 0 (Nat.succ_pos n))
    obtain ⟨dev₂, hwrite, hsame₂, -⟩ :=
      BlockDev.write_of_works ((hsame₁.quiet hq).works 0) dest
    have hsame := hsame₁.toSameDevice.trans hsame₂
    rw [copyBlock, ← Nat.add_zero src, hread]
    dsimp only
    rw [hwrite]
    refine ih (hsame.quiet hq) _ _ fun i hi => hsame.hasBlock.2 ?_
    rw [Nat.add_zero, Nat.add_assoc, Nat.add_comm 1 i]
    exact hsrc (i + 1) (Nat.succ_lt_succ hi)

theorem Working.hasBlock (h : Working v s) {b : Nat} (hb : v.HasBlock b) : s.dev.HasBlock b := by
  rw [BlockDev.HasBlock, h.blockSize, h.size]
  exact hb

theorem Working.readEntry (h : Working v s) (hs : v.Sized) {off : Nat} (hal : off % 64 = 0)
    (hin : off + 64 ≤ v.size) (entr : Entry) :
    After (readEntry off entr) s fun r s' => r.1 ≠ minusOne ∧ Working v s' := by
  intro r s' hrun
  refine ⟨?_, h.exec hrun⟩
  have hsmall := hs.small
  have hbs := h.blockSize
  have hbig := Nat.le_of_dvd (by omega) hs.blocks
  have hret : (readData s.dev off entr indexEntrySize).1 = indexEntrySize := by
    refine readData_returns h.quiet (h.hasBlock ?_) ?_ (by omega) entr
    · rw [hbs]
      exact hs.hasBlock (by omega)
    · rw [hbs]
      exact hs.fits (by unfold indexEntrySize; omega)
  rw [Sfs.readEntry, if_neg (not_not.2 hal)] at hrun
  have hhandle : Sys.handle (.readData off entr indexEntrySize) s = some (r, s') := hrun
  have hr : r.1 = (readData s.dev off entr indexEntrySize).1 := by
    cases hhandle
    rfl
  rw [hr, hret]
  decide

theorem Working.writeData (h : Working v s) (hs : v.Sized) {off size : Nat}
    (hin : off + size ≤ v.size) (hoff : off < v.size) (data : Mem) :
    After (writeDataM off data size) s fun r _ => r = size := by
  intro r s' hrun
  have hhandle : Sys.handle (.writeData off data size) s = some (r, s') := hrun
  have hbs := h.blockSize
  have hsmall := hs.small
  have hpos := hs.pos
  have hrange : s.dev.HasRange off size := by
    rcases Nat.eq_zero_or_pos size with rfl | hsize
    · intro b hb hb'
      obtain rfl : b = off / s.dev.blockSize := Nat.le_antisymm hb' hb
      rw [hbs]
      exact h.hasBlock (hs.hasBlock hoff)
    · exact BlockDev.hasRange_of_le (by rw [hbs]; exact hpos) (by rw [hbs, h.size]; exact hs.blocks)
        hsize (by rw [h.size]; exact hin)
  have hmod := Nat.mod_le off s.dev.blockSize
  obtain ⟨dev', hwrite, -⟩ := writeData_eq h.quiet (by rw [hbs]; exact hpos) hrange (by omega) data
  have hr : r = (Sfs.writeData s.dev off data size).1 := by
    cases hhandle
    rfl
  rw [hr, hwrite]

theorem Working.copyBlock (h : Working v s) (src dest n : Nat)
    (hsrc : ∀ i, i < n → v.HasBlock (src + i)) :
    After (copyBlockM src dest n) s fun r s' => r = 0 ∧ Working v s' := by
  intro r s' hrun
  have hhandle : Sys.handle (.copyBlock src dest n) s = some (r, s') := hrun
  have hr : r = (Sfs.copyBlock s.dev src dest n).1 := by
    cases hhandle
    rfl
  refine ⟨?_, h.exec hrun⟩
  rw [hr]
  exact copyBlock_returns h.quiet src dest n fun i hi => h.hasBlock (hsrc i hi)

/-! ## Moving files -/

theorem after_readEntry (h : Healthy v s) (hs : v.Sized) {off : Nat}
    (hge : v.fs.entryStart ≤ off) (hal : off % 64 = 0) (hin : off + 64 ≤ v.size) (entr : Entry) :
    After (readEntry off entr) s fun r s' =>
      Healthy v s' ∧ r = (indexEntrySize, v.load off entr) := by
  refine h.looks hs fun t hvol => ?_
  subst hvol
  rw [gives_tail, gives_readEntry hs hge hal hin, gives_pure]
  exact ⟨rfl, rfl⟩

/-- `sfs_delete` has no failure value. -/
theorem all_sfsDelete (file : Nat) : (sfsDelete file).All (fun _ => True) fun r => r = 0 := by
  unfold sfsDelete
  refine Prog.all_tail fun entr => Prog.all_tail fun ⟨ret, entr₁⟩ => ?_
  dsimp only
  split
  · exact Prog.all_tail fun _ => Prog.all_pure rfl
  · exact Prog.all_tail fun _ => Prog.all_tail fun _ => Prog.all_tail fun _ =>
      Prog.all_tail fun _ => Prog.all_tail fun _ => Prog.all_pure rfl

/-- Nothing fails after the old entry is looked at. -/
theorem after_renameEntry (h : Working v s) (hs : v.Sized) {newOff : Nat} (hal : newOff % 64 = 0)
    (hin : newOff + 64 ≤ v.size) (hz : newOff ≠ 0) (q : Buf) (entr : Entry) :
    After (renameEntry file newOff n q entr) s fun r _ => r ≠ 0 := by
  unfold renameEntry
  have hdelete : After (sfsDelete file) s fun r s' => r = 0 ∧ Working v s' := fun r s' hrun =>
    ⟨(all_sfsDelete file).post s r s' hrun, h.exec hrun⟩
  refine hdelete.bind fun ret s₁ ⟨hret, h₁⟩ => ?_
  rw [if_neg (by rw [hret]; decide)]
  refine (h₁.readEntry hs hal hin entr).bind fun ⟨ret', entr'⟩ s₂ ⟨hret', _⟩ => ?_
  dsimp only at hret' ⊢
  rw [if_neg hret']
  refine Prog.All.post (A := fun _ => True) ?_ s₂
  exact Prog.all_tail fun _ => Prog.all_tail fun _ => Prog.all_tail fun _ =>
    Prog.all_tail fun _ => Prog.all_tail fun _ => Prog.all_pure hz

/-- `sfs_rename` that fails. -/
theorem after_sfsRename (h : Healthy v s) (hw : Indexed v lo hi) (hfile : v.Slot file) (q : Buf) :
    After (sfsRename file q) s fun r s' => r.2 = q ∧ (r.1 = 0 → s'.vol = v) := by
  have hg := hw.geometry
  have hs := hg.sized
  have hfail : ∀ s', Healthy v s' → ((0 : Nat), q).2 = q ∧ ((0 : Nat) = 0 → s'.vol = v) :=
    fun s' h' => ⟨rfl, fun _ => h'.vol⟩
  unfold sfsRename
  refine (after_uninit h hs).bind fun entr s₁ h₁ => ?_
  split
  · exact after_fail h₁ hs _ hfail
  · refine after_probe (0 : Nat) (fun path e =>
      let n := countEntry firstFileNameSize (strlen path + 1)
      allocEntry e.zero n >>= fun x =>
        if x.1 = 0 then setErrno eNOSPC >>= fun _ => pure (0, path)
        else readEntry file x.2 >>= fun y =>
          if y.1 = minusOne then setErrno eIO >>= fun _ => pure (0, path)
          else if y.2.get .entryType ≠ EntryType.fileEntry.code then
            setErrno eINVAL >>= fun _ => pure (0, path)
          else renameEntry file x.1 n path y.2 >>= fun ret => pure (ret, path))
      h₁ hw hfail (fun e s₂ h₂ => ?_) entr
    dsimp only
    refine (after_allocEntry h₂ hg _ (countEntry_le _ _)).bind fun ⟨newOff, e₁⟩ s₃ ⟨h₃, hnew⟩ => ?_
    dsimp only at hnew ⊢
    split
    · exact after_fail h₃ hs _ hfail
    · rename_i hz
      obtain ⟨hslot, -⟩ := hnew.resolve_left hz
      refine (after_readEntry h₃ hs hfile.ge hfile.aligned (hg.slot_le hfile) e₁).bind
        fun ⟨ret, e₂⟩ s₄ ⟨h₄, _⟩ => ?_
      dsimp only
      split
      · exact after_fail h₄ hs _ hfail
      · split
        · exact after_fail h₄ hs _ hfail
        · refine (after_renameEntry h₄.working hs hslot.aligned (hg.slot_le hslot) hz q e₂).bind
            fun ret s₅ hret => ?_
          exact Prog.post_pure ⟨rfl, fun h => absurd h hret⟩

/-! ## Giving a file more room -/

theorem after_blockSize (h : Healthy v s) :
    After blockSize s fun r s' => r = v.blockSize ∧ Healthy v s' := by
  rintro _ _ ⟨⟩
  exact ⟨congrArg Vol.blockSize h.vol, h⟩

/-- A block before the index is on the device. -/
theorem Geometry.hasBlock (hg : Geometry v lo hi) {b : Nat} (hb : b < hi) : v.HasBlock b := by
  have hmul := Nat.mul_le_mul_right v.blockSize (Nat.succ_le_of_lt hb)
  have hstart := hg.entryStart
  have hne := hg.nonempty
  have hin := hg.inside
  rw [Nat.succ_mul] at hmul
  unfold Vol.HasBlock
  omega

/-- The bytes from a block on end before the index. -/
theorem Geometry.room (hg : Geometry v lo hi) {start size : Nat}
    (hle : start + blocksOf v.blockSize size ≤ hi) :
    start * v.blockSize + size ≤ v.fs.entryStart := by
  have hcap := le_blocksOf hg.sized.pos size
  have hmul := Nat.mul_le_mul_right v.blockSize hle
  rw [Nat.add_mul, Nat.mul_comm (blocksOf _ _)] at hmul
  rw [hg.entryStart]
  omega

variable {nodes : List Nat} {newSize : Nat}

/-- The attempt to grow a file in place stores something only if it succeeds. -/
theorem after_expandFile (h : Healthy v s) (hw : Blocks v nodes lo hi)
    (hfile : v.IsFile nodes file)
    (hsize : v.blockSize * blocksOf v.blockSize newSize < 18446744073709551616)
    (hmore : blocksOf v.blockSize (v.get file .size) < blocksOf v.blockSize newSize)
    (entr : Entry) :
    After (expandFile file (v.get file .startBlock) newSize entr) s fun r s' =>
      (r.1 ≠ 0 ∧ Healthy v s') ∨ (r.1 = 0 ∧ Working v s' ∧
        v.get file .startBlock * v.blockSize + newSize ≤ v.fs.entryStart) := by
  have hg := hw.geometry
  intro r s' hrun
  obtain ⟨t', hshow, hr⟩ := h.after (Q := fun r t' => (r.1 ≠ 0 ∧ t'.vol = v) ∨
      (r.1 = 0 ∧ v.get file .startBlock + blocksOf v.blockSize newSize ≤ hi)) hg.sized
    (fun t hvol => by
      subst hvol
      refine (gives_expandFile hw hfile hsize hmore entr).mono fun r t' hr => ?_
      refine hr.imp (fun ⟨hne, hvol, _⟩ => ⟨hne, hvol⟩) fun ⟨hz, nodes', hmoved⟩ => ⟨hz, ?_⟩
      rcases hmoved.fits with ⟨hzero, -⟩ | ⟨-, -, hlt, hcount⟩
      · rw [hzero, blocksOf_zero] at hmore
        exact absurd hmore (Nat.not_lt_zero _)
      · omega) r s' hrun
  rcases hr with ⟨hne, hvol⟩ | ⟨hz, hle⟩
  · exact Or.inl ⟨hne, Healthy.of_shows hshow hvol⟩
  · exact Or.inr ⟨hz, h.working.exec hrun, hg.room hle⟩

/-- An extent is taken off the list, or nothing is stored. -/
theorem after_delFileListAlloc (h : Healthy v s) (hg : Geometry v lo hi)
    (hf : FreeSpace v nodes lo hi)
    (hsize : v.blockSize * blocksOf v.blockSize newSize < 18446744073709551616)
    (hpos : 0 < blocksOf v.blockSize newSize) (entr : Entry) :
    After (delFileListAlloc entr newSize) s fun r s' =>
      (r.1 = 0 ∧ Healthy v s') ∨ (r.1 ≠ 0 ∧ Working v s' ∧
        r.1 * v.blockSize + newSize ≤ v.fs.entryStart) := by
  have hlo := hg.lo_pos
  intro r s' hrun
  obtain ⟨t', hshow, hr⟩ := h.after (Q := fun r t' => (r.1 = 0 ∧ t'.vol = v) ∨
      (r.1 ≠ 0 ∧ r.1 + blocksOf v.blockSize newSize ≤ hi)) hg.sized
    (fun t hvol => by
      subst hvol
      refine (gives_delFileListAlloc hg hf (realSize_eq_of_lt hsize) hpos).mono fun r t' hr => ?_
      refine hr.imp (fun ⟨hz, hvol, _⟩ => ⟨hz, hvol⟩) fun ⟨_, a, ha, hstart, hroom, _⟩ => ?_
      have hge := hf.ge a ha
      have hlt := hf.lt a ha
      unfold Vol.extent at hroom
      rw [hstart]
      omega) r s' hrun
  rcases hr with ⟨hz, hvol⟩ | ⟨hne, hle⟩
  · exact Or.inl ⟨hz, Healthy.of_shows hshow hvol⟩
  · exact Or.inr ⟨hne, h.working.exec hrun, hg.room hle⟩

/-- The growth of a file fails only where nothing was stored yet. -/
theorem after_growFile (h : Healthy v s) (hw : Blocks v nodes lo hi) (hfile : v.IsFile nodes file)
    (hsize : v.blockSize * blocksOf v.blockSize newSize < 18446744073709551616)
    (hmore : blocksOf v.blockSize (v.get file .size) < blocksOf v.blockSize newSize) (code : Nat)
    (entr : Entry) :
    After (growFile code file (v.get file .startBlock) (v.get file .endBlock) newSize entr) s
      fun r s' => (r.1 = .error eNOSPC ∧ Healthy v s') ∨ ∃ start stop, r.1 = .ok (start, stop) ∧
        Working v s' ∧ start * v.blockSize + newSize ≤ v.fs.entryStart := by
  have hg := hw.geometry
  have hpos : 0 < blocksOf v.blockSize newSize := Nat.zero_lt_of_lt hmore
  unfold growFile
  refine (after_blockSize h).bind fun bs s₁ ⟨hbs, h₁⟩ => ?_
  refine (after_expandFile h₁ hw hfile hsize hmore entr).bind fun ⟨expanded, e₁⟩ s₂ hexp => ?_
  dsimp only at hexp ⊢
  rcases hexp with ⟨hne, h₂⟩ | ⟨hz, h₂, hroom⟩
  · rw [if_neg hne]
    refine (after_delFileListAlloc h₂ hg hw.space hsize hpos e₁).bind
      fun ⟨start, e₂⟩ s₃ halloc => ?_
    dsimp only at halloc ⊢
    rcases halloc with ⟨hz, h₃⟩ | ⟨hne', h₃, hroom⟩
    · rw [if_pos hz]
      exact Prog.post_pure (Or.inl ⟨rfl, h₃⟩)
    · rw [if_neg hne']
      split
      · rename_i hold
        have hsome : v.get file .size ≠ 0 := fun hz => hold ((hw.start_eq_zero hfile).2 hz)
        obtain ⟨-, hle, hlt, -⟩ := hw.fileExtent hfile hsome
        have hbound := hg.block_lt
        have hadd : After (delFileListAdd e₂ (v.get file .startBlock) (v.get file .endBlock)) s₃
            fun _ s' => Working v s' := fun _ _ hrun => h₃.exec hrun
        refine hadd.bind fun ⟨_, e₃⟩ s₄ h₄ => ?_
        dsimp only
        have hcount : u64 (sub64 (v.get file .endBlock) (v.get file .startBlock) + 1) =
            v.get file .endBlock - v.get file .startBlock + 1 := by
          rw [sub64_of_le hle, u64_of_lt (by omega)]
        rw [hcount]
        refine (h₄.copyBlock _ start _ fun i hi => hg.hasBlock (by omega)).bind
          fun ret s₅ ⟨hret, h₅⟩ => ?_
        rw [if_neg (not_not.2 hret)]
        exact Prog.post_pure (Or.inr ⟨_, _, rfl, h₅, hroom⟩)
      · exact Prog.post_pure (Or.inr ⟨_, _, rfl, h₃, hroom⟩)
  · rw [if_pos hz]
    exact Prog.post_pure (Or.inr ⟨_, _, rfl, h₂, hroom⟩)

/-- A file gets an extent for a size, or nothing is stored. -/
theorem after_extentFor (h : Healthy v s) (hw : Blocks v nodes lo hi) (hfile : v.IsFile nodes file)
    (hsize : v.blockSize * blocksOf v.blockSize newSize < 18446744073709551616) (code : Nat)
    (entr : Entry) :
    After (extentFor code file (v.get file .size) (v.get file .startBlock) (v.get file .endBlock)
        newSize entr) s
      fun r s' => (r.1 = .error eNOSPC ∧ Healthy v s') ∨ ∃ start stop, r.1 = .ok (start, stop) ∧
        Working v s' ∧ start * v.blockSize + newSize ≤ v.fs.entryStart := by
  have hg := hw.geometry
  have hbs := hg.sized.pos
  have hold := hw.size_lt hfile
  have hdev := hg.sized.small
  unfold extentFor
  refine (after_blockSize h).bind fun bs s₁ ⟨hbs', h₁⟩ => ?_
  subst hbs'
  rw [realSize_eq_of_lt hsize, realSize_eq hbs (by omega)]
  split
  · rename_i hless
    exact after_growFile h₁ hw hfile hsize (Nat.lt_of_mul_lt_mul_left hless) code entr
  · rename_i hmore
    have hle : blocksOf v.blockSize newSize ≤ blocksOf v.blockSize (v.get file .size) :=
      Nat.le_of_mul_le_mul_left (Nat.not_lt.1 hmore) hbs
    refine Prog.post_pure (Or.inr ⟨_, _, rfl, h₁.working, hg.room ?_⟩)
    by_cases hz : v.get file .size = 0
    · have hnone : blocksOf v.blockSize newSize = 0 := by
        rw [hz, blocksOf_zero] at hle
        exact Nat.le_zero.1 hle
      rw [hnone, (hw.start_eq_zero hfile).2 hz]
      exact Nat.zero_le hi
    · obtain ⟨-, -, hlt, hcount⟩ := hw.fileExtent hfile hz
      omega

/-! ## Contents -/

/-- `sfs_write` that fails. -/
theorem after_sfsWrite (h : Healthy v s) (hw : Blocks v nodes lo hi) (hfile : v.IsFile nodes file)
    {size off : Nat} (hlt : off + size < 9223372036854775808) (data : Mem) :
    After (sfsWrite file data size off) s fun r s' => r = minusOne → s'.vol = v := by
  have hg := hw.geometry
  have hs := hg.sized
  have hslot := hfile.1
  have hold := hw.size_lt hfile
  have hdev := hs.small
  have hin := hg.inside
  have hne := hg.nonempty
  unfold sfsWrite
  refine (after_uninit h hs).bind fun entr s₁ h₁ => ?_
  refine (after_readEntry h₁ hs hslot.ge hslot.aligned (hg.slot_le hslot) entr).bind
    fun ⟨ret, e₁⟩ s₂ ⟨h₂, hread⟩ => ?_
  obtain ⟨hret, hload⟩ := Prod.mk.inj hread
  dsimp only
  rw [if_neg (by rw [hret]; decide)]
  refine (after_blockSize h₂).bind fun bs s₃ ⟨hbs, h₃⟩ => ?_
  subst hbs hload
  rw [Vol.get_load, Vol.get_load, Vol.get_load, u64_of_lt (by omega)]
  have hnew : (if v.get file .size < off + size then off + size else v.get file .size)
      = max (v.get file .size) (off + size) := by
    split <;> omega
  rw [hnew]
  refine (after_extentFor h₃ hw hfile (hw.written_lt hfile hlt) eIO _).bind
    fun ⟨grown, e₂⟩ s₄ hgrown => ?_
  dsimp only at hgrown ⊢
  rcases hgrown with ⟨rfl, h₄⟩ | ⟨start, stop, rfl, h₄, hroom⟩
  · exact after_fail h₄ hs _ fun s' h' _ => h'.vol
  · dsimp only
    have hset : After (setExtent file start stop (max (v.get file .size) (off + size)) e₂) s₄
        fun _ s' => Working v s' := fun _ _ hrun => h₄.exec hrun
    refine hset.bind fun _ s₅ h₅ => ?_
    have hend : start * v.blockSize + off + size ≤ v.fs.entryStart := by omega
    rw [u64_of_lt (by omega)]
    refine (h₅.writeData hs (by omega) (by omega) data).mono fun r s' hr hfail => ?_
    rw [hr] at hfail
    unfold minusOne at hfail
    omega

theorem all_fileShrink (file newSize : Nat) (entr : Entry) :
    (fileShrink file newSize entr).All (fun _ => True) fun r => r.1 = 0 := by
  unfold fileShrink
  refine Prog.all_tail fun bs => Prog.all_tail fun x => ?_
  dsimp only
  split
  · exact Prog.all_pure rfl
  · exact Prog.all_tail fun _ => Prog.all_pure rfl

/-- `sfs_truncate` that fails. -/
theorem after_sfsTruncate (h : Healthy v s) (hw : Blocks v nodes lo hi)
    (hfile : v.IsFile nodes file) (hlt : newSize < 9223372036854775808) :
    After (sfsTruncate file newSize) s fun r s' => r = -1 → s'.vol = v := by
  have hg := hw.geometry
  have hs := hg.sized
  have hslot := hfile.1
  have hend : ∀ start stop e, (setExtent file start stop newSize e >>= fun _ =>
      (pure 0 : SfsM Int)).All (fun _ => True) fun r => r ≠ -1 := fun start stop e =>
    Prog.all_tail fun _ => Prog.all_pure (by decide)
  unfold sfsTruncate
  refine (after_uninit h hs).bind fun entr s₁ h₁ => ?_
  refine (after_readEntry h₁ hs hslot.ge hslot.aligned (hg.slot_le hslot) entr).bind
    fun ⟨ret, e₁⟩ s₂ ⟨h₂, hread⟩ => ?_
  obtain ⟨hret, hload⟩ := Prod.mk.inj hread
  dsimp only
  rw [if_neg (by rw [hret]; decide)]
  refine (after_blockSize h₂).bind fun bs s₃ ⟨hbs, h₃⟩ => ?_
  subst hbs hload
  rw [Vol.get_load, Vol.get_load, Vol.get_load]
  split
  · apply after_succeeds
    exact Prog.all_tail fun _ => hend _ _ _
  split
  · -- `file_shrink` has no failure value.
    apply after_succeeds
    refine (all_fileShrink file newSize _).bind fun ⟨ret, e₂⟩ hret => ?_
    dsimp only at hret ⊢
    rw [if_neg (not_not.2 hret)]
    exact hend _ _ _
  · have hfits : v.blockSize * blocksOf v.blockSize newSize < 18446744073709551616 := by
      have hdev := hs.small
      have hle := hg.blockSize_le
      exact Nat.lt_of_lt_of_le (blocksOf_lt hs.pos newSize) (by omega)
    refine (after_extentFor h₃ hw hfile hfits eNOSPC _).bind fun ⟨grown, e₂⟩ s₄ hgrown => ?_
    dsimp only at hgrown ⊢
    rcases hgrown with ⟨rfl, h₄⟩ | ⟨start, stop, rfl, h₄, hroom⟩
    · exact after_fail h₄ hs _ fun s' h' _ => h'.vol
    · exact after_succeeds (hend _ _ _) s₄ v

end

/-- An operation that fails on a device that works leaves the volume and the
caller's path as they were. -/
theorem failure_atomic {s : Sys} {nodes : List Nat} {lo hi : Nat} (hq : s.dev.Quiet)
    (hc : s.dev.Coherent) (hw : WellFormed s.vol nodes lo hi) :
    (∀ q q' s', s.exec (sfsCreat q) = some ((-1, q'), s') → s'.vol = s.vol ∧ q' = q) ∧
    (∀ q q' s', s.exec (sfsMkdir q) = some ((-1, q'), s') → s'.vol = s.vol ∧ q' = q) ∧
    (∀ q s', s.exec (sfsRmdir q) = some (-1, s') → s'.vol = s.vol) ∧
    (∀ q s', s.exec (sfsUnlink q) = some (0, s') → s'.vol = s.vol) ∧
    (∀ file q q' s', s.vol.IsFile nodes file →
      s.exec (sfsRename file q) = some ((0, q'), s') → s'.vol = s.vol ∧ q' = q) ∧
    (∀ file data size off s', s.vol.IsFile nodes file → off + size < 9223372036854775808 →
      s.exec (sfsWrite file data size off) = some (minusOne, s') → s'.vol = s.vol) ∧
    ∀ file newSize s', s.vol.IsFile nodes file → newSize < 9223372036854775808 →
      s.exec (sfsTruncate file newSize) = some (-1, s') → s'.vol = s.vol := by
  have h : Healthy s.vol s := ⟨rfl, hq, hc⟩
  have hindex := hw.indexed
  have hb := hw.toBlocks
  refine ⟨fun q q' s' hrun => ?_, fun q q' s' hrun => ?_, fun q s' hrun => ?_,
    fun q s' hrun => ?_, fun file q q' s' hfile hrun => ?_,
    fun file data size off s' hfile hlt hrun => ?_, fun file newSize s' hfile hlt hrun => ?_⟩
  · obtain ⟨hpath, hvol⟩ := after_sfsCreat h hindex q _ _ hrun
    exact ⟨hvol rfl, hpath⟩
  · obtain ⟨hpath, hvol⟩ := after_sfsMkdir h hindex q _ _ hrun
    exact ⟨hvol rfl, hpath⟩
  · exact after_sfsRmdir h hindex q _ _ hrun rfl
  · exact after_sfsUnlink h hw q _ _ hrun rfl
  · obtain ⟨hpath, hvol⟩ := after_sfsRename h hindex hfile.1 q _ _ hrun
    exact ⟨hvol rfl, hpath⟩
  · exact after_sfsWrite h hb hfile hlt data _ _ hrun rfl
  · exact after_sfsTruncate h hb hfile hlt _ _ hrun rfl

/-- A file `a` of two blocks and a directory `b`. -/
def fileAndDir : List Op := [.creat pathA, .write 3776 (fun _ => 7) 600 0, .mkdir pathB]

/-- Paths that are taken, paths that name nothing, and sizes that the disk has no room
for. -/
theorem failure_atomic_fileAndDir :
    ∃ s₀ s, FreshlyMounted blankOpts 512 s₀ ∧ run Op.step ⟨s₀, []⟩ fileAndDir = some s ∧
      (∃ s', s.sys.exec (sfsCreat pathA) = some ((-1, pathA), s') ∧ s'.vol = s.sys.vol) ∧
      (∃ s', s.sys.exec (sfsMkdir pathB) = some ((-1, pathB), s') ∧ s'.vol = s.sys.vol) ∧
      (∃ s', s.sys.exec (sfsRmdir pathA) = some (-1, s') ∧ s'.vol = s.sys.vol) ∧
      (∃ s', s.sys.exec (sfsUnlink pathB) = some (0, s') ∧ s'.vol = s.sys.vol) ∧
      (∃ s', s.sys.exec (sfsRename 3776 pathA) = some ((0, pathA), s') ∧ s'.vol = s.sys.vol) ∧
      (∃ s', s.sys.exec (sfsWrite 3776 (fun _ => 8) 5000 100) = some (minusOne, s') ∧
        s'.vol = s.sys.vol) ∧
      ∃ s', s.sys.exec (sfsTruncate 3776 5000) = some (-1, s') ∧ s'.vol = s.sys.vol := by
  have hview : (blankRun fileAndDir).map (fun s => decide (
      s.sys.vol.LiveFile 3776 ∧ (s.sys.exec (sfsCreat pathA)).map Prod.fst = some (-1, pathA) ∧
        (s.sys.exec (sfsMkdir pathB)).map Prod.fst = some (-1, pathB) ∧
        (s.sys.exec (sfsRmdir pathA)).map Prod.fst = some (-1) ∧
        (s.sys.exec (sfsUnlink pathB)).map Prod.fst = some 0 ∧
        (s.sys.exec (sfsRename 3776 pathA)).map Prod.fst = some (0, pathA) ∧
        (s.sys.exec (sfsWrite 3776 (fun _ => 8) 5000 100)).map Prod.fst = some minusOne ∧
        (s.sys.exec (sfsTruncate 3776 5000)).map Prod.fst = some (-1))) = some true := by
    decide +kernel
  obtain ⟨s₀, s, hfresh, hmount, hrun, hview⟩ := blankRun_eq hview
  obtain ⟨hlive, hcreat, hmkdir, hrmdir, hunlink, hrename, hwrite, htruncate⟩ :=
    of_decide_eq_true hview
  obtain ⟨hq, hc, nodes, hw⟩ := blankRun_light hmount (by decide +kernel) hrun
  have hfile : s.sys.vol.IsFile nodes 3776 := hlive.isFile
  obtain ⟨acreat, amkdir, armdir, aunlink, arename, awrite, atruncate⟩ := failure_atomic hq hc hw
  refine ⟨s₀, s, hfresh, hrun, ?_, ?_, ?_, ?_, ?_, ?_, ?_⟩
  · obtain ⟨⟨r, s'⟩, hcall, rfl⟩ := Option.map_eq_some_iff.1 hcreat
    exact ⟨s', hcall, (acreat _ _ _ hcall).1⟩
  · obtain ⟨⟨r, s'⟩, hcall, rfl⟩ := Option.map_eq_some_iff.1 hmkdir
    exact ⟨s', hcall, (amkdir _ _ _ hcall).1⟩
  · obtain ⟨⟨r, s'⟩, hcall, rfl⟩ := Option.map_eq_some_iff.1 hrmdir
    exact ⟨s', hcall, armdir _ _ hcall⟩
  · obtain ⟨⟨r, s'⟩, hcall, rfl⟩ := Option.map_eq_some_iff.1 hunlink
    exact ⟨s', hcall, aunlink _ _ hcall⟩
  · obtain ⟨⟨r, s'⟩, hcall, rfl⟩ := Option.map_eq_some_iff.1 hrename
    exact ⟨s', hcall, (arename _ _ _ _ hfile hcall).1⟩
  · obtain ⟨⟨r, s'⟩, hcall, rfl⟩ := Option.map_eq_some_iff.1 hwrite
    exact ⟨s', hcall, awrite _ _ _ _ _ hfile (by decide) hcall⟩
  · obtain ⟨⟨r, s'⟩, hcall, rfl⟩ := Option.map_eq_some_iff.1 htruncate
    exact ⟨s', hcall, atruncate _ _ _ hfile (by decide) hcall⟩

end Sfs
