import Sfs.Slots

/-!
# The tree of names

The tree is in the full paths alone.  Two facts make it one: no two live
entries have the same path, and the directories of every live path are there.

* `Change.rooted` says that every operation keeps the directories of the live
  paths, and `rooted_run` that they are there after every run;
* `Change.onePath` says the same of the paths, for an `sfs_mkdir` that does not
  find a file of its path: `sfs_mkdir` does not look for one;
* `mkdir_over_file` is the run where it should have.
-/

namespace Sfs

open Lib

/-- The directories of every live path are there. -/
def Vol.Rooted (v : Vol) : Prop := ∀ o p, v.Live o p → v.HasDirs p

/-- No two live entries have one path. -/
def Vol.OnePath (v : Vol) : Prop := ∀ o o' p, v.Live o p → v.Live o' p → o = o'

section Live

variable {v v' w : Vol} {nodes nodes' : List Nat} {lo hi a o file size : Nat} {p s : Buf}

/-- Everything but the deleted file is live as before. -/
theorem Vol.Deleted.live_iff (h : v.Deleted v' nodes nodes' lo hi a) (hp : v.Pending nodes a) :
    v'.Live o p ↔ v.Live o p := by
  by_cases heq : o = a
  · subst heq
    have hnot : ¬ v.Live o p := by
      intro hlive
      rcases hlive with hn | hn <;> exact absurd (hp.2.1.symm.trans hn.type) (by decide)
    have hnot' : ¬ v'.Live o p := by
      intro hlive
      rcases hlive with hn | hn
      · exact h.not_file hn.liveFile.isFile
      · exact h.not_dir hn.isDir
    exact ⟨fun hlive => absurd hlive hnot', fun hlive => absurd hlive hnot⟩
  · exact h.keeps.live_iff heq

/-- A file of another size has its path still. -/
theorem Vol.Resized.live_iff (h : v.Resized v' nodes nodes' lo hi file size)
    (hw : WellFormed v nodes lo hi) (hlive : v.LiveFile file) : v'.Live o p ↔ v.Live o p := by
  by_cases heq : o = file
  · subst heq
    obtain ⟨s, hs, -⟩ := hw.fileName o hlive.isFile
    have hold : Named v fileKind o s := ⟨hs, hlive.1, hlive.2⟩
    have hnew : Named v' fileKind o s := ⟨h.name s hs, h.isFile.1, h.type.trans hlive.2⟩
    constructor
    · intro hl
      rw [hl.unique (Or.inl hnew)]
      exact Or.inl hold
    · intro hl
      rw [hl.unique (Or.inl hold)]
      exact Or.inl hnew
  · exact h.keeps.live_iff heq

/-- A change outside the index changes no path. -/
theorem SameIndex.live_iff (h : SameIndex v v') (hg : Geometry v lo hi) :
    v'.Live o p ↔ v.Live o p := by
  by_cases heq : o = 0
  · subst heq
    have hpos : 0 < v.fs.entryStart := hg.start_pos
    constructor
    · intro hlive
      have hge := (h.area.slot.1 hlive.slot).ge
      omega
    · intro hlive
      have hge := hlive.slot.ge
      omega
  · have hk : v.Keeps v' [] [] 0 := h.keeps 0
    exact hk.live_iff heq

/-- Directories stay when only a file or an unused slot changes. -/
theorem Vol.HasDirs.keeps {n n' : List Nat} (h : v.HasDirs p) (hk : v.Keeps v' n n' a)
    (hnot : ¬ v.IsDir a) : v'.HasDirs p := by
  intro i hi hslash
  obtain ⟨o, ho⟩ := h i hi hslash
  exact ⟨o, hk.named (fun heq => hnot (heq ▸ ho.isDir)) ho⟩

end Live

/-! ## The live paths after an operation -/

/-- What an operation does to the live paths: it makes one at a slot that was
unused, which no live entry of a kind has yet, or makes none. -/
inductive PathChange (v v' : Vol) (op : Op) : Prop where
  | fewer (hold : ∀ o p, v'.Live o p → v.Live o p)
  | more {a : Nat} {q : Buf} (hold : ∀ o p, v'.Live o p → v.Live o p ∨ (o = a ∧ p = q))
      (hdirs : v.HasDirs q) (hnone : (∀ o, ¬ v.Live o q) ∨
        ∃ path, op = .mkdir path ∧ q = cstr path ∧ v.MakesDir path)

theorem Change.paths {V V' : View} {lo hi : Nat} {op : Op} (h : Change lo hi V op V')
    (hV : V.Sound lo hi) : PathChange V.vol V'.vol op := by
  have hw := hV.toWellFormed
  have hl := hw.layout
  cases h with
  | same => exact .fewer fun _ _ h => h
  | created hadd hpath hdirs hnone hempty =>
    exact .more (fun o p hlive => (hadd.live_iff (Or.inl rfl) hl).1 hlive) hdirs (Or.inl hnone)
  | madeDir hadd hpath hmakes =>
    exact .more (fun o p hlive => (hadd.live_iff (Or.inr rfl) hl).1 hlive) hmakes.dirs
      (Or.inr ⟨_, rfl, rfl, hmakes⟩)
  | removed hname honly hrel => exact .fewer fun o p hlive => ((hrel.live_iff hl).1 hlive).1
  | unlinked hname htype => exact .fewer fun o p hlive => ((htype.live_iff hl).1 hlive).1
  | deleted hdel hmem =>
    exact .fewer fun o p hlive => (hdel.live_iff (hV.unlinked _ hmem)).1 hlive
  | @renamed v' w q file a hlive hpath hgoes _ hren =>
    refine .more (a := a) (fun o p hl' => ?_) hgoes.dirs (Or.inl hgoes.unused)
    have hmid := hren.released.layout hl hw.geometry
    exact ((hren.added.live_iff (Or.inl rfl) hmid).1 hl').imp_left fun h =>
      ((hren.released.live_iff hl).1 h).1
  | @written v' w nodes' file size off data hlive hres hstored =>
    have hfit : off + size ≤ w.get file .size := by
      rw [hres.size]
      exact Nat.le_max_right _ _
    subst hstored
    refine .fewer fun o p hl' => (hres.live_iff hw hlive).1 ?_
    exact ((hres.blocks.stored_sameIndex hres.isFile hfit data).live_iff hres.blocks.geometry).1 hl'
  | truncated hlive hres => exact .fewer fun o p hl' => (hres.live_iff hw hlive).1 hl'

/-! ## The directories of the live paths -/

/-- The directories that an operation leaves.  Only `sfs_rmdir` takes one, when
there is nothing under it. -/
theorem Change.dirs {V V' : View} {lo hi : Nat} {op : Op} (h : Change lo hi V op V')
    (hV : V.Sound lo hi) {p : Buf} (hdirs : V.vol.HasDirs p)
    (hlive : ∃ o, V'.vol.Live o p) : V'.vol.HasDirs p := by
  have hw := hV.toWellFormed
  have hl := hw.layout
  have hf := hw.space.toFreeList
  have hfile : ∀ {a : Nat}, V.vol.LiveFile a → ¬ V.vol.IsDir a := fun h hd =>
    absurd (h.2.symm.trans hd.2) (by decide)
  cases h with
  | same => exact hdirs
  | created hadd _ _ _ _ | madeDir hadd _ _ =>
    exact hdirs.keeps (n := V.nodes) (hadd.keeps hl) fun hd => hadd.not_head hd.head
  | @removed v' q a hname honly hrel =>
    obtain ⟨o, ho⟩ := hlive
    obtain ⟨hold, hne⟩ := (hrel.live_iff hl).1 ho
    intro i hi hslash
    obtain ⟨d, hd⟩ := hdirs i hi hslash
    have hkeep : V.vol.Keeps v' V.nodes V.nodes a := hrel.keeps hl
    refine ⟨d, hkeep.named (fun heq => hne ?_) hd⟩
    -- The directory that went would have had this path under it.
    subst heq
    refine honly o p hold ?_
    rw [hname.toHasName.unique hd.toHasName]
    exact List.take_prefix i p
  | unlinked hname htype =>
    exact hdirs.keeps (n := V.nodes) (htype.keeps hl) (hfile hname.liveFile)
  | deleted hdel hmem =>
    exact hdirs.keeps hdel.keeps fun hd => hd.not_pending (hV.unlinked _ hmem)
  | renamed hlive' hpath hgoes _ hren =>
    have hmid : Vol.HasDirs _ p := hdirs.keeps (n := V.nodes) (hren.released.keeps hl)
      (hfile hlive')
    exact hmid.keeps (n := V.nodes) (hren.added.keeps (hren.released.layout hl hw.geometry))
      fun hd => hren.added.not_head hd.head
  | @written v' w nodes' file size off data hlive' hres hstored =>
    have hfit : off + size ≤ w.get file .size := by
      rw [hres.size]
      exact Nat.le_max_right _ _
    have hsame := hres.blocks.stored_sameIndex hres.isFile hfit data
    subst hstored
    refine Vol.HasDirs.keeps (n := nodes') (a := 0) (hdirs.keeps hres.keeps (hfile hlive'))
      (hsame.keeps 0) fun hd => ?_
    exact absurd (hres.blocks.geometry.slot_pos hd.1) (Nat.lt_irrefl 0)
  | truncated hlive' hres => exact hdirs.keeps hres.keeps (hfile hlive')

/-- An operation leaves no path without its directories. -/
theorem Change.rooted {V V' : View} {lo hi : Nat} {op : Op} (h : Change lo hi V op V')
    (hV : V.Sound lo hi) (hroot : V.vol.Rooted) : V'.vol.Rooted := by
  intro o p hlive
  refine h.dirs hV ?_ ⟨o, hlive⟩
  cases h.paths hV with
  | fewer hold => exact hroot o p (hold o p hlive)
  | more hold hdirs hnone =>
    rcases hold o p hlive with hold | ⟨-, rfl⟩
    · exact hroot o p hold
    · exact hdirs

theorem Fresh.rooted {v : Vol} {opts : SfsOptions} {bs : Nat} (h : Fresh v opts bs) :
    v.Rooted := by
  intro o p hlive i hi
  rw [(h.live_root hlive).2] at hi
  exact absurd hi (Nat.not_lt_zero i)

/-- After every run of the plain operations from the first mount on, the
directories of every live path are there. -/
theorem rooted_run {opts : SfsOptions} {bs : Nat} {s : Sys} (hs : FreshlyMounted opts bs s)
    {ops : List Op} (hops : MeetsOps (fun v p op => op.Plain ∧ op.Accepts v p) ⟨s, []⟩ ops)
    (n : Nat) :
    ∃ s', run Op.step ⟨s, []⟩ (ops.take n) = some s' ∧
      ∀ o p, s'.sys.vol.Live o p → ∀ i (hi : i < p.length), p[i] = 0x2F →
        ∃ d, Named s'.sys.vol dirKind d (p.take i) := by
  obtain ⟨s', V', hrun, hat', -, hroot⟩ := run_changes (I := fun V => V.vol.Rooted)
    (C := fun v p op => op.Plain ∧ op.Accepts v p) (fun V _ _ _ h => ⟨h.2, h.1.safe V.vol⟩)
    (fun _ _ _ hV hroot _ hch => hch.rooted hV hroot) hs.start.1 hs.start.2
    hs.fresh.2.2.rooted hops n
  exact ⟨s', hrun, hat'.vol ▸ hroot⟩

/-- A file in a directory, which can then not be removed. -/
def fileInDir : List Op := [.mkdir pathA, .creat pathAC, .rmdir pathA]

theorem rooted_run_blankDisk :
    ∃ s s', FreshlyMounted blankOpts 512 s ∧
      run Op.step ⟨s, []⟩ (fileInDir.take 3) = some s' ∧
      ∀ o p, s'.sys.vol.Live o p → ∀ i (hi : i < p.length), p[i] = 0x2F →
        ∃ d, Named s'.sys.vol dirKind d (p.take i) := by
  have hsome : blankMounted.isSome = true := by decide +kernel
  obtain ⟨s, hmount⟩ := Option.isSome_iff_exists.1 hsome
  have hfresh := blankMounted_fresh hmount
  have hops : MeetsOps (fun v p op => op.Accepts v p) ⟨s, []⟩ fileInDir :=
    blankRun_meets hmount (by decide +kernel)
  have hplain : ∀ op ∈ fileInDir, op.Plain := by simp [fileInDir, Op.Plain]
  obtain ⟨s', hrun, hroot⟩ := rooted_run hfresh
    ((hops.and_forall hplain).mono fun _ _ hop => ⟨hop.2, hop.1⟩) 3
  exact ⟨s, s', hfresh, hrun, hroot⟩

/-! ## One path, one entry -/

/-- `sfs_mkdir` makes no directory where there is a file. -/
def Op.KeepsPaths (v : Vol) : Op → Prop
  | mkdir path => v.MakesDir path → ∀ o, ¬ Named v fileKind o (cstr path)
  | _ => True

/-- An operation that makes no directory where there is a file gives no path to
a second entry. -/
theorem Change.onePath {V V' : View} {lo hi : Nat} {op : Op} (h : Change lo hi V op V')
    (hV : V.Sound lo hi) (hop : op.KeepsPaths V.vol) (hone : V.vol.OnePath) :
    V'.vol.OnePath := by
  intro o o' p hlive hlive'
  cases h.paths hV with
  | fewer hold => exact hone o o' p (hold o p hlive) (hold o' p hlive')
  | @more a q hold _ hnone =>
    have hnew : ∀ o, ¬ V.vol.Live o q := by
      rcases hnone with hnone | ⟨path, rfl, rfl, hmakes⟩
      · exact hnone
      · exact fun o h => h.elim (hop hmakes o) (hmakes.unused o)
    rcases hold o p hlive with hl | ⟨rfl, rfl⟩ <;> rcases hold o' p hlive' with hl' | ⟨heq, heq'⟩
    · exact hone o o' p hl hl'
    · exact absurd (heq' ▸ hl) (hnew o)
    · exact absurd hl' (hnew o')
    · exact heq.symm

/-- The operations that make, move and remove names. -/
def Op.Naming : Op → Prop
  | .write .. | .truncate .. => False
  | _ => True

/-- Every live file is empty. -/
def Vol.AllEmpty (v : Vol) : Prop := ∀ o, v.LiveFile o → v.get o .size = 0

section AllEmpty

variable {v v' : Vol} {n n' : List Nat} {a : Nat}

theorem Vol.AllEmpty.keeps (h : v.AllEmpty) (hk : v.Keeps v' n n' a)
    (hnew : v'.LiveFile a → v'.get a .size = 0) : v'.AllEmpty := by
  intro o ho
  by_cases heq : o = a
  · subst heq
    exact hnew ho
  · have hfile := (hk.file o heq).1 ho.isFile
    have hsame := hk.sameFile o heq hfile
    rw [hsame.get_eq]
    exact h o ⟨hfile.1, (hsame.get_eq _).symm.trans ho.2⟩

end AllEmpty

/-- The naming operations make no file that is not empty. -/
theorem Change.allEmpty {V V' : View} {lo hi : Nat} {op : Op} (h : Change lo hi V op V')
    (hV : V.Sound lo hi) (hop : op.Naming) (hempty : V.vol.AllEmpty) : V'.vol.AllEmpty := by
  have hw := hV.toWellFormed
  have hl := hw.layout
  cases h with
  | same => exact hempty
  | created hadd _ _ _ hzero =>
    exact hempty.keeps (n := V.nodes) (hadd.keeps hl) fun _ => hzero.1
  | madeDir hadd _ _ =>
    exact hempty.keeps (n := V.nodes) (hadd.keeps hl) fun hlive =>
      absurd (hlive.2.symm.trans hadd.named.type) (by decide)
  | removed _ _ hrel =>
    exact hempty.keeps (n := V.nodes) (hrel.keeps hl) fun hlive =>
      absurd hlive.head hrel.not_head
  | unlinked _ htype =>
    exact hempty.keeps (n := V.nodes) (htype.keeps hl) fun hlive =>
      absurd (hlive.2.symm.trans htype.type) (by decide)
  | deleted hdel hmem =>
    exact hempty.keeps hdel.keeps fun hlive => absurd hlive.isFile hdel.not_file
  | renamed _ _ _ _ hren =>
    have hmid : Vol.AllEmpty _ := hempty.keeps (n := V.nodes) (hren.released.keeps hl)
      fun hlive => absurd hlive.head hren.released.not_head
    exact hmid.keeps (n := V.nodes) (hren.added.keeps (hren.released.layout hl hw.geometry))
      fun _ => hren.size
  | written | truncated => exact hop.elim

theorem Op.Naming.safe {op : Op} (h : op.Naming) {v : Vol} {pending : List Nat}
    (hacc : op.Accepts v pending) (hempty : v.AllEmpty) : op.Safe v := by
  cases op with
  | write | truncate => exact h.elim
  | rename file newpath => exact fun _ => hempty file hacc.1
  | _ => exact trivial

/-- After every run of the naming operations from the first mount on, in which
no `sfs_mkdir` makes a directory where there is a file, no two live entries have
one path. -/
theorem onePath_run {opts : SfsOptions} {bs : Nat} {s : Sys} (hs : FreshlyMounted opts bs s)
    {ops : List Op}
    (hops : MeetsOps (fun v p op => op.Naming ∧ op.Accepts v p ∧ op.KeepsPaths v) ⟨s, []⟩ ops)
    (n : Nat) :
    ∃ s', run Op.step ⟨s, []⟩ (ops.take n) = some s' ∧
      ∀ o o' p, s'.sys.vol.Live o p → s'.sys.vol.Live o' p → o = o' := by
  have hfresh := hs.fresh.2.2
  obtain ⟨s', V', hrun, hat', -, hone, -⟩ := run_changes
    (I := fun V => V.vol.OnePath ∧ V.vol.AllEmpty)
    (C := fun v p op => op.Naming ∧ op.Accepts v p ∧ op.KeepsPaths v)
    (fun _ _ _ hI h => ⟨h.2.1, h.1.safe h.2.1 hI.2⟩)
    (fun _ _ _ hV hI h hch => ⟨hch.onePath hV h.2.2 hI.1, hch.allEmpty hV h.1 hI.2⟩)
    hs.start.1 hs.start.2
    ⟨fun o o' p hl hl' => (hfresh.live_root hl).1.trans (hfresh.live_root hl').1.symm,
      fun o ho => absurd ho.isFile hfresh.not_isFile⟩ hops n
  exact ⟨s', hrun, hat'.vol ▸ hone⟩

/-- A file is made in a directory, and then moved out of it. -/
def moveOut : List Op := [.mkdir pathA, .creat pathAC, .rename 3840 pathB]

theorem onePath_run_blankDisk :
    ∃ s s', FreshlyMounted blankOpts 512 s ∧
      run Op.step ⟨s, []⟩ (moveOut.take 3) = some s' ∧
      ∀ o o' p, s'.sys.vol.Live o p → s'.sys.vol.Live o' p → o = o' := by
  have hsome : blankMounted.isSome = true := by decide +kernel
  obtain ⟨s, hmount⟩ := Option.isSome_iff_exists.1 hsome
  have hfresh := blankMounted_fresh hmount
  obtain ⟨hgood, hrest⟩ : MeetsOps (fun v p op => op.Accepts v p) ⟨s, []⟩ moveOut :=
    blankRun_meets hmount (by decide +kernel)
  -- On the fresh volume there is no file that has the path of the directory.
  have hkeeps : Op.KeepsPaths s.vol (.mkdir pathA) := fun _ o hn =>
    absurd hn.liveFile.isFile hfresh.fresh.2.2.not_isFile
  have hothers : ∀ op ∈ moveOut.tail, op.Naming ∧ ∀ v, op.KeepsPaths v := by
    simp [moveOut, Op.Naming, Op.KeepsPaths]
  have hops : MeetsOps (fun v p op => op.Naming ∧ op.Accepts v p ∧ op.KeepsPaths v) ⟨s, []⟩
      moveOut :=
    ⟨⟨trivial, hgood, hkeeps⟩, fun s₁ hs₁ => ((hrest s₁ hs₁).and_forall hothers).mono
      fun _ _ hop => ⟨hop.2.1, hop.1, hop.2.2 _⟩⟩
  obtain ⟨s', hrun, hone⟩ := onePath_run hfresh hops 3
  exact ⟨s, s', hfresh, hrun, hone⟩

/-- `sfs_creat` and then `sfs_mkdir` of one path both succeed. -/
theorem mkdir_over_file :
    ∃ s s', FreshlyMounted blankOpts 512 s ∧
      run Op.step ⟨s, []⟩ [.creat pathA, .mkdir pathA] = some s' ∧
      ¬ ∀ o o' p, s'.sys.vol.Live o p → s'.sys.vol.Live o' p → o = o' := by
  have hview : (blankRun [.creat pathA, .mkdir pathA]).map (fun s' =>
      decide (Named s'.sys.vol fileKind 3776 [0x61] ∧ Named s'.sys.vol dirKind 3840 [0x61]))
      = some true := by decide +kernel
  obtain ⟨s, s', hfresh, -, hrun, hview⟩ := blankRun_eq hview
  obtain ⟨hfile, hdir⟩ := of_decide_eq_true hview
  refine ⟨s, s', hfresh, hrun, fun hone => ?_⟩
  exact absurd (hone _ _ _ (Or.inl hfile) (Or.inr hdir)) (by decide)

end Sfs
