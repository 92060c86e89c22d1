import Sfs.Callbacks

/-!
# The numbers of inodes

`fuse_sfs_readdir` and `fuse_sfs_getattr` both report the number that the inode
map gives to an offset.  `fuse_sfs_getattr` asks for the offset of the entry.
`fuse_sfs_readdir` asks for `cur_off`, which `sfs_readdir` has moved behind the
entry.

`stIno_eq_iff` says when the two report the same number for a child: only when
`sfs_open` of its path finds the slot right behind the entry that was listed.
-/

namespace Sfs

open Lib Fuse

section

variable {v : Vol} {d p q : Buf} {a o : Nat}

theorem cstr_drop (buf : Buf) {k : Nat} (hk : k ≤ strlen buf) :
    cstr (buf.drop k) = (cstr buf).drop k := by
  induction buf generalizing k with
  | nil => simp [cstr]
  | cons c buf ih =>
    cases k with
    | zero => rfl
    | succ k =>
      by_cases hc : c = 0
      · simp [strlen, hc] at hk
      · rw [strlen, if_neg hc] at hk
        simp [cstr, hc, ih (Nat.le_of_succ_le_succ hk)]

theorem newPath_length (path : Buf) : (newPath path).length = pathMax := by
  unfold newPath pathMax
  simp only [List.length_append, List.length_replicate, List.length_take]
  omega

/-- A path that is short enough is copied whole. -/
theorem cstr_newPath {path : Buf} (h : strlen path + 2 ≤ pathMax) :
    cstr (newPath path) = cstr path := by
  have hlen := cstr_length path
  unfold newPath pathMax at *
  simp only
  rw [List.take_of_length_le (by omega)]
  obtain ⟨n, hn⟩ : ∃ n, 4096 - (cstr path).length = n + 1 := ⟨4095 - (cstr path).length, by omega⟩
  rw [hn, List.replicate_succ]
  exact cstr_append_zero (cstr_ne_zero path) _

/-- `sfs_open` gives one entry. -/
theorem Vol.Opens.unique {o' : Nat} (h : v.Opens p o) (h' : v.Opens p o') : o = o' := by
  rcases h with h | ⟨hnone, h⟩
  · rcases h' with h' | ⟨hnone', -⟩
    · exact h.unique h'
    · exact absurd h.1 (hnone' o)
  · rcases h' with h' | ⟨-, h'⟩
    · exact absurd h'.1 (hnone o')
    · exact h.unique h'

theorem Vol.Opens.live (h : v.Opens p o) : v.Live o p := by
  rcases h with h | ⟨-, h⟩
  · exact Or.inl h.1
  · exact Or.inr h.1

/-- What the item says about an entry of the directory in slot `off`. -/
def Dirent.listed (item : Dirent) (d : Buf) (off : Nat) : Listed :=
  ⟨dirMask d ++ item.name, item.type, item.size, item.time, off + indexEntrySize⟩

/-- The name that the `filler` is given is the path of the entry without that of
the directory. -/
theorem Vol.Lists.listed {iter : DirIter} {name : Buf} {len add vino : Nat}
    (h : v.Lists d o (iter.listed (cstr name))) (hadd : len + add = (dirMask d).length) :
    (⟨cstr (name.drop (len + add)), vino, iter.type, iter.size, iter.time⟩ : Dirent).listed d o =
      iter.listed (cstr name) := by
  have hmask : dirMask d <+: cstr name := (isChild_iff.1 h.child).1
  have hle : (dirMask d).length ≤ strlen name := by
    rw [← cstr_length]
    exact hmask.length_le
  have hcur : iter.curOff = o + indexEntrySize := h.curOff
  unfold Dirent.listed DirIter.listed
  rw [hadd, cstr_drop name hle, ← List.prefix_iff_eq_append.1 hmask, hcur]
  simp

end

section

variable {s : Fuse} {v : Vol} {nodes : List Nat} {lo hi a dir : Nat} {d q name : Buf}
  {iter : DirIter}

/-- An item of a listing: the number in it is that of the offset behind the
entry. -/
def Numbered (v : Vol) (d : Buf) (m : InodeMap) (item : Dirent) : Prop :=
  item.ino ≠ 0 ∧ ∃ o, v.Lists d o (item.listed d o) ∧ m.getVino (o + indexEntrySize) = item.ino

theorem Numbered.grows {m m' : InodeMap} {item : Dirent} (h : Numbered v d m item)
    (hg : m.Grows m') : Numbered v d m' item := by
  obtain ⟨hz, o, hlists, hv⟩ := h
  exact ⟨hz, o, hlists, (hg.getVino (by rw [hv]; exact hz)).trans hv⟩

/-- The loop of `fuse_sfs_readdir` from a cursor on. -/
theorem leads_fuseReaddirLoop (h : Healthy v s.sys) (hw : WellFormed v nodes lo hi)
    (hdir : Named v dirKind dir d) (hname : cstr name = d) (hroom : d.length + 2 ≤ iter.len)
    (hbuf : iter.len ≤ name.length) (hadd : d.length + a = (dirMask d).length)
    (full : Nat → Bool) (fuel k off : Nat)
    (hoff : off = if iter.curOff = 0 then v.fs.entryStart else iter.curOff)
    (hge : v.fs.entryStart ≤ off) (hle : off ≤ v.fs.volIdent) (hal : off % 64 = 0)
    (hfuel : (v.fs.volIdent - off) / 64 < fuel) :
    Leads (fuseReaddirLoop d.length a full fuel k iter name) s fun r s' =>
      Healthy v s'.sys ∧ s.map.Grows s'.map ∧ ∀ item ∈ r.2, Numbered v d s'.map item := by
  induction fuel generalizing s off k iter name with
  | zero => omega
  | succ fuel ih =>
    have hindex := hw.indexed
    rw [fuseReaddirLoop, leads_bind]
    refine (h.call hindex.geometry.sized (P := fun r => v.TooLong iter.len r ∨
      v.Answers d off iter name.length r) fun t hvol => ?_).mono ?_
    · subst hvol hname
      exact gives_sfsReaddir hindex
        (fun o p hlive => isCorrectString_of_isPath (hw.isPath hlive) _) hroom hdir hbuf hoff hge
        hle hal
    rintro ⟨ret, iter', filename⟩ s₁ ⟨h₁, hmap₁, hres⟩
    dsimp only
    rcases hres with ⟨hret, -⟩ | ⟨hret, hlen', hans⟩
    · dsimp only at hret
      rw [hret, if_pos (by decide), leads_pure]
      exact ⟨h₁, by rw [hmap₁]; exact InodeMap.Grows.refl _, fun item hitem => nomatch hitem⟩
    dsimp only at hret hlen' hans
    rw [hret, if_neg (not_not.2 rfl)]
    rcases hans with ⟨rfl, -⟩ | ⟨name', o, rfl, hroom', hpre, hlists, ho, -⟩
    · dsimp only
      rw [leads_pure]
      exact ⟨h₁, by rw [hmap₁]; exact InodeMap.Grows.refl _, fun item hitem => nomatch hitem⟩
    dsimp only
    rw [leads_bind]
    have hcur : iter'.curOff = o + indexEntrySize := hlists.curOff
    refine (leads_vinoFor s₁ iter'.curOff).mono fun vino s₂ ⟨hsys₂, hgrows₂, hvino⟩ => ?_
    rw [hmap₁] at hgrows₂
    rw [← hsys₂] at h₁
    by_cases hz : vino = 0
    · rw [if_pos hz, leads_pure]
      exact ⟨h₁, hgrows₂, fun item hitem => nomatch hitem⟩
    rw [if_neg hz]
    -- The number of the item is that of the cursor.
    have hitem : Numbered v d s₂.map ⟨cstr (name'.drop (d.length + a)), vino, iter'.type,
        iter'.size, iter'.time⟩ := by
      refine ⟨hz, o, ?_, ?_⟩
      · rw [hlists.listed hadd]
        exact hlists
      · rw [← hcur]
        exact hvino hz
    by_cases hfull : full k
    · rw [if_pos hfull, leads_pure]
      refine ⟨h₁, hgrows₂, fun item hmem => ?_⟩
      rw [List.mem_singleton.1 hmem]
      exact hitem
    rw [if_neg hfull, leads_bind]
    have hshorter : d.length < strlen name' := by
      rw [← cstr_length]
      exact hlists.child.length_lt
    have hcut : cstr (name'.set d.length 0) = d := by
      rw [cstr_set_zero _ hshorter, ← List.prefix_iff_eq_take.1 hpre]
    refine (h₁.call hindex.geometry.sized (P := fun r => r = name'.set d.length 0)
      fun t hvol => ?_).mono fun name'' s₃ ⟨h₃, hmap₃, hname''⟩ => ?_
    · unfold putChar
      rw [if_pos (hshorter.trans_le (strlen_le name')), gives_pure]
      exact ⟨hvol, rfl⟩
    subst hname''
    have hslot := hlists.live.slot
    have hal' := hslot.aligned
    have hge' := hslot.ge
    have hlt := hslot.lt
    have halign := hindex.geometry.aligned
    unfold indexEntrySize at hcur
    rw [leads_bind]
    refine (ih (k := k + 1) h₃ hcut (by rw [hlen']; exact hroom)
      (by rw [hlen', List.length_set, hroom']; exact hbuf) (o + 64)
      (by rw [hcur, if_neg (by omega)]) (by omega) (by omega) (by omega) (by omega)).mono
      fun ⟨ret', items⟩ s₄ ⟨h₄, hgrows₄, hitems⟩ => ?_
    rw [hmap₃] at hgrows₄
    rw [leads_pure]
    refine ⟨h₄, hgrows₂.trans hgrows₄, fun item hmem => ?_⟩
    rcases List.mem_cons.1 hmem with rfl | hmem
    · exact hitem.grows hgrows₄
    · exact hitems item hmem

/-- `fuse_sfs_readdir` of a directory. -/
theorem leads_fuseSfsReaddir (h : Healthy v s.sys) (hw : WellFormed v nodes lo hi)
    (hdir : Named v dirKind dir (cstr q)) (hroom : strlen q + 2 ≤ pathMax) (full : Nat → Bool) :
    Leads (fuseSfsReaddir full q) s fun r s' => Healthy v s'.sys ∧ s.map.Grows s'.map ∧
      ∀ item ∈ r.2, Numbered v (cstr q) s'.map item := by
  have hg := hw.indexed.geometry
  have hcstr := cstr_newPath hroom
  have hlen : strlen (newPath q) = (cstr q).length := by rw [← cstr_length, hcstr]
  have hadd : (cstr q).length + (if (cstr q).length = 0 then 0 else 1) =
      (dirMask (cstr q)).length := (dirMask_length (cstr q)).symm
  unfold fuseSfsReaddir
  dsimp only
  rw [hlen, leads_bind]
  refine (h.call hg.sized (P := fun fs => fs = v.fs) fun t hvol => ?_).mono
    fun fs s₁ ⟨h₁, hmap₁, hfs⟩ => ?_
  · rw [gives_tail, gives_unit, gives_pure]
    exact ⟨hvol, by rw [hvol]⟩
  subst hfs
  rw [← hmap₁]
  have hin := hg.inside
  have hsmall := hg.sized.small
  refine leads_fuseReaddirLoop h₁ hw hdir hcstr ?_ (by rw [newPath_length]) hadd full _ 0
    v.fs.entryStart rfl (Nat.le_refl _) (Nat.le_of_lt hg.nonempty) hg.start_aligned ?_
  · rw [cstr_length]
    exact hroom
  · unfold scanFuel indexEntrySize
    rw [sub64_of_le (by have := hg.nonempty; omega)]
    omega

/-- `fuse_sfs_getattr` reports the number of the entry that `sfs_open` finds. -/
theorem leads_fuseSfsGetattr (h : Healthy v s.sys) (hindex : Indexed v lo hi) (q : Buf) :
    Leads (fuseSfsGetattr q) s fun r s' => Healthy v s'.sys ∧ s.map.Grows s'.map ∧
      (r.1 = 0 → (∀ o, ¬ v.Live o (cstr q)) ∨
        ∃ pino, v.Opens (cstr q) pino ∧ r.2.1 ≠ 0 ∧ s'.map.getVino pino = r.2.1) := by
  have hs := hindex.geometry.sized
  unfold fuseSfsGetattr
  rw [leads_uninitAttr, leads_bind]
  refine (h.call hs (P := fun r => (r = 0 ∧ ∀ o, ¬ v.Live o (cstr q)) ∨
    (r ≠ 0 ∧ v.Opens (cstr q) r)) fun t hvol => ?_).mono fun pino s₁ ⟨h₁, hmap₁, hopen⟩ => ?_
  · subst hvol
    exact gives_sfsOpen hindex
  rw [← hmap₁]
  rcases hopen with ⟨hz, hnone⟩ | ⟨hz, hopens⟩
  · rw [if_pos hz, leads_negErrno, leads_pure]
    exact ⟨h₁, InodeMap.Grows.refl _, fun _ => Or.inl hnone⟩
  rw [if_neg hz, leads_bind]
  refine (leads_vinoFor s₁ pino).mono fun vino s₂ ⟨hsys₂, hgrows₂, hvino⟩ => ?_
  rw [← hsys₂] at h₁
  by_cases hzero : vino = 0
  · rw [if_pos hzero, leads_pure]
    exact ⟨h₁, hgrows₂, fun herr => absurd herr (show (-(eNOMEM : Int)) ≠ 0 by decide)⟩
  rw [if_neg hzero, leads_bind]
  refine (h₁.call hs (P := fun r => r.1 = 0) fun t hvol => ?_).mono
    fun ⟨ret, attr⟩ s₃ ⟨h₃, hmap₃, hret⟩ => ?_
  · subst hvol
    exact (gives_sfsGetattr hindex.geometry hopens.live.slot _).mono fun r t' h => ⟨h.1, h.2.1⟩
  dsimp only at hret ⊢
  rw [hret, if_neg (not_not.2 rfl), leads_pure, hmap₃]
  exact ⟨h₃, hgrows₂, fun _ => Or.inr ⟨pino, hopens, hzero, hvino hzero⟩⟩

/-- Two numbers of one map are the same when their offsets are. -/
theorem Numbered.eq_iff {m : InodeMap} {item : Dirent} {pino ino : Nat}
    (h : Numbered v d m item)
    (hopens : v.Opens (cstr q) pino) (hz : ino ≠ 0) (hino : m.getVino pino = ino) :
    ∃ o, v.Lists d o (item.listed d o) ∧
      (ino = item.ino ↔ v.Opens (cstr q) (o + indexEntrySize)) := by
  obtain ⟨-, o, hlists, hv⟩ := h
  refine ⟨o, hlists, fun heq => ?_, fun hnext => ?_⟩
  · have hsame : pino = o + indexEntrySize :=
      InodeMap.pino_eq_of_getVino (by rw [hino]; exact hz) (by rw [hino, hv, heq])
    rw [← hsame]
    exact hopens
  · rw [← hino, ← hv, hopens.unique hnext]

/-- Whichever callback is called first, the two report one number for a child if
and only if `sfs_open` of its path finds the slot behind the entry that is
listed. -/
theorem stIno_eq_iff (h : Healthy v s.sys) (hw : WellFormed v nodes lo hi) {path : Buf}
    (hdir : Named v dirKind dir (cstr path)) (hroom : strlen path + 2 ≤ pathMax)
    (full : Nat → Bool) :
    (Leads (fuseSfsReaddir full path) s fun r s₁ => ∀ item ∈ r.2, ∀ q,
      cstr q = dirMask (cstr path) ++ item.name → Leads (fuseSfsGetattr q) s₁ fun r' _ =>
        r'.1 = 0 → ∃ o, v.Lists (cstr path) o (item.listed (cstr path) o) ∧
          (r'.2.1 = item.ino ↔ v.Opens (cstr q) (o + indexEntrySize))) ∧
    ∀ q, Leads (fuseSfsGetattr q) s fun r' s₁ => Leads (fuseSfsReaddir full path) s₁ fun r _ =>
      ∀ item ∈ r.2, cstr q = dirMask (cstr path) ++ item.name →
        r'.1 = 0 → ∃ o, v.Lists (cstr path) o (item.listed (cstr path) o) ∧
          (r'.2.1 = item.ino ↔ v.Opens (cstr q) (o + indexEntrySize)) := by
  -- The path of an item is live, so `fuse_sfs_getattr` finds an entry.
  have hlive : ∀ {m item} {q : Buf}, Numbered v (cstr path) m item →
      cstr q = dirMask (cstr path) ++ item.name → ¬ ∀ o, ¬ v.Live o (cstr q) := by
    intro m item q ⟨_, o, hlists, _⟩ hpath hnone
    rw [hpath] at hnone
    exact hnone o hlists.live
  constructor
  · refine (leads_fuseSfsReaddir h hw hdir hroom full).mono
      fun r s₁ ⟨h₁, _, hitems⟩ item hmem q hpath => ?_
    refine (leads_fuseSfsGetattr h₁ hw.indexed q).mono fun r' s₂ ⟨_, hgrows, hattr⟩ hok => ?_
    have hitem := hitems item hmem
    obtain ⟨pino, hopens, hz, hino⟩ := (hattr hok).resolve_left (hlive hitem hpath)
    exact (hitem.grows hgrows).eq_iff hopens hz hino
  · intro q
    refine (leads_fuseSfsGetattr h hw.indexed q).mono fun r' s₁ ⟨h₁, _, hattr⟩ => ?_
    refine (leads_fuseSfsReaddir h₁ hw hdir hroom full).mono
      fun r s₂ ⟨_, hgrows, hitems⟩ item hmem hpath hok => ?_
    have hitem := hitems item hmem
    obtain ⟨pino, hopens, hz, hino⟩ := (hattr hok).resolve_left (hlive hitem hpath)
    refine hitem.eq_iff hopens hz ?_
    rw [hgrows.getVino (by rw [hino]; exact hz), hino]

end

/-- A mounted volume with a fresh inode map, and memory for it to grow. -/
def freshFuse (s : Sys) : Fuse :=
  ⟨s, inodeMapCreate ⟨0, 0, 0⟩, fun _ => true, 0, ⟨0, 0, 0, .file⟩⟩

/-- The file `a` in the root, with a fresh inode map. -/
theorem stIno_eq_iff_rootA : ∃ s : Sys, Named s.vol fileKind 3776 [0x61] ∧
    Leads (fuseSfsReaddir (fun _ => false) [0]) (freshFuse s) fun r s₁ => ∀ item ∈ r.2, ∀ q,
      cstr q = [] ++ item.name → Leads (fuseSfsGetattr q) s₁ fun r' _ => r'.1 = 0 →
        ∃ o, s.vol.Lists [] o (item.listed [] o) ∧
          (r'.2.1 = item.ino ↔ s.vol.Opens (cstr q) (o + indexEntrySize)) := by
  obtain ⟨-, s', -, -, hq, hc, ⟨nodes, hw⟩, hdir, hfile⟩ := exists_fileA
  generalize s'.sys = s at hq hc hw hdir hfile
  exact ⟨s, hfile, (@stIno_eq_iff (freshFuse s) s.vol nodes 1 7 3712 ⟨rfl, hq, hc⟩ hw [0] hdir
    (by decide) fun _ => false).1⟩

/-- Listing the root and then asking for the file `a`, and the other way round:
the two numbers. -/
def bothNumbers (s : Sys) : Option ((List (Buf × Nat) × Nat) × Nat × List (Buf × Nat)) := do
  let ((_, items), s₁) ← fuseSfsReaddir (fun _ => false) [0] (freshFuse s)
  let ((_, ino, _), _) ← fuseSfsGetattr pathA s₁
  let ((_, ino', _), s₁') ← fuseSfsGetattr pathA (freshFuse s)
  let ((_, items'), _) ← fuseSfsReaddir (fun _ => false) [0] s₁'
  pure ((items.map fun i => (i.name, i.ino), ino), ino', items'.map fun i => (i.name, i.ino))

/-- The file `a` in the root has two numbers. -/
theorem stIno_differs : (blankRun [.creat pathA]).bind (fun s' => bothNumbers s'.sys) =
    some (([([0x61], 1)], 2), 1, [([0x61], 2)]) := by decide +kernel

end Sfs
