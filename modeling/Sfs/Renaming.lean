import Sfs.InodeNumbers
import Sfs.Stored

/-!
# Renaming

`fuse_sfs_rename` moves a directory with `sfs_rmdir` and `sfs_mkdir`, and asks the
inode map for a number when the entry has moved.  Both the `sfs_mkdir` and the
map may refuse, and then the entry is gone, or moved, all the same.

* `Vol.MovesDir` says when the `sfs_mkdir` goes ahead, on the volume before the
  call, and `Vol.GoesTo` where the directory goes;
* `leads_fuseSfsRename` says what the callback does, in cases;
* `rename_changes_nothing_iff` says when a call that fails leaves the tree as it
  was.
-/

namespace Sfs

open Lib Fuse

/-! ## The tree of a volume -/

/-- The bytes of a file. -/
def Vol.content (v : Vol) (file : Nat) : List UInt8 :=
  (List.range (v.get file .size)).map (v.fileByte file)

/-- The same directories are there, and the same files with the same sizes and
bytes. -/
structure Vol.SameTree (v v' : Vol) : Prop where
  dirs : ∀ p, (∃ o, Named v' dirKind o p) ↔ ∃ o, Named v dirKind o p
  files : ∀ p bytes, (∃ o, Named v' fileKind o p ∧ v'.content o = bytes) ↔
    ∃ o, Named v fileKind o p ∧ v.content o = bytes

section

variable {v v' w : Vol} {nodes nodes' : List Nat} {lo hi a b o n : Nat} {p s : Buf}

theorem Vol.SameTree.refl (v : Vol) : v.SameTree v := ⟨fun _ => Iff.rfl, fun _ _ => Iff.rfl⟩

theorem Vol.Keeps.namedFile (h : v.Keeps v' nodes nodes' a) (hne : o ≠ a)
    (hn : Named v fileKind o s) : Named v' fileKind o s :=
  (h.sameFile o hne hn.liveFile.isFile).named h.area hn

/-- The files but the one at `a` stay. -/
theorem Vol.Keeps.namedFile_iff (h : v.Keeps v' nodes nodes' a) (hne : o ≠ a) :
    Named v' fileKind o s ↔ Named v fileKind o s := ⟨h.symm.namedFile hne, h.namedFile hne⟩

/-- A change of slots keeps the bytes of the other files. -/
theorem Vol.Keeps.content (h : v.Keeps v' nodes nodes' a) (hb : Blocks v nodes lo hi)
    (hdata : v.SameData v') (hne : o ≠ a) (ho : v.IsFile nodes o) :
    v'.content o = v.content o := by
  have hget := fun f => (h.sameFile o hne ho).get_eq (f := f)
  unfold Vol.content
  rw [hget .size]
  refine List.map_congr_left fun i hi => ?_
  have hbyte := (hb.fileByte ho (List.mem_range.1 hi)).2
  unfold Vol.fileByte
  rw [hget .startBlock, h.area.blockSize, hdata _ hbyte]

namespace Vol.Released

/-- A directory gone, and another one made: the directories. -/
theorem added_dir_iff (hrel : v.Released w a) (hadd : w.Added v' dirKind b p) (hl : Layout v)
    (hg : Geometry v lo hi) :
    Named v' dirKind o s ↔ o = b ∧ s = p ∨ Named v dirKind o s ∧ o ≠ a := by
  have hkeep : v.Keeps w [] [] a := hrel.keeps hl
  have hkeep' : w.Keeps v' [] [] b := hadd.keeps (hrel.layout hl hg)
  have hold : Named w dirKind o s ↔ Named v dirKind o s ∧ o ≠ a := by
    by_cases hoa : o = a
    · subst hoa
      exact iff_of_false (fun hn => hrel.not_head (dirKind_fits.isHead hn.type)) fun hn => hn.2 rfl
    · rw [hkeep.named_iff hoa, and_iff_left hoa]
  rw [← hold]
  by_cases hob : o = b
  · subst hob
    constructor
    · exact fun hn => Or.inl ⟨rfl, hn.toHasName.unique hadd.named.toHasName⟩
    · intro hn
      rcases hn with ⟨-, rfl⟩ | hn
      · exact hadd.named
      · exact absurd (dirKind_fits.isHead hn.type) hadd.not_head
  · rw [hkeep'.named_iff hob, or_iff_right fun hn => hob hn.1]

/-- The files. -/
theorem added_file_iff (hrel : v.Released w a) (hadd : w.Added v' dirKind b p) (hl : Layout v)
    (hg : Geometry v lo hi) (hdir : v.IsDir a) :
    Named v' fileKind o s ↔ Named v fileKind o s := by
  have hkeep : v.Keeps w [] [] a := hrel.keeps hl
  have hkeep' : w.Keeps v' [] [] b := hadd.keeps (hrel.layout hl hg)
  have hcodes : fileKind.type.code ≠ dirKind.type.code := by decide
  by_cases hob : o = b
  · subst hob
    refine iff_of_false (fun hn => hcodes (hn.type.symm.trans hadd.named.type)) fun hn => ?_
    have hoa : o ≠ a := fun heq => hcodes (hn.type.symm.trans (heq ▸ hdir.2))
    exact hadd.not_head (fileKind_fits.isHead ((hkeep.namedFile_iff hoa).2 hn).type)
  rw [hkeep'.namedFile_iff hob]
  by_cases hoa : o = a
  · subst hoa
    exact iff_of_false (fun hn => hrel.not_head (fileKind_fits.isHead hn.type))
      fun hn => hcodes (hn.type.symm.trans hdir.2)
  · exact hkeep.namedFile_iff hoa

/-- The bytes of a file. -/
theorem added_content (hrel : v.Released w a) (hadd : w.Added v' dirKind b p)
    (hw : WellFormed v nodes lo hi) (hdir : v.IsDir a) (hn : Named v fileKind o s) :
    v'.content o = v.content o := by
  have hl := hw.layout
  have hcodes : fileKind.type.code ≠ dirKind.type.code := by decide
  have hnot : a ∉ nodes := fun hmem =>
    absurd ((hw.space.toFreeList.type a hmem).symm.trans hdir.2) (by decide)
  have hkeep : v.Keeps w nodes nodes a := hrel.keeps hl
  have hkeep' : w.Keeps v' nodes nodes b := hadd.keeps (hrel.layout hl hw.geometry)
  have hoa : o ≠ a := fun heq => hcodes (hn.type.symm.trans (heq ▸ hdir.2))
  have how := hkeep.namedFile hoa hn
  have hob : o ≠ b := fun heq => hadd.not_head (heq ▸ fileKind_fits.isHead how.type)
  rw [hkeep'.content (hrel.blocks hw.toBlocks hnot)
      (Vol.SameData.of_frame hadd.frame hadd.slot.ge) hob how.liveFile.isFile,
    hkeep.content hw.toBlocks (Vol.SameData.of_frame hrel.frame hrel.slot.ge) hoa
      hn.liveFile.isFile]

/-- A directory that is made again at another place leaves the tree as it is. -/
theorem sameTree (hrel : v.Released w a) (hadd : w.Added v' dirKind b p)
    (hw : WellFormed v nodes lo hi) (hdir : Named v dirKind a p) : v.SameTree v' := by
  have hl := hw.layout
  have hg := hw.geometry
  refine ⟨fun s => ⟨?_, ?_⟩, fun s bytes => exists_congr fun o => ?_⟩
  · intro ⟨o, ho⟩
    rcases (hrel.added_dir_iff hadd hl hg).1 ho with ⟨-, rfl⟩ | ⟨hn, -⟩
    · exact ⟨a, hdir⟩
    · exact ⟨o, hn⟩
  · intro ⟨o, ho⟩
    by_cases hoa : o = a
    · subst hoa
      exact ⟨b, (hrel.added_dir_iff hadd hl hg).2
        (Or.inl ⟨rfl, ho.toHasName.unique hdir.toHasName⟩)⟩
    · exact ⟨o, (hrel.added_dir_iff hadd hl hg).2 (Or.inr ⟨ho, hoa⟩)⟩
  · rw [hrel.added_file_iff hadd hl hg hdir.isDir]
    exact and_congr_right fun hn => by rw [hrel.added_content hadd hw hdir.isDir hn]

end Vol.Released

/-! ## A directory on the move -/

/-- The `n` slots from `o` on are unused, or belong to the group at `a`. -/
def Vol.FreedRun (v : Vol) (a o n : Nat) : Prop :=
  ∀ j, j < n → v.Slot (o + 64 * j) ∧
    (v.type (o + 64 * j) = EntryType.unusedEntry.code ∨
      a ≤ o + 64 * j ∧ o + 64 * j < v.groupEnd a)

/-- `sfs_mkdir` of `dest` goes ahead once the directory at `a`, with the path
`src`, is gone: `dest` is a correct path outside `src`, its directories are found,
no other directory has it, and there are slots for it. -/
structure Vol.MovesDir (v : Vol) (a : Nat) (src dest : Buf) : Prop where
  correct : isCorrectDirpath dest = true
  dirs : v.FindsDirs (cstr dest)
  outside : ¬ cstr src ++ [0x2F] <+: cstr dest
  unused : ∀ o, Named v dirKind o (cstr dest) → o = a
  slots : ∃ o, v.FreedRun a o (countEntry dirKind.first (strlen dest + 1))

/-- Where `sfs_open` of `dest` finds the directory that was at `a`: in the first
place for it, unless a file has the path. -/
def Vol.GoesTo (v : Vol) (a : Nat) (dest : Buf) (b : Nat) : Prop :=
  v.First fileKind b (cstr dest) ∨
    (∀ o, ¬ Named v fileKind o (cstr dest)) ∧
      v.FreedRun a b (countEntry dirKind.first (strlen dest + 1)) ∧
      ∀ o, o < b → ¬ v.FreedRun a o (countEntry dirKind.first (strlen dest + 1))

theorem Vol.GoesTo.unique {dest : Buf} {c : Nat} (h : v.GoesTo a dest b) (h' : v.GoesTo a dest c) :
    b = c := by
  rcases h with h | ⟨hnone, hrun, hfirst⟩
  · rcases h' with h' | ⟨hnone', -⟩
    · exact h.unique h'
    · exact absurd h.1 (hnone' b)
  · rcases h' with h' | ⟨-, hrun', hfirst'⟩
    · exact absurd h'.1 (hnone c)
    · rcases Nat.lt_trichotomy b c with hlt | heq | hlt
      · exact absurd hrun (hfirst' b hlt)
      · exact heq
      · exact absurd hrun' (hfirst c hlt)

namespace Vol.Released

variable {src dest : Buf}

theorem unusedRun_iff (h : v.Released w a) : w.UnusedRun o n ↔ v.FreedRun a o n := by
  refine forall_congr' fun j => imp_congr_right fun _ => ?_
  rw [h.area.slot]
  refine and_congr_right fun hslot => ?_
  have hal := h.slot.aligned
  have hal' := hslot.aligned
  by_cases hin : a ≤ o + 64 * j ∧ o + 64 * j < v.groupEnd a
  · exact iff_of_true (h.type_inside hal' hin.1 hin.2) (Or.inr hin)
  · rw [h.type_outside (by omega), or_iff_left hin]

/-- The directories are found as before, but for the one that is gone. -/
theorem findsDir_iff (h : v.Released w a) (hl : Layout v) (hdir : Named v dirKind a (cstr src))
    (honly : OnlyUnder v a (cstr src)) : w.FindsDir p ↔ v.FindsDir p ∧ p ≠ cstr src := by
  have hkeep : v.Keeps w [] [] a := h.keeps hl
  have hnamed : ∀ o, Named w dirKind o p ↔ Named v dirKind o p ∧ o ≠ a := by
    intro o
    by_cases hoa : o = a
    · subst hoa
      exact iff_of_false (fun hn => h.not_head (dirKind_fits.isHead hn.type)) fun hn => hn.2 rfl
    · rw [hkeep.named_iff hoa, and_iff_left hoa]
  unfold Vol.FindsDir Vol.First
  simp only [hnamed]
  constructor
  · rintro ⟨o, ⟨⟨hn, hne⟩, hbefore⟩, hz⟩
    have hp : p ≠ cstr src := fun heq => hne (honly o p (Or.inr hn) (heq ▸ List.prefix_refl _))
    refine ⟨⟨o, ⟨hn, fun o' hlt hn' => hbefore o' hlt ⟨hn', fun heq => hp ?_⟩⟩, hz⟩, hp⟩
    rw [heq] at hn'
    exact hn'.toHasName.unique hdir.toHasName
  · rintro ⟨⟨o, ⟨hn, hbefore⟩, hz⟩, hp⟩
    refine ⟨o, ⟨⟨hn, fun heq => hp ?_⟩, fun o' hlt hn' => hbefore o' hlt hn'.1⟩, hz⟩
    rw [heq] at hn
    exact hn.toHasName.unique hdir.toHasName

/-- What `sfs_mkdir` needs once the directory is gone, on the volume before. -/
theorem makesDir_iff (h : v.Released w a) (hl : Layout v) (hdir : Named v dirKind a (cstr src))
    (honly : OnlyUnder v a (cstr src)) :
    w.MakesDir dest ∧ w.FindsDirs (cstr dest) ↔ v.MovesDir a src dest := by
  have hkeep : v.Keeps w [] [] a := h.keeps hl
  have hfinds : w.FindsDirs (cstr dest) ↔
      v.FindsDirs (cstr dest) ∧ ¬ cstr src ++ [0x2F] <+: cstr dest := by
    constructor
    · intro hw
      refine ⟨fun i hi hslash => ((h.findsDir_iff hl hdir honly).1 (hw i hi hslash)).1, ?_⟩
      intro ⟨rest, hrest⟩
      have hi : (cstr src).length < (cstr dest).length := by
        rw [← hrest]
        simp
      have hslash : (cstr dest)[(cstr src).length] = 0x2F := by simp [← hrest]
      refine ((h.findsDir_iff hl hdir honly).1 (hw _ hi hslash)).2 ?_
      simp [← hrest]
    · intro ⟨hv, hout⟩ i hi hslash
      refine (h.findsDir_iff hl hdir honly).2 ⟨hv i hi hslash, fun heq => hout ?_⟩
      rw [← heq, ← hslash, List.take_append_getElem hi]
      exact List.take_prefix _ _
  constructor
  · intro ⟨hm, hd⟩
    obtain ⟨hv, hout⟩ := hfinds.1 hd
    refine ⟨hm.correct, hv, hout, fun o ho => ?_, ?_⟩
    · by_contra hne
      exact hm.unused o ((hkeep.named_iff hne).2 ho)
    · obtain ⟨o, ho⟩ := hm.slots
      exact ⟨o, h.unusedRun_iff.1 ho⟩
  · intro hv
    have hd := hfinds.2 ⟨hv.dirs, hv.outside⟩
    refine ⟨⟨hv.correct, hd.hasDirs, fun o ho => ?_, ?_⟩, hd⟩
    · by_cases hoa : o = a
      · subst hoa
        exact h.not_head (dirKind_fits.isHead ho.type)
      · exact hoa (hv.unused o ((hkeep.named_iff hoa).1 ho))
    · obtain ⟨o, ho⟩ := hv.slots
      exact ⟨o, h.unusedRun_iff.2 ho⟩

/-- `sfs_open` of the new path finds the directory where it has gone to. -/
theorem goesTo (hrel : v.Released w a) (hadd : w.Added v' dirKind b (cstr dest))
    (hl : Layout v) (hg : Geometry v lo hi) (hdir : v.IsDir a)
    (hnone : ∀ o, ¬ Named w dirKind o (cstr dest))
    (hrun : w.UnusedRun b (countEntry dirKind.first (strlen dest + 1)))
    (hfirst : ∀ o, o < b → ¬ w.UnusedRun o (countEntry dirKind.first (strlen dest + 1)))
    {pino : Nat} (hopens : v'.Opens (cstr dest) pino) : v.GoesTo a dest pino := by
  have hkeep : v.Keeps w [] [] a := hrel.keeps hl
  have hfile : ∀ o, Named v' fileKind o (cstr dest) ↔ Named v fileKind o (cstr dest) := fun o =>
    hrel.added_file_iff hadd hl hg hdir
  rcases hopens with ⟨hn, hbefore⟩ | ⟨hnofile, hn, -⟩
  · exact Or.inl ⟨(hfile pino).1 hn, fun o hlt ho => hbefore o hlt ((hfile o).2 ho)⟩
  -- The directory with the path is the new one.
  obtain rfl : pino = b := by
    rcases (hrel.added_dir_iff hadd hl hg).1 hn with ⟨hob, -⟩ | ⟨hn, hoa⟩
    · exact hob
    · exact absurd ((hkeep.named_iff hoa).2 hn) (hnone pino)
  exact Or.inr ⟨fun o ho => hnofile o ((hfile o).2 ho), hrel.unusedRun_iff.1 hrun,
    fun o hlt ho => hfirst o hlt (hrel.unusedRun_iff.2 ho)⟩

end Vol.Released

end

/-! ## The numbers of the inode map -/

/-- `pino_add` has a number to give. -/
def InodeMap.Takes (m : InodeMap) (grows : Bool) : Prop :=
  m.maxVino ≠ 0 ∧ (m.maxVino = m.cSize → grows = true)

theorem InodeMap.pinoAdd_ne_zero {m : InodeMap} {grows : Bool} {pino : Nat} :
    (m.pinoAdd grows pino).1 ≠ 0 ↔ m.Takes grows := by
  unfold pinoAdd Takes
  by_cases hfull : m.maxVino = m.cSize ∧ grows = false
  · rw [if_pos hfull]
    simp [hfull]
  · rw [if_neg hfull]
    simp only [not_and, Bool.not_eq_false] at hfull
    exact (and_iff_left hfull).symm

/-- The entry has a number, or gets one. -/
def Fuse.HasNumber (s : Fuse) (pino : Nat) : Prop :=
  s.map.getVino pino ≠ 0 ∨ s.map.Takes (s.memory s.tries)

section

variable {α : Type} {s : Fuse} {v : Vol} {nodes : List Nat} {lo hi a pino : Nat} {src dest : Buf}

theorem leads_exitWith {code : Nat} {Q : Int → Fuse → Prop} :
    Leads (exitWith code) s Q ↔ Q (-code) { s with sys := { s.sys with errno := code } } := by
  constructor
  · rintro ⟨_, _, ⟨⟩, hQ⟩
    exact hQ
  · exact fun hQ => ⟨_, _, rfl, hQ⟩

/-- What the end of `fuse_sfs_rename` returns, and what becomes of the map, when the
entry has gone from `old` to `pino`. -/
structure Fuse.Renumbered (s : Fuse) (old pino : Nat) (r : Int) (map : InodeMap) : Prop where
  ret : r = 0 ↔ old = pino ∨ s.HasNumber old
  map : map = s.map ∨ old ≠ pino ∧ (map = (s.map.pinoAdd (s.memory s.tries) pino).2 ∨
    map = s.map.setPino (s.map.getVino old) pino)

theorem leads_renameVino (s : Fuse) (old pino : Nat) :
    Leads (renameVino old pino) s fun r s' =>
      s'.sys.vol = s.sys.vol ∧ s.Renumbered old pino r s'.map := by
  have hnomem : ¬ (-(eNOMEM : Int)) = 0 := by decide
  unfold renameVino
  by_cases heq : old = pino
  · rw [if_pos heq, leads_exitWith]
    exact ⟨rfl, iff_of_true rfl (Or.inl heq), Or.inl rfl⟩
  rw [if_neg heq, leads_ask]
  by_cases hz : s.map.getVino old = 0
  · rw [if_pos hz, leads_pinoAdd]
    by_cases hadd : (s.map.pinoAdd (s.memory s.tries) pino).1 = 0
    · rw [if_pos hadd, leads_exitWith]
      refine ⟨rfl, iff_of_false hnomem fun h => ?_, Or.inr ⟨heq, Or.inl rfl⟩⟩
      exact InodeMap.pinoAdd_ne_zero.2 ((h.resolve_left heq).resolve_left (not_not.2 hz)) hadd
    · rw [if_neg hadd, leads_exitWith]
      exact ⟨rfl, iff_of_true rfl (Or.inr (Or.inr (InodeMap.pinoAdd_ne_zero.1 hadd))),
        Or.inr ⟨heq, Or.inl rfl⟩⟩
  · rw [if_neg hz, leads_change, leads_exitWith]
    exact ⟨rfl, iff_of_true rfl (Or.inr (Or.inl hz)), Or.inr ⟨heq, Or.inr rfl⟩⟩

/-- `new_path` gives a path that fits every kind of name. -/
theorem newPath_good (path : Buf) : GoodPath (newPath path) := by
  have hzero : ∀ c ∈ (cstr path).take (pathMax - 1), c ≠ 0 := fun c hc =>
    cstr_ne_zero path c (List.mem_of_mem_take hc)
  have hlen : ((cstr path).take (pathMax - 1)).length ≤ pathMax - 1 := by simp
  obtain ⟨n, hn⟩ : ∃ n, pathMax - ((cstr path).take (pathMax - 1)).length = n + 1 :=
    ⟨pathMax - ((cstr path).take (pathMax - 1)).length - 1, by unfold pathMax at *; omega⟩
  have hcstr : cstr (newPath path) = (cstr path).take (pathMax - 1) := by
    unfold newPath
    simp only
    rw [hn, List.replicate_succ]
    exact cstr_append_zero hzero _
  have hstr : strlen (newPath path) = ((cstr path).take (pathMax - 1)).length := by
    rw [← cstr_length, hcstr]
  refine ⟨fun i hi => ?_, ?_⟩
  · rw [hstr] at hi
    unfold newPath Buf.char
    simp only
    rw [List.getD_eq_getElem?_getD, List.getElem?_append_right hi, List.getElem?_replicate]
    split <;> rfl
  · rw [hstr]
    exact Nat.lt_of_le_of_lt hlen (by decide)

/-- What the move of the directory at `a` does.  It is not removed, or it is lost,
or it is made again. -/
inductive Fuse.MovedDir (s : Fuse) (v : Vol) (a : Nat) (src dest : Buf) (r : Int) (v' : Vol)
    (map : InodeMap) : Prop where
  | stays (hvol : v' = v) (hmap : map = s.map) (hnot : ¬ v.RemovesDir src)
  | lost (hremoves : v.RemovesDir src) (hname : Named v dirKind a (cstr src))
      (honly : OnlyUnder v a (cstr src)) (hrel : v.Released v' a) (hr : r ≠ 0)
      (hmap : map = s.map) (hnot : ¬ v.MovesDir a src dest)
  | moved {w : Vol} {b pino : Nat} (hremoves : v.RemovesDir src)
      (hname : Named v dirKind a (cstr src)) (honly : OnlyUnder v a (cstr src))
      (hrel : v.Released w a) (hmoves : v.MovesDir a src dest)
      (hadd : w.Added v' dirKind b (cstr dest)) (hgoes : v.GoesTo a dest pino)
      (hnum : s.Renumbered a pino r map)

theorem leads_renameDir (h : Healthy v s.sys) (hw : WellFormed v nodes lo hi)
    (hopen : v.Opens (cstr src) a) (hdir : v.IsDir a) (hq : GoodPath dest) :
    Leads (renameDir src dest a) s fun r s' => s.MovedDir v a src dest r s'.sys.vol s'.map := by
  have hl := hw.layout
  have hg := hw.geometry
  have hvol := h.vol
  have hshow := Sys.shows_img h.quiet h.coherent (by rw [hvol]; exact hg.sized)
  unfold renameDir
  rw [leads_bind]
  refine (leads_call hshow (gives_sfsRmdir_iff (t := s.sys.img) (q := src)
    (by show Indexed s.sys.vol lo hi; rw [hvol]; exact hw.indexed))).mono fun r s₁ hres => ?_
  obtain ⟨t₁, hshow₁, hrem, hs₁⟩ := hres
  rw [show s.sys.img.vol = v from hvol] at hrem
  rcases hrem with ⟨rfl, hvol₁, hnot⟩ | ⟨rfl, hcorrect, a', hnamed, honly, hrel⟩
  · rw [if_pos rfl, leads_err]
    exact .stays (hshow₁.vol.trans hvol₁) (by rw [hs₁]) hnot
  obtain rfl : a = a' := honly a _ hopen.live (List.prefix_refl _)
  have hremoves : v.RemovesDir src := ⟨hcorrect, a, hnamed, honly⟩
  have hmoves : t₁.vol.MakesDir dest ∧ t₁.vol.FindsDirs (cstr dest) ↔ v.MovesDir a src dest :=
    hrel.makesDir_iff hl hnamed honly
  have hnot : a ∉ nodes := fun hmem =>
    absurd ((hw.space.toFreeList.type a hmem).symm.trans hdir.2) (by decide)
  have hw₁ : WellFormed t₁.vol nodes lo hi := hrel.wellFormed hw hnot
  rw [if_neg (by decide), leads_bind]
  refine (leads_call hshow₁ (gives_sfsMkdir_iff hw₁.indexed hq)).mono
    fun ⟨ret, dest'⟩ s₂ hres => ?_
  obtain ⟨t₂, hshow₂, ⟨hdest, hcreates, hret, herr⟩, hs₂⟩ := hres
  dsimp only at hdest hcreates hret herr ⊢
  subst hdest
  rcases hcreates with ⟨rfl, hvol₂⟩ | ⟨rfl, b, hadd, hrun, hfirst, -⟩
  · -- The directory is gone, and `sfs_mkdir` has failed.
    rw [if_pos rfl, leads_err, hshow₂.vol, hvol₂]
    refine .lost hremoves hnamed honly hrel ?_ (by rw [hs₂, hs₁]) fun hgo =>
      absurd (hret.2 (hmoves.2 hgo)) (by decide)
    rw [hshow₂.errno]
    have := herr rfl
    omega
  obtain ⟨hmakes, hdirs⟩ := hret.1 rfl
  have hw₂ : WellFormed t₂.vol nodes lo hi :=
    hadd.wellFormed (Or.inr rfl) (hq.isPath_of_dirpath hmakes.correct) hw₁
      fun hkind => absurd (congrArg NameKind.type hkind) (by decide)
  rw [if_neg (by decide), leads_bind]
  refine (leads_call hshow₂ (gives_sfsOpen hw₂.indexed)).mono fun pino s₃ hres => ?_
  obtain ⟨t₃, hshow₃, ⟨hvol₃, hopens⟩, hs₃⟩ := hres
  rcases hopens with ⟨rfl, hnone⟩ | ⟨hz, hopens⟩
  · exact absurd (Or.inr hadd.named) (hnone b)
  rw [if_neg hz]
  refine (leads_renameVino s₃ a pino).mono fun r s₄ ⟨hvol₄, hnum⟩ => ?_
  rw [hvol₄, hshow₃.vol, hvol₃]
  refine .moved hremoves hnamed honly hrel (hmoves.1 ⟨hmakes, hdirs⟩) hadd
    (hrel.goesTo hadd hl hg hdir hmakes.unused hrun hfirst hopens) ?_
  rw [hs₃, hs₂, hs₁] at hnum
  exact ⟨hnum.ret, hnum.map⟩

/-- What the move of the file at `a` does. -/
inductive Fuse.MovedFile (s : Fuse) (v : Vol) (nodes : List Nat) (a : Nat) (dest : Buf) (r : Int)
    (v' : Vol) (map : InodeMap) : Prop where
  | stays (hvol : v' = v) (hmap : map = s.map)
      (hnot : ¬ (v.Renames dest ∧ v.FindsDirs (cstr dest)))
  | moved {w : Vol} {nodes' : List Nat} {pino : Nat} (hgoes : v.Renames dest)
      (hdirs : v.FindsDirs (cstr dest))
      (hfirst : v.FirstRun pino (countEntry fileKind.first (strlen dest + 1)))
      (hne : a ≠ pino) (hrel : v.Relabeled v' nodes a pino (cstr dest) w nodes')
      (hnum : s.Renumbered a pino r map)

theorem leads_renameFile (h : Healthy v s.sys) (hw : WellFormed v nodes lo hi)
    (hlive : v.LiveFile a) (hq : GoodPath dest) :
    Leads (call (sfsRename a dest) >>= fun x =>
        if x.1 = 0 then negErrno else renameVino a x.1) s fun r s' =>
      s.MovedFile v nodes a dest r s'.sys.vol s'.map := by
  have hg := hw.geometry
  have hvol := h.vol
  have hshow := Sys.shows_img h.quiet h.coherent (by rw [hvol]; exact hg.sized)
  have hfile : s.sys.img.vol.IsFile nodes a := by
    rw [show s.sys.img.vol = v from hvol]
    exact hlive.isFile
  have hren := gives_sfsRename_iff (t := s.sys.img)
    (by rw [show s.sys.img.vol = v from hvol]; exact hw) hfile hq
  rw [show s.sys.img.vol = v from hvol] at hren
  rw [leads_bind]
  refine (leads_call hshow hren).mono fun ⟨pino, p⟩ s₁ hres => ?_
  obtain ⟨t₁, hshow₁, ⟨-, hres⟩, hs₁⟩ := hres
  dsimp only at hres ⊢
  rcases hres with ⟨rfl, hvol₁, hnot⟩ | ⟨hz, -, hgoes, hdirs, hfirst, w, nodes', hrel⟩
  · rw [if_pos rfl, leads_err]
    exact .stays (hshow₁.vol.trans hvol₁) (by rw [hs₁]) fun hgo => hnot ⟨hlive.2, hgo.1, hgo.2⟩
  rw [if_neg hz]
  have hmoved : a ≠ pino := by
    rintro rfl
    exact absurd (hlive.2.symm.trans (hrel.unused 0 (Nat.succ_pos _)).2) (by decide)
  refine (leads_renameVino s₁ a pino).mono fun r s₂ ⟨hvol₂, hnum⟩ => ?_
  rw [hvol₂, hshow₁.vol]
  rw [hs₁] at hnum
  exact .moved hgoes hdirs hfirst hmoved hrel ⟨hnum.ret, hnum.map⟩

/-- What `fuse_sfs_rename` does. -/
inductive Fuse.Moved (s : Fuse) (v : Vol) (nodes : List Nat) (src dest : Buf) (r : Int) (v' : Vol)
    (map : InodeMap) : Prop where
  | nothing (hvol : v' = v) (hmap : map = s.map) (hnone : ∀ o, ¬ v.Live o (cstr src))
  | dir {a : Nat} (hopens : v.Opens (cstr src) a) (hdir : v.IsDir a)
      (hmoved : s.MovedDir v a src dest r v' map)
  | file {a : Nat} (hopens : v.Opens (cstr src) a) (hlive : v.LiveFile a)
      (hmoved : s.MovedFile v nodes a dest r v' map)

theorem leads_fuseSfsRename (h : Healthy v s.sys) (hw : WellFormed v nodes lo hi)
    (src dest : Buf) :
    Leads (fuseSfsRename src dest) s fun r s' =>
      s.Moved v nodes (newPath src) (newPath dest) r s'.sys.vol s'.map := by
  have hs := hw.geometry.sized
  have hq := newPath_good dest
  unfold fuseSfsRename
  rw [leads_uninitAttr, leads_bind]
  refine (h.looksAt hs (P := fun r => (r = 0 ∧ ∀ o, ¬ v.Live o (cstr (newPath src))) ∨
    (r ≠ 0 ∧ v.Opens (cstr (newPath src)) r)) fun t hvol => ?_).mono
    fun a s₁ ⟨h₁, hs₁, hopen⟩ => ?_
  · subst hvol
    exact gives_sfsOpen hw.indexed
  rcases hopen with ⟨rfl, hnone⟩ | ⟨hz, hopens⟩
  · rw [if_pos rfl, leads_err]
    exact .nothing h₁.vol (by rw [hs₁]) hnone
  rw [if_neg hz, leads_bind]
  refine (h₁.looksAt hs (P := fun r => r.1 = 0 ∧
    (v.type a = EntryType.fileEntry.code → r.2.type = .file) ∧
    (v.type a = EntryType.dirEntry.code → r.2.type = .dir)) fun t hvol => ?_).mono
    fun ⟨ret, attr⟩ s₂ ⟨h₂, hs₂, hret, hfile, hdir⟩ => ?_
  · subst hvol
    exact gives_sfsGetattr hw.geometry hopens.live.slot _
  dsimp only at hret hfile hdir ⊢
  rw [hret, if_neg (by decide)]
  rcases hopens.live with hn | hn
  · rw [hfile hn.type, if_neg (by decide)]
    refine (leads_renameFile h₂ hw hn.liveFile hq).mono fun r s₃ hmoved => ?_
    rw [hs₂, hs₁] at hmoved
    refine .file hopens hn.liveFile ?_
    cases hmoved with
    | stays hvol hmap hnot => exact .stays hvol hmap hnot
    | moved hgoes hdirs hfirst hne hrel hnum =>
      exact .moved hgoes hdirs hfirst hne hrel ⟨hnum.ret, hnum.map⟩
  · rw [hdir hn.type, if_pos rfl]
    refine (leads_renameDir h₂ hw hopens hn.isDir hq).mono fun r s₃ hmoved => ?_
    rw [hs₂, hs₁] at hmoved
    refine .dir hopens hn.isDir ?_
    cases hmoved with
    | stays hvol hmap hnot => exact .stays hvol hmap hnot
    | lost hremoves hname honly hrel hr hmap hnot =>
      exact .lost hremoves hname honly hrel hr hmap hnot
    | moved hremoves hname honly hrel hmoves hadd hgoes hnum =>
      exact .moved hremoves hname honly hrel hmoves hadd hgoes ⟨hnum.ret, hnum.map⟩

/-! ## A call that fails -/

/-- The entry that the old path opens can be moved whole, or is not moved at all.
A directory that is removed can be made again, and an entry that gets another
offset has a number for it. -/
structure Fuse.RenamesSafely (s : Fuse) (v : Vol) (src dest : Buf) : Prop where
  dir : ∀ a, v.Opens (cstr src) a → v.IsDir a → v.RemovesDir src → v.MovesDir a src dest ∧
    (s.HasNumber a ∨ cstr dest = cstr src ∨ v.GoesTo a dest a)
  file : ∀ a, v.Opens (cstr src) a → v.LiveFile a → v.Renames dest →
    v.FindsDirs (cstr dest) → s.HasNumber a

/-- The tree after the move of a directory. -/
theorem Fuse.MovedDir.sameTree_iff {r : Int} {v' : Vol} {map : InodeMap}
    (h : s.MovedDir v a src dest r v' map) (hw : WellFormed v nodes lo hi) :
    (r ≠ 0 → v.SameTree v') ↔ (v.RemovesDir src → v.MovesDir a src dest ∧
      (s.HasNumber a ∨ cstr dest = cstr src ∨ v.GoesTo a dest a)) := by
  have hl := hw.layout
  cases h with
  | stays hvol hmap hnot =>
    subst hvol
    exact iff_of_true (fun _ => Vol.SameTree.refl v') fun hrem => absurd hrem hnot
  | lost hremoves hname honly hrel hr hmap hnot =>
    refine iff_of_false (fun hsame => ?_) fun hcond => hnot (hcond hremoves).1
    obtain ⟨o, ho⟩ := ((hsame hr).dirs (cstr src)).2 ⟨a, hname⟩
    obtain ⟨hlive, hne⟩ := (hrel.live_iff hl).1 (Or.inr ho)
    exact hne (honly o _ hlive (List.prefix_refl _))
  | @moved w b pino hremoves hname honly hrel hmoves hadd hgoes hnum =>
    have hr := hnum.ret
    by_cases hsame : cstr dest = cstr src
    · rw [hsame] at hadd
      exact iff_of_true (fun _ => hrel.sameTree hadd hw hname)
        fun _ => ⟨hmoves, Or.inr (Or.inl hsame)⟩
    constructor
    · intro hP _
      refine ⟨hmoves, ?_⟩
      by_cases hz : r = 0
      · rcases hr.1 hz with heq | hnumber
        · subst heq
          exact Or.inr (Or.inr hgoes)
        · exact Or.inl hnumber
      · obtain ⟨o, ho⟩ := ((hP hz).dirs (cstr src)).2 ⟨a, hname⟩
        rcases (hrel.added_dir_iff hadd hl hw.geometry).1 ho with ⟨-, heq⟩ | ⟨hn, hne⟩
        · exact absurd heq.symm hsame
        · exact absurd (honly o _ (Or.inr hn) (List.prefix_refl _)) hne
    · intro hcond hne
      rcases (hcond hremoves).2 with hnumber | heq | hstay
      · exact absurd (hr.2 (Or.inr hnumber)) hne
      · exact absurd heq hsame
      · exact absurd (hr.2 (Or.inl (hstay.unique hgoes))) hne

/-- The tree after the move of a file. -/
theorem Fuse.MovedFile.sameTree_iff {r : Int} {v' : Vol} {map : InodeMap}
    (h : s.MovedFile v nodes a dest r v' map) :
    (r ≠ 0 → v.SameTree v') ↔ (v.Renames dest → v.FindsDirs (cstr dest) → s.HasNumber a) := by
  cases h with
  | stays hvol hmap hnot =>
    subst hvol
    exact iff_of_true (fun _ => Vol.SameTree.refl v') fun hgoes hdirs =>
      absurd ⟨hgoes, hdirs⟩ hnot
  | @moved w nodes' pino hgoes hdirs hfirst hne hrel hnum =>
    have hr := hnum.ret
    rw [or_iff_right hne] at hr
    constructor
    · intro hP _ _
      by_contra hnumber
      -- The file with the new path was not there.
      obtain ⟨o, ho, -⟩ := ((hP fun hz => hnumber (hr.1 hz)).files (cstr dest) _).1
        ⟨pino, hrel.placed.named, rfl⟩
      exact hgoes.unused o (Or.inl ho)
    · intro hcond hz
      exact absurd (hr.2 (hcond hgoes hdirs)) hz

/-- A call of `fuse_sfs_rename` that fails leaves the tree as it was if and only if
the entry can be moved whole, or is not moved at all. -/
theorem rename_changes_nothing_iff (h : Healthy v s.sys) (hw : WellFormed v nodes lo hi)
    (src dest : Buf) :
    Leads (fuseSfsRename src dest) s fun r s' => (r ≠ 0 → v.SameTree s'.sys.vol) ↔
      s.RenamesSafely v (newPath src) (newPath dest) := by
  have hcodes : EntryType.fileEntry.code ≠ EntryType.dirEntry.code := by decide
  refine (leads_fuseSfsRename h hw src dest).mono fun r s' hmoved => ?_
  cases hmoved with
  | nothing hvol hmap hnone =>
    rw [hvol]
    exact iff_of_true (fun _ => Vol.SameTree.refl v)
      ⟨fun a ha => absurd ha.live (hnone a), fun a ha => absurd ha.live (hnone a)⟩
  | @dir a hopens hdir hmoved =>
    rw [hmoved.sameTree_iff hw]
    refine ⟨fun hmove => ⟨fun b hb _ => ?_, fun b hb hlive => ?_⟩, fun hsafe => ?_⟩
    · rw [hb.unique hopens]
      exact hmove
    · rw [hb.unique hopens] at hlive
      exact absurd (hlive.2.symm.trans hdir.2) hcodes
    · exact hsafe.dir a hopens hdir
  | @file a hopens hlive hmoved =>
    rw [hmoved.sameTree_iff]
    refine ⟨fun hnum => ⟨fun b hb hdir => ?_, fun b hb _ => ?_⟩, fun hsafe => ?_⟩
    · rw [hb.unique hopens] at hdir
      exact absurd (hlive.2.symm.trans hdir.2) hcodes
    · rw [hb.unique hopens]
      exact hnum
    · exact hsafe.file a hopens hlive

end

/-- The file `a` in the root, and the path `b`. -/
theorem rename_changes_nothing_iff_rootA : ∃ s : Sys, Named s.vol fileKind 3776 [0x61] ∧
    Leads (fuseSfsRename pathA [0x62, 0]) (freshFuse s) fun r s' =>
      (r ≠ 0 → s.vol.SameTree s'.sys.vol) ↔
        (freshFuse s).RenamesSafely s.vol (newPath pathA) (newPath [0x62, 0]) := by
  obtain ⟨-, s', -, -, hq, hc, ⟨nodes, hw⟩, -, hfile⟩ := exists_fileA
  generalize s'.sys = s at hq hc hw hfile
  exact ⟨s, hfile, rename_changes_nothing_iff (s := freshFuse s) ⟨rfl, hq, hc⟩ hw pathA [0x62, 0]⟩

/-- The directory `a` is moved to `*`, which is no correct path. -/
theorem rename_loses_dir :
    ∃ s s' r s'', FreshlyMounted blankOpts 512 s ∧
      run Op.step ⟨s, []⟩ [.mkdir pathA] = some s' ∧
      fuseSfsRename pathA [0x2A, 0] (freshFuse s'.sys) = some (r, s'') ∧
      r ≠ 0 ∧ ¬ s'.sys.vol.SameTree s''.sys.vol := by
  have hview : (blankRun [.mkdir pathA]).map (fun s' : Session =>
      (fuseSfsRename pathA [0x2A, 0] (freshFuse s'.sys)).map fun x : Int × Fuse =>
        (x.1, decide (Named s'.sys.vol dirKind 3776 [0x61] ∧
          x.2.sys.vol.HasNames dirKind [(3712, [])])))
      = some (some (-22, true)) := by
    decide +kernel
  obtain ⟨s, s', hfresh, -, hrun, hview⟩ := blankRun_eq hview
  obtain ⟨⟨r, s''⟩, hcall, hview⟩ := Option.map_eq_some_iff.1 hview
  simp only [Prod.mk.injEq, decide_eq_true_eq] at hview
  obtain ⟨hr, hdir, hdirs⟩ := hview
  refine ⟨s, s', r, s'', hfresh, hrun, hcall, by rw [hr]; decide, fun hsame => ?_⟩
  -- The only directory left is the root.
  obtain ⟨o, ho⟩ := (hsame.dirs _).2 ⟨3776, hdir⟩
  have hmem := hdirs.named_iff.1 ho
  rw [List.mem_singleton, Prod.mk.injEq] at hmem
  exact absurd hmem.2 (by decide)

end Sfs
