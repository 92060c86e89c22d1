import Sfs.Durable

/-!
# Room in the data area

When a file grows it takes the blocks behind it, or moves to blocks in a row
elsewhere.  As no two free extents touch, one extent has all the blocks of a free
run, so the unit finds room whenever there is some.

* `Vol.HasRoom` says what room is, without regard to the list;
* `post_growFile_room`, `gives_extentFor_room`, `gives_sfsWrite_room` and
  `gives_sfsTruncate_room` say that a file grows exactly when it has room;
* `Coalesced.whole` is the list of a volume without files;
* `refused_iff_run` and `extents_run` say the same of every state that calls in order
  reach.
-/

namespace Sfs

open Lib FileTree

/-! ## Room -/

/-- The blocks behind a file are free, as far as it needs them to have `k`. -/
def Vol.FreeBehind (v : Vol) (nodes : List Nat) (file k : Nat) : Prop :=
  v.get file .size ≠ 0 ∧
    ∀ b, v.get file .endBlock < b → b < v.get file .startBlock + k → v.Free nodes b

/-- There are `k` free blocks in a row. -/
def Vol.FreeRun (v : Vol) (nodes : List Nat) (k : Nat) : Prop :=
  ∃ start, ∀ j, j < k → v.Free nodes (start + j)

/-- A file can have `k` blocks. -/
def Vol.HasRoom (v : Vol) (nodes : List Nat) (file k : Nat) : Prop :=
  v.FreeBehind nodes file k ∨ v.FreeRun nodes k

/-- A file of the size would have more blocks than before, and there is no room. -/
def Vol.LacksRoom (v : Vol) (nodes : List Nat) (file newSize : Nat) : Prop :=
  blocksOf v.blockSize (v.get file .size) < blocksOf v.blockSize newSize ∧
    ¬ v.HasRoom nodes file (blocksOf v.blockSize newSize)

section

variable {v : Vol} {nodes : List Nat} {lo hi file k : Nat}

/-- The blocks behind a file are those of one extent. -/
theorem Coalesced.freeBehind_iff (hc : Coalesced v nodes lo hi) (hw : Blocks v nodes lo hi)
    (hfile : v.IsFile nodes file) (hpos : v.get file .size ≠ 0)
    (hmore : blocksOf v.blockSize (v.get file .size) < k) :
    v.FreeBehind nodes file k ↔ ∃ a, a ∈ nodes ∧
      v.get a .startBlock = v.get file .endBlock + 1 ∧
        k - blocksOf v.blockSize (v.get file .size) ≤ v.extent a := by
  obtain ⟨-, hle, -, hcount⟩ := hw.fileExtent hfile hpos
  have hlast : ¬ v.Free nodes (v.get file .endBlock) :=
    hw.apart file hfile _ ⟨hpos, hle, Nat.le_refl _⟩
  rw [← hc.behind_iff (Nat.sub_pos_of_lt hmore) hlast]
  constructor
  · exact fun h b hb hb' => h.2 b hb (by omega)
  · exact fun h => ⟨hpos, fun b hb hb' => h b hb (by omega)⟩

/-- When the whole data area is free, one extent is all of it. -/
theorem Coalesced.whole (hc : Coalesced v nodes lo hi) (hlt : lo < hi)
    (hall : ∀ b, lo ≤ b → b < hi → v.Free nodes b) :
    ∃ a, nodes = [a] ∧ v.get a .startBlock = lo ∧ v.get a .endBlock + 1 = hi := by
  obtain ⟨a, ha, hown⟩ := hall lo (Nat.le_refl lo) hlt
  have hrun := hc.owns_run (k := hi - lo) ha hown fun j hj => hall _ (by omega) (by omega)
  have hstart := hc.ge a ha
  have hend := hc.lt a ha
  have hfirst := hown.1
  have hlast := (hrun (hi - lo - 1) (by omega)).2
  refine ⟨a, ?_, by omega, by omega⟩
  have honly : ∀ o, o ∈ nodes → o = a := by
    intro o ho
    have hge := hc.ge o ho
    have hlt' := hc.lt o ho
    have hle := hc.nonempty o ho
    exact hc.disjoint o ho a ha _ (hc.owns_start ho) ⟨by omega, by omega⟩
  cases nodes with
  | nil => exact absurd ha List.not_mem_nil
  | cons o l =>
    have hnil : l = [] := List.eq_nil_iff_forall_not_mem.2 fun x hx => by
      have hx' := honly x (List.mem_cons_of_mem o hx)
      have ho := honly o List.mem_cons_self
      exact (List.nodup_cons.1 hc.nodup).1 (by rwa [ho, ← hx'])
    rw [hnil, honly o List.mem_cons_self]

end

/-! ## Files that grow -/

section Grow

variable {t : Img} {nodes : List Nat} {lo hi file newSize : Nat}

/-- `try_expand` takes the blocks behind the file when they are free. -/
theorem gives_expandFile_room (hw : Blocks t.vol nodes lo hi) (hc : Coalesced t.vol nodes lo hi)
    (hfile : t.vol.IsFile nodes file)
    (hsize : t.vol.blockSize * blocksOf t.vol.blockSize newSize < 18446744073709551616)
    (hmore : blocksOf t.vol.blockSize (t.vol.get file .size) < blocksOf t.vol.blockSize newSize)
    (entr : Entry) :
    Gives (expandFile file (t.vol.get file .startBlock) newSize entr) t fun r t' =>
      (r.1 ≠ 0 ∧ t'.vol = t.vol ∧
        ¬ t.vol.FreeBehind nodes file (blocksOf t.vol.blockSize newSize)) ∨
      (r.1 = 0 ∧ t.vol.FreeBehind nodes file (blocksOf t.vol.blockSize newSize)) := by
  have hg := hw.geometry
  have hbs := hg.sized.pos
  have hold := hw.size_lt hfile
  have hdev := hg.sized.small
  unfold expandFile
  by_cases hz : t.vol.get file .size = 0
  · rw [if_neg (not_not.2 ((hw.start_eq_zero hfile).2 hz)), gives_pure]
    exact Or.inl ⟨one_ne_zero, rfl, fun h => h.1 hz⟩
  · obtain ⟨-, -, hhi, -⟩ := hw.fileExtent hfile hz
    have hdelta : sub64 (realSize t.vol.blockSize newSize)
        (realSize t.vol.blockSize (t.vol.get file .size)) = t.vol.blockSize *
          (blocksOf t.vol.blockSize newSize - blocksOf t.vol.blockSize (t.vol.get file .size)) := by
      rw [realSize_eq_of_lt hsize, realSize_eq hbs (by omega), sub64_of_le, Nat.mul_sub]
      exact Nat.mul_le_mul_left _ (Nat.le_of_lt hmore)
    rw [if_pos fun h => hz ((hw.start_eq_zero hfile).1 h)]
    have hiff := hc.freeBehind_iff hw hfile hz hmore
    refine (gives_tryExpand hg hw.space hfile.1 hhi hdelta).mono fun r t' h => ?_
    rcases h with ⟨hr, hvol, hnone⟩ | ⟨hr, -, a, ha, hstart, hroom, -⟩
    · refine Or.inl ⟨by rw [hr]; exact one_ne_zero, hvol, fun hfree => ?_⟩
      obtain ⟨a, ha, hstart, hroom⟩ := hiff.1 hfree
      exact hnone a ha ⟨hstart, Nat.mul_le_mul_left _ hroom⟩
    · exact Or.inr ⟨hr, hiff.2 ⟨a, ha, hstart, hroom⟩⟩

/-- A copy that comes to an end has worked. -/
theorem post_copyBlock_ret {src dest n : Nat} (t : Img) :
    Prog.Post Img.handle (copyBlockM src dest n) t fun r _ => r = 0 := by
  intro r t' hrun
  replace hrun : Img.handle (.copyBlock src dest n) t = some (r, t') :=
    (Prog.exec_perform _ _ _).symm.trans hrun
  dsimp only [Img.handle] at hrun
  split at hrun
  case isTrue =>
    cases hrun
    rfl
  case isFalse =>
    split at hrun
    case isTrue => cases hrun
    split at hrun
    case isTrue =>
      cases hrun
      rfl
    case isFalse => cases hrun

/-- A file grows exactly when it has room. -/
theorem post_growFile_room (hw : Blocks t.vol nodes lo hi) (hc : Coalesced t.vol nodes lo hi)
    (hfile : t.vol.IsFile nodes file)
    (hsize : t.vol.blockSize * blocksOf t.vol.blockSize newSize < 18446744073709551616)
    (hmore : blocksOf t.vol.blockSize (t.vol.get file .size) < blocksOf t.vol.blockSize newSize)
    (code : Nat) (entr : Entry) :
    Prog.Post Img.handle (growFile code file (t.vol.get file .startBlock)
      (t.vol.get file .endBlock) newSize entr) t fun r _ =>
        ((∃ x, r.1 = .ok x) ↔ t.vol.HasRoom nodes file (blocksOf t.vol.blockSize newSize)) := by
  have hblocks : 0 < blocksOf t.vol.blockSize newSize := Nat.lt_of_le_of_lt (Nat.zero_le _) hmore
  have hbs : Gives blockSize t fun bs t' => bs = t.vol.blockSize ∧ t' = t :=
    ⟨_, _, rfl, rfl, rfl⟩
  unfold growFile
  refine hbs.post.bind ?_
  rintro _ t ⟨rfl, rfl⟩
  refine (gives_expandFile_room hw hc hfile hsize hmore entr).post.bind
    fun ⟨expanded, entr₁⟩ t₁ h₁ => ?_
  dsimp only at h₁ ⊢
  rcases h₁ with ⟨hne, hvol₁, hbehind⟩ | ⟨hz, hbehind⟩
  · rw [if_neg hne]
    have hg := hw.geometry
    rw [← hvol₁] at hw hc hsize hblocks hg hbehind ⊢
    refine (gives_delFileListAlloc hg hw.space (realSize_eq_of_lt hsize) hblocks).post.bind
      fun ⟨start, entr₂⟩ t₂ h₂ => ?_
    dsimp only at h₂ ⊢
    rcases h₂ with ⟨hz, -, -, hnone⟩ | ⟨-, a, ha, hstart, hroom, -, -⟩
    · rw [if_pos hz]
      refine Prog.post_pure ⟨fun hok => absurd hok (by simp), fun hhas => ?_⟩
      obtain ⟨o, ho, hle⟩ := (hc.run_iff hblocks).1 (hhas.resolve_left hbehind)
      exact absurd (hnone o ho) (Nat.not_lt.2 hle)
    · have hge := hw.space.ge a ha
      have hlo := hg.lo_pos
      have hhas : t₁.vol.HasRoom nodes file (blocksOf t₁.vol.blockSize newSize) :=
        Or.inr ((hc.run_iff hblocks).2 ⟨a, ha, hroom⟩)
      rw [if_neg (show start ≠ 0 by omega)]
      split
      · refine Prog.Post.bind (P := fun _ _ => True) (fun _ _ _ => trivial) fun _ t₃ _ => ?_
        refine (post_copyBlock_ret t₃).bind fun ret _ hret => ?_
        rw [if_neg (not_not.2 hret)]
        exact Prog.post_pure ⟨fun _ => hhas, fun _ => ⟨_, rfl⟩⟩
      · exact Prog.post_pure ⟨fun _ => hhas, fun _ => ⟨_, rfl⟩⟩
  · rw [if_pos hz]
    exact Prog.post_pure ⟨fun _ => Or.inl hbehind, fun _ => ⟨_, rfl⟩⟩

/-- `sfs_write` and `sfs_truncate` find an extent exactly when the file needs no more
blocks or has room. -/
theorem gives_extentFor_room (hw : Blocks t.vol nodes lo hi) (hc : Coalesced t.vol nodes lo hi)
    (hfile : t.vol.IsFile nodes file)
    (hsize : t.vol.blockSize * blocksOf t.vol.blockSize newSize < 18446744073709551616)
    (hmore : blocksOf t.vol.blockSize (t.vol.get file .size) ≤ blocksOf t.vol.blockSize newSize)
    (hsafe : t.vol.GrowsSafely nodes file newSize) (code : Nat) (entr : Entry) :
    Gives (extentFor code file (t.vol.get file .size) (t.vol.get file .startBlock)
      (t.vol.get file .endBlock) newSize entr) t fun r _ =>
        ((∃ x, r.1 = .ok x) ↔ ¬ t.vol.LacksRoom nodes file newSize) := by
  refine Prog.Post.ends ?_ (gives_extentFor hw hfile hsize hmore hsafe code entr)
  have hbs : Gives blockSize t fun bs t' => bs = t.vol.blockSize ∧ t' = t :=
    ⟨_, _, rfl, rfl, rfl⟩
  unfold extentFor
  refine hbs.post.bind ?_
  rintro _ t ⟨rfl, rfl⟩
  have hpos := hw.geometry.sized.pos
  have hold := hw.size_lt hfile
  have hdev := hw.geometry.sized.small
  rw [realSize_eq_of_lt hsize, realSize_eq hpos (by omega)]
  by_cases hlt : blocksOf t.vol.blockSize (t.vol.get file .size) < blocksOf t.vol.blockSize newSize
  · rw [if_pos ((Nat.mul_lt_mul_left hpos).2 hlt)]
    refine (post_growFile_room hw hc hfile hsize hlt code entr).mono fun r _ hr => ?_
    exact hr.trans ⟨fun hroom hlacks => hlacks.2 hroom, fun hnot => by_contra fun hroom =>
      hnot ⟨hlt, hroom⟩⟩
  · rw [if_neg fun h => hlt ((Nat.mul_lt_mul_left hpos).1 h)]
    exact Prog.post_pure ⟨fun _ h => hlt h.1, fun _ => ⟨_, rfl⟩⟩

/-- Once the extent is found, `sfs_write` stores all the bytes. -/
theorem gives_storeWrite {v : Vol} {nodes' : List Nat} {start stop size off : Nat}
    (hmoved : v.Moved t.vol nodes nodes' lo hi file start stop newSize) (hw : Blocks v nodes lo hi)
    (hfile : v.IsFile nodes file) (hnew : newSize < 18446744073709551616)
    (hfit : off + size ≤ newSize) (data : Mem) (entr : Entry) :
    Gives (setExtent file start stop newSize entr >>= fun _ =>
      writeDataM (u64 (start * v.blockSize + off)) data size) t fun r _ => r = size := by
  rw [gives_bind]
  refine (gives_setMoved hmoved hw hfile hnew entr).mono fun _ t' ⟨hres, hstart⟩ => ?_
  have hg := hres.blocks.geometry
  have hrange := hres.blocks.range_le hres.isFile (hres.size.symm ▸ hfit)
  have hin := hg.inside
  have hne := hg.nonempty
  have hsmall := hg.sized.small
  rw [hstart, hres.keeps.area.blockSize] at hrange
  rw [u64_of_lt (by omega), gives_tail, gives_writeRange hg.sized (by omega) (by omega), gives_pure]

/-- `sfs_write` fails exactly when there is no room. -/
theorem gives_sfsWrite_room (hw : Blocks t.vol nodes lo hi) (hc : Coalesced t.vol nodes lo hi)
    (hfile : t.vol.IsFile nodes file) {size off : Nat} (hlt : off + size < 9223372036854775808)
    (hsafe : t.vol.GrowsSafely nodes file (max (t.vol.get file .size) (off + size)))
    (data : Mem) :
    Gives (sfsWrite file data size off) t fun r _ =>
      (r = minusOne ↔ t.vol.LacksRoom nodes file (max (t.vol.get file .size) (off + size))) := by
  have hg := hw.geometry
  have hslot := hfile.1
  have hold := hw.size_lt hfile
  have hdev := hg.sized.small
  have hsize := hw.written_lt hfile hlt
  have hmore := blocksOf_mono hg.sized.pos (Nat.le_max_left (t.vol.get file .size) (off + size))
  have hnew : (if t.vol.get file .size < off + size then off + size else t.vol.get file .size)
      = max (t.vol.get file .size) (off + size) := by
    split <;> omega
  unfold sfsWrite
  rw [gives_uninit, gives_readEntry hg.sized hslot.ge hslot.aligned (hg.slot_le hslot)]
  dsimp only
  rw [if_neg (by decide), gives_blockSize, Vol.get_load, Vol.get_load, Vol.get_load,
    u64_of_lt (by omega), hnew, gives_bind]
  refine ((gives_extentFor (t := { t with clean := false }) hw hfile hsize hmore hsafe eIO _).and
    (gives_extentFor_room (t := { t with clean := false }) hw hc hfile hsize hmore hsafe eIO
      _)).mono fun ⟨grown, entr₁⟩ t₁ ⟨hgrown, hroom⟩ => ?_
  dsimp only at hgrown hroom ⊢
  rcases hgrown with ⟨rfl, -⟩ | ⟨start, stop, nodes', rfl, hmoved⟩
  · dsimp only
    rw [gives_setErrno, gives_pure]
    exact iff_of_true rfl (by_contra fun hnot => absurd (hroom.2 hnot) (by simp))
  · dsimp only
    refine (gives_storeWrite hmoved hw hfile (by omega) (Nat.le_max_right _ _) data entr₁).mono
      fun r _ hr => ?_
    rw [hr]
    exact iff_of_false (ne_minusOne (by omega)) (hroom.1 ⟨_, rfl⟩)

/-- `sfs_truncate` fails exactly when there is no room. -/
theorem gives_sfsTruncate_room (hw : Blocks t.vol nodes lo hi) (hc : Coalesced t.vol nodes lo hi)
    (hfile : t.vol.IsFile nodes file) (hsafe : t.vol.TruncatesSafely nodes file newSize) :
    Gives (sfsTruncate file newSize) t fun r _ =>
      (r ≠ 0 ↔ t.vol.LacksRoom nodes file newSize) := by
  have hg := hw.geometry
  have hslot := hfile.1
  by_cases hz : newSize = 0
  · subst hz
    refine (gives_sfsTruncate_zero hw hfile (hsafe.drop rfl)).mono fun r _ ⟨hr, _⟩ => ?_
    refine iff_of_false (not_not.2 hr) fun hlacks => ?_
    have hlt := hlacks.1
    rw [blocksOf_zero] at hlt
    exact Nat.not_lt_zero _ hlt
  · have hbs := hg.sized.pos
    have hold := hw.size_lt hfile
    have hdev := hg.sized.small
    have hsize := Nat.lt_of_lt_of_le (blocksOf_lt hbs newSize) hsafe.size
    have hmore := hsafe.blocks hz
    have hlt : newSize < 18446744073709551616 := by
      have h := hsafe.size
      omega
    unfold sfsTruncate
    rw [gives_uninit, gives_readEntry hg.sized hslot.ge hslot.aligned (hg.slot_le hslot)]
    dsimp only
    rw [if_neg (by decide), gives_blockSize, Vol.get_load, Vol.get_load, Vol.get_load, if_neg hz,
      realSize_eq_of_lt hsize, realSize_eq hbs (by omega),
      if_neg (Nat.not_lt.2 (Nat.mul_le_mul_left _ hmore)), gives_bind]
    refine ((gives_extentFor (t := { t with clean := false }) hw hfile hsize hmore hsafe.grow
      eNOSPC _).and (gives_extentFor_room (t := { t with clean := false }) hw hc hfile hsize hmore
        hsafe.grow eNOSPC _)).mono fun ⟨grown, entr₁⟩ t₁ ⟨hgrown, hroom⟩ => ?_
    dsimp only at hgrown hroom ⊢
    rcases hgrown with ⟨rfl, -⟩ | ⟨start, stop, nodes', rfl, hmoved⟩
    · dsimp only
      rw [gives_setErrno, gives_pure]
      exact iff_of_true (by decide) (by_contra fun hnot => absurd (hroom.2 hnot) (by simp))
    · dsimp only
      rw [gives_bind]
      refine (gives_setMoved hmoved hw hfile hlt entr₁).mono fun _ t₂ _ => ?_
      rw [gives_pure]
      exact iff_of_false (not_not.2 rfl) (hroom.1 ⟨_, rfl⟩)

end Grow

/-! ## Runs -/

/-- The operation asks for a file of the size. -/
def Op.Resizes (v : Vol) (file newSize : Nat) : Op → Prop
  | write f _ size off => f = file ∧ newSize = max (v.get file .size) (off + size)
  | truncate f size => f = file ∧ newSize = size
  | _ => False

/-- A call that resizes a file is refused exactly when there is no room. -/
theorem UnitCall.Goes.refused_iff {s s' : Session} {V V' : View} {lo hi file newSize : Nat}
    {op : Op} {r : Reply} (hgoes : Goes (.edit op) s V lo hi r s' V') (h : s.Stands V lo hi)
    (hc : Coalesced V.vol V.nodes lo hi) (hacc : op.Accepts V.vol V.pending)
    (hsafe : op.Safe V.vol) (hop : op.Resizes V.vol file newSize) :
    r = .refused ↔ V.vol.LacksRoom V.nodes file newSize := by
  have hb := h.sound.toBlocks
  have hg := hb.geometry
  have hrun := hgoes.run
  cases op with
  | creat | mkdir | rmdir | unlink | delete | rename => exact hop.elim
  | write f data size off =>
    obtain ⟨rfl, rfl⟩ := hop
    have hfile : V.vol.IsFile V.nodes f := hacc.1.isFile
    have hgrow := hsafe V.nodes hb.space.toFreeList
    obtain ⟨x, hx, heq⟩ := Option.map_eq_some_iff.1 hrun
    cases heq
    have hret := h.exec (Q := fun r _ => r = minusOne ↔ V.vol.LacksRoom V.nodes f
        (max (V.vol.get f .size) (off + size)))
      (reloads_sfsWrite hg hacc.1.1 data size off).ignores (fun t ht => by
        rw [← ht] at hb hc hfile hgrow ⊢
        exact gives_sfsWrite_room hb hc hfile hacc.2 hgrow data) hx
    rw [← hret]
    by_cases hr : x.1 = minusOne <;> simp [hr]
  | truncate f size =>
    obtain ⟨rfl, heq⟩ := hop
    subst heq
    have hfile : V.vol.IsFile V.nodes f := Vol.LiveFile.isFile hacc
    have hgrow := hsafe V.nodes hb.space.toFreeList
    obtain ⟨x, hx, heq⟩ := Option.map_eq_some_iff.1 hrun
    cases heq
    have hret := h.exec (Q := fun r _ => r ≠ 0 ↔ V.vol.LacksRoom V.nodes f newSize)
      (reloads_sfsTruncate hg hfile.1 newSize).ignores (fun t ht => by
        rw [← ht] at hb hc hfile hgrow ⊢
        exact gives_sfsTruncate_room hb hc hfile hgrow) hx
    rw [← hret]
    by_cases hr : x.1 = 0 <;> simp [hr]

/-- No free block touches a free extent from outside. -/
theorem Coalesced.maximal {v : Vol} {nodes : List Nat} {lo hi a b : Nat}
    (hc : Coalesced v nodes lo hi) (ha : a ∈ nodes)
    (hb : b + 1 = v.get a .startBlock ∨ b = v.get a .endBlock + 1) : ¬ v.Free nodes b := by
  rintro ⟨o, ho, hown⟩
  have hge := hown.1
  have hle := hown.2
  have hne := hc.nonempty a ha
  have hsep := hc.separate o ho a ha
  have hsep' := hc.separate a ha o ho
  have heq : o = a := by
    rcases hb with hb | hb
    · exact hc.disjoint o ho a ha (b + 1) ⟨by omega, by omega⟩ ⟨by omega, by omega⟩
    · exact hc.disjoint o ho a ha (b - 1) ⟨by omega, by omega⟩ ⟨by omega, by omega⟩
  subst heq
  omega

/-- In every state that calls in order reach from the first mount on, each extent of
the list is a whole run of free blocks, and without a file that owns blocks one extent
is the whole data area, which has a block at least. -/
theorem extents_run {opts : SfsOptions} {bs : Nat} {s : Sys} (hs : FreshlyMounted opts bs s)
    (hdata : 0 < opts.dataSize) {calls : List UnitCall}
    (hcalls : MeetsCalls UnitCall.Lasting ⟨s, []⟩ calls) :
    ∃ rs s' nodes, answers UnitCall.perform ⟨s, []⟩ calls = some (rs, s') ∧
      FreeList s'.sys.vol nodes ∧
      (∀ a, a ∈ nodes → s'.sys.vol.get a .startBlock ≤ s'.sys.vol.get a .endBlock ∧
        ∀ b, b + 1 = s'.sys.vol.get a .startBlock ∨ b = s'.sys.vol.get a .endBlock + 1 →
          ¬ s'.sys.vol.Free nodes b) ∧
      ((∀ o b, s'.sys.vol.IsFile nodes o → ¬ s'.sys.vol.FileOwns o b) →
        ∃ a, nodes = [a] ∧ s'.sys.vol.get a .startBlock = opts.reservedSize ∧
          s'.sys.vol.get a .endBlock + 1 = opts.reservedSize + opts.dataSize) := by
  obtain ⟨rs, s', V', hrun, hstands, hV'⟩ := hs.durable_run hdata hcalls
  have hc := hV'.coalesced
  refine ⟨rs, s', V'.nodes, hrun, ?_⟩
  rw [hstands.vol]
  refine ⟨hc.toFreeList, fun a ha => ⟨hc.nonempty a ha, fun b => hc.maximal ha⟩, fun hnone => ?_⟩
  refine hc.whole (Nat.lt_add_of_pos_right hdata) fun b hlo hhi => ?_
  rcases hV'.covered.owned b hlo hhi with hfree | ⟨o, ho, hown⟩
  · exact hfree
  · exact absurd hown (hnone o b ho)

theorem extents_run_pathA :
    ∃ s, FreshlyMounted blankOpts 512 s ∧ ∃ rs s' nodes,
      answers UnitCall.perform ⟨s, []⟩ pathACalls = some (rs, s') ∧ FreeList s'.sys.vol nodes ∧
      (∀ a, a ∈ nodes → s'.sys.vol.get a .startBlock ≤ s'.sys.vol.get a .endBlock ∧
        ∀ b, b + 1 = s'.sys.vol.get a .startBlock ∨ b = s'.sys.vol.get a .endBlock + 1 →
          ¬ s'.sys.vol.Free nodes b) ∧
      ((∀ o b, s'.sys.vol.IsFile nodes o → ¬ s'.sys.vol.FileOwns o b) →
        ∃ a, nodes = [a] ∧ s'.sys.vol.get a .startBlock = 1 ∧
          s'.sys.vol.get a .endBlock + 1 = 1 + 6) := by
  obtain ⟨s, hfresh, hcalls⟩ := blankCalls_lasting pathACalls (by decide +kernel)
    (by simp [pathACalls, UnitCall.asks, Op.asks])
  exact ⟨s, hfresh, extents_run hfresh (by decide) hcalls⟩

/-- In every state that calls in order reach from the first mount on, a write or a
truncation in order is refused exactly when the file needs more blocks, those behind it
are not free, and no free blocks in a row are enough for it. -/
theorem refused_iff_run {opts : SfsOptions} {bs : Nat} {s : Sys} (hs : FreshlyMounted opts bs s)
    (hdata : 0 < opts.dataSize) {calls : List UnitCall} {op : Op}
    (hcalls : MeetsCalls UnitCall.Lasting ⟨s, []⟩ (calls ++ [.edit op])) :
    ∃ rs s₁ nodes r s', answers UnitCall.perform ⟨s, []⟩ calls = some (rs, s₁) ∧
      FreeList s₁.sys.vol nodes ∧ op.perform s₁ = some (r, s') ∧
      ∀ file newSize, op.Resizes s₁.sys.vol file newSize →
        (r = .refused ↔ s₁.sys.vol.LacksRoom nodes file newSize) := by
  obtain ⟨hbefore, hlast⟩ := hcalls.append
  obtain ⟨rs, s₁, V₁, hrun, hstands, hV₁⟩ := hs.durable_run hdata hbefore
  have hadm : UnitCall.Admitted s₁.sys.vol s₁.pending (.edit op) :=
    (hlast s₁ (run_of_answers_eq hrun)).1.admitted
  rw [hstands.vol, hstands.pending] at hadm
  obtain ⟨r, s', V', hgoes⟩ := hstands.refines hadm
  refine ⟨rs, s₁, V₁.nodes, r, s', hrun, ?_, hgoes.run, fun file newSize hop => ?_⟩
  · rw [hstands.vol]
    exact hV₁.coalesced.toFreeList
  · rw [hstands.vol] at hop ⊢
    exact hgoes.refused_iff hstands hV₁.coalesced hadm.1 hadm.2 hop

theorem refused_iff_run_pathA :
    ∃ s, FreshlyMounted blankOpts 512 s ∧ ∃ rs s₁ nodes r s',
      answers UnitCall.perform ⟨s, []⟩ [.edit (.creat pathA)] = some (rs, s₁) ∧
      FreeList s₁.sys.vol nodes ∧
      Op.perform s₁ (.write 3776 (fun _ => 7) 5000 0) = some (r, s') ∧
      ∀ file newSize, Op.Resizes s₁.sys.vol file newSize (.write 3776 (fun _ => 7) 5000 0) →
        (r = .refused ↔ s₁.sys.vol.LacksRoom nodes file newSize) := by
  obtain ⟨s, hfresh, hcalls⟩ := blankCalls_lasting
    ([.edit (.creat pathA)] ++ [.edit (.write 3776 (fun _ => 7) 5000 0)]) (by decide +kernel)
    (by simp [UnitCall.asks, Op.asks])
  exact ⟨s, hfresh, refused_iff_run hfresh (by decide) hcalls⟩

end Sfs
