import Sfs.Tree

/-!
# Owners of blocks

Every block of the data area belongs to one extent of the list of free extents,
or to one file.  `Blocks` has that no block belongs to two; that none is lost is
`View.Covered`, and both together are `Vol.OneOwner`.

* `Change.covered` says that no operation loses a block;
* `oneOwner_run` says that after every run of safe operations every block has
  one owner;
* `truncate_loses_blocks` is a run with an unsafe one: `sfs_truncate` to fewer
  blocks.
-/

namespace Sfs

open Lib

/-- What a block can belong to: an extent of the list, by its node, or a file. -/
inductive Owner where
  | extent (node : Nat)
  | file (head : Nat)

/-- The block belongs to the owner.  A file is live, or waits for
`sfs_delete`. -/
def Vol.OwnedBy (v : Vol) (nodes pending : List Nat) (b : Nat) : Owner → Prop
  | .extent node => node ∈ nodes ∧ v.Owns node b
  | .file head =>
    (v.LiveFile head ∨
      (head ∈ pending ∧ v.Slot head ∧ v.type head = EntryType.delFileEntry.code)) ∧
      v.FileOwns head b

/-- Every block from `lo` to `hi` has exactly one owner, and no other block has
one. -/
structure Vol.OneOwner (v : Vol) (nodes pending : List Nat) (lo hi : Nat) : Prop where
  owner : ∀ b, lo ≤ b → b < hi → ∃! o, v.OwnedBy nodes pending b o
  inside : ∀ o b, v.OwnedBy nodes pending b o → lo ≤ b ∧ b < hi

/-- No block is lost, and no unlinked file is forgotten. -/
structure View.Covered (V : View) (lo hi : Nat) : Prop where
  owned : ∀ b, lo ≤ b → b < hi → V.vol.Free V.nodes b ∨
    ∃ o, V.vol.IsFile V.nodes o ∧ V.vol.FileOwns o b
  awaited : ∀ f, V.vol.Pending V.nodes f → f ∈ V.pending

namespace View.Covered

variable {V : View} {v' : Vol} {nodes' : List Nat} {lo hi a : Nat}

/-- A change of the group at `a` and of the list loses no block when the blocks
they had are still there. -/
theorem of_keeps (h : V.Covered lo hi) (hk : V.vol.Keeps v' V.nodes nodes' a)
    (hfree : ∀ b, V.vol.Free V.nodes b → v'.Free nodes' b ∨ (v'.IsFile nodes' a ∧ v'.FileOwns a b))
    (hown : ∀ b, V.vol.IsFile V.nodes a → V.vol.FileOwns a b →
      v'.Free nodes' b ∨ (v'.IsFile nodes' a ∧ v'.FileOwns a b))
    (hnot : ¬ v'.Pending nodes' a) : View.Covered ⟨v', nodes', V.pending⟩ lo hi := by
  refine ⟨fun b hlo hhi => ?_, fun f hf => ?_⟩
  · have hnew : v'.Free nodes' b ∨ (v'.IsFile nodes' a ∧ v'.FileOwns a b) →
        v'.Free nodes' b ∨ ∃ o, v'.IsFile nodes' o ∧ v'.FileOwns o b :=
      fun h => h.imp_right fun h => ⟨a, h⟩
    rcases h.owned b hlo hhi with hb | ⟨o, ho, hb⟩
    · exact hnew (hfree b hb)
    · by_cases heq : o = a
      · subst heq
        exact hnew (hown b ho hb)
      · exact Or.inr ⟨o, (hk.file o heq).2 ho, (hk.fileOwns_iff heq ho).2 hb⟩
  · by_cases heq : f = a
    · exact absurd (heq ▸ hf) hnot
    · exact h.awaited f ((hk.pending_iff heq).1 hf)

/-- A new file is empty, so it takes no block. -/
theorem added {kind : NameKind} {s : Buf} (h : V.Covered lo hi) (hl : Layout V.vol)
    (hf : FreeList V.vol V.nodes) (hadd : V.vol.Added v' kind a s)
    (hk : kind = fileKind ∨ kind = dirKind) :
    View.Covered ⟨v', V.nodes, V.pending⟩ lo hi := by
  refine h.of_keeps (hadd.keeps hl) (fun b hb => Or.inl ?_)
    (fun b hfile => absurd hfile.head hadd.not_head) fun hp => ?_
  · exact (Vol.free_congr (hadd.get_node hl hf)).2 hb
  · have ht := hp.2.1.symm.trans hadd.named.type
    rcases hk with rfl | rfl <;> exact absurd ht (by decide)

/-- A group that owns nothing can go. -/
theorem released (h : V.Covered lo hi) (hl : Layout V.vol) (hf : FreeList V.vol V.nodes)
    (hrel : V.vol.Released v' a) (hnot : a ∉ V.nodes)
    (hnone : ∀ b, V.vol.IsFile V.nodes a → ¬ V.vol.FileOwns a b) :
    View.Covered ⟨v', V.nodes, V.pending⟩ lo hi :=
  h.of_keeps (hrel.keeps hl)
    (fun _ hb => Or.inl ((Vol.free_congr (hrel.get_node hl hf hnot)).2 hb))
    (fun b hfile hb => absurd hb (hnone b hfile)) fun hp => hrel.not_head hp.isFile.head

/-- A file of another size has blocks that were free, and frees others. -/
theorem resized {file size : Nat} (h : V.Covered lo hi)
    (hres : V.vol.Resized v' V.nodes nodes' lo hi file size) (hlive : V.vol.LiveFile file) :
    View.Covered ⟨v', nodes', V.pending⟩ lo hi := by
  have hor : ∀ b, V.vol.Free V.nodes b ∨ V.vol.FileOwns file b →
      v'.Free nodes' b ∨ (v'.IsFile nodes' file ∧ v'.FileOwns file b) := by
    intro b hb
    by_cases hown : v'.FileOwns file b
    · exact Or.inr ⟨hres.isFile, hown⟩
    · exact Or.inl ((hres.free b).2 ⟨hb, hown⟩)
  refine h.of_keeps hres.keeps (fun b hb => hor b (Or.inl hb)) (fun b _ hb => hor b (Or.inr hb))
    fun hp => ?_
  exact absurd (hp.2.1.symm.trans (hres.type.trans hlive.2)) (by decide)

end View.Covered

/-- No operation loses a block. -/
theorem Change.covered {V V' : View} {lo hi : Nat} {op : Op} (h : Change lo hi V op V')
    (hV : V.Sound lo hi) (hcov : V.Covered lo hi) : V'.Covered lo hi := by
  have hw := hV.toWellFormed
  have hl := hw.layout
  have hf := hw.space.toFreeList
  cases h with
  | same => exact hcov
  | created hadd _ _ _ _ => exact hcov.added hl hf hadd (Or.inl rfl)
  | madeDir hadd _ _ => exact hcov.added hl hf hadd (Or.inr rfl)
  | removed hname _ hrel =>
    exact hcov.released hl hf hrel (hname.isDir.not_mem hf) fun _ hfile =>
      absurd hfile hname.isDir.not_isFile
  | @unlinked v' q a hname htype =>
    have hfile : V.vol.IsFile V.nodes a := hname.liveFile.isFile
    have hnot := hfile.not_mem hf
    have hal := htype.slot.aligned
    have hsame : ∀ f : Field, f ≠ .entryType → v'.get a f = V.vol.get a f := fun f hne =>
      htype.get_eq hal (Or.inr hne)
    have hfile' : v'.IsFile V.nodes a := ⟨htype.area.slot.2 htype.slot, Or.inr ⟨htype.type, hnot⟩⟩
    have hkeep : V.vol.Keeps v' V.nodes V.nodes a := htype.keeps hl
    refine ⟨fun b hlo hhi => ?_, fun f hp => ?_⟩
    · rcases hcov.owned b hlo hhi with hb | ⟨o, ho, hb⟩
      · exact Or.inl ((Vol.free_congr (htype.get_node hf hnot)).2 hb)
      · by_cases heq : o = a
        · subst heq
          refine Or.inr ⟨o, hfile', ?_⟩
          rw [Vol.FileOwns, Vol.Owns, hsame _ (by decide), hsame _ (by decide),
            hsame _ (by decide)]
          exact hb
        · exact Or.inr ⟨o, (hkeep.file o heq).2 ho, (hkeep.fileOwns_iff heq ho).2 hb⟩
    · by_cases heq : f = a
      · exact heq ▸ List.mem_cons_self
      · exact List.mem_cons_of_mem a (hcov.awaited f ((hkeep.pending_iff heq).1 hp))
  | @deleted v' nodes' a hdel hmem =>
    have hmid := hcov.of_keeps hdel.keeps (fun b hb => Or.inl ((hdel.free b).2 (Or.inl hb)))
      (fun b _ hb => Or.inl ((hdel.free b).2 (Or.inr hb))) fun hp => hdel.not_file hp.isFile
    refine ⟨hmid.owned, fun f hp => hV.distinct.mem_erase_iff.2 ⟨?_, hmid.awaited f hp⟩⟩
    rintro rfl
    exact hdel.not_file hp.isFile
  | @renamed v' w q file a hlive hpath _ hempty hren =>
    have hfile : V.vol.IsFile V.nodes file := hlive.isFile
    have hnot := hfile.not_mem hf
    have hmid := hcov.released hl hf hren.released hnot fun b _ hb => hb.1 hempty
    have hw' := hren.released.wellFormed hw hnot
    exact View.Covered.added (V := ⟨w, V.nodes, V.pending⟩) hmid hw'.layout hw'.space.toFreeList
      hren.added (Or.inl rfl)
  | @written v' w nodes' file size off data hlive hres hstored =>
    have hmid := hcov.resized hres hlive
    have hfit : off + size ≤ w.get file .size := by
      rw [hres.size]
      exact Nat.le_max_right _ _
    have hsame := hres.blocks.stored_sameIndex hres.isFile hfit data
    have hzero : ¬ w.Slot 0 := fun hs =>
      absurd (hres.blocks.geometry.slot_pos hs) (Nat.lt_irrefl 0)
    subst hstored
    exact View.Covered.of_keeps (V := ⟨w, nodes', V.pending⟩) (a := 0) hmid (hsame.keeps 0)
      (fun b hb => Or.inl ((hsame.free_iff hres.blocks.space.toFreeList).2 hb))
      (fun b hfile => absurd hfile.1 hzero) fun hp => hzero (hsame.area.slot.1 hp.1)
  | truncated hlive hres => exact hcov.resized hres hlive

/-- When no block is lost, every block has one owner. -/
theorem View.Covered.oneOwner {V : View} {lo hi : Nat} (h : V.Covered lo hi)
    (hV : V.Sound lo hi) : V.vol.OneOwner V.nodes V.pending lo hi := by
  have hw := hV.toWellFormed
  have hf := hw.space
  have hfile : ∀ o, V.vol.LiveFile o ∨ (o ∈ V.pending ∧ V.vol.Slot o ∧
      V.vol.type o = EntryType.delFileEntry.code) → V.vol.IsFile V.nodes o := fun o ho =>
    ho.elim Vol.LiveFile.isFile fun ho => (hV.unlinked o ho.1).isFile
  refine ⟨fun b hlo hhi => ?_, fun o b ho => ?_⟩
  · rcases h.owned b hlo hhi with ⟨node, hmem, hb⟩ | ⟨o, ho, hb⟩
    · refine ⟨.extent node, ⟨hmem, hb⟩, fun o' ho' => ?_⟩
      cases o' with
      | extent node' => rw [hf.disjoint node' ho'.1 node hmem b ho'.2 hb]
      | file o => exact absurd ⟨node, hmem, hb⟩ (hw.apart o (hfile o ho'.1) b ho'.2)
    · have howner : V.vol.LiveFile o ∨ (o ∈ V.pending ∧ V.vol.Slot o ∧
          V.vol.type o = EntryType.delFileEntry.code) := by
        rcases ho.2 with ht | ht
        · exact Or.inl ⟨ho.1, ht⟩
        · exact Or.inr ⟨h.awaited o ⟨ho.1, ht⟩, ho.1, ht.1⟩
      refine ⟨.file o, ⟨howner, hb⟩, fun o' ho' => ?_⟩
      cases o' with
      | extent node => exact absurd ⟨node, ho'.1, ho'.2⟩ (hw.apart o ho b hb)
      | file o' => rw [hw.alone o' o (hfile o' ho'.1) ho b ho'.2 hb]
  · cases o with
    | extent node => exact hf.free_range ⟨node, ho.1, ho.2⟩
    | file o => exact hw.fileOwns_range (hfile o ho.1) ho.2

/-- All blocks of a fresh volume are free. -/
theorem Fresh.covered {v : Vol} {opts : SfsOptions} {bs : Nat} (h : Fresh v opts bs) :
    View.Covered ⟨v, [v.fs.entryStart + 64], []⟩ opts.reservedSize
      (opts.reservedSize + opts.dataSize) := by
  refine ⟨fun b hlo hhi => Or.inl ⟨_, List.mem_singleton_self _, ?_, ?_⟩,
    fun f hp => absurd hp.isFile h.not_isFile⟩
  · rw [h.index.nodeStart]
    exact hlo
  · have hend := h.index.nodeEnd
    dsimp only
    omega

/-- After every run of operations from the first mount on, each of which is safe
in the state it is made in, every block of the data area has one owner. -/
theorem oneOwner_run {opts : SfsOptions} {bs : Nat} {s : Sys} (hs : FreshlyMounted opts bs s)
    {ops : List Op} (hops : MeetsOps (fun v p op => op.Accepts v p ∧ op.Safe v) ⟨s, []⟩ ops)
    (n : Nat) :
    ∃ s' nodes, run Op.step ⟨s, []⟩ (ops.take n) = some s' ∧ FreeList s'.sys.vol nodes ∧
      s'.sys.vol.OneOwner nodes s'.pending opts.reservedSize
        (opts.reservedSize + opts.dataSize) := by
  obtain ⟨s', V', hrun, hat', hV', hcov⟩ := run_changes
    (I := fun V => V.Covered opts.reservedSize (opts.reservedSize + opts.dataSize))
    (C := fun v p op => op.Accepts v p ∧ op.Safe v) (fun _ _ _ _ h => h)
    (fun _ _ _ hV hcov _ hch => hch.covered hV hcov) hs.start.1 hs.start.2
    hs.fresh.2.2.covered hops n
  refine ⟨s', V'.nodes, hrun, ?_, ?_⟩
  · rw [hat'.vol]
    exact hV'.toWellFormed.space.toFreeList
  · rw [hat'.vol, hat'.pending]
    exact hcov.oneOwner hV'

/-- Of two files one is unlinked and deleted. -/
def oneDeleted : List Op := twoFiles ++ [.unlink pathA, .delete 3776]

theorem oneOwner_run_blankDisk :
    ∃ s s' nodes, FreshlyMounted blankOpts 512 s ∧
      run Op.step ⟨s, []⟩ (oneDeleted.take 5) = some s' ∧
      FreeList s'.sys.vol nodes ∧ s'.sys.vol.OneOwner nodes s'.pending blankOpts.reservedSize
        (blankOpts.reservedSize + blankOpts.dataSize) := by
  have hsome : blankMounted.isSome = true := by decide +kernel
  obtain ⟨s, hmount⟩ := Option.isSome_iff_exists.1 hsome
  have hops : MeetsOps (fun v p op => op.Accepts v p ∧ op.Light v) ⟨s, []⟩ oneDeleted :=
    blankRun_meets hmount (by decide +kernel)
  have hfresh := blankMounted_fresh hmount
  obtain ⟨s', nodes, hrun, hlist, hone⟩ :=
    oneOwner_run hfresh (hops.mono fun _ _ hop => ⟨hop.1, hop.2.safe⟩) 5
  exact ⟨s, s', nodes, hfresh, hrun, hlist, hone⟩

/-- A file of two blocks, truncated to one. -/
def truncateOps : List Op :=
  [.creat pathA, .write 3776 (fun _ => 7) 600 0, .truncate 3776 100]

/-- `file_shrink` takes the 512 bytes of a block for 512 blocks: the node of the
list then starts behind its end, and block 5 is lost. -/
theorem truncate_loses_blocks :
    ∃ s s', FreshlyMounted blankOpts 512 s ∧
      MeetsOps (fun v p op => op.Accepts v p) ⟨s, []⟩ truncateOps ∧
      run Op.step ⟨s, []⟩ truncateOps = some s' ∧
      ¬ ∃ nodes, FreeList s'.sys.vol nodes ∧ s'.sys.vol.OneOwner nodes s'.pending
        blankOpts.reservedSize (blankOpts.reservedSize + blankOpts.dataSize) := by
  have hview : (blankRun truncateOps).map (fun s' =>
      ([s'.sys.fs.entryStart, s'.sys.fs.volIdent], s'.pending,
        [3584, 3648, 3712, 3776, 3840, 3904, 3968].map s'.sys.vol.type,
        s'.sys.vol.get 3648 .startBlock, s'.sys.vol.get 3776 .endBlock))
      = some ([3584, 4032], [], [0x02, 0x1A, 0x11, 0x12, 0x10, 0x10, 0x10],
        18446744073709551107, 1) := by decide +kernel
  obtain ⟨s, s', hfresh, hmount, hrun, hview⟩ := blankRun_eq hview
  refine ⟨s, s', hfresh, blankRun_meets hmount (by decide +kernel), hrun, ?_⟩
  intro ⟨nodes, hlist, hone⟩
  simp only [List.map_cons, List.map_nil, Prod.mk.injEq, List.cons.injEq, and_true] at hview
  obtain ⟨⟨hstart, hident⟩, hpend, ⟨h₁, h₂, h₃, h₄, h₅, h₆, h₇⟩, hs₂, he₄⟩ := hview
  have hslot : ∀ o, s'.sys.vol.Slot o → o = 3584 ∨ o = 3648 ∨ o = 3712 ∨ o = 3776 ∨ o = 3840 ∨
      o = 3904 ∨ o = 3968 := by
    intro o ho
    have hge : 3584 ≤ o := hstart ▸ ho.ge
    have hlt : o < 4032 := hident ▸ ho.lt
    have hal := ho.aligned
    omega
  -- The only node owns nothing, and the only file owns block 1.
  have hnode : ∀ o, o ∈ nodes → o = 3648 := by
    intro o ho
    have ht := hlist.type o ho
    rcases hslot o (hlist.slot o ho) with rfl | rfl | rfl | rfl | rfl | rfl | rfl
    · exact absurd (h₁.symm.trans ht) (by decide)
    · rfl
    · exact absurd (h₃.symm.trans ht) (by decide)
    · exact absurd (h₄.symm.trans ht) (by decide)
    · exact absurd (h₅.symm.trans ht) (by decide)
    · exact absurd (h₆.symm.trans ht) (by decide)
    · exact absurd (h₇.symm.trans ht) (by decide)
  have hfile : ∀ o, s'.sys.vol.LiveFile o → o = 3776 := by
    intro o ho
    have ht := ho.2
    rcases hslot o ho.1 with rfl | rfl | rfl | rfl | rfl | rfl | rfl
    · exact absurd (h₁.symm.trans ht) (by decide)
    · exact absurd (h₂.symm.trans ht) (by decide)
    · exact absurd (h₃.symm.trans ht) (by decide)
    · rfl
    · exact absurd (h₅.symm.trans ht) (by decide)
    · exact absurd (h₆.symm.trans ht) (by decide)
    · exact absurd (h₇.symm.trans ht) (by decide)
  have hnone : ∀ o, ¬ s'.sys.vol.OwnedBy nodes s'.pending 5 o := by
    intro o ho
    cases o with
    | extent node =>
      have hge := ho.2.1
      rw [hnode node ho.1, hs₂] at hge
      exact absurd hge (by decide)
    | file head =>
      obtain ⟨hlive | ⟨hmem, -⟩, hown⟩ := ho
      · have hle := hown.2.2
        rw [hfile head hlive, he₄] at hle
        exact absurd hle (by decide)
      · rw [hpend] at hmem
        exact nomatch hmem
  obtain ⟨o, ho, -⟩ := hone.owner 5 (by decide) (by decide)
  exact hnone o ho

end Sfs
