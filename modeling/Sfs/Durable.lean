import Sfs.CoalescedOps
import Sfs.Refine

/-!
# What a mounted unit keeps

The calls keep more than the soundness of the view: the blocks before the data area
stay as they were formatted, the root directory stays, every block is free or
belongs to a file, and the free extents stay apart.

* `Change.reserved` is the frame of the operations before the data area;
* `UnitCall.Goes.coalesced` follows the free space through one call;
* `View.Formatted` and `View.Durable` put these facts together, `Goes.durable` is one call and
  `FreshlyMounted.durable_run` a run of them from the first mount on.
-/

namespace Sfs

open Lib FileTree

/-! ## The blocks before the data area -/

section Reserved

variable {v v' : Vol} {nodes nodes' : List Nat} {lo hi file size off k : Nat}

/-- An offset before the data area is before the index. -/
theorem Geometry.lt_entryStart (hg : Geometry v lo hi) (hk : k < lo * v.blockSize) :
    k < v.fs.entryStart := by
  rw [hg.entryStart]
  exact Nat.lt_of_lt_of_le hk (Nat.mul_le_mul_right v.blockSize hg.lo_le)

theorem Geometry.block_lt_lo (hg : Geometry v lo hi) (hk : k < lo * v.blockSize) :
    k / v.blockSize < lo :=
  (Nat.div_lt_iff_lt_mul hg.sized.pos).2 hk

/-- A file that gets other blocks gets none before the data area. -/
theorem Vol.Resized.reserved (h : v.Resized v' nodes nodes' lo hi file size)
    (hw : Blocks v nodes lo hi) (hfile : v.IsFile nodes file) (hk : k < lo * v.blockSize) :
    v'.data k = v.data k := by
  refine h.frame k (hw.geometry.lt_entryStart hk) fun hown => ?_
  have hblock := hw.geometry.block_lt_lo hk
  rcases h.owns _ hown with hfree | hold
  · exact absurd (hw.space.free_range hfree).1 (Nat.not_le.2 hblock)
  · exact absurd (hw.fileOwns_range hfile hold).1 (Nat.not_le.2 hblock)

/-- The bytes of a write are in the blocks of the file. -/
theorem Blocks.stored_reserved (hw : Blocks v nodes lo hi) (hfile : v.IsFile nodes file)
    (hle : off + size ≤ v.get file .size) (data : Mem) (hk : k < lo * v.blockSize) :
    (v.stored file off data size).data k = v.data k :=
  hw.stored_other hfile hle fun hown =>
    absurd (hw.fileOwns_range hfile hown).1 (Nat.not_le.2 (hw.geometry.block_lt_lo hk))

end Reserved

/-- No operation writes before the data area. -/
theorem Change.reserved {V V' : View} {lo hi k : Nat} {op : Op} (h : Change lo hi V op V')
    (hV : V.Sound lo hi) (hk : k < lo * V.vol.blockSize) : V'.vol.data k = V.vol.data k := by
  have hw := hV.toBlocks
  have hlt := hw.geometry.lt_entryStart hk
  have hadded : ∀ {v v' : Vol} {kind : NameKind} {a : Nat} {s : Buf}, v.Added v' kind a s →
      v.fs.entryStart = V.vol.fs.entryStart → v'.data k = v.data k := by
    intro v v' kind a s hadd hstart
    have hge := hadd.named.slot.ge
    rw [hadd.area.entryStart, hstart] at hge
    exact hadd.frame k (Or.inl (Nat.lt_of_lt_of_le hlt hge))
  have hreleased : ∀ {v' : Vol} {a : Nat}, V.vol.Released v' a → v'.data k = V.vol.data k :=
    fun hrel => hrel.frame k (Or.inl (Nat.lt_of_lt_of_le hlt hrel.slot.ge))
  cases h with
  | same => rfl
  | created hadd | madeDir hadd => exact hadded hadd rfl
  | removed _ _ hrel => exact hreleased hrel
  | unlinked _ htype =>
    exact htype.frame k (Nat.ne_of_lt (Nat.lt_of_lt_of_le hlt htype.slot.ge))
  | deleted hdel => exact hdel.sameData k hlt
  | renamed _ _ _ _ hren =>
    exact (hadded hren.added hren.released.area.entryStart).trans (hreleased hren.released)
  | @written _ _ _ _ _ _ data hlive hres hstored =>
    have hkeep := hres.reserved hw hlive.isFile hk
    rw [hstored]
    refine (hres.blocks.stored_reserved hres.isFile ?_ data ?_).trans hkeep
    · rw [hres.size]
      exact Nat.le_max_right _ _
    · rw [hres.keeps.area.blockSize]
      exact hk
  | truncated hlive hres => exact hres.reserved hw hlive.isFile hk

/-! ## The free space through a call -/

/-- What a function of the unit gives, and does to the volume, when it returns. -/
theorem Session.Stands.exec {α : Type} {s : Session} {V : View} {lo hi : Nat} {p : SfsM α}
    {Q : α → Vol → Prop} (h : s.Stands V lo hi) (hp : Ignores V.vol hi p)
    (hgives : ∀ t : Img, t.vol = V.vol → Gives p t fun r t' => Q r t'.vol) {r : α} {sys : Sys}
    (hrun : s.sys.exec p = some (r, sys)) : Q r sys.vol := by
  obtain ⟨r', sys', t', hrun', hQ, hrests, -⟩ :=
    h.rests.exec (Q := fun r t' => Q r t'.vol) h.sound.geometry.sized hp hgives
  rw [hrun] at hrun'
  cases hrun'
  rw [hrests.elim (fun h => h.vol) fun h => h.vol]
  exact hQ

namespace UnitCall.Goes

variable {s s' : Session} {V V' : View} {lo hi : Nat} {op : Op} {c : UnitCall} {r : Reply}

/-- The operations that use the list leave a coalesced one. -/
theorem coalesced_list (hgoes : Goes (.edit op) s V lo hi r s' V') (h : s.Stands V lo hi)
    (hc : Coalesced V.vol V.nodes lo hi) (hacc : op.Accepts V.vol V.pending)
    (hsafe : op.Safe V.vol) (hlist : op.UsesList) :
    ∃ nodes', Coalesced V'.vol nodes' lo hi := by
  have hb := h.sound.toBlocks
  have hg := hb.geometry
  have hrun := hgoes.run
  rw [← hgoes.stands.vol]
  cases op with
  | creat | mkdir | rmdir | unlink | rename => exact hlist.elim
  | delete a =>
    have hfile := (h.sound.unlinked a hacc).isFile
    obtain ⟨x, hx, heq⟩ := Option.map_eq_some_iff.1 hrun
    cases heq
    exact h.exec (Q := fun _ v => ∃ nodes', Coalesced v nodes' lo hi)
      (reloads_sfsDelete hg hfile.1).ignores (fun t ht => by
        rw [← ht] at hb hc hfile
        exact gives_sfsDelete_coalesced hb hc hfile) hx
  | write file data size off =>
    have hfile : V.vol.IsFile V.nodes file := hacc.1.isFile
    have hgrow := hsafe V.nodes hb.space.toFreeList
    obtain ⟨x, hx, heq⟩ := Option.map_eq_some_iff.1 hrun
    cases heq
    exact h.exec (Q := fun _ v => ∃ nodes', Coalesced v nodes' lo hi)
      (reloads_sfsWrite hg hacc.1.1 data size off).ignores (fun t ht => by
        rw [← ht] at hb hc hfile hgrow
        exact gives_sfsWrite_coalesced hb hc hfile hacc.2 hgrow data) hx
  | truncate file size =>
    have hfile : V.vol.IsFile V.nodes file := Vol.LiveFile.isFile hacc
    have hgrow := hsafe V.nodes hb.space.toFreeList
    obtain ⟨x, hx, heq⟩ := Option.map_eq_some_iff.1 hrun
    cases heq
    exact h.exec (Q := fun _ v => ∃ nodes', Coalesced v nodes' lo hi)
      (reloads_sfsTruncate hg hfile.1 size).ignores (fun t ht => by
        rw [← ht] at hb hc hfile hgrow
        exact gives_sfsTruncate_coalesced hb hc hfile hgrow) hx

/-- A call keeps the free space coalesced. -/
theorem coalesced (hgoes : c.Goes s V lo hi r s' V') (h : s.Stands V lo hi)
    (hc : Coalesced V.vol V.nodes lo hi) (hadm : c.Admitted V.vol V.pending) :
    Coalesced V'.vol V'.nodes lo hi := by
  cases hgoes.effect with
  | timed _ time => exact hc.withTime time
  | change hch => exact hch.coalesced h.sound hc (hgoes.coalesced_list h hc hadm.1 hadm.2)

end UnitCall.Goes

/-! ## What stays over runs -/

/-- The volume has the MBR it was formatted with, and a data area in which every
block is free or of a file. -/
structure View.Formatted (V : View) (opts : SfsOptions) : Prop where
  consistent : Consistent opts V.vol.blockSize V.vol.size
  described : Described V.vol
  mbr : ∀ k, k < 512 → V.vol.data k = mbrImage opts k
  covered : V.Covered opts.reservedSize (opts.reservedSize + opts.dataSize)

/-- Besides, the names are in order, the root is among them, and no two free extents
touch. -/
structure View.Durable (V : View) (opts : SfsOptions) : Prop extends V.Formatted opts where
  names : V.tree.WellNamed Above
  root : Named V.vol dirKind (V.vol.fs.entryStart + 128) []
  coalesced : Coalesced V.vol V.nodes opts.reservedSize (opts.reservedSize + opts.dataSize)

/-- The call is in order, and no removal of the root directory. -/
structure UnitCall.Lasting (v : Vol) (pending : List Nat) (c : UnitCall) : Prop where
  admitted : c.Admitted v pending
  notRoot : c.asks ≠ .rmdir []

/-- A change that is in no slot loses no block. -/
theorem View.Covered.of_keeps_none {V : View} {v' : Vol} {lo hi a : Nat} (h : V.Covered lo hi)
    (hk : V.vol.Keeps v' V.nodes V.nodes a) (hnot : ¬ V.vol.Slot a)
    (hfree : ∀ b, V.vol.Free V.nodes b → v'.Free V.nodes b) :
    View.Covered ⟨v', V.nodes, V.pending⟩ lo hi :=
  h.of_keeps hk (fun b hb => Or.inl (hfree b hb)) (fun _ hfile => absurd hfile.1 hnot)
    fun hp => hnot (hk.area.slot.1 hp.isFile.1)

/-- No change at the MBR, nor of the blocks that are owned. -/
theorem View.Formatted.of_same {V V' : View} {opts : SfsOptions} (h : V.Formatted opts)
    (harea : SameArea V.vol V'.vol)
    (hdata : ∀ k, k < opts.reservedSize * V.vol.blockSize → V'.vol.data k = V.vol.data k)
    (hcov : V'.Covered opts.reservedSize (opts.reservedSize + opts.dataSize)) :
    V'.Formatted opts := by
  have hmbr : ∀ k, k < 512 → V'.vol.data k = V.vol.data k := fun k hk =>
    hdata k (Nat.lt_of_lt_of_le hk h.consistent.mbr)
  refine ⟨?_, h.described.congr harea fun k _ hk => hmbr k (by omega),
    fun k hk => (hmbr k hk).trans (h.mbr k hk), hcov⟩
  rw [harea.blockSize, harea.size]
  exact h.consistent

/-- The operations keep the format. -/
theorem Change.formatted {V V' : View} {opts : SfsOptions} {op : Op}
    (h : Change opts.reservedSize (opts.reservedSize + opts.dataSize) V op V')
    (hV : V.Sound opts.reservedSize (opts.reservedSize + opts.dataSize)) (hf : V.Formatted opts) :
    V'.Formatted opts :=
  hf.of_same h.sameArea (fun _ hk => h.reserved hV hk) (h.covered hV hf.covered)

theorem View.Formatted.withTime {V : View} {lo hi : Nat} {opts : SfsOptions} (h : V.Formatted opts)
    (hV : V.Sound lo hi) (time : Nat) : (V.withTime time).Formatted opts := by
  have hsame := SameIndex.withTime V.vol time
  have hnot : ¬ V.vol.Slot 0 := fun hs =>
    absurd (hV.geometry.slot_pos hs) (Nat.lt_irrefl 0)
  exact h.of_same hsame.area (fun _ _ => rfl) (h.covered.of_keeps_none (hsame.keeps 0) hnot
    fun _ hb => (hsame.free_iff hV.space.toFreeList).2 hb)

/-- A call keeps all that. -/
theorem UnitCall.Goes.durable {s s' : Session} {V V' : View} {opts : SfsOptions} {c : UnitCall}
    {r : Reply}
    (hgoes : c.Goes s V opts.reservedSize (opts.reservedSize + opts.dataSize) r s' V')
    (h : s.Stands V opts.reservedSize (opts.reservedSize + opts.dataSize)) (hV : V.Durable opts)
    (hc : c.Lasting V.vol V.pending) : V'.Durable opts := by
  have hformatted : SameArea V.vol V'.vol ∧ V'.Formatted opts := by
    cases hgoes.effect with
    | change hch => exact ⟨hch.sameArea, hch.formatted h.sound hV.toFormatted⟩
    | timed _ time => exact ⟨⟨rfl, rfl, rfl, rfl⟩, hV.toFormatted.withTime h.sound time⟩
  refine ⟨hformatted.2, hgoes.step.wellNamed hV.names, ?_,
    hgoes.coalesced h hV.coalesced hc.admitted⟩
  have hroot : V'.tree.named .dir [] (V.vol.fs.entryStart + 128) :=
    hgoes.step.keeps_dir hV.names hV.root hc.notRoot
  rw [hformatted.1.entryStart]
  exact hroot

/-! ## The first mount -/

/-- With no unlinked file, the slots that look like nodes of the list are nodes. -/
theorem View.Sound.listAt {V : View} {lo hi : Nat} (hV : V.Sound lo hi) (hcov : V.Covered lo hi)
    (hpend : V.pending = []) : ListAt V.vol V.vol.fs.delBegin V.nodes := by
  have hlist := hV.space.toFreeList
  refine ⟨hlist.chain, hlist.slot, hlist.type, fun off hoff htype hnot => ?_⟩
  have hmem := hcov.awaited off ⟨hoff, htype, hnot⟩
  rw [hpend] at hmem
  exact absurd hmem List.not_mem_nil

/-- What `sfs_init` needs, of a sound volume with its root and no unlinked file. -/
theorem View.Sound.remountable {V : View} {lo hi : Nat} (hV : V.Sound lo hi)
    (hcov : V.Covered lo hi) (hdesc : Described V.vol)
    (hroot : Named V.vol dirKind (V.vol.fs.entryStart + 128) []) (hpend : V.pending = []) :
    Remountable V.vol V.nodes :=
  ⟨hV.geometry.area, hdesc, hV.listAt hcov hpend, hroot.slot, hroot.type, hroot.str.nul⟩

/-- `sfs_init` on a volume that can be mounted, whatever was in the unit. -/
theorem Remountable.mounts {v : Vol} {nodes : List Nat} (h : Remountable v nodes) {t : Img}
    {fs : SfsUnit} (ht : t.vol = { v with fs := fs }) (hsee : t.indexOnly = false) :
    Gives sfsInit t fun r t' => r = 0 ∧
      t'.vol = { v with
        data := blit v.data (volTimeStamp + v.fs.volIdent) (fun _ => 0) 0 8
        fs := { v.fs with time := getLE v.data (volTimeStamp + v.fs.volIdent) 8 } } := by
  have hslots : v.fs.entryStart + 192 ≤ v.fs.volIdent := by
    have hlt := h.root.lt
    have hal := h.area.aligned
    have hal' := h.area.start_aligned
    omega
  exact gives_sfsInit fs ht h.described h.area h.list h.rootType h.rootName hslots hsee

theorem blit_self (data : Mem) (off n : Nat) :
    blit data off (fun i => data (off + i)) 0 n = data := by
  funext k
  by_cases hk : off ≤ k ∧ k < off + n
  · rw [blit_inside hk.1 hk.2, Nat.zero_add, Nat.add_sub_cancel' hk.1]
  · exact blit_outside (by omega)

/-- The MBR of a volume that is mounted for the first time. -/
theorem gives_mountImage_mbr {t : Img} {opts : SfsOptions} {bs : Nat} (hs : t.vol.Sized)
    (hbs : t.vol.blockSize = bs) (hc : Consistent opts bs t.vol.size)
    (him : Image t.vol.data opts (t.vol.size - opts.indexSize) (t.vol.size - 64))
    (hsee : t.indexOnly = false) :
    Gives sfsInit t fun _ t' =>
      Described t'.vol ∧ ∀ k, k < 512 → t'.vol.data k = mbrImage opts k := by
  have hfresh := fresh_of_image hs hbs hc him 0
    (fun i => t.vol.data (volTimeStamp + (t.vol.size - 64) + i))
  rw [blit_self] at hfresh
  have hdesc := described_of_image hs hbs hc him 0
  have hm := hfresh.sound.remountable hfresh.covered hdesc hfresh.root_named rfl
  have hself : t.vol = { t.vol with fs := t.vol.fs } := rfl
  refine (hm.mounts hself hsee).mono fun r t' ⟨_, hvol⟩ => ?_
  have hbehind : 512 ≤ volTimeStamp + (t.vol.size - 64) := by
    have hge := hfresh.geometry.lt_entryStart (k := 511) (by
      show 511 < opts.reservedSize * t.vol.blockSize
      rw [hbs]
      exact hc.mbr)
    have hlt := hfresh.geometry.nonempty
    simp only [imageUnit] at hge hlt
    omega
  have hdata : ∀ k, k < 512 → t'.vol.data k = t.vol.data k := by
    intro k hk
    rw [hvol]
    show blit t.vol.data (volTimeStamp + (t.vol.size - 64)) (fun _ => 0) 0 8 k = t.vol.data k
    exact blit_outside (Or.inl (Nat.lt_of_lt_of_le hk hbehind))
  refine ⟨hdesc.congr ?_ fun k _ hk => hdata k (by omega), fun k hk => ?_⟩
  · rw [hvol]
    exact ⟨rfl, rfl, rfl, rfl⟩
  · exact (hdata k hk).trans (him.mbr k hk)

/-- The MBR after the first mount. -/
theorem FreshlyMounted.mbr {opts : SfsOptions} {bs : Nat} {s : Sys}
    (h : FreshlyMounted opts bs s) :
    Described s.vol ∧ ∀ k, k < 512 → s.vol.data k = mbrImage opts k := by
  obtain ⟨hfile, hbs, hmax, hopts, hq, hco, hb, hsz, hcreate, hq', hco', hb', hsz', hdata, hinit⟩ :=
    h
  rename_i s₀ s₁ s₂
  have hc := mksfsOptions_consistent hfile hbs hmax hopts
  have hsized : ∀ s : Sys, s.dev.blockSize = bs → s.dev.size = _ → s.vol.Sized :=
    fun s => sized_of_mksfs hbs hc hfile
  obtain ⟨r₁, s₁', t₁, hrun₁, hshow₁, -, -, hsz₁, him⟩ :=
    transfer (Sys.shows_img hq hco (hsized s₀ hb hsz))
      (gives_imageCreate (hsized s₀ hb hsz) hb (hsz ▸ hc))
  rw [hcreate] at hrun₁
  cases hrun₁
  have him' : Image s₂.vol.data opts (s₂.vol.size - opts.indexSize) (s₂.vol.size - 64) := by
    show Image s₂.dev.data opts (s₂.dev.size - opts.indexSize) (s₂.dev.size - 64)
    have hsize : s₀.img.vol.size = _ := hsz
    rw [hdata, hshow₁.data, hsz', ← hsize]
    exact him
  obtain ⟨r₃, s₃, t₃, hrun₃, hshow₃, hmbr⟩ :=
    transfer (Sys.shows_img hq' hco' (hsized s₂ hb' hsz'))
      (gives_mountImage_mbr (t := s₂.img) (hsized s₂ hb' hsz') hb' (by
        show Consistent opts bs s₂.dev.size
        rw [hsz']
        exact hc) him' rfl)
  rw [hinit] at hrun₃
  cases hrun₃
  exact hshow₃.vol ▸ hmbr

/-- The unit after its first mount. -/
theorem FreshlyMounted.formatted {opts : SfsOptions} {bs : Nat} {s : Sys}
    (h : FreshlyMounted opts bs s) : View.Formatted ⟨s.vol, [s.fs.entryStart + 64], []⟩ opts := by
  obtain ⟨-, -, hfresh⟩ := h.fresh
  refine ⟨?_, h.mbr.1, h.mbr.2, hfresh.covered⟩
  rw [hfresh.blockSize]
  exact hfresh.consistent

theorem FreshlyMounted.durable {opts : SfsOptions} {bs : Nat} {s : Sys}
    (h : FreshlyMounted opts bs s) (hdata : 0 < opts.dataSize) :
    View.Durable ⟨s.vol, [s.fs.entryStart + 64], []⟩ opts := by
  obtain ⟨-, -, hfresh⟩ := h.fresh
  exact ⟨h.formatted, h.wellNamed, hfresh.root_named, hfresh.coalesced hdata⟩

/-- Calls from the first mount on answer as the file tree does, and keep what
`View.Durable` says. -/
theorem FreshlyMounted.durable_run {opts : SfsOptions} {bs : Nat} {s : Sys}
    (h : FreshlyMounted opts bs s) (hdata : 0 < opts.dataSize) {calls : List UnitCall}
    (hcalls : MeetsCalls UnitCall.Lasting ⟨s, []⟩ calls) :
    ∃ rs s' V', answers UnitCall.perform ⟨s, []⟩ calls = some (rs, s') ∧
      s'.Stands V' opts.reservedSize (opts.reservedSize + opts.dataSize) ∧ V'.Durable opts := by
  obtain ⟨rs, s', V', hrun, -, -, hstands, hdurable⟩ := h.stands.refines_keeping
    (I := fun V => V.Durable opts) (fun _ _ _ hc => hc.admitted)
    (fun _ _ _ _ _ _ hstands hV hc hgoes => hgoes.durable hstands hV hc) (h.durable hdata) hcalls
  exact ⟨rs, s', V', hrun, hstands, hdurable⟩

/-- Light calls on the small disk, none of which removes the root. -/
theorem blankCalls_lasting (calls : List UnitCall)
    (h : (blankMounted.map fun s => decide (MeetsCalls UnitCall.Light ⟨s, []⟩ calls)) = some true)
    (hroot : ∀ c ∈ calls, c.asks ≠ .rmdir []) :
    ∃ s, FreshlyMounted blankOpts 512 s ∧ MeetsCalls UnitCall.Lasting ⟨s, []⟩ calls := by
  obtain ⟨s, hfresh, hcalls⟩ := blankCalls_meets calls h
  exact ⟨s, hfresh, (hcalls.and_forall hroot).mono fun _ _ hc => ⟨hc.1, hc.2⟩⟩

end Sfs
