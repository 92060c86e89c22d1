import Sfs.ListWalk

/-!
# What the list functions do to the free blocks

* `gives_delFileListAdd`: the blocks of an extent become free, or the volume
  stays as it is because there is no node next to them and no slot for a new
  one;
* `gives_delFileListAlloc`: a run of free blocks is taken, or no free extent is
  large enough;
* `gives_tryExpand`: the blocks behind a file are taken, or nothing changes;
* `gives_scanDelFileList`: the number of bytes of the free extents.
-/

namespace Sfs

open Lib

section ListOps

variable {t : Img} {nodes : List Nat} {lo hi start stop prev next : Nat} {entr : Entry}

/-! ## Adding an extent -/

/-- There is a slot for a new node, or a node next to the blocks. -/
def Vol.CanRecord (v : Vol) (nodes : List Nat) (start stop : Nat) : Prop :=
  (∃ off, v.Slot off ∧ v.type off = EntryType.unusedEntry.code) ∨
    ∃ off, off ∈ nodes ∧ (v.Before off start ∨ v.After off stop)

/-- Characters behind the fields of an entry. -/
theorem fieldAt_memcpy {p n : Nat} (hp : 34 ≤ p) (src : Buf) (f : Field) :
    fieldAt (memcpy entr p src n) 0 f = fieldAt entr 0 f := by
  refine fieldAt_congr fun k hk => ?_
  rw [memcpy, blit_outside (by omega)]

/-- The entry that `del_file_list_add` writes for a new node. -/
theorem isNode_new (entr : Entry) (hnext : next < 18446744073709551616)
    (hstart : start < 18446744073709551616) (hstop : stop < 18446744073709551616) :
    IsNode (strcpy ((((((entr.set .entryType EntryType.delFileEntry.code).set .contEntries 0).set
      .prevDel 0).set .nextDel next).set .startBlock start).set .endBlock stop)
      fileKind.name freeName) next start stop := by
  have hget : ∀ (e : Entry) (f : Field),
      Entry.get (strcpy e fileKind.name freeName) f = e.get f :=
    fun e f => fieldAt_memcpy (p := fileKind.name) (by decide) _ f
  refine ⟨?_, ?_, ?_, ?_, ?_, ?_⟩
  all_goals
    rw [hget]
    simp (disch := decide) only [fieldAt_setFieldAt_field, fieldAt_setFieldAt_same]
  · rfl
  · rfl
  · rfl
  · exact Nat.mod_eq_of_lt hnext
  · exact Nat.mod_eq_of_lt hstart
  · exact Nat.mod_eq_of_lt hstop

/-- What `del_file_list_add` makes of the volume and of the nodes: a node next
to the blocks takes them, or the two nodes next to them become one, or the first
unused slot becomes a node. -/
inductive Vol.ListAdded (v : Vol) (nodes : List Nat) (start stop : Nat) : Vol → List Nat → Prop
  | joinNext {next : Nat} (hnext : next ∈ nodes) (after : v.After next stop)
    (noneBefore : ∀ off, off ∈ nodes → ¬ v.Before off start) :
    v.ListAdded nodes start stop (v.set next .startBlock start) nodes
  | joinPrev {prev : Nat} (hprev : prev ∈ nodes) (before : v.Before prev start)
    (noneAfter : ∀ off, off ∈ nodes → ¬ v.After off stop) :
    v.ListAdded nodes start stop (v.set prev .endBlock stop) nodes
  | joinBoth {prev next : Nat} (hprev : prev ∈ nodes) (before : v.Before prev start)
    (hnext : next ∈ nodes) (after : v.After next stop) :
    v.ListAdded nodes start stop ((v.unlink prev).set next .startBlock (v.get prev .startBlock))
      (nodes.erase prev)
  | push {new : Nat} {entr : Entry} (noneBefore : ∀ off, off ∈ nodes → ¬ v.Before off start)
    (noneAfter : ∀ off, off ∈ nodes → ¬ v.After off stop) (slot : v.Slot new)
    (unused : v.type new = EntryType.unusedEntry.code)
    (first : ∀ off, v.Slot off → v.type off = EntryType.unusedEntry.code → new ≤ off)
    (node : IsNode entr v.fs.delBegin start stop)
    (name : ∀ i, i < freeName.length → entr (fileKind.name + i) = freeName.char i) :
    v.ListAdded nodes start stop (v.push new entr) (new :: nodes)

/-- It adds the blocks to the free ones. -/
theorem Vol.ListAdded.step {v v' : Vol} {nodes nodes' : List Nat}
    (h : v.ListAdded nodes start stop v' nodes') (hg : Geometry v lo hi)
    (hf : FreeSpace v nodes lo hi)
    (hlo : lo ≤ start) (hle : start ≤ stop) (hhi : stop < hi)
    (hfresh : ∀ b, start ≤ b → b ≤ stop → ¬ v.Free nodes b) :
    FreeStep v v' nodes nodes' lo hi fun b => v.Free nodes b ∨ (start ≤ b ∧ b ≤ stop) := by
  have hbound := hg.block_lt
  cases h with
  | joinNext hnext after _ => exact hf.joinNext hnext after hlo hle hhi hfresh
  | joinPrev hprev before _ => exact hf.joinPrev hprev before hle hhi (by omega) hfresh
  | joinBoth hprev before hnext after => exact hf.joinBoth hprev hnext before after hle hhi hfresh
  | push _ _ slot unused _ node _ => exact hf.push hg slot unused node hlo hle hhi hfresh

/-- Whatever the blocks are, the list stays a list. -/
theorem Vol.ListAdded.listStep {v v' : Vol} {nodes nodes' : List Nat}
    (h : v.ListAdded nodes start stop v' nodes') (hg : Geometry v lo hi) (hf : FreeList v nodes)
    (hside : ∀ o, o ∈ nodes → v.Before o start → ¬ v.After o stop) :
    ListStep v v' nodes nodes' := by
  cases h with
  | joinNext hnext _ _ => exact hf.set_step hnext _ (Or.inl rfl)
  | joinPrev hprev _ _ => exact hf.set_step hprev _ (Or.inr rfl)
  | @joinBoth prev next hprev before hnext after =>
    have hun := hf.unlink_step hprev
    have hne : next ≠ prev := fun heq => hside prev hprev before (heq ▸ after)
    exact hun.trans (hun.list.set_step (hf.nodup.mem_erase_iff.2 ⟨hne, hnext⟩) _ (Or.inl rfl))
  | push _ _ slot unused _ node _ => exact FreeSpace.push_step hf hg slot unused node

/-- There was a slot for a node, or a node next to the blocks. -/
theorem Vol.ListAdded.canRecord {v v' : Vol} {nodes nodes' : List Nat}
    (h : v.ListAdded nodes start stop v' nodes') : v.CanRecord nodes start stop := by
  cases h with
  | joinNext hnext after _ => exact Or.inr ⟨_, hnext, Or.inr after⟩
  | joinPrev hprev before _ => exact Or.inr ⟨_, hprev, Or.inl before⟩
  | joinBoth hprev before _ _ => exact Or.inr ⟨_, hprev, Or.inl before⟩
  | push _ _ slot unused _ _ _ => exact Or.inl ⟨_, slot, unused⟩

theorem gives_delFileListPush (hg : Geometry t.vol lo hi) (hf : FreeSpace t.vol nodes lo hi)
    (hstart : start < 18446744073709551616) (hstop : stop < 18446744073709551616)
    (noneBefore : ∀ off, off ∈ nodes → ¬ t.vol.Before off start)
    (noneAfter : ∀ off, off ∈ nodes → ¬ t.vol.After off stop) :
    Gives (delFileListPush entr start stop) t fun r t' =>
      (r.1 = 0 ∧ t'.clean = true ∧ ∃ nodes', t.vol.ListAdded nodes start stop t'.vol nodes') ∨
      (r.1 = -1 ∧ t'.vol = t.vol ∧ ¬ t.vol.CanRecord nodes start stop) := by
  unfold delFileListPush
  rw [gives_bind]
  refine (gives_allocEntry hg.area hg.start_pos Nat.one_pos (by decide) entr).mono
    fun ⟨new, entr₁⟩ t₁ ⟨hvol, h₁⟩ => ?_
  dsimp only at h₁ ⊢
  have hone : ∀ off, t.vol.UnusedRun off 1 ↔
      t.vol.Slot off ∧ t.vol.type off = EntryType.unusedEntry.code := by
    intro off
    constructor
    · exact fun h => h 0 Nat.one_pos
    · intro h j hj
      obtain rfl : j = 0 := Nat.lt_one_iff.1 hj
      exact h
  rcases h₁ with ⟨hz, hnone⟩ | ⟨hz, hrun, hfirst⟩
  · rw [if_pos hz, gives_setErrno, gives_pure]
    refine Or.inr ⟨rfl, hvol, fun hrec => ?_⟩
    rcases hrec with ⟨off, hoff, hu⟩ | ⟨off, hoff, hb | ha⟩
    · exact hnone off ((hone off).2 ⟨hoff, hu⟩)
    · exact noneBefore off hoff hb
    · exact noneAfter off hoff ha
  · obtain ⟨hslot, hunused⟩ := (hone new).1 hrun
    have hs₁ : t₁.vol.Sized := by rw [hvol]; exact hg.sized
    have hin₁ : new + 64 ≤ t₁.vol.size := by rw [hvol]; exact hg.slot_le hslot
    have hbegin : t₁.vol.fs.delBegin ≠ 0 → t₁.vol.fs.entryStart ≤ t₁.vol.fs.delBegin ∧
        t₁.vol.fs.delBegin % 64 = 0 ∧ t₁.vol.fs.delBegin + 64 ≤ t₁.vol.size := by
      rw [hvol]
      intro h0
      have hslot := hf.slot _ (hf.chain.first_mem h0)
      exact ⟨hslot.ge, hslot.aligned, hg.slot_le hslot⟩
    rw [if_neg hz, gives_unit, gives_writeEntry hs₁ hslot.aligned hin₁, gives_bind]
    refine (gives_relinkNext (by exact hs₁.congr rfl rfl) (by exact hbegin) _).mono fun entr₂ t₂
      ⟨hvol₂, hc₂⟩ => ?_
    rw [gives_setDelBegin, gives_pure]
    refine Or.inl ⟨rfl, hc₂ rfl, new :: nodes, ?_⟩
    dsimp only at hvol₂ ⊢
    rw [hvol₂, hvol]
    have hlt : t.vol.fs.delBegin < 18446744073709551616 := by
      by_cases h0 : t.vol.fs.delBegin = 0
      · omega
      · have h₁ := hg.slot_le (hf.slot _ (hf.chain.first_mem h0))
        have h₂ := hg.sized.small
        omega
    refine .push noneBefore noneAfter hslot hunused (fun off hoff hu => ?_)
      (isNode_new _ hlt hstart hstop) fun i hi => (blit_add hi).trans (by rw [Nat.zero_add])
    exact Nat.le_of_not_lt fun hoff' => hfirst off hoff' ((hone off).2 ⟨hoff, hu⟩)

/-- The end of `del_file_list_add` when one neighbour or both were found. -/
theorem gives_delFileListMerge (hg : Geometry t.vol lo hi) (hf : FreeSpace t.vol nodes lo hi)
    (hstart : start < 18446744073709551616) (hstop : stop < 18446744073709551616)
    (hscan : AddScan t.vol nodes start stop prev next []) :
    Gives (delFileListMerge entr start stop prev next) t fun r t' =>
      (r.1 = 0 ∧ t'.clean = true ∧ ∃ nodes', t.vol.ListAdded nodes start stop t'.vol nodes') ∨
      (r.1 = -1 ∧ t'.vol = t.vol ∧ ¬ t.vol.CanRecord nodes start stop) := by
  have hs := hg.sized
  unfold delFileListMerge
  by_cases hnext : next = 0
  · rw [if_neg (not_not.2 hnext)]
    have noneAfter : ∀ off, off ∈ nodes → ¬ t.vol.After off stop := fun off hoff =>
      hscan.noneAfter hnext off hoff List.not_mem_nil
    by_cases hprev : prev = 0
    · rw [if_neg (not_not.2 hprev)]
      exact gives_delFileListPush hg hf hstart hstop
        (fun off hoff => hscan.noneBefore hprev off hoff List.not_mem_nil) noneAfter
    · obtain ⟨hmem, hadj⟩ := hscan.before hprev
      have hslot := hf.slot prev hmem
      rw [if_pos hprev, gives_bind]
      refine (gives_patchEntry hs hslot.ge hslot.aligned (hg.slot_le hslot) .endBlock stop
        entr).mono
        fun entr₁ t₁ h₁ => ?_
      rw [gives_pure, h₁]
      exact Or.inl ⟨rfl, rfl, nodes, .joinPrev hmem hadj noneAfter⟩
  · obtain ⟨hmem, hadj⟩ := hscan.after hnext
    have hslot := hf.slot next hmem
    rw [if_pos hnext, gives_readEntry hs hslot.ge hslot.aligned (hg.slot_le hslot)]
    dsimp only
    by_cases hprev : prev = 0
    · rw [if_neg (not_not.2 hprev),
        gives_writeEntry (by exact hs) hslot.aligned (by exact hg.slot_le hslot), gives_pure]
      dsimp only
      rw [Vol.store_set, Vol.store_load]
      exact Or.inl ⟨rfl, rfl, nodes, .joinNext hmem hadj fun off hoff =>
        hscan.noneBefore hprev off hoff List.not_mem_nil⟩
    · obtain ⟨hmem', hadj'⟩ := hscan.before hprev
      have hslot' := hf.slot prev hmem'
      rw [if_pos hprev, gives_readEntry (by exact hs) (by exact hslot'.ge) hslot'.aligned
        (by exact hg.slot_le hslot')]
      dsimp only
      rw [Vol.get_load, gives_bind]
      refine (gives_delFileListRemove (t := { t with clean := false }) hs hslot'.ge hslot'.aligned
        (hg.slot_le hslot') (hf.prev_inside hg hmem') (hf.next_inside hg hmem') _).mono
        fun entr₁ t₁ ⟨hvol₁, _⟩ => ?_
      have harea := t.vol.unlink_area prev
      have hs₁ : t₁.vol.Sized := by
        rw [hvol₁]
        exact hs.congr harea.blockSize harea.size
      have hin₁ : next + 64 ≤ t₁.vol.size := by
        rw [hvol₁]
        exact Nat.le_trans (hg.slot_le hslot) (Nat.le_of_eq harea.size.symm)
      rw [gives_bind]
      have hge₁ : t₁.vol.fs.entryStart ≤ next := by
        rw [hvol₁, harea.entryStart]
        exact hslot.ge
      refine (gives_patchEntry hs₁ hge₁ hslot.aligned hin₁ .startBlock _ entr₁).mono
        fun entr₂ t₂ h₂ => ?_
      rw [gives_pure, h₂]
      dsimp only
      rw [hvol₁]
      exact Or.inl ⟨rfl, rfl, nodes.erase prev, .joinBoth hmem' hadj' hmem hadj⟩

/-- `del_file_list_add` joins an extent to its neighbours or makes a node for
it, or changes nothing when there is neither a neighbour nor a slot. -/
theorem gives_delFileListAdd_added (hg : Geometry t.vol lo hi) (hf : FreeSpace t.vol nodes lo hi)
    (hsome : ¬ (start = 0 ∧ stop = 0)) (hstart : start < 18446744073709551616)
    (hstop : stop < 18446744073709551616)
    (hside : ∀ o, o ∈ nodes → t.vol.Before o start → ¬ t.vol.After o stop) :
    Gives (delFileListAdd entr start stop) t fun r t' =>
      (r.1 = 0 ∧ t'.clean = true ∧ ∃ nodes', t.vol.ListAdded nodes start stop t'.vol nodes') ∨
      (r.1 = -1 ∧ t'.vol = t.vol ∧ ¬ t.vol.CanRecord nodes start stop) := by
  have hbegin : (t.vol.fs.delBegin = 0 ∨ t.vol.fs.entryStart ≤ t.vol.fs.delBegin) ∧
      t.vol.fs.delBegin % 64 = 0 ∧ t.vol.fs.delBegin + 64 ≤ t.vol.size := by
    by_cases h0 : t.vol.fs.delBegin = 0
    · have h₁ := hg.inside
      rw [h0]
      exact ⟨Or.inl rfl, rfl, by omega⟩
    · have hslot := hf.slot _ (hf.chain.first_mem h0)
      exact ⟨Or.inr hslot.ge, hslot.aligned, hg.slot_le hslot⟩
  obtain ⟨hsee, hal, hin⟩ := hbegin
  unfold delFileListAdd
  -- On an empty list the entry at offset 0 is read, which no one looks at.
  rw [gives_unit, if_neg hsome, gives_readEntry_or_zero hg.sized hsee hal hin]
  dsimp only
  rw [gives_bind]
  refine (gives_delFileListAddLoop (t := { t with clean := false }) hg hf hside _ hf.chain
    (fun _ h => h) (hf.length_lt hg) (fun _ => Vol.get_load _ _ _) (AddScan.init _ _ _ _)).mono
    fun ⟨walk, entr₁⟩ t₁ ⟨hvol, h₁⟩ => ?_
  obtain ⟨w, prev, next, hwalk, hw, hscan⟩ := h₁
  dsimp only at hwalk hvol ⊢
  subst hwalk
  dsimp only
  rw [if_neg hw]
  rw [← hvol] at hg hf hscan ⊢
  exact gives_delFileListMerge hg hf hstart hstop hscan

/-- `del_file_list_add` of blocks that are on no list. -/
theorem gives_delFileListAdd (hg : Geometry t.vol lo hi) (hf : FreeSpace t.vol nodes lo hi)
    (hlo : lo ≤ start) (hle : start ≤ stop) (hhi : stop < hi)
    (hfresh : ∀ b, start ≤ b → b ≤ stop → ¬ t.vol.Free nodes b) :
    Gives (delFileListAdd entr start stop) t fun r t' =>
      (r.1 = 0 ∧ t'.clean = true ∧ ∃ nodes', FreeStep t.vol t'.vol nodes nodes' lo hi fun b =>
        t.vol.Free nodes b ∨ (start ≤ b ∧ b ≤ stop)) ∨
      (r.1 = -1 ∧ t'.vol = t.vol ∧ ¬ t.vol.CanRecord nodes start stop) := by
  have hpos := hg.lo_pos
  have hbound := hg.block_lt
  refine (gives_delFileListAdd_added hg hf (by omega) (by omega) (by omega)
    fun _ => hf.not_after_of_before hle).mono fun r t' h => ?_
  refine h.imp_left fun ⟨hr, hclean, nodes', hadd⟩ => ⟨hr, hclean, nodes', ?_⟩
  exact hadd.step hg hf hlo hle hhi hfresh

end ListOps

/-! ## Taking blocks from a node -/

/-- The volume after the first `k` blocks of a node were taken. -/
def Vol.takeFront (v : Vol) (a k : Nat) : Vol :=
  if v.extent a = k then v.unlink a else v.set a .startBlock (v.get a .startBlock + k)

/-- The nodes of the list after that. -/
def Vol.nodesAfter (v : Vol) (nodes : List Nat) (a k : Nat) : List Nat :=
  if v.extent a = k then nodes.erase a else nodes

theorem FreeSpace.takeFront {v : Vol} {nodes : List Nat} {lo hi a k : Nat}
    (hf : FreeSpace v nodes lo hi) (ha : a ∈ nodes) (hk : 0 < k) (hle : k ≤ v.extent a) :
    FreeStep v (v.takeFront a k) nodes (v.nodesAfter nodes a k) lo hi fun b =>
      v.Free nodes b ∧ ¬ (v.get a .startBlock ≤ b ∧ b < v.get a .startBlock + k) := by
  have hge := hf.ge a ha
  have hnot : ∀ b, v.FreeBut nodes a b → ¬ v.Owns a b := fun b hb => hf.not_owns ha hb
  unfold Vol.takeFront Vol.nodesAfter
  unfold Vol.extent at hle ⊢
  unfold Vol.Owns at hnot
  by_cases hfit : v.get a .endBlock + 1 - v.get a .startBlock = k
  · rw [if_pos hfit, if_pos hfit]
    refine (hf.unlink ha).congr fun b => ?_
    rw [Vol.free_iff ha]
    unfold Vol.Owns
    constructor
    · intro hb
      have hb' := hnot b hb
      exact ⟨Or.inl hb, by omega⟩
    · intro ⟨hb, hout⟩
      exact hb.resolve_right (by omega)
  · rw [if_neg hfit, if_neg hfit]
    refine (hf.setStart ha (by omega) (by omega) ?_).congr fun b => ?_
    · intro b h₁ h₂ hb
      exact hnot b hb ⟨by omega, h₂⟩
    · rw [Vol.free_iff ha]
      unfold Vol.Owns
      constructor
      · intro h
        rcases h with hb | hb
        · have hb' := hnot b hb
          exact ⟨Or.inl hb, by omega⟩
        · exact ⟨Or.inr (by omega), by omega⟩
      · intro ⟨hb, hout⟩
        exact hb.imp_right fun h => by omega

/-- The number of blocks that hold `size` bytes. -/
def blocksOf (blockSize size : Nat) : Nat :=
  size / blockSize + if size % blockSize = 0 then 0 else 1

section BlocksOf

variable {bs size size' k : Nat}

/-- `k` blocks hold `size` bytes from `blocksOf` on. -/
theorem blocksOf_le_iff (hbs : 0 < bs) : blocksOf bs size ≤ k ↔ size ≤ bs * k := by
  have hdiv := Nat.div_add_mod size bs
  have hmod := Nat.mod_lt size hbs
  unfold blocksOf
  by_cases hz : size % bs = 0
  · rw [if_pos hz, Nat.add_zero, ← Nat.mul_le_mul_left_iff hbs]
    omega
  · rw [if_neg hz]
    constructor
    · intro h
      have hmul := Nat.mul_le_mul_left bs h
      rw [Nat.mul_succ] at hmul
      omega
    · intro h
      by_contra hlt
      have hmul := Nat.mul_le_mul_left bs (show k ≤ size / bs by omega)
      omega

theorem le_blocksOf (hbs : 0 < bs) (size : Nat) : size ≤ bs * blocksOf bs size :=
  (blocksOf_le_iff hbs).1 (Nat.le_refl _)

theorem blocksOf_mono (hbs : 0 < bs) (h : size ≤ size') : blocksOf bs size ≤ blocksOf bs size' :=
  (blocksOf_le_iff hbs).2 (Nat.le_trans h (le_blocksOf hbs size'))

theorem blocksOf_pos (hbs : 0 < bs) (h : 0 < size) : 0 < blocksOf bs size := by
  have hle := le_blocksOf hbs size
  by_contra hz
  rw [Nat.eq_zero_of_not_pos hz] at hle
  omega

theorem blocksOf_zero (bs : Nat) : blocksOf bs 0 = 0 := by
  rw [blocksOf, Nat.zero_div, Nat.zero_mod, if_pos rfl]

/-- The last block is not empty. -/
theorem blocksOf_lt (hbs : 0 < bs) (size : Nat) : bs * blocksOf bs size < size + bs := by
  have hdiv := Nat.div_add_mod size bs
  have hmod := Nat.mod_lt size hbs
  unfold blocksOf
  by_cases hz : size % bs = 0
  · rw [if_pos hz, Nat.add_zero]
    omega
  · rw [if_neg hz, Nat.mul_succ]
    omega

/-- `get_real_size` rounds up, where an `off_t` has room for it. -/
theorem realSize_eq_of_lt (h : bs * blocksOf bs size < 18446744073709551616) :
    realSize bs size = bs * blocksOf bs size := Nat.mod_eq_of_lt h

theorem realSize_eq (hbs : 0 < bs) (h : size + bs ≤ 18446744073709551616) :
    realSize bs size = bs * blocksOf bs size :=
  realSize_eq_of_lt (Nat.lt_of_lt_of_le (blocksOf_lt hbs size) h)

end BlocksOf

section Taking

variable {t : Img} {nodes : List Nat} {lo hi : Nat} {entr : Entry}

/-- The stores by which the first `k` blocks of a node are taken, `entr` being
the node. -/
theorem store_takeFront {v : Vol} {nodes : List Nat} (hf : FreeSpace v nodes lo hi)
    (hg : Geometry v lo hi) {a k : Nat} (ha : a ∈ nodes) (hle : k < v.extent a) :
    v.set a .startBlock (u64 (v.get a .startBlock + k)) = v.takeFront a k := by
  have hbound := hg.block_lt
  have hlt := hf.lt a ha
  unfold Vol.takeFront
  unfold Vol.extent at hle ⊢
  rw [if_neg (by omega), u64, Nat.mod_eq_of_lt (by omega)]

/-- `del_file_list_alloc` takes `k` blocks from the front of a node of the
greatest size, or finds every node too small. -/
theorem gives_delFileListAlloc (hg : Geometry t.vol lo hi) (hf : FreeSpace t.vol nodes lo hi)
    {size k : Nat} (hreal : realSize t.vol.blockSize size = t.vol.blockSize * k) (hk : 0 < k) :
    Gives (delFileListAlloc entr size) t fun r t' =>
      (r.1 = 0 ∧ t'.vol = t.vol ∧ t'.errno = eNOSPC ∧
        ∀ off, off ∈ nodes → t.vol.extent off < k) ∨
      (t'.clean = true ∧ ∃ a, a ∈ nodes ∧ r.1 = t.vol.get a .startBlock ∧ k ≤ t.vol.extent a ∧
        (∀ off, off ∈ nodes → t.vol.extent off ≤ t.vol.extent a) ∧
        t'.vol = t.vol.takeFront a k) := by
  have hs := hg.sized
  have hbs := hs.pos
  have hpos : 0 < t.vol.blockSize * k := Nat.mul_pos hbs hk
  unfold delFileListAlloc
  rw [gives_unit, gives_blockSize]
  dsimp only
  rw [hreal, gives_bind]
  refine (gives_delFileListAllocLoop hg hf _ hf.chain (fun _ h => h) (hf.length_lt hg)
    (AllocScan.init _ _ _)).mono fun ⟨walk, entr₁⟩ t₁ ⟨hvol, h₁⟩ => ?_
  obtain ⟨w, curMax, a, hwalk, hw, hscan⟩ := h₁
  dsimp only at hwalk ⊢
  subst hwalk
  dsimp only
  have hmax : ∀ off, off ∈ nodes → t.vol.blockSize * t.vol.extent off ≤ curMax := fun off hoff =>
    hscan.max off hoff List.not_mem_nil
  rw [if_neg hw]
  by_cases hsmall : curMax < t.vol.blockSize * k
  · rw [if_pos hsmall, gives_setErrno, gives_pure]
    refine Or.inl ⟨rfl, hvol, rfl, fun off hoff => ?_⟩
    exact Nat.lt_of_mul_lt_mul_left (Nat.lt_of_le_of_lt (hmax off hoff) hsmall)
  · obtain ⟨ha, hcur⟩ := hscan.found (by omega)
    have hslot := hf.slot a ha
    have hle : k ≤ t.vol.extent a := by
      rw [hcur, Nat.not_lt] at hsmall
      exact Nat.le_of_mul_le_mul_left hsmall hbs
    have hgreatest : ∀ off, off ∈ nodes → t.vol.extent off ≤ t.vol.extent a := by
      intro off hoff
      have h := hmax off hoff
      rw [hcur] at h
      exact Nat.le_of_mul_le_mul_left h hbs
    have hs₁ : t₁.vol.Sized := by rw [hvol]; exact hs
    have hge₁ : t₁.vol.fs.entryStart ≤ a := by rw [hvol]; exact hslot.ge
    have hin₁ : a + 64 ≤ t₁.vol.size := by rw [hvol]; exact hg.slot_le hslot
    rw [if_neg hsmall]
    by_cases hfit : t.vol.blockSize * k = curMax
    · rw [if_pos hfit, gives_readEntry hs₁ hge₁ hslot.aligned hin₁]
      dsimp only
      rw [Vol.get_load, gives_bind]
      refine (gives_delFileListRemove (t := { t₁ with clean := false }) hs₁ hge₁ hslot.aligned hin₁
        (by rw [hvol]; exact hf.prev_inside hg ha)
        (by rw [hvol]; exact hf.next_inside hg ha) _).mono
        fun entr₂ t₂ ⟨hvol₂, hclean⟩ => ?_
      rw [gives_pure]
      have hextent : t.vol.extent a = k := by
        rw [hcur] at hfit
        exact (Nat.eq_of_mul_eq_mul_left hbs hfit).symm
      refine Or.inr ⟨hclean, a, ha, by rw [hvol], hle, hgreatest, ?_⟩
      rw [hvol₂, Vol.takeFront, if_pos hextent]
      dsimp only
      rw [hvol]
    · rw [if_neg hfit, gives_readEntry hs₁ hge₁ hslot.aligned hin₁]
      dsimp only
      rw [Vol.get_load, gives_writeEntry (by exact hs₁) hslot.aligned (by exact hin₁), gives_pure]
      refine Or.inr ⟨rfl, a, ha, by rw [hvol], hle, hgreatest, ?_⟩
      have hlt : k < t.vol.extent a := by
        refine Nat.lt_of_le_of_ne hle fun heq => hfit ?_
        rw [hcur, heq]
      dsimp only
      rw [Vol.store_set, Vol.store_load, hvol, Nat.mul_div_cancel_left k hbs,
        store_takeFront hf hg ha hlt]

/-- `try_expand` takes the `d` blocks behind a file, or finds no node there
that is large enough. -/
theorem gives_tryExpand (hg : Geometry t.vol lo hi) (hf : FreeSpace t.vol nodes lo hi)
    {off newSize d : Nat} (hslot : t.vol.Slot off) (hend : t.vol.get off .endBlock < hi)
    (hdelta : sub64 (realSize t.vol.blockSize newSize)
      (realSize t.vol.blockSize (t.vol.get off .size)) = t.vol.blockSize * d) :
    Gives (tryExpand off newSize entr) t fun r t' =>
      (r.1 = 1 ∧ t'.vol = t.vol ∧ ∀ a, a ∈ nodes →
        ¬ t.vol.Fits a (t.vol.get off .endBlock + 1) (t.vol.blockSize * d)) ∨
      (r.1 = 0 ∧ t'.clean = true ∧ ∃ a, a ∈ nodes ∧
        t.vol.get a .startBlock = t.vol.get off .endBlock + 1 ∧ d ≤ t.vol.extent a ∧
        t'.vol = t.vol.takeFront a d) := by
  have hs := hg.sized
  have hbs := hs.pos
  have hbound := hg.block_lt
  have hnext : u64 (t.vol.get off .endBlock + 1) = t.vol.get off .endBlock + 1 := by
    unfold u64
    omega
  unfold tryExpand
  rw [gives_unit, gives_blockSize, gives_readEntry hs hslot.ge hslot.aligned (hg.slot_le hslot)]
  dsimp only
  rw [Vol.get_load, Vol.get_load, hdelta, gives_bind]
  refine (gives_tryExpandLoop (t := { t with clean := false }) hg hf _ _ _ hf.chain
    (fun _ h => h) (hf.length_lt hg)).mono fun ⟨walk, entr₁⟩ t₁ ⟨hvol, h₁⟩ => ?_
  obtain ⟨w, a, hwalk, hw, hres⟩ := h₁
  dsimp only at hwalk hvol hres ⊢
  subst hwalk
  dsimp only
  rw [if_neg hw]
  rw [hnext] at hres
  rcases hres with ⟨hz, hnone⟩ | ⟨ha, ⟨e, rfl⟩, hfirst, hroom⟩
  · rw [if_pos hz, gives_pure]
    exact Or.inl ⟨rfl, hvol, hnone⟩
  · have hslot' := hf.slot a ha
    have hs₁ : t₁.vol.Sized := by rw [hvol]; exact hs
    have hge₁ : t₁.vol.fs.entryStart ≤ a := by rw [hvol]; exact hslot'.ge
    have hin₁ : a + 64 ≤ t₁.vol.size := by rw [hvol]; exact hg.slot_le hslot'
    have hle : d ≤ t.vol.extent a := Nat.le_of_mul_le_mul_left hroom hbs
    rw [if_neg (hf.ne_zero ha), hf.extentSize_eq hg ha (Vol.get_load t.vol a e)]
    by_cases hfit : t.vol.blockSize * t.vol.extent a = t.vol.blockSize * d
    · rw [if_pos hfit, gives_bind]
      refine (gives_delFileListRemove hs₁ hge₁ hslot'.aligned hin₁
        (by rw [hvol]; exact hf.prev_inside hg ha)
        (by rw [hvol]; exact hf.next_inside hg ha) _).mono
        fun entr₂ t₂ ⟨hvol₂, hclean⟩ => ?_
      rw [gives_pure]
      refine Or.inr ⟨rfl, hclean, a, ha, hfirst, hle, ?_⟩
      rw [hvol₂, hvol, Vol.takeFront, if_pos (Nat.eq_of_mul_eq_mul_left hbs hfit)]
    · have hlt : t.vol.blockSize * d < t.vol.blockSize * t.vol.extent a :=
        Nat.lt_of_le_of_ne hroom (Ne.symm hfit)
      rw [if_neg hfit, if_pos hlt, gives_writeEntry hs₁ hslot'.aligned hin₁, gives_pure]
      refine Or.inr ⟨rfl, rfl, a, ha, hfirst, hle, ?_⟩
      dsimp only
      rw [Vol.get_load, Vol.store_set, hvol, Vol.store_load, Nat.mul_div_cancel_left d hbs,
        store_takeFront hf hg ha (Nat.lt_of_mul_lt_mul_left hlt)]

/-- `scan_del_file_list` gives the bytes of the free extents. -/
theorem gives_scanDelFileList (entr : Entry) (hg : Geometry t.vol lo hi)
    (hf : FreeSpace t.vol nodes lo hi) :
    Gives (scanDelFileList entr) t fun r t' =>
      t'.vol = t.vol ∧ r.1 = u64 (t.vol.blockSize * t.vol.freeBlocks nodes) := by
  unfold scanDelFileList
  rw [gives_unit, gives_blockSize, gives_bind]
  refine (gives_scanDelFileListLoop hg hf _ hf.chain (fun _ h => h) (hf.length_lt hg)
    (by decide)).mono fun ⟨walk, entr₁⟩ t₁ ⟨hvol, w, hw, hwalk⟩ => ?_
  dsimp only at hwalk ⊢
  subst hwalk
  dsimp only
  rw [if_neg hw, gives_setErrno, gives_pure]
  exact ⟨hvol, by rw [Nat.zero_add]⟩

end Taking

end Sfs
