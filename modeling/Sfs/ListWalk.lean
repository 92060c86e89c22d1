import Sfs.ListSpec

/-!
# The walks of the list functions

Every list function walks the list from `del_begin` on.  On a well-formed list
the watchdog is never used up, so a walk ends at the node it looks for or at the
end of the list.

* `gives_delFileListAddLoop` finds the nodes next to the freed blocks;
* `gives_delFileListAllocLoop` finds a node of the greatest size;
* `gives_tryExpandLoop` finds the node behind a file;
* `gives_scanDelFileListLoop` sums up the sizes.
-/

namespace Sfs

open Lib

/-- The entry holds the fields of the slot at an offset, if there is one. -/
def Loaded (v : Vol) (off : Nat) (entr : Entry) : Prop :=
  off ≠ 0 → ∀ f, entr.get f = v.get off f

/-- `del_next` goes to the next node and loads it. -/
theorem gives_delNext {t : Img} {off : Nat} {entr : Entry} (hs : t.vol.Sized) (hoff : off ≠ 0)
    (hload : Loaded t.vol off entr)
    (hnext : t.vol.next off ≠ 0 → t.vol.fs.entryStart ≤ t.vol.next off ∧
      t.vol.next off % 64 = 0 ∧ t.vol.next off + 64 ≤ t.vol.size) :
    Gives (delNext entr) t fun r t' =>
      t'.vol = t.vol ∧ r.1 = t.vol.next off ∧ Loaded t.vol r.1 r.2 := by
  have heq : entr.get .nextDel = t.vol.next off := hload hoff .nextDel
  unfold delNext
  dsimp only
  rw [heq]
  by_cases hz : t.vol.next off = 0
  · rw [if_pos hz, gives_pure]
    exact ⟨rfl, hz.symm, fun h => absurd rfl h⟩
  · obtain ⟨hge, hal, hin⟩ := hnext hz
    rw [if_neg hz, gives_readEntry hs hge hal hin]
    dsimp only
    rw [if_neg (by decide), gives_pure]
    exact ⟨rfl, rfl, fun _ f => Vol.get_load t.vol _ entr f⟩

section Walks

variable {t : Img} {nodes : List Nat} {lo hi : Nat}

/-- The link of a node leads nowhere or to a slot. -/
theorem FreeList.next_inside {v : Vol} {off : Nat} (hf : FreeList v nodes) (hg : Geometry v lo hi)
    (hoff : off ∈ nodes) (hz : v.next off ≠ 0) :
    v.fs.entryStart ≤ v.next off ∧ v.next off % 64 = 0 ∧ v.next off + 64 ≤ v.size := by
  have hslot := hf.slot _ (hf.next_mem hoff hz)
  exact ⟨hslot.ge, hslot.aligned, hg.slot_le hslot⟩

theorem FreeList.prev_inside {v : Vol} {off : Nat} (hf : FreeList v nodes) (hg : Geometry v lo hi)
    (hoff : off ∈ nodes) (hz : v.prev off ≠ 0) :
    v.fs.entryStart ≤ v.prev off ∧ v.prev off % 64 = 0 ∧ v.prev off + 64 ≤ v.size := by
  have hslot := hf.slot _ (hf.prev_mem hoff hz)
  exact ⟨hslot.ge, hslot.aligned, hg.slot_le hslot⟩

/-! ## Looking for neighbours -/

/-- The extent of the node ends right before block `start`. -/
def Vol.Before (v : Vol) (off start : Nat) : Prop := v.get off .endBlock + 1 = start

/-- The extent of the node starts right after block `stop`. -/
def Vol.After (v : Vol) (off stop : Nat) : Prop := v.get off .startBlock = stop + 1

/-- What the walk of `del_file_list_add` knows when the nodes of `l` are left:
`prev` and `next` are neighbours of the freed blocks, and where one of them is 0
no node seen so far is one. -/
structure AddScan (v : Vol) (nodes : List Nat) (start stop prev next : Nat) (l : List Nat) :
    Prop where
  before : prev ≠ 0 → prev ∈ nodes ∧ v.Before prev start
  after : next ≠ 0 → next ∈ nodes ∧ v.After next stop
  noneBefore : prev = 0 → ∀ off, off ∈ nodes → off ∉ l → ¬ v.Before off start
  noneAfter : next = 0 → ∀ off, off ∈ nodes → off ∉ l → ¬ v.After off stop

namespace AddScan

variable {v : Vol} {start stop prev next off : Nat} {l : List Nat}

theorem init (v : Vol) (nodes : List Nat) (start stop : Nat) :
    AddScan v nodes start stop 0 0 nodes :=
  ⟨fun h => absurd rfl h, fun h => absurd rfl h, fun _ _ h h' => absurd h h',
    fun _ _ h h' => absurd h h'⟩

/-- The walk knows enough when it has both neighbours. -/
theorem done (h : AddScan v nodes start stop prev next l) (hprev : prev ≠ 0) (hnext : next ≠ 0) :
    AddScan v nodes start stop prev next [] :=
  ⟨h.before, h.after, fun hz => absurd hz hprev, fun hz => absurd hz hnext⟩

/-- A node that ends before the blocks. -/
theorem step_before (h : AddScan v nodes start stop prev next (off :: l)) (hoff : off ∈ nodes)
    (hz : off ≠ 0) (hb : v.Before off start) (hafter : ¬ v.After off stop) :
    AddScan v nodes start stop off next l := by
  refine ⟨fun _ => ⟨hoff, hb⟩, h.after, fun h0 => absurd h0 hz, fun h0 o ho hnot => ?_⟩
  by_cases heq : o = off
  · exact heq ▸ hafter
  · exact h.noneAfter h0 o ho fun hmem => (List.mem_cons.1 hmem).elim heq hnot

/-- Any other node. -/
theorem step_other (h : AddScan v nodes start stop prev next (off :: l)) (hoff : off ∈ nodes)
    (hz : off ≠ 0) (hb : ¬ v.Before off start) {next' : Nat}
    (hnext : (v.After off stop ∧ next' = off) ∨ (¬ v.After off stop ∧ next' = next)) :
    AddScan v nodes start stop prev next' l := by
  refine ⟨h.before, ?_, fun h0 o ho hnot => ?_, fun h0 o ho hnot => ?_⟩
  · rcases hnext with ⟨ha, rfl⟩ | ⟨-, rfl⟩
    · exact fun _ => ⟨hoff, ha⟩
    · exact h.after
  · by_cases heq : o = off
    · exact heq ▸ hb
    · exact h.noneBefore h0 o ho fun hmem => (List.mem_cons.1 hmem).elim heq hnot
  · rcases hnext with ⟨-, rfl⟩ | ⟨ha, rfl⟩
    · exact absurd h0 hz
    · by_cases heq : o = off
      · exact heq ▸ ha
      · exact h.noneAfter h0 o ho fun hmem => (List.mem_cons.1 hmem).elim heq hnot

end AddScan

/-- A node is not on both sides of blocks in order. -/
theorem FreeSpace.not_after_of_before {v : Vol} (hf : FreeSpace v nodes lo hi) {start stop o : Nat}
    (hle : start ≤ stop) (ho : o ∈ nodes) (hb : v.Before o start) : ¬ v.After o stop := by
  have hord := hf.ordered o ho
  unfold Vol.Before at hb
  unfold Vol.After
  omega

theorem gives_delFileListAddLoop (hg : Geometry t.vol lo hi) (hf : FreeSpace t.vol nodes lo hi)
    {start stop : Nat} (hside : ∀ o, o ∈ nodes → t.vol.Before o start → ¬ t.vol.After o stop)
    (watchdog : Nat) {l : List Nat} {p off prev next : Nat} {entr : Entry}
    (hchain : Chain t.vol.next t.vol.prev p off l)
    (hsub : ∀ o, o ∈ l → o ∈ nodes) (hlen : l.length < watchdog) (hload : Loaded t.vol off entr)
    (hscan : AddScan t.vol nodes start stop prev next l) :
    Gives (delFileListAddLoop start stop watchdog off prev next entr) t fun r t' =>
      t'.vol = t.vol ∧ ∃ w prev' next', r.1 = some (w, prev', next') ∧ w ≠ 0 ∧
        AddScan t.vol nodes start stop prev' next' [] := by
  induction watchdog generalizing t l p off prev next entr with
  | zero => exact absurd hlen (Nat.not_lt_zero _)
  | succ watchdog ih =>
    rw [delFileListAddLoop]
    cases l with
    | nil =>
      have hz : off = 0 := hchain
      rw [if_pos hz, gives_pure]
      exact ⟨rfl, _, _, _, rfl, Nat.succ_ne_zero _, hscan⟩
    | cons a l =>
      obtain ⟨rfl, hz, -, htail⟩ := hchain
      have hmem := hsub off List.mem_cons_self
      have hsub' : ∀ o, o ∈ l → o ∈ nodes := fun o ho => hsub o (List.mem_cons_of_mem _ ho)
      have hlen' : l.length < watchdog := Nat.lt_of_succ_lt_succ hlen
      have hnextIn := hf.next_inside hg hmem
      -- The two tests on the node, without the wrap around of `off_t`.
      have hlow := hf.ge off hmem
      have hhigh := hf.lt off hmem
      have hord := hf.ordered off hmem
      have hpos := hg.lo_pos
      have hbound := hg.block_lt
      have hbefore : u64 (entr.get .endBlock + 1) = start ↔ t.vol.Before off start := by
        rw [hload hz, Vol.Before]
        unfold u64
        omega
      have hafter : u64 (entr.get .startBlock + minusOne) = stop ↔ t.vol.After off stop := by
        rw [hload hz, Vol.After]
        unfold u64 minusOne
        omega
      rw [if_neg hz]
      by_cases hb : t.vol.Before off start
      · rw [if_pos (hbefore.2 hb), gives_bind]
        refine (gives_delNext hg.sized hz hload hnextIn).mono fun ⟨off', entr'⟩ t' h' => ?_
        obtain ⟨hvol, hoff', hload'⟩ := h'
        dsimp only at hoff' hload' ⊢
        have hscan' := hscan.step_before hmem hz hb (hside off hmem hb)
        have htail' := htail
        rw [← hoff'] at htail'
        rw [← hvol] at hg hf hside htail' hload' hscan' ⊢
        exact ih hg hf hside htail' hsub' hlen' hload' hscan'
      · rw [if_neg fun h => hb (hbefore.1 h), gives_bind]
        refine (gives_delNext hg.sized hz hload hnextIn).mono fun ⟨off', entr'⟩ t' h' => ?_
        obtain ⟨hvol, hoff', hload'⟩ := h'
        dsimp only at hoff' hload' ⊢
        obtain ⟨next', hnext', hscan'⟩ : ∃ next',
            (if u64 (entr.get .startBlock + minusOne) = stop then off else next) = next' ∧
              AddScan t.vol nodes start stop prev next' l := by
          by_cases ha : t.vol.After off stop
          · exact ⟨off, if_pos (hafter.2 ha), hscan.step_other hmem hz hb (Or.inl ⟨ha, rfl⟩)⟩
          · exact ⟨next, if_neg fun h => ha (hafter.1 h),
              hscan.step_other hmem hz hb (Or.inr ⟨ha, rfl⟩)⟩
        have hreal : off' ≠ minusOne := by
          rw [hoff']
          refine ne_minusOne ?_
          have hsmall := hg.sized.small
          by_cases h0 : t.vol.next off = 0
          · omega
          · have hin := hnextIn h0
            omega
        rw [hnext', if_neg hreal]
        by_cases hboth : prev ≠ 0 ∧ next' ≠ 0
        · rw [if_pos hboth, gives_pure]
          exact ⟨hvol, watchdog, prev, next', rfl, by omega, hscan'.done hboth.1 hboth.2⟩
        · rw [if_neg hboth]
          have htail' := htail
          rw [← hoff'] at htail'
          rw [← hvol] at hg hf hside htail' hload' hscan' ⊢
          exact ih hg hf hside htail' hsub' hlen' hload' hscan'

/-! ## Looking for room -/

/-- The number of blocks of the extent of an entry. -/
def Vol.extent (v : Vol) (off : Nat) : Nat := v.get off .endBlock + 1 - v.get off .startBlock

/-- An ordered extent below block `hi` has its size in bytes. -/
theorem extentSize_eq {v : Vol} (hg : Geometry v lo hi) {off : Nat} {entr : Entry}
    (hload : ∀ f, entr.get f = v.get off f)
    (hord : v.get off .startBlock ≤ v.get off .endBlock + 1) (hlt : v.get off .endBlock < hi) :
    extentSize v.blockSize entr = v.blockSize * v.extent off := by
  have hbound := hg.block_lt
  have hmul : v.blockSize * v.extent off ≤ v.blockSize * hi :=
    Nat.mul_le_mul_left _ (by unfold Vol.extent; omega)
  have h₁ := hg.entryStart
  have h₂ := hg.nonempty
  have h₃ := hg.inside
  have h₄ := hg.sized.small
  rw [Nat.mul_comm _ hi, ← h₁] at hmul
  have hcount : u64 (sub64 (v.get off .endBlock) (v.get off .startBlock) + 1)
      = v.extent off := by
    unfold u64 sub64 Vol.extent
    split <;> omega
  have hfits : v.blockSize * v.extent off < 18446744073709551616 := by omega
  rw [extentSize, hload, hload, hcount, u64, Nat.mod_eq_of_lt hfits]

theorem FreeSpace.extentSize_eq {v : Vol} (hf : FreeSpace v nodes lo hi) (hg : Geometry v lo hi)
    {off : Nat} (hoff : off ∈ nodes) {entr : Entry} (hload : ∀ f, entr.get f = v.get off f) :
    extentSize v.blockSize entr = v.blockSize * v.extent off :=
  Sfs.extentSize_eq hg hload (hf.ordered off hoff) (hf.lt off hoff)

/-- What the walk of `del_file_list_alloc` knows when the nodes of `l` are left. -/
structure AllocScan (v : Vol) (nodes : List Nat) (curMax curMaxEntr : Nat) (l : List Nat) :
    Prop where
  found : curMax ≠ 0 → curMaxEntr ∈ nodes ∧ curMax = v.blockSize * v.extent curMaxEntr
  max : ∀ off, off ∈ nodes → off ∉ l → v.blockSize * v.extent off ≤ curMax

theorem AllocScan.init (v : Vol) (nodes : List Nat) (off : Nat) :
    AllocScan v nodes 0 off nodes :=
  ⟨fun h => absurd rfl h, fun _ h h' => absurd h h'⟩

theorem AllocScan.step {v : Vol} {curMax curMaxEntr off : Nat} {l : List Nat}
    (h : AllocScan v nodes curMax curMaxEntr (off :: l)) (hoff : off ∈ nodes) :
    AllocScan v nodes
      (if curMax < v.blockSize * v.extent off then v.blockSize * v.extent off else curMax)
      (if curMax < v.blockSize * v.extent off then off else curMaxEntr) l := by
  by_cases hlt : curMax < v.blockSize * v.extent off
  · rw [if_pos hlt, if_pos hlt]
    refine ⟨fun _ => ⟨hoff, rfl⟩, fun o ho hnot => ?_⟩
    by_cases heq : o = off
    · rw [heq]
    · have hle := h.max o ho fun hmem => (List.mem_cons.1 hmem).elim heq hnot
      omega
  · rw [if_neg hlt, if_neg hlt]
    refine ⟨h.found, fun o ho hnot => ?_⟩
    by_cases heq : o = off
    · rw [heq]
      omega
    · exact h.max o ho fun hmem => (List.mem_cons.1 hmem).elim heq hnot

theorem gives_delFileListAllocLoop (hg : Geometry t.vol lo hi) (hf : FreeSpace t.vol nodes lo hi)
    (watchdog : Nat) {l : List Nat} {p off curMax curMaxEntr : Nat} {entr : Entry}
    (hchain : Chain t.vol.next t.vol.prev p off l) (hsub : ∀ o, o ∈ l → o ∈ nodes)
    (hlen : l.length < watchdog) (hscan : AllocScan t.vol nodes curMax curMaxEntr l) :
    Gives (delFileListAllocLoop t.vol.blockSize watchdog off curMax curMaxEntr entr) t fun r t' =>
      t'.vol = t.vol ∧ ∃ w max maxEntr, r.1 = some (w, max, maxEntr) ∧ w ≠ 0 ∧
        AllocScan t.vol nodes max maxEntr [] := by
  induction watchdog generalizing t l p off curMax curMaxEntr entr with
  | zero => exact absurd hlen (Nat.not_lt_zero _)
  | succ watchdog ih =>
    rw [delFileListAllocLoop]
    cases l with
    | nil =>
      have hz : off = 0 := hchain
      rw [if_pos hz, gives_pure]
      exact ⟨rfl, _, _, _, rfl, Nat.succ_ne_zero _, hscan⟩
    | cons a l =>
      obtain ⟨rfl, hz, -, htail⟩ := hchain
      have hmem := hsub off List.mem_cons_self
      have hslot := hf.slot off hmem
      rw [if_neg hz, gives_readEntry hg.sized hslot.ge hslot.aligned (hg.slot_le hslot)]
      dsimp only
      rw [if_neg (by decide), hf.extentSize_eq hg hmem (Vol.get_load t.vol off entr), gives_bind]
      refine (gives_delNext (t := { t with clean := false }) hg.sized hz
        (fun _ => Vol.get_load t.vol off entr)
        (hf.next_inside hg hmem)).mono fun ⟨off', entr'⟩ t' h' => ?_
      obtain ⟨hvol, hoff', -⟩ := h'
      dsimp only at hvol hoff' ⊢
      have hscan' := hscan.step hmem
      rw [← hoff'] at htail
      rw [← hvol] at hg hf htail hscan' ⊢
      exact ih hg hf htail (fun o ho => hsub o (List.mem_cons_of_mem _ ho))
        (Nat.lt_of_succ_lt_succ hlen) hscan'

/-- The node starts at block `first` and has at least `delta` bytes. -/
def Vol.Fits (v : Vol) (off first delta : Nat) : Prop :=
  v.get off .startBlock = first ∧ delta ≤ v.blockSize * v.extent off

instance (v : Vol) (off first delta : Nat) : Decidable (v.Fits off first delta) :=
  inferInstanceAs (Decidable (_ ∧ _))

/-- The walk of `try_expand` ends at a node that starts behind the file and has
enough blocks, loaded into the entry, or there is none. -/
theorem gives_tryExpandLoop (hg : Geometry t.vol lo hi) (hf : FreeSpace t.vol nodes lo hi)
    (stop delta watchdog : Nat) {l : List Nat} {p off : Nat} {entr : Entry}
    (hchain : Chain t.vol.next t.vol.prev p off l) (hsub : ∀ o, o ∈ l → o ∈ nodes)
    (hlen : l.length < watchdog) :
    Gives (tryExpandLoop t.vol.blockSize stop delta watchdog off entr) t fun r t' =>
      t'.vol = t.vol ∧ ∃ w off', r.1 = some (w, off') ∧ w ≠ 0 ∧
        ((off' = 0 ∧ ∀ o, o ∈ l → ¬ t.vol.Fits o (u64 (stop + 1)) delta) ∨
          (off' ∈ nodes ∧ (∃ e, r.2 = t.vol.load off' e) ∧
            t.vol.Fits off' (u64 (stop + 1)) delta)) := by
  induction watchdog generalizing t l p off entr with
  | zero => exact absurd hlen (Nat.not_lt_zero _)
  | succ watchdog ih =>
    rw [tryExpandLoop]
    cases l with
    | nil =>
      have hz : off = 0 := hchain
      rw [if_pos hz, gives_pure]
      exact ⟨rfl, _, _, rfl, Nat.succ_ne_zero _, Or.inl
        ⟨rfl, fun o ho => absurd ho List.not_mem_nil⟩⟩
    | cons a l =>
      obtain ⟨rfl, hz, -, htail⟩ := hchain
      have hmem := hsub off List.mem_cons_self
      have hslot := hf.slot off hmem
      have hload := Vol.get_load t.vol off entr
      rw [if_neg hz, gives_readEntry hg.sized hslot.ge hslot.aligned (hg.slot_le hslot)]
      dsimp only
      rw [if_neg (by decide), hf.extentSize_eq hg hmem hload, hload]
      by_cases hfit : t.vol.Fits off (u64 (stop + 1)) delta
      · rw [if_pos (by exact hfit), gives_pure]
        have hw := Nat.lt_of_succ_lt_succ hlen
        exact ⟨rfl, _, _, rfl, by omega, Or.inr ⟨hmem, ⟨entr, rfl⟩, hfit⟩⟩
      · rw [if_neg (by exact hfit), gives_bind]
        refine (gives_delNext (t := { t with clean := false }) hg.sized hz (fun _ => hload)
          (hf.next_inside hg hmem)).mono fun ⟨off', entr'⟩ t' h' => ?_
        obtain ⟨hvol, hoff', -⟩ := h'
        dsimp only at hvol hoff' ⊢
        rw [← hoff'] at htail
        rw [← hvol] at hg hf htail hfit ⊢
        refine (ih hg hf htail (fun o ho => hsub o (List.mem_cons_of_mem _ ho))
          (Nat.lt_of_succ_lt_succ hlen)).mono fun r t'' ⟨hvol', w, found, hr, hw, hres⟩ => ?_
        refine ⟨hvol', w, found, hr, hw, hres.imp_left fun ⟨h0, hnone⟩ => ⟨h0, fun o ho => ?_⟩⟩
        rcases List.mem_cons.1 ho with heq | ho
        · exact heq ▸ hfit
        · exact hnone o ho

/-! ## Measuring -/

/-- The number of blocks of the nodes of a list. -/
def Vol.freeBlocks (v : Vol) (l : List Nat) : Nat := (l.map v.extent).sum

/-- The walk of `scan_del_file_list` sums up the sizes of the nodes. -/
theorem gives_scanDelFileListLoop (hg : Geometry t.vol lo hi) (hf : FreeSpace t.vol nodes lo hi)
    (watchdog : Nat) {l : List Nat} {p off curSize : Nat} {entr : Entry}
    (hchain : Chain t.vol.next t.vol.prev p off l) (hsub : ∀ o, o ∈ l → o ∈ nodes)
    (hlen : l.length < watchdog) (hsize : curSize < 18446744073709551616) :
    Gives (scanDelFileListLoop t.vol.blockSize watchdog off curSize entr) t fun r t' =>
      t'.vol = t.vol ∧ ∃ w, w ≠ 0 ∧
        r.1 = some (w, u64 (curSize + t.vol.blockSize * t.vol.freeBlocks l)) := by
  induction watchdog generalizing t l p off curSize entr with
  | zero => exact absurd hlen (Nat.not_lt_zero _)
  | succ watchdog ih =>
    rw [scanDelFileListLoop]
    cases l with
    | nil =>
      have hz : off = 0 := hchain
      rw [if_pos hz, gives_pure]
      refine ⟨rfl, watchdog + 1, Nat.succ_ne_zero _, ?_⟩
      simp [Vol.freeBlocks, u64, Nat.mod_eq_of_lt hsize]
    | cons a l =>
      obtain ⟨rfl, hz, -, htail⟩ := hchain
      have hmem := hsub off List.mem_cons_self
      have hslot := hf.slot off hmem
      have hload := Vol.get_load t.vol off entr
      have hnextIn := hf.next_inside hg hmem
      rw [if_neg hz, gives_readEntry hg.sized hslot.ge hslot.aligned (hg.slot_le hslot)]
      dsimp only
      rw [if_neg (by decide), hf.extentSize_eq hg hmem hload, gives_bind]
      refine (gives_delNext (t := { t with clean := false }) hg.sized hz
        (fun _ => hload) hnextIn).mono
        fun ⟨off', entr'⟩ t' h' => ?_
      obtain ⟨hvol, hoff', -⟩ := h'
      dsimp only at hvol hoff' ⊢
      have hreal : off' ≠ minusOne := by
        rw [hoff']
        refine ne_minusOne ?_
        have hsmall := hg.sized.small
        show t.vol.next off < _
        by_cases h0 : t.vol.next off = 0
        · omega
        · have hin := hnextIn h0
          omega
      rw [if_neg hreal]
      have hsum := Nat.mod_lt (curSize + t.vol.blockSize * t.vol.extent off)
        (show 0 < 18446744073709551616 by decide)
      have hblocks : t.vol.freeBlocks (off :: l) = t.vol.extent off + t.vol.freeBlocks l := by
        rw [Vol.freeBlocks, Vol.freeBlocks, List.map_cons, List.sum_cons]
      rw [hblocks]
      rw [← hoff'] at htail
      rw [← hvol] at hg hf htail hsum ⊢
      refine (ih hg hf htail (fun o ho => hsub o (List.mem_cons_of_mem _ ho))
        (Nat.lt_of_succ_lt_succ hlen) hsum).mono fun r t'' ⟨hvol', w, hw, hr⟩ => ?_
      refine ⟨hvol', w, hw, ?_⟩
      rw [hr, u64, u64, Nat.mod_add_mod, Nat.add_assoc, ← Nat.mul_add]

end Walks

end Sfs
