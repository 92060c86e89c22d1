import Sfs.ListOps

/-!
# Coalesced free space

The list functions keep the free extents apart: no extent ends right before
another one, so every extent is a whole run of free blocks.  The file shows what
follows for the three functions that change the list.

* `Coalesced.added`: `del_file_list_add` joins what touches;
* `Coalesced.takeFront`: taking blocks from the front of an extent leaves the
  rest apart;
* `Coalesced.run_iff`: there is a run of `k` free blocks exactly when one extent
  has `k` blocks, so `del_file_list_alloc` fails only when there is none;
* `Coalesced.behind_iff`: the blocks behind a file are free exactly when an
  extent that starts there is long enough, so `try_expand` finds it.
-/

namespace Sfs

open Lib

/-- The entry at an offset has the name `*free`. -/
def Vol.Starred (v : Vol) (off : Nat) : Prop :=
  ∀ i, i < freeName.length → v.data (off + (fileKind.name + i)) = freeName.char i

/-- The nodes of the list are named `*free` and stand for extents that are not
empty and do not touch. -/
structure Coalesced (v : Vol) (nodes : List Nat) (lo hi : Nat) : Prop
    extends FreeSpace v nodes lo hi where
  nonempty : ∀ off, off ∈ nodes → v.get off .startBlock ≤ v.get off .endBlock
  separate : ∀ off, off ∈ nodes → ∀ off', off' ∈ nodes →
    v.get off .endBlock + 1 ≠ v.get off' .startBlock
  named : ∀ off, off ∈ nodes → v.Starred off

/-- A list that ends after its first node has no other. -/
theorem FreeList.eq_of_begin {v : Vol} {nodes : List Nat} (hf : FreeList v nodes) {a : Nat}
    (hbegin : v.fs.delBegin = a) (ha : a ≠ 0) (hnext : v.next a = 0) : nodes = [a] := by
  have hchain := hf.chain
  rw [hbegin] at hchain
  cases nodes with
  | nil => exact absurd hchain ha
  | cons o l =>
    obtain ⟨rfl, -, -, hrest⟩ := hchain
    rw [hnext] at hrest
    rw [hrest.first_eq_zero.1 rfl]

/-- The space of a single node. -/
theorem FreeSpace.coalesced_singleton {v : Vol} {a lo hi : Nat} (hf : FreeSpace v [a] lo hi)
    (hlt : lo < hi) (hnamed : v.Starred a) : Coalesced v [a] lo hi := by
  have hfill := hf.filled hlt
  refine ⟨hf, hfill, fun o ho o' ho' => ?_, fun o ho => ?_⟩
  · obtain rfl := List.mem_singleton.1 ho
    obtain rfl := List.mem_singleton.1 ho'
    have hle := hfill _ ho
    omega
  · obtain rfl := List.mem_singleton.1 ho
    exact hnamed

/-! ## Names of nodes -/

namespace Vol

variable {v : Vol} {off o prev next new i : Nat} {entr : Entry}

/-- A store to a field of a slot leaves what is behind the fields of a slot. -/
theorem tail_set (hoff : off % 64 = 0) (ho : o % 64 = 0) (hi : 34 ≤ i) (hi' : i < 64) (f : Field)
    (x : Nat) : (v.set off f x).data (o + i) = v.data (o + i) :=
  set_outside f x (by omega)

theorem tail_linkPrev (hprev : prev % 64 = 0) (ho : o % 64 = 0) (hi : 34 ≤ i) (hi' : i < 64) :
    (v.linkPrev prev next).data (o + i) = v.data (o + i) := by
  unfold linkPrev
  split
  · exact tail_set hprev ho hi hi' _ _
  · rfl

theorem tail_linkNext (hnext : next % 64 = 0) (ho : o % 64 = 0) (hi : 34 ≤ i) (hi' : i < 64) :
    (v.linkNext prev next).data (o + i) = v.data (o + i) := by
  unfold linkNext
  split
  · exact tail_set hnext ho hi hi' _ _
  · rfl

theorem tail_unlink (hoff : off % 64 = 0) (hprev : v.prev off % 64 = 0)
    (hnext : v.next off % 64 = 0)
    (ho : o % 64 = 0) (hi : 34 ≤ i) (hi' : i < 64) :
    (v.unlink off).data (o + i) = v.data (o + i) := by
  unfold unlink
  rw [tail_set hoff ho hi hi', tail_linkNext hnext ho hi hi', tail_linkPrev hprev ho hi hi']

theorem tail_push (hbegin : v.fs.delBegin % 64 = 0) (ho : o % 64 = 0) (hi : 34 ≤ i) (hi' : i < 64) :
    (v.push new entr).data (o + i) = (v.store new entr).data (o + i) :=
  tail_linkNext hbegin ho hi hi'

/-- The name of a node is behind its fields. -/
theorem Starred.congr {v' : Vol} (h : v.Starred off)
    (hdata : ∀ i, 34 ≤ i → i < 64 → v'.data (off + i) = v.data (off + i)) : v'.Starred off := by
  intro i hi
  have hlen : freeName.length = 6 := rfl
  have hname : fileKind.name = 34 := rfl
  rw [hdata _ (by omega) (by omega)]
  exact h i hi

end Vol

namespace Coalesced

variable {v v' : Vol} {nodes nodes' : List Nat} {lo hi start stop a o o' k b : Nat}

/-! ## Joining -/

theorem owns_start (hc : Coalesced v nodes lo hi) (ho : o ∈ nodes) :
    v.Owns o (v.get o .startBlock) :=
  ⟨Nat.le_refl _, hc.nonempty o ho⟩

theorem owns_end (hc : Coalesced v nodes lo hi) (ho : o ∈ nodes) : v.Owns o (v.get o .endBlock) :=
  ⟨hc.nonempty o ho, Nat.le_refl _⟩

theorem before_unique (hc : Coalesced v nodes lo hi) (ho : o ∈ nodes) (ho' : o' ∈ nodes)
    (h : v.Before o start) (h' : v.Before o' start) : o = o' := by
  have heq : v.get o .endBlock = v.get o' .endBlock := Nat.succ.inj (h.trans h'.symm)
  have hown := hc.owns_end ho'
  rw [← heq] at hown
  exact hc.disjoint o ho o' ho' _ (hc.owns_end ho) hown

theorem after_unique (hc : Coalesced v nodes lo hi) (ho : o ∈ nodes) (ho' : o' ∈ nodes)
    (h : v.After o stop) (h' : v.After o' stop) : o = o' := by
  have heq : v.get o .startBlock = v.get o' .startBlock := h.trans h'.symm
  have hown := hc.owns_start ho'
  rw [← heq] at hown
  exact hc.disjoint o ho o' ho' _ (hc.owns_start ho) hown

/-- One node has the blocks from `start` to `stop`, and those of the nodes that
ended right before them or started right after them; the other nodes stay as
they are. -/
theorem merge (start stop : Nat) (hc : Coalesced v nodes lo hi) (hspace : FreeSpace v' nodes' lo hi)
    (hkeep : ∀ o, o ∈ nodes' → o ≠ a → o ∈ nodes ∧ v'.get o .startBlock = v.get o .startBlock ∧
      v'.get o .endBlock = v.get o .endBlock ∧ ¬ v.Before o start ∧ ¬ v.After o stop)
    (hle : a ∈ nodes' → v'.get a .startBlock ≤ v'.get a .endBlock)
    (hstart : v'.get a .startBlock = start ∨
      ∃ p, p ∈ nodes ∧ v'.get a .startBlock = v.get p .startBlock)
    (hstop : v'.get a .endBlock = stop ∨ ∃ n, n ∈ nodes ∧ v'.get a .endBlock = v.get n .endBlock)
    (hnamed : ∀ o, o ∈ nodes' → v'.Starred o) : Coalesced v' nodes' lo hi := by
  refine ⟨hspace, fun o ho => ?_, fun o ho o' ho' heq => ?_, hnamed⟩
  · by_cases hoa : o = a
    · rw [hoa]
      exact hle (hoa ▸ ho)
    · obtain ⟨hmem, hs, he, -⟩ := hkeep o ho hoa
      rw [hs, he]
      exact hc.nonempty o hmem
  · by_cases hoa : o = a <;> by_cases hoa' : o' = a
    · have hown := hle (hoa ▸ ho)
      rw [hoa, hoa'] at heq
      omega
    · subst hoa
      obtain ⟨hmem, hs, -, -, hafter⟩ := hkeep o' ho' hoa'
      rw [hs] at heq
      rcases hstop with he | ⟨n, hn, he⟩
      · rw [he] at heq
        exact hafter heq.symm
      · rw [he] at heq
        exact hc.separate n hn o' hmem heq
    · subst hoa'
      obtain ⟨hmem, -, he, hbefore, -⟩ := hkeep o ho hoa
      rw [he] at heq
      rcases hstart with hs | ⟨p, hp, hs⟩
      · rw [hs] at heq
        exact hbefore heq
      · rw [hs] at heq
        exact hc.separate o hmem p hp heq
    · obtain ⟨hmem, -, he, -⟩ := hkeep o ho hoa
      obtain ⟨hmem', hs, -⟩ := hkeep o' ho' hoa'
      rw [he, hs] at heq
      exact hc.separate o hmem o' hmem' heq

/-- A store to a field of a node leaves the names. -/
theorem starred_set (hc : Coalesced v nodes lo hi) (ha : a ∈ nodes) (f : Field) (x : Nat)
    (ho : o ∈ nodes) : (v.set a f x).Starred o :=
  (hc.named o ho).congr fun _ hi hi' =>
    Vol.tail_set (hc.slot a ha).aligned (hc.slot o ho).aligned hi hi' f x

theorem starred_unlink (hc : Coalesced v nodes lo hi) (ha : a ∈ nodes) (ho : o ∈ nodes) :
    (v.unlink a).Starred o :=
  (hc.named o ho).congr fun _ hi hi' =>
    Vol.tail_unlink (hc.slot a ha).aligned (hc.prev_aligned ha) (hc.next_aligned ha)
      (hc.slot o ho).aligned hi hi'

theorem get_set_other (hc : Coalesced v nodes lo hi) (ha : a ∈ nodes) (ho : o ∈ nodes) (hne : o ≠ a)
    (f g : Field) (x : Nat) : (v.set a g x).get o f = v.get o f :=
  v.get_set_slot (hc.slot a ha).aligned (hc.slot o ho).aligned hne g f x

theorem joinNext (hc : Coalesced v nodes lo hi) (ha : a ∈ nodes) (after : v.After a stop)
    (noneBefore : ∀ off, off ∈ nodes → ¬ v.Before off start) (hle : start ≤ stop)
    (hlt : start < 18446744073709551616)
    (hspace : FreeSpace (v.set a .startBlock start) nodes lo hi) :
    Coalesced (v.set a .startBlock start) nodes lo hi := by
  have hend : (v.set a .startBlock start).get a .endBlock = v.get a .endBlock :=
    Vol.get_set_field v a (by decide) start
  have hstart : (v.set a .startBlock start).get a .startBlock = start := by
    rw [Vol.get_set_same]
    exact Nat.mod_eq_of_lt hlt
  refine merge start stop hc hspace (fun o ho hne => ?_) (fun _ => ?_) (Or.inl hstart)
    (Or.inr ⟨a, ha, hend⟩) fun o ho => hc.starred_set ha _ _ ho
  · exact ⟨ho, hc.get_set_other ha ho hne _ _ _, hc.get_set_other ha ho hne _ _ _,
      noneBefore o ho, fun h => hne (hc.after_unique ho ha h after)⟩
  · have hfill := hc.nonempty a ha
    unfold Vol.After at after
    omega

theorem joinPrev (hc : Coalesced v nodes lo hi) (ha : a ∈ nodes) (before : v.Before a start)
    (noneAfter : ∀ off, off ∈ nodes → ¬ v.After off stop) (hle : start ≤ stop)
    (hlt : stop < 18446744073709551616)
    (hspace : FreeSpace (v.set a .endBlock stop) nodes lo hi) :
    Coalesced (v.set a .endBlock stop) nodes lo hi := by
  have hstart : (v.set a .endBlock stop).get a .startBlock = v.get a .startBlock :=
    Vol.get_set_field v a (by decide) stop
  have hend : (v.set a .endBlock stop).get a .endBlock = stop := by
    rw [Vol.get_set_same]
    exact Nat.mod_eq_of_lt hlt
  refine merge start stop hc hspace (fun o ho hne => ?_) (fun _ => ?_)
    (Or.inr ⟨a, ha, hstart⟩) (Or.inl hend) fun o ho => hc.starred_set ha _ _ ho
  · exact ⟨ho, hc.get_set_other ha ho hne _ _ _, hc.get_set_other ha ho hne _ _ _,
      fun h => hne (hc.before_unique ho ha h before), noneAfter o ho⟩
  · have hfill := hc.nonempty a ha
    unfold Vol.Before at before
    omega

/-- Taking a node out leaves the extents. -/
theorem extent_unlink (hc : Coalesced v nodes lo hi) (ha : a ∈ nodes) (ho : o ∈ nodes) {f : Field}
    (hf : f = .startBlock ∨ f = .endBlock) : (v.unlink a).get o f = v.get o f := by
  rcases hf with rfl | rfl <;>
    exact hc.toFreeList.get_unlink ha (hc.slot o ho) (by decide) (by decide) (by decide)

theorem joinBoth {prev next : Nat} (hc : Coalesced v nodes lo hi) (hprev : prev ∈ nodes)
    (before : v.Before prev start) (hnext : next ∈ nodes) (after : v.After next stop)
    (hle : start ≤ stop)
    (hspace : FreeSpace ((v.unlink prev).set next .startBlock (v.get prev .startBlock))
      (nodes.erase prev) lo hi) :
    Coalesced ((v.unlink prev).set next .startBlock (v.get prev .startBlock))
      (nodes.erase prev) lo hi := by
  have hend : ((v.unlink prev).set next .startBlock (v.get prev .startBlock)).get next .endBlock
      = v.get next .endBlock :=
    (Vol.get_set_field _ next (by decide) _).trans (hc.extent_unlink hprev hnext (Or.inr rfl))
  have hstart :
      ((v.unlink prev).set next .startBlock (v.get prev .startBlock)).get next .startBlock
      = v.get prev .startBlock := by
    rw [Vol.get_set_same]
    exact Nat.mod_eq_of_lt (v.get_lt prev .startBlock)
  have hother : ∀ o, o ∈ nodes → o ≠ next → ∀ f : Field, f = .startBlock ∨ f = .endBlock →
      ((v.unlink prev).set next .startBlock (v.get prev .startBlock)).get o f = v.get o f := by
    intro o ho hne f hf
    rw [Vol.get_set_slot (hc.slot next hnext).aligned (hc.slot o ho).aligned hne _ f]
    exact hc.extent_unlink hprev ho hf
  refine merge start stop (a := next) hc hspace (fun o ho hne => ?_) (fun _ => ?_)
    (Or.inr ⟨prev, hprev, hstart⟩) (Or.inr ⟨next, hnext, hend⟩) fun o ho => ?_
  · obtain ⟨hop, hmem⟩ := hc.nodup.mem_erase_iff.1 ho
    exact ⟨hmem, hother o hmem hne _ (Or.inl rfl), hother o hmem hne _ (Or.inr rfl),
      fun h => hop (hc.before_unique hmem hprev h before),
      fun h => hne (hc.after_unique hmem hnext h after)⟩
  · have hfill := hc.nonempty prev hprev
    have hfill' := hc.nonempty next hnext
    unfold Vol.Before at before
    unfold Vol.After at after
    omega
  · have hmem := List.mem_of_mem_erase ho
    refine (hc.starred_unlink hprev hmem).congr fun i hi hi' => ?_
    exact Vol.tail_set (hc.slot next hnext).aligned (hc.slot o hmem).aligned hi hi' _ _

/-- The list begins at a slot, if it has a node. -/
theorem begin_aligned (hc : Coalesced v nodes lo hi) : v.fs.delBegin % 64 = 0 := by
  by_cases h0 : v.fs.delBegin = 0
  · omega
  · exact (hc.slot _ (hc.chain.first_mem h0)).aligned

/-- The new node is named, and the others stay so. -/
theorem starred_push {entr : Entry} (hc : Coalesced v nodes lo hi) (ha : v.Slot a)
    (name : ∀ i, i < freeName.length → entr (fileKind.name + i) = freeName.char i)
    (ho : o ∈ a :: nodes) : (v.push a entr).Starred o := by
  have hslot : v.Slot o := (List.mem_cons.1 ho).elim (fun h => h ▸ ha) (hc.slot o)
  intro i hi
  have hlen : freeName.length = 6 := rfl
  have hname : fileKind.name = 34 := rfl
  rw [Vol.tail_push hc.begin_aligned hslot.aligned (by omega) (by omega)]
  by_cases hne : o = a
  · rw [hne]
    exact (blit_add (show fileKind.name + i < 64 by omega)).trans
      ((congrArg entr (Nat.zero_add _)).trans (name i hi))
  · have hmem := (List.mem_cons.1 ho).resolve_left hne
    have hal := hslot.aligned
    have hal' := ha.aligned
    rw [Vol.store_outside _ (by omega)]
    exact hc.named o hmem i hi

theorem push {entr : Entry} (hc : Coalesced v nodes lo hi) (hg : Geometry v lo hi)
    (noneBefore : ∀ off, off ∈ nodes → ¬ v.Before off start)
    (noneAfter : ∀ off, off ∈ nodes → ¬ v.After off stop) (ha : v.Slot a)
    (node : IsNode entr v.fs.delBegin start stop)
    (name : ∀ i, i < freeName.length → entr (fileKind.name + i) = freeName.char i)
    (hle : start ≤ stop) (hspace : FreeSpace (v.push a entr) (a :: nodes) lo hi) :
    Coalesced (v.push a entr) (a :: nodes) lo hi := by
  have hlt : a < 18446744073709551616 := by
    have h₁ := hg.slot_le ha
    have h₂ := hg.sized.small
    omega
  have hget : ∀ o, v.Slot o → ∀ f : Field, f = .startBlock ∨ f = .endBlock →
      (v.push a entr).get o f = if o = a then fieldAt entr 0 f else v.get o f := by
    rintro o ho f (rfl | rfl) <;>
    · rw [Vol.get_push ha.aligned hlt hc.begin_aligned ho.aligned, if_neg]
      rintro ⟨-, -, hf⟩
      cases hf
  have hstart : (v.push a entr).get a .startBlock = start := by
    rw [hget a ha _ (Or.inl rfl), if_pos rfl]
    exact node.start
  have hend : (v.push a entr).get a .endBlock = stop := by
    rw [hget a ha _ (Or.inr rfl), if_pos rfl]
    exact node.stop
  refine merge start stop hc hspace (fun o ho hne => ?_) (fun _ => ?_) (Or.inl hstart)
    (Or.inl hend) fun o ho => hc.starred_push ha name ho
  · have hmem := (List.mem_cons.1 ho).resolve_left hne
    refine ⟨hmem, ?_, ?_, noneBefore o hmem, noneAfter o hmem⟩
    · rw [hget o (hc.slot o hmem) _ (Or.inl rfl), if_neg hne]
    · rw [hget o (hc.slot o hmem) _ (Or.inr rfl), if_neg hne]
  · rw [hstart, hend]
    exact hle

/-- `del_file_list_add` keeps the free space coalesced. -/
theorem added (hc : Coalesced v nodes lo hi) (hg : Geometry v lo hi)
    (h : v.ListAdded nodes start stop v' nodes') (hlo : lo ≤ start) (hle : start ≤ stop)
    (hhi : stop < hi) (hfresh : ∀ b, start ≤ b → b ≤ stop → ¬ v.Free nodes b) :
    Coalesced v' nodes' lo hi := by
  have hbound := hg.block_lt
  have hspace := (h.step hg hc.toFreeSpace hlo hle hhi hfresh).space
  cases h with
  | joinNext hnext after noneBefore =>
    exact hc.joinNext hnext after noneBefore hle (by omega) hspace
  | joinPrev hprev before noneAfter =>
    exact hc.joinPrev hprev before noneAfter hle (by omega) hspace
  | joinBoth hprev before hnext after => exact hc.joinBoth hprev before hnext after hle hspace
  | push noneBefore noneAfter slot _ _ node name =>
    exact hc.push hg noneBefore noneAfter slot node name hle hspace

/-! ## Taking blocks -/

/-- Taking blocks from the front of an extent keeps the free space coalesced. -/
theorem takeFront (hc : Coalesced v nodes lo hi) (ha : a ∈ nodes) (hk : 0 < k)
    (hle : k ≤ v.extent a) : Coalesced (v.takeFront a k) (v.nodesAfter nodes a k) lo hi := by
  have hspace := (hc.toFreeSpace.takeFront ha hk hle).space
  have hlt := v.get_lt a .endBlock
  revert hspace
  unfold Vol.takeFront Vol.nodesAfter
  unfold Vol.extent at hle ⊢
  by_cases hfit : v.get a .endBlock + 1 - v.get a .startBlock = k
  · rw [if_pos hfit, if_pos hfit]
    intro hspace
    have hget : ∀ o, o ∈ nodes.erase a → ∀ f : Field, f = .startBlock ∨ f = .endBlock →
        (v.unlink a).get o f = v.get o f := by
      rintro o ho f (rfl | rfl) <;>
        exact hc.toFreeList.get_unlink ha (hc.slot o (List.mem_of_mem_erase ho)) (by decide)
          (by decide) (by decide)
    refine ⟨hspace, fun o ho => ?_, fun o ho o' ho' => ?_, fun o ho => ?_⟩
    · rw [hget o ho _ (Or.inl rfl), hget o ho _ (Or.inr rfl)]
      exact hc.nonempty o (List.mem_of_mem_erase ho)
    · rw [hget o ho _ (Or.inr rfl), hget o' ho' _ (Or.inl rfl)]
      exact hc.separate o (List.mem_of_mem_erase ho) o' (List.mem_of_mem_erase ho')
    · exact hc.starred_unlink ha (List.mem_of_mem_erase ho)
  · rw [if_neg hfit, if_neg hfit]
    intro hspace
    have hstart : (v.set a .startBlock (v.get a .startBlock + k)).get a .startBlock
        = v.get a .startBlock + k := by
      rw [Vol.get_set_same]
      exact Nat.mod_eq_of_lt (show v.get a .startBlock + k < 18446744073709551616 by omega)
    have hend : (v.set a .startBlock (v.get a .startBlock + k)).get a .endBlock
        = v.get a .endBlock := Vol.get_set_field v a (by decide) _
    have hends : ∀ o, o ∈ nodes → (v.set a .startBlock (v.get a .startBlock + k)).get o .endBlock
        = v.get o .endBlock := by
      intro o ho
      by_cases hoa : o = a
      · rw [hoa, hend]
      · exact hc.get_set_other ha ho hoa _ _ _
    refine ⟨hspace, fun o ho => ?_, fun o ho o' ho' heq => ?_, fun o ho => hc.starred_set ha _ _ ho⟩
    · by_cases hoa : o = a
      · rw [hoa, hstart, hend]
        omega
      · rw [hends o ho, hc.get_set_other ha ho hoa]
        exact hc.nonempty o ho
    · rw [hends o ho] at heq
      by_cases hoa' : o' = a
      · -- The block before the rest of the extent was the last one taken.
        rw [hoa', hstart] at heq
        have hown : v.Owns a (v.get o .endBlock) := ⟨by omega, by omega⟩
        have hoa := hc.disjoint o ho a ha _ (hc.owns_end ho) hown
        rw [hoa] at heq
        omega
      · rw [hc.get_set_other ha ho' hoa'] at heq
        exact hc.separate o ho o' ho' heq

/-! ## Runs of free blocks -/

/-- Free blocks that follow each other are in one extent. -/
theorem owns_succ (hc : Coalesced v nodes lo hi) (ha : a ∈ nodes) (hb : v.Owns a b)
    (hfree : v.Free nodes (b + 1)) : v.Owns a (b + 1) := by
  obtain ⟨o, ho, hown⟩ := hfree
  by_cases hlast : b = v.get a .endBlock
  · -- Then `b + 1` is the first block of its extent, or `b` is in both.
    have hne := hc.separate a ha o ho
    obtain ⟨hge, hle⟩ := hown
    have hoa : o = a := hc.disjoint o ho a ha b ⟨by omega, by omega⟩ hb
    rw [hoa] at hge hle
    exact ⟨hge, hle⟩
  · exact ⟨Nat.le_succ_of_le hb.1, Nat.lt_of_le_of_ne hb.2 hlast⟩

theorem owns_run (hc : Coalesced v nodes lo hi) (ha : a ∈ nodes) (hb : v.Owns a b)
    (hfree : ∀ j, j < k → v.Free nodes (b + j)) : ∀ j, j < k → v.Owns a (b + j) := by
  intro j
  induction j with
  | zero => exact fun _ => hb
  | succ j ih => exact fun hj => hc.owns_succ ha (ih (by omega)) (hfree (j + 1) hj)

/-- There is a run of `k` free blocks exactly when an extent has `k` blocks. -/
theorem run_iff (hc : Coalesced v nodes lo hi) (hk : 0 < k) :
    (∃ start, ∀ j, j < k → v.Free nodes (start + j)) ↔ ∃ a, a ∈ nodes ∧ k ≤ v.extent a := by
  constructor
  · rintro ⟨start, hrun⟩
    obtain ⟨a, ha, hown⟩ := hrun 0 hk
    have hlast := hc.owns_run ha hown hrun (k - 1) (by omega)
    have hfirst := hown.1
    have hle := hlast.2
    refine ⟨a, ha, ?_⟩
    unfold Vol.extent
    omega
  · rintro ⟨a, ha, hle⟩
    unfold Vol.extent at hle
    exact ⟨v.get a .startBlock, fun j hj => ⟨a, ha, by omega, by omega⟩⟩

/-- Behind a block that is not free, `k` blocks are free exactly when an extent
of at least `k` blocks starts there. -/
theorem behind_iff (hc : Coalesced v nodes lo hi) (hk : 0 < k) (hstop : ¬ v.Free nodes stop) :
    (∀ b, stop < b → b ≤ stop + k → v.Free nodes b) ↔
      ∃ a, a ∈ nodes ∧ v.get a .startBlock = stop + 1 ∧ k ≤ v.extent a := by
  constructor
  · intro hfree
    obtain ⟨a, ha, hown⟩ := hfree (stop + 1) (by omega) (by omega)
    have hlast := hc.owns_run (k := k) ha hown (fun j hj => hfree _ (by omega) (by omega)) (k - 1)
      (by omega)
    have hle := hlast.2
    have hge := hown.1
    have hstart : v.get a .startBlock = stop + 1 := by
      by_contra hne
      exact hstop ⟨a, ha, by omega, by omega⟩
    refine ⟨a, ha, hstart, ?_⟩
    unfold Vol.extent
    omega
  · rintro ⟨a, ha, hstart, hle⟩ b hlt hb
    unfold Vol.extent at hle
    exact ⟨a, ha, by omega, by omega⟩

end Coalesced

end Sfs
