import Sfs.Session

/-!
# The split of the index

The slots from `entry_start` to `vol_ident`, taken by what they are for: the
start slot, unused slots, nodes of the list of free extents, and groups of a
head and its continuation slots.

* `Vol.Split` says that every slot is for one thing, and that no continuation
  slot starts with an entry type;
* `split_run` says that the index of a volume splits so after every run of
  `sfs_creat`, `sfs_mkdir`, `sfs_rmdir`, `sfs_unlink` and `sfs_delete`.
-/

namespace Sfs

open Lib

/-- What a slot of the index is for. -/
inductive SlotRole where
  | start
  | unused
  /-- A node of the list of free extents. -/
  | node
  /-- The head of a file, of a directory or of an unlinked file. -/
  | head
  /-- A continuation slot of the group of a head. -/
  | piece (head : Nat)

namespace Vol

variable {v : Vol} {nodes : List Nat} {lo hi off head : Nat}

/-- The slot is the head of a group of a file, a directory or an unlinked
file. -/
def GroupHead (v : Vol) (nodes : List Nat) (off : Nat) : Prop := v.Head off ∧ off ∉ nodes

/-- The slot has the role. -/
def HasRole (v : Vol) (nodes : List Nat) (off : Nat) : SlotRole → Prop
  | .start => off = v.fs.entryStart ∧ v.type off = EntryType.startEntry.code
  | .unused => v.type off = EntryType.unusedEntry.code
  | .node => off ∈ nodes ∧ v.type off = EntryType.delFileEntry.code ∧ v.cont off = 0
  | .head => v.GroupHead nodes off
  | .piece head => v.Slot head ∧ v.GroupHead nodes head ∧ head < off ∧ off < v.groupEnd head

/-- The slots split into the roles, with every group whole and by itself. -/
structure Split (v : Vol) (nodes : List Nat) : Prop where
  list : FreeList v nodes
  role : ∀ off, v.Slot off → ∃! r, v.HasRole nodes off r
  /-- A head is followed by exactly as many continuation slots as it claims. -/
  group : ∀ off, v.Slot off → v.GroupHead nodes off → ∀ j, j < v.cont off →
    v.Slot (off + 64 * (j + 1)) ∧ v.HasRole nodes (off + 64 * (j + 1)) (.piece off)
  /-- A group ends before the volume identifier. -/
  inside : ∀ off, v.Slot off → v.GroupHead nodes off → v.groupEnd off ≤ v.fs.volIdent
  /-- Two groups do not overlap. -/
  disjoint : ∀ off off', v.Slot off → v.Slot off' → v.GroupHead nodes off →
    v.GroupHead nodes off' → off ≠ off' → v.groupEnd off ≤ off' ∨ v.groupEnd off' ≤ off
  /-- No group overlaps a node. -/
  apart : ∀ off off', v.Slot off → v.GroupHead nodes off → off' ∈ nodes →
    off' < off ∨ v.groupEnd off ≤ off'
  /-- No continuation slot is taken for an entry. -/
  piece : ∀ off head, v.Slot off → v.HasRole nodes off (.piece head) → ¬ IsType (v.type off)

/-- A slot that carries a type is no continuation slot. -/
theorem not_piece (hl : Layout v) (hoff : v.Slot off) (ht : IsType (v.type off)) :
    ¬ v.HasRole nodes off (.piece head) := by
  intro ⟨hslot, hhead, hlt, hin⟩
  exact absurd (hl.no_cross hslot hhead.1 hoff ht hlt) (Nat.not_le.2 hin)

/-- What stands in a slot with a role other than that of a continuation slot. -/
theorem HasRole.isType {r : SlotRole} (h : v.HasRole nodes off r)
    (hr : ∀ head, r ≠ .piece head) : IsType (v.type off) := by
  cases r with
  | start => rw [h.2]; exact isType_code _
  | unused => rw [show v.type off = _ from h]; exact isType_code _
  | node => rw [h.2.1]; exact isType_code _
  | head => exact Layout.isType_of_head h.1
  | piece head => exact absurd rfl (hr head)

/-- A slot has at most one role. -/
theorem HasRole.unique (hl : Layout v) (hoff : v.Slot off) {r r' : SlotRole}
    (h : v.HasRole nodes off r) (h' : v.HasRole nodes off r') : r = r' := by
  have hstart : ∀ {c : Nat}, v.type off = EntryType.startEntry.code → v.type off = c →
      c ≠ EntryType.startEntry.code → False := fun h h' hne => hne (h'.symm.trans h)
  have hhead : v.Head off → v.type off ≠ EntryType.startEntry.code ∧
      v.type off ≠ EntryType.unusedEntry.code := by
    intro hh
    rcases hh with hh | hh | hh <;> rw [hh] <;> decide
  by_cases hp : ∃ head, r = .piece head
  · obtain ⟨head, rfl⟩ := hp
    by_cases hp' : ∃ head', r' = .piece head'
    · obtain ⟨head', rfl⟩ := hp'
      rw [hl.cover_unique h.1 h.2.1.1 h'.1 h'.2.1.1 (Nat.le_of_lt h.2.2.1) h.2.2.2
        (Nat.le_of_lt h'.2.2.1) h'.2.2.2]
    · exact absurd h (not_piece hl hoff (h'.isType fun head' heq => hp' ⟨head', heq⟩))
  · by_cases hp' : ∃ head', r' = .piece head'
    · obtain ⟨head', rfl⟩ := hp'
      exact absurd h' (not_piece hl hoff (h.isType fun head heq => hp ⟨head, heq⟩))
    · have hnode : off ∈ nodes ∧ v.type off = EntryType.delFileEntry.code ∧ v.cont off = 0 →
          v.Head off := fun h => Or.inr (Or.inr h.2.1)
      cases r with
      | piece head => exact absurd ⟨head, rfl⟩ hp
      | start =>
        cases r' with
        | start => rfl
        | unused => exact (hstart h.2 h' (by decide)).elim
        | node => exact absurd h.2 (hhead (hnode h')).1
        | head => exact absurd h.2 (hhead h'.1).1
        | piece head => exact absurd ⟨head, rfl⟩ hp'
      | unused =>
        cases r' with
        | start => exact (hstart h'.2 h (by decide)).elim
        | unused => rfl
        | node => exact absurd h (hhead (hnode h')).2
        | head => exact absurd h (hhead h'.1).2
        | piece head => exact absurd ⟨head, rfl⟩ hp'
      | node =>
        cases r' with
        | start => exact absurd h'.2 (hhead (hnode h)).1
        | unused => exact absurd h' (hhead (hnode h)).2
        | node => rfl
        | head => exact absurd h.1 h'.2
        | piece head => exact absurd ⟨head, rfl⟩ hp'
      | head =>
        cases r' with
        | start => exact absurd h'.2 (hhead h.1).1
        | unused => exact absurd h' (hhead h.1).2
        | node => exact absurd h'.1 h.2
        | head => rfl
        | piece head => exact absurd ⟨head, rfl⟩ hp'

/-- A slot has a role. -/
theorem exists_role (hl : Layout v) (hf : FreeList v nodes) (hoff : v.Slot off) :
    ∃ r, v.HasRole nodes off r := by
  by_cases ht : IsType (v.type off)
  · by_cases hs : off = v.fs.entryStart
    · exact ⟨.start, hs, by rw [hs]; exact hl.start⟩
    · by_cases hmem : off ∈ nodes
      · exact ⟨.node, hmem, hf.type off hmem, hf.cont off hmem⟩
      · rcases hl.known off hoff hs ht with hu | hh
        · exact ⟨.unused, hu⟩
        · exact ⟨.head, hh, hmem⟩
  · obtain ⟨head, hslot, hh, hlt, hin⟩ := hl.covered off hoff ht
    refine ⟨.piece head, hslot, ⟨hh, fun hmem => ?_⟩, hlt, hin⟩
    -- A node covers no slot but its own.
    have hal := hslot.aligned
    have hal' := hoff.aligned
    rw [groupEnd, hf.cont head hmem] at hin
    omega

end Vol

/-- The index of a well-formed volume splits. -/
theorem WellFormed.split {v : Vol} {nodes : List Nat} {lo hi : Nat}
    (hw : WellFormed v nodes lo hi) : v.Split nodes := by
  have hl := hw.layout
  have hf := hw.space.toFreeList
  refine ⟨hf, fun off hoff => ?_, fun off hoff hh j hj => ?_,
    fun off hoff hh => hl.inside off hoff hh.1,
    fun off off' hoff hoff' hh hh' hne => hl.disjoint hoff hh.1 hoff' hh'.1 hne,
    fun off off' hoff hh hmem => ?_, fun off head hoff hp ht => Vol.not_piece hl hoff ht hp⟩
  · obtain ⟨r, hr⟩ := Vol.exists_role hl hf hoff
    exact ⟨r, hr, fun r' hr' => hr'.unique hl hoff hr⟩
  · have hin := hl.inside off hoff hh.1
    have hge := hoff.ge
    have hal := hoff.aligned
    rw [Vol.groupEnd] at hin
    refine ⟨⟨by omega, by omega, by omega⟩, hoff, hh, by omega, ?_⟩
    rw [Vol.groupEnd]
    omega
  · have hslot := hf.slot off' hmem
    have ht : IsType (v.type off') := by
      rw [hf.type off' hmem]
      exact isType_code _
    rcases Nat.lt_trichotomy off' off with hlt | heq | hlt
    · exact Or.inl hlt
    · exact absurd (heq ▸ hmem) hh.2
    · exact Or.inr (hl.no_cross hoff hh.1 hslot ht hlt)

/-- The operations that leave contents alone. -/
def Op.Plain : Op → Prop
  | .creat _ | .mkdir _ | .rmdir _ | .unlink _ | .delete _ => True
  | _ => False

theorem Op.Plain.safe {op : Op} (h : op.Plain) (v : Vol) : op.Safe v := by
  cases op with
  | rename | write | truncate => exact h.elim
  | _ => exact trivial

/-- After every run of the plain operations the index splits. -/
theorem split_run {s : Session} {lo hi : Nat} (hs : s.Sound lo hi) {ops : List Op}
    (hops : MeetsOps (fun v p op => op.Plain ∧ op.Accepts v p) s ops) (n : Nat) :
    ∃ s' nodes, run Op.step s (ops.take n) = some s' ∧ s'.sys.vol.Split nodes := by
  obtain ⟨V, hat, hV⟩ := hs
  obtain ⟨s', V', hrun, hat', hV', -⟩ := run_changes (I := fun _ => True)
    (C := fun v p op => op.Plain ∧ op.Accepts v p) (fun V _ _ _ h => ⟨h.2, h.1.safe V.vol⟩)
    (fun _ _ _ _ _ _ _ => trivial) hat hV trivial hops n
  exact ⟨s', V'.nodes, hrun, hat'.vol ▸ hV'.toWellFormed.split⟩

/-- A path of 60 characters: its name takes two slots. -/
def longPath : Buf := List.replicate 60 0x61 ++ [0]

/-- A file and a directory with two slots, and a directory with one that is removed. -/
def longNames : List Op :=
  [.creat longPath, .mkdir pathB, .rmdir pathB, .mkdir longPath, .unlink longPath]

theorem split_run_blankDisk :
    ∃ s s' nodes, FreshlyMounted blankOpts 512 s ∧
      run Op.step ⟨s, []⟩ (longNames.take 5) = some s' ∧ s'.sys.vol.Split nodes := by
  have hsome : blankMounted.isSome = true := by decide +kernel
  obtain ⟨s, hmount⟩ := Option.isSome_iff_exists.1 hsome
  have hfresh := blankMounted_fresh hmount
  have hops : MeetsOps (fun v p op => op.Accepts v p) ⟨s, []⟩ longNames :=
    blankRun_meets hmount (by decide +kernel)
  have hplain : ∀ op ∈ longNames, op.Plain := by simp [longNames, Op.Plain]
  obtain ⟨s', nodes, hrun, hsplit⟩ := split_run ⟨_, hfresh.start.1, hfresh.start.2⟩
    ((hops.and_forall hplain).mono fun _ _ hop => ⟨hop.2, hop.1⟩) 5
  exact ⟨s, s', nodes, hfresh, hrun, hsplit⟩

end Sfs
