import Sfs.Users

/-!
# Runs of the callbacks

From mkfs and the first mount on, what the callbacks answer to any calls in order is what
a file tree with open files answers.

* `Mount.start` is a mounted volume with a fresh inode map and nothing open;
* `Mount.At.serves_calls` is a run, and `serves_run` a run from the first mount on;
* `handle_reads_run` says that what is written through a handle is read through it.
-/

namespace Sfs

open Lib FileTree

/-- The calls of a list, each of which is in order where it is made. -/
abbrev MeetsUsers (C : Mount → UserCall → Prop) (m : Mount) (calls : List UserCall) : Prop :=
  Meets (next UserCall.perform) C m calls

/-- A mounted volume with a fresh inode map, and nothing open. -/
def Mount.start (s : Sys) (junk : FileT) (memory : Nat → Bool) (attr : SfsAttr) : Mount :=
  ⟨⟨s, inodeMapCreate junk, memory, 0, attr⟩, []⟩

section

variable {opts : SfsOptions} {bs : Nat} {s : Sys} {m : Mount} {V : View} {lo hi : Nat}
  {junk : FileT} {memory : Nat → Bool} {attr : SfsAttr} {calls : List UserCall}

/-- A fresh map knows nothing. -/
theorem tells_create (junk : FileT) (V : View) : (inodeMapCreate junk).Tells [] V := by
  have hnone : ∀ w f, ¬ (inodeMapCreate junk).Has w f := by
    intro w f hf
    have hlt : w < 1 := hf.lt
    exact Nat.lt_irrefl 0 (Nat.lt_of_lt_of_le hf.1 (Nat.le_of_lt_succ hlt))
  exact ⟨injective_create junk, Nat.one_pos, fun w f hf => absurd hf (hnone w f),
    fun w f hf => absurd hf (hnone w f), fun w hw => absurd hw List.not_mem_nil⟩

theorem FreshlyMounted.mount_at (h : FreshlyMounted opts bs s) :
    (Mount.start s junk memory attr).At ⟨s.vol, [s.fs.entryStart + 64], []⟩ opts.reservedSize
      (opts.reservedSize + opts.dataSize) :=
  ⟨h.stands, tells_create junk _⟩

/-- Calls in order return, their answers are those that a file tree with open files allows,
and the mount stands for that tree at the end. -/
theorem Mount.At.serves_calls (h : m.At V lo hi) (hcalls : MeetsUsers UserCall.Admitted m calls) :
    ∃ rs m' V', answers UserCall.perform m calls = some (rs, m') ∧ rs.length = calls.length ∧
      Allows (OpenTree.Serves Above) (m.shows V) ((calls.map UserCall.asks).zip rs)
        (m'.shows V') ∧ m'.At V' lo hi := by
  obtain ⟨rs, m', O', hrun, hallows, V', hat, rfl⟩ := answers_allowed
    (R := fun m O => ∃ V, m.At V lo hi ∧ m.shows V = O) UserCall.asks
    (fun m O call hrel hcall => by
      obtain ⟨V, hat, rfl⟩ := hrel
      obtain ⟨answer, m', V', hrun, hserves, hat'⟩ := hat.performs hcall
      exact ⟨answer, m', m'.shows V', hrun, hserves, V', hat', rfl⟩)
    ⟨V, h, rfl⟩ hcalls
  exact ⟨rs, m', V', hrun, answers_length hrun, hallows, hat⟩

/-- At the first mount the tree is in order, and nothing is open. -/
theorem FreshlyMounted.mount_sound (h : FreshlyMounted opts bs s) :
    OpenTree.Sound Above
      ((Mount.start s junk memory attr).shows ⟨s.vol, [s.fs.entryStart + 64], []⟩) where
  names := h.wellNamed
  file _ _ hn := absurd hn List.not_mem_nil
  number _ _ _ _ hn := absurd hn List.not_mem_nil
  kept o ho := absurd ho (h.bare.unlinked o)

/-- From the first mount on, the callbacks are a file tree with open files: what they answer
to any calls in order, the specification allows such a tree that starts with the root
directory alone and nothing open.  At the end the volume has the files and directories of
the tree, the handles have the files of the map, and every file that lost its name and is
still there is open. -/
theorem serves_run (hs : FreshlyMounted opts bs s)
    (hcalls : MeetsUsers UserCall.Admitted (.start s junk memory attr) calls) :
    ∃ rs m' T O, answers UserCall.perform (.start s junk memory attr) calls = some (rs, m') ∧
      rs.length = calls.length ∧ FileTree.Bare T (s.fs.entryStart + 128) ∧
      Allows (OpenTree.Serves Above) ⟨T, []⟩ ((calls.map UserCall.asks).zip rs) O ∧
      (∃ pending, m'.fuse.sys.vol.Shows pending O.tree) ∧
      O.opened = openedIn m'.fuse.map m'.handles ∧ O.Sound Above := by
  obtain ⟨rs, m', V', hrun, hlen, hallows, hat⟩ := hs.mount_at.serves_calls hcalls
  refine ⟨rs, m', _, m'.shows V', hrun, hlen, hs.bare, hallows, ⟨V'.pending, ?_⟩, rfl,
    OpenTree.sound_run hallows hs.mount_sound⟩
  rw [hat.vol]
  exact hat.stands.sound.shows

end

/-! ## A run on the small disk -/

/-- A call that is in order for a simple reason. -/
def UserCall.Light (m : Mount) : UserCall → Prop
  | getattr _ => m.fuse.memory m.fuse.tries = true
  | mknod _ mode => mode &&& sIFREG = 0 ∨ mode &&& sIFDIR = 0
  | mkdir _ | rmdir _ => True
  | unlink _ => ∀ w ∈ m.handles, m.fuse.map.getOpenbit w = 1
  | .open path => m.fuse.memory m.fuse.tries = true ∧
    ∀ x ∈ m.fuse.sys.exec (sfsOpen path), x.1 ≠ 0 → x.2.vol.LiveFile x.1
  | release vino => vino ∈ m.handles ∧
    (m.fuse.map.getDirty vino = 1 → vino ∉ m.handles.erase vino)
  | read vino _ size off => vino ∈ m.handles ∧ size < 2147483648 ∧
    off + size < 9223372036854775808 ∧ off % m.fuse.sys.vol.blockSize = 0
  | write vino buf size off => vino ∈ m.handles ∧ size < 2147483648 ∧
    off + size < 9223372036854775808 ∧ m.fuse.sys.vol.LiveFile (m.fuse.map.getPino vino) ∧
      (Op.write (m.fuse.map.getPino vino) buf size off).Light m.fuse.sys.vol
  | truncate .. | ftruncate .. => False

instance UserCall.decidableLight (m : Mount) : (c : UserCall) → Decidable (c.Light m)
  | getattr _ => inferInstanceAs (Decidable (m.fuse.memory m.fuse.tries = true))
  | mknod _ mode => inferInstanceAs (Decidable (mode &&& sIFREG = 0 ∨ mode &&& sIFDIR = 0))
  | mkdir _ | rmdir _ => instDecidableTrue
  | unlink _ => inferInstanceAs (Decidable (∀ w ∈ m.handles, m.fuse.map.getOpenbit w = 1))
  | .open path => inferInstanceAs (Decidable (m.fuse.memory m.fuse.tries = true ∧
    ∀ x ∈ m.fuse.sys.exec (sfsOpen path), x.1 ≠ 0 → x.2.vol.LiveFile x.1))
  | release vino => inferInstanceAs (Decidable (vino ∈ m.handles ∧
    (m.fuse.map.getDirty vino = 1 → vino ∉ m.handles.erase vino)))
  | read vino _ size off => inferInstanceAs (Decidable (vino ∈ m.handles ∧ size < 2147483648 ∧
    off + size < 9223372036854775808 ∧ off % m.fuse.sys.vol.blockSize = 0))
  | write vino buf size off => inferInstanceAs (Decidable (vino ∈ m.handles ∧
    size < 2147483648 ∧ off + size < 9223372036854775808 ∧
      m.fuse.sys.vol.LiveFile (m.fuse.map.getPino vino) ∧
        (Op.write (m.fuse.map.getPino vino) buf size off).Light m.fuse.sys.vol))
  | truncate .. | ftruncate .. => instDecidableFalse

theorem UserCall.Light.admitted {m : Mount} {c : UserCall} (h : c.Light m) : c.Admitted m := by
  cases c with
  | getattr | mknod | mkdir | rmdir | «open» | release => exact h
  | unlink => exact fun w hw _ => h w hw
  | read => exact ⟨h.1, h.2.1, h.2.2.1, Or.inl h.2.2.2⟩
  | write => exact ⟨h.1, h.2.1, h.2.2.1, h.2.2.2.1, h.2.2.2.2.safe⟩
  | truncate | ftruncate => exact h.elim

/-- A mounted volume with nothing open, on a machine with memory. -/
def Mount.fresh (s : Sys) : Mount := .start s ⟨0, 0, 0⟩ (fun _ => true) ⟨0, 0, 0, .file⟩

/-- Light calls on the small disk are in order. -/
theorem blankUsers_meets (calls : List UserCall)
    (h : (blankMounted.map fun s => decide (MeetsUsers UserCall.Light (.fresh s) calls)) =
      some true) :
    ∃ s, FreshlyMounted blankOpts 512 s ∧ MeetsUsers UserCall.Admitted (.fresh s) calls := by
  obtain ⟨s, hmount, hmeets⟩ := Option.map_eq_some_iff.1 h
  exact ⟨s, blankMounted_fresh hmount, (of_decide_eq_true hmeets).mono fun _ _ hc => hc.admitted⟩

/-- The file `a` is made, opened, written, unlinked, read, and closed. -/
def unlinkedCalls : List UserCall :=
  [.mknod pathA 0o100000, .open pathA, .write 1 (fun _ => 7) 600 0, .unlink pathA,
    .read 1 (fun _ => 0) 600 0, .release 1]

theorem serves_run_unlinkedCalls : ∃ s, FreshlyMounted blankOpts 512 s ∧ ∃ rs m' T O,
    answers UserCall.perform (.fresh s) unlinkedCalls = some (rs, m') ∧
      rs.length = unlinkedCalls.length ∧ FileTree.Bare T (s.fs.entryStart + 128) ∧
      Allows (OpenTree.Serves Above) ⟨T, []⟩ ((unlinkedCalls.map UserCall.asks).zip rs) O ∧
      (∃ pending, m'.fuse.sys.vol.Shows pending O.tree) ∧
      O.opened = openedIn m'.fuse.map m'.handles ∧ O.Sound Above := by
  obtain ⟨s, hfresh, hcalls⟩ := blankUsers_meets unlinkedCalls (by decide +kernel)
  exact ⟨s, hfresh, serves_run hfresh hcalls⟩

end Sfs
