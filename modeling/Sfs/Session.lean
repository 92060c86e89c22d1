import Sfs.Rename
import Sfs.Write
import Sfs.Format
import Sfs.Lib.Run

/-!
# Sessions

Runs of the operations on a mounted unit.  A session keeps, next to the unit,
the offsets that `sfs_unlink` returned and `sfs_delete` has not been given yet.

* `Op.step` is one operation;
* `Change` says what an operation does to a well-formed volume, and
  `step_change` that every operation whose arguments are in order does it;
* `Change.sound` says that the volume stays well formed.

`Op.Safe` is what must hold of a state for an operation not to damage the
volume: `sfs_rename` frees the blocks of the file it renames, `sfs_truncate`
takes a number of bytes for a number of blocks when a file shrinks, and both
`sfs_write` and `sfs_truncate` lose the old blocks of a file when there is no
slot to record them in.
-/

namespace Sfs

open Lib

/-- The operations that change the volume. -/
inductive Op where
  | creat (path : Buf)
  | mkdir (path : Buf)
  | rmdir (path : Buf)
  | unlink (path : Buf)
  | delete (file : Nat)
  | rename (file : Nat) (newpath : Buf)
  | write (file : Nat) (data : Mem) (size off : Nat)
  | truncate (file size : Nat)

/-- A mounted unit, and the files that are unlinked and not deleted. -/
structure Session where
  sys : Sys
  pending : List Nat

namespace Op

/-- The session after an operation; `none` when it does not return. -/
def step (s : Session) : Op → Option Session
  | creat path => (s.sys.exec (sfsCreat path)).map fun x => { s with sys := x.2 }
  | mkdir path => (s.sys.exec (sfsMkdir path)).map fun x => { s with sys := x.2 }
  | rmdir path => (s.sys.exec (sfsRmdir path)).map fun x => { s with sys := x.2 }
  | unlink path => (s.sys.exec (sfsUnlink path)).map fun x =>
    { sys := x.2, pending := if x.1 = 0 then s.pending else x.1 :: s.pending }
  | delete file => (s.sys.exec (sfsDelete file)).map fun x =>
    { sys := x.2, pending := s.pending.erase file }
  | rename file newpath => (s.sys.exec (sfsRename file newpath)).map fun x => { s with sys := x.2 }
  | write file data size off =>
    (s.sys.exec (sfsWrite file data size off)).map fun x => { s with sys := x.2 }
  | truncate file size => (s.sys.exec (sfsTruncate file size)).map fun x => { s with sys := x.2 }

end Op

/-- The slot is the head of a live file. -/
def Vol.LiveFile (v : Vol) (file : Nat) : Prop :=
  v.Slot file ∧ v.type file = EntryType.fileEntry.code

theorem Vol.LiveFile.head {v : Vol} {file : Nat} (h : v.LiveFile file) : v.Head file :=
  Or.inr (Or.inl h.2)

theorem Vol.LiveFile.isFile {v : Vol} {nodes : List Nat} {file : Nat} (h : v.LiveFile file) :
    v.IsFile nodes file := ⟨h.1, Or.inl h.2⟩

namespace Op

/-- The arguments are in order: a new path is in a buffer as `new_path` makes
it, a file is live, and a deleted file was unlinked. -/
def Accepts (v : Vol) (pending : List Nat) : Op → Prop
  | creat path | mkdir path => GoodPath path
  | rmdir _ | unlink _ => True
  | delete file => file ∈ pending
  | rename file newpath => v.LiveFile file ∧ GoodPath newpath
  | write file _ size off => v.LiveFile file ∧ off + size < 9223372036854775808
  | truncate file _ => v.LiveFile file

/-- The operation does not damage the volume. -/
def Safe (v : Vol) : Op → Prop
  | rename file newpath => v.Renames newpath → v.get file .size = 0
  | write file _ size off => ∀ nodes, FreeList v nodes →
    v.GrowsSafely nodes file (max (v.get file .size) (off + size))
  | truncate file size => ∀ nodes, FreeList v nodes → v.TruncatesSafely nodes file size
  | _ => True

end Op

/-! ## What an operation does -/

/-- A session between two operations: the volume, the nodes of its list, and the
unlinked files. -/
structure View where
  vol : Vol
  nodes : List Nat
  pending : List Nat

/-- The volume is well formed, and the unlinked files are such. -/
structure View.Sound (V : View) (lo hi : Nat) : Prop
    extends WellFormed V.vol V.nodes lo hi where
  unlinked : ∀ f, f ∈ V.pending → V.vol.Pending V.nodes f
  distinct : V.pending.Nodup

/-- The session is at the view, on a device that works. -/
structure Session.At (s : Session) (V : View) : Prop where
  quiet : s.sys.dev.Quiet
  coherent : s.sys.dev.Coherent
  vol : s.sys.vol = V.vol
  pending : s.pending = V.pending

/-- What an operation does to a well-formed volume. -/
inductive Change (lo hi : Nat) (V : View) : Op → View → Prop where
  /-- The operation failed, or had nothing to do. -/
  | same (op : Op) : Change lo hi V op V
  | created {v' : Vol} {q : Buf} {a : Nat} (hadd : V.vol.Added v' fileKind a (cstr q))
      (hpath : IsPath (cstr q)) (hdirs : V.vol.HasDirs (cstr q))
      (hnone : ∀ o, ¬ V.vol.Live o (cstr q))
      (hempty : v'.get a .size = 0 ∧ v'.get a .startBlock = 0 ∧ v'.get a .endBlock = 0) :
      Change lo hi V (.creat q) { V with vol := v' }
  | madeDir {v' : Vol} {q : Buf} {a : Nat} (hadd : V.vol.Added v' dirKind a (cstr q))
      (hpath : IsPath (cstr q)) (hmakes : V.vol.MakesDir q) :
      Change lo hi V (.mkdir q) { V with vol := v' }
  | removed {v' : Vol} {q : Buf} {a : Nat} (hname : Named V.vol dirKind a (cstr q))
      (honly : OnlyUnder V.vol a (cstr q)) (hrel : V.vol.Released v' a) :
      Change lo hi V (.rmdir q) { V with vol := v' }
  | unlinked {v' : Vol} {q : Buf} {a : Nat} (hname : Named V.vol fileKind a (cstr q))
      (htype : V.vol.Retyped v' a .delFileEntry) :
      Change lo hi V (.unlink q) { V with vol := v', pending := a :: V.pending }
  | deleted {v' : Vol} {nodes' : List Nat} {a : Nat}
      (hdel : V.vol.Deleted v' V.nodes nodes' lo hi a) (hmem : a ∈ V.pending) :
      Change lo hi V (.delete a) ⟨v', nodes', V.pending.erase a⟩
  | renamed {v' w : Vol} {q : Buf} {file a : Nat} (hlive : V.vol.LiveFile file)
      (hpath : IsPath (cstr q)) (hgoes : V.vol.Renames q) (hempty : V.vol.get file .size = 0)
      (hren : V.vol.Renamed v' file a (cstr q) w) :
      Change lo hi V (.rename file q) { V with vol := v' }
  | written {v' w : Vol} {nodes' : List Nat} {file size off : Nat} {data : Mem}
      (hlive : V.vol.LiveFile file)
      (hres : V.vol.Resized w V.nodes nodes' lo hi file
        (max (V.vol.get file .size) (off + size)))
      (hstored : v' = w.stored file off data size) :
      Change lo hi V (.write file data size off) ⟨v', nodes', V.pending⟩
  | truncated {v' : Vol} {nodes' : List Nat} {file size : Nat} (hlive : V.vol.LiveFile file)
      (hres : V.vol.Resized v' V.nodes nodes' lo hi file size) :
      Change lo hi V (.truncate file size) ⟨v', nodes', V.pending⟩

/-- What a program does to the volume, a session of a working device does. -/
theorem Session.At.exec {α : Type} {s : Session} {V : View} {p : SfsM α} {Q : α → Vol → Prop}
    (h : s.At V) (hs : V.vol.Sized)
    (hp : ∀ t : Img, t.vol = V.vol → Gives p t fun r t' => Q r t'.vol) :
    ∃ r s', s.sys.exec p = some (r, s') ∧ s'.dev.Quiet ∧ s'.dev.Coherent ∧ Q r s'.vol := by
  have hsized : s.sys.vol.Sized := h.vol ▸ hs
  obtain ⟨r, s', t', hrun, hshow, hQ⟩ :=
    transfer (Sys.shows_img h.quiet h.coherent hsized) (hp s.sys.img h.vol)
  exact ⟨r, s', hrun, hshow.quiet, hshow.coherent, by rw [hshow.vol]; exact hQ⟩

section Step

variable {s : Session} {V : View} {lo hi : Nat}

/-- The operation returns, and does one of the changes. -/
def Session.Changes (s : Session) (lo hi : Nat) (V : View) (op : Op) : Prop :=
  ∃ s' V', op.step s = some s' ∧ s'.At V' ∧ Change lo hi V op V'

theorem step_creat (hat : s.At V) (hV : V.Sound lo hi) {q : Buf} (hq : GoodPath q) :
    s.Changes lo hi V (.creat q) := by
  have hw := hV.toWellFormed
  obtain ⟨r, s', hrun, hquiet, hc, -, hadd, hgood⟩ :=
    hat.exec (p := sfsCreat q) (Q := fun r v' => r.2 = q ∧ Creates V.vol v' fileKind q r.1 ∧
      (r.1 = 0 → IsPath (cstr q) ∧ V.vol.HasDirs (cstr q) ∧ ∀ o, ¬ V.vol.Live o (cstr q)))
      hw.geometry.sized fun t ht => by rw [← ht] at hw ⊢; exact gives_sfsCreat hw.indexed hq
  have hstep : Op.step s (.creat q) = some { s with sys := s' } := by rw [Op.step, hrun]; rfl
  rcases hadd with ⟨-, hvol⟩ | ⟨hr, a, hadd, -, -, hempty⟩
  · exact ⟨_, V, hstep, ⟨hquiet, hc, hvol, hat.pending⟩, .same _⟩
  · obtain ⟨hpath, hdirs, hnone⟩ := hgood hr
    exact ⟨_, { V with vol := s'.vol }, hstep, ⟨hquiet, hc, rfl, hat.pending⟩,
      .created hadd hpath hdirs hnone (hempty rfl)⟩

theorem step_mkdir (hat : s.At V) (hV : V.Sound lo hi) {q : Buf} (hq : GoodPath q) :
    s.Changes lo hi V (.mkdir q) := by
  have hw := hV.toWellFormed
  obtain ⟨r, s', hrun, hquiet, hc, -, hadd, hgood⟩ :=
    hat.exec (p := sfsMkdir q) (Q := fun r v' => r.2 = q ∧ Creates V.vol v' dirKind q r.1 ∧
      (r.1 = 0 → IsPath (cstr q) ∧ V.vol.MakesDir q))
      hw.geometry.sized fun t ht => by rw [← ht] at hw ⊢; exact gives_sfsMkdir hw.indexed hq
  have hstep : Op.step s (.mkdir q) = some { s with sys := s' } := by rw [Op.step, hrun]; rfl
  rcases hadd with ⟨-, hvol⟩ | ⟨hr, a, hadd, -⟩
  · exact ⟨_, V, hstep, ⟨hquiet, hc, hvol, hat.pending⟩, .same _⟩
  · obtain ⟨hpath, hmakes⟩ := hgood hr
    exact ⟨_, { V with vol := s'.vol }, hstep, ⟨hquiet, hc, rfl, hat.pending⟩,
      .madeDir hadd hpath hmakes⟩

theorem step_rmdir (hat : s.At V) (hV : V.Sound lo hi) (q : Buf) :
    s.Changes lo hi V (.rmdir q) := by
  have hw := hV.toWellFormed
  obtain ⟨r, s', hrun, hquiet, hc, h⟩ := hat.exec (p := sfsRmdir q)
    (Q := fun r v' => (r = -1 ∧ v' = V.vol) ∨ (r = 0 ∧ ∃ a, Named V.vol dirKind a (cstr q) ∧
      OnlyUnder V.vol a (cstr q) ∧ V.vol.Released v' a))
      hw.geometry.sized fun t ht => by rw [← ht] at hw ⊢; exact gives_sfsRmdir hw
  have hstep : Op.step s (.rmdir q) = some { s with sys := s' } := by rw [Op.step, hrun]; rfl
  rcases h with ⟨-, hvol⟩ | ⟨-, a, hname, honly, hrel⟩
  · exact ⟨_, V, hstep, ⟨hquiet, hc, hvol, hat.pending⟩, .same _⟩
  · exact ⟨_, { V with vol := s'.vol }, hstep, ⟨hquiet, hc, rfl, hat.pending⟩,
      .removed hname honly hrel⟩

theorem step_unlink (hat : s.At V) (hV : V.Sound lo hi) (q : Buf) :
    s.Changes lo hi V (.unlink q) := by
  have hw := hV.toWellFormed
  obtain ⟨r, s', hrun, hquiet, hc, h⟩ := hat.exec (p := sfsUnlink q)
    (Q := fun r v' => (r = 0 ∧ v' = V.vol) ∨
      (r ≠ 0 ∧ V.vol.First fileKind r (cstr q) ∧ V.vol.Retyped v' r .delFileEntry))
      hw.geometry.sized fun t ht => by rw [← ht] at hw ⊢; exact gives_sfsUnlink hw
  have hstep : Op.step s (.unlink q)
      = some { sys := s', pending := if r = 0 then s.pending else r :: s.pending } := by
    rw [Op.step, hrun]
    rfl
  rcases h with ⟨hr, hvol⟩ | ⟨hr, hname, htype⟩
  · rw [if_pos hr] at hstep
    exact ⟨_, V, hstep, ⟨hquiet, hc, hvol, hat.pending⟩, .same _⟩
  · rw [if_neg hr] at hstep
    exact ⟨_, { V with vol := s'.vol, pending := r :: V.pending }, hstep,
      ⟨hquiet, hc, rfl, congrArg (r :: ·) hat.pending⟩, .unlinked hname.1 htype⟩

theorem step_delete (hat : s.At V) (hV : V.Sound lo hi) {a : Nat} (ha : a ∈ V.pending) :
    s.Changes lo hi V (.delete a) := by
  have hb := hV.toWellFormed.toBlocks
  have hfile := (hV.unlinked a ha).isFile
  obtain ⟨r, s', hrun, hquiet, hc, -, nodes', hdel⟩ := hat.exec (p := sfsDelete a)
    (Q := fun r v' => r = 0 ∧ ∃ nodes', V.vol.Deleted v' V.nodes nodes' lo hi a)
      hb.geometry.sized fun t ht => by rw [← ht] at hb hfile ⊢; exact gives_sfsDelete hb hfile
  have hstep : Op.step s (.delete a) = some { sys := s', pending := s.pending.erase a } := by
    rw [Op.step, hrun]
    rfl
  exact ⟨_, ⟨s'.vol, nodes', V.pending.erase a⟩, hstep,
    ⟨hquiet, hc, rfl, congrArg (List.erase · a) hat.pending⟩, .deleted hdel ha⟩

theorem step_rename (hat : s.At V) (hV : V.Sound lo hi) {file : Nat} {q : Buf}
    (hlive : V.vol.LiveFile file) (hq : GoodPath q)
    (hsafe : V.vol.Renames q → V.vol.get file .size = 0) :
    s.Changes lo hi V (.rename file q) := by
  have hw := hV.toWellFormed
  have hfile : V.vol.IsFile V.nodes file := hlive.isFile
  obtain ⟨r, s', hrun, hquiet, hc, -, h⟩ := hat.exec (p := sfsRename file q)
    (Q := fun r v' => r.2 = q ∧ ((r.1 = 0 ∧ v' = V.vol) ∨
      (r.1 ≠ 0 ∧ IsPath (cstr q) ∧ V.vol.Renames q ∧ V.vol.get file .size = 0 ∧
        ∃ w, V.vol.Renamed v' file r.1 (cstr q) w)))
      hw.geometry.sized fun t ht => by
        rw [← ht] at hw hfile hsafe ⊢
        exact gives_sfsRename hw hfile hq hsafe
  have hstep : Op.step s (.rename file q) = some { s with sys := s' } := by
    rw [Op.step, hrun]
    rfl
  rcases h with ⟨-, hvol⟩ | ⟨-, hpath, hgoes, hempty, w, hren⟩
  · exact ⟨_, V, hstep, ⟨hquiet, hc, hvol, hat.pending⟩, .same _⟩
  · exact ⟨_, { V with vol := s'.vol }, hstep, ⟨hquiet, hc, rfl, hat.pending⟩,
      .renamed hlive hpath hgoes hempty hren⟩

theorem step_write (hat : s.At V) (hV : V.Sound lo hi) {file size off : Nat}
    (hlive : V.vol.LiveFile file) (hlt : off + size < 9223372036854775808)
    (hsafe : V.vol.GrowsSafely V.nodes file (max (V.vol.get file .size) (off + size)))
    (data : Mem) : s.Changes lo hi V (.write file data size off) := by
  have hb := hV.toWellFormed.toBlocks
  have hfile : V.vol.IsFile V.nodes file := hlive.isFile
  obtain ⟨r, s', hrun, hquiet, hc, h⟩ := hat.exec (p := sfsWrite file data size off)
    (Q := fun r v' => (r = minusOne ∧ v' = V.vol) ∨
      (r = size ∧ ∃ w nodes', V.vol.Resized w V.nodes nodes' lo hi file
        (max (V.vol.get file .size) (off + size)) ∧ v' = w.stored file off data size))
      hb.geometry.sized fun t ht => by
        rw [← ht] at hb hfile hsafe ⊢
        exact gives_sfsWrite hb hfile (by omega) (hb.written_lt hfile hlt) hsafe data
  have hstep : Op.step s (.write file data size off) = some { s with sys := s' } := by
    rw [Op.step, hrun]
    rfl
  rcases h with ⟨-, hvol⟩ | ⟨-, w, nodes', hres, hstored⟩
  · exact ⟨_, V, hstep, ⟨hquiet, hc, hvol, hat.pending⟩, .same _⟩
  · exact ⟨_, ⟨s'.vol, nodes', V.pending⟩, hstep, ⟨hquiet, hc, rfl, hat.pending⟩,
      .written hlive hres hstored⟩

theorem step_truncate (hat : s.At V) (hV : V.Sound lo hi) {file size : Nat}
    (hlive : V.vol.LiveFile file) (hsafe : V.vol.TruncatesSafely V.nodes file size) :
    s.Changes lo hi V (.truncate file size) := by
  have hb := hV.toWellFormed.toBlocks
  have hfile : V.vol.IsFile V.nodes file := hlive.isFile
  obtain ⟨r, s', hrun, hquiet, hc, h⟩ := hat.exec (p := sfsTruncate file size)
    (Q := fun r v' => (r = -1 ∧ v' = V.vol) ∨
      (r = 0 ∧ ∃ nodes', V.vol.Resized v' V.nodes nodes' lo hi file size))
      hb.geometry.sized fun t ht => by
        rw [← ht] at hb hfile hsafe ⊢
        exact gives_sfsTruncate hb hfile hsafe
  have hstep : Op.step s (.truncate file size) = some { s with sys := s' } := by
    rw [Op.step, hrun]
    rfl
  rcases h with ⟨-, hvol⟩ | ⟨-, nodes', hres⟩
  · exact ⟨_, V, hstep, ⟨hquiet, hc, hvol, hat.pending⟩, .same _⟩
  · exact ⟨_, ⟨s'.vol, nodes', V.pending⟩, hstep, ⟨hquiet, hc, rfl, hat.pending⟩,
      .truncated hlive hres⟩

/-- Every operation whose arguments are in order, and that is safe, does one of
the changes. -/
theorem step_change (hat : s.At V) (hV : V.Sound lo hi) {op : Op}
    (hacc : op.Accepts V.vol V.pending) (hsafe : op.Safe V.vol) : s.Changes lo hi V op := by
  have hlist := hV.toWellFormed.space.toFreeList
  cases op with
  | creat q => exact step_creat hat hV hacc
  | mkdir q => exact step_mkdir hat hV hacc
  | rmdir q => exact step_rmdir hat hV q
  | unlink q => exact step_unlink hat hV q
  | delete a => exact step_delete hat hV hacc
  | rename file q => exact step_rename hat hV hacc.1 hacc.2 hsafe
  | write file data size off =>
    exact step_write hat hV hacc.1 hacc.2 (hsafe V.nodes hlist) data
  | truncate file size => exact step_truncate hat hV hacc (hsafe V.nodes hlist)

end Step

/-! ## Sound sessions -/

namespace View.Sound

variable {V : View} {v' w : Vol} {nodes' : List Nat} {lo hi a o : Nat} {s : Buf}

/-- A slot that is no unlinked file is not in the list of those. -/
theorem not_mem (h : V.Sound lo hi) (ha : ¬ V.vol.Pending V.nodes a) : a ∉ V.pending :=
  fun hmem => ha (h.unlinked a hmem)

/-- A change of one group that is no unlinked file. -/
theorem of_keeps (h : V.Sound lo hi) (hk : V.vol.Keeps v' V.nodes nodes' a)
    (hw : WellFormed v' nodes' lo hi) (ha : ¬ V.vol.Pending V.nodes a) :
    View.Sound ⟨v', nodes', V.pending⟩ lo hi :=
  ⟨hw, fun f hf => hk.pending (fun heq => h.not_mem ha (heq ▸ hf)) (h.unlinked f hf), h.distinct⟩

end View.Sound

theorem Vol.Added.not_pending {v v' : Vol} {nodes : List Nat} {kind : NameKind} {a : Nat} {s : Buf}
    (h : v.Added v' kind a s) : ¬ v.Pending nodes a := fun hp => h.not_head hp.isFile.head

theorem Vol.LiveFile.not_pending {v : Vol} {nodes : List Nat} {a : Nat} (h : v.LiveFile a) :
    ¬ v.Pending nodes a := fun hp => absurd (h.2.symm.trans hp.2.1) (by decide)

theorem Vol.IsDir.not_pending {v : Vol} {nodes : List Nat} {a : Nat} (h : v.IsDir a) :
    ¬ v.Pending nodes a := fun hp => h.not_isFile hp.isFile

theorem Named.isDir {v : Vol} {a : Nat} {s : Buf} (h : Named v dirKind a s) : v.IsDir a :=
  ⟨h.slot, h.type⟩

theorem Named.liveFile {v : Vol} {a : Nat} {s : Buf} (h : Named v fileKind a s) : v.LiveFile a :=
  ⟨h.slot, h.type⟩

/-- A directory is no node of the list. -/
theorem Vol.IsDir.not_mem {v : Vol} {nodes : List Nat} {a : Nat} (h : v.IsDir a)
    (hf : FreeList v nodes) : a ∉ nodes := fun hmem =>
  absurd (h.2.symm.trans (hf.type a hmem)) (by decide)

namespace Vol.Renamed

variable {v v' w : Vol} {nodes : List Nat} {lo hi file a : Nat} {s : Buf}

/-- A renamed file keeps the volume well formed. -/
theorem wellFormed (h : v.Renamed v' file a s w) (hw : WellFormed v nodes lo hi)
    (hfile : v.IsFile nodes file) (hpath : IsPath s) : WellFormed v' nodes lo hi := by
  have hnot := hfile.not_mem hw.space.toFreeList
  exact h.added.wellFormed (Or.inl rfl) hpath (h.released.wellFormed hw hnot)
    fun _ => ⟨h.size, h.start, h.stop⟩

end Vol.Renamed

/-- Storing bytes of a file keeps the volume well formed. -/
theorem WellFormed.stored {v : Vol} {nodes : List Nat} {lo hi file off size : Nat}
    (hw : WellFormed v nodes lo hi) (hfile : v.IsFile nodes file)
    (hle : off + size ≤ v.get file .size) (data : Mem) :
    WellFormed (v.stored file off data size) nodes lo hi :=
  (hw.toBlocks.stored_sameIndex hfile hle data).wellFormed hw

/-- An operation keeps the areas of the volume. -/
theorem Change.sameArea {V V' : View} {lo hi : Nat} {op : Op} (h : Change lo hi V op V') :
    SameArea V.vol V'.vol := by
  cases h with
  | same => exact SameArea.refl _
  | created hadd | madeDir hadd => exact hadd.area
  | removed _ _ hrel => exact hrel.area
  | unlinked _ htype => exact htype.area
  | deleted hdel => exact hdel.keeps.area
  | renamed _ _ _ _ hren => exact hren.released.area.trans hren.added.area
  | written _ hres hstored =>
    subst hstored
    exact hres.keeps.area.trans ⟨rfl, rfl, rfl, rfl⟩
  | truncated _ hres => exact hres.keeps.area

/-- An operation keeps a session sound. -/
theorem Change.sound {V V' : View} {lo hi : Nat} {op : Op} (h : Change lo hi V op V')
    (hV : V.Sound lo hi) : V'.Sound lo hi := by
  have hw := hV.toWellFormed
  have hl := hw.layout
  have hf := hw.space.toFreeList
  cases h with
  | same => exact hV
  | created hadd hpath hdirs hnone hempty =>
    exact hV.of_keeps (hadd.keeps hl) (hadd.wellFormed (Or.inl rfl) hpath hw fun _ => hempty)
      hadd.not_pending
  | madeDir hadd hpath hmakes =>
    exact hV.of_keeps (hadd.keeps hl)
      (hadd.wellFormed (Or.inr rfl) hpath hw fun h => absurd h (by decide)) hadd.not_pending
  | removed hname honly hrel =>
    exact hV.of_keeps (hrel.keeps hl) (hrel.wellFormed hw (hname.isDir.not_mem hf))
      hname.isDir.not_pending
  | @unlinked v' q a hname htype =>
    have hfile : V.vol.IsFile V.nodes a := hname.liveFile.isFile
    have hnot := hV.not_mem hname.liveFile.not_pending
    refine ⟨htype.wellFormed hw hfile (Or.inr rfl), fun f hmem => ?_,
      List.nodup_cons.2 ⟨hnot, hV.distinct⟩⟩
    rcases List.mem_cons.1 hmem with rfl | hmem
    · exact ⟨htype.area.slot.2 htype.slot, htype.type, hfile.not_mem hf⟩
    · exact (htype.keeps hl).pending (fun heq => hnot (heq ▸ hmem)) (hV.unlinked f hmem)
  | @deleted v' nodes' a hdel hmem =>
    refine ⟨hdel.wellFormed hw, fun f hmem' => ?_, hV.distinct.erase a⟩
    obtain ⟨hne, hmem'⟩ := hV.distinct.mem_erase_iff.1 hmem'
    exact hdel.keeps.pending hne (hV.unlinked f hmem')
  | @renamed v' w q file a hlive hpath hgoes hempty hren =>
    have hfile : V.vol.IsFile V.nodes file := hlive.isFile
    have hmid := hV.of_keeps (hren.released.keeps hl)
      (hren.released.wellFormed hw (hfile.not_mem hf)) hlive.not_pending
    exact hmid.of_keeps (hren.added.keeps hmid.layout) (hren.wellFormed hw hfile hpath)
      hren.added.not_pending
  | @written v' w nodes' file size off data hlive hres hstored =>
    have hfile : V.vol.IsFile V.nodes file := hlive.isFile
    have hmid := hV.of_keeps hres.keeps (hres.wellFormed hw hfile) hlive.not_pending
    have hfit : off + size ≤ w.get file .size := by
      rw [hres.size]
      exact Nat.le_max_right _ _
    have hsame := hres.blocks.stored_sameIndex hres.isFile hfit data
    subst hstored
    exact View.Sound.of_keeps (V := ⟨w, nodes', V.pending⟩) hmid (a := 0) (hsame.keeps 0)
      (hmid.toWellFormed.stored hres.isFile hfit data)
      fun hp => absurd (hmid.geometry.slot_pos hp.1) (Nat.lt_irrefl 0)
  | truncated hlive hres =>
    exact hV.of_keeps hres.keeps (hres.wellFormed hw hlive.isFile) hlive.not_pending

/-! ## Runs -/

/-- A session of a working device, at a sound view. -/
def Session.Sound (s : Session) (lo hi : Nat) : Prop := ∃ V, s.At V ∧ V.Sound lo hi

/-- The operations of a list, each of which meets a condition on the volume and
the unlinked files it finds. -/
abbrev MeetsOps (C : Vol → List Nat → Op → Prop) (s : Session) (ops : List Op) : Prop :=
  Meets Op.step (fun s op => C s.sys.vol s.pending op) s ops

/-- A run of operations in order, that are safe, returns; its states are sound,
and what every change keeps holds in all of them. -/
theorem run_changes {C : Vol → List Nat → Op → Prop} {I : View → Prop} {lo hi : Nat}
    (hC : ∀ V op, V.Sound lo hi → I V → C V.vol V.pending op →
      op.Accepts V.vol V.pending ∧ op.Safe V.vol)
    (hI : ∀ V V' op, V.Sound lo hi → I V → C V.vol V.pending op → Change lo hi V op V' → I V')
    {s : Session} {V : View} (hat : s.At V) (hV : V.Sound lo hi) (hIV : I V) {ops : List Op}
    (hops : MeetsOps C s ops) (n : Nat) :
    ∃ s' V', run Op.step s (ops.take n) = some s' ∧ s'.At V' ∧ V'.Sound lo hi ∧ I V' := by
  obtain ⟨s', hrun, V', h⟩ := run_invariant (f := Op.step)
    (I := fun s => ∃ V, s.At V ∧ V.Sound lo hi ∧ I V)
    (C := fun s op => C s.sys.vol s.pending op)
    (fun s op ⟨V, hat, hV, hIV⟩ hop => by
      rw [hat.vol, hat.pending] at hop
      obtain ⟨hacc, hsafe⟩ := hC V op hV hIV hop
      obtain ⟨s', V', hstep, hat', hch⟩ := step_change hat hV hacc hsafe
      exact ⟨s', hstep, V', hat', hch.sound hV, hI V V' op hV hIV hop hch⟩)
    ⟨V, hat, hV, hIV⟩ hops n
  exact ⟨s', V', hrun, h⟩

/-- A run of operations in order, that are safe, keeps a session sound. -/
theorem Session.Sound.run {s s' : Session} {lo hi : Nat} (hs : s.Sound lo hi) {ops : List Op}
    (hops : MeetsOps (fun v p op => op.Accepts v p ∧ op.Safe v) s ops)
    (hrun : Lib.run Op.step s ops = some s') : s'.Sound lo hi := by
  obtain ⟨V, hat, hV⟩ := hs
  obtain ⟨s₁, V₁, hrun₁, hat₁, hV₁, -⟩ := run_changes (I := fun _ => True)
    (C := fun v p op => op.Accepts v p ∧ op.Safe v) (fun _ _ _ _ h => h)
    (fun _ _ _ _ _ _ _ => trivial) hat hV trivial hops ops.length
  rw [List.take_length, hrun] at hrun₁
  cases hrun₁
  exact ⟨V₁, hat₁, hV₁⟩

/-! ## The first mount -/

/-- The unit after `mksfs` made an image on a device that works and `sfs_init`
mounted it from one. -/
inductive FreshlyMounted (opts : SfsOptions) (bs : Nat) : Sys → Prop where
  | mount {fileSize now : Nat} {blockSizeS indexSizeS : Option Scanned} {label : Buf}
      {s₀ s₁ s₂ s : Sys} (hfile : fileSize < 9223372036854775808)
      (hbs : mksfsBlockSize blockSizeS = some bs) (hmax : bs ≤ 2 ^ 30)
      (hopts : mksfsOptions fileSize blockSizeS indexSizeS label now = some opts)
      (hquiet : s₀.dev.Quiet) (hcoherent : s₀.dev.Coherent) (hblock : s₀.dev.blockSize = bs)
      (hsize : s₀.dev.size = fileSize) (hcreate : s₀.exec (imageCreate opts) = some (0, s₁))
      (hquiet' : s₂.dev.Quiet) (hcoherent' : s₂.dev.Coherent) (hblock' : s₂.dev.blockSize = bs)
      (hsize' : s₂.dev.size = fileSize) (hdata : s₂.dev.data = s₁.dev.data)
      (hinit : s₂.exec sfsInit = some (0, s)) : FreshlyMounted opts bs s

/-- The volume is a fresh one. -/
theorem FreshlyMounted.fresh {opts : SfsOptions} {bs : Nat} {s : Sys}
    (h : FreshlyMounted opts bs s) : s.dev.Quiet ∧ s.dev.Coherent ∧ Fresh s.vol opts bs := by
  obtain ⟨hfile, hbs, hmax, hopts, hq, hco, hb, hsz, hcreate, hq', hco', hb', hsz', hdata, hinit⟩ :=
    h
  rename_i s₀ s₁ s₂
  have hc := mksfsOptions_consistent hfile hbs hmax hopts
  have hsized : ∀ s : Sys, s.dev.blockSize = bs → s.dev.size = _ → s.vol.Sized :=
    fun s => sized_of_mksfs hbs hc hfile
  obtain ⟨r₁, s₁', t₁, hrun₁, hshow₁, -, -, hsz₁, him⟩ :=
    transfer (Sys.shows_img hq hco (hsized s₀ hb hsz))
      (gives_imageCreate (hsized s₀ hb hsz) hb (hsz ▸ hc))
  rw [hcreate] at hrun₁
  cases hrun₁
  have him' : Image s₂.vol.data opts (s₂.vol.size - opts.indexSize) (s₂.vol.size - 64) := by
    show Image s₂.dev.data opts (s₂.dev.size - opts.indexSize) (s₂.dev.size - 64)
    have hsize : s₀.img.vol.size = _ := hsz
    rw [hdata, hshow₁.data, hsz', ← hsize]
    exact him
  obtain ⟨r₃, s₃, t₃, hrun₃, hshow₃, -, hfresh, -⟩ :=
    transfer (Sys.shows_img hq' hco' (hsized s₂ hb' hsz'))
      (gives_mountImage (t := s₂.img) (hsized s₂ hb' hsz') hb' (by
        show Consistent opts bs s₂.dev.size
        rw [hsz']
        exact hc) him' rfl)
  rw [hinit] at hrun₃
  cases hrun₃
  exact ⟨hshow₃.quiet, hshow₃.coherent, hshow₃.vol ▸ hfresh⟩

namespace Fresh

variable {v : Vol} {opts : SfsOptions} {bs off : Nat} {s : Buf}

/-- The index of a fresh volume has no file. -/
theorem not_isFile (h : Fresh v opts bs) : ¬ v.IsFile [v.fs.entryStart + 64] off := by
  intro ⟨hslot, htype⟩
  rw [h.type_eq hslot, List.mem_singleton] at htype
  split at htype
  · rcases htype with ht | ⟨ht, -⟩ <;> exact absurd ht (by decide)
  · split at htype
    · rename_i heq
      rcases htype with ht | ⟨-, hne⟩
      · exact absurd ht (by decide)
      · exact hne heq
    · split at htype <;> rcases htype with ht | ⟨ht, -⟩ <;> exact absurd ht (by decide)

/-- Its only directory is the root. -/
theorem eq_root (h : Fresh v opts bs) (hdir : v.IsDir off) : off = v.fs.entryStart + 128 := by
  obtain ⟨hslot, htype⟩ := hdir
  rw [h.type_eq hslot] at htype
  split at htype
  · exact absurd htype (by decide)
  · split at htype
    · exact absurd htype (by decide)
    · split at htype
      · assumption
      · exact absurd htype (by decide)

theorem slot_root (h : Fresh v opts bs) : v.Slot (v.fs.entryStart + 128) := by
  have hle := h.slots_le
  have hal := h.geometry.start_aligned
  exact ⟨Nat.le_add_right _ _, by omega, by omega⟩

/-- The root has the empty name. -/
theorem root_named (h : Fresh v opts bs) : Named v dirKind (v.fs.entryStart + 128) [] := by
  have hslot := h.slot_root
  have hcont := h.cont_eq hslot
  refine ⟨⟨⟨fun i hi => absurd hi (Nat.not_lt_zero i), fun _ hc => (nomatch hc), ?_⟩, ?_, ?_⟩,
    hslot, ?_⟩
  · exact h.root dirKind.name (by decide)
  · rw [hcont]
    decide
  · intro j hj hj'
    rw [hcont] at hj'
    omega
  · rw [h.type_eq hslot, if_neg (by omega), if_neg (by omega), if_pos rfl]

/-- The root is the only thing with a path. -/
theorem live_root (h : Fresh v opts bs) (hlive : v.Live off s) :
    off = v.fs.entryStart + 128 ∧ s = [] := by
  rcases hlive with hn | hn
  · exact absurd hn.liveFile.isFile h.not_isFile
  · obtain rfl := h.eq_root hn.isDir
    exact ⟨rfl, hn.toHasName.unique h.root_named.toHasName⟩

/-- A fresh volume is well formed. -/
theorem wellFormed (h : Fresh v opts bs) :
    WellFormed v [v.fs.entryStart + 64] opts.reservedSize (opts.reservedSize + opts.dataSize) := by
  refine ⟨⟨h.geometry, h.layout, h.freeSpace, fun _ ho => absurd ho h.not_isFile,
    fun _ ho => absurd ho h.not_isFile, fun _ _ ho => absurd ho h.not_isFile⟩,
    fun _ ho => absurd ho h.not_isFile, fun off hdir => ?_⟩
  rw [h.eq_root hdir]
  exact ⟨[], h.root_named.toHasName, fun c hc => nomatch hc⟩

/-- A session that starts on a fresh volume is sound. -/
theorem sound (h : Fresh v opts bs) :
    View.Sound ⟨v, [v.fs.entryStart + 64], []⟩ opts.reservedSize
      (opts.reservedSize + opts.dataSize) :=
  ⟨h.wellFormed, fun _ hf => (nomatch hf), List.nodup_nil⟩

end Fresh

/-- A session that starts when the unit is mounted for the first time. -/
theorem FreshlyMounted.start {opts : SfsOptions} {bs : Nat} {s : Sys}
    (h : FreshlyMounted opts bs s) :
    Session.At ⟨s, []⟩ ⟨s.vol, [s.fs.entryStart + 64], []⟩ ∧
      View.Sound ⟨s.vol, [s.fs.entryStart + 64], []⟩ opts.reservedSize
        (opts.reservedSize + opts.dataSize) := by
  obtain ⟨hq, hc, hfresh⟩ := h.fresh
  exact ⟨⟨hq, hc, rfl, rfl⟩, hfresh.sound⟩

/-- The path `a`. -/
def pathA : Buf := [0x61, 0]

theorem pathA_good : GoodPath pathA := by
  refine ⟨fun i hi => ?_, by decide⟩
  have hi' : 1 ≤ i := hi
  match i, hi' with
  | 1, _ => rfl
  | i + 2, _ => rfl

/-- The path `b`. -/
def pathB : Buf := [0x62, 0]

/-- The path `a/c`. -/
def pathAC : Buf := [0x61, 0x2F, 0x63, 0]

/-- The options of `mksfs` for the small disk of zeros. -/
def blankOpts : SfsOptions where
  timeStamp := 7
  dataSize := 6
  indexSize := 512
  totalBlock := 8
  reservedSize := 1
  blockSize := 2
  label := [0]

/-- Two files, of two blocks and of one. -/
def twoFiles : List Op :=
  [.creat pathA, .write 3776 (fun _ => 7) 600 0, .creat pathB, .write 3840 (fun _ => 9) 500 0]

theorem mksfsOptions_blankOpts : mksfsOptions 4096 none none [0] 7 = some blankOpts := rfl

/-- The small disk of zeros, formatted and mounted. -/
def blankMounted : Option Sys := do
  let opts ← mksfsOptions 4096 none none [0] 7
  let (ret, s₁) ← blankDisk.exec (imageCreate opts)
  if ret ≠ 0 then none
  else
    let (ret, s) ←
      Sys.exec { blankDisk with dev := { blankDisk.dev with data := s₁.dev.data } } sfsInit
    if ret ≠ 0 then none else some s

/-- A run of a session on it. -/
def blankRun (ops : List Op) : Option Session := blankMounted.bind fun s => run Op.step ⟨s, []⟩ ops

/-- A device, formatted with the options and mounted. -/
def formatAndMount (disk : Sys) (opts : SfsOptions) : Option Sys := do
  let (ret, s₁) ← disk.exec (imageCreate opts)
  if ret ≠ 0 then none
  else
    let (ret, s) ← Sys.exec { disk with dev := { disk.dev with data := s₁.dev.data } } sfsInit
    if ret ≠ 0 then none else some s

theorem formatAndMount_fresh {disk s : Sys} {opts : SfsOptions} {bs now : Nat}
    {blockSizeS indexSizeS : Option Scanned} {label : Buf} (hquiet : disk.dev.Quiet)
    (hcache : disk.dev.bufNum = none) (hblock : disk.dev.blockSize = bs)
    (hfile : disk.dev.size < 9223372036854775808) (hbs : mksfsBlockSize blockSizeS = some bs)
    (hmax : bs ≤ 2 ^ 30)
    (hopts : mksfsOptions disk.dev.size blockSizeS indexSizeS label now = some opts)
    (h : formatAndMount disk opts = some s) : FreshlyMounted opts bs s := by
  obtain ⟨⟨ret, s₁⟩, hcreate, h⟩ := Option.bind_eq_some_iff.1 h
  dsimp only at h
  split at h
  · cases h
  · rename_i hret
    obtain ⟨⟨ret', s₂⟩, hinit, h⟩ := Option.bind_eq_some_iff.1 h
    dsimp only at h
    split at h
    · cases h
    · rename_i hret'
      cases h
      rw [not_not.1 hret] at hcreate
      rw [not_not.1 hret'] at hinit
      refine .mount hfile hbs hmax hopts hquiet (BlockDev.coherent_of_none hcache) hblock rfl
        hcreate ?_ (BlockDev.coherent_of_none ?_) ?_ ?_ ?_ hinit
      · exact hquiet
      · exact hcache
      · exact hblock
      · rfl
      · rfl

theorem blankMounted_fresh {s : Sys} (h : blankMounted = some s) :
    FreshlyMounted blankOpts 512 s := by
  unfold blankMounted at h
  obtain ⟨opts, hopts, h⟩ := Option.bind_eq_some_iff.1 h
  cases mksfsOptions_blankOpts.symm.trans hopts
  exact formatAndMount_fresh (fun _ => rfl) rfl (rfl : blankDisk.dev.blockSize = 512) (by decide)
    (rfl : mksfsBlockSize none = some 512) (by decide) hopts h

theorem exists_blankMounted : ∃ s, FreshlyMounted blankOpts 512 s := by
  have hsome : blankMounted.isSome = true := by decide +kernel
  obtain ⟨s, hs⟩ := Option.isSome_iff_exists.1 hsome
  exact ⟨s, blankMounted_fresh hs⟩

/-- What a run of a session on the small disk leaves, with the mounted disk it
started from. -/
theorem blankRun_eq {α : Type} {ops : List Op} {view : Session → α} {x : α}
    (h : (blankRun ops).map view = some x) :
    ∃ s s', FreshlyMounted blankOpts 512 s ∧ blankMounted = some s ∧
      run Op.step ⟨s, []⟩ ops = some s' ∧ view s' = x := by
  obtain ⟨s', hrun, hview⟩ := Option.map_eq_some_iff.1 h
  obtain ⟨s, hmount, hrun⟩ := Option.bind_eq_some_iff.1 hrun
  exact ⟨s, s', blankMounted_fresh hmount, hmount, hrun, hview⟩

/-- The small disk after operations in order, that are safe. -/
theorem blankRun_wellFormed {ops : List Op} {s : Sys} {s' : Session}
    (hfresh : FreshlyMounted blankOpts 512 s)
    (hops : MeetsOps (fun v p op => op.Accepts v p ∧ op.Safe v) ⟨s, []⟩ ops)
    (hrun : run Op.step ⟨s, []⟩ ops = some s') :
    s'.sys.dev.Quiet ∧ s'.sys.dev.Coherent ∧ ∃ nodes, WellFormed s'.sys.vol nodes 1 7 := by
  obtain ⟨hat, hV⟩ := hfresh.start
  obtain ⟨V, hat', hV'⟩ := Session.Sound.run ⟨_, hat, hV⟩ hops hrun
  refine ⟨hat'.quiet, hat'.coherent, V.nodes, ?_⟩
  rw [hat'.vol]
  exact hV'.toWellFormed

instance (q : Buf) : Decidable (GoodPath q) :=
  decidable_of_iff ((∀ i, i < q.length → strlen q ≤ i → q.char i = 0) ∧ strlen q < 16256)
    ⟨fun h => ⟨fun i hi =>
      (Nat.lt_or_ge i q.length).elim (fun hlt => h.1 i hlt hi) char_of_length_le, h.2⟩,
    fun h => ⟨fun i _ hi => h.padded i hi, h.short⟩⟩

instance (v : Vol) (off : Nat) : Decidable (v.Slot off) :=
  decidable_of_iff (v.fs.entryStart ≤ off ∧ off < v.fs.volIdent ∧ off % 64 = 0)
    ⟨fun h => ⟨h.1, h.2.1, h.2.2⟩, fun h => ⟨h.ge, h.lt, h.aligned⟩⟩

instance (v : Vol) (file : Nat) : Decidable (v.LiveFile file) :=
  inferInstanceAs (Decidable (v.Slot file ∧ v.type file = EntryType.fileEntry.code))

instance (m : Mem) (p : Nat) (s : Buf) : Decidable (HoldsStr m p s) :=
  decidable_of_iff ((∀ i, (h : i < s.length) → m (p + i) = s[i]) ∧ 0 ∉ s ∧ m (p + s.length) = 0)
    ⟨fun h => ⟨h.1, fun _ hc hz => h.2.1 (hz ▸ hc), h.2.2⟩,
      fun h => ⟨h.char, fun hz => h.ne_zero 0 hz rfl, h.nul⟩⟩

instance (v : Vol) (kind : NameKind) (off : Nat) (s : Buf) : Decidable (Named v kind off s) :=
  decidable_of_iff ((HoldsStr v.data (off + kind.name) s ∧
      kind.name + s.length < 64 * (v.cont off + 1) ∧ ∀ j, j < v.cont off + 1 → 0 < j →
        kind.name + s.length < 64 * j → v.data (off + 64 * j) = 0) ∧
      v.Slot off ∧ v.type off = kind.type.code)
    ⟨fun h => ⟨⟨h.1.1, h.1.2.1, fun j hj hj' => h.1.2.2 j (Nat.lt_succ_of_le hj') hj⟩, h.2.1,
        h.2.2⟩,
      fun h => ⟨⟨h.str, h.room, fun j hj hj' => h.tail j hj' (Nat.le_of_lt_succ hj)⟩, h.slot,
        h.type⟩⟩

instance Op.decidableAccepts (v : Vol) (pending : List Nat) :
    (op : Op) → Decidable (op.Accepts v pending)
  | creat q | mkdir q => inferInstanceAs (Decidable (GoodPath q))
  | rmdir _ | unlink _ => isTrue trivial
  | delete file => inferInstanceAs (Decidable (file ∈ pending))
  | rename file q => inferInstanceAs (Decidable (v.LiveFile file ∧ GoodPath q))
  | write file _ size off =>
    inferInstanceAs (Decidable (v.LiveFile file ∧ off + size < 9223372036854775808))
  | truncate file _ => inferInstanceAs (Decidable (v.LiveFile file))

/-- The operations of a run on the small disk meet a decidable condition. -/
theorem blankRun_meets {C : Vol → List Nat → Op → Prop} [∀ v p op, Decidable (C v p op)]
    {ops : List Op} {s : Sys} (hs : blankMounted = some s)
    (h : (blankMounted.map fun s => decide (MeetsOps C ⟨s, []⟩ ops)) = some true) :
    MeetsOps C ⟨s, []⟩ ops := by
  rw [hs] at h
  exact of_decide_eq_true (Option.some.inj h)

/-- The operation takes no blocks from a file, and gives blocks or another name to an
empty one only. -/
def Op.Light (v : Vol) : Op → Prop
  | rename file _ | write file _ _ _ => v.get file .size = 0
  | truncate _ _ => False
  | _ => True

instance Op.decidableLight (v : Vol) : (op : Op) → Decidable (op.Light v)
  | rename file _ | write file _ _ _ => inferInstanceAs (Decidable (v.get file .size = 0))
  | truncate _ _ => isFalse id
  | creat _ | mkdir _ | rmdir _ | unlink _ | delete _ => isTrue trivial

theorem Op.Light.safe {v : Vol} {op : Op} (h : op.Light v) : op.Safe v := by
  cases op with
  | write file _ _ _ => exact fun _ _ hsome => absurd h hsome
  | rename _ _ => exact fun _ => h
  | truncate _ _ => exact h.elim
  | creat _ | mkdir _ | rmdir _ | unlink _ | delete _ => trivial

/-- The small disk after such operations. -/
theorem blankRun_light {ops : List Op} {s : Sys} {s' : Session} (hs : blankMounted = some s)
    (h : (blankMounted.map fun s =>
      decide (MeetsOps (fun v p op => op.Accepts v p ∧ op.Light v) ⟨s, []⟩ ops)) = some true)
    (hrun : run Op.step ⟨s, []⟩ ops = some s') :
    s'.sys.dev.Quiet ∧ s'.sys.dev.Coherent ∧ ∃ nodes, WellFormed s'.sys.vol nodes 1 7 := by
  have hops : MeetsOps (fun v p op => op.Accepts v p ∧ op.Light v) ⟨s, []⟩ ops :=
    blankRun_meets (C := fun v p op => op.Accepts v p ∧ op.Light v) hs h
  exact blankRun_wellFormed (blankMounted_fresh hs)
    (hops.mono fun _ _ hop => ⟨hop.1, hop.2.safe⟩) hrun

/-- The live entries of the kind are those of a list, each with its name. -/
structure Vol.HasNames (v : Vol) (kind : NameKind) (names : List (Nat × Buf)) : Prop where
  named : ∀ x ∈ names, Named v kind x.1 x.2
  listed : ∀ i, i < v.fs.volIdent / 64 + 1 → v.Slot (64 * i) →
    v.type (64 * i) = kind.type.code → 64 * i ∈ names.map Prod.fst

instance (v : Vol) (kind : NameKind) (names : List (Nat × Buf)) :
    Decidable (v.HasNames kind names) :=
  decidable_of_iff ((∀ x ∈ names, Named v kind x.1 x.2) ∧
      ∀ i, i < v.fs.volIdent / 64 + 1 → v.Slot (64 * i) →
        v.type (64 * i) = kind.type.code → 64 * i ∈ names.map Prod.fst)
    ⟨fun h => ⟨h.1, h.2⟩, fun h => ⟨h.named, h.listed⟩⟩

theorem Vol.HasNames.named_iff {v : Vol} {kind : NameKind} {names : List (Nat × Buf)} {o : Nat}
    {p : Buf} (h : v.HasNames kind names) : Named v kind o p ↔ (o, p) ∈ names := by
  refine ⟨fun hn => ?_, h.named (o, p)⟩
  have heq : 64 * (o / 64) = o := Nat.mul_div_cancel' (Nat.dvd_of_mod_eq_zero hn.slot.aligned)
  have hlt := Nat.lt_succ_of_le (Nat.div_le_div_right (c := 64) (Nat.le_of_lt hn.slot.lt))
  have hmem := h.listed (o / 64) hlt (heq.symm ▸ hn.slot) (heq.symm ▸ hn.type)
  rw [heq] at hmem
  obtain ⟨⟨o', p'⟩, hx, rfl⟩ := List.mem_map.1 hmem
  rwa [hn.toHasName.unique (h.named _ hx).toHasName]

/-- A file, and a directory with a file in it. -/
def treeOps : List Op := [.creat pathB, .mkdir pathA, .creat pathAC]

/-- What there is on the small disk then. -/
structure SmallTree (s : Sys) : Prop where
  quiet : s.dev.Quiet
  coherent : s.dev.Coherent
  wellFormed : ∃ nodes, WellFormed s.vol nodes 1 7
  start : s.fs.entryStart = 3584
  ident : s.fs.volIdent = 4032
  files : s.vol.HasNames fileKind [(3776, [0x62]), (3904, [0x61, 0x2F, 0x63])]
  dirs : s.vol.HasNames dirKind [(3712, []), (3840, [0x61])]

/-- The live entries with their paths. -/
def smallEntries : List (Nat × Buf) :=
  [(3776, [0x62]), (3904, [0x61, 0x2F, 0x63])] ++ [(3712, []), (3840, [0x61])]

theorem SmallTree.live_mem {s : Sys} {o : Nat} {p : Buf} (h : SmallTree s) (hl : s.vol.Live o p) :
    (o, p) ∈ smallEntries :=
  List.mem_append.2 (hl.imp h.files.named_iff.1 h.dirs.named_iff.1)

theorem exists_smallTree : ∃ s₀ s', FreshlyMounted blankOpts 512 s₀ ∧
    run Op.step ⟨s₀, []⟩ treeOps = some s' ∧ SmallTree s'.sys := by
  have hview : (blankRun treeOps).map (fun s => decide (s.sys.fs.entryStart = 3584 ∧
      s.sys.fs.volIdent = 4032 ∧
      s.sys.vol.HasNames fileKind [(3776, [0x62]), (3904, [0x61, 0x2F, 0x63])] ∧
      s.sys.vol.HasNames dirKind [(3712, []), (3840, [0x61])])) = some true := by decide +kernel
  obtain ⟨s₀, s', hfresh, hmount, hrun, hview⟩ := blankRun_eq hview
  obtain ⟨hstart, hident, hfiles, hdirs⟩ := of_decide_eq_true hview
  obtain ⟨hq, hc, hw⟩ := blankRun_light hmount (by decide +kernel) hrun
  exact ⟨s₀, s', hfresh, hrun, hq, hc, hw, hstart, hident, hfiles, hdirs⟩

end Sfs
