import Sfs.Lib.OpenTree
import Sfs.OpenFiles
import Sfs.Failures

/-!
# What the users see

The callbacks of `main.c` put a file tree with open files together from the functions
of the file system and from the inode map.  An open file is known by its inode, and
may be unlinked; the map has to tell whether it is to be deleted.

* `UserCall.perform` is the machine: the callbacks but `rename`, which may leave two inodes
  with one offset, next to the handles that FUSE holds;
* `UserCall.Admitted` is what a call must find;
* `InodeMap.Tells` is what the map says of the handles and of the unlinked files;
* `Mount.At.serves` says that a callback in order does what `OpenTree.Serves` allows,
  and leaves the map right.
-/

namespace Sfs

open Lib FileTree Fuse

/-! ## The callbacks -/

/-- The state of the callbacks, and the handles that FUSE holds in `fi->fh`. -/
structure Mount where
  fuse : Fuse
  handles : List Nat

/-- A call of a callback.  A handle is the number in `fi->fh`. -/
inductive UserCall where
  | getattr (path : Buf)
  | mknod (path : Buf) (mode : Nat)
  | mkdir (path : Buf)
  | rmdir (path : Buf)
  | unlink (path : Buf)
  | «open» (path : Buf)
  | release (vino : Nat)
  | read (vino : Nat) (buf : Mem) (size off : Nat)
  | write (vino : Nat) (buf : Mem) (size off : Nat)
  | truncate (path : Buf) (size : Nat)
  | ftruncate (vino size : Nat)

abbrev Response := OpenTree.Response UInt8 Nat

/-- What a return value of 0, or a size, tells the user. -/
def verdict (ret : Int) (want : Int) : Response := if ret = want then .done else .failed

namespace UserCall

/-- A call with its answer; `none` when the callback does not return. -/
def perform (m : Mount) : UserCall → Option (Response × Mount)
  | getattr path => (fuseSfsGetattr path m.fuse).map fun x =>
    (if x.1.1 = 0 then .attr x.1.2.2.type.kind x.1.2.2.size else .failed, ⟨x.2, m.handles⟩)
  | mknod path mode => (fuseSfsMknod path mode m.fuse).map fun x =>
    (verdict x.1 0, ⟨x.2, m.handles⟩)
  | mkdir path => (fuseSfsMkdir path m.fuse).map fun x => (verdict x.1 0, ⟨x.2, m.handles⟩)
  | rmdir path => (fuseSfsRmdir path m.fuse).map fun x => (verdict x.1 0, ⟨x.2, m.handles⟩)
  | unlink path => (fuseSfsUnlink path m.fuse).map fun x => (verdict x.1 0, ⟨x.2, m.handles⟩)
  | .open path => (fuseSfsOpen path m.fuse).map fun x =>
    (if x.1.1 = 0 then .opened x.1.2 else .failed,
      ⟨x.2, if x.1.1 = 0 then x.1.2 :: m.handles else m.handles⟩)
  | release vino => (fuseSfsRelease vino m.fuse).map fun x =>
    (verdict x.1 0, ⟨x.2, m.handles.erase vino⟩)
  | read vino buf size off => (fuseSfsRead vino buf size off m.fuse).map fun x =>
    (if x.1.1 < 0 then .failed else .bytes (bytesOf x.1.2 x.1.1.toNat), ⟨x.2, m.handles⟩)
  | write vino buf size off => (fuseSfsWrite vino buf size off m.fuse).map fun x =>
    (verdict x.1 size, ⟨x.2, m.handles⟩)
  | truncate path size => (fuseSfsTruncate path size m.fuse).map fun x =>
    (verdict x.1 0, ⟨x.2, m.handles⟩)
  | ftruncate vino size => (fuseSfsFtruncate vino size m.fuse).map fun x =>
    (verdict x.1 0, ⟨x.2, m.handles⟩)

/-- What it asks for. -/
def asks : UserCall → OpenTree.Request Buf UInt8 Nat
  | getattr path => .getattr (cstr path)
  | mknod path _ => .mknod (cstr (newPath path))
  | mkdir path => .mkdir (cstr (newPath path))
  | rmdir path => .rmdir (cstr path)
  | unlink path => .unlink (cstr path)
  | .open path => .open (cstr path)
  | release vino => .release vino
  | read vino _ size off => .read vino size off
  | write vino buf size off => .write vino off (bytesOf buf size)
  | truncate path size => .truncate (cstr path) size
  | ftruncate vino size => .ftruncate vino size

end UserCall

/-- What `sfs_open` finds under the path, if anything, meets a condition on the volume. -/
def Sys.Opens (s : Sys) (path : Buf) (C : Vol → Nat → Prop) : Prop :=
  ∀ x ∈ s.exec (sfsOpen path), x.1 ≠ 0 → C x.2.vol x.1

/-- The call is in order: there is memory for a new inode, the handle is one that FUSE
holds, files are opened and truncated, no directories, and the bits of the map say what the
callback needs to know of the handles.  The mode for `mknod` has not both the bit of a file
and that of a directory, as `S_IFSOCK` has: it would make the file twice.  What is read and
written is less than 2 ^ 31 bytes, ends before 2 ^ 63, and is else as for the functions of
the file system. -/
def UserCall.Admitted (m : Mount) : UserCall → Prop
  | getattr _ => m.fuse.memory m.fuse.tries = true
  | mknod _ mode => mode &&& sIFREG = 0 ∨ mode &&& sIFDIR = 0
  | mkdir _ | rmdir _ => True
  | unlink path => ∀ w ∈ m.handles,
    Named m.fuse.sys.vol fileKind (m.fuse.map.getPino w) (cstr path) →
      m.fuse.map.getOpenbit w = 1
  | .open path => m.fuse.memory m.fuse.tries = true ∧ m.fuse.sys.Opens path Vol.LiveFile
  | release vino => vino ∈ m.handles ∧
    (m.fuse.map.getDirty vino = 1 → vino ∉ m.handles.erase vino)
  | read vino _ size off => vino ∈ m.handles ∧ size < 2147483648 ∧
    off + size < 9223372036854775808 ∧ (off % m.fuse.sys.vol.blockSize = 0 ∨
      off % m.fuse.sys.vol.blockSize + min size (m.fuse.sys.vol.get (m.fuse.map.getPino vino) .size
        - off) ≤ m.fuse.sys.vol.blockSize)
  | write vino buf size off => vino ∈ m.handles ∧ size < 2147483648 ∧
    off + size < 9223372036854775808 ∧ m.fuse.sys.vol.LiveFile (m.fuse.map.getPino vino) ∧
      (Op.write (m.fuse.map.getPino vino) buf size off).Safe m.fuse.sys.vol
  | truncate path size => m.fuse.sys.Opens path fun v file =>
    v.LiveFile file ∧ (Op.truncate file size).Safe v
  | ftruncate vino size => vino ∈ m.handles ∧
    m.fuse.sys.vol.LiveFile (m.fuse.map.getPino vino) ∧
      (Op.truncate (m.fuse.map.getPino vino) size).Safe m.fuse.sys.vol

/-! ## What the map tells -/

theorem InodeMap.maxVino_modify (map : InodeMap) (w : Nat) (g : FileT → FileT) :
    (map.modify w g).maxVino = map.maxVino := List.length_modify ..

/-- The map tells an inode from another and which are those of unlinked files; a set
open bit means a handle, and a handle is of a file. -/
structure InodeMap.Tells (map : InodeMap) (handles : List Nat) (V : View) : Prop where
  apart : map.Injective
  used : 0 < map.maxVino
  dirty : ∀ w f, map.Has w f → f.pino ≠ 0 → (f.dirty = 1 ↔ f.pino ∈ V.pending)
  bit : ∀ w f, map.Has w f → f.openbit = 1 → w ∈ handles
  handle : ∀ w ∈ handles, ∃ f, map.Has w f ∧ f.pino ≠ 0 ∧ V.tree.Present f.pino

namespace InodeMap.Tells

variable {map map' : InodeMap} {handles : List Nat} {V V' : View} {pino vino : Nat}

/-- A call that deletes nothing, and unlinks nothing. -/
theorem step (h : map.Tells handles V) {c : Call Buf Nat UInt8} {r : Reply}
    (hstep : Step Above V.tree c r V'.tree) (hpending : V'.pending = V.pending)
    (hkeeps : ∀ o, ¬ c.Deletes o) : map.Tells handles V' where
  apart := h.apart
  used := h.used
  dirty := by
    rw [hpending]
    exact h.dirty
  bit := h.bit
  handle w hw := by
    obtain ⟨f, hf, hne, hpresent⟩ := h.handle w hw
    exact ⟨f, hf, hne, hstep.present hpresent (hkeeps _)⟩

/-- The handle of a file is its inode. -/
theorem getVino_of_mem (h : map.Tells handles V) (hw : vino ∈ handles) :
    map.getPino vino ≠ 0 ∧ map.getVino (map.getPino vino) = vino := by
  obtain ⟨f, hf, hne, -⟩ := h.handle vino hw
  rw [hf.getPino]
  exact ⟨hne, hf.getVino_pino h.apart hne⟩

theorem present (h : map.Tells handles V) (hw : vino ∈ handles) :
    V.tree.Present (map.getPino vino) := by
  obtain ⟨f, hf, -, hpresent⟩ := h.handle vino hw
  rw [hf.getPino]
  exact hpresent

/-- Two handles of a file are one. -/
theorem number (h : map.Tells handles V) {w : Nat} (hv : vino ∈ handles) (hw : w ∈ handles) :
    vino = w ↔ map.getPino vino = map.getPino w := by
  refine ⟨fun heq => by rw [heq], fun heq => ?_⟩
  rw [← (h.getVino_of_mem hv).2, heq, (h.getVino_of_mem hw).2]

/-- Where there is no inode there is no handle. -/
theorem not_mem_of_getVino (h : map.Tells handles V) (hz : map.getVino pino = 0) {w : Nat}
    (hw : w ∈ handles) : map.getPino w ≠ pino := by
  intro heq
  obtain ⟨f, hf, hne, -⟩ := h.handle w hw
  obtain rfl := hf.getPino.symm.trans heq
  exact hf.getVino_ne_zero hz

/-- A new inode, of an offset that is no unlinked file's. -/
theorem add (h : map.Tells handles V) (hnew : map.getVino pino = 0) (hpino : pino ∉ V.pending)
    (grows : Bool) : (map.pinoAdd grows pino).2.Tells handles V where
  apart := h.apart.pinoAdd hnew grows
  used := by
    refine Nat.lt_of_lt_of_le h.used ?_
    unfold InodeMap.pinoAdd maxVino
    split <;> simp
  dirty w f hf hne := by
    rcases has_pinoAdd hf with hold | rfl
    · exact h.dirty w f hold hne
    · exact ⟨fun hd => absurd hd (show (0 : Int) ≠ 1 by decide), fun hp => absurd hp hpino⟩
  bit w f hf hset := by
    rcases has_pinoAdd hf with hold | rfl
    · exact h.bit w f hold hset
    · exact absurd hset (show (0 : Int) ≠ 1 by decide)
  handle w hw := by
    obtain ⟨f, hf, hrest⟩ := h.handle w hw
    exact ⟨f, hf.pinoAdd grows, hrest⟩

/-- A record is changed, which keeps its offset. -/
theorem modify (h : map.Tells handles V) (vino : Nat) {g : FileT → FileT}
    (hg : ∀ f, (g f).pino = f.pino) {handles' : List Nat}
    (hdirty : ∀ w f, map.Has w f → f.pino ≠ 0 →
      ((if vino = w then g f else f).dirty = 1 ↔ f.pino ∈ V'.pending))
    (hbit : ∀ w f, map.Has w f → (if vino = w then g f else f).openbit = 1 → w ∈ handles')
    (hhandle : ∀ w ∈ handles', ∃ f, map.Has w f ∧ f.pino ≠ 0 ∧ V'.tree.Present f.pino) :
    (map.modify vino g).Tells handles' V' := by
  have hpino : ∀ w f, (if vino = w then g f else f).pino = f.pino := fun w f => by
    split
    · exact hg f
    · rfl
  refine ⟨h.apart.modify _ hg, (map.maxVino_modify _ _).symm ▸ h.used, fun w f' hf' hne => ?_,
    fun w f' hf' hset => ?_, fun w hw => ?_⟩
  · obtain ⟨f, hf, rfl⟩ := has_modify.1 hf'
    rw [hpino] at hne ⊢
    exact hdirty w f hf hne
  · obtain ⟨f, hf, rfl⟩ := has_modify.1 hf'
    exact hbit w f hf hset
  · obtain ⟨f, hf, hne, hpresent⟩ := hhandle w hw
    refine ⟨_, has_modify.2 ⟨f, hf, rfl⟩, ?_⟩
    rw [hpino]
    exact ⟨hne, hpresent⟩

/-- A file is opened: its inode is a handle, and gets the open bit. -/
theorem opened (h : map.Tells handles V) (hv : map.getVino pino ≠ 0) (hpino : pino ≠ 0)
    (hpresent : V.tree.Present pino) :
    (map.setOpenbit (map.getVino pino)).Tells (map.getVino pino :: handles) V := by
  refine h.modify _ (fun _ => by rfl) (fun w f hf hne => ?_) (fun w f hf hset => ?_) fun w hw => ?_
  · have hold := h.dirty w f hf hne
    split <;> exact hold
  · by_cases heq : map.getVino pino = w
    · exact heq ▸ List.mem_cons_self
    · rw [if_neg heq] at hset
      exact List.mem_cons_of_mem _ (h.bit w f hf hset)
  · rcases List.mem_cons.1 hw with rfl | hw
    · obtain ⟨f, hf, rfl⟩ := has_getVino hv
      exact ⟨f, hf, hpino, hpresent⟩
    · exact h.handle w hw

/-- A file is unlinked, and its inode is dirty. -/
theorem mark (h : map.Tells handles V) (hv : map.getVino pino ≠ 0) (hpino : pino ≠ 0) {p : Buf}
    (hstep : Step Above V.tree (.unlink p) (.handle pino) V'.tree)
    (hpending : V'.pending = pino :: V.pending) :
    (map.setDirty (map.getVino pino)).Tells handles V' := by
  refine h.modify _ (fun _ => by rfl) (fun w f hf hne => ?_) (fun w f hf hset => ?_) fun w hw => ?_
  · obtain ⟨g, hg, hgpino⟩ := has_getVino hv
    rw [hpending, List.mem_cons]
    by_cases heq : map.getVino pino = w
    · obtain rfl := hf.unique (heq ▸ hg)
      rw [if_pos heq]
      exact ⟨fun _ => Or.inl hgpino, fun _ => rfl⟩
    · have hother : f.pino ≠ pino := fun hp =>
        heq (h.apart.has_unique hg hf (hgpino ▸ hpino) (hgpino.trans hp.symm))
      rw [if_neg heq, h.dirty w f hf hne]
      exact ⟨Or.inr, fun hor => hor.resolve_left hother⟩
  · refine h.bit w f hf ?_
    split at hset <;> exact hset
  · obtain ⟨f, hf, hne, hpresent⟩ := h.handle w hw
    exact ⟨f, hf, hne, hstep.present hpresent id⟩

/-- A handle of a file that is not unlinked is given back. -/
theorem close (h : map.Tells handles V) (vino : Nat) :
    (map.clrOpenbit vino).Tells (handles.erase vino) V := by
  refine h.modify _ (fun _ => by rfl) (fun w f hf hne => ?_) (fun w f hf hset => ?_) fun w hw => ?_
  · have hold := h.dirty w f hf hne
    split <;> exact hold
  · by_cases heq : vino = w
    · rw [if_pos heq] at hset
      exact absurd hset (show (0 : Int) ≠ 1 by decide)
    · rw [if_neg heq] at hset
      exact (List.mem_erase_of_ne (Ne.symm heq)).2 (h.bit w f hf hset)
  · exact h.handle w (List.mem_of_mem_erase hw)

end InodeMap.Tells

/-- The inode has no offset any more, and is no handle. -/
structure InodeMap.Forgets (map map' : InodeMap) (vino : Nat) : Prop where
  apart : map.Injective → map'.Injective
  length : map'.maxVino = map.maxVino
  kept : ∀ w f, map.Has w f → w ≠ vino → map'.Has w f
  records : ∀ w f, map'.Has w f →
    w = vino ∧ f.pino = 0 ∧ f.openbit ≠ 1 ∨ w ≠ vino ∧ map.Has w f

namespace InodeMap

variable {map map' : InodeMap} {handles handles' : List Nat} {V V' : View} {pino vino : Nat}

theorem getPino_modify (map : InodeMap) (v w : Nat) {g : FileT → FileT}
    (hg : ∀ f, (g f).pino = f.pino) : (map.modify v g).getPino w = map.getPino w := by
  unfold getPino modify
  simp only [List.getElem?_modify]
  cases map.table[w]? with
  | none => rfl
  | some f => by_cases heq : v = w <;> simp [heq, hg]

theorem forgets_setPino (hbit : map.getOpenbit vino ≠ 1) :
    map.Forgets (map.setPino vino 0) vino where
  apart hinj := hinj.setPino_zero _
  length := map.maxVino_modify _ _
  kept w f hf hne := has_modify.2 ⟨f, hf, (if_neg (Ne.symm hne)).symm⟩
  records w f hf := by
    obtain ⟨f₀, hf₀, rfl⟩ := has_modify.1 hf
    by_cases heq : vino = w
    · subst heq
      rw [hf₀.getOpenbit] at hbit
      rw [if_pos rfl]
      exact Or.inl ⟨rfl, rfl, hbit⟩
    · rw [if_neg heq]
      exact Or.inr ⟨Ne.symm heq, hf₀⟩

theorem forgets_release (map : InodeMap) (vino : Nat) :
    map.Forgets ((map.setPino vino 0).clrOpenbit vino) vino where
  apart hinj := (hinj.setPino_zero _).modify _ fun _ => rfl
  length := (maxVino_modify _ _ _).trans (maxVino_modify _ _ _)
  kept w f hf hne := has_modify.2 ⟨f, has_modify.2 ⟨f, hf, (if_neg (Ne.symm hne)).symm⟩,
    (if_neg (Ne.symm hne)).symm⟩
  records w f hf := by
    obtain ⟨f₁, hf₁, rfl⟩ := has_modify.1 hf
    obtain ⟨f₀, hf₀, rfl⟩ := has_modify.1 hf₁
    by_cases heq : vino = w
    · subst heq
      rw [if_pos rfl, if_pos rfl]
      exact Or.inl ⟨rfl, rfl, show (0 : Int) ≠ 1 by decide⟩
    · rw [if_neg heq, if_neg heq]
      exact Or.inr ⟨Ne.symm heq, hf₀⟩

/-- The map forgets the inode of a file that is deleted. -/
theorem Tells.forget (h : map.Tells handles V) (hf : map.Forgets map' vino)
    (hvino : map.getVino pino = vino) (hv : vino ≠ 0) (hpino : pino ≠ 0)
    (hhandles : ∀ w, w ∈ handles' ↔ w ∈ handles ∧ w ≠ vino)
    (hpending : ∀ o, o ≠ pino → (o ∈ V'.pending ↔ o ∈ V.pending))
    (hpresent : ∀ o, o ≠ pino → V.tree.Present o → V'.tree.Present o) :
    map'.Tells handles' V' := by
  obtain ⟨g, hg, hgpino⟩ := has_getVino (hvino.symm ▸ hv)
  rw [hvino] at hg
  have hother : ∀ w f, w ≠ vino → map.Has w f → f.pino ≠ pino := fun w f hne hw heq =>
    hne (h.apart.has_unique hg hw (hgpino ▸ hpino) (hgpino.trans heq.symm)).symm
  refine ⟨hf.apart h.apart, hf.length ▸ h.used, fun w f hw hne => ?_, fun w f hw hset => ?_,
    fun w hw => ?_⟩
  · rcases hf.records w f hw with ⟨-, hzero, -⟩ | ⟨hnew, hold⟩
    · exact absurd hzero hne
    · rw [hpending _ (hother w f hnew hold)]
      exact h.dirty w f hold hne
  · rcases hf.records w f hw with ⟨-, -, hclear⟩ | ⟨hnew, hold⟩
    · exact absurd hset hclear
    · exact (hhandles w).2 ⟨h.bit w f hold hset, hnew⟩
  · obtain ⟨hmem, hnew⟩ := (hhandles w).1 hw
    obtain ⟨f, hfw, hne, hp⟩ := h.handle w hmem
    exact ⟨f, hf.kept w f hfw hnew, hne, hpresent _ (hother w f hnew hfw) hp⟩

/-- The map knows nothing of a file that is deleted. -/
theorem Tells.unknown (h : map.Tells handles V) (hnone : map.getVino pino = 0)
    (hpending : ∀ o, o ≠ pino → (o ∈ V'.pending ↔ o ∈ V.pending))
    (hpresent : ∀ o, o ≠ pino → V.tree.Present o → V'.tree.Present o) :
    map.Tells handles V' := by
  have hother : ∀ w f, map.Has w f → f.pino ≠ pino := fun w f hw heq =>
    hw.getVino_ne_zero (heq ▸ hnone)
  refine ⟨h.apart, h.used, fun w f hw hne => ?_, h.bit, fun w hw => ?_⟩
  · rw [hpending _ (hother w f hw)]
    exact h.dirty w f hw hne
  · obtain ⟨f, hf, hne, hp⟩ := h.handle w hw
    exact ⟨f, hf, hne, hpresent _ (hother w f hf) hp⟩

end InodeMap

/-! ## Calls of the file system -/

/-- A call of the file system has made a step of the tree. -/
structure Fuse.Calls (s : Fuse) (V : View) (lo hi : Nat) (c : UnitCall) (r : Reply)
    (pending : List Nat) (s' : Fuse) (V' : View) : Prop where
  state : s' = { s with sys := s'.sys }
  step : Step Above V.tree c.asks r V'.tree
  pending : V'.pending = pending
  stands : Session.Stands ⟨s'.sys, V'.pending⟩ V' lo hi

section

variable {s : Fuse} {handles : List Nat} {V : View} {lo hi pino : Nat}

theorem leads_unit {α : Type} {good bad : α → Prop} {c : UnitCall} {p : SfsM α}
    {answer : α → Reply} {pending : α → List Nat}
    (h : Session.Stands ⟨s.sys, V.pending⟩ V lo hi) (hc : c.Admitted V.vol V.pending)
    (hp : c.perform ⟨s.sys, V.pending⟩ =
      (s.sys.exec p).map fun x => (answer x.1, ⟨x.2, pending x.1⟩)) (herrs : Errs good bad p) :
    Leads (call p) s fun a s' => (good a ∨ bad a ∧ s'.sys.errno ≠ 0) ∧
      ∃ V', s.Calls V lo hi c (answer a) (pending a) s' V' := by
  obtain ⟨r, session, V', hgoes⟩ := h.refines hc
  obtain ⟨x, hx, heq⟩ := Option.map_eq_some_iff.1 (hp.symm.trans hgoes.run)
  obtain ⟨rfl, rfl⟩ := Prod.mk.inj heq
  have hpending : pending x.1 = V'.pending := hgoes.stands.pending
  refine ⟨x.1, { s with sys := x.2 }, by rw [call, hx]; rfl, herrs _ _ _ hx, V',
    rfl, hgoes.step, hpending.symm, ?_⟩
  rw [← hpending]
  exact hgoes.stands

theorem Fuse.Calls.map_eq {s' : Fuse} {V' : View} {c : UnitCall} {r : Reply} {pending : List Nat}
    (h : s.Calls V lo hi c r pending s' V') : s'.map = s.map := by rw [h.state]

/-- What `sfs_open` does, with its run. -/
theorem leads_open (h : Session.Stands ⟨s.sys, V.pending⟩ V lo hi) (path : Buf) :
    Leads (call (sfsOpen path)) s fun pino s' =>
      s.sys.exec (sfsOpen path) = some (pino, s'.sys) ∧
      (pino ≠ 0 ∨ pino = 0 ∧ s'.sys.errno ≠ 0) ∧
      ∃ V', s.Calls V lo hi (.open path) (if pino = 0 then .refused else .handle pino) V.pending
        s' V' := by
  have hopen : Leads (call (sfsOpen path)) s fun pino s' =>
      (pino ≠ 0 ∨ pino = 0 ∧ s'.sys.errno ≠ 0) ∧
      ∃ V', s.Calls V lo hi (.open path) (if pino = 0 then .refused else .handle pino) V.pending
        s' V' :=
    leads_unit h trivial rfl (errs_sfsOpen path)
  obtain ⟨pino, s', hrun, hrest⟩ := hopen
  refine ⟨pino, s', hrun, ?_, hrest⟩
  obtain ⟨x, hx, heq⟩ := Option.map_eq_some_iff.1 hrun
  cases heq
  exact hx

/-- `sfs_delete` of an unlinked file. -/
theorem leads_delete (h : Session.Stands ⟨s.sys, V.pending⟩ V lo hi) (hp : pino ∈ V.pending) :
    Leads (call (sfsDelete pino)) s fun ret s' => ret = 0 ∧
      ∃ V', s.Calls V lo hi (.edit (.delete pino)) .done (V.pending.erase pino) s' V' := by
  have hdelete : Leads (call (sfsDelete pino)) s fun ret s' =>
      (ret = 0 ∨ ret = -1 ∧ s'.sys.errno ≠ 0) ∧
      ∃ V', s.Calls V lo hi (.edit (.delete pino)) (if ret = 0 then .done else .refused)
        (V.pending.erase pino) s' V' :=
    leads_unit h ⟨hp, trivial⟩ rfl (errs_sfsDelete pino)
  refine hdelete.mono fun ret s' hcall => ?_
  obtain ⟨-, V', hcall⟩ := hcall
  by_cases hret : ret = 0
  · rw [if_pos hret] at hcall
    exact ⟨hret, V', hcall⟩
  · rw [if_neg hret] at hcall
    exact hcall.step.of_refused.1.elim

/-- `sfs_truncate` of a file. -/
theorem leads_truncate {size : Nat} (h : Session.Stands ⟨s.sys, V.pending⟩ V lo hi)
    (hlive : V.vol.LiveFile pino) (hsafe : (Op.truncate pino size).Safe V.vol) :
    Leads (call (sfsTruncate pino size)) s fun ret s' => (ret = 0 ∨ ret = -1 ∧ s'.sys.errno ≠ 0) ∧
      ∃ V', s.Calls V lo hi (.edit (.truncate pino size)) (if ret = 0 then .done else .refused)
        V.pending s' V' :=
  leads_unit h ⟨hlive, hsafe⟩ rfl (errs_sfsTruncate pino size)

theorem Fuse.Calls.setErrno {s' : Fuse} {V' : View} {c : UnitCall} {r : Reply} {pending : List Nat}
    (h : s.Calls V lo hi c r pending s' V') (code : Nat) :
    s.Calls V lo hi c r pending { s' with sys := { s'.sys with errno := code } } V' where
  state := by rw [h.state]
  step := h.step
  pending := h.pending
  stands := ⟨h.stands.sound, h.stands.rests.setErrno code, rfl⟩

/-- The handles with the offsets of their files. -/
def openedIn (map : InodeMap) (handles : List Nat) : List (Nat × Nat) :=
  handles.map fun w => (w, map.getPino w)

theorem openedIn_congr {map map' : InodeMap} (h : ∀ w ∈ handles, map'.getPino w = map.getPino w) :
    openedIn map' handles = openedIn map handles :=
  List.map_congr_left fun w hw => by rw [h w hw]

theorem openedIn_of_has {map map' : InodeMap} (h : map.Tells handles V)
    (hkept : ∀ w f, w ∈ handles → map.Has w f → ∃ f', map'.Has w f' ∧ f'.pino = f.pino) :
    openedIn map' handles = openedIn map handles := by
  refine openedIn_congr fun w hw => ?_
  obtain ⟨f, hf, -⟩ := h.handle w hw
  obtain ⟨f', hf', hpino⟩ := hkept w f hw hf
  rw [hf'.getPino, hf.getPino, hpino]

theorem openedIn_modify (map : InodeMap) (handles : List Nat) (v : Nat) {g : FileT → FileT}
    (hg : ∀ f, (g f).pino = f.pino) : openedIn (map.modify v g) handles = openedIn map handles :=
  openedIn_congr fun w _ => map.getPino_modify v w hg

theorem openedIn_setOpenbit (map : InodeMap) (handles : List Nat) (v : Nat) :
    openedIn (map.setOpenbit v) handles = openedIn map handles :=
  openedIn_modify map handles v fun _ => rfl

theorem openedIn_clrOpenbit (map : InodeMap) (handles : List Nat) (v : Nat) :
    openedIn (map.clrOpenbit v) handles = openedIn map handles :=
  openedIn_modify map handles v fun _ => rfl

theorem openedIn_setDirty (map : InodeMap) (handles : List Nat) (v : Nat) :
    openedIn (map.setDirty v) handles = openedIn map handles :=
  openedIn_modify map handles v fun _ => rfl

theorem InodeMap.Forgets.openedIn {map map' : InodeMap} {vino : Nat} (h : map.Forgets map' vino)
    {handles' : List Nat} (htells : map.Tells handles V) (hsub : ∀ w ∈ handles', w ∈ handles)
    (hnot : vino ∉ handles') : openedIn map' handles' = openedIn map handles' := by
  refine openedIn_congr fun w hw => ?_
  obtain ⟨f, hf, -⟩ := htells.handle w (hsub w hw)
  rw [(h.kept w f hf fun heq => hnot (heq ▸ hw)).getPino, hf.getPino]

/-- One handle less. -/
theorem openedIn_erase (map : InodeMap) {vino : Nat} (hmem : vino ∈ handles) :
    ∃ l l', openedIn map handles = l ++ (vino, map.getPino vino) :: l' ∧
      openedIn map (handles.erase vino) = l ++ l' := by
  obtain ⟨l, l', -, heq, herase⟩ := List.exists_erase_eq hmem
  refine ⟨openedIn map l, openedIn map l', ?_, ?_⟩
  · rw [heq]
    simp [openedIn]
  · rw [herase]
    simp [openedIn]

theorem mem_openedIn {map : InodeMap} {w o : Nat} :
    (w, o) ∈ openedIn map handles ↔ w ∈ handles ∧ map.getPino w = o := by
  simp [openedIn]

/-- The inode of an offset, when there is memory. -/
theorem leads_vinoFor_tells (h : s.map.Tells handles V) (hmem : s.memory s.tries = true)
    (hpino : pino ∉ V.pending) :
    Leads (vinoFor pino) s fun vino s' => vino ≠ 0 ∧ s'.map.getVino pino = vino ∧
      s'.sys = s.sys ∧ s'.map.Tells handles V ∧
      openedIn s'.map handles = openedIn s.map handles := by
  unfold vinoFor
  rw [leads_ask]
  by_cases hz : s.map.getVino pino = 0
  · rw [if_pos hz]
    have hne : (s.map.pinoAdd (s.memory s.tries) pino).1 ≠ 0 := by
      rw [InodeMap.pinoAdd, if_neg fun hfull => by simp [hmem] at hfull]
      exact Nat.ne_of_gt h.used
    exact ⟨_, _, rfl, hne, InodeMap.getVino_pinoAdd hz hne, rfl, h.add hz hpino _,
      openedIn_of_has h fun w f _ hf => ⟨f, hf.pinoAdd _, rfl⟩⟩
  · rw [if_neg hz, leads_pure]
    exact ⟨hz, rfl, rfl, h, rfl⟩

end

theorem cInt_of_lt {n : Nat} (h : n < 2147483648) : cInt n = n := by
  have hlt : n < 2 ^ 32 := by omega
  rw [cInt, BitVec.toInt_eq_toNat_of_lt] <;> rw [BitVec.toNat_ofNat, Nat.mod_eq_of_lt hlt]
  omega

/-! ## Callbacks -/

/-- The unit is at the view, and the map is right. -/
structure Mount.At (m : Mount) (V : View) (lo hi : Nat) : Prop where
  stands : Session.Stands ⟨m.fuse.sys, V.pending⟩ V lo hi
  tells : m.fuse.map.Tells m.handles V

/-- The tree with the open files. -/
noncomputable def Mount.shows (m : Mount) (V : View) : OpenTree Buf Nat UInt8 Nat :=
  ⟨V.tree, openedIn m.fuse.map m.handles⟩

/-- The request is served as the specification allows, and the map is right again. -/
def Mount.Serves (m : Mount) (V : View) (lo hi : Nat) (q : OpenTree.Request Buf UInt8 Nat)
    (r : Response) (m' : Mount) : Prop :=
  ∃ V', OpenTree.Serves Above (m.shows V) q r (m'.shows V') ∧ m'.At V' lo hi

namespace Mount.At

variable {m : Mount} {V V' : View} {lo hi : Nat} {s s' : Fuse} {c : UnitCall}
  {r : Reply}

theorem vol (h : m.At V lo hi) : m.fuse.sys.vol = V.vol := h.stands.vol

/-- A request that opens and closes nothing. -/
theorem serves {q : OpenTree.Request Buf UInt8 Nat} {answer : Response}
    (hopened : openedIn s.map m.handles = openedIn m.fuse.map m.handles)
    (hserves : OpenTree.Serves Above (m.shows V) q answer ⟨V'.tree, (m.shows V).opened⟩)
    (hstands : Session.Stands ⟨s.sys, V'.pending⟩ V' lo hi) (htells : s.map.Tells m.handles V') :
    m.Serves V lo hi q answer ⟨s, m.handles⟩ := by
  refine ⟨V', ?_, hstands, htells⟩
  rw [show Mount.shows ⟨s, m.handles⟩ V' = ⟨V'.tree, (m.shows V).opened⟩ from
    congrArg (OpenTree.mk V'.tree) hopened]
  exact hserves

/-- A call of the file system that is done, and the request with it. -/
theorem does (h : m.At V lo hi) {q : OpenTree.Request Buf UInt8 Nat} {answer : Response}
    (hcall : m.fuse.Calls V lo hi c r V.pending s V')
    (hserves : OpenTree.Serves Above (m.shows V) q answer ⟨V'.tree, (m.shows V).opened⟩)
    (hkeeps : ∀ o, ¬ c.asks.Deletes o) : m.Serves V lo hi q answer ⟨s, m.handles⟩ := by
  have hmap : s.map = m.fuse.map := hcall.map_eq
  refine serves (by rw [hmap]) hserves hcall.stands ?_
  rw [hmap]
  exact h.tells.step hcall.step hcall.pending hkeeps

/-- A call that fails. -/
theorem failed (h : m.At V lo hi) {q : OpenTree.Request Buf UInt8 Nat} (hmay : (m.shows V).Fails q)
    (hcall : m.fuse.Calls V lo hi c .refused V.pending s V')
    (hkeeps : ∀ o, ¬ c.asks.Deletes o) : m.Serves V lo hi q .failed ⟨s, m.handles⟩ :=
  h.does hcall (.failed hmay hcall.step.of_refused.2) hkeeps

/-- A value of 0 means that it is done. -/
theorem verdict_self (n : Int) : verdict n n = .done := if_pos rfl

theorem verdict_err {s : Fuse} (h : s.sys.errno ≠ 0) {n : Int} (hn : 0 ≤ n) :
    verdict (-s.sys.errno) n = .failed := if_neg (by omega)

/-! ### Names -/

theorem mknod (h : m.At V lo hi) {path : Buf} {mode : Nat}
    (hmode : mode &&& sIFREG = 0 ∨ mode &&& sIFDIR = 0) :
    Leads (fuseSfsMknod path mode) m.fuse fun ret s =>
      m.Serves V lo hi (.mknod (cstr (newPath path))) (verdict ret 0) ⟨s, m.handles⟩ := by
  unfold fuseSfsMknod
  by_cases hreg : mode &&& sIFREG = 0
  · rw [if_pos hreg, leads_pure]
    exact serves rfl (.failed trivial (Same.refl _)) h.stands h.tells
  have hcreat : Leads (call (sfsCreat (newPath path))) m.fuse fun a s =>
      (a.1 = 0 ∨ a.1 = -1 ∧ s.sys.errno ≠ 0) ∧ ∃ V', m.fuse.Calls V lo hi
        (.edit (.creat (newPath path))) (if a.1 = 0 then .done else .refused) V.pending s V' :=
    leads_unit h.stands ⟨newPath_good path, trivial⟩ rfl (errs_sfsCreat _)
  rw [if_neg hreg, leads_bind]
  unfold mknodCreat
  rw [if_neg hreg, leads_bind]
  refine hcreat.mono fun a s₁ hcall => ?_
  obtain ⟨hret, V', hcall⟩ := hcall
  obtain ⟨ret, cpath⟩ := a
  rcases hret with hret | ⟨hret, herr⟩
  · obtain rfl : ret = 0 := hret
    rw [if_pos rfl] at hcall
    dsimp only
    rw [if_neg (by decide), leads_pure]
    dsimp only
    rw [if_pos (hmode.resolve_left hreg), pure_bind]
    dsimp only
    rw [leads_call_eq (show s₁.sys.exec (setErrno 0) = some ((), { s₁.sys with errno := 0 })
      from rfl), leads_err]
    exact h.does (hcall.setErrno 0) (.mknod hcall.step) fun _ => id
  · obtain rfl : ret = -1 := hret
    rw [if_neg (show ¬ (-1 : Int) = 0 by decide)] at hcall
    dsimp only
    rw [if_pos rfl, leads_pure]
    dsimp only
    rw [leads_err, verdict_err herr (le_refl _)]
    exact h.failed trivial hcall fun _ => id

theorem mkdir (h : m.At V lo hi) (path : Buf) :
    Leads (fuseSfsMkdir path) m.fuse fun ret s =>
      m.Serves V lo hi (.mkdir (cstr (newPath path))) (verdict ret 0) ⟨s, m.handles⟩ := by
  have hmkdir : Leads (call (sfsMkdir (newPath path))) m.fuse fun a s =>
      (a.1 = 0 ∨ a.1 = -1 ∧ s.sys.errno ≠ 0) ∧ ∃ V', m.fuse.Calls V lo hi
        (.edit (.mkdir (newPath path))) (if a.1 = 0 then .done else .refused) V.pending s V' :=
    leads_unit h.stands ⟨newPath_good path, trivial⟩ rfl (errs_sfsMkdir _)
  unfold fuseSfsMkdir
  rw [leads_bind]
  refine hmkdir.mono fun a s₁ hcall => ?_
  obtain ⟨hret, V', hcall⟩ := hcall
  obtain ⟨ret, cpath⟩ := a
  rcases hret with hret | ⟨hret, herr⟩
  · obtain rfl : ret = 0 := hret
    rw [if_pos rfl] at hcall
    dsimp only
    rw [if_neg (by decide), leads_pure, verdict_self]
    exact h.does hcall (.mkdir hcall.step) fun _ => id
  · obtain rfl : ret = -1 := hret
    rw [if_neg (show ¬ (-1 : Int) = 0 by decide)] at hcall
    dsimp only
    rw [if_pos rfl, leads_err, verdict_err herr (le_refl _)]
    exact h.failed trivial hcall fun _ => id

theorem rmdir (h : m.At V lo hi) (path : Buf) :
    Leads (fuseSfsRmdir path) m.fuse fun ret s =>
      m.Serves V lo hi (.rmdir (cstr path)) (verdict ret 0) ⟨s, m.handles⟩ := by
  have hrmdir : Leads (call (sfsRmdir path)) m.fuse fun ret s =>
      (ret = 0 ∨ ret = -1 ∧ s.sys.errno ≠ 0) ∧ ∃ V', m.fuse.Calls V lo hi (.edit (.rmdir path))
        (if ret = 0 then .done else .refused) V.pending s V' :=
    leads_unit h.stands ⟨trivial, trivial⟩ rfl (errs_sfsRmdir _)
  unfold fuseSfsRmdir
  rw [leads_bind]
  refine hrmdir.mono fun ret s₁ hcall => ?_
  obtain ⟨rfl | ⟨rfl, -⟩, V', hcall⟩ := hcall
  · rw [if_pos rfl] at hcall
    rw [if_neg (by decide), leads_pure, verdict_self]
    exact h.does hcall (.rmdir hcall.step) fun _ => id
  · rw [if_neg (by decide)] at hcall
    rw [if_pos rfl, leads_pure]
    exact h.failed trivial hcall fun _ => id

/-- The inode of a file that `sfs_open` found. -/
theorem finds (h : m.At V lo hi) (hmem : m.fuse.memory m.fuse.tries = true) {path : Buf}
    {pino : Nat} (hcall : m.fuse.Calls V lo hi (.open path) (.handle pino) V.pending s V') :
    Leads (vinoFor pino) s fun vino s' => vino ≠ 0 ∧ s'.map.getVino pino = vino ∧
      s'.sys = s.sys ∧ s'.map.Tells m.handles V' ∧
      openedIn s'.map m.handles = openedIn m.fuse.map m.handles := by
  have hmap : s.map = m.fuse.map := hcall.map_eq
  have hname := hcall.step.of_open.1
  have hpino : pino ∉ V'.pending := by
    rw [hcall.pending]
    exact hname.elim h.stands.sound.named_not_pending h.stands.sound.named_not_pending
  have htells : s.map.Tells m.handles V' :=
    hmap ▸ h.tells.step hcall.step hcall.pending fun _ => id
  have hmem' : s.memory s.tries = true := by
    rw [hcall.state]
    exact hmem
  rw [← hmap]
  exact leads_vinoFor_tells htells hmem' hpino

theorem getattr (h : m.At V lo hi) (hmem : m.fuse.memory m.fuse.tries = true) (path : Buf) :
    Leads (fuseSfsGetattr path) m.fuse fun r s => m.Serves V lo hi (.getattr (cstr path))
      (if r.1 = 0 then .attr r.2.2.type.kind r.2.2.size else .failed) ⟨s, m.handles⟩ := by
  unfold fuseSfsGetattr
  rw [leads_uninitAttr, leads_bind]
  refine (leads_open h.stands path).mono fun pino s₁ hcall => ?_
  obtain ⟨-, hret, V₁, hcall⟩ := hcall
  rcases hret with hne | ⟨rfl, herr⟩
  · rw [if_neg hne] at hcall ⊢
    rw [leads_bind]
    refine (h.finds hmem hcall).mono fun vino s₂ hvino => ?_
    obtain ⟨hv, -, hsys, htells, hopened⟩ := hvino
    obtain ⟨hname, hsame⟩ := hcall.step.of_open
    have hstands : Session.Stands ⟨s₂.sys, V₁.pending⟩ V₁ lo hi := hsys ▸ hcall.stands
    have hadmitted : V₁.vol.LiveFile pino ∨ V₁.vol.IsDir pino := hname.imp
      (fun hn => Named.liveFile ((hsame.named .file (cstr path) pino).2 hn))
      fun hn => Named.isDir ((hsame.named .dir (cstr path) pino).2 hn)
    have hattr : Leads (call (sfsGetattr pino m.fuse.attr)) s₂ fun a s =>
        (a.1 = 0 ∨ a.1 = -1 ∧ s.sys.errno ≠ 0) ∧ ∃ V', s₂.Calls V₁ lo hi
          (.getattr pino m.fuse.attr) (if a.1 = 0 then .attr a.2.type.kind a.2.size else .refused)
          V₁.pending s V' :=
      leads_unit hstands hadmitted rfl (errs_sfsGetattr _ _)
    rw [if_neg hv, leads_bind]
    refine hattr.mono fun a s₃ hcall' => ?_
    obtain ⟨-, V₂, hcall'⟩ := hcall'
    obtain ⟨ret, attr⟩ := a
    by_cases hret : ret = 0
    · obtain rfl : ret = 0 := hret
      rw [if_pos rfl] at hcall'
      dsimp only
      rw [if_neg (by decide), leads_pure, if_pos rfl]
      have hmap : s₃.map = s₂.map := hcall'.map_eq
      refine serves (by rw [hmap, hopened]) (.getattr hcall.step hcall'.step) hcall'.stands ?_
      rw [hmap]
      exact htells.step hcall'.step hcall'.pending fun _ => id
    · rw [if_neg hret] at hcall'
      exact hcall'.step.of_refused.1.elim
  · rw [if_pos rfl] at hcall ⊢
    rw [leads_negErrno, leads_pure, if_neg (show ¬ -(s₁.sys.errno : Int) = 0 by omega)]
    exact h.failed hcall.step.of_refused.1 hcall fun _ => id

/-! ### Handles -/

theorem «open» (h : m.At V lo hi) (hmem : m.fuse.memory m.fuse.tries = true) {path : Buf}
    (hfile : m.fuse.sys.Opens path Vol.LiveFile) :
    Leads (fuseSfsOpen path) m.fuse fun r s => m.Serves V lo hi (.open (cstr path))
      (if r.1 = 0 then .opened r.2 else .failed)
      ⟨s, if r.1 = 0 then r.2 :: m.handles else m.handles⟩ := by
  unfold fuseSfsOpen
  rw [leads_bind]
  refine (leads_open h.stands path).mono fun pino s₁ hcall => ?_
  obtain ⟨hrun, hret, V₁, hcall⟩ := hcall
  rcases hret with hne | ⟨rfl, herr⟩
  · rw [if_neg hne] at hcall ⊢
    rw [leads_bind]
    refine (h.finds hmem hcall).mono fun vino s₂ hvino => ?_
    obtain ⟨hv, rfl, hsys, htells, hopened⟩ := hvino
    obtain ⟨hname, hsame⟩ := hcall.step.of_open
    have hlive : V₁.vol.LiveFile pino := by
      rw [← hcall.stands.vol]
      exact hfile _ hrun hne
    have hpresent : V₁.tree.Present pino := by
      refine ⟨⟨_, View.content_file hlive.isFile⟩, ?_⟩
      rcases hname with hn | hn
      · exact Or.inl ⟨_, (hsame.named _ _ _).2 hn⟩
      · have hdir : V₁.vol.IsDir pino := Named.isDir ((hsame.named .dir (cstr path) pino).2 hn)
        have hnot : ¬ V₁.vol.IsFile V₁.nodes pino := hdir.not_isFile
        exact absurd hlive.isFile hnot
    rw [if_neg hv, leads_change, leads_pure, if_pos rfl, if_pos rfl]
    refine ⟨V₁, ?_, hsys ▸ hcall.stands, htells.opened hv hne hpresent⟩
    have hnow : openedIn (s₂.map.setOpenbit (s₂.map.getVino pino))
        (s₂.map.getVino pino :: m.handles) =
          (s₂.map.getVino pino, pino) :: openedIn m.fuse.map m.handles := by
      rw [openedIn_setOpenbit, ← hopened]
      exact congrArg (fun o => (_, o) :: _) (InodeMap.getPino_getVino hv)
    show OpenTree.Serves Above _ _ (.opened (s₂.map.getVino pino)) ⟨V₁.tree,
      openedIn (s₂.map.setOpenbit (s₂.map.getVino pino)) (s₂.map.getVino pino :: m.handles)⟩
    rw [hnow]
    refine .open hcall.step (hsame.symm.present hpresent) fun k o hko => ?_
    obtain ⟨hk, rfl⟩ := mem_openedIn.1 (show (k, o) ∈ openedIn s₂.map m.handles from hopened ▸ hko)
    refine ⟨fun heq => heq ▸ InodeMap.getPino_getVino hv, fun heq => ?_⟩
    rw [← heq, (htells.getVino_of_mem hk).2]
  · rw [if_pos rfl] at hcall ⊢
    have hne : ¬ -(s₁.sys.errno : Int) = 0 := by omega
    rw [leads_negErrno, leads_pure, if_neg hne, if_neg hne]
    exact h.failed hcall.step.of_refused.1 hcall fun _ => id

/-- A file that is unlinked and deleted at once, because nobody has it open. -/
theorem drops {path : Buf} {pino : Nat} {map : InodeMap} {V₂ : View}
    {s₂ : Fuse} (hcall : m.fuse.Calls V lo hi (.edit (.unlink path)) (.handle pino)
      (pino :: V.pending) s V')
    (hdelete : s.Calls V' lo hi (.edit (.delete pino)) .done (V'.pending.erase pino) s₂ V₂)
    (hclosed : ∀ w ∈ m.handles, m.fuse.map.getPino w ≠ pino)
    (hopened : openedIn map m.handles = openedIn m.fuse.map m.handles)
    (htells : (∀ o, o ≠ pino → (o ∈ V₂.pending ↔ o ∈ V.pending)) →
      (∀ o, o ≠ pino → V.tree.Present o → V₂.tree.Present o) → map.Tells m.handles V₂) :
    m.Serves V lo hi (.unlink (cstr path)) .done ⟨{ s₂ with map := map }, m.handles⟩ := by
  refine serves hopened (.unlink hcall.step (fun w hw => ?_) hdelete.step) hdelete.stands
    (htells (fun o hne => ?_) fun o hne hp => ?_)
  · obtain ⟨hmem, heq⟩ := mem_openedIn.1 hw
    exact hclosed w hmem heq
  · rw [hdelete.pending, hcall.pending, List.erase_cons_head]
  · exact hdelete.step.present (hcall.step.present hp id) fun heq => hne heq.symm

theorem unlink (h : m.At V lo hi) {path : Buf} (hbits : ∀ w ∈ m.handles,
    Named m.fuse.sys.vol fileKind (m.fuse.map.getPino w) (cstr path) →
      m.fuse.map.getOpenbit w = 1) :
    Leads (fuseSfsUnlink path) m.fuse fun ret s =>
      m.Serves V lo hi (.unlink (cstr path)) (verdict ret 0) ⟨s, m.handles⟩ := by
  have hunlink : Leads (call (sfsUnlink path)) m.fuse fun pino s =>
      (pino ≠ 0 ∨ pino = 0 ∧ s.sys.errno ≠ 0) ∧ ∃ V', m.fuse.Calls V lo hi (.edit (.unlink path))
        (if pino = 0 then .refused else .handle pino)
        (if pino = 0 then V.pending else pino :: V.pending) s V' :=
    leads_unit h.stands ⟨trivial, trivial⟩ rfl (errs_sfsUnlink _)
  unfold fuseSfsUnlink
  rw [leads_bind]
  refine hunlink.mono fun pino s₁ hcall => ?_
  obtain ⟨hne | ⟨rfl, herr⟩, V₁, hcall⟩ := hcall
  · rw [if_neg hne, if_neg hne] at hcall
    have hmap : s₁.map = m.fuse.map := hcall.map_eq
    have hmem : pino ∈ V₁.pending := hcall.pending ▸ List.mem_cons_self
    have hname : Named m.fuse.sys.vol fileKind pino (cstr path) := by
      rw [h.vol]
      exact hcall.step.of_unlink
    rw [if_neg hne, leads_ask, hmap]
    by_cases hvino : m.fuse.map.getVino pino = 0
    · rw [if_pos hvino, leads_bind]
      refine (leads_delete hcall.stands hmem).mono fun ret s₂ hdelete => ?_
      obtain ⟨hret, V₂, hdelete⟩ := hdelete
      rw [if_neg (by rw [hret]; decide), leads_pure, verdict_self]
      have hmap₂ : s₂.map = m.fuse.map := hdelete.map_eq.trans hmap
      exact drops hcall hdelete (fun w => h.tells.not_mem_of_getVino hvino)
        (by rw [hmap₂]) fun hpending hpresent => hmap₂ ▸ h.tells.unknown hvino hpending hpresent
    rw [if_neg hvino, leads_ask, hmap]
    by_cases hbit : m.fuse.map.getOpenbit (m.fuse.map.getVino pino) = 1
    · rw [if_pos hbit, leads_change, leads_pure, verdict_self]
      obtain ⟨f, hf, -⟩ := InodeMap.has_getVino hvino
      have hhandle := h.tells.bit _ f hf (hf.getOpenbit.symm.trans hbit)
      refine serves ?_ (.unlinkOpen hcall.step ⟨m.fuse.map.getVino pino, mem_openedIn.2
        ⟨hhandle, InodeMap.getPino_getVino hvino⟩⟩) hcall.stands ?_
      · rw [hmap]
        exact openedIn_setDirty _ _ _
      · rw [hmap]
        exact h.tells.mark hvino hne hcall.step hcall.pending
    have hclosed : ∀ w ∈ m.handles, m.fuse.map.getPino w ≠ pino := by
      intro w hw heq
      have hv := (h.tells.getVino_of_mem hw).2
      rw [heq] at hv
      rw [hv] at hbit
      exact hbit (hbits w hw (heq ▸ hname))
    have hnot : m.fuse.map.getVino pino ∉ m.handles := fun hv =>
      hclosed _ hv (InodeMap.getPino_getVino hvino)
    rw [if_neg hbit, leads_bind]
    unfold deleteVino
    rw [leads_bind]
    refine (leads_delete hcall.stands hmem).mono fun ret s₂ hdelete => ?_
    obtain ⟨hret, V₂, hdelete⟩ := hdelete
    rw [if_neg (by rw [hret]; decide), leads_change, leads_pure, if_neg (by decide), leads_pure,
      verdict_self]
    have hmap₂ : s₂.map = m.fuse.map := hdelete.map_eq.trans hmap
    rw [hmap₂]
    have hforgets := InodeMap.forgets_setPino hbit
    exact drops hcall hdelete hclosed (hforgets.openedIn h.tells (fun _ => id) hnot)
      fun hpending hpresent => h.tells.forget hforgets rfl hvino hne
        (fun w => ⟨fun hw => ⟨hw, fun heq => hnot (heq ▸ hw)⟩, And.left⟩) hpending hpresent
  · rw [if_pos rfl, if_pos rfl] at hcall
    rw [if_pos rfl, leads_err, verdict_err herr (le_refl _)]
    exact h.failed hcall.step.of_refused.1 hcall fun _ => id

theorem release (h : m.At V lo hi) {vino : Nat} (hv : vino ∈ m.handles)
    (hlast : m.fuse.map.getDirty vino = 1 → vino ∉ m.handles.erase vino) :
    Leads (fuseSfsRelease vino) m.fuse fun ret s =>
      m.Serves V lo hi (.release vino) (verdict ret 0) ⟨s, m.handles.erase vino⟩ := by
  obtain ⟨f, hf, hne, -⟩ := h.tells.handle vino hv
  obtain ⟨l, l', hopened, hrest⟩ := openedIn_erase m.fuse.map hv
  have hdirty := h.tells.dirty vino f hf hne
  rw [← hf.getPino, ← hf.getDirty] at hdirty
  unfold fuseSfsRelease
  rw [leads_ask]
  by_cases hd : m.fuse.map.getDirty vino = 1
  · have hnot := hlast hd
    rw [if_pos hd, leads_ask, leads_bind]
    unfold deleteVino
    rw [leads_bind]
    refine (leads_delete h.stands (hdirty.1 hd)).mono fun ret s₁ hdelete => ?_
    obtain ⟨hret, V₁, hdelete⟩ := hdelete
    rw [if_neg (by rw [hret]; decide), leads_change, leads_pure, if_neg (by decide),
      leads_change, leads_pure, verdict_self]
    have hmap : s₁.map = m.fuse.map := hdelete.map_eq
    have hforgets := m.fuse.map.forgets_release vino
    have hsub : ∀ w ∈ m.handles.erase vino, w ∈ m.handles := fun w => List.mem_of_mem_erase
    have hnow := (hforgets.openedIn h.tells hsub hnot).trans hrest
    refine ⟨V₁, ?_, hdelete.stands, ?_⟩
    · show OpenTree.Serves Above _ _ _ ⟨V₁.tree,
        openedIn ((s₁.map.setPino vino 0).clrOpenbit vino) (m.handles.erase vino)⟩
      rw [hmap, hnow]
      refine .last hopened (fun w hw => ?_) hdelete.step
      rw [← hrest] at hw
      obtain ⟨hmem, heq⟩ := mem_openedIn.1 hw
      exact hnot ((h.tells.number (hsub w hmem) hv).2 heq ▸ hmem)
    · show ((s₁.map.setPino vino 0).clrOpenbit vino).Tells _ _
      rw [hmap]
      refine h.tells.forget hforgets (h.tells.getVino_of_mem hv).2 (Nat.ne_of_gt hf.1)
        (h.tells.getVino_of_mem hv).1 (fun w => ?_) (fun o hother => ?_) fun o hother hp => ?_
      · refine ⟨fun hw => ⟨hsub w hw, fun heq => hnot (heq ▸ hw)⟩, fun hw => ?_⟩
        exact (List.mem_erase_of_ne hw.2).2 hw.1
      · rw [hdelete.pending, List.mem_erase_of_ne hother]
      · exact hdelete.step.present hp fun heq => hother heq.symm
  · rw [if_neg hd, leads_change, leads_pure, verdict_self]
    refine ⟨V, ?_, h.stands, h.tells.close vino⟩
    show OpenTree.Serves Above _ _ _ ⟨V.tree,
      openedIn (m.fuse.map.clrOpenbit vino) (m.handles.erase vino)⟩
    rw [openedIn_clrOpenbit, hrest]
    exact .release hopened (fun hu => absurd (hdirty.2 hu) hd) (Same.refl _)

/-! ### Bytes -/

theorem read (h : m.At V lo hi) {vino size off : Nat} (hv : vino ∈ m.handles)
    (hsize : size < 2147483648) (hrange : off + size < 9223372036854775808)
    (hblocks : off % m.fuse.sys.vol.blockSize = 0 ∨ off % m.fuse.sys.vol.blockSize +
      min size (m.fuse.sys.vol.get (m.fuse.map.getPino vino) .size - off) ≤
        m.fuse.sys.vol.blockSize) (buf : Mem) :
    Leads (fuseSfsRead vino buf size off) m.fuse fun r s => m.Serves V lo hi (.read vino size off)
      (if r.1 < 0 then .failed else .bytes (bytesOf r.2 r.1.toNat)) ⟨s, m.handles⟩ := by
  rw [h.vol] at hblocks
  have hknown : V.vol.LiveFile (m.fuse.map.getPino vino) ∨
      m.fuse.map.getPino vino ∈ V.pending := by
    rcases (h.tells.present hv).kept with ⟨p, hn⟩ | hu
    · exact Or.inl (Named.liveFile hn)
    · exact Or.inr hu
  have hread : Leads (call (sfsRead (m.fuse.map.getPino vino) buf size off)) m.fuse fun a s =>
      (a.1 ≠ minusOne ∨ a.1 = minusOne ∧ s.sys.errno ≠ 0) ∧ ∃ V', m.fuse.Calls V lo hi
        (.read (m.fuse.map.getPino vino) buf size off)
        (if a.1 = minusOne then .refused else .bytes (bytesOf a.2 a.1)) V.pending s V' :=
    leads_unit h.stands ⟨hknown, hrange, hblocks⟩ rfl (errs_sfsRead _ _ _ _)
  unfold fuseSfsRead
  rw [leads_ask, leads_bind]
  refine hread.mono fun a s hcall => ?_
  obtain ⟨hret, V', hcall⟩ := hcall
  obtain ⟨ret, out⟩ := a
  rcases hret with hne | ⟨heq, herr⟩
  · rw [if_neg hne] at hcall
    have hlen := hcall.step.of_read rfl
    rw [bytesOf, List.length_map, List.length_range] at hlen
    dsimp only
    rw [cInt_of_lt (Nat.lt_of_le_of_lt hlen hsize), if_neg (by omega), leads_pure]
    dsimp only
    rw [if_neg (by omega), Int.toNat_natCast]
    exact h.does hcall (.read (mem_openedIn.2 ⟨hv, rfl⟩) hcall.step) fun _ => id
  · obtain rfl : ret = minusOne := heq
    rw [if_pos rfl] at hcall
    dsimp only
    rw [if_pos (by decide), leads_negErrno, leads_pure]
    dsimp only
    rw [if_pos (by omega)]
    obtain ⟨l, hl, hlt⟩ := hcall.step.of_refused.1
    exact h.failed ⟨_, l, mem_openedIn.2 ⟨hv, rfl⟩, hl, hlt⟩ hcall fun _ => id

theorem write (h : m.At V lo hi) {vino size off : Nat} {buf : Mem} (hv : vino ∈ m.handles)
    (hsize : size < 2147483648) (hrange : off + size < 9223372036854775808)
    (hlive : m.fuse.sys.vol.LiveFile (m.fuse.map.getPino vino))
    (hsafe : (Op.write (m.fuse.map.getPino vino) buf size off).Safe m.fuse.sys.vol) :
    Leads (fuseSfsWrite vino buf size off) m.fuse fun ret s =>
      m.Serves V lo hi (.write vino off (bytesOf buf size)) (verdict ret size) ⟨s, m.handles⟩ := by
  rw [h.vol] at hlive hsafe
  have hwrite : Leads (call (sfsWrite (m.fuse.map.getPino vino) buf size off)) m.fuse fun ret s =>
      (ret = size ∨ ret = minusOne ∧ s.sys.errno ≠ 0) ∧ ∃ V', m.fuse.Calls V lo hi
        (.edit (.write (m.fuse.map.getPino vino) buf size off))
        (if ret = minusOne then .refused else .done) V.pending s V' :=
    leads_unit h.stands ⟨⟨hlive, hrange⟩, hsafe⟩ rfl (errs_sfsWrite_size _ _ _ _)
  unfold fuseSfsWrite
  rw [leads_ask, leads_bind]
  refine hwrite.mono fun ret s hcall => ?_
  obtain ⟨hret | ⟨hret, herr⟩, V', hcall⟩ := hcall
  · have hne : size ≠ minusOne := Nat.ne_of_lt (Nat.lt_trans hsize (by decide))
    rw [hret, if_neg hne] at hcall
    rw [hret, cInt_of_lt hsize, if_neg (by omega), leads_pure, verdict_self]
    exact h.does hcall (.write (mem_openedIn.2 ⟨hv, rfl⟩) hcall.step) fun _ => id
  · rw [if_pos hret] at hcall
    rw [hret, if_pos (by decide), leads_err, verdict_err herr (Int.natCast_nonneg _)]
    exact h.failed trivial hcall fun _ => id

theorem truncate (h : m.At V lo hi) {path : Buf} {size : Nat}
    (hfile : m.fuse.sys.Opens path fun v file =>
      v.LiveFile file ∧ (Op.truncate file size).Safe v) :
    Leads (fuseSfsTruncate path size) m.fuse fun ret s =>
      m.Serves V lo hi (.truncate (cstr path) size) (verdict ret 0) ⟨s, m.handles⟩ := by
  unfold fuseSfsTruncate
  rw [leads_bind]
  refine (leads_open h.stands path).mono fun pino s₁ hcall => ?_
  obtain ⟨hrun, hret, V₁, hcall⟩ := hcall
  rcases hret with hne | ⟨rfl, herr⟩
  · rw [if_neg hne] at hcall ⊢
    have hvol : s₁.sys.vol = V₁.vol := hcall.stands.vol
    obtain ⟨hlive, hsafe⟩ : s₁.sys.vol.LiveFile pino ∧ (Op.truncate pino size).Safe s₁.sys.vol :=
      hfile _ hrun hne
    rw [hvol] at hlive hsafe
    rw [leads_bind]
    refine (leads_truncate hcall.stands hlive hsafe).mono fun ret s₂ hcall' => ?_
    obtain ⟨hret, V₂, hcall'⟩ := hcall'
    have hmap : s₂.map = m.fuse.map := hcall'.map_eq.trans hcall.map_eq
    have htells : s₂.map.Tells m.handles V₂ := by
      rw [hmap]
      exact (h.tells.step hcall.step hcall.pending fun _ => id).step hcall'.step hcall'.pending
        fun _ => id
    rcases hret with rfl | ⟨rfl, herr⟩
    · rw [if_pos rfl] at hcall'
      rw [if_neg (by decide), leads_pure, verdict_self]
      exact serves (by rw [hmap]) (.truncate hcall.step hcall'.step) hcall'.stands htells
    · rw [if_neg (by decide)] at hcall'
      rw [if_pos (by decide), leads_err, verdict_err herr (le_refl _)]
      exact serves (by rw [hmap]) (.failed trivial
        (hcall.step.of_open.2.trans hcall'.step.of_refused.2)) hcall'.stands htells
  · rw [if_pos rfl] at hcall ⊢
    rw [leads_err, verdict_err herr (le_refl _)]
    exact h.failed trivial hcall fun _ => id

theorem ftruncate (h : m.At V lo hi) {vino size : Nat} (hv : vino ∈ m.handles)
    (hlive : m.fuse.sys.vol.LiveFile (m.fuse.map.getPino vino))
    (hsafe : (Op.truncate (m.fuse.map.getPino vino) size).Safe m.fuse.sys.vol) :
    Leads (fuseSfsFtruncate vino size) m.fuse fun ret s =>
      m.Serves V lo hi (.ftruncate vino size) (verdict ret 0) ⟨s, m.handles⟩ := by
  rw [h.vol] at hlive hsafe
  unfold fuseSfsFtruncate
  rw [leads_ask, leads_bind]
  refine (leads_truncate h.stands hlive hsafe).mono fun ret s hcall => ?_
  obtain ⟨rfl | ⟨rfl, herr⟩, V', hcall⟩ := hcall
  · rw [if_pos rfl] at hcall
    rw [if_neg (by decide), leads_pure, verdict_self]
    exact h.does hcall (.ftruncate (mem_openedIn.2 ⟨hv, rfl⟩) hcall.step) fun _ => id
  · rw [if_neg (by decide)] at hcall
    rw [if_pos (by decide), leads_err, verdict_err herr (le_refl _)]
    exact h.failed trivial hcall fun _ => id

/-- A callback is served when what it leads to is. -/
theorem performs_of {α : Type} {p : FuseM α} {F : α × Fuse → Response × Mount} {call : UserCall}
    (hperform : call.perform m = (p m.fuse).map F)
    (hp : Leads p m.fuse fun a s => m.Serves V lo hi call.asks (F (a, s)).1 (F (a, s)).2) :
    ∃ answer m' V', call.perform m = some (answer, m') ∧
      OpenTree.Serves Above (m.shows V) call.asks answer (m'.shows V') ∧ m'.At V' lo hi := by
  obtain ⟨a, s, hrun, V', hserves, hat⟩ := hp
  refine ⟨_, _, V', ?_, hserves, hat⟩
  rw [hperform, hrun]
  rfl

/-- Every callback in order returns, what it answers is allowed, and the unit and the map
are as they should be again. -/
theorem performs (h : m.At V lo hi) {call : UserCall} (hcall : call.Admitted m) :
    ∃ answer m' V', call.perform m = some (answer, m') ∧
      OpenTree.Serves Above (m.shows V) call.asks answer (m'.shows V') ∧ m'.At V' lo hi := by
  cases call with
  | getattr path => exact performs_of rfl (h.getattr hcall path)
  | mknod path mode => exact performs_of rfl (h.mknod hcall)
  | mkdir path => exact performs_of rfl (h.mkdir path)
  | rmdir path => exact performs_of rfl (h.rmdir path)
  | unlink path => exact performs_of rfl (h.unlink hcall)
  | «open» path => exact performs_of rfl (h.open hcall.1 hcall.2)
  | release vino => exact performs_of rfl (h.release hcall.1 hcall.2)
  | read vino buf size off =>
    exact performs_of rfl (h.read hcall.1 hcall.2.1 hcall.2.2.1 hcall.2.2.2 buf)
  | write vino buf size off =>
    exact performs_of rfl (h.write hcall.1 hcall.2.1 hcall.2.2.1 hcall.2.2.2.1 hcall.2.2.2.2)
  | truncate path size => exact performs_of rfl (h.truncate hcall)
  | ftruncate vino size => exact performs_of rfl (h.ftruncate hcall.1 hcall.2.1 hcall.2.2)

end Mount.At

end Sfs
