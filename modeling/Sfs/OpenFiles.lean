import Sfs.InodeRuns
import Sfs.StaleCache

/-!
# Open files

A file that is unlinked while it is open is to live until its last handle is
released, and to be deleted then.  The inode map has one bit for that, and one to
say that the file is unlinked; it does not count the handles.

* `OpenFiles` is a run of the callbacks on files, with the open handles and the
  deletions that are due next to those that were made;
* `FileRequest.step_callback` is that the run leaves the state its callbacks leave;
* `FileRequest.Orderly` is what a callback must find for the two bits to do;
* `OpenFiles.Sound.steps` is one callback, and `open_files_kept` a run;
* `release_loses_open_file` is the run where the second handle of a file is left
  without it.
-/

namespace Sfs

open Lib Fuse

/-! ## The records of the map -/

namespace InodeMap

variable {m : InodeMap} {v w pino : Nat} {f : FileT}

/-- The inode has the record. -/
def Has (m : InodeMap) (v : Nat) (f : FileT) : Prop := 0 < v ∧ m.table[v]? = some f

theorem Has.getPino (h : m.Has v f) : m.getPino v = f.pino := by
  simp [InodeMap.getPino, h.2]

theorem Has.getDirty (h : m.Has v f) : m.getDirty v = f.dirty := by
  simp [InodeMap.getDirty, h.2]

theorem Has.getOpenbit (h : m.Has v f) : m.getOpenbit v = f.openbit := by
  simp [InodeMap.getOpenbit, h.2]

theorem Has.lt (h : m.Has v f) : v < m.maxVino := by
  obtain ⟨hlt, -⟩ := List.getElem?_eq_some_iff.1 h.2
  exact hlt

theorem Has.unique {f' : FileT} (h : m.Has v f) (h' : m.Has v f') : f = f' :=
  Option.some.inj (h.2.symm.trans h'.2)

/-- Inodes with the same offset are one. -/
theorem Injective.has_unique {f' : FileT} (hinj : m.Injective) (h : m.Has v f) (h' : m.Has w f')
    (hne : f.pino ≠ 0) (heq : f.pino = f'.pino) : v = w :=
  hinj v w h.1 h.lt h'.1 h'.lt (by rw [h.getPino]; exact hne)
    (by rw [h.getPino, h'.getPino]; exact heq)

theorem has_getVino (h : m.getVino pino ≠ 0) : ∃ f, m.Has (m.getVino pino) f ∧ f.pino = pino := by
  have hlt : m.getVino pino < m.table.length := getVino_lt h
  have hhas : m.Has (m.getVino pino) m.table[m.getVino pino] :=
    ⟨Nat.pos_of_ne_zero h, List.getElem?_eq_getElem hlt⟩
  exact ⟨_, hhas, hhas.getPino.symm.trans (getPino_getVino h)⟩

/-- An offset of the map is found. -/
theorem Has.getVino_ne_zero (h : m.Has v f) : m.getVino f.pino ≠ 0 := by
  rw [← h.getPino]
  exact InodeMap.getVino_ne_zero h.1 h.lt

theorem Has.getVino_pino (h : m.Has v f) (hinj : m.Injective) (hne : f.pino ≠ 0) :
    m.getVino f.pino = v := by
  have hback := hinj.getVino_getPino h.1 h.lt (by rw [h.getPino]; exact hne)
  rw [h.getPino] at hback
  exact hback

theorem has_modify {g : FileT → FileT} {f' : FileT} :
    (m.modify v g).Has w f' ↔ ∃ f, m.Has w f ∧ f' = if v = w then g f else f := by
  unfold Has modify
  simp only [List.getElem?_modify]
  constructor
  · intro ⟨hw, h⟩
    obtain ⟨f, hf, h⟩ := Option.map_eq_some_iff.1 h
    exact ⟨f, ⟨hw, hf⟩, h.symm⟩
  · intro ⟨f, ⟨hw, hf⟩, h⟩
    refine ⟨hw, ?_⟩
    rw [hf, h]
    split <;> rfl

/-- `pino_add` leaves the records, and may add one. -/
theorem Has.pinoAdd (h : m.Has v f) (grows : Bool) : (m.pinoAdd grows pino).2.Has v f := by
  refine ⟨h.1, ?_⟩
  unfold InodeMap.pinoAdd
  split
  · exact h.2
  · rw [List.getElem?_append_left h.lt]
    exact h.2

theorem has_pinoAdd {grows : Bool} (h : (m.pinoAdd grows pino).2.Has v f) :
    m.Has v f ∨ f = ⟨pino, 0, 0⟩ := by
  obtain ⟨hv, hget⟩ := h
  unfold InodeMap.pinoAdd at hget
  split at hget
  · exact Or.inl ⟨hv, hget⟩
  · by_cases hlt : v < m.table.length
    · rw [List.getElem?_append_left hlt] at hget
      exact Or.inl ⟨hv, hget⟩
    · rw [List.getElem?_append_right (Nat.le_of_not_lt hlt)] at hget
      refine Or.inr (List.mem_singleton.1 (List.mem_of_getElem? hget))

/-- The inode of an offset, if there is one, loses it: every record was there. -/
theorem Injective.has_dropped {m' : InodeMap} (hinj : m.Injective) (hz : pino ≠ 0)
    (hmap : m.getVino pino = 0 ∧ m' = m ∨
      m.getVino pino ≠ 0 ∧ m' = m.setPino (m.getVino pino) 0) (hf : m'.Has w f) :
    ∃ f₀, m.Has w f₀ ∧ f.openbit = f₀.openbit ∧ (f.pino = 0 ∨ f = f₀ ∧ f₀.pino ≠ pino) := by
  rcases hmap with ⟨hzero, rfl⟩ | ⟨hvino, rfl⟩
  · exact ⟨f, hf, rfl, Or.inr ⟨rfl, fun heq => hf.getVino_ne_zero (heq.symm ▸ hzero)⟩⟩
  · obtain ⟨f₀, hf₀, rfl⟩ := has_modify.1 hf
    refine ⟨f₀, hf₀, ?_⟩
    by_cases heq : m.getVino pino = w
    · rw [if_pos heq]
      exact ⟨rfl, Or.inl rfl⟩
    · rw [if_neg heq]
      obtain ⟨g, hg, hpino⟩ := has_getVino hvino
      exact ⟨rfl, Or.inr ⟨rfl, fun heq' =>
        heq (hinj.has_unique hg hf₀ (hpino ▸ hz) (hpino.trans heq'.symm))⟩⟩

/-- The records of other offsets stay. -/
theorem Has.dropped {m' : InodeMap} (hf : m.Has w f) (hne : f.pino ≠ pino)
    (hmap : m.getVino pino = 0 ∧ m' = m ∨
      m.getVino pino ≠ 0 ∧ m' = m.setPino (m.getVino pino) 0) : m'.Has w f := by
  rcases hmap with ⟨-, rfl⟩ | ⟨hvino, rfl⟩
  · exact hf
  · refine has_modify.2 ⟨f, hf, (if_neg fun heq => hne ?_).symm⟩
    obtain ⟨g, hg, hpino⟩ := has_getVino hvino
    obtain rfl := hf.unique (heq ▸ hg)
    exact hpino

/-- The inode loses its offset and its open bit; the other records were there. -/
theorem has_cleared (hf : ((m.setPino v 0).clrOpenbit v).Has w f) : ∃ f₀, m.Has w f₀ ∧
    (v = w ∧ f.pino = 0 ∧ f.openbit = 0 ∨ v ≠ w ∧ f = f₀) := by
  obtain ⟨f₁, hf₁, rfl⟩ := has_modify.1 hf
  obtain ⟨f₀, hf₀, rfl⟩ := has_modify.1 hf₁
  refine ⟨f₀, hf₀, ?_⟩
  by_cases heq : v = w
  · rw [if_pos heq, if_pos heq]
    exact Or.inl ⟨heq, rfl, rfl⟩
  · rw [if_neg heq, if_neg heq]
    exact Or.inr ⟨heq, rfl⟩

theorem Has.cleared (hf : m.Has w f) (hne : v ≠ w) : ((m.setPino v 0).clrOpenbit v).Has w f := by
  refine has_modify.2 ⟨f, has_modify.2 ⟨f, hf, ?_⟩, ?_⟩ <;> exact (if_neg hne).symm

end InodeMap

/-! ## The callbacks on files -/

/-- What `fuse_sfs_open` has put into `fi->fh`, and the offset that `sfs_open`
gave it. -/
structure Handle where
  vino : Nat
  file : Nat
  deriving DecidableEq

/-- A run of the callbacks: their state, the open handles, the files that were
unlinked while they were open and are to be deleted, the deletions that were due,
and the offsets that `sfs_delete` was called for. -/
structure OpenFiles where
  fuse : Fuse
  handles : List Handle
  unlinked : List Nat
  due : List Nat
  deleted : List Nat

namespace OpenFiles

/-- A call of `fuse_sfs_open` that returns 0 gives a handle. -/
def «open» (s : OpenFiles) (ret : Int) (h : Handle) : OpenFiles :=
  if ret = 0 then { s with handles := h :: s.handles } else s

/-- The file is unlinked: it is to be deleted now, or when its last handle is
released. -/
def unlink (s : OpenFiles) (file : Nat) : OpenFiles :=
  if file = 0 then s
  else if ∃ h ∈ s.handles, h.file = file then { s with unlinked := file :: s.unlinked }
  else { s with due := s.due ++ [file] }

/-- A handle of the file is released: an unlinked file is to be deleted if that
was the last one. -/
def close (s : OpenFiles) (file : Nat) : OpenFiles :=
  if file ∈ s.unlinked ∧ ∀ h ∈ s.handles, h.file ≠ file then
    { s with unlinked := s.unlinked.erase file, due := s.due ++ [file] }
  else s

variable (s : OpenFiles) (file : Nat)

@[simp] theorem fuse_open (ret : Int) (h : Handle) : (s.«open» ret h).fuse = s.fuse := by
  unfold OpenFiles.open
  split <;> rfl

@[simp] theorem fuse_unlink : (s.unlink file).fuse = s.fuse := by
  unfold OpenFiles.unlink
  split
  · rfl
  · split <;> rfl

@[simp] theorem fuse_close : (s.close file).fuse = s.fuse := by
  unfold OpenFiles.close
  split <;> rfl

end OpenFiles

/-- `fuse_sfs_unlink`, and the offsets it calls `sfs_delete` for. -/
def unlinkCalls (path : Buf) : FuseM (Int × List Nat) := do
  let pino ← call (sfsUnlink path)
  if pino = 0 then
    let err ← negErrno
    pure (err, [])
  else
    let vino ← ask fun m => m.getVino pino
    if vino = 0 then
      let ret ← call (sfsDelete pino)
      if ret = -1 then
        let err ← negErrno
        pure (err, [pino])
      else pure (0, [pino])
    else
      let bit ← ask fun m => m.getOpenbit vino
      if bit = 1 then
        change fun m => m.setDirty vino
        pure (0, [])
      else
        let ret ← deleteVino vino pino
        if ret = -1 then
          let err ← negErrno
          pure (err, [pino])
        else pure (0, [pino])

theorem unlinkCalls_fst (path : Buf) :
    (unlinkCalls path >>= fun x => pure x.1) = fuseSfsUnlink path := by
  unfold unlinkCalls fuseSfsUnlink
  simp only [bind_assoc]
  refine bind_congr fun pino => ?_
  split
  · simp
  simp only [bind_assoc]
  refine bind_congr fun vino => ?_
  split
  · simp only [bind_assoc]
    refine bind_congr fun ret => ?_
    split <;> simp
  simp only [bind_assoc]
  refine bind_congr fun bit => ?_
  split
  · simp
  simp only [bind_assoc]
  refine bind_congr fun ret => ?_
  split <;> simp

/-- `fuse_sfs_release`, and the offsets it calls `sfs_delete` for. -/
def releaseCalls (vino : Nat) : FuseM (Int × List Nat) := do
  let dirty ← ask fun m => m.getDirty vino
  if dirty = 1 then
    let pino ← ask fun m => m.getPino vino
    let ret ← deleteVino vino pino
    if ret = -1 then
      let err ← negErrno
      pure (err, [pino])
    else
      change fun m => m.clrOpenbit vino
      pure (0, [pino])
  else
    change fun m => m.clrOpenbit vino
    pure (0, [])

theorem releaseCalls_fst (vino : Nat) :
    (releaseCalls vino >>= fun x => pure x.1) = fuseSfsRelease vino := by
  unfold releaseCalls fuseSfsRelease
  simp only [bind_assoc]
  refine bind_congr fun dirty => ?_
  split
  · simp only [bind_assoc]
    refine bind_congr fun pino => bind_congr fun ret => ?_
    split <;> simp
  · simp

/-- A call of a callback on files.  A handle is given by its place among the open
ones. -/
inductive FileRequest where
  | mknod (path : Buf) (mode : Nat)
  | «open» (path : Buf)
  | unlink (path : Buf)
  | release (n : Nat)
  | read (n : Nat) (buf : Mem) (size offset : Nat)
  | write (n : Nat) (buf : Mem) (size offset : Nat)

namespace FileRequest

/-- The run after a callback; `none` when it does not return, or when there is no
such handle. -/
def step (s : OpenFiles) : FileRequest → Option OpenFiles
  | mknod path mode => (fuseSfsMknod path mode s.fuse).map fun x => { s with fuse := x.2 }
  | .open path => (s.fuse.sys.exec (sfsOpen path)).bind fun x =>
    (fuseSfsOpen path s.fuse).map fun y => { s with fuse := y.2 }.«open» y.1.1 ⟨y.1.2, x.1⟩
  | unlink path => (s.fuse.sys.exec (sfsUnlink path)).bind fun x =>
    (unlinkCalls path s.fuse).map fun y =>
      { s with fuse := y.2, deleted := s.deleted ++ y.1.2 }.unlink x.1
  | release n => s.handles[n]?.bind fun h => (releaseCalls h.vino s.fuse).map fun y =>
    { s with
      fuse := y.2
      handles := s.handles.eraseIdx n
      deleted := s.deleted ++ y.1.2 }.close h.file
  | read n buf size offset => s.handles[n]?.bind fun h =>
    (fuseSfsRead h.vino buf size offset s.fuse).map fun x => { s with fuse := x.2 }
  | write n buf size offset => s.handles[n]?.bind fun h =>
    (fuseSfsWrite h.vino buf size offset s.fuse).map fun x => { s with fuse := x.2 }

/-- The state after the callback of `main.c`, for the open handles. -/
def callback (handles : List Handle) (s : Fuse) : FileRequest → Option Fuse
  | mknod path mode => (fuseSfsMknod path mode s).map Prod.snd
  | .open path => (fuseSfsOpen path s).map Prod.snd
  | unlink path => (fuseSfsUnlink path s).map Prod.snd
  | release n => handles[n]?.bind fun h => (fuseSfsRelease h.vino s).map Prod.snd
  | read n buf size offset => handles[n]?.bind fun h =>
    (fuseSfsRead h.vino buf size offset s).map Prod.snd
  | write n buf size offset => handles[n]?.bind fun h =>
    (fuseSfsWrite h.vino buf size offset s).map Prod.snd

/-- A callback returns only if its first call does. -/
theorem map_exec_bind {α β : Type} {p : SfsM α} {f : α → FuseM β} {s : Fuse}
    {g : α × Sys → β × Fuse → OpenFiles} (hg : ∀ x y, (g x y).fuse = y.2) :
    ((s.sys.exec p).bind fun x => ((call p >>= f) s).map (g x)).map OpenFiles.fuse =
      ((call p >>= f) s).map Prod.snd := by
  cases hx : s.sys.exec p with
  | none =>
    have hcall : (call p >>= f) s = none := by
      show (((s.sys.exec p).map _).bind _) = none
      rw [hx]
      rfl
    rw [hcall]
    rfl
  | some x =>
    rw [Option.bind_some, Option.map_map]
    exact congrArg (fun k => Option.map k _) (funext fun y => hg x y)

/-- What a run records, it records next to the callbacks, and it returns when they
do. -/
theorem step_callback (s : OpenFiles) (req : FileRequest) :
    (req.step s).map OpenFiles.fuse = req.callback s.handles s.fuse := by
  cases req with
  | mknod path mode => exact Option.map_map ..
  | «open» path => exact map_exec_bind fun _ _ => OpenFiles.fuse_open _ _ _
  | unlink path =>
    have hcalls : fuseSfsUnlink path s.fuse =
        (unlinkCalls path s.fuse).map fun y => (y.1.1, y.2) := by
      rw [← unlinkCalls_fst]
      exact (Option.map_eq_bind).symm
    rw [callback, hcalls, Option.map_map]
    exact map_exec_bind fun _ _ => OpenFiles.fuse_unlink _ _
  | release n =>
    rw [step, callback, Option.map_bind]
    refine congrArg (Option.bind _) (funext fun h => ?_)
    have hcalls : fuseSfsRelease h.vino s.fuse =
        (releaseCalls h.vino s.fuse).map fun y => (y.1.1, y.2) := by
      rw [← releaseCalls_fst]
      exact (Option.map_eq_bind).symm
    rw [Function.comp_apply, hcalls, Option.map_map, Option.map_map]
    exact congrArg (fun k => Option.map k _) (funext fun y => OpenFiles.fuse_close _ _)
  | read n buf size offset =>
    rw [step, callback, Option.map_bind]
    exact congrArg (Option.bind _) (funext fun h => Option.map_map ..)
  | write n buf size offset =>
    rw [step, callback, Option.map_bind]
    exact congrArg (Option.bind _) (funext fun h => Option.map_map ..)

/-- The handle is open, the arguments are in order, and the bits of the map say
what the callback needs to know of the handles. -/
def Orderly (s : OpenFiles) : FileRequest → Prop
  | unlink path => ∀ h ∈ s.handles, s.fuse.sys.vol.First fileKind h.file (cstr path) →
    s.fuse.map.getOpenbit h.vino = 1
  | release n => ∃ h, s.handles[n]? = some h ∧ (s.fuse.map.getDirty h.vino = 1 →
    ∀ h' ∈ s.handles.eraseIdx n, h'.file ≠ h.file)
  | read n _ size offset => ∃ h, s.handles[n]? = some h ∧ ¬ s.fuse.sys.vol.IsDir h.file ∧
    offset + size < 9223372036854775808
  | write n _ size offset => ∃ h, s.handles[n]? = some h ∧ ¬ s.fuse.sys.vol.IsDir h.file ∧
    offset + size < 9223372036854775808 ∧
      ∀ nodes, FreeList s.fuse.sys.vol nodes → s.fuse.sys.vol.GrowsSafely nodes h.file
        (max (s.fuse.sys.vol.get h.file .size) (offset + size))
  | _ => True

end FileRequest

/-! ## What the map says of the volume -/

/-- The offset of a record is that of a file or a directory, and of an unlinked
file if the record is dirty. -/
def Vol.Tracks (v : Vol) (nodes : List Nat) (f : FileT) : Prop :=
  f.pino ≠ 0 → (f.dirty = 1 ∧ v.Pending nodes f.pino) ∨
    (f.dirty ≠ 1 ∧ (v.LiveFile f.pino ∨ v.IsDir f.pino))

/-- The entry is there, its slots are in use, and its blocks are not free. -/
structure Vol.InUse (v : Vol) (nodes : List Nat) (a : Nat) : Prop where
  entry : v.IsFile nodes a ∨ v.IsDir a
  slots : ∀ j, j ≤ v.cont a → v.type (a + 64 * j) ≠ EntryType.unusedEntry.code
  blocks : v.IsFile nodes a → ∀ b, v.FileOwns a b → ¬ v.Free nodes b

section

variable {v v' : Vol} {nodes nodes' : List Nat} {lo hi a o : Nat} {f : FileT}

theorem Vol.Tracks.entry (h : v.Tracks nodes f) (hne : f.pino ≠ 0) :
    v.IsFile nodes f.pino ∨ v.IsDir f.pino := by
  rcases h hne with ⟨-, hp⟩ | ⟨-, hlive | hdir⟩
  · exact Or.inl hp.isFile
  · exact Or.inl hlive.isFile
  · exact Or.inr hdir

theorem Vol.Tracks.head (h : v.Tracks nodes f) (hne : f.pino ≠ 0) : v.Head f.pino :=
  (h.entry hne).elim (fun hfile => hfile.head) fun hdir => hdir.head

/-- An unlinked file is not live. -/
theorem Vol.Tracks.dirty_ne (h : v.Tracks nodes f) (hne : f.pino ≠ 0)
    (hlive : v.LiveFile f.pino ∨ v.IsDir f.pino) : f.dirty ≠ 1 := by
  rcases h hne with ⟨-, hp⟩ | ⟨hd, -⟩
  · rcases hlive with hlive | hdir
    · exact absurd hp hlive.not_pending
    · exact absurd hp hdir.not_pending
  · exact hd

/-- A change of another entry does not matter. -/
theorem Vol.Keeps.tracks (hk : v.Keeps v' nodes nodes' a) (h : v.Tracks nodes f)
    (hne : f.pino ≠ a) : v'.Tracks nodes' f := by
  intro hz
  refine (h hz).imp (And.imp_right (hk.pending hne)) (And.imp_right ?_)
  refine Or.imp (fun hlive => ⟨hk.area.slot.2 hlive.1, ?_⟩) (hk.dir _ hne).2
  exact ((hk.sameFile _ hne hlive.isFile).get_eq _).trans hlive.2

theorem WellFormed.inUse (hw : WellFormed v nodes lo hi) (h : v.IsFile nodes a ∨ v.IsDir a) :
    v.InUse nodes a := by
  have hl := hw.layout
  have hslot : v.Slot a := h.elim And.left And.left
  have hhead : v.Head a := h.elim (fun hfile => hfile.head) fun hdir => hdir.head
  refine ⟨h, fun j hj hun => ?_, fun hfile b hb => hw.apart a hfile b hb⟩
  cases j with
  | zero =>
    rw [Nat.mul_zero, Nat.add_zero] at hun
    rcases hhead with ht | ht | ht <;> rw [ht] at hun <;> exact absurd hun (by decide)
  | succ j =>
    refine hl.pieces a hslot hhead j (by omega) ?_
    rw [hun]
    exact isType_code _

end

/-! ## Sound runs -/

namespace OpenFiles

/-- The deletions made are those that were due, none of them is of offset 0, and
every open handle has the offset of its file, which is in use. -/
structure Kept (s : OpenFiles) : Prop where
  calls : s.deleted = s.due
  nonzero : 0 ∉ s.deleted
  pino : ∀ h ∈ s.handles, s.fuse.map.getPino h.vino = h.file
  inUse : ∀ h ∈ s.handles, ∃ nodes, FreeList s.fuse.sys.vol nodes ∧
    s.fuse.sys.vol.InUse nodes h.file

/-- The volume is well formed, and the map says of it and of the handles what it
should: a set open bit means a handle, and a dirty inode an unlinked file. -/
structure Sound (s : OpenFiles) (v : Vol) (nodes : List Nat) (lo hi : Nat) : Prop where
  rests : Rests v hi s.fuse.sys
  view : View.Sound ⟨v, nodes, s.unlinked⟩ lo hi
  apart : s.fuse.map.Injective
  tracks : ∀ w f, s.fuse.map.Has w f → v.Tracks nodes f
  bit : ∀ w f, s.fuse.map.Has w f → f.openbit = 1 → ∃ h ∈ s.handles, h.vino = w
  handle : ∀ h ∈ s.handles, h.file ≠ 0 ∧
    ∃ f, s.fuse.map.Has h.vino f ∧ f.pino = h.file ∧ (f.dirty = 1 ↔ h.file ∈ s.unlinked)
  calls : s.deleted = s.due
  nonzero : 0 ∉ s.due

namespace Sound

variable {s : OpenFiles} {v v' : Vol} {nodes nodes' : List Nat} {lo hi : Nat}

theorem wellFormed (h : s.Sound v nodes lo hi) : WellFormed v nodes lo hi := h.view.toWellFormed

theorem vol (h : s.Sound v nodes lo hi) : s.fuse.sys.vol = v :=
  h.rests.elim (fun h => h.vol) fun h => h.vol

theorem kept (h : s.Sound v nodes lo hi) : s.Kept := by
  refine ⟨h.calls, h.calls ▸ h.nonzero, fun x hx => ?_, fun x hx => ?_⟩
  · obtain ⟨-, f, hf, hpino, -⟩ := h.handle x hx
    rw [hf.getPino, hpino]
  · obtain ⟨hne, f, hf, hpino, -⟩ := h.handle x hx
    rw [h.vol]
    refine ⟨nodes, h.wellFormed.space.toFreeList, h.wellFormed.inUse ?_⟩
    have hentry := (h.tracks _ f hf).entry (hpino ▸ hne)
    rw [hpino] at hentry
    exact hentry

/-- A change of the volume that the map does not see. -/
theorem of_tracks (h : s.Sound v nodes lo hi) {sys : Sys} (hrests : Rests v' hi sys)
    (hview : View.Sound ⟨v', nodes', s.unlinked⟩ lo hi)
    (htracks : ∀ f, v.Tracks nodes f → v'.Tracks nodes' f) :
    OpenFiles.Sound { s with fuse := { s.fuse with sys := sys } } v' nodes' lo hi :=
  ⟨hrests, hview, h.apart, fun w f hf => htracks f (h.tracks w f hf), h.bit, h.handle, h.calls,
    h.nonzero⟩

end Sound

end OpenFiles

/-! ## Making files -/

section

variable {α β : Type} {s : Fuse} {v : Vol} {nodes unlinked : List Nat} {lo hi : Nat}

/-- A call of the file system whose run is known. -/
theorem leads_call_eq {p : SfsM α} {r : α} {sys : Sys} (hrun : s.sys.exec p = some (r, sys))
    {g : α → FuseM β} {Q : β → Fuse → Prop} :
    Leads (call p >>= g) s Q ↔ Leads (g r) { s with sys := sys } Q := by
  have hcall : call p s = some (r, { s with sys := sys }) := by
    rw [call, hrun]
    rfl
  rw [leads_bind]
  constructor
  · intro h
    obtain ⟨a, s', ha, hQ⟩ := h
    rw [hcall] at ha
    cases ha
    exact hQ
  · exact fun hQ => ⟨r, _, hcall, hQ⟩

/-- What a call leaves of a sound volume: the device rests, and every record of
the map that was right is right. -/
def Fuse.Follows (s : Fuse) (v : Vol) (nodes unlinked : List Nat) (lo hi : Nat) (s' : Fuse) :
    Prop :=
  s' = { s with sys := s'.sys } ∧ ∃ v' nodes', Rests v' hi s'.sys ∧
    View.Sound ⟨v', nodes', unlinked⟩ lo hi ∧ ∀ f, v.Tracks nodes f → v'.Tracks nodes' f

/-- A creation of `fuse_sfs_mknod` leaves the path as it is. -/
theorem leads_mknodCreat (h : Rests v hi s.sys) (hV : View.Sound ⟨v, nodes, unlinked⟩ lo hi)
    {q : Buf} (hq : GoodPath q) (mode type : Nat) :
    Leads (mknodCreat mode type q) s fun r s' =>
      (∀ q', r = some q' → q' = q) ∧ s.Follows v nodes unlinked lo hi s' := by
  have hw : WellFormed v nodes lo hi := hV.toWellFormed
  unfold mknodCreat
  split
  · rw [leads_pure]
    exact ⟨fun q' hq' => (Option.some.inj hq').symm, rfl, v, nodes, h, hV, fun _ hf => hf⟩
  rw [leads_bind]
  refine (h.call hw.geometry.sized (ignores_sfsCreat hw.geometry) (Q := fun r t' => r.2 = q ∧
    Creates v t'.vol fileKind q r.1 ∧ (r.1 = 0 → IsPath (cstr q))) fun t hvol => ?_).mono
      fun ⟨ret, cpath⟩ s₁ ⟨hs₁, t', ⟨hpath, hcreates, hgood⟩, hrests, _⟩ => ?_
  · subst hvol
    refine (gives_sfsCreat hw.indexed hq).mono fun r t' ⟨hpath, hcreates, hgood⟩ => ?_
    exact ⟨hpath, hcreates, fun hr => (hgood hr).1⟩
  dsimp only at hpath hcreates hgood ⊢
  have hfollows : s.Follows v nodes unlinked lo hi s₁ := by
    refine ⟨hs₁, t'.vol, nodes, hrests, ?_⟩
    rcases hcreates with ⟨-, hvol⟩ | ⟨hr, a, hadd, -, -, hempty⟩
    · rw [hvol]
      exact ⟨hV, fun _ hf => hf⟩
    · refine ⟨hV.of_keeps (hadd.keeps hw.layout)
        (hadd.wellFormed (Or.inl rfl) (hgood hr) hw fun _ => hempty rfl) hadd.not_pending, ?_⟩
      intro f hf hz
      refine (hadd.keeps hw.layout).tracks hf (fun heq => ?_) hz
      exact hadd.not_head (heq ▸ hf.head hz)
  split
  · rw [leads_pure]
    exact ⟨fun q' hq' => absurd hq' (by simp), hfollows⟩
  · rw [leads_pure]
    exact ⟨fun q' hq' => (Option.some.inj hq').symm.trans hpath, hfollows⟩

theorem Fuse.Follows.trans {s₁ s₂ : Fuse} {v₁ : Vol} {nodes₁ : List Nat}
    (hs₁ : s₁ = { s with sys := s₁.sys }) (htracks : ∀ f, v.Tracks nodes f → v₁.Tracks nodes₁ f)
    (h : s₁.Follows v₁ nodes₁ unlinked lo hi s₂) : s.Follows v nodes unlinked lo hi s₂ := by
  obtain ⟨hs₂, v₂, nodes₂, hrests, hV, htracks₂⟩ := h
  refine ⟨?_, v₂, nodes₂, hrests, hV, fun f hf => htracks₂ f (htracks f hf)⟩
  rw [hs₂, hs₁]

theorem Rests.setErrno {sys : Sys} (h : Rests v hi sys) (code : Nat) :
    Rests v hi { sys with errno := code } :=
  h.imp (fun h => ⟨h.vol, h.quiet, h.coherent⟩) fun h => ⟨h.vol, h.quiet, h.cached⟩

theorem leads_fuseSfsMknod (h : Rests v hi s.sys) (hV : View.Sound ⟨v, nodes, unlinked⟩ lo hi)
    (path : Buf) (mode : Nat) :
    Leads (fuseSfsMknod path mode) s fun _ s' => s.Follows v nodes unlinked lo hi s' := by
  have hq := newPath_good path
  unfold fuseSfsMknod
  split
  · rw [leads_pure]
    exact ⟨rfl, v, nodes, h, hV, fun _ hf => hf⟩
  rw [leads_bind]
  refine (leads_mknodCreat h hV hq mode sIFREG).mono fun r s₁ ⟨hr, h₁⟩ => ?_
  cases r with
  | none =>
    dsimp only
    rw [leads_err]
    exact h₁
  | some q₁ =>
    obtain rfl := hr q₁ rfl
    obtain ⟨hs₁, v₁, nodes₁, hrests₁, hV₁, htracks₁⟩ := h₁
    dsimp only
    rw [leads_bind]
    refine (leads_mknodCreat hrests₁ hV₁ hq mode sIFDIR).mono fun r s₂ ⟨_, h₂⟩ => ?_
    have h₂ := Fuse.Follows.trans hs₁ htracks₁ h₂
    cases r with
    | none =>
      dsimp only
      rw [leads_err]
      exact h₂
    | some q₂ =>
      obtain ⟨hs₂, v₂, nodes₂, hrests₂, hV₂, htracks₂⟩ := h₂
      dsimp only
      rw [leads_call_eq (show s₂.sys.exec (setErrno 0) = some ((), { s₂.sys with errno := 0 })
        from rfl), leads_err]
      refine ⟨?_, v₂, nodes₂, hrests₂.setErrno 0, hV₂, htracks₂⟩
      rw [hs₂]

/-! ## Opening -/

/-- `sfs_open` sets an error where it finds nothing. -/
theorem gives_sfsOpen_errno {t : Img} (hindex : Indexed t.vol lo hi) {q : Buf} :
    Gives (sfsOpen q) t fun r t' => r = 0 → t'.errno ≠ 0 := by
  unfold sfsOpen
  rw [gives_uninit, gives_bind]
  refine (gives_searchName hindex.geometry hindex.layout fileKind_fits hindex.fileNamed _).mono
    fun ⟨r, entr⟩ t₁ ⟨hvol₁, _⟩ => ?_
  dsimp only at hvol₁ ⊢
  split
  · rename_i hr
    rw [gives_pure]
    exact fun h => absurd h hr
  rw [gives_bind]
  rw [← hvol₁] at hindex
  refine (gives_searchName hindex.geometry hindex.layout dirKind_fits hindex.dirNamed _).mono
    fun ⟨r', entr'⟩ t₂ _ => ?_
  dsimp only
  split
  · rw [gives_setErrno, gives_pure]
    exact fun _ => show eNOENT ≠ 0 by decide
  · rename_i hr
    rw [gives_pure]
    exact fun h => absurd h hr

/-- An entry that `sfs_open` gives is a file or a directory. -/
theorem Vol.Opens.entry {a : Nat} {q : Buf} (h : v.Opens q a) : v.LiveFile a ∨ v.IsDir a :=
  h.imp (fun h => h.1.liveFile) fun h => h.2.1.isDir

/-- `get_vino`, and `pino_add` where it finds nothing, leave the records as they
are but for a new one. -/
theorem leads_vinoFor_has (s : Fuse) (pino : Nat) :
    Leads (vinoFor pino) s fun vino s' => s'.sys = s.sys ∧
      (∀ w f, s.map.Has w f → s'.map.Has w f) ∧
      (∀ w f, s'.map.Has w f → s.map.Has w f ∨ f = ⟨pino, 0, 0⟩) ∧
      (vino ≠ 0 → s'.map.getVino pino = vino) := by
  unfold vinoFor
  rw [leads_ask]
  by_cases hz : s.map.getVino pino = 0
  · rw [if_pos hz]
    exact ⟨_, _, rfl, rfl, fun w f hf => hf.pinoAdd _, fun w f hf => InodeMap.has_pinoAdd hf,
      InodeMap.getVino_pinoAdd hz⟩
  · rw [if_neg hz, leads_pure]
    exact ⟨rfl, fun _ _ hf => hf, fun _ _ hf => Or.inl hf, fun _ => rfl⟩

/-- What `fuse_sfs_open` does when `sfs_open` gives `pino`: the records of the map
stay, but for the open bit of the handle, and there may be one for `pino`. -/
structure Fuse.Opened (s : Fuse) (v : Vol) (hi : Nat) (path : Buf) (pino : Nat) (r : Int × Nat)
    (s' : Fuse) : Prop where
  rests : Rests v hi s'.sys
  old : ∀ w f, s.map.Has w f → ∃ f', s'.map.Has w f' ∧ f'.pino = f.pino ∧ f'.dirty = f.dirty
  new : ∀ w f', s'.map.Has w f' →
    ∃ f, (s.map.Has w f ∨ f = ⟨pino, 0, 0⟩ ∧ v.Opens (cstr path) pino) ∧
      f'.pino = f.pino ∧ f'.dirty = f.dirty ∧ (f'.openbit = f.openbit ∨ r.1 = 0 ∧ w = r.2)
  handle : r.1 = 0 → v.Opens (cstr path) pino ∧ pino ≠ 0 ∧
    ∃ f, s'.map.Has r.2 f ∧ f.pino = pino

theorem leads_fuseSfsOpen (h : Rests v hi s.sys) (hw : WellFormed v nodes lo hi) (path : Buf) :
    ∃ pino sys, s.sys.exec (sfsOpen path) = some (pino, sys) ∧
      Leads (fuseSfsOpen path) s fun r s' => s.Opened v hi path pino r s' := by
  obtain ⟨pino, sys, t', hrun, ⟨⟨hvol, hopens⟩, hfail⟩, hrests, herr⟩ :=
    h.exec (p := sfsOpen path) (Q := fun r t' => (t'.vol = v ∧
      ((r = 0 ∧ ∀ o, ¬ v.Live o (cstr path)) ∨ (r ≠ 0 ∧ v.Opens (cstr path) r))) ∧
        (r = 0 → t'.errno ≠ 0)) hw.geometry.sized (reloads_sfsOpen hw.geometry).ignores
      fun t ht => by
        subst ht
        exact (gives_sfsOpen hw.indexed).and (gives_sfsOpen_errno hw.indexed)
  rw [hvol] at hrests
  refine ⟨pino, sys, hrun, ?_⟩
  unfold fuseSfsOpen
  rw [leads_call_eq hrun]
  by_cases hz : pino = 0
  · rw [if_pos hz, leads_negErrno, leads_pure]
    have hne : -(sys.errno : Int) ≠ 0 := by
      have := hfail hz
      rw [← herr] at this
      omega
    exact ⟨hrests, fun w f hf => ⟨f, hf, rfl, rfl⟩, fun w f hf =>
      ⟨f, Or.inl hf, rfl, rfl, Or.inl rfl⟩,
      fun hr => absurd hr hne⟩
  have hopen : v.Opens (cstr path) pino := by
    rcases hopens with ⟨hz', -⟩ | ⟨-, hopen⟩
    · exact absurd hz' hz
    · exact hopen
  rw [if_neg hz, leads_bind]
  refine (leads_vinoFor_has _ pino).mono fun vino s₁ ⟨hsys, hold, hnew, hvino⟩ => ?_
  dsimp only at hsys hold hnew
  have hrests₁ : Rests v hi s₁.sys := by
    rw [hsys]
    exact hrests
  have hnew' : ∀ w f, s₁.map.Has w f →
      s.map.Has w f ∨ f = ⟨pino, 0, 0⟩ ∧ v.Opens (cstr path) pino :=
    fun w f hf => (hnew w f hf).imp_right fun h => ⟨h, hopen⟩
  by_cases hv : vino = 0
  · rw [if_pos hv, leads_pure]
    exact ⟨hrests₁, fun w f hf => ⟨f, hold w f hf, rfl, rfl⟩,
      fun w f hf => ⟨f, hnew' w f hf, rfl, rfl, Or.inl rfl⟩, fun hr => absurd hr (by decide)⟩
  · rw [if_neg hv, leads_change, leads_pure]
    have hfound : s₁.map.getVino pino ≠ 0 := by
      rw [hvino hv]
      exact hv
    refine ⟨hrests₁, fun w f hf => ?_, fun w f' hf' => ?_, fun _ => ⟨hopen, hz, ?_⟩⟩
    · refine ⟨_, InodeMap.has_modify.2 ⟨f, hold w f hf, rfl⟩, ?_⟩
      split <;> exact ⟨rfl, rfl⟩
    · obtain ⟨f, hf, rfl⟩ := InodeMap.has_modify.1 hf'
      refine ⟨f, hnew' w f hf, ?_⟩
      by_cases heq : vino = w
      · rw [if_pos heq]
        exact ⟨rfl, rfl, Or.inr ⟨rfl, heq.symm⟩⟩
      · rw [if_neg heq]
        exact ⟨rfl, rfl, Or.inl rfl⟩
    · obtain ⟨f, hf, hpino⟩ := InodeMap.has_getVino hfound
      rw [hvino hv] at hf
      refine ⟨_, InodeMap.has_modify.2 ⟨f, hf, rfl⟩, ?_⟩
      rw [if_pos rfl]
      exact hpino

/-! ## Unlinking and releasing -/

/-- The volume without the unlinked file. -/
structure View.Drops (v : Vol) (nodes unlinked : List Nat) (lo hi a : Nat) (v' : Vol)
    (nodes' : List Nat) : Prop where
  view : View.Sound ⟨v', nodes', unlinked.erase a⟩ lo hi
  tracks : ∀ f, v.Tracks nodes f → f.pino ≠ a → v'.Tracks nodes' f

/-- `sfs_delete` of an unlinked file. -/
theorem leads_sfsDelete {a : Nat} (h : Rests v hi s.sys)
    (hV : View.Sound ⟨v, nodes, unlinked⟩ lo hi) (ha : a ∈ unlinked) :
    Leads (call (sfsDelete a)) s fun r s' => s' = { s with sys := s'.sys } ∧ r = 0 ∧
      ∃ v' nodes', Rests v' hi s'.sys ∧ View.Drops v nodes unlinked lo hi a v' nodes' := by
  have hw : WellFormed v nodes lo hi := hV.toWellFormed
  have hfile : v.IsFile nodes a := (hV.unlinked a ha).isFile
  refine (h.call hw.geometry.sized (reloads_sfsDelete hw.geometry hfile.1).ignores
    (Q := fun r t' => r = 0 ∧ ∃ nodes', v.Deleted t'.vol nodes nodes' lo hi a)
    fun t hvol => ?_).mono fun r s' ⟨hs', t', ⟨hr, nodes', hdel⟩, hrests, _⟩ => ?_
  · subst hvol
    exact gives_sfsDelete hw.toBlocks hfile
  · exact ⟨hs', hr, t'.vol, nodes', hrests, Change.sound (.deleted hdel ha) hV,
      fun f hf hne => hdel.keeps.tracks hf hne⟩

/-- `sfs_delete`, and then no offset for the inode. -/
theorem leads_deleteVino {vino a : Nat} (h : Rests v hi s.sys)
    (hV : View.Sound ⟨v, nodes, unlinked⟩ lo hi) (ha : a ∈ unlinked) :
    Leads (deleteVino vino a) s fun r s' => r = 0 ∧
      s' = { s with sys := s'.sys, map := s.map.setPino vino 0 } ∧
      ∃ v' nodes', Rests v' hi s'.sys ∧ View.Drops v nodes unlinked lo hi a v' nodes' := by
  unfold deleteVino
  rw [leads_bind]
  refine (leads_sfsDelete h hV ha).mono fun r s₁ ⟨hs₁, hr, hrest⟩ => ?_
  rw [if_neg (by rw [hr]; decide), leads_change, leads_pure, hs₁]
  exact ⟨rfl, rfl, hrest⟩

/-- What `fuse_sfs_unlink` does when `sfs_unlink` gives `pino`. -/
inductive Fuse.Unlinked (s : Fuse) (v : Vol) (nodes unlinked : List Nat) (lo hi : Nat) (path : Buf)
    (pino : Nat) (calls : List Nat) (s' : Fuse) : Prop where
  | refused (hz : pino = 0) (hcalls : calls = []) (hmap : s'.map = s.map)
    (hrests : Rests v hi s'.sys)
  | marked {v' : Vol} (hz : pino ≠ 0) (hfirst : v.First fileKind pino (cstr path))
      (hvino : s.map.getVino pino ≠ 0) (hbit : s.map.getOpenbit (s.map.getVino pino) = 1)
      (hcalls : calls = []) (hmap : s'.map = s.map.setDirty (s.map.getVino pino))
      (hrests : Rests v' hi s'.sys) (hview : View.Sound ⟨v', nodes, pino :: unlinked⟩ lo hi)
      (htracks : ∀ f, v.Tracks nodes f → f.pino ≠ pino → v'.Tracks nodes f)
  | deleted {v' : Vol} {nodes' : List Nat} (hz : pino ≠ 0)
      (hfirst : v.First fileKind pino (cstr path)) (hcalls : calls = [pino])
      (hmap : s.map.getVino pino = 0 ∧ s'.map = s.map ∨ s.map.getVino pino ≠ 0 ∧
        s.map.getOpenbit (s.map.getVino pino) ≠ 1 ∧
          s'.map = s.map.setPino (s.map.getVino pino) 0)
      (hrests : Rests v' hi s'.sys) (hview : View.Sound ⟨v', nodes', unlinked⟩ lo hi)
      (htracks : ∀ f, v.Tracks nodes f → f.pino ≠ pino → v'.Tracks nodes' f)

theorem leads_unlinkCalls (h : Rests v hi s.sys) (hV : View.Sound ⟨v, nodes, unlinked⟩ lo hi)
    (path : Buf) : ∃ pino sys, s.sys.exec (sfsUnlink path) = some (pino, sys) ∧
      Leads (unlinkCalls path) s fun x s' =>
        s.Unlinked v nodes unlinked lo hi path pino x.2 s' := by
  have hw : WellFormed v nodes lo hi := hV.toWellFormed
  obtain ⟨pino, sys, t', hrun, hres, hrests, -⟩ := h.exec (p := sfsUnlink path)
    (Q := fun r t' => (r = 0 ∧ t'.vol = v) ∨ (r ≠ 0 ∧ v.First fileKind r (cstr path) ∧
      v.Retyped t'.vol r .delFileEntry)) hw.geometry.sized (ignores_sfsUnlink hw.geometry)
    fun t ht => by
      subst ht
      exact gives_sfsUnlink hw
  refine ⟨pino, sys, hrun, ?_⟩
  unfold unlinkCalls
  rw [leads_call_eq hrun]
  rcases hres with ⟨hz, hvol⟩ | ⟨hz, hfirst, htype⟩
  · rw [if_pos hz, leads_negErrno, leads_pure]
    rw [hvol] at hrests
    exact .refused hz rfl rfl hrests
  have hV₁ : View.Sound ⟨t'.vol, nodes, pino :: unlinked⟩ lo hi :=
    Change.sound (.unlinked hfirst.1 htype) hV
  have htracks₁ : ∀ f, v.Tracks nodes f → f.pino ≠ pino → t'.vol.Tracks nodes f :=
    fun f hf hne => (htype.keeps hw.layout).tracks hf hne
  have hmem : pino ∈ pino :: unlinked := List.mem_cons_self
  have herase : (pino :: unlinked).erase pino = unlinked :=
    List.erase_cons_head _ _
  rw [if_neg hz, leads_ask]
  by_cases hvino : s.map.getVino pino = 0
  · rw [if_pos hvino, leads_bind]
    refine (leads_sfsDelete hrests hV₁ hmem).mono fun r s₁
      ⟨hs₁, hr, v₂, nodes₂, hrests₂, hdrop⟩ => ?_
    rw [if_neg (by rw [hr]; decide), leads_pure]
    exact .deleted hz hfirst rfl (Or.inl ⟨hvino, by rw [hs₁]⟩) hrests₂ (herase ▸ hdrop.view)
      fun f hf hne => hdrop.tracks f (htracks₁ f hf hne) hne
  rw [if_neg hvino, leads_ask]
  by_cases hbit : s.map.getOpenbit (s.map.getVino pino) = 1
  · rw [if_pos hbit, leads_change, leads_pure]
    exact .marked hz hfirst hvino hbit rfl rfl hrests hV₁ htracks₁
  · rw [if_neg hbit, leads_bind]
    refine (leads_deleteVino hrests hV₁ hmem).mono
      fun r s₁ ⟨hr, hs₁, v₂, nodes₂, hrests₂, hdrop⟩ => ?_
    rw [if_neg (by rw [hr]; decide), leads_pure]
    exact .deleted hz hfirst rfl (Or.inr ⟨hvino, hbit, by rw [hs₁]⟩) hrests₂ (herase ▸ hdrop.view)
      fun f hf hne => hdrop.tracks f (htracks₁ f hf hne) hne

/-- What `fuse_sfs_release` does with a handle of a file. -/
inductive Fuse.Released (s : Fuse) (v : Vol) (nodes unlinked : List Nat) (lo hi vino file : Nat)
    (calls : List Nat) (s' : Fuse) : Prop where
  | clean (hclean : s.map.getDirty vino ≠ 1) (hcalls : calls = [])
      (hmap : s'.map = s.map.clrOpenbit vino) (hrests : Rests v hi s'.sys)
  | deleted {v' : Vol} {nodes' : List Nat} (hdirty : s.map.getDirty vino = 1)
      (hcalls : calls = [file]) (hmap : s'.map = (s.map.setPino vino 0).clrOpenbit vino)
      (hrests : Rests v' hi s'.sys) (hdrop : View.Drops v nodes unlinked lo hi file v' nodes')

theorem leads_releaseCalls {vino file : Nat} (h : Rests v hi s.sys)
    (hV : View.Sound ⟨v, nodes, unlinked⟩ lo hi) (hpino : s.map.getPino vino = file)
    (hfile : s.map.getDirty vino = 1 → file ∈ unlinked) :
    Leads (releaseCalls vino) s fun x s' =>
      s.Released v nodes unlinked lo hi vino file x.2 s' := by
  unfold releaseCalls
  rw [leads_ask]
  by_cases hdirty : s.map.getDirty vino = 1
  · rw [if_pos hdirty, leads_ask, hpino, leads_bind]
    refine (leads_deleteVino h hV (hfile hdirty)).mono
      fun r s₁ ⟨hr, hs₁, v₁, nodes₁, hrests₁, hdrop⟩ => ?_
    rw [if_neg (by rw [hr]; decide), leads_change, leads_pure]
    exact .deleted hdirty rfl (by rw [hs₁]) hrests₁ hdrop
  · rw [if_neg hdirty, leads_change, leads_pure]
    exact .clean hdirty rfl rfl h

end

/-! ## One callback -/

namespace OpenFiles.Sound

variable {s : OpenFiles} {v : Vol} {nodes : List Nat} {lo hi : Nat}

/-- The callback returns, and the run is sound after it. -/
def Steps (s : OpenFiles) (lo hi : Nat) (req : FileRequest) : Prop :=
  ∃ s' v' nodes', req.step s = some s' ∧ s'.Sound v' nodes' lo hi

theorem step_mknod (h : s.Sound v nodes lo hi) (path : Buf) (mode : Nat) :
    Steps s lo hi (.mknod path mode) := by
  obtain ⟨r, f, hrun, hf, v', nodes', hrests, hview, htracks⟩ :=
    leads_fuseSfsMknod h.rests h.view path mode
  refine ⟨{ s with fuse := f }, v', nodes', by rw [FileRequest.step, hrun]; rfl, ?_⟩
  rw [hf]
  exact h.of_tracks hrests hview htracks

/-- The handle of an offset of the map. -/
theorem handle_of_has (h : s.Sound v nodes lo hi) {x : Handle} (hx : x ∈ s.handles) {f : FileT}
    (hf : s.fuse.map.Has x.vino f) : x.file = f.pino ∧ (f.dirty = 1 ↔ x.file ∈ s.unlinked) := by
  obtain ⟨-, f', hf', hpino, hdirty⟩ := h.handle x hx
  obtain rfl := hf.unique hf'
  exact ⟨hpino.symm, hdirty⟩

/-- An entry that `sfs_open` gives is not unlinked. -/
theorem not_unlinked (h : s.Sound v nodes lo hi) {a : Nat} (ha : v.LiveFile a ∨ v.IsDir a) :
    a ∉ s.unlinked := by
  intro hmem
  have hp : v.Pending nodes a := h.view.unlinked a hmem
  exact ha.elim (fun hlive => hlive.not_pending hp) fun hdir => hdir.not_pending hp

theorem step_open (h : s.Sound v nodes lo hi) (path : Buf) : Steps s lo hi (.open path) := by
  obtain ⟨pino, sys, hrun, r, f', hopen, hres⟩ := leads_fuseSfsOpen h.rests h.wellFormed path
  refine ⟨OpenFiles.open { s with fuse := f' } r.1 ⟨r.2, pino⟩, v, nodes,
    by rw [FileRequest.step, hrun, Option.bind_some, hopen]; rfl, ?_⟩
  have htracks : ∀ w g, f'.map.Has w g → v.Tracks nodes g := by
    intro w g hg hz
    obtain ⟨f, hf, hpino, hdirty, -⟩ := hres.new w g hg
    rw [hpino] at hz ⊢
    rw [hdirty]
    rcases hf with hf | ⟨rfl, hopens⟩
    · exact h.tracks w f hf hz
    · exact Or.inr ⟨show (0 : Int) ≠ 1 by decide, hopens.entry⟩
  have hbit : ∀ w g, f'.map.Has w g → g.openbit = 1 →
      (r.1 = 0 ∧ w = r.2) ∨ ∃ x ∈ s.handles, x.vino = w := by
    intro w g hg hset
    obtain ⟨f, hf, -, -, hsame | hnew⟩ := hres.new w g hg
    · rw [hsame] at hset
      rcases hf with hf | ⟨rfl, -⟩
      · exact Or.inr (h.bit w f hf hset)
      · exact absurd hset (show (0 : Int) ≠ 1 by decide)
    · exact Or.inl hnew
  have hhandle : ∀ x ∈ s.handles, x.file ≠ 0 ∧
      ∃ g, f'.map.Has x.vino g ∧ g.pino = x.file ∧ (g.dirty = 1 ↔ x.file ∈ s.unlinked) := by
    intro x hx
    obtain ⟨hne, f, hf, hpino, hdirty⟩ := h.handle x hx
    obtain ⟨g, hg, hpino', hdirty'⟩ := hres.old _ f hf
    exact ⟨hne, g, hg, hpino'.trans hpino, by rw [hdirty']; exact hdirty⟩
  have hapart : f'.map.Injective := keeps_open path s.fuse r f' hopen h.apart
  unfold OpenFiles.open
  by_cases hr : r.1 = 0
  · rw [if_pos hr]
    refine ⟨hres.rests, h.view, hapart, htracks, ?_, ?_, h.calls, h.nonzero⟩
    · intro w g hg hset
      rcases hbit w g hg hset with ⟨-, hw⟩ | ⟨x, hx, hw⟩
      · exact ⟨_, List.mem_cons_self, hw.symm⟩
      · exact ⟨x, List.mem_cons_of_mem _ hx, hw⟩
    · intro x hx
      rcases List.mem_cons.1 hx with rfl | hx
      · obtain ⟨hopens, hne, g, hg, hpino⟩ := hres.handle hr
        have hlive := hopens.entry
        refine ⟨hne, g, hg, hpino, iff_of_false ?_ (h.not_unlinked hlive)⟩
        rw [← hpino] at hne hlive
        exact (htracks _ g hg).dirty_ne hne hlive
      · exact hhandle x hx
  · rw [if_neg hr]
    refine ⟨hres.rests, h.view, hapart, htracks, ?_, hhandle, h.calls, h.nonzero⟩
    intro w g hg hset
    rcases hbit w g hg hset with ⟨hr', -⟩ | hx
    · exact absurd hr' hr
    · exact hx

/-- An open file is unlinked: its inode gets the dirty bit. -/
theorem unlink_marked {v' : Vol} {pino : Nat} {f' : Fuse} (h : s.Sound v nodes lo hi)
    (hz : pino ≠ 0) (hvino : s.fuse.map.getVino pino ≠ 0)
    (hbit : s.fuse.map.getOpenbit (s.fuse.map.getVino pino) = 1)
    (hmap : f'.map = s.fuse.map.setDirty (s.fuse.map.getVino pino)) (hrests : Rests v' hi f'.sys)
    (hview : View.Sound ⟨v', nodes, pino :: s.unlinked⟩ lo hi)
    (htracks : ∀ f, v.Tracks nodes f → f.pino ≠ pino → v'.Tracks nodes f) :
    (OpenFiles.unlink { s with fuse := f' } pino).Sound v' nodes lo hi := by
  obtain ⟨g, hg, hpino⟩ := InodeMap.has_getVino hvino
  -- The open bit means that there is a handle.
  have hopen : ∃ y ∈ s.handles, y.file = pino := by
    obtain ⟨y, hy, hvy⟩ := h.bit _ g hg (by rw [← hg.getOpenbit]; exact hbit)
    exact ⟨y, hy, (h.handle_of_has hy (hvy.symm ▸ hg)).1.trans hpino⟩
  have hother : ∀ w f, s.fuse.map.Has w f → s.fuse.map.getVino pino ≠ w → f.pino ≠ pino :=
    fun w f hf hne heq => hne (h.apart.has_unique hg hf (hpino ▸ hz) (hpino.trans heq.symm))
  unfold OpenFiles.unlink
  rw [if_neg hz, if_pos hopen]
  refine ⟨hrests, hview, ?_, fun w f hf => ?_, fun w f hf hset => ?_, fun y hy => ?_, h.calls,
    h.nonzero⟩
  · rw [hmap]
    exact h.apart.modify _ fun _ => rfl
  · dsimp only at hf
    rw [hmap] at hf
    obtain ⟨f₀, hf₀, rfl⟩ := InodeMap.has_modify.1 hf
    by_cases heq : s.fuse.map.getVino pino = w
    · rw [if_pos heq]
      obtain rfl := hf₀.unique (heq ▸ hg)
      exact fun _ => Or.inl ⟨rfl, hpino.symm ▸ hview.unlinked pino List.mem_cons_self⟩
    · rw [if_neg heq]
      exact htracks f₀ (h.tracks w f₀ hf₀) (hother w f₀ hf₀ heq)
  · dsimp only at hf
    rw [hmap] at hf
    obtain ⟨f₀, hf₀, rfl⟩ := InodeMap.has_modify.1 hf
    refine h.bit w f₀ hf₀ (Eq.trans ?_ hset)
    split <;> rfl
  · obtain ⟨hne, f, hf, hpino', hdirty⟩ := h.handle y hy
    refine ⟨hne, _, by rw [hmap]; exact InodeMap.has_modify.2 ⟨f, hf, rfl⟩, ?_⟩
    by_cases heq : s.fuse.map.getVino pino = y.vino
    · rw [if_pos heq]
      obtain rfl := hf.unique (heq ▸ hg)
      refine ⟨hpino', iff_of_true rfl ?_⟩
      rw [← hpino', hpino]
      exact List.mem_cons_self
    · rw [if_neg heq]
      refine ⟨hpino', hdirty.trans (List.mem_cons.trans (or_iff_right fun h' => ?_)).symm⟩
      exact hother _ f hf heq (hpino'.trans h')

/-- A file whose inode is not there, or has no open bit, is not open. -/
theorem not_open {pino : Nat} {path : Buf} (h : s.Sound v nodes lo hi)
    (hord : (FileRequest.unlink path).Orderly s) (hz : pino ≠ 0)
    (hfirst : v.First fileKind pino (cstr path))
    (hbit : s.fuse.map.getVino pino = 0 ∨
      s.fuse.map.getOpenbit (s.fuse.map.getVino pino) ≠ 1) : ¬ ∃ y ∈ s.handles, y.file = pino := by
  intro ⟨y, hy, hyp⟩
  obtain ⟨hne, g, hg, hpino, -⟩ := h.handle y hy
  rw [hyp] at hpino
  have hvino := hg.getVino_pino h.apart (hpino ▸ hz)
  rw [hpino] at hvino
  rw [hvino] at hbit
  refine hbit.elim (Nat.pos_iff_ne_zero.1 hg.1) fun hbit => hbit (hord y hy ?_)
  rw [h.vol, hyp]
  exact hfirst

/-- A file that is not open is unlinked: it is deleted, and its inode loses the offset. -/
theorem unlink_deleted {v' : Vol} {nodes' : List Nat} {pino : Nat} {f' : Fuse}
    (h : s.Sound v nodes lo hi) (hz : pino ≠ 0) (hclosed : ¬ ∃ y ∈ s.handles, y.file = pino)
    (hmap : s.fuse.map.getVino pino = 0 ∧ f'.map = s.fuse.map ∨ s.fuse.map.getVino pino ≠ 0 ∧
      f'.map = s.fuse.map.setPino (s.fuse.map.getVino pino) 0)
    (hrests : Rests v' hi f'.sys) (hview : View.Sound ⟨v', nodes', s.unlinked⟩ lo hi)
    (htracks : ∀ f, v.Tracks nodes f → f.pino ≠ pino → v'.Tracks nodes' f) :
    (OpenFiles.unlink { s with fuse := f', deleted := s.deleted ++ [pino] } pino).Sound
      v' nodes' lo hi := by
  unfold OpenFiles.unlink
  rw [if_neg hz, if_neg hclosed]
  refine ⟨hrests, hview, ?_, fun w f hf hne => ?_, fun w f hf hset => ?_, fun y hy => ?_,
    congrArg (· ++ [pino]) h.calls, ?_⟩
  · rcases hmap with ⟨-, hmap⟩ | ⟨-, hmap⟩ <;> rw [hmap]
    · exact h.apart
    · exact h.apart.setPino_zero _
  · obtain ⟨f₀, hf₀, -, hzero | ⟨rfl, hne'⟩⟩ := h.apart.has_dropped hz hmap hf
    · exact absurd hzero hne
    · exact htracks f (h.tracks w f hf₀) hne' hne
  · obtain ⟨f₀, hf₀, hsame, -⟩ := h.apart.has_dropped hz hmap hf
    exact h.bit w f₀ hf₀ (hsame.symm.trans hset)
  · obtain ⟨hne, f, hf, hpino, hdirty⟩ := h.handle y hy
    have hother : f.pino ≠ pino := fun heq => hclosed ⟨y, hy, hpino.symm.trans heq⟩
    exact ⟨hne, f, hf.dropped hother hmap, hpino, hdirty⟩
  · simpa using ⟨h.nonzero, hz.symm⟩

theorem step_unlink (h : s.Sound v nodes lo hi) {path : Buf}
    (hord : (FileRequest.unlink path).Orderly s) : Steps s lo hi (.unlink path) := by
  obtain ⟨pino, sys, hrun, x, f', hcalls, hres⟩ := leads_unlinkCalls h.rests h.view path
  have hstep : FileRequest.step s (.unlink path) = some
      (OpenFiles.unlink { s with fuse := f', deleted := s.deleted ++ x.2 } pino) := by
    rw [FileRequest.step, hrun, Option.bind_some, hcalls]
    rfl
  cases hres with
  | refused hz hx hmap hrests =>
    refine ⟨_, v, nodes, hstep, ?_⟩
    unfold OpenFiles.unlink
    rw [if_pos hz, hx, List.append_nil]
    refine ⟨hrests, h.view, ?_, ?_, ?_, ?_, h.calls, h.nonzero⟩ <;> rw [hmap]
    · exact h.apart
    · exact h.tracks
    · exact h.bit
    · exact h.handle
  | @marked v' hz hfirst hvino hbit hx hmap hrests hview htracks =>
    rw [hx, List.append_nil] at hstep
    exact ⟨_, v', nodes, hstep, h.unlink_marked hz hvino hbit hmap hrests hview htracks⟩
  | @deleted v' nodes' hz hfirst hx hmap hrests hview htracks =>
    rw [hx] at hstep
    have hclosed := h.not_open hord hz hfirst (hmap.imp And.left fun hmap => hmap.2.1)
    exact ⟨_, v', nodes', hstep, h.unlink_deleted hz hclosed
      (hmap.imp id fun hmap => ⟨hmap.1, hmap.2.2⟩) hrests hview htracks⟩

/-- A handle of another inode stays. -/
theorem mem_eraseIdx {n : Nat} {x y : Handle} (hx : s.handles[n]? = some x) (hy : y ∈ s.handles)
    (hne : y.vino ≠ x.vino) : y ∈ s.handles.eraseIdx n := by
  obtain ⟨i, hi⟩ := List.mem_iff_getElem?.1 hy
  refine List.mem_eraseIdx_iff_getElem?.2 ⟨i, fun heq => ?_, hi⟩
  rw [heq, hx] at hi
  exact hne (congrArg Handle.vino (Option.some.inj hi)).symm

/-- A handle of a file that is not unlinked is released: its inode loses the open
bit. -/
theorem release_clean {n : Nat} {x : Handle} {f' : Fuse} (h : s.Sound v nodes lo hi)
    (hx : s.handles[n]? = some x) (hnot : x.file ∉ s.unlinked)
    (hmap : f'.map = s.fuse.map.clrOpenbit x.vino) (hrests : Rests v hi f'.sys) :
    (OpenFiles.close { s with fuse := f', handles := s.handles.eraseIdx n } x.file).Sound
      v nodes lo hi := by
  unfold OpenFiles.close
  rw [if_neg fun hc => hnot hc.1]
  refine ⟨hrests, h.view, ?_, fun w f hf => ?_, fun w f hf hset => ?_, fun y hy => ?_, h.calls,
    h.nonzero⟩
  · rw [hmap]
    exact h.apart.modify _ fun _ => rfl
  · dsimp only at hf
    rw [hmap] at hf
    obtain ⟨f₀, hf₀, rfl⟩ := InodeMap.has_modify.1 hf
    have htracks := h.tracks w f₀ hf₀
    split <;> exact htracks
  · dsimp only at hf
    rw [hmap] at hf
    obtain ⟨f₀, hf₀, rfl⟩ := InodeMap.has_modify.1 hf
    by_cases heq : x.vino = w
    · rw [if_pos heq] at hset
      exact absurd hset (show (0 : Int) ≠ 1 by decide)
    · rw [if_neg heq] at hset
      obtain ⟨y, hy, rfl⟩ := h.bit w f₀ hf₀ hset
      exact ⟨y, mem_eraseIdx hx hy (Ne.symm heq), rfl⟩
  · obtain ⟨hne, f, hf, hpino, hdirty⟩ := h.handle y (List.mem_of_mem_eraseIdx hy)
    refine ⟨hne, _, by rw [hmap]; exact InodeMap.has_modify.2 ⟨f, hf, rfl⟩, ?_⟩
    split <;> exact ⟨hpino, hdirty⟩

/-- The last handle of an unlinked file is released: the file is deleted, and its
inode loses the offset and the open bit. -/
theorem release_deleted {v' : Vol} {nodes' : List Nat} {n : Nat} {x : Handle} {f' : Fuse}
    (h : s.Sound v nodes lo hi) (hx : s.handles[n]? = some x) (hu : x.file ∈ s.unlinked)
    (hlast : ∀ y ∈ s.handles.eraseIdx n, y.file ≠ x.file)
    (hmap : f'.map = (s.fuse.map.setPino x.vino 0).clrOpenbit x.vino)
    (hrests : Rests v' hi f'.sys)
    (hdrop : View.Drops v nodes s.unlinked lo hi x.file v' nodes') :
    (OpenFiles.close { s with
      fuse := f'
      handles := s.handles.eraseIdx n
      deleted := s.deleted ++ [x.file] } x.file).Sound v' nodes' lo hi := by
  obtain ⟨hz, g, hg, hpino, -⟩ := h.handle x (List.mem_of_getElem? hx)
  unfold OpenFiles.close
  rw [if_pos ⟨hu, hlast⟩]
  refine ⟨hrests, hdrop.view, ?_, fun w f hf hne => ?_, fun w f hf hset => ?_, fun y hy => ?_,
    congrArg (· ++ [x.file]) h.calls, ?_⟩
  · rw [hmap]
    exact (h.apart.setPino_zero _).modify _ fun _ => rfl
  · dsimp only at hf
    rw [hmap] at hf
    obtain ⟨f₀, hf₀, ⟨-, hzero, -⟩ | ⟨hother, rfl⟩⟩ := InodeMap.has_cleared hf
    · exact absurd hzero hne
    · refine hdrop.tracks f (h.tracks w f hf₀) (fun heq => ?_) hne
      exact hother (h.apart.has_unique hg hf₀ (hpino ▸ hz) (hpino.trans heq.symm))
  · dsimp only at hf
    rw [hmap] at hf
    obtain ⟨f₀, hf₀, ⟨-, -, hclear⟩ | ⟨hother, rfl⟩⟩ := InodeMap.has_cleared hf
    · rw [hclear] at hset
      exact absurd hset (by decide)
    · obtain ⟨y, hy, rfl⟩ := h.bit w f hf₀ hset
      exact ⟨y, mem_eraseIdx hx hy (Ne.symm hother), rfl⟩
  · obtain ⟨hne, f, hf, hpino', hdirty⟩ := h.handle y (List.mem_of_mem_eraseIdx hy)
    have hother : y.file ≠ x.file := hlast y hy
    have hvino : x.vino ≠ y.vino := by
      intro heq
      obtain rfl := hf.unique (heq ▸ hg)
      exact hother (hpino'.symm.trans hpino)
    refine ⟨hne, f, ?_, hpino', hdirty.trans (List.mem_erase_of_ne hother).symm⟩
    rw [hmap]
    exact hf.cleared hvino
  · simpa using ⟨h.nonzero, hz.symm⟩

theorem step_release (h : s.Sound v nodes lo hi) {n : Nat}
    (hord : (FileRequest.release n).Orderly s) : Steps s lo hi (.release n) := by
  obtain ⟨x, hx, hlast⟩ := hord
  obtain ⟨hz, g, hg, hpino, hdirty⟩ := h.handle x (List.mem_of_getElem? hx)
  obtain ⟨r, f', hcalls, hres⟩ := leads_releaseCalls h.rests h.view (hg.getPino.trans hpino)
    (fun hd => hdirty.1 (by rw [← hg.getDirty]; exact hd))
  have hstep : FileRequest.step s (.release n) = some (OpenFiles.close { s with
      fuse := f'
      handles := s.handles.eraseIdx n
      deleted := s.deleted ++ r.2 } x.file) := by
    rw [FileRequest.step, hx, Option.bind_some, hcalls]
    rfl
  cases hres with
  | clean hclean hr hmap hrests =>
    rw [hr, List.append_nil] at hstep
    have hnot : x.file ∉ s.unlinked := fun hu => hclean (hg.getDirty.trans (hdirty.2 hu))
    exact ⟨_, v, nodes, hstep, h.release_clean hx hnot hmap hrests⟩
  | @deleted v' nodes' hd hr hmap hrests hdrop =>
    rw [hr] at hstep
    have hu : x.file ∈ s.unlinked := hdirty.1 (hg.getDirty.symm.trans hd)
    exact ⟨_, v', nodes', hstep, h.release_deleted hx hu (hlast hd) hmap hrests hdrop⟩

/-- A change outside the index does not matter. -/
theorem of_sameIndex {v' : Vol} (hV : View.Sound ⟨v, nodes, s.unlinked⟩ lo hi)
    (hsame : SameIndex v v') : View.Sound ⟨v', nodes, s.unlinked⟩ lo hi := by
  refine ⟨hsame.wellFormed hV.toWellFormed, fun f hf => ?_, hV.distinct⟩
  have hp : v.Pending nodes f := hV.unlinked f hf
  exact (hsame.keeps 0).pending (Nat.ne_of_gt (hV.geometry.slot_pos hp.1)) hp

theorem tracks_sameIndex {v' : Vol} {f : FileT} (hsame : SameIndex v v') (hf : v.Tracks nodes f) :
    v'.Tracks nodes f := fun hz => (hsame.keeps 0).tracks hf hz hz

/-- A handle that is of no directory is of a file. -/
theorem isFile (h : s.Sound v nodes lo hi) {x : Handle} (hx : x ∈ s.handles)
    (hnot : ¬ s.fuse.sys.vol.IsDir x.file) :
    s.fuse.map.getPino x.vino = x.file ∧ v.IsFile nodes x.file := by
  obtain ⟨hz, g, hg, hpino, -⟩ := h.handle x hx
  refine ⟨hg.getPino.trans hpino, ?_⟩
  rw [h.vol, ← hpino] at hnot
  rw [← hpino] at hz ⊢
  exact ((h.tracks _ g hg).entry hz).resolve_right hnot

theorem step_read (h : s.Sound v nodes lo hi) {n : Nat} {buf : Mem} {size offset : Nat}
    (hord : (FileRequest.read n buf size offset).Orderly s) :
    Steps s lo hi (.read n buf size offset) := by
  obtain ⟨x, hx, hnot, hlt⟩ := hord
  obtain ⟨hpino, hfile⟩ := h.isFile (List.mem_of_getElem? hx) hnot
  obtain ⟨r, sys, time, hrun, hrests⟩ := h.rests.sfsRead h.wellFormed.toBlocks hfile hlt buf
  have hread : Leads (fuseSfsRead x.vino buf size offset) s.fuse fun _ f =>
      f = { s.fuse with sys := sys } := by
    unfold fuseSfsRead
    rw [leads_ask, hpino, leads_call_eq hrun]
    dsimp only
    split
    · rw [leads_negErrno, leads_pure]
    · rw [leads_pure]
  obtain ⟨r', f, hcall, rfl⟩ := hread
  have hsame := SameIndex.withTime v time
  exact ⟨_, _, nodes, by rw [FileRequest.step, hx, Option.bind_some, hcall]; rfl,
    h.of_tracks hrests (of_sameIndex h.view hsame) fun f => tracks_sameIndex hsame⟩

/-- A file with another extent is live or unlinked as before. -/
theorem of_resized {w : Vol} {nodes' : List Nat} {a size : Nat}
    (hV : View.Sound ⟨v, nodes, s.unlinked⟩ lo hi)
    (hres : v.Resized w nodes nodes' lo hi a size) (hfile : v.IsFile nodes a) :
    View.Sound ⟨w, nodes', s.unlinked⟩ lo hi ∧ ∀ f, v.Tracks nodes f → w.Tracks nodes' f := by
  have hpend : v.Pending nodes a → w.Pending nodes' a := by
    intro hp
    have ht : w.type a = EntryType.delFileEntry.code := hres.type.trans hp.2.1
    refine ⟨hres.isFile.1, ht, hres.isFile.not_mem hres.blocks.space.toFreeList⟩
  refine ⟨⟨hres.wellFormed hV.toWellFormed hfile, fun f hf => ?_, hV.distinct⟩, fun f hf hz => ?_⟩
  · have hp : v.Pending nodes f := hV.unlinked f hf
    by_cases heq : f = a
    · exact heq ▸ hpend (heq ▸ hp)
    · exact hres.keeps.pending heq hp
  · by_cases heq : f.pino = a
    · rw [heq]
      refine (heq ▸ hf hz).imp (And.imp_right hpend) (And.imp_right (Or.imp ?_ ?_))
      · exact fun hlive => ⟨hres.isFile.1, hres.type.trans hlive.2⟩
      · exact fun hdir => absurd hfile hdir.not_isFile
    · exact hres.keeps.tracks hf heq hz

theorem step_write (h : s.Sound v nodes lo hi) {n : Nat} {buf : Mem} {size offset : Nat}
    (hord : (FileRequest.write n buf size offset).Orderly s) :
    Steps s lo hi (.write n buf size offset) := by
  obtain ⟨x, hx, hnot, hlt, hsafe⟩ := hord
  obtain ⟨hpino, hfile⟩ := h.isFile (List.mem_of_getElem? hx) hnot
  have hb := h.wellFormed.toBlocks
  have hsafe' := hsafe nodes (by rw [h.vol]; exact hb.space.toFreeList)
  rw [h.vol] at hsafe'
  obtain ⟨r, sys, t', hrun, hres, hrests, -⟩ := h.rests.exec
    (p := sfsWrite x.file buf size offset) (Q := fun r t' => (r = minusOne ∧ t'.vol = v) ∨
      (r = size ∧ ∃ w nodes', v.Resized w nodes nodes' lo hi x.file
        (max (v.get x.file .size) (offset + size)) ∧ t'.vol = w.stored x.file offset buf size))
    hb.geometry.sized (reloads_sfsWrite hb.geometry hfile.1 buf size offset).ignores
    fun t ht => by
      subst ht
      exact gives_sfsWrite hb hfile (by omega) (hb.written_lt hfile hlt) hsafe' buf
  have hwrite : Leads (fuseSfsWrite x.vino buf size offset) s.fuse fun _ f =>
      f = { s.fuse with sys := sys } := by
    unfold fuseSfsWrite
    rw [leads_ask, hpino, leads_call_eq hrun]
    split
    · rw [leads_err]
    · rw [leads_pure]
  obtain ⟨r', f, hcall, rfl⟩ := hwrite
  have hstep : FileRequest.step s (.write n buf size offset) =
      some { s with fuse := { s.fuse with sys := sys } } := by
    rw [FileRequest.step, hx, Option.bind_some, hcall]
    rfl
  rcases hres with ⟨-, hvol⟩ | ⟨-, w, nodes', hresized, hvol⟩
  · rw [hvol] at hrests
    exact ⟨_, v, nodes, hstep, h.of_tracks hrests h.view fun _ hf => hf⟩
  · obtain ⟨hview, htracks⟩ := of_resized h.view hresized hfile
    have hfit : offset + size ≤ w.get x.file .size := by
      rw [hresized.size]
      exact Nat.le_max_right _ _
    have hsame := hresized.blocks.stored_sameIndex hresized.isFile hfit buf
    rw [hvol] at hrests
    exact ⟨_, _, nodes', hstep, h.of_tracks hrests (of_sameIndex hview hsame)
      fun f hf => tracks_sameIndex hsame (htracks f hf)⟩

/-- Every callback in order returns, and leaves the run sound. -/
theorem steps (h : s.Sound v nodes lo hi) {req : FileRequest} (hord : req.Orderly s) :
    Steps s lo hi req := by
  cases req with
  | mknod path mode => exact h.step_mknod path mode
  | «open» path => exact h.step_open path
  | unlink path => exact h.step_unlink hord
  | release n => exact h.step_release hord
  | read n buf size offset => exact h.step_read hord
  | write n buf size offset => exact h.step_write hord

end OpenFiles.Sound

/-! ## Runs -/

/-- The start of a run: no inode has an offset, and nothing is open. -/
def OpenFiles.start (sys : Sys) (junk : FileT) (memory : Nat → Bool) (attr : SfsAttr) : OpenFiles :=
  ⟨⟨sys, inodeMapCreate junk, memory, 0, attr⟩, [], [], [], []⟩

theorem OpenFiles.Sound.start {sys : Sys} {v : Vol} {nodes : List Nat} {lo hi : Nat}
    (h : Healthy v sys) (hw : WellFormed v nodes lo hi) (junk : FileT) (memory : Nat → Bool)
    (attr : SfsAttr) : (OpenFiles.start sys junk memory attr).Sound v nodes lo hi := by
  have hnone : ∀ w f, ¬ (inodeMapCreate junk).Has w f := by
    intro w f hf
    have hlt : w < 1 := hf.lt
    exact Nat.lt_irrefl 0 (Nat.lt_of_lt_of_le hf.1 (Nat.le_of_lt_succ hlt))
  refine ⟨Or.inl h, ⟨hw, ?_, List.nodup_nil⟩, injective_create junk,
    fun w f hf => absurd hf (hnone w f), fun w f hf => absurd hf (hnone w f), ?_, rfl, ?_⟩
  · exact fun f hf => absurd hf List.not_mem_nil
  · exact fun x hx => absurd hx List.not_mem_nil
  · exact List.not_mem_nil

/-- In a run from a fresh map whose callbacks are in order, every deletion is made
when it is due, none of offset 0, and every open handle has the offset of its file,
whose entry, slots and blocks are in use. -/
theorem open_files_kept {sys : Sys} {v : Vol} {nodes : List Nat} {lo hi : Nat} (h : Healthy v sys)
    (hw : WellFormed v nodes lo hi) {junk : FileT} {memory : Nat → Bool} {attr : SfsAttr}
    {reqs : List FileRequest} (hreqs : Meets FileRequest.step FileRequest.Orderly
      (OpenFiles.start sys junk memory attr) reqs) (n : Nat) :
    ∃ s', run FileRequest.step (OpenFiles.start sys junk memory attr) (reqs.take n) = some s' ∧
      s'.Kept := by
  obtain ⟨s', hrun, v', nodes', hs'⟩ := run_invariant (f := FileRequest.step)
    (I := fun s => ∃ v nodes, s.Sound v nodes lo hi)
    (fun s req ⟨v, nodes, hs⟩ hord => by
      obtain ⟨s', v', nodes', hstep, hs'⟩ := hs.steps hord
      exact ⟨s', hstep, v', nodes', hs'⟩)
    ⟨v, nodes, OpenFiles.Sound.start h hw junk memory attr⟩ hreqs n
  exact ⟨s', hrun, hs'.kept⟩

/-- At most one handle is open, and its bit is set when a file is unlinked. -/
def FileRequest.Alone (s : OpenFiles) : FileRequest → Prop
  | unlink _ => ∀ h ∈ s.handles, s.fuse.map.getOpenbit h.vino = 1
  | release n => n = 0 ∧ s.handles.length = 1
  | read .. => False
  | write .. => False
  | _ => True

instance FileRequest.Alone.decidable (s : OpenFiles) :
    (req : FileRequest) → Decidable (req.Alone s)
  | mknod .. => instDecidableTrue
  | .open _ => instDecidableTrue
  | unlink _ => inferInstanceAs (Decidable (∀ h ∈ s.handles, s.fuse.map.getOpenbit h.vino = 1))
  | release n => inferInstanceAs (Decidable (n = 0 ∧ s.handles.length = 1))
  | read .. => instDecidableFalse
  | write .. => instDecidableFalse

theorem FileRequest.Alone.orderly {s : OpenFiles} {req : FileRequest} (h : req.Alone s) :
    req.Orderly s := by
  cases req with
  | mknod path mode => exact trivial
  | «open» path => exact trivial
  | unlink path => exact fun x hx _ => h x hx
  | release n =>
    obtain ⟨rfl, hlen⟩ := h
    obtain ⟨x, hx⟩ := List.length_eq_one_iff.1 hlen
    refine ⟨x, by simp [hx], fun _ => ?_⟩
    simp [hx]
  | read n buf size offset => exact h.elim
  | write n buf size offset => exact h.elim

/-- A mounted volume with nothing open. -/
def freshFiles (s : Sys) : OpenFiles :=
  .start s ⟨0, 0, 0⟩ (fun _ => true) ⟨0, 0, 0, .file⟩

/-- The file `a` is made, and unlinked while it is open. -/
def unlinkReqs : List FileRequest := [.mknod pathA 0o100000, .open pathA, .unlink pathA, .release 0]

theorem open_files_kept_unlinkReqs : ∃ s s', FreshlyMounted blankOpts 512 s ∧
    run FileRequest.step (freshFiles s) (unlinkReqs.take 4) = some s' ∧ s'.Kept := by
  have hview : (blankMounted.map fun s =>
      decide (Meets FileRequest.step FileRequest.Alone (freshFiles s) unlinkReqs)) =
        some true := by
    decide +kernel
  obtain ⟨s, hmount, hdec⟩ := Option.map_eq_some_iff.1 hview
  have hreqs : Meets FileRequest.step FileRequest.Alone (freshFiles s) unlinkReqs :=
    of_decide_eq_true hdec
  obtain ⟨hq, hc, hfresh⟩ := (blankMounted_fresh hmount).fresh
  obtain ⟨s', hrun, hkept⟩ := open_files_kept ⟨rfl, hq, hc⟩ hfresh.wellFormed
    (hreqs.mono fun _ _ h => h.orderly) 4
  exact ⟨s, s', blankMounted_fresh hmount, hrun, hkept⟩

/-- The file `a` is opened twice, and unlinked when one of the handles is
released. -/
def twoHandles : List FileRequest :=
  [.mknod pathA 0o100000, .open pathA, .open pathA, .release 0, .unlink pathA]

/-- It is deleted at once, and the other handle has no offset. -/
theorem release_loses_open_file : ∃ s s', FreshlyMounted blankOpts 512 s ∧
    run FileRequest.step (freshFiles s) twoHandles = some s' ∧ s'.due = [] ∧
    s'.deleted = [3776] ∧ (∃ h ∈ s'.handles, h.file = 3776 ∧ s'.fuse.map.getPino h.vino = 0) ∧
    ¬ s'.Kept := by
  have hview : (blankMounted.bind fun s => run FileRequest.step (freshFiles s) twoHandles).map
      (fun s' => (s'.due, s'.deleted, s'.handles.map fun h => (h.file, s'.fuse.map.getPino h.vino)))
        = some ([], [3776], [(3776, 0)]) := by
    decide +kernel
  obtain ⟨s', hrun, hview⟩ := Option.map_eq_some_iff.1 hview
  obtain ⟨s, hmount, hrun⟩ := Option.bind_eq_some_iff.1 hrun
  simp only [Prod.mk.injEq] at hview
  obtain ⟨hdue, hdeleted, hhandles⟩ := hview
  have hmem : (3776, 0) ∈ s'.handles.map fun h => (h.file, s'.fuse.map.getPino h.vino) := by
    rw [hhandles]
    exact List.mem_singleton.2 rfl
  obtain ⟨h, hh, heq⟩ := List.mem_map.1 hmem
  obtain ⟨hfile, hpino⟩ := Prod.mk.inj heq
  refine ⟨s, s', blankMounted_fresh hmount, hrun, hdue, hdeleted, ⟨h, hh, hfile, hpino⟩,
    fun hkept => ?_⟩
  exact absurd (hkept.calls.symm.trans hdeleted) (by rw [hdue]; decide)

end Sfs
