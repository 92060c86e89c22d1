import Sfs.TreeView
import Sfs.OpenFiles

/-!
# Refinement

A mounted unit, call by call, is a file tree: what it answers to any list of calls
in order, the specification `FileTree.Step` allows.  The unit may be between two
calls in any state that `Rests` describes, so the calls of `sfs_read`, that leave a
stale cache, may stand anywhere.

* `UnitCall.perform` is the machine, a call with its answer, and `run_edits` ties it
  to the runs of operations;
* the `ignores` lemmas say that no call but `sfs_read` minds a stale cache;
* `Rests.reads` is what an `sfs_read` gives that does not cross the end of a block
  in the middle;
* `Session.Stands.refines` is one call, and `Session.Stands.refines_calls` all of
  them;
* `refines_run`, `names_run`, `file_stays_run` and `reads_written_run` are what the library says of
  the file trees, said of the unit.
-/

namespace Sfs

open Lib FileTree

/-! ## Calls with answers -/

/-- Answers with offsets of entries, and bytes. -/
abbrev Reply := Answer Nat UInt8

/-- What a mounted unit is asked. -/
inductive UnitCall where
  | edit (op : Op)
  | «open» (path : Buf)
  | getattr (file : Nat) (attr : SfsAttr)
  | read (file : Nat) (data : Mem) (size off : Nat)

def IterType.kind : IterType → FileTree.Kind
  | .file => .file
  | .dir => .dir

/-- An operation, with what it returns: 0 or -1, the offset of an entry or 0, the
size or -1. -/
def Op.perform (s : Session) : Op → Option (Reply × Session)
  | creat path => (s.sys.exec (sfsCreat path)).map fun x =>
    (if x.1.1 = 0 then .done else .refused, { s with sys := x.2 })
  | mkdir path => (s.sys.exec (sfsMkdir path)).map fun x =>
    (if x.1.1 = 0 then .done else .refused, { s with sys := x.2 })
  | rmdir path => (s.sys.exec (sfsRmdir path)).map fun x =>
    (if x.1 = 0 then .done else .refused, { s with sys := x.2 })
  | unlink path => (s.sys.exec (sfsUnlink path)).map fun x =>
    (if x.1 = 0 then .refused else .handle x.1,
      { sys := x.2, pending := if x.1 = 0 then s.pending else x.1 :: s.pending })
  | delete file => (s.sys.exec (sfsDelete file)).map fun x =>
    (if x.1 = 0 then .done else .refused, { sys := x.2, pending := s.pending.erase file })
  | rename file newpath => (s.sys.exec (sfsRename file newpath)).map fun x =>
    (if x.1.1 = 0 then .refused else .handle x.1.1, { s with sys := x.2 })
  | write file data size off => (s.sys.exec (sfsWrite file data size off)).map fun x =>
    (if x.1 = minusOne then .refused else .done, { s with sys := x.2 })
  | truncate file size => (s.sys.exec (sfsTruncate file size)).map fun x =>
    (if x.1 = 0 then .done else .refused, { s with sys := x.2 })

/-- Without its answer, that is a step. -/
theorem Op.perform_step (s : Session) (op : Op) : (op.perform s).map Prod.snd = op.step s := by
  cases op <;> simp only [perform, step, Option.map_map] <;> rfl

/-- A call with its answer. -/
def UnitCall.perform (s : Session) : UnitCall → Option (Reply × Session)
  | edit op => op.perform s
  | .open path => (s.sys.exec (sfsOpen path)).map fun x =>
    (if x.1 = 0 then .refused else .handle x.1, { s with sys := x.2 })
  | getattr file attr => (s.sys.exec (sfsGetattr file attr)).map fun x =>
    (if x.1.1 = 0 then .attr x.1.2.type.kind x.1.2.size else .refused, { s with sys := x.2 })
  | read file data size off => (s.sys.exec (sfsRead file data size off)).map fun x =>
    (if x.1.1 = minusOne then .refused else .bytes (bytesOf x.1.2 x.1.1), { s with sys := x.2 })

/-- A unit that is asked for operations only runs as a session does. -/
theorem run_edits (s : Session) (ops : List Op) :
    (answers UnitCall.perform s (ops.map .edit)).map Prod.snd = run Op.step s ops := by
  rw [← run_of_answers]
  induction ops generalizing s with
  | nil => rfl
  | cons op ops ih =>
    have hnext : next UnitCall.perform s (.edit op) = op.step s := op.perform_step s
    rw [List.map_cons, run, run, hnext]
    exact congrArg (Option.bind _) (funext ih)

/-- The call of the file tree. -/
def Op.asks : Op → FileTree.Call Buf Nat UInt8
  | creat path => .creat (cstr path)
  | mkdir path => .mkdir (cstr path)
  | rmdir path => .rmdir (cstr path)
  | unlink path => .unlink (cstr path)
  | delete file => .delete file
  | rename file newpath => .rename file (cstr newpath)
  | write file data size off => .write file off (bytesOf data size)
  | truncate file size => .truncate file size

def UnitCall.asks : UnitCall → FileTree.Call Buf Nat UInt8
  | edit op => op.asks
  | .open path => .open (cstr path)
  | getattr file _ => .getattr file
  | read file _ size off => .read file size off

/-- The file is read in order: it is live or unlinked, and the bytes that are asked
for start at the start of a block or end in the same one. -/
structure Vol.ReadsInOrder (v : Vol) (pending : List Nat) (file size off : Nat) : Prop where
  known : v.LiveFile file ∨ file ∈ pending
  range : off + size < 9223372036854775808
  blocks : off % v.blockSize = 0 ∨
    off % v.blockSize + min size (v.get file .size - off) ≤ v.blockSize

/-- The call is in order, and an operation is safe. -/
def UnitCall.Admitted (v : Vol) (pending : List Nat) : UnitCall → Prop
  | edit op => op.Accepts v pending ∧ op.Safe v
  | .open _ => True
  | getattr file _ => v.LiveFile file ∨ v.IsDir file
  | read file _ size off => v.ReadsInOrder pending file size off

/-! ## Programs that do not mind a stale cache -/

section

variable {v : Vol} {lo hi off : Nat} {q : Buf}

theorem ignores_unit {α : Type} {f : SfsUnit → SfsM α} (h : Ignores v hi (f v.fs)) :
    Ignores v hi (unit >>= f) := by
  intro s hs
  have hfs : s.fs = v.fs := congrArg Vol.fs hs.vol
  have hrun := h s hs
  rw [← hfs] at hrun
  exact hrun

theorem ignores_fail {α : Type} (code : Nat) (a : α) :
    Ignores v hi (setErrno code >>= fun _ => pure a) :=
  (ignores_setErrno code).bind fun _ => ignores_pure a

theorem ignores_sfsMkdir (hg : Geometry v lo hi) : Ignores v hi (sfsMkdir q) := by
  unfold sfsMkdir
  refine ignores_uninit.bind fun entr => ignores_ite (ignores_fail _ _) ?_
  exact (ignores_checkDirs hg).bind fun x =>
    ignores_ite (ignores_fail _ _) ((reloads_searchName hg _).bind _).ignores

theorem ignores_sfsRmdir (hg : Geometry v lo hi) : Ignores v hi (sfsRmdir q) := by
  unfold sfsRmdir
  refine ignores_uninit.bind fun entr => ignores_unit (ignores_ite (ignores_fail _ _) ?_)
  exact ((reloads_searchName hg _).bind _).ignores

theorem ignores_sfsRename (hg : Geometry v lo hi) {file : Nat} :
    Ignores v hi (sfsRename file q) := by
  unfold sfsRename
  refine ignores_uninit.bind fun entr => ignores_ite (ignores_fail _ _) ?_
  exact (ignores_checkDirs hg).bind fun x =>
    ignores_ite (ignores_fail _ _) ((reloads_searchName hg _).bind _).ignores

theorem reloads_sfsTruncate (hg : Geometry v lo hi) (hoff : v.Slot off) (size : Nat) :
    Reloads v hi (sfsTruncate off size) := by
  unfold sfsTruncate
  exact reloads_uninit fun entr => (reloads_readEntry hg hoff).bind _

theorem reloads_sfsGetattr (hg : Geometry v lo hi) (hoff : v.Slot off) (attr : SfsAttr) :
    Reloads v hi (sfsGetattr off attr) := by
  unfold sfsGetattr
  exact reloads_uninit fun entr => (reloads_readEntry hg hoff).bind _

end

/-! ## What the calls answer -/

/-- The path of a live entry is correct. -/
theorem isCorrectString_of_isPath_cstr {q : Buf} (hp : IsPath (cstr q)) (n : Nat) :
    isCorrectString q n = true := by
  induction q generalizing n with
  | nil => cases n <;> rfl
  | cons c q ih =>
    cases n with
    | zero => rfl
    | succ n =>
      by_cases hc : c = 0
      · simp [isCorrectString, hc]
      · rw [cstr, if_neg hc] at hp
        have hchar : isCorrectChar c = true := hp c List.mem_cons_self
        simp [isCorrectString, hc, hchar, ih fun e he => hp e (List.mem_cons_of_mem c he)]

/-- `sfs_unlink` that fails has found no file of the path. -/
theorem gives_sfsUnlink_none {t : Img} {nodes : List Nat} {lo hi : Nat} {q : Buf}
    (hw : WellFormed t.vol nodes lo hi) :
    Gives (sfsUnlink q) t fun r _ => r = 0 → ∀ o, ¬ Named t.vol fileKind o (cstr q) := by
  have hg := hw.geometry
  unfold sfsUnlink
  rw [gives_uninit]
  by_cases hcorrect : isCorrectFilepath q = false
  · rw [if_pos hcorrect, gives_setErrno, gives_pure]
    intro _ o hn
    have hpath : isCorrectFilepath q = true :=
      isCorrectString_of_isPath_cstr (hw.isPath (Or.inl hn)) _
    exact Bool.noConfusion (hcorrect.symm.trans hpath)
  · rw [if_neg hcorrect, gives_bind]
    refine (gives_searchName hg hw.layout fileKind_fits hw.fileNamed _).mono
      fun ⟨start, entr₁⟩ t₁ ⟨hvol, h₁⟩ => ?_
    dsimp only at h₁ ⊢
    rcases h₁ with ⟨hz, hnone⟩ | ⟨hz, hnamed, -, -⟩
    · rw [if_pos hz, gives_setErrno, gives_pure]
      exact fun _ => hnone
    · have hslot := hnamed.slot
      rw [if_neg hz]
      rw [← hvol] at hg hslot
      rw [gives_writeEntry hg.sized hslot.aligned (hg.slot_le hslot), gives_update, gives_setErrno,
        gives_pure]
      exact fun h => absurd h hz

/-- `sfs_getattr` of an entry that is a file or a directory. -/
theorem gives_sfsGetattr_attr {t : Img} {lo hi : Nat} (hg : Geometry t.vol lo hi) {file : Nat}
    (hslot : t.vol.Slot file) (attr : SfsAttr) :
    Gives (sfsGetattr file attr) t fun r t' => t'.vol = t.vol ∧ r.1 = 0 ∧
      (t.vol.type file = EntryType.fileEntry.code →
        r.2 = ⟨t.vol.get file .timeStamp, t.vol.get file .size, file, .file⟩) ∧
      (t.vol.type file = EntryType.dirEntry.code →
        r.2 = ⟨t.vol.get file .timeStamp, 0, file, .dir⟩) := by
  unfold sfsGetattr
  rw [gives_uninit, gives_readEntry hg.sized hslot.ge hslot.aligned (hg.slot_le hslot)]
  dsimp only
  rw [if_neg (by decide), gives_setErrno, Vol.get_load, Vol.get_load, Vol.get_load]
  by_cases hfile : t.vol.type file = EntryType.fileEntry.code
  · rw [if_pos hfile, gives_pure]
    exact ⟨rfl, rfl, fun _ => rfl, fun hdir => absurd (hfile.symm.trans hdir) (by decide)⟩
  rw [if_neg hfile]
  by_cases hdir : t.vol.type file = EntryType.dirEntry.code
  · rw [if_pos hdir, gives_pure]
    exact ⟨rfl, rfl, fun h => absurd h hfile, fun _ => rfl⟩
  · rw [if_neg hdir, gives_pure]
    exact ⟨rfl, rfl, fun h => absurd h hfile, fun h => absurd h hdir⟩

/-- `sfs_read` behind the end of the file. -/
theorem gives_sfsRead_behind {t : Img} {lo hi : Nat} (hg : Geometry t.vol lo hi) {file : Nat}
    (hslot : t.vol.Slot file) {off : Nat} (hoff : t.vol.get file .size < off) (data : Mem)
    (size : Nat) :
    Gives (sfsRead file data size off) t fun r t' => t'.vol = t.vol ∧ r.1 = minusOne := by
  unfold sfsRead
  rw [gives_uninit, gives_readEntry hg.sized hslot.ge hslot.aligned (hg.slot_le hslot)]
  dsimp only
  rw [if_neg (by decide), Vol.get_load, if_pos hoff, gives_setErrno, gives_pure]
  exact ⟨rfl, rfl⟩

/-- The blocks before the index are there. -/
theorem Healthy.hasRange {s : Sys} {v : Vol} {lo hi off n : Nat} (h : Healthy v s)
    (hg : Geometry v lo hi) (hle : off + n ≤ v.fs.entryStart) : s.dev.HasRange off n := by
  intro b _ hb
  have hin := hg.inside
  have hne := hg.nonempty
  have hbs : s.dev.blockSize = v.blockSize := congrArg Vol.blockSize h.vol
  have hlast := hg.sized.hasBlock (show off + (n - 1) < v.size by omega)
  rw [hbs] at hb
  have hmul := Nat.mul_le_mul_right v.blockSize hb
  unfold BlockDev.HasBlock
  unfold Vol.HasBlock at hlast
  rw [hbs, show s.dev.size = v.size from congrArg Vol.size h.vol]
  omega

/-- `sfs_read` of bytes in order gives the bytes of the file. -/
theorem Rests.reads {s : Sys} {v : Vol} {nodes : List Nat} {lo hi file size off : Nat}
    (h : Rests v hi s) (hw : Blocks v nodes lo hi) (hfile : v.IsFile nodes file)
    (hoff : off ≤ v.get file .size) (hlt : off + size < 9223372036854775808)
    (hblocks : off % v.blockSize = 0 ∨
      off % v.blockSize + min size (v.get file .size - off) ≤ v.blockSize) (data : Mem) :
    ∃ m s' time, s.exec (Sfs.sfsRead file data size off)
        = some ((min size (v.get file .size - off), m), s') ∧
      Rests { v with fs := { v.fs with time := time } } hi s' ∧
      ∀ i, i < min size (v.get file .size - off) → m i = v.fileByte file (off + i) := by
  have hg := hw.geometry
  have hin := hg.inside
  have hne := hg.nonempty
  have hslot := hfile.1
  obtain ⟨s₀, h₀, heq⟩ : ∃ s₀, Healthy v s₀ ∧
      s.exec (Sfs.sfsRead file data size off) = s₀.exec (Sfs.sfsRead file data size off) := by
    rcases h with h | h
    · exact ⟨s, h, rfl⟩
    · exact ⟨s.forget, h.forget, reloads_sfsRead hg hslot data size off s h⟩
  have hvol := h₀.vol
  have hbs : s₀.dev.blockSize = v.blockSize := congrArg Vol.blockSize hvol
  have hsize : s₀.dev.size = v.size := congrArg Vol.size hvol
  have hdata : s₀.dev.data = v.data := congrArg Vol.data hvol
  generalize hn : min size (v.get file .size - off) = n at hblocks ⊢
  have hend : v.get file .startBlock * v.blockSize + off + n ≤ v.fs.entryStart :=
    hw.range_le hfile (by omega)
  have hexact : s₀.ReadExact file size off := by
    have hall : v.get file .startBlock * v.blockSize + 0 + v.get file .size ≤ v.fs.entryStart :=
      hw.range_le hfile (Nat.le_of_eq (Nat.zero_add _))
    refine (sfsReadExact_iff h₀.quiet h₀.coherent (by rw [hvol]; exact hg.sized) hslot.aligned
      (by rw [hsize]; exact hg.slot_le hslot) (by rw [hvol]; exact hoff) ?_ (by omega)).2
      ⟨by omega, ?_, ?_⟩
    · rw [hvol, hbs, hsize]
      omega
    · rw [hvol, hbs]
      have hrange := h₀.hasRange hg hend
      rw [BlockDev.HasRange, hbs] at hrange
      exact hrange _ (Nat.le_refl _) (Nat.div_le_div_right (Nat.le_add_right _ _))
    · rw [hvol, hbs, hn]
      exact hblocks
  obtain ⟨s', hrun⟩ := hexact data
  obtain ⟨r, s₁, time, hrun₁, hrests⟩ := h.sfsRead hw hfile hlt data
  rw [hvol, hn] at hrun
  rw [heq, hrun] at hrun₁
  cases hrun₁
  refine ⟨_, s', time, heq.trans hrun, hrests, fun k hk => ?_⟩
  have hbyte : blit data 0 s₀.dev.data (v.get file .startBlock * s₀.dev.blockSize + off) n (0 + k)
      = s₀.dev.data (v.get file .startBlock * s₀.dev.blockSize + off + k) := blit_add hk
  rw [Nat.zero_add, hbs, hdata, Nat.add_assoc] at hbyte
  rw [hbs, hdata]
  exact hbyte

/-! ## One call -/

/-- The unit is at a sound view, with a cache that may be stale. -/
structure Session.Stands (s : Session) (V : View) (lo hi : Nat) : Prop where
  sound : V.Sound lo hi
  rests : Rests V.vol hi s.sys
  pending : s.pending = V.pending

/-- The view with another time in the unit. -/
def View.withTime (V : View) (time : Nat) : View :=
  ⟨{ V.vol with fs := { V.vol.fs with time := time } }, V.nodes, V.pending⟩

/-- What a call does to the view: one of the changes of the operations, or nothing
but to the time of the unit. -/
inductive UnitCall.Effect (lo hi : Nat) (V : View) : UnitCall → View → Prop where
  | change {op : Op} {W : View} (h : Change lo hi V op W) : Effect lo hi V (.edit op) W
  | timed (c : UnitCall) (time : Nat) : Effect lo hi V c (V.withTime time)

/-- The call returns, its answer and what it does are a step of the file tree, and
the unit is at a sound view again. -/
structure UnitCall.Goes (c : UnitCall) (s : Session) (V : View) (lo hi : Nat) (r : Reply)
    (s' : Session) (V' : View) : Prop where
  run : c.perform s = some (r, s')
  step : Step Above V.tree c.asks r V'.tree
  effect : c.Effect lo hi V V'
  stands : s'.Stands V' lo hi

def UnitCall.Follows (c : UnitCall) (s : Session) (V : View) (lo hi : Nat) : Prop :=
  ∃ r s' V', c.Goes s V lo hi r s' V'

namespace Session.Stands

variable {s : Session} {V : View} {lo hi : Nat} {c : UnitCall} {sys : Sys} {q : Buf}

/-- A call that may be refused, and changes nothing. -/
theorem refuses (h : s.Stands V lo hi) (hrun : c.perform s = some (.refused, { s with sys := sys }))
    (hmay : V.tree.Refuses c.asks) (hrests : Rests V.vol hi sys) : c.Follows s V lo hi :=
  ⟨_, _, V, hrun, .refused hmay (Same.refl _), .timed c V.vol.fs.time, h.sound, hrests, h.pending⟩

/-- A call that does one of the changes. -/
theorem changes {op : Op} {W : View} {s' : Session} {r : Reply} (h : s.Stands V lo hi)
    (hrun : op.perform s = some (r, s')) (hch : Change lo hi V op W)
    (hstep : Step Above V.tree op.asks r W.tree) (hrests : Rests W.vol hi s'.sys)
    (hpending : s'.pending = W.pending) : UnitCall.Follows (.edit op) s V lo hi :=
  ⟨_, _, W, hrun, hstep, .change hch, hch.sound h.sound, hrests, hpending⟩

theorem creat (h : s.Stands V lo hi) (hq : GoodPath q) :
    UnitCall.Follows (.edit (.creat q)) s V lo hi := by
  have hw := h.sound.toWellFormed
  obtain ⟨r, sys, t', hrun, ⟨-, hadd, hgood⟩, hrests, -⟩ := h.rests.exec (p := sfsCreat q)
    (Q := fun r t' => r.2 = q ∧ Creates V.vol t'.vol fileKind q r.1 ∧
      (r.1 = 0 → IsPath (cstr q) ∧ V.vol.HasDirs (cstr q) ∧ ∀ o, ¬ V.vol.Live o (cstr q)))
    hw.geometry.sized (ignores_sfsCreat hw.geometry)
    fun t ht => by rw [← ht] at hw ⊢; exact gives_sfsCreat hw.indexed hq
  have hcall : Op.perform s (.creat q)
      = some (if r.1 = 0 then .done else .refused, { s with sys := sys }) := by
    rw [Op.perform, hrun]
    rfl
  rcases hadd with ⟨hr, hvol⟩ | ⟨hr, a, hadd, -, -, hempty⟩
  · simp only [hr, show (-1 : Int) ≠ 0 by decide, if_false] at hcall
    exact h.refuses hcall trivial (hvol ▸ hrests)
  · obtain ⟨hpath, hdirs, hnone⟩ := hgood hr
    rw [if_pos hr] at hcall
    exact h.changes hcall (.created hadd hpath hdirs hnone (hempty rfl))
      (h.sound.creat_step hadd hdirs hnone (hempty rfl).1) hrests h.pending

theorem mkdir (h : s.Stands V lo hi) (hq : GoodPath q) :
    UnitCall.Follows (.edit (.mkdir q)) s V lo hi := by
  have hw := h.sound.toWellFormed
  obtain ⟨r, sys, t', hrun, ⟨-, hadd, hgood⟩, hrests, -⟩ := h.rests.exec (p := sfsMkdir q)
    (Q := fun r t' => r.2 = q ∧ Creates V.vol t'.vol dirKind q r.1 ∧
      (r.1 = 0 → IsPath (cstr q) ∧ V.vol.MakesDir q))
    hw.geometry.sized (ignores_sfsMkdir hw.geometry)
    fun t ht => by rw [← ht] at hw ⊢; exact gives_sfsMkdir hw.indexed hq
  have hcall : Op.perform s (.mkdir q)
      = some (if r.1 = 0 then .done else .refused, { s with sys := sys }) := by
    rw [Op.perform, hrun]
    rfl
  rcases hadd with ⟨hr, hvol⟩ | ⟨hr, a, hadd, -⟩
  · simp only [hr, show (-1 : Int) ≠ 0 by decide, if_false] at hcall
    exact h.refuses hcall trivial (hvol ▸ hrests)
  · obtain ⟨hpath, hmakes⟩ := hgood hr
    rw [if_pos hr] at hcall
    exact h.changes hcall (.madeDir hadd hpath hmakes) (h.sound.mkdir_step hadd hmakes) hrests
      h.pending

theorem rmdir (h : s.Stands V lo hi) (q : Buf) :
    UnitCall.Follows (.edit (.rmdir q)) s V lo hi := by
  have hw := h.sound.toWellFormed
  obtain ⟨r, sys, t', hrun, hdone, hrests, -⟩ := h.rests.exec (p := sfsRmdir q)
    (Q := fun r t' => (r = -1 ∧ t'.vol = V.vol) ∨ (r = 0 ∧ ∃ a, Named V.vol dirKind a (cstr q) ∧
      OnlyUnder V.vol a (cstr q) ∧ V.vol.Released t'.vol a))
    hw.geometry.sized (ignores_sfsRmdir hw.geometry)
    fun t ht => by rw [← ht] at hw ⊢; exact gives_sfsRmdir hw
  have hcall : Op.perform s (.rmdir q)
      = some (if r = 0 then .done else .refused, { s with sys := sys }) := by
    rw [Op.perform, hrun]
    rfl
  rcases hdone with ⟨hr, hvol⟩ | ⟨hr, a, hname, honly, hrel⟩
  · simp only [hr, show (-1 : Int) ≠ 0 by decide, if_false] at hcall
    exact h.refuses hcall trivial (hvol ▸ hrests)
  · rw [if_pos hr] at hcall
    exact h.changes hcall (.removed hname honly hrel) (h.sound.rmdir_step hname honly hrel) hrests
      h.pending

theorem unlink (h : s.Stands V lo hi) (q : Buf) :
    UnitCall.Follows (.edit (.unlink q)) s V lo hi := by
  have hw := h.sound.toWellFormed
  obtain ⟨r, sys, t', hrun, ⟨hdone, hnone⟩, hrests, -⟩ := h.rests.exec (p := sfsUnlink q)
    (Q := fun r t' => ((r = 0 ∧ t'.vol = V.vol) ∨
      (r ≠ 0 ∧ V.vol.First fileKind r (cstr q) ∧ V.vol.Retyped t'.vol r .delFileEntry)) ∧
      (r = 0 → ∀ o, ¬ Named V.vol fileKind o (cstr q)))
    hw.geometry.sized (ignores_sfsUnlink hw.geometry)
    fun t ht => by
      rw [← ht] at hw ⊢
      exact (gives_sfsUnlink hw).and (gives_sfsUnlink_none hw)
  have hcall : Op.perform s (.unlink q) = some (if r = 0 then .refused else .handle r,
      { sys := sys, pending := if r = 0 then s.pending else r :: s.pending }) := by
    rw [Op.perform, hrun]
    rfl
  rcases hdone with ⟨hr, hvol⟩ | ⟨hr, hfirst, htype⟩
  · rw [if_pos hr, if_pos hr] at hcall
    exact h.refuses hcall (fun o => hnone hr o) (hvol ▸ hrests)
  · rw [if_neg hr, if_neg hr] at hcall
    exact h.changes hcall (.unlinked hfirst.1 htype) (h.sound.unlink_step hfirst.1 htype) hrests
      (congrArg (r :: ·) h.pending)

theorem delete (h : s.Stands V lo hi) {a : Nat} (ha : a ∈ V.pending) :
    UnitCall.Follows (.edit (.delete a)) s V lo hi := by
  have hb := h.sound.toBlocks
  have hfile := (h.sound.unlinked a ha).isFile
  obtain ⟨r, sys, t', hrun, ⟨hr, nodes', hdel⟩, hrests, -⟩ := h.rests.exec (p := sfsDelete a)
    (Q := fun r t' => r = 0 ∧ ∃ nodes', V.vol.Deleted t'.vol V.nodes nodes' lo hi a)
    hb.geometry.sized (reloads_sfsDelete hb.geometry hfile.1).ignores
    fun t ht => by rw [← ht] at hb hfile ⊢; exact gives_sfsDelete hb hfile
  have hcall : Op.perform s (.delete a)
      = some (.done, { sys := sys, pending := s.pending.erase a }) := by
    rw [Op.perform, hrun]
    simp [hr]
  exact h.changes hcall (.deleted hdel ha) (h.sound.delete_step hdel ha) hrests
    (congrArg (List.erase · a) h.pending)

theorem rename (h : s.Stands V lo hi) {file : Nat} (hlive : V.vol.LiveFile file)
    (hq : GoodPath q) (hsafe : V.vol.Renames q → V.vol.get file .size = 0) :
    UnitCall.Follows (.edit (.rename file q)) s V lo hi := by
  have hw := h.sound.toWellFormed
  have hfile : V.vol.IsFile V.nodes file := hlive.isFile
  obtain ⟨r, sys, t', hrun, ⟨-, hdone⟩, hrests, -⟩ := h.rests.exec (p := sfsRename file q)
    (Q := fun r t' => r.2 = q ∧ ((r.1 = 0 ∧ t'.vol = V.vol) ∨
      (r.1 ≠ 0 ∧ IsPath (cstr q) ∧ V.vol.Renames q ∧ V.vol.get file .size = 0 ∧
        ∃ w, V.vol.Renamed t'.vol file r.1 (cstr q) w)))
    hw.geometry.sized (ignores_sfsRename hw.geometry)
    fun t ht => by
      rw [← ht] at hw hfile hsafe ⊢
      exact gives_sfsRename hw hfile hq hsafe
  have hcall : Op.perform s (.rename file q)
      = some (if r.1 = 0 then .refused else .handle r.1, { s with sys := sys }) := by
    rw [Op.perform, hrun]
    rfl
  rcases hdone with ⟨hr, hvol⟩ | ⟨hr, hpath, hgoes, hempty, w, hren⟩
  · rw [if_pos hr] at hcall
    exact h.refuses hcall trivial (hvol ▸ hrests)
  · rw [if_neg hr] at hcall
    exact h.changes hcall (.renamed hlive hpath hgoes hempty hren)
      (h.sound.rename_step hlive hgoes hempty hren) hrests h.pending

theorem write (h : s.Stands V lo hi) {file size off : Nat} (hlive : V.vol.LiveFile file)
    (hlt : off + size < 9223372036854775808)
    (hsafe : V.vol.GrowsSafely V.nodes file (max (V.vol.get file .size) (off + size)))
    (data : Mem) : UnitCall.Follows (.edit (.write file data size off)) s V lo hi := by
  have hb := h.sound.toBlocks
  have hfile : V.vol.IsFile V.nodes file := hlive.isFile
  obtain ⟨r, sys, t', hrun, hdone, hrests, -⟩ := h.rests.exec (p := sfsWrite file data size off)
    (Q := fun r t' => (r = minusOne ∧ t'.vol = V.vol) ∨
      (r = size ∧ ∃ w nodes', V.vol.Resized w V.nodes nodes' lo hi file
        (max (V.vol.get file .size) (off + size)) ∧ t'.vol = w.stored file off data size))
    hb.geometry.sized (reloads_sfsWrite hb.geometry hlive.1 data size off).ignores
    fun t ht => by
      rw [← ht] at hb hfile hsafe ⊢
      exact gives_sfsWrite hb hfile (by omega) (hb.written_lt hfile hlt) hsafe data
  have hcall : Op.perform s (.write file data size off)
      = some (if r = minusOne then .refused else .done, { s with sys := sys }) := by
    rw [Op.perform, hrun]
    rfl
  rcases hdone with ⟨hr, hvol⟩ | ⟨hr, w, nodes', hres, hstored⟩
  · rw [if_pos hr] at hcall
    exact h.refuses hcall trivial (hvol ▸ hrests)
  · rw [if_neg (hr ▸ ne_minusOne (by omega))] at hcall
    exact h.changes (W := ⟨t'.vol, nodes', V.pending⟩) hcall (.written hlive hres hstored)
      (hstored ▸ h.sound.write_step hlive hres) hrests h.pending

theorem truncate (h : s.Stands V lo hi) {file size : Nat} (hlive : V.vol.LiveFile file)
    (hsafe : V.vol.TruncatesSafely V.nodes file size) :
    UnitCall.Follows (.edit (.truncate file size)) s V lo hi := by
  have hb := h.sound.toBlocks
  have hfile : V.vol.IsFile V.nodes file := hlive.isFile
  obtain ⟨r, sys, t', hrun, hdone, hrests, -⟩ := h.rests.exec (p := sfsTruncate file size)
    (Q := fun r t' => (r = -1 ∧ t'.vol = V.vol) ∨
      (r = 0 ∧ ∃ nodes', V.vol.Resized t'.vol V.nodes nodes' lo hi file size))
    hb.geometry.sized (reloads_sfsTruncate hb.geometry hlive.1 size).ignores
    fun t ht => by
      rw [← ht] at hb hfile hsafe ⊢
      exact gives_sfsTruncate hb hfile hsafe
  have hcall : Op.perform s (.truncate file size)
      = some (if r = 0 then .done else .refused, { s with sys := sys }) := by
    rw [Op.perform, hrun]
    rfl
  rcases hdone with ⟨hr, hvol⟩ | ⟨hr, nodes', hres⟩
  · simp only [hr, show (-1 : Int) ≠ 0 by decide, if_false] at hcall
    exact h.refuses hcall trivial (hvol ▸ hrests)
  · rw [if_pos hr] at hcall
    exact h.changes (W := ⟨t'.vol, nodes', V.pending⟩) hcall (.truncated hlive hres)
      (h.sound.truncate_step hlive hres) hrests h.pending

theorem «open» (h : s.Stands V lo hi) (q : Buf) : UnitCall.Follows (.open q) s V lo hi := by
  have hw := h.sound.toWellFormed
  obtain ⟨r, sys, t', hrun, ⟨hvol, hdone⟩, hrests, -⟩ := h.rests.exec (p := sfsOpen q)
    (Q := fun r t' => t'.vol = V.vol ∧ ((r = 0 ∧ ∀ o, ¬ V.vol.Live o (cstr q)) ∨
      (r ≠ 0 ∧ V.vol.Opens (cstr q) r)))
    hw.geometry.sized (reloads_sfsOpen hw.geometry).ignores
    fun t ht => by rw [← ht] at hw ⊢; exact gives_sfsOpen hw.indexed
  rw [hvol] at hrests
  have hcall : UnitCall.perform s (.open q)
      = some (if r = 0 then .refused else .handle r, { s with sys := sys }) := by
    rw [UnitCall.perform, hrun]
    rfl
  rcases hdone with ⟨hr, hnone⟩ | ⟨hr, hopens⟩
  · rw [if_pos hr] at hcall
    exact h.refuses hcall (not_live_of_free hnone) hrests
  · rw [if_neg hr] at hcall
    refine ⟨_, _, V, hcall, .opened ?_ (Same.refl _), .timed _ V.vol.fs.time, h.sound, hrests,
      h.pending⟩
    exact hopens.imp (fun hfirst => hfirst.1) fun hdir => ⟨hdir.2.1, hdir.1⟩

theorem getattr (h : s.Stands V lo hi) {file : Nat}
    (hentry : V.vol.LiveFile file ∨ V.vol.IsDir file) (attr : SfsAttr) :
    UnitCall.Follows (.getattr file attr) s V lo hi := by
  have hw := h.sound.toWellFormed
  have hslot : V.vol.Slot file := hentry.elim (fun hl => hl.1) fun hd => hd.1
  obtain ⟨r, sys, t', hrun, ⟨hvol, hr, hfile, hdir⟩, hrests, -⟩ :=
    h.rests.exec (p := sfsGetattr file attr)
    (Q := fun r t' => t'.vol = V.vol ∧ r.1 = 0 ∧
      (V.vol.type file = EntryType.fileEntry.code →
        r.2 = ⟨V.vol.get file .timeStamp, V.vol.get file .size, file, .file⟩) ∧
      (V.vol.type file = EntryType.dirEntry.code →
        r.2 = ⟨V.vol.get file .timeStamp, 0, file, .dir⟩))
    hw.geometry.sized (reloads_sfsGetattr hw.geometry hslot attr).ignores
    fun t ht => by rw [← ht] at hw hslot ⊢; exact gives_sfsGetattr_attr hw.geometry hslot attr
  rw [hvol] at hrests
  have hcall : UnitCall.perform s (.getattr file attr)
      = some (.attr r.2.type.kind r.2.size, { s with sys := sys }) := by
    rw [UnitCall.perform, hrun]
    simp [hr]
  rcases hentry with hlive | hd
  · rw [hfile hlive.2] at hcall
    obtain ⟨p, hp, -⟩ := hw.fileName file hlive.isFile
    have hname : V.tree.named .file p file := ⟨hp, hlive.1, hlive.2⟩
    have hstep : Step Above V.tree (.getattr file)
        (.attr .file (V.vol.content file).length) V.tree :=
      .attrFile hname (View.content_file hlive.isFile) (Same.refl _)
    rw [Vol.content_length] at hstep
    exact ⟨_, _, V, hcall, hstep, .timed _ V.vol.fs.time, h.sound, hrests, h.pending⟩
  · rw [hdir hd.2] at hcall
    obtain ⟨p, hp, -⟩ := hw.dirName file hd
    have hname : V.tree.named .dir p file := ⟨hp, hd.1, hd.2⟩
    exact ⟨_, _, V, hcall, .attrDir hname (Same.refl _), .timed _ V.vol.fs.time, h.sound, hrests,
      h.pending⟩

theorem read (h : s.Stands V lo hi) {file size off : Nat}
    (horder : V.vol.ReadsInOrder V.pending file size off) (data : Mem) :
    UnitCall.Follows (.read file data size off) s V lo hi := by
  have hb := h.sound.toBlocks
  have hfile : V.vol.IsFile V.nodes file :=
    horder.known.elim (fun hl => hl.isFile) fun hp => (h.sound.unlinked file hp).isFile
  have hlen := V.vol.content_length file
  rcases Nat.lt_or_ge (V.vol.get file .size) off with hoff | hoff
  · obtain ⟨r, sys, t', hrun, ⟨hvol, hr⟩, hrests, -⟩ :=
      h.rests.exec (p := sfsRead file data size off)
      (Q := fun r t' => t'.vol = V.vol ∧ r.1 = minusOne)
      hb.geometry.sized (reloads_sfsRead hb.geometry hfile.1 data size off).ignores
      fun t ht => by
        rw [← ht] at hb hfile hoff ⊢
        exact gives_sfsRead_behind hb.geometry hfile.1 hoff data size
    have hcall : UnitCall.perform s (.read file data size off)
        = some (.refused, { s with sys := sys }) := by
      rw [UnitCall.perform, hrun]
      simp [hr]
    exact h.refuses hcall ⟨_, View.content_file hfile, by rw [hlen]; exact hoff⟩ (hvol ▸ hrests)
  · obtain ⟨m, sys, time, hrun, hrests, hbytes⟩ :=
      h.rests.reads hb hfile hoff horder.range horder.blocks data
    have hrange := horder.range
    have hcall : UnitCall.perform s (.read file data size off)
        = some (.bytes (bytesOf m (min size (V.vol.get file .size - off))),
          { s with sys := sys }) := by
      rw [UnitCall.perform, hrun]
      have hne : min size (V.vol.get file .size - off) ≠ minusOne := ne_minusOne (by omega)
      simp [hne]
    have hread : bytesOf m (min size (V.vol.get file .size - off))
        = ((V.vol.content file).drop off).take size := by
      refine List.ext_getElem? fun i => ?_
      by_cases hi : i < min size (V.vol.get file .size - off)
      · rw [List.getElem?_take_of_lt (by omega), List.getElem?_drop,
          Vol.content_getElem? (by omega), ← hbytes i hi]
        simp [bytesOf, hi]
      · rw [List.getElem?_eq_none (by simp [bytesOf]; omega),
          List.getElem?_eq_none (by simp [hlen]; omega)]
    rw [hread] at hcall
    exact ⟨_, _, _, hcall, .read (View.content_file hfile) (by rw [hlen]; exact hoff)
      (View.same_withTime time), .timed _ time, h.sound.withTime time, hrests, h.pending⟩

theorem refines (h : s.Stands V lo hi) (hc : c.Admitted V.vol V.pending) :
    c.Follows s V lo hi := by
  have hlist := h.sound.space.toFreeList
  cases c with
  | edit op =>
    obtain ⟨hacc, hsafe⟩ := hc
    cases op with
    | creat q => exact h.creat hacc
    | mkdir q => exact h.mkdir hacc
    | rmdir q => exact h.rmdir q
    | unlink q => exact h.unlink q
    | delete a => exact h.delete hacc
    | rename file q => exact h.rename hacc.1 hacc.2 hsafe
    | write file data size off =>
      exact h.write hacc.1 hacc.2 (hsafe V.nodes hlist) data
    | truncate file size => exact h.truncate hacc (hsafe V.nodes hlist)
  | «open» q => exact h.open q
  | getattr file attr => exact h.getattr hc attr
  | read file data size off => exact h.read hc data

end Session.Stands

/-! ## Runs -/

theorem Session.Stands.vol {s : Session} {V : View} {lo hi : Nat} (h : s.Stands V lo hi) :
    s.sys.vol = V.vol := h.rests.elim (fun h => h.vol) fun h => h.vol

/-- The unit after its first mount. -/
theorem FreshlyMounted.stands {opts : SfsOptions} {bs : Nat} {s : Sys}
    (h : FreshlyMounted opts bs s) :
    Session.Stands ⟨s, []⟩ ⟨s.vol, [s.fs.entryStart + 64], []⟩ opts.reservedSize
      (opts.reservedSize + opts.dataSize) :=
  ⟨h.start.2, Or.inl ⟨rfl, h.start.1.quiet, h.start.1.coherent⟩, rfl⟩

/-- The calls of a list, each of which meets a condition on the volume and the
unlinked files it finds. -/
abbrev MeetsCalls (C : Vol → List Nat → UnitCall → Prop) (s : Session) (calls : List UnitCall) :
    Prop := Meets (next UnitCall.perform) (fun s c => C s.sys.vol s.pending c) s calls

/-- Calls return, with answers that the file tree allows, from any sound state; and
what holds of the view at the start and every call keeps, holds of the view at the
end. -/
theorem Session.Stands.refines_keeping {C : Vol → List Nat → UnitCall → Prop} {I : View → Prop}
    {lo hi : Nat}
    (hC : ∀ (V : View) (c : UnitCall), V.Sound lo hi → C V.vol V.pending c →
      c.Admitted V.vol V.pending)
    (hI : ∀ (s s' : Session) (V V' : View) c r, s.Stands V lo hi → I V → C V.vol V.pending c →
      c.Goes s V lo hi r s' V' → I V')
    {s : Session} {V : View} (h : s.Stands V lo hi) (hIV : I V) {calls : List UnitCall}
    (hcalls : MeetsCalls C s calls) :
    ∃ rs s' V', answers UnitCall.perform s calls = some (rs, s') ∧ rs.length = calls.length ∧
      Allows (Step Above) V.tree ((calls.map UnitCall.asks).zip rs) V'.tree ∧
      s'.Stands V' lo hi ∧ I V' := by
  obtain ⟨rs, s', T', hrun, hallows, V', ⟨hstands, hIV'⟩, rfl⟩ := answers_allowed
    (R := fun s T => ∃ V, (s.Stands V lo hi ∧ I V) ∧ V.tree = T) UnitCall.asks
    (fun s T c hrel hc => by
      obtain ⟨V, ⟨hstands, hIV⟩, rfl⟩ := hrel
      rw [hstands.vol, hstands.pending] at hc
      obtain ⟨r, s', V', hgoes⟩ := hstands.refines (hC V c hstands.sound hc)
      have hIV' : I V' := hI s s' V V' c r hstands hIV hc hgoes
      exact ⟨r, s', V'.tree, hgoes.run, hgoes.step, V', ⟨hgoes.stands, hIV'⟩, rfl⟩)
    ⟨V, ⟨h, hIV⟩, rfl⟩ hcalls
  exact ⟨rs, s', V', hrun, answers_length hrun, hallows, hstands, hIV'⟩

/-- Calls in order return, with answers that the file tree allows, in any order of
calls and from any sound state, stale cache or not; and the state at the end is
sound and stands for the tree at the end. -/
theorem Session.Stands.refines_calls {s : Session} {V : View} {lo hi : Nat} (h : s.Stands V lo hi)
    {calls : List UnitCall} (hcalls : MeetsCalls UnitCall.Admitted s calls) :
    ∃ rs s' V', answers UnitCall.perform s calls = some (rs, s') ∧ rs.length = calls.length ∧
      Allows (Step Above) V.tree ((calls.map UnitCall.asks).zip rs) V'.tree ∧
      s'.Stands V' lo hi := by
  obtain ⟨rs, s', V', hrun, hlen, hallows, hstands, -⟩ := h.refines_keeping (I := fun _ => True)
    (fun _ _ _ hc => hc) (fun _ _ _ _ _ _ _ _ _ _ => trivial) trivial hcalls
  exact ⟨rs, s', V', hrun, hlen, hallows, hstands⟩

/-- A file is made, written, and read. -/
def pathACalls : List UnitCall :=
  [.edit (.creat pathA), .edit (.write 3776 (fun _ => 7) 600 0), .open pathA,
    .read 3776 (fun _ => 0) 600 0, .edit (.unlink pathA)]

/-- The call is admitted, and an operation is light. -/
def UnitCall.Light (v : Vol) (pending : List Nat) : UnitCall → Prop
  | edit op => op.Accepts v pending ∧ op.Light v
  | .open _ => True
  | getattr file _ => v.LiveFile file
  | read file _ size off => v.LiveFile file ∧ off + size < 9223372036854775808 ∧
    off % v.blockSize = 0

instance UnitCall.decidableLight (v : Vol) (pending : List Nat) :
    (c : UnitCall) → Decidable (c.Light v pending)
  | edit op => inferInstanceAs (Decidable (op.Accepts v pending ∧ op.Light v))
  | .open _ => isTrue trivial
  | getattr file _ => inferInstanceAs (Decidable (v.LiveFile file))
  | read file _ size off => inferInstanceAs (Decidable (v.LiveFile file ∧
    off + size < 9223372036854775808 ∧ off % v.blockSize = 0))

theorem UnitCall.Light.admitted {v : Vol} {pending : List Nat} {c : UnitCall}
    (h : c.Light v pending) : c.Admitted v pending := by
  cases c with
  | edit op => exact ⟨h.1, h.2.safe⟩
  | «open» => trivial
  | getattr => exact Or.inl h
  | read => exact ⟨Or.inl h.1, h.2.1, Or.inl h.2.2⟩

/-- Light calls on the small disk are in order. -/
theorem blankCalls_meets (calls : List UnitCall)
    (h : (blankMounted.map fun s => decide (MeetsCalls UnitCall.Light ⟨s, []⟩ calls)) = some true) :
    ∃ s, FreshlyMounted blankOpts 512 s ∧ MeetsCalls UnitCall.Admitted ⟨s, []⟩ calls := by
  obtain ⟨s, hmount, hmeets⟩ := Option.map_eq_some_iff.1 h
  exact ⟨s, blankMounted_fresh hmount, (of_decide_eq_true hmeets).mono fun _ _ hc => hc.admitted⟩

/-- The tree of the root directory alone. -/
structure FileTree.Bare (T : Tree) (root : Nat) : Prop where
  named : ∀ k p o, T.named k p o ↔ k = .dir ∧ p = [] ∧ o = root
  content : ∀ o, T.content o = none
  unlinked : ∀ o, ¬ T.unlinked o

/-- The tree has the files and the directories of the volume, with the bytes of the
files. -/
structure Vol.Shows (v : Vol) (pending : List Nat) (T : Tree) : Prop where
  named : ∀ k p o, T.named k p o ↔ Named v (nameKind k) o p
  content : ∀ o, v.LiveFile o ∨ o ∈ pending → T.content o = some (v.content o)
  unlinked : ∀ o, T.unlinked o ↔ o ∈ pending

theorem View.Sound.shows {V : View} {lo hi : Nat} (hV : V.Sound lo hi) :
    V.vol.Shows V.pending V.tree where
  named _ _ _ := Iff.rfl
  content _ ho := View.content_file (ho.elim (fun h => h.isFile) fun h => (hV.unlinked _ h).isFile)
  unlinked _ := Iff.rfl

/-- The tree of a fresh volume. -/
theorem FreshlyMounted.bare {opts : SfsOptions} {bs : Nat} {s : Sys}
    (h : FreshlyMounted opts bs s) :
    FileTree.Bare (View.tree ⟨s.vol, [s.fs.entryStart + 64], []⟩) (s.fs.entryStart + 128) := by
  obtain ⟨-, -, hfresh⟩ := h.fresh
  refine ⟨fun k p o => ⟨fun hn => ?_, fun hn => ?_⟩, fun o => View.content_none hfresh.not_isFile,
    fun o => List.not_mem_nil⟩
  · cases k with
    | file => exact absurd (Named.liveFile hn).isFile hfresh.not_isFile
    | dir =>
      obtain rfl := hfresh.eq_root (Named.isDir hn)
      exact ⟨rfl, HasName.unique hn.toHasName hfresh.root_named.toHasName, rfl⟩
  · obtain ⟨rfl, rfl, rfl⟩ := hn
    exact hfresh.root_named

/-- From the first mount on, the unit is a file tree: what it answers to any calls
in order, the specification allows a tree that starts with the root directory alone,
and at the end the files and directories of the volume are those of the tree. -/
theorem refines_run {opts : SfsOptions} {bs : Nat} {s : Sys} (hs : FreshlyMounted opts bs s)
    {calls : List UnitCall} (hcalls : MeetsCalls UnitCall.Admitted ⟨s, []⟩ calls) :
    ∃ rs s' T T', answers UnitCall.perform ⟨s, []⟩ calls = some (rs, s') ∧
      rs.length = calls.length ∧ FileTree.Bare T (s.fs.entryStart + 128) ∧
      Allows (Step Above) T ((calls.map UnitCall.asks).zip rs) T' ∧
      s'.sys.vol.Shows s'.pending T' := by
  obtain ⟨rs, s', V', hrun, hlen, hallows, hstands⟩ := hs.stands.refines_calls hcalls
  refine ⟨rs, s', _, V'.tree, hrun, hlen, hs.bare, hallows, ?_⟩
  rw [hstands.vol, hstands.pending]
  exact hstands.sound.shows

theorem refines_run_pathA :
    ∃ s, FreshlyMounted blankOpts 512 s ∧ ∃ rs s' T T',
      answers UnitCall.perform ⟨s, []⟩ pathACalls = some (rs, s') ∧
      rs.length = pathACalls.length ∧ FileTree.Bare T (s.fs.entryStart + 128) ∧
      Allows (Step Above) T ((pathACalls.map UnitCall.asks).zip rs) T' ∧
      s'.sys.vol.Shows s'.pending T' := by
  obtain ⟨s, hfresh, hcalls⟩ := blankCalls_meets pathACalls (by decide +kernel)
  exact ⟨s, hfresh, refines_run hfresh hcalls⟩

/-- The names of a fresh volume, of the root alone, are in order. -/
theorem FreshlyMounted.wellNamed {opts : SfsOptions} {bs : Nat} {s : Sys}
    (h : FreshlyMounted opts bs s) :
    (View.tree ⟨s.vol, [s.fs.entryStart + 64], []⟩).WellNamed Above := by
  obtain ⟨-, -, hfresh⟩ := h.fresh
  refine h.start.2.wellNamed hfresh.rooted fun k p o o' hn hn' => ?_
  cases k with
  | file => exact absurd (Named.liveFile hn).isFile hfresh.not_isFile
  | dir => exact (hfresh.eq_root (Named.isDir hn)).trans (hfresh.eq_root (Named.isDir hn')).symm

/-- What every call of a file tree keeps from the first mount on: at the end of a
run of calls in order the names are in order. -/
theorem FreshlyMounted.names {opts : SfsOptions} {bs : Nat} {s : Sys}
    (h : FreshlyMounted opts bs s) {calls : List UnitCall}
    (hcalls : MeetsCalls UnitCall.Admitted ⟨s, []⟩ calls) :
    ∃ rs s' V', answers UnitCall.perform ⟨s, []⟩ calls = some (rs, s') ∧
      V'.tree.WellNamed Above ∧ s'.Stands V' opts.reservedSize
        (opts.reservedSize + opts.dataSize) := by
  obtain ⟨rs, s', V', hrun, -, hallows, hstands⟩ := h.stands.refines_calls hcalls
  exact ⟨rs, s', V', hrun, wellNamed_run hallows h.wellNamed, hstands⟩

/-- After any calls in order from the first mount on, no two files have one path, no
two directories have one, no entry has two, and the directories of every path are
there. -/
theorem names_run {opts : SfsOptions} {bs : Nat} {s : Sys} (hs : FreshlyMounted opts bs s)
    {calls : List UnitCall} (hcalls : MeetsCalls UnitCall.Admitted ⟨s, []⟩ calls) :
    ∃ rs s', answers UnitCall.perform ⟨s, []⟩ calls = some (rs, s') ∧
      (∀ p o o', Named s'.sys.vol fileKind o p → Named s'.sys.vol fileKind o' p → o = o') ∧
      (∀ p o o', Named s'.sys.vol dirKind o p → Named s'.sys.vol dirKind o' p → o = o') ∧
      (∀ p o, s'.sys.vol.Live o p → s'.sys.vol.HasDirs p ∧ o ∉ s'.pending ∧
        ∀ p', s'.sys.vol.Live o p' → p = p') := by
  obtain ⟨rs, s', V', hrun, hnamed, hstands⟩ := hs.names hcalls
  refine ⟨rs, s', hrun, ?_⟩
  rw [hstands.vol, hstands.pending]
  refine ⟨fun p o o' => hnamed.handle .file p o o',
    fun p o o' => hnamed.handle .dir p o o', fun p o hlive => ?_⟩
  have hname : ∃ k, V'.tree.named k p o := hlive.elim (fun hn => ⟨.file, hn⟩) fun hn => ⟨.dir, hn⟩
  obtain ⟨k, hk⟩ := hname
  refine ⟨fun i hi hslash => ?_, hstands.sound.named_not_pending hk, fun p' hlive' =>
    hlive.unique hlive'⟩
  exact hnamed.rooted k p o hk (p.take i) ⟨i, hi, hslash, rfl⟩

theorem names_run_pathA :
    ∃ s, FreshlyMounted blankOpts 512 s ∧ ∃ rs s',
      answers UnitCall.perform ⟨s, []⟩ pathACalls = some (rs, s') ∧
      (∀ p o o', Named s'.sys.vol fileKind o p → Named s'.sys.vol fileKind o' p → o = o') ∧
      (∀ p o o', Named s'.sys.vol dirKind o p → Named s'.sys.vol dirKind o' p → o = o') ∧
      (∀ p o, s'.sys.vol.Live o p → s'.sys.vol.HasDirs p ∧ o ∉ s'.pending ∧
        ∀ p', s'.sys.vol.Live o p' → p = p') := by
  obtain ⟨s, hfresh, hcalls⟩ := blankCalls_meets pathACalls (by decide +kernel)
  exact ⟨s, hfresh, names_run hfresh hcalls⟩

/-- From the first mount on: in a run of calls in order none of which takes the path
away, or deletes, renames, writes or truncates the file, the file keeps its path, its
entry and its bytes, whatever the calls do to the others. -/
theorem file_stays_run {opts : SfsOptions} {bs : Nat} {s : Sys} (hs : FreshlyMounted opts bs s)
    {before calls : List UnitCall}
    (hcalls : MeetsCalls UnitCall.Admitted ⟨s, []⟩ (before ++ calls)) {p : Buf} {file : Nat}
    (hkeep : ∀ c, c ∈ calls → ¬ c.asks.Unnames p file ∧ ¬ c.asks.Changes file) :
    ∃ rs s₁ rs' s', answers UnitCall.perform ⟨s, []⟩ before = some (rs, s₁) ∧
      answers UnitCall.perform s₁ calls = some (rs', s') ∧
      (Named s₁.sys.vol fileKind file p → Named s'.sys.vol fileKind file p ∧
        s'.sys.vol.content file = s₁.sys.vol.content file) := by
  obtain ⟨hbefore, hrest⟩ := hcalls.append
  obtain ⟨rs, s₁, V₁, hrun, hnamed, hstands⟩ := hs.names hbefore
  obtain ⟨rs', s', V', hrun', -, hallows, hstands'⟩ :=
    hstands.refines_calls (hrest s₁ (run_of_answers_eq hrun))
  refine ⟨rs, s₁, rs', s', hrun, hrun', fun hn => ?_⟩
  rw [hstands.vol] at hn
  rw [hstands.vol, hstands'.vol]
  have hasks : ∀ x ∈ (calls.map UnitCall.asks).zip rs',
      ¬ x.1.Unnames p file ∧ ¬ x.1.Changes file := by
    intro x hx
    obtain ⟨c, hc, heq⟩ := List.mem_map.1 (List.of_mem_zip hx).1
    exact heq ▸ hkeep c hc
  obtain ⟨hname, hbytes⟩ := keeps_file_run (p := p) (a := file) hallows hnamed hn
    (View.content_file hn.liveFile.isFile) hasks
  have hfile : V'.vol.IsFile V'.nodes file := (Named.liveFile hname).isFile
  exact ⟨hname, Option.some.inj ((View.content_file hfile).symm.trans hbytes)⟩

theorem file_stays_run_pathA :
    ∃ s, FreshlyMounted blankOpts 512 s ∧ ∃ rs s₁ rs' s',
      answers UnitCall.perform ⟨s, []⟩ (pathACalls.take 2) = some (rs, s₁) ∧
      answers UnitCall.perform s₁ [.edit (.creat [0x62, 0]), .edit (.unlink [0x62, 0])]
        = some (rs', s') ∧
      (Named s₁.sys.vol fileKind 3776 [0x61] → Named s'.sys.vol fileKind 3776 [0x61] ∧
        s'.sys.vol.content 3776 = s₁.sys.vol.content 3776) := by
  obtain ⟨s, hfresh, hcalls⟩ := blankCalls_meets (pathACalls.take 2 ++
    [.edit (.creat [0x62, 0]), .edit (.unlink [0x62, 0])]) (by decide +kernel)
  refine ⟨s, hfresh, file_stays_run hfresh hcalls fun c hc => ?_⟩
  simp only [List.mem_cons, List.not_mem_nil, or_false] at hc
  rcases hc with rfl | rfl
  · exact ⟨id, id⟩
  · exact ⟨fun h => absurd (show ([0x62] : Buf) = [0x61] from h) (by decide), id⟩

/-- From any sound state, with all calls in order: after a write, and then calls that
do not touch the byte at `i` of the file, a read answers, and with the byte that the
write had there. -/
theorem reads_written_run {s : Session} {V : View} {lo hi : Nat} (h : s.Stands V lo hi)
    {file size off i readSize pos : Nat} {data buf : Mem} {calls : List UnitCall}
    (hcalls : MeetsCalls UnitCall.Admitted s
      (.edit (.write file data size off) :: (calls ++ [.read file buf readSize pos])))
    (hoff : off ≤ i) (hi : i < off + size) (hpos : pos ≤ i) (hin : i < pos + readSize)
    (hkeep : ∀ c, c ∈ calls → ¬ c.asks.Touches file i) :
    ∃ r s₁ rs s₂ r' s', UnitCall.perform s (.edit (.write file data size off)) = some (r, s₁) ∧
      answers UnitCall.perform s₁ calls = some (rs, s₂) ∧
      UnitCall.perform s₂ (.read file buf readSize pos) = some (r', s') ∧
      (r = .done → ∃ out, r' = .bytes out ∧ out[i - pos]? = some (data (i - off))) := by
  obtain ⟨hwrite, hrest⟩ := hcalls
  rw [h.vol, h.pending] at hwrite
  obtain ⟨r, s₁, V₁, hrun, hstep, -, h₁⟩ := h.refines hwrite
  obtain ⟨hbetween, hlast⟩ := (hrest s₁ (by rw [next, hrun]; rfl)).append
  obtain ⟨rs, s₂, V₂, hrun₂, -, hallows, h₂⟩ := h₁.refines_calls hbetween
  have hread : UnitCall.Admitted s₂.sys.vol s₂.pending (.read file buf readSize pos) :=
    (hlast s₂ (run_of_answers_eq hrun₂)).1
  rw [h₂.vol, h₂.pending] at hread
  obtain ⟨r', s', V', hrun', hstep', -⟩ := h₂.refines hread
  refine ⟨r, s₁, rs, s₂, r', s', hrun, hrun₂, hrun', fun hr => ?_⟩
  subst hr
  have hlen : (bytesOf data size).length = size := by simp [bytesOf]
  have hasks : ∀ x ∈ (calls.map UnitCall.asks).zip rs, ¬ x.1.Touches file i := by
    intro x hx
    obtain ⟨c, hc, heq⟩ := List.mem_map.1 (List.of_mem_zip hx).1
    exact heq ▸ hkeep c hc
  obtain ⟨out, hout, hbyte⟩ := reads_last hstep hallows hstep' hoff (by omega) hpos hin hasks
  refine ⟨out, hout, hbyte.trans ?_⟩
  simp [bytesOf, show i - off < size by omega]

theorem reads_written_run_pathA :
    ∃ s, FreshlyMounted blankOpts 512 s ∧ ∃ rs₀ s₀,
      answers UnitCall.perform ⟨s, []⟩ [.edit (.creat pathA)] = some (rs₀, s₀) ∧
      ∃ r s₁ rs s₂ r' s',
        UnitCall.perform s₀ (.edit (.write 3776 (fun _ => 7) 600 0)) = some (r, s₁) ∧
        answers UnitCall.perform s₁ [.open pathA] = some (rs, s₂) ∧
        UnitCall.perform s₂ (.read 3776 (fun _ => 0) 600 0) = some (r', s') ∧
        (r = .done → ∃ out, r' = .bytes out ∧ out[550 - 0]? = some 7) := by
  obtain ⟨s, hfresh, hcalls⟩ := blankCalls_meets ([.edit (.creat pathA)] ++
    (.edit (.write 3776 (fun _ => 7) 600 0) :: ([.open pathA] ++ [.read 3776 (fun _ => 0) 600 0])))
    (by decide +kernel)
  obtain ⟨hcreat, hrest⟩ := hcalls.append
  obtain ⟨rs₀, s₀, V₀, hrun, -, -, hstands⟩ :=
    hfresh.stands.refines_calls hcreat
  refine ⟨s, hfresh, rs₀, s₀, hrun, reads_written_run (i := 550) hstands
    (hrest s₀ (run_of_answers_eq hrun)) (by decide) (by decide) (by decide) (by decide)
    fun c hc => ?_⟩
  rw [List.mem_singleton] at hc
  subst hc
  exact id

end Sfs
