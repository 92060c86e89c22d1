import Sfs.Refine
import Sfs.Statfs

/-!
# What is on the disk at every instant

A process can die between any two commands of a call, and what it leaves is the disk.
Every command that can change the disk is a `write_data` or a `copy_block`, and an entry
lies in one block, so a call that writes one entry changes the disk once.

* `Looks` is a function that writes nothing, whatever it reads, and there is a lemma for
  each of the functions that `sfs_open`, `sfs_getattr`, `sfs_readdir`, `sfs_read` and
  `statfs` consist of;
* `UnitCall.Single` are the calls with at most one write: those that look, and
  `sfs_creat` and `sfs_mkdir` of a path that fits into one slot;
* `UnitCall.Single.instants` says that such a call leaves, wherever it is cut off, the
  disk from before it or the disk from after it;
* `looks_run` is about the callbacks that look: none of them changes a byte.
-/

namespace Sfs

open Lib FileTree Fuse

/-- A command that can change the disk. -/
def Cmd.Writes : Cmd → Prop
  | .writeData .. | .copyBlock .. => True
  | _ => False

/-- The function writes nothing, whatever it reads. -/
abbrev Looks {α : Type} (p : SfsM α) : Prop := p.AtMost Cmd.Writes 0

/-! ## Reads and the disk -/

section Disk

variable {dev : BlockDev}

@[simp] theorem BlockDev.read_data (dev : BlockDev) (b : Nat) : (dev.read b).2.data = dev.data := by
  unfold BlockDev.read
  dsimp only
  split
  · rfl
  · split <;> rfl

theorem readFirst_data (dev : BlockDev) (b : Nat) : (readFirst dev b).2.data = dev.data := by
  have hread := dev.read_data b
  unfold readFirst
  split
  · rfl
  · split <;> rename_i heq <;> rw [heq] at hread <;> exact hread

theorem readBlocks_data (fuel : Nat) (dev : BlockDev) (data : Mem) (pos size bnum : Nat) :
    (readBlocks fuel dev data pos size bnum).2.2.data = dev.data := by
  induction fuel generalizing dev data pos size bnum with
  | zero => rfl
  | succ fuel ih =>
    rw [readBlocks]
    split
    · have hread := dev.read_data bnum
      split <;> rename_i heq <;> rw [heq] at hread
      · exact hread
      · exact (ih _ _ _ _ _).trans hread
    · split
      · rfl
      · have hread := BlockDev.read_data { dev with bufNum := some bnum } bnum
        split <;> rename_i heq <;> rw [heq] at hread <;> exact hread

theorem readData_data (dev : BlockDev) (offset : Nat) (data : Mem) (size : Nat) :
    (readData dev offset data size).2.2.data = dev.data := by
  have hfirst := readFirst_data dev (offset / dev.blockSize)
  unfold readData
  dsimp only
  split <;> rename_i dev₁ heq <;> rw [heq] at hfirst
  · exact hfirst
  · split
    · exact hfirst
    · have hrest := readBlocks_data (size + 1) dev₁
        (blit data 0 dev₁.buf (offset % dev.blockSize) (dev.blockSize - offset % dev.blockSize))
        (dev.blockSize + offset % dev.blockSize)
        (size - (dev.blockSize - offset % dev.blockSize)) (offset / dev.blockSize + 1)
      split <;> rename_i heq' <;> rw [heq'] at hrest <;> exact hrest.trans hfirst

/-- Only a write changes the disk, on a device that fails too. -/
theorem handle_data (e : Cmd) (s : Sys) (r : e.Reply) (s' : Sys) (he : ¬ e.Writes)
    (hrun : Sys.handle e s = some (r, s')) : s'.dev.data = s.dev.data := by
  cases e with
  | readData offset data size =>
    cases hrun
    exact readData_data s.dev offset data size
  | writeData | copyBlock => exact absurd trivial he
  | blockSize | devSize | unit | setUnit | setErrno | getTime | uninit =>
    cases hrun
    rfl

end Disk

/-! ## Functions that look -/

section Functions

variable {α β : Type} {n : Nat}

theorem looks_fail (code : Nat) (a : α) :
    (do setErrno code; pure a : SfsM α).AtMost Cmd.Writes n :=
  Prog.AtMost.bind_zero (Prog.atMost_perform_of_not id) fun _ => Prog.atMost_pure a

theorem looks_readEntry (off : Nat) (entr : Entry) : Looks (readEntry off entr) := by
  unfold readEntry
  split
  · exact Prog.atMost_pure _
  · exact Prog.atMost_perform_of_not id

theorem looks_setErrno (code : Nat) : Looks (setErrno code) := Prog.atMost_perform_of_not id

theorem looks_unit : Looks unit := Prog.atMost_perform_of_not id

theorem looks_uninit : Looks uninit := Prog.atMost_perform_of_not id

theorem looks_blockSize : Looks blockSize := Prog.atMost_perform_of_not id

theorem looks_readDataM (offset : Nat) (data : Mem) (size : Nat) :
    Looks (readDataM offset data size) := Prog.atMost_perform_of_not id

theorem looks_update : Looks update :=
  Prog.AtMost.bind_zero (Prog.atMost_perform_of_not id) fun _ =>
    looks_unit.bind_zero fun _ => Prog.atMost_perform_of_not id

theorem looks_ite {c : Prop} [Decidable c] {p p' : SfsM α} (hp : p.AtMost Cmd.Writes n)
    (hp' : p'.AtMost Cmd.Writes n) : (if c then p else p').AtMost Cmd.Writes n := by
  split
  · exact hp
  · exact hp'

theorem looks_entryParse {δ : Type} {callback : Callback δ}
    (hcallback : ∀ entr off data, Looks (callback entr off data)) (entr : Entry) (data : δ) :
    Looks (entryParse entr callback data) := by
  have hloop : ∀ fuel stop start entr data,
      Looks (entryParseLoop callback stop fuel start entr data) := by
    intro fuel stop
    induction fuel with
    | zero => exact fun _ _ _ => .stuck 0
    | succ fuel ih =>
      intro start entr data
      rw [entryParseLoop]
      refine looks_ite (Prog.atMost_pure _) ((looks_readEntry _ _).bind_zero fun x => ?_)
      refine looks_ite (looks_fail _ _) ((hcallback _ _ _).bind_zero fun y => ?_)
      exact looks_ite (Prog.atMost_pure _) (ih _ _ _)
  exact looks_unit.bind_zero fun _ => hloop _ _ _ _ _

/-! ### Searches -/

theorem looks_matchCont (curin : Buf) (entr : Entry) (off cur c ce : Nat) :
    Looks (matchCont curin entr off cur c ce) := by
  induction curin generalizing entr off cur c ce with
  | nil => exact Prog.atMost_pure _
  | cons ch curin ih =>
    rw [matchCont]
    refine looks_ite (Prog.atMost_pure _) (looks_ite (Prog.atMost_pure _) ?_)
    refine looks_ite ?_ (ih _ _ _ _ _)
    exact (looks_readEntry _ _).bind_zero fun x => looks_ite (Prog.atMost_pure _) (ih _ _ _ _ _)

theorem looks_readNameEntry (kind : NameKind) (entr : Entry) (off : Nat) (curin : Buf) :
    Looks (readNameEntry kind entr off curin) := by
  unfold readNameEntry
  dsimp only
  refine looks_ite (Prog.atMost_pure _) (looks_ite ?_ ?_)
  · exact looks_ite (Prog.atMost_pure _) (Prog.atMost_pure _)
  · cases matchHead entr kind.name curin kind.first with
    | none => exact Prog.atMost_pure _
    | some x =>
      refine looks_ite (looks_ite (Prog.atMost_pure _) (Prog.atMost_pure _)) (looks_ite
        (looks_ite (Prog.atMost_pure _) (Prog.atMost_pure _)) (looks_ite (Prog.atMost_pure _) ?_))
      refine (looks_readEntry _ _).bind_zero fun y => looks_ite (Prog.atMost_pure _) ?_
      refine (looks_matchCont _ _ _ _ _ _).bind_zero fun z => looks_ite (Prog.atMost_pure _) ?_
      exact (looks_readEntry _ _).bind_zero fun w =>
        looks_ite (Prog.atMost_pure _) (Prog.atMost_pure _)

theorem looks_verifyCont (k : Nat) (entr : Entry) (off : Nat) (path : Buf) :
    Looks (verifyCont entr off path k) := by
  induction k generalizing entr off path with
  | zero => exact Prog.atMost_pure _
  | succ k ih =>
    rw [verifyCont]
    refine (looks_readEntry _ _).bind_zero fun x => looks_ite (looks_fail _ _) ?_
    exact looks_ite (Prog.atMost_pure _) (ih _ _ _)

theorem looks_searchName (kind : NameKind) (path : Buf) (entr : Entry) :
    Looks (searchName kind path entr) := by
  unfold searchName
  refine (looks_setErrno 0).bind_zero fun _ =>
    (looks_entryParse (looks_readNameEntry kind) _ _).bind_zero fun x => ?_
  refine looks_ite (Prog.atMost_pure _) (looks_ite (Prog.atMost_pure _) ?_)
  refine (looks_verifyCont _ _ _ _).bind_zero fun y => looks_ite (Prog.atMost_pure _) ?_
  exact (looks_readEntry _ _).bind_zero fun _ => Prog.atMost_pure _

theorem looks_checkDirs (path : Buf) (entr : Entry) : Looks (checkDirs path entr) := by
  have hloop : ∀ k path entr cur, Looks (checkDirsLoop k path entr cur) := by
    intro k
    induction k with
    | zero => exact fun _ _ _ => Prog.atMost_pure _
    | succ k ih =>
      intro path entr cur
      rw [checkDirsLoop]
      refine looks_ite ?_ (ih _ _ _)
      exact (looks_searchName _ _ _).bind_zero fun x => looks_ite (Prog.atMost_pure _) (ih _ _ _)
  exact hloop _ _ _ _

/-- `check_dirs` leaves the path as it was. -/
theorem checkDirs_path (path : Buf) (entr : Entry) :
    (checkDirs path entr).All (fun _ => True) fun x => x.2.1 = path := by
  have hloop : ∀ k cur entr, cur + k = strlen path + 1 →
      (checkDirsLoop k path entr cur).All (fun _ => True) fun x => x.2.1 = path := by
    intro k
    induction k with
    | zero => exact fun _ _ _ => Prog.all_pure rfl
    | succ k ih =>
      intro cur entr hk
      rw [checkDirsLoop]
      split
      case isTrue hslash =>
        have hcur : cur < strlen path := by
          by_contra hge
          rw [show cur = strlen path by omega, char_strlen] at hslash
          exact absurd hslash (by decide)
        have hback := set_char_self path 0 hcur
        rw [hslash] at hback
        refine (Prog.all_true _).bind fun x _ => ?_
        dsimp only
        rw [hback]
        split
        · exact Prog.all_pure rfl
        · exact ih _ _ (by omega)
      case isFalse => exact ih _ _ (by omega)
  exact hloop _ _ _ (Nat.zero_add _)

theorem looks_matchMask (curin : Buf) (entr : Entry) (off cur c : Nat) :
    Looks (matchMask curin entr off cur c) := by
  induction curin generalizing entr off cur c with
  | nil => exact Prog.atMost_pure _
  | cons ch curin ih =>
    rw [matchMask]
    refine looks_ite (Prog.atMost_pure _) (looks_ite (Prog.atMost_pure _) ?_)
    refine looks_ite ?_ (ih _ _ _ _)
    exact (looks_readEntry _ _).bind_zero fun x => ih _ _ _ _

theorem looks_checkFileMask (entr : Entry) (off : Nat) (curin : Buf) :
    Looks (checkFileMask entr off curin) := by
  have hname : ∀ kind, Looks (checkNameMask kind entr off curin) := by
    intro kind
    unfold checkNameMask
    refine looks_ite (Prog.atMost_pure _) ?_
    cases matchHead entr kind.name curin kind.first with
    | none => exact Prog.atMost_pure _
    | some x => exact (looks_readEntry _ _).bind_zero fun y => looks_matchMask _ _ _ _ _
  exact looks_ite (hname _) (looks_ite (hname _) (Prog.atMost_pure _))

theorem looks_searchFileMask (path : Buf) (entr : Entry) (off : Nat) :
    Looks (searchFileMask path entr off) := by
  have hloop : ∀ fuel stop entr off, Looks (searchFileMaskLoop path stop fuel entr off) := by
    intro fuel stop
    induction fuel with
    | zero => exact fun _ _ => .stuck 0
    | succ fuel ih =>
      intro entr off
      rw [searchFileMaskLoop]
      refine looks_ite (Prog.atMost_pure _) ((looks_readEntry _ _).bind_zero fun x => ?_)
      refine looks_ite ((looks_checkFileMask _ _ _).bind_zero fun y => looks_ite ?_ (ih _ _))
        (ih _ _)
      exact (looks_readEntry _ _).bind_zero fun _ => Prog.atMost_pure _
  exact (looks_setErrno 0).bind_zero fun _ => looks_unit.bind_zero fun _ => hloop _ _ _ _

theorem looks_allocEntry (entr : Entry) (k : Nat) : Looks (allocEntry entr k) := by
  have hcallback : ∀ entr off data, Looks (searchFreeEntry entr off data) := by
    intro entr off data
    unfold searchFreeEntry
    exact looks_ite (Prog.atMost_pure _) (looks_ite (Prog.atMost_pure _) (Prog.atMost_pure _))
  unfold allocEntry
  refine looks_ite (Prog.atMost_pure _) ((looks_entryParse hcallback _ _).bind_zero fun x => ?_)
  exact looks_ite (Prog.atMost_pure _) (looks_ite (.stuck 0) (Prog.atMost_pure _))

/-! ### Calls -/

theorem looks_sfsOpen (path : Buf) : Looks (sfsOpen path) := by
  unfold sfsOpen
  refine looks_uninit.bind_zero fun entr => (looks_searchName _ _ _).bind_zero fun x => ?_
  refine looks_ite (Prog.atMost_pure _) ((looks_searchName _ _ _).bind_zero fun y => ?_)
  exact looks_ite (looks_fail _ _) (Prog.atMost_pure _)

theorem looks_sfsGetattr (file : Nat) (attr : SfsAttr) : Looks (sfsGetattr file attr) := by
  unfold sfsGetattr
  refine looks_uninit.bind_zero fun entr => (looks_readEntry _ _).bind_zero fun x => ?_
  refine looks_ite (looks_fail _ _) ((looks_setErrno 0).bind_zero fun _ => ?_)
  exact looks_ite (Prog.atMost_pure _) (looks_ite (Prog.atMost_pure _) (Prog.atMost_pure _))

theorem looks_sfsRead (file : Nat) (data : Mem) (size off : Nat) :
    Looks (sfsRead file data size off) := by
  unfold sfsRead
  refine looks_uninit.bind_zero fun entr => (looks_readEntry _ _).bind_zero fun x => ?_
  refine looks_ite (looks_fail _ _) (looks_ite (looks_fail _ _) ?_)
  exact looks_update.bind_zero fun _ => (looks_setErrno 0).bind_zero fun _ =>
    looks_blockSize.bind_zero fun _ => looks_readDataM _ _ _

/-! ### Listings and counts -/

theorem looks_putChar (name : Buf) (i : Nat) (c : UInt8) : Looks (putChar name i c) :=
  looks_ite (Prog.atMost_pure _) (.stuck 0)

theorem looks_readName (kind : NameKind) (entr : Entry) (off : Nat) (str : Buf) (len : Nat) :
    Looks (readName kind entr off str len) := by
  have hloop : ∀ len entr off cur curpos str out,
      Looks (readNameLoop len entr off cur curpos str out) := by
    intro len
    induction len with
    | zero => exact fun _ _ _ _ _ _ => Prog.atMost_pure _
    | succ len ih =>
      intro entr off cur curpos str out
      rw [readNameLoop]
      refine looks_ite (Prog.atMost_pure _) ((looks_putChar _ _ _).bind_zero fun str => ?_)
      refine looks_ite ?_ (ih _ _ _ _ _ _)
      exact (looks_readEntry _ _).bind_zero fun x => ih _ _ _ _ _ _
  unfold readName
  refine (hloop _ _ _ _ _ _ _).bind_zero fun x => looks_ite (looks_fail _ _) ?_
  exact (looks_putChar _ _ _).bind_zero fun _ => Prog.atMost_pure _

theorem looks_readdirBranch (kind : NameKind) (type : IterType) (size startLen add : Nat)
    (iter : DirIter) (name : Buf) (entr : Entry) (off : Nat) :
    Looks (readdirBranch kind type size startLen add iter name entr off) := by
  unfold readdirBranch
  refine looks_ite (Prog.atMost_pure _) ((looks_readName _ _ _ _ _).bind_zero fun x => ?_)
  exact looks_ite (Prog.atMost_pure _) (looks_ite (Prog.atMost_pure _)
    (looks_ite (Prog.atMost_pure _) (Prog.atMost_pure _)))

theorem looks_readdirEntry (startLen add : Nat) (iter : DirIter) (name : Buf) (entr : Entry)
    (off : Nat) : Looks (readdirEntry startLen add iter name entr off) := by
  unfold readdirEntry
  refine (looks_readdirBranch _ _ _ _ _ _ _ _ _).bind_zero fun x => ?_
  obtain ⟨branch, iter, name, entr⟩ := x
  cases branch with
  | found => exact looks_readdirBranch _ _ _ _ _ _ _ _ _
  | failed | restart => exact Prog.atMost_pure _

theorem looks_putMask (startLen add : Nat) (name : Buf) : Looks (putMask startLen add name) :=
  looks_ite ((looks_putChar _ _ _).bind_zero fun _ => looks_putChar _ _ _) (Prog.atMost_pure _)

theorem looks_sfsReaddir (iter : DirIter) (name : Buf) : Looks (sfsReaddir iter name) := by
  have hloop : ∀ startLen add fuel iter name entr off,
      Looks (readdirLoop startLen add fuel iter name entr off) := by
    intro startLen add fuel
    induction fuel with
    | zero => exact fun _ _ _ _ => .stuck 0
    | succ fuel ih =>
      intro iter name entr off
      rw [readdirLoop]
      refine (looks_putMask _ _ _).bind_zero fun name =>
        (looks_searchFileMask _ _ _).bind_zero fun x => looks_ite (Prog.atMost_pure _) ?_
      refine (looks_readdirEntry _ _ _ _ _ _).bind_zero fun y => ?_
      obtain ⟨branch, iter, name, entr⟩ := y
      cases branch with
      | failed => exact Prog.atMost_pure _
      | restart => exact ih _ _ _ _
      | found => exact looks_ite (ih _ _ _ _) (looks_fail _ _)
  unfold sfsReaddir
  refine looks_uninit.bind_zero fun entr => looks_unit.bind_zero fun fs => ?_
  refine looks_ite (looks_fail _ _) ((looks_searchName _ _ _).bind_zero fun x => ?_)
  exact looks_ite (looks_fail _ _) (hloop _ _ _ _ _ _ _)

theorem looks_scanDelFileList (entr : Entry) : Looks (scanDelFileList entr) := by
  have hnext : ∀ entr, Looks (delNext entr) := by
    intro entr
    unfold delNext
    refine looks_ite (Prog.atMost_pure _) ((looks_readEntry _ _).bind_zero fun x => ?_)
    exact looks_ite (Prog.atMost_pure _) (Prog.atMost_pure _)
  have hloop : ∀ bs w off size entr, Looks (scanDelFileListLoop bs w off size entr) := by
    intro bs w
    induction w with
    | zero => exact fun _ _ _ => Prog.atMost_pure _
    | succ w ih =>
      intro off size entr
      rw [scanDelFileListLoop]
      refine looks_ite (Prog.atMost_pure _) ((looks_readEntry _ _).bind_zero fun x => ?_)
      refine looks_ite (looks_fail _ _) ((hnext _).bind_zero fun y => ?_)
      exact looks_ite (looks_fail _ _) (ih _ _ _)
  unfold scanDelFileList
  refine looks_unit.bind_zero fun fs => looks_blockSize.bind_zero fun bs =>
    (hloop _ _ _ _ _).bind_zero fun x => ?_
  obtain ⟨walk, entr⟩ := x
  cases walk with
  | none => exact Prog.atMost_pure _
  | some y => exact looks_ite (looks_fail _ _) (looks_fail _ _)

theorem looks_scanFreeInode (entr : Entry) : Looks (scanFreeInode entr) := by
  refine (looks_entryParse (fun entr off size => ?_) _ _).bind_zero fun _ => Prog.atMost_pure _
  exact looks_ite (Prog.atMost_pure _) (Prog.atMost_pure _)

/-! ### Calls that write once -/

theorem looks_putName (kind : NameKind) (entr : Entry) (path : Buf) (k : Nat) :
    Looks (putName kind entr path k) :=
  looks_ite (looks_ite (.stuck 0) (Prog.atMost_pure _)) (Prog.atMost_pure _)

theorem atMost_writeEntry (off : Nat) (entr : Entry) :
    (writeEntry off entr).AtMost Cmd.Writes 1 :=
  looks_ite (Prog.atMost_pure _) (Prog.atMost_perform _)

/-- The end of a call that has written an entry. -/
theorem atMost_written {off : Nat} {entr : Entry} (a : α) :
    (do
      let _ ← writeEntry off entr
      update
      setErrno 0
      pure a : SfsM α).AtMost Cmd.Writes 1 :=
  (atMost_writeEntry off entr).bind (n := 0) (fun _ => looks_update.bind_zero fun _ =>
    looks_fail 0 a) (Nat.le_refl 1)

/-- A path that fits into one slot has an entry without continuation. -/
theorem atMost_creatEntry {path : Buf} (hfits : strlen path + 1 ≤ firstFileNameSize)
    (entr : Entry) : (creatEntry path entr).AtMost Cmd.Writes 1 := by
  have hcount : countEntry firstFileNameSize (strlen path + 1) = 1 := if_pos hfits
  unfold creatEntry
  dsimp only
  rw [hcount]
  refine (looks_allocEntry _ _).bind_zero fun x => looks_ite (looks_fail _ _) ?_
  refine (looks_putName _ _ _ _).bind_zero fun entr => ?_
  exact Prog.AtMost.bind_zero (Prog.atMost_perform_of_not id) fun now => atMost_written 0

theorem atMost_mkdirEntry {path : Buf} (hfits : strlen path + 1 ≤ firstDirNameSize)
    (entr : Entry) : (mkdirEntry path entr).AtMost Cmd.Writes 1 := by
  have hcount : countEntry firstDirNameSize (strlen path + 1) = 1 := if_pos hfits
  unfold mkdirEntry
  dsimp only
  rw [hcount]
  refine (looks_allocEntry _ _).bind_zero fun x => looks_ite (looks_fail _ _) ?_
  refine (looks_putName _ _ _ _).bind_zero fun entr => ?_
  exact Prog.AtMost.bind_zero (Prog.atMost_perform_of_not id) fun now => atMost_written 0

theorem atMost_sfsCreat {path : Buf} (hfits : strlen path + 1 ≤ firstFileNameSize) :
    (sfsCreat path).AtMost Cmd.Writes 1 := by
  unfold sfsCreat
  refine looks_uninit.bind_zero fun entr => looks_ite (looks_fail _ _) ?_
  refine (looks_checkDirs _ _).bind_all (checkDirs_path _ _) fun x hpath => ?_
  obtain ⟨ret, path', entr⟩ := x
  subst hpath
  refine looks_ite (looks_fail _ _) ?_
  refine (looks_searchName _ _ _).bind_zero fun y => looks_ite (looks_fail _ _) ?_
  refine (looks_searchName _ _ _).bind_zero fun z => looks_ite (looks_fail _ _) ?_
  exact (atMost_creatEntry hfits _).bind (n := 0) (fun _ => Prog.atMost_pure _) (Nat.le_refl 1)

theorem atMost_sfsMkdir {path : Buf} (hfits : strlen path + 1 ≤ firstDirNameSize) :
    (sfsMkdir path).AtMost Cmd.Writes 1 := by
  unfold sfsMkdir
  refine looks_uninit.bind_zero fun entr => looks_ite (looks_fail _ _) ?_
  refine (looks_checkDirs _ _).bind_all (checkDirs_path _ _) fun x hpath => ?_
  obtain ⟨ret, path', entr⟩ := x
  subst hpath
  refine looks_ite (looks_fail _ _) ?_
  refine (looks_searchName _ _ _).bind_zero fun y => looks_ite (looks_fail _ _) ?_
  exact (atMost_mkdirEntry hfits _).bind (n := 0) (fun _ => Prog.atMost_pure _) (Nat.le_refl 1)

theorem atMost_sfsUnlink (path : Buf) : (sfsUnlink path).AtMost Cmd.Writes 1 := by
  unfold sfsUnlink
  refine looks_uninit.bind_zero fun entr => looks_ite (looks_fail _ _) ?_
  refine (looks_searchName _ _ _).bind_zero fun x => looks_ite (looks_fail _ _) ?_
  exact atMost_written _

end Functions

/-! ## Calls that are cut off -/

/-- The unit after `n` commands of a call. -/
def UnitCall.after (n : Nat) (s : Sys) : UnitCall → Sys
  | edit (.creat path) => (sfsCreat path).after Sys.handle n s
  | edit (.mkdir path) => (sfsMkdir path).after Sys.handle n s
  | edit (.rmdir path) => (sfsRmdir path).after Sys.handle n s
  | edit (.unlink path) => (sfsUnlink path).after Sys.handle n s
  | edit (.delete file) => (sfsDelete file).after Sys.handle n s
  | edit (.rename file newpath) => (sfsRename file newpath).after Sys.handle n s
  | edit (.write file data size off) => (sfsWrite file data size off).after Sys.handle n s
  | edit (.truncate file size) => (sfsTruncate file size).after Sys.handle n s
  | .open path => (sfsOpen path).after Sys.handle n s
  | getattr file attr => (sfsGetattr file attr).after Sys.handle n s
  | read file data size off => (sfsRead file data size off).after Sys.handle n s

/-- The call writes one entry at most. -/
def UnitCall.Single : UnitCall → Prop
  | edit (.creat path) => strlen path + 1 ≤ firstFileNameSize
  | edit (.mkdir path) => strlen path + 1 ≤ firstDirNameSize
  | edit (.unlink _) | .open _ | getattr .. | read .. => True
  | edit _ => False

instance UnitCall.decidableSingle : (c : UnitCall) → Decidable c.Single
  | edit (.creat _) | edit (.mkdir _) => inferInstanceAs (Decidable (_ ≤ _))
  | edit (.unlink _) | .open _ | getattr .. | read .. => isTrue trivial
  | edit (.rmdir _) | edit (.delete _) | edit (.rename ..) | edit (.write ..)
  | edit (.truncate ..) => isFalse id

/-- The call can leave a file unlinked. -/
def UnitCall.Unlinks : UnitCall → Prop
  | edit (.unlink _) => True
  | _ => False

theorem atMost_instants {α : Type} {p : SfsM α} {s s' : Sys} {a : α}
    (hp : p.AtMost Cmd.Writes 1) (hrun : s.exec p = some (a, s')) (n : Nat) :
    (p.after Sys.handle n s).dev.data = s.dev.data ∨
      (p.after Sys.handle n s).dev.data = s'.dev.data :=
  hp.after_one (o := fun s : Sys => s.dev.data)
    (fun e s r s' he hrun => handle_data e s r s' he hrun) hrun n

theorem UnitCall.Single.data_cases {c : UnitCall} {s s' : Session} {r : Reply} (hc : c.Single)
    (hrun : c.perform s = some (r, s')) (n : Nat) :
    (c.after n s.sys).dev.data = s.sys.dev.data ∨
      (c.after n s.sys).dev.data = s'.sys.dev.data := by
  have hlook : ∀ {α : Type} {p : SfsM α}, Looks p → p.AtMost Cmd.Writes 1 :=
    fun hp => hp.mono (Nat.zero_le 1)
  cases c with
  | edit op =>
    cases op with
    | creat path =>
      obtain ⟨x, hx, heq⟩ := Option.map_eq_some_iff.1 hrun
      cases heq
      exact atMost_instants (atMost_sfsCreat hc) hx n
    | mkdir path =>
      obtain ⟨x, hx, heq⟩ := Option.map_eq_some_iff.1 hrun
      cases heq
      exact atMost_instants (atMost_sfsMkdir hc) hx n
    | unlink path =>
      obtain ⟨x, hx, heq⟩ := Option.map_eq_some_iff.1 hrun
      cases heq
      exact atMost_instants (atMost_sfsUnlink path) hx n
    | rmdir | delete | rename | write | truncate => exact hc.elim
  | «open» path =>
    obtain ⟨x, hx, heq⟩ := Option.map_eq_some_iff.1 hrun
    cases heq
    exact atMost_instants (hlook (looks_sfsOpen path)) hx n
  | getattr file attr =>
    obtain ⟨x, hx, heq⟩ := Option.map_eq_some_iff.1 hrun
    cases heq
    exact atMost_instants (hlook (looks_sfsGetattr file attr)) hx n
  | read file data size off =>
    obtain ⟨x, hx, heq⟩ := Option.map_eq_some_iff.1 hrun
    cases heq
    exact atMost_instants (hlook (looks_sfsRead file data size off)) hx n

/-- A call that writes one entry at most has the disk, at every instant, as it was
before or as it is after the call, on any image and on a device that fails too. -/
theorem instants_of_single {c : UnitCall} {s s' : Session} {r : Reply} (hc : c.Single)
    (hrun : c.perform s = some (r, s')) (n : Nat) :
    (c.after n s.sys).dev.data = s.sys.dev.data ∨
      (c.after n s.sys).dev.data = s'.sys.dev.data :=
  hc.data_cases hrun n

theorem instants_of_single_creat : ∃ s r s', FreshlyMounted blankOpts 512 s ∧
    UnitCall.perform ⟨s, []⟩ (.edit (.creat pathA)) = some (r, s') ∧
    (((UnitCall.edit (.creat pathA)).after 7 s).dev.data = s.dev.data ∨
      ((UnitCall.edit (.creat pathA)).after 7 s).dev.data = s'.sys.dev.data) := by
  have hrun : (blankMounted.bind fun s =>
      (UnitCall.perform ⟨s, []⟩ (.edit (.creat pathA))).map fun _ => ()) = some () := by
    decide +kernel
  obtain ⟨s, hs, h⟩ := Option.bind_eq_some_iff.1 hrun
  obtain ⟨⟨r, s'⟩, hperform, -⟩ := Option.map_eq_some_iff.1 h
  exact ⟨s, r, s', blankMounted_fresh hs, hperform,
    instants_of_single (c := .edit (.creat pathA)) (show 2 ≤ 30 by decide) hperform 7⟩

/-! ## Callbacks that look -/

/-- The callback changes no byte of the disk. -/
def Fuse.Silent {α : Type} (m : FuseM α) : Prop :=
  ∀ s a s', m s = some (a, s') → s'.sys.dev.data = s.sys.dev.data

section Callbacks

variable {α β : Type}

theorem silent_pure (a : α) : Silent (pure a) := by
  intro s b s' h
  cases h
  rfl

theorem Fuse.Silent.bind {m : FuseM α} {f : α → FuseM β} (hm : Silent m)
    (hf : ∀ a, Silent (f a)) : Silent (m >>= f) := by
  intro s b s' h
  obtain ⟨⟨a, s₁⟩, ha, hb⟩ := Option.bind_eq_some_iff.1 h
  exact (hf a s₁ b s' hb).trans (hm s a s₁ ha)

theorem silent_call {p : SfsM α} (hp : Looks p) : Silent (Fuse.call p) := by
  intro s a s' h
  obtain ⟨x, hx, heq⟩ := Option.map_eq_some_iff.1 h
  cases heq
  exact hp.exec_zero (o := fun s : Sys => s.dev.data)
    (fun e s r s' he hrun => handle_data e s r s' he hrun) hx

theorem silent_ask (f : InodeMap → α) : Silent (ask f) := by
  intro s a s' h
  cases h
  rfl

theorem silent_change (f : InodeMap → InodeMap) : Silent (change f) := by
  intro s a s' h
  cases h
  rfl

theorem silent_negErrno : Silent negErrno := by
  intro s a s' h
  cases h
  rfl

theorem silent_uninitAttr : Silent uninitAttr := by
  intro s a s' h
  cases h
  rfl

theorem silent_ite {c : Prop} [Decidable c] {m m' : FuseM α} (hm : Silent m) (hm' : Silent m') :
    Silent (if c then m else m') := by
  split
  · exact hm
  · exact hm'

theorem silent_error (a : α) : Silent (negErrno >>= fun err => pure (err, a)) :=
  silent_negErrno.bind fun _ => silent_pure _

theorem silent_vinoFor (pino : Nat) : Silent (vinoFor pino) := by
  refine (silent_ask _).bind fun vino => silent_ite (fun s a s' h => ?_) (silent_pure _)
  cases h
  rfl

theorem silent_getattr (path : Buf) : Silent (fuseSfsGetattr path) := by
  unfold fuseSfsGetattr
  refine silent_uninitAttr.bind fun attr => (silent_call (looks_sfsOpen path)).bind fun pino => ?_
  refine silent_ite (silent_error _) ((silent_vinoFor pino).bind fun vino => ?_)
  refine silent_ite (silent_pure _) ((silent_call (looks_sfsGetattr _ _)).bind fun x => ?_)
  exact silent_ite (silent_error _) (silent_pure _)

theorem silent_open (path : Buf) : Silent (fuseSfsOpen path) := by
  unfold fuseSfsOpen
  refine (silent_call (looks_sfsOpen path)).bind fun pino => silent_ite (silent_error _) ?_
  refine (silent_vinoFor pino).bind fun vino => silent_ite (silent_pure _) ?_
  exact (silent_change _).bind fun _ => silent_pure _

theorem silent_opendir (path : Buf) : Silent (fuseSfsOpendir path) := by
  unfold fuseSfsOpendir
  refine silent_uninitAttr.bind fun attr => (silent_call (looks_sfsOpen path)).bind fun pino => ?_
  refine silent_ite (silent_error _) ((silent_call (looks_sfsGetattr _ _)).bind fun x => ?_)
  refine silent_ite (silent_error _) (silent_ite (silent_pure _) ?_)
  exact (silent_vinoFor pino).bind fun vino => silent_ite (silent_pure _) (silent_pure _)

theorem silent_readdir (full : Nat → Bool) (path : Buf) : Silent (fuseSfsReaddir full path) := by
  have hloop : ∀ len a fuel k iter name,
      Silent (fuseReaddirLoop len a full fuel k iter name) := by
    intro len a fuel
    induction fuel with
    | zero => exact fun _ _ _ s b s' h => nomatch h
    | succ fuel ih =>
      intro k iter name
      rw [fuseReaddirLoop]
      refine (silent_call (looks_sfsReaddir _ _)).bind fun x => silent_ite (silent_pure _) ?_
      obtain ⟨ret, iter, filename⟩ := x
      cases filename with
      | none => exact silent_pure _
      | some name =>
        refine (silent_vinoFor _).bind fun vino => silent_ite (silent_pure _) ?_
        refine silent_ite (silent_pure _) ((silent_call (looks_putChar _ _ _)).bind fun name => ?_)
        exact (ih _ _ _).bind fun _ => silent_pure _
  exact (silent_call looks_unit).bind fun _ => hloop _ _ _ _ _ _

theorem silent_read (vino : Nat) (buf : Mem) (size offset : Nat) :
    Silent (fuseSfsRead vino buf size offset) := by
  unfold fuseSfsRead
  refine (silent_ask _).bind fun pino => (silent_call (looks_sfsRead _ _ _ _)).bind fun x => ?_
  exact silent_ite (silent_error _) (silent_pure _)

theorem silent_statfs : Silent fuseSfsStatfs :=
  (silent_call looks_uninit).bind fun _ => (silent_call looks_uninit).bind fun _ =>
    (silent_call (looks_readDataM _ _ _)).bind fun _ => (silent_call looks_blockSize).bind fun _ =>
      (silent_call (looks_scanDelFileList _)).bind fun _ =>
        (silent_call (looks_scanFreeInode _)).bind fun _ => silent_pure _

end Callbacks

/-- The callbacks that look. -/
inductive Look where
  | getattr (path : Buf)
  | «open» (path : Buf)
  | opendir (path : Buf)
  | readdir (full : Nat → Bool) (path : Buf)
  | read (vino : Nat) (buf : Mem) (size offset : Nat)
  | statfs

def Look.step (s : Fuse) : Look → Option Fuse
  | getattr path => (fuseSfsGetattr path s).map Prod.snd
  | .open path => (fuseSfsOpen path s).map Prod.snd
  | opendir path => (fuseSfsOpendir path s).map Prod.snd
  | readdir full path => (fuseSfsReaddir full path s).map Prod.snd
  | read vino buf size offset => (fuseSfsRead vino buf size offset s).map Prod.snd
  | statfs => (fuseSfsStatfs s).map Prod.snd

theorem Look.step_data {s s' : Fuse} {look : Look} (h : look.step s = some s') :
    s'.sys.dev.data = s.sys.dev.data := by
  have hsnd : ∀ {α : Type} {m : FuseM α}, Silent m → (m s).map Prod.snd = some s' →
      s'.sys.dev.data = s.sys.dev.data := by
    intro α m hm h
    obtain ⟨x, hx, rfl⟩ := Option.map_eq_some_iff.1 h
    exact hm s x.1 x.2 hx
  cases look with
  | getattr path => exact hsnd (silent_getattr path) h
  | «open» path => exact hsnd (silent_open path) h
  | opendir path => exact hsnd (silent_opendir path) h
  | readdir full path => exact hsnd (silent_readdir full path) h
  | read vino buf size offset => exact hsnd (silent_read vino buf size offset) h
  | statfs => exact hsnd silent_statfs h

/-- The callbacks that look change no byte of the disk, in any number and order, on any
image, sound or not, with any inode map, and on a device that fails too. -/
theorem looks_run {s s' : Fuse} {looks : List Look} (hrun : run Look.step s looks = some s') :
    s'.sys.dev.data = s.sys.dev.data := by
  induction looks generalizing s with
  | nil =>
    cases hrun
    rfl
  | cons look looks ih =>
    obtain ⟨s₁, hstep, hrest⟩ := Option.bind_eq_some_iff.1 hrun
    exact (ih hrest).trans (Look.step_data hstep)

/-- The root directory is looked at. -/
def rootLooks : List Look :=
  [.getattr [0], .opendir [0], .readdir (fun _ => false) [0], .statfs]

theorem looks_run_rootLooks : ∃ s s', FreshlyMounted blankOpts 512 s ∧
    run Look.step (freshFuse s) rootLooks = some s' ∧ s'.sys.dev.data = s.dev.data := by
  have hrun : (blankMounted.bind fun s =>
      (run Look.step (freshFuse s) rootLooks).map fun _ => ()) = some () := by decide +kernel
  obtain ⟨s, hs, h⟩ := Option.bind_eq_some_iff.1 hrun
  obtain ⟨s', hlooks, -⟩ := Option.map_eq_some_iff.1 h
  exact ⟨s, s', blankMounted_fresh hs, hlooks, looks_run hlooks⟩

end Sfs
