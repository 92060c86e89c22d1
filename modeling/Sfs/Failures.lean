import Sfs.Refine

/-!
# Failures and `sfs_errno`

The callbacks tell their callers of a failure by `-sfs_errno`, which is no failure when
`sfs_errno` is 0.

* `Errs good bad p` says that what `p` returns is `good`, or it is `bad` and `sfs_errno` is
  set, with the rules for programs;
* there is a lemma for each function that fails;
* `refused_errno` puts them together: no call is refused with `sfs_errno` at 0, whatever
  the image is and whatever the device does.
-/

namespace Sfs

open Lib FileTree

/-- The value is good, or it is bad and an error is set. -/
def Errs {α : Type} (good bad : α → Prop) (p : SfsM α) : Prop :=
  ∀ (s : Sys) (a : α) (s' : Sys), s.exec p = some (a, s') → good a ∨ bad a ∧ s'.errno ≠ 0

/-! ## Rules -/

section Rules

variable {α β : Type} {good bad : α → Prop}

theorem errs_pure {a : α} (ha : good a) : Errs good bad (pure a) := by
  intro s b s' hrun
  cases hrun
  exact Or.inl ha

theorem errs_fail {code : Nat} {a : α} (ha : bad a) (hcode : code ≠ 0) :
    Errs good bad (do setErrno code; pure a) := by
  intro s b s' hrun
  cases hrun
  exact Or.inr ⟨ha, hcode⟩

/-- The values of the first part are of some kind. -/
theorem errs_bind_all {p : SfsM β} {f : β → SfsM α} {P : β → Prop}
    (hp : p.All (fun _ => True) P) (hf : ∀ b, P b → Errs good bad (f b)) :
    Errs good bad (p >>= f) := by
  intro s a s' hrun
  obtain ⟨b, t, hb, ha⟩ := (Prog.exec_bind_eq_some _).1 hrun
  exact hf b (hp.post s b t hb) t a s' ha

theorem errs_bind {p : SfsM β} {f : β → SfsM α} (hf : ∀ b, Errs good bad (f b)) :
    Errs good bad (p >>= f) :=
  errs_bind_all (Prog.all_true p) fun b _ => hf b

/-- The value is made of that of the first part. -/
theorem errs_map {p : SfsM β} {g : β → α}
    (hp : Errs (fun b => good (g b)) (fun b => bad (g b)) p) :
    Errs good bad (p >>= fun b => pure (g b)) := by
  intro s a s' hrun
  obtain ⟨b, t, hb, ha⟩ := (Prog.exec_bind_eq_some _).1 hrun
  cases ha
  exact hp s b s' hb

/-- An error is set with every bad value. -/
theorem errs_not {p : SfsM α}
    (h : ∀ (s : Sys) (a : α) (s' : Sys), s.exec p = some (a, s') → bad a → s'.errno ≠ 0) :
    Errs (fun a => ¬ bad a) bad p := by
  intro s a s' hrun
  rw [or_iff_not_imp_left, not_not]
  exact fun hbad => ⟨hbad, h s a s' hrun hbad⟩

theorem errs_ite {c : Prop} [Decidable c] {p p' : SfsM α} (hp : Errs good bad p)
    (hp' : Errs good bad p') : Errs good bad (if c then p else p') := by
  split
  · exact hp
  · exact hp'

theorem errnoAfter_ne_zero {s : Sys} {failed : Bool} (hfailed : failed = true) :
    s.errnoAfter failed ≠ 0 := by
  rw [Sys.errnoAfter, if_pos hfailed]
  decide

theorem errs_readDataM (offset : Nat) (data : Mem) (size : Nat) :
    Errs (fun x => x.1 ≠ minusOne) (fun x => x.1 = minusOne) (readDataM offset data size) := by
  refine errs_not fun s a s' hrun hbad => ?_
  cases hrun
  exact errnoAfter_ne_zero (beq_iff_eq.2 hbad)

theorem errs_writeDataM (offset : Nat) (data : Mem) (size : Nat) :
    Errs (fun x => x ≠ minusOne) (fun x => x = minusOne) (writeDataM offset data size) := by
  refine errs_not fun s a s' hrun hbad => ?_
  cases hrun
  exact errnoAfter_ne_zero (beq_iff_eq.2 hbad)

/-- `write_data` returns the size or -1. -/
theorem writeData_fst (dev : BlockDev) (offset : Nat) (data : Mem) (size : Nat) :
    (writeData dev offset data size).1 = size ∨ (writeData dev offset data size).1 = minusOne := by
  unfold writeData
  dsimp only
  rcases dev.read (offset / dev.blockSize) with ⟨ok, dev₁⟩
  cases ok with
  | false => exact Or.inr rfl
  | true =>
    dsimp only
    by_cases hfit : u64 (offset % dev.blockSize + size) ≤ dev.blockSize
    · rw [if_pos hfit]
      rcases BlockDev.write _ _ with ⟨ok, dev₂⟩
      cases ok with
      | false => exact Or.inr rfl
      | true => exact Or.inl rfl
    · rw [if_neg hfit]
      rcases BlockDev.write _ _ with ⟨ok, dev₂⟩
      cases ok with
      | false => exact Or.inr rfl
      | true =>
        dsimp only
        rcases writeBlocks _ _ _ _ _ _ with ⟨ok, dev₃⟩
        cases ok with
        | false => exact Or.inr rfl
        | true => exact Or.inl rfl

theorem errs_writeDataM_size (offset : Nat) (data : Mem) (size : Nat) :
    Errs (fun x => x = size) (fun x => x = minusOne) (writeDataM offset data size) := by
  intro s a s' hrun
  cases hrun
  refine (writeData_fst s.dev offset data size).imp_right fun hbad => ?_
  exact ⟨hbad, errnoAfter_ne_zero (beq_iff_eq.2 hbad)⟩

end Rules

/-! ## Functions -/

theorem errs_sfsOpen (path : Buf) : Errs (fun r => r ≠ 0) (fun r => r = 0) (sfsOpen path) := by
  unfold sfsOpen
  refine errs_bind fun entr => errs_bind fun x => ?_
  obtain ⟨file, entr⟩ := x
  by_cases hfile : file = 0
  · dsimp only
    rw [if_neg (not_not.2 hfile)]
    refine errs_bind fun y => ?_
    obtain ⟨file, entr⟩ := y
    by_cases hdir : file = 0
    · dsimp only
      rw [if_pos hdir]
      exact errs_fail hdir (by decide)
    · dsimp only
      rw [if_neg hdir]
      exact errs_pure hdir
  · dsimp only
    rw [if_pos hfile]
    exact errs_pure hfile

theorem errs_sfsGetattr (file : Nat) (attr : SfsAttr) :
    Errs (fun r => r.1 = 0) (fun r => r.1 = -1) (sfsGetattr file attr) := by
  unfold sfsGetattr
  refine errs_bind fun entr => errs_bind fun x => errs_ite (errs_fail rfl (by decide)) ?_
  refine errs_bind fun _ => errs_ite (errs_pure rfl) ?_
  exact errs_ite (errs_pure rfl) (errs_pure rfl)

theorem errs_creatEntry (path : Buf) (entr : Entry) :
    Errs (fun r => r = 0) (fun r => r = -1) (creatEntry path entr) := by
  unfold creatEntry
  refine errs_bind fun x => errs_ite (errs_fail rfl (by decide)) (errs_bind fun entr => ?_)
  refine errs_bind fun now => errs_bind fun _ => errs_bind fun _ => errs_bind fun _ => ?_
  exact errs_bind fun _ => errs_pure rfl

theorem errs_sfsCreat (path : Buf) :
    Errs (fun r => r.1 = 0) (fun r => r.1 = -1) (sfsCreat path) := by
  unfold sfsCreat
  refine errs_bind fun entr => errs_ite (errs_fail rfl (by decide)) (errs_bind fun x => ?_)
  refine errs_ite (errs_fail rfl (by decide)) (errs_bind fun y => ?_)
  refine errs_ite (errs_fail rfl (by decide)) ?_
  refine errs_bind fun z => errs_ite (errs_fail rfl (by decide)) ?_
  exact errs_map (errs_creatEntry _ _)

theorem errs_mkdirEntry (path : Buf) (entr : Entry) :
    Errs (fun r => r = 0) (fun r => r = -1) (mkdirEntry path entr) := by
  unfold mkdirEntry
  refine errs_bind fun x => errs_ite (errs_fail rfl (by decide)) (errs_bind fun entr => ?_)
  refine errs_bind fun now => errs_bind fun _ => errs_bind fun _ => errs_bind fun _ => ?_
  exact errs_bind fun _ => errs_pure rfl

theorem errs_sfsMkdir (path : Buf) :
    Errs (fun r => r.1 = 0) (fun r => r.1 = -1) (sfsMkdir path) := by
  unfold sfsMkdir
  refine errs_bind fun entr => errs_ite (errs_fail rfl (by decide)) (errs_bind fun x => ?_)
  refine errs_ite (errs_fail rfl (by decide)) (errs_bind fun y => ?_)
  refine errs_ite (errs_fail rfl (by decide)) ?_
  exact errs_map (errs_mkdirEntry _ _)

theorem errs_sfsRmdir (path : Buf) : Errs (fun r => r = 0) (fun r => r = -1) (sfsRmdir path) := by
  unfold sfsRmdir
  refine errs_bind fun entr => errs_bind fun fs => errs_ite (errs_fail rfl (by decide)) ?_
  refine errs_bind fun x => errs_ite (errs_fail rfl (by decide)) (errs_bind fun y => ?_)
  refine errs_ite (errs_fail rfl (by decide)) (errs_bind fun z => ?_)
  refine errs_ite (errs_fail rfl (by decide)) ?_
  refine errs_bind fun w => errs_bind fun _ => errs_bind fun _ => errs_bind fun _ => ?_
  exact errs_pure rfl

theorem errs_sfsUnlink (path : Buf) : Errs (fun r => r ≠ 0) (fun r => r = 0) (sfsUnlink path) := by
  unfold sfsUnlink
  refine errs_bind fun entr => errs_ite (errs_fail rfl (by decide)) (errs_bind fun x => ?_)
  obtain ⟨file, entr⟩ := x
  by_cases hfile : file = 0
  · dsimp only
    rw [if_pos hfile]
    exact errs_fail rfl (by decide)
  · dsimp only
    rw [if_neg hfile]
    exact errs_bind fun _ => errs_bind fun _ => errs_bind fun _ => errs_pure hfile

/-- `sfs_delete` returns 0 whatever happens. -/
theorem sfsDelete_zero (file : Nat) : (sfsDelete file).All (fun _ => True) fun r => r = 0 := by
  unfold sfsDelete
  refine (Prog.all_true _).bind fun entr _ => (Prog.all_true _).bind fun x _ => ?_
  dsimp only
  split
  · exact Prog.all_tail fun _ => Prog.all_pure rfl
  · refine Prog.all_tail fun _ => Prog.all_tail fun _ => Prog.all_tail fun _ => ?_
    exact Prog.all_tail fun _ => Prog.all_tail fun _ => Prog.all_pure rfl

theorem errs_sfsDelete (file : Nat) :
    Errs (fun r => r = 0) (fun r => r = -1) (sfsDelete file) := fun s a s' hrun =>
  Or.inl ((sfsDelete_zero file).post s a s' hrun)

theorem errs_renameEntry (file newOff n : Nat) (newpath : Buf) (entr : Entry)
    (hnew : newOff ≠ 0) :
    Errs (fun r => r ≠ 0) (fun r => r = 0) (renameEntry file newOff n newpath entr) := by
  unfold renameEntry
  refine errs_bind_all (sfsDelete_zero file) fun ret hret => ?_
  subst hret
  rw [if_neg (by decide)]
  refine errs_bind fun x => errs_ite (errs_fail rfl (by decide)) (errs_bind fun entr => ?_)
  refine errs_bind fun _ => errs_bind fun _ => errs_bind fun _ => errs_bind fun _ => ?_
  exact errs_pure hnew

theorem errs_sfsRename (file : Nat) (newpath : Buf) :
    Errs (fun r => r.1 ≠ 0) (fun r => r.1 = 0) (sfsRename file newpath) := by
  unfold sfsRename
  refine errs_bind fun entr => errs_ite (errs_fail rfl (by decide)) (errs_bind fun x => ?_)
  refine errs_ite (errs_fail rfl (by decide)) (errs_bind fun y => ?_)
  refine errs_ite (errs_fail rfl (by decide)) ?_
  refine errs_bind fun z => errs_ite (errs_fail rfl (by decide)) (errs_bind fun w => ?_)
  obtain ⟨newOff, entr⟩ := w
  dsimp only
  split
  · exact errs_fail rfl (by decide)
  · refine errs_bind fun u => errs_ite (errs_fail rfl (by decide)) ?_
    refine errs_ite (errs_fail rfl (by decide)) ?_
    exact errs_map (errs_renameEntry _ _ _ _ _ ‹_›)

theorem errs_sfsRead (file : Nat) (data : Mem) (size off : Nat) :
    Errs (fun r => r.1 ≠ minusOne) (fun r => r.1 = minusOne) (sfsRead file data size off) := by
  unfold sfsRead
  refine errs_bind fun entr => errs_bind fun x => errs_ite (errs_fail rfl (by decide)) ?_
  refine errs_ite (errs_fail rfl (by decide)) (errs_bind fun _ => errs_bind fun _ => ?_)
  exact errs_bind fun bs => errs_readDataM _ _ _

/-- The code of a growth that fails is an error. -/
theorem extentFor_code {copyErrno : Nat} (hcode : copyErrno ≠ 0)
    (file oldSize oldStart oldEnd newSize : Nat) (entr : Entry) :
    (extentFor copyErrno file oldSize oldStart oldEnd newSize entr).All (fun _ => True)
      fun x => ∀ code, x.1 = .error code → code ≠ 0 := by
  have hok : ∀ (x : Nat × Nat) code, (Except.ok x : Except Nat (Nat × Nat)) = .error code →
      code ≠ 0 := fun _ _ h => nomatch h
  unfold extentFor
  refine Prog.all_tail fun bs => ?_
  split
  · unfold growFile
    refine Prog.all_tail fun bs => Prog.all_tail fun x => ?_
    dsimp only
    split
    · exact Prog.all_pure (hok _)
    · refine Prog.all_tail fun y => ?_
      split
      · refine Prog.all_pure fun code h => ?_
        cases h
        decide
      · split
        · refine Prog.all_tail fun z => Prog.all_tail fun ret => ?_
          split
          · refine Prog.all_pure fun code h => ?_
            cases h
            exact hcode
          · exact Prog.all_pure (hok _)
        · exact Prog.all_pure (hok _)
  · exact Prog.all_pure (hok _)

theorem errs_sfsWrite_of {good : Nat → Prop} {data : Mem} {size : Nat}
    (hdata : ∀ offset, Errs good (fun r => r = minusOne) (writeDataM offset data size))
    (file off : Nat) : Errs good (fun r => r = minusOne) (sfsWrite file data size off) := by
  unfold sfsWrite
  refine errs_bind fun entr => errs_bind fun x => errs_ite (errs_fail rfl (by decide)) ?_
  refine errs_bind fun bs => errs_bind_all (extentFor_code (by decide) _ _ _ _ _ _) fun y hy => ?_
  obtain ⟨grown, entr⟩ := y
  cases grown with
  | error code => exact errs_fail rfl (hy code rfl)
  | ok extent => exact errs_bind fun _ => hdata _

theorem errs_sfsWrite (file : Nat) (data : Mem) (size off : Nat) :
    Errs (fun r => r ≠ minusOne) (fun r => r = minusOne) (sfsWrite file data size off) :=
  errs_sfsWrite_of (fun offset => errs_writeDataM offset data size) file off

theorem errs_sfsWrite_size (file : Nat) (data : Mem) (size off : Nat) :
    Errs (fun r => r = size) (fun r => r = minusOne) (sfsWrite file data size off) :=
  errs_sfsWrite_of (fun offset => errs_writeDataM_size offset data size) file off

/-- `file_shrink` returns 0 whatever happens. -/
theorem fileShrink_zero (off newSize : Nat) (entr : Entry) :
    (fileShrink off newSize entr).All (fun _ => True) fun x => x.1 = 0 := by
  unfold fileShrink
  refine Prog.all_tail fun bs => Prog.all_tail fun x => ?_
  dsimp only
  split
  · exact Prog.all_pure rfl
  · exact Prog.all_tail fun _ => Prog.all_pure rfl

theorem errs_sfsTruncate (file newSize : Nat) :
    Errs (fun r => r = 0) (fun r => r = -1) (sfsTruncate file newSize) := by
  have hdone : ∀ p : SfsM Unit, Errs (fun r : Int => r = 0) (fun r => r = -1)
      (p >>= fun _ => pure 0) := fun p => errs_bind fun _ => errs_pure rfl
  unfold sfsTruncate
  -- When the entry cannot be read `sfs_truncate` returns 0.
  refine errs_bind fun entr => errs_bind fun x => errs_ite (hdone (setErrno eIO)) ?_
  refine errs_bind fun bs => errs_ite (errs_bind fun y => hdone _) (errs_ite ?_ ?_)
  · refine errs_bind_all (fileShrink_zero _ _ _) fun y hy => ?_
    obtain ⟨ret, entr⟩ := y
    dsimp only at hy ⊢
    rw [if_neg (not_not.2 hy)]
    exact hdone _
  · refine errs_bind_all (extentFor_code (by decide) _ _ _ _ _ _) fun y hy => ?_
    obtain ⟨grown, entr⟩ := y
    cases grown with
    | error code => exact errs_fail rfl (hy code rfl)
    | ok extent => exact hdone _

/-! ## Calls -/

/-- A call is refused when the function returns a bad value. -/
theorem Errs.refused {α : Type} {good bad : α → Prop} {p : SfsM α} (hp : Errs good bad p) {s : Sys}
    {f : α × Sys → Reply × Session} {s' : Session} (hrun : (s.exec p).map f = some (.refused, s'))
    (hsys : ∀ x, (f x).2.sys = x.2) (hgood : ∀ x, (f x).1 = .refused → ¬ good x.1) :
    s'.sys.errno ≠ 0 := by
  obtain ⟨x, hx, heq⟩ := Option.map_eq_some_iff.1 hrun
  rw [show s' = (f x).2 from (congrArg Prod.snd heq).symm, hsys]
  exact ((hp s x.1 x.2 hx).resolve_left (hgood x (congrArg Prod.fst heq))).2

theorem refused_of_ite {c : Prop} [Decidable c] {r : Reply} (hr : r ≠ .refused)
    (h : (if c then r else .refused) = Answer.refused) : ¬ c :=
  fun hc => hr (by rwa [if_pos hc] at h)

theorem refused_of_ite_not {c : Prop} [Decidable c] {r : Reply} (hr : r ≠ .refused)
    (h : (if c then .refused else r) = Answer.refused) : ¬ ¬ c :=
  fun hc => hr (by rwa [if_neg hc] at h)

/-- A call that is refused leaves `sfs_errno` set, whatever the session and the call are. -/
theorem refused_errno {s s' : Session} {c : UnitCall} (hrun : c.perform s = some (.refused, s')) :
    s'.sys.errno ≠ 0 := by
  cases c with
  | edit op =>
    cases op with
    | creat path =>
      exact (errs_sfsCreat path).refused hrun (fun _ => rfl) fun _ => refused_of_ite nofun
    | mkdir path =>
      exact (errs_sfsMkdir path).refused hrun (fun _ => rfl) fun _ => refused_of_ite nofun
    | rmdir path =>
      exact (errs_sfsRmdir path).refused hrun (fun _ => rfl) fun _ => refused_of_ite nofun
    | unlink path =>
      exact (errs_sfsUnlink path).refused hrun (fun _ => rfl) fun _ => refused_of_ite_not nofun
    | delete file =>
      exact (errs_sfsDelete file).refused hrun (fun _ => rfl) fun _ => refused_of_ite nofun
    | rename file newpath =>
      exact (errs_sfsRename file newpath).refused hrun (fun _ => rfl) fun _ =>
        refused_of_ite_not nofun
    | write file data size off =>
      exact (errs_sfsWrite file data size off).refused hrun (fun _ => rfl) fun _ =>
        refused_of_ite_not nofun
    | truncate file size =>
      exact (errs_sfsTruncate file size).refused hrun (fun _ => rfl) fun _ => refused_of_ite nofun
  | «open» path =>
    exact (errs_sfsOpen path).refused hrun (fun _ => rfl) fun _ => refused_of_ite_not nofun
  | getattr file attr =>
    exact (errs_sfsGetattr file attr).refused hrun (fun _ => rfl) fun _ => refused_of_ite nofun
  | read file data size off =>
    exact (errs_sfsRead file data size off).refused hrun (fun _ => rfl) fun _ =>
      refused_of_ite_not nofun

/-- A path with a character that names may not have. -/
theorem refused_errno_quote :
    ∃ s s', (UnitCall.edit (.creat [0x22])).perform s = some (.refused, s') ∧
      s'.sys.errno ≠ 0 := by
  obtain ⟨s, -⟩ := exists_blankMounted
  have hrun : (UnitCall.edit (.creat [0x22])).perform ⟨s, []⟩
      = some (.refused, ⟨{ s with errno := eINVAL }, []⟩) := rfl
  exact ⟨⟨s, []⟩, _, hrun, refused_errno hrun⟩

end Sfs
