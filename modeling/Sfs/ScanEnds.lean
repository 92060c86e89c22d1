import Sfs.Cache
import Sfs.Ops
import Sfs.Mount
import Sfs.Names
import Sfs.Format
import Sfs.Readdir

/-!
# When the scans of the index end

The scans of the index move a cursor by one slot at a time from `entry_start`
until it equals `vol_ident`.  `entry_parse` also stops when it cannot read a
slot; `search_file_mask` goes on with the entry it has.

* `Halts` is the property of a function that it returns, from every state of a
  unit with given bounds;
* `searchFileMask_runs_on` says that a cursor that never meets `vol_ident`
  carries some search on for ever;
* `scans_end_iff` is the condition on the bounds under which every scan ends.
-/

namespace Sfs

open Lib

/-! ## Functions that return -/

/-- The function returns from every state of a unit with these bounds, on any
device, keeps the bounds, and its value satisfies `P`. -/
def Halts {α : Type} (es vi : Nat) (p : SfsM α) (P : α → Prop) : Prop :=
  ∀ s : Sys, s.fs.entryStart = es → s.fs.volIdent = vi →
    p.Ends Sys.handle s fun a s' => (s'.fs.entryStart = es ∧ s'.fs.volIdent = vi) ∧ P a

section Halts

variable {α β : Type} {es vi : Nat} {P : α → Prop} {Q : β → Prop}

theorem halts_pure {a : α} (h : P a) : Halts es vi (pure a) P := by
  intro s hes hvi
  rw [Prog.ends_pure]
  exact ⟨⟨hes, hvi⟩, h⟩

theorem Halts.bind {p : SfsM α} {f : α → SfsM β} (hp : Halts es vi p P)
    (hf : ∀ a, P a → Halts es vi (f a) Q) : Halts es vi (p >>= f) Q := by
  intro s hes hvi
  apply (hp s hes hvi).bind
  intro a s' ⟨hbounds, ha⟩
  exact hf a ha s' hbounds.1 hbounds.2

theorem Halts.mono {P' : α → Prop} {p : SfsM α} (hp : Halts es vi p P) (h : ∀ a, P a → P' a) :
    Halts es vi p P' := by
  intro s hes hvi
  exact (hp s hes hvi).mono fun a _ ha => ⟨ha.1, h a ha.2⟩

/-- Every command is answered. -/
theorem handle_some (e : Cmd) (s : Sys) : ∃ r s', Sys.handle e s = some (r, s') := by
  cases e <;> exact ⟨_, _, rfl⟩

/-- The commands that leave the bounds of the index alone. -/
def Cmd.KeepsBounds (es vi : Nat) : Cmd → Prop
  | .setUnit fs => fs.entryStart = es ∧ fs.volIdent = vi
  | _ => True

theorem halts_issue {e : Cmd} (he : e.KeepsBounds es vi) : Halts es vi (issue e) fun _ => True := by
  intro s hes hvi
  obtain ⟨r, s', hrun⟩ := handle_some e s
  refine ⟨r, s', (Prog.exec_perform _ _ _).trans hrun, ?_, trivial⟩
  cases e <;> cases hrun <;> first | exact he | exact ⟨hes, hvi⟩

theorem halts_unit :
    Halts es vi unit fun fs => fs.entryStart = es ∧ fs.volIdent = vi := by
  intro s hes hvi
  exact ⟨s.fs, s, rfl, ⟨hes, hvi⟩, hes, hvi⟩

theorem halts_readEntry (off : Nat) (entr : Entry) :
    Halts es vi (readEntry off entr) fun _ => True := by
  unfold readEntry
  split
  · exact halts_pure trivial
  · exact halts_issue trivial

theorem halts_writeEntry (off : Nat) (entr : Entry) :
    Halts es vi (writeEntry off entr) fun _ => True := by
  unfold writeEntry
  split
  · exact halts_pure trivial
  · exact halts_issue trivial

theorem halts_setErrno (code : Nat) : Halts es vi (setErrno code) fun _ => True :=
  halts_issue trivial

theorem halts_uninit : Halts es vi uninit fun _ => True := halts_issue trivial

theorem halts_update : Halts es vi update fun _ => True := by
  unfold update
  apply (halts_issue (e := .getTime) trivial).bind
  intro now _
  apply halts_unit.bind
  intro fs hfs
  exact halts_issue hfs

theorem halts_freeEntry (entr : Entry) (off n : Nat) :
    Halts es vi (freeEntry entr off n) fun _ => True := by
  induction n generalizing entr off with
  | zero => exact halts_pure trivial
  | succ n ih =>
    have hone : Halts es vi (freeOneEntry entr off) fun _ => True := by
      unfold freeOneEntry
      apply (halts_readEntry _ _).bind
      intro r _
      dsimp only
      split
      · exact halts_pure trivial
      · apply (halts_writeEntry _ _).bind
        intro _ _
        exact halts_pure trivial
    rw [freeEntry]
    apply hone.bind
    intro r _
    dsimp only
    split
    · exact halts_pure trivial
    · exact ih _ _

end Halts

/-! ## The cursor -/

/-- The cursor at `off` meets `vol_ident` after `n` slots, before it
overflows. -/
structure Meets64 (vi off n : Nat) : Prop where
  lt : off < 18446744073709551616
  meets : u64 (off + 64 * n) = vi
  fuel : n < scanFuel off

/-- The cursor one slot on. -/
theorem Meets64.next {vi off n : Nat} (h : Meets64 vi off (n + 1)) :
    Meets64 vi (u64 (off + 64)) n := by
  obtain ⟨hlt, hmeets, hfuel⟩ := h
  refine ⟨Nat.mod_lt _ (by decide), ?_, ?_⟩
  · rw [← hmeets]
    unfold u64
    omega
  · unfold scanFuel sub64 u64 indexEntrySize at *
    split at hfuel <;> split <;> omega

/-- The cursor some slots on. -/
theorem Meets64.advance {vi off n : Nat} (h : Meets64 vi off n) {j : Nat} (hj : j ≤ n) :
    Meets64 vi (u64 (off + 64 * j)) (n - j) := by
  induction j with
  | zero =>
    have hoff : u64 (off + 64 * 0) = off := u64_of_lt h.lt
    rw [hoff]
    exact h
  | succ j ih =>
    have hprev := ih (by omega)
    rw [show n - j = n - (j + 1) + 1 by omega] at hprev
    have hnext := hprev.next
    have heq : u64 (u64 (off + 64 * j) + 64) = u64 (off + 64 * (j + 1)) := by
      unfold u64
      omega
    rwa [heq] at hnext

theorem Meets64.eq_of_zero {vi off : Nat} (h : Meets64 vi off 0) : off = vi := by
  have hmeets := h.meets
  rwa [Nat.mul_zero, Nat.add_zero, u64_of_lt h.lt] at hmeets

/-! ## Scans that meet the end -/

section Scans

variable {es vi : Nat}

theorem halts_entryParseLoop {δ : Type} {callback : Callback δ}
    (hcall : ∀ entr off data, Halts es vi (callback entr off data) fun _ => True) {n fuel off : Nat}
    (hfuel : n < fuel) (hoff : Meets64 vi off n) (entr : Entry) (data : δ) :
    Halts es vi (entryParseLoop callback vi fuel off entr data) fun _ => True := by
  induction n generalizing fuel off entr data with
  | zero =>
    cases fuel with
    | zero => omega
    | succ fuel =>
      rw [entryParseLoop, if_pos hoff.eq_of_zero]
      exact halts_pure trivial
  | succ n ih =>
    cases fuel with
    | zero => omega
    | succ fuel =>
      rw [entryParseLoop]
      split
      · exact halts_pure trivial
      · apply (halts_readEntry off entr).bind
        intro r _
        dsimp only
        split
        · apply (halts_setErrno eIO).bind
          intro _ _
          exact halts_pure trivial
        · apply (hcall _ _ _).bind
          intro x _
          split
          · exact halts_pure trivial
          · exact ih (by omega) hoff.next _ _

theorem halts_entryParse {δ : Type} {callback : Callback δ}
    (hcall : ∀ entr off data, Halts es vi (callback entr off data) fun _ => True) {n : Nat}
    (hn : Meets64 vi es n) (entr : Entry) (data : δ) :
    Halts es vi (entryParse entr callback data) fun _ => True := by
  unfold entryParse
  apply halts_unit.bind
  intro fs ⟨hes, hvi⟩
  rw [hes, hvi]
  exact halts_entryParseLoop hcall hn.fuel hn _ _

theorem halts_matchCont (curin : Buf) (entr : Entry) (off cur c ce : Nat) :
    Halts es vi (matchCont curin entr off cur c ce) fun _ => True := by
  induction curin generalizing entr off cur c ce with
  | nil => exact halts_pure trivial
  | cons ch curin ih =>
    rw [matchCont]
    split
    · exact halts_pure trivial
    · split
      · exact halts_pure trivial
      · split
        · apply (halts_readEntry _ _).bind
          intro r _
          dsimp only
          split
          · exact halts_pure trivial
          · exact ih _ _ _ _ _
        · exact ih _ _ _ _ _

/-- `read_file_entry` and `read_dir_entry` return. -/
theorem halts_readNameEntry (kind : NameKind) (entr : Entry) (off : Nat) (curin : Buf) :
    Halts es vi (readNameEntry kind entr off curin) fun _ => True := by
  unfold readNameEntry
  dsimp only
  split
  · exact halts_pure trivial
  · split
    · split <;> exact halts_pure trivial
    · split
      · exact halts_pure trivial
      · split
        · split <;> exact halts_pure trivial
        · split
          · split <;> exact halts_pure trivial
          · split
            · exact halts_pure trivial
            · apply (halts_readEntry _ _).bind
              intro r _
              split
              · exact halts_pure trivial
              · apply (halts_matchCont _ _ _ _ _ _).bind
                intro x _
                split
                · exact halts_pure trivial
                · apply (halts_readEntry _ _).bind
                  intro r _
                  split <;> exact halts_pure trivial

theorem halts_verifyCont (entr : Entry) (off : Nat) (filepath : Buf) (n : Nat) :
    Halts es vi (verifyCont entr off filepath n) fun _ => True := by
  induction n generalizing entr off filepath with
  | zero => exact halts_pure trivial
  | succ n ih =>
    rw [verifyCont]
    apply (halts_readEntry _ _).bind
    intro r _
    dsimp only
    split
    · apply (halts_setErrno _).bind
      intro _ _
      exact halts_pure trivial
    · split
      · exact halts_pure trivial
      · exact ih _ _ _

theorem halts_searchName {n : Nat} (hn : Meets64 vi es n) (kind : NameKind) (filepath : Buf)
    (entr : Entry) : Halts es vi (searchName kind filepath entr) fun _ => True := by
  unfold searchName
  apply (halts_setErrno 0).bind
  intro _ _
  apply (halts_entryParse (halts_readNameEntry kind) hn _ _).bind
  intro x _
  dsimp only
  split
  · exact halts_pure trivial
  · split
    · exact halts_pure trivial
    · apply (halts_verifyCont _ _ _ _).bind
      intro y _
      split
      · exact halts_pure trivial
      · apply (halts_readEntry _ _).bind
        intro _ _
        exact halts_pure trivial

theorem halts_matchMask (curin : Buf) (entr : Entry) (off cur c : Nat) :
    Halts es vi (matchMask curin entr off cur c) fun _ => True := by
  induction curin generalizing entr off cur c with
  | nil => exact halts_pure trivial
  | cons ch curin ih =>
    rw [matchMask]
    split
    · exact halts_pure trivial
    · split
      · exact halts_pure trivial
      · split
        · apply (halts_readEntry _ _).bind
          intro r _
          exact ih _ _ _ _
        · exact ih _ _ _ _

theorem halts_checkFileMask (entr : Entry) (off : Nat) (data : Buf) :
    Halts es vi (checkFileMask entr off data) fun _ => True := by
  have hkind : ∀ kind, Halts es vi (checkNameMask kind entr off data) fun _ => True := by
    intro kind
    unfold checkNameMask
    split
    · exact halts_pure trivial
    · split
      · exact halts_pure trivial
      · apply (halts_readEntry _ _).bind
        intro r _
        exact halts_matchMask _ _ _ _ _
  unfold checkFileMask
  split
  · exact hkind fileKind
  · split
    · exact hkind dirKind
    · exact halts_pure trivial

/-- The search for a mask from `off` on gives 0, or a slot before the end. -/
def MaskFound (off n : Nat) (r : Nat × Entry) : Prop :=
  r.1 = 0 ∨ ∃ j, j < n ∧ r.1 = u64 (off + 64 * j)

theorem MaskFound.of_next {off n : Nat} {r : Nat × Entry} (h : MaskFound (u64 (off + 64)) n r) :
    MaskFound off (n + 1) r := by
  apply h.imp id
  rintro ⟨j, hj, hr⟩
  refine ⟨j + 1, by omega, hr.trans ?_⟩
  unfold u64
  omega

theorem halts_searchFileMaskLoop (filepath : Buf) {n fuel off : Nat} (hfuel : n < fuel)
    (hoff : Meets64 vi off n) (entr : Entry) :
    Halts es vi (searchFileMaskLoop filepath vi fuel entr off) (MaskFound off n) := by
  induction n generalizing fuel off entr with
  | zero =>
    cases fuel with
    | zero => omega
    | succ fuel =>
      rw [searchFileMaskLoop, if_pos hoff.eq_of_zero]
      exact halts_pure (Or.inl rfl)
  | succ n ih =>
    cases fuel with
    | zero => omega
    | succ fuel =>
      rw [searchFileMaskLoop]
      have hhere : u64 (off + 64 * 0) = off := u64_of_lt hoff.lt
      have hrest : ∀ entr, Halts es vi
          (searchFileMaskLoop filepath vi fuel entr (u64 (off + indexEntrySize)))
          (MaskFound off (n + 1)) :=
        fun entr => (ih (by omega) hoff.next entr).mono fun _ => MaskFound.of_next
      split
      · exact halts_pure (Or.inl rfl)
      · apply (halts_readEntry off entr).bind
        intro r _
        dsimp only
        split
        · apply (halts_checkFileMask _ _ _).bind
          intro x _
          split
          · apply (halts_readEntry _ _).bind
            intro _ _
            exact halts_pure (Or.inr ⟨0, by omega, hhere.symm⟩)
          · exact hrest _
        · exact hrest _

theorem halts_searchFileMask (filepath : Buf) {n off : Nat} (hoff : Meets64 vi off n)
    (entr : Entry) : Halts es vi (searchFileMask filepath entr off) (MaskFound off n) := by
  unfold searchFileMask
  apply (halts_setErrno 0).bind
  intro _ _
  apply halts_unit.bind
  intro fs ⟨_, hvi⟩
  rw [hvi]
  exact halts_searchFileMaskLoop filepath hoff.fuel hoff entr

theorem halts_sfsRmdir {n : Nat} (hn : Meets64 vi es n) (dirpath : Buf) :
    Halts es vi (sfsRmdir dirpath) fun _ => True := by
  have hfail : ∀ code, Halts es vi (do setErrno code; pure (-1 : Int)) fun _ => True := by
    intro code
    apply (halts_setErrno code).bind
    intro _ _
    exact halts_pure trivial
  unfold sfsRmdir
  apply halts_uninit.bind
  intro entr _
  apply halts_unit.bind
  intro fs ⟨hes, _⟩
  split
  · exact hfail _
  · apply (halts_searchName hn _ _ _).bind
    intro x _
    dsimp only
    split
    · exact hfail _
    · rename_i hstart
      rw [hes]
      apply (halts_searchFileMask _ hn _).bind
      intro y hy
      split
      · exact hfail _
      · rename_i hsame
        -- The slot found is before the end, so the search goes on from a slot that meets it.
        obtain ⟨j, hj, hoff⟩ := hy.resolve_left (by rw [not_not.1 hsame]; exact hstart)
        have hfrom := hn.advance (Nat.le_of_lt hj)
        rw [show n - j = n - (j + 1) + 1 by omega, ← hoff] at hfrom
        apply (halts_searchFileMask _ hfrom.next _).bind
        intro z _
        split
        · exact hfail _
        · apply (halts_searchName hn _ _ _).bind
          intro w _
          apply (halts_writeEntry _ _).bind
          intro _ _
          apply (halts_freeEntry _ _ _).bind
          intro _ _
          apply halts_update.bind
          intro _ _
          exact halts_pure trivial

/-! ## Listing a directory ends -/

theorem halts_putChar {name : Buf} {i : Nat} (hi : i < name.length) (c : UInt8) :
    Halts es vi (putChar name i c) fun r => r.length = name.length := by
  unfold putChar
  rw [if_pos hi]
  exact halts_pure (List.length_set ..)

theorem halts_readNameLoop (len : Nat) (entr : Entry) (off cur curpos : Nat) (str : Buf)
    (out : Nat) (hlen : out + len ≤ str.length) :
    Halts es vi (readNameLoop len entr off cur curpos str out) fun r =>
      r.2.1.length = str.length ∧ r.2.2.1 + r.1 = out + len ∧ (r.1 = 0 → r.2.2.1 = out) := by
  induction len generalizing entr off cur curpos str out with
  | zero => exact halts_pure ⟨rfl, rfl, fun _ => rfl⟩
  | succ len ih =>
    rw [readNameLoop]
    split
    · exact halts_pure ⟨rfl, rfl, fun h => absurd h (Nat.succ_ne_zero len)⟩
    · rename_i hgo
      have hpos : len ≠ 0 := fun h => hgo (Or.inl h)
      have hrest : ∀ {entr' : Entry} {off' cur' curpos' : Nat} {str' : Buf},
          str'.length = str.length →
          Halts es vi (readNameLoop len entr' off' cur' curpos' str' (out + 1)) fun r =>
            r.2.1.length = str.length ∧ r.2.2.1 + r.1 = out + (len + 1) ∧
              (r.1 = 0 → r.2.2.1 = out) := by
        intro entr' off' cur' curpos' str' hstr
        apply (ih entr' off' cur' curpos' str' (out + 1) (by omega)).mono
        rintro r ⟨h₁, h₂, h₃⟩
        refine ⟨h₁.trans hstr, by omega, fun hz => ?_⟩
        have := h₃ hz
        omega
      apply (halts_putChar (by omega) _).bind
      intro str' hstr
      split
      · apply (halts_readEntry _ _).bind
        intro r _
        exact hrest hstr
      · exact hrest hstr

theorem halts_readName (kind : NameKind) (entr : Entry) (off : Nat) {str : Buf} {len : Nat}
    (hlen : len ≤ str.length) (hpos : 0 < str.length) :
    Halts es vi (readName kind entr off str len) fun r => r.2.1.length = str.length := by
  unfold readName
  apply (halts_readNameLoop len entr off kind.name kind.first str 0 (by omega)).bind
  rintro ⟨len', str', out, entr'⟩ ⟨hstr, hsum, hzero⟩
  dsimp only at hstr hsum hzero ⊢
  split
  · apply (halts_setErrno eNOMEM).bind
    intro _ _
    exact halts_pure hstr
  · have hout : out < str'.length := by
      by_cases hz : len' = 0
      · have := hzero hz
        omega
      · omega
    apply (halts_putChar hout 0).bind
    intro str'' hstr'
    exact halts_pure (hstr'.trans hstr)

/-- The iterator and the buffer after a branch are as long as before it. -/
def SameLen (iter : DirIter) (name : Buf) (r : Branch × DirIter × Buf × Entry) : Prop :=
  r.2.1.len = iter.len ∧ r.2.2.1.length = name.length

theorem halts_readdirBranch (kind : NameKind) (type : IterType) (size startLen add : Nat)
    {iter : DirIter} {name : Buf} (entr : Entry) (off : Nat) (hlen : iter.len ≤ name.length)
    (hpos : 0 < name.length) :
    Halts es vi (readdirBranch kind type size startLen add iter name entr off)
      (SameLen iter name) := by
  unfold readdirBranch
  split
  · exact halts_pure ⟨rfl, rfl⟩
  · apply (halts_readName kind entr off hlen hpos).bind
    intro r hr
    dsimp only
    split
    · exact halts_pure ⟨rfl, hr⟩
    · split
      · exact halts_pure ⟨rfl, hr⟩
      · split <;> exact halts_pure ⟨rfl, hr⟩

theorem halts_readdirEntry (startLen add : Nat) {iter : DirIter} {name : Buf} (entr : Entry)
    (off : Nat) (hlen : iter.len ≤ name.length) (hpos : 0 < name.length) :
    Halts es vi (readdirEntry startLen add iter name entr off) (SameLen iter name) := by
  unfold readdirEntry
  apply (halts_readdirBranch fileKind _ _ startLen add entr off hlen hpos).bind
  rintro ⟨branch, iter', name', entr'⟩ ⟨hiter, hname⟩
  dsimp only at hiter hname ⊢
  cases branch with
  | failed => exact halts_pure ⟨hiter, hname⟩
  | restart => exact halts_pure ⟨hiter, hname⟩
  | found =>
    apply (halts_readdirBranch dirKind .dir 0 startLen add entr' off (by omega) (by omega)).mono
    rintro r ⟨hiter', hname'⟩
    exact ⟨hiter'.trans hiter, hname'.trans hname⟩

theorem halts_readdirLoop {startLen add : Nat} {n fuel off : Nat} (hfuel : n < fuel)
    (hoff : Meets64 vi off n) {iter : DirIter} {name : Buf} (entr : Entry)
    (hlen : iter.len ≤ name.length) (hmask : startLen + add < name.length) :
    Halts es vi (readdirLoop startLen add fuel iter name entr off) fun _ => True := by
  induction n using Nat.strong_induction_on generalizing fuel off iter name entr with
  | _ n ih =>
    cases fuel with
    | zero => omega
    | succ fuel =>
      rw [readdirLoop]
      have hput : Halts es vi (putMask startLen add name) fun r => r.length = name.length := by
        unfold putMask
        split
        · apply (halts_putChar (by omega) _).bind
          intro name' hname
          exact (halts_putChar (by omega) _).mono fun _ h => h.trans hname
        · exact halts_pure rfl
      apply hput.bind
      intro name₁ hname₁
      apply (halts_searchFileMask _ hoff _).bind
      rintro ⟨found, entr₁⟩ hfound
      dsimp only
      split
      · exact halts_pure trivial
      · rename_i hz
        obtain ⟨j, hj, hr⟩ := hfound.resolve_left hz
        have hfrom := hoff.advance (Nat.le_of_lt hj)
        rw [show n - j = n - (j + 1) + 1 by omega, ← hr] at hfrom
        -- Every restart is past the slot that was found.
        have hrestart : ∀ {iter' : DirIter} {name' : Buf} {entr' : Entry}, iter'.len = iter.len →
            name'.length = name₁.length →
            Halts es vi (readdirLoop startLen add fuel iter' name' entr'
              (u64 (found + indexEntrySize))) fun _ => True := by
          intro iter' name' entr' hiter' hname'
          exact ih (n - (j + 1)) (by omega) (by omega) hfrom.next entr' (by omega) (by omega)
        apply (halts_readdirEntry startLen add entr₁ found (by omega) (by omega)).bind
        rintro ⟨branch, iter', name', entr'⟩ ⟨hiter', hname'⟩
        dsimp only at hiter' hname' ⊢
        cases branch with
        | failed => exact halts_pure trivial
        | restart => exact hrestart hiter' hname'
        | found =>
          dsimp only
          split
          · exact hrestart hiter' hname'
          · apply (halts_setErrno 0).bind
            intro _ _
            exact halts_pure trivial

/-- The buffer of the iterator has room for the path in it and a slash. -/
structure DirIter.Room (iter : DirIter) (name : Buf) : Prop where
  len_le : iter.len ≤ name.length
  mask_lt : strlen name + 1 < name.length

theorem halts_sfsReaddir {n : Nat} (hn : Meets64 vi es n) {iter : DirIter} {name : Buf}
    (hroom : iter.Room name) (hcur : iter.curOff = 0) :
    Halts es vi (sfsReaddir iter name) fun _ => True := by
  have hfail : ∀ code, Halts es vi (do
      setErrno code
      pure ((-1 : Int), iter, some name)) fun _ => True := by
    intro code
    apply (halts_setErrno code).bind
    intro _ _
    exact halts_pure trivial
  have hmask := hroom.mask_lt
  unfold sfsReaddir
  apply halts_uninit.bind
  intro entr _
  apply halts_unit.bind
  intro fs ⟨hes, _⟩
  split
  · exact hfail _
  · apply (halts_searchName hn _ _ _).bind
    intro x _
    dsimp only
    split
    · exact hfail _
    · rw [hes]
      have hfuel := hn.fuel
      exact halts_readdirLoop (by omega) hn _ hroom.len_le (by split <;> omega)

end Scans

/-! ## Slots past the end of the device -/

/-- At most a block of the device is cached. -/
def BlockDev.CachesInside (dev : BlockDev) : Prop := ∀ b, dev.bufNum = some b → dev.HasBlock b

theorem BlockDev.SameDevice.cachesInside {dev dev' : BlockDev} (h : dev.SameDevice dev')
    (hc : dev.CachesInside)
    (hnum : ∀ b, dev'.bufNum = some b → dev.bufNum = some b ∨ dev.HasBlock b) :
    dev'.CachesInside := by
  intro b hb
  rw [h.hasBlock]
  exact (hnum b hb).elim (hc b) id

/-- A read of the first block works only inside the device. -/
theorem readFirst_inside {dev : BlockDev} (hc : dev.CachesInside) (bnum : Nat) :
    dev.SameDevice (readFirst dev bnum).2 ∧ (readFirst dev bnum).2.CachesInside ∧
      ((readFirst dev bnum).1 = true → dev.HasBlock bnum) := by
  unfold readFirst
  split
  · rename_i hhit
    exact ⟨⟨rfl, rfl, rfl⟩, hc, fun _ => hc bnum hhit⟩
  · have hsame := dev.read_sameDevice bnum
    have hnum := dev.read_bufNum bnum
    have hblock : (dev.read bnum).1 = true → dev.HasBlock bnum := by
      unfold BlockDev.read BlockDev.HasBlock
      dsimp only
      split
      · exact fun h => Bool.noConfusion h
      · split
        · exact fun h => Bool.noConfusion h
        · rename_i hle
          exact fun _ => Nat.not_lt.1 hle
    split <;> rename_i heq <;> rw [heq] at hsame hnum hblock
    · refine ⟨hsame, hsame.cachesInside hc fun b hb => Or.inl (hnum ▸ hb), ?_⟩
      exact fun h => Bool.noConfusion h
    · have hin := hblock rfl
      refine ⟨⟨hsame.size, hsame.blockSize, hsame.faults⟩, fun b hb => ?_, fun _ => hin⟩
      obtain rfl : bnum = b := Option.some.inj hb
      exact hsame.hasBlock.2 hin

/-- A read inside one block fails and leaves the memory alone, or the block is
on the device. -/
theorem readData_inside {dev : BlockDev} (hc : dev.CachesInside) {off n : Nat}
    (hfits : off % dev.blockSize + n ≤ dev.blockSize) (data : Mem) :
    ∃ ret data' dev', readData dev off data n = (ret, data', dev') ∧ dev.SameDevice dev' ∧
      dev'.CachesInside ∧
      ((ret = minusOne ∧ data' = data) ∨ dev.HasBlock (off / dev.blockSize)) := by
  obtain ⟨hsame, hinside, hblock⟩ := readFirst_inside hc (off / dev.blockSize)
  have hwrap : u64 (off % dev.blockSize + n) ≤ dev.blockSize :=
    Nat.le_trans (Nat.mod_le _ _) hfits
  unfold readData
  dsimp only
  split <;> rename_i dev₁ heq <;> rw [heq] at hsame hinside hblock
  · exact ⟨_, _, _, rfl, hsame, hinside, Or.inl ⟨rfl, rfl⟩⟩
  · rw [if_pos hwrap]
    exact ⟨_, _, _, rfl, hsame, hinside, Or.inr (hblock rfl)⟩

/-- A unit on a device of `size` bytes in blocks of whole slots. -/
structure Sys.Bounded (s : Sys) (size : Nat) : Prop where
  size : s.dev.size = size
  pos : 0 < s.dev.blockSize
  slots : 64 ∣ s.dev.blockSize
  caches : s.dev.CachesInside

section Past

variable {s : Sys} {size : Nat}

theorem Sys.Bounded.of_sameDevice {s' : Sys} (h : s.Bounded size) (hsame : s.dev.SameDevice s'.dev)
    (hc : s'.dev.CachesInside) : s'.Bounded size :=
  ⟨hsame.size.trans h.size, by rw [hsame.blockSize]; exact h.pos,
    by rw [hsame.blockSize]; exact h.slots, hc⟩

theorem Sys.Bounded.fits (h : s.Bounded size) {off n : Nat} (hn : off % 64 + n ≤ 64) :
    off % s.dev.blockSize + n ≤ s.dev.blockSize := by
  obtain ⟨k, hk⟩ := h.slots
  have hpos := h.pos
  have hmod : off % s.dev.blockSize % 64 = off % 64 := Nat.mod_mod_of_dvd off h.slots
  have hlt : off % s.dev.blockSize < s.dev.blockSize := Nat.mod_lt _ hpos
  omega

/-- A slot is read from the device, or the entry stays as it is. -/
theorem Sys.Bounded.readEntry (h : s.Bounded size) (off : Nat) (entr : Entry) :
    ∃ ret entr' s', s.exec (readEntry off entr) = some ((ret, entr'), s') ∧ s'.Bounded size ∧
      (entr' = entr ∨ off % 64 = 0 ∧ off + 64 ≤ size) := by
  unfold Sfs.readEntry
  split
  · exact ⟨_, _, s, rfl, h, Or.inl rfl⟩
  · rename_i hal
    have hal' : off % 64 = 0 := by unfold indexEntrySize at hal; omega
    obtain ⟨ret, data', dev', hread, hsame, hinside, hcase⟩ :=
      readData_inside h.caches (h.fits (show off % 64 + 64 ≤ 64 by omega)) entr
    have hrun : s.exec (readDataM off entr indexEntrySize) = some ((ret, data'), { s with
        dev := dev'
        errno := s.errnoAfter (ret == minusOne) }) := by
      refine (Prog.exec_perform _ _ _).trans ?_
      simp only [Sys.handle]
      rw [show readData s.dev off entr indexEntrySize = _ from hread]
      rfl
    refine ⟨ret, data', _, hrun, h.of_sameDevice hsame hinside, ?_⟩
    rcases hcase with ⟨-, rfl⟩ | hblock
    · exact Or.inl rfl
    · unfold BlockDev.HasBlock at hblock
      rw [h.size] at hblock
      obtain ⟨k, hk⟩ := h.slots
      have hdm := Nat.div_add_mod off s.dev.blockSize
      have hfit := h.fits (show off % 64 + 64 ≤ 64 by omega)
      rw [Nat.mul_comm] at hdm
      exact Or.inr ⟨hal', by omega⟩

/-! ## A mask no name starts with -/

/-- `n` times the letter `a`, and a `b`. -/
def longMask (n : Nat) : Buf := List.replicate n 0x61 ++ [0x62]

theorem longMask_char {n i : Nat} (hi : i < n) : (longMask n).char i = 0x61 := by
  unfold longMask Buf.char
  rw [List.getD_eq_getElem?_getD, List.getElem?_append_left
    (by rw [List.length_replicate]; exact hi),
    List.getElem?_replicate_of_lt hi]
  rfl

theorem longMask_drop {n k : Nat} (hk : k ≤ n) : (longMask n).drop k = longMask (n - k) := by
  unfold longMask
  rw [List.drop_append_of_le_length (by rw [List.length_replicate]; exact hk), List.drop_replicate]

theorem longMask_succ (n : Nat) : longMask (n + 1) = 0x61 :: longMask n := rfl

/-- The comparison with a mask that reaches past the end of the device fails:
there the entry stays as it is, with `a` in every place. -/
theorem matchMask_past (n : Nat) {off cur : Nat} {entr : Entry} (h : s.Bounded size)
    (hcur : cur < 64) (hbefore : ∀ j, j < cur → entr j = 0x61)
    (hslot : off + 64 ≤ size ∨ ∀ j, j < 64 → entr j = 0x61) (hpast : size ≤ off + cur + n)
    (hwrap : off + cur + n < 18446744073709551616) :
    ∃ entr' s', s.exec (matchMask (longMask n) entr off cur (64 - cur)) = some ((0, entr'), s') ∧
      s'.Bounded size := by
  induction n generalizing s off cur entr with
  | zero =>
    have hall : ∀ j, j < 64 → entr j = 0x61 := hslot.resolve_left (by omega)
    have hne : entr cur ≠ 0x62 := by rw [hall cur hcur]; decide
    refine ⟨entr, s, ?_, h⟩
    unfold longMask
    rw [List.replicate_zero, List.nil_append, matchMask,
      if_neg (by rintro (h | h) <;> first | exact absurd h (by decide) | omega), if_pos hne]
    rfl
  | succ n ih =>
    rw [longMask_succ, matchMask,
      if_neg (by rintro (h | h) <;> first | exact absurd h (by decide) | omega)]
    by_cases hch : entr cur = 0x61
    · rw [if_neg (not_not.2 hch)]
      have hbefore' : ∀ j, j < cur + 1 → entr j = 0x61 := by
        intro j hj
        by_cases hlast : j = cur
        · rw [hlast, hch]
        · exact hbefore j (by omega)
      by_cases hend : 64 - cur - 1 = 0
      · -- The slot is all `a`; the next one is on the device, or it is read as this one.
        rw [if_pos hend]
        obtain ⟨ret, entr₁, s₁, hread, h₁, hcase⟩ := h.readEntry (u64 (off + indexEntrySize)) entr
        have hoff : u64 (off + indexEntrySize) = off + 64 :=
          u64_of_lt (by unfold indexEntrySize; omega)
        rw [hoff] at hread hcase ⊢
        obtain ⟨entr', s', hrun, h'⟩ := ih h₁ (show 0 < 64 by decide)
          (fun j hj => absurd hj (Nat.not_lt_zero j))
          (show off + 64 + 64 ≤ size ∨ ∀ j, j < 64 → entr₁ j = 0x61 by
            rcases hcase with rfl | ⟨-, hin⟩
            · exact Or.inr fun j hj => hbefore' j (by omega)
            · exact Or.inl hin) (by omega) (by omega)
        exact ⟨entr', s', (Sys.exec_bind hread _).trans hrun, h'⟩
      · rw [if_neg hend]
        exact ih h (by omega) hbefore' hslot (by omega) (by omega)
    · rw [if_pos hch]
      exact ⟨entr, s, rfl, h⟩

/-- No entry has a name that starts with the mask. -/
theorem checkNameMask_past {kind : NameKind} (hkind : kind = fileKind ∨ kind = dirKind)
    {entr : Entry}
    (h : s.Bounded size) (hsmall : size < 9223372036854775808)
    (htype : entr.get .entryType = kind.type.code) (off : Nat) :
    ∃ entr' s',
      s.exec (checkNameMask kind entr off (longMask (size + 55))) = some ((0, entr'), s') ∧
      s'.Bounded size := by
  have hfirst : kind.first ≤ 54 := by rcases hkind with rfl | rfl <;> decide
  have hhead : entr 0 ≠ 0x61 := by
    intro heq
    rw [Entry.get, fieldAt_entryType, heq] at htype
    rcases hkind with rfl | rfl <;> exact absurd htype (by decide)
  unfold checkNameMask
  rw [if_neg (by rw [longMask_char (by omega)]; decide)]
  rcases matchHead_spec (m := fun i => entr (kind.name + i)) (p := 0) (q := longMask (size + 55))
      (show ∀ i, i < kind.first → entr (kind.name + i) = entr (kind.name + (0 + i)) from
        fun i _ => by rw [Nat.zero_add])
      kind.first 0 (Nat.zero_add _) (fun i hi => absurd hi (Nat.not_lt_zero i))
    with ⟨hmatch, -⟩ | ⟨k, hk, -, hend, hmatch⟩
  · rw [List.drop_zero, Nat.add_zero] at hmatch
    rw [hmatch]
    exact ⟨entr, s, rfl, h⟩
  · rw [List.drop_zero, Nat.add_zero] at hmatch
    rw [hmatch, longMask_drop (by omega)]
    have hkfirst : k = kind.first := by
      apply hend.resolve_right
      rw [longMask_char (by omega)]
      decide
    subst hkfirst
    obtain ⟨ret, entr₁, s₁, hread, h₁, hcase⟩ := h.readEntry (u64 (off + indexEntrySize)) entr
    suffices hcont : ∃ entr' s', s₁.exec (matchMask (longMask (size + 55 - kind.first)) entr₁
        (u64 (off + indexEntrySize)) 0 64) = some ((0, entr'), s') ∧ s'.Bounded size by
      obtain ⟨entr', s', hrun, h'⟩ := hcont
      exact ⟨entr', s', (Sys.exec_bind hread _).trans hrun, h'⟩
    rcases hcase with rfl | ⟨-, hin⟩
    · -- The entry is still the head, whose type byte is no `a`.
      refine ⟨entr₁, s₁, ?_, h₁⟩
      rw [show size + 55 - kind.first = size + 54 - kind.first + 1 by omega, longMask_succ,
        matchMask,
        if_neg (by rintro (h | h) <;> exact absurd h (by decide)), if_pos hhead]
      rfl
    · exact matchMask_past _ h₁ (by decide) (fun j hj => absurd hj (Nat.not_lt_zero j))
        (Or.inl hin) (by omega) (by omega)

/-- A search for the mask, whose cursor never meets the end, does not
return. -/
theorem searchFileMaskLoop_runs_on {stop fuel off : Nat} {entr : Entry} (h : s.Bounded size)
    (hsmall : size < 9223372036854775808) (hoff : off < 18446744073709551616)
    (hnever : ∀ k, k < fuel → u64 (off + 64 * k) ≠ stop) :
    s.exec (searchFileMaskLoop (longMask (size + 55)) stop fuel entr off) = none := by
  induction fuel generalizing s off entr with
  | zero => rfl
  | succ fuel ih =>
    have hhere : off ≠ stop := by
      have hne := hnever 0 (Nat.succ_pos fuel)
      rwa [Nat.mul_zero, Nat.add_zero, u64_of_lt hoff] at hne
    have hnext : ∀ {s' : Sys} {entr' : Entry}, s'.Bounded size →
        s'.exec (searchFileMaskLoop (longMask (size + 55)) stop fuel entr'
          (u64 (off + indexEntrySize))) = none := by
      intro s' entr' h'
      apply ih h' (Nat.mod_lt _ (by decide))
      intro k hk
      have hne := hnever (k + 1) (by omega)
      rw [show u64 (off + 64 * (k + 1)) = u64 (u64 (off + indexEntrySize) + 64 * k) by
        unfold u64 indexEntrySize
        omega] at hne
      exact hne
    obtain ⟨ret, entr₁, s₁, hread, h₁, -⟩ := h.readEntry off entr
    rw [searchFileMaskLoop, if_neg hhere, Sys.exec_bind hread]
    dsimp only
    split
    · rename_i htype
      have hcheck : ∃ entr₂ s₂, s₁.exec (checkFileMask entr₁ off (longMask (size + 55)))
          = some ((0, entr₂), s₂) ∧ s₂.Bounded size := by
        unfold checkFileMask
        by_cases hfile : entr₁.get .entryType = EntryType.fileEntry.code
        · rw [if_pos hfile]
          exact checkNameMask_past (Or.inl rfl) h₁ hsmall hfile off
        · rw [if_neg hfile, if_pos (htype.resolve_left hfile)]
          exact checkNameMask_past (Or.inr rfl) h₁ hsmall (htype.resolve_left hfile) off
      obtain ⟨entr₂, s₂, hcheck, h₂⟩ := hcheck
      rw [Sys.exec_bind hcheck]
      exact hnext h₂
    · exact hnext h₁

theorem searchFileMask_runs_on {off : Nat} (h : s.Bounded size)
    (hsmall : size < 9223372036854775808) (hoff : off < 18446744073709551616)
    (hnever : ¬ ∃ n, Meets64 s.fs.volIdent off n) (entr : Entry) :
    s.exec (searchFileMask (longMask (size + 55)) entr off) = none := by
  have h' : Sys.Bounded { s with errno := 0 } size := ⟨h.size, h.pos, h.slots, h.caches⟩
  apply searchFileMaskLoop_runs_on h' hsmall hoff
  intro k hk heq
  exact hnever ⟨k, hoff, heq, hk⟩

end Past

/-! ## The bounds of the index -/

/-- The `off_t` of a 64-bit pattern. -/
def offT (n : Nat) : Int := if n < 9223372036854775808 then n else n - 18446744073709551616

/-- `entry_start` is not behind `vol_ident`, and whole slots before it. -/
def SfsUnit.InStep (fs : SfsUnit) : Prop :=
  offT fs.entryStart ≤ offT fs.volIdent ∧ (64 : Int) ∣ offT fs.volIdent - offT fs.entryStart

theorem inStep_iff {fs : SfsUnit} (hes : fs.entryStart < 18446744073709551616)
    (hvi : fs.volIdent < 18446744073709551616) (hne : fs.entryStart ≠ 9223372036854775808) :
    fs.InStep ↔ ∃ n, Meets64 fs.volIdent fs.entryStart n := by
  unfold SfsUnit.InStep
  generalize fs.entryStart = es at *
  generalize fs.volIdent = vi at *
  constructor
  · rintro ⟨hle, k, hk⟩
    refine ⟨k.toNat, hes, ?_, ?_⟩
    · unfold u64
      unfold offT at hle hk
      split at hle <;> split at hle <;> omega
    · unfold scanFuel sub64 indexEntrySize
      unfold offT at hle hk
      split at hle <;> split at hle <;> split <;> omega
  · rintro ⟨n, -, hmeets, hfuel⟩
    unfold u64 at hmeets
    unfold scanFuel sub64 indexEntrySize at hfuel
    have hdist : offT vi - offT es = 64 * (n : Int) := by
      unfold offT
      split at hfuel <;> split <;> split <;> omega
    exact ⟨by omega, n, hdist⟩

/-! ## Mounting -/

/-- Commands that read inside one slot, and write nothing. -/
def Cmd.InSlot : Cmd → Prop
  | .readData off _ n => off % 64 + n ≤ 64
  | .writeData .. | .copyBlock .. => False
  | _ => True

section Mounting

variable {s s' : Sys} {size : Nat}

theorem Sys.Bounded.handle (h : s.Bounded size) {e : Cmd} (he : e.InSlot) {r : e.Reply}
    (hrun : Sys.handle e s = some (r, s')) : s'.Bounded size := by
  cases e with
  | readData off data n =>
    obtain ⟨ret, data', dev', hread, hsame, hinside, -⟩ :=
      readData_inside h.caches (h.fits he) data
    simp only [Sys.handle, hread] at hrun
    cases hrun
    exact h.of_sameDevice hsame hinside
  | writeData => exact he.elim
  | copyBlock => exact he.elim
  | blockSize | devSize | unit | uninit => cases hrun; exact h
  | setUnit fs | setErrno code | getTime =>
    cases hrun
    exact ⟨h.size, h.pos, h.slots, h.caches⟩

theorem all_readNum {A : Cmd → Prop} {off n : Nat} (h : ∀ data, A (.readData off data n)) :
    (readNum off n).All A fun _ => True := by
  unfold readNum
  apply Prog.All.bind (Prog.all_perform (P := fun _ => True) (h _) fun _ => trivial)
  intro r _
  dsimp only
  split <;> exact trivial

theorem all_readMbr : readMbr.All Cmd.InSlot fun _ => True := by
  have hnum : ∀ {off n : Nat}, off % 64 + n ≤ 64 → (readNum off n).All Cmd.InSlot fun _ => True :=
    fun h => all_readNum fun _ => h
  unfold readMbr
  refine (hnum (by decide)).bind fun x _ => ?_
  cases x <;> try exact trivial
  refine (hnum (by decide)).bind fun x _ => ?_
  cases x <;> try exact trivial
  refine (hnum (by decide)).bind fun x _ => ?_
  cases x <;> try exact trivial
  refine Prog.All.bind (P := fun _ => True) (Prog.all_perform (show 428 % 64 + 3 ≤ 64 by decide)
    fun _ => trivial) fun r _ => ?_
  dsimp only
  split
  · exact trivial
  refine (hnum (by decide)).bind fun x _ => ?_
  cases x <;> try exact trivial
  refine (hnum (by decide)).bind fun x _ => ?_
  cases x <;> try exact trivial
  refine (hnum (by decide)).bind fun x _ => ?_
  cases x <;> try exact trivial
  refine (hnum (by decide)).bind fun x _ => ?_
  cases x <;> exact trivial

/-- A number that was read is on the device. -/
theorem Sys.Bounded.readNum (h : s.Bounded size) {off n z : Nat} (hn : off % 64 + n ≤ 64)
    (hrun : s.exec (readNum off n) = some (some z, s')) : off < size := by
  obtain ⟨ret, data', dev', hread, -, -, hcase⟩ := readData_inside h.caches (h.fits hn) fun _ => 0
  unfold Sfs.readNum at hrun
  obtain ⟨⟨ret₁, data₁⟩, s₁, hissue, hrest⟩ := (Prog.exec_bind_eq_some _).1 hrun
  replace hissue := (Prog.exec_perform _ _ _).symm.trans hissue
  simp only [Sys.handle, hread] at hissue
  cases hissue
  rcases hcase with ⟨rfl, -⟩ | hblock
  · dsimp only at hrest
    rw [if_pos rfl] at hrest
    cases hrest
  · unfold BlockDev.HasBlock at hblock
    rw [h.size] at hblock
    have hdm := Nat.div_add_mod off s.dev.blockSize
    have hlt := Nat.mod_lt off h.pos
    rw [Nat.mul_comm] at hdm
    omega

theorem read_inside {dev dev' : BlockDev} {b : Nat} (h : dev.read b = (true, dev')) :
    dev.HasBlock b := by
  unfold BlockDev.read at h
  dsimp only at h
  split at h
  · cases h
  · split at h
    · cases h
    · rename_i hle
      exact Nat.not_lt.1 hle

theorem writeBlocks_inside (fuel : Nat) {dev dev' : BlockDev} {data : Mem} {pos n bnum : Nat}
    (hc : dev.CachesInside) (h : writeBlocks fuel dev data pos n bnum = (true, dev')) :
    dev'.CachesInside := by
  induction fuel generalizing dev pos n bnum with
  | zero => cases h
  | succ fuel ih =>
    rw [writeBlocks] at h
    split at h
    · split at h
      · cases h
      · exact ih (by intro b hb; cases hb) h
    · split at h
      · cases h
        exact hc
      · split at h
        · cases h
        · rename_i dev₁ heq
          have hnum := congrArg (fun x => x.2.bufNum) heq
          rw [BlockDev.read_bufNum] at hnum
          have hsame := BlockDev.read_sameDevice { dev with bufNum := some bnum } bnum
          rw [heq] at hsame
          have hsame' := BlockDev.write_sameDevice
            { dev₁ with buf := blit dev₁.buf 0 data pos n } bnum
          have hnum' := BlockDev.write_bufNum { dev₁ with buf := blit dev₁.buf 0 data pos n } bnum
          rw [h] at hsame' hnum'
          intro b hb
          rw [hnum'] at hb
          obtain rfl : bnum = b := Option.some.inj (hnum.trans hb)
          exact hsame'.hasBlock.2 (hsame.hasBlock.2 (read_inside heq))

/-- After a write that worked, a block of the device is cached, or none. -/
theorem writeData_inside {dev dev' : BlockDev} {off n ret : Nat} {data : Mem}
    (h : writeData dev off data n = (ret, dev')) (hret : ret ≠ minusOne) : dev'.CachesInside := by
  unfold writeData at h
  dsimp only at h
  split at h
  · cases h
    exact absurd rfl hret
  · rename_i dev₁ heq
    have hin := read_inside heq
    have hsame := dev.read_sameDevice (off / dev.blockSize)
    rw [heq] at hsame
    split at h
    · split at h
      · cases h
        exact absurd rfl hret
      · cases h
        intro b hb
        cases hb
    · split at h
      · cases h
        exact absurd rfl hret
      · rename_i dev₂ heq₂
        have hsame₂ := congrArg Prod.snd heq₂ ▸ BlockDev.write_sameDevice _ _
        have hnum₂ := congrArg (fun x => x.2.bufNum) heq₂
        rw [BlockDev.write_bufNum] at hnum₂
        have hc₂ : dev₂.CachesInside := by
          intro b hb
          obtain rfl : off / dev.blockSize = b := Option.some.inj (hnum₂.trans hb)
          exact hsame₂.hasBlock.2 (hsame.hasBlock.2 hin)
        split at h
        · cases h
          exact absurd rfl hret
        · rename_i dev₃ heq₃
          cases h
          exact writeBlocks_inside _ hc₂ heq₃

theorem handle_sameDevice {e : Cmd} {r : e.Reply} (h : Sys.handle e s = some (r, s')) :
    s.dev.SameDevice s'.dev := by
  cases e with
  | readData off data n => cases h; exact readData_sameDevice _ _ _ _
  | writeData off data n => cases h; exact writeData_sameDevice _ _ _ _
  | copyBlock src dest n => cases h; exact copyBlock_sameDevice _ _ _ _
  | blockSize | devSize | unit | getTime | uninit | setUnit fs | setErrno code =>
    cases h
    exact ⟨rfl, rfl, rfl⟩

/-- No function changes the geometry of the device. -/
theorem exec_sameDevice {α : Type} {p : SfsM α} {a : α} (h : s.exec p = some (a, s')) :
    s.dev.SameDevice s'.dev :=
  ((Prog.all_true p).exec (h := Sys.handle) (I := fun s' => s.dev.SameDevice s'.dev)
    (fun _ _ _ _ _ he hs => hs.trans (handle_sameDevice he)) ⟨rfl, rfl, rfl⟩ h).1

theorem setUnit_run {fs : SfsUnit} {u : Unit} (h : s.exec (setUnit fs) = some (u, s')) :
    s' = { s with fs := fs } := by
  cases h
  rfl

theorem setErrno_run {code : Nat} {u : Unit} (h : s.exec (setErrno code) = some (u, s')) :
    s' = { s with errno := code } := by
  cases h
  rfl

theorem writeDataM_inside {off n ret : Nat} {data : Mem}
    (hrun : s.exec (writeDataM off data n) = some (ret, s')) (hret : ret ≠ minusOne) :
    s'.dev.CachesInside ∧ s'.fs = s.fs := by
  replace hrun := (Prog.exec_perform _ _ _).symm.trans hrun
  obtain ⟨⟨ret', dev'⟩, hwrite⟩ : ∃ x, writeData s.dev off data n = x := ⟨_, rfl⟩
  simp only [Sys.handle, hwrite] at hrun
  cases hrun
  exact ⟨writeData_inside hwrite hret, rfl⟩

/-- The end of a mount reads the type of the third slot, and ends with a
write. -/
theorem mountIndex_bounds {fs : SfsUnit} (h : s.Bounded size)
    (hrun : s.exec (mountIndex fs) = some (0, s')) :
    s'.Bounded size ∧ s'.fs.entryStart = fs.entryStart ∧ s'.fs.volIdent = fs.volIdent ∧
      u64 (fs.entryStart + 128) < size := by
  have hfail : ∀ {code : Nat} {s₁ s₂ : Sys} {P : Prop},
      s₁.exec (do setErrno code; pure (-1 : Int)) = some (0, s₂) → P := by
    intro code s₁ s₂ P hrun
    cases hrun
  unfold mountIndex at hrun
  obtain ⟨zeroFolder, s₁, hfolder, hrun⟩ := (Prog.exec_bind_eq_some _).1 hrun
  cases zeroFolder with
  | none => exact hfail hrun
  | some zeroFolder =>
  have hin := h.readNum (by omega) hfolder
  have hsame := exec_sameDevice hfolder
  dsimp only at hrun
  split at hrun
  · exact hfail hrun
  obtain ⟨entr, s₂, huninit, hrun⟩ := (Prog.exec_bind_eq_some _).1 hrun
  obtain ⟨⟨delBegin, entr', data'⟩, s₃, hparse, hrun⟩ := (Prog.exec_bind_eq_some _).1 hrun
  obtain ⟨_, s₄, hset, hrun⟩ := (Prog.exec_bind_eq_some _).1 hrun
  obtain ⟨zeroName, s₅, hname, hrun⟩ := (Prog.exec_bind_eq_some _).1 hrun
  cases zeroName with
  | none => exact hfail hrun
  | some zeroName =>
  dsimp only at hrun
  split at hrun
  · exact hfail hrun
  obtain ⟨time, s₆, htime, hrun⟩ := (Prog.exec_bind_eq_some _).1 hrun
  cases time with
  | none => exact hfail hrun
  | some time =>
  obtain ⟨_, s₇, hset', hrun⟩ := (Prog.exec_bind_eq_some _).1 hrun
  obtain ⟨ret, s₈, hwrite, hrun⟩ := (Prog.exec_bind_eq_some _).1 hrun
  have hsame' := (((((hsame.trans (exec_sameDevice huninit)).trans (exec_sameDevice hparse)).trans
    (exec_sameDevice hset)).trans (exec_sameDevice hname)).trans (exec_sameDevice htime)).trans
    ((exec_sameDevice hset').trans (exec_sameDevice hwrite))
  by_cases hret : ret = minusOne
  · rw [if_pos hret] at hrun
    exact hfail hrun
  · rw [if_neg hret] at hrun
    obtain ⟨_, s₉, herrno, hrun⟩ := (Prog.exec_bind_eq_some _).1 hrun
    obtain ⟨hinside, hfs⟩ := writeDataM_inside hwrite hret
    rw [setUnit_run hset'] at hfs
    have hend : s' = { s₈ with errno := 0 } := by
      rw [← setErrno_run herrno]
      cases hrun
      rfl
    have h₈ := h.of_sameDevice hsame' hinside
    have hes := congrArg SfsUnit.entryStart hfs
    have hvi := congrArg SfsUnit.volIdent hfs
    rw [hend]
    exact ⟨⟨h₈.size, h₈.pos, h₈.slots, h₈.caches⟩, hes, hvi, hin⟩

theorem sub64_lt {a b : Nat} (ha : a < 18446744073709551616) :
    sub64 a b < 18446744073709551616 := by
  unfold sub64
  split <;> omega

/-- What a mount that succeeds has found of the bounds of the index. -/
theorem sfsInit_bounds (h : s.Bounded size) (hrun : s.exec sfsInit = some (0, s')) :
    s'.Bounded size ∧ s'.fs.entryStart < 18446744073709551616 ∧
      s'.fs.volIdent < 18446744073709551616 ∧ u64 (s'.fs.entryStart + 128) < size := by
  unfold sfsInit at hrun
  obtain ⟨_, s₁, herrno, hrun⟩ := (Prog.exec_bind_eq_some _).1 hrun
  obtain ⟨mbr, s₂, hmbr, hrun⟩ := (Prog.exec_bind_eq_some _).1 hrun
  have h₁ : s₁.Bounded size := h.handle (e := .setErrno eIO) trivial herrno
  have h₂ : s₂.Bounded size :=
    (all_readMbr.exec (h := Sys.handle) (I := fun s => s.Bounded size)
      (fun _ _ _ _ he hs h => h.handle he hs) h₁ hmbr).1
  cases mbr with
  | none => cases hrun
  | some mbr =>
  obtain ⟨_, s₃, herrno, hrun⟩ := (Prog.exec_bind_eq_some _).1 hrun
  have h₃ : s₃.Bounded size := h₂.handle (e := .setErrno 0) trivial herrno
  split at hrun
  · cases hrun
  split at hrun
  · cases hrun
  obtain ⟨fs, s₄, hunit, hrun⟩ := (Prog.exec_bind_eq_some _).1 hrun
  have h₄ : s₄.Bounded size := h₃.handle (e := .unit) trivial hunit
  obtain ⟨_, s₅, hset, hrun⟩ := (Prog.exec_bind_eq_some _).1 hrun
  have h₅ : s₅.Bounded size := h₄.handle (e := .setUnit _) trivial hset
  obtain ⟨h', hes, hvi, hin⟩ := mountIndex_bounds h₅ hrun
  rw [← hes] at hin
  refine ⟨h', ?_, ?_, hin⟩
  · rw [hes]
    exact Nat.mod_lt _ (by decide)
  · rw [hvi]
    exact sub64_lt (Nat.mod_lt _ (by decide))

end Mounting

/-- Every scan of the index from `entry_start` on ends: `entry_parse` with every
callback that does, the searches for a mask, and with them `sfs_rmdir` and the
first call of `sfs_readdir`. -/
structure Sys.ScansEnd (s : Sys) : Prop where
  entryParse : ∀ {δ : Type} {callback : Callback δ},
    (∀ entr off data, Halts s.fs.entryStart s.fs.volIdent (callback entr off data) fun _ => True) →
    ∀ entr data, ∃ r, s.exec (Sfs.entryParse entr callback data) = some r
  searchFileMask : ∀ path entr,
    ∃ r, s.exec (Sfs.searchFileMask path entr s.fs.entryStart) = some r
  sfsRmdir : ∀ path, ∃ r, s.exec (Sfs.sfsRmdir path) = some r
  sfsReaddir : ∀ {iter : DirIter} {name : Buf}, iter.Room name → iter.curOff = 0 →
    ∃ r, s.exec (Sfs.sfsReaddir iter name) = some r

theorem Halts.returns {α : Type} {s : Sys} {p : SfsM α} {P : α → Prop}
    (h : Halts s.fs.entryStart s.fs.volIdent p P) : ∃ r, s.exec p = some r := by
  obtain ⟨a, s', hrun, -⟩ := h s rfl rfl
  exact ⟨(a, s'), hrun⟩

theorem scansEnd_of_meets {s : Sys} {n : Nat} (hn : Meets64 s.fs.volIdent s.fs.entryStart n) :
    s.ScansEnd where
  entryParse hcall entr data := (halts_entryParse hcall hn entr data).returns
  searchFileMask path entr := (halts_searchFileMask path hn entr).returns
  sfsRmdir path := (halts_sfsRmdir hn path).returns
  sfsReaddir hroom hcur := (halts_sfsReaddir hn hroom hcur).returns

/-- After a mount that succeeded, whatever the device holds and whichever of its
accesses fail, every scan of the index ends if and only if `vol_ident` is a
number of whole slots behind `entry_start`. -/
theorem scans_end_iff {s s' : Sys} (hpos : 0 < s.dev.blockSize) (hslots : 64 ∣ s.dev.blockSize)
    (hsmall : s.dev.size < 9223372036854775808) (hcache : s.dev.bufNum = none)
    (hinit : s.exec sfsInit = some (0, s')) : s'.ScansEnd ↔ s'.fs.InStep := by
  have h : s.Bounded s.dev.size := ⟨rfl, hpos, hslots, by
    intro b hb
    rw [hcache] at hb
    cases hb⟩
  obtain ⟨h', hes, hvi, hin⟩ := sfsInit_bounds h hinit
  rw [inStep_iff hes hvi (by unfold u64 at hin; omega)]
  constructor
  · intro hends
    by_contra hnever
    obtain ⟨r, hrun⟩ := hends.searchFileMask (longMask (s.dev.size + 55)) fun _ => 0
    rw [searchFileMask_runs_on h' hsmall hes hnever] at hrun
    cases hrun
  · rintro ⟨n, hn⟩
    exact scansEnd_of_meets hn

/-- The small disk of zeros, formatted, with another `index_area_size` in its
MBR.  The checksum does not cover that field. -/
def formattedDisk (indexAreaSize : Nat) : Option Sys := do
  let opts ← mksfsOptions 4096 none none [0] 7
  let (_, s) ← blankDisk.exec (imageCreate opts)
  pure { blankDisk with
    dev := { blankDisk.dev with data := putLE s.dev.data mbrIndexAreaSize 8 indexAreaSize } }

/-- What a mount of it finds. -/
theorem mount_formattedDisk {n es vi : Nat}
    (h : ((formattedDisk n).bind fun s => (s.exec sfsInit).map fun x =>
      [x.1.natAbs, x.2.fs.entryStart, x.2.fs.volIdent]) = some [0, es, vi]) :
    ∃ s s', formattedDisk n = some s ∧ s.dev.blockSize = 512 ∧ s.dev.size = 4096 ∧
      s.dev.bufNum = none ∧ s.exec sfsInit = some (0, s') ∧ s'.fs.entryStart = es ∧
      s'.fs.volIdent = vi := by
  obtain ⟨s, hs, h⟩ := Option.bind_eq_some_iff.1 h
  obtain ⟨⟨ret, s'⟩, hinit, hview⟩ := Option.map_eq_some_iff.1 h
  simp only [List.cons.injEq, and_true] at hview
  obtain ⟨hret, hes, hvi⟩ := hview
  have hdev : s.dev.blockSize = 512 ∧ s.dev.size = 4096 ∧ s.dev.bufNum = none := by
    unfold formattedDisk at hs
    obtain ⟨opts, -, hmade⟩ := Option.bind_eq_some_iff.1 hs
    obtain ⟨x, -, hmade⟩ := Option.bind_eq_some_iff.1 hmade
    cases hmade
    exact ⟨rfl, rfl, rfl⟩
  rw [Int.natAbs_eq_zero.1 hret] at hinit
  exact ⟨s, s', hs, hdev.1, hdev.2.1, hdev.2.2, hinit, hes, hvi⟩

theorem mount_formattedDisk_512 :
    ((formattedDisk 512).bind fun s => (s.exec sfsInit).map fun x =>
      [x.1.natAbs, x.2.fs.entryStart, x.2.fs.volIdent]) = some [0, 3584, 4032] := by
  decide +kernel

theorem mount_formattedDisk_508 :
    ((formattedDisk 508).bind fun s => (s.exec sfsInit).map fun x =>
      [x.1.natAbs, x.2.fs.entryStart, x.2.fs.volIdent]) = some [0, 3584, 4028] := by
  decide +kernel

theorem scans_end_formattedDisk :
    ∃ s s', formattedDisk 512 = some s ∧ s.exec sfsInit = some (0, s') ∧ s'.ScansEnd := by
  obtain ⟨s, s', hs, hbs, hsize, hnum, hinit, hes, hvi⟩ :=
    mount_formattedDisk mount_formattedDisk_512
  refine ⟨s, s', hs, hinit, (scans_end_iff ?_ ?_ ?_ hnum hinit).2 ?_⟩
  · rw [hbs]
    decide
  · rw [hbs]
    decide
  · rw [hsize]
    decide
  · rw [SfsUnit.InStep, hes, hvi]
    decide

/-- With an `index_area_size` of 508 the image is mounted, and the search for a
mask never ends. -/
theorem scan_runs_on_formattedDisk :
    ∃ s s', formattedDisk 508 = some s ∧ s.exec sfsInit = some (0, s') ∧
      s'.exec (searchFileMask (longMask 4151) (fun _ => 0) s'.fs.entryStart) = none ∧
      ¬ s'.ScansEnd := by
  obtain ⟨s, s', hs, hbs, hsize, hnum, hinit, hes, hvi⟩ :=
    mount_formattedDisk mount_formattedDisk_508
  have h : s.Bounded 4096 := ⟨hsize, by rw [hbs]; decide, by rw [hbs]; decide, by
    intro b hb
    rw [hnum] at hb
    cases hb⟩
  obtain ⟨h', hlt, hlt', -⟩ := sfsInit_bounds h hinit
  have hnever : ¬ ∃ n, Meets64 s'.fs.volIdent s'.fs.entryStart n := by
    rw [← inStep_iff hlt hlt' (by rw [hes]; decide), SfsUnit.InStep, hes, hvi]
    decide
  have hrun := searchFileMask_runs_on h' (by decide) hlt hnever fun _ => 0
  refine ⟨s, s', hs, hinit, hrun, fun hends => ?_⟩
  obtain ⟨r, hr⟩ := hends.searchFileMask (longMask 4151) fun _ => 0
  rw [hrun] at hr
  cases hr

end Sfs
