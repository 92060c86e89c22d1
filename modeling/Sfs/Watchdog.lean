import Sfs.Index
import Sfs.Read
import Sfs.ScanEnds
import Sfs.Session

/-!
# Watching over the list of free extents

Each of the four walks of the list counts down a watchdog from `N + 1`, where
`N` is the number of slots of the index.  A walk that is stopped because the
watchdog is used up leaves it at its maximum, which the test `watchdog == 0`
does not catch, and a link to a slot that cannot be read is caught by two of
the four walks only.

* `Vol.Reaches` is a list that ends, counted in nodes;
* `Sys.Detects` says that every list with more than `N` nodes is caught, before
  anything is written;
* `detects_iff` says when: the list has at most `N + 1` nodes.
-/

namespace Sfs

open Lib

/-! ## Lists that end -/

namespace Vol

/-- A slot of the device. -/
def Readable (v : Vol) (off : Nat) : Prop := off % 64 = 0 ∧ off + 64 ≤ v.size

instance (v : Vol) (off : Nat) : Decidable (v.Readable off) :=
  inferInstanceAs (Decidable (_ ∧ _))

/-- The list from `off` on has `k` nodes, all of which can be read. -/
def Reaches (v : Vol) : Nat → Nat → Prop
  | off, 0 => off = 0
  | off, k + 1 => off ≠ 0 ∧ v.Readable off ∧ v.Reaches (v.get off .nextDel) k

/-- The list from `off` on ends within `n` nodes. -/
def EndsWithin (v : Vol) (off n : Nat) : Prop := ∃ k, k ≤ n ∧ v.Reaches off k

/-- The walk of `del_file_list_add` finds both neighbours of the extent within
its count. -/
def FindsBoth (v : Vol) (start stop : Nat) : Nat → Nat → Nat → Nat → Prop
  | 0, _, _, _ => False
  | n + 1, off, prev, next =>
    (off ≠ 0 ∧ v.Readable off) ∧
      if u64 (v.get off .endBlock + 1) = start then
        v.FindsBoth start stop n (v.get off .nextDel) off next
      else
        let next := if u64 (v.get off .startBlock + minusOne) = stop then off else next
        prev ≠ 0 ∧ next ≠ 0 ∨ v.FindsBoth start stop n (v.get off .nextDel) prev next

/-- `get_size` of the node at an offset. -/
def nodeBytes (v : Vol) (off : Nat) : Nat :=
  u64 (v.blockSize * u64 (sub64 (v.get off .endBlock) (v.get off .startBlock) + 1))

/-- The walk of `try_expand` finds a node behind block `stop` with at least
`delta` bytes within its count. -/
def FindsDonor (v : Vol) (stop delta : Nat) : Nat → Nat → Prop
  | 0, _ => False
  | n + 1, off =>
    (off ≠ 0 ∧ v.Readable off) ∧ (v.get off .startBlock = u64 (stop + 1) ∧
        delta ≤ v.nodeBytes off ∨
      v.FindsDonor stop delta n (v.get off .nextDel))

variable {v : Vol} {off k n : Nat}

theorem extentSize_load (v : Vol) (off : Nat) (entr : Entry) :
    extentSize v.blockSize (v.load off entr) = v.nodeBytes off := by
  simp only [extentSize, nodeBytes, get_load]

theorem endsWithin_zero (v : Vol) : v.EndsWithin 0 n := ⟨0, Nat.zero_le n, rfl⟩

theorem EndsWithin.cons (h0 : off ≠ 0) (hr : v.Readable off)
    (h : v.EndsWithin (v.get off .nextDel) n) : v.EndsWithin off (n + 1) := by
  obtain ⟨k, hk, hreach⟩ := h
  exact ⟨k + 1, Nat.succ_le_succ hk, h0, hr, hreach⟩

/-- A node that links to itself is on no list that ends. -/
theorem not_reaches_of_self (h0 : off ≠ 0) (hself : v.get off .nextDel = off) :
    ¬ v.Reaches off k := by
  induction k with
  | zero => exact h0
  | succ k ih =>
    rintro ⟨-, -, h⟩
    rw [hself] at h
    exact ih h

theorem not_readable_minusOne (v : Vol) : ¬ v.Readable minusOne := by
  intro h
  exact absurd h.1 (by decide)

theorem Readable.ne_minusOne (h : v.Readable off) : off ≠ minusOne := by
  rintro rfl
  exact v.not_readable_minusOne h

end Vol

/-! ## Running without writing -/

/-- The commands of a run that must not write. -/
def Sys.readOnly : Prog.Handler Cmd Cmd.Reply Sys
  | .writeData .., _ => none
  | .copyBlock .., _ => none
  | e, s => Sys.handle e s

/-- The function returns `a` without a write to the device. -/
def Sys.Returns {α : Type} (s : Sys) (p : SfsM α) (ok : α → Prop) : Prop :=
  p.Ends Sys.readOnly s fun a _ => ok a

/-- The device works, its cache agrees with it, and it holds the volume. -/
structure Sys.Reads (s : Sys) (v : Vol) : Prop where
  quiet : s.dev.Quiet
  coherent : s.dev.Coherent
  blockSize : s.dev.blockSize = v.blockSize
  size : s.dev.size = v.size
  data : s.dev.data = v.data

/-- A run that writes nothing is a run. -/
theorem readOnly_run {α : Type} {p : SfsM α} {s s' : Sys} {a : α}
    (h : p.exec Sys.readOnly s = some (a, s')) : s.exec p = some (a, s') := by
  obtain ⟨s'', hrun, rfl⟩ := Prog.exec_simulates (h := Sys.handle) (k := Sys.readOnly)
    (S := fun s t => s = t) (fun e s t r t' hst he => by
      subst hst
      refine ⟨t', ?_, rfl⟩
      cases e <;> first | exact he | cases he) rfl h
  exact hrun

/-- On every device that holds the volume the function returns `a`, writes
nothing, and keeps the unit. -/
def Finds {α : Type} (v : Vol) (p : SfsM α) (a : α) : Prop :=
  ∀ s : Sys, s.Reads v → ∃ s', p.exec Sys.readOnly s = some (a, s') ∧ s'.Reads v ∧ s'.fs = s.fs

/-- On every device that holds the volume the function tries to write, or
returns a value that satisfies `ok`. -/
def Tries {α : Type} (v : Vol) (p : SfsM α) (ok : α → Prop) : Prop :=
  ∀ s : Sys, s.Reads v → p.exec Sys.readOnly s = none ∨
    ∃ a s', p.exec Sys.readOnly s = some (a, s') ∧ s'.Reads v ∧ ok a

section Rules

variable {α β : Type} {v : Vol} {off : Nat} {entr : Entry}

theorem finds_pure (a : α) : Finds v (pure a) a := fun s hs => ⟨s, rfl, hs, rfl⟩

theorem Finds.bind {p : SfsM α} {f : α → SfsM β} {a : α} {b : β} (hp : Finds v p a)
    (hf : Finds v (f a) b) : Finds v (p >>= f) b := by
  intro s hs
  obtain ⟨s₁, hrun, hs₁, hfs⟩ := hp s hs
  obtain ⟨s₂, hrun₂, hs₂, hfs₂⟩ := hf s₁ hs₁
  exact ⟨s₂, (Prog.exec_bind_eq_some _).2 ⟨a, s₁, hrun, hrun₂⟩, hs₂, hfs₂.trans hfs⟩

theorem Finds.tries {p : SfsM α} {a : α} {P : α → Prop} (hp : Finds v p a) (ha : P a) :
    Tries v p P := by
  intro s hs
  obtain ⟨s', hrun, hs', -⟩ := hp s hs
  exact Or.inr ⟨a, s', hrun, hs', ha⟩

theorem tries_pure {a : α} {ok : α → Prop} (ha : ok a) : Tries v (pure a) ok :=
  (finds_pure a).tries ha

theorem Tries.bind {p : SfsM α} {f : α → SfsM β} {P : α → Prop} {ok : β → Prop} (hp : Tries v p P)
    (hf : ∀ a, P a → Tries v (f a) ok) : Tries v (p >>= f) ok := by
  intro s hs
  rcases hp s hs with hnone | ⟨a, s₁, hrun, hs₁, ha⟩
  · refine Or.inl ?_
    rw [Prog.exec_bind, hnone]
    rfl
  · rcases hf a ha s₁ hs₁ with hnone | ⟨b, s₂, hrun₂, hs₂, hb⟩
    · refine Or.inl ?_
      rw [Prog.exec_bind, hrun]
      exact hnone
    · exact Or.inr ⟨b, s₂, (Prog.exec_bind_eq_some _).2 ⟨a, s₁, hrun, hrun₂⟩, hs₂, hb⟩

theorem finds_setErrno (code : Nat) : Finds v (setErrno code) () :=
  fun s hs =>
    ⟨{ s with errno := code }, rfl, ⟨hs.quiet, hs.coherent, hs.blockSize, hs.size, hs.data⟩,
    rfl⟩

/-- The entry at an offset, read. -/
theorem finds_readEntry (hv : v.Sized) (hoff : v.Readable off) :
    Finds v (readEntry off entr) (64, v.load off entr) := by
  intro s hs
  have hsized : s.vol.Sized := hv.congr hs.blockSize hs.size
  obtain ⟨hal, hle⟩ := hoff
  have hblock : s.dev.HasBlock (off / s.dev.blockSize) :=
    hsized.hasBlock (show off < s.dev.size by rw [hs.size]; omega)
  have hfits : off % s.dev.blockSize + 64 ≤ s.dev.blockSize := hsized.fits (by omega)
  have hsmall : s.dev.size < 9223372036854775808 := hsized.small
  have hbsize : s.dev.blockSize ≤ s.dev.size := Nat.le_of_add_left_le hblock
  obtain ⟨dev, hread, hsame, -, hcoh⟩ :=
    readData_of_fits hs.quiet hs.coherent (by omega) hblock hfits entr
  refine ⟨{ s with dev := dev }, ?_,
    ⟨hsame.quiet hs.quiet, hcoh, hsame.blockSize.trans hs.blockSize,
    hsame.size.trans hs.size, hsame.data.trans hs.data⟩, rfl⟩
  unfold readEntry
  rw [if_neg (by unfold indexEntrySize; omega)]
  refine (Prog.exec_perform _ _ _).trans ?_
  simp only [Sys.readOnly, Sys.handle]
  rw [show readData s.dev off entr indexEntrySize = _ from hread, Vol.load, hs.data]
  rfl

/-- An entry that cannot be read stays as it is. -/
theorem finds_readEntry_not (hv : v.Sized) (hoff : ¬ v.Readable off) :
    Finds v (readEntry off entr) (minusOne, entr) := by
  intro s hs
  unfold readEntry
  by_cases hal : off % indexEntrySize = 0
  · rw [if_neg (not_not.2 hal)]
    have hsized : s.vol.Sized := hv.congr hs.blockSize hs.size
    have hblock : ¬ s.dev.HasBlock (off / s.dev.blockSize) := by
      intro hb
      have hfits : off % s.dev.blockSize + 64 ≤ s.dev.blockSize :=
        hsized.fits (by unfold indexEntrySize at hal; omega)
      have hdm := Nat.div_add_mod off s.dev.blockSize
      unfold BlockDev.HasBlock at hb
      rw [hs.size] at hb
      rw [Nat.mul_comm] at hdm
      exact hoff ⟨hal, by omega⟩
    have hmiss : s.dev.bufNum ≠ some (off / s.dev.blockSize) := fun hb =>
      hblock (hs.coherent _ hb).1
    have hread : readData s.dev off entr indexEntrySize
        = (minusOne, entr, { s.dev with accesses := s.dev.accesses + 1 }) := by
      unfold readData readFirst
      dsimp only
      rw [if_neg hmiss, BlockDev.read_of_not_hasBlock (hs.quiet.works 0) hblock]
    refine ⟨{ s with
      dev := { s.dev with accesses := s.dev.accesses + 1 }
      errno := eIO }, ?_, ⟨hs.quiet, hs.coherent, hs.blockSize, hs.size, hs.data⟩, rfl⟩
    refine (Prog.exec_perform _ _ _).trans ?_
    simp only [Sys.readOnly, Sys.handle, hread, Sys.errnoAfter]
    rfl
  · rw [if_pos hal]
    exact ⟨s, rfl, hs, rfl⟩

/-- An entry is written, or its offset is none of a slot. -/
theorem tries_writeEntry (off : Nat) (entr : Entry) :
    Tries v (writeEntry off entr) fun _ => off % 64 ≠ 0 := by
  intro s hs
  unfold writeEntry
  by_cases hal : off % indexEntrySize = 0
  · rw [if_neg (not_not.2 hal)]
    exact Or.inl (Prog.exec_perform _ _ _)
  · rw [if_pos hal]
    exact Or.inr ⟨_, s, rfl, hs, hal⟩

end Rules

/-! ## The walks of a list that ends with the count -/

section Walks

variable {v : Vol} {entr : Entry}

theorem finds_delNext {off : Nat} (hv : v.Sized) (h0 : v.get off .nextDel ≠ 0)
    (hnext : v.Readable (v.get off .nextDel)) :
    Finds v (delNext (v.load off entr))
      (v.get off .nextDel, v.load (v.get off .nextDel) (v.load off entr)) := by
  unfold Sfs.delNext
  dsimp only
  rw [Vol.get_load, if_neg h0]
  apply (finds_readEntry hv hnext).bind
  dsimp only
  rw [if_neg (by decide)]
  exact finds_pure _

/-- A link to a slot that cannot be read leaves the entry as it is. -/
theorem finds_delNext_not (hv : v.Sized) (h0 : entr.get .nextDel ≠ 0)
    (hnext : ¬ v.Readable (entr.get .nextDel)) : Finds v (delNext entr) (minusOne, entr) := by
  unfold Sfs.delNext
  dsimp only
  rw [if_neg h0]
  apply (finds_readEntry_not hv hnext).bind
  dsimp only
  rw [if_pos rfl]
  exact finds_pure _

/-- The step to the next node of a list that ends. -/
theorem Vol.Reaches.delNext {off k : Nat} (hv : v.Sized) (h : v.Reaches off (k + 1))
    (entr : Entry) :
    ∃ entr', Finds v (delNext (v.load off entr)) (v.get off .nextDel, entr') ∧
      (v.get off .nextDel ≠ 0 → ∃ e, entr' = v.load (v.get off .nextDel) e) := by
  cases k with
  | zero =>
    have hend : v.get off .nextDel = 0 := h.2.2
    refine ⟨v.load off entr, ?_, fun hne => absurd hend hne⟩
    unfold Sfs.delNext
    dsimp only
    rw [Vol.get_load, if_pos hend, hend]
    exact finds_pure _
  | succ k =>
    obtain ⟨hne, hread, -⟩ := h.2.2
    exact ⟨_, finds_delNext hv hne hread, fun _ => ⟨v.load off entr, rfl⟩⟩

theorem Vol.Reaches.next_ne_minusOne {off k : Nat} (h : v.Reaches off (k + 1)) :
    v.get off .nextDel ≠ minusOne := by
  cases k with
  | zero =>
    rw [show v.get off .nextDel = 0 from h.2.2]
    decide
  | succ k => exact h.2.2.2.1.ne_minusOne

theorem finds_scanLoop {off w : Nat} (hv : v.Sized) (h : v.Reaches off w) (bs size : Nat)
    (entr : Entry) : ∃ size' entr',
      Finds v (scanDelFileListLoop bs w off size entr) (some (0, size'), entr') := by
  induction w generalizing off size entr with
  | zero =>
    rw [scanDelFileListLoop, if_pos (show off = 0 from h)]
    exact ⟨_, _, finds_pure _⟩
  | succ w ih =>
    obtain ⟨entr₁, hnext, -⟩ := h.delNext hv entr
    obtain ⟨size', entr', hrest⟩ := ih h.2.2 (u64 (size + extentSize bs (v.load off entr))) entr₁
    refine ⟨size', entr', ?_⟩
    rw [scanDelFileListLoop, if_neg h.1]
    apply (finds_readEntry hv h.2.1).bind
    dsimp only
    rw [if_neg (by decide)]
    apply hnext.bind
    dsimp only
    rw [if_neg h.next_ne_minusOne]
    exact hrest

theorem finds_addLoop {off w start stop prev next : Nat} (hv : v.Sized) (h : v.Reaches off w)
    (hentr : off ≠ 0 → ∃ e, entr = v.load off e)
    (hno : ¬ v.FindsBoth start stop w off prev next) : ∃ prev' next' entr',
      Finds v (delFileListAddLoop start stop w off prev next entr)
        (some (0, prev', next'), entr') := by
  induction w generalizing off prev next entr with
  | zero =>
    rw [delFileListAddLoop, if_pos (show off = 0 from h)]
    exact ⟨_, _, _, finds_pure _⟩
  | succ w ih =>
    obtain ⟨e, rfl⟩ := hentr h.1
    obtain ⟨entr₁, hnext, hload⟩ := h.delNext hv e
    rw [delFileListAddLoop, if_neg h.1]
    rw [Vol.FindsBoth, not_and] at hno
    replace hno := hno ⟨h.1, h.2.1⟩
    rw [Vol.get_load, Vol.get_load]
    split at hno
    · rename_i hprev
      obtain ⟨prev', next', entr', hrest⟩ := ih h.2.2 hload hno
      refine ⟨prev', next', entr', ?_⟩
      rw [if_pos hprev]
      exact hnext.bind hrest
    · rename_i hprev
      obtain ⟨prev', next', entr', hrest⟩ := ih h.2.2 hload
        (show ¬ v.FindsBoth start stop w (v.next off) prev
          (if u64 (v.get off .startBlock + minusOne) = stop then off else next) from
          fun hrest => hno (Or.inr hrest))
      refine ⟨prev', next', entr', ?_⟩
      rw [if_neg hprev]
      apply hnext.bind
      dsimp only
      rw [if_neg h.next_ne_minusOne, if_neg fun hboth => hno (Or.inl hboth)]
      exact hrest

theorem finds_allocLoop {off w : Nat} (hv : v.Sized) (h : v.Reaches off w)
    (bs curMax curMaxEntr : Nat)
    (entr : Entry) : ∃ curMax' curMaxEntr' entr',
      Finds v (delFileListAllocLoop bs w off curMax curMaxEntr entr)
        (some (0, curMax', curMaxEntr'), entr') := by
  induction w generalizing off curMax curMaxEntr entr with
  | zero =>
    rw [delFileListAllocLoop, if_pos (show off = 0 from h)]
    exact ⟨_, _, _, finds_pure _⟩
  | succ w ih =>
    obtain ⟨entr₁, hnext, -⟩ := h.delNext hv entr
    obtain ⟨curMax', curMaxEntr', entr', hrest⟩ := ih h.2.2
      (if curMax < extentSize bs (v.load off entr) then extentSize bs (v.load off entr) else curMax)
      (if curMax < extentSize bs (v.load off entr) then off else curMaxEntr) entr₁
    refine ⟨curMax', curMaxEntr', entr', ?_⟩
    rw [delFileListAllocLoop, if_neg h.1]
    apply (finds_readEntry hv h.2.1).bind
    dsimp only
    rw [if_neg (by decide)]
    exact hnext.bind hrest

theorem finds_expandLoop {off w stop delta : Nat} (hv : v.Sized) (h : v.Reaches off w)
    (hno : ¬ v.FindsDonor stop delta w off) (entr : Entry) : ∃ entr',
      Finds v (tryExpandLoop v.blockSize stop delta w off entr) (some (0, 0), entr') := by
  induction w generalizing off entr with
  | zero =>
    rw [tryExpandLoop, if_pos (show off = 0 from h), show off = 0 from h]
    exact ⟨_, finds_pure _⟩
  | succ w ih =>
    rw [Vol.FindsDonor, not_and, not_or] at hno
    obtain ⟨hhere, hlater⟩ := hno ⟨h.1, h.2.1⟩
    obtain ⟨entr₁, hnext, -⟩ := h.delNext hv entr
    obtain ⟨entr', hrest⟩ := ih h.2.2 hlater entr₁
    refine ⟨entr', ?_⟩
    rw [tryExpandLoop, if_neg h.1]
    apply (finds_readEntry hv h.2.1).bind
    dsimp only
    rw [if_neg (by decide), Vol.get_load, Vol.extentSize_load, if_neg hhere]
    exact hnext.bind hrest

end Walks

/-! ## How much a walk reads -/

/-- A command that reads the device. -/
def Cmd.IsRead : Cmd → Prop
  | .readData .. => True
  | _ => False

section Reads

variable {off w : Nat} {entr : Entry}

theorem atMost_readEntry (off : Nat) (entr : Entry) :
    (readEntry off entr).AtMost Cmd.IsRead 1 := by
  unfold readEntry
  split
  · exact Prog.atMost_pure _
  · exact Prog.atMost_perform _

theorem atMost_setErrno (code n : Nat) : (setErrno code).AtMost Cmd.IsRead n :=
  Prog.atMost_perform_of_not id

theorem atMost_delNext (entr : Entry) : (delNext entr).AtMost Cmd.IsRead 1 := by
  unfold delNext
  dsimp only
  split
  · exact Prog.atMost_pure _
  · refine (atMost_readEntry _ _).bind (n := 0) (fun ⟨ret, entr'⟩ => ?_) (by omega)
    dsimp only
    split <;> exact Prog.atMost_pure _

theorem atMost_fail {α : Type} (code : Nat) (a : α) :
    (do setErrno code; pure a : SfsM α).AtMost Cmd.IsRead w :=
  (atMost_setErrno code 0).bind (n := 0) (fun _ => Prog.atMost_pure a) (Nat.zero_le w)

theorem atMost_scanLoop (bs w off size : Nat) (entr : Entry) :
    (scanDelFileListLoop bs w off size entr).AtMost Cmd.IsRead (2 * w) := by
  induction w generalizing off size entr with
  | zero => exact Prog.atMost_pure _
  | succ w ih =>
    rw [scanDelFileListLoop]
    split
    · exact Prog.atMost_pure _
    · refine (atMost_readEntry off entr).bind (n := 2 * w + 1) (fun x => ?_) (by omega)
      obtain ⟨ret, entr'⟩ := x
      dsimp only
      split
      · exact atMost_fail eIO _
      · refine (atMost_delNext entr').bind (n := 2 * w) (fun x => ?_) (by omega)
        obtain ⟨off', entr''⟩ := x
        dsimp only
        split
        · exact atMost_fail eFAULT _
        · exact ih _ _ _

theorem atMost_addLoop (start stop w off prev next : Nat) (entr : Entry) :
    (delFileListAddLoop start stop w off prev next entr).AtMost Cmd.IsRead w := by
  induction w generalizing off prev next entr with
  | zero => exact Prog.atMost_pure _
  | succ w ih =>
    rw [delFileListAddLoop]
    split
    · exact Prog.atMost_pure _
    · split
      · exact (atMost_delNext entr).bind (n := w) (fun x => ih _ _ _ _) (by omega)
      · refine (atMost_delNext entr).bind (n := w) (fun x => ?_) (by omega)
        obtain ⟨off', entr''⟩ := x
        dsimp only
        split
        · exact Prog.atMost_pure _
        · generalize (if u64 (entr.get .startBlock + minusOne) = stop then off else next) = next'
          split
          · exact Prog.atMost_pure _
          · exact ih _ _ _ _

theorem atMost_allocLoop (bs w off curMax curMaxEntr : Nat) (entr : Entry) :
    (delFileListAllocLoop bs w off curMax curMaxEntr entr).AtMost Cmd.IsRead (2 * w) := by
  induction w generalizing off curMax curMaxEntr entr with
  | zero => exact Prog.atMost_pure _
  | succ w ih =>
    rw [delFileListAllocLoop]
    split
    · exact Prog.atMost_pure _
    · refine (atMost_readEntry off entr).bind (n := 2 * w + 1) (fun x => ?_) (by omega)
      obtain ⟨ret, entr'⟩ := x
      dsimp only
      split
      · exact Prog.atMost_pure _
      · exact (atMost_delNext entr').bind (n := 2 * w) (fun x => ih _ _ _ _) (by omega)

theorem atMost_expandLoop (bs stop delta w off : Nat) (entr : Entry) :
    (tryExpandLoop bs stop delta w off entr).AtMost Cmd.IsRead (2 * w) := by
  induction w generalizing off entr with
  | zero => exact Prog.atMost_pure _
  | succ w ih =>
    rw [tryExpandLoop]
    split
    · exact Prog.atMost_pure _
    · refine (atMost_readEntry off entr).bind (n := 2 * w + 1) (fun x => ?_) (by omega)
      obtain ⟨ret, entr'⟩ := x
      dsimp only
      split
      · exact Prog.atMost_pure _
      · split
        · exact Prog.atMost_pure _
        · exact (atMost_delNext entr').bind (n := 2 * w) (fun x => ih _ _) (by omega)

end Reads

/-! ## Detection -/

/-- The number of slots of the index. -/
def SfsUnit.slots (fs : SfsUnit) : Nat := (fs.volIdent - fs.entryStart) / indexEntrySize

theorem watchdogStart_eq {fs : SfsUnit} (h : fs.entryStart ≤ fs.volIdent) :
    watchdogStart fs = fs.slots + 1 := by
  rw [watchdogStart, if_pos h, SfsUnit.slots, Nat.add_comm]

/-- What `read_entry` leaves in the entry. -/
def Vol.fetch (v : Vol) (off : Nat) (entr : Entry) : Entry :=
  if v.Readable off then v.load off entr else entr

/-- The walks examine at most `N + 1` nodes, that is they read each of them and
its successor, and a list that does not end within `N` nodes makes a function
return its error value without a write, unless its walk finds what it looks
for. -/
structure Sys.Detects (s : Sys) : Prop where
  scanReads :
    ∀ bs size entr, (scanDelFileListLoop bs (watchdogStart s.fs) s.fs.delBegin size entr).AtMost
    Cmd.IsRead (2 * (s.fs.slots + 1))
  addReads : ∀ start stop entr,
    (delFileListAddLoop start stop (watchdogStart s.fs) s.fs.delBegin 0 0 entr).AtMost
      Cmd.IsRead (s.fs.slots + 1)
  allocReads : ∀ bs entr,
    (delFileListAllocLoop bs (watchdogStart s.fs) s.fs.delBegin 0 s.fs.delBegin entr).AtMost
      Cmd.IsRead (2 * (s.fs.slots + 1))
  expandReads : ∀ bs stop delta entr,
    (tryExpandLoop bs stop delta (watchdogStart s.fs) s.fs.delBegin entr).AtMost
      Cmd.IsRead (2 * (s.fs.slots + 1))
  scan : ¬ s.vol.EndsWithin s.fs.delBegin s.fs.slots → ∀ entr,
    s.Returns (scanDelFileList entr) fun r => r.1 = minusOne
  add : ¬ s.vol.EndsWithin s.fs.delBegin s.fs.slots → ∀ entr start stop, ¬ (start = 0 ∧ stop = 0) →
    ¬ s.vol.FindsBoth start stop (s.fs.slots + 1) s.fs.delBegin 0 0 →
    s.Returns (delFileListAdd entr start stop) fun r => r.1 = -1
  alloc : ¬ s.vol.EndsWithin s.fs.delBegin s.fs.slots → ∀ entr size,
    s.Returns (delFileListAlloc entr size) fun r => r.1 = 0
  expand : ¬ s.vol.EndsWithin s.fs.delBegin s.fs.slots → ∀ entr file newSize,
    ¬ s.vol.FindsDonor ((s.vol.fetch file entr).get .endBlock)
      (sub64 (realSize s.dev.blockSize newSize)
        (realSize s.dev.blockSize ((s.vol.fetch file entr).get .size)))
      (s.fs.slots + 1) s.fs.delBegin →
    s.Returns (tryExpand file newSize entr) fun r => r.1 = -1

section

variable {s : Sys} {v : Vol}

/-- What a function that finds a value returns. -/
theorem Finds.returns {α : Type} {p : SfsM α} {a : α} {ok : α → Prop} (hp : Finds v p a)
    (hs : s.Reads v) (ha : ok a) : s.Returns p ok := by
  obtain ⟨s', hrun, -, -⟩ := hp s hs
  exact ⟨a, s', hrun, ha⟩

/-- A function that writes, or returns something else, is no detection. -/
theorem Tries.not_returns {α : Type} {p : SfsM α} {P Q : α → Prop} (hp : Tries v p P)
    (hs : s.Reads v) (hno : ∀ a, P a → ¬ Q a) : ¬ s.Returns p Q := by
  rintro ⟨a, s', hrun, ha⟩
  rcases hp s hs with hnone | ⟨a₁, s₁, hrun₁, -, hok⟩
  · rw [hnone] at hrun
    cases hrun
  · rw [hrun] at hrun₁
    cases hrun₁
    exact hno a hok ha

end

theorem Sys.returns_unit {α : Type} {s : Sys} {f : SfsUnit → SfsM α} {ok : α → Prop} :
    s.Returns (do f (← unit)) ok ↔ s.Returns (f s.fs) ok := Iff.rfl

theorem Sys.returns_blockSize {α : Type} {s : Sys} {f : Nat → SfsM α} {ok : α → Prop} :
    s.Returns (do f (← blockSize)) ok ↔ s.Returns (f s.dev.blockSize) ok := Iff.rfl

/-! ### A list that ends with the count -/

section Exact

variable {s : Sys} {v : Vol}

theorem returns_scan (hv : v.Sized) (hs : s.Reads v) (hle : s.fs.entryStart ≤ s.fs.volIdent)
    (h : v.Reaches s.fs.delBegin (s.fs.slots + 1)) (entr : Entry) :
    s.Returns (scanDelFileList entr) fun r => r.1 = minusOne := by
  obtain ⟨size, entr', hloop⟩ := finds_scanLoop hv h s.dev.blockSize 0 entr
  rw [← watchdogStart_eq hle] at hloop
  unfold scanDelFileList
  apply Sys.returns_unit.2
  apply Sys.returns_blockSize.2
  refine Finds.returns (a := (minusOne, entr')) ?_ hs rfl
  apply hloop.bind
  dsimp only
  rw [if_pos rfl]
  exact (finds_setErrno _).bind (finds_pure _)

theorem returns_add (hv : v.Sized) (hs : s.Reads v) (hle : s.fs.entryStart ≤ s.fs.volIdent)
    (h : v.Reaches s.fs.delBegin (s.fs.slots + 1)) (entr : Entry) {start stop : Nat}
    (hsome : ¬ (start = 0 ∧ stop = 0))
    (hno : ¬ v.FindsBoth start stop (s.fs.slots + 1) s.fs.delBegin 0 0) :
    s.Returns (delFileListAdd entr start stop) fun r => r.1 = -1 := by
  obtain ⟨prev, next, entr', hloop⟩ := finds_addLoop hv h
    (fun _ => ⟨entr, rfl⟩) hno
  rw [← watchdogStart_eq hle] at hloop
  unfold delFileListAdd
  apply Sys.returns_unit.2
  rw [if_neg hsome]
  refine Finds.returns (a := (-1, entr')) ?_ hs rfl
  apply (finds_readEntry hv h.2.1).bind
  apply hloop.bind
  dsimp only
  rw [if_pos rfl]
  exact finds_pure _

theorem returns_alloc (hv : v.Sized) (hs : s.Reads v) (hle : s.fs.entryStart ≤ s.fs.volIdent)
    (h : v.Reaches s.fs.delBegin (s.fs.slots + 1)) (entr : Entry) (size : Nat) :
    s.Returns (delFileListAlloc entr size) fun r => r.1 = 0 := by
  obtain ⟨curMax, curMaxEntr, entr', hloop⟩ :=
    finds_allocLoop hv h s.dev.blockSize 0 s.fs.delBegin entr
  rw [← watchdogStart_eq hle] at hloop
  unfold delFileListAlloc
  apply Sys.returns_unit.2
  apply Sys.returns_blockSize.2
  refine Finds.returns (a := (0, entr')) ?_ hs rfl
  apply hloop.bind
  dsimp only
  rw [if_pos rfl]
  exact finds_pure _

/-- `read_entry`, whatever the offset. -/
theorem finds_fetch (hv : v.Sized) (off : Nat) (entr : Entry) :
    ∃ ret, Finds v (readEntry off entr) (ret, v.fetch off entr) := by
  unfold Vol.fetch
  split
  · rename_i hoff
    exact ⟨64, finds_readEntry hv hoff⟩
  · rename_i hoff
    exact ⟨minusOne, finds_readEntry_not hv hoff⟩

theorem returns_expand (hv : v.Sized) (hs : s.Reads v) (hle : s.fs.entryStart ≤ s.fs.volIdent)
    (h : v.Reaches s.fs.delBegin (s.fs.slots + 1)) (entr : Entry) (file newSize : Nat)
    (hno : ¬ v.FindsDonor ((v.fetch file entr).get .endBlock)
      (sub64 (realSize s.dev.blockSize newSize)
        (realSize s.dev.blockSize ((v.fetch file entr).get .size)))
      (s.fs.slots + 1) s.fs.delBegin) :
    s.Returns (tryExpand file newSize entr) fun r => r.1 = -1 := by
  obtain ⟨ret, hfetch⟩ := finds_fetch hv file entr
  obtain ⟨entr', hloop⟩ := finds_expandLoop hv h hno (v.fetch file entr)
  rw [← watchdogStart_eq hle, ← hs.blockSize] at hloop
  unfold tryExpand
  apply Sys.returns_unit.2
  apply Sys.returns_blockSize.2
  refine Finds.returns (a := (-1, entr')) ?_ hs rfl
  apply hfetch.bind
  apply hloop.bind
  dsimp only
  rw [if_pos rfl]
  exact finds_pure _

end Exact

/-! ### A longer list -/

section Longer

variable {v : Vol}

/-- Past a link that cannot be read the walk of `del_file_list_alloc` goes
round on the last entry it read. -/
theorem finds_allocLoop_stale (hv : v.Sized) (w : Nat) {bs curMax curMaxEntr : Nat} {entr : Entry}
    (h0 : entr.get .nextDel ≠ 0) (hnext : ¬ v.Readable (entr.get .nextDel))
    (hmax : extentSize bs entr ≤ curMax) :
    Finds v (delFileListAllocLoop bs w minusOne curMax curMaxEntr entr)
      (some (minusOne, curMax, curMaxEntr), entr) := by
  induction w with
  | zero =>
    rw [delFileListAllocLoop, if_neg (by decide)]
    exact finds_pure _
  | succ w ih =>
    rw [delFileListAllocLoop, if_neg (by decide)]
    apply (finds_readEntry_not hv v.not_readable_minusOne).bind
    dsimp only
    rw [if_neg (by decide), if_neg (Nat.not_lt.2 hmax), if_neg (Nat.not_lt.2 hmax)]
    apply (finds_delNext_not hv h0 hnext).bind
    exact ih

/-- The walk of `del_file_list_alloc` over a list that does not end within its
count ends with the watchdog at its maximum, and with a node. -/
theorem finds_allocLoop_longer (hv : v.Sized) (w : Nat) {off curMaxEntr : Nat}
    (h : ¬ v.EndsWithin off w) (hoff : v.Readable off) (hmax : v.Readable curMaxEntr)
    (bs curMax : Nat) (entr : Entry) : ∃ curMax' curMaxEntr' entr',
      Finds v (delFileListAllocLoop bs w off curMax curMaxEntr entr)
        (some (minusOne, curMax', curMaxEntr'), entr') ∧ v.Readable curMaxEntr' := by
  have h0 : off ≠ 0 := by
    rintro rfl
    exact h v.endsWithin_zero
  induction w generalizing off curMax curMaxEntr entr with
  | zero =>
    refine ⟨curMax, curMaxEntr, entr, ?_, hmax⟩
    rw [delFileListAllocLoop, if_neg h0]
    exact finds_pure _
  | succ w ih =>
    rw [delFileListAllocLoop, if_neg h0]
    have hlonger : ¬ v.EndsWithin (v.get off .nextDel) w := fun hw => h (hw.cons h0 hoff)
    have hnext0 : v.get off .nextDel ≠ 0 := by
      intro hend
      rw [hend] at hlonger
      exact hlonger v.endsWithin_zero
    have hmax₁ :
        v.Readable (if curMax < extentSize bs (v.load off entr) then off else curMaxEntr) := by
      split
      · exact hoff
      · exact hmax
    by_cases hnext : v.Readable (v.get off .nextDel)
    · obtain ⟨curMax', curMaxEntr', entr', hrest, hread⟩ := ih hlonger hnext hmax₁ _ _ hnext0
      refine ⟨curMax', curMaxEntr', entr', ?_, hread⟩
      apply (finds_readEntry hv hoff).bind
      dsimp only
      rw [if_neg (by decide)]
      apply (finds_delNext hv hnext0 hnext).bind
      exact hrest
    · refine ⟨if curMax < extentSize bs (v.load off entr) then extentSize bs (v.load off entr)
        else curMax, _, v.load off entr, ?_, hmax₁⟩
      apply (finds_readEntry hv hoff).bind
      dsimp only
      rw [if_neg (by decide)]
      apply (finds_delNext_not hv (by rwa [Vol.get_load]) (by rwa [Vol.get_load])).bind
      apply finds_allocLoop_stale hv w (by rwa [Vol.get_load]) (by rwa [Vol.get_load])
      split
      · exact le_rfl
      · exact Nat.not_lt.1 ‹_›

theorem tries_readEntry (hv : v.Sized) (off : Nat) (entr : Entry) :
    Tries v (readEntry off entr) fun _ => True := by
  obtain ⟨ret, hfetch⟩ := finds_fetch hv off entr
  exact hfetch.tries trivial

theorem tries_patchEntry (hv : v.Sized) (off : Nat) (f : Field) (x : Nat) (entr : Entry) :
    Tries v (patchEntry off f x entr) fun _ => True := by
  unfold patchEntry
  apply (tries_readEntry hv off entr).bind
  rintro ⟨ret, entr⟩ -
  apply (tries_writeEntry off _).bind
  rintro ret -
  exact tries_pure trivial

theorem tries_setDelBegin (off : Nat) : Tries v (setDelBegin off) fun _ => True :=
  fun s hs => Or.inr ⟨(), { s with fs := { s.fs with delBegin := off } }, rfl,
    ⟨hs.quiet, hs.coherent, hs.blockSize, hs.size, hs.data⟩, trivial⟩

theorem tries_relinkPrev (hv : v.Sized) (prev next : Nat) (entr : Entry) :
    Tries v (relinkPrev prev next entr) fun _ => True := by
  unfold relinkPrev
  split
  · exact tries_patchEntry hv prev .nextDel next entr
  · apply (tries_setDelBegin next).bind
    rintro _ -
    exact tries_pure trivial

theorem tries_relinkNext (hv : v.Sized) (prev next : Nat) (entr : Entry) :
    Tries v (relinkNext prev next entr) fun _ => True := by
  unfold relinkNext
  split
  · exact tries_patchEntry hv next .prevDel prev entr
  · exact tries_pure trivial

theorem realSize_zero (bs : Nat) : realSize bs 0 = 0 := by
  unfold realSize
  rw [Nat.zero_div, Nat.zero_mod, if_pos rfl]
  rfl

theorem tries_freeOneEntry (hv : v.Sized) (off : Nat) (entr : Entry) :
    Tries v (freeOneEntry entr off) fun _ => ¬ v.Readable off := by
  unfold freeOneEntry
  by_cases hoff : v.Readable off
  · apply ((finds_readEntry hv hoff).tries (P := fun x => x.1 = 64) rfl).bind
    rintro ⟨ret, entr⟩ rfl
    dsimp only
    rw [if_neg (by decide)]
    apply (tries_writeEntry off _).bind
    rintro ret hal
    exact absurd hoff.1 hal
  · apply ((finds_readEntry_not hv hoff).tries (P := fun x => x.1 = minusOne) rfl).bind
    rintro ⟨ret, entr⟩ rfl
    dsimp only
    rw [if_pos rfl]
    exact tries_pure hoff

/-- The removal of a node writes. -/
theorem tries_remove (hv : v.Sized) (off : Nat) (entr : Entry) :
    Tries v (delFileListRemove off entr) fun _ => ¬ v.Readable off := by
  unfold delFileListRemove
  apply (tries_readEntry hv off entr).bind
  rintro ⟨ret, entr⟩ -
  dsimp only
  apply (tries_relinkPrev hv _ _ entr).bind
  rintro entr -
  apply (tries_relinkNext hv _ _ entr).bind
  rintro entr -
  apply Tries.bind (P := fun _ => ¬ v.Readable off)
  · rw [freeEntry]
    apply (tries_freeOneEntry hv off entr).bind
    rintro ⟨ret, entr⟩ hoff
    dsimp only
    split <;> exact tries_pure hoff
  · rintro ⟨ret, entr⟩ hoff
    exact tries_pure hoff

end Longer

section

variable {s : Sys} {v : Vol}

/-- With a size of zero `del_file_list_alloc` takes the largest node it found
for an extent of zero bytes, and removes or changes it. -/
theorem not_returns_alloc_longer (hv : v.Sized) (hs : s.Reads v)
    (hle : s.fs.entryStart ≤ s.fs.volIdent) (hbegin : v.Readable s.fs.delBegin)
    (h : ¬ v.EndsWithin s.fs.delBegin (s.fs.slots + 1)) (entr : Entry) :
    ¬ s.Returns (delFileListAlloc entr 0) fun r => r.1 = 0 := by
  obtain ⟨curMax, curMaxEntr, entr', hloop, hread⟩ :=
    finds_allocLoop_longer hv _ h hbegin hbegin s.dev.blockSize 0 entr
  rw [← watchdogStart_eq hle] at hloop
  unfold delFileListAlloc
  rw [Sys.returns_unit, Sys.returns_blockSize]
  refine Tries.not_returns (P := fun _ => False) ?_ hs fun a ha => ha.elim
  apply (hloop.tries (P := fun x => x = (some (minusOne, curMax, curMaxEntr), entr')) rfl).bind
  rintro _ rfl
  dsimp only
  rw [if_neg (by decide), realSize_zero, if_neg (Nat.not_lt_zero _)]
  split
  · apply ((finds_readEntry hv hread).tries (P := fun _ => True) trivial).bind
    rintro ⟨ret, entr⟩ -
    apply (tries_remove hv curMaxEntr entr).bind
    rintro entr hno
    exact absurd hread hno
  · apply ((finds_readEntry hv hread).tries (P := fun _ => True) trivial).bind
    rintro ⟨ret, entr⟩ -
    apply (tries_writeEntry _ _).bind
    rintro ret hal
    exact absurd hread.1 hal

/-- An entry that links to no slot. -/
def astray : Entry := fun _ => 1

/-- A head of the list that cannot be read is taken for a node, with what the
entry held before. -/
theorem not_returns_alloc_astray (hv : v.Sized) (hs : s.Reads v)
    (hle : s.fs.entryStart ≤ s.fs.volIdent) (h0 : s.fs.delBegin ≠ 0)
    (hbegin : ¬ v.Readable s.fs.delBegin) :
    ¬ s.Returns (delFileListAlloc astray 0) fun r => r.1 = 0 := by
  have hnext : astray.get .nextDel % 64 = 1 := by decide
  have hnext0 : astray.get .nextDel ≠ 0 := by omega
  have hnextNot : ¬ v.Readable (astray.get .nextDel) := fun hr => by
    have := hr.1
    omega
  have hloop : Finds v (delFileListAllocLoop s.dev.blockSize (s.fs.slots + 1) s.fs.delBegin 0
      s.fs.delBegin astray)
      (some (minusOne, if 0 < extentSize s.dev.blockSize astray then
        extentSize s.dev.blockSize astray else 0, s.fs.delBegin), astray) := by
    rw [delFileListAllocLoop, if_neg h0]
    apply (finds_readEntry_not hv hbegin).bind
    dsimp only
    rw [if_neg (by decide), ite_self]
    apply (finds_delNext_not hv hnext0 hnextNot).bind
    apply finds_allocLoop_stale hv s.fs.slots hnext0 hnextNot
    split <;> omega
  generalize (if 0 < extentSize s.dev.blockSize astray then _ else 0) = curMax at hloop
  rw [← watchdogStart_eq hle] at hloop
  unfold delFileListAlloc
  rw [Sys.returns_unit, Sys.returns_blockSize]
  refine Tries.not_returns (P := fun x => x.1 = astray.get .startBlock) ?_ hs fun a ha h => ?_
  · apply (hloop.tries (P := fun x => x = _) rfl).bind
    rintro _ rfl
    dsimp only
    rw [if_neg (by decide), realSize_zero, if_neg (Nat.not_lt_zero _)]
    split
    · apply ((finds_readEntry_not hv hbegin).tries (P := fun x => x.2 = astray) rfl).bind
      rintro ⟨ret, entr⟩ rfl
      apply (tries_remove hv _ _).bind
      rintro entr -
      exact tries_pure rfl
    · apply ((finds_readEntry_not hv hbegin).tries (P := fun x => x.2 = astray) rfl).bind
      rintro ⟨ret, entr⟩ rfl
      apply (tries_writeEntry _ _).bind
      rintro ret -
      exact tries_pure rfl
  · rw [ha] at h
    exact absurd h (by decide)

end

/-- The walks catch every list that is too long exactly when there is none of
more than `N + 1` nodes: with that many the watchdog is used up on the last
node, and with more it is not zero. -/
theorem detects_iff {s : Sys} (hq : s.dev.Quiet) (hc : s.dev.Coherent) (hv : s.vol.Sized)
    (hle : s.fs.entryStart ≤ s.fs.volIdent) :
    s.Detects ↔ s.vol.EndsWithin s.fs.delBegin (s.fs.slots + 1) := by
  have hs : s.Reads s.vol := ⟨hq, hc, rfl, rfl, rfl⟩
  constructor
  · intro hdet
    by_contra h
    have hlong : ¬ s.vol.EndsWithin s.fs.delBegin s.fs.slots :=
      fun ⟨k, hk, hreach⟩ => h ⟨k, Nat.le_succ_of_le hk, hreach⟩
    by_cases hbegin : s.vol.Readable s.fs.delBegin
    · exact not_returns_alloc_longer hv hs hle hbegin h _ (hdet.alloc hlong (fun _ => 0) 0)
    · refine not_returns_alloc_astray hv hs hle (fun h0 => h ?_) hbegin (hdet.alloc hlong astray 0)
      rw [h0]
      exact s.vol.endsWithin_zero
  · rintro ⟨k, hk, hreach⟩
    have hexact : ¬ s.vol.EndsWithin s.fs.delBegin s.fs.slots →
        s.vol.Reaches s.fs.delBegin (s.fs.slots + 1) := by
      intro hlong
      obtain rfl | hlt := Nat.eq_or_lt_of_le hk
      · exact hreach
      · exact absurd ⟨k, Nat.le_of_lt_succ hlt, hreach⟩ hlong
    constructor
    · intro bs size entr
      rw [watchdogStart_eq hle]
      exact atMost_scanLoop bs _ _ size entr
    · intro start stop entr
      rw [watchdogStart_eq hle]
      exact atMost_addLoop start stop _ _ 0 0 entr
    · intro bs entr
      rw [watchdogStart_eq hle]
      exact atMost_allocLoop bs _ _ 0 _ entr
    · intro bs stop delta entr
      rw [watchdogStart_eq hle]
      exact atMost_expandLoop bs stop delta _ _ entr
    · intro hlong entr
      exact returns_scan hv hs hle (hexact hlong) entr
    · intro hlong entr start stop hsome hno
      exact returns_add hv hs hle (hexact hlong) entr hsome hno
    · intro hlong entr size
      exact returns_alloc hv hs hle (hexact hlong) entr size
    · intro hlong entr file newSize hno
      exact returns_expand hv hs hle (hexact hlong) entr file newSize hno

/-- The list of a well-formed volume ends after its nodes. -/
theorem FreeList.reaches {v : Vol} {nodes : List Nat} {lo hi : Nat} (hf : FreeList v nodes)
    (hg : Geometry v lo hi) : v.Reaches v.fs.delBegin nodes.length := by
  have hread : ∀ off, off ∈ nodes → v.Readable off := fun off hoff =>
    ⟨(hf.slot off hoff).aligned, hg.slot_le (hf.slot off hoff)⟩
  have hchain := hf.chain
  generalize v.fs.delBegin = first, 0 = before at hchain
  clear hf
  induction nodes generalizing first before with
  | nil => exact hchain
  | cons off l ih =>
    obtain ⟨rfl, h0, -, hrest⟩ := hchain
    exact ⟨h0, hread _ List.mem_cons_self, ih
      (fun o ho => hread o (List.mem_cons_of_mem _ ho)) _ _ hrest⟩

theorem detects_blankMounted : ∃ s, FreshlyMounted blankOpts 512 s ∧ s.Detects := by
  obtain ⟨s, hfresh⟩ := exists_blankMounted
  obtain ⟨hq, hc, hv⟩ := hfresh.fresh
  have hle := Nat.le_of_lt hv.geometry.nonempty
  refine ⟨s, hfresh, (detects_iff hq hc hv.sized hle).2 ⟨1, ?_, ?_⟩⟩
  · exact Nat.succ_le_succ (Nat.zero_le _)
  · exact hv.freeSpace.toFreeList.reaches hv.geometry

/-- The small disk, mounted, where the node of the list links to itself. -/
def loopedDisk : Option Sys := blankMounted.map fun s =>
  { s with
    dev := { s.dev with
      data := setFieldAt s.dev.data s.fs.delBegin .nextDel s.fs.delBegin
      bufNum := none } }

/-- The eight nodes that the scan of the looped list counts have three kilobytes
each. -/
theorem scan_loopedDisk :
    (loopedDisk.bind fun s => (s.exec (scanDelFileList fun _ => 0)).map fun x =>
    [x.1.1, s.vol.get s.fs.delBegin .nextDel, s.fs.delBegin]) = some [24576, 3648, 3648] := by
  decide +kernel

theorem watchdog_overruns :
    ∃ s, loopedDisk = some s ∧ ¬ s.vol.EndsWithin s.fs.delBegin s.fs.slots ∧
      (∃ entr s', s.exec (scanDelFileList fun _ => 0) = some ((24576, entr), s')) ∧
        ¬ s.Detects := by
  obtain ⟨s, hs, h⟩ := Option.bind_eq_some_iff.1 scan_loopedDisk
  obtain ⟨⟨⟨ret, entr⟩, s'⟩, hrun, hview⟩ := Option.map_eq_some_iff.1 h
  simp only [List.cons.injEq, and_true] at hview
  obtain ⟨rfl, hself, hbegin⟩ := hview
  have hlong : ¬ s.vol.EndsWithin s.fs.delBegin s.fs.slots := by
    rintro ⟨k, -, hreach⟩
    rw [hbegin] at hself hreach
    exact Vol.not_reaches_of_self (by decide) hself hreach
  refine ⟨s, hs, hlong, ⟨entr, s', hrun⟩, fun hdet => ?_⟩
  obtain ⟨⟨ret, entr'⟩, s'', hrun', hret⟩ := hdet.scan hlong fun _ => 0
  rw [readOnly_run hrun'] at hrun
  cases hrun
  exact absurd (show 24576 = minusOne from hret) (by decide)

end Sfs
