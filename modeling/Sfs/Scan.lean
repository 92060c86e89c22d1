import Sfs.Index

/-!
# Scans of the index

`gives_entryParse` is the rule for `entry_parse`: an invariant of the callback
over the slots before the current one, and what holds of the slot the callback
accepts.  `gives_allocEntry` is its first use: `alloc_entry` finds the first run
of unused slots that is long enough.
-/

namespace Sfs

open Lib

section EntryParse

variable {t : Img} {δ : Type} {callback : Callback δ} {I : Nat → δ → Prop}
  {F : Nat → Entry → δ → Prop}

/-- What a callback does at a slot: accept it, or carry the invariant on. -/
def CallbackSpec (v : Vol) (callback : Callback δ) (I : Nat → δ → Prop)
    (F : Nat → Entry → δ → Prop) : Prop :=
  ∀ off, v.Slot off → ∀ entr data, I off data → ∀ t : Img, t.vol = v →
    Gives (callback (v.load off entr) off data) t fun r t' =>
      t'.vol = v ∧ ((r.1 ≠ 0 ∧ F off r.2.1 r.2.2) ∨ (r.1 = 0 ∧ I (off + 64) r.2.2))

theorem gives_entryParseLoop (hg : Area t.vol)
    (hcall : CallbackSpec t.vol callback I F) (fuel start : Nat)
    (hstart : t.vol.fs.entryStart ≤ start ∧ start ≤ t.vol.fs.volIdent ∧ start % 64 = 0)
    (hfuel : (t.vol.fs.volIdent - start) / 64 < fuel) (entr : Entry) (data : δ)
    (hinv : I start data) :
    Gives (entryParseLoop callback t.vol.fs.volIdent fuel start entr data) t fun r t' =>
      t'.vol = t.vol ∧ ((r.1 = 0 ∧ I t.vol.fs.volIdent r.2.2) ∨
        (t.vol.Slot r.1 ∧ F r.1 r.2.1 r.2.2)) := by
  induction fuel generalizing t start entr data with
  | zero => omega
  | succ fuel ih =>
    rw [entryParseLoop]
    by_cases hend : start = t.vol.fs.volIdent
    · rw [if_pos hend, gives_pure]
      exact ⟨rfl, Or.inl ⟨rfl, hend ▸ hinv⟩⟩
    · have hal := hg.aligned
      have hslot : t.vol.Slot start := ⟨hstart.1, by omega, hstart.2.2⟩
      rw [if_neg hend, gives_readEntry hg.sized hstart.1 hstart.2.2 (hg.slot_le hslot)]
      dsimp only
      rw [if_neg (by decide), gives_bind]
      refine (hcall start hslot entr data hinv { t with clean := false } rfl).mono
        fun ⟨found, entr₁, data₁⟩ t₁ h₁ => ?_
      obtain ⟨hvol, hfound⟩ := h₁
      dsimp only at hfound ⊢
      by_cases hzero : found = 0
      · have hinv₁ := (hfound.resolve_left fun h => h.1 hzero).2
        have hnext := ih (t := t₁) (by rw [hvol]; exact hg) (by rw [hvol]; exact hcall)
          (start + 64) (by rw [hvol]; omega) (by rw [hvol]; omega) entr₁ data₁ hinv₁
        have hin := hg.inside
        have hsmall := hg.sized.small
        rw [hvol] at hnext
        rw [if_neg (not_not.2 hzero), u64_of_lt (by unfold indexEntrySize; omega)]
        exact hnext
      · rw [if_pos hzero, gives_pure]
        exact ⟨hvol, Or.inr ⟨hslot, (hfound.resolve_right fun h => hzero h.1).2⟩⟩

/-- The rule for `entry_parse`. -/
theorem gives_entryParse (hg : Area t.vol) (hcall : CallbackSpec t.vol callback I F)
    (entr : Entry) (data : δ) (hinv : I t.vol.fs.entryStart data) :
    Gives (entryParse entr callback data) t fun r t' =>
      t'.vol = t.vol ∧ ((r.1 = 0 ∧ I t.vol.fs.volIdent r.2.2) ∨
        (t.vol.Slot r.1 ∧ F r.1 r.2.1 r.2.2)) := by
  have hlt := hg.nonempty
  have hin := hg.inside
  have hsmall := hg.sized.small
  unfold entryParse
  rw [gives_unit]
  refine gives_entryParseLoop hg hcall _ _ ⟨Nat.le_refl _, Nat.le_of_lt hlt, hg.start_aligned⟩ ?_
    entr data hinv
  unfold scanFuel indexEntrySize
  rw [sub64_of_le (by omega)]
  omega

end EntryParse

/-! ## Allocating slots -/

/-- The `n` slots from an offset on are unused. -/
def Vol.UnusedRun (v : Vol) (off n : Nat) : Prop :=
  ∀ j, j < n → v.Slot (off + 64 * j) ∧ v.type (off + 64 * j) = EntryType.unusedEntry.code

/-- Before `search_free_entry` looks at `off`: the `n - cur` slots before it are
unused, they are no part of a longer run, and no run of `n` ends before it. -/
structure FreeScan (v : Vol) (n off : Nat) (data : Nat × Nat) : Prop where
  start : data.1 = n
  pos : 0 < data.2
  le : data.2 ≤ n
  ge : v.fs.entryStart + 64 * (n - data.2) ≤ off
  run : v.UnusedRun (off - 64 * (n - data.2)) (n - data.2)
  longest : off - 64 * (n - data.2) = v.fs.entryStart ∨
    v.type (off - 64 * (n - data.2) - 64) ≠ EntryType.unusedEntry.code
  none : ∀ o, o + 64 * n ≤ off → ¬ v.UnusedRun o n

section AllocEntry

variable {t : Img} {v : Vol} {n : Nat}

theorem searchFreeEntry_spec (hg : Area v) (n : Nat) :
    CallbackSpec v searchFreeEntry (FreeScan v n) fun off _ _ =>
      64 * (n - 1) ≤ off ∧ v.UnusedRun (off - 64 * (n - 1)) n ∧
        ∀ o, o < off - 64 * (n - 1) → ¬ v.UnusedRun o n := by
  intro off hslot entr ⟨start, cur⟩ hinv t ht
  obtain ⟨hstart, hpos, hle, hge, hrun, hlong, hnone⟩ := hinv
  dsimp only at hstart hpos hle hge hrun hlong hnone
  subst hstart
  have hal := hslot.aligned
  have hal' := hg.start_aligned
  unfold searchFreeEntry
  dsimp only
  rw [Vol.get_load]
  by_cases hunused : v.type off = EntryType.unusedEntry.code
  · rw [if_neg (not_not.2 hunused)]
    -- The run before the slot, and the slot.
    have hrun' : v.UnusedRun (off - 64 * (start - cur)) (start - cur + 1) := by
      intro j hj
      rcases Nat.lt_or_ge j (start - cur) with hlt | hge'
      · exact hrun j hlt
      · rw [show off - 64 * (start - cur) + 64 * j = off by omega]
        exact ⟨hslot, hunused⟩
    have hnone' : ∀ o, 1 < cur → o + 64 * start ≤ off + 64 → ¬ v.UnusedRun o start := by
      intro o hcur ho hall
      by_cases hbefore : o + 64 * start ≤ off
      · exact hnone o hbefore hall
      · have ho' := (hall 0 (by omega)).1
        have hoal := ho'.aligned
        have hoge := ho'.ge
        rcases hlong with hfirst | hother
        · omega
        · have hj := (hall (cur - 2) (by omega)).2
          rw [show o + 64 * (cur - 2) = off - 64 * (start - cur) - 64 by omega] at hj
          exact hother hj
    by_cases hlast : cur - 1 = 0
    · rw [if_pos hlast, gives_pure]
      obtain rfl : cur = 1 := by omega
      rw [show start - 1 + 1 = start by omega] at hrun'
      refine ⟨ht, Or.inl ⟨by dsimp only; omega, by omega, hrun', ?_⟩⟩
      intro o ho hall
      have hoal := (hall 0 (by omega)).1.aligned
      exact hnone o (by omega) hall
    · rw [if_neg hlast, gives_pure]
      refine ⟨ht, Or.inr ⟨rfl, rfl, by dsimp only; omega, by dsimp only; omega,
        by dsimp only; omega, ?_, ?_, ?_⟩⟩
      · dsimp only
        rw [show off + 64 - 64 * (start - (cur - 1)) = off - 64 * (start - cur) by omega,
          show start - (cur - 1) = start - cur + 1 by omega]
        exact hrun'
      · dsimp only
        rw [show off + 64 - 64 * (start - (cur - 1)) = off - 64 * (start - cur) by omega]
        exact hlong
      · intro o ho
        exact hnone' o (by omega) ho
  · rw [if_pos hunused, gives_pure]
    have hz : start - start = 0 := Nat.sub_self start
    refine ⟨ht, Or.inr ⟨rfl, rfl, by dsimp only; omega, Nat.le_refl _, ?_, ?_, ?_, ?_⟩⟩
    · dsimp only
      have hge' := hslot.ge
      omega
    · dsimp only
      rw [hz]
      exact fun j hj => absurd hj (Nat.not_lt_zero j)
    · dsimp only
      rw [hz, Nat.mul_zero, Nat.sub_zero, Nat.add_sub_cancel]
      exact Or.inr hunused
    · intro o ho hall
      by_cases hbefore : o + 64 * start ≤ off
      · exact hnone o hbefore hall
      · have ho' := (hall 0 (by omega)).1
        have hoal := ho'.aligned
        have hj := (hall (start - 1) (by omega)).2
        rw [show o + 64 * (start - 1) = off by omega] at hj
        exact hunused hj

/-- The scan of `alloc_entry` ends at the last slot of the first run of `n`
unused slots, or with 0 when there is none, and changes nothing. -/
theorem gives_searchFreeEntry (hg : Area t.vol) (hn : 0 < n) (entr : Entry) :
    Gives (entryParse entr searchFreeEntry (n, n)) t fun r t' =>
      t'.vol = t.vol ∧ ((r.1 = 0 ∧ ∀ o, ¬ t.vol.UnusedRun o n) ∨
        (t.vol.Slot r.1 ∧ 64 * (n - 1) ≤ r.1 ∧ t.vol.UnusedRun (r.1 - 64 * (n - 1)) n ∧
          ∀ o, o < r.1 - 64 * (n - 1) → ¬ t.vol.UnusedRun o n)) := by
  have hinit : FreeScan t.vol n t.vol.fs.entryStart (n, n) := by
    refine ⟨rfl, hn, Nat.le_refl n, ?_, ?_, ?_, ?_⟩
    · dsimp only; omega
    · dsimp only
      rw [Nat.sub_self]
      exact fun j hj => absurd hj (Nat.not_lt_zero j)
    · dsimp only
      rw [Nat.sub_self]
      exact Or.inl rfl
    · intro o ho hall
      have h := (hall 0 hn).1.ge
      omega
  refine (gives_entryParse hg (searchFreeEntry_spec hg n) entr (n, n) hinit).mono
    fun ⟨ret, entr₁, data₁⟩ t₁ ⟨hvol, hres⟩ => ⟨hvol, ?_⟩
  refine hres.imp (fun ⟨hzero, hscan⟩ => ⟨hzero, fun o hall => ?_⟩) id
  have hlast := (hall (n - 1) (by omega)).1
  have h₁ := hlast.lt
  have h₂ := hlast.aligned
  have h₃ := hg.aligned
  exact hscan.none o (by omega) hall

/-- `alloc_entry` returns the first run of `n` unused slots, or 0 when there is
none, and changes nothing.  The callers ask for at most 255 slots. -/
theorem gives_allocEntry (hg : Area t.vol) (hstart : 0 < t.vol.fs.entryStart) (hn : 0 < n)
    (hint : n ≤ 33554432) (entr : Entry) :
    Gives (allocEntry entr n) t fun r t' =>
      t'.vol = t.vol ∧
        ((r.1 = 0 ∧ ∀ o, ¬ t.vol.UnusedRun o n) ∨
          (r.1 ≠ 0 ∧ t.vol.UnusedRun r.1 n ∧ ∀ o, o < r.1 → ¬ t.vol.UnusedRun o n)) := by
  unfold allocEntry
  rw [if_neg (by omega), gives_bind]
  refine (gives_searchFreeEntry hg hn entr).mono fun ⟨ret, entr₁, data₁⟩ t₁ ⟨hvol, hres⟩ => ?_
  dsimp only at hres ⊢
  rcases hres with ⟨hzero, hnone⟩ | ⟨hslot, hge, hrun, hfirst⟩
  · rw [if_pos hzero, gives_pure]
    exact ⟨hvol, Or.inl ⟨rfl, hnone⟩⟩
  · have hge₀ := hslot.ge
    have hge₁ := (hrun 0 hn).1.ge
    rw [if_neg (by omega), if_neg (by unfold indexEntrySize; omega), gives_pure]
    exact ⟨hvol, Or.inr ⟨by unfold indexEntrySize; dsimp only; omega, hrun, hfirst⟩⟩

end AllocEntry

end Sfs
