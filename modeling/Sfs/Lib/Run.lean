/-!
# Runs of a step function

A step function gives the state after one event, or no state.  `run` takes the
events of a list in turn, and `Meets` says that every event of the list meets a
condition in the state it is taken in.  `run_invariant` packages the induction:
what every such step establishes from itself holds in every state of the run.
`run_relates` is the same for two step functions that take the same events.
-/

namespace Lib

variable {σ ε : Type}

/-- The state after the events of the list; `none` when some step has none. -/
def run (step : σ → ε → Option σ) : σ → List ε → Option σ
  | s, [] => some s
  | s, e :: es => (step s e).bind fun s' => run step s' es

/-- Every event of the list meets `C` in the state it is taken in. -/
def Meets (step : σ → ε → Option σ) (C : σ → ε → Prop) : σ → List ε → Prop
  | _, [] => True
  | s, e :: es => C s e ∧ ∀ s', step s e = some s' → Meets step C s' es

/-- A run meets a decidable condition decidably. -/
instance Meets.decidable (step : σ → ε → Option σ) (C : σ → ε → Prop)
    [∀ s e, Decidable (C s e)] : (s : σ) → (es : List ε) → Decidable (Meets step C s es)
  | _, [] => isTrue trivial
  | s, e :: es =>
    match h : step s e with
    | none => decidable_of_iff (C s e) ⟨fun hC => ⟨hC, fun s' hs' => by cases h.symm.trans hs'⟩,
        And.left⟩
    | some s' =>
      have := Meets.decidable step C s' es
      decidable_of_iff (C s e ∧ Meets step C s' es)
        ⟨fun hC => ⟨hC.1, fun s'' hs'' => by cases h.symm.trans hs''; exact hC.2⟩,
          fun hC => ⟨hC.1, hC.2 s' h⟩⟩

variable {f : σ → ε → Option σ} {C : σ → ε → Prop} {I : σ → Prop}

theorem Meets.take {s : σ} {es : List ε} (h : Meets f C s es) (n : Nat) :
    Meets f C s (es.take n) := by
  induction es generalizing s n with
  | nil => rw [List.take_nil]; exact h
  | cons e es ih =>
    cases n with
    | zero => exact trivial
    | succ n => exact ⟨h.1, fun s' hs' => ih (h.2 s' hs') n⟩

theorem Meets.mono {C' : σ → ε → Prop} {s : σ} {es : List ε} (h : Meets f C s es)
    (hC : ∀ s e, C s e → C' s e) : Meets f C' s es := by
  induction es generalizing s with
  | nil => exact trivial
  | cons e es ih => exact ⟨hC s e h.1, fun s' hs' => ih (h.2 s' hs')⟩

theorem Meets.and_forall {P : ε → Prop} {s : σ} {es : List ε} (h : Meets f C s es)
    (hP : ∀ e ∈ es, P e) : Meets f (fun s e => C s e ∧ P e) s es := by
  induction es generalizing s with
  | nil => exact trivial
  | cons e es ih =>
    exact ⟨⟨h.1, hP e List.mem_cons_self⟩, fun s' hs' =>
      ih (h.2 s' hs') fun e' he => hP e' (List.mem_cons_of_mem e he)⟩

/-- A step function on larger states, which does on a part of them what `f` does,
meets the condition on that part as well. -/
theorem Meets.lift {τ : Type} {g : τ → ε → Option τ} (part : τ → σ)
    (hpart : ∀ x x' e, g x e = some x' → f (part x) e = some (part x')) {x : τ} {es : List ε}
    (h : Meets f C (part x) es) : Meets g (fun x e => C (part x) e) x es := by
  induction es generalizing x with
  | nil => exact trivial
  | cons e es ih => exact ⟨h.1, fun x' hx' => ih (h.2 (part x') (hpart x x' e hx'))⟩

/-- An invariant that every admissible step reestablishes, holds at the end of
every admissible run, which has one. -/
theorem run_preserves (hstep : ∀ s e, I s → C s e → ∃ s', f s e = some s' ∧ I s')
    {s : σ} {es : List ε} (hs : I s) (hes : Meets f C s es) :
    ∃ s', run f s es = some s' ∧ I s' := by
  induction es generalizing s with
  | nil => exact ⟨s, rfl, hs⟩
  | cons e es ih =>
    obtain ⟨s₁, hs₁, hinv⟩ := hstep s e hs hes.1
    obtain ⟨s', hrun, hinv'⟩ := ih hinv (hes.2 s₁ hs₁)
    refine ⟨s', ?_, hinv'⟩
    rw [run, hs₁]
    exact hrun

/-- An invariant that every admissible step with a state after it keeps, holds at
the end of every admissible run that has one. -/
theorem run_keeps (hstep : ∀ s e s', I s → C s e → f s e = some s' → I s')
    {s s' : σ} {es : List ε} (hs : I s) (hes : Meets f C s es) (hrun : run f s es = some s') :
    I s' := by
  induction es generalizing s with
  | nil =>
    cases hrun
    exact hs
  | cons e es ih =>
    obtain ⟨s₁, hs₁, hrest⟩ := Option.bind_eq_some_iff.1 hrun
    exact ih (hstep s e s₁ hs hes.1 hs₁) (hes.2 s₁ hs₁) hrest

/-- The same as `run_preserves` for every state the run passes through. -/
theorem run_invariant (hstep : ∀ s e, I s → C s e → ∃ s', f s e = some s' ∧ I s')
    {s : σ} {es : List ε} (hs : I s) (hes : Meets f C s es) (n : Nat) :
    ∃ s', run f s (es.take n) = some s' ∧ I s' :=
  run_preserves hstep hs (hes.take n)

/-- Two step functions on the same events: a relation that every pair of
admissible steps reestablishes holds between the ends of the two runs, which both
have one. -/
theorem run_relates {τ : Type} {g : τ → ε → Option τ} {R : σ → τ → Prop}
    (hstep : ∀ s u e, R s u → C s e → ∃ s' u', f s e = some s' ∧ g u e = some u' ∧ R s' u')
    {s : σ} {u : τ} {es : List ε} (hsu : R s u) (hes : Meets f C s es) :
    ∃ s' u', run f s es = some s' ∧ run g u es = some u' ∧ R s' u' := by
  induction es generalizing s u with
  | nil => exact ⟨s, u, rfl, rfl, hsu⟩
  | cons e es ih =>
    obtain ⟨s₁, u₁, hs₁, hu₁, hrel⟩ := hstep s u e hsu hes.1
    obtain ⟨s', u', hrun, hrun', hrel'⟩ := ih hrel (hes.2 s₁ hs₁)
    refine ⟨s', u', ?_, ?_, hrel'⟩
    · rw [run, hs₁]
      exact hrun
    · rw [run, hu₁]
      exact hrun'

end Lib
