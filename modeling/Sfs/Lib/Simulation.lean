import Sfs.Lib.Run

/-!
# Machines and specifications

A machine takes a call in a state, and gives an answer and the next state, or
nothing.  A specification relates a state, a call, an answer and a next state, and
may allow several answers.

* `answers` is the run of a machine on a list of calls, and `run_of_answers` ties
  it to `run`.
* `Allows` is a run of a specification, call by call with the answers.
  `Allows.preserves` is its induction.
* `answers_allowed` is forward simulation: when every step of the machine is one
  that the specification allows between related states, all the answers of a run
  are allowed, and the states at the end are related.
-/

namespace Lib

variable {σ τ ε κ ρ : Type}

/-! ## Machines -/

/-- The answers to the calls of the list, in turn, and the state after them. -/
def answers (step : σ → ε → Option (ρ × σ)) : σ → List ε → Option (List ρ × σ)
  | s, [] => some ([], s)
  | s, e :: es => (step s e).bind fun x => (answers step x.2 es).map fun y => (x.1 :: y.1, y.2)

/-- The machine without its answers. -/
def next (step : σ → ε → Option (ρ × σ)) (s : σ) (e : ε) : Option σ := (step s e).map Prod.snd

variable {step : σ → ε → Option (ρ × σ)} {C : σ → ε → Prop}

theorem run_of_answers (s : σ) (es : List ε) :
    run (next step) s es = (answers step s es).map Prod.snd := by
  induction es generalizing s with
  | nil => rfl
  | cons e es ih =>
    rw [run, answers, next]
    cases step s e with
    | none => rfl
    | some x => simp [ih, Function.comp_def]

theorem answers_length {s s' : σ} {es : List ε} {rs : List ρ}
    (h : answers step s es = some (rs, s')) : rs.length = es.length := by
  induction es generalizing s rs with
  | nil =>
    cases h
    rfl
  | cons e es ih =>
    obtain ⟨x, -, hrest⟩ := Option.bind_eq_some_iff.1 h
    obtain ⟨y, hy, heq⟩ := Option.map_eq_some_iff.1 hrest
    cases heq
    simp [ih hy]

theorem run_of_answers_eq {s s' : σ} {es : List ε} {rs : List ρ}
    (h : answers step s es = some (rs, s')) : run (next step) s es = some s' := by
  rw [run_of_answers, h]
  rfl

/-- A run is admissible when its two parts are, in turn. -/
theorem Meets.append {f : σ → ε → Option σ} {s : σ} {es es' : List ε}
    (h : Meets f C s (es ++ es')) :
    Meets f C s es ∧ ∀ s', run f s es = some s' → Meets f C s' es' := by
  induction es generalizing s with
  | nil =>
    refine ⟨trivial, fun s' hs' => ?_⟩
    cases hs'
    exact h
  | cons e es ih =>
    refine ⟨⟨h.1, fun s₁ hs₁ => (ih (h.2 s₁ hs₁)).1⟩, fun s' hs' => ?_⟩
    obtain ⟨s₁, hs₁, hrest⟩ := Option.bind_eq_some_iff.1 hs'
    exact (ih (h.2 s₁ hs₁)).2 s' hrest

/-! ## Specifications -/

/-- The specification allows the answers to the calls, in turn, between the two
states. -/
inductive Allows (spec : τ → κ → ρ → τ → Prop) : τ → List (κ × ρ) → τ → Prop
  | nil (t : τ) : Allows spec t [] t
  | cons {t t₁ t' : τ} {k : κ} {r : ρ} {l : List (κ × ρ)} (head : spec t k r t₁)
      (tail : Allows spec t₁ l t') : Allows spec t ((k, r) :: l) t'

namespace Allows

variable {spec : τ → κ → ρ → τ → Prop} {t t' : τ} {l : List (κ × ρ)}

/-- What every step with a call of some kind keeps, a run of such calls keeps. -/
theorem preserves {I : τ → Prop} {K : κ → Prop}
    (hstep : ∀ t k r t', I t → K k → spec t k r t' → I t') (h : Allows spec t l t')
    (hl : ∀ x ∈ l, K x.1) (ht : I t) : I t' := by
  induction h with
  | nil => exact ht
  | cons head _ ih =>
    refine ih (fun x hx => hl x (List.mem_cons_of_mem _ hx)) ?_
    exact hstep _ _ _ _ ht (hl _ List.mem_cons_self) head

end Allows

/-! ## Simulation -/

/-- When every admissible step of the machine is allowed between related states,
an admissible run returns, its answers are allowed, and the states at its end are
related. -/
theorem answers_allowed {spec : τ → κ → ρ → τ → Prop} {R : σ → τ → Prop} (label : ε → κ)
    (hstep : ∀ s t e, R s t → C s e →
      ∃ r s' t', step s e = some (r, s') ∧ spec t (label e) r t' ∧ R s' t')
    {s : σ} {t : τ} {es : List ε} (hst : R s t) (hes : Meets (next step) C s es) :
    ∃ rs s' t', answers step s es = some (rs, s') ∧
      Allows spec t ((es.map label).zip rs) t' ∧ R s' t' := by
  induction es generalizing s t with
  | nil => exact ⟨[], s, t, rfl, .nil t, hst⟩
  | cons e es ih =>
    obtain ⟨r, s₁, t₁, hrun, hspec, hrel⟩ := hstep s t e hst hes.1
    have hrest : Meets (next step) C s₁ es := hes.2 s₁ (by simp [next, hrun])
    obtain ⟨rs, s', t', hruns, hallows, hrel'⟩ := ih hrel hrest
    refine ⟨r :: rs, s', t', ?_, .cons hspec hallows, hrel'⟩
    simp [answers, hrun, hruns]

end Lib
