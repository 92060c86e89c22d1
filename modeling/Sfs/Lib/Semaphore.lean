import Mathlib.Logic.Function.Basic

/-!
# Semaphores with undo

A semaphore in the style of System V: the operations of a list are done together or not
at all, one of them may wait until the value is 0, and what a process has done with the
undo flag is taken back when it exits.

* `Sem.semop` does the operations of a list, `Sem.exit` takes back;
* `lockOps` waits for 0 and adds 1 with undo;
* `Sem.Held` says who has done that, if anybody, and the lemmas about it say that
  `lockOps` is a lock: one process gets it at a time, and gives it back by its exit.
-/

namespace Lib

/-- An operation: 0 waits for the value 0, any other number is added to the value.  With
`nowait` it fails where it would wait, with `undo` an exit takes it back. -/
structure SemOp where
  op : Int
  nowait : Bool
  undo : Bool

/-- The value of a semaphore, and what the exit of each process adds to it. -/
structure Sem (P : Type) where
  value : Nat
  adjust : P → Int

/-- What comes of a list of operations. -/
inductive SemResult (P : Type) where
  | done (s : Sem P)
  | again
  | waits

namespace Sem

variable {P : Type} [DecidableEq P]

/-- A new semaphore. -/
def free : Sem P := ⟨0, fun _ => 0⟩

/-- One operation, where it has not to wait. -/
def apply (s : Sem P) (p : P) (o : SemOp) : Option (Sem P) :=
  if o.op = 0 then if s.value = 0 then some s else none
  else if s.value + o.op < 0 then none
  else some ⟨(s.value + o.op).toNat,
    if o.undo then Function.update s.adjust p (s.adjust p - o.op) else s.adjust⟩

/-- The operations of a list, which fail or wait together. -/
def semop (s : Sem P) (p : P) : List SemOp → SemResult P
  | [] => .done s
  | o :: ops =>
    match s.apply p o with
    | some s' => s'.semop p ops
    | none => if o.nowait then .again else .waits

/-- The process exits. -/
def exit (s : Sem P) (p : P) : Sem P :=
  ⟨(s.value + s.adjust p).toNat, Function.update s.adjust p 0⟩

end Sem

/-- Wait for 0, and fail otherwise; then add 1, until the exit. -/
def lockOps : List SemOp := [⟨0, true, false⟩, ⟨1, false, true⟩]

namespace Sem

variable {P : Type} [DecidableEq P] {s : Sem P} {holder : Option P} {p : P}

/-- The process that has done `lockOps` and not exited, if there is one. -/
structure Held (s : Sem P) (holder : Option P) : Prop where
  value : s.value = if holder.isSome then 1 else 0
  adjust : ∀ p, s.adjust p = if holder = some p then -1 else 0

/-- Nobody has it, and the process gets it. -/
theorem Held.acquire (h : s.Held none) (p : P) :
    ∃ s' : Sem P, s.semop p lockOps = .done s' ∧ s'.Held (some p) := by
  have hzero : ∀ q, s.adjust q = 0 := fun q => (h.adjust q).trans (if_neg nofun)
  obtain ⟨value, adjust⟩ := s
  obtain rfl : value = 0 := h.value
  refine ⟨⟨1, Function.update adjust p (adjust p - 1)⟩, rfl, rfl, fun q => ?_⟩
  by_cases hq : q = p
  · subst hq
    show Function.update adjust q _ q = _
    rw [Function.update_self, if_pos rfl, show adjust q = 0 from hzero q]
    rfl
  · show Function.update adjust p _ q = _
    rw [Function.update_of_ne hq, if_neg fun heq => hq (Option.some.inj heq).symm]
    exact hzero q

/-- Somebody has it, and the process is told so at once. -/
theorem Held.again {q : P} (h : s.Held (some q)) (p : P) : s.semop p lockOps = .again := by
  have hvalue : s.value ≠ 0 := fun hz => absurd (h.value.symm.trans hz) Nat.one_ne_zero
  simp [lockOps, semop, apply, hvalue]

/-- The exit of the process that has it gives it back. -/
theorem Held.release (h : s.Held (some p)) : (s.exit p).Held none := by
  refine ⟨?_, fun q => ?_⟩
  · rw [exit, h.value, h.adjust, if_pos (show (some p).isSome = true from rfl), if_pos rfl]
    rfl
  · by_cases hq : q = p
    · subst hq
      exact Function.update_self ..
    · refine (Function.update_of_ne hq ..).trans ?_
      rw [h.adjust q, if_neg fun heq => hq (Option.some.inj heq).symm]
      rfl

/-- The exit of another process changes nothing. -/
theorem Held.exit_other (h : s.Held holder) (hp : holder ≠ some p) : (s.exit p).Held holder := by
  have hzero : s.adjust p = 0 := by rw [h.adjust, if_neg hp]
  refine ⟨?_, fun q => ?_⟩
  · rw [exit, hzero, ← h.value]
    simp
  · refine Eq.trans ?_ (h.adjust q)
    by_cases hq : q = p
    · subst hq
      exact (Function.update_self ..).trans hzero.symm
    · exact Function.update_of_ne hq ..

end Sem

end Lib
