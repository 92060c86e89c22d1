import Mathlib.Logic.Basic

/-!
# Programs over commands

A program is a tree: it returns a value, gets stuck, or issues one command
and continues with the reply.  A handler gives every command a meaning on a
state, and `exec` runs a program under a handler.  `none` stands for a run
with no defined result.

The file gives the rules by which facts about programs are proved:

* `Ends` is total correctness under a handler, with the rules for `ret`,
  `bind` and consequence;
* `Post` is partial correctness, which a program that gets stuck meets;
* `All` bounds the commands a program may issue and the values it may return,
  whatever the replies are;
* `AtMost` bounds how often it issues commands of a kind;
* `after` gives the states on the way of a run, and `AtMost.after_one` says that what one
  command changes at most is at each of them as before or as after the run;
* `exec_simulates` carries a run under one handler over to another.
-/

namespace Lib

/-- A program that issues commands of type `E`, where the reply to `e` has
type `R e`. -/
inductive Prog (E : Type) (R : E → Type) (α : Type) : Type where
  | ret (a : α)
  | stuck
  | call (e : E) (next : R e → Prog E R α)

namespace Prog

variable {E : Type} {R : E → Type} {α β γ : Type}

/-- Sequencing: the second program starts from the value of the first. -/
def bind : Prog E R α → (α → Prog E R β) → Prog E R β
  | ret a, f => f a
  | stuck, _ => stuck
  | call e next, f => call e fun r => (next r).bind f

instance : Monad (Prog E R) where
  pure := ret
  bind := bind

@[simp] theorem ret_bind (a : α) (f : α → Prog E R β) : (ret a >>= f) = f a := rfl

@[simp] theorem pure_bind' (a : α) (f : α → Prog E R β) :
    ((pure a : Prog E R α) >>= f) = f a := rfl

@[simp] theorem stuck_bind (f : α → Prog E R β) : (stuck >>= f) = stuck := rfl

theorem call_bind (e : E) (next : R e → Prog E R α) (f : α → Prog E R β) :
    (call e next >>= f) = call e fun r => next r >>= f := rfl

/-- The program that issues one command and returns its reply. -/
def perform (e : E) : Prog E R (R e) := call e ret

/-! ## Running a program -/

/-- The meaning of the commands on a state. -/
abbrev Handler (E : Type) (R : E → Type) (σ : Type) := (e : E) → σ → Option (R e × σ)

variable {σ τ : Type}

/-- The run of a program from a state. -/
def exec (h : Handler E R σ) : Prog E R α → σ → Option (α × σ)
  | ret a, s => some (a, s)
  | stuck, _ => none
  | call e next, s => (h e s).bind fun x => (next x.1).exec h x.2

variable (h : Handler E R σ)

@[simp] theorem exec_ret (a : α) (s : σ) : (ret a : Prog E R α).exec h s = some (a, s) := rfl

@[simp] theorem exec_pure (a : α) (s : σ) :
    (pure a : Prog E R α).exec h s = some (a, s) := rfl

@[simp] theorem exec_stuck (s : σ) : (stuck : Prog E R α).exec h s = none := rfl

theorem exec_call (e : E) (next : R e → Prog E R α) (s : σ) :
    (call e next).exec h s = (h e s).bind fun x => (next x.1).exec h x.2 := rfl

theorem exec_perform (e : E) (s : σ) : (perform e).exec h s = h e s := by
  rw [perform, exec_call]
  cases h e s <;> rfl

theorem exec_bind (p : Prog E R α) (f : α → Prog E R β) (s : σ) :
    (p >>= f).exec h s = (p.exec h s).bind fun x => (f x.1).exec h x.2 := by
  induction p generalizing s with
  | ret a => rfl
  | stuck => rfl
  | call e next ih =>
    rw [call_bind, exec_call, exec_call]
    cases h e s with
    | none => rfl
    | some x => exact ih x.1 x.2

/-- A run of a sequence splits at the bind. -/
theorem exec_bind_eq_some {p : Prog E R α} {f : α → Prog E R β} {s s' : σ} {b : β} :
    (p >>= f).exec h s = some (b, s') ↔
      ∃ a s₁, p.exec h s = some (a, s₁) ∧ (f a).exec h s₁ = some (b, s') := by
  rw [exec_bind, Option.bind_eq_some_iff]
  constructor
  · rintro ⟨⟨a, s₁⟩, hp, hf⟩
    exact ⟨a, s₁, hp, hf⟩
  · rintro ⟨a, s₁, hp, hf⟩
    exact ⟨(a, s₁), hp, hf⟩

/-! ## Total correctness -/

/-- The program returns from `s`, and its value and final state satisfy `Q`. -/
def Ends (p : Prog E R α) (s : σ) (Q : α → σ → Prop) : Prop :=
  ∃ a s', p.exec h s = some (a, s') ∧ Q a s'

variable {h}

@[simp] theorem ends_ret {a : α} {s : σ} {Q : α → σ → Prop} :
    Ends h (ret a) s Q ↔ Q a s := by
  constructor
  · rintro ⟨_, _, ⟨⟩, hQ⟩
    exact hQ
  · exact fun hQ => ⟨a, s, rfl, hQ⟩

@[simp] theorem ends_pure {a : α} {s : σ} {Q : α → σ → Prop} :
    Ends h (pure a) s Q ↔ Q a s := ends_ret

theorem ends_bind {p : Prog E R α} {f : α → Prog E R β} {s : σ} {Q : β → σ → Prop} :
    Ends h (p >>= f) s Q ↔ Ends h p s fun a s' => Ends h (f a) s' Q := by
  constructor
  · rintro ⟨b, s', hrun, hQ⟩
    obtain ⟨a, s₁, hp, hf⟩ := (exec_bind_eq_some h).1 hrun
    exact ⟨a, s₁, hp, b, s', hf, hQ⟩
  · rintro ⟨a, s₁, hp, b, s', hf, hQ⟩
    exact ⟨b, s', (exec_bind_eq_some h).2 ⟨a, s₁, hp, hf⟩, hQ⟩

/-- Consequence: a weaker postcondition. -/
theorem Ends.mono {p : Prog E R α} {s : σ} {Q Q' : α → σ → Prop} (hp : Ends h p s Q)
    (hQ : ∀ a s', Q a s' → Q' a s') : Ends h p s Q' := by
  obtain ⟨a, s', hrun, hq⟩ := hp
  exact ⟨a, s', hrun, hQ a s' hq⟩

/-- Sequencing: the postcondition of the first program starts the second. -/
theorem Ends.bind {p : Prog E R α} {f : α → Prog E R β} {s : σ} {P : α → σ → Prop}
    {Q : β → σ → Prop} (hp : Ends h p s P) (hf : ∀ a s', P a s' → Ends h (f a) s' Q) :
    Ends h (p >>= f) s Q :=
  ends_bind.2 (hp.mono hf)

theorem ends_perform {e : E} {s s' : σ} {r : R e} {Q : R e → σ → Prop}
    (hcall : h e s = some (r, s')) : Ends h (perform e) s Q ↔ Q r s' := by
  unfold Ends
  rw [exec_perform, hcall]
  constructor
  · rintro ⟨_, _, ⟨⟩, hQ⟩
    exact hQ
  · exact fun hQ => ⟨r, s', rfl, hQ⟩

/-- A run is deterministic, so any known run satisfies a proved
postcondition. -/
theorem Ends.of_exec {p : Prog E R α} {s s' : σ} {a : α} {Q : α → σ → Prop}
    (hp : Ends h p s Q) (hrun : p.exec h s = some (a, s')) : Q a s' := by
  obtain ⟨a₁, s₁, hrun₁, hQ⟩ := hp
  rw [hrun] at hrun₁
  cases hrun₁
  exact hQ

/-- Two postconditions of one run. -/
theorem Ends.and {p : Prog E R α} {s : σ} {Q Q' : α → σ → Prop} (hp : Ends h p s Q)
    (hp' : Ends h p s Q') : Ends h p s fun a s' => Q a s' ∧ Q' a s' := by
  obtain ⟨a, s', hrun, hQ⟩ := hp
  exact ⟨a, s', hrun, hQ, hp'.of_exec hrun⟩

/-! ## Partial correctness -/

/-- Whenever the program returns from `s`, its value and final state satisfy
`Q`. -/
def Post (h : Handler E R σ) (p : Prog E R α) (s : σ) (Q : α → σ → Prop) : Prop :=
  ∀ a s', p.exec h s = some (a, s') → Q a s'

section Post

variable {h : Handler E R σ} {s : σ} {Q Q' : α → σ → Prop}

theorem post_pure {a : α} (hQ : Q a s) : Post h (pure a) s Q := by
  rintro _ _ ⟨⟩
  exact hQ

/-- A run is deterministic, so what holds of one holds of every run. -/
theorem Ends.post {p : Prog E R α} (hp : Ends h p s Q) : Post h p s Q :=
  fun _ _ hrun => hp.of_exec hrun

/-- What holds of every run holds of the one there is. -/
theorem Post.ends {p : Prog E R α} (hp : Post h p s Q) (hend : Ends h p s Q') : Ends h p s Q := by
  obtain ⟨a, s', hrun, -⟩ := hend
  exact ⟨a, s', hrun, hp a s' hrun⟩

theorem Post.mono {p : Prog E R α} (hp : Post h p s Q) (hQ : ∀ a s', Q a s' → Q' a s') :
    Post h p s Q' :=
  fun a s' hrun => hQ a s' (hp a s' hrun)

theorem Post.bind {p : Prog E R α} {f : α → Prog E R β} {Q : β → σ → Prop} {P : α → σ → Prop}
    (hp : Post h p s P) (hf : ∀ a s', P a s' → Post h (f a) s' Q) : Post h (p >>= f) s Q := by
  intro b s' hrun
  obtain ⟨a, s₁, ha, hb⟩ := (exec_bind_eq_some h).1 hrun
  exact hf a s₁ (hp a s₁ ha) b s' hb

end Post

/-! ## Bounding commands and values -/

/-- Whatever the replies, the program issues only commands allowed by `A` and
returns only values that satisfy `P`. -/
def All (A : E → Prop) (P : α → Prop) : Prog E R α → Prop
  | ret a => P a
  | stuck => True
  | call e next => A e ∧ ∀ r, (next r).All A P

section All

variable {A : E → Prop} {P P' : α → Prop} {Q : β → Prop}

theorem all_pure {a : α} (ha : P a) : (pure a : Prog E R α).All A P := ha

theorem all_perform {e : E} {P : R e → Prop} (he : A e) (hP : ∀ r, P r) :
    (perform e : Prog E R (R e)).All A P := ⟨he, hP⟩

/-- Every program is bounded by nothing. -/
theorem all_true (p : Prog E R α) : p.All (fun _ => True) fun _ => True := by
  induction p with
  | ret a => exact trivial
  | stuck => exact trivial
  | call e next ih => exact ⟨trivial, ih⟩

theorem All.bind {p : Prog E R α} {f : α → Prog E R β} (hp : p.All A P)
    (hf : ∀ a, P a → (f a).All A Q) : (p >>= f).All A Q := by
  induction p with
  | ret a => exact hf a hp
  | stuck => exact trivial
  | call e next ih => exact ⟨hp.1, fun r => ih r (hp.2 r)⟩

/-- The values of a sequence are those of its last program. -/
theorem all_tail {p : Prog E R α} {f : α → Prog E R β} (hf : ∀ a, (f a).All (fun _ => True) Q) :
    (p >>= f).All (fun _ => True) Q :=
  (all_true p).bind fun a _ => hf a

/-- What every allowed command preserves, a run preserves; and the value
returned is one the bound allows. -/
theorem All.exec {p : Prog E R α} (hp : p.All A P) {I : σ → Prop}
    (hcall : ∀ e s r s', A e → h e s = some (r, s') → I s → I s') {s s' : σ} {a : α}
    (hs : I s) (hrun : p.exec h s = some (a, s')) : I s' ∧ P a := by
  induction p generalizing s with
  | ret b =>
    cases hrun
    exact ⟨hs, hp⟩
  | stuck => cases hrun
  | call e next ih =>
    obtain ⟨⟨r, s₁⟩, he, hnext⟩ := Option.bind_eq_some_iff.1 hrun
    exact ih r (hp.2 r) (hcall e s r s₁ hp.1 he hs) hnext

/-- A bound on the values of a program holds of every run. -/
theorem All.post {p : Prog E R α} (hp : p.All A P) (s : σ) : Post h p s fun a _ => P a :=
  fun _ _ hrun =>
    (hp.exec (I := fun _ => True) (fun _ _ _ _ _ _ _ => trivial) trivial hrun).2

end All

/-- Whatever the replies, the program issues at most `n` commands that meet
`C`. -/
inductive AtMost (C : E → Prop) : Nat → Prog E R α → Prop
  | ret (n : Nat) (a : α) : AtMost C n (ret a)
  | stuck (n : Nat) : AtMost C n stuck
  | counted {n : Nat} {e : E} {next : R e → Prog E R α} (h : ∀ r, AtMost C n (next r)) :
    AtMost C (n + 1) (call e next)
  | free {n : Nat} {e : E} {next : R e → Prog E R α} (he : ¬ C e) (h : ∀ r, AtMost C n (next r)) :
    AtMost C n (call e next)

section AtMost

variable {C : E → Prop} {m n : Nat}

theorem atMost_pure (a : α) : (pure a : Prog E R α).AtMost C n := .ret n a

theorem atMost_perform (e : E) : (perform e : Prog E R (R e)).AtMost C 1 :=
  .counted fun r => .ret 0 r

theorem atMost_perform_of_not {e : E} (he : ¬ C e) : (perform e : Prog E R (R e)).AtMost C n :=
  .free he fun r => .ret n r

theorem AtMost.mono {p : Prog E R α} (hp : p.AtMost C m) (h : m ≤ n) : p.AtMost C n := by
  induction hp generalizing n with
  | ret m a => exact .ret n a
  | stuck m => exact .stuck n
  | counted _ ih =>
    obtain ⟨n, rfl⟩ : ∃ k, n = k + 1 := ⟨n - 1, by omega⟩
    exact .counted fun r => ih r (by omega)
  | free he _ ih => exact .free he fun r => ih r h

theorem AtMost.bind {p : Prog E R α} {f : α → Prog E R β} {k : Nat} (hp : p.AtMost C m)
    (hf : ∀ a, (f a).AtMost C n) (hk : m + n ≤ k) : (p >>= f).AtMost C k := by
  induction hp generalizing k with
  | ret m a => exact (hf a).mono (by omega)
  | stuck m => exact .stuck k
  | counted _ ih =>
    obtain ⟨k, rfl⟩ : ∃ j, k = j + 1 := ⟨k - 1, by omega⟩
    exact .counted fun r => ih r (by omega)
  | free he _ ih => exact .free he fun r => ih r hk

/-- A program that issues none, and then another. -/
theorem AtMost.bind_zero {p : Prog E R α} {f : α → Prog E R β} (hp : p.AtMost C 0)
    (hf : ∀ a, (f a).AtMost C n) : (p >>= f).AtMost C n :=
  hp.bind hf (Nat.le_of_eq (Nat.zero_add n))

/-- A program that issues none and returns values of some kind, and then another. -/
theorem AtMost.bind_all {p : Prog E R α} {f : α → Prog E R β} {P : α → Prop} (hp : p.AtMost C 0)
    (hP : p.All (fun _ => True) P) (hf : ∀ a, P a → (f a).AtMost C n) : (p >>= f).AtMost C n := by
  induction p with
  | ret a => exact hf a hP
  | stuck => exact .stuck n
  | call e next ih =>
    cases hp with
    | free he hnext => exact .free he fun r => ih r (hnext r) (hP.2 r)

end AtMost

/-! ## The states on the way -/

/-- The state of the run after `n` commands, or where it ended before. -/
def after (h : Handler E R σ) : Nat → Prog E R α → σ → σ
  | 0, _, s | _ + 1, ret _, s | _ + 1, stuck, s => s
  | n + 1, call e next, s =>
    match h e s with
    | none => s
    | some x => (next x.1).after h n x.2

section After

variable {C : E → Prop} {o : σ → τ} {p : Prog E R α} {s s' : σ} {a : α}

theorem after_call {e : E} {next : R e → Prog E R α} {r : R e} {s₁ : σ}
    (he : h e s = some (r, s₁)) (n : Nat) :
    (call e next).after h (n + 1) s = (next r).after h n s₁ := by
  rw [after, he]

/-- A program that issues none of the commands that can change what is observed does
not change it, not even for a moment. -/
theorem AtMost.after_zero (hC : ∀ e s r s', ¬ C e → h e s = some (r, s') → o s' = o s)
    (hp : p.AtMost C 0) (n : Nat) : o (p.after h n s) = o s := by
  induction n generalizing p s with
  | zero => rw [after]
  | succ n ih =>
    cases hp with
    | ret | stuck => rfl
    | @free _ e next he hnext =>
      cases hrun : h e s with
      | none => rw [after, hrun]
      | some x => rw [after_call hrun, ih (hnext x.1), hC e s x.1 x.2 he hrun]

theorem AtMost.exec_zero (hC : ∀ e s r s', ¬ C e → h e s = some (r, s') → o s' = o s)
    (hp : p.AtMost C 0) (hrun : p.exec h s = some (a, s')) : o s' = o s := by
  induction p generalizing s with
  | ret b =>
    cases hrun
    rfl
  | stuck => cases hrun
  | call e next ih =>
    obtain ⟨⟨r, s₁⟩, head, hrest⟩ := Option.bind_eq_some_iff.1 hrun
    cases hp with
    | free he hnext => exact (ih r (hnext r) hrest).trans (hC e s r s₁ he head)

/-- A program that issues at most one of them shows, at every moment, what there was
before or what there is after it. -/
theorem AtMost.after_one (hC : ∀ e s r s', ¬ C e → h e s = some (r, s') → o s' = o s)
    (hp : p.AtMost C 1) (hrun : p.exec h s = some (a, s')) (n : Nat) :
    o (p.after h n s) = o s ∨ o (p.after h n s) = o s' := by
  induction n generalizing p s with
  | zero => exact Or.inl (by rw [after])
  | succ n ih =>
    cases p with
    | ret | stuck => exact Or.inl rfl
    | call e next =>
      obtain ⟨⟨r, s₁⟩, head, hrest⟩ := Option.bind_eq_some_iff.1 hrun
      rw [after_call head]
      cases hp with
      | counted hnext =>
        right
        rw [(hnext r).after_zero hC, (hnext r).exec_zero hC hrest]
      | free he hnext =>
        rw [← hC e s r s₁ he head]
        exact ih (hnext r) hrest

end After

/-! ## Simulation -/

/-- When every command answered by the handler `k` is answered the same way by
`h` on related states, every run under `k` is a run under `h`. -/
theorem exec_simulates {k : Handler E R τ} {S : σ → τ → Prop}
    (hcall : ∀ e s t r t', S s t → k e t = some (r, t') →
      ∃ s', h e s = some (r, s') ∧ S s' t')
    {p : Prog E R α} {s : σ} {t t' : τ} {a : α} (hst : S s t)
    (hrun : p.exec k t = some (a, t')) : ∃ s', p.exec h s = some (a, s') ∧ S s' t' := by
  induction p generalizing s t with
  | ret b =>
    cases hrun
    exact ⟨s, rfl, hst⟩
  | stuck => cases hrun
  | call e next ih =>
    obtain ⟨⟨r, t₁⟩, he, hnext⟩ := Option.bind_eq_some_iff.1 hrun
    obtain ⟨s₁, hs₁, hrel⟩ := hcall e s t r t₁ hst he
    obtain ⟨s', hs', hrel'⟩ := ih r hrel hnext
    refine ⟨s', ?_, hrel'⟩
    rw [exec_call, hs₁]
    exact hs'

end Prog

end Lib
