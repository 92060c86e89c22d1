import Mathlib.Data.List.Basic
import Mathlib.Data.List.Nodup

/-!
# Doubly linked lists

A doubly linked list in a store is given by two functions, the links of every
cell to the next and the previous one, with 0 for no cell.  `Chain` says that
the cells of a list are linked in its order.

* `Chain.congr` is the frame rule: the links of other cells do not matter;
* `Chain.unlink` and `Chain.pushFront` say what the usual stores to the links do
  to the list;
* `Chain.prev_eq_zero` singles out the first cell by its link.
-/

namespace Lib

/-- The list is linked from `first` on, and the cell before it is `p`. -/
def Chain (nx pv : Nat → Nat) : Nat → Nat → List Nat → Prop
  | _, first, [] => first = 0
  | p, first, a :: l => first = a ∧ a ≠ 0 ∧ pv a = p ∧ Chain nx pv a (nx a) l

namespace Chain

variable {nx pv nx' pv' : Nat → Nat} {p first a : Nat} {l : List Nat}

theorem ne_zero (h : Chain nx pv p first l) (ha : a ∈ l) : a ≠ 0 := by
  induction l generalizing p first with
  | nil => cases ha
  | cons b l ih =>
    rcases List.mem_cons.1 ha with rfl | ha
    · exact h.2.1
    · exact ih h.2.2.2 ha

theorem first_eq_zero (h : Chain nx pv p first l) : first = 0 ↔ l = [] := by
  cases l with
  | nil => exact ⟨fun _ => rfl, fun _ => h⟩
  | cons b l =>
    refine ⟨fun hz => absurd (h.1.symm.trans hz) h.2.1, fun hl => ?_⟩
    cases hl

theorem first_mem (h : Chain nx pv p first l) (hf : first ≠ 0) : first ∈ l := by
  cases l with
  | nil => exact absurd h hf
  | cons b l =>
    rw [h.1]
    exact List.mem_cons_self

/-- The links determine the list. -/
theorem unique {l' : List Nat} (h : Chain nx pv p first l) (h' : Chain nx pv p first l') :
    l = l' := by
  induction l generalizing p first l' with
  | nil => exact (h'.first_eq_zero.1 h).symm
  | cons a l ih =>
    cases l' with
    | nil => exact absurd (h.1.symm.trans h') h.2.1
    | cons b l' =>
      obtain ⟨rfl, -, -, htail⟩ := h
      obtain ⟨rfl, -, -, htail'⟩ := h'
      rw [ih htail htail']

/-- The links of cells outside the list do not matter. -/
theorem congr (h : Chain nx pv p first l) (hnx : ∀ x, x ∈ l → nx' x = nx x)
    (hpv : ∀ x, x ∈ l → pv' x = pv x) : Chain nx' pv' p first l := by
  induction l generalizing p first with
  | nil => exact h
  | cons b l ih =>
    obtain ⟨rfl, hb, hp, htail⟩ := h
    refine ⟨rfl, hb, (hpv first List.mem_cons_self).trans hp, ?_⟩
    rw [hnx first List.mem_cons_self]
    exact ih htail (fun x hx => hnx x (List.mem_cons_of_mem _ hx))
      fun x hx => hpv x (List.mem_cons_of_mem _ hx)

/-- The next cell of a cell of the list is in the list, or there is none. -/
theorem next_mem (h : Chain nx pv p first l) (ha : a ∈ l) : nx a = 0 ∨ nx a ∈ l := by
  induction l generalizing p first with
  | nil => cases ha
  | cons b l ih =>
    obtain ⟨rfl, hb, hp, htail⟩ := h
    rcases List.mem_cons.1 ha with rfl | ha
    · by_cases hz : nx a = 0
      · exact Or.inl hz
      · exact Or.inr (List.mem_cons_of_mem _ (htail.first_mem hz))
    · exact (ih htail ha).imp_right (List.mem_cons_of_mem _)

/-- The previous cell of a cell of the list is in the list, or it is `p`. -/
theorem prev_mem (h : Chain nx pv p first l) (ha : a ∈ l) : pv a = p ∨ pv a ∈ l := by
  induction l generalizing p first with
  | nil => cases ha
  | cons b l ih =>
    obtain ⟨rfl, hb, hp, htail⟩ := h
    rcases List.mem_cons.1 ha with rfl | ha
    · exact Or.inl hp
    · rcases ih htail ha with hprev | hprev
      · exact Or.inr (by rw [hprev]; exact List.mem_cons_self)
      · exact Or.inr (List.mem_cons_of_mem _ hprev)

/-- The cell after `p` is the first one. -/
theorem eq_first_of_prev (h : Chain nx pv p first l) (hp : p ∉ l) (ha : a ∈ l) (hpa : pv a = p) :
    a = first := by
  cases l with
  | nil => cases ha
  | cons b l =>
    obtain ⟨rfl, hb, hprev, htail⟩ := h
    rcases List.mem_cons.1 ha with heq | ha'
    · exact heq
    · exfalso
      rcases htail.prev_mem ha' with h' | h'
      · exact hp (hpa ▸ h' ▸ List.mem_cons_self)
      · exact hp (hpa ▸ List.mem_cons_of_mem _ h')

/-- Only the first cell has no previous cell. -/
theorem prev_eq_zero (h : Chain nx pv 0 first l) (ha : a ∈ l) : pv a = 0 ↔ a = first := by
  refine ⟨h.eq_first_of_prev (fun hz => h.ne_zero hz rfl) ha, fun heq => ?_⟩
  cases l with
  | nil => cases ha
  | cons b l => rw [heq, h.1, h.2.2.1]

/-- Linking the neighbours of a cell to each other takes the cell out. -/
theorem unlink (h : Chain nx pv p first l) (hnodup : l.Nodup) (hp : p ∉ l) (ha : a ∈ l)
    (hnx : ∀ x, x ∈ l → x ≠ a → nx' x = if x = pv a then nx a else nx x)
    (hpv : ∀ x, x ∈ l → x ≠ a → pv' x = if x = nx a then pv a else pv x) :
    Chain nx' pv' p (if first = a then nx a else first) (l.erase a) := by
  induction l generalizing p first with
  | nil => cases ha
  | cons b l ih =>
    obtain ⟨rfl, hb, hprev, htail⟩ := h
    obtain ⟨hfresh, hnodup'⟩ := List.nodup_cons.1 hnodup
    by_cases heq : first = a
    · subst heq
      rw [if_pos rfl, List.erase_cons_head]
      have hne : ∀ x, x ∈ l → x ≠ first := fun x hx hxa => hfresh (hxa ▸ hx)
      have hkeep : ∀ x, x ∈ l → nx' x = nx x := by
        intro x hx
        rw [hnx x (List.mem_cons_of_mem _ hx) (hne x hx), if_neg]
        intro hxp
        exact hp (List.mem_cons_of_mem _ (hprev ▸ hxp ▸ hx))
      cases l with
      | nil => exact htail
      | cons c l =>
        obtain ⟨hc, hcz, -, hrest⟩ := htail
        have hmem : c ∈ c :: l := List.mem_cons_self
        refine ⟨hc, hcz, ?_, ?_⟩
        · rw [hpv c (List.mem_cons_of_mem _ hmem) (hne c hmem), if_pos hc.symm, hprev]
        · rw [hkeep c hmem]
          refine hrest.congr (fun x hx => hkeep x (List.mem_cons_of_mem _ hx)) fun x hx => ?_
          rw [hpv x (List.mem_cons_of_mem _ (List.mem_cons_of_mem _ hx))
            (hne x (List.mem_cons_of_mem _ hx)), if_neg]
          intro hxc
          exact (List.nodup_cons.1 hnodup').1 (hc.symm.trans hxc.symm ▸ hx)
    · have ha' : a ∈ l := (List.mem_cons.1 ha).resolve_left fun h => heq h.symm
      rw [if_neg heq, List.erase_cons_tail (by simpa using heq)]
      refine ⟨rfl, hb, ?_, ?_⟩
      · rw [hpv first List.mem_cons_self heq, if_neg, hprev]
        intro hfirst
        rcases htail.next_mem ha' with hz | hmem
        · exact hb (hfirst.trans hz)
        · exact hfresh (hfirst ▸ hmem)
      · rw [hnx first List.mem_cons_self heq]
        have htail' := ih htail hnodup' hfresh ha'
          (fun x hx => hnx x (List.mem_cons_of_mem _ hx))
          (fun x hx => hpv x (List.mem_cons_of_mem _ hx))
        by_cases hnext : nx first = a
        · have hpa : pv a = first := by
            cases l with
            | nil => cases ha'
            | cons c l =>
              obtain ⟨hc, -, hpc, -⟩ := htail
              rw [← hnext, hc, hpc]
          rw [if_pos hpa.symm]
          rwa [if_pos hnext] at htail'
        · have hpa : first ≠ pv a := fun hpa =>
            hnext (htail.eq_first_of_prev hfresh ha' hpa.symm).symm
          rw [if_neg hpa]
          rwa [if_neg hnext] at htail'

/-- Linking a new cell before the first one puts it at the head. -/
theorem pushFront (h : Chain nx pv 0 first l) (ha : a ≠ 0) (hnodup : l.Nodup)
    (hnx : nx' a = first) (hpv : pv' a = 0) (hnx' : ∀ x, x ∈ l → nx' x = nx x)
    (hpv' : ∀ x, x ∈ l → pv' x = if x = first then a else pv x) :
    Chain nx' pv' 0 a (a :: l) := by
  refine ⟨rfl, ha, hpv, ?_⟩
  rw [hnx]
  cases l with
  | nil => exact h
  | cons b l =>
    obtain ⟨rfl, hb, -, htail⟩ := h
    refine ⟨rfl, hb, by rw [hpv' first List.mem_cons_self, if_pos rfl], ?_⟩
    rw [hnx' first List.mem_cons_self]
    refine htail.congr (fun x hx => hnx' x (List.mem_cons_of_mem _ hx)) fun x hx => ?_
    rw [hpv' x (List.mem_cons_of_mem _ hx), if_neg]
    exact fun heq => (List.nodup_cons.1 hnodup).1 (heq ▸ hx)

end Chain

end Lib
