import Sfs.Lib.Memory

/-!
# Loops over words

A loop that stores a word of `width` bytes at a time, and one that copies a word
at a time.  `storeLoop_filled_iff` says when a loop of stores sets every byte of
its range to one byte, and `copyLoop_eq_blit` that a loop of copies is one copy.
-/

namespace Lib

/-! ## The loops -/

/-- `while (size) { *dst = word; dst += width; size -= width; }` -/
def storeLoop (width : Nat) [NeZero width] (word : Nat) (mem : Mem) (dst size : Nat) : Mem :=
  if size = 0 then mem
  else storeLoop width word (putLE mem dst width word) (dst + width) (size - width)
termination_by size
decreasing_by
  have hpos : 0 < width := Nat.pos_of_neZero width
  omega

/-- `while (size) { *dst = *src; dst += width; src += width; size -= width; }` -/
def copyLoop (width : Nat) [NeZero width] (mem : Mem) (dst src size : Nat) : Mem :=
  if size = 0 then mem
  else
    copyLoop width (putLE mem dst width (getLE mem src width)) (dst + width) (src + width)
      (size - width)
termination_by size
decreasing_by
  have hpos : 0 < width := Nat.pos_of_neZero width
  omega

section

variable {width : Nat} [NeZero width]

@[simp] theorem storeLoop_zero (word : Nat) (mem : Mem) (dst : Nat) :
    storeLoop width word mem dst 0 = mem := by
  unfold storeLoop
  simp

/-- One turn of the loop. -/
theorem storeLoop_word (word : Nat) (mem : Mem) (dst n : Nat) :
    storeLoop width word mem dst (width * (n + 1)) =
      storeLoop width word (putLE mem dst width word) (dst + width) (width * n) := by
  have hpos : 0 < width := Nat.pos_of_neZero width
  have hrest : width * (n + 1) - width = width * n := by
    rw [Nat.mul_succ, Nat.add_sub_cancel]
  rw [storeLoop, if_neg (Nat.mul_ne_zero hpos.ne' (Nat.succ_ne_zero n)), hrest]

/-- Every byte of the range is the byte of the word at its place. -/
theorem storeLoop_apply (word : Nat) (mem : Mem) (dst n k : Nat) :
    storeLoop width word mem dst (width * n) k =
      if dst ≤ k ∧ k < dst + width * n then UInt8.ofNat (word / 256 ^ ((k - dst) % width))
      else mem k := by
  induction n generalizing mem dst with
  | zero =>
    rw [Nat.mul_zero, storeLoop_zero, if_neg (by omega)]
  | succ n ih =>
    rw [storeLoop_word, ih, Nat.mul_succ]
    by_cases hlt : k < dst + width
    · rw [if_neg (by omega)]
      by_cases hle : dst ≤ k
      · rw [putLE_inside hle hlt, if_pos (by omega), Nat.mod_eq_of_lt (by omega)]
      · rw [putLE_outside (by omega), if_neg (by omega)]
    · have hmod : (k - (dst + width)) % width = (k - dst) % width := by
        rw [← Nat.sub_sub]
        exact (Nat.mod_eq_sub_mod (by omega)).symm
      rw [hmod, putLE_outside (by omega)]
      by_cases hend : k < dst + (width * n + width)
      · rw [if_pos (by omega), if_pos (by omega)]
      · rw [if_neg (by omega), if_neg (by omega)]

@[simp] theorem copyLoop_zero (mem : Mem) (dst src : Nat) :
    copyLoop width mem dst src 0 = mem := by
  unfold copyLoop
  simp

/-- A loop over ranges that are apart copies the source as it was. -/
theorem copyLoop_eq_blit (mem : Mem) {dst src n : Nat}
    (hapart : dst + width * n ≤ src ∨ src + width * n ≤ dst) :
    copyLoop width mem dst src (width * n) = blit mem dst mem src (width * n) := by
  induction n generalizing mem dst src with
  | zero => simp
  | succ n ih =>
    have hpos : 0 < width := Nat.pos_of_neZero width
    have hne : width * (n + 1) ≠ 0 := Nat.mul_ne_zero hpos.ne' (Nat.succ_ne_zero n)
    rw [Nat.mul_succ] at hapart hne ⊢
    rw [copyLoop, if_neg hne, Nat.add_sub_cancel, putLE_getLE, ih _ (by omega),
      Nat.add_comm (width * n) width, ← blit_blit_append]
    apply blit_congr (fun _ _ => rfl)
    intro k hk
    exact blit_outside (by omega)

end

/-- The memory after is the memory before with the range set to a byte. -/
structure Filled (mem mem' : Mem) (dst size : Nat) (b : UInt8) : Prop where
  inside : ∀ k, dst ≤ k → k < dst + size → mem' k = b
  outside : ∀ k, k < dst ∨ dst + size ≤ k → mem' k = mem k

theorem filled_empty (mem : Mem) (dst : Nat) (b : UInt8) : Filled mem mem dst 0 b :=
  ⟨fun k hge hlt => absurd hlt (by omega), fun _ _ => rfl⟩

/-- A loop of stores fills when every byte of its word is the byte to fill with. -/
theorem storeLoop_filled_iff {width : Nat} [NeZero width] (word : Nat) (mem : Mem) (dst : Nat)
    {n : Nat} (b : UInt8) (hn : n ≠ 0) :
    Filled mem (storeLoop width word mem dst (width * n)) dst (width * n) b ↔
      ∀ j, j < width → UInt8.ofNat (word / 256 ^ j) = b := by
  have hpos : 0 < width := Nat.pos_of_neZero width
  constructor
  · intro h j hj
    have hle : width ≤ width * n := Nat.le_mul_of_pos_right width (Nat.pos_of_ne_zero hn)
    have hbyte := h.inside (dst + j) (Nat.le_add_right dst j) (by omega)
    rw [storeLoop_apply, if_pos (by omega), Nat.add_sub_cancel_left, Nat.mod_eq_of_lt hj] at hbyte
    exact hbyte
  · intro h
    constructor
    · intro k hge hlt
      rw [storeLoop_apply, if_pos ⟨hge, hlt⟩]
      exact h _ (Nat.mod_lt _ hpos)
    · intro k hk
      rw [storeLoop_apply, if_neg (by omega)]

end Lib
