import Mathlib.Data.Nat.Digits.Defs
import Sfs.Mksfs

/-!
# Size arguments

The sizes that `mksfs` takes as strings: digits, and a unit behind them.
`sscanfSize` is the `sscanf` of `convert_size`, and `SizeUnit.value` the size that
an argument stands for.

* `sscanfSize_digits` is what `sscanf` finds in such an argument;
* `convertSize_exact_iff` is the condition for `convert_size` to give the size, or
  to refuse it;
* `convertSize_wraps` is a size that becomes another one, which `main` accepts.
-/

namespace Sfs

open Lib

/-! ## Reading -/

/-- `isspace`. -/
def isSpace (c : UInt8) : Bool := c == 0x20 || (0x09 ≤ c && c ≤ 0x0D)

/-- `isdigit`. -/
def isDigit (c : UInt8) : Bool := 0x30 ≤ c && c ≤ 0x39

/-- The number that the digits write. -/
def decimal (ds : Buf) : Nat := Nat.ofDigits 10 (ds.reverse.map fun c => c.toNat - 0x30)

/-- `ULONG_MAX`. -/
abbrev ulongMax : Nat := 18446744073709551615

/-- `strtoul` of a sign and digits: `ULONG_MAX` for a number that is too great. -/
def strtoul (minus : Bool) (n : Nat) : Nat :=
  if ulongMax < n then ulongMax else if minus then toSizeT (-n) else n

/-- `sscanf(s, "%lu%c%c", ..)`, with the arguments 0 before it. -/
def sscanfSize (s : Buf) : Scanned :=
  let s : Buf := (cstr s).dropWhile isSpace
  -- The end of the string before the number is `EOF`.
  if s = [] then ⟨-1, 0, 0, 0⟩
  else
    let digits : Buf := if s.char 0 = 0x2B ∨ s.char 0 = 0x2D then s.tail else s
    let rest : Buf := digits.dropWhile isDigit
    if digits.takeWhile isDigit = [] then ⟨0, 0, 0, 0⟩
    else {
      retCode := 1 + min 2 rest.length
      number := wrapSigned (strtoul (s.char 0 == 0x2D) (decimal (digits.takeWhile isDigit)))
      lastSym := rest.char 0
      errC := rest.char 1 }

/-! ## Sizes -/

/-- The units of `convert_size`. -/
inductive SizeUnit where
  | bytes
  | kilo
  | mega
  | giga
  | percent
  deriving DecidableEq

namespace SizeUnit

/-- The letters for the unit. -/
def letters : SizeUnit → List Buf
  | bytes => [[], [0x42], [0x62]]
  | kilo => [[0x4B], [0x6B]]
  | mega => [[0x4D], [0x6D]]
  | giga => [[0x47], [0x67]]
  | percent => [[0x25]]

/-- The size that the number stands for. -/
def value (n fileS : Nat) : SizeUnit → Nat
  | bytes => n
  | kilo => 1024 * n
  | mega => 1024 ^ 2 * n
  | giga => 1024 ^ 3 * n
  | percent => fileS * n / 100

/-- The arithmetic of `convert_size` has room for the size.  The product of a
percentage is signed, and turns negative.  The multiples of 100 just below
`100 * 2 ^ 64` are the ones that come out right all the same. -/
def Fits (n fileS : Nat) : SizeUnit → Prop
  | bytes => True
  | kilo => 1024 * n < 2 ^ 64
  | mega => 1024 ^ 2 * n < 2 ^ 64
  | giga => 1024 ^ 3 * n < 2 ^ 64
  | percent => fileS * n < 2 ^ 63 ∨
    100 ∣ fileS * n ∧ 100 * 2 ^ 64 - 2 ^ 63 ≤ fileS * n ∧ fileS * n < 100 * 2 ^ 64

end SizeUnit

/-! ## The arithmetic -/

theorem toSizeT_eq_iff (n : Nat) : toSizeT n = n ↔ n < 2 ^ 64 := by
  unfold toSizeT
  omega

theorem wrapSigned_eq {n : Nat} (h : n < 2 ^ 63) : wrapSigned n = n := by
  unfold wrapSigned
  omega

/-- A number from `2 ^ 63` on is negative. -/
theorem wrapSigned_neg {n : Nat} (hge : 2 ^ 63 ≤ n) (hlt : n < 2 ^ 64) : wrapSigned n < 0 := by
  unfold wrapSigned
  omega

theorem toSizeT_nonneg {n : Int} (hge : 0 ≤ n) (hlt : n < 2 ^ 64) : toSizeT n = n.toNat := by
  rw [toSizeT, Int.emod_eq_of_lt hge (by omega)]

theorem toSizeT_neg {n : Int} (hpos : 0 < n) (hle : n ≤ 2 ^ 64) :
    toSizeT (-n) = (2 ^ 64 - n).toNat := by
  unfold toSizeT
  omega

/-- A number is its signed value and so many times `2 ^ 64`. -/
theorem exists_wrapSigned (p : Nat) :
    ∃ k : Int, p = wrapSigned p + 2 ^ 64 * k ∧ -2 ^ 63 ≤ wrapSigned p ∧ wrapSigned p < 2 ^ 63 := by
  refine ⟨((p : Int) + 9223372036854775808) / 18446744073709551616, ?_⟩
  unfold wrapSigned
  omega

/-- The hundredth of a signed value as a `size_t`. -/
theorem toSizeT_hundredth {w : Int} (hge : -2 ^ 63 ≤ w) (hlt : w < 2 ^ 63) :
    (toSizeT (w.tdiv 100) : Int) =
      if 0 ≤ w then w / 100 else if -100 < w then 0 else 2 ^ 64 - -w / 100 := by
  split
  · rw [Int.tdiv_eq_ediv_of_nonneg (by omega), toSizeT_nonneg (by omega) (by omega)]
    omega
  have htdiv : w.tdiv 100 = -(-w / 100) := by
    rw [← Int.tdiv_eq_ediv_of_nonneg (by omega), Int.neg_tdiv, neg_neg]
  rw [htdiv]
  split
  · have hzero : -w / 100 = 0 := by omega
    rw [hzero]
    rfl
  · rw [toSizeT_neg (by omega) (by omega)]
    omega

/-- The hundredth of a product that has wrapped is the hundredth of the product. -/
theorem hundredth_eq_iff (p : Nat) :
    toSizeT ((wrapSigned p).tdiv 100) = p / 100 ↔ p < 2 ^ 63 ∨
      100 ∣ p ∧ 100 * 2 ^ 64 - 2 ^ 63 ≤ p ∧ p < 100 * 2 ^ 64 := by
  obtain ⟨k, hp, hge, hlt⟩ := exists_wrapSigned p
  have hval := toSizeT_hundredth hge hlt
  generalize wrapSigned p = w at *
  generalize toSizeT (w.tdiv 100) = r at *
  -- The hundredth of a negative value is close to `2 ^ 64`, so only `k = 100` meets it.
  have hk : k = 0 ∨ 0 < k ∧ k < 100 ∨ k = 100 ∨ 100 < k := by omega
  rcases hk with rfl | ⟨hpos, hlt'⟩ | rfl | hgt
  · rw [if_pos (by omega)] at hval
    omega
  · split at hval
    · omega
    split at hval <;> omega
  · split at hval
    · omega
    split at hval <;> omega
  · split at hval
    · omega
    split at hval <;> omega

/-! ## What is read -/

theorem isDigit_not_space {c : UInt8} (h : isDigit c = true) : isSpace c = false := by
  simp only [isDigit, Bool.and_eq_true, decide_eq_true_eq, UInt8.le_iff_toNat_le] at h
  have hge : 48 ≤ c.toNat := h.1
  have hne : c ≠ 0x20 := by
    intro hc
    subst hc
    exact absurd hge (by decide)
  have hlt : ¬ c ≤ 0x0D := by
    rw [UInt8.le_iff_toNat_le]
    show ¬ c.toNat ≤ 13
    omega
  simp [isSpace, hne, hlt]

theorem isDigit_not_sign {c : UInt8} (h : isDigit c = true) : c ≠ 0x2B ∧ c ≠ 0x2D := by
  constructor <;> intro hc <;> subst hc <;> exact absurd h (by decide)

/-- Of digits and something else, `sscanf` reads the number and the two characters
behind it. -/
theorem sscanfSize_digits {s ds l : Buf} (hs : cstr s = ds ++ l) (hne : ds ≠ [])
    (hds : ∀ c ∈ ds, isDigit c = true) (hl : ∀ c, l.head? = some c → isDigit c = false) :
    sscanfSize s = ⟨1 + min 2 l.length, wrapSigned (strtoul false (decimal ds)), Buf.char l 0,
      Buf.char l 1⟩ := by
  have htake : (ds ++ l).takeWhile isDigit = ds := by
    rw [List.takeWhile_append_of_pos hds]
    cases l with
    | nil => simp
    | cons c l => simp [hl c rfl]
  have hdrop : (ds ++ l).dropWhile isDigit = l := by
    rw [List.dropWhile_append_of_pos hds]
    cases l with
    | nil => rfl
    | cons c l => simp [hl c rfl]
  obtain ⟨d, ds', rfl⟩ := List.exists_cons_of_ne_nil hne
  have hd : isDigit d = true := hds d List.mem_cons_self
  have hskip : (d :: ds' ++ l).dropWhile isSpace = d :: ds' ++ l := by
    simp [isDigit_not_space hd]
  have hchar : Buf.char (d :: ds' ++ l) 0 = d := rfl
  obtain ⟨hplus, hminus⟩ := isDigit_not_sign hd
  have hsign : ¬ (d = 0x2B ∨ d = 0x2D) := by simp [hplus, hminus]
  have hpos : (d == 0x2D) = false := beq_false_of_ne hminus
  unfold sscanfSize
  rw [hs, hskip, if_neg (by simp), hchar]
  dsimp only
  rw [if_neg hsign, htake, hdrop, if_neg hne, hpos]

namespace SizeUnit

/-- What `convert_size` makes of a number that is not negative. -/
def converted (n : Int) (fileS : Nat) : SizeUnit → Option Nat
  | bytes => some (toSizeT n)
  | kilo => some (toSizeT (1024 * n))
  | mega => some (toSizeT (1024 * 1024 * n))
  | giga => some (toSizeT (1024 * 1024 * 1024 * n))
  | percent => if fileS ≠ 0 then some (toSizeT ((wrapSigned (fileS * n)).tdiv 100)) else none

variable {u : SizeUnit} {l : Buf} {n fileS : Nat}

/-- A unit is one letter at most, and no digit. -/
theorem letters_spec (hl : l ∈ u.letters) :
    Buf.char l 1 = 0 ∧ ∀ c, l.head? = some c → isDigit c = false := by
  have hforall : ∀ l ∈ u.letters, Buf.char l 1 = 0 ∧ l.head?.all (fun c => !isDigit c) = true := by
    cases u <;> decide
  obtain ⟨hchar, hhead⟩ := hforall l hl
  refine ⟨hchar, fun c hc => ?_⟩
  rw [hc] at hhead
  simpa using hhead

theorem convertSize_eq (hl : l ∈ u.letters) {ret number : Int} (hret : ret ≠ 0)
    (hnumber : 0 ≤ number) :
    convertSize ⟨ret, number, Buf.char l 0, 0⟩ fileS = u.converted number fileS := by
  have hguard : ¬ ((0 : UInt8) ≠ 0 ∨ ret = 0 ∨ number < 0) := by
    simp [hret, hnumber]
  unfold convertSize
  rw [if_neg hguard]
  cases u <;> simp only [letters, List.mem_cons, List.not_mem_nil, or_false] at hl
  case bytes => rcases hl with rfl | rfl | rfl <;> rfl
  case percent => subst hl; rfl
  all_goals rcases hl with rfl | rfl <;> rfl

/-- The size is the one that the argument stands for. -/
theorem converted_eq_iff (hlt : n < 2 ^ 63) :
    (u.converted n fileS = none ∨ u.converted n fileS = some (u.value n fileS)) ↔
      u.Fits n fileS := by
  cases u with
  | bytes =>
    have heq : toSizeT n = n := (toSizeT_eq_iff n).2 (by omega)
    simp [converted, value, Fits, heq]
  | kilo =>
    have hiff := toSizeT_eq_iff (1024 * n)
    push_cast at hiff
    simp [converted, value, Fits, hiff]
  | mega =>
    have hiff := toSizeT_eq_iff (1024 * 1024 * n)
    push_cast at hiff
    simp [converted, value, Fits, hiff]
  | giga =>
    have hiff := toSizeT_eq_iff (1024 * 1024 * 1024 * n)
    push_cast at hiff
    simp [converted, value, Fits, hiff]
  | percent =>
    have hiff := hundredth_eq_iff (fileS * n)
    push_cast at hiff
    by_cases hz : fileS = 0
    · simp [converted, Fits, hz]
    · simp [converted, value, Fits, hz, hiff]

end SizeUnit

/-! ## Size arguments -/

theorem strtoul_of_le {n : Nat} (h : n ≤ ulongMax) : strtoul false n = n := by
  simp [strtoul, Nat.not_lt.2 h]

/-- A number from `2 ^ 63` on is read as a negative one, also where it is too great. -/
theorem number_neg {n : Nat} (h : 2 ^ 63 ≤ n) : wrapSigned (strtoul false n) < 0 := by
  by_cases hle : n ≤ ulongMax
  · rw [strtoul_of_le hle]
    exact wrapSigned_neg h (Nat.lt_succ_of_le hle)
  · have hmax : strtoul false n = ulongMax := if_pos (Nat.lt_of_not_le hle)
    rw [hmax]
    decide

/-- Of digits and a unit, `convert_size` gives the size they stand for or refuses
them just when the number is not less than `2 ^ 63` or its arithmetic has room. -/
theorem convertSize_exact_iff {s ds l : Buf} {u : SizeUnit} (hs : cstr s = ds ++ l)
    (hne : ds ≠ []) (hds : ∀ c ∈ ds, isDigit c = true) (hl : l ∈ u.letters) (fileS : Nat) :
    (convertSize (sscanfSize s) fileS = none ∨
      convertSize (sscanfSize s) fileS = some (u.value (decimal ds) fileS)) ↔
        2 ^ 63 ≤ decimal ds ∨ u.Fits (decimal ds) fileS := by
  obtain ⟨herr, hhead⟩ := SizeUnit.letters_spec hl
  rw [sscanfSize_digits hs hne hds hhead, herr]
  by_cases hge : 2 ^ 63 ≤ decimal ds
  · have hneg := number_neg hge
    have hnone : convertSize ⟨1 + min 2 l.length, wrapSigned (strtoul false (decimal ds)),
        Buf.char l 0, 0⟩ fileS = none := by
      simp [convertSize, hneg]
    exact ⟨fun _ => Or.inl hge, fun _ => Or.inl hnone⟩
  · have hlt : decimal ds < 2 ^ 63 := Nat.lt_of_not_le hge
    have hle : decimal ds ≤ ulongMax := by
      show decimal ds ≤ 18446744073709551615
      omega
    rw [strtoul_of_le hle, wrapSigned_eq hlt,
      SizeUnit.convertSize_eq hl (by omega) (Int.natCast_nonneg _), SizeUnit.converted_eq_iff hlt]
    exact ⟨Or.inr, fun h => h.resolve_left hge⟩

/-- The argument `5K`. -/
theorem convertSize_exact_iff_5K : convertSize (sscanfSize [0x35, 0x4B, 0]) 0 = none ∨
    convertSize (sscanfSize [0x35, 0x4B, 0]) 0 = some (SizeUnit.kilo.value (decimal [0x35]) 0) :=
  (convertSize_exact_iff (show cstr [0x35, 0x4B, 0] = [0x35] ++ [0x4B] from rfl) (by decide)
    (by simp [isDigit]) (by decide) 0).2 (Or.inr (show 1024 * decimal [0x35] < 2 ^ 64 by decide))

/-- The digits of 2 ^ 54 + 1. -/
def hugeDigits : Buf :=
  [0x31, 0x38, 0x30, 0x31, 0x34, 0x33, 0x39, 0x38, 0x35, 0x30, 0x39, 0x34, 0x38, 0x31, 0x39, 0x38,
    0x35]

/-- So many kilobytes are taken for one, and `main` formats the image. -/
theorem convertSize_wraps : decimal hugeDigits = 2 ^ 54 + 1 ∧
    convertSize (sscanfSize (hugeDigits ++ [0x4B, 0])) 1048576 = some 1024 ∧
    SizeUnit.kilo.value (decimal hugeDigits) 1048576 ≠ 1024 ∧
    (mksfsOptions 1048576 none (some (sscanfSize (hugeDigits ++ [0x4B, 0]))) [] 0).map
      SfsOptions.indexSize = some 1024 := by
  decide +kernel

end Sfs
