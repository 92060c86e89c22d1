import Mathlib.Algebra.BigOperators.Intervals
import Sfs.Session

/-!
# The checksum of the MBR

`image_create` sums the bytes of the MBR from `magic_number` up to the checksum.
`sfs_init` computes the sum from the fields with `calc_checksum`, which masks the
bytes of `reserved_size` but does not shift them, so the casts to a byte leave
nothing of the three high ones.
-/

namespace Sfs

open Lib

/-- The sum over the bytes, reduced once. -/
theorem byteSum_eq_sum (m : Mem) (p n : Nat) :
    byteSum m p n = (∑ i ∈ Finset.range n, (m (p + i)).toNat) % 256 := by
  induction n generalizing p with
  | zero => rfl
  | succ n ih =>
    have hshift : ∀ i, m (p + 1 + i) = m (p + (i + 1)) := fun i => by
      rw [Nat.add_assoc, Nat.add_comm 1 i]
    rw [byteSum, ih, Nat.add_mod_mod, Finset.sum_range_succ', Nat.add_comm]
    simp only [hshift, Nat.add_zero]

/-- The sum over the fields is the sum over the bytes if and only if the three
high bytes of the reserved size add up to 0. -/
theorem calcChecksum_eq_iff (m : Mem) :
    calcChecksum (mbrFields m).magicNumber (mbrFields m).sfsV (mbrFields m).totalSize
        (mbrFields m).reservedSize (mbrFields m).bSizeP2 = byteSum m mbrMagicNumber 17 ↔
      ((mbrFields m).reservedSize / 2 ^ 8 % 256 + (mbrFields m).reservedSize / 2 ^ 16 % 256
        + (mbrFields m).reservedSize / 2 ^ 24 % 256) % 256 = 0 := by
  have hmagic : ∀ i, i < 3 → (mbrFields m).magicNumber i = m (428 + i) := by
    intro i hi
    rw [show (mbrFields m).magicNumber = blit _ 0 m 428 3 from rfl,
      blit_inside (Nat.zero_le i) (by omega), Nat.sub_zero]
  have hversion : (mbrFields m).sfsV = (m 431).toNat := rfl
  have hshift : (mbrFields m).bSizeP2 = (m 444).toNat := rfl
  have htotal : ∀ k, k < 8 → (mbrFields m).totalSize / 256 ^ k % 256 = (m (432 + k)).toNat :=
    fun k hk => getLE_byte m mbrTotalSize hk
  have hreserved : ∀ k, k < 4 → (mbrFields m).reservedSize / 256 ^ k % 256 = (m (440 + k)).toNat :=
    fun k hk => getLE_byte m mbrReservedSize hk
  have hsum : byteSum m mbrMagicNumber 17 = (∑ i ∈ Finset.range 17, (m (428 + i)).toNat) % 256 :=
    byteSum_eq_sum m 428 17
  -- Every shift of the function is a byte of its field.
  have t₀ := htotal 0 (by decide)
  have t₁ := htotal 1 (by decide)
  have t₂ := htotal 2 (by decide)
  have t₃ := htotal 3 (by decide)
  have t₄ := htotal 4 (by decide)
  have t₅ := htotal 5 (by decide)
  have t₆ := htotal 6 (by decide)
  have t₇ := htotal 7 (by decide)
  have r₀ := hreserved 0 (by decide)
  have r₁ := hreserved 1 (by decide)
  have r₂ := hreserved 2 (by decide)
  have r₃ := hreserved 3 (by decide)
  simp only [Nat.reducePow, Nat.reduceAdd, Nat.div_one] at t₀ t₁ t₂ t₃ t₄ t₅ t₆ t₇ r₀ r₁ r₂ r₃
  rw [calcChecksum, hsum, hmagic 0 (by decide), hmagic 1 (by decide), hmagic 2 (by decide),
    hversion, hshift]
  simp only [Finset.sum_range_succ, Finset.sum_range_zero, Nat.reducePow, Nat.reduceAdd]
  rw [t₀, t₁, t₂, t₃, t₄, t₅, t₆, t₇, r₀, r₁, r₂, r₃]
  omega

/-- A volume with 256 reserved blocks. -/
def wideReserved : SfsOptions := { blankOpts with reservedSize := 256 }

/-- The checksum that `image_create` stores for it is not the one that `sfs_init`
computes. -/
theorem calcChecksum_misses_bytes :
    (mbrFields (mbrBlock wideReserved)).reservedSize = 256 ∧
      calcChecksum (mbrFields (mbrBlock wideReserved)).magicNumber
        (mbrFields (mbrBlock wideReserved)).sfsV (mbrFields (mbrBlock wideReserved)).totalSize
        (mbrFields (mbrBlock wideReserved)).reservedSize
        (mbrFields (mbrBlock wideReserved)).bSizeP2
      ≠ byteSum (mbrBlock wideReserved) mbrMagicNumber 17 := by
  decide +kernel

end Sfs
