import Sfs.Lib.WordLoop
import Sfs.Entry

/-!
# Filling and copying by words

The `memcpy` and `memset` of `utils.c`, on addresses of one memory.  Each has
three loops: over 32-bit words, over 16-bit words, and over bytes.  The
addresses and the size select the loop.

* `Ptr.memcpy_eq` and `Ptr.zero_eq_memset` join them to the `memcpy` and the
  `Entry.zero` that the file system uses, which know no addresses;
* `Ptr.memset_filled_iff` is the condition for `memset` to fill its range, and
  `Ptr.memset_ones` a word that it does not fill.
-/

namespace Sfs

open Lib

/-! ## The functions -/

/-- `D_ALIGNED`. -/
def dAligned (n : Nat) : Prop := n % 4 = 0

/-- `W_ALIGNED`. -/
def wAligned (n : Nat) : Prop := n % 2 = 0

instance (n : Nat) : Decidable (dAligned n) := inferInstanceAs (Decidable (n % 4 = 0))

instance (n : Nat) : Decidable (wAligned n) := inferInstanceAs (Decidable (n % 2 = 0))

/-- `sizeof(uint8_t)`. -/
abbrev sizeofUint8 : Nat := 1

namespace Ptr

/-- `memcpy`: the pointer it returns, and the memory after it. -/
def memcpy (mem : Mem) (dst src size : Nat) : Nat × Mem :=
  if src = 0 ∨ dst = 0 then (0, mem)
  else if dAligned src ∧ dAligned dst ∧ dAligned size then (dst, copyLoop 4 mem dst src size)
  else if wAligned src ∧ wAligned dst ∧ wAligned size then (dst, copyLoop 2 mem dst src size)
  else (dst, copyLoop 1 mem dst src size)

/-- `dtemp` of `memset`, a `uint32_t`. -/
def dtemp (z : UInt8) : Nat :=
  -- The shifts are by bytes, not by the bits in them.
  ((z.toNat <<< (3 * sizeofUint8)) + (z.toNat <<< (2 * sizeofUint8)) +
    (z.toNat <<< sizeofUint8) + z.toNat) % 2 ^ 32

/-- `wtemp` of `memset`, a `uint16_t`. -/
def wtemp (z : UInt8) : Nat := ((z.toNat <<< sizeofUint8) + z.toNat) % 2 ^ 16

/-- `memset`: the pointer it returns, and the memory after it. -/
def memset (mem : Mem) (dst : Nat) (c : Int) (size : Nat) : Nat × Mem :=
  let z := UInt8.ofInt c
  if dst = 0 then (0, mem)
  else if dAligned dst ∧ dAligned size then (dst, storeLoop 4 (dtemp z) mem dst size)
  else if wAligned dst ∧ wAligned size then (dst, storeLoop 2 (wtemp z) mem dst size)
  else (dst, storeLoop 1 z.toNat mem dst size)

variable {mem : Mem} {dst src size : Nat} {c : Int} {z : UInt8}

/-! ## Copying -/

/-- `memcpy` between ranges that are apart copies its bytes, whichever loop it
takes. -/
theorem memcpy_eq_blit (hdst : dst ≠ 0) (hsrc : src ≠ 0)
    (hapart : dst + size ≤ src ∨ src + size ≤ dst) :
    memcpy mem dst src size = (dst, blit mem dst mem src size) := by
  have hloop : ∀ (width : Nat) [NeZero width], width ∣ size →
      copyLoop width mem dst src size = blit mem dst mem src size := by
    intro width _ ⟨n, hn⟩
    subst hn
    exact copyLoop_eq_blit mem hapart
  unfold memcpy
  rw [if_neg (by simp [hdst, hsrc])]
  split
  next hd => rw [hloop 4 (Nat.dvd_of_mod_eq_zero hd.2.2)]
  next =>
    split
    next hw => rw [hloop 2 (Nat.dvd_of_mod_eq_zero hw.2.2)]
    next => rw [hloop 1 (Nat.one_dvd size)]

/-- On objects that are apart it is the `memcpy` of a buffer to a position. -/
theorem memcpy_eq {dest p : Nat} {s : Buf} (hdest : dest + p ≠ 0) (hsrc : src ≠ 0)
    (hapart : dest + p + size ≤ src ∨ src + size ≤ dest + p)
    (hs : ∀ i, i < size → mem (src + i) = s.char i) (k : Nat) :
    (memcpy mem (dest + p) src size).2 (dest + k) =
      Sfs.memcpy (fun i => mem (dest + i)) p s size k := by
  rw [memcpy_eq_blit hdest hsrc hapart]
  show blit mem (dest + p) mem src size (dest + k) = blit _ p s.char 0 size k
  by_cases hk : p ≤ k ∧ k < p + size
  · rw [blit_inside (by omega) (by omega), blit_inside hk.1 hk.2, hs _ (by omega), Nat.zero_add]
    congr 1
    omega
  · rw [blit_outside (by omega), blit_outside (by omega)]

/-! ## Filling -/

theorem dtemp_eq (z : UInt8) : dtemp z = 15 * z.toNat := by
  have hlt : z.toNat < 256 := z.toNat_lt
  simp only [dtemp, sizeofUint8, Nat.shiftLeft_eq, Nat.mul_one, Nat.reducePow]
  omega

theorem wtemp_eq (z : UInt8) : wtemp z = 3 * z.toNat := by
  have hlt : z.toNat < 256 := z.toNat_lt
  simp only [wtemp, sizeofUint8, Nat.shiftLeft_eq, Nat.reducePow]
  omega

/-- The third byte of `dtemp` is 0. -/
theorem dtemp_bytes_iff : (∀ j, j < 4 → UInt8.ofNat (dtemp z / 256 ^ j) = z) ↔ z = 0 := by
  rw [dtemp_eq]
  constructor
  · intro h
    have hlt : z.toNat < 256 := z.toNat_lt
    have hthird : 15 * z.toNat / 256 ^ 2 = 0 := by omega
    have hbyte := h 2 (by decide)
    rw [hthird] at hbyte
    exact hbyte.symm
  · intro h j hj
    subst h
    simp

/-- The second byte of `wtemp` is less than the first. -/
theorem wtemp_bytes_iff : (∀ j, j < 2 → UInt8.ofNat (wtemp z / 256 ^ j) = z) ↔ z = 0 := by
  rw [wtemp_eq]
  constructor
  · intro h
    have hlt : z.toNat < 256 := z.toNat_lt
    have hbyte := congrArg UInt8.toNat (h 1 (by decide))
    rw [UInt8.toNat_ofNat'] at hbyte
    rw [← UInt8.toNat_inj]
    show z.toNat = 0
    omega
  · intro h j hj
    subst h
    simp

/-- The only byte of the loop over bytes is the byte to fill with. -/
theorem byte_bytes : ∀ j, j < 1 → UInt8.ofNat (z.toNat / 256 ^ j) = z := by
  intro j hj
  have hz : j = 0 := by omega
  subst hz
  simp

@[simp] theorem memset_null (mem : Mem) (c : Int) (size : Nat) :
    memset mem 0 c size = (0, mem) := by
  simp [memset]

/-- `memset` of no bytes. -/
theorem memset_size_zero (mem : Mem) (dst : Nat) (c : Int) : (memset mem dst c 0).2 = mem := by
  unfold memset
  dsimp only
  split
  · rfl
  split
  · simp
  split <;> simp

/-- The loop that `memset` takes for a range that is not empty, and what its words
must be to fill it. -/
theorem memset_filled_iff_bytes (hdst : dst ≠ 0) (hsize : size ≠ 0) :
    Filled mem (memset mem dst c size).2 dst size (UInt8.ofInt c) ↔
      UInt8.ofInt c = 0 ∨ dst % 2 = 1 ∨ size % 2 = 1 := by
  generalize hz : UInt8.ofInt c = z
  unfold memset
  rw [hz, if_neg hdst]
  have hloop : ∀ (width word : Nat) [NeZero width], width ∣ size →
      (Filled mem (storeLoop width word mem dst size) dst size z ↔
        ∀ j, j < width → UInt8.ofNat (word / 256 ^ j) = z) := by
    intro width word _ ⟨n, hn⟩
    subst hn
    exact storeLoop_filled_iff word mem dst z (Nat.ne_zero_of_mul_ne_zero_right hsize)
  split
  next hd =>
    have heven : dst % 4 = 0 ∧ size % 4 = 0 := hd
    rw [hloop 4 _ (Nat.dvd_of_mod_eq_zero hd.2), dtemp_bytes_iff]
    exact ⟨Or.inl, fun h => h.resolve_right (by omega)⟩
  next =>
    split
    next hw =>
      have heven : dst % 2 = 0 ∧ size % 2 = 0 := hw
      rw [hloop 2 _ (Nat.dvd_of_mod_eq_zero hw.2), wtemp_bytes_iff]
      exact ⟨Or.inl, fun h => h.resolve_right (by omega)⟩
    next hw =>
      have hodd : ¬ (dst % 2 = 0 ∧ size % 2 = 0) := hw
      rw [hloop 1 _ (Nat.one_dvd size)]
      exact ⟨fun _ => Or.inr (by omega), fun _ => byte_bytes⟩

/-- With zeros it is what empties an entry, for an entry of any size. -/
theorem memset_zero (hdst : dst ≠ 0) (k : Nat) :
    (memset mem dst 0 size).2 (dst + k)
      = blit (fun i => mem (dst + i)) 0 (fun _ => 0) 0 size k := by
  by_cases hsize : size = 0
  · subst hsize
    rw [memset_size_zero, blit_zero]
  have hfilled : Filled mem (memset mem dst 0 size).2 dst size (UInt8.ofInt 0) :=
    (memset_filled_iff_bytes hdst hsize).2 (Or.inl (by decide))
  by_cases hk : k < size
  · rw [hfilled.inside _ (Nat.le_add_right dst k) (by omega), blit_inside (by omega) (by omega)]
    rfl
  · rw [hfilled.outside _ (by omega), blit_outside (by omega)]

theorem zero_eq_memset (hdst : dst ≠ 0) (k : Nat) :
    (memset mem dst 0 indexEntrySize).2 (dst + k) = Entry.zero (fun i => mem (dst + i)) k :=
  memset_zero hdst k

/-- `memset` fills its range, and leaves the rest, just when the range is empty,
the byte is 0, or the address or the size is odd. -/
theorem memset_filled_iff (hdst : dst ≠ 0) :
    Filled mem (memset mem dst c size).2 dst size (UInt8.ofInt c) ↔
      size = 0 ∨ UInt8.ofInt c = 0 ∨ dst % 2 = 1 ∨ size % 2 = 1 := by
  by_cases hsize : size = 0
  · subst hsize
    rw [memset_size_zero]
    exact ⟨fun _ => Or.inl rfl, fun _ => filled_empty mem dst _⟩
  · rw [memset_filled_iff_bytes hdst hsize]
    exact ⟨Or.inr, fun h => h.resolve_left hsize⟩

/-- Three bytes are set to 7. -/
theorem memset_filled_iff_sevens :
    Filled (fun _ => 0) (memset (fun _ => 0) 8 7 3).2 8 3 (UInt8.ofInt 7) :=
  (memset_filled_iff (by decide)).2 (Or.inr (Or.inr (Or.inr rfl)))

/-- Four bytes are not set to 1. -/
theorem memset_ones : ¬ ∀ (mem : Mem) (dst : Nat) (c : Int) (size : Nat), dst ≠ 0 →
    Filled mem (memset mem dst c size).2 dst size (UInt8.ofInt c) := by
  intro h
  have hbytes := (memset_filled_iff_bytes (by decide) (by decide)).1
    (h (fun _ => 0) 8 1 4 (by decide))
  exact absurd hbytes (by decide)

end Ptr

end Sfs
