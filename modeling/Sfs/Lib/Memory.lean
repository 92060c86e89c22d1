import Mathlib.Tactic.Ring
import Mathlib.Tactic.Linarith
import Mathlib.Data.Nat.Log

/-!
# Byte memory

A region of memory is a function from byte positions to bytes.  The file
develops the two ways a program changes such a region:

* `blit` copies a run of bytes from one region into another, as `memcpy`
  does;
* `putLE` stores a number as little-endian bytes, and `getLE` reads one back.

`HoldsStr` says that a region holds a zero-terminated string at a position.
-/

namespace Lib

/-- Bytes by position. -/
abbrev Mem := Nat → UInt8

/-! ## Copying -/

/-- `dst` with the `n` bytes of `src` from `j` on copied to position `i`. -/
def blit (dst : Mem) (i : Nat) (src : Mem) (j n : Nat) : Mem :=
  fun k => if i ≤ k ∧ k < i + n then src (j + (k - i)) else dst k

theorem blit_inside {dst src : Mem} {i j n k : Nat} (hk : i ≤ k) (hk' : k < i + n) :
    blit dst i src j n k = src (j + (k - i)) :=
  if_pos ⟨hk, hk'⟩

theorem blit_outside {dst src : Mem} {i j n k : Nat} (hk : k < i ∨ i + n ≤ k) :
    blit dst i src j n k = dst k :=
  if_neg (by omega)

@[simp] theorem blit_zero (dst src : Mem) (i j : Nat) : blit dst i src j 0 = dst := by
  funext k
  exact blit_outside (by omega)

/-- A copied byte, addressed relative to the start of the copy. -/
theorem blit_add {dst src : Mem} {i j n k : Nat} (hk : k < n) :
    blit dst i src j n (i + k) = src (j + k) := by
  rw [blit_inside (by omega) (by omega), Nat.add_sub_cancel_left]

/-- Two copies that meet are one copy. -/
theorem blit_blit_append (dst src : Mem) (i j n m : Nat) :
    blit (blit dst i src j n) (i + n) src (j + n) m = blit dst i src j (n + m) := by
  funext k
  rcases Nat.lt_or_ge k i with hlt | hge
  · rw [blit_outside (Or.inl (by omega)), blit_outside (Or.inl hlt),
      blit_outside (Or.inl hlt)]
  rcases Nat.lt_or_ge k (i + n) with hlt | hge'
  · rw [blit_outside (Or.inl hlt), blit_inside hge hlt, blit_inside hge (by omega)]
  rcases Nat.lt_or_ge k (i + n + m) with hlt | hge''
  · rw [blit_inside hge' hlt, blit_inside hge (by omega)]
    congr 1
    omega
  · rw [blit_outside (Or.inr hge''), blit_outside (Or.inr hge'),
      blit_outside (Or.inr (by omega))]

/-- What a copy writes depends only on the bytes it reads. -/
theorem blit_congr {dst dst' src src' : Mem} {i j j' n : Nat}
    (hdst : ∀ k, k < i ∨ i + n ≤ k → dst k = dst' k)
    (hsrc : ∀ k, k < n → src (j + k) = src' (j' + k)) :
    blit dst i src j n = blit dst' i src' j' n := by
  funext k
  by_cases hk : i ≤ k ∧ k < i + n
  · rw [blit_inside hk.1 hk.2, blit_inside hk.1 hk.2]
    exact hsrc _ (by omega)
  · rw [blit_outside (by omega), blit_outside (by omega)]
    exact hdst k (by omega)

/-! ## Little-endian numbers -/

/-- The number stored in the `n` bytes from `p` on, least significant first. -/
def getLE (m : Mem) (p : Nat) : Nat → Nat
  | 0 => 0
  | n + 1 => (m p).toNat + 256 * getLE m (p + 1) n

/-- `m` with the `n` low bytes of `v` stored from `p` on. -/
def putLE (m : Mem) (p n v : Nat) : Mem :=
  fun k => if p ≤ k ∧ k < p + n then UInt8.ofNat (v / 256 ^ (k - p)) else m k

theorem putLE_outside {m : Mem} {p n v k : Nat} (hk : k < p ∨ p + n ≤ k) :
    putLE m p n v k = m k :=
  if_neg (by omega)

theorem putLE_inside {m : Mem} {p n v k : Nat} (hk : p ≤ k) (hk' : k < p + n) :
    putLE m p n v k = UInt8.ofNat (v / 256 ^ (k - p)) :=
  if_pos ⟨hk, hk'⟩

theorem getLE_one (m : Mem) (p : Nat) : getLE m p 1 = (m p).toNat := by
  simp [getLE]

@[simp] theorem getLE_zeros (p n : Nat) : getLE (fun _ => 0) p n = 0 := by
  induction n generalizing p with
  | zero => rfl
  | succ n ih => simp [getLE, ih]

theorem getLE_lt (m : Mem) (p n : Nat) : getLE m p n < 256 ^ n := by
  induction n generalizing p with
  | zero => simp [getLE]
  | succ n ih =>
    have hbyte : (m p).toNat < 256 := (m p).toNat_lt
    have hrest := ih (p + 1)
    rw [getLE, Nat.pow_succ]
    omega

/-- A number read depends only on its own bytes. -/
theorem getLE_congr {m m' : Mem} {p p' n : Nat} (h : ∀ k, k < n → m (p + k) = m' (p' + k)) :
    getLE m p n = getLE m' p' n := by
  induction n generalizing p p' with
  | zero => rfl
  | succ n ih =>
    have hhead : m p = m' p' := by simpa using h 0 (by omega)
    have htail : getLE m (p + 1) n = getLE m' (p' + 1) n := by
      refine ih fun k hk => ?_
      have := h (k + 1) (by omega)
      rwa [Nat.add_comm k 1, ← Nat.add_assoc, ← Nat.add_assoc] at this
    rw [getLE, getLE, hhead, htail]

theorem getLE_putLE_of_disjoint {m : Mem} {p q n k v : Nat} (h : p + n ≤ q ∨ q + k ≤ p) :
    getLE (putLE m q k v) p n = getLE m p n :=
  getLE_congr fun i hi => putLE_outside (by omega)

theorem getLE_blit_of_disjoint {dst src : Mem} {p i j n k : Nat} (h : p + n ≤ i ∨ i + k ≤ p) :
    getLE (blit dst i src j k) p n = getLE dst p n :=
  getLE_congr fun _ _ => blit_outside (by omega)

theorem getLE_blit_of_subset {dst src : Mem} {p i j n k : Nat} (hi : i ≤ p) (hk : p + n ≤ i + k) :
    getLE (blit dst i src j k) p n = getLE src (j + (p - i)) n := by
  refine getLE_congr fun q hq => ?_
  rw [blit_inside (by omega) (by omega)]
  congr 1
  omega

private theorem getLE_putLE_aux (m : Mem) (p n v k : Nat) (hk : k ≤ n) :
    getLE (putLE m p n v) (p + (n - k)) k = v / 256 ^ (n - k) % 256 ^ k := by
  induction k with
  | zero => simp [getLE, Nat.mod_one]
  | succ k ih =>
    have hnext : n - (k + 1) + 1 = n - k := by omega
    have hhead : (putLE m p n v (p + (n - (k + 1)))).toNat
        = v / 256 ^ (n - (k + 1)) % 256 := by
      rw [putLE_inside (by omega) (by omega), Nat.add_sub_cancel_left]
      simp [UInt8.toNat_ofNat']
    rw [getLE, hhead, Nat.add_assoc, hnext, ih (by omega), ← hnext,
      Nat.pow_succ 256 (n - (k + 1)), ← Nat.div_div_eq_div_mul]
    generalize v / 256 ^ (n - (k + 1)) = w
    rw [Nat.pow_succ', Nat.mod_mul]

/-- Reading back what was stored. -/
theorem getLE_putLE_same (m : Mem) (p n v : Nat) :
    getLE (putLE m p n v) p n = v % 256 ^ n := by
  simpa using getLE_putLE_aux m p n v n (Nat.le_refl n)

/-- A byte of a number read. -/
theorem getLE_byte (m : Mem) (p : Nat) {n k : Nat} (hk : k < n) :
    getLE m p n / 256 ^ k % 256 = (m (p + k)).toNat := by
  induction n generalizing p k with
  | zero => exact absurd hk (Nat.not_lt_zero k)
  | succ n ih =>
    have hbyte : (m p).toNat < 256 := (m p).toNat_lt
    rw [getLE]
    cases k with
    | zero =>
      rw [Nat.pow_zero, Nat.div_one]
      show _ = (m p).toNat
      omega
    | succ k =>
      have hrest : ((m p).toNat + 256 * getLE m (p + 1) n) / 256 = getLE m (p + 1) n := by omega
      rw [Nat.pow_succ', ← Nat.div_div_eq_div_mul, hrest, ih (p + 1) (by omega), Nat.add_assoc,
        Nat.add_comm 1 k]

/-- Copying a record back to where it came from changes nothing. -/
theorem blit_blit_self (data junk : Mem) (off len : Nat) :
    blit data off (blit junk 0 data off len) 0 len = data := by
  funext k
  by_cases hk : off ≤ k ∧ k < off + len
  · rw [blit_inside hk.1 hk.2, Nat.zero_add, blit_inside (by omega) (by omega)]
    congr 1
    omega
  · rw [blit_outside (by omega)]

/-- Storing the number that was read copies its bytes. -/
theorem putLE_getLE (m : Mem) (p q n : Nat) : putLE m p n (getLE m q n) = blit m p m q n := by
  funext k
  by_cases hk : p ≤ k ∧ k < p + n
  · have hbyte := getLE_byte m q (show k - p < n by omega)
    rw [putLE_inside hk.1 hk.2, blit_inside hk.1 hk.2, ← UInt8.toNat_inj, ← hbyte]
    exact UInt8.toNat_ofNat'
  · rw [putLE_outside (by omega), blit_outside (by omega)]

/-- Storing a number into a record before it is copied, or into the copy. -/
theorem blit_putLE (data record : Mem) (off p n v len : Nat) (h : p + n ≤ len) :
    blit data off (putLE record p n v) 0 len
      = putLE (blit data off record 0 len) (off + p) n v := by
  funext k
  by_cases hp : off + p ≤ k ∧ k < off + p + n
  · rw [blit_inside (by omega) (by omega), putLE_inside (by omega) (by omega),
      putLE_inside hp.1 hp.2]
    congr 3
    omega
  · rw [putLE_outside (by omega)]
    by_cases hk : off ≤ k ∧ k < off + len
    · rw [blit_inside hk.1 hk.2, blit_inside hk.1 hk.2, putLE_outside (by omega)]
    · rw [blit_outside (by omega), blit_outside (by omega)]

/-! ## Zero-terminated strings -/

/-- The memory holds the string `s`, followed by its terminator, at `p`. -/
structure HoldsStr (m : Mem) (p : Nat) (s : List UInt8) : Prop where
  char : ∀ i (h : i < s.length), m (p + i) = s[i]
  ne_zero : ∀ c ∈ s, c ≠ 0
  nul : m (p + s.length) = 0

namespace HoldsStr

variable {m : Mem} {p : Nat} {s t : List UInt8}

theorem char_ne_zero (h : HoldsStr m p s) {i : Nat} (hi : i < s.length) : m (p + i) ≠ 0 := by
  rw [h.char i hi]
  exact h.ne_zero _ (List.getElem_mem hi)

/-- The terminator is the first zero byte, so the length is determined. -/
theorem length_le (h : HoldsStr m p s) {i : Nat} (hi : m (p + i) = 0) : s.length ≤ i := by
  by_contra hlt
  exact h.char_ne_zero (by omega) hi

/-- Memory holds at most one string at a position. -/
theorem unique (hs : HoldsStr m p s) (ht : HoldsStr m p t) : s = t := by
  have hlen : s.length = t.length :=
    Nat.le_antisymm (hs.length_le ht.nul) (ht.length_le hs.nul)
  refine List.ext_getElem hlen fun i h₁ h₂ => ?_
  rw [← hs.char i h₁, ← ht.char i h₂]

/-- A string depends only on its own bytes and its terminator. -/
theorem congr {m' : Mem} {p' : Nat} (h : HoldsStr m p s)
    (hm : ∀ i, i ≤ s.length → m' (p' + i) = m (p + i)) : HoldsStr m' p' s where
  char i hi := by rw [hm i (by omega), h.char i hi]
  ne_zero := h.ne_zero
  nul := by rw [hm _ (Nat.le_refl _), h.nul]

end HoldsStr

/-- The first `k` characters at `p` are those of `c`, and none is the
terminator. -/
def Agrees (m : Mem) (p : Nat) (c : Nat → UInt8) (k : Nat) : Prop :=
  ∀ i, i < k → m (p + i) = c i ∧ c i ≠ 0

section Agrees

variable {m : Mem} {p k : Nat} {c : Nat → UInt8} {s t : List UInt8}

theorem agrees_zero : Agrees m p c 0 := fun _ hi => absurd hi (Nat.not_lt_zero _)

theorem Agrees.succ (h : Agrees m p c k) (heq : m (p + k) = c k) (hne : c k ≠ 0) :
    Agrees m p c (k + 1) := by
  intro i hi
  rcases Nat.lt_succ_iff_lt_or_eq.1 hi with hlt | rfl
  · exact h i hlt
  · exact ⟨heq, hne⟩

/-- The characters that agree are characters of both strings. -/
theorem Agrees.le_left (h : Agrees m p c k) (hs : HoldsStr m p s) : k ≤ s.length := by
  by_contra hlt
  have hc := h s.length (by omega)
  rw [hs.nul] at hc
  exact hc.2 hc.1.symm

theorem Agrees.le_right (h : Agrees m p c k) (ht : HoldsStr c 0 t) : k ≤ t.length := by
  by_contra hlt
  have hnul := ht.nul
  rw [Nat.zero_add] at hnul
  exact (h t.length (by omega)).2 hnul

/-- Strings that agree up to the end of both are equal. -/
theorem Agrees.eq (h : Agrees m p c k) (hs : HoldsStr m p s) (ht : HoldsStr c 0 t)
    (hm : m (p + k) = 0) (hc : c k = 0) : s = t := by
  have hs' := Nat.le_antisymm (hs.length_le hm) (h.le_left hs)
  have ht' := Nat.le_antisymm (ht.length_le (by rwa [Nat.zero_add])) (h.le_right ht)
  refine List.ext_getElem (by omega) fun i h₁ h₂ => ?_
  rw [← hs.char i h₁, ← ht.char i h₂, Nat.zero_add, (h i (by omega)).1]

/-- Strings that differ behind an equal part are not equal. -/
theorem Agrees.ne (h : Agrees m p c k) (hs : HoldsStr m p s) (ht : HoldsStr c 0 t)
    (hne : m (p + k) ≠ c k) : s ≠ t := by
  intro heq
  subst heq
  have hle := h.le_left hs
  rcases Nat.lt_or_eq_of_le hle with hlt | rfl
  · refine hne ?_
    rw [hs.char k hlt, ← ht.char k hlt, Nat.zero_add]
  · refine hne ?_
    have hnul := ht.nul
    rw [Nat.zero_add] at hnul
    rw [hs.nul, hnul]

/-- A string that agrees up to its end is a prefix. -/
theorem Agrees.isPrefix (h : Agrees m p c k) (hs : HoldsStr m p s) (ht : HoldsStr c 0 t)
    (hc : c k = 0) : t <+: s := by
  have ht' := Nat.le_antisymm (ht.length_le (by rwa [Nat.zero_add])) (h.le_right ht)
  have hle := h.le_left hs
  rw [List.prefix_iff_eq_take]
  refine List.ext_getElem (by rw [List.length_take]; omega) fun i h₁ h₂ => ?_
  rw [List.getElem_take, ← ht.char i h₁, ← hs.char i (by omega), Nat.zero_add, (h i (by omega)).1]

/-- A string that differs before its end is no prefix. -/
theorem Agrees.not_isPrefix (h : Agrees m p c k) (hs : HoldsStr m p s) (ht : HoldsStr c 0 t)
    (hc : c k ≠ 0) (hne : m (p + k) ≠ c k) : ¬ t <+: s := by
  intro ⟨u, hu⟩
  have hlt : k < t.length := by
    rcases Nat.lt_or_eq_of_le (h.le_right ht) with hlt | rfl
    · exact hlt
    · have hnul := ht.nul
      rw [Nat.zero_add] at hnul
      exact absurd hnul hc
  refine hne ?_
  have hlt' : k < s.length := by
    rw [← hu, List.length_append]
    omega
  have hchar := ht.char k hlt
  rw [Nat.zero_add] at hchar
  rw [hs.char k hlt', hchar]
  subst hu
  exact List.getElem_append_left hlt

end Agrees

end Lib
