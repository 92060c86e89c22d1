import Sfs.Utils

/-!
# What the string comparisons decide

`strcmp` and `strncmp` of `utils.c` stop at the first position where the
strings differ or one of them ends, and then answer 0 whenever one of them has
ended.  `strncmp` also looks at the characters of a position before it compares
the position with `n`.

Here the two are written over the objects their arguments point into, so that
a read behind the end of an object shows.  `Buf.strcmp_eq` and
`Buf.strncmp_eq` connect them to the functions the rest of the file system
uses.  `comparesExactly_iff` says for which strings they decide equality.
-/

namespace Sfs

open Lib

namespace Buf

/-- `strcmp`; `none` when it reads behind the end of an object. -/
def strcmp : Buf → Buf → Option Int
  | c :: s1, d :: s2 =>
    if c = d ∧ c ≠ 0 ∧ d ≠ 0 then strcmp s1 s2
    else some (if c = 0 ∨ d = 0 then 0 else c.toInt8.toInt - d.toInt8.toInt)
  | _, _ => none

/-- `strncmp` from its round `i` on; `none` also when the `int` that counts the
rounds overflows. -/
def strncmpFrom (n : Nat) : Nat → Buf → Buf → Option Int
  | i, c :: s1, d :: s2 =>
    if c = d ∧ c ≠ 0 ∧ d ≠ 0 ∧ i < n then
      if i < 2147483647 then strncmpFrom n (i + 1) s1 s2 else none
    else some (if c = 0 ∨ d = 0 ∨ i = n then 0 else c.toInt8.toInt - d.toInt8.toInt)
  | _, _, _ => none

/-- `strncmp`. -/
def strncmp (s1 s2 : Buf) (n : Nat) : Option Int := strncmpFrom n 0 s1 s2

/-- The number of characters that two strings share from their start on. -/
def shared : Buf → Buf → Nat
  | c :: s1, d :: s2 => if c = d ∧ c ≠ 0 then shared s1 s2 + 1 else 0
  | _, _ => 0

/-! ## The functions of the other modules -/

/-- The characters of an object, in memory from position `p` on. -/
def At (s : Buf) (m : Mem) (p : Nat) : Prop := ∀ i, i < s.length → m (p + i) = s.char i

theorem At.head {c : UInt8} {s : Buf} {m : Mem} {p : Nat} (h : At (c :: s) m p) : m p = c :=
  h 0 (Nat.succ_pos _)

theorem At.tail {c : UInt8} {s : Buf} {m : Mem} {p : Nat} (h : At (c :: s) m p) :
    At s m (p + 1) := by
  intro i hi
  have hbyte := h (i + 1) (Nat.succ_lt_succ hi)
  rw [Nat.add_assoc, Nat.add_comm 1 i]
  exact hbyte

theorem strcmp_eq {s1 s2 : Buf} {m : Mem} {p : Nat} {r : Int} (h : At s1 m p)
    (hr : strcmp s1 s2 = some r) : Sfs.strcmp m p s2 = r := by
  induction s1, s2 using strcmp.induct generalizing p with
  | case1 c s1 d s2 hsame ih =>
    obtain ⟨heq, hc, hd⟩ := hsame
    rw [strcmp, if_pos ⟨heq, hc, hd⟩] at hr
    rw [Sfs.strcmp, h.head, if_neg (not_or.2 ⟨hc, hd⟩), if_pos heq]
    exact ih h.tail hr
  | case2 c s1 d s2 hdiff =>
    rw [strcmp, if_neg hdiff] at hr
    rw [Sfs.strcmp, h.head]
    by_cases hz : c = 0 ∨ d = 0
    · rw [if_pos hz]
      rw [if_pos hz] at hr
      exact Option.some.inj hr
    · rw [if_neg hz, if_neg fun heq => hdiff ⟨heq, not_or.1 hz⟩]
      rw [if_neg hz] at hr
      exact Option.some.inj hr
  | case3 s1 s2 hnil =>
    rw [strcmp] at hr
    · cases hr
    · exact hnil

theorem strncmpFrom_eq {s1 s2 : Buf} {m : Mem} {p i k n : Nat} {r : Int} (h : At s1 m p)
    (hn : n = i + k) (hr : strncmpFrom n i s1 s2 = some r) : Sfs.strncmp m p s2 k = r := by
  induction i, s1, s2 using strncmpFrom.induct n generalizing p k with
  | case1 i c s1 d s2 hsame hcount ih =>
    obtain ⟨heq, hc, hd, hlt⟩ := hsame
    rw [strncmpFrom, if_pos ⟨heq, hc, hd, hlt⟩, if_pos hcount] at hr
    obtain ⟨k, rfl⟩ : ∃ k', k = k' + 1 := ⟨k - 1, by omega⟩
    rw [Sfs.strncmp, h.head]
    simp only [char, List.getD_cons_zero, List.drop_one, List.tail_cons]
    rw [if_neg (not_or.2 ⟨hc, hd⟩), if_pos heq]
    exact ih h.tail (by omega) hr
  | case2 i c s1 d s2 hsame hcount =>
    rw [strncmpFrom, if_pos hsame, if_neg hcount] at hr
    cases hr
  | case3 i c s1 d s2 hdiff =>
    rw [strncmpFrom, if_neg hdiff] at hr
    cases k with
    | zero =>
      rw [if_pos (Or.inr (Or.inr (by omega)))] at hr
      rw [Sfs.strncmp]
      exact Option.some.inj hr
    | succ k =>
      rw [Sfs.strncmp, h.head]
      simp only [char, List.getD_cons_zero]
      by_cases hz : c = 0 ∨ d = 0
      · rw [if_pos hz]
        rw [if_pos (by tauto)] at hr
        exact Option.some.inj hr
      · obtain ⟨hc, hd⟩ := not_or.1 hz
        rw [if_neg hz, if_neg fun heq => hdiff ⟨heq, hc, hd, by omega⟩]
        rw [if_neg (by rintro (h | h | h) <;> [exact hc h; exact hd h; omega])] at hr
        exact Option.some.inj hr
  | case4 i s1 s2 hnil =>
    rw [strncmpFrom] at hr
    · cases hr
    · exact hnil

theorem strncmp_eq {s1 s2 : Buf} {m : Mem} {p n : Nat} {r : Int} (h : At s1 m p)
    (hr : strncmp s1 s2 n = some r) : Sfs.strncmp m p s2 n = r :=
  strncmpFrom_eq h (Nat.zero_add n).symm hr

/-! ## Where two strings part -/

section

variable {s1 s2 : Buf}

theorem shared_comm (s1 s2 : Buf) : shared s1 s2 = shared s2 s1 := by
  induction s1, s2 using shared.induct with
  | case1 c s1 d s2 hsame ih =>
    obtain ⟨rfl, hc⟩ := hsame
    simp [shared, hc, ih]
  | case2 c s1 d s2 hdiff =>
    rw [shared, shared, if_neg hdiff, if_neg]
    rintro ⟨rfl, hc⟩
    exact hdiff ⟨rfl, hc⟩
  | case3 s1 s2 hnil =>
    cases s1 with
    | nil => cases s2 <;> rfl
    | cons c s1 =>
      cases s2 with
      | nil => rfl
      | cons d s2 => exact absurd rfl (hnil c s1 d s2 rfl)

/-- One string starts with another when they share all characters of it. -/
theorem prefix_iff (s1 s2 : Buf) : cstr s1 <+: cstr s2 ↔ shared s1 s2 = strlen s1 := by
  induction s1, s2 using shared.induct with
  | case1 c s1 d s2 hsame ih =>
    obtain ⟨rfl, hc⟩ := hsame
    simp [cstr, strlen, shared, hc, ih]
  | case2 c s1 d s2 hdiff =>
    rw [shared, if_neg hdiff, cstr, strlen]
    by_cases hc : c = 0
    · simp [hc]
    · have hne : c ≠ d := fun heq => hdiff ⟨heq, hc⟩
      rw [cstr]
      by_cases hd : d = 0
      · simp [hc, hd]
      · simp [hc, hd, hne]
  | case3 s1 s2 hnil =>
    cases s1 with
    | nil => simp [cstr, strlen, shared]
    | cons c s1 =>
      cases s2 with
      | nil => by_cases hc : c = 0 <;> simp [cstr, strlen, shared, hc]
      | cons d s2 => exact absurd rfl (hnil c s1 d s2 rfl)

/-- Strings that part before position `n` agree on their first `n` characters
only when they are equal. -/
theorem take_eq_iff {n : Nat} (h : shared s1 s2 < n) :
    (cstr s1 ++ [0]).take n = (cstr s2 ++ [0]).take n ↔ cstr s1 = cstr s2 := by
  induction s1, s2 using shared.induct generalizing n with
  | case1 c s1 d s2 hsame ih =>
    obtain ⟨rfl, hc⟩ := hsame
    rw [shared, if_pos ⟨rfl, hc⟩] at h
    obtain ⟨n, rfl⟩ : ∃ n', n = n' + 1 := ⟨n - 1, by omega⟩
    simp [cstr, hc, ih (Nat.lt_of_succ_lt_succ h)]
  | case2 c s1 d s2 hdiff =>
    obtain ⟨n, rfl⟩ : ∃ n', n = n' + 1 := ⟨n - 1, by omega⟩
    by_cases hc : c = 0
    · by_cases hd : d = 0
      · simp [cstr, hc, hd]
      · simp [cstr, hc, hd, Ne.symm hd]
    · have hne : c ≠ d := fun heq => hdiff ⟨heq, hc⟩
      by_cases hd : d = 0
      · simp [cstr, hc, hd]
      · simp [cstr, hc, hd, hne]
  | case3 s1 s2 hnil =>
    obtain ⟨n, rfl⟩ : ∃ n', n = n' + 1 := ⟨n - 1, by omega⟩
    cases s1 with
    | nil =>
      cases s2 with
      | nil => simp
      | cons d s2 =>
        by_cases hd : d = 0
        · simp [cstr, hd]
        · simp [cstr, hd, Ne.symm hd]
    | cons c s1 =>
      cases s2 with
      | nil => by_cases hc : c = 0 <;> simp [cstr, hc]
      | cons d s2 => exact absurd rfl (hnil c s1 d s2 rfl)

/-! ## What the comparisons answer -/

/-- `strcmp` answers 0 when one of the strings ends where they part. -/
theorem strcmp_spec (h1 : 0 ∈ s1) (h2 : 0 ∈ s2) :
    ∃ r, strcmp s1 s2 = some r ∧ (r = 0 ↔ shared s1 s2 = strlen s1 ∨ shared s1 s2 = strlen s2) := by
  induction s1, s2 using shared.induct with
  | case1 c s1 d s2 hsame ih =>
    obtain ⟨rfl, hc⟩ := hsame
    obtain ⟨r, hr, hzero⟩ := ih (by simpa [Ne.symm hc] using h1) (by simpa [Ne.symm hc] using h2)
    refine ⟨r, ?_, ?_⟩
    · simp [strcmp, hc, hr]
    · simp [shared, strlen, hc, hzero]
  | case2 c s1 d s2 hdiff =>
    refine ⟨_, if_neg fun h => hdiff ⟨h.1, h.2.1⟩, ?_⟩
    rw [shared, if_neg hdiff, strlen, strlen]
    by_cases hz : c = 0 ∨ d = 0
    · rcases hz with rfl | rfl <;> simp
    · obtain ⟨hc, hd⟩ := not_or.1 hz
      have hne : c ≠ d := fun heq => hdiff ⟨heq, hc⟩
      simp [hc, hd, char_sub_ne_zero hne]
  | case3 s1 s2 hnil =>
    cases s1 with
    | nil => cases h1
    | cons c s1 =>
      cases s2 with
      | nil => cases h2
      | cons d s2 => exact absurd rfl (hnil c s1 d s2 rfl)

/-- `strncmp` of strings that part before position `n` answers like `strcmp`,
and does not look further. -/
theorem strncmpFrom_spec (h1 : 0 ∈ s1) (h2 : 0 ∈ s2) {i k n : Nat} (hn : n = i + k)
    (hk : shared s1 s2 < k) (hint : i + shared s1 s2 < 2 ^ 31) :
    ∃ r, strncmpFrom n i s1 s2 = some r ∧ strncmpFrom n i (s1.take k) (s2.take k) = some r ∧
      (r = 0 ↔ shared s1 s2 = strlen s1 ∨ shared s1 s2 = strlen s2) := by
  induction s1, s2 using shared.induct generalizing i k with
  | case1 c s1 d s2 hsame ih =>
    obtain ⟨rfl, hc⟩ := hsame
    rw [shared, if_pos ⟨rfl, hc⟩] at hk hint
    obtain ⟨k, rfl⟩ : ∃ k', k = k' + 1 := ⟨k - 1, by omega⟩
    have hlt : i < n := by omega
    have hcount : i < 2147483647 := by omega
    obtain ⟨r, hr, hr', hzero⟩ := ih (i := i + 1) (k := k)
      (by simpa [Ne.symm hc] using h1) (by simpa [Ne.symm hc] using h2) (by omega) (by omega)
      (by omega)
    refine ⟨r, ?_, ?_, ?_⟩
    · simp [strncmpFrom, hc, hlt, hcount, hr]
    · simp [strncmpFrom, hc, hlt, hcount, hr']
    · simp [shared, strlen, hc, hzero]
  | case2 c s1 d s2 hdiff =>
    rw [shared, if_neg hdiff] at hk ⊢
    obtain ⟨k, rfl⟩ : ∃ k', k = k' + 1 := ⟨k - 1, by omega⟩
    have hround : ∀ t1 t2 : Buf, strncmpFrom n i (c :: t1) (d :: t2) =
        some (if c = 0 ∨ d = 0 ∨ i = n then 0 else c.toInt8.toInt - d.toInt8.toInt) :=
      fun _ _ => if_neg fun h => hdiff ⟨h.1, h.2.1⟩
    refine ⟨_, hround _ _, hround _ _, ?_⟩
    rw [strlen, strlen]
    have hlt : i ≠ n := by omega
    by_cases hz : c = 0 ∨ d = 0
    · rcases hz with rfl | rfl <;> simp
    · obtain ⟨hc, hd⟩ := not_or.1 hz
      have hne : c ≠ d := fun heq => hdiff ⟨heq, hc⟩
      simp [hc, hd, hlt, char_sub_ne_zero hne]
  | case3 s1 s2 hnil =>
    cases s1 with
    | nil => cases h1
    | cons c s1 =>
      cases s2 with
      | nil => cases h2
      | cons d s2 => exact absurd rfl (hnil c s1 d s2 rfl)

/-- `strncmp` of strings that do not part before position `n` looks at the
characters there, and one that gets to 2^31 counts too far. -/
theorem strncmpFrom_none {i k n : Nat} (hn : n = i + k) (hi : i < 2 ^ 31)
    (hk : k ≤ shared s1 s2 ∨ 2 ^ 31 ≤ i + shared s1 s2) :
    strncmpFrom n i (s1.take k) (s2.take k) = none := by
  induction s1, s2 using shared.induct generalizing i k with
  | case1 c s1 d s2 hsame ih =>
    obtain ⟨rfl, hc⟩ := hsame
    rw [shared, if_pos ⟨rfl, hc⟩] at hk
    cases k with
    | zero => rfl
    | succ k =>
      have hlt : i < n := by omega
      simp only [List.take_succ_cons, strncmpFrom]
      rw [if_pos ⟨trivial, hc, hc, hlt⟩]
      split
      · exact ih (by omega) (by omega) (by omega)
      · rfl
  | case2 c s1 d s2 hdiff =>
    rw [shared, if_neg hdiff] at hk
    obtain rfl : k = 0 := by omega
    rfl
  | case3 s1 s2 hnil =>
    rw [shared] at hk
    · obtain rfl : k = 0 := by omega
      rfl
    · exact hnil

end

end Buf

/-! ## Equality -/

/-- `strcmp` decides whether the strings are equal, and `strncmp` whether they
are on their first `n` characters, from these characters alone. -/
def ComparesExactly (s1 s2 : Buf) (n : Nat) : Prop :=
  (∃ r, s1.strcmp s2 = some r ∧ (r = 0 ↔ cstr s1 = cstr s2)) ∧
  ∃ r, s1.strncmp s2 n = some r ∧
    (r = 0 ↔ (cstr s1 ++ [0]).take n = (cstr s2 ++ [0]).take n) ∧
    Buf.strncmp (s1.take n) (s2.take n) n = some r

/-- One of two strings ends where they part when it is the start of the
other. -/
theorem ends_where_parted (s1 s2 : Buf) :
    (Buf.shared s1 s2 = strlen s1 ∨ Buf.shared s1 s2 = strlen s2) ↔
      cstr s1 <+: cstr s2 ∨ cstr s2 <+: cstr s1 := by
  rw [Buf.prefix_iff, Buf.prefix_iff, Buf.shared_comm s2 s1]

/-- The comparisons are exact when neither string is a proper start of the
other and the strings part before position `n`, and before the counter of
`strncmp` overflows. -/
theorem comparesExactly_iff {s1 s2 : Buf} (h1 : 0 ∈ s1) (h2 : 0 ∈ s2) (n : Nat) :
    ComparesExactly s1 s2 n ↔
      (cstr s1 <+: cstr s2 ∨ cstr s2 <+: cstr s1 → cstr s1 = cstr s2) ∧
        Buf.shared s1 s2 < n ∧ Buf.shared s1 s2 < 2 ^ 31 := by
  obtain ⟨r, hr, hzero⟩ := Buf.strcmp_spec h1 h2
  rw [ends_where_parted] at hzero
  constructor
  · rintro ⟨⟨r', hr', heq⟩, q, -, -, hcut⟩
    obtain rfl : r = r' := Option.some.inj (hr.symm.trans hr')
    refine ⟨fun hprefix => heq.1 (hzero.2 hprefix), ?_⟩
    by_contra hlate
    have hnone := @Buf.strncmpFrom_none s1 s2 0 n n
      (by omega) (by omega) (by omega)
    exact absurd (hcut.symm.trans hnone) (by simp)
  · rintro ⟨hexact, hn, hint⟩
    have hequal : (cstr s1 <+: cstr s2 ∨ cstr s2 <+: cstr s1) ↔ cstr s1 = cstr s2 :=
      ⟨hexact, fun h => Or.inl (h ▸ List.prefix_refl _)⟩
    obtain ⟨q, hq, hcut, hqzero⟩ := Buf.strncmpFrom_spec h1 h2 (i := 0) (k := n) (n := n)
      (by omega) hn (by omega)
    rw [ends_where_parted] at hqzero
    refine ⟨⟨r, hr, hzero.trans hequal⟩, q, hq, ?_, hcut⟩
    rw [Buf.take_eq_iff hn]
    exact hqzero.trans hequal

/-- The strings `ab` and `ac`. -/
theorem comparesExactly_parted :
    ComparesExactly [97, 98, 0] [97, 99, 0] 2 ↔
      (cstr [97, 98, 0] <+: cstr [97, 99, 0] ∨ cstr [97, 99, 0] <+: cstr [97, 98, 0] →
        cstr [97, 98, 0] = cstr [97, 99, 0]) ∧
        Buf.shared [97, 98, 0] [97, 99, 0] < 2 ∧ Buf.shared [97, 98, 0] [97, 99, 0] < 2 ^ 31 :=
  comparesExactly_iff (by decide) (by decide) 2

/-- `a` is `ab` for both functions, and `strncmp` of `a` with itself looks at
the character behind the first one. -/
theorem strcmp_proper_start :
    Buf.strcmp [97, 0] [97, 98, 0] = some 0 ∧ Buf.strncmp [97, 0] [97, 98, 0] 2 = some 0 ∧
      Buf.strncmp (List.take 1 [97, 0]) (List.take 1 [97, 0]) 1 = none ∧
      ¬ ComparesExactly [97, 0] [97, 98, 0] 2 ∧ ¬ ComparesExactly [97, 0] [97, 0] 1 := by
  refine ⟨rfl, rfl, rfl, ?_, ?_⟩
  · rintro ⟨⟨r, hr, heq⟩, -⟩
    obtain rfl : 0 = r := Option.some.inj hr
    exact absurd (heq.1 rfl) (by decide)
  · rintro ⟨-, r, -, -, hcut⟩
    cases hcut

end Sfs
