import Sfs.Lib.Memory

/-!
# Strings and checksums

The helpers of `utils.c` that the file system calls, and the `count_entry` that
`sfs_creat.c`, `sfs_rename.c` and `sfs_mkdir.c` each define for themselves.

A `Buf` is what a `char*` gives access to, from the pointer up to the end of
the object it points into.  A caller's paths are such buffers: zero-terminated,
and often zero-padded behind the terminator.
-/

namespace Sfs

open Lib

/-- The bytes from a `char*` up to the end of its object. -/
abbrev Buf := List UInt8

/-- `s[i]`. -/
def Buf.char (s : Buf) (i : Nat) : UInt8 := s.getD i 0

/-! ## Characters and lengths -/

def isCorrectChar (c : UInt8) : Bool :=
  !((0 < c && c < 0x20) || (0x80 ≤ c && c ≤ 0x9F) || c == 0x22 || c == 0x2A || c == 0x3A ||
    c == 0x3C || c == 0x3E || c == 0x3F || c == 0x5C || c == 0x7F || c == 0xA0)

/-- `is_correct_string`, true for its 0. -/
def isCorrectString : Buf → Nat → Bool
  | _, 0 => true
  | [], _ + 1 => true
  | c :: s, length + 1 =>
    if c = 0 then true else if isCorrectChar c then isCorrectString s length else false

/-- `MAX_FILE_PATH`. -/
def maxFilePath : Nat := 16350

/-- `MAX_DIR_PATH`. -/
def maxDirPath : Nat := 16374

def isCorrectFilepath (string : Buf) : Bool := isCorrectString string maxFilePath

def isCorrectDirpath (string : Buf) : Bool := isCorrectString string maxDirPath

def strlen : Buf → Nat
  | [] => 0
  | c :: s => if c = 0 then 0 else strlen s + 1

/-! ## Comparing and copying -/

/-- `strncmp` of the string at position `p` of `s1` and the string `s2`.  It
answers 0 as soon as either string ends, and compares signed characters. -/
def strncmp (s1 : Mem) (p : Nat) (s2 : Buf) : Nat → Int
  | 0 => 0
  | n + 1 =>
    if s1 p = 0 ∨ s2.char 0 = 0 then 0
    else if s1 p = s2.char 0 then strncmp s1 (p + 1) (s2.drop 1) n
    else (s1 p).toInt8.toInt - (s2.char 0).toInt8.toInt

/-- `strcmp` of the string at position `p` of `s1` and the string `s2`.  It too
answers 0 as soon as either string ends. -/
def strcmp (s1 : Mem) (p : Nat) : Buf → Int
  | [] => 0
  | c :: s2 =>
    if s1 p = 0 ∨ c = 0 then 0
    else if s1 p = c then strcmp s1 (p + 1) s2
    else (s1 p).toInt8.toInt - c.toInt8.toInt

/-- `memcpy` of `n` characters to position `p`. -/
def memcpy (dest : Mem) (p : Nat) (src : Buf) (n : Nat) : Mem := blit dest p src.char 0 n

/-- `strcpy` to position `p`. -/
def strcpy (dest : Mem) (p : Nat) (src : Buf) : Mem := memcpy dest p src (strlen src + 1)

/-- `strncpy` of at most `n` characters to position `p`, padded with zeros. -/
def strncpy (dest : Mem) (p : Nat) (src : Buf) (n : Nat) : Mem :=
  blit dest p (fun i => if i < strlen src then src.char i else 0) 0 n

/-! ## Entries and checksums -/

/-- `INDEX_ENTRY_SIZE`. -/
abbrev indexEntrySize : Nat := 64

/-- `FIRST_FILE_NAME_SIZE`. -/
abbrev firstFileNameSize : Nat := 30

/-- `FIRST_DIR_NAME_SIZE`. -/
abbrev firstDirNameSize : Nat := 54

/-- The number of slots for a name of `len` characters with its terminator, of
which `first` fit into the head: a `uint8_t`.  `!!(x) % 64` is `(!!x) % 64`, so
a name longer than `first` always gets one slot more than its whole slots. -/
def countEntry (first len : Nat) : Nat :=
  if len ≤ first then 1
  else (1 + ((len - first) / indexEntrySize +
    (if len - first = 0 then 0 else 1) % indexEntrySize)) % 256

theorem countEntry_lt (first len : Nat) : countEntry first len < 256 := by
  unfold countEntry
  split
  · decide
  · exact Nat.mod_lt _ (by decide)

/-- The size of so many slots is an `int`. -/
theorem countEntry_le (first len : Nat) : countEntry first len ≤ 33554432 :=
  Nat.le_trans (Nat.le_of_lt (countEntry_lt first len)) (by decide)

/-- `calc_checksum`, a `uint8_t`.  Of `res_size` the three high bytes are
masked but not shifted, so only the low byte counts. -/
def calcChecksum (magNum : Mem) (sfsV totSize resSize bSize : Nat) : Nat :=
  ((magNum 0).toNat + (magNum 1).toNat + (magNum 2).toNat + sfsV +
    (totSize / 2 ^ 56 % 256 + totSize / 2 ^ 48 % 256 + totSize / 2 ^ 40 % 256 +
      totSize / 2 ^ 32 % 256 + totSize / 2 ^ 24 % 256 + totSize / 2 ^ 16 % 256 +
      totSize / 2 ^ 8 % 256 + totSize % 256) +
    resSize % 256 + bSize) % 256

/-! ## Facts about strings -/

/-- The string a buffer holds. -/
def cstr : Buf → Buf
  | [] => []
  | c :: s => if c = 0 then [] else c :: cstr s

theorem cstr_length (s : Buf) : (cstr s).length = strlen s := by
  induction s with
  | nil => rfl
  | cons c s ih =>
    rw [cstr, strlen]
    split
    · rfl
    · rw [List.length_cons, ih]

theorem cstr_ne_zero (s : Buf) : ∀ c ∈ cstr s, c ≠ 0 := by
  induction s with
  | nil => exact fun _ h => nomatch h
  | cons c s ih =>
    rw [cstr]
    split
    · exact fun _ h => nomatch h
    · rename_i hc
      intro d hd
      rcases List.mem_cons.1 hd with rfl | hd
      · exact hc
      · exact ih d hd

theorem char_eq_cstr (s : Buf) {i : Nat} (hi : i < (cstr s).length) : s.char i = (cstr s)[i] := by
  induction s generalizing i with
  | nil => exact absurd hi (Nat.not_lt_zero i)
  | cons c s ih =>
    by_cases hc : c = 0
    · rw [cstr_length, strlen, if_pos hc] at hi
      exact absurd hi (Nat.not_lt_zero i)
    · have hcons : cstr (c :: s) = c :: cstr s := by rw [cstr, if_neg hc]
      cases i with
      | zero => simp [Buf.char, hcons]
      | succ i =>
        have hi' : i < (cstr s).length := by rw [hcons] at hi; simpa using hi
        simpa [Buf.char, hcons] using ih hi'

theorem char_of_length_le {s : Buf} {i : Nat} (h : s.length ≤ i) : s.char i = 0 := by
  rw [Buf.char, List.getD_eq_getElem?_getD, List.getElem?_eq_none h]
  rfl

theorem char_strlen (s : Buf) : s.char (strlen s) = 0 := by
  induction s with
  | nil => rfl
  | cons c s ih =>
    rw [strlen]
    split
    · rename_i hc
      simpa [Buf.char] using hc
    · simpa [Buf.char] using ih

/-- A buffer holds its string. -/
theorem holdsStr_char (s : Buf) : HoldsStr s.char 0 (cstr s) where
  char i hi := by rw [Nat.zero_add, char_eq_cstr s hi]
  ne_zero := cstr_ne_zero s
  nul := by rw [Nat.zero_add, cstr_length, char_strlen]

theorem char_drop (s : Buf) (k i : Nat) : Buf.char (s.drop k) i = s.char (k + i) := by
  unfold Buf.char
  rw [List.getD_eq_getElem?_getD, List.getD_eq_getElem?_getD, List.getElem?_drop]

/-- A string cut at a position. -/
theorem cstr_set_zero (s : Buf) {i : Nat} (hi : i < strlen s) :
    cstr (s.set i 0) = (cstr s).take i := by
  induction s generalizing i with
  | nil => exact absurd hi (Nat.not_lt_zero i)
  | cons c s ih =>
    by_cases hc : c = 0
    · rw [strlen, if_pos hc] at hi
      exact absurd hi (Nat.not_lt_zero i)
    · rw [strlen, if_neg hc] at hi
      cases i with
      | zero => simp [cstr]
      | succ i =>
        rw [List.set_cons_succ, cstr, if_neg hc, cstr, if_neg hc, List.take_succ_cons,
          ih (by omega)]

theorem strlen_le (s : Buf) : strlen s ≤ s.length := by
  induction s with
  | nil => exact Nat.le_refl 0
  | cons c s ih =>
    rw [strlen]
    split
    · exact Nat.zero_le _
    · exact Nat.succ_le_succ ih

/-- A character put back where it was. -/
theorem set_char_self (s : Buf) {i : Nat} (c : UInt8) (hi : i < strlen s) :
    (s.set i c).set i (s.char i) = s := by
  have hlt := Nat.lt_of_lt_of_le hi (strlen_le s)
  rw [List.set_set]
  unfold Buf.char
  rw [List.getD_eq_getElem?_getD, List.getElem?_eq_getElem hlt, Option.getD_some,
    List.set_getElem_self]

/-- `strncmp` answers 0 when the strings agree up to the end of the first. -/
theorem strncmp_eq_zero {s1 : Mem} {s2 : Buf} {p n : Nat}
    (h : ∀ i, i < n → (∀ j, j ≤ i → s1 (p + j) ≠ 0) → s1 (p + i) = s2.char i) :
    strncmp s1 p s2 n = 0 := by
  induction n generalizing p s2 with
  | zero => rfl
  | succ n ih =>
    rw [strncmp]
    by_cases hz : s1 p = 0 ∨ s2.char 0 = 0
    · rw [if_pos hz]
    · have hne : s1 p ≠ 0 := fun h' => hz (Or.inl h')
      have hfirst : s1 p = s2.char 0 := h 0 (Nat.succ_pos n) fun j hj => by
        rw [Nat.le_zero.1 hj]
        exact hne
      rw [if_neg hz, if_pos hfirst]
      refine ih fun i hi hall => ?_
      rw [char_drop, Nat.add_assoc]
      refine h (1 + i) (by omega) fun j hj => ?_
      cases j with
      | zero => exact hne
      | succ j =>
        have hj' := hall j (by omega)
        rwa [Nat.add_assoc, Nat.add_comm 1 j] at hj'

/-- Characters that differ have a difference. -/
theorem char_sub_ne_zero {c d : UInt8} (h : c ≠ d) : c.toInt8.toInt - d.toInt8.toInt ≠ 0 := by
  intro hzero
  have hsame : c.toInt8.toInt = d.toInt8.toInt := by omega
  exact h (congrArg Int8.toUInt8 (Int8.toInt_inj.1 hsame))

/-- Two strings compare as equal when one of them starts with the other. -/
theorem strcmp_eq_zero_iff {s1 : Mem} {s t : Buf} {p : Nat} (hs : ∀ c ∈ s, c ≠ 0)
    (ht : ∀ c ∈ t, c ≠ 0) (h : ∀ i, i < t.length → i ≤ s.length → s1 (p + i) = s.char i) :
    strcmp s1 p (t ++ [0]) = 0 ↔ s <+: t ∨ t <+: s := by
  induction t generalizing s p with
  | nil => simp [strcmp]
  | cons c t ih =>
    have hc : c ≠ 0 := ht c List.mem_cons_self
    have hfirst : s1 p = s.char 0 := h 0 (Nat.succ_pos _) (Nat.zero_le _)
    rw [List.cons_append, strcmp, hfirst]
    cases s with
    | nil => simp [Buf.char]
    | cons d s =>
      have hd : d ≠ 0 := hs d List.mem_cons_self
      have hchar : Buf.char (d :: s) 0 = d := rfl
      have hnext := ih (s := s) (p := p + 1) (fun e he => hs e (List.mem_cons_of_mem d he))
        (fun e he => ht e (List.mem_cons_of_mem c he)) fun i hi hi' => by
          have hbyte := h (i + 1) (Nat.succ_lt_succ hi) (Nat.succ_le_succ hi')
          rw [show p + 1 + i = p + (i + 1) by omega]
          exact hbyte
      rw [hchar, if_neg (not_or.2 ⟨hd, hc⟩)]
      by_cases heq : d = c
      · subst heq
        rw [if_pos rfl, hnext]
        simp
      · rw [if_neg heq]
        simp [char_sub_ne_zero heq, heq, Ne.symm heq]

theorem char_ne_zero {s : Buf} {i : Nat} (hi : i < strlen s) : s.char i ≠ 0 := by
  rw [← cstr_length] at hi
  rw [char_eq_cstr s hi]
  exact cstr_ne_zero s _ (List.getElem_mem hi)

/-- A string is longer than any run of characters it starts with. -/
theorem lt_strlen {s : Buf} {i : Nat} (h : ∀ j, j ≤ i → s.char j ≠ 0) : i < strlen s := by
  by_contra hge
  exact h (strlen s) (Nat.not_lt.1 hge) (char_strlen s)

/-- Every byte behind the terminator is zero. -/
def ZeroPadded (s : Buf) : Prop := ∀ i, strlen s ≤ i → s.char i = 0

theorem ZeroPadded.drop {s : Buf} (h : ZeroPadded s) (m : Nat) : ZeroPadded (s.drop m) := by
  intro i hi
  rw [char_drop]
  by_contra hne
  have hlt : m + i < strlen s := Nat.not_le.1 fun hle => hne (h _ hle)
  refine absurd (lt_strlen fun j hj => ?_) (Nat.not_lt.2 hi)
  rw [char_drop]
  exact char_ne_zero (by omega)

end Sfs
