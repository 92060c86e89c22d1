import Sfs.Readdir
import Sfs.Names

/-!
# Reading names back

`read_file_name` and `read_dir_name` copy a name out of the head and the
continuation slots of its entry.

* `gives_readNameLoop` is the loop over the pieces of the name;
* `gives_readName_all` says which buffers get the name: those with room for the
  name, its terminator and one more character.
-/

namespace Sfs

open Lib

section

variable {t : Img} {kind : NameKind} {off lo hi : Nat} {s : Buf}

/-- The next character of a copy. -/
theorem set_take_append_drop {s buf : Buf} {i : Nat} (hi : i < s.length) (hlt : i < buf.length) :
    (s.take i ++ buf.drop i).set i s[i] = s.take (i + 1) ++ buf.drop (i + 1) := by
  have hlen : (s.take i).length = i := List.length_take_of_le (Nat.le_of_lt hi)
  rw [List.set_append_right _ _ (Nat.le_of_eq hlen), hlen, Nat.sub_self,
    List.drop_eq_getElem_cons hlt, List.set_cons_zero, List.take_succ_eq_append_getElem hi,
    List.append_assoc]
  rfl

theorem gives_putChar {α : Type} {Q : α → Img → Prop} {name : Buf} {i : Nat} {c : UInt8}
    {f : Buf → SfsM α} (hi : i < name.length) :
    Gives (putChar name i c >>= f) t Q ↔ Gives (f (name.set i c)) t Q := by
  rw [putChar, if_pos hi]
  rfl

/-- A slot of the group is in the entry. -/
def HoldsPiece (v : Vol) (off : Nat) (entr : Entry) : Prop :=
  ∃ j, j ≤ v.cont off ∧ ∀ x, x < 64 → entr x = v.data (off + 64 * j + x)

/-- The loop of `read_file_name` and `read_dir_name`, when `i` characters are
copied and the rest of the name starts at position `cur` of piece `j`.  It copies
up to the end of the name, or until one place is left in the buffer. -/
theorem gives_readNameLoop (hg : Geometry t.vol lo hi) (hl : Layout t.vol) (hoff : t.vol.Slot off)
    (hh : t.vol.Head off) (hname : HasName t.vol kind off s) {buf : Buf}
    {len i j cur m : Nat} {entr : Entry} (hlen : 1 ≤ len) (hbuf : len + i ≤ buf.length)
    (hm : m = min s.length (len + i - 1)) (hi : i ≤ s.length)
    (hpos : kind.name + i = 64 * j + cur) (hcur : cur < 64)
    (hentr : ∀ x, x < 64 → entr x = t.vol.data (off + 64 * j + x)) :
    Gives (readNameLoop len entr (off + 64 * j) cur (64 - cur) (s.take i ++ buf.drop i) i) t
      fun r t' => t'.vol = t.vol ∧ r.1 + m = len + i ∧
        r.2.1 = s.take m ++ buf.drop m ∧ r.2.2.1 = m ∧ HoldsPiece t.vol off r.2.2.2 := by
  have hroom := hname.room
  induction len generalizing t i j cur entr with
  | zero => omega
  | succ len ih =>
    have hbyte : entr cur = t.vol.data (off + kind.name + i) := by
      rw [hentr cur hcur]
      congr 1
      omega
    rw [readNameLoop]
    by_cases hend : len = 0 ∨ i = s.length
    · obtain rfl : i = m := by omega
      have hstop : len = 0 ∨ entr cur = 0 := hend.imp_right fun h => by
        rw [hbyte, h, hname.str.nul]
      rw [if_pos hstop, gives_pure]
      exact ⟨rfl, rfl, rfl, rfl, j, by omega, hentr⟩
    · obtain ⟨hne, hne'⟩ := not_or.1 hend
      have hlt : i < s.length := Nat.lt_of_le_of_ne hi hne'
      have hchar : entr cur = s[i] := hbyte.trans (hname.str.char i hlt)
      have hnz : s[i] ≠ 0 := hname.str.ne_zero _ (List.getElem_mem hlt)
      have hfull : i < (s.take i ++ buf.drop i).length := by
        rw [List.length_append, List.length_take_of_le hi, List.length_drop]
        omega
      rw [if_neg (by rw [hchar]; exact fun h => h.elim hne hnz), gives_putChar hfull, hchar,
        set_take_append_drop hlt (by omega)]
      by_cases hlast : cur = 63
      · -- The piece is used up.
        have hsmall := hg.sized.small
        obtain ⟨hal, hin⟩ := hl.piece_inside hg hoff hh (show j + 1 ≤ t.vol.cont off + 1 by omega)
        have hnext : u64 (off + 64 * j + indexEntrySize) = off + 64 * (j + 1) := by
          unfold u64 indexEntrySize
          omega
        rw [if_pos (by omega), hnext,
          gives_readEntry hg.sized (Nat.le_add_right_of_le hoff.ge) hal hin]
        dsimp only
        refine (ih (t := { t with clean := false }) hg hl hoff hh hname (i := i + 1) (j := j + 1)
          (by omega) (by omega) (by omega) hlt
          (show kind.name + (i + 1) = 64 * (j + 1) + 0 by omega) (by decide)
          (fun x hx => load_byte hx) hroom).mono
          fun r t' ⟨hvol, hr, hstr, hout, hpiece⟩ => ?_
        exact ⟨hvol, by omega, hstr, hout, hpiece⟩
      · rw [if_neg (by omega), Nat.sub_sub]
        refine (ih hg hl hoff hh hname (i := i + 1) (by omega) (by omega) (by omega) hlt (by omega)
          (by omega) hentr hroom).mono fun r t' ⟨hvol, hr, hstr, hout, hpiece⟩ => ?_
        exact ⟨hvol, by omega, hstr, hout, hpiece⟩

/-- `read_file_name` and `read_dir_name` put the name into a buffer with a place
to spare behind the terminator.  Any other buffer they fill up to its last
place, and fail. -/
theorem gives_readName_all (hg : Geometry t.vol lo hi) (hl : Layout t.vol) (hk : kind.Fits)
    (hnamed : Named t.vol kind off s) {buf : Buf} {len : Nat} (hlen : 1 ≤ len)
    (hbuf : len ≤ buf.length) {entr : Entry}
    (hentr : ∀ x, x < 64 → entr x = t.vol.data (off + x)) :
    Gives (readName kind entr off buf len) t fun r t' => t'.vol = t.vol ∧
      HoldsPiece t.vol off r.2.2 ∧
      if s.length + 2 ≤ len then r.1 = 0 ∧ r.2.1 = s ++ 0 :: buf.drop (s.length + 1)
      else r.1 = -1 ∧ t'.errno = eNOMEM ∧
        r.2.1 = s.take (len - 1) ++ buf.drop (len - 1) := by
  have hends := hk.ends
  have hpos := hk.pos
  unfold readName
  rw [gives_bind]
  have hloop := gives_readNameLoop (i := 0) (j := 0) hg hl hnamed.slot (hk.isHead hnamed.type)
    hnamed.toHasName hlen hbuf rfl
    (Nat.zero_le _) (show kind.name + 0 = 64 * 0 + kind.name by omega) (by omega) hentr
  rw [show 64 - kind.name = kind.first by omega] at hloop
  refine hloop.mono fun ⟨len', str, out, entr'⟩ t' ⟨hvol, hr, hstr, hout, hpiece⟩ => ?_
  dsimp only at hr hstr hout hpiece ⊢
  subst hout hstr
  by_cases hfits : s.length + 2 ≤ len
  · rw [if_neg (by omega), show min s.length (len + 0 - 1) = s.length by omega, List.take_length,
      gives_putChar, gives_pure, if_pos hfits]
    · refine ⟨hvol, hpiece, rfl, ?_⟩
      dsimp only
      rw [List.set_append_right _ _ (Nat.le_refl _), Nat.sub_self,
        List.drop_eq_getElem_cons (show s.length < buf.length by omega), List.set_cons_zero]
    · rw [List.length_append, List.length_drop]
      omega
  · rw [if_pos (by omega), gives_setErrno, gives_pure, if_neg hfits,
      show min s.length (len + 0 - 1) = len - 1 by omega]
    exact ⟨hvol, hpiece, rfl, rfl, rfl⟩

/-- `read_file_name` and `read_dir_name` put precisely the name into the
buffer. -/
theorem gives_readName (hg : Geometry t.vol lo hi) (hl : Layout t.vol) (hk : kind.Fits)
    (hnamed : Named t.vol kind off s) {buf : Buf} {len : Nat} (hlen : s.length + 2 ≤ len)
    (hbuf : len ≤ buf.length) {entr : Entry}
    (hentr : ∀ x, x < 64 → entr x = t.vol.data (off + x)) :
    Gives (readName kind entr off buf len) t fun r t' => t'.vol = t.vol ∧ r.1 = 0 ∧
      r.2.1 = s ++ 0 :: buf.drop (s.length + 1) ∧ HoldsPiece t.vol off r.2.2 := by
  refine (gives_readName_all hg hl hk hnamed (by omega) hbuf hentr).mono
    fun r t' ⟨hvol, hpiece, hr⟩ => ?_
  rw [if_pos hlen] at hr
  exact ⟨hvol, hr.1, hr.2, hpiece⟩

end

end Sfs
