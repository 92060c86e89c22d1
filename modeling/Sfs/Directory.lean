import Sfs.Lookup
import Sfs.Tree

/-!
# Listing a directory

`sfs_readdir` on an index whose names are accepted, called again and again as
`fuse_sfs_readdir` does.

* `gives_readdirBranch` is what becomes of one entry that the search has found:
  it is skipped unless it is right under the directory;
* `gives_sfsReaddir` says that a call yields the first such entry from the cursor
  on, and moves the cursor behind it;
* `readdir_lists` says that the calls together yield every such entry once, in
  the order of the slots.
-/

namespace Sfs

open Lib

/-! ## The loop of `fuse_sfs_readdir` -/

/-- What the `filler` is told about an entry: the path in the buffer, the fields
of the iterator, and the cursor, which stands behind the entry. -/
structure Listed where
  path : Buf
  type : IterType
  size : Nat
  time : Nat
  curOff : Nat
  deriving DecidableEq

/-- The loop of `fuse_sfs_readdir`, which cuts the buffer back to the first `len`
characters before the next call. -/
def fillDir (len : Nat) : Nat → DirIter → Buf → SfsM (Int × List Listed)
  | 0, _, _ => .stuck
  | fuel + 1, iter, name => do
    let (ret, iter, filename) ← sfsReaddir iter name
    if ret ≠ 0 then pure (-1, [])
    else
      match filename with
      | none => pure (0, [])
      | some name => do
        let item := ⟨cstr name, iter.type, iter.size, iter.time, iter.curOff⟩
        let name ← putChar name len 0
        let (ret, items) ← fillDir len fuel iter name
        pure (ret, item :: items)

/-! ## The entries of a directory -/

/-- The path is right under the directory: the path of the directory, a slash and
a part without one.  For the root it is any path without a slash but its own. -/
def IsChild (d p : Buf) : Prop :=
  if d = [] then p ≠ [] ∧ 0x2F ∉ p else ∃ leaf, p = d ++ 0x2F :: leaf ∧ 0x2F ∉ leaf

/-- The item is what a listing of the directory has to say about the entry. -/
structure Vol.Lists (v : Vol) (d : Buf) (off : Nat) (e : Listed) : Prop where
  child : IsChild d e.path
  entry : (Named v fileKind off e.path ∧ e.type = .file ∧ e.size = v.get off .size) ∨
    (Named v dirKind off e.path ∧ e.type = .dir ∧ e.size = 0)
  time : e.time = v.get off .timeStamp
  curOff : e.curOff = off + indexEntrySize

theorem Vol.Lists.live {v : Vol} {d : Buf} {off : Nat} {e : Listed} (h : v.Lists d off e) :
    v.Live off e.path :=
  h.entry.imp (fun h => h.1) fun h => h.1

theorem Vol.Live.ne_zero {v : Vol} {off : Nat} {p : Buf} (h : v.Live off p) : ∀ c ∈ p, c ≠ 0 := by
  rcases h with h | h
  · exact h.str.ne_zero
  · exact h.str.ne_zero

theorem Vol.Lists.unique {v : Vol} {d : Buf} {off : Nat} {e e' : Listed} (h : v.Lists d off e)
    (h' : v.Lists d off e') : e = e' := by
  have hcodes : fileKind.type.code ≠ dirKind.type.code := by decide
  have hpath := h.live.unique h'.live
  have htime := h.time.trans h'.time.symm
  have hcur := h.curOff.trans h'.curOff.symm
  obtain ⟨path, type, size, time, curOff⟩ := e
  obtain ⟨path', type', size', time', curOff'⟩ := e'
  dsimp only at hpath htime hcur
  subst hpath htime hcur
  rcases h.entry with ⟨hn, htype, hsize⟩ | ⟨hn, htype, hsize⟩ <;>
    rcases h'.entry with ⟨hn', htype', hsize'⟩ | ⟨hn', htype', hsize'⟩
  · rw [Listed.mk.injEq]
    exact ⟨rfl, htype.trans htype'.symm, hsize.trans hsize'.symm, rfl, rfl⟩
  · exact absurd (hn.type.symm.trans hn'.type) hcodes
  · exact absurd (hn'.type.symm.trans hn.type) hcodes
  · rw [Listed.mk.injEq]
    exact ⟨rfl, htype.trans htype'.symm, hsize.trans hsize'.symm, rfl, rfl⟩

/-- Every live path is accepted, and shorter than the buffer by two at least. -/
structure Vol.Listable (v : Vol) (len : Nat) : Prop where
  correct : ∀ o p, v.Live o p → isCorrectFilepath p = true
  short : ∀ o p, v.Live o p → p.length + 2 ≤ len

/-- The string that the names are searched for. -/
def dirMask (d : Buf) : Buf := if d = [] then [] else d ++ [0x2F]

/-! ## Strings in the buffer -/

section

variable {d p buf : Buf}

theorem isCorrectString_append_zero (hp : ∀ c ∈ p, c ≠ 0) (rest : Buf) (n : Nat) :
    isCorrectString (p ++ 0 :: rest) n = isCorrectString p n := by
  induction p generalizing n with
  | nil => cases n <;> simp [isCorrectString]
  | cons c p ih =>
    cases n with
    | zero => simp [isCorrectString]
    | succ n =>
      have hc : c ≠ 0 := hp c List.mem_cons_self
      simp [isCorrectString, hc, ih fun e he => hp e (List.mem_cons_of_mem c he)]

theorem isCorrectString_of_isPath (hp : IsPath p) (n : Nat) : isCorrectString p n = true := by
  induction p generalizing n with
  | nil => cases n <;> rfl
  | cons c p ih =>
    cases n with
    | zero => rfl
    | succ n =>
      have hc : isCorrectChar c = true := hp c List.mem_cons_self
      simp [isCorrectString, hc, ih fun e he => hp e (List.mem_cons_of_mem c he)]

/-- A buffer is its string, the terminator and what is behind it. -/
theorem buf_eq_cstr (buf : Buf) (h : strlen buf < buf.length) :
    buf = cstr buf ++ 0 :: buf.drop (strlen buf + 1) := by
  induction buf with
  | nil => exact absurd h (Nat.not_lt_zero _)
  | cons c buf ih =>
    by_cases hc : c = 0
    · simp [strlen, cstr, hc]
    · rw [strlen, if_neg hc, List.length_cons] at h
      rw [strlen, cstr, if_neg hc, if_neg hc, List.drop_succ_cons, List.cons_append,
        ← ih (Nat.lt_of_succ_lt_succ h)]

theorem dirMask_length (d : Buf) :
    (dirMask d).length = d.length + if d.length = 0 then 0 else 1 := by
  cases d <;> simp [dirMask]

/-- How the code tells the paths right under the directory. -/
theorem isChild_iff :
    IsChild d p ↔ dirMask d <+: p ∧ p.length ≠ d.length ∧
      0x2F ∉ p.drop (dirMask d).length := by
  unfold IsChild dirMask
  by_cases hd : d = []
  · simp [hd]
  · rw [if_neg hd, if_neg hd]
    constructor
    · intro ⟨leaf, hp, hleaf⟩
      subst hp
      refine ⟨⟨leaf, by simp⟩, by simp, ?_⟩
      simpa using hleaf
    · intro ⟨⟨leaf, hp⟩, _, hleaf⟩
      subst hp
      refine ⟨leaf, by simp, ?_⟩
      simpa using hleaf

theorem IsChild.length_lt (h : IsChild d p) : d.length < p.length := by
  obtain ⟨hmask, hne, -⟩ := isChild_iff.1 h
  have hle := hmask.length_le
  unfold dirMask at hle
  by_cases hd : d = []
  · subst hd
    exact Nat.pos_of_ne_zero hne
  · rw [if_neg hd, List.length_append] at hle
    exact hle

theorem prefix_of_dirMask (h : dirMask d <+: p) : d <+: p := by
  unfold dirMask at h
  by_cases hd : d = []
  · rw [hd]
    exact List.nil_prefix
  · rw [if_neg hd] at h
    exact (List.prefix_append d [0x2F]).trans h

end

/-! ## One entry -/

section

variable {t : Img} {kind : NameKind} {lo hi off a len : Nat} {d p name : Buf} {iter : DirIter}
  {entr : Entry}

/-- The type byte of a slot of the group is the type of the group or none. -/
theorem HoldsPiece.type (h : HoldsPiece t.vol off entr) (hl : Layout t.vol)
    (hoff : t.vol.Slot off) (hh : t.vol.Head off) {type : EntryType}
    (htype : entr.get .entryType = type.code) : t.vol.type off = type.code := by
  obtain ⟨j, hj, hbyte⟩ := h
  have hfirst : entr.get .entryType = t.vol.type (off + 64 * j) := by
    rw [Vol.type_eq]
    exact (fieldAt_entryType entr 0).trans (congrArg UInt8.toNat (hbyte 0 (by decide)))
  cases j with
  | zero => exact hfirst.symm.trans htype
  | succ j =>
    have hpiece := hl.pieces off hoff hh j hj
    rw [← hfirst, htype] at hpiece
    exact absurd (isType_code type) hpiece

/-- The branch for the kind of the entry skips the entry unless it is right under
the directory, and fails when the name does not fit into the buffer. -/
theorem gives_readdirBranch (hg : Geometry t.vol lo hi) (hl : Layout t.vol) (hk : kind.Fits)
    (hnamed : Named t.vol kind off p) (hmask : dirMask d <+: p) (hlen : 1 ≤ iter.len)
    (hbuf : iter.len ≤ name.length) {e : Entry} {type : IterType} {size add : Nat}
    (hadd : d.length + add = (dirMask d).length) :
    Gives (readdirBranch kind type size d.length add iter name (t.vol.load off e) off) t
      fun r t' => t'.vol = t.vol ∧ HoldsPiece t.vol off r.2.2.2 ∧
        ((r.1 = .failed ∧ iter.len < p.length + 2) ∨
          (r.2.2.1 = p ++ 0 :: name.drop (p.length + 1) ∧ p.length + 2 ≤ iter.len ∧
            ((r.1 = .restart ∧ ¬ IsChild d p ∧ r.2.1.len = iter.len) ∨
              (r.1 = .found ∧ IsChild d p ∧ r.2.1 =
                { iter with size := size, time := t.vol.get off .timeStamp, type := type })))) := by
  have hne := hnamed.str.ne_zero
  unfold readdirBranch
  rw [Vol.get_load, Vol.get_load, if_neg (not_not.2 hnamed.type), gives_bind]
  refine (gives_readName_all hg hl hk hnamed hlen hbuf fun x hx => load_byte hx).mono
    fun ⟨ret, name', entr'⟩ t' ⟨hvol, hpiece, hread⟩ => ?_
  dsimp only at hpiece hread ⊢
  split at hread
  swap
  · rename_i hshort
    rw [hread.1, if_pos rfl, gives_pure]
    exact ⟨hvol, hpiece, Or.inl ⟨rfl, Nat.lt_of_not_le hshort⟩⟩
  rename_i hfits
  obtain ⟨hret, hname'⟩ := hread
  subst hret hname'
  have hstr := cstr_append_zero hne (name.drop (p.length + 1))
  have hstrlen : strlen (p ++ 0 :: name.drop (p.length + 1)) = p.length := by
    rw [← cstr_length, hstr]
  have hleaf : isLeaf (p ++ 0 :: name.drop (p.length + 1)) (d.length + add) = false ↔
      0x2F ∈ p.drop (dirMask d).length := by
    rw [hadd, isLeaf, List.drop_append_of_le_length hmask.length_le,
      cstr_append_zero fun c hc => hne c (List.mem_of_mem_drop hc)]
    simp
  rw [if_neg (by decide), hstrlen]
  by_cases hown : p.length = d.length
  · rw [if_pos hown, gives_pure]
    have hno : ¬ IsChild d p := fun h => (isChild_iff.1 h).2.1 hown
    exact ⟨hvol, hpiece, Or.inr ⟨rfl, hfits, Or.inl ⟨rfl, hno, rfl⟩⟩⟩
  · rw [if_neg hown]
    by_cases hslash : 0x2F ∈ p.drop (dirMask d).length
    · rw [if_pos (hleaf.2 hslash), gives_pure]
      exact ⟨hvol, hpiece,
        Or.inr ⟨rfl, hfits, Or.inl ⟨rfl, fun h => (isChild_iff.1 h).2.2 hslash, rfl⟩⟩⟩
    · rw [if_neg fun h => hslash (hleaf.1 h), gives_pure]
      exact ⟨hvol, hpiece,
        Or.inr ⟨rfl, hfits, Or.inr ⟨rfl, isChild_iff.2 ⟨hmask, hown, hslash⟩, rfl⟩⟩⟩

/-- What the iterator says about an entry that is yielded. -/
def DirIter.listed (iter : DirIter) (path : Buf) : Listed :=
  ⟨path, iter.type, iter.size, iter.time, iter.curOff⟩

/-- An entry that starts with the mask is skipped unless it is right under the
directory, whatever its kind, if its path fits into the buffer. -/
theorem gives_readdirEntry (hg : Geometry t.vol lo hi) (hl : Layout t.vol)
    (hlive : t.vol.Live off p) (hmask : dirMask d <+: p) (hlen : 1 ≤ iter.len)
    (hbuf : iter.len ≤ name.length) {e : Entry} {add : Nat}
    (hadd : d.length + add = (dirMask d).length) :
    Gives (readdirEntry d.length add iter name (t.vol.load off e) off) t
      fun r t' => t'.vol = t.vol ∧
        ((r.1 = .failed ∧ iter.len < p.length + 2) ∨
          (r.2.1.len = iter.len ∧ r.2.2.1 = p ++ 0 :: name.drop (p.length + 1) ∧
            p.length + 2 ≤ iter.len ∧ ((r.1 = .restart ∧ ¬ IsChild d p) ∨
              (r.1 = .found ∧
                t.vol.Lists d off ({ r.2.1 with curOff := off + indexEntrySize }.listed p))))) := by
  have hcodes : fileKind.type.code ≠ dirKind.type.code := by decide
  unfold readdirEntry
  rw [gives_bind]
  rcases hlive with hfile | hdir
  · -- The second branch looks at what the first has left of the entry.
    refine (gives_readdirBranch hg hl fileKind_fits hfile hmask hlen hbuf hadd).mono
      fun ⟨branch, iter', name', entr'⟩ t' ⟨hvol, hpiece, hr⟩ => ?_
    dsimp only at hpiece hr ⊢
    rcases hr with ⟨rfl, hshort⟩ | ⟨rfl, hfits, ⟨rfl, hnot, hlen'⟩ | ⟨rfl, hchild, rfl⟩⟩
    · dsimp only
      rw [gives_pure]
      exact ⟨hvol, Or.inl ⟨rfl, hshort⟩⟩
    · dsimp only
      rw [gives_pure]
      exact ⟨hvol, Or.inr ⟨hlen', rfl, hfits, Or.inl ⟨rfl, hnot⟩⟩⟩
    · have hother : entr'.get .entryType ≠ dirKind.type.code := fun h =>
        hcodes (hfile.type.symm.trans
          (hpiece.type hl hfile.slot (fileKind_fits.isHead hfile.type) h))
      dsimp only
      rw [readdirBranch, if_pos hother, gives_pure]
      exact ⟨hvol, Or.inr ⟨rfl, rfl, hfits,
        Or.inr ⟨rfl, hchild, Or.inl ⟨hfile, rfl, Vol.get_load ..⟩, rfl, rfl⟩⟩⟩
  · have hother : (t.vol.load off e).get .entryType ≠ fileKind.type.code := by
      rw [Vol.get_load]
      exact fun h => hcodes (h.symm.trans hdir.type)
    rw [readdirBranch, if_pos hother, gives_pure]
    dsimp only
    refine (gives_readdirBranch hg hl dirKind_fits hdir hmask hlen hbuf hadd).mono
      fun ⟨branch, iter', name', entr'⟩ t' ⟨hvol, _, hr⟩ => ?_
    dsimp only at hr ⊢
    rcases hr with ⟨rfl, hshort⟩ | ⟨rfl, hfits, ⟨rfl, hnot, hlen'⟩ | ⟨rfl, hchild, rfl⟩⟩
    · exact ⟨hvol, Or.inl ⟨rfl, hshort⟩⟩
    · exact ⟨hvol, Or.inr ⟨hlen', rfl, hfits, Or.inl ⟨rfl, hnot⟩⟩⟩
    · exact ⟨hvol, Or.inr ⟨rfl, rfl, hfits,
        Or.inr ⟨rfl, hchild, Or.inr ⟨hdir, rfl, rfl⟩, rfl, rfl⟩⟩⟩

/-! ## One call -/

/-- The buffer holds the mask after `putMask`. -/
theorem putMask_eq (hne : ∀ c ∈ d, c ≠ 0) (hname : d <+: name) (hroom : d.length + 2 ≤ name.length)
    {add : Nat} (hadd : d.length + add = (dirMask d).length) :
    ∃ mask, putMask d.length add name = pure mask ∧ mask.length = name.length ∧
      cstr mask = dirMask d := by
  obtain ⟨rest, hrest⟩ := hname
  subst hrest
  replace hroom : 2 ≤ rest.length := by
    rw [List.length_append] at hroom
    omega
  match rest, hroom with
  | x :: y :: rest, _ =>
    cases d with
    | nil =>
      obtain rfl : add = 0 := by simpa [dirMask] using hadd
      by_cases hx : x = 0
      · exact ⟨x :: y :: rest, by simp [putMask, Buf.char, hx], rfl, by simp [cstr, hx, dirMask]⟩
      · refine ⟨0 :: y :: rest, ?_, rfl, rfl⟩
        simp [putMask, putChar, Buf.char, hx]
    | cons c d =>
      have hc : c ≠ 0 := hne c List.mem_cons_self
      obtain rfl : add = 1 := by simpa [dirMask] using hadd
      refine ⟨(c :: d) ++ 0x2F :: 0 :: rest, ?_, by simp, ?_⟩
      · have hset : ∀ (w z : UInt8), ((c :: d) ++ w :: y :: rest).set (c :: d).length z =
            (c :: d) ++ z :: y :: rest := by
          intro w z
          rw [List.set_append_right _ _ (Nat.le_refl _), Nat.sub_self, List.set_cons_zero]
        have hset' : ((c :: d) ++ 0x2F :: y :: rest).set ((c :: d).length + 1) 0 =
            (c :: d) ++ 0x2F :: 0 :: rest := by
          rw [List.set_append_right _ _ (Nat.le_add_right _ 1), Nat.add_sub_cancel_left,
            List.set_cons_succ, List.set_cons_zero]
        rw [putMask, if_pos (show Buf.char ((c :: d) ++ x :: y :: rest) 0 ≠ 0 from hc), putChar,
          if_pos (by rw [List.length_append]; exact Nat.lt_add_of_pos_right (Nat.succ_pos _)), hset,
          Prog.pure_bind', putChar, if_pos (by simp), hset']
      · have hall : ∀ e ∈ (c :: d) ++ [0x2F], e ≠ 0 := by
          intro e he
          rcases List.mem_append.1 he with h | h
          · exact hne e h
          · rw [List.mem_singleton.1 h]
            decide
        rw [dirMask, if_neg (List.cons_ne_nil c d), ← cstr_append_zero hall rest]
        simp

/-- The answer of a call whose scan starts at an offset: the first entry right
under the directory from there on, if there is one. -/
def Vol.Answers (v : Vol) (d : Buf) (off : Nat) (iter : DirIter) (room : Nat)
    (r : Int × DirIter × Option Buf) : Prop :=
  r.1 = 0 ∧ r.2.1.len = iter.len ∧
    ((r.2.2 = none ∧ ∀ o e, off ≤ o → ¬ v.Lists d o e) ∨
      ∃ name o, r.2.2 = some name ∧ name.length = room ∧ d <+: cstr name ∧
        v.Lists d o (r.2.1.listed (cstr name)) ∧ off ≤ o ∧
        ∀ o' e, off ≤ o' → o' < o → ¬ v.Lists d o' e)

/-- Slots without an entry of the directory can be skipped. -/
theorem Vol.Answers.skip {v : Vol} {off' room : Nat} {iter' : DirIter}
    {r : Int × DirIter × Option Buf} (h : v.Answers d off' iter' room r)
    (hlen : iter'.len = iter.len) (hle : off ≤ off')
    (hnone : ∀ o e, off ≤ o → o < off' → ¬ v.Lists d o e) :
    v.Answers d off iter room r := by
  obtain ⟨hret, hlen', h⟩ := h
  refine ⟨hret, hlen'.trans hlen, h.imp (fun ⟨hend, hrest⟩ => ⟨hend, fun o e ho hlists => ?_⟩)
    fun ⟨name, o, hname, hroom, hpre, hlists, ho, hfirst⟩ =>
      ⟨name, o, hname, hroom, hpre, hlists, hle.trans ho, fun o' e ho' hlt hlists' => ?_⟩⟩
  · by_cases hlt : o < off'
    · exact hnone o e ho hlt hlists
    · exact hrest o e (Nat.not_lt.1 hlt) hlists
  · by_cases hlt' : o' < off'
    · exact hnone o' e ho' hlt' hlists'
    · exact hfirst o' e (Nat.not_lt.1 hlt') hlt hlists'

/-- The call fails at a live path that does not fit into the buffer. -/
def Vol.TooLong (v : Vol) (len : Nat) (r : Int × DirIter × Option Buf) : Prop :=
  r.1 = -1 ∧ ∃ o p, v.Live o p ∧ len < p.length + 2

theorem Vol.Listable.not_tooLong {v : Vol} {len : Nat} {r : Int × DirIter × Option Buf}
    (h : v.Listable len) : ¬ v.TooLong len r := by
  intro ⟨_, o, p, hlive, hlt⟩
  exact absurd (h.short o p hlive) (Nat.not_le.2 hlt)

/-- The loop of `sfs_readdir` from an offset on. -/
theorem gives_readdirLoop (off : Nat) (hindex : Indexed t.vol lo hi)
    (haccept : ∀ o p, t.vol.Live o p → isCorrectFilepath p = true)
    (hne : ∀ c ∈ d, c ≠ 0) (hname : d <+: name)
    (hroom : d.length + 2 ≤ iter.len) (hbuf : iter.len ≤ name.length) {add : Nat}
    (hadd : d.length + add = (dirMask d).length)
    (fuel : Nat) (entr : Entry)
    (hoff : t.vol.fs.entryStart ≤ off ∧ off ≤ t.vol.fs.volIdent ∧ off % 64 = 0)
    (hfuel : (t.vol.fs.volIdent - off) / 64 < fuel) :
    Gives (readdirLoop d.length add fuel iter name entr off) t fun r t' => t'.vol = t.vol ∧
      (t.vol.TooLong iter.len r ∨ t.vol.Answers d off iter name.length r) := by
  induction fuel generalizing t off iter name entr with
  | zero => omega
  | succ fuel ih =>
    have hg := hindex.geometry
    obtain ⟨mask, hput, hmaskLen, hmask⟩ := putMask_eq hne hname (hroom.trans hbuf) hadd
    rw [readdirLoop, hput, Prog.pure_bind', gives_bind]
    refine (gives_searchFileMask (q := mask) hg hindex.layout hindex.fileNamed hindex.dirNamed entr
      hoff).mono fun ⟨found, entr₁⟩ t₁ ⟨hvol₁, hfound⟩ => ?_
    rw [hmask] at hfound
    dsimp only at hfound ⊢
    rcases hfound with ⟨rfl, hnone⟩ | ⟨hz, hle, ⟨p, hlive, hpre⟩, hfirst, e, rfl⟩
    · rw [if_pos rfl, gives_pure]
      exact ⟨hvol₁, Or.inr ⟨rfl, rfl, Or.inl ⟨rfl, fun o e ho hlists =>
        hnone o e.path ho hlists.live (isChild_iff.1 hlists.child).1⟩⟩⟩
    · -- Nothing before the entry found starts with the mask.
      have hbefore : ∀ o e, off ≤ o → o < found → ¬ t.vol.Lists d o e := fun o e ho hlt hlists =>
        hfirst o e.path ho hlt hlists.live (isChild_iff.1 hlists.child).1
      have hslot := hlive.slot
      have hstep : found + 64 ≤ t.vol.fs.volIdent ∧ u64 (found + indexEntrySize) = found + 64 := by
        have hal := hg.aligned
        have hal' := hslot.aligned
        have hlt := hslot.lt
        have hin := hg.inside
        have hsmall := hg.sized.small
        exact ⟨by omega, u64_of_lt (by unfold indexEntrySize; omega)⟩
      have hpath := cstr_append_zero hlive.ne_zero (mask.drop (p.length + 1))
      rw [if_neg hz, gives_bind, ← hvol₁]
      refine (gives_readdirEntry (t := t₁) (by rw [hvol₁]; exact hg)
        (by rw [hvol₁]; exact hindex.layout) (by rw [hvol₁]; exact hlive) hpre (by omega)
        (hbuf.trans_eq hmaskLen.symm) hadd).mono
        fun ⟨branch, iter', name', entr'⟩ t₂ ⟨hvol₂, hr⟩ => ?_
      dsimp only at hr ⊢
      rw [hvol₁] at hvol₂ hr ⊢
      rw [hstep.2]
      rcases hr with ⟨rfl, hshort⟩ | ⟨hlen', rfl, hfits, hr⟩
      · dsimp only
        rw [gives_pure]
        exact ⟨hvol₂, Or.inl ⟨rfl, found, p, hlive, hshort⟩⟩
      have hlength : (p ++ 0 :: mask.drop (p.length + 1)).length = name.length := by
        rw [List.length_append, List.length_cons, List.length_drop]
        omega
      rcases hr with ⟨rfl, hnot⟩ | ⟨rfl, hlists⟩
      · -- The entry is skipped, and the search goes on behind it.
        dsimp only
        have hskip : ∀ o e, off ≤ o → o < found + 64 → ¬ t.vol.Lists d o e := by
          intro o e ho hlt hlists
          have hal := hslot.aligned
          have hal' := hlists.live.slot.aligned
          rcases Nat.lt_or_ge o found with hlt' | hge
          · exact hbefore o e ho hlt' hlists
          · obtain rfl : o = found := by omega
            apply hnot
            rw [hlive.unique hlists.live]
            exact hlists.child
        rw [← hvol₂] at hindex haccept hoff hfuel hstep hskip ⊢
        rw [← hlen'] at hroom hbuf ⊢
        refine (ih (found + 64) hindex haccept
          ((prefix_of_dirMask hpre).trans (List.prefix_append p _)) hroom
          (hbuf.trans_eq hlength.symm) entr' ?_ ?_).mono fun r t₃ ⟨hvol₃, hans⟩ => ⟨hvol₃, ?_⟩
        · have hal := hslot.aligned
          omega
        · omega
        · rw [hlength] at hans
          exact hans.imp_right fun h => h.skip hlen' (Nat.le_add_right_of_le hle) hskip
      · -- The name is one that is accepted.
        have hcorrect : isCorrectFilepath (p ++ 0 :: mask.drop (p.length + 1)) = true :=
          (isCorrectString_append_zero hlive.ne_zero _ _).trans (haccept found p hlive)
        dsimp only
        rw [if_neg (by rw [hcorrect]; decide), gives_setErrno, gives_pure]
        refine ⟨hvol₂, Or.inr ⟨rfl, hlen',
          Or.inr ⟨_, found, rfl, hlength, ?_, ?_, hle, hbefore⟩⟩⟩
        · rw [hpath]
          exact prefix_of_dirMask hpre
        · rw [hpath]
          exact hlists

/-- A call of `sfs_readdir` yields the first entry right under the directory from
the cursor on, or fails at a path that is too long. -/
theorem gives_sfsReaddir (hindex : Indexed t.vol lo hi)
    (haccept : ∀ o p, t.vol.Live o p → isCorrectFilepath p = true)
    (hroom : (cstr name).length + 2 ≤ iter.len)
    (hdir : Named t.vol dirKind a (cstr name)) (hbuf : iter.len ≤ name.length)
    (hoff : off = if iter.curOff = 0 then t.vol.fs.entryStart else iter.curOff)
    (hge : t.vol.fs.entryStart ≤ off) (hle : off ≤ t.vol.fs.volIdent) (hal : off % 64 = 0) :
    Gives (sfsReaddir iter name) t fun r t' => t'.vol = t.vol ∧
      (t.vol.TooLong iter.len r ∨ t.vol.Answers (cstr name) off iter name.length r) := by
  have hlen := cstr_length name
  have hname := buf_eq_cstr name (by omega)
  have hcorrect : isCorrectFilepath name = true := by
    rw [hname]
    exact (isCorrectString_append_zero (cstr_ne_zero name) _ _).trans
      (haccept a _ (Or.inr hdir))
  unfold sfsReaddir
  rw [gives_uninit, gives_unit, if_neg (by rw [hcorrect]; decide), gives_bind]
  refine (gives_searchName (q := name) hindex.geometry hindex.layout dirKind_fits hindex.dirNamed
    _).mono fun ⟨start, entr⟩ t₁ ⟨hvol₁, hstart⟩ => ?_
  dsimp only at hstart ⊢
  rcases hstart with ⟨-, hnone⟩ | ⟨hz, -⟩
  · exact absurd hdir (hnone a)
  · have hmin : min (strlen name) iter.len = (cstr name).length := by omega
    have hadd : (cstr name).length + (if (cstr name).length = 0 then 0 else 1) =
        (dirMask (cstr name)).length := by
      cases cstr name <;> simp [dirMask]
    rw [if_neg hz, hmin, ← hoff, ← hvol₁]
    rw [← hvol₁] at hindex haccept hge hle
    refine gives_readdirLoop off hindex haccept (cstr_ne_zero name) ?_ hroom hbuf hadd _ entr
      ⟨hge, hle, hal⟩ ?_
    · exact ⟨_, hname.symm⟩
    · have hin := hindex.geometry.inside
      have hsmall := hindex.geometry.sized.small
      unfold scanFuel indexEntrySize
      rw [sub64_of_le (by omega)]
      omega

/-! ## All calls -/

/-- The calls of `fuse_sfs_readdir` from a cursor on. -/
theorem gives_fillDir (off : Nat) (hindex : Indexed t.vol lo hi) (hlist : t.vol.Listable iter.len)
    (hdir : Named t.vol dirKind a d) (hname : cstr name = d) (hbuf : iter.len ≤ name.length)
    (fuel : Nat) (hoff : off = if iter.curOff = 0 then t.vol.fs.entryStart else iter.curOff)
    (hge : t.vol.fs.entryStart ≤ off) (hle : off ≤ t.vol.fs.volIdent) (hal : off % 64 = 0)
    (hfuel : (t.vol.fs.volIdent - off) / 64 < fuel) :
    Gives (fillDir d.length fuel iter name) t fun r t' => t'.vol = t.vol ∧ r.1 = 0 ∧
      (∀ e, e ∈ r.2 ↔ ∃ o, off ≤ o ∧ t.vol.Lists d o e) ∧
      r.2.Pairwise fun e e' => e.curOff < e'.curOff := by
  induction fuel generalizing t off iter name with
  | zero => omega
  | succ fuel ih =>
    subst hname
    rw [fillDir, gives_bind]
    refine (gives_sfsReaddir hindex hlist.correct (hlist.short a _ (Or.inr hdir)) hdir hbuf hoff
      hge hle hal).mono fun ⟨ret, iter', filename⟩ t₁ ⟨hvol₁, hres⟩ => ?_
    obtain ⟨hret, hlen', hans⟩ := hres.resolve_left hlist.not_tooLong
    dsimp only at hret hlen' hans ⊢
    subst hret
    rw [if_neg (not_not.2 rfl)]
    rcases hans with ⟨rfl, hnone⟩ | ⟨name', o, rfl, hroom, hpre, hlists, ho, hfirst⟩
    · dsimp only
      rw [gives_pure]
      refine ⟨hvol₁, rfl, fun e => ⟨fun h => absurd h List.not_mem_nil, ?_⟩, List.Pairwise.nil⟩
      exact fun ⟨o, ho, hlists⟩ => absurd hlists (hnone o e ho)
    · have hshorter : (cstr name).length < strlen name' := by
        rw [← cstr_length]
        exact hlists.child.length_lt
      have hcut : cstr (name'.set (cstr name).length 0) = cstr name := by
        rw [cstr_set_zero _ hshorter, ← List.prefix_iff_eq_take.1 hpre]
      have hslot := hlists.live.slot
      have hcur : iter'.curOff = o + 64 := hlists.curOff
      have hal' := hslot.aligned
      have hlt := hslot.lt
      have halign := hindex.geometry.aligned
      have hsucc : ∀ o', o + 64 ≤ o' → off ≤ o' := fun o' h => by omega
      dsimp only
      rw [gives_putChar (hshorter.trans_le (strlen_le name')), gives_bind]
      rw [← hvol₁] at hindex hlist hdir hge hle hfuel hlt halign
      refine (ih (o + 64) hindex (by rw [hlen']; exact hlist) hdir hcut ?_ ?_ ?_ ?_ ?_ ?_).mono
        fun ⟨ret, items⟩ t₂ ⟨hvol₂, hret, hmem, hsorted⟩ => ?_
      · rw [hlen', List.length_set, hroom]
        exact hbuf
      · rw [hcur, if_neg (by omega)]
      · omega
      · omega
      · omega
      · omega
      · rw [hvol₁] at hvol₂ hmem
        dsimp only at hret hmem hsorted ⊢
        rw [gives_pure]
        refine ⟨hvol₂, hret, fun e => ?_, List.pairwise_cons.2 ⟨fun e he => ?_, hsorted⟩⟩
        · rw [List.mem_cons, hmem]
          constructor
          · rintro (rfl | ⟨o', ho', hlists'⟩)
            · exact ⟨o, ho, hlists⟩
            · exact ⟨o', hsucc o' ho', hlists'⟩
          · intro ⟨o', ho', hlists'⟩
            rcases Nat.lt_trichotomy o' o with hbefore | rfl | hafter
            · exact absurd hlists' (hfirst o' e ho' hbefore)
            · exact Or.inl (hlists'.unique hlists)
            · have hal'' := hlists'.live.slot.aligned
              exact Or.inr ⟨o', by omega, hlists'⟩
        · obtain ⟨o', ho', hlists'⟩ := (hmem e).1 he
          have hcur' := hlists'.curOff
          unfold indexEntrySize at hcur'
          dsimp only
          omega

end

/-- The calls of `fuse_sfs_readdir` yield every live entry right under the
directory once, in the order of the slots, and nothing else, and leave the volume
as it is. -/
theorem readdir_lists {s : Sys} {lo hi a : Nat} {d : Buf} (iter : DirIter) (name : Buf)
    (fuel : Nat) (hq : s.dev.Quiet) (hc : s.dev.Coherent) (hindex : Indexed s.vol lo hi)
    (hlist : s.vol.Listable iter.len) (hdir : Named s.vol dirKind a d) (hname : cstr name = d)
    (hbuf : iter.len ≤ name.length) (hstart : iter.curOff = 0)
    (hfuel : (s.fs.volIdent - s.fs.entryStart) / 64 < fuel) :
    ∃ items s', s.exec (fillDir d.length fuel iter name) = some ((0, items), s') ∧
      s'.vol = s.vol ∧ (∀ e, e ∈ items ↔ ∃ off, s.vol.Lists d off e) ∧
      items.Pairwise fun e e' => e.curOff < e'.curOff := by
  have hslot := hdir.slot
  obtain ⟨⟨ret, items⟩, s', t', hrun, hshow, hvol, hret, hmem, hsorted⟩ :=
    transfer (Sys.shows_img hq hc hindex.geometry.sized)
      (gives_fillDir (t := s.img) s.vol.fs.entryStart hindex hlist hdir hname hbuf fuel
        (by rw [hstart]; exact (if_pos rfl).symm) (Nat.le_refl _)
        (hslot.ge.trans (Nat.le_of_lt hslot.lt)) hindex.geometry.start_aligned hfuel)
  dsimp only at hret hmem hsorted
  subst hret
  refine ⟨items, s', hrun, hshow.vol.trans hvol, fun e => (hmem e).trans ?_, hsorted⟩
  exact ⟨fun ⟨o, _, h⟩ => ⟨o, h⟩, fun ⟨o, h⟩ => ⟨o, h.live.slot.ge, h⟩⟩

/-- The root with the file `b` and the directory `a`, and the file `a/c` in that. -/
theorem readdir_lists_smallTree :
    ∃ (s : Sys) (items : List Listed) (s' : Sys), SmallTree s ∧
      s.exec (fillDir 0 8 ⟨5, 0, 0, 0, .file⟩ [0, 0, 0, 0, 0]) = some ((0, items), s') ∧
      s'.vol = s.vol ∧ (∃ e, e ∈ items ∧ e.path = [0x62] ∧ e.type = .file ∧ e.curOff = 3840) ∧
      (∃ e, e ∈ items ∧ e.path = [0x61] ∧ e.type = .dir ∧ e.curOff = 3904) ∧
      ∀ e, e ∈ items → e.path ≠ [0x61, 0x2F, 0x63] := by
  obtain ⟨-, s', -, -, h⟩ := exists_smallTree
  generalize s'.sys = s at h
  obtain ⟨nodes, hw⟩ := h.wellFormed
  have hlist : s.vol.Listable 5 := by
    refine ⟨fun o p hl => isCorrectString_of_isPath (hw.isPath hl) _, fun o p hl => ?_⟩
    have hshort : ∀ x ∈ smallEntries, x.2.length + 2 ≤ 5 := by decide
    exact hshort _ (h.live_mem hl)
  have hb : Named s.vol fileKind 3776 [0x62] := h.files.named_iff.2 (by decide)
  have ha : Named s.vol dirKind 3840 [0x61] := h.dirs.named_iff.2 (by decide)
  have hroot : Named s.vol dirKind 3712 [] := h.dirs.named_iff.2 (by decide)
  obtain ⟨items, s₁, hcalls, hvol, hmem, -⟩ := readdir_lists ⟨5, 0, 0, 0, .file⟩ [0, 0, 0, 0, 0]
    8 h.quiet h.coherent hw.indexed hlist hroot rfl (by decide) rfl
    (by rw [h.start, h.ident]; decide)
  have hchild : ∀ c : UInt8, c ≠ 0x2F → IsChild [] [c] := fun c hne =>
    (if_pos rfl).mpr ⟨List.cons_ne_nil _ _, fun hc => hne (List.mem_singleton.1 hc).symm⟩
  refine ⟨s, items, s₁, h, hcalls, hvol,
    ⟨⟨[0x62], .file, s.vol.get 3776 .size, s.vol.get 3776 .timeStamp, 3840⟩,
      (hmem _).2 ⟨3776, hchild _ (by decide), Or.inl ⟨hb, rfl, rfl⟩, rfl, rfl⟩, rfl, rfl, rfl⟩,
    ⟨⟨[0x61], .dir, 0, s.vol.get 3840 .timeStamp, 3904⟩,
      (hmem _).2 ⟨3840, hchild _ (by decide), Or.inr ⟨ha, rfl, rfl⟩, rfl, rfl⟩, rfl, rfl, rfl⟩,
    fun e he hpath => ?_⟩
  -- `a/c` is no child of the root.
  obtain ⟨o, hlists⟩ := (hmem e).1 he
  have hnot := ((if_pos rfl).mp hlists.child).2
  rw [hpath] at hnot
  exact hnot (by decide)

end Sfs
