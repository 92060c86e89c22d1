/-!
# The inode map

`inode.c` and `inode.h`: the table that gives the files FUSE asks about numbers
of their own, `vino`, next to the offsets of their entries, `pino`.

Element 0 of the table is never used, so 0 stands for no inode.  The locks of the
table are left out: the program runs in one thread.
-/

namespace Sfs

/-- `file_t` without its lock. -/
structure FileT where
  pino : Nat
  dirty : Int
  openbit : Int
  deriving DecidableEq, Repr

/-- `inode_map_t`: the table up to `max_vino`, and `c_size`. -/
structure InodeMap where
  table : List FileT
  cSize : Nat
  deriving DecidableEq, Repr

/-- `INODE_MAP_DEFAULT_SIZE`. -/
def inodeMapDefaultSize : Nat := 1024

/-- `inode_map_create`, where element 0 of the table holds what `malloc` found. -/
def inodeMapCreate (junk : FileT) : InodeMap := ⟨[junk], inodeMapDefaultSize⟩

namespace InodeMap

/-- `max_vino`. -/
def maxVino (m : InodeMap) : Nat := m.table.length

/-- `pino_add`: the new inode, or 0 when the table is full and `realloc` fails. -/
def pinoAdd (m : InodeMap) (grows : Bool) (pino : Nat) : Nat × InodeMap :=
  if m.maxVino = m.cSize ∧ grows = false then (0, m)
  else
    (m.maxVino, {
      table := m.table ++ [⟨pino, 0, 0⟩]
      cSize := if m.maxVino = m.cSize then m.cSize * 2 else m.cSize })

/-- The loop of `get_vino`, at inode `i`. -/
def getVinoLoop (pino : Nat) : List FileT → Nat → Nat
  | [], _ => 0
  | f :: table, i => if f.pino = pino then i else getVinoLoop pino table (i + 1)

/-- `get_vino`: the first inode with the offset, or 0. -/
def getVino (m : InodeMap) (pino : Nat) : Nat := getVinoLoop pino (m.table.drop 1) 1

/-- `get_pino`. -/
def getPino (m : InodeMap) (vino : Nat) : Nat := (m.table[vino]?.map FileT.pino).getD 0

/-- `get_dirty`. -/
def getDirty (m : InodeMap) (vino : Nat) : Int := (m.table[vino]?.map FileT.dirty).getD (-1)

/-- `get_openbit`, which checks no bound; no inode has the answer for one past
the end. -/
def getOpenbit (m : InodeMap) (vino : Nat) : Int := (m.table[vino]?.map FileT.openbit).getD 0

/-- An assignment to fields of `inode_table[vino]`. -/
def modify (m : InodeMap) (vino : Nat) (f : FileT → FileT) : InodeMap :=
  { m with table := m.table.modify vino f }

/-- `set_pino`. -/
def setPino (m : InodeMap) (vino pino : Nat) : InodeMap :=
  m.modify vino fun f => { f with pino := pino }

/-- `set_dirty`. -/
def setDirty (m : InodeMap) (vino : Nat) : InodeMap :=
  m.modify vino fun f => { f with dirty := 1 }

/-- `set_openbit`. -/
def setOpenbit (m : InodeMap) (vino : Nat) : InodeMap :=
  m.modify vino fun f => { f with openbit := 1 }

/-- `clr_openbit`. -/
def clrOpenbit (m : InodeMap) (vino : Nat) : InodeMap :=
  m.modify vino fun f => { f with openbit := 0 }

/-! ## Lookups -/

section

variable {m m' : InodeMap} {pino pino' v : Nat}

theorem getVinoLoop_append (table more : List FileT) (i : Nat) :
    getVinoLoop pino (table ++ more) i =
      if ∃ f ∈ table, f.pino = pino then getVinoLoop pino table i
      else getVinoLoop pino more (i + table.length) := by
  induction table generalizing i with
  | nil => simp
  | cons f table ih =>
    by_cases hf : f.pino = pino
    · simp [getVinoLoop, hf]
    · simp [getVinoLoop, hf, ih, Nat.add_assoc, Nat.add_comm 1]

/-- The inode found is one of the table, and has the offset. -/
theorem getVinoLoop_found {table : List FileT} {i : Nat} (hi : 0 < i) :
    getVinoLoop pino table i ≠ 0 ↔ ∃ f ∈ table, f.pino = pino := by
  induction table generalizing i with
  | nil => simp [getVinoLoop]
  | cons f table ih =>
    by_cases hf : f.pino = pino
    · simp [getVinoLoop, hf, Nat.ne_of_gt hi]
    · simp [getVinoLoop, hf, ih (Nat.succ_pos i)]

theorem getVinoLoop_pino {table : List FileT} {i : Nat}
    (h : ∃ f ∈ table, f.pino = pino) :
    ∃ j, getVinoLoop pino table i = i + j ∧ table[j]?.map FileT.pino = some pino := by
  induction table generalizing i with
  | nil => simp at h
  | cons f table ih =>
    by_cases hf : f.pino = pino
    · exact ⟨0, by simp [getVinoLoop, hf], by simp [hf]⟩
    · have hrest : ∃ f ∈ table, f.pino = pino := by simpa [hf] using h
      obtain ⟨j, hj, hpino⟩ := ih (i := i + 1) hrest
      refine ⟨j + 1, ?_, by simpa using hpino⟩
      simp only [getVinoLoop, hf, if_false, hj]
      omega

/-- `get_pino` of the inode that `get_vino` finds. -/
theorem getPino_getVino (h : m.getVino pino ≠ 0) : m.getPino (m.getVino pino) = pino := by
  obtain ⟨j, hj, hpino⟩ := getVinoLoop_pino (i := 1) ((getVinoLoop_found Nat.one_pos).1 h)
  rw [getVino, hj, getPino, ← List.getElem?_drop, hpino]
  rfl

/-- Two offsets with one inode are one. -/
theorem pino_eq_of_getVino (h : m.getVino pino ≠ 0) (heq : m.getVino pino = m.getVino pino') :
    pino = pino' := by
  rw [← getPino_getVino h, heq, getPino_getVino (heq ▸ h)]

/-- The table has grown at its end. -/
def Grows (m m' : InodeMap) : Prop := m.table <+: m'.table

theorem Grows.refl (m : InodeMap) : m.Grows m := List.prefix_refl _

theorem Grows.trans {m'' : InodeMap} (h : m.Grows m') (h' : m'.Grows m'') : m.Grows m'' :=
  List.IsPrefix.trans h h'

/-- An inode found is found again when the table has grown. -/
theorem Grows.getVino (hg : m.Grows m') (h : m.getVino pino ≠ 0) :
    m'.getVino pino = m.getVino pino := by
  obtain ⟨more, hmore⟩ := hg
  unfold InodeMap.getVino at h ⊢
  rw [← hmore]
  cases htable : m.table with
  | nil => simp [htable, getVinoLoop] at h
  | cons f table =>
    rw [htable] at h
    simp only [List.drop_one, List.tail_cons, List.cons_append] at h ⊢
    rw [getVinoLoop_append, if_pos ((getVinoLoop_found Nat.one_pos).1 h)]

theorem grows_pinoAdd (m : InodeMap) (grows : Bool) (pino : Nat) :
    m.Grows (m.pinoAdd grows pino).2 := by
  unfold pinoAdd
  split
  · exact Grows.refl m
  · exact List.prefix_append _ _

/-- `pino_add` puts the offset where `get_vino` will find it. -/
theorem getVino_pinoAdd {grows : Bool} (hnone : m.getVino pino = 0)
    (hv : (m.pinoAdd grows pino).1 ≠ 0) :
    (m.pinoAdd grows pino).2.getVino pino = (m.pinoAdd grows pino).1 := by
  unfold pinoAdd at hv ⊢
  split at hv
  · exact absurd rfl hv
  rename_i hroom
  rw [if_neg hroom]
  unfold getVino maxVino at *
  cases htable : m.table with
  | nil => simp [htable] at hv
  | cons f table =>
    rw [htable] at hnone
    simp only [List.drop_one, List.tail_cons, List.cons_append] at hnone ⊢
    have hnew : ¬ ∃ f ∈ table, f.pino = pino := by
      rw [← getVinoLoop_found Nat.one_pos, hnone]
      simp
    rw [getVinoLoop_append, if_neg hnew]
    simp [getVinoLoop, Nat.add_comm]

end

end InodeMap

end Sfs
