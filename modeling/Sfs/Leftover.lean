import Sfs.Stored

/-!
# What free blocks hold

A file shows what was written to it, whatever deleted files left in the blocks it
was given; but no function clears a block, so the gap behind the old end of a file
that grows shows what its blocks held.  Two units that are the same but for the
bytes of their free blocks are run in step.

* `Img.handle_withData`: the commands see nothing of the data area, as long as only
  the index is to be seen, so both units go the same way;
* `Vol.MadeOf`: the bytes of the files after an operation are bytes it was given
  or bytes the files had, or they are behind the old end;
* `settledBytes_run`: in every run the files of the two units have the same sizes,
  and the same bytes but for those in a gap.
-/

namespace Sfs

open Lib

/-! ## Programs that look at the index -/

namespace Img

/-- The image with other bytes. -/
def withData (t : Img) (d : Mem) : Img := { t with vol := { t.vol with data := d } }

/-- The bytes that are to be seen when only the index is. -/
def Sees (t : Img) (k : Nat) : Prop := k < t.vol.blockSize ∨ t.vol.fs.entryStart ≤ k

/-- Other bytes that look the same. -/
def Alike (t : Img) (d : Mem) : Prop := ∀ k, t.Sees k → d k = t.vol.data k

variable {t t' : Img} {d : Mem}

/-- The bytes that a read returns. -/
theorem Alike.readData {offset size : Nat} (h : t.Alike d) (data : Mem)
    (hsee : ¬ (offset ≠ 0 ∧ offset < t.vol.fs.entryStart))
    (hfits : offset % t.vol.blockSize + size ≤ t.vol.blockSize) :
    blit data 0 d offset size = blit data 0 t.vol.data offset size := by
  refine blit_congr (fun _ _ => rfl) fun k hk => h _ ?_
  by_cases hz : offset = 0
  · subst hz
    rw [Nat.zero_mod] at hfits
    exact Or.inl (by omega)
  · have hge := Nat.not_lt.1 fun hlt => hsee ⟨hz, hlt⟩
    exact Or.inr (by omega)

/-- The same bytes are written to both. -/
theorem Alike.writeData {offset size : Nat} (h : t.Alike d) (data : Mem) {k : Nat}
    (hk : t.Sees k) :
    blit d offset data 0 size k = blit t.vol.data offset data 0 size k := by
  by_cases hin : offset ≤ k ∧ k < offset + size
  · rw [blit_inside hin.1 hin.2, blit_inside hin.1 hin.2]
  · rw [blit_outside (by omega), blit_outside (by omega)]
    exact h k hk

/-- A copy inside the data area is not seen. -/
theorem Alike.copyBlock {src dest size : Nat} (h : t.Alike d)
    (hsee : ¬ (dest = 0 ∨ t.vol.fs.entryStart < (dest + size) * t.vol.blockSize)) {k : Nat}
    (hk : t.Sees k) :
    blit d (dest * t.vol.blockSize) d (src * t.vol.blockSize) (size * t.vol.blockSize) k
      = blit t.vol.data (dest * t.vol.blockSize) t.vol.data (src * t.vol.blockSize)
        (size * t.vol.blockSize) k := by
  have hpos : 0 < dest := Nat.pos_of_ne_zero fun hz => hsee (Or.inl hz)
  have hend : (dest + size) * t.vol.blockSize ≤ t.vol.fs.entryStart :=
    Nat.not_lt.1 fun hlt => hsee (Or.inr hlt)
  have hfirst := Nat.le_mul_of_pos_left t.vol.blockSize hpos
  rw [Nat.add_mul] at hend
  have hout : k < dest * t.vol.blockSize ∨
      dest * t.vol.blockSize + size * t.vol.blockSize ≤ k :=
    hk.imp (fun hlt => Nat.lt_of_lt_of_le hlt hfirst) fun hge => Nat.le_trans hend hge
  rw [blit_outside hout, blit_outside hout]
  exact h k hk

/-- A command does the same to an image with other bytes that look the same. -/
theorem handle_withData {e : Cmd} {r : e.Reply} (hindex : t.indexOnly = true) (h : t.Alike d)
    (hrun : handle e t = some (r, t')) :
    t'.indexOnly = true ∧ ∃ d', t'.Alike d' ∧
      handle e (t.withData d) = some (r, t'.withData d') := by
  cases e with
  | readData offset data size =>
    dsimp only [handle] at hrun
    split at hrun
    case isTrue => cases hrun
    case isFalse hsee =>
      split at hrun
      case isFalse => cases hrun
      case isTrue hfits =>
        have hread := h.readData data (fun hlt => hsee ⟨hindex, hlt⟩) hfits
        have hopen : handle (.readData offset data size) (t.withData d)
            = if t.vol.HasBlock (offset / t.vol.blockSize) then
                some ((size, blit data 0 d offset size), { t.withData d with clean := false })
              else some ((minusOne, data), { t.withData d with errno := eIO }) :=
          (if_neg hsee).trans (if_pos hfits)
        rw [hopen, hread]
        split at hrun
        case isTrue hblock =>
          cases hrun
          exact ⟨hindex, d, h, if_pos hblock⟩
        case isFalse hblock =>
          cases hrun
          exact ⟨hindex, d, h, if_neg hblock⟩
  | writeData offset data size =>
    dsimp only [handle] at hrun
    split at hrun
    case isTrue hblock =>
      split at hrun
      case isFalse => cases hrun
      case isTrue hle =>
        cases hrun
        exact ⟨hindex, blit d offset data 0 size, fun k hk => h.writeData data hk,
          (if_pos hblock).trans (if_pos hle)⟩
    case isFalse hblock =>
      cases hrun
      exact ⟨hindex, d, h, if_neg hblock⟩
  | copyBlock src dest size =>
    dsimp only [handle] at hrun
    split at hrun
    case isTrue hz =>
      cases hrun
      exact ⟨hindex, d, h, if_pos hz⟩
    case isFalse hz =>
      split at hrun
      case isTrue => cases hrun
      case isFalse hsee =>
        split at hrun
        case isFalse => cases hrun
        case isTrue hcopy =>
          cases hrun
          exact ⟨hindex, _, fun k hk => h.copyBlock (fun hlt => hsee ⟨hindex, hlt⟩) hk,
            (if_neg hz).trans ((if_neg hsee).trans (if_pos hcopy))⟩
  | setUnit fs =>
    dsimp only [handle] at hrun
    split at hrun
    case isTrue => cases hrun
    case isFalse hsee =>
      cases hrun
      have hstart : fs.entryStart = t.vol.fs.entryStart :=
        not_not.1 fun hne => hsee ⟨hindex, hne⟩
      refine ⟨hindex, d, fun k hk => h k ?_, if_neg hsee⟩
      exact hk.imp_right fun hge => hstart.symm.trans_le hge
  | blockSize | devSize | unit | uninit | setErrno | getTime =>
    cases hrun
    exact ⟨hindex, d, h, rfl⟩

/-- Other bytes that look the same leave the index as it is. -/
theorem Alike.sameIndex (h : t.Alike d) : SameIndex t.vol (t.withData d).vol :=
  ⟨⟨rfl, rfl, rfl, rfl⟩, rfl, fun k hk => h k (Or.inr hk)⟩

end Img

/-- Two units that show images of which only the index is to be seen, and there
they are the same. -/
structure InStep (s u : Sys) (t : Img) (d : Mem) : Prop where
  first : Shows s t
  second : Shows u (t.withData d)
  indexOnly : t.indexOnly = true
  alike : t.Alike d

/-- A program that returns on both images does so with one value, and the units
stay in step. -/
theorem InStep.exec {α : Type} {p : SfsM α} {s u : Sys} {t : Img} {d : Mem}
    {Q Q' : α → Img → Prop} (h : InStep s u t d) (hp : Gives p t Q)
    (hp' : Gives p (t.withData d) Q') :
    ∃ r s' u' t' d', s.exec p = some (r, s') ∧ u.exec p = some (r, u') ∧ InStep s' u' t' d' ∧
      Q r t' ∧ Q' r (t'.withData d') := by
  obtain ⟨r, t', hrun, hQ⟩ := hp
  obtain ⟨w, hrun', hindex, d', hlike, rfl⟩ := Prog.exec_simulates (h := Img.handle)
    (k := Img.handle) (S := fun u t => t.indexOnly = true ∧ ∃ d, t.Alike d ∧ u = t.withData d)
    (fun e u t r t' hut he => by
      obtain ⟨hindex, d, hlike, rfl⟩ := hut
      obtain ⟨hindex', d', hlike', he'⟩ := Img.handle_withData hindex hlike he
      exact ⟨_, he', hindex', d', hlike', rfl⟩)
    ⟨h.indexOnly, d, h.alike, rfl⟩ hrun
  obtain ⟨s', hs', hfirst⟩ := h.first.exec hrun
  obtain ⟨u', hu', hsecond⟩ := h.second.exec hrun'
  exact ⟨r, s', u', t', d', hs', hu', ⟨hfirst, hsecond, hindex, hlike⟩, hQ, hp'.of_exec hrun'⟩

/-! ## Where the bytes of a file come from -/

section MadeOf

variable {v v' u u' : Vol} {nodes nodes' : List Nat} {lo hi a file o : Nat}
  {put : Nat → Nat → Option UInt8}

/-- Every byte of a live file is one that was put there, or one the file had, or
it is behind the end that the file had. -/
def Vol.MadeOf (v v' : Vol) (put : Nat → Nat → Option UInt8) : Prop :=
  ∀ o, v'.LiveFile o → ∀ i, i < v'.get o .size →
    put o i = some (v'.fileByte o i) ∨
      (put o i = none ∧
        (i < v.get o .size → v.LiveFile o ∧ v'.fileByte o i = v.fileByte o i))

/-- The live files of the two volumes have the same bytes at the places in
`settled`. -/
def Vol.SameFiles (v u : Vol) (settled : Nat → Nat → Prop) : Prop :=
  ∀ o, v.LiveFile o → ∀ i, i < v.get o .size → settled o i → u.fileByte o i = v.fileByte o i

/-- The places of bytes that were put there, or that were settled and inside
their file. -/
def Vol.settle (v : Vol) (put : Nat → Nat → Option UInt8) (settled : Nat → Nat → Prop) :
    Nat → Nat → Prop :=
  fun o i => (put o i).isSome = true ∨ (settled o i ∧ i < v.get o .size)

theorem SameIndex.liveFile_iff (h : SameIndex v v') : v'.LiveFile o ↔ v.LiveFile o := by
  rw [Vol.LiveFile, Vol.LiveFile, h.area.slot]
  exact and_congr_right fun hoff => by rw [Vol.type, h.get_eq hoff]

/-- When the same bytes are put in the same files, the files stay the same. -/
theorem Vol.SameFiles.step {settled : Nat → Nat → Prop} (h : v.SameFiles u settled)
    (hindex : SameIndex v u) (hv : v.MadeOf v' put) (hu : u.MadeOf u' put)
    (hindex' : SameIndex v' u') : v'.SameFiles u' (v.settle put settled) := by
  intro o ho i hi hsettled
  have ho' : u'.LiveFile o := hindex'.liveFile_iff.2 ho
  have hi' : i < u'.get o .size := by
    rw [hindex'.get_eq ho.1]
    exact hi
  rcases hv o ho i hi with hput | ⟨hput, hkept⟩
  · rcases hu o ho' i hi' with hput' | ⟨hput', -⟩
    · exact Option.some.inj (hput'.symm.trans hput)
    · exact absurd (hput.symm.trans hput') (Option.some_ne_none _)
  · rcases hu o ho' i hi' with hput' | ⟨-, hkept'⟩
    · exact absurd (hput'.symm.trans hput) (Option.some_ne_none _)
    · rcases hsettled with hsome | ⟨hold, hin⟩
      · rw [hput] at hsome
        exact Bool.noConfusion hsome
      · obtain ⟨hlive, hbyte⟩ := hkept hin
        have hin' : i < u.get o .size := by
          rw [hindex.get_eq hlive.1]
          exact hin
        rw [hbyte, (hkept' hin').2]
        exact h o hlive i hin hold

/-- Nothing is put anywhere. -/
def putNothing : Nat → Nat → Option UInt8 := fun _ _ => none

theorem Vol.MadeOf.refl (v : Vol) : v.MadeOf v putNothing :=
  fun _ ho _ _ => Or.inr ⟨rfl, fun _ => ⟨ho, rfl⟩⟩

theorem Vol.Keeps.liveFile (h : v.Keeps v' nodes nodes' a) (hne : o ≠ a) (ho : v.LiveFile o) :
    v'.LiveFile o := by
  have hfile : v.IsFile nodes o := ho.isFile
  exact ⟨h.area.slot.2 ho.1, ((h.sameFile o hne hfile).get_eq _).trans ho.2⟩

/-- A new file is empty. -/
theorem Vol.Added.madeOf {s : Buf} (h : v.Added v' fileKind a s) (hb : Blocks v nodes lo hi)
    (hempty : v'.get a .size = 0) : v.MadeOf v' putNothing := by
  intro o ho i hi
  by_cases heq : o = a
  · rw [heq, hempty] at hi
    exact absurd hi (Nat.not_lt_zero i)
  · have hk : v.Keeps v' nodes nodes a := h.keeps hb.layout
    have hlive := hk.symm.liveFile heq ho
    have hfile : v.IsFile nodes o := hlive.isFile
    have hget := fun f => (hk.sameFile o heq hfile).get_eq (f := f)
    refine Or.inr ⟨rfl, fun hi => ⟨hlive, ?_⟩⟩
    rw [Vol.fileByte, Vol.fileByte, hget, h.area.blockSize]
    exact Vol.SameData.of_frame h.frame (h.unused 0 (Nat.succ_pos _)).1.ge _
      (hb.fileByte hfile hi).2

/-- The bytes that a write puts in its file. -/
def putBytes (file off : Nat) (data : Mem) (size : Nat) : Nat → Nat → Option UInt8 :=
  fun o i => if o = file ∧ off ≤ i ∧ i < off + size then some (data (i - off)) else none

theorem Vol.Written.madeOf {data : Mem} {size off : Nat}
    (h : v.Written v' nodes nodes' lo hi file data size off) (hlive : v.LiveFile file) :
    v.MadeOf v' (putBytes file off data size) := by
  intro o ho i hi
  by_cases heq : o = file
  · subst heq
    by_cases hin : off ≤ i ∧ i < off + size
    · have hbyte := h.stored (i - off) (by omega)
      rw [Nat.add_sub_cancel' hin.1] at hbyte
      exact Or.inl ((if_pos ⟨rfl, hin⟩).trans (congrArg some hbyte.symm))
    · exact Or.inr ⟨if_neg fun h => hin h.2, fun hold => ⟨hlive, h.kept i hold (by omega)⟩⟩
  · have hfile : v.IsFile nodes o := (h.files o heq).1 ho.isFile
    have hget := fun f => (h.fileGroup o heq hfile).get_eq (f := f)
    exact Or.inr ⟨if_neg fun h => heq h.1, fun hold =>
      ⟨⟨hfile.1, (hget _).symm.trans ho.2⟩, h.fileBytes o heq hfile i hold⟩⟩

theorem Vol.Resized.madeOf {size : Nat} (h : v.Resized v' nodes nodes' lo hi file size)
    (hb : Blocks v nodes lo hi) (hlive : v.LiveFile file) : v.MadeOf v' putNothing := by
  intro o ho i hi
  by_cases heq : o = file
  · subst heq
    rw [h.size] at hi
    refine Or.inr ⟨rfl, fun hold => ⟨hlive, ?_⟩⟩
    rw [Vol.fileByte, Vol.fileByte, h.keeps.area.blockSize]
    exact h.content i hold hi
  · have hold := h.keeps.symm.liveFile heq ho
    exact Or.inr ⟨rfl, fun hi => ⟨hold,
      h.keeps.fileBytes hb h.blocks h.isFile h.frame heq hold.isFile hi⟩⟩

/-! ## Safety is a matter of the index -/

theorem SameIndex.canRecord {start stop : Nat} (h : SameIndex v v') (hf : FreeList v nodes)
    (hrec : v.CanRecord nodes start stop) : v'.CanRecord nodes start stop := by
  rcases hrec with ⟨a, ha, htype⟩ | ⟨a, ha, hnear⟩
  · exact Or.inl ⟨a, h.area.slot.2 ha, (h.get_eq ha _).trans htype⟩
  · refine Or.inr ⟨a, ha, ?_⟩
    rw [Vol.Before, Vol.After, h.get_eq (hf.slot a ha), h.get_eq (hf.slot a ha)]
    exact hnear

theorem SameIndex.growsSafely {size : Nat} (h : SameIndex v v') (hf : FreeList v nodes)
    (hfile : v.Slot file) (hsafe : v.GrowsSafely nodes file size) :
    v'.GrowsSafely nodes file size := by
  have hextent : ∀ a, a ∈ nodes → v'.extent a = v.extent a := fun a ha => by
    rw [Vol.extent, Vol.extent, h.get_eq (hf.slot a ha), h.get_eq (hf.slot a ha)]
  unfold Vol.GrowsSafely
  rw [h.get_eq hfile, h.get_eq hfile, h.area.blockSize]
  intro hz hmore hbehind hroom
  have hmove := hsafe hz hmore ?_ ?_
  · rcases hmove with hrec | ⟨a, ha, hfull, hgreatest⟩
    · refine Or.inl ?_
      rw [h.get_eq hfile, h.get_eq hfile]
      exact h.canRecord hf hrec
    · exact Or.inr ⟨a, ha, (hextent a ha).trans hfull,
        fun o ho => (hextent o ho).trans_le (hgreatest o ho)⟩
  · intro a ha hfits
    refine hbehind a ha ?_
    rw [Vol.Fits, hextent a ha, h.get_eq (hf.slot a ha), h.area.blockSize]
    exact hfits
  · obtain ⟨a, ha, hle⟩ := hroom
    exact ⟨a, ha, hle.trans_eq (hextent a ha)⟩

theorem SameIndex.truncatesSafely {size : Nat} (h : SameIndex v v') (hf : FreeList v nodes)
    (hfile : v.Slot file) (hsafe : v.TruncatesSafely nodes file size) :
    v'.TruncatesSafely nodes file size where
  size := by
    rw [h.area.blockSize]
    exact hsafe.size
  blocks := by
    rw [h.area.blockSize, h.get_eq hfile]
    exact hsafe.blocks
  drop := by
    rw [h.get_eq hfile, h.get_eq hfile, h.get_eq hfile]
    exact fun hz hne => h.canRecord hf (hsafe.drop hz hne)
  grow := h.growsSafely hf hfile hsafe.grow

end MadeOf

/-! ## Runs in step -/

/-- The operation makes a file or stores data. -/
def Op.Stores : Op → Prop
  | creat _ | write _ _ _ _ | truncate _ _ => True
  | mkdir _ | rmdir _ | unlink _ | delete _ | rename _ _ => False

instance Op.decidableStores : (op : Op) → Decidable op.Stores
  | creat _ | write _ _ _ _ | truncate _ _ => isTrue trivial
  | mkdir _ | rmdir _ | unlink _ | delete _ | rename _ _ => isFalse id

/-- The bytes that an operation puts in files: those of a write that returns
their number. -/
def Op.puts (s : Session) : Op → Nat → Nat → Option UInt8
  | write file data size off =>
    match s.sys.exec (sfsWrite file data size off) with
    | some (ret, _) => if ret = size then putBytes file off data size else putNothing
    | none => putNothing
  | _ => putNothing

/-- A session, with the places in its files where the bytes are settled: those
of the start of the run and those that a write put there, as long as they are
inside the file. -/
structure Tracked where
  session : Session
  settled : Nat → Nat → Prop

/-- The tracked session after an operation. -/
def Op.track (x : Tracked) (op : Op) : Option Tracked :=
  (op.step x.session).map fun s' =>
    ⟨s', x.session.sys.vol.settle (op.puts x.session) x.settled⟩

/-- The volume is well formed afterwards, and its files are made of what they
were and what was put there. -/
def Vol.Leaves (v v' : Vol) (lo hi : Nat) (put : Nat → Nat → Option UInt8) : Prop :=
  (∃ nodes, WellFormed v' nodes lo hi) ∧ v.MadeOf v' put

section Leaves

variable {t : Img} {nodes : List Nat} {lo hi file : Nat}

theorem Vol.leaves_same {v v' : Vol} (hw : WellFormed v nodes lo hi) (h : v' = v) :
    v.Leaves v' lo hi putNothing := by
  subst h
  exact ⟨⟨nodes, hw⟩, .refl _⟩

theorem leaves_sfsCreat (hw : WellFormed t.vol nodes lo hi) {q : Buf} (hq : GoodPath q) :
    Gives (sfsCreat q) t fun _ t' => t.vol.Leaves t'.vol lo hi putNothing := by
  refine (gives_sfsCreat hw.indexed hq).mono fun r t' ⟨_, hadd, hgood⟩ => ?_
  rcases hadd with ⟨-, hvol⟩ | ⟨hr, a, hadd, -, -, hempty⟩
  · exact Vol.leaves_same hw hvol
  · have hnew := hempty rfl
    exact ⟨⟨nodes, hadd.wellFormed (Or.inl rfl) (hgood hr).1 hw fun _ => hnew⟩,
      hadd.madeOf hw.toBlocks hnew.1⟩

theorem leaves_sfsWrite (hw : WellFormed t.vol nodes lo hi) (hlive : t.vol.LiveFile file)
    {size off : Nat} (hlt : off + size < 9223372036854775808)
    (hsafe : t.vol.GrowsSafely nodes file (max (t.vol.get file .size) (off + size)))
    (data : Mem) :
    Gives (sfsWrite file data size off) t fun r t' => t.vol.Leaves t'.vol lo hi
      (if r = size then putBytes file off data size else putNothing) := by
  have hfile : t.vol.IsFile nodes file := hlive.isFile
  refine (gives_sfsWrite hw.toBlocks hfile (by omega) (hw.toBlocks.written_lt hfile hlt) hsafe
    data).mono fun r t' h => ?_
  rcases h with ⟨hr, hvol⟩ | ⟨hr, w, nodes', hres, hvol⟩
  · have hne : r ≠ size := by
      rw [hr]
      unfold minusOne
      omega
    rw [if_neg hne]
    exact Vol.leaves_same hw hvol
  · have hwritten := hres.written hw hlive data
    rw [if_pos hr, hvol]
    exact ⟨⟨nodes', hwritten.wellFormed⟩, hwritten.madeOf hlive⟩

theorem leaves_sfsTruncate (hw : WellFormed t.vol nodes lo hi) (hlive : t.vol.LiveFile file)
    {size : Nat} (hsafe : t.vol.TruncatesSafely nodes file size) :
    Gives (sfsTruncate file size) t fun _ t' => t.vol.Leaves t'.vol lo hi putNothing := by
  refine (gives_sfsTruncate hw.toBlocks hlive.isFile hsafe).mono fun r t' h => ?_
  rcases h with ⟨-, hvol⟩ | ⟨-, nodes', hres⟩
  · exact Vol.leaves_same hw hvol
  · exact ⟨⟨nodes', hres.wellFormed hw hlive.isFile⟩, hres.madeOf hw.toBlocks hlive⟩

end Leaves

/-- Two units in step whose live files have the same bytes where these are
settled. -/
def Twins (lo hi : Nat) (s u : Sys) (settled : Nat → Nat → Prop) : Prop :=
  ∃ t d, InStep s u t d ∧ (∃ nodes, WellFormed t.vol nodes lo hi) ∧
    t.vol.SameFiles (t.withData d).vol settled

/-- A function that makes the files of both of the same bytes. -/
theorem InStep.twins {α : Type} {p : SfsM α} {s u : Sys} {t : Img} {d : Mem} {lo hi : Nat}
    {settled : Nat → Nat → Prop} (h : InStep s u t d) (put : α → Nat → Nat → Option UInt8)
    (hsame : t.vol.SameFiles (t.withData d).vol settled)
    (hp : Gives p t fun r t' => t.vol.Leaves t'.vol lo hi (put r))
    (hp' : Gives p (t.withData d) fun r t' => (t.withData d).vol.Leaves t'.vol lo hi (put r)) :
    ∃ r s' u', s.exec p = some (r, s') ∧ u.exec p = some (r, u') ∧
      Twins lo hi s' u' (s.vol.settle (put r) settled) := by
  obtain ⟨r, s', u', t', d', hs', hu', hstep, ⟨hw, hmade⟩, -, hmade'⟩ := h.exec hp hp'
  refine ⟨r, s', u', hs', hu', t', d', hstep, hw, ?_⟩
  rw [h.first.vol]
  exact hsame.step h.alike.sameIndex hmade hmade' hstep.alike.sameIndex

/-- One operation on both units. -/
theorem step_twins {x : Tracked} {u : Session} {lo hi : Nat} {op : Op} {pending : List Nat}
    (h : Twins lo hi x.session.sys u.sys x.settled)
    (hacc : op.Accepts x.session.sys.vol pending) (hsafe : op.Safe x.session.sys.vol)
    (hstores : op.Stores) :
    ∃ x' u', op.track x = some x' ∧ op.step u = some u' ∧
      Twins lo hi x'.session.sys u'.sys x'.settled := by
  obtain ⟨t, d, hstep, ⟨nodes, hw⟩, hsame⟩ := h
  have hindex := hstep.alike.sameIndex
  have hw' := hindex.wellFormed hw
  have hf := hw.space.toFreeList
  rw [hstep.first.vol] at hacc hsafe
  cases op with
  | creat q =>
    obtain ⟨r, s', u', hs', hu', htwins⟩ := hstep.twins (fun _ => putNothing) hsame
      (leaves_sfsCreat hw hacc) (leaves_sfsCreat hw' hacc)
    refine ⟨⟨{ x.session with sys := s' }, _⟩, { u with sys := u' }, ?_, ?_, htwins⟩
    · rw [Op.track, Op.step, hs']
      rfl
    · rw [Op.step, hu']
      rfl
  | write file data size off =>
    obtain ⟨hlive, hlt⟩ := hacc
    have hgrow := hindex.growsSafely hf hlive.1 (hsafe nodes hf)
    rw [← hindex.get_eq hlive.1 .size] at hgrow
    obtain ⟨r, s', u', hs', hu', htwins⟩ := hstep.twins
      (fun r => if r = size then putBytes file off data size else putNothing) hsame
      (leaves_sfsWrite hw hlive hlt (hsafe nodes hf) data)
      (leaves_sfsWrite hw' (hindex.liveFile_iff.2 hlive) hlt hgrow data)
    refine ⟨⟨{ x.session with sys := s' }, _⟩, { u with sys := u' }, ?_, ?_, htwins⟩
    · rw [Op.track, Op.step, Op.puts, hs']
      rfl
    · rw [Op.step, hu']
      rfl
  | truncate file size =>
    have hlive : t.vol.LiveFile file := hacc
    obtain ⟨r, s', u', hs', hu', htwins⟩ := hstep.twins (fun _ => putNothing) hsame
      (leaves_sfsTruncate hw hlive (hsafe nodes hf))
      (leaves_sfsTruncate hw' (hindex.liveFile_iff.2 hlive)
        (hindex.truncatesSafely hf hlive.1 (hsafe nodes hf)))
    refine ⟨⟨{ x.session with sys := s' }, _⟩, { u with sys := u' }, ?_, ?_, htwins⟩
    · rw [Op.track, Op.step, hs']
      rfl
    · rw [Op.step, hu']
      rfl
  | mkdir _ | rmdir _ | unlink _ | delete _ | rename _ _ => exact hstores.elim

/-- The live files of units in step have the same sizes, and the same bytes where
these are settled. -/
theorem Twins.files {s u : Sys} {lo hi : Nat} {settled : Nat → Nat → Prop}
    (h : Twins lo hi s u settled) (o : Nat) :
    (u.vol.LiveFile o ↔ s.vol.LiveFile o) ∧ (s.vol.LiveFile o →
      u.vol.get o .size = s.vol.get o .size ∧
      ∀ i, i < s.vol.get o .size → settled o i → u.vol.fileByte o i = s.vol.fileByte o i) := by
  obtain ⟨t, d, hstep, -, hsame⟩ := h
  have hindex := hstep.alike.sameIndex
  rw [hstep.first.vol, hstep.second.vol]
  exact ⟨hindex.liveFile_iff, fun ho => ⟨hindex.get_eq ho.1 _, hsame o ho⟩⟩

/-! ## Other bytes in the free blocks -/

/-- Two mounted units that are the same but for the bytes of the free blocks. -/
structure Sys.SameButFree (s u : Sys) (nodes : List Nat) : Prop where
  blockSize : u.dev.blockSize = s.dev.blockSize
  size : u.dev.size = s.dev.size
  fs : u.fs = s.fs
  errno : u.errno = s.errno
  clock : u.clock = s.clock
  ticks : u.ticks = s.ticks
  stack : u.stack = s.stack
  data : ∀ k, ¬ s.vol.Free nodes (k / s.dev.blockSize) → u.dev.data k = s.dev.data k

/-- No file has a byte in a free block, and no byte of the index is in one. -/
theorem Sys.SameButFree.twins {s u : Sys} {nodes : List Nat} {lo hi : Nat}
    (h : s.SameButFree u nodes) (hw : WellFormed s.vol nodes lo hi) (hq : s.dev.Quiet)
    (hc : s.dev.Coherent) (hq' : u.dev.Quiet) (hc' : u.dev.Coherent) :
    Twins lo hi s u fun _ _ => True := by
  have hg := hw.geometry
  have hbs : 0 < s.dev.blockSize := hg.sized.pos
  have hvol : u.vol = { s.vol with data := u.dev.data } := by
    unfold Sys.vol
    rw [h.blockSize, h.size, h.fs]
  have hlike : Img.Alike { s.img with indexOnly := true } u.dev.data := by
    intro k hk
    refine h.data k fun hfree => ?_
    obtain ⟨hlo, hhi⟩ := hw.space.free_range hfree
    rcases hk with hfirst | hindex
    · have hfirst : k < s.dev.blockSize := hfirst
      rw [Nat.div_eq_of_lt hfirst] at hlo
      exact absurd hg.lo_pos (Nat.not_lt.2 hlo)
    · have hlt := (Nat.div_lt_iff_lt_mul hbs).1 hhi
      exact absurd (hg.entryStart.symm.trans_le hindex) (Nat.not_le.2 hlt)
  refine ⟨_, u.dev.data, ⟨?_, ?_, rfl, hlike⟩, ⟨nodes, hw⟩, ?_⟩
  · exact ⟨rfl, fun hcl => Bool.noConfusion hcl, rfl, rfl, rfl, rfl, hq, hc, hg.sized⟩
  · exact ⟨hvol, fun hcl => Bool.noConfusion hcl, h.errno, h.clock, h.ticks, h.stack, hq', hc',
      hg.sized.congr rfl rfl⟩
  · intro o ho i hi _
    have hfile : s.vol.IsFile nodes o := ho.isFile
    rw [Vol.fileByte, Vol.fileByte, hlike.sameIndex.get_eq ho.1]
    exact h.data _ (hw.apart o hfile _ (hw.toBlocks.fileByte hfile hi).1)

/-- The unit with the bytes of a deleted file in the blocks 1 to 6. -/
def Sys.used (s : Sys) : Sys :=
  { s with dev := { s.dev with
    data := fun k => if 512 ≤ k ∧ k < 3584 then 0x2A else s.dev.data k
    bufNum := none } }

/-- Where these blocks are free, it is the same but for the free blocks. -/
theorem used_sameButFree {s : Sys} (hbs : s.dev.blockSize = 512)
    (hstart : s.vol.get 3648 .startBlock = 1) (hstop : s.vol.get 3648 .endBlock = 6) :
    s.SameButFree s.used [3648] := by
  refine ⟨rfl, rfl, rfl, rfl, rfl, rfl, rfl, fun k hk => if_neg fun hin => hk ?_⟩
  rw [hbs]
  exact ⟨3648, List.mem_singleton_self _, by rw [hstart]; omega, by rw [hstop]; omega⟩

/-- The small disk, as it is and with used blocks. -/
theorem blankMounted_used {s : Sys} (h : blankMounted = some s) :
    WellFormed s.vol [3648] 1 7 ∧ s.dev.Quiet ∧ s.dev.Coherent ∧ s.used.dev.Quiet ∧
      s.used.dev.Coherent ∧ s.SameButFree s.used [3648] := by
  have hview : (blankMounted.map fun s => [s.dev.blockSize, s.fs.entryStart,
      s.vol.get 3648 .startBlock, s.vol.get 3648 .endBlock]) = some [512, 3584, 1, 6] := by
    decide +kernel
  rw [h, Option.map_some, Option.some.injEq] at hview
  simp only [List.cons.injEq, and_true] at hview
  obtain ⟨hbs, hentry, hstart, hstop⟩ := hview
  obtain ⟨hat, hV⟩ := (blankMounted_fresh h).start
  rw [hentry] at hV
  exact ⟨hV.toWellFormed, hat.quiet, hat.coherent, hat.quiet, BlockDev.coherent_of_none rfl,
    used_sameButFree hbs hstart hstop⟩

/-- Whatever the free blocks hold, a run of these operations leaves the same files
with the same sizes, and the same bytes in them but for those that a growing file
got and no write has put there. -/
theorem settledBytes_run {s u : Sys} {nodes : List Nat} {lo hi : Nat}
    (hw : WellFormed s.vol nodes lo hi) (hq : s.dev.Quiet) (hc : s.dev.Coherent)
    (hq' : u.dev.Quiet) (hc' : u.dev.Coherent) (hsame : s.SameButFree u nodes) {ops : List Op}
    (hops : MeetsOps (fun v p op => op.Accepts v p ∧ op.Safe v ∧ op.Stores) ⟨s, []⟩ ops)
    (n : Nat) :
    ∃ x u', run Op.track ⟨⟨s, []⟩, fun _ _ => True⟩ (ops.take n) = some x ∧
      run Op.step ⟨u, []⟩ (ops.take n) = some u' ∧
      ∀ o, (u'.sys.vol.LiveFile o ↔ x.session.sys.vol.LiveFile o) ∧
        (x.session.sys.vol.LiveFile o →
          u'.sys.vol.get o .size = x.session.sys.vol.get o .size ∧
          ∀ i, i < x.session.sys.vol.get o .size → x.settled o i →
            u'.sys.vol.fileByte o i = x.session.sys.vol.fileByte o i) := by
  have hstart : Twins lo hi s u fun _ _ => True := hsame.twins hw hq hc hq' hc'
  have htracked : Meets Op.track (fun x op => op.Accepts x.session.sys.vol x.session.pending ∧
      op.Safe x.session.sys.vol ∧ op.Stores) ⟨⟨s, []⟩, fun _ _ => True⟩ ops := by
    refine Meets.lift (f := Op.step) (C := fun s op => op.Accepts s.sys.vol s.pending ∧
      op.Safe s.sys.vol ∧ op.Stores) Tracked.session (fun x x' op hx' => ?_) hops
    obtain ⟨s', hs', rfl⟩ := Option.map_eq_some_iff.1 hx'
    exact hs'
  obtain ⟨x, u', hx, hu', htwins⟩ := run_relates (f := Op.track) (g := Op.step)
    (R := fun x u => Twins lo hi x.session.sys u.sys x.settled)
    (fun x u op htwins hop => step_twins htwins hop.1 hop.2.1 hop.2.2)
    (u := ⟨u, []⟩) hstart (htracked.take n)
  exact ⟨x, u', hx, hu', htwins.files⟩

theorem settledBytes_run_usedBlocks :
    ∃ s x u', blankMounted = some s ∧
      run Op.track ⟨⟨s, []⟩, fun _ _ => True⟩ [.creat pathA, .write 3776 (fun _ => 7) 600 100]
        = some x ∧
      run Op.step ⟨s.used, []⟩ [.creat pathA, .write 3776 (fun _ => 7) 600 100] = some u' ∧
      ∀ o, (u'.sys.vol.LiveFile o ↔ x.session.sys.vol.LiveFile o) ∧
        (x.session.sys.vol.LiveFile o →
          u'.sys.vol.get o .size = x.session.sys.vol.get o .size ∧
          ∀ i, i < x.session.sys.vol.get o .size → x.settled o i →
            u'.sys.vol.fileByte o i = x.session.sys.vol.fileByte o i) := by
  have hsome : blankMounted.isSome = true := by decide +kernel
  obtain ⟨s, hmount⟩ := Option.isSome_iff_exists.1 hsome
  obtain ⟨hw, hq, hc, hq', hc', hsame⟩ := blankMounted_used hmount
  have hops : MeetsOps (fun v p op => op.Accepts v p ∧ op.Light v ∧ op.Stores) ⟨s, []⟩
      [.creat pathA, .write 3776 (fun _ => 7) 600 100] :=
    blankRun_meets hmount (by decide +kernel)
  obtain ⟨x, u', hx, hu', hfiles⟩ := settledBytes_run hw hq hc hq' hc' hsame
    (hops.mono fun _ _ hop => ⟨hop.1, hop.2.1.safe, hop.2.2⟩) 2
  exact ⟨s, x, u', hmount, hx, hu', hfiles⟩

/-- A file that is made larger by a truncate, or by a write past its end, shows
what its block held before. -/
theorem growing_shows_leftovers :
    ∃ s u nodes, WellFormed s.vol nodes 1 7 ∧ s.dev.Quiet ∧ s.dev.Coherent ∧ u.dev.Quiet ∧
      u.dev.Coherent ∧ s.SameButFree u nodes ∧
      ∀ op, op ∈ [Op.truncate 3776 5, Op.write 3776 (fun _ => 7) 1 4] →
        ∃ s' u', run Op.step ⟨s, []⟩ [.creat pathA, op] = some s' ∧
          run Op.step ⟨u, []⟩ [.creat pathA, op] = some u' ∧ s'.sys.vol.LiveFile 3776 ∧
          s'.sys.vol.get 3776 .size = 5 ∧
          u'.sys.vol.fileByte 3776 0 ≠ s'.sys.vol.fileByte 3776 0 := by
  have hview : (blankMounted.map fun s =>
      [Op.truncate 3776 5, Op.write 3776 (fun _ => 7) 1 4].map fun op =>
        [s, s.used].map fun s => (run Op.step ⟨s, []⟩ [.creat pathA, op]).map fun s' =>
          (decide (s'.sys.vol.LiveFile 3776), s'.sys.vol.get 3776 .size,
            s'.sys.vol.fileByte 3776 0))
      = some [[some (true, 5, 0), some (true, 5, 0x2A)],
        [some (true, 5, 0), some (true, 5, 0x2A)]] := by decide +kernel
  obtain ⟨s, hmount, hview⟩ := Option.map_eq_some_iff.1 hview
  obtain ⟨hw, hq, hc, hq', hc', hsame⟩ := blankMounted_used hmount
  refine ⟨s, s.used, [3648], hw, hq, hc, hq', hc', hsame, fun op hop => ?_⟩
  have hboth : ([s, s.used].map fun s => (run Op.step ⟨s, []⟩ [.creat pathA, op]).map fun s' =>
      (decide (s'.sys.vol.LiveFile 3776), s'.sys.vol.get 3776 .size,
        s'.sys.vol.fileByte 3776 0)) = [some (true, 5, 0), some (true, 5, 0x2A)] := by
    simp only [List.map_cons, List.map_nil, List.cons.injEq, and_true] at hview
    simp only [List.mem_cons, List.not_mem_nil, or_false] at hop
    rcases hop with rfl | rfl
    · simpa using hview.1
    · simpa using hview.2
  simp only [List.map_cons, List.map_nil, List.cons.injEq, and_true] at hboth
  obtain ⟨s', hs', hs⟩ := Option.map_eq_some_iff.1 hboth.1
  obtain ⟨u', hu', hu⟩ := Option.map_eq_some_iff.1 hboth.2
  simp only [Prod.mk.injEq, decide_eq_true_eq] at hs hu
  refine ⟨s', u', hs', hu', hs.1, hs.2.1, ?_⟩
  rw [hs.2.2, hu.2.2]
  decide

end Sfs
