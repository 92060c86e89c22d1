import Sfs.Renaming

/-!
# Runs of the callbacks on the inode map

An offset enters the map by `pino_add` after `get_vino` has not found it, or by
`fuse_sfs_rename`, which does not look for the offset an entry has moved to.

* `step_injective` says that no other callback gives one offset to two inodes;
* `Request.Apart` says when `fuse_sfs_rename` does not;
* `inodes_injective_run` says it of a run, and `rename_doubles_inode` is the run
  where two directories have one number.
-/

namespace Sfs

open Lib Fuse

namespace InodeMap

variable {m : InodeMap} {pino v w : Nat}

/-- No two inodes have the same offset, unless it is 0. -/
def Injective (m : InodeMap) : Prop :=
  ∀ v w, 0 < v → v < m.maxVino → 0 < w → w < m.maxVino → m.getPino v ≠ 0 →
    m.getPino v = m.getPino w → v = w

/-! ## The offsets of the inodes -/

theorem getPino_setPino (m : InodeMap) (v w pino : Nat) :
    (m.setPino v pino).getPino w = if w = v ∧ v < m.maxVino then pino else m.getPino w := by
  unfold getPino setPino modify maxVino
  simp only [List.getElem?_modify]
  by_cases hvw : v = w
  · subst hvw
    by_cases hv : v < m.table.length
    · simp [hv]
    · simp [hv]
  · simp [hvw, Ne.symm hvw]

theorem maxVino_setPino (m : InodeMap) (v pino : Nat) :
    (m.setPino v pino).maxVino = m.maxVino := by
  simp [setPino, modify, maxVino]

/-- The inode that `get_vino` finds is one of the map. -/
theorem getVino_lt (h : m.getVino pino ≠ 0) : m.getVino pino < m.maxVino := by
  obtain ⟨j, hj, hpino⟩ := getVinoLoop_pino (i := 1) ((getVinoLoop_found Nat.one_pos).1 h)
  rw [List.getElem?_drop] at hpino
  unfold getVino
  rw [hj]
  by_contra hge
  rw [List.getElem?_eq_none (Nat.le_of_not_lt hge)] at hpino
  simp at hpino

/-- `get_vino` finds every offset of the map. -/
theorem getVino_ne_zero (hv : 0 < v) (hlt : v < m.maxVino) : m.getVino (m.getPino v) ≠ 0 := by
  have hlt' : v < m.table.length := hlt
  refine (getVinoLoop_found Nat.one_pos).2 ⟨m.table[v], ?_, ?_⟩
  · refine List.mem_iff_getElem?.2 ⟨v - 1, ?_⟩
    rw [List.getElem?_drop, Nat.add_sub_cancel' hv]
    exact List.getElem?_eq_getElem hlt
  · unfold getPino
    rw [List.getElem?_eq_getElem hlt]
    rfl

namespace Injective

/-- `get_vino` is the inverse of `get_pino`. -/
theorem getVino_getPino (h : m.Injective) (hv : 0 < v) (hlt : v < m.maxVino)
    (hne : m.getPino v ≠ 0) : m.getVino (m.getPino v) = v := by
  have hfound := getVino_ne_zero hv hlt
  have hback := getPino_getVino hfound
  refine h _ _ (Nat.pos_of_ne_zero hfound) (getVino_lt hfound) hv hlt ?_ hback
  rw [hback]
  exact hne

/-- An inode may lose its offset. -/
theorem setPino_zero (h : m.Injective) (v : Nat) : (m.setPino v 0).Injective := by
  intro u w hu hult hw hwlt hne heq
  rw [maxVino_setPino] at hult hwlt
  rw [getPino_setPino] at hne heq
  split at hne
  · exact absurd rfl hne
  rename_i hu'
  rw [if_neg hu', getPino_setPino] at heq
  split at heq
  · exact absurd heq hne
  · exact h u w hu hult hw hwlt hne heq

/-- An inode may get an offset that no other one has. -/
theorem setPino (h : m.Injective) (hnew : m.getVino pino = 0) (v : Nat) :
    (m.setPino v pino).Injective := by
  have hnone : ∀ w, 0 < w → w < m.maxVino → m.getPino w ≠ pino := by
    intro w hw hlt heq
    exact getVino_ne_zero hw hlt (heq ▸ hnew)
  intro u w hu hult hw hwlt hne heq
  rw [maxVino_setPino] at hult hwlt
  rw [getPino_setPino, getPino_setPino] at heq
  rw [getPino_setPino] at hne
  split at heq
  · rename_i hu'
    split at heq
    · rename_i hw'
      rw [hu'.1, hw'.1]
    · exact absurd heq.symm (hnone w hw hwlt)
  · rename_i hu'
    rw [if_neg hu'] at hne
    split at heq
    · exact absurd heq (hnone u hu hult)
    · exact h u w hu hult hw hwlt hne heq

/-- A new inode may get such an offset. -/
theorem pinoAdd (h : m.Injective) (hnew : m.getVino pino = 0) (grows : Bool) :
    (m.pinoAdd grows pino).2.Injective := by
  unfold InodeMap.pinoAdd
  split
  · exact h
  have hnone : ∀ w, 0 < w → w < m.maxVino → m.getPino w ≠ pino := by
    intro w hw hlt heq
    exact getVino_ne_zero hw hlt (heq ▸ hnew)
  have hget : ∀ w, w < m.maxVino + 1 → (m.table ++ [⟨pino, 0, 0⟩])[w]?.map FileT.pino =
      if w = m.maxVino then some pino else m.table[w]?.map FileT.pino := by
    intro w hw
    by_cases heq : w = m.maxVino
    · simp [heq, maxVino]
    · rw [if_neg heq, List.getElem?_append_left (show w < m.table.length from by
        unfold maxVino at *; omega)]
  intro u w hu hult hw hwlt hne heq
  have hlen : (m.table ++ [(⟨pino, 0, 0⟩ : FileT)]).length = m.maxVino + 1 := by simp [maxVino]
  have hult' : u < m.maxVino + 1 := hlen ▸ hult
  have hwlt' : w < m.maxVino + 1 := hlen ▸ hwlt
  unfold getPino at hne heq
  dsimp only at hne heq
  rw [hget u hult', hget w hwlt'] at heq
  rw [hget u hult'] at hne
  by_cases hu' : u = m.maxVino <;> by_cases hw' : w = m.maxVino
  · rw [hu', hw']
  · rw [if_pos hu', if_neg hw'] at heq
    exact absurd heq.symm (hnone w hw (by omega))
  · rw [if_neg hu', if_pos hw'] at heq
    exact absurd heq (hnone u hu (by omega))
  · rw [if_neg hu', if_neg hw'] at heq
    rw [if_neg hu'] at hne
    exact h u w hu (by omega) hw (by omega) hne heq

/-- The flags of an inode do not matter. -/
theorem modify (h : m.Injective) (v : Nat) {f : FileT → FileT} (hf : ∀ x, (f x).pino = x.pino) :
    (m.modify v f).Injective := by
  have hget : ∀ w, (m.modify v f).getPino w = m.getPino w := by
    intro w
    unfold getPino InodeMap.modify
    simp only [List.getElem?_modify]
    cases m.table[w]? with
    | none => simp
    | some x => by_cases hvw : v = w <;> simp [hvw, hf]
  have hmax : (m.modify v f).maxVino = m.maxVino := by simp [InodeMap.modify, maxVino]
  intro u w hu hult hw hwlt hne heq
  rw [hget] at hne
  rw [hget, hget] at heq
  exact h u w hu (hmax ▸ hult) hw (hmax ▸ hwlt) hne heq

end Injective

end InodeMap

/-! ## What a callback keeps of the map -/

/-- The callback, where it returns, leaves a map with a property as one. -/
def Fuse.Keeps {α : Type} (I : InodeMap → Prop) (m : FuseM α) : Prop :=
  ∀ s a s', m s = some (a, s') → I s.map → I s'.map

section

variable {α β : Type} {I : InodeMap → Prop}

theorem keeps_pure (a : α) : Fuse.Keeps I (pure a) := by
  rintro s _ _ ⟨⟩ h
  exact h

theorem Fuse.Keeps.bind {m : FuseM α} {f : α → FuseM β} (hm : Fuse.Keeps I m)
    (hf : ∀ a, Fuse.Keeps I (f a)) : Fuse.Keeps I (m >>= f) := by
  intro s b s' hrun h
  obtain ⟨⟨a, s₁⟩, hm', hf'⟩ := Option.bind_eq_some_iff.1 hrun
  exact hf a s₁ b s' hf' (hm s a s₁ hm' h)

/-- A choice by what the map says. -/
theorem keeps_ask {f : InodeMap → α} {g : α → FuseM β} (hg : ∀ a, Fuse.Keeps I (g a)) :
    Fuse.Keeps I (ask f >>= g) := by
  refine Fuse.Keeps.bind ?_ hg
  rintro s _ _ ⟨⟩ h
  exact h

theorem keeps_call (p : SfsM α) : Fuse.Keeps I (call p) := by
  intro s a s' hrun h
  obtain ⟨x, -, hx⟩ := Option.map_eq_some_iff.1 hrun
  cases hx
  exact h

theorem keeps_negErrno : Fuse.Keeps I negErrno := by
  rintro s _ _ ⟨⟩ h
  exact h

theorem keeps_uninitAttr : Fuse.Keeps I uninitAttr := by
  rintro s _ _ ⟨⟩ h
  exact h

theorem keeps_change {f : InodeMap → InodeMap} (hf : ∀ m, I m → I (f m)) :
    Fuse.Keeps I (change f) := by
  rintro s _ _ ⟨⟩ h
  exact hf _ h

theorem keeps_ite {c : Prop} [Decidable c] {m m' : FuseM α} (hm : Fuse.Keeps I m)
    (hm' : Fuse.Keeps I m') : Fuse.Keeps I (if c then m else m') := by
  split
  · exact hm
  · exact hm'

end

/-- `get_vino` before `pino_add` keeps the inodes apart. -/
theorem keeps_vinoFor (pino : Nat) : Fuse.Keeps InodeMap.Injective (vinoFor pino) := by
  intro s vino s' hrun h
  unfold vinoFor at hrun
  by_cases hz : s.map.getVino pino = 0
  · have hadd : Fuse.pinoAdd pino s = some (vino, s') := by
      rw [← hrun]
      show _ = (if s.map.getVino pino = 0 then Fuse.pinoAdd pino else pure _) s
      rw [if_pos hz]
    cases hadd
    exact h.pinoAdd hz _
  · have hpure : (pure (s.map.getVino pino) : FuseM Nat) s = some (vino, s') := by
      rw [← hrun]
      show _ = (if s.map.getVino pino = 0 then Fuse.pinoAdd pino else pure _) s
      rw [if_neg hz]
    cases hpure
    exact h

/-! ## The callbacks -/

/-- A call of a callback, with the path behind its leading slash. -/
inductive Request where
  | getattr (path : Buf)
  | «open» (path : Buf)
  | opendir (path : Buf)
  | readdir (full : Nat → Bool) (path : Buf)
  | mknod (path : Buf) (mode : Nat)
  | mkdir (path : Buf)
  | unlink (path : Buf)
  | rmdir (path : Buf)
  | release (vino : Nat)
  | rename (src dest : Buf)

namespace Request

/-- The state after a callback; `none` when it does not return. -/
def step (s : Fuse) : Request → Option Fuse
  | getattr path => (fuseSfsGetattr path s).map Prod.snd
  | .open path => (fuseSfsOpen path s).map Prod.snd
  | opendir path => (fuseSfsOpendir path s).map Prod.snd
  | readdir full path => (fuseSfsReaddir full path s).map Prod.snd
  | mknod path mode => (fuseSfsMknod path mode s).map Prod.snd
  | mkdir path => (fuseSfsMkdir path s).map Prod.snd
  | unlink path => (fuseSfsUnlink path s).map Prod.snd
  | rmdir path => (fuseSfsRmdir path s).map Prod.snd
  | release vino => (fuseSfsRelease vino s).map Prod.snd
  | rename src dest => (fuseSfsRename src dest s).map Prod.snd

end Request

theorem keeps_getattr (path : Buf) : Fuse.Keeps InodeMap.Injective (fuseSfsGetattr path) := by
  refine keeps_uninitAttr.bind fun attr => (keeps_call _).bind fun pino => keeps_ite ?_ ?_
  · exact keeps_negErrno.bind fun _ => keeps_pure _
  · refine (keeps_vinoFor pino).bind fun vino => keeps_ite (keeps_pure _) ?_
    exact (keeps_call _).bind fun x => keeps_ite (keeps_negErrno.bind fun _ => keeps_pure _)
      (keeps_pure _)

theorem keeps_open (path : Buf) : Fuse.Keeps InodeMap.Injective (fuseSfsOpen path) := by
  refine (keeps_call _).bind fun pino => keeps_ite ?_ ?_
  · exact keeps_negErrno.bind fun _ => keeps_pure _
  · refine (keeps_vinoFor pino).bind fun vino => keeps_ite (keeps_pure _) ?_
    exact (keeps_change fun m h => h.modify vino fun _ => rfl).bind fun _ => keeps_pure _

theorem keeps_opendir (path : Buf) : Fuse.Keeps InodeMap.Injective (fuseSfsOpendir path) := by
  refine keeps_uninitAttr.bind fun attr => (keeps_call _).bind fun pino => keeps_ite ?_ ?_
  · exact keeps_negErrno.bind fun _ => keeps_pure _
  · refine (keeps_call _).bind fun x => keeps_ite (keeps_negErrno.bind fun _ => keeps_pure _) ?_
    refine keeps_ite (keeps_pure _) ?_
    exact (keeps_vinoFor pino).bind fun vino => keeps_ite (keeps_pure _) (keeps_pure _)

theorem keeps_readdirLoop (len a : Nat) (full : Nat → Bool) (fuel k : Nat) (iter : DirIter)
    (name : Buf) : Fuse.Keeps InodeMap.Injective (fuseReaddirLoop len a full fuel k iter name) := by
  induction fuel generalizing k iter name with
  | zero =>
    intro s x s' hrun
    cases hrun
  | succ fuel ih =>
    rw [fuseReaddirLoop]
    refine (keeps_call _).bind fun x => ?_
    obtain ⟨ret, iter', filename⟩ := x
    refine keeps_ite (keeps_pure _) ?_
    cases filename with
    | none => exact keeps_pure _
    | some name' =>
      refine (keeps_vinoFor _).bind fun vino => keeps_ite (keeps_pure _) ?_
      refine keeps_ite (keeps_pure _) ?_
      exact (keeps_call _).bind fun name'' => (ih _ _ _).bind fun _ => keeps_pure _

theorem keeps_readdir (full : Nat → Bool) (path : Buf) :
    Fuse.Keeps InodeMap.Injective (fuseSfsReaddir full path) :=
  (keeps_call _).bind fun _ => keeps_readdirLoop _ _ _ _ _ _ _

theorem keeps_mknodCreat {I : InodeMap → Prop} (mode type : Nat) (path : Buf) :
    Fuse.Keeps I (mknodCreat mode type path) := by
  refine keeps_ite (keeps_pure _) ?_
  exact (keeps_call _).bind fun x => keeps_ite (keeps_pure _) (keeps_pure _)

theorem keeps_mknod {I : InodeMap → Prop} (path : Buf) (mode : Nat) :
    Fuse.Keeps I (fuseSfsMknod path mode) := by
  refine keeps_ite (keeps_pure _) ((keeps_mknodCreat _ _ _).bind fun cpath => ?_)
  cases cpath with
  | none => exact keeps_negErrno
  | some cpath =>
    refine (keeps_mknodCreat _ _ _).bind fun cpath' => ?_
    cases cpath' with
    | none => exact keeps_negErrno
    | some cpath' => exact (keeps_call _).bind fun _ => keeps_negErrno

theorem keeps_mkdir {I : InodeMap → Prop} (path : Buf) : Fuse.Keeps I (fuseSfsMkdir path) :=
  (keeps_call _).bind fun _ => keeps_ite keeps_negErrno (keeps_pure _)

theorem keeps_rmdir {I : InodeMap → Prop} (path : Buf) : Fuse.Keeps I (fuseSfsRmdir path) :=
  (keeps_call _).bind fun _ => keeps_ite (keeps_pure _) (keeps_pure _)

theorem keeps_deleteVino (vino pino : Nat) :
    Fuse.Keeps InodeMap.Injective (deleteVino vino pino) := by
  refine (keeps_call _).bind fun ret => keeps_ite (keeps_pure _) ?_
  exact (keeps_change fun m h => h.setPino_zero vino).bind fun _ => keeps_pure _

theorem keeps_unlink (path : Buf) : Fuse.Keeps InodeMap.Injective (fuseSfsUnlink path) := by
  refine (keeps_call _).bind fun pino => keeps_ite keeps_negErrno (keeps_ask fun vino => ?_)
  refine keeps_ite ?_ (keeps_ask fun bit => keeps_ite ?_ ?_)
  · exact (keeps_call _).bind fun _ => keeps_ite keeps_negErrno (keeps_pure _)
  · exact (keeps_change fun m h => h.modify vino fun _ => rfl).bind fun _ => keeps_pure _
  · exact (keeps_deleteVino _ _).bind fun _ => keeps_ite keeps_negErrno (keeps_pure _)

theorem keeps_release (vino : Nat) : Fuse.Keeps InodeMap.Injective (fuseSfsRelease vino) := by
  have hclear : Fuse.Keeps InodeMap.Injective
      (change (fun m => m.clrOpenbit vino) >>= fun _ => (pure 0 : FuseM Int)) :=
    (keeps_change fun m h => h.modify vino fun _ => rfl).bind fun _ => keeps_pure _
  refine keeps_ask fun dirty => keeps_ite (keeps_ask fun pino => ?_) hclear
  exact (keeps_deleteVino _ _).bind fun _ => keeps_ite keeps_negErrno hclear

/-! ## Renaming -/

/-- `fuse_sfs_rename` takes the entry at `a` to `b`. -/
inductive Vol.Moves (v : Vol) (src dest : Buf) (a b : Nat) : Prop where
  | dir (hdir : v.IsDir a) (hremoves : v.RemovesDir src) (hmoves : v.MovesDir a src dest)
      (hgoes : v.GoesTo a dest b)
  | file (hlive : v.LiveFile a) (hgoes : v.Renames dest) (hdirs : v.FindsDirs (cstr dest))
      (hfirst : v.FirstRun b (countEntry fileKind.first (strlen dest + 1)))

/-- The call is no renaming, or one on a working device with a well-formed volume
that moves no entry to an offset of the map. -/
def Request.Apart (s : Fuse) : Request → Prop
  | rename src dest => ∃ v nodes lo hi, Healthy v s.sys ∧ WellFormed v nodes lo hi ∧
      ∀ a b, v.Opens (cstr (newPath src)) a → v.Moves (newPath src) (newPath dest) a b →
        b = a ∨ s.map.getVino b = 0
  | _ => True

theorem Fuse.Renumbered.injective {s : Fuse} {a b : Nat} {r : Int} {map : InodeMap}
    (h : s.Renumbered a b r map) (hs : s.map.Injective) (hb : b = a ∨ s.map.getVino b = 0) :
    map.Injective := by
  rcases h.map with rfl | ⟨hne, hmap⟩
  · exact hs
  have hnew : s.map.getVino b = 0 := hb.resolve_left (Ne.symm hne)
  rcases hmap with rfl | rfl
  · exact hs.pinoAdd hnew _
  · exact hs.setPino hnew _

/-- Renaming keeps the inodes apart when it moves no entry to an offset of the
map. -/
theorem rename_injective {s s' : Fuse} {src dest : Buf} (hs : s.map.Injective)
    (hapart : (Request.rename src dest).Apart s)
    (hstep : Request.step s (.rename src dest) = some s') : s'.map.Injective := by
  obtain ⟨v, nodes, lo, hi, h, hw, hnew⟩ := hapart
  obtain ⟨r, s₁, hrun, hmoved⟩ := leads_fuseSfsRename h hw src dest
  obtain rfl : s₁ = s' := by
    rw [Request.step, hrun] at hstep
    exact Option.some.inj hstep
  cases hmoved with
  | nothing hvol hmap hnone => exact hmap ▸ hs
  | dir hopens hdir hmoved =>
    cases hmoved with
    | stays hvol hmap hnot => exact hmap ▸ hs
    | lost hremoves hname honly hrel hr hmap hnot => exact hmap ▸ hs
    | moved hremoves hname honly hrel hmoves hadd hgoes hnum =>
      exact hnum.injective hs (hnew _ _ hopens (.dir hdir hremoves hmoves hgoes))
  | file hopens hlive hmoved =>
    cases hmoved with
    | stays hvol hmap hnot => exact hmap ▸ hs
    | moved hgoes hdirs hfirst hne hrel hnum =>
      exact hnum.injective hs (hnew _ _ hopens (.file hlive hgoes hdirs hfirst))

/-! ## Runs -/

/-- One callback keeps the inodes apart. -/
theorem step_injective {s s' : Fuse} {req : Request} (hs : s.map.Injective)
    (hapart : req.Apart s) (hstep : Request.step s req = some s') : s'.map.Injective := by
  have hkeep : ∀ {α : Type} {m : FuseM α}, Fuse.Keeps InodeMap.Injective m →
      (m s).map Prod.snd = some s' → s'.map.Injective := by
    intro α m hm hmap
    obtain ⟨x, hx, rfl⟩ := Option.map_eq_some_iff.1 hmap
    exact hm s x.1 x.2 hx hs
  cases req with
  | getattr path => exact hkeep (keeps_getattr path) hstep
  | «open» path => exact hkeep (keeps_open path) hstep
  | opendir path => exact hkeep (keeps_opendir path) hstep
  | readdir full path => exact hkeep (keeps_readdir full path) hstep
  | mknod path mode => exact hkeep (keeps_mknod path mode) hstep
  | mkdir path => exact hkeep (keeps_mkdir path) hstep
  | unlink path => exact hkeep (keeps_unlink path) hstep
  | rmdir path => exact hkeep (keeps_rmdir path) hstep
  | release vino => exact hkeep (keeps_release vino) hstep
  | rename src dest => exact rename_injective hs hapart hstep

theorem injective_create (junk : FileT) : (inodeMapCreate junk).Injective := by
  intro v w hv hlt
  have hlt' : v < 1 := hlt
  omega

/-- In a run from a fresh map that moves no entry to an offset of the map, no two
inodes have one offset, and `get_vino` is the inverse of `get_pino`. -/
theorem inodes_injective_run {s s' : Fuse} {junk : FileT} {reqs : List Request}
    (hs : s.map = inodeMapCreate junk) (hreqs : Meets Request.step Request.Apart s reqs)
    (hrun : run Request.step s reqs = some s') :
    s'.map.Injective ∧ ∀ v, 0 < v → v < s'.map.maxVino → s'.map.getPino v ≠ 0 →
      s'.map.getVino (s'.map.getPino v) = v := by
  have hinj : s'.map.Injective :=
    run_keeps (I := fun s => s.map.Injective) (fun _ _ _ => step_injective)
      (hs ▸ injective_create junk) hreqs hrun
  exact ⟨hinj, fun v => hinj.getVino_getPino⟩

/-- The file `a` is renamed to `b` and asked for. -/
theorem inodes_injective_run_rename : ∃ s s' : Fuse,
    run Request.step s [.rename pathA [0x62, 0], .getattr [0x62, 0]] = some s' ∧
    s'.map.Injective ∧ ∀ v, 0 < v → v < s'.map.maxVino → s'.map.getPino v ≠ 0 →
      s'.map.getVino (s'.map.getPino v) = v := by
  have hview : (blankRun [.creat pathA]).map (fun s' : Session => (run Request.step
      (freshFuse s'.sys) [.rename pathA [0x62, 0], .getattr [0x62, 0]]).isSome) = some true := by
    decide +kernel
  obtain ⟨s, s', -, hmount, hrun, hsome⟩ := blankRun_eq hview
  obtain ⟨hq, hc, nodes, hw⟩ := blankRun_light hmount (by decide +kernel) hrun
  obtain ⟨s'', hreqs⟩ := Option.isSome_iff_exists.1 hsome
  -- Nothing has a number yet.
  have hmeets : Meets Request.step Request.Apart (freshFuse s'.sys)
      [.rename pathA [0x62, 0], .getattr [0x62, 0]] :=
    ⟨⟨s'.sys.vol, nodes, 1, 7, ⟨rfl, hq, hc⟩, hw, fun _ _ _ _ => Or.inr rfl⟩,
      fun _ _ => ⟨trivial, fun _ _ => trivial⟩⟩
  exact ⟨freshFuse s'.sys, s'', hreqs, inodes_injective_run rfl hmeets hreqs⟩

/-- The directories `a` and `b` have a number each.  `a` is removed, and `b` is
moved to its place. -/
def doubleReqs : List Request :=
  [.mkdir pathA, .getattr pathA, .mkdir [0x62, 0], .getattr [0x62, 0], .rmdir pathA,
    .rename [0x62, 0] [0x63, 0]]

/-- Then two inodes have one offset. -/
theorem rename_doubles_inode : ∃ s s', FreshlyMounted blankOpts 512 s ∧
    run Request.step (freshFuse s) doubleReqs = some s' ∧ ¬ s'.map.Injective := by
  have hview : (blankRun []).map (fun s : Session => (run Request.step (freshFuse s.sys)
      doubleReqs).map fun s' : Fuse =>
        (s'.map.maxVino, s'.map.getPino 1, s'.map.getPino 2)) = some (some (3, 3776, 3776)) := by
    decide +kernel
  obtain ⟨s, s', hfresh, -, hrun, hview⟩ := blankRun_eq hview
  cases hrun
  obtain ⟨s', hreqs, hview⟩ := Option.map_eq_some_iff.1 hview
  simp only [Prod.mk.injEq] at hview
  obtain ⟨hmax, h₁, h₂⟩ := hview
  refine ⟨s, s', hfresh, hreqs, fun hinj => ?_⟩
  have heq := hinj 1 2 (by decide) (by omega) (by decide) (by omega) (by rw [h₁]; decide)
    (h₁.trans h₂.symm)
  exact absurd heq (by decide)

end Sfs
