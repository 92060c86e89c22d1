import Mathlib.Data.List.Basic
import Sfs.Lib.Simulation

/-!
# File trees

What a file system is for, without regard to where it keeps anything: files and
directories with names, the bytes of the files, and the files that have lost
their name and wait to be deleted.  Paths, the handles of files and directories,
and bytes are of any types.

* `Step above` is the specification of the calls, where `above d p` says that the
  directory `d` lies on the path `p`.  A call may be refused where room can be
  short, and the bytes between the end of a file and a write behind it may be any.
* `WellNamed` says that a name of each kind has one handle, a handle one name, and
  a name the directories above it.  `Step.wellNamed` keeps it.
* `Step.keeps_byte`, `Step.keeps_name` and `Step.keeps_content` say which calls
  leave what alone.
* `reads_last` puts them together over runs: a read gives the byte that the last
  write of it wrote.
* `Lasts` allows pauses between the calls, and calls that are cut short.
-/

namespace Lib

namespace FileTree

/-- What a name can stand for. -/
inductive Kind where
  | file
  | dir
  deriving DecidableEq

end FileTree

/-- The names, the bytes of the files, and the files without a name. -/
structure FileTree (P H B : Type) where
  named : FileTree.Kind → P → H → Prop
  content : H → Option (List B)
  unlinked : H → Prop

namespace FileTree

/-- What a file system is asked. -/
inductive Call (P H B : Type) where
  | creat (p : P)
  | mkdir (p : P)
  | rmdir (p : P)
  | unlink (p : P)
  | delete (h : H)
  | rename (h : H) (p : P)
  | write (h : H) (off : Nat) (data : List B)
  | truncate (h : H) (size : Nat)
  | «open» (p : P)
  | getattr (h : H)
  | read (h : H) (size off : Nat)

/-- What it answers. -/
inductive Answer (H B : Type) where
  | done
  | refused
  | handle (h : H)
  | attr (kind : Kind) (size : Nat)
  | bytes (l : List B)

variable {P H B : Type} {above : P → P → Prop} {T T' T₁ : FileTree P H B}

/-! ## What the calls do -/

/-- Nothing has the path. -/
def Free (T : FileTree P H B) (p : P) : Prop := ∀ k h, ¬ T.named k p h

/-- The directories above the path are there. -/
def Reaches (above : P → P → Prop) (T : FileTree P H B) (p : P) : Prop :=
  ∀ d, above d p → ∃ h, T.named .dir d h

/-- The handle stands for nothing. -/
structure New (T : FileTree P H B) (h : H) : Prop where
  named : ∀ k p, ¬ T.named k p h
  content : T.content h = none
  unlinked : ¬ T.unlinked h

/-- Nothing has changed. -/
structure Same (T T' : FileTree P H B) : Prop where
  named : ∀ k p h, T'.named k p h ↔ T.named k p h
  content : ∀ h, T'.content h = T.content h
  unlinked : ∀ h, T'.unlinked h ↔ T.unlinked h

theorem Same.refl (T : FileTree P H B) : T.Same T :=
  ⟨fun _ _ _ => Iff.rfl, fun _ => rfl, fun _ => Iff.rfl⟩

theorem Same.symm (h : T.Same T') : T'.Same T :=
  ⟨fun k p o => (h.named k p o).symm, fun o => (h.content o).symm, fun o => (h.unlinked o).symm⟩

theorem Same.trans (h : T.Same T') {T₂ : FileTree P H B} (h' : T'.Same T₂) : T.Same T₂ :=
  ⟨fun k p o => (h'.named k p o).trans (h.named k p o),
    fun o => (h'.content o).trans (h.content o),
    fun o => (h'.unlinked o).trans (h.unlinked o)⟩

/-- Nothing has changed but at one handle. -/
structure Keeps (T T' : FileTree P H B) (h : H) : Prop where
  named : ∀ k p o, o ≠ h → (T'.named k p o ↔ T.named k p o)
  content : ∀ o, o ≠ h → T'.content o = T.content o
  unlinked : ∀ o, o ≠ h → (T'.unlinked o ↔ T.unlinked o)

/-- A handle that stood for nothing has come to stand for a name. -/
structure Adds (T T' : FileTree P H B) (kind : Kind) (p : P) (h : H) : Prop
    extends T.Keeps T' h where
  fresh : T.New h
  name : ∀ k q, T'.named k q h ↔ k = kind ∧ q = p
  linked : ¬ T'.unlinked h

/-- A handle has come to stand for nothing. -/
structure Drops (T T' : FileTree P H B) (h : H) : Prop extends T.Keeps T' h where
  gone : T'.New h

/-- A file has other bytes. -/
structure Stores (T T' : FileTree P H B) (h : H) (old new : List B) : Prop
    extends T.Keeps T' h where
  name : ∀ k p, T'.named k p h ↔ T.named k p h
  link : T'.unlinked h ↔ T.unlinked h
  before : T.content h = some old
  after : T'.content h = some new

/-- The bytes after a write. -/
structure Written (old new : List B) (off : Nat) (data : List B) : Prop where
  length : new.length = max old.length (off + data.length)
  stored : ∀ i, i < data.length → new[off + i]? = data[i]?
  kept : ∀ i, i < old.length → i < off ∨ off + data.length ≤ i → new[i]? = old[i]?

/-- The bytes after a truncation. -/
structure Cut (old new : List B) (size : Nat) : Prop where
  length : new.length = size
  kept : ∀ i, i < old.length → i < size → new[i]? = old[i]?

/-- A call may be refused: where room can be short, and where there is nothing to do
it to. -/
def Refuses (T : FileTree P H B) : Call P H B → Prop
  | .creat _ | .mkdir _ | .rmdir _ | .rename _ _ | .write _ _ _ | .truncate _ _ => True
  | .unlink p => ∀ h, ¬ T.named .file p h
  | .open p => T.Free p
  | .read h _ off => ∃ l, T.content h = some l ∧ l.length < off
  | .delete _ | .getattr _ => False

/-- The calls of a file system, with their answers. -/
inductive Step (above : P → P → Prop) (T : FileTree P H B) :
    Call P H B → Answer H B → FileTree P H B → Prop
  | refused {c : Call P H B} {T' : FileTree P H B} (hmay : T.Refuses c) (hsame : T.Same T') :
      Step above T c .refused T'
  | creat {p : P} {h : H} {T' : FileTree P H B} (hfree : T.Free p) (hdirs : T.Reaches above p)
      (hadds : T.Adds T' .file p h) (hempty : T'.content h = some []) :
      Step above T (.creat p) .done T'
  | mkdir {p : P} {h : H} {T' : FileTree P H B} (hfree : ∀ o, ¬ T.named .dir p o)
      (hdirs : T.Reaches above p) (hadds : T.Adds T' .dir p h) (hnone : T'.content h = none) :
      Step above T (.mkdir p) .done T'
  | rmdir {p : P} {h : H} {T' : FileTree P H B} (hname : T.named .dir p h)
      (hbare : T.content h = none) (hempty : ∀ k q o, T.named k q o → ¬ above p q)
      (hdrops : T.Drops T' h) :
      Step above T (.rmdir p) .done T'
  | unlink {p : P} {h : H} {T' : FileTree P H B} (hname : T.named .file p h)
      (hkeeps : T.Keeps T' h) (hnameless : ∀ k q, ¬ T'.named k q h)
      (hcontent : T'.content h = T.content h) (hunlinked : T'.unlinked h) :
      Step above T (.unlink p) (.handle h) T'
  | delete {h : H} {T' : FileTree P H B} (hunlinked : T.unlinked h) (hdrops : T.Drops T' h) :
      Step above T (.delete h) .done T'
  | rename {h h' : H} {p : P} {T₁ T' : FileTree P H B} (hfree : T.Free p)
      (hdirs : T.Reaches above p) (hfile : ∃ q, T.named .file q h) (hdrops : T.Drops T₁ h)
      (hadds : T₁.Adds T' .file p h') (hcontent : T'.content h' = T.content h) :
      Step above T (.rename h p) (.handle h') T'
  | write {h : H} {off : Nat} {data old new : List B} {T' : FileTree P H B}
      (hstores : T.Stores T' h old new) (hnew : Written old new off data) :
      Step above T (.write h off data) .done T'
  | truncate {h : H} {size : Nat} {old new : List B} {T' : FileTree P H B}
      (hstores : T.Stores T' h old new) (hnew : Cut old new size) :
      Step above T (.truncate h size) .done T'
  | opened {p : P} {h : H} {T' : FileTree P H B}
      (hname : T.named .file p h ∨ (T.named .dir p h ∧ ∀ o, ¬ T.named .file p o))
      (hsame : T.Same T') : Step above T (.open p) (.handle h) T'
  | attrFile {p : P} {h : H} {l : List B} {T' : FileTree P H B} (hname : T.named .file p h)
      (hcontent : T.content h = some l) (hsame : T.Same T') :
      Step above T (.getattr h) (.attr .file l.length) T'
  | attrDir {p : P} {h : H} {T' : FileTree P H B} (hname : T.named .dir p h)
      (hsame : T.Same T') : Step above T (.getattr h) (.attr .dir 0) T'
  | read {h : H} {size off : Nat} {l : List B} {T' : FileTree P H B}
      (hcontent : T.content h = some l) (hoff : off ≤ l.length) (hsame : T.Same T') :
      Step above T (.read h size off) (.bytes ((l.drop off).take size)) T'

/-- A call that is refused may be, and changes nothing. -/
theorem Step.of_refused {c : Call P H B} (h : Step above T c .refused T') :
    T.Refuses c ∧ T.Same T' := by
  cases h with
  | refused hmay hsame => exact ⟨hmay, hsame⟩

/-- What an open finds. -/
theorem Step.of_open {p : P} {h : H} (hstep : Step above T (.open p) (.handle h) T') :
    (T.named .file p h ∨ T.named .dir p h) ∧ T.Same T' := by
  cases hstep with
  | opened hname hsame => exact ⟨hname.imp_right And.left, hsame⟩

theorem Step.of_unlink {p : P} {h : H} (hstep : Step above T (.unlink p) (.handle h) T') :
    T.named .file p h := by
  cases hstep with
  | unlink hname => exact hname

/-- A read gives no more bytes than it is asked for. -/
theorem Step.of_read {h : H} {size off : Nat} {r : Answer H B}
    (hstep : Step above T (.read h size off) r T') {out : List B} (hr : r = .bytes out) :
    out.length ≤ size := by
  cases hstep with
  | refused => cases hr
  | read =>
    cases hr
    exact List.length_take_le _ _

/-! ## Names -/

/-- A name of each kind has one handle, a handle has one name, the directories
above a name are there, and an unlinked file has no name. -/
structure WellNamed (above : P → P → Prop) (T : FileTree P H B) : Prop where
  handle : ∀ k p h h', T.named k p h → T.named k p h' → h = h'
  name : ∀ k k' p p' h, T.named k p h → T.named k' p' h → k = k' ∧ p = p'
  rooted : ∀ k p h, T.named k p h → T.Reaches above p
  apart : ∀ k p h, T.named k p h → ¬ T.unlinked h

/-- A handle of a file is none of a directory. -/
theorem WellNamed.not_dir (hT : T.WellNamed above) {p q : P} {h : H} (hn : T.named .file p h) :
    ¬ T.named .dir q h := fun hd => Kind.noConfusion (hT.name _ _ _ _ h hn hd).1

/-- The names of before, and no others. -/
theorem WellNamed.congr (hT : T.WellNamed above)
    (hnamed : ∀ k p h, T'.named k p h ↔ T.named k p h)
    (hunlinked : ∀ h, T'.unlinked h ↔ T.unlinked h) : T'.WellNamed above := by
  refine ⟨fun k p a b => ?_, fun k k' p p' a => ?_, fun k p a ha d hd => ?_, fun k p a => ?_⟩
  · simpa only [hnamed] using hT.handle k p a b
  · simpa only [hnamed] using hT.name k k' p p' a
  · simpa only [hnamed] using hT.rooted k p a ((hnamed k p a).1 ha) d hd
  · simpa only [hnamed, hunlinked] using hT.apart k p a

/-- A new name, with the directories above it. -/
theorem Adds.wellNamed {kind : Kind} {p : P} {h : H} (ha : T.Adds T' kind p h)
    (hfree : ∀ o, ¬ T.named kind p o) (hdirs : T.Reaches above p) (hT : T.WellNamed above) :
    T'.WellNamed above := by
  have hold : ∀ {k q o}, T'.named k q o → T.named k q o ∨ (o = h ∧ k = kind ∧ q = p) := by
    intro k q o ho
    by_cases heq : o = h
    · subst heq
      exact Or.inr ⟨rfl, (ha.name k q).1 ho⟩
    · exact Or.inl ((ha.named k q o heq).1 ho)
  have hkeep : ∀ {d}, (∃ o, T.named .dir d o) → ∃ o, T'.named .dir d o := by
    intro d hd
    obtain ⟨o, ho⟩ := hd
    have hne : o ≠ h := fun heq => ha.fresh.named .dir d (heq ▸ ho)
    exact ⟨o, (ha.named .dir d o hne).2 ho⟩
  constructor
  · intro k q a b h₁ h₂
    rcases hold h₁ with h₁ | ⟨rfl, rfl, rfl⟩
    · rcases hold h₂ with h₂ | ⟨rfl, rfl, rfl⟩
      · exact hT.handle k q a b h₁ h₂
      · exact absurd h₁ (hfree a)
    · rcases hold h₂ with h₂ | ⟨rfl, -, -⟩
      · exact absurd h₂ (hfree b)
      · rfl
  · intro k k' q q' a h₁ h₂
    by_cases heq : a = h
    · subst heq
      simp only [ha.name] at h₁ h₂
      simp [h₁, h₂]
    · exact hT.name k k' q q' a ((ha.named k q a heq).1 h₁) ((ha.named k' q' a heq).1 h₂)
  · intro k q a h₁ d hd
    rcases hold h₁ with h₁ | ⟨-, -, rfl⟩
    · exact hkeep (hT.rooted k q a h₁ d hd)
    · exact hkeep (hdirs d hd)
  · intro k q a h₁ h₂
    by_cases heq : a = h
    · subst heq
      exact ha.linked h₂
    · exact hT.apart k q a ((ha.named k q a heq).1 h₁) ((ha.unlinked a heq).1 h₂)

/-- A name taken away, that is no directory above another. -/
theorem Keeps.wellNamed {h : H} (hk : T.Keeps T' h) (hgone : ∀ k q, ¬ T'.named k q h)
    (halone : ∀ p, T.named .dir p h → ∀ k q o, T.named k q o → ¬ above p q)
    (hT : T.WellNamed above) : T'.WellNamed above := by
  have hne : ∀ {k q o}, T'.named k q o → o ≠ h := fun ho heq => hgone _ _ (heq ▸ ho)
  have hold : ∀ {k q o}, T'.named k q o → T.named k q o := fun ho =>
    (hk.named _ _ _ (hne ho)).1 ho
  constructor
  · exact fun k q a b h₁ h₂ => hT.handle k q a b (hold h₁) (hold h₂)
  · exact fun k k' q q' a h₁ h₂ => hT.name k k' q q' a (hold h₁) (hold h₂)
  · intro k q a h₁ d hd
    obtain ⟨o, ho⟩ := hT.rooted k q a (hold h₁) d hd
    refine ⟨o, (hk.named .dir d o fun heq => ?_).2 ho⟩
    exact halone d (heq ▸ ho) k q a (hold h₁) hd
  · exact fun k q a h₁ h₂ => hT.apart k q a (hold h₁) ((hk.unlinked a (hne h₁)).1 h₂)

theorem Stores.sameNames {h : H} {old new : List B} (hs : T.Stores T' h old new) (k : Kind) (p : P)
    (o : H) : T'.named k p o ↔ T.named k p o := by
  by_cases heq : o = h
  · subst heq
    exact hs.name k p
  · exact hs.named k p o heq

theorem Stores.sameLinks {h : H} {old new : List B} (hs : T.Stores T' h old new) (o : H) :
    T'.unlinked o ↔ T.unlinked o := by
  by_cases heq : o = h
  · subst heq
    exact hs.link
  · exact hs.unlinked o heq

/-- The directories above a path are still there when a file is gone. -/
theorem Drops.reaches {h : H} (hd : T.Drops T' h) (hT : T.WellNamed above) {p q : P}
    (hfile : T.named .file q h) (hdirs : T.Reaches above p) : T'.Reaches above p := by
  intro d habove
  obtain ⟨o, ho⟩ := hdirs d habove
  refine ⟨o, (hd.named .dir d o fun heq => ?_).2 ho⟩
  exact hT.not_dir hfile (heq ▸ ho)

/-- Every call keeps the names in order. -/
theorem Step.wellNamed {c : Call P H B} {r : Answer H B} (h : Step above T c r T')
    (hT : T.WellNamed above) : T'.WellNamed above := by
  cases h with
  | refused _ hsame | opened _ hsame | attrFile _ _ hsame | attrDir _ hsame | read _ _ hsame =>
    exact hT.congr hsame.named hsame.unlinked
  | creat hfree hdirs hadds => exact hadds.wellNamed (hfree .file) hdirs hT
  | mkdir hfree hdirs hadds => exact hadds.wellNamed hfree hdirs hT
  | rmdir hname _ hempty hdrops =>
    refine hdrops.toKeeps.wellNamed hdrops.gone.named (fun p hp => ?_) hT
    obtain ⟨-, rfl⟩ := hT.name _ _ _ _ _ hp hname
    exact hempty
  | unlink hname hkeeps hnameless =>
    exact hkeeps.wellNamed hnameless (fun p hp => absurd hp (hT.not_dir hname)) hT
  | delete hunlinked hdrops =>
    exact hdrops.toKeeps.wellNamed hdrops.gone.named
      (fun p hp => absurd hunlinked (hT.apart _ _ _ hp)) hT
  | @rename h _ p T₁ _ hfree hdirs hfile hdrops hadds =>
    obtain ⟨q, hq⟩ := hfile
    have hmid : T₁.WellNamed above := hdrops.toKeeps.wellNamed hdrops.gone.named
      (fun p hp => absurd hp (hT.not_dir hq)) hT
    refine hadds.wellNamed (fun o ho => ?_) (hdrops.reaches hT hq hdirs) hmid
    have hne : o ≠ h := fun heq => hdrops.gone.named _ _ (heq ▸ ho)
    exact hfree _ o ((hdrops.named _ _ o hne).1 ho)
  | write hstores | truncate hstores => exact hT.congr hstores.sameNames hstores.sameLinks

/-! ## What a call leaves alone -/

/-- The byte of a file at a position. -/
def byte (T : FileTree P H B) (h : H) (i : Nat) : Option B := (T.content h).bind fun l => l[i]?

/-- The calls that can change the bytes of a file. -/
def Call.Changes (h : H) : Call P H B → Prop
  | .delete f | .rename f _ | .write f _ _ | .truncate f _ => f = h
  | _ => False

/-- The calls that can change the byte of a file at a position. -/
def Call.Touches (h : H) (i : Nat) : Call P H B → Prop
  | .delete f | .rename f _ => f = h
  | .write f off data => f = h ∧ off ≤ i ∧ i < off + data.length
  | .truncate f size => f = h ∧ size ≤ i
  | _ => False

/-- The calls that can take a name away from a handle. -/
def Call.Unnames (p : P) (h : H) : Call P H B → Prop
  | .rmdir q | .unlink q => q = p
  | .delete f | .rename f _ => f = h
  | _ => False

theorem New.ne {h o : H} (ho : T.New o) {l : List B} (hl : T.content h = some l) : h ≠ o := by
  rintro rfl
  simp [ho.content] at hl

/-- The bytes of a file stay under the calls that do not change them. -/
theorem Step.keeps_content {c : Call P H B} {r : Answer H B} (hstep : Step above T c r T') {h : H}
    {l : List B} (hl : T.content h = some l) (hc : ¬ c.Changes h) : T'.content h = some l := by
  rw [← hl]
  cases hstep with
  | refused _ hsame | opened _ hsame | attrFile _ _ hsame | attrDir _ hsame | read _ _ hsame =>
    exact hsame.content h
  | creat _ _ hadds | mkdir _ _ hadds => exact hadds.content h (hadds.fresh.ne hl)
  | rmdir _ hbare _ hdrops =>
    refine hdrops.content h fun heq => ?_
    simp [heq, hbare] at hl
  | @unlink _ o _ _ hkeeps _ hcontent =>
    by_cases heq : h = o
    · subst heq
      exact hcontent
    · exact hkeeps.content h heq
  | delete _ hdrops => exact hdrops.content h fun heq => hc heq.symm
  | rename _ _ _ hdrops hadds =>
    have hmid := hdrops.content h fun heq => hc heq.symm
    rw [← hmid]
    exact hadds.content h (hadds.fresh.ne (hmid.trans hl))
  | write hstores | truncate hstores => exact hstores.content h fun heq => hc heq.symm

/-- The calls that can make a handle stand for nothing. -/
def Call.Deletes (h : H) : Call P H B → Prop
  | .delete f | .rename f _ => f = h
  | _ => False

/-- There is a file, with a name or unlinked. -/
structure Present (T : FileTree P H B) (h : H) : Prop where
  content : ∃ l, T.content h = some l
  kept : (∃ p, T.named .file p h) ∨ T.unlinked h

theorem Same.present (hsame : T.Same T') {h : H} (hp : T.Present h) : T'.Present h := by
  refine ⟨?_, hp.kept.imp ?_ (hsame.unlinked h).2⟩
  · rw [hsame.content]
    exact hp.content
  · exact Exists.imp fun p => (hsame.named _ p h).2

theorem Keeps.present {o : H} (hk : T.Keeps T' o) {h : H} (hne : h ≠ o) (hp : T.Present h) :
    T'.Present h := by
  refine ⟨?_, hp.kept.imp ?_ (hk.unlinked h hne).2⟩
  · rw [hk.content h hne]
    exact hp.content
  · exact Exists.imp fun p => (hk.named _ p h hne).2

/-- A file stays under the calls that do not delete it. -/
theorem Step.present {c : Call P H B} {r : Answer H B} (hstep : Step above T c r T') {h : H}
    (hp : T.Present h) (hc : ¬ c.Deletes h) : T'.Present h := by
  obtain ⟨l, hl⟩ := hp.content
  cases hstep with
  | refused _ hsame | opened _ hsame | attrFile _ _ hsame | attrDir _ hsame | read _ _ hsame =>
    exact hsame.present hp
  | creat _ _ hadds | mkdir _ _ hadds => exact hadds.present (hadds.fresh.ne hl) hp
  | rmdir _ hbare _ hdrops =>
    refine hdrops.present (fun heq => ?_) hp
    simp [heq, hbare] at hl
  | @unlink _ o _ _ hkeeps _ hcontent hunlinked =>
    by_cases heq : h = o
    · subst heq
      exact ⟨⟨l, hcontent.trans hl⟩, Or.inr hunlinked⟩
    · exact hkeeps.present heq hp
  | delete _ hdrops => exact hdrops.present (fun heq => hc heq.symm) hp
  | rename _ _ _ hdrops hadds =>
    have hmid := hdrops.present (fun heq => hc heq.symm) hp
    obtain ⟨l', hl'⟩ := hmid.content
    exact hadds.present (hadds.fresh.ne hl') hmid
  | @write o _ _ _ _ _ hstores | @truncate o _ _ _ _ hstores =>
    by_cases heq : h = o
    · subst heq
      exact ⟨⟨_, hstores.after⟩, hp.kept.imp (Exists.imp fun p => (hstores.name _ p).2)
        hstores.link.2⟩
    · exact hstores.present heq hp

/-- A file has no name because it was unlinked. -/
theorem Step.unlinked_cases {c : Call P H B} {r : Answer H B} (hstep : Step above T c r T') {h : H}
    (hun : T'.unlinked h) : T.unlinked h ∨ (∃ p, c = .unlink p) ∧ r = .handle h := by
  cases hstep with
  | refused _ hsame | opened _ hsame | attrFile _ _ hsame | attrDir _ hsame | read _ _ hsame =>
    exact Or.inl ((hsame.unlinked h).1 hun)
  | @creat _ o _ _ _ hadds | @mkdir _ o _ _ _ hadds =>
    by_cases heq : h = o
    · subst heq
      exact absurd hun hadds.linked
    · exact Or.inl ((hadds.unlinked h heq).1 hun)
  | @rmdir _ o _ _ _ _ hdrops | @delete o _ _ hdrops =>
    by_cases heq : h = o
    · subst heq
      exact absurd hun hdrops.gone.unlinked
    · exact Or.inl ((hdrops.unlinked h heq).1 hun)
  | @unlink p o _ _ hkeeps =>
    by_cases heq : h = o
    · subst heq
      exact Or.inr ⟨⟨p, rfl⟩, rfl⟩
    · exact Or.inl ((hkeeps.unlinked h heq).1 hun)
  | @rename f f' _ _ _ _ _ _ hdrops hadds =>
    by_cases heq : h = f'
    · subst heq
      exact absurd hun hadds.linked
    · have hmid := (hadds.unlinked h heq).1 hun
      by_cases heq' : h = f
      · subst heq'
        exact absurd hmid hdrops.gone.unlinked
      · exact Or.inl ((hdrops.unlinked h heq').1 hmid)
  | write hstores | truncate hstores => exact Or.inl ((hstores.sameLinks h).1 hun)

theorem Step.unlinked_of_ne {c : Call P H B} {r : Answer H B} (hstep : Step above T c r T')
    (hnot : ∀ p, c ≠ .unlink p) {h : H} (hun : T'.unlinked h) : T.unlinked h := by
  rcases hstep.unlinked_cases hun with hold | hnew
  · exact hold
  · obtain ⟨⟨p, hp⟩, -⟩ := hnew
    exact absurd hp (hnot p)

/-- A byte of a file stays under the calls that do not touch it. -/
theorem Step.keeps_byte {c : Call P H B} {r : Answer H B} (hstep : Step above T c r T') {h : H}
    {i : Nat} {b : B} (hb : T.byte h i = some b) (hc : ¬ c.Touches h i) :
    T'.byte h i = some b := by
  obtain ⟨l, hl, hi⟩ := Option.bind_eq_some_iff.1 hb
  have hlt : i < l.length := (List.getElem?_eq_some_iff.1 hi).1
  by_cases hchange : c.Changes h
  · cases hstep with
    | refused _ hsame => simpa [byte, hsame.content] using hb
    | delete | rename => exact absurd hchange hc
    | @write f off data old new _ hstores hnew =>
      obtain rfl : f = h := hchange
      obtain rfl : old = l := Option.some.inj (hstores.before.symm.trans hl)
      have hout : i < off ∨ off + data.length ≤ i := by
        by_contra hin
        exact hc ⟨rfl, by omega, by omega⟩
      simp [byte, hstores.after, hnew.kept i hlt hout, hi]
    | @truncate f size old new _ hstores hnew =>
      obtain rfl : f = h := hchange
      obtain rfl : old = l := Option.some.inj (hstores.before.symm.trans hl)
      have hin : i < size := Nat.lt_of_not_le fun hle => hc ⟨rfl, hle⟩
      simp [byte, hstores.after, hnew.kept i hlt hin, hi]
    | creat | mkdir | rmdir | unlink | opened | attrFile | attrDir | read => exact hchange.elim
  · simp [byte, hstep.keeps_content hl hchange, hi]

/-- A name stays under the calls that do not take it away. -/
theorem Step.keeps_name {c : Call P H B} {r : Answer H B} (hstep : Step above T c r T') {k : Kind}
    {p : P} {h : H} (hT : T.WellNamed above) (hn : T.named k p h) (hc : ¬ c.Unnames p h) :
    T'.named k p h := by
  have hnew : ∀ {o}, T.New o → h ≠ o := fun ho heq => ho.named k p (heq ▸ hn)
  have hother : ∀ {q o}, T.named .dir q o ∨ T.named .file q o → q ≠ p → h ≠ o := by
    rintro q o (hq | hq) hne rfl
    · exact hne (hT.name _ _ _ _ _ hq hn).2
    · exact hne (hT.name _ _ _ _ _ hq hn).2
  cases hstep with
  | refused _ hsame | opened _ hsame | attrFile _ _ hsame | attrDir _ hsame | read _ _ hsame =>
    exact (hsame.named k p h).2 hn
  | creat _ _ hadds | mkdir _ _ hadds => exact (hadds.named k p h (hnew hadds.fresh)).2 hn
  | rmdir hname _ _ hdrops => exact (hdrops.named k p h (hother (Or.inl hname) hc)).2 hn
  | unlink hname hkeeps => exact (hkeeps.named k p h (hother (Or.inr hname) hc)).2 hn
  | delete hunlinked hdrops =>
    exact (hdrops.named k p h fun heq => hT.apart k p h hn (heq ▸ hunlinked)).2 hn
  | rename _ _ _ hdrops hadds =>
    have hmid := (hdrops.named k p h fun heq => hc heq.symm).2 hn
    exact (hadds.named k p h fun heq => hadds.fresh.named k p (heq ▸ hmid)).2 hmid
  | write hstores | truncate hstores => exact (hstores.sameNames k p h).2 hn

/-- A directory stays under the calls that do not remove it. -/
theorem Step.keeps_dir {c : Call P H B} {r : Answer H B} (hstep : Step above T c r T') {p : P}
    {h : H} (hT : T.WellNamed above) (hn : T.named .dir p h) (hc : c ≠ .rmdir p) :
    T'.named .dir p h := by
  by_cases hun : c.Unnames p h
  · cases hstep with
    | refused _ hsame => exact (hsame.named .dir p h).2 hn
    | rmdir => exact absurd (congrArg Call.rmdir hun) hc
    | unlink hname hkeeps =>
      exact (hkeeps.named .dir p h fun heq => hT.not_dir hname (heq ▸ hn)).2 hn
    | delete hunlinked hdrops =>
      exact (hdrops.named .dir p h fun heq => hT.apart _ p h hn (heq ▸ hunlinked)).2 hn
    | rename _ _ hfile =>
      obtain ⟨q, hq⟩ := hfile
      obtain rfl := hun
      exact absurd hn (hT.not_dir hq)
    | creat | mkdir | write | truncate | opened | attrFile | attrDir | read => exact hun.elim
  · exact hstep.keeps_name hT hn hun

/-! ## Runs -/

variable {l : List (Call P H B × Answer H B)}

theorem wellNamed_run (h : Allows (Step above) T l T') (hT : T.WellNamed above) :
    T'.WellNamed above :=
  h.preserves (K := fun _ => True) (fun _ _ _ _ hT _ hstep => hstep.wellNamed hT)
    (fun _ _ => trivial) hT

/-- A file keeps its name and its bytes in a run that does not change them. -/
theorem keeps_file_run (h : Allows (Step above) T l T') (hT : T.WellNamed above) {p : P} {a : H}
    {bytes : List B} (hn : T.named .file p a) (hbytes : T.content a = some bytes)
    (hl : ∀ x ∈ l, ¬ x.1.Unnames p a ∧ ¬ x.1.Changes a) :
    T'.named .file p a ∧ T'.content a = some bytes := by
  have hend := h.preserves (K := fun c => ¬ c.Unnames p a ∧ ¬ c.Changes a)
    (I := fun T => T.WellNamed above ∧ T.named .file p a ∧ T.content a = some bytes)
    (fun T c r T' hI hc hstep => ⟨hstep.wellNamed hI.1, hstep.keeps_name hI.1 hI.2.1 hc.1,
      hstep.keeps_content hI.2.2 hc.2⟩) hl ⟨hT, hn, hbytes⟩
  exact hend.2

/-- A byte of a file stays in a run that does not touch it. -/
theorem keeps_byte_run (h : Allows (Step above) T l T') {a : H} {i : Nat} {b : B}
    (hb : T.byte a i = some b) (hl : ∀ x ∈ l, ¬ x.1.Touches a i) : T'.byte a i = some b :=
  h.preserves (K := fun c => ¬ c.Touches a i) (I := fun T => T.byte a i = some b)
    (fun _ _ _ _ hb hc hstep => hstep.keeps_byte hb hc) hl hb

/-- A write has its bytes in the file. -/
theorem Step.writes_byte {a : H} {off i : Nat} {data : List B}
    (h : Step above T (.write a off data) .done T') (hoff : off ≤ i) (hi : i < off + data.length) :
    T'.byte a i = data[i - off]? := by
  have hsome : data[i - off]? = some data[i - off] := List.getElem?_eq_getElem (by omega)
  cases h with
  | write hstores hnew =>
    have hstored := hnew.stored (i - off) (by omega)
    rw [Nat.add_sub_of_le hoff, hsome] at hstored
    simp [byte, hstores.after, hstored, hsome]

/-- A read of a range with a byte answers, and gives it. -/
theorem Step.reads_byte {a : H} {pos size i : Nat} {b : B} {r : Answer H B}
    (h : Step above T (.read a size pos) r T') (hpos : pos ≤ i) (hi : i < pos + size)
    (hb : T.byte a i = some b) : ∃ out, r = .bytes out ∧ out[i - pos]? = some b := by
  obtain ⟨bytes, hbytes, hat⟩ := Option.bind_eq_some_iff.1 hb
  cases h with
  | refused hmay =>
    obtain ⟨bytes', hbytes', hlt⟩ := hmay
    obtain rfl : bytes = bytes' := Option.some.inj (hbytes.symm.trans hbytes')
    have hin : i < bytes.length := (List.getElem?_eq_some_iff.1 hat).1
    omega
  | @read _ _ _ bytes' _ hcontent =>
    obtain rfl : bytes = bytes' := Option.some.inj (hbytes.symm.trans hcontent)
    refine ⟨_, rfl, ?_⟩
    rw [← hat]
    simp [List.getElem?_drop, Nat.add_sub_of_le hpos, show i - pos < size by omega]

/-- A read gives the byte that the last write of it wrote: after the write come calls
that do not touch the byte. -/
theorem reads_last {T₁ T₂ : FileTree P H B} {a : H} {off pos size i : Nat} {data : List B}
    {r : Answer H B} (hwrite : Step above T (.write a off data) .done T₁)
    (h : Allows (Step above) T₁ l T₂) (hread : Step above T₂ (.read a size pos) r T')
    (hoff : off ≤ i) (hi : i < off + data.length) (hpos : pos ≤ i) (hi' : i < pos + size)
    (hl : ∀ x ∈ l, ¬ x.1.Touches a i) :
    ∃ out, r = .bytes out ∧ out[i - pos]? = data[i - off]? := by
  have hsome : data[i - off]? = some data[i - off] := List.getElem?_eq_getElem (by omega)
  have hbyte := (hwrite.writes_byte hoff hi).trans hsome
  obtain ⟨out, hout, hat⟩ := hread.reads_byte hpos hi' (keeps_byte_run h hbyte hl)
  exact ⟨out, hout, hat.trans hsome.symm⟩

/-! ## Calls, pauses and accidents -/

/-- A call, a pause in which nothing happens, or a call that was cut short. -/
inductive Event (P H B : Type) where
  | call (c : Call P H B)
  | pause
  | torn (c : Call P H B)

/-- The events that can change the byte of a file at a position. -/
def Event.Touches (h : H) (i : Nat) : Event P H B → Prop
  | call c | torn c => c.Touches h i
  | pause => False

/-- A call that was cut short has happened, or it has not. -/
def Lasts (above : P → P → Prop) (T : FileTree P H B) :
    Event P H B → Answer H B → FileTree P H B → Prop
  | .call c, r, T' => Step above T c r T'
  | .pause, _, T' => T.Same T'
  | .torn c, _, T' => T.Same T' ∨ ∃ r T₁, Step above T c r T₁ ∧ T₁.Same T'

/-- A byte of a file stays in events that do not touch it. -/
theorem Lasts.keeps_byte_run {l : List (Event P H B × Answer H B)}
    (h : Allows (Lasts above) T l T') {a : H} {i : Nat} {b : B} (hb : T.byte a i = some b)
    (hl : ∀ x ∈ l, ¬ x.1.Touches a i) : T'.byte a i = some b := by
  have hsame : ∀ {T T' : FileTree P H B}, T.byte a i = some b → T.Same T' →
      T'.byte a i = some b := by
    intro T T' hb hsame
    simpa [byte, hsame.content a] using hb
  refine h.preserves (K := fun e => ¬ e.Touches a i) (I := fun T => T.byte a i = some b)
    (fun T e r T' hb he hlasts => ?_) hl hb
  cases e with
  | call c => exact Step.keeps_byte hlasts hb he
  | pause => exact hsame hb hlasts
  | torn c =>
    rcases hlasts with hlasts | ⟨r, T₁, hstep, hlasts⟩
    · exact hsame hb hlasts
    · exact hsame (hstep.keeps_byte hb he) hlasts

end FileTree

end Lib
