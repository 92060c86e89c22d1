import Sfs.Lib.FileTree

/-!
# File trees with open files

A file tree as its users see it.  They name files by paths or open them, and reach an
open file under a number; a file that has lost its name is deleted when nobody has it
open any more.

* `Serves above` is the specification of the requests, each of which is one call of the
  tree or a few;
* `Sound` says that an open file is there, that a number stands for one file, and that
  every file without a name is open; `Serves.sound` keeps it;
* `Serves.keeps_byte` says which requests leave a byte of an open file alone, and
  `reads_back` puts that together over runs.
-/

namespace Lib

open FileTree

/-- A file tree and the open files, each with its number. -/
structure OpenTree (P H B N : Type) where
  tree : FileTree P H B
  opened : List (N × H)

namespace OpenTree

/-- What the users ask for. -/
inductive Request (P B N : Type) where
  | getattr (p : P)
  | mknod (p : P)
  | mkdir (p : P)
  | rmdir (p : P)
  | unlink (p : P)
  | «open» (p : P)
  | release (n : N)
  | read (n : N) (size off : Nat)
  | write (n : N) (off : Nat) (data : List B)
  | truncate (p : P) (size : Nat)
  | ftruncate (n : N) (size : Nat)

/-- What they get. -/
inductive Response (B N : Type) where
  | failed
  | done
  | opened (n : N)
  | attr (kind : Kind) (size : Nat)
  | bytes (l : List B)

variable {P H B N : Type} {above : P → P → Prop} {O O' O₁ : OpenTree P H B N}

/-! ## What the requests do -/

/-- A request may fail: where room can be short, and where there is nothing to do it to. -/
def Fails (O : OpenTree P H B N) : Request P B N → Prop
  | .mknod _ | .mkdir _ | .rmdir _ | .write _ _ _ | .truncate _ _ | .ftruncate _ _ => True
  | .getattr p | .open p => O.tree.Free p
  | .unlink p => ∀ h, ¬ O.tree.named .file p h
  | .read n _ off => ∃ h l, (n, h) ∈ O.opened ∧ O.tree.content h = some l ∧ l.length < off
  | .release _ => False

/-- The requests with their answers.  A number that is given out is that of no other open
file, and that of every other opening of the same file. -/
inductive Serves (above : P → P → Prop) (O : OpenTree P H B N) :
    Request P B N → Response B N → OpenTree P H B N → Prop
  | failed {q : Request P B N} {T' : FileTree P H B} (hmay : O.Fails q) (hsame : O.tree.Same T') :
      Serves above O q .failed ⟨T', O.opened⟩
  | getattr {p : P} {h : H} {kind : Kind} {size : Nat} {T₁ T' : FileTree P H B}
      (hopen : Step above O.tree (.open p) (.handle h) T₁)
      (hattr : Step above T₁ (.getattr h) (.attr kind size) T') :
      Serves above O (.getattr p) (.attr kind size) ⟨T', O.opened⟩
  | mknod {p : P} {T' : FileTree P H B} (hstep : Step above O.tree (.creat p) .done T') :
      Serves above O (.mknod p) .done ⟨T', O.opened⟩
  | mkdir {p : P} {T' : FileTree P H B} (hstep : Step above O.tree (.mkdir p) .done T') :
      Serves above O (.mkdir p) .done ⟨T', O.opened⟩
  | rmdir {p : P} {T' : FileTree P H B} (hstep : Step above O.tree (.rmdir p) .done T') :
      Serves above O (.rmdir p) .done ⟨T', O.opened⟩
  | unlinkOpen {p : P} {h : H} {T' : FileTree P H B}
      (hstep : Step above O.tree (.unlink p) (.handle h) T') (hopen : ∃ n, (n, h) ∈ O.opened) :
      Serves above O (.unlink p) .done ⟨T', O.opened⟩
  | unlink {p : P} {h : H} {T₁ T' : FileTree P H B}
      (hstep : Step above O.tree (.unlink p) (.handle h) T₁) (hclosed : ∀ n, (n, h) ∉ O.opened)
      (hdelete : Step above T₁ (.delete h) .done T') :
      Serves above O (.unlink p) .done ⟨T', O.opened⟩
  | «open» {p : P} {h : H} {n : N} {T' : FileTree P H B}
      (hstep : Step above O.tree (.open p) (.handle h) T')
      (hfile : O.tree.Present h)
      (hnumber : ∀ m o, (m, o) ∈ O.opened → (m = n ↔ o = h)) :
      Serves above O (.open p) (.opened n) ⟨T', (n, h) :: O.opened⟩
  | release {n : N} {h : H} {l l' : List (N × H)} {T' : FileTree P H B}
      (hopened : O.opened = l ++ (n, h) :: l')
      (hkept : O.tree.unlinked h → ∃ m, (m, h) ∈ l ++ l') (hsame : O.tree.Same T') :
      Serves above O (.release n) .done ⟨T', l ++ l'⟩
  | last {n : N} {h : H} {l l' : List (N × H)} {T' : FileTree P H B}
      (hopened : O.opened = l ++ (n, h) :: l') (hclosed : ∀ m, (m, h) ∉ l ++ l')
      (hdelete : Step above O.tree (.delete h) .done T') :
      Serves above O (.release n) .done ⟨T', l ++ l'⟩
  | read {n : N} {h : H} {size off : Nat} {l : List B} {T' : FileTree P H B}
      (hopened : (n, h) ∈ O.opened) (hstep : Step above O.tree (.read h size off) (.bytes l) T') :
      Serves above O (.read n size off) (.bytes l) ⟨T', O.opened⟩
  | write {n : N} {h : H} {off : Nat} {data : List B} {T' : FileTree P H B}
      (hopened : (n, h) ∈ O.opened) (hstep : Step above O.tree (.write h off data) .done T') :
      Serves above O (.write n off data) .done ⟨T', O.opened⟩
  | truncate {p : P} {h : H} {size : Nat} {T₁ T' : FileTree P H B}
      (hopen : Step above O.tree (.open p) (.handle h) T₁)
      (hstep : Step above T₁ (.truncate h size) .done T') :
      Serves above O (.truncate p size) .done ⟨T', O.opened⟩
  | ftruncate {n : N} {h : H} {size : Nat} {T' : FileTree P H B}
      (hopened : (n, h) ∈ O.opened) (hstep : Step above O.tree (.truncate h size) .done T') :
      Serves above O (.ftruncate n size) .done ⟨T', O.opened⟩

/-! ## Open files -/

/-- The names are in order, an open file is there, a number stands for one file, and a
file without a name is open. -/
structure Sound (above : P → P → Prop) (O : OpenTree P H B N) : Prop where
  names : O.tree.WellNamed above
  file : ∀ n h, (n, h) ∈ O.opened → O.tree.Present h
  number : ∀ n n' h h', (n, h) ∈ O.opened → (n', h') ∈ O.opened → (n = n' ↔ h = h')
  kept : ∀ h, O.tree.unlinked h → ∃ n, (n, h) ∈ O.opened

/-- The open files next to one of them. -/
theorem mem_opened {n : N} {h : H} {l l' : List (N × H)} (hopened : O.opened = l ++ (n, h) :: l')
    {x : N × H} : x ∈ O.opened ↔ x = (n, h) ∨ x ∈ l ++ l' := by
  rw [hopened, List.perm_middle.mem_iff, List.mem_cons]

/-- The same tree. -/
theorem Sound.same (h : O.Sound above) {T' : FileTree P H B} (hsame : O.tree.Same T') :
    Sound above ⟨T', O.opened⟩ where
  names := h.names.congr hsame.named hsame.unlinked
  file n o ho := hsame.present (h.file n o ho)
  number := h.number
  kept o ho := h.kept o ((hsame.unlinked o).1 ho)

/-- The tree after a call that unlinks and deletes nothing. -/
theorem Sound.step (h : O.Sound above) {c : Call P H B} {r : Answer H B} {T' : FileTree P H B}
    (hstep : Step above O.tree c r T') (hkeeps : ∀ o, ¬ c.Deletes o)
    (hnot : ∀ p, c ≠ .unlink p) : Sound above ⟨T', O.opened⟩ where
  names := hstep.wellNamed h.names
  file n o ho := hstep.present (h.file n o ho) (hkeeps o)
  number := h.number
  kept o ho := h.kept o (hstep.unlinked_of_ne hnot ho)

/-- A file that is deleted is no other one. -/
theorem deleted_gone {h : H} {T T' : FileTree P H B} (hstep : Step above T (.delete h) .done T') :
    ¬ T'.unlinked h := by
  cases hstep with
  | delete _ hdrops => exact hdrops.gone.unlinked

/-- Some of the open files, the rest of which are closed. -/
theorem Sound.sub (h : O.Sound above) {T' : FileTree P H B} {l : List (N × H)}
    (hsub : ∀ x ∈ l, x ∈ O.opened) (hnames : T'.WellNamed above)
    (hfile : ∀ n o, (n, o) ∈ l → T'.Present o)
    (hkept : ∀ o, T'.unlinked o → ∃ n, (n, o) ∈ l) : Sound above ⟨T', l⟩ :=
  ⟨hnames, hfile, fun n n' o o' ho ho' => h.number n n' o o' (hsub _ ho) (hsub _ ho'), hkept⟩

/-- Every request keeps that. -/
theorem Serves.sound {q : Request P B N} {r : Response B N} (hserves : Serves above O q r O')
    (h : O.Sound above) : O'.Sound above := by
  cases hserves with
  | failed _ hsame => exact h.same hsame
  | getattr hopen hattr =>
    have hmid : Sound above ⟨_, O.opened⟩ := h.step hopen (fun _ => id) fun _ => nofun
    exact hmid.step hattr (fun _ => id) fun _ => nofun
  | mknod hstep | mkdir hstep | rmdir hstep | read _ hstep | write _ hstep | ftruncate _ hstep =>
    exact h.step hstep (fun _ => id) fun _ => nofun
  | @unlinkOpen p o T' hstep hopen =>
    refine h.sub (fun _ hx => hx) (hstep.wellNamed h.names) (fun n o' ho' => ?_) fun o' ho' => ?_
    · exact hstep.present (h.file n o' ho') id
    · rcases hstep.unlinked_cases ho' with hold | ⟨-, heq⟩
      · exact h.kept o' hold
      · cases heq
        exact hopen
  | @unlink p o T₁ T' hstep hclosed hdelete =>
    refine h.sub (fun _ hx => hx) (hdelete.wellNamed (hstep.wellNamed h.names))
      (fun n o' ho' => ?_) fun o' ho' => ?_
    · have hmid := hstep.present (h.file n o' ho') id
      exact hdelete.present hmid fun heq => hclosed n (heq ▸ ho')
    · have hmid := hdelete.unlinked_of_ne (fun _ => nofun) ho'
      rcases hstep.unlinked_cases hmid with hold | ⟨-, heq⟩
      · exact h.kept o' hold
      · cases heq
        exact absurd ho' (deleted_gone hdelete)
  | @«open» p o n T' hstep hfile hnumber =>
    have hT : Sound above ⟨T', O.opened⟩ := h.step hstep (fun _ => id) fun _ => nofun
    refine ⟨hT.names, fun m a ha => ?_, fun m m' a a' ha ha' => ?_, fun a ha => ?_⟩
    · rcases List.mem_cons.1 ha with heq | ha
      · cases heq
        exact hstep.present hfile id
      · exact hT.file m a ha
    · rcases List.mem_cons.1 ha with heq | ha
      · cases heq
        rcases List.mem_cons.1 ha' with heq | ha'
        · cases heq
          simp
        · rw [eq_comm, hnumber m' a' ha', eq_comm]
      · rcases List.mem_cons.1 ha' with heq | ha'
        · cases heq
          exact hnumber m a ha
        · exact h.number m m' a a' ha ha'
    · obtain ⟨m, hm⟩ := hT.kept a ha
      exact ⟨m, List.mem_cons_of_mem _ hm⟩
  | @release n o l l' T' hopened hkept hsame =>
    have hT : Sound above ⟨T', O.opened⟩ := h.same hsame
    have hsub : ∀ x ∈ l ++ l', x ∈ O.opened := fun x hx => (mem_opened hopened).2 (Or.inr hx)
    refine hT.sub hsub hT.names (fun m a ha => hT.file m a (hsub _ ha)) fun a ha => ?_
    obtain ⟨m, hm⟩ := hT.kept a ha
    rcases (mem_opened hopened).1 hm with heq | hm
    · cases heq
      exact hkept ((hsame.unlinked _).1 ha)
    · exact ⟨m, hm⟩
  | @last n o l l' T' hopened hclosed hdelete =>
    have hsub : ∀ x ∈ l ++ l', x ∈ O.opened := fun x hx => (mem_opened hopened).2 (Or.inr hx)
    refine h.sub hsub (hdelete.wellNamed h.names) (fun m a ha => ?_) fun a ha => ?_
    · exact hdelete.present (h.file m a (hsub _ ha)) fun heq => hclosed m (heq ▸ ha)
    · have hold := hdelete.unlinked_of_ne (fun _ => nofun) ha
      obtain ⟨m, hm⟩ := h.kept a hold
      rcases (mem_opened hopened).1 hm with heq | hm
      · cases heq
        exact absurd ha (deleted_gone hdelete)
      · exact ⟨m, hm⟩
  | truncate hopen hstep =>
    have hmid : Sound above ⟨_, O.opened⟩ := h.step hopen (fun _ => id) fun _ => nofun
    exact hmid.step hstep (fun _ => id) fun _ => nofun

/-! ## What a request leaves alone -/

/-- The requests that leave the byte of an open file at a position alone, whatever the
tree is. -/
def Request.Spares (n : N) (i : Nat) : Request P B N → Prop
  | .release m => m ≠ n
  | .write m off data => m ≠ n ∨ i < off ∨ off + data.length ≤ i
  | .truncate _ size => i < size
  | .ftruncate m size => m ≠ n ∨ i < size
  | _ => True

/-- A byte of an open file stays under the requests that spare it, and so does the
number. -/
theorem Serves.keeps_byte {q : Request P B N} {r : Response B N}
    (hserves : Serves above O q r O') (hO : O.Sound above) {n : N} {h : H} {i : Nat} {b : B}
    (hn : (n, h) ∈ O.opened) (hb : O.tree.byte h i = some b) (hq : q.Spares n i) :
    (n, h) ∈ O'.opened ∧ O'.tree.byte h i = some b := by
  have hsame : ∀ {T' : FileTree P H B}, O.tree.Same T' → T'.byte h i = some b := by
    intro T' hsame
    simpa [byte, hsame.content h] using hb
  have hother : ∀ {m o}, (m, o) ∈ O.opened → m ≠ n → o ≠ h := fun hm hne heq =>
    hne ((hO.number _ _ _ _ hm hn).2 heq)
  have hthis : ∀ {m o}, m ≠ n → (n, h) ≠ (m, o) := fun hne heq => hne (congrArg Prod.fst heq).symm
  cases hserves with
  | failed _ hs => exact ⟨hn, hsame hs⟩
  | getattr hopen hattr => exact ⟨hn, hattr.keeps_byte (hopen.keeps_byte hb id) id⟩
  | mknod hstep | mkdir hstep | rmdir hstep | unlinkOpen hstep | read _ hstep =>
    exact ⟨hn, hstep.keeps_byte hb id⟩
  | unlink hstep hclosed hdelete =>
    exact ⟨hn, hdelete.keeps_byte (hstep.keeps_byte hb id) fun heq => hclosed n (heq ▸ hn)⟩
  | «open» hstep => exact ⟨List.mem_cons_of_mem _ hn, hstep.keeps_byte hb id⟩
  | @release m o l l' T' hopened _ hs =>
    exact ⟨((mem_opened hopened).1 hn).resolve_left (hthis hq), hsame hs⟩
  | @last m o l l' T' hopened hclosed hdelete =>
    have hm : (m, o) ∈ O.opened := (mem_opened hopened).2 (Or.inl rfl)
    exact ⟨((mem_opened hopened).1 hn).resolve_left (hthis hq),
      hdelete.keeps_byte hb (hother hm hq)⟩
  | @write m o off data T' hopened hstep =>
    refine ⟨hn, hstep.keeps_byte hb fun htouch => ?_⟩
    obtain ⟨heq, hle, hlt⟩ := htouch
    rcases hq with hne | hq
    · exact hother hopened hne heq
    · omega
  | truncate hopen hstep =>
    have hlt : i < _ := hq
    refine ⟨hn, hstep.keeps_byte (hopen.keeps_byte hb id) fun htouch => ?_⟩
    exact absurd hlt (Nat.not_lt.2 htouch.2)
  | @ftruncate m o size T' hopened hstep =>
    refine ⟨hn, hstep.keeps_byte hb fun htouch => ?_⟩
    obtain ⟨heq, hle⟩ := htouch
    rcases hq with hne | hq
    · exact hother hopened hne heq
    · omega

/-! ## Runs -/

variable {l : List (Request P B N × Response B N)}

theorem sound_run (h : Allows (Serves above) O l O') (hO : O.Sound above) : O'.Sound above :=
  h.preserves (K := fun _ => True) (fun _ _ _ _ hO _ hserves => hserves.sound hO)
    (fun _ _ => trivial) hO

end OpenTree

end Lib
