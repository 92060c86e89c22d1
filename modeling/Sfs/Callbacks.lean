import Sfs.FuseOps
import Sfs.Directory
import Sfs.Atomic

/-!
# Rules for the callbacks

What a callback does from a state: the calls of the file system have their rules
on the volume, and here are the rules for the steps around them.
-/

namespace Sfs

open Lib Fuse

/-- The callback returns from the state, with `Q` of its value and the state. -/
def Leads {α : Type} (m : FuseM α) (s : Fuse) (Q : α → Fuse → Prop) : Prop :=
  ∃ a s', m s = some (a, s') ∧ Q a s'

section

variable {α β : Type} {s : Fuse} {v : Vol} {pino : Nat}

theorem Leads.mono {m : FuseM α} {Q Q' : α → Fuse → Prop} (h : Leads m s Q)
    (hQ : ∀ a s', Q a s' → Q' a s') : Leads m s Q' := by
  obtain ⟨a, s', hrun, hq⟩ := h
  exact ⟨a, s', hrun, hQ a s' hq⟩

@[simp] theorem leads_pure {a : α} {Q : α → Fuse → Prop} : Leads (pure a) s Q ↔ Q a s := by
  constructor
  · rintro ⟨_, _, ⟨⟩, hQ⟩
    exact hQ
  · exact fun hQ => ⟨a, s, rfl, hQ⟩

theorem leads_bind {m : FuseM α} {f : α → FuseM β} {Q : β → Fuse → Prop} :
    Leads (m >>= f) s Q ↔ Leads m s fun a s' => Leads (f a) s' Q := by
  constructor
  · rintro ⟨b, s', hrun, hQ⟩
    obtain ⟨⟨a, s₁⟩, hm, hf⟩ := Option.bind_eq_some_iff.1 hrun
    exact ⟨a, s₁, hm, b, s', hf, hQ⟩
  · rintro ⟨a, s₁, hm, b, s', hf, hQ⟩
    exact ⟨b, s', Option.bind_eq_some_iff.2 ⟨(a, s₁), hm, hf⟩, hQ⟩

theorem leads_ask {f : InodeMap → α} {g : α → FuseM β} {Q : β → Fuse → Prop} :
    Leads (ask f >>= g) s Q ↔ Leads (g (f s.map)) s Q := by
  rw [leads_bind]
  constructor
  · rintro ⟨_, _, ⟨⟩, hQ⟩
    exact hQ
  · exact fun hQ => ⟨_, s, rfl, hQ⟩

theorem leads_change {f : InodeMap → InodeMap} {g : Unit → FuseM β} {Q : β → Fuse → Prop} :
    Leads (change f >>= g) s Q ↔ Leads (g ()) { s with map := f s.map } Q := by
  rw [leads_bind]
  constructor
  · rintro ⟨_, _, ⟨⟩, hQ⟩
    exact hQ
  · exact fun hQ => ⟨_, _, rfl, hQ⟩

theorem leads_pinoAdd {g : Nat → FuseM β} {Q : β → Fuse → Prop} :
    Leads (Fuse.pinoAdd pino >>= g) s Q ↔
      Leads (g (s.map.pinoAdd (s.memory s.tries) pino).1)
        { s with map := (s.map.pinoAdd (s.memory s.tries) pino).2, tries := s.tries + 1 } Q := by
  rw [leads_bind]
  constructor
  · rintro ⟨_, _, ⟨⟩, hQ⟩
    exact hQ
  · exact fun hQ => ⟨_, _, rfl, hQ⟩

theorem leads_uninitAttr {g : SfsAttr → FuseM β} {Q : β → Fuse → Prop} :
    Leads (uninitAttr >>= g) s Q ↔ Leads (g s.attr) s Q := by
  rw [leads_bind]
  constructor
  · rintro ⟨_, _, ⟨⟩, hQ⟩
    exact hQ
  · exact fun hQ => ⟨_, s, rfl, hQ⟩

theorem leads_negErrno {g : Int → FuseM β} {Q : β → Fuse → Prop} :
    Leads (negErrno >>= g) s Q ↔ Leads (g (-s.sys.errno)) s Q := by
  rw [leads_bind]
  constructor
  · rintro ⟨_, _, ⟨⟩, hQ⟩
    exact hQ
  · exact fun hQ => ⟨_, s, rfl, hQ⟩

theorem leads_err {Q : Int → Fuse → Prop} : Leads negErrno s Q ↔ Q (-s.sys.errno) s := by
  constructor
  · rintro ⟨_, _, ⟨⟩, hQ⟩
    exact hQ
  · exact fun hQ => ⟨_, s, rfl, hQ⟩

/-- A call of the file system does on the device what it does on the volume. -/
theorem leads_call {p : SfsM α} {t : Img} {Q : α → Img → Prop} (hshow : Shows s.sys t)
    (hp : Gives p t Q) :
    Leads (call p) s fun r s' =>
      ∃ t', Shows s'.sys t' ∧ Q r t' ∧ s' = { s with sys := s'.sys } := by
  obtain ⟨r, sys, t', hrun, hshow', hQ⟩ := transfer hshow hp
  exact ⟨r, { s with sys }, by rw [call, hrun]; rfl, t', hshow', hQ, rfl⟩

/-- A call that only looks. -/
theorem Healthy.looksAt {p : SfsM α} {P : α → Prop} (h : Healthy v s.sys) (hs : v.Sized)
    (hp : ∀ t : Img, t.vol = v → Gives p t fun r t' => t'.vol = v ∧ P r) :
    Leads (Fuse.call p) s fun r s' =>
      Healthy v s'.sys ∧ s' = { s with sys := s'.sys } ∧ P r := by
  have hshow := Sys.shows_img h.quiet h.coherent (by rw [h.vol]; exact hs)
  refine (leads_call hshow (hp s.sys.img h.vol)).mono fun r s' hr => ?_
  obtain ⟨t', hshow', ⟨hvol, hP⟩, hs'⟩ := hr
  exact ⟨Healthy.of_shows hshow' hvol, hs', hP⟩

theorem Healthy.call {p : SfsM α} {P : α → Prop} (h : Healthy v s.sys) (hs : v.Sized)
    (hp : ∀ t : Img, t.vol = v → Gives p t fun r t' => t'.vol = v ∧ P r) :
    Leads (Fuse.call p) s fun r s' => Healthy v s'.sys ∧ s'.map = s.map ∧ P r := by
  refine (h.looksAt hs hp).mono fun r s' hr => ?_
  obtain ⟨h', hs', hP⟩ := hr
  exact ⟨h', by rw [hs'], hP⟩

/-- `sfs_getattr` of a slot. -/
theorem gives_sfsGetattr {t : Img} {lo hi : Nat} (hg : Geometry t.vol lo hi) {file : Nat}
    (hslot : t.vol.Slot file) (attr : SfsAttr) :
    Gives (sfsGetattr file attr) t fun r t' => t'.vol = t.vol ∧ r.1 = 0 ∧
      (t.vol.type file = EntryType.fileEntry.code → r.2.type = .file) ∧
      (t.vol.type file = EntryType.dirEntry.code → r.2.type = .dir) := by
  have hcodes : EntryType.fileEntry.code ≠ EntryType.dirEntry.code := by decide
  unfold sfsGetattr
  rw [gives_uninit, gives_readEntry hg.sized hslot.ge hslot.aligned (hg.slot_le hslot)]
  dsimp only
  rw [if_neg (by decide), gives_setErrno, Vol.get_load]
  by_cases hfile : t.vol.type file = EntryType.fileEntry.code
  · rw [if_pos hfile, gives_pure]
    exact ⟨rfl, rfl, fun _ => rfl, fun hdir => absurd (hfile.symm.trans hdir) hcodes⟩
  rw [if_neg hfile]
  by_cases hdir : t.vol.type file = EntryType.dirEntry.code
  · rw [if_pos hdir, gives_pure]
    exact ⟨rfl, rfl, fun h => absurd h hfile, fun _ => rfl⟩
  · rw [if_neg hdir, gives_pure]
    exact ⟨rfl, rfl, fun h => absurd h hfile, fun h => absurd h hdir⟩

/-- `get_vino`, and `pino_add` where it finds nothing. -/
theorem leads_vinoFor (s : Fuse) (pino : Nat) :
    Leads (vinoFor pino) s fun vino s' => s'.sys = s.sys ∧ s.map.Grows s'.map ∧
      (vino ≠ 0 → s'.map.getVino pino = vino) := by
  unfold vinoFor
  rw [leads_ask]
  by_cases hz : s.map.getVino pino = 0
  · rw [if_pos hz]
    exact ⟨_, _, rfl, rfl, InodeMap.grows_pinoAdd _ _ _, InodeMap.getVino_pinoAdd hz⟩
  · rw [if_neg hz, leads_pure]
    exact ⟨rfl, InodeMap.Grows.refl _, fun _ => rfl⟩

end

end Sfs
