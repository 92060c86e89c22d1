import Sfs.Cycles
import Sfs.Lib.Semaphore

/-!
# The lock of the image

Any number of processes may be started on one image.  `try_to_lock_image` lets one of
them go on to `fuse_main`, and the semaphore is given back when that process exits.

* `HostEvent.perform` is the machine: processes, each with a memory of its own, over one
  image and one semaphore;
* `Host.At` is what holds of it between two events, and `Host.At.step` one event;
* `hosts_run` says that, however the processes come and go, the image is one file tree,
  that one process has it at a time, and when the next one gets it.
-/

namespace Sfs

open Lib FileTree

/-! ## The machine -/

/-- `try_to_lock_image`, with the semaphore after it; `none` where it would wait. -/
def tryToLockImage (p : Nat) (sem : Sem Nat) : Option (Int × Sem Nat) :=
  match sem.semop p lockOps with
  | .done sem' => some (0, sem')
  | .again => some (-1, sem)
  | .waits => none

/-- An image of some length, its semaphore, and the processes that have gone on to
`fuse_main`.  The machine of a process has its own view of the disk, which is out of date
where another one has written to the image. -/
structure Host where
  sem : Sem Nat
  size : Nat
  data : Mem
  process : Nat → Option Machine

/-- What happens on the host.  A new process starts with any memory; `exit` is its end
before `fuse_sfs_init`. -/
inductive HostEvent where
  | start (p : Nat) (s : Sys)
  | act (p : Nat) (e : DiskEvent)
  | exit (p : Nat)

/-- The machine over the image as it is now. -/
def Machine.over (m : Machine) (data : Mem) : Machine :=
  let s := m.session.sys
  { m with session := { m.session with sys := { s with dev := { s.dev with data := data } } } }

namespace Host

/-- The process exits, and what it has done to the semaphore is taken back. -/
def gone (h : Host) (p : Nat) : Host :=
  { h with sem := h.sem.exit p, process := Function.update h.process p none }

/-- The process has done something, and goes on while it has the image mounted:
`fuse_sfs_init` exits where it does not mount, and `main` after `fuse_main`. -/
def after (h : Host) (p : Nat) (m : Machine) : Host :=
  let h' := { h with data := m.session.sys.dev.data }
  if m.mounted then { h' with process := Function.update h.process p (some m) } else h'.gone p

end Host

/-- The event is in order for a process over the image as it is now; where the process
mounts the image, the user answers. -/
def DiskEvent.AdmittedOn (h : Host) (m : Machine) : DiskEvent → Prop
  | init b => m.mounted = false ∧ b.Works h.size ∧ b.table.isSome = true ∧
    (fuseSfsInit b (m.over h.data).session.sys).isSome = true
  | e => e.Admitted (m.over h.data)

namespace HostEvent

/-- An event with its answer; `none` when it is none of this host, or does not return. -/
def perform (h : Host) : HostEvent → Option (Reply × Host)
  | start p s =>
    if (h.process p).isSome then none
    else (tryToLockImage p h.sem).map fun x =>
      if x.1 = -1 then (.refused, { h with sem := x.2.exit p })
      else (.done, { h with
        sem := x.2, process := Function.update h.process p (some ⟨⟨s, []⟩, false⟩) })
  | act p e => (h.process p).bind fun m =>
    (e.perform (m.over h.data)).map fun x => (x.1, h.after p x.2)
  | exit p => (h.process p).bind fun m =>
    if m.mounted then none else some (.done, h.gone p)

/-- A process is new, or it has the image, and what it does is in order there. -/
def Admitted (h : Host) : HostEvent → Prop
  | start p _ => (h.process p).isSome = false
  | act p e => (h.process p).isSome = true ∧ ∀ m ∈ h.process p, e.AdmittedOn h m
  | exit p => (h.process p).isSome = true ∧ ∀ m ∈ h.process p, m.mounted = false

/-- What the event is for the file tree. -/
def asks : HostEvent → FileTree.Event Buf Nat UInt8
  | start .. | exit _ => .pause
  | act _ e => e.asks

end HostEvent

/-- The events of a list, each of which is admitted on the host it finds. -/
abbrev MeetsHost (C : Host → HostEvent → Prop) (h : Host) (events : List HostEvent) : Prop :=
  Meets (next HostEvent.perform) C h events

/-! ## One event -/

/-- The process that has gone on to `fuse_main`, if there is one, has the lock. -/
structure Host.Locked (h : Host) (holder : Option Nat) : Prop where
  held : h.sem.Held holder
  process : ∀ p, (h.process p).isSome = true ↔ holder = some p

/-- One process has the image at most, and the image is at a view that lasts: that of the
process if it has mounted it, and without unlinked files otherwise. -/
structure Host.At (h : Host) (V : View) (opts : SfsOptions) : Prop where
  locked : ∃ holder, h.Locked holder
  sound : V.Sound opts.reservedSize (opts.reservedSize + opts.dataSize)
  durable : V.Durable opts
  size : h.size = V.vol.size
  data : h.data = V.vol.data
  mounted : ∀ p m, h.process p = some m → m.mounted = true → (m.over h.data).At V opts
  fresh : ∀ p m, h.process p = some m → m.mounted = false → m.session.pending = []
  ended : (∀ p m, h.process p = some m → m.mounted = false) → V.pending = []

section Events

variable {h : Host} {holder : Option Nat} {V V' : View} {opts : SfsOptions} {p q : Nat}
  {m : Machine}

/-- The size of a device that lasts is that of mkfs. -/
theorem View.Durable.size_eq (hD : V.Durable opts) (hD' : V'.Durable opts) :
    V'.vol.size = V.vol.size := by
  rw [← hD.consistent.total, ← hD'.consistent.total, ← hD.consistent.blockSize,
    ← hD'.consistent.blockSize]

theorem Host.Locked.unique (hl : h.Locked holder) (hp : (h.process p).isSome = true)
    (hq : (h.process q).isSome = true) : p = q :=
  Option.some.inj (((hl.process p).1 hp).symm.trans ((hl.process q).1 hq))

theorem Host.Locked.nobody (hl : h.Locked none) (q : Nat) : h.process q = none :=
  Option.not_isSome_iff_eq_none.1 fun hq => nomatch (hl.process q).1 hq

/-- A process that has the image, or gets it, is the only one. -/
theorem Host.Locked.update (hl : h.Locked holder) (hp : holder = none ∨ holder = some p)
    {sem : Sem Nat} (hheld : sem.Held (some p)) (m : Machine) :
    Host.Locked { h with sem := sem, process := Function.update h.process p (some m) } (some p) ∧
      ∀ q n, Function.update h.process p (some m) q = some n → n = m := by
  have hother : ∀ q, q ≠ p → h.process q = none := by
    refine fun q hne => Option.not_isSome_iff_eq_none.1 fun hq => ?_
    have hholder := (hl.process q).1 hq
    rcases hp with rfl | rfl
    · cases hholder
    · exact hne (Option.some.inj hholder).symm
  refine ⟨⟨hheld, fun q => ?_⟩, fun q n hn => ?_⟩
  · show (Function.update h.process p (some m) q).isSome = true ↔ _
    by_cases hq : q = p
    · subst hq
      rw [Function.update_self]
      exact ⟨fun _ => rfl, fun _ => rfl⟩
    · rw [Function.update_of_ne hq, hother q hq]
      exact ⟨nofun, fun heq => absurd (Option.some.inj heq).symm hq⟩
  · by_cases hq : q = p
    · subst hq
      rw [Function.update_self] at hn
      exact (Option.some.inj hn).symm
    · rw [Function.update_of_ne hq, hother q hq] at hn
      cases hn

/-- The process that has the image exits. -/
theorem Host.Locked.gone (hl : h.Locked holder) (hp : (h.process p).isSome = true) :
    (h.gone p).Locked none := by
  obtain rfl := (hl.process p).1 hp
  refine ⟨hl.held.release, fun q => ?_⟩
  by_cases hq : q = p
  · subst hq
    simp [Host.gone]
  · have hnone : ¬ (h.process q).isSome = true := fun hsome => hq (hl.unique hsome hp)
    simp [Host.gone, Function.update_of_ne hq, hnone]

/-- A new process gets the lock when nobody has it, and is told otherwise. -/
theorem Host.Locked.tries (hl : h.Locked holder) (p : Nat) (hp : (h.process p).isSome = false) :
    holder = none ∧ (∃ sem, tryToLockImage p h.sem = some (0, sem) ∧ sem.Held (some p)) ∨
      (∃ q, holder = some q) ∧ tryToLockImage p h.sem = some (-1, h.sem) ∧
        (h.sem.exit p).Held holder := by
  cases holder with
  | none =>
    obtain ⟨sem, hdone, hheld⟩ := hl.held.acquire p
    exact Or.inl ⟨rfl, sem, by rw [tryToLockImage, hdone], hheld⟩
  | some q =>
    have hne : some q ≠ some p := fun heq =>
      Bool.noConfusion (hp.symm.trans ((hl.process p).2 heq))
    exact Or.inr ⟨⟨q, rfl⟩, by rw [tryToLockImage, hl.held.again], hl.held.exit_other hne⟩

/-- What a process with the image leaves. -/
theorem Host.At.after (h' : h.At V opts) (hp : (h.process p).isSome = true)
    (hm : m.At V' opts) : (h.after p m).At V' opts := by
  obtain ⟨holder, hl⟩ := h'.locked
  obtain rfl := (hl.process p).1 hp
  have hdata : m.session.sys.dev.data = V'.vol.data := congrArg Vol.data hm.stands.vol
  have hsize : h.size = V'.vol.size := h'.size.trans (h'.durable.size_eq hm.durable).symm
  unfold Host.after
  by_cases hmounted : m.mounted = true
  · rw [if_pos hmounted]
    obtain ⟨hlocked, hself⟩ := hl.update (Or.inr rfl) hl.held m
    have hnot : ∀ q n, Function.update h.process p (some m) q = some n → n.mounted ≠ false := by
      intro q n hn
      rw [hself q n hn, hmounted]
      decide
    refine ⟨⟨_, hlocked.held, hlocked.process⟩, hm.stands.sound, hm.durable, hsize, hdata,
      fun q n hn _ => ?_, fun q n hn hfalse => absurd hfalse (hnot q n hn), fun hall => ?_⟩
    · rw [hself q n hn]
      exact hm
    · exact absurd (hall p m (Function.update_self ..)) (hnot p m (Function.update_self ..))
  · rw [if_neg hmounted]
    have hgone := hl.gone hp
    have hnone : ∀ q n, (h.gone p).process q ≠ some n := fun q n hn =>
      nomatch (hgone.nobody q).symm.trans hn
    exact ⟨⟨none, hgone.held, hgone.process⟩, hm.stands.sound, hm.durable, hsize, hdata,
      fun q n hn => absurd hn (hnone q n), fun q n hn => absurd hn (hnone q n),
      fun _ => hm.ended (Bool.eq_false_iff.2 hmounted)⟩

/-- A new process gets the image when nobody has it. -/
theorem Host.At.start (h' : h.At V opts) {s : Sys} (hp : (h.process p).isSome = false) :
    ∃ r h'', (HostEvent.start p s).perform h = some (r, h'') ∧ h''.At V opts ∧
      (r = .refused ↔ ∃ q, (h.process q).isSome = true) := by
  obtain ⟨holder, hl⟩ := h'.locked
  have hnot : ¬ (h.process p).isSome = true := by rw [hp]; decide
  rcases hl.tries p hp with ⟨rfl, sem, hrun, hheld⟩ | ⟨⟨q, rfl⟩, hrun, hheld⟩
  · obtain ⟨hlocked, hself⟩ := hl.update (Or.inl rfl) hheld ⟨⟨s, []⟩, false⟩
    refine ⟨.done, { h with
      sem := sem, process := Function.update h.process p (some ⟨⟨s, []⟩, false⟩) }, ?_,
      ⟨⟨_, hlocked⟩, h'.sound, h'.durable, h'.size, h'.data, fun q n hn hmounted => ?_,
        fun q n hn _ => ?_, fun _ => h'.ended fun q n hn => ?_⟩, ⟨nofun, fun hsome => ?_⟩⟩
    · rw [HostEvent.perform, if_neg hnot, hrun]
      rfl
    · rw [hself q n hn] at hmounted
      exact Bool.noConfusion hmounted
    · rw [hself q n hn]
    · exact nomatch (hl.nobody q).symm.trans hn
    · obtain ⟨q, hq⟩ := hsome
      rw [hl.nobody] at hq
      exact Bool.noConfusion hq
  · refine ⟨.refused, { h with sem := h.sem.exit p }, ?_,
      ⟨⟨_, hheld, hl.process⟩, h'.sound, h'.durable, h'.size, h'.data, h'.mounted, h'.fresh,
        h'.ended⟩, fun _ => ⟨q, (hl.process q).2 rfl⟩, fun _ => rfl⟩
    rw [HostEvent.perform, if_neg hnot, hrun]
    rfl

/-- The process that has the image does something. -/
theorem Host.At.acts (h' : h.At V opts) (hshift : opts.blockSize < 24) {e : DiskEvent}
    (hm : h.process p = some m) (he : (HostEvent.act p e).Admitted h) :
    ∃ r m' V', e.perform (m.over h.data) = some (r, m') ∧ Lasts Above V.tree e.asks r V'.tree ∧
      m'.At V' opts := by
  have hadmitted := he.2 m hm
  cases e with
  | call c => exact (h'.mounted p m hm hadmitted.1).step hshift hadmitted
  | destroy => exact (h'.mounted p m hm hadmitted.1).step hshift hadmitted
  | kill => exact (h'.mounted p m hm hadmitted.1).step hshift hadmitted
  | crash c n => exact (h'.mounted p m hm hadmitted.1).step hshift hadmitted
  | init b =>
    obtain ⟨hmounted, hb, htable, hanswer⟩ := hadmitted
    obtain ⟨holder, hl⟩ := h'.locked
    have hpend : V.pending = [] := h'.ended fun q n hn => by
      obtain rfl := hl.unique (show (h.process q).isSome = true by rw [hn]; rfl) he.1
      obtain rfl := Option.some.inj (hn.symm.trans hm)
      exact hmounted
    rw [h'.size] at hb
    obtain ⟨r, m₁, V₁, r', m₂, V₂, hperform, hsame₁, hat₁, hsame₂, hat₂⟩ :=
      Machine.inits (m := m.over h.data) h'.sound h'.durable hpend hshift h'.data
        (h'.fresh p m hm hmounted) hmounted hb htable
    have hnot : ¬ (m.over h.data).mounted = true := fun hmounted' =>
      Bool.noConfusion (hmounted.symm.trans hmounted')
    have hsome : ((DiskEvent.init b).perform (m.over h.data)).isSome = true := by
      rw [DiskEvent.perform, if_neg hnot, Option.isSome_map]
      exact hanswer
    rw [hperform] at hsome ⊢
    cases houtcome : b.outcome V.vol with
    | none =>
      rw [houtcome] at hsome
      exact Bool.noConfusion hsome
    | some go =>
      cases go with
      | true => exact ⟨r', m₂, V₂, rfl, hsame₂, hat₂⟩
      | false => exact ⟨r, m₁, V₁, rfl, hsame₁, hat₁⟩

/-- A process exits before it has mounted the image. -/
theorem Host.At.exit (h' : h.At V opts) (hm : h.process p = some m) (hmounted : m.mounted = false) :
    (h.gone p).At V opts := by
  obtain ⟨holder, hl⟩ := h'.locked
  have hp : (h.process p).isSome = true := by rw [hm]; rfl
  have hgone := hl.gone hp
  have hnone : ∀ q n, (h.gone p).process q ≠ some n := fun q n hn =>
    nomatch (hgone.nobody q).symm.trans hn
  refine ⟨⟨none, hgone⟩, h'.sound, h'.durable, h'.size, h'.data,
    fun q n hn => absurd hn (hnone q n), fun q n hn => absurd hn (hnone q n),
    fun _ => h'.ended fun q n hn => ?_⟩
  obtain rfl := hl.unique (show (h.process q).isSome = true by rw [hn]; rfl) hp
  obtain rfl := Option.some.inj (hn.symm.trans hm)
  exact hmounted

/-- An event in order is one of the file tree. -/
theorem Host.At.step (h' : h.At V opts) (hshift : opts.blockSize < 24) {e : HostEvent}
    (he : e.Admitted h) :
    ∃ r h'' V', e.perform h = some (r, h'') ∧ Lasts Above V.tree e.asks r V'.tree ∧
      h''.At V' opts := by
  cases e with
  | start p s =>
    obtain ⟨r, h'', hperform, hat, -⟩ := h'.start (s := s) he
    exact ⟨r, h'', V, hperform, Same.refl _, hat⟩
  | act p e =>
    obtain ⟨m, hm⟩ := Option.isSome_iff_exists.1 he.1
    obtain ⟨r, m', V', hperform, hlasts, hat⟩ := h'.acts hshift hm he
    refine ⟨r, h.after p m', V', ?_, hlasts, h'.after he.1 hat⟩
    rw [HostEvent.perform, hm, Option.bind_some, hperform]
    rfl
  | exit p =>
    obtain ⟨m, hm⟩ := Option.isSome_iff_exists.1 he.1
    have hmounted := he.2 m hm
    refine ⟨.done, h.gone p, V, ?_, Same.refl _, h'.exit hm hmounted⟩
    rw [HostEvent.perform, hm, Option.bind_some, if_neg (by rw [hmounted]; decide)]

end Events

/-! ## Runs -/

section Runs

variable {opts : SfsOptions} {bs : Nat} {s : Sys} {h : Host} {V : View} {events : List HostEvent}

/-- Events in order return, with answers that the file tree allows. -/
theorem Host.At.run (h' : h.At V opts) (hshift : opts.blockSize < 24)
    (hevents : MeetsHost (fun h e => e.Admitted h) h events) :
    ∃ rs h'' V', answers HostEvent.perform h events = some (rs, h'') ∧
      Allows (Lasts Above) V.tree ((events.map HostEvent.asks).zip rs) V'.tree ∧
      h''.At V' opts := by
  obtain ⟨rs, h'', T, hrun, hallows, V', hat, rfl⟩ := answers_allowed
    (R := fun h T => ∃ V, h.At V opts ∧ V.tree = T) HostEvent.asks
    (fun h T e hrel he => by
      obtain ⟨V, hat, rfl⟩ := hrel
      obtain ⟨r, h'', V', hperform, hallowed, hat'⟩ := hat.step hshift he
      exact ⟨r, h'', V'.tree, hperform, hallowed, V', hat', rfl⟩)
    ⟨V, h', rfl⟩ hevents
  exact ⟨rs, h'', V', hrun, hallows, hat⟩

end Runs

/-! ## Two processes on the small disk -/

/-- The event is in order, as far as the state decides that, and a call is light. -/
def DiskEvent.LightOn (h : Host) (m : Machine) : DiskEvent → Prop
  | init b => m.mounted = false ∧ h.size = 4096 ∧
    (fuseSfsInit b (m.over h.data).session.sys).isSome = true
  | e => e.Light (m.over h.data)

instance DiskEvent.decidableLightOn (h : Host) (m : Machine) :
    (e : DiskEvent) → Decidable (e.LightOn h m)
  | init b => inferInstanceAs (Decidable (m.mounted = false ∧ h.size = 4096 ∧
    (fuseSfsInit b (m.over h.data).session.sys).isSome = true))
  | call c => inferInstanceAs (Decidable ((call c).Light (m.over h.data)))
  | destroy => inferInstanceAs (Decidable (destroy.Light (m.over h.data)))
  | kill => inferInstanceAs (Decidable (kill.Light (m.over h.data)))
  | crash c n => inferInstanceAs (Decidable ((crash c n).Light (m.over h.data)))

/-- The same for an event of the host. -/
def HostEvent.Light (h : Host) : HostEvent → Prop
  | start p _ => (h.process p).isSome = false
  | act p e => (h.process p).isSome = true ∧ ∀ m ∈ h.process p, e.LightOn h m
  | exit p => (h.process p).isSome = true ∧ ∀ m ∈ h.process p, m.mounted = false

instance HostEvent.decidableLight (h : Host) : (e : HostEvent) → Decidable (e.Light h)
  | start p _ => inferInstanceAs (Decidable ((h.process p).isSome = false))
  | act p e => inferInstanceAs (Decidable ((h.process p).isSome = true ∧
    ∀ m ∈ h.process p, e.LightOn h m))
  | exit p => inferInstanceAs (Decidable ((h.process p).isSome = true ∧
    ∀ m ∈ h.process p, m.mounted = false))

/-- The rest, which the state does not decide. -/
def HostEvent.Proper : HostEvent → Prop
  | act _ e => e.Proper
  | start .. | exit _ => True

theorem DiskEvent.LightOn.admitted {h : Host} {m : Machine} {e : DiskEvent} (he : e.LightOn h m)
    (hproper : e.Proper) : e.AdmittedOn h m := by
  cases e with
  | init b => exact ⟨he.1, he.2.1 ▸ hproper.1, hproper.2, he.2.2⟩
  | call c => exact Light.admitted (e := call c) he hproper
  | destroy => exact Light.admitted (e := destroy) he hproper
  | kill => exact Light.admitted (e := kill) he hproper
  | crash c n => exact Light.admitted (e := crash c n) he hproper

theorem HostEvent.Light.admitted {h : Host} {e : HostEvent} (he : e.Light h) (hproper : e.Proper) :
    e.Admitted h := by
  cases e with
  | start | exit => exact he
  | act p e => exact ⟨he.1, fun m hm => (he.2 m hm).admitted hproper⟩

end Sfs
