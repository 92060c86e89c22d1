import Sfs.Instants
import Sfs.Mounting

/-!
# An image from session to session

An image lives longer than the process that mounts it: `fuse_sfs_destroy` ends a
session, or the process dies, between two calls or in the middle of one, and
`fuse_sfs_init` starts the next one, where the user may refuse.

* `DiskEvent.perform` is the machine: calls while the image is mounted, the ends of a
  session, and the start of one, which may be refused;
* `Machine.At` is what holds of it between two events, and `Machine.At.step` one event;
* `sessions_run` says that an image is one file tree over all its sessions, `survives_run`
  that what was written is there in all later ones, and `mounts_run` when the next
  session starts.
-/

namespace Sfs

open Lib FileTree

/-! ## The machine -/

/-- An image with the session that it is in, or that was the last. -/
structure Machine where
  session : Session
  mounted : Bool

/-- What happens to an image. -/
inductive DiskEvent where
  | call (c : UnitCall)
  | destroy
  | kill
  | crash (c : UnitCall) (n : Nat)
  | init (b : Boot)

/-- What a process leaves that was at `x` when it died: the disk.  The rest of the state
is of no use to the next one. -/
def Sys.leaves (s x : Sys) : Sys :=
  { s with dev := { s.dev with data := x.dev.data, bufNum := none } }

/-- Calls and `fuse_sfs_destroy` in a session, or its sudden end, and `fuse_sfs_init`
outside.  Nothing is kept back from the device, so a process that dies between two calls
leaves it as the last call did, and one that dies `n` commands into a call as those did. -/
def DiskEvent.perform (m : Machine) : DiskEvent → Option (Reply × Machine)
  | call c =>
    if m.mounted then (c.perform m.session).map fun x => (x.1, { m with session := x.2 }) else none
  | destroy =>
    if m.mounted then (fuseSfsDestroy m.session.sys).map fun x =>
      (.done, ⟨{ m.session with sys := x.2 }, false⟩)
    else none
  | kill => if m.mounted then some (.done, { m with mounted := false }) else none
  | crash c n =>
    if m.mounted then
      let sys := m.session.sys.leaves (c.after n m.session.sys)
      some (.done, ⟨{ m.session with sys := sys }, false⟩)
    else none
  | init b =>
    if m.mounted then none else (fuseSfsInit b m.session.sys).map fun x =>
      (if x.1.isSome then .done else .refused, ⟨{ m.session with sys := x.2 }, x.1.isSome⟩)

/-- What the user is asked when the image is mounted, and lets happen. -/
def Boot.outcome (b : Boot) (v : Vol) : Option Bool :=
  (b.lateness v.stamp).bind fun late =>
    b.decides (1 < late) (u64 (v.blockSize * v.emptyFiles) ≠ 0)

/-- A call is in order, a session ends without unlinked files, a call that is cut off
writes one entry at most and leaves no file unlinked, and the image is mounted where it
works and the user answers. -/
def DiskEvent.Admitted (m : Machine) : DiskEvent → Prop
  | call c => m.mounted = true ∧ c.Lasting m.session.sys.vol m.session.pending
  | destroy | kill => m.mounted = true ∧ m.session.pending = []
  | crash c _ => m.mounted = true ∧ m.session.pending = [] ∧
    c.Lasting m.session.sys.vol m.session.pending ∧ c.Single ∧ ¬ c.Unlinks
  | init b => m.mounted = false ∧ b.Works m.session.sys.vol.size ∧ b.table.isSome ∧
    b.outcome m.session.sys.vol ≠ none

/-- What the events are for a file tree: the ends and the start of a session are pauses. -/
def DiskEvent.asks : DiskEvent → FileTree.Event Buf Nat UInt8
  | call c => .call c.asks
  | destroy | kill | init _ => .pause
  | crash c _ => .torn c.asks

/-- The events of a list, each of which is admitted in the state it finds. -/
abbrev MeetsEvents (C : Machine → DiskEvent → Prop) (m : Machine) (events : List DiskEvent) :
    Prop := Meets (next DiskEvent.perform) C m events

/-! ## One event -/

/-- The image is at a view that lasts, without unlinked files outside of a session. -/
structure Machine.At (m : Machine) (V : View) (opts : SfsOptions) : Prop where
  stands : m.session.Stands V opts.reservedSize (opts.reservedSize + opts.dataSize)
  durable : V.Durable opts
  ended : m.mounted = false → V.pending = []

section Events

variable {m : Machine} {V : View} {opts : SfsOptions}

/-- A session ends. -/
theorem Machine.At.destroy (h : m.At V opts) (hpend : V.pending = []) :
    ∃ sys V', fuseSfsDestroy m.session.sys = some ((), sys) ∧ V.tree.Same V'.tree ∧
      Machine.At ⟨{ m.session with sys := sys }, false⟩ V' opts ∧ V'.vol.stamp = sys.fs.time := by
  have hV := h.stands.sound
  obtain ⟨sys, v', hrun, hsame, hrests, hstamp⟩ := h.stands.rests.release hV.geometry
  refine ⟨sys, ⟨v', V.nodes, V.pending⟩, ?_, hV.same_restamped hsame,
    ⟨⟨hV.restamped hsame, hrests, h.stands.pending⟩, h.durable.restamped hV hsame, fun _ => hpend⟩,
    hstamp⟩
  unfold fuseSfsDestroy
  rw [MountM.call_bind hrun]
  rfl

/-- A call that writes one entry at most leaves the geometry and the head of the list. -/
theorem UnitCall.Goes.sameUnit {c : UnitCall} {s s' : Session} {V V' : View} {lo hi : Nat}
    {r : Reply} (h : c.Goes s V lo hi r s' V') (hc : c.Single) (hnot : ¬ c.Unlinks) :
    SameArea V.vol V'.vol ∧ V'.vol.fs.delBegin = V.vol.fs.delBegin ∧ V'.pending = V.pending := by
  have hself : SameArea V.vol V.vol := ⟨rfl, rfl, rfl, rfl⟩
  cases h.effect with
  | timed => exact ⟨⟨rfl, rfl, rfl, rfl⟩, rfl, rfl⟩
  | change hchange =>
    cases hchange with
    | same => exact ⟨hself, rfl, rfl⟩
    | created hadd | madeDir hadd => exact ⟨hadd.area, hadd.delBegin, rfl⟩
    | unlinked => exact absurd trivial hnot
    | removed | deleted | renamed | written | truncated => exact hc.elim

/-- A process dies in the middle of a call: it has happened, or it has not. -/
theorem Machine.At.crash (h : m.At V opts) {c : UnitCall}
    (hc : c.Lasting V.vol V.pending) (hsingle : c.Single) (hnot : ¬ c.Unlinks)
    (hpend : V.pending = []) (n : Nat) :
    ∃ V', (V.tree.Same V'.tree ∨ ∃ r T, Step Above V.tree c.asks r T ∧ T.Same V'.tree) ∧
      Machine.At ⟨{ m.session with sys := m.session.sys.leaves (c.after n m.session.sys) }, false⟩
        V' opts := by
  have hV := h.stands.sound
  have hquiet : m.session.sys.dev.Quiet := h.stands.rests.elim (fun h => h.quiet) fun h => h.quiet
  have hvol : m.session.sys.vol = V.vol := h.stands.vol
  -- A disk of a sound volume, with the unit of before.
  have hat : ∀ {V' : View}, View.Sound V' opts.reservedSize (opts.reservedSize + opts.dataSize) →
      V'.Durable opts → V'.pending = V.pending →
      (m.session.sys.leaves (c.after n m.session.sys)).vol = V'.vol →
      Machine.At ⟨{ m.session with sys := m.session.sys.leaves (c.after n m.session.sys) }, false⟩
        V' opts := by
    intro V' hV' hD' hpend' hvol'
    refine ⟨⟨hV', Or.inl ⟨hvol', hquiet, BlockDev.coherent_of_none rfl⟩, ?_⟩, hD',
      fun _ => hpend'.trans hpend⟩
    exact h.stands.pending.trans hpend'.symm
  obtain ⟨r, s', V', hgoes⟩ := h.stands.refines hc.admitted
  obtain ⟨harea, hbegin, hpend'⟩ := hgoes.sameUnit hsingle hnot
  have hV' := hgoes.stands.sound
  have hD' := hgoes.durable h.stands h.durable hc
  rcases hsingle.data_cases hgoes.run n with hdata | hdata
  · refine ⟨V, Or.inl (Same.refl _), hat hV h.durable rfl ?_⟩
    rw [← hvol]
    show (⟨_, _, (c.after n m.session.sys).dev.data, _⟩ : Vol) = _
    rw [hdata]
    rfl
  · have hsame : V'.vol.SameSlots { V'.vol with fs := V.vol.fs } :=
      ⟨⟨rfl, rfl, harea.entryStart.symm, harea.volIdent.symm⟩, hbegin.symm, fun _ _ => rfl⟩
    refine ⟨⟨{ V'.vol with fs := V.vol.fs }, V'.nodes, V'.pending⟩,
      Or.inr ⟨r, V'.tree, hgoes.step, hV'.same_restamped hsame⟩,
      hat (hV'.restamped hsame) (hD'.restamped hV' hsame) hpend' ?_⟩
    have hdata' : (c.after n m.session.sys).dev.data = V'.vol.data :=
      hdata.trans (congrArg Vol.data hgoes.stands.vol)
    show (⟨m.session.sys.dev.blockSize, m.session.sys.dev.size, (c.after n m.session.sys).dev.data,
      m.session.sys.fs⟩ : Vol) = _
    rw [hdata', show m.session.sys.fs = V.vol.fs from congrArg Vol.fs hvol,
      show m.session.sys.dev.blockSize = V'.vol.blockSize from
        (congrArg Vol.blockSize hvol).trans harea.blockSize.symm,
      show m.session.sys.dev.size = V'.vol.size from
        (congrArg Vol.size hvol).trans harea.size.symm]

/-- A session starts on the image, or is refused, if the user answers. -/
theorem Machine.inits (hV : V.Sound opts.reservedSize (opts.reservedSize + opts.dataSize))
    (hD : V.Durable opts) (hpend : V.pending = []) (hshift : opts.blockSize < 24)
    (hdata : m.session.sys.dev.data = V.vol.data) (hnone : m.session.pending = [])
    (hmounted : m.mounted = false) {b : Boot} (hb : b.Works V.vol.size) (htable : b.table.isSome) :
    ∃ r m₁ V₁ r' m₂ V₂, (DiskEvent.init b).perform m = (b.outcome V.vol).map
        (fun go => if go then (r', m₂) else (r, m₁)) ∧
      V.tree.Same V₁.tree ∧ m₁.At V₁ opts ∧ V.tree.Same V₂.tree ∧ m₂.At V₂ opts := by
  obtain ⟨junk, hjunk⟩ := Option.isSome_iff_exists.1 htable
  obtain ⟨s₁, s₂, v₁, v₂, hinit, hsame₁, hrests₁, hsame₂, hrests₂⟩ :=
    View.Sound.init hdata hV hD hpend hshift hb hjunk
  have hpending : m.session.pending = V.pending := hnone.trans hpend.symm
  refine ⟨.refused, ⟨{ m.session with sys := s₁ }, false⟩, ⟨v₁, V.nodes, V.pending⟩,
    .done, ⟨{ m.session with sys := s₂ }, true⟩, ⟨v₂, V.nodes, V.pending⟩, ?_,
    hV.same_restamped hsame₁,
    ⟨⟨hV.restamped hsame₁, hrests₁, hpending⟩, hD.restamped hV hsame₁, fun _ => hpend⟩,
    hV.same_restamped hsame₂,
    ⟨⟨hV.restamped hsame₂, hrests₂, hpending⟩, hD.restamped hV hsame₂, fun _ => hpend⟩⟩
  rw [DiskEvent.perform, if_neg (by rw [hmounted]; decide), hinit, Boot.outcome, Option.map_map]
  refine congrArg (fun f => Option.map f _) (funext fun go => ?_)
  cases go <;> rfl

/-- An event in order is one of the file tree, and leaves the image at a view that
lasts. -/
theorem Machine.At.step (h : m.At V opts) (hshift : opts.blockSize < 24) {e : DiskEvent}
    (he : e.Admitted m) :
    ∃ r m' V', e.perform m = some (r, m') ∧ Lasts Above V.tree e.asks r V'.tree ∧
      m'.At V' opts := by
  have hvol := h.stands.vol
  cases e with
  | call c =>
    obtain ⟨hmounted, hc⟩ := he
    rw [hvol, h.stands.pending] at hc
    obtain ⟨r, s', V', hgoes⟩ := h.stands.refines hc.admitted
    refine ⟨r, { m with session := s' }, V', ?_, hgoes.step,
      hgoes.stands, hgoes.durable h.stands h.durable hc, fun hfalse => ?_⟩
    · rw [DiskEvent.perform, if_pos hmounted, hgoes.run]
      rfl
    · exact Bool.noConfusion (hmounted.symm.trans hfalse)
  | destroy =>
    obtain ⟨hmounted, hpend⟩ := he
    rw [h.stands.pending] at hpend
    obtain ⟨sys, V', hrun, hsame, hat, -⟩ := h.destroy hpend
    refine ⟨.done, _, V', ?_, hsame, hat⟩
    rw [DiskEvent.perform, if_pos hmounted, hrun]
    rfl
  | kill =>
    obtain ⟨hmounted, hpend⟩ := he
    rw [h.stands.pending] at hpend
    refine ⟨.done, { m with mounted := false }, V, ?_, Same.refl _, h.stands, h.durable,
      fun _ => hpend⟩
    rw [DiskEvent.perform, if_pos hmounted]
  | crash c n =>
    obtain ⟨hmounted, hpend, hc, hsingle, hnot⟩ := he
    rw [hvol, h.stands.pending] at hc
    rw [h.stands.pending] at hpend
    obtain ⟨V', htorn, hat⟩ := h.crash hc hsingle hnot hpend n
    refine ⟨.done, _, V', ?_, htorn, hat⟩
    rw [DiskEvent.perform, if_pos hmounted]
  | init b =>
    obtain ⟨hmounted, hb, htable, hasked⟩ := he
    have hpend := h.ended hmounted
    rw [hvol] at hb hasked
    obtain ⟨go, hgo⟩ := Option.ne_none_iff_exists'.1 hasked
    obtain ⟨r, m₁, V₁, r', m₂, V₂, hperform, hsame₁, hat₁, hsame₂, hat₂⟩ :=
      Machine.inits h.stands.sound h.durable hpend hshift (congrArg Vol.data hvol)
        (h.stands.pending.trans hpend) hmounted hb htable
    rw [hperform, hgo]
    cases go with
    | true => exact ⟨r', m₂, V₂, rfl, hsame₂, hat₂⟩
    | false => exact ⟨r, m₁, V₁, rfl, hsame₁, hat₁⟩

end Events

/-! ## Runs -/

theorem FreshlyMounted.shift {opts : SfsOptions} {bs : Nat} {s : Sys}
    (h : FreshlyMounted opts bs s) : opts.blockSize < 24 := by
  obtain ⟨-, -, hfresh⟩ := h.fresh
  have hpow := hfresh.consistent.blockSize
  obtain ⟨-, -, hmax⟩ := h
  rw [← hpow] at hmax
  have hle := (Nat.pow_le_pow_iff_right (by decide)).1 hmax
  omega

/-- The image in its first session. -/
theorem FreshlyMounted.at_start {opts : SfsOptions} {bs : Nat} {s : Sys}
    (h : FreshlyMounted opts bs s) (hdata : 0 < opts.dataSize) :
    Machine.At ⟨⟨s, []⟩, true⟩ ⟨s.vol, [s.fs.entryStart + 64], []⟩ opts :=
  ⟨h.stands, h.durable hdata, fun hfalse => Bool.noConfusion hfalse⟩

/-- Events in order return, with answers that the file tree allows. -/
theorem Machine.At.run {m : Machine} {V : View} {opts : SfsOptions} (h : m.At V opts)
    (hshift : opts.blockSize < 24) {events : List DiskEvent}
    (hevents : MeetsEvents (fun m e => e.Admitted m) m events) :
    ∃ rs m' V', answers DiskEvent.perform m events = some (rs, m') ∧
      Allows (Lasts Above) V.tree ((events.map DiskEvent.asks).zip rs) V'.tree ∧ m'.At V' opts := by
  obtain ⟨rs, m', T, hrun, hallows, V', hat, rfl⟩ := answers_allowed
    (R := fun m T => ∃ V, m.At V opts ∧ V.tree = T) DiskEvent.asks
    (fun m T e hrel he => by
      obtain ⟨V, hat, rfl⟩ := hrel
      obtain ⟨r, m', V', hperform, hallowed, hat'⟩ := hat.step hshift he
      exact ⟨r, m', V'.tree, hperform, hallowed, V', hat', rfl⟩)
    ⟨V, h, rfl⟩ hevents
  exact ⟨rs, m', V', hrun, hallows, hat⟩

/-- Events from the first session on. -/
theorem FreshlyMounted.sessions {opts : SfsOptions} {bs : Nat} {s : Sys}
    (h : FreshlyMounted opts bs s) (hdata : 0 < opts.dataSize) {events : List DiskEvent}
    (hevents : MeetsEvents (fun m e => e.Admitted m) ⟨⟨s, []⟩, true⟩ events) :
    ∃ rs m V, answers DiskEvent.perform ⟨⟨s, []⟩, true⟩ events = some (rs, m) ∧
      Allows (Lasts Above) (View.tree ⟨s.vol, [s.fs.entryStart + 64], []⟩)
        ((events.map DiskEvent.asks).zip rs) V.tree ∧ m.At V opts :=
  (h.at_start hdata).run h.shift hevents

/-- An image is one file tree from its first session on, over any number of sessions:
what it answers to the calls of all of them, the specification allows a tree that
starts with the root directory alone, and at the end, in a session or not, the image
has the files and the directories of that tree. -/
theorem sessions_run {opts : SfsOptions} {bs : Nat} {s : Sys} (hs : FreshlyMounted opts bs s)
    (hdata : 0 < opts.dataSize) {events : List DiskEvent}
    (hevents : MeetsEvents (fun m e => e.Admitted m) ⟨⟨s, []⟩, true⟩ events) :
    ∃ rs m T T', answers DiskEvent.perform ⟨⟨s, []⟩, true⟩ events = some (rs, m) ∧
      rs.length = events.length ∧ FileTree.Bare T (s.fs.entryStart + 128) ∧
      Allows (Lasts Above) T ((events.map DiskEvent.asks).zip rs) T' ∧
      m.session.sys.vol.Shows m.session.pending T' := by
  obtain ⟨rs, m, V, hrun, hallows, hat⟩ := hs.sessions hdata hevents
  refine ⟨rs, m, _, V.tree, hrun, answers_length hrun, hs.bare, hallows, ?_⟩
  rw [hat.stands.vol, hat.stands.pending]
  exact hat.stands.sound.shows

/-- What there is for the small disk: a file that works, and a user who says yes. -/
def blankBoot : Boot where
  mode := 0o100644
  mtime := 0
  length := 4096
  readable := true
  writable := true
  unit := ⟨0, 0, 0, 0⟩
  buf := fun _ => 0
  faults := fun _ => none
  keys := [keyYes, keyYesAnyway]
  table := some ⟨0, 0, 0⟩

/-- A session with a file, and the next three. -/
def manySessions : List DiskEvent :=
  [.call (.edit (.creat pathA)), .call (.edit (.write 3776 (fun _ => 7) 600 0)), .destroy,
    .init blankBoot, .call (.open pathA), .kill, .init blankBoot,
    .crash (.edit (.creat [0x62, 0])) 30, .init blankBoot, .call (.read 3776 (fun _ => 0) 600 0)]

/-- The event is admitted, as far as the state decides that, and a call is light. -/
def DiskEvent.Light (m : Machine) : DiskEvent → Prop
  | call c => m.mounted = true ∧ c.Light m.session.sys.vol m.session.pending
  | destroy | kill => m.mounted = true ∧ m.session.pending = []
  | crash c _ => m.mounted = true ∧ m.session.pending = [] ∧
    c.Light m.session.sys.vol m.session.pending ∧ c.Single
  | init b => m.mounted = false ∧ m.session.sys.vol.size = 4096 ∧
    b.outcome m.session.sys.vol ≠ none

instance DiskEvent.decidableLight (m : Machine) : (e : DiskEvent) → Decidable (e.Light m)
  | call c => inferInstanceAs (Decidable (m.mounted = true ∧
    c.Light m.session.sys.vol m.session.pending))
  | destroy | kill => inferInstanceAs (Decidable (m.mounted = true ∧ m.session.pending = []))
  | crash c _ => inferInstanceAs (Decidable (m.mounted = true ∧ m.session.pending = [] ∧
    c.Light m.session.sys.vol m.session.pending ∧ c.Single))
  | init b => inferInstanceAs (Decidable (m.mounted = false ∧ m.session.sys.vol.size = 4096 ∧
    b.outcome m.session.sys.vol ≠ none))

/-- The rest, which the state does not decide. -/
def DiskEvent.Proper : DiskEvent → Prop
  | call c => c.asks ≠ .rmdir []
  | crash c _ => c.asks ≠ .rmdir [] ∧ ¬ c.Unlinks
  | destroy | kill => True
  | init b => b.Works 4096 ∧ b.table.isSome

theorem blankBoot_works : blankBoot.Works 4096 :=
  ⟨Or.inr (by decide), Nat.le_refl _, rfl, rfl, fun _ => rfl⟩

/-- A light and proper event is in order. -/
theorem DiskEvent.Light.admitted {m : Machine} {e : DiskEvent} (h : e.Light m)
    (hproper : e.Proper) : e.Admitted m := by
  cases e with
  | call c => exact ⟨h.1, h.2.admitted, hproper⟩
  | destroy | kill => exact h
  | crash c n => exact ⟨h.1, h.2.1, ⟨h.2.2.1.admitted, hproper.1⟩, h.2.2.2, hproper.2⟩
  | init b => exact ⟨h.1, h.2.1 ▸ hproper.1, hproper.2, h.2.2⟩

/-- Light and proper events on the small disk are in order. -/
theorem blankEvents_meets (events : List DiskEvent)
    (h : (blankMounted.map fun s =>
      decide (MeetsEvents (fun m e => e.Light m) ⟨⟨s, []⟩, true⟩ events)) = some true)
    (hproper : ∀ e ∈ events, e.Proper) :
    ∃ s, FreshlyMounted blankOpts 512 s ∧
      MeetsEvents (fun m e => e.Admitted m) ⟨⟨s, []⟩, true⟩ events := by
  obtain ⟨s, hmount, hmeets⟩ := Option.map_eq_some_iff.1 h
  refine ⟨s, blankMounted_fresh hmount,
    ((of_decide_eq_true hmeets).and_forall hproper).mono fun m e he => he.1.admitted he.2⟩

theorem manySessions_proper : ∀ e ∈ manySessions, e.Proper := by
  simp [manySessions, DiskEvent.Proper, UnitCall.asks, Op.asks, UnitCall.Unlinks, blankBoot_works]
  rfl

theorem sessions_run_manySessions :
    ∃ s, FreshlyMounted blankOpts 512 s ∧ ∃ rs m T T',
      answers DiskEvent.perform ⟨⟨s, []⟩, true⟩ manySessions = some (rs, m) ∧
      rs.length = manySessions.length ∧ FileTree.Bare T (s.fs.entryStart + 128) ∧
      Allows (Lasts Above) T ((manySessions.map DiskEvent.asks).zip rs) T' ∧
      m.session.sys.vol.Shows m.session.pending T' := by
  obtain ⟨s, hfresh, hevents⟩ := blankEvents_meets manySessions (by decide +kernel)
    manySessions_proper
  exact ⟨s, hfresh, sessions_run hfresh (by decide) hevents⟩

/-- What was written is there in every later session: after a write, and then events
that do not touch the byte at `i` of the file (calls in order, ends of sessions by
`fuse_sfs_destroy`, between two calls or in the middle of one, new sessions), a read in
order answers, and with the byte that the write had there. -/
theorem survives_run {opts : SfsOptions} {bs : Nat} {s : Sys} (hs : FreshlyMounted opts bs s)
    (hdata : 0 < opts.dataSize) {file size off i readSize pos : Nat} {data buf : Mem}
    {before events : List DiskEvent}
    (hevents : MeetsEvents (fun m e => e.Admitted m) ⟨⟨s, []⟩, true⟩
      (before ++ (.call (.edit (.write file data size off)) ::
        (events ++ [.call (.read file buf readSize pos)]))))
    (hoff : off ≤ i) (hi : i < off + size) (hpos : pos ≤ i) (hin : i < pos + readSize)
    (hkeep : ∀ e, e ∈ events → ¬ e.asks.Touches file i) :
    ∃ rs m₀ r m₁ rs' m₂ r' m,
      answers DiskEvent.perform ⟨⟨s, []⟩, true⟩ before = some (rs, m₀) ∧
      DiskEvent.perform m₀ (.call (.edit (.write file data size off))) = some (r, m₁) ∧
      answers DiskEvent.perform m₁ events = some (rs', m₂) ∧
      DiskEvent.perform m₂ (.call (.read file buf readSize pos)) = some (r', m) ∧
      (r = .done → ∃ out, r' = .bytes out ∧ out[i - pos]? = some (data (i - off))) := by
  obtain ⟨hbefore, hrest⟩ := hevents.append
  obtain ⟨rs, m₀, V₀, hrun₀, -, hat₀⟩ := hs.sessions hdata hbefore
  obtain ⟨hwrite, hlater⟩ := hrest m₀ (run_of_answers_eq hrun₀)
  obtain ⟨r, m₁, V₁, hrun₁, hstep₁, hat₁⟩ := hat₀.step hs.shift hwrite
  obtain ⟨hbetween, hlast⟩ := (hlater m₁ (by rw [next, hrun₁]; rfl)).append
  obtain ⟨rs', m₂, V₂, hrun₂, hallows, hat₂⟩ := hat₁.run hs.shift hbetween
  obtain ⟨r', m, V, hrun, hstep, -⟩ := hat₂.step hs.shift (hlast m₂ (run_of_answers_eq hrun₂)).1
  refine ⟨rs, m₀, r, m₁, rs', m₂, r', m, hrun₀, hrun₁, hrun₂, hrun, fun hr => ?_⟩
  subst hr
  have hlen : (bytesOf data size).length = size := by simp [bytesOf]
  have hbyte : V₁.tree.byte file i = (bytesOf data size)[i - off]? :=
    Step.writes_byte hstep₁ hoff (by omega)
  have hsome : (bytesOf data size)[i - off]? = some (data (i - off)) := by
    simp [bytesOf, show i - off < size by omega]
  have hend : V₂.tree.byte file i = some (data (i - off)) := by
    refine Lasts.keeps_byte_run hallows (hbyte.trans hsome) fun x hx => ?_
    obtain ⟨e, he, heq⟩ := List.mem_map.1 (List.of_mem_zip hx).1
    exact heq ▸ hkeep e he
  exact Step.reads_byte hstep hpos hin hend

theorem survives_run_manySessions :
    ∃ s, FreshlyMounted blankOpts 512 s ∧ ∃ rs m₀ r m₁ rs' m₂ r' m,
      answers DiskEvent.perform ⟨⟨s, []⟩, true⟩ [.call (.edit (.creat pathA))] = some (rs, m₀) ∧
      DiskEvent.perform m₀ (.call (.edit (.write 3776 (fun _ => 7) 600 0))) = some (r, m₁) ∧
      answers DiskEvent.perform m₁ [.destroy, .init blankBoot, .kill, .init blankBoot]
        = some (rs', m₂) ∧
      DiskEvent.perform m₂ (.call (.read 3776 (fun _ => 0) 600 0)) = some (r', m) ∧
      (r = .done → ∃ out, r' = .bytes out ∧ out[550 - 0]? = some 7) := by
  obtain ⟨s, hfresh, hevents⟩ := blankEvents_meets ([.call (.edit (.creat pathA))] ++
    (.call (.edit (.write 3776 (fun _ => 7) 600 0)) ::
      ([.destroy, .init blankBoot, .kill, .init blankBoot] ++
        [.call (.read 3776 (fun _ => 0) 600 0)]))) (by decide +kernel)
    (by simp [DiskEvent.Proper, UnitCall.asks, Op.asks, blankBoot_works]; rfl)
  refine ⟨s, hfresh, survives_run (i := 550) hfresh (by decide) hevents (by decide) (by decide)
    (by decide) (by decide) fun e he htouch => ?_⟩
  simp only [List.mem_cons, List.not_mem_nil, or_false] at he
  rcases he with rfl | rfl | rfl | rfl <;> exact htouch

/-- With nobody to answer, the questions must not come up. -/
theorem Boot.outcome_of_no_keys {b : Boot} {v : Vol} (hkeys : b.keys = []) :
    b.outcome v = some true ↔ (∃ late, b.lateness v.stamp = some late ∧ late ≤ 1) ∧
      18446744073709551616 ∣ v.blockSize * v.emptyFiles := by
  have hdvd : 18446744073709551616 ∣ v.blockSize * v.emptyFiles ↔
      u64 (v.blockSize * v.emptyFiles) = 0 := Nat.dvd_iff_mod_eq_zero
  rw [hdvd, Boot.outcome]
  rcases b.lateness v.stamp with _ | late
  · simp
  rw [Option.bind_some, Boot.decides, askWhen, hkeys]
  simp only [Option.some.injEq, exists_eq_left', ← Int.not_lt]
  by_cases hlate : 1 < late
  · simp [hlate, askKey, keyYes, keyNo]
  · by_cases hbroken : u64 (v.blockSize * v.emptyFiles) = 0
    · simp [hlate, hbroken, askWhen, keyNo, keyNoThanks]
    · simp [hlate, hbroken, askWhen, askKey, keyNo, keyNoThanks, keyYesAnyway]

/-- After a session that `fuse_sfs_destroy` ended, and sessions in order before it: the
image is mounted, refused or asked about for ever as the user answers to the two questions;
and with nobody to answer it is mounted exactly when the file was changed in the second
after the stamp at the latest, and the blocks that the audit counts for empty files come to
nothing. -/
theorem mounts_run {opts : SfsOptions} {bs : Nat} {s : Sys} (hs : FreshlyMounted opts bs s)
    (hdata : 0 < opts.dataSize) {events : List DiskEvent}
    (hevents : MeetsEvents (fun m e => e.Admitted m) ⟨⟨s, []⟩, true⟩ (events ++ [.destroy])) :
    ∃ rs m m', answers DiskEvent.perform ⟨⟨s, []⟩, true⟩ events = some (rs, m) ∧
      DiskEvent.perform m .destroy = some (.done, m') ∧
      ∀ b : Boot, b.Works m'.session.sys.vol.size → b.table.isSome →
        (fuseSfsInit b m'.session.sys).map (fun x => x.1.isSome) = b.outcome m'.session.sys.vol ∧
        (b.keys = [] →
          ((fuseSfsInit b m'.session.sys).map (fun x => x.1.isSome) = some true ↔
            (∃ late, b.lateness m'.session.sys.fs.time = some late ∧ late ≤ 1) ∧
              18446744073709551616 ∣ bs * m'.session.sys.vol.emptyFiles)) := by
  obtain ⟨hbefore, hlast⟩ := hevents.append
  obtain ⟨rs, m, V, hrun, -, hat⟩ := hs.sessions hdata hbefore
  obtain ⟨hmounted, hpend⟩ := (hlast m (run_of_answers_eq hrun)).1
  rw [hat.stands.pending] at hpend
  obtain ⟨sys, V', hdestroy, -, hat', hstamp⟩ := hat.destroy hpend
  have hvol : sys.vol = V'.vol := hat'.stands.vol
  refine ⟨rs, m, ⟨{ m.session with sys := sys }, false⟩, hrun, ?_, fun b hb htable => ?_⟩
  · rw [DiskEvent.perform, if_pos hmounted, hdestroy]
    rfl
  · dsimp only at hb ⊢
    obtain ⟨junk, hjunk⟩ := Option.isSome_iff_exists.1 htable
    rw [hvol] at hb
    obtain ⟨s₁, s₂, v₁, v₂, hinit, -⟩ := View.Sound.init (congrArg Vol.data hvol)
      hat'.stands.sound hat'.durable (hat'.ended rfl) hs.shift hb hjunk
    have houtcome : (fuseSfsInit b sys).map (fun x => x.1.isSome) = b.outcome V'.vol := by
      rw [hinit]
      show ((b.outcome V'.vol).map _).map _ = _
      cases b.outcome V'.vol with
      | none => rfl
      | some go => cases go <;> rfl
    have hbs : V'.vol.blockSize = bs :=
      hat'.durable.consistent.blockSize.symm.trans hs.fresh.2.2.consistent.blockSize
    rw [houtcome, hvol]
    refine ⟨rfl, fun hkeys => ?_⟩
    rw [Boot.outcome_of_no_keys hkeys, hstamp, hbs]

theorem mounts_run_manySessions :
    ∃ s, FreshlyMounted blankOpts 512 s ∧ ∃ rs m m',
      answers DiskEvent.perform ⟨⟨s, []⟩, true⟩ manySessions = some (rs, m) ∧
      DiskEvent.perform m .destroy = some (.done, m') ∧
      ∀ b : Boot, b.Works m'.session.sys.vol.size → b.table.isSome →
        (fuseSfsInit b m'.session.sys).map (fun x => x.1.isSome) = b.outcome m'.session.sys.vol ∧
        (b.keys = [] →
          ((fuseSfsInit b m'.session.sys).map (fun x => x.1.isSome) = some true ↔
            (∃ late, b.lateness m'.session.sys.fs.time = some late ∧ late ≤ 1) ∧
              18446744073709551616 ∣ 512 * m'.session.sys.vol.emptyFiles)) := by
  obtain ⟨s, hfresh, hevents⟩ := blankEvents_meets (manySessions ++ [.destroy]) (by decide +kernel)
    fun e he => (List.mem_append.1 he).elim (manySessions_proper e) fun h => by
      rw [List.mem_singleton.1 h]
      trivial
  exact ⟨s, hfresh, mounts_run hfresh (by decide) hevents⟩

end Sfs
