import Sfs.Tree

/-!
# Empty directories

`sfs_rmdir` takes every live entry whose path starts with the path of the
directory for an entry in the directory.  It does not append the separator, as
`sfs_readdir` does, so a directory `a` next to an `ab` is never empty.  It does
not look for the root either: the empty path is a correct one, and when the root
is the only entry, `sfs_rmdir` removes it.

`rmdir_exact_iff` says on which paths `sfs_rmdir` does what it should.
-/

namespace Sfs

open Lib

/-- The path names a directory other than the root, with nothing in it. -/
structure Vol.EmptyDir (v : Vol) (p : Buf) : Prop where
  nonempty : p ≠ []
  named : ∃ a, Named v dirKind a p
  nothing : ∀ o s, v.Live o s → ¬ p ++ [0x2F] <+: s

/-- `sfs_rmdir` returns 0 exactly on an empty directory, and then frees exactly
the slots of the directory. -/
def RmdirExact (s : Sys) (q : Buf) : Prop :=
  ∃ r s', s.exec (sfsRmdir q) = some (r, s') ∧ (r = 0 ↔ s.vol.EmptyDir (cstr q)) ∧
    (r = 0 → ∃ a, Named s.vol dirKind a (cstr q) ∧
      (∀ j, j ≤ s.vol.cont a → s'.vol.type (a + 64 * j) = EntryType.unusedEntry.code) ∧
      ∀ k, k < a ∨ s.vol.groupEnd a ≤ k → s'.vol.data k = s.vol.data k)

/-- The prefix of the path tells whether the directory is empty: the root is not
alone in the index, and a directory has another entry with its path as a prefix
only if it has one in it. -/
structure Vol.PrefixTells (v : Vol) (p : Buf) : Prop where
  root : p = [] → ∀ a, Named v dirKind a p → ∃ o s, v.Live o s ∧ o ≠ a
  others : p ≠ [] → ∀ a o s, Named v dirKind a p → v.Live o s → p <+: s → o ≠ a →
    ∃ o' s', v.Live o' s' ∧ p ++ [0x2F] <+: s'

section

variable {s : Sys} {q : Buf} {lo hi a : Nat}

/-- A directory that is the only entry with its path as a prefix is empty,
unless it is the root. -/
theorem OnlyUnder.emptyDir {v : Vol} {p : Buf} (h : OnlyUnder v a p) (hn : Named v dirKind a p)
    (hne : p ≠ []) : v.EmptyDir p := by
  refine ⟨hne, ⟨a, hn⟩, fun o s hlive hpre => ?_⟩
  have hpre' : p <+: s := (List.prefix_append p [0x2F]).trans hpre
  obtain rfl := h o s hlive hpre'
  obtain rfl := hlive.unique (Or.inr hn)
  have hlen := hpre.length_le
  rw [List.length_append, List.length_singleton] at hlen
  omega

/-- The condition, by what `sfs_rmdir` looks for. -/
theorem prefixTells_iff {v : Vol} {p : Buf} :
    v.PrefixTells p ↔ ((∃ a, Named v dirKind a p ∧ OnlyUnder v a p) ↔ v.EmptyDir p) := by
  constructor
  · intro h
    constructor
    · intro ⟨a, hn, honly⟩
      apply honly.emptyDir hn
      intro hp
      obtain ⟨o, s, hlive, hne⟩ := h.root hp a hn
      exact hne (honly o s hlive (hp ▸ List.nil_prefix))
    · intro he
      obtain ⟨a, hn⟩ := he.named
      refine ⟨a, hn, fun o s hlive hpre => ?_⟩
      by_contra hne
      obtain ⟨o', s', hlive', hpre'⟩ := h.others he.nonempty a o s hn hlive hpre hne
      exact he.nothing o' s' hlive' hpre'
  · intro h
    constructor
    · intro hp a hn
      by_contra hall
      have honly : OnlyUnder v a p := fun o s hlive _ =>
        by_contra fun hne => hall ⟨o, s, hlive, hne⟩
      exact (h.1 ⟨a, hn, honly⟩).nonempty hp
    · intro hp a o s hn hlive hpre hne
      by_contra hnone
      obtain ⟨b, -, honly⟩ := h.2 ⟨hp, ⟨a, hn⟩, fun o' s' hlive' hpre' =>
        hnone ⟨o', s', hlive', hpre'⟩⟩
      apply hne
      rw [honly o s hlive hpre, honly a p (Or.inr hn) (List.prefix_refl p)]

/-- `sfs_rmdir` returns 0 exactly when the path names an empty directory, and
frees exactly its slots, if and only if the prefix of the path tells. -/
theorem rmdir_exact_iff (hq : s.dev.Quiet) (hc : s.dev.Coherent) (hindex : Indexed s.vol lo hi)
    (hcorrect : isCorrectFilepath q = true) :
    RmdirExact s q ↔ s.vol.PrefixTells (cstr q) := by
  have hfail : (-1 : Int) ≠ 0 := by decide
  obtain ⟨r, s', t', hrun, hshow, hres⟩ := transfer
    (Sys.shows_img hq hc hindex.geometry.sized) (gives_sfsRmdir_iff (t := s.img) (q := q) hindex)
  have hret : r = 0 ↔ ∃ a, Named s.vol dirKind a (cstr q) ∧ OnlyUnder s.vol a (cstr q) := by
    rcases hres with ⟨hr, -, hnot⟩ | ⟨hr, -, a, hn, honly, -⟩
    · rw [hr]
      exact ⟨fun h => absurd h hfail, fun h => absurd ⟨hcorrect, h⟩ hnot⟩
    · exact ⟨fun _ => ⟨a, hn, honly⟩, fun _ => hr⟩
  rw [prefixTells_iff, ← hret]
  constructor
  · rintro ⟨r₁, s₁, hrun₁, hiff, -⟩
    rw [hrun] at hrun₁
    cases hrun₁
    exact hiff
  · intro hiff
    refine ⟨r, s', hrun, hiff, fun hr => ?_⟩
    rcases hres with ⟨hr', -⟩ | ⟨-, -, a, hn, -, hrel⟩
    · exact absurd (hr'.symm.trans hr) hfail
    · rw [← hshow.vol] at hrel
      exact ⟨a, hn, hrel.unused, hrel.frame⟩

/-- The directory `a` is empty, and removed. -/
theorem rmdir_exact_iff_emptyDir : ∃ s₀ s s', FreshlyMounted blankOpts 512 s₀ ∧
    run Op.step ⟨s₀, []⟩ [.creat pathB, .mkdir pathA] = some s ∧
    s.sys.vol.EmptyDir (cstr pathA) ∧ s.sys.exec (sfsRmdir pathA) = some (0, s') ∧
    RmdirExact s.sys pathA := by
  have hview : (blankRun [.creat pathB, .mkdir pathA]).map (fun s => decide (
      s.sys.vol.HasNames fileKind [(3776, [0x62])] ∧
      s.sys.vol.HasNames dirKind [(3712, []), (3840, [0x61])])) = some true := by decide +kernel
  obtain ⟨s₀, s, hfresh, hmount, hrun, hview⟩ := blankRun_eq hview
  obtain ⟨hfiles, hdirs⟩ := of_decide_eq_true hview
  obtain ⟨hq, hc, nodes, hw⟩ := blankRun_light hmount (by decide +kernel) hrun
  have hlive : ∀ o p, s.sys.vol.Live o p →
      (o, p) ∈ [(3776, [0x62])] ++ [(3712, []), (3840, [0x61])] := fun o p hl =>
    List.mem_append.2 (hl.imp hfiles.named_iff.1 hdirs.named_iff.1)
  have hdir : Named s.sys.vol dirKind 3840 [0x61] := hdirs.named_iff.2 (by decide)
  -- No other path starts as that of the directory does.
  have honly : OnlyUnder s.sys.vol 3840 (cstr pathA) := fun o p hl hpre =>
    (by decide : ∀ x ∈ [(3776, [0x62])] ++ [(3712, []), (3840, [0x61])],
      cstr pathA <+: x.2 → x.1 = 3840) _ (hlive o p hl) hpre
  have hempty : s.sys.vol.EmptyDir (cstr pathA) := honly.emptyDir hdir (by decide)
  have hexact := (rmdir_exact_iff hq hc hw.indexed (q := pathA) (by decide)).2
    (prefixTells_iff.2 (iff_of_true ⟨3840, hdir, honly⟩ hempty))
  obtain ⟨r, s', hcall, hiff, -⟩ := id hexact
  obtain rfl := hiff.2 hempty
  exact ⟨s₀, s, s', hfresh, hrun, hempty, hcall, hexact⟩

end

/-- The path `ab`. -/
def pathAB : Buf := [0x61, 0x62, 0]

/-- A directory `a` is empty, but `sfs_rmdir` refuses to remove it, since there
is a directory `ab`. -/
theorem rmdir_refuses_sibling :
    ∃ s s', FreshlyMounted blankOpts 512 s ∧
      run Op.step ⟨s, []⟩ [.mkdir pathA, .mkdir pathAB] = some s' ∧
      s'.sys.dev.Quiet ∧ s'.sys.dev.Coherent ∧ Indexed s'.sys.vol 1 7 ∧
      isCorrectFilepath pathA = true ∧ ¬ RmdirExact s'.sys pathA := by
  have hview : (blankRun [.mkdir pathA, .mkdir pathAB]).map (fun s' : Session =>
      (decide (s'.sys.vol.HasNames fileKind [] ∧
        s'.sys.vol.HasNames dirKind [(3712, []), (3776, [0x61]), (3840, [0x61, 0x62])]),
        (s'.sys.exec (sfsRmdir pathA)).map Prod.fst))
      = some (true, some (-1)) := by decide +kernel
  obtain ⟨s, s', hfresh, -, hrun, hview⟩ := blankRun_eq hview
  obtain ⟨hnames, hret⟩ := Prod.mk.inj hview
  obtain ⟨hfiles, hdirs⟩ := of_decide_eq_true hnames
  have hgood : GoodPath pathAB := by decide
  have hops : MeetsOps (fun v p op => op.Accepts v p ∧ op.Safe v) ⟨s, []⟩
      [.mkdir pathA, .mkdir pathAB] :=
    ⟨⟨pathA_good, trivial⟩, fun _ _ => ⟨⟨hgood, trivial⟩, fun _ _ => trivial⟩⟩
  obtain ⟨hquiet, hcoh, nodes, hw⟩ := blankRun_wellFormed hfresh hops hrun
  refine ⟨s, s', hfresh, hrun, hquiet, hcoh, hw.indexed, by decide, ?_⟩
  rintro ⟨r, s₁, hrun₁, hiff, -⟩
  rw [hrun₁] at hret
  have hr : r = -1 := Option.some.inj hret
  have hempty : s'.sys.vol.EmptyDir (cstr pathA) := by
    refine ⟨by decide, ⟨3776, hdirs.named_iff.2 (by decide)⟩, ?_⟩
    -- No path has a separator behind its first character.
    have hapart : ∀ x ∈ [(3712, []), (3776, [0x61]), (3840, [0x61, 0x62])],
        ¬ (cstr pathA ++ [0x2F]) <+: x.2 := by decide
    intro o p hlive hpre
    rcases hlive with hn | hn
    · exact absurd (hfiles.named_iff.1 hn) List.not_mem_nil
    · exact hapart (o, p) (hdirs.named_iff.1 hn) hpre
  have hzero := hiff.2 hempty
  omega

end Sfs
