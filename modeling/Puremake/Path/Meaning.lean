import Puremake.Path.Normalize

/-!
# Does `path.normalize` keep the meaning of a path?

The components that `normalize` keeps are the blind reduction of the components
of the path, so the comparison of the two reductions decides when the meaning
is kept. It is lost when a `..` removes another `..` or a component that starts
with `$`, when the result loses its root because no component is left, and when
a relative path is left with a first component that is written like a drive.
Normalizing twice never changes anything.
-/

namespace Puremake

namespace Path

open WPath

/-- The paths whose meaning `normalize` keeps, by the anchor that they have and
the place that they denote: a relative path keeps `..` in front only, and only
one of them, and does not begin like a drive; an anchored path keeps no `..`;
and a path that denotes the root itself has an odd number of `..` absorbed
there, the last of which is kept behind the root. -/
def KeepsMeaning (p : Str) : Prop :=
  match (read p).anchor with
  | none =>
      (∀ s ∈ (denote p).comps.tail, s ≠ dotdot) ∧
        ∀ s ∈ (denote p).comps.head?, driveOf s = none
  | some .root =>
      (∀ s ∈ (denote p).comps, s ≠ dotdot) ∧
        ((denote p).comps ≠ [] ∨ UpWord.absorbed compRole (read p).comps % 2 = 1)
  | some (.drive _ _) => ∀ s ∈ (denote p).comps, s ≠ dotdot

section Written

theorem read_join_normalPieces {r : Reading} (hr : ∀ s ∈ r.comps, IsComp s) :
    (r.anchor = some .root ∧ UpWord.blind compRole r.comps = [] ∧
        read (join (normalPieces r)) = ⟨none, []⟩) ∨
      (∃ s cs a, r.anchor = none ∧ UpWord.blind compRole r.comps = s :: cs ∧
        driveOf s = some a ∧ read (join (normalPieces r)) = ⟨some a, cs⟩) ∨
      ((r.anchor = some .root → UpWord.blind compRole r.comps ≠ []) ∧
        (r.anchor = none → ∀ s ∈ (UpWord.blind compRole r.comps).head?, driveOf s = none) ∧
        read (join (normalPieces r)) = ⟨r.anchor, UpWord.blind compRole r.comps⟩) := by
  have hblind : ∀ s ∈ UpWord.blind compRole r.comps, IsComp s := fun s hs =>
    hr s (UpWord.mem_of_mem_blind hs)
  cases ha : r.anchor with
  | some a =>
      have hpieces : normalPieces r = a.piece :: UpWord.blind compRole r.comps := by
        simp [normalPieces, ha]
      rw [hpieces]
      by_cases hroot : a = .root → UpWord.blind compRole r.comps ≠ []
      · right; right
        exact ⟨fun h => hroot (by simpa using h), by simp, read_concat_anchored hblind hroot⟩
      · left
        simp only [Classical.not_imp, not_not] at hroot
        obtain ⟨rfl, hnil⟩ := hroot
        exact ⟨rfl, hnil, by rw [hnil]; rfl⟩
  | none =>
      have hpieces : normalPieces r = UpWord.blind compRole r.comps := by
        simp [normalPieces, ha]
      rw [hpieces]
      by_cases hdrive : ∀ s ∈ (UpWord.blind compRole r.comps).head?, driveOf s = none
      · right; right
        exact ⟨by simp, fun _ => hdrive, read_concat_relative hblind hdrive⟩
      · right; left
        simp only [not_forall, exists_prop, Option.mem_def] at hdrive
        obtain ⟨s, hs, hsome⟩ := hdrive
        obtain ⟨a, ha'⟩ := Option.ne_none_iff_exists'.mp hsome
        obtain ⟨cs, hcs⟩ := List.head?_eq_some_iff.mp hs
        refine ⟨s, cs, a, rfl, hcs, ha', ?_⟩
        rw [hcs]
        exact read_concat_driveLike (fun q hq => hblind q (by simp [hcs, hq])) ha'

end Written

section Idempotent

theorem normalize_join_normalPieces {r : Reading} (hr : ∀ s ∈ r.comps, IsComp s) :
    normalize (WPath.join (normalPieces r)) = WPath.join (normalPieces r) := by
  rw [normalize_eq]
  rcases read_join_normalPieces hr with ⟨ha, hb, hread⟩ | ⟨s, cs, a, ha, hb, hd, hread⟩ |
    ⟨-, -, hread⟩
  · rw [hread]
    simp [normalPieces, ha, hb, Anchor.piece, WPath.join]
  · obtain ⟨-, hpiece⟩ := driveOf_eq_some.mp hd
    have hcs : UpWord.blind compRole cs = cs := by
      have hup : ∀ q ∈ cs, compRole q ≠ .up := fun q hq =>
        UpWord.ne_up_of_mem_tail_blind (w := r.comps) (by rw [hb]; exact hq)
      simp [UpWord.blind, UpWord.blindFrom_of_ne_up hup]
    rw [hread]
    simp [normalPieces, ha, hb, hpiece, hcs]
  · rw [hread]
    simp [normalPieces]

theorem normalize_normalize (p : Str) : normalize (normalize p) = normalize p := by
  have hp : normalize p = WPath.join (normalPieces (read p)) := normalize_eq p
  rw [hp, normalize_join_normalPieces fun s => isComp_of_mem_read]

end Idempotent

section Meaning

theorem denote_comps (p : Str) :
    (denote p).comps = UpWord.reduce compRole (read p).anchor.isSome (read p).comps := rfl

theorem forall_ne_dotdot_iff {cs : List Str} :
    (∀ s ∈ cs, s ≠ dotdot) ↔ ∀ s ∈ cs, compRole s ≠ .up :=
  forall₂_congr fun _ _ => not_congr compRole_eq_up.symm

theorem denote_eq_iff {p q : Str} :
    denote p = denote q ↔
      (read p).anchor = (read q).anchor ∧ (denote p).comps = (denote q).comps :=
  Place.ext_iff

/-- A relative path keeps its meaning when the reduction leaves `..` in front
only and the first component is not written like a drive. -/
theorem denote_normalize_relative {p : Str} (ha : (read p).anchor = none) :
    denote (normalize p) = denote p ↔
      (∀ s ∈ (denote p).comps.tail, s ≠ dotdot) ∧
        ∀ s ∈ (denote p).comps.head?, driveOf s = none := by
  have hcomps : (denote p).comps = UpWord.reduce compRole false (read p).comps := by
    rw [denote_comps, ha]
    rfl
  rw [hcomps, forall_ne_dotdot_iff, ← UpWord.blind_eq_reduce_iff, normalize_eq]
  rcases read_join_normalPieces (r := read p) fun s => isComp_of_mem_read with
    ⟨ha', -, -⟩ | ⟨s, cs, a, -, hb, hd, hread⟩ | ⟨-, hdrive, hread⟩
  · rw [ha] at ha'
    cases ha'
  · constructor
    · intro h
      rw [denote_eq_iff, hread, ha] at h
      cases h.1
    · rintro ⟨hblind, hdrive⟩
      rw [← hblind, hb] at hdrive
      rw [hdrive s (by simp)] at hd
      cases hd
  · have hplace : (denote (join (normalPieces (read p)))).comps =
        UpWord.blind compRole (read p).comps := by
      rw [denote_comps, hread, ha]
      exact UpWord.reduce_blind _
    rw [denote_eq_iff, hplace, hread, ha, hcomps]
    constructor
    · rintro ⟨-, hblind⟩
      exact ⟨hblind, hblind ▸ hdrive ha⟩
    · rintro ⟨hblind, -⟩
      exact ⟨rfl, hblind⟩

/-- An anchored path that keeps a component behind a root keeps its meaning
when the reduction leaves no `..`. -/
theorem denote_normalize_anchored {p : Str} {a : Anchor} (ha : (read p).anchor = some a)
    (hroot : a = .root → UpWord.blind compRole (read p).comps ≠ []) :
    denote (normalize p) = denote p ↔ ∀ s ∈ (denote p).comps, s ≠ dotdot := by
  have hcomps : (denote p).comps = UpWord.reduce compRole true (read p).comps := by
    rw [denote_comps, ha]
    rfl
  rw [hcomps, forall_ne_dotdot_iff, ← UpWord.reduce_blind_eq_iff, normalize_eq]
  rcases read_join_normalPieces (r := read p) fun s => isComp_of_mem_read with
    ⟨ha', hnil, -⟩ | ⟨s, cs, b, ha', -, -, -⟩ | ⟨-, -, hread⟩
  · rw [ha, Option.some.injEq] at ha'
    exact absurd hnil (hroot ha')
  · rw [ha] at ha'
    cases ha'
  · have hplace : (denote (join (normalPieces (read p)))).comps =
        UpWord.reduce compRole true (UpWord.blind compRole (read p).comps) := by
      rw [denote_comps, hread, ha]
      rfl
    rw [denote_eq_iff, hplace, hread, hcomps]
    exact and_iff_right rfl

/-- A root path that is left without components is written as the empty path,
which is relative. -/
theorem denote_normalize_root_nil {p : Str} (ha : (read p).anchor = some .root)
    (hnil : UpWord.blind compRole (read p).comps = []) :
    denote (normalize p) ≠ denote p := by
  intro h
  have hnorm : normalize p = [] := by
    rw [normalize_eq, normalPieces, ha, hnil]
    rfl
  rw [hnorm, denote_eq_iff, ha] at h
  cases h.1

/-- The blind reduction of an anchored path that keeps no `..` is empty exactly
when the path denotes its anchor and an even number of `..` is absorbed. -/
theorem blind_eq_nil_iff {p : Str} {a : Anchor} (ha : (read p).anchor = some a)
    (hup : ∀ s ∈ (denote p).comps, s ≠ dotdot) :
    UpWord.blind compRole (read p).comps = [] ↔
      (denote p).comps = [] ∧ UpWord.absorbed compRole (read p).comps % 2 = 0 := by
  have hcomps : (denote p).comps = UpWord.reduce compRole true (read p).comps := by
    rw [denote_comps, ha]
    rfl
  rw [forall_ne_dotdot_iff, hcomps] at hup
  obtain ⟨f, hf, heq⟩ := UpWord.blind_anchored hup
  rw [heq, hcomps, List.append_eq_nil_iff, and_comm, ← hf.length, List.length_eq_zero_iff]

/-- `path.normalize` keeps the meaning of the paths that `KeepsMeaning` describes. -/
theorem denote_normalize_iff (p : Str) :
    denote (normalize p) = denote p ↔ KeepsMeaning p := by
  rw [KeepsMeaning]
  cases ha : (read p).anchor with
  | none => exact denote_normalize_relative ha
  | some a =>
      cases a with
      | drive x hx => exact denote_normalize_anchored ha (by simp)
      | root =>
          by_cases hnil : UpWord.blind compRole (read p).comps = []
          · refine iff_of_false (denote_normalize_root_nil ha hnil) ?_
            rintro ⟨hup, hcases⟩
            obtain ⟨hcomps, heven⟩ := (blind_eq_nil_iff ha hup).mp hnil
            rcases hcases with hne | hodd
            · exact hne hcomps
            · omega
          · rw [denote_normalize_anchored ha fun _ => hnil]
            refine ⟨fun hup => ⟨hup, ?_⟩, fun h => h.1⟩
            by_contra hcon
            rw [not_or, not_not] at hcon
            exact hnil ((blind_eq_nil_iff ha hup).mpr ⟨hcon.1, by omega⟩)

/-- `path.normalize` keeps the meaning of a path, and normalizing twice changes
nothing, exactly on the paths that `KeepsMeaning` describes. -/
theorem normalize_denotes_iff (p : Str) :
    (denote (normalize p) = denote p ∧ normalize (normalize p) = normalize p) ↔
      KeepsMeaning p := by
  rw [and_iff_left (normalize_normalize p)]
  exact denote_normalize_iff p

/-- Two leading `..` cancel each other, so `../../a` becomes `a`. -/
theorem not_keeps_double_dotdot :
    ¬ (denote (normalize "../../a".toList) = denote "../../a".toList ∧
        normalize (normalize "../../a".toList) = normalize "../../a".toList) := by
  decide

end Meaning

end Path

end Puremake
