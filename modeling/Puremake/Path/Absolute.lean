import Puremake.Path.Relative
import Puremake.Path.Meaning

/-!
# Is `path.getabsolute` a projection?

Three notions of an absolute path meet in `getabsolute`. `isabsolute` looks at the first two
characters, the function itself at a `$` in front, and `wpath.resolve` at the root that `parse`
finds. A path that is written like a drive with more behind the colon, or with a quote in front
of the `$`, is absolute for the first notion only, and is put below the current directory. And
the separator that is cut off at the end may be the root itself.
-/

namespace Puremake

namespace Path

open WPath

/-- A reading that is absolute as it is written: the root with a component, a drive, or a first
component that is a variable or is written like a drive. -/
def Standing (r : Reading) : Prop :=
  match r.anchor with
  | some .root => kept r ≠ []
  | some (.drive _ _) => True
  | none => ∃ s ∈ (kept r).head?, s.head? = some '$' ∨ (driveOf s).isSome

/-- A path with a `$` in front is read by itself, and any other one below the current
directory. -/
def readAbsolute (cwd p : Str) : Reading :=
  if p.head? = some '$' then read p else resolved cwd p

/-- The path is absolute afterwards and stays as it is, and when it was absolute before, it does
not depend on the current directory. -/
def Projects (cwd p : Str) : Prop :=
  isabsolute (getabsolute cwd p) ∧
    getabsolute cwd (getabsolute cwd p) = getabsolute cwd p ∧
    (isabsolute p → ∀ cwd' a, (read cwd').anchor = some a →
      getabsolute cwd' p = getabsolute cwd p)

/-- What is left of the path is absolute, and a path that begins like an absolute one has an
anchor or begins with a `$`. -/
def ReadsAbsolute (cwd p : Str) : Prop :=
  Standing (readAbsolute cwd p) ∧
    (isabsolute p → p.head? = some '$' ∨ (read p).anchor.isSome)

section Written

theorem isabsolute_join {h : Str} (hne : h ≠ []) (t : List Str) :
    isabsolute (WPath.join (h :: t)) = isabsolute h := by
  cases t with
  | nil => rw [WPath.join, concat_singleton]
  | cons q t =>
      rw [WPath.join, concat_cons_cons]
      cases h with
      | nil => exact absurd rfl hne
      | cons c h =>
          cases h with
          | nil => simp [isabsolute]
          | cons d h => rfl

theorem head_join {h : Str} (hne : h ≠ []) (t : List Str) :
    (WPath.join (h :: t)).head? = h.head? := by
  cases h with
  | nil => exact absurd rfl hne
  | cons c h =>
      cases t with
      | nil => rfl
      | cons q t =>
          rw [WPath.join, concat_cons_cons]
          rfl

theorem isabsolute_of_drive {s : Str} (h : (driveOf s).isSome) : isabsolute s := by
  obtain ⟨a, ha⟩ := Option.isSome_iff_exists.mp h
  obtain ⟨hne, rfl⟩ := driveOf_eq_some.mp ha
  cases a with
  | root => exact absurd rfl hne
  | drive x hx => simp [isabsolute, Anchor.piece]

theorem isabsolute_of_dollar {p : Str} (h : p.head? = some '$') : isabsolute p := by
  simp [isabsolute, h]

variable {r : Reading}

/-- A standing reading is absolute as it is written, and is read with an anchor or with a `$` in
front. -/
theorem Standing.written (hr : ∀ s ∈ r.comps, IsComp s) (h : Standing r) :
    isabsolute (WPath.join (normalPieces r)) ∧
      ((WPath.join (normalPieces r)).head? = some '$' ∨
        (read (WPath.join (normalPieces r))).anchor.isSome) := by
  rw [Standing] at h
  rcases read_join_normalPieces hr with ⟨ha, hnil, -⟩ | ⟨s, cs, a, ha, hkept, hdrive, hread⟩ |
    ⟨-, hno, hread⟩
  · rw [ha] at h
    exact absurd hnil h
  · have hpieces : normalPieces r = s :: cs := by simp [normalPieces, ha, hkept]
    have hne : s ≠ [] := (driveOf_eq_some.mp hdrive).1
    rw [hread, hpieces, isabsolute_join hne]
    exact ⟨isabsolute_of_drive (by rw [hdrive]; rfl), .inr rfl⟩
  · rw [hread]
    cases ha : r.anchor with
    | some a =>
        have hpieces : normalPieces r = a.piece :: kept r := by simp [normalPieces, ha, kept]
        refine ⟨?_, .inr rfl⟩
        rw [hpieces]
        cases a with
        | root =>
            obtain ⟨s, cs, hkept⟩ := List.exists_cons_of_ne_nil (by rwa [ha] at h : kept r ≠ [])
            rw [hkept, Anchor.piece, WPath.join, concat_cons_cons]
            simp [isabsolute]
        | drive x hx =>
            rw [isabsolute_join (by simp [Anchor.piece])]
            simp [isabsolute, Anchor.piece]
    | none =>
        rw [ha] at h
        obtain ⟨s, hs, hstand⟩ := h
        obtain ⟨cs, hkept⟩ := List.head?_eq_some_iff.mp hs
        have hpieces : normalPieces r = s :: cs := by
          rw [kept] at hkept
          simp [normalPieces, ha, hkept]
        have hne : s ≠ [] := by
          rintro rfl
          rcases hstand with h | h <;> cases h
        rw [hpieces, isabsolute_join hne, head_join hne]
        rcases hstand with hdollar | hdrive
        · exact ⟨isabsolute_of_dollar hdollar, .inl hdollar⟩
        · rw [hno ha s hs] at hdrive
          cases hdrive

/-- An anchored reading keeps its anchor when it is written, unless nothing but the root is
left. -/
theorem anchor_written (hr : ∀ s ∈ r.comps, IsComp s) {a : Anchor} (ha : r.anchor = some a) :
    (read (WPath.join (normalPieces r))).anchor = some a ∨
      a = .root ∧ WPath.join (normalPieces r) = [] := by
  rcases read_join_normalPieces hr with ⟨hroot, hb, -⟩ | ⟨s, cs, b, hnone, -⟩ | ⟨-, -, hread⟩
  · right
    rw [ha] at hroot
    refine ⟨Option.some.inj hroot, ?_⟩
    simp [normalPieces, ha, hb, Option.some.inj hroot, Anchor.piece, WPath.join]
  · rw [ha] at hnone
    cases hnone
  · exact .inl (by rw [hread, ha])

end Written

section Getabsolute

variable {cwd p : Str} {c : Anchor}

theorem isComp_readAbsolute {s : Str} (h : s ∈ (readAbsolute cwd p).comps) : IsComp s := by
  rw [readAbsolute] at h
  split at h
  · exact isComp_of_mem_read h
  · exact isComp_of_mem_resolved h

theorem getabsolute_eq (hc : (read cwd).anchor = some c) (p : Str) :
    getabsolute cwd p = WPath.join (normalPieces (readAbsolute cwd p)) := by
  have hcomp : ∀ s ∈ (readAbsolute cwd p).comps, IsComp s := fun s => isComp_readAbsolute
  rw [getabsolute, readAbsolute] at *
  split at hcomp <;> rename_i hdollar
  · rw [if_pos hdollar, if_pos hdollar]
    exact trim_wnormalize_eq p
  · rw [if_neg hdollar, if_neg hdollar, resolve_eq hc]
    exact trim_join (not_sep_of_mem_normalPieces hcomp) (head_normalPieces_ne_dot hcomp)
      (getLast_normalPieces hcomp) p

theorem getabsolute_of_anchored (hc : (read cwd).anchor = some c)
    (h : p.head? = some '$' ∨ (read p).anchor.isSome) : getabsolute cwd p = normalize p := by
  rw [getabsolute_eq hc, normalize_eq, readAbsolute]
  split
  · rfl
  · rename_i hdollar
    rw [resolved, Reading.under, if_pos (h.resolve_left hdollar)]

/-- Another path is absolute afterwards only when something stands behind the root. -/
theorem standing_of_fixed (hc : (read cwd).anchor = some c) {r : Reading}
    (hr : ∀ s ∈ r.comps, IsComp s) (habs : isabsolute (WPath.join (normalPieces r)))
    (hfix : getabsolute cwd (WPath.join (normalPieces r)) = WPath.join (normalPieces r)) :
    Standing r := by
  rw [Standing]
  cases ha : r.anchor with
  | some a =>
      cases a with
      | root =>
          intro hnil
          have hpieces : normalPieces r = [[]] := by
            rw [kept] at hnil
            simp [normalPieces, ha, hnil, Anchor.piece]
          rw [hpieces] at habs
          cases habs
      | drive x hx => trivial
  | none =>
      have hpieces : normalPieces r = kept r := by simp [normalPieces, ha, kept]
      cases hkept : kept r with
      | nil =>
          rw [hpieces, hkept] at habs
          cases habs
      | cons s cs =>
          by_contra hnot
          have hdollar : s.head? ≠ some '$' := fun h => hnot ⟨s, by simp, .inl h⟩
          have hdrive : driveOf s = none :=
            Option.not_isSome_iff_eq_none.mp fun h => hnot ⟨s, by simp, .inr h⟩
          have hne : s ≠ [] := (hr s (UpWord.mem_of_mem_blind (by rw [← kept, hkept]; simp))).1
          have hread : (read (WPath.join (normalPieces r))).anchor = none := by
            rcases read_join_normalPieces hr with ⟨hroot, -⟩ | ⟨q, qs, b, -, hb, hd, -⟩ |
              ⟨-, -, hread⟩
            · rw [ha] at hroot
              cases hroot
            · rw [← kept, hkept] at hb
              obtain rfl := (List.cons.inj hb).1
              rw [hdrive] at hd
              cases hd
            · rw [hread, ha]
          rw [hpieces, hkept] at hfix hread
          -- below the current directory the path gets an anchor that it did not have
          have hbelow : readAbsolute cwd (WPath.join (s :: cs)) =
              ⟨some c, (read cwd).comps ++ (read (WPath.join (s :: cs))).comps⟩ := by
            rw [readAbsolute, if_neg (by rwa [head_join hne]), resolved, Reading.under, hread, hc]
            rfl
          rw [getabsolute_eq hc] at hfix
          rcases anchor_written (r := readAbsolute cwd (WPath.join (s :: cs)))
            (fun q => isComp_readAbsolute) (by rw [hbelow]) with h | ⟨-, h⟩
          · rw [hfix, hread] at h
            cases h
          · rw [hfix] at h
            have hhead := head_join hne cs
            rw [h] at hhead
            cases s with
            | nil => exact hne rfl
            | cons d s => cases hhead

theorem exists_cwd (c : Anchor) : ∃ cwd' a, (read cwd').anchor = some a ∧ a ≠ c := by
  by_cases h : c = .root
  · exact ⟨"C:".toList, .drive 'C' (by decide), by decide, by simp [h]⟩
  · exact ⟨"/".toList, .root, by decide, Ne.symm h⟩

/-- A path that is put below the current directory depends on it. -/
theorem anchored_of_independent (hc : (read cwd).anchor = some c)
    (h : ∀ cwd' a, (read cwd').anchor = some a → getabsolute cwd' p = getabsolute cwd p) :
    p.head? = some '$' ∨ (read p).anchor.isSome := by
  by_contra hnot
  rw [not_or] at hnot
  obtain ⟨hdollar, hanchor⟩ := hnot
  have hread : ∀ {cwd' : Str}, (readAbsolute cwd' p).anchor = (read cwd').anchor := by
    intro cwd'
    rw [readAbsolute, if_neg hdollar, resolved, Reading.under, if_neg hanchor]
  obtain ⟨cwd', a, ha, hne⟩ := exists_cwd c
  have hsame := h cwd' a ha
  rw [getabsolute_eq ha, getabsolute_eq hc] at hsame
  have hwritten := anchor_written (fun s => isComp_readAbsolute) (hread.trans ha)
  have hwritten' := anchor_written (fun s => isComp_readAbsolute) (hread.trans hc)
  rw [hsame] at hwritten
  rcases hwritten with h | ⟨rfl, h⟩ <;> rcases hwritten' with h' | ⟨rfl, h'⟩
  · rw [h] at h'
    exact hne (Option.some.inj h')
  · rw [h'] at h
    cases h
  · rw [h] at h'
    cases h'
  · exact hne rfl

end Getabsolute

section Characters

variable {cwd p : Str} {c : Anchor}

/-- Apart from slashes, what is written for a reading is written in its anchor or in a
component that is left. -/
theorem mem_join_normalPieces {r : Reading} {x : Char} (hx : x ≠ '/') :
    x ∈ WPath.join (normalPieces r) ↔
      (∃ a, r.anchor = some a ∧ x ∈ a.piece) ∨ ∃ q ∈ kept r, x ∈ q := by
  constructor
  · intro h
    obtain ⟨q, hq, hmem⟩ := (mem_concat h).resolve_left hx
    rcases List.mem_append.mp hq with hq | hq
    · obtain ⟨a, ha, rfl⟩ := List.mem_map.mp hq
      exact .inl ⟨a, Option.mem_toList.mp ha, hmem⟩
    · exact .inr ⟨q, hq, hmem⟩
  · rintro (⟨a, ha, hmem⟩ | ⟨q, hq, hmem⟩)
    · refine mem_concat_of_mem (List.mem_append_left _ ?_) hmem
      exact List.mem_map.mpr ⟨a, Option.mem_toList.mpr ha, rfl⟩
    · exact mem_concat_of_mem (List.mem_append_right _ hq) hmem

theorem mem_of_mem_anchor {a : Anchor} (ha : (read p).anchor = some a) {x : Char}
    (hx : x ∈ a.piece) : x ∈ p := by
  obtain ⟨h, t, hp⟩ := exists_pieces_eq_cons isSeparator p
  rw [read_anchor, hp] at ha
  obtain ⟨rfl, -⟩ := head_of_anchorOf ha
  exact mem_of_mem_pieces (hp ▸ List.mem_cons_self) hx

theorem mem_of_mem_comps {q : Str} (hq : q ∈ (read p).comps) {x : Char} (hx : x ∈ q) :
    x ∈ p := by
  have hmem : q ∈ pieces isSeparator p := by
    have h := (List.mem_filter.mp hq).1
    rw [afterAnchor] at h
    split at h
    · exact List.mem_of_mem_tail h
    · exact h
  exact mem_of_mem_pieces hmem hx

/-- The characters of an absolute path are those of the current directory and of the path. -/
theorem mem_of_mem_getabsolute (hc : (read cwd).anchor = some c) {x : Char} (hx : x ≠ '/')
    (h : x ∈ getabsolute cwd p) : x ∈ cwd ∨ x ∈ p := by
  rw [getabsolute_eq hc, mem_join_normalPieces hx, readAbsolute, resolved, Reading.under] at h
  rcases h with ⟨a, ha, hmem⟩ | ⟨q, hq, hmem⟩
  · split at ha
    · exact .inr (mem_of_mem_anchor ha hmem)
    · split at ha
      · exact .inr (mem_of_mem_anchor ha hmem)
      · exact .inl (mem_of_mem_anchor ha hmem)
  · replace hq := UpWord.mem_of_mem_blind hq
    split at hq
    · exact .inr (mem_of_mem_comps hq hmem)
    · split at hq
      · exact .inr (mem_of_mem_comps hq hmem)
      · rcases List.mem_append.mp hq with hq | hq
        · exact .inl (mem_of_mem_comps hq hmem)
        · exact .inr (mem_of_mem_comps hq hmem)

/-- The absolute path of a normalized path has the characters of its names. -/
theorem mem_getabsolute_normalize (hc : (read cwd).anchor = some c) {x : Char}
    (hx : x ≠ '/') (hdot : x ≠ '.') (h : x ∈ normalize p) :
    x ∈ getabsolute cwd (normalize p) := by
  by_cases hanchored : (normalize p).head? = some '$' ∨ (read (normalize p)).anchor.isSome
  · rw [getabsolute_of_anchored hc hanchored, normalize_normalize]
    exact h
  · obtain ⟨hdollar, hnone⟩ := not_or.mp hanchored
    rw [getabsolute_eq hc, readAbsolute, if_neg hdollar, resolved, Reading.under, if_neg hnone,
      mem_join_normalPieces hx]
    right
    have hcomps : ∀ s ∈ (read p).comps, IsComp s := fun s => isComp_of_mem_read
    rw [normalize_eq] at h hnone ⊢
    rcases read_join_normalPieces hcomps with ⟨hroot, hnil, hread⟩ | ⟨s, cs, a, -, -, -, hread⟩ |
      ⟨-, -, hread⟩
    · rw [mem_join_normalPieces hx, hroot, kept, hnil] at h
      rcases h with ⟨a, ha, hmem⟩ | ⟨q, hq, -⟩
      · obtain rfl := Option.some.inj ha
        cases hmem
      · cases hq
    · rw [hread] at hnone
      exact absurd rfl hnone
    · rw [hread] at hnone ⊢
      rw [mem_join_normalPieces hx] at h
      rcases h with ⟨a, ha, -⟩ | ⟨q, hq, hmem⟩
      · rw [ha] at hnone
        exact absurd rfl hnone
      · have hup : compRole q ≠ .up := by
          intro hrole
          rw [compRole_eq_up.mp hrole] at hmem
          simp [dotdot, hdot] at hmem
        refine ⟨q, ?_, hmem⟩
        rw [kept, UpWord.blind, List.mem_reverse, UpWord.blindFrom_append]
        exact UpWord.mem_blindFrom_blind hq hup _

end Characters

/-- `getabsolute` is a projection for a path exactly when what is left of the path is absolute
as it stands, and a path that looks absolute is read as one. -/
theorem projects_iff {cwd : Str} {c : Anchor} (hc : (read cwd).anchor = some c) (p : Str) :
    Projects cwd p ↔ ReadsAbsolute cwd p := by
  have hcomp : ∀ s ∈ (readAbsolute cwd p).comps, IsComp s := fun s => isComp_readAbsolute
  constructor
  · rintro ⟨habs, hfix, hsame⟩
    rw [getabsolute_eq hc p] at habs hfix
    exact ⟨standing_of_fixed hc hcomp habs hfix, fun h => anchored_of_independent hc (hsame h)⟩
  · rintro ⟨hstanding, hanchored⟩
    obtain ⟨habs, hwritten⟩ := hstanding.written hcomp
    refine ⟨?_, ?_, fun h cwd' a ha => ?_⟩
    · rw [getabsolute_eq hc]
      exact habs
    · rw [getabsolute_eq hc p, getabsolute_of_anchored hc hwritten]
      exact normalize_join_normalPieces hcomp
    · rw [getabsolute_of_anchored hc (hanchored h), getabsolute_of_anchored ha (hanchored h)]

/-- A file below the current directory. -/
theorem projects_src : Projects "/home".toList "src/../main.c".toList :=
  (projects_iff (by decide : (read "/home".toList).anchor = some .root) _).mpr
    ⟨(by decide : kept (readAbsolute "/home".toList "src/../main.c".toList) ≠ []), by decide⟩

/-- The root is a path that nothing is left of. -/
theorem not_projects_root : ¬ Projects "/home".toList "/".toList := fun h => by
  have habs := h.1
  rw [getabsolute_eq (by decide : (read "/home".toList).anchor = some .root)] at habs
  exact absurd habs (by decide)

end Path

end Puremake
