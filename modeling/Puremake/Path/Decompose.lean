import Puremake.Path.Join
import Puremake.Path.Names

/-!
# Does a path come apart into its parts?

`getname` cuts at both separators, `getdirectory` at slashes only, so that the components
between the last slash and a backslash are in neither of them; and `getextension` cuts at the
last dot of the whole path, which is a dot of the name only when the name has one. What the
directory and the name still show of a path is written down here as a path, and the parts are
the path again when this one denotes the same, and `join` does not change what it denotes.
-/

namespace Puremake

namespace Path

open WPath

def lastPiece (p : Str) : Str := (pieces isSeparator p).getLast?.getD []

/-- The path without what stands between its last slash and its last component; nothing is left
in front of a component that looks absolute. -/
def shown (p : Str) : Str :=
  match splitLast (fun c => c = '/') p with
  | some (d, _) => if isabsolute (lastPiece p) then lastPiece p else d ++ '/' :: lastPiece p
  | none => lastPiece p

/-- The name of a path comes apart into its base name and extension, and the path into its
directory and name. -/
structure ComesApart (p : Str) : Prop where
  name : getname p = getbasename p ++ getextension p
  path : denote (join [some (getdirectory p), some (getname p)]) = denote p

section Name

theorem getname_eq (p : Str) : getname p = lastPiece p := by
  rw [getname, lastPiece]
  cases h : splitLast isSeparator p with
  | none =>
      rw [pieces_of_forall_not_sep (splitLast_eq_none h)]
      rfl
  | some ab =>
      obtain ⟨c, hc, rfl, hb⟩ := splitLast_eq_some h
      rw [pieces_append_pieces _ hc, pieces_of_forall_not_sep hb, List.getLast?_concat]
      rfl

theorem not_sep_lastPiece (p : Str) : ∀ c ∈ lastPiece p, isSeparator c = false := by
  obtain ⟨init, last, hp⟩ := List.eq_nil_or_concat (pieces isSeparator p) |>.resolve_left
    (pieces_ne_nil p)
  rw [lastPiece, hp, List.concat_eq_append, List.getLast?_concat]
  exact isSep_of_mem_pieces (s := p) (by simp [hp])

theorem eq_append_lastPiece (p : Str) :
    p = lastPiece p ∨ ∃ a c, p = a ++ c :: lastPiece p := by
  rw [← getname_eq, getname]
  cases h : splitLast isSeparator p with
  | none => exact .inl rfl
  | some ab =>
      obtain ⟨c, -, hp, -⟩ := splitLast_eq_some h
      exact .inr ⟨ab.1, c, hp⟩

/-- The name comes apart when it has a dot, or the whole path has none. -/
theorem name_iff (p : Str) : getname p = getbasename p ++ getextension p ↔
    '.' ∈ lastPiece p ∨ '.' ∉ p := by
  rw [getbasename, getname_eq]
  cases h : splitLast (fun c => c = '.') (lastPiece p) with
  | none =>
      have hdot : '.' ∉ lastPiece p := fun hmem => by
        simpa using splitLast_eq_none h '.' hmem
      dsimp only
      rw [List.self_eq_append_right, or_iff_right hdot, getextension]
      cases hp : splitLast (fun c => c = '.') p with
      | none =>
          refine iff_of_true rfl fun hmem => ?_
          simpa using splitLast_eq_none hp '.' hmem
      | some ab =>
          obtain ⟨c, hc, heq, -⟩ := splitLast_eq_some hp
          obtain rfl : c = '.' := of_decide_eq_true hc
          refine iff_of_false (List.cons_ne_nil _ _) (not_not_intro ?_)
          rw [heq]
          simp
  | some ab =>
      obtain ⟨x, e⟩ := ab
      obtain ⟨c, hc, heq, he⟩ := splitLast_eq_some h
      obtain rfl : c = '.' := of_decide_eq_true hc
      have hp : ∃ a, p = a ++ '.' :: e := by
        rcases eq_append_lastPiece p with hp | ⟨a, d, hp⟩
        · exact ⟨x, hp.trans heq⟩
        · refine ⟨a ++ d :: x, hp.trans ?_⟩
          rw [heq]
          simp
      obtain ⟨a, rfl⟩ := hp
      refine iff_of_true ?_ (.inl (by rw [heq]; simp))
      rw [getextension, splitLast_append hc he]
      exact heq

end Name

section Path

/-- What stands behind a slash adds its components to the directory in front of it. -/
theorem read_slash (d q : Str) : read (d ++ '/' :: q) =
    ⟨(read (if d = [] then ['/'] else d)).anchor,
      (read (if d = [] then ['/'] else d)).comps ++
        (pieces isSeparator q).filter meaningful⟩ := by
  by_cases hd : d = []
  · subst hd
    rw [if_pos rfl, read, pieces_append_pieces [] (by decide), pieces_nil,
      List.singleton_append, afterAnchor, anchorOf_root (pieces_ne_nil q)]
    rfl
  · rw [if_neg hd, read, pieces_append_pieces d (by decide),
      reading_append (pieces_ne_of_ne_nil hd)]
    rfl

theorem getdirectory_of_slash {p d q : Str}
    (h : splitLast (fun c => c = '/') p = some (d, q)) :
    getdirectory p = if d = [] then ['/'] else d := by
  rw [getdirectory, h]
  cases d <;> rfl

theorem pieces_lastPiece (p : Str) : pieces isSeparator (lastPiece p) = [lastPiece p] :=
  pieces_of_forall_not_sep (not_sep_lastPiece p)

/-- `join` puts the directory and the name together to what they show of the path. -/
theorem join_parts (p : Str) :
    join [some (getdirectory p), some (getname p)] = normalize (shown p) := by
  have hcourse : course [some (getdirectory p), some (getname p)] = read (shown p) := by
    have hfollow : course [some (getdirectory p), some (getname p)] =
        follow (read (getdirectory p)) (lastPiece p) := by
      rw [getname_eq]
      exact congrArg (follow · (lastPiece p)) (follow_start _)
    rw [hfollow, shown]
    cases h : splitLast (fun c => c = '/') p with
    | none =>
        rw [getdirectory, h]
        exact follow_start _
    | some dq =>
        obtain ⟨d, q⟩ := dq
        dsimp only
        cases habs : isabsolute (lastPiece p) with
        | true =>
            rw [if_pos rfl]
            exact follow_of_isabsolute habs _
        | false =>
            rw [if_neg Bool.false_ne_true, follow_of_not_isabsolute habs, read_slash,
              comps_of_not_isabsolute habs, getdirectory_of_slash h]
  rw [join_eq_course (by simp), hcourse, normalize_eq]

theorem denote_normalize_lastPiece (p : Str) :
    denote (normalize (lastPiece p)) = denote (lastPiece p) := by
  rw [denote_normalize_iff, KeepsMeaning]
  have hanchor : (read (lastPiece p)).anchor = driveOf (lastPiece p) := by
    rw [read_anchor, pieces_lastPiece, anchorOf]
    split
    · rename_i hnil
      rw [hnil, if_pos rfl]
      rfl
    · rfl
  cases ha : driveOf (lastPiece p) with
  | none =>
      have hread : (read (lastPiece p)).comps = [lastPiece p].filter meaningful := by
        rw [read_comps, afterAnchor, ← read_anchor, hanchor, ha, pieces_lastPiece]
        rfl
      rw [hanchor, ha]
      cases hmean : meaningful (lastPiece p) with
      | true =>
          have hpush : UpWord.push compRole false [] (lastPiece p) = [lastPiece p] := by
            rcases UpWord.push_cases compRole false [] (lastPiece p) with
              h | ⟨-, y, st, h, -⟩ | ⟨-, -, h, -⟩
            · exact h
            · cases h
            · cases h
          have hcomps : (denote (lastPiece p)).comps = [lastPiece p] := by
            rw [denote_comps, hanchor, ha, hread, List.filter_cons_of_pos hmean]
            exact congrArg List.reverse hpush
          rw [hcomps]
          exact ⟨fun s hs => absurd hs List.not_mem_nil, fun s hs => Option.some.inj hs ▸ ha⟩
      | false =>
          have hcomps : (denote (lastPiece p)).comps = [] := by
            rw [denote_comps, hread, List.filter_cons_of_neg (by simp [hmean])]
            rfl
          rw [hcomps]
          exact ⟨fun s hs => absurd hs List.not_mem_nil, fun s hs => by cases hs⟩
  | some a =>
      have hcomps : (denote (lastPiece p)).comps = [] := by
        rw [denote_comps, read_comps, afterAnchor, ← read_anchor, hanchor, ha, pieces_lastPiece]
        rfl
      obtain ⟨hne, hpiece⟩ := driveOf_eq_some.mp ha
      rw [hanchor, ha, hcomps]
      cases a with
      | root => exact absurd hpiece hne
      | drive x hx => exact fun s hs => absurd hs List.not_mem_nil

/-- When the directory and the name, normalized, denote the path, what stands between them is
without effect. -/
theorem denote_slash_of_normalize {p d q : Str} (hp : p = d ++ '/' :: q)
    (h : denote (normalize (d ++ '/' :: lastPiece p)) = denote p) :
    denote (d ++ '/' :: lastPiece p) = denote p := by
  obtain ⟨hs, n, hq⟩ := List.eq_nil_or_concat (pieces isSeparator q) |>.resolve_left
    (pieces_ne_nil q)
  have hn : lastPiece p = n := by
    rw [lastPiece, hp, pieces_append_pieces d (by decide), hq, List.concat_eq_append,
      ← List.append_assoc, List.getLast?_concat]
    rfl
  obtain ⟨o, ho⟩ : ∃ o : Option Str, [n].filter meaningful = o.toList := by
    rw [List.filter_singleton]
    cases meaningful n with
    | true => exact ⟨some n, rfl⟩
    | false => exact ⟨none, rfl⟩
  have hread : read p = ⟨(read (if d = [] then ['/'] else d)).anchor,
      (read (if d = [] then ['/'] else d)).comps ++ hs.filter meaningful ++ o.toList⟩ := by
    rw [hp, read_slash, hq, List.concat_eq_append, List.filter_append, ho, List.append_assoc]
  have hshown : read (d ++ '/' :: lastPiece p) =
      ⟨(read (if d = [] then ['/'] else d)).anchor,
        (read (if d = [] then ['/'] else d)).comps ++ o.toList⟩ := by
    rw [read_slash, pieces_lastPiece, hn, ho]
  have hsame : (read p).anchor = (read (d ++ '/' :: lastPiece p)).anchor := by
    rw [hread, hshown]
  rw [denote_eq_iff, normalize_eq] at h
  obtain ⟨hanchor, hcomps⟩ := h
  rcases read_join_normalPieces (r := read (d ++ '/' :: lastPiece p))
    (fun s => isComp_of_mem_read) with ⟨ha, -, hw⟩ | ⟨s, cs, a, ha, -, -, hw⟩ | ⟨-, -, hw⟩
  · rw [hw, hsame, ha] at hanchor
    cases hanchor
  · rw [hw, hsame, ha] at hanchor
    cases hanchor
  · rw [denote_eq_iff]
    refine ⟨hsame.symm, ?_⟩
    rw [denote_comps, hw, denote_comps, hsame] at hcomps
    rw [denote_comps, denote_comps, hsame]
    rw [hread, hshown] at hcomps ⊢
    exact UpWord.reduce_omit hcomps

/-- When the normalized form of what is shown denotes the path, so does what is shown. -/
theorem denote_shown_of_normalize {p : Str} (h : denote (normalize (shown p)) = denote p) :
    denote (shown p) = denote p := by
  rw [shown] at h ⊢
  cases hsplit : splitLast (fun c => c = '/') p with
  | none =>
      rw [hsplit] at h
      exact (denote_normalize_lastPiece p).symm.trans h
  | some dq =>
      obtain ⟨d, q⟩ := dq
      rw [hsplit] at h
      dsimp only at h ⊢
      cases habs : isabsolute (lastPiece p) with
      | true =>
          rw [habs, if_pos rfl] at h
          rw [if_pos rfl]
          exact (denote_normalize_lastPiece p).symm.trans h
      | false =>
          rw [habs, if_neg Bool.false_ne_true] at h
          rw [if_neg Bool.false_ne_true]
          obtain ⟨c, hc, hp, -⟩ := splitLast_eq_some hsplit
          obtain rfl : c = '/' := of_decide_eq_true hc
          exact denote_slash_of_normalize hp h

/-- The parts of a path are the path again exactly when the last component has a dot or nothing
in the path has one, nothing is lost between the last slash and the last component, and
`normalize` keeps the meaning of what is shown. -/
theorem comesApart_iff (p : Str) : ComesApart p ↔
    ('.' ∈ lastPiece p ∨ '.' ∉ p) ∧ denote (shown p) = denote p ∧ KeepsMeaning (shown p) := by
  constructor
  · rintro ⟨hname, hpath⟩
    rw [join_parts] at hpath
    have hshown := denote_shown_of_normalize hpath
    exact ⟨(name_iff p).mp hname, hshown, (denote_normalize_iff _).mp (hpath.trans hshown.symm)⟩
  · rintro ⟨hname, hshown, hkeeps⟩
    refine ⟨(name_iff p).mpr hname, ?_⟩
    rw [join_parts]
    exact ((denote_normalize_iff _).mpr hkeeps).trans hshown

/-- The dot of a directory is taken for the one of an extension. -/
theorem not_comesApart_dot :
    lastPiece "a.b/c".toList ≠ [] ∧ ¬ ComesApart "a.b/c".toList := by
  refine ⟨by decide, fun h => ?_⟩
  exact absurd h.name (by decide)

example : ¬ ComesApart "a\\b".toList := fun h => absurd h.path (by decide)

end Path

end Path

end Puremake
