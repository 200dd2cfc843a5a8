import Puremake.Path.Normalize

/-!
# `wpath.parse` and back

The four parts that `wpath.parse` numbers are the path again when they are written one behind
the other, and that path is read like the one that was parsed: only doubled separators are gone,
and a drive by itself has got its separator. `wpath.join` does not do this: it puts a separator
between the parts, which have their separators already.
-/

namespace Puremake

namespace WPath

/-- The parts `[1]` to `[4]` of a path that is parsed. -/
def Parse.parts (r : Parse) : List Str :=
  [r.root.getD [], r.folder.getD [], r.name.getD [], r.ext.getD []]

/-- What the documentation of `wpath.parse` says about the parts of a path. -/
structure Reversible (p : Str) : Prop where
  path_eq : (parse p).parts.flatten = (parse p).path
  denote_path : denote (parse p).path = denote p
  join_parts : join (parse p).parts = (parse p).path

section Parts

theorem parseFile_append (file : Str) :
    (parseFile file).1 ++ (parseFile file).2.getD [] = file := by
  unfold parseFile
  dsimp only
  split
  · exact List.take_append_drop _ _
  · exact List.append_nil file

theorem elim_getD (root folder : Option Str) :
    (root.elim folder fun r => some (r ++ folder.getD [])).getD [] =
      root.getD [] ++ folder.getD [] := by
  cases root <;> rfl

/-- The parts are the path when they are written one behind the other. -/
theorem flatten_parts (p : Str) : (parse p).parts.flatten = (parse p).path := by
  have hpath : (parse p).path =
      (parse p).root.getD [] ++ (parse p).folder.getD [] ++ (parse p).file.getD [] := by
    unfold parse
    dsimp only
    rw [elim_getD]
  have hfile : (parse p).name.getD [] ++ (parse p).ext.getD [] = (parse p).file.getD [] := by
    unfold parse
    dsimp only
    cases (parseRoot (split p)).2.getLast? with
    | none => rfl
    | some file => exact parseFile_append file
  rw [hpath, ← hfile, Parse.parts]
  simp

theorem length_join_parts (r : Parse) :
    (join r.parts).length = r.parts.flatten.length + 3 := by
  simp [join, Parse.parts, concat_cons_cons]
  omega

end Parts

section PathOfParts

/-- The components of a folder, without the empty one that its last separator leaves. -/
def folderPieces (ps : List Str) : List Str :=
  if ps.getLast? = some [] then ps.dropLast else ps

theorem folder_append (ps : List Str) (file : Str) :
    (if ps = [] then none
      else some (concat '/' (if ps.getLast? ≠ some [] then ps ++ [[]] else ps))).getD [] ++ file =
      concat '/' (folderPieces ps ++ [file]) := by
  by_cases hnil : ps = []
  · subst hnil
    exact (concat_singleton file).symm
  have hslash : ∀ qs : List Str, concat '/' (qs ++ [[]]) ++ file = concat '/' (qs ++ [file]) := by
    intro qs
    by_cases hqs : qs = []
    · subst hqs
      simp
    · rw [concat_append hqs (List.cons_ne_nil _ _), concat_append hqs (List.cons_ne_nil _ _)]
      simp
  rw [if_neg hnil, Option.getD_some, folderPieces]
  by_cases hlast : ps.getLast? = some []
  · obtain ⟨qs, rfl⟩ := List.getLast?_eq_some_iff.mp hlast
    rw [if_neg (not_not_intro hlast), if_pos hlast, List.dropLast_concat, hslash]
  · rw [if_pos hlast, if_neg hlast, hslash]

theorem filter_folderPieces (ps : List Str) :
    (folderPieces ps).filter meaningful = ps.filter meaningful := by
  rw [folderPieces]
  split
  · rename_i hlast
    obtain ⟨qs, rfl⟩ := List.getLast?_eq_some_iff.mp hlast
    rw [List.dropLast_concat, List.filter_append, List.filter_singleton]
    simp [meaningful]
  · rfl

theorem mem_folderPieces {ps : List Str} {s : Str} (h : s ∈ folderPieces ps) : s ∈ ps := by
  rw [folderPieces] at h
  split at h
  · exact List.dropLast_subset _ h
  · exact h

theorem folderPieces_cons {s : Str} (hs : s ≠ []) (ps : List Str) :
    folderPieces (s :: ps) = s :: folderPieces ps := by
  cases ps with
  | nil => exact if_neg (by simpa using hs)
  | cons q ps =>
      rw [folderPieces, folderPieces, List.getLast?_cons_cons, List.dropLast_cons_cons]
      exact (apply_ite (s :: ·) _ _ _).symm

theorem path_eq (p : Str) : (parse p).path =
    (parseRoot (split p)).1.getD [] ++
      concat '/' (folderPieces (parseRoot (split p)).2.dropLast ++
        [(parseRoot (split p)).2.getLast?.getD []]) := by
  unfold parse
  dsimp only
  rw [elim_getD, List.append_assoc, folder_append]

/-- The path of the parts has the first piece of the path that was parsed, and behind it the
same pieces with a meaning. -/
theorem pieces_path {p s : Str} {ps : List Str} (hsplit : split p = s :: ps)
    (hsep : ∀ q ∈ s :: ps, ∀ c ∈ q, isSeparator c = false) :
    ∃ u, pieces isSeparator (parse p).path = s :: u ∧ (s = [] → (ps = [] ↔ u = [])) ∧
      u.filter meaningful = ps.filter meaningful := by
  have hlast : ∀ qs : List Str,
      (folderPieces qs.dropLast ++ [qs.getLast?.getD []]).filter meaningful =
        qs.filter meaningful := by
    intro qs
    rw [List.filter_append, filter_folderPieces, ← List.filter_append]
    rcases List.eq_nil_or_concat qs with rfl | ⟨qs, q, rfl⟩
    · rfl
    · simp
  have hmem : ∀ q ∈ folderPieces ps.dropLast ++ [ps.getLast?.getD []], q ∈ ps ∨ q = [] := by
    intro q hq
    rcases List.mem_append.mp hq with hq | hq
    · exact .inl (List.dropLast_subset _ (mem_folderPieces hq))
    · rw [List.mem_singleton.mp hq]
      cases hps : ps.getLast? with
      | none => exact .inr rfl
      | some r => exact .inl (List.mem_of_getLast? hps)
  have hpieces : pieces isSeparator
      (concat '/' (s :: (folderPieces ps.dropLast ++ [ps.getLast?.getD []]))) =
        s :: (folderPieces ps.dropLast ++ [ps.getLast?.getD []]) := by
    refine pieces_concat_slash (List.cons_ne_nil _ _) fun q hq => ?_
    rcases List.mem_cons.mp hq with rfl | hq
    · exact hsep _ List.mem_cons_self
    · rcases hmem q hq with hq | rfl
      · exact hsep q (List.mem_cons_of_mem _ hq)
      · exact fun c hc => absurd hc List.not_mem_nil
  have hconcat : concat '/' (s :: (folderPieces ps.dropLast ++ [ps.getLast?.getD []])) =
      (s ++ ['/']) ++ concat '/' (folderPieces ps.dropLast ++ [ps.getLast?.getD []]) := by
    rw [concat_cons (by simp)]
    simp
  rw [path_eq, hsplit, parseRoot]
  split
  · rename_i hroot
    obtain ⟨rfl, hps⟩ := hroot
    refine ⟨_, (congrArg _ hconcat.symm).trans hpieces, fun _ => ?_, hlast ps⟩
    exact iff_of_false hps (by simp)
  · rename_i hroot
    split
    · rename_i hdrive
      refine ⟨_, (congrArg _ hconcat.symm).trans hpieces, ?_, hlast ps⟩
      rintro rfl
      cases hdrive.1
    · cases ps with
      | nil =>
          have hfile : [] ++ concat '/' (folderPieces [] ++ [s]) = s :=
            @concat_singleton '/' s
          refine ⟨[], (congrArg _ hfile).trans ?_, fun _ => Iff.rfl, rfl⟩
          exact pieces_of_forall_not_sep (hsep s List.mem_cons_self)
      | cons q ps =>
          have hs : s ≠ [] := fun hs => hroot ⟨hs, List.cons_ne_nil _ _⟩
          refine ⟨_, ?_, fun h => absurd h hs, hlast (q :: ps)⟩
          dsimp only
          rw [List.dropLast_cons_cons, List.getLast?_cons_cons, folderPieces_cons hs]
          exact hpieces

/-- Paths with the same first piece and the same pieces with a meaning are read alike. -/
theorem read_eq_of_pieces {p q s : Str} {t u : List Str} (hp : pieces isSeparator p = s :: t)
    (hq : pieces isSeparator q = s :: u) (hnil : s = [] → (t = [] ↔ u = []))
    (hfilter : t.filter meaningful = u.filter meaningful) : read p = read q := by
  have hanchor : anchorOf (s :: t) = anchorOf (s :: u) := by
    rw [anchorOf, anchorOf]
    by_cases hs : s = []
    · rw [if_pos hs, if_pos hs, if_congr (hnil hs) rfl rfl]
    · rw [if_neg hs, if_neg hs]
  ext1
  · rw [read_anchor, read_anchor, hp, hq, hanchor]
  · rw [read_comps, read_comps, hp, hq, afterAnchor, afterAnchor, hanchor]
    split
    · exact hfilter
    · rw [List.filter_cons, List.filter_cons, hfilter]

theorem read_path (p : Str) : read (parse p).path = read p := by
  obtain ⟨h, t, hp⟩ := exists_pieces_eq_cons isSeparator p
  obtain ⟨t', hsplit, hnil, hdoubles⟩ := split_spec hp
  have hsep : ∀ q ∈ h :: t', ∀ c ∈ q, isSeparator c = false := by
    intro q hq
    exact isSep_of_mem_pieces (mem_pieces_of_mem_split (hsplit ▸ hq))
  obtain ⟨u, hu, hunil, hufilter⟩ := pieces_path hsplit hsep
  refine read_eq_of_pieces hu hp (fun hh => (hunil hh).symm.trans hnil) ?_
  rw [hufilter, ← filter_meaningful_removeDoubles, hdoubles, filter_meaningful_removeDoubles]

end PathOfParts

/-- The first two laws hold for every path, and the third one for none. -/
theorem not_reversible (p : Str) : (parse p).parts.flatten = (parse p).path ∧
    denote (parse p).path = denote p ∧ ¬ Reversible p := by
  have hconcat := flatten_parts p
  refine ⟨hconcat, congrArg Reading.place (read_path p), fun h => ?_⟩
  have hlen := length_join_parts (parse p)
  rw [h.join_parts, ← hconcat] at hlen
  omega

/-- The example of the documentation. -/
theorem not_reversible_file : ¬ Reversible "/home/user/file.txt".toList := by
  intro h
  exact absurd h.join_parts (by decide)

end WPath

end Puremake
