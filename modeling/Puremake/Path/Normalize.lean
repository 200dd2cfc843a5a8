import Puremake.Path.Reading

/-!
# `wpath.split`, `wpath.parse` and `normalize`

The nix flavour of the path module: paths are cut at both separators and put
together with `/`. `WPath.normalize` first drops the empty components that are
neither first nor last, and then walks over the components with an index,
removing `.` and removing `..` together with whatever stands before it. The
list that is edited in place is modelled by the components before the index,
the nearest one first, and the components from the index on.

`Path.normalize` is the function of `puremake.path` that trims the result. Its
value is written out in `Path.normalize_eq`: the piece of the anchor followed
by the blind reduction of the components.
-/

namespace Puremake

namespace WPath

/-- The loop of `wpath.split`: `ps` holds the components found so far and `s`
the characters since the last separator. A second separator in a row adds no
component. -/
def splitLoop (ps : List Str) (s : Str) : Str → List Str
  | [] => ps ++ [s]
  | c :: p =>
      if isSeparator c then
        splitLoop (if s ≠ [] ∨ ps.getLast? ≠ some [] then ps ++ [s] else ps) [] p
      else splitLoop ps (s ++ [c]) p

def split (p : Str) : List Str := splitLoop [] [] p

def join (ps : List Str) : Str := concat '/' ps

/-- The named parts that `wpath.parse` finds in a path. -/
structure Parse where
  root : Option Str
  folder : Option Str
  name : Option Str
  ext : Option Str
  dir : Option Str
  file : Option Str
  path : Str
  deriving DecidableEq, Repr

def parseRoot : List Str → Option Str × List Str
  | [] => (none, [])
  | s :: ps =>
      if s = [] ∧ ps ≠ [] then (some ['/'], ps)
      else if s.length = 2 ∧ s[1]? = some ':' then (some (s ++ ['/']), ps)
      else (none, s :: ps)

/-- The name and the extension of a file: `string.find(file, ".[^.]*$")` finds
the last dot, or the first character when there is no dot; a match at the first
character is ignored. -/
def parseFile (file : Str) : Str × Option Str :=
  let ext := (file.reverse.takeWhile (· ≠ '.')).reverse
  let da := file.length - ext.length
  if 1 < da then (file.take (da - 1), some (file.drop (da - 1))) else (file, none)

def parse (p : Str) : Parse :=
  let (root, ps) := parseRoot (split p)
  let file := ps.getLast?
  let nameExt := file.map parseFile
  let ps := ps.dropLast
  let folder :=
    if ps = [] then none
    else some (concat '/' (if ps.getLast? ≠ some [] then ps ++ [[]] else ps))
  let dir := root.elim folder fun r => some (r ++ folder.getD [])
  { root, folder, name := nameExt.map (·.1), ext := nameExt.bind (·.2), dir, file,
    path := dir.getD [] ++ file.getD [] }

/-- The first loop of `wpath.normalize`, from the second component on: an empty
component that is not the last one is removed. -/
def removeDoubles : List Str → List Str
  | [] => []
  | [s] => [s]
  | s :: s' :: ps =>
      if s = [] then removeDoubles (s' :: ps) else s :: removeDoubles (s' :: ps)

/-- The second loop of `wpath.normalize`. The index is `before.length + 1`, and
`base` is 2 for a path with a root and 1 for a path without. -/
def cancelLoop (base : ℕ) (before : List Str) : List Str → List Str
  | [] => before.reverse
  | s :: after =>
      if s = dot then cancelLoop base before after
      else if s = dotdot then
        if base < before.length + 1 then cancelLoop base before.tail after
        else cancelLoop base (s :: before) after
      else cancelLoop base (s :: before) after

def normalize (p : Str) : Str :=
  let base := if (parse p).root.isSome then 2 else 1
  let ps := match split p with
    | [] => []
    | s :: ps => s :: removeDoubles ps
  join (cancelLoop base [] ps)

end WPath

namespace Path

/-- A leading `./` is cut off. -/
def trimDot (r : Str) : Str := if Str.startswith r ['.', '/'] then r.drop 2 else r

/-- A trailing `/` is cut off. -/
def trimSlash (r : Str) : Str := if Str.endsWithChar r '/' then r.dropLast else r

/-- The two trims at the end of `path.normalize`, `path.getabsolute` and
`path.getrelative`. -/
def trim (r : Str) : Str := trimSlash (trimDot r)

def normalize (p : Str) : Str := trim (WPath.normalize p)

end Path

namespace WPath

section Split

/-- What `splitLoop` does with the pieces of a text: each one but the last is
added unless it is empty and follows an empty component. -/
def pushPieces (ps : List Str) : List Str → List Str
  | [] => ps
  | [q] => ps ++ [q]
  | q :: q' :: qs =>
      pushPieces (if q ≠ [] ∨ ps.getLast? ≠ some [] then ps ++ [q] else ps) (q' :: qs)

theorem splitLoop_eq_pushPieces (ps : List Str) (s p : Str) :
    splitLoop ps s p = pushPieces ps ((pieces isSeparator p).modifyHead (s ++ ·)) := by
  induction p generalizing ps s with
  | nil => simp [splitLoop, pushPieces]
  | cons c p ih =>
      obtain ⟨h, t, heq⟩ := exists_pieces_eq_cons isSeparator p
      rw [splitLoop, pieces_cons]
      by_cases hc : isSeparator c = true
      · rw [if_pos hc, if_pos hc, ih, heq]
        simp [pushPieces]
      · rw [if_neg hc, if_neg hc, ih, heq]
        simp

theorem split_eq_pushPieces (p : Str) : split p = pushPieces [] (pieces isSeparator p) := by
  obtain ⟨h, t, heq⟩ := exists_pieces_eq_cons isSeparator p
  rw [split, splitLoop_eq_pushPieces, heq]
  rfl

/-- The first loop of `normalize` removes the empty components that are not
last. -/
theorem removeDoubles_eq (ps : List Str) :
    removeDoubles ps = ps.dropLast.filter (· ≠ []) ++ ps.getLast?.toList := by
  induction ps with
  | nil => rfl
  | cons s ps ih =>
      cases ps with
      | nil => simp [removeDoubles]
      | cons s' ps =>
          rw [removeDoubles, ih, List.dropLast_cons_cons, List.getLast?_cons_cons]
          by_cases hs : s = []
          · rw [if_pos hs, List.filter_cons_of_neg (by simp [hs])]
          · rw [if_neg hs, List.filter_cons_of_pos (by simp [hs]), List.cons_append]

theorem pushPieces_spec (ps : List Str) {qs : List Str} (hqs : qs ≠ []) :
    ∃ mid, pushPieces ps qs = ps ++ mid ∧ mid ≠ [] ∧
      removeDoubles mid = removeDoubles qs := by
  induction qs generalizing ps with
  | nil => exact absurd rfl hqs
  | cons q qs ih =>
      cases qs with
      | nil => exact ⟨[q], rfl, by simp, rfl⟩
      | cons q' qs =>
          rw [pushPieces]
          by_cases hq : q ≠ [] ∨ ps.getLast? ≠ some []
          · obtain ⟨mid, hpush, hne, hmid⟩ := ih (ps ++ [q]) (by simp)
            rw [if_pos hq]
            refine ⟨q :: mid, by simp [hpush], by simp, ?_⟩
            obtain ⟨m, ms, rfl⟩ := List.exists_cons_of_ne_nil hne
            rw [removeDoubles, removeDoubles, hmid]
          · obtain ⟨mid, hpush, hne, hmid⟩ := ih ps (by simp)
            rw [if_neg hq]
            have hnil : q = [] := by
              by_contra hcon
              exact hq (Or.inl hcon)
            exact ⟨mid, hpush, hne, by rw [removeDoubles, if_pos hnil, hmid]⟩

theorem pushPieces_of_ne_nil {ps qs : List Str} (hne : ∀ q ∈ qs.dropLast, q ≠ []) :
    pushPieces ps qs = ps ++ qs := by
  induction qs generalizing ps with
  | nil => simp [pushPieces]
  | cons q qs ih =>
      cases qs with
      | nil => rfl
      | cons q' qs =>
          rw [List.dropLast_cons_cons] at hne
          rw [pushPieces, if_pos (Or.inl (hne q (by simp))),
            ih fun r hr => hne r (by simp [hr])]
          simp

theorem mem_pushPieces {ps qs : List Str} {s : Str} (h : s ∈ pushPieces ps qs) :
    s ∈ ps ∨ s ∈ qs := by
  induction qs generalizing ps with
  | nil => exact .inl h
  | cons q qs ih =>
      cases qs with
      | nil => simpa [pushPieces] using h
      | cons q' qs =>
          rw [pushPieces] at h
          rcases ih h with h | h
          · split at h
            · rcases List.mem_append.mp h with h | h
              · exact .inl h
              · exact .inr (List.mem_singleton.mp h ▸ List.mem_cons_self)
            · exact .inl h
          · exact .inr (List.mem_cons_of_mem q h)

theorem mem_pieces_of_mem_split {p q : Str} (h : q ∈ split p) : q ∈ pieces isSeparator p := by
  rw [split_eq_pushPieces] at h
  exact (mem_pushPieces h).resolve_left List.not_mem_nil

theorem filter_meaningful_removeDoubles (t : List Str) :
    (removeDoubles t).filter meaningful = t.filter meaningful := by
  induction t with
  | nil => rfl
  | cons s t ih =>
      cases t with
      | nil => rfl
      | cons q t =>
          rw [removeDoubles]
          split
          · rename_i hs
            subst hs
            exact ih
          · rw [List.filter_cons, ih, ← List.filter_cons]

/-- `split` finds the first piece of a path, and after the first loop of
`normalize` it has found all the others. -/
theorem split_spec {p h : Str} {t : List Str} (hp : pieces isSeparator p = h :: t) :
    ∃ t', split p = h :: t' ∧ (t' = [] ↔ t = []) ∧
      removeDoubles t' = removeDoubles t := by
  rw [split_eq_pushPieces, hp]
  cases t with
  | nil => exact ⟨[], rfl, Iff.rfl, rfl⟩
  | cons q t =>
      obtain ⟨mid, hpush, hne, hmid⟩ := pushPieces_spec [h] (List.cons_ne_nil q t)
      refine ⟨mid, ?_, by simp [hne], hmid⟩
      rw [pushPieces, if_pos (by simp)]
      exact hpush

/-- `split` undoes `join` when none of the components that follow the first one
is empty, except possibly the last. -/
theorem split_join {s : Str} {ps : List Str} (hs : ∀ c ∈ s, isSeparator c = false)
    (hps : ∀ q ∈ ps, ∀ c ∈ q, isSeparator c = false) (hne : ∀ q ∈ ps.dropLast, q ≠ []) :
    split (join (s :: ps)) = s :: ps := by
  have hpieces : pieces isSeparator (join (s :: ps)) = s :: ps :=
    pieces_concat_slash (by simp) fun q hq => by
      rcases List.mem_cons.mp hq with rfl | hq
      · exact hs
      · exact hps q hq
  rw [split_eq_pushPieces, hpieces]
  cases ps with
  | nil => rfl
  | cons q ps =>
      rw [pushPieces, if_pos (by simp), pushPieces_of_ne_nil hne]
      simp

end Split

section Root

theorem parse_root (p : Str) : (parse p).root = (parseRoot (split p)).1 := rfl

/-- `parse` finds a root exactly in the paths that are read as anchored. -/
theorem parse_root_isSome (p : Str) :
    (parse p).root.isSome = (read p).anchor.isSome := by
  obtain ⟨h, t, hp⟩ := exists_pieces_eq_cons isSeparator p
  obtain ⟨t', hsplit, hnil, -⟩ := split_spec hp
  have hsep : ∀ c ∈ h, isSeparator c = false :=
    isSep_of_mem_pieces (s := p) (by simp [hp])
  rw [parse_root, hsplit, parseRoot, read_anchor, hp, anchorOf]
  by_cases hh : h = []
  · by_cases ht : t = []
    · simp [hh, ht, hnil.mpr ht]
    · simp [hh, ht, hnil]
  · rw [if_neg (by simp [hh]), if_neg hh]
    obtain ⟨x, h, rfl⟩ := List.exists_cons_of_ne_nil hh
    cases h with
    | nil => simp [driveOf]
    | cons c h =>
        cases h with
        | nil =>
            have hx : isSeparator x = false := hsep x (by simp)
            by_cases hc : c = ':' <;> simp [driveOf, hx, hc]
        | cons d h => simp [driveOf]

end Root

section Cancel

/-- The second loop of `normalize` is the blind reduction of the components
above the part that belongs to the anchor. -/
theorem cancelLoop_eq (fixed st after : List Str) :
    cancelLoop (fixed.length + 1) (st ++ fixed) after =
      fixed.reverse ++
        (UpWord.blindFrom compRole st (after.filter (· ≠ dot))).reverse := by
  induction after generalizing st with
  | nil => simp [cancelLoop]
  | cons s after ih =>
      rw [cancelLoop]
      by_cases hdot : s = dot
      · rw [if_pos hdot, ih, List.filter_cons_of_neg (by simp [hdot])]
      · rw [if_neg hdot, List.filter_cons_of_pos (by simp [hdot]),
          UpWord.blindFrom_cons]
        by_cases hup : s = dotdot
        · have hrole : compRole s = .up := compRole_eq_up.mpr hup
          rw [if_pos hup]
          cases st with
          | nil =>
              rw [if_neg (by simp), UpWord.pushBlind_up_nil hrole]
              exact ih [s]
          | cons y st =>
              have hlt : fixed.length + 1 < (y :: st ++ fixed).length + 1 := by
                rw [List.cons_append, List.length_cons, List.length_append]
                omega
              rw [if_pos hlt, UpWord.pushBlind_up_cons hrole]
              exact ih st
        · have hrole : compRole s ≠ .up := fun h => hup (compRole_eq_up.mp h)
          rw [if_neg hup, UpWord.pushBlind_of_ne_up hrole]
          exact ih (s :: st)

end Cancel

section Normalize

/-- The components of a path followed by an empty one when it ends in a
separator, or is empty. -/
def trail (p : Str) : List Str :=
  if (pieces isSeparator p).getLast? = some [] then [[]] else []

theorem filter_removeDoubles (t : List Str) :
    (removeDoubles t).filter (· ≠ dot) =
      t.filter meaningful ++ if t.getLast? = some [] then [[]] else [] := by
  rw [removeDoubles_eq]
  rcases List.eq_nil_or_concat t with rfl | ⟨init, last, rfl⟩
  · rfl
  · have hinit : (init.filter (· ≠ [])).filter (· ≠ dot) = init.filter meaningful := by
      rw [List.filter_filter]
      refine List.filter_congr fun s _ => ?_
      by_cases h₁ : s = [] <;> by_cases h₂ : s = dot <;> simp [meaningful, h₁, h₂]
    rw [List.concat_eq_append, List.dropLast_concat, List.getLast?_concat, List.filter_append,
      List.filter_append, hinit, List.append_assoc]
    congr 1
    by_cases h₁ : last = []
    · subst h₁
      rfl
    · by_cases h₂ : last = dot
      · subst h₂
        rfl
      · simp [meaningful, h₁, h₂]

theorem blindFrom_append_trail (st cs : List Str) (p : Str) :
    (UpWord.blindFrom compRole st (cs ++ trail p)).reverse =
      (UpWord.blindFrom compRole st cs).reverse ++ trail p := by
  rw [trail, UpWord.blindFrom_append]
  split
  · rw [UpWord.blindFrom_cons, UpWord.pushBlind_of_ne_up (by decide)]
    simp
  · simp

/-- What `wpath.normalize` returns: the piece of the anchor, the blind reduction
of the components, and an empty component for a separator at the end. -/
theorem normalize_eq (p : Str) :
    normalize p =
      join ((read p).anchor.toList.map Anchor.piece ++
        UpWord.blind compRole (read p).comps ++ trail p) := by
  obtain ⟨h, t, hp⟩ := exists_pieces_eq_cons isSeparator p
  obtain ⟨t', hsplit, -, hrem⟩ := split_spec hp
  have hread : (read p).anchor = anchorOf (h :: t) := by rw [read_anchor, hp]
  rw [normalize, hsplit, parse_root_isSome]
  simp only [hrem]
  cases ha : (read p).anchor with
  | some a =>
      obtain ⟨rfl, hroot⟩ := head_of_anchorOf (hread.symm.trans ha)
      have hcomps : (read p).comps = t.filter meaningful := by
        rw [read_comps, afterAnchor, ← read_anchor, ha, hp]
        rfl
      have hdot : a.piece ≠ dot := by cases a <;> simp [Anchor.piece, dot]
      have hdotdot : a.piece ≠ dotdot := by
        cases a <;> simp [Anchor.piece, dotdot]
      have htrail : (if t.getLast? = some [] then [[]] else []) = trail p := by
        rw [trail, hp]
        cases t with
        | nil => cases a with
          | root => exact absurd rfl (hroot rfl)
          | drive x hx => rfl
        | cons q t => rw [List.getLast?_cons_cons]
      have hloop := cancelLoop_eq [a.piece] [] (removeDoubles t)
      rw [filter_removeDoubles, htrail, blindFrom_append_trail, ← hcomps] at hloop
      rw [cancelLoop, if_neg hdot, if_neg hdotdot, if_pos (by rfl)]
      simpa [UpWord.blind] using congrArg join hloop
  | none =>
      have hne : t ≠ [] → h ≠ [] := by
        rintro ht rfl
        rw [ha, anchorOf_root ht] at hread
        cases hread
      have hcomps : (read p).comps = (h :: t).filter meaningful := by
        rw [read_comps, afterAnchor, ← read_anchor, ha, hp]
        rfl
      have hcons : h :: removeDoubles t = removeDoubles (h :: t) := by
        cases t with
        | nil => rfl
        | cons q t => rw [removeDoubles, if_neg (hne (by simp))]
      have hloop := cancelLoop_eq [] [] (removeDoubles (h :: t))
      rw [filter_removeDoubles, ← hp, ← trail, hp, blindFrom_append_trail, ← hcomps] at hloop
      rw [hcons]
      simpa [UpWord.blind] using congrArg join hloop

end Normalize

end WPath

namespace Path

open WPath

theorem not_startswith_dot_slash {r : Str} {h : Str} {t : List Str}
    (hr : pieces isSeparator r = h :: t) (hh : h ≠ dot) :
    Str.startswith r ['.', '/'] = false := by
  cases hs : Str.startswith r ['.', '/'] with
  | false => rfl
  | true =>
      obtain ⟨u, rfl⟩ := Str.startswith_iff.mp hs
      rw [List.cons_append, List.cons_append, pieces_cons, if_neg (by decide), pieces_cons,
        if_pos (by decide)] at hr
      exact absurd (List.cons.inj hr).1.symm hh

theorem not_endsWithChar_slash {r : Str} {ps : List Str} (hr : pieces isSeparator r = ps)
    (hps : ps.length ≤ 1 ∨ ps.getLast? ≠ some []) : Str.endsWithChar r '/' = false := by
  cases hs : Str.endsWithChar r '/' with
  | false => rfl
  | true =>
      obtain ⟨u, rfl⟩ := List.getLast?_eq_some_iff.mp (Str.endsWithChar_iff.mp hs)
      rw [pieces_append_pieces u (by decide) []] at hr
      subst hr
      obtain ⟨h, t, heq⟩ := exists_pieces_eq_cons isSeparator u
      rcases hps with hps | hps
      · simp [heq] at hps
      · simp at hps

theorem trimSlash_append_slash (r : Str) : trimSlash (r ++ ['/']) = r := by
  simp [trimSlash, Str.endsWithChar]

theorem join_append_nil {ps : List Str} (hps : ps ≠ []) :
    join (ps ++ [[]]) = join ps ++ ['/'] := by
  rw [join, concat_append hps (by simp), concat_singleton]
  rfl

/-- `trimSlash` cuts off exactly the separator at the end of a path that is put
together from components. -/
theorem trimSlash_join {ps : List Str} (hsep : ∀ q ∈ ps, ∀ c ∈ q, isSeparator c = false)
    (hlast : ps.length ≤ 1 ∨ ps.getLast? ≠ some []) (p : Str) :
    trimSlash (join (ps ++ trail p)) = join ps := by
  by_cases hps : ps = []
  · subst hps
    rw [trail]
    split <;> rfl
  · rw [trail]
    split
    · rw [join_append_nil hps, trimSlash_append_slash]
    · have hend : Str.endsWithChar (join ps) '/' = false :=
        not_endsWithChar_slash (pieces_concat_slash hps hsep) hlast
      simp [trimSlash, hend]

theorem trimDot_join {ps : List Str} (hsep : ∀ q ∈ ps, ∀ c ∈ q, isSeparator c = false)
    (hhead : ps.head? ≠ some dot) (p : Str) :
    trimDot (join (ps ++ trail p)) = join (ps ++ trail p) := by
  have hstart : Str.startswith (join (ps ++ trail p)) ['.', '/'] = false := by
    cases ps with
    | nil =>
        rw [trail]
        split <;> rfl
    | cons h t =>
        have hpieces : pieces isSeparator (join (h :: t ++ trail p)) = h :: (t ++ trail p) :=
          pieces_concat_slash (by simp) fun q hq => by
            rcases List.mem_append.mp hq with hq | hq
            · exact hsep q hq
            · rw [trail] at hq
              split at hq <;> simp_all
        exact not_startswith_dot_slash hpieces (by simpa using hhead)
  simp [trimDot, hstart]

/-- The trims cut off exactly the separator at the end of a path that is put
together from components and does not begin with `.`. -/
theorem trim_join {ps : List Str} (hsep : ∀ q ∈ ps, ∀ c ∈ q, isSeparator c = false)
    (hhead : ps.head? ≠ some dot) (hlast : ps.length ≤ 1 ∨ ps.getLast? ≠ some [])
    (p : Str) : trim (join (ps ++ trail p)) = join ps := by
  rw [trim, trimDot_join hsep hhead, trimSlash_join hsep hlast]

/-- The pieces that `normalize` puts together. -/
def normalPieces (r : Reading) : List Str :=
  r.anchor.toList.map Anchor.piece ++ UpWord.blind compRole r.comps

theorem isComp_of_mem_blind {p s : Str} (h : s ∈ UpWord.blind compRole (read p).comps) :
    IsComp s :=
  isComp_of_mem_read (UpWord.mem_of_mem_blind h)

theorem not_sep_of_mem_normalPieces {r : Reading} (hr : ∀ s ∈ r.comps, IsComp s) :
    ∀ q ∈ normalPieces r, ∀ c ∈ q, isSeparator c = false := by
  intro q hq
  rcases List.mem_append.mp hq with hq | hq
  · obtain ⟨a, -, rfl⟩ := List.mem_map.mp hq
    exact a.not_sep_piece
  · exact (hr q (UpWord.mem_of_mem_blind hq)).2.2

theorem head_normalPieces_ne_dot {r : Reading} (hr : ∀ s ∈ r.comps, IsComp s) :
    (normalPieces r).head? ≠ some dot := by
  cases ha : r.anchor with
  | some a => cases a <;> simp [normalPieces, ha, Anchor.piece, dot]
  | none =>
      intro h
      have hmem : dot ∈ UpWord.blind compRole r.comps := by
        simpa [normalPieces, ha] using List.mem_of_mem_head? h
      exact (hr dot (UpWord.mem_of_mem_blind hmem)).2.1 rfl

theorem getLast_normalPieces {r : Reading} (hr : ∀ s ∈ r.comps, IsComp s) :
    (normalPieces r).length ≤ 1 ∨ (normalPieces r).getLast? ≠ some [] := by
  rcases List.eq_nil_or_concat (UpWord.blind compRole r.comps) with hb | ⟨init, last, hb⟩
  · left
    cases ha : r.anchor <;> simp [normalPieces, ha, hb]
  · right
    have hmem : last ∈ UpWord.blind compRole r.comps := by simp [hb]
    have hne : last ≠ [] := (hr last (UpWord.mem_of_mem_blind hmem)).1
    simp [normalPieces, hb, hne]

theorem trim_wnormalize_eq (p : Str) :
    trim (WPath.normalize p) = join (normalPieces (read p)) := by
  have hcomps : ∀ s ∈ (read p).comps, IsComp s := fun s => isComp_of_mem_read
  rw [WPath.normalize_eq]
  exact trim_join (not_sep_of_mem_normalPieces hcomps) (head_normalPieces_ne_dot hcomps)
    (getLast_normalPieces hcomps) p

/-- What `path.normalize` returns: the piece of the anchor and the blind
reduction of the components. -/
theorem normalize_eq (p : Str) : normalize p = join (normalPieces (read p)) :=
  trim_wnormalize_eq p

end Path

end Puremake
