import Puremake.Lua.Str
import Puremake.UpWord.Blind

/-!
# What a path means

A path is read as an optional anchor, which is the root or a drive of one
letter, followed by components. Both separators cut components, empty
components and `.` mean nothing, `..` moves up and a component that starts with
`$` is opaque: it is never cancelled. `read p` is this reading, and the place
that a path denotes is the reading with every possible cancellation made.

Nothing here comes from the program. `Place` carries the fact that its
components are reduced, so two paths denote the same place exactly when their
places are equal.
-/

namespace Puremake

def isSeparator (c : Char) : Bool := c = '/' || c = '\\'

inductive Anchor
  | root
  | drive (letter : Char) (notSep : isSeparator letter = false)
  deriving DecidableEq, Repr

/-- The piece that stands for an anchor in a path that is cut at its
separators. -/
def Anchor.piece : Anchor → Str
  | .root => []
  | .drive x _ => [x, ':']

/-- The component `..`. -/
def dotdot : Str := ['.', '.']

/-- The component `.`. -/
def dot : Str := ['.']

def compRole (s : Str) : UpWord.Role :=
  if s = dotdot then .up else if s.head? = some '$' then .rigid else .plain

/-- A component that means something: not empty and not `.`. -/
def meaningful (s : Str) : Bool := s ≠ [] ∧ s ≠ dot

def driveOf : Str → Option Anchor
  | [x, c] => if h : isSeparator x = false ∧ c = ':' then some (.drive x h.1) else none
  | _ => none

def anchorOf : List Str → Option Anchor
  | [] => none
  | s :: t => if s = [] then if t = [] then none else some .root else driveOf s

/-- A path as it is read: an optional anchor and the meaningful components. -/
@[ext] structure Reading where
  anchor : Option Anchor
  comps : List Str
  deriving DecidableEq, Repr

def afterAnchor (ps : List Str) : List Str :=
  if (anchorOf ps).isSome then ps.tail else ps

def read (p : Str) : Reading :=
  ⟨anchorOf (pieces isSeparator p), (afterAnchor (pieces isSeparator p)).filter meaningful⟩

/-- A place: an optional anchor and components in which nothing is left to
cancel. -/
@[ext] structure Place where
  anchor : Option Anchor
  comps : List Str
  reduced : UpWord.reduce compRole anchor.isSome comps = comps
  deriving DecidableEq

def Reading.place (r : Reading) : Place where
  anchor := r.anchor
  comps := UpWord.reduce compRole r.anchor.isSome r.comps
  reduced := UpWord.reduce_reduce r.comps

def denote (p : Str) : Place := (read p).place

/-- A path that is read below a directory: an anchored path stands for itself,
a relative one continues the directory. -/
def Reading.under (d r : Reading) : Reading :=
  if r.anchor.isSome then r else ⟨d.anchor, d.comps ++ r.comps⟩

def IsComp (s : Str) : Prop :=
  s ≠ [] ∧ s ≠ dot ∧ ∀ c ∈ s, isSeparator c = false

instance (s : Str) : Decidable (IsComp s) :=
  have : Decidable (∀ c ∈ s, isSeparator c = false) := List.decidableBAll _ s
  inferInstanceAs (Decidable (_ ∧ _ ∧ _))

section Roles

@[simp] theorem compRole_dotdot : compRole dotdot = .up := rfl

theorem compRole_eq_up {s : Str} : compRole s = .up ↔ s = dotdot := by
  by_cases h : s = dotdot
  · simp [compRole, h]
  · by_cases h' : s.head? = some '$' <;> simp [compRole, h, h']

theorem compRole_eq_rigid {s : Str} : compRole s = .rigid ↔ s.head? = some '$' := by
  by_cases h : s = dotdot
  · subst h
    simp [compRole, dotdot]
  · by_cases h' : s.head? = some '$' <;> simp [compRole, h, h']

theorem isComp_dotdot : IsComp dotdot := by decide

theorem meaningful_of_isComp {s : Str} (h : IsComp s) : meaningful s = true := by
  simp [meaningful, h.1, h.2.1]

theorem isComp_of_mem_filter {s : Str} {ps : List Str}
    (hps : ∀ q ∈ ps, ∀ c ∈ q, isSeparator c = false) (h : s ∈ ps.filter meaningful) :
    IsComp s := by
  rw [List.mem_filter] at h
  obtain ⟨hmem, hmean⟩ := h
  rw [meaningful, decide_eq_true_iff] at hmean
  exact ⟨hmean.1, hmean.2, hps s hmem⟩

end Roles

section Read

theorem read_anchor (p : Str) : (read p).anchor = anchorOf (pieces isSeparator p) := rfl

theorem read_comps (p : Str) :
    (read p).comps = (afterAnchor (pieces isSeparator p)).filter meaningful := rfl

theorem isComp_of_mem_read {p s : Str} (h : s ∈ (read p).comps) : IsComp s := by
  rw [read_comps] at h
  refine isComp_of_mem_filter ?_ h
  intro q hq
  refine isSep_of_mem_pieces (s := p) ?_
  rw [afterAnchor] at hq
  split at hq
  · exact List.mem_of_mem_tail hq
  · exact hq

theorem driveOf_piece {x : Char} (hx : isSeparator x = false) :
    driveOf [x, ':'] = some (.drive x hx) := by
  simp [driveOf, hx]

/-- A component that comes first is a drive exactly when it is the piece of
one. -/
theorem driveOf_eq_some {s : Str} {a : Anchor} :
    driveOf s = some a ↔ s ≠ [] ∧ s = a.piece := by
  constructor
  · intro h
    match s, h with
    | [x, c], h =>
        rw [driveOf] at h
        split at h
        · rename_i hc
          obtain rfl := Option.some.inj h
          simp [Anchor.piece, hc.2]
        · cases h
  · rintro ⟨hne, rfl⟩
    cases a with
    | root => exact absurd rfl hne
    | drive x hx => exact driveOf_piece hx

theorem anchorOf_root {t : List Str} (ht : t ≠ []) : anchorOf ([] :: t) = some .root := by
  simp [anchorOf, ht]

theorem anchorOf_of_ne_nil {s : Str} (hs : s ≠ []) (t : List Str) :
    anchorOf (s :: t) = driveOf s := by
  simp [anchorOf, hs]

/-- The first piece of an anchored path is the piece of its anchor. -/
theorem head_of_anchorOf {s : Str} {t : List Str} {a : Anchor}
    (h : anchorOf (s :: t) = some a) : s = a.piece ∧ (a = .root → t ≠ []) := by
  rw [anchorOf] at h
  split at h
  · rename_i hs
    split at h
    · cases h
    · rename_i ht
      obtain rfl := Option.some.inj h
      exact ⟨hs, fun _ => ht⟩
  · rename_i hs
    obtain ⟨-, hpiece⟩ := driveOf_eq_some.mp h
    refine ⟨hpiece, ?_⟩
    rintro rfl
    exact absurd hpiece hs

theorem anchorOf_piece {a : Anchor} {t : List Str} (h : a = .root → t ≠ []) :
    anchorOf (a.piece :: t) = some a := by
  cases a with
  | root => exact anchorOf_root (h rfl)
  | drive x hx => exact (anchorOf_of_ne_nil (by simp [Anchor.piece]) t).trans (driveOf_piece hx)

theorem Anchor.not_sep_piece (a : Anchor) : ∀ c ∈ a.piece, isSeparator c = false := by
  intro c hc
  cases a with
  | root => simp [Anchor.piece] at hc
  | drive x hx =>
      simp only [Anchor.piece, List.mem_cons, List.not_mem_nil, or_false] at hc
      rcases hc with rfl | rfl
      · exact hx
      · decide

theorem filter_meaningful_eq_self {cs : List Str} (h : ∀ s ∈ cs, IsComp s) :
    cs.filter meaningful = cs :=
  List.filter_eq_self.mpr fun s hs => meaningful_of_isComp (h s hs)

theorem pieces_concat_slash {ps : List Str} (hne : ps ≠ [])
    (hps : ∀ p ∈ ps, ∀ c ∈ p, isSeparator c = false) :
    pieces isSeparator (concat '/' ps) = ps :=
  pieces_concat (by decide) hne hps

theorem read_concat_anchored {a : Anchor} {cs : List Str} (hcs : ∀ s ∈ cs, IsComp s)
    (hroot : a = .root → cs ≠ []) :
    read (concat '/' (a.piece :: cs)) = ⟨some a, cs⟩ := by
  have hpieces : pieces isSeparator (concat '/' (a.piece :: cs)) = a.piece :: cs := by
    refine pieces_concat_slash (by simp) fun q hq => ?_
    rcases List.mem_cons.mp hq with rfl | hq
    · exact a.not_sep_piece
    · exact (hcs q hq).2.2
  have hanchor : anchorOf (a.piece :: cs) = some a := anchorOf_piece hroot
  ext1
  · rw [read_anchor, hpieces, hanchor]
  · rw [read_comps, afterAnchor, hpieces, hanchor]
    exact filter_meaningful_eq_self hcs

theorem read_concat_relative {cs : List Str} (hcs : ∀ s ∈ cs, IsComp s)
    (hdrive : ∀ s ∈ cs.head?, driveOf s = none) :
    read (concat '/' cs) = ⟨none, cs⟩ := by
  cases cs with
  | nil => rfl
  | cons s cs =>
      have hpieces : pieces isSeparator (concat '/' (s :: cs)) = s :: cs :=
        pieces_concat_slash (by simp) fun q hq => (hcs q hq).2.2
      have hanchor : anchorOf (s :: cs) = none := by
        rw [anchorOf_of_ne_nil (hcs s (by simp)).1]
        exact hdrive s (by simp)
      ext1
      · rw [read_anchor, hpieces, hanchor]
      · rw [read_comps, afterAnchor, hpieces, hanchor]
        exact filter_meaningful_eq_self hcs

/-- A relative path whose first component is written like a drive is read as
anchored there. -/
theorem read_concat_driveLike {s : Str} {cs : List Str} {a : Anchor}
    (hcs : ∀ q ∈ cs, IsComp q) (ha : driveOf s = some a) :
    read (concat '/' (s :: cs)) = ⟨some a, cs⟩ := by
  obtain ⟨hne, rfl⟩ := driveOf_eq_some.mp ha
  refine read_concat_anchored hcs ?_
  rintro rfl
  exact absurd rfl hne

end Read

end Puremake
