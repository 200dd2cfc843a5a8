import Puremake.Path.Below
import Puremake.Path.Leads
import Puremake.Path.Names

/-!
# Paths from the current directory

A generated file is written to a path from the current directory. The steps to it depend on
the directory before its last piece only, unless the current directory is reached through
that piece: then there is nothing but steps back. So two paths that differ in their last
piece are written alike when neither of them leads through the current directory.
-/

namespace Puremake

namespace Path

open WPath

def here (cwd p : Str) : Str := getrelative cwd cwd p

/-- The path of the current directory, or of a directory above it. -/
def AtOrAbove (cwd p : Str) : Prop :=
  (resolved cwd p).anchor = (read cwd).anchor ∧ kept (resolved cwd p) <+: kept (read cwd)

instance (cwd p : Str) : Decidable (AtOrAbove cwd p) := inferInstanceAs (Decidable (_ ∧ _))

/-- A path that can be a file: the last piece is a name. -/
def IsFile (p : Str) : Prop :=
  ∀ q ∈ (pieces isSeparator p).getLast?, meaningful q = true ∧ q ≠ dotdot

instance (p : Str) : Decidable (IsFile p) := inferInstanceAs (Decidable (∀ q ∈ _, _))

/-- A path that goes on below a directory, when both are read from the current directory
and every `..` cancels what stands before it. -/
def LiesIn (cwd p dir : Str) : Prop :=
  (resolved cwd p).anchor = (resolved cwd dir).anchor ∧
    kept (resolved cwd dir) <+: kept (resolved cwd p) ∧
    kept (resolved cwd dir) ≠ kept (resolved cwd p)

instance (cwd p dir : Str) : Decidable (LiesIn cwd p dir) :=
  inferInstanceAs (Decidable (_ ∧ _ ∧ _))

/-- A last piece that names something in the directory before it. -/
def IsTail (q : Str) : Prop := IsComp q ∧ q ≠ dotdot ∧ driveOf q = none

instance (q : Str) : Decidable (IsTail q) := inferInstanceAs (Decidable (_ ∧ _ ∧ _))

def lead (ps : List Str) : Reading :=
  ⟨anchorOf (ps ++ [dot]), (afterAnchor (ps ++ [dot])).filter meaningful⟩

/-- The directory before the last piece of a path that was normalized. -/
def front (cwd : Str) (ps : List Str) : Reading :=
  (read cwd).under (lead (normalPieces (lead ps)))

def approach (cwd : Str) (ps : List Str) : List Str :=
  if CommonRoot (read cwd) (front cwd ps) then steps (read cwd) (front cwd ps)
  else normalPieces (lead ps)

section Tail

variable {cwd p q : Str} {ps : List Str}

theorem compRole_of_isTail (hq : IsTail q) : compRole q ≠ .up := fun h =>
  hq.2.1 (compRole_eq_up.mp h)

theorem reading_tail (hq : IsTail q) :
    (⟨anchorOf (ps ++ [q]), (afterAnchor (ps ++ [q])).filter meaningful⟩ : Reading) =
      ⟨(lead ps).anchor, (lead ps).comps ++ [q]⟩ := by
  have hmean : [q].filter meaningful = [q] :=
    List.filter_cons_of_pos (meaningful_of_isComp hq.1)
  have hdot : [dot].filter meaningful = [] := rfl
  by_cases hps : ps ≠ [] ∧ ps ≠ [[]]
  · rw [lead, reading_append hps, reading_append hps, hmean, hdot, List.append_nil]
  · have hcases : ps = [] ∨ ps = [[]] := by
      by_cases hnil : ps = []
      · exact Or.inl hnil
      · exact Or.inr (by_contra fun h => hps ⟨hnil, h⟩)
    rcases hcases with rfl | rfl
    · have hanchor : anchorOf [q] = none := (anchorOf_of_ne_nil hq.1.1 []).trans hq.2.2
      have hlead : lead [] = ⟨none, []⟩ := rfl
      simp only [List.nil_append, hanchor, afterAnchor, hlead, Option.isSome_none,
        Bool.false_eq_true, if_false, hmean]
    · have hlead : lead [[]] = ⟨some .root, []⟩ := rfl
      have hanchor : anchorOf [[], q] = some .root := anchorOf_root (List.cons_ne_nil q [])
      simp only [List.singleton_append, hanchor, afterAnchor, hlead, Option.isSome_some,
        if_true, List.tail_cons, hmean, List.nil_append]

theorem read_tail (hp : pieces isSeparator p = ps ++ [q]) (hq : IsTail q) :
    read p = ⟨(lead ps).anchor, (lead ps).comps ++ [q]⟩ := by
  rw [← reading_tail hq, read, hp]

theorem normalize_tail (hp : pieces isSeparator p = ps ++ [q]) (hq : IsTail q) :
    normalize p = concat '/' (normalPieces (lead ps) ++ [q]) := by
  rw [normalize_eq, read_tail hp hq, normalPieces_append hq.2.1]
  rfl

theorem pieces_normalize_tail (hp : pieces isSeparator p = ps ++ [q]) (hq : IsTail q) :
    pieces isSeparator (normalize p) = normalPieces (lead ps) ++ [q] := by
  rw [normalize_tail hp hq]
  refine pieces_concat_slash (by simp) fun s hs => ?_
  have hmem : s ∈ settled p := by
    rw [settled, read_tail hp hq, normalPieces_append hq.2.1]
    exact hs
  exact not_sep_of_mem_settled hmem

theorem under_append (r s : Reading) (q : Str) :
    r.under ⟨s.anchor, s.comps ++ [q]⟩ = ⟨(r.under s).anchor, (r.under s).comps ++ [q]⟩ := by
  rw [Reading.under, Reading.under]
  split
  · rfl
  · simp

theorem resolved_tail (hp : pieces isSeparator p = ps ++ [q]) (hq : IsTail q) :
    resolved cwd (normalize p) = ⟨(front cwd ps).anchor, (front cwd ps).comps ++ [q]⟩ := by
  rw [resolved, read_tail (pieces_normalize_tail hp hq) hq, under_append]
  rfl

theorem kept_append (a : Option Anchor) (cs : List Str) (hq : compRole q ≠ .up) :
    kept ⟨a, cs ++ [q]⟩ = kept ⟨a, cs⟩ ++ [q] := by
  have hrole : ∀ x ∈ [q], compRole x ≠ .up := fun x hx => (List.mem_singleton.mp hx) ▸ hq
  rw [kept, kept, UpWord.blind, UpWord.blind, UpWord.blindFrom_append,
    UpWord.blindFrom_of_ne_up hrole]
  simp

theorem kept_tail (hp : pieces isSeparator p = ps ++ [q]) (hq : IsTail q) :
    kept (resolved cwd (normalize p)) = kept (front cwd ps) ++ [q] := by
  rw [resolved_tail hp hq, kept_append _ _ (compRole_of_isTail hq)]

theorem atOrAbove_tail (hp : pieces isSeparator p = ps ++ [q]) (hq : IsTail q) :
    AtOrAbove cwd (normalize p) ↔ (front cwd ps).anchor = (read cwd).anchor ∧
      kept (front cwd ps) ++ [q] <+: kept (read cwd) := by
  rw [AtOrAbove, kept_tail hp hq, resolved_tail hp hq]

end Tail

section Common

/-- A path that leaves another one before its last piece has no more in common with it than
without that piece. -/
theorem common_append_of_not_initial {as bs : List Str} {q : Str} (h : ¬ bs ++ [q] <+: as) :
    common as (bs ++ [q]) = common as bs := by
  induction as generalizing bs with
  | nil => cases bs <;> rfl
  | cons a as ih =>
      cases bs with
      | nil =>
          have hne : a ≠ q := by
            rintro rfl
            exact h ⟨as, rfl⟩
          simp [common, hne]
      | cons b bs =>
          rw [List.cons_append, common, common]
          by_cases hab : a = b
          · subst hab
            rw [if_pos rfl, if_pos rfl, ih]
            intro hpre
            exact h (List.cons_prefix_cons.mpr ⟨rfl, hpre⟩)
          · rw [if_neg hab, if_neg hab]

theorem common_of_initial {as bs : List Str} (h : bs <+: as) : common as bs = bs.length := by
  induction bs generalizing as with
  | nil => cases as <;> rfl
  | cons b bs ih =>
      obtain ⟨t, rfl⟩ := h
      rw [List.cons_append, common, if_pos rfl, ih ⟨t, rfl⟩, List.length_cons]

end Common

section Here

variable {cwd p p' q q' : Str} {c : Anchor} {ps : List Str}

theorem resolved_self (hc : (read cwd).anchor = some c) : resolved cwd cwd = read cwd := by
  rw [resolved, Reading.under, hc]
  rfl

theorem trim_normalize (p : Str) : trim (normalize p) = normalize p := by
  have hcomps : ∀ s ∈ (read p).comps, IsComp s := fun s => isComp_of_mem_read
  have htrail : trail dot = [] := rfl
  have htrim := trim_join (not_sep_of_mem_normalPieces hcomps) (head_normalPieces_ne_dot hcomps)
    (getLast_normalPieces hcomps) dot
  rw [htrail, List.append_nil] at htrim
  rw [normalize_eq, htrim]

theorem not_sep_of_mem_approach (hp : pieces isSeparator p = ps ++ [q]) (hq : IsTail q) {s : Str}
    (hs : s ∈ approach cwd ps ++ [q]) : ∀ x ∈ s, isSeparator x = false := by
  rcases List.mem_append.mp hs with hs | hs
  · rw [approach] at hs
    split at hs
    · rcases List.mem_append.mp hs with hs | hs
      · rw [List.eq_of_mem_replicate hs]
        exact forall_mem_of_all (by decide)
      · have hmem : s ∈ kept (resolved cwd (normalize p)) := by
          rw [kept_tail hp hq]
          exact List.mem_append_left _ (List.mem_of_mem_drop hs)
        exact (isComp_of_mem_kept hmem).2.2
    · have hmem : s ∈ settled p := by
        rw [settled, read_tail hp hq, normalPieces_append hq.2.1]
        exact List.mem_append_left _ hs
      exact not_sep_of_mem_settled hmem
  · rw [List.mem_singleton.mp hs]
    exact hq.1.2.2

theorem lead_tail (ps : List Str) (hq : IsTail q) :
    lead (ps ++ [q]) = ⟨(lead ps).anchor, (lead ps).comps ++ [q]⟩ := by
  have hne : ps ++ [q] ≠ [] ∧ ps ++ [q] ≠ [[]] := by
    refine ⟨by simp, fun h => hq.1.1 ?_⟩
    have hlast := congrArg List.getLast? h
    simpa using hlast
  have hdot : [dot].filter meaningful = [] := rfl
  rw [← reading_tail hq, lead, reading_append hne, hdot, List.append_nil]

theorem front_tail (hp : pieces isSeparator p = ps ++ [q]) (hq : IsTail q) :
    front cwd (ps ++ [q]) = resolved cwd (normalize p) := by
  rw [resolved_tail hp hq, front, lead_tail ps hq, normalPieces_append hq.2.1, lead_tail _ hq,
    under_append]
  rfl

theorem commonRoot_of_not_atOrAbove (hp : pieces isSeparator p = ps ++ [q]) (hq : IsTail q)
    (h : ¬ AtOrAbove cwd (normalize p)) :
    CommonRoot (read cwd) (resolved cwd (normalize p)) ↔
      CommonRoot (read cwd) (front cwd ps) := by
  rw [atOrAbove_tail hp hq] at h
  rw [CommonRoot, CommonRoot, kept_tail hp hq, resolved_tail hp hq]
  refine and_congr_right fun hanchor => ?_
  rw [common_append_of_not_initial fun hpre => h ⟨hanchor.symm, hpre⟩]

/-- A path that does not lead through the current directory goes on with its last piece. -/
theorem approach_of_not_atOrAbove (hp : pieces isSeparator p = ps ++ [q]) (hq : IsTail q)
    (h : ¬ AtOrAbove cwd (normalize p)) :
    approach cwd (ps ++ [q]) = approach cwd ps ++ [q] := by
  have hkept := @kept_tail cwd p q ps hp hq
  have hroot := commonRoot_of_not_atOrAbove hp hq h
  rw [atOrAbove_tail hp hq] at h
  rw [approach, approach, front_tail hp hq]
  by_cases hcommon : CommonRoot (read cwd) (front cwd ps)
  · have hpre : ¬ kept (front cwd ps) ++ [q] <+: kept (read cwd) := fun hpre =>
      h ⟨hcommon.1.symm, hpre⟩
    rw [if_pos hcommon, if_pos (hroot.mpr hcommon), steps, steps, hkept,
      common_append_of_not_initial hpre, List.drop_append_of_le_length (common_le_right _ _),
      List.append_assoc]
  · rw [if_neg hcommon, if_neg (hroot.not.mpr hcommon), lead_tail ps hq,
      normalPieces_append hq.2.1]

/-- A path that leads through the current directory is steps back from there. -/
theorem approach_of_atOrAbove (hp : pieces isSeparator p = ps ++ [q]) (hq : IsTail q)
    (h : AtOrAbove cwd (normalize p)) :
    CommonRoot (read cwd) (resolved cwd (normalize p)) ∧
      approach cwd (ps ++ [q]) = List.replicate
        ((kept (read cwd)).length - (kept (resolved cwd (normalize p))).length) dotdot := by
  have hcommon := common_of_initial h.2
  have hroot : CommonRoot (read cwd) (resolved cwd (normalize p)) := by
    refine ⟨h.1.symm, fun _ => ?_⟩
    rw [hcommon, kept_tail hp hq]
    simp
  refine ⟨hroot, ?_⟩
  rw [approach, front_tail hp hq, if_pos hroot, steps, hcommon, List.drop_length, List.append_nil]

/-- The steps to a path from the current directory, where there are any. -/
theorem here_eq (hc : (read cwd).anchor = some c) (hp : pieces isSeparator p = ps ++ [q])
    (hq : IsTail q) :
    here cwd (normalize p) = concat '/'
      (if approach cwd (ps ++ [q]) = [] then [dot] else approach cwd (ps ++ [q])) := by
  have hself := resolved_self hc
  rw [here, approach, front_tail hp hq]
  by_cases hroot : CommonRoot (read cwd) (resolved cwd (normalize p))
  · rw [if_pos hroot]
    have hroot' : CommonRoot (resolved cwd cwd) (resolved cwd (normalize p)) := by rwa [hself]
    by_cases hsteps : steps (read cwd) (resolved cwd (normalize p)) = []
    · have htrail : trail (normalize p) = [] := by
        rw [trail, pieces_normalize_tail hp hq, List.getLast?_concat,
          if_neg (by simpa using hq.1.1)]
      have heq : kept (resolved cwd cwd) = kept (resolved cwd (normalize p)) := by
        rw [hself]
        exact steps_eq_nil_iff.mp hsteps
      rw [if_pos hsteps, getrelative_of_kept_eq hc hroot' heq, if_pos htrail, concat_singleton]
    · rw [if_neg hsteps, getrelative_of_steps hc hroot' (by rwa [hself]), hself]
      rfl
  · have hnormal := normalize_tail hp hq
    rw [if_neg hroot, getrelative_of_not_commonRoot hc (by rwa [hself]), trim_normalize,
      lead_tail ps hq, normalPieces_append hq.2.1, if_neg (by simp), hnormal]

/-- From the current directory, a path that does not lead through it ends in its last
piece. -/
theorem here_of_not_atOrAbove (hc : (read cwd).anchor = some c)
    (hp : pieces isSeparator p = ps ++ [q]) (hq : IsTail q)
    (h : ¬ AtOrAbove cwd (normalize p)) :
    here cwd (normalize p) = concat '/' (approach cwd ps ++ [q]) := by
  rw [here_eq hc hp hq, approach_of_not_atOrAbove hp hq h, if_neg (by simp)]

theorem not_isFile_of_atOrAbove (hc : (read cwd).anchor = some c)
    (hp : pieces isSeparator p = ps ++ [q]) (hq : IsTail q) (h : AtOrAbove cwd (normalize p)) :
    ¬ IsFile (here cwd (normalize p)) := by
  obtain ⟨-, hback⟩ := approach_of_atOrAbove hp hq h
  rw [here_eq hc hp hq, hback, IsFile]
  by_cases hn : (kept (read cwd)).length - (kept (resolved cwd (normalize p))).length = 0
  · rw [hn, List.replicate_zero, if_pos rfl]
    decide
  · obtain ⟨m, hm⟩ := Nat.exists_eq_succ_of_ne_zero hn
    have hsep : ∀ s ∈ List.replicate (m + 1) dotdot, ∀ x ∈ s, isSeparator x = false := by
      intro s hs
      rw [List.eq_of_mem_replicate hs]
      exact forall_mem_of_all (by decide)
    rw [hm, if_neg (by simp), pieces_concat_slash (by simp) hsep, List.replicate_succ',
      List.getLast?_concat]
    simp

theorem pieces_here (hc : (read cwd).anchor = some c) (hp : pieces isSeparator p = ps ++ [q])
    (hq : IsTail q) (hfile : IsFile (here cwd (normalize p))) :
    here cwd (normalize p) = concat '/' (approach cwd ps ++ [q]) ∧
      pieces isSeparator (here cwd (normalize p)) = approach cwd ps ++ [q] := by
  have hnot : ¬ AtOrAbove cwd (normalize p) := fun h =>
    not_isFile_of_atOrAbove hc hp hq h hfile
  have hvalue := here_of_not_atOrAbove hc hp hq hnot
  refine ⟨hvalue, ?_⟩
  rw [hvalue]
  exact pieces_concat_slash (by simp) fun s hs => not_sep_of_mem_approach hp hq hs

theorem suffix_concat (as : List Str) (q : Str) : q <:+ concat '/' (as ++ [q]) := by
  by_cases hnil : as = []
  · simp [hnil]
  · rw [concat_append hnil (by simp), concat_singleton]
    exact (List.suffix_cons '/' q).trans (List.suffix_append _ _)

/-- Two paths with the same pieces before the last one are written alike. -/
theorem here_append {e : Str} (hc : (read cwd).anchor = some c)
    (hp : pieces isSeparator p = ps ++ [q]) (hq : IsTail q)
    (hp' : pieces isSeparator p' = ps ++ [q ++ e]) (hq' : IsTail (q ++ e))
    (h : ¬ AtOrAbove cwd (normalize p)) (hfile : IsFile (here cwd (normalize p'))) :
    here cwd (normalize p') = here cwd (normalize p) ++ e := by
  rw [(pieces_here hc hp' hq' hfile).1, here_of_not_atOrAbove hc hp hq h]
  by_cases hnil : approach cwd ps = []
  · simp [hnil]
  · rw [concat_append hnil (by simp), concat_append hnil (by simp)]
    simp

end Here

section Back

variable {cwd p p' q : Str} {c : Anchor} {ps : List Str}

/-- As many moves up as there are components on top take these away. -/
theorem blindFrom_replicate (l st : List Str) :
    UpWord.blindFrom compRole (l ++ st) (List.replicate l.length dotdot) = st := by
  induction l with
  | nil => rfl
  | cons x l ih =>
      rw [List.length_cons, List.replicate_succ, UpWord.blindFrom_cons, List.cons_append,
        UpWord.pushBlind_up_cons compRole_dotdot, ih]

/-- The steps from a reading lead to the components of the other one. -/
theorem kept_under_steps (r s : Reading) (a : Option Anchor) :
    kept ⟨a, r.comps ++ steps r s⟩ = kept s := by
  obtain ⟨n, hn⟩ : ∃ n, n = common (kept r) (kept s) := ⟨_, rfl⟩
  have htake := take_common (kept r) (kept s)
  have hle := common_le_left (kept r) (kept s)
  have hback : UpWord.blindFrom compRole (UpWord.blindFrom compRole [] r.comps)
      (List.replicate ((kept r).length - n) dotdot) = ((kept s).take n).reverse := by
    have hstack : UpWord.blindFrom compRole [] r.comps =
        ((kept r).drop n).reverse ++ ((kept r).take n).reverse := by
      rw [← List.reverse_append, List.take_append_drop, kept, UpWord.blind, List.reverse_reverse]
    have hlength : (kept r).length - n = ((kept r).drop n).reverse.length := by simp
    rw [hlength, hstack, blindFrom_replicate, hn, htake]
  have hself : UpWord.blindFrom compRole ((kept s).take n).reverse ((kept s).drop n) =
      (kept s).reverse := by
    have hclear : UpWord.Clear compRole (UpWord.blindFrom compRole [] s.comps) :=
      UpWord.clear_blindFrom UpWord.clear_nil s.comps
    have hstack : UpWord.blindFrom compRole [] s.comps =
        ((kept s).drop n).reverse ++ ((kept s).take n).reverse := by
      rw [← List.reverse_append, List.take_append_drop, kept, UpWord.blind, List.reverse_reverse]
    rw [hstack] at hclear
    have hfront := UpWord.blindFrom_reverse_of_clear (hclear.of_append _)
    have hall := UpWord.blindFrom_reverse_of_clear hclear
    rw [← List.reverse_append, List.take_append_drop, List.reverse_reverse] at hall
    rw [List.reverse_reverse] at hfront
    rw [← hfront, ← UpWord.blindFrom_append, List.take_append_drop, hall]
  rw [kept, UpWord.blind, steps, UpWord.blindFrom_append, UpWord.blindFrom_append, ← hn, hback,
    hself, List.reverse_reverse]

/-- A path from the current directory that ends in a name leads to the path that it was
made from. -/
theorem kept_of_here_eq {y g : Str} {as : List Str} (hc : (read cwd).anchor = some c)
    (hy : trim y = y) (hg : here cwd y = g) (hpieces : pieces isSeparator g = as ++ [q])
    (hq : IsTail q)
    (hdrive : CommonRoot (read cwd) (resolved cwd y) →
      ∀ s ∈ (as ++ [q]).head?, driveOf s = none) :
    (resolved cwd g).anchor = (resolved cwd y).anchor ∧
      kept (resolved cwd g) = kept (resolved cwd y) := by
  have hself := resolved_self hc
  by_cases hroot : CommonRoot (read cwd) (resolved cwd y)
  · have hroot' : CommonRoot (resolved cwd cwd) (resolved cwd y) := by rwa [hself]
    have hcomp : ∀ s ∈ steps (resolved cwd cwd) (resolved cwd y), IsComp s := fun s =>
      isComp_of_mem_steps
    have hne : steps (resolved cwd cwd) (resolved cwd y) ≠ [] := by
      intro hnil
      rw [here, getrelative_of_kept_eq hc hroot' (steps_eq_nil_iff.mp hnil)] at hg
      rw [← hg] at hpieces
      have hlast := congrArg List.getLast? hpieces
      rw [List.getLast?_concat] at hlast
      split at hlast
      · exact hq.1.2.1 (Option.some.inj hlast).symm
      · exact hq.1.1 (Option.some.inj hlast).symm
    have hvalue : g = concat '/' (steps (resolved cwd cwd) (resolved cwd y)) := by
      rw [← hg, here, getrelative_of_steps hc hroot' hne]
      rfl
    have hsteps : steps (resolved cwd cwd) (resolved cwd y) = as ++ [q] := by
      rw [← hpieces, hvalue, pieces_concat_slash hne fun s hs => (hcomp s hs).2.2]
    have hread : read g = ⟨none, steps (read cwd) (resolved cwd y)⟩ := by
      rw [hvalue, read_concat_relative hcomp (by rw [hsteps]; exact hdrive hroot), hself]
    have hres : resolved cwd g =
        ⟨(read cwd).anchor, (read cwd).comps ++ steps (read cwd) (resolved cwd y)⟩ := by
      rw [resolved, hread]
      rfl
    rw [hres]
    exact ⟨hroot.1, kept_under_steps _ _ _⟩
  · rw [here, getrelative_of_not_commonRoot hc (by rwa [hself]), hy] at hg
    rw [hg]
    exact ⟨rfl, rfl⟩

/-- The path of the current directory, and of a directory above it, does not end in a
name. -/
theorem not_isTail_of_atOrAbove {y : Str} {as : List Str} (hc : (read cwd).anchor = some c)
    (h : AtOrAbove cwd y) (hne : kept (resolved cwd y) ≠ [])
    (hpieces : pieces isSeparator (here cwd y) = as ++ [q]) : ¬ IsTail q := by
  intro hq
  have hself := resolved_self hc
  have hcommon := common_of_initial h.2
  have hroot : CommonRoot (resolved cwd cwd) (resolved cwd y) := by
    rw [hself]
    refine ⟨h.1.symm, fun _ => ?_⟩
    rw [hcommon]
    exact List.length_pos_iff.mpr hne
  have hlast := congrArg List.getLast? hpieces
  rw [List.getLast?_concat] at hlast
  by_cases hnil : steps (resolved cwd cwd) (resolved cwd y) = []
  · rw [here, getrelative_of_kept_eq hc hroot (steps_eq_nil_iff.mp hnil)] at hlast
    split at hlast
    · exact hq.1.2.1 (Option.some.inj hlast).symm
    · exact hq.1.1 (Option.some.inj hlast).symm
  · have hcomp : ∀ s ∈ steps (resolved cwd cwd) (resolved cwd y), IsComp s := fun s =>
      isComp_of_mem_steps
    rw [here, getrelative_of_steps hc hroot hnil, WPath.join,
      pieces_concat_slash hnil fun s hs => (hcomp s hs).2.2] at hlast
    have hmem := List.mem_of_getLast? hlast
    rw [steps, hself, hcommon, List.drop_length, List.append_nil] at hmem
    exact hq.2.1 (List.eq_of_mem_replicate hmem)

/-- When the current directory is reached through the last piece of a path, no path from the
current directory goes on to the path with a longer last piece. -/
theorem here_ne_of_atOrAbove {e : Str} (hc : (read cwd).anchor = some c)
    (hp : pieces isSeparator p = ps ++ [q]) (hq : IsTail q) (h : AtOrAbove cwd (normalize p))
    (hp' : pieces isSeparator p' = ps ++ [q ++ e]) (hq' : IsTail (q ++ e))
    (hfile : IsFile (here cwd (normalize p'))) (p₂ : Str) :
    here cwd (normalize p') ≠ here cwd (normalize p₂) ++ e := by
  intro heq
  obtain ⟨hvalue, hpieces⟩ := pieces_here hc hp' hq' hfile
  have hshort : here cwd (normalize p₂) = concat '/' (approach cwd ps ++ [q]) := by
    refine List.append_cancel_right (heq.symm.trans (hvalue.trans ?_))
    by_cases hnil : approach cwd ps = []
    · simp [hnil]
    · rw [concat_append hnil (by simp), concat_append hnil (by simp)]
      simp
  have hpieces₂ : pieces isSeparator (here cwd (normalize p₂)) = approach cwd ps ++ [q] := by
    rw [hshort]
    exact pieces_concat_slash (by simp) fun s hs => not_sep_of_mem_approach hp hq hs
  obtain ⟨hanchor, hpre⟩ := (atOrAbove_tail hp hq).mp h
  -- a path that begins like a drive does not share its root with the current directory
  have hdrive : ∀ x, IsTail x →
      ∀ s ∈ (approach cwd ps ++ [x]).head?, driveOf s = none := by
    intro x hx s hs
    by_cases hroot : CommonRoot (read cwd) (front cwd ps)
    · have hlength := hpre.length_le
      rw [List.length_append, List.length_singleton] at hlength
      obtain ⟨n, hn⟩ := Nat.exists_eq_succ_of_ne_zero
        (show (kept (read cwd)).length - (kept (front cwd ps)).length ≠ 0 by omega)
      rw [approach, if_pos hroot, steps, common_of_initial ((List.prefix_append _ _).trans hpre),
        hn, List.replicate_succ] at hs
      obtain rfl := Option.some.inj hs
      rfl
    · have happroach : approach cwd ps = normalPieces (lead ps) := by rw [approach, if_neg hroot]
      cases has : approach cwd ps with
      | nil =>
          rw [has] at hs
          obtain rfl := Option.some.inj hs
          exact hx.2.2
      | cons t ts =>
          rw [has] at hs
          obtain rfl := Option.some.inj hs
          by_contra hne
          obtain ⟨a, ha⟩ := Option.ne_none_iff_exists'.mp hne
          obtain ⟨hnil, hpiece⟩ := driveOf_eq_some.mp ha
          have hlead : (lead (approach cwd ps)).anchor = some a := by
            rw [has, lead, List.cons_append]
            exact (anchorOf_of_ne_nil hnil _).trans ha
          have hfront : (front cwd ps).anchor = some a := by
            rw [front, ← happroach, Reading.under, hlead]
            exact hlead
          refine hroot ⟨hanchor.symm, fun hrootAnchor => ?_⟩
          rw [← hanchor, hfront] at hrootAnchor
          obtain rfl := Option.some.inj hrootAnchor
          exact absurd hpiece hnil
  obtain ⟨hanchor', hkept'⟩ := kept_of_here_eq hc (trim_normalize p') rfl hpieces hq'
    fun _ => hdrive _ hq'
  obtain ⟨hanchor₂, hkept₂⟩ := kept_of_here_eq hc (trim_normalize p₂) rfl hpieces₂ hq
    fun _ => hdrive q hq
  have hres' := read_tail hpieces hq'
  have hres₂ := read_tail hpieces₂ hq
  rw [resolved, hres', under_append, kept_append _ _ (compRole_of_isTail hq'), kept_tail hp' hq']
    at hkept'
  rw [resolved, hres', under_append, resolved_tail hp' hq', hanchor] at hanchor'
  rw [resolved, hres₂, under_append, kept_append _ _ (compRole_of_isTail hq)] at hkept₂
  rw [resolved, hres₂, under_append] at hanchor₂
  have hfront := List.append_inj_left' hkept' rfl
  rw [hfront] at hkept₂
  have habove : AtOrAbove cwd (normalize p₂) := by
    refine ⟨hanchor₂.symm.trans hanchor', ?_⟩
    rw [← hkept₂]
    exact hpre
  exact not_isTail_of_atOrAbove hc habove (by simp [← hkept₂]) hpieces₂ hq

end Back

/-- The text that `path.join` normalizes for a directory and a name. -/
def joined (dir n : Str) : Str := joinPart (if dir = [] then dot else dir) n

def before (dir : Str) (absolute : Bool) : List Str :=
  if absolute then [] else pieces isSeparator (if dir = [] then dot else dir)

section Joined

variable {dir n l e : Str} {ns : List Str}

theorem joinPart_nil (v : Str) : joinPart [] v = v := by
  rw [joinPart]
  split <;> rfl

theorem join_eq (dir n : Str) : join [some dir, some n] = normalize (joined dir n) := by
  cases dir with
  | nil =>
      change normalize (joinPart (joinPart [] dot) n) = normalize (joinPart dot n)
      rw [joinPart_nil]
  | cons c dir =>
      change normalize (joinPart (joinPart [] (c :: dir)) n) = normalize (joinPart (c :: dir) n)
      rw [joinPart_nil]

theorem pieces_joined (dir n : Str) :
    pieces isSeparator (joined dir n) = before dir (isabsolute n) ++ pieces isSeparator n := by
  have hne : (if dir = [] then dot else dir) ≠ [] := by
    split
    · decide
    · assumption
  rw [joined, before, joinPart]
  by_cases h : isabsolute n = true
  · rw [if_pos h, if_pos h, List.nil_append]
  · rw [if_neg h, if_neg h, if_pos hne, List.append_assoc, List.singleton_append,
      pieces_append_pieces _ (by decide)]

theorem pieces_append_tail (hn : pieces isSeparator n = ns ++ [l])
    (he : ∀ c ∈ e, isSeparator c = false) : pieces isSeparator (n ++ e) = ns ++ [l ++ e] := by
  induction n generalizing ns l with
  | nil =>
      have hnil : pieces isSeparator [] = [[]] := rfl
      rw [hnil] at hn
      have hns : ns = [] := by
        have hlen := congrArg List.length hn
        rw [List.length_append] at hlen
        exact List.length_eq_zero_iff.mp (by simpa using hlen)
      subst hns
      obtain rfl : l = [] := (List.singleton_inj.mp hn).symm
      exact pieces_of_forall_not_sep he
  | cons c n ih =>
      rw [List.cons_append, pieces_cons]
      rw [pieces_cons] at hn
      by_cases hc : isSeparator c = true
      · rw [if_pos hc] at hn ⊢
        cases ns with
        | nil => exact absurd (List.cons.inj hn).2 (pieces_ne_nil n)
        | cons m ns =>
            obtain ⟨hm, hrest⟩ := List.cons.inj hn
            rw [ih hrest, ← hm]
            rfl
      · rw [if_neg hc] at hn ⊢
        obtain ⟨q, qs, hq⟩ := exists_pieces_eq_cons isSeparator n
        rw [hq] at hn
        cases ns with
        | nil =>
            obtain ⟨hl, hqs⟩ := List.cons.inj hn
            subst hqs
            have hsingle : pieces isSeparator n = [] ++ [q] := hq
            rw [ih hsingle, ← hl]
            rfl
        | cons m ns =>
            obtain ⟨hm, hrest⟩ := List.cons.inj hn
            have hmore : pieces isSeparator n = (q :: ns) ++ [l] := by rw [hq, hrest]; rfl
            rw [ih hmore, ← hm]
            rfl

theorem exists_pieces_tail (n : Str) : ∃ ns l, pieces isSeparator n = ns ++ [l] :=
  ⟨_, _, (List.dropLast_concat_getLast (pieces_ne_nil n)).symm⟩

theorem isabsolute_extension (hdot : e.head? = some '.') (hcolon : e[1]? ≠ some ':') (n : Str) :
    isabsolute (n ++ e) = isabsolute n := by
  match n, e, hdot with
  | [], _ :: e, rfl => simpa [isabsolute] using hcolon
  | [c], _ :: e, rfl => simp [isabsolute]
  | c :: d :: n, _, _ => rfl

theorem isTail_append (hn : pieces isSeparator n = ns ++ [l])
    (he : ∀ c ∈ e, isSeparator c = false) (hlen : 3 ≤ e.length) : IsTail (l ++ e) := by
  have hlong : 3 ≤ (l ++ e).length := by
    rw [List.length_append]
    omega
  have hsep : ∀ c ∈ l ++ e, isSeparator c = false := by
    intro c hc
    rcases List.mem_append.mp hc with hc | hc
    · exact isSep_of_mem_pieces (hn ▸ List.mem_append_right ns (List.mem_singleton.mpr rfl)) c hc
    · exact he c hc
  match h : l ++ e, hlong, hsep with
  | a :: b :: c :: t, _, hsep => exact ⟨⟨by simp, by simp [dot], hsep⟩, by simp [dotdot], rfl⟩

end Joined

section Name

variable {p t : Str}

theorem getname_append {a b : Str} (ha : ∀ c ∈ a.getLast?, isSeparator c = true)
    (hb : ∀ c ∈ b, isSeparator c = false) : getname (a ++ b) = b := by
  rcases List.eq_nil_or_concat a with rfl | ⟨a, c, rfl⟩
  · rw [List.nil_append, getname, splitLast_of_forall_not_sep hb]
  · rw [List.concat_eq_append] at ha ⊢
    rw [List.append_assoc, List.singleton_append, getname,
      splitLast_append (ha c (by simp)) hb]

theorem exists_front (p : Str) : ∃ a, p = a ++ getname p ∧
    (∀ c ∈ a.getLast?, isSeparator c = true) ∧ ∀ c ∈ getname p, isSeparator c = false := by
  unfold getname
  cases h : splitLast isSeparator p with
  | none => exact ⟨[], rfl, by simp, splitLast_eq_none h⟩
  | some ab =>
      obtain ⟨a, b⟩ := ab
      obtain ⟨c, hc, rfl, hb⟩ := splitLast_eq_some h
      exact ⟨a ++ [c], by simp, by simpa using hc, hb⟩

theorem getname_of_not_sep (h : ∀ c ∈ p, isSeparator c = false) : getname p = p :=
  @getname_append [] p (by simp) h

theorem getname_of_suffix (ht : t <:+ p) (hlen : (getname p).length ≤ t.length) :
    getname t = getname p := by
  obtain ⟨a, hp, ha, hname⟩ := exists_front p
  obtain ⟨b, hb⟩ : getname p <:+ t :=
    List.suffix_of_suffix_length_le ⟨a, hp.symm⟩ ht hlen
  have hsuffix : b <:+ a := by
    obtain ⟨d, hd⟩ := ht
    refine ⟨d, (List.append_left_inj (getname p)).mp ?_⟩
    rw [List.append_assoc, hb, hd, ← hp]
  rw [← hb]
  refine getname_append (fun c hc => ha c ?_) hname
  obtain ⟨d, rfl⟩ := hsuffix
  rw [List.getLast?_append, hc]
  rfl

theorem pieces_getname (p : Str) : ∃ ps, pieces isSeparator p = ps ++ [getname p] := by
  obtain ⟨a, hp, ha, hname⟩ := exists_front p
  rcases List.eq_nil_or_concat a with rfl | ⟨a, c, rfl⟩
  · rw [List.nil_append] at hp
    exact ⟨[], by rw [List.nil_append, ← hp, pieces_of_forall_not_sep (hp ▸ hname)]⟩
  · rw [List.concat_eq_append] at ha hp
    refine ⟨pieces isSeparator a, ?_⟩
    conv_lhs => rw [hp]
    rw [List.append_assoc, List.singleton_append, pieces_append_pieces a (ha c (by simp)),
      pieces_of_forall_not_sep hname]

theorem getname_of_pieces {ps : List Str} {q : Str} (h : pieces isSeparator p = ps ++ [q]) :
    getname p = q := by
  obtain ⟨qs, hqs⟩ := pieces_getname p
  exact List.singleton_inj.mp (List.append_inj_right' (hqs.symm.trans h) rfl)

theorem getname_normalize_of_read {q : Str} {a : Option Anchor} {cs : List Str}
    (h : read p = ⟨a, cs ++ [q]⟩) (hup : q ≠ dotdot) : getname (normalize p) = q := by
  have hcomps : ∀ s ∈ cs ++ [q], IsComp s := fun s hs =>
    @isComp_of_mem_read p s (by rwa [h])
  have hsep := @not_sep_of_mem_normalPieces ⟨a, cs ++ [q]⟩ hcomps
  rw [normalPieces_append hup] at hsep
  refine @getname_of_pieces _ (normalPieces ⟨a, cs⟩) q ?_
  rw [normalize_eq, h, normalPieces_append hup]
  exact pieces_concat_slash (by simp) hsep

/-- `path.normalize` keeps the last component, also one that is written like a drive. -/
theorem getname_normalize (hcomp : IsComp (getname p)) (hup : getname p ≠ dotdot) :
    getname (normalize p) = getname p := by
  obtain ⟨ps, hp⟩ := pieces_getname p
  have hmean : [getname p].filter meaningful = [getname p] :=
    List.filter_cons_of_pos (meaningful_of_isComp hcomp)
  cases hdrive : driveOf (getname p) with
  | none => exact getname_normalize_of_read (read_tail hp ⟨hcomp, hup, hdrive⟩) hup
  | some a =>
      by_cases hps : ps ≠ [] ∧ ps ≠ [[]]
      · have hread : read p =
            ⟨anchorOf ps, (afterAnchor ps).filter meaningful ++ [getname p]⟩ := by
          rw [read, hp, reading_append hps, hmean]
        exact getname_normalize_of_read hread hup
      · by_cases hnil : ps = []
        · subst hnil
          rw [List.nil_append] at hp
          have hanchor : anchorOf [getname p] = some a :=
            (anchorOf_of_ne_nil hcomp.1 []).trans hdrive
          have hread : read p = ⟨some a, []⟩ := by
            rw [read, hp, afterAnchor, hanchor]
            rfl
          have hnormal : normalize p = getname p := by
            rw [normalize_eq, hread, (driveOf_eq_some.mp hdrive).2]
            exact concat_singleton a.piece
          rw [hnormal]
          exact getname_of_not_sep hcomp.2.2
        · obtain rfl : ps = [[]] := not_not.mp fun h => hps ⟨hnil, h⟩
          refine @getname_normalize_of_read p (getname p) (some .root) [] ?_ hup
          have hanchor : anchorOf ([[]] ++ [getname p]) = some .root :=
            anchorOf_root (List.cons_ne_nil _ [])
          rw [read, hp, afterAnchor, hanchor]
          exact congrArg (Reading.mk (some .root)) hmean

theorem getname_join (dir : Str) {n : Str} (hcomp : IsComp (getname n)) (hup : getname n ≠ dotdot) :
    getname (join [some dir, some n]) = getname n := by
  obtain ⟨ns, hn⟩ := pieces_getname n
  have hjoined : getname (joined dir n) = getname n := by
    refine @getname_of_pieces _ (before dir (isabsolute n) ++ ns) _ ?_
    rw [pieces_joined, hn, List.append_assoc]
  rw [join_eq, getname_normalize (hjoined ▸ hcomp) (hjoined ▸ hup), hjoined]

end Name

end Path

end Puremake
