import Mathlib.Data.List.Infix
import Mathlib.Data.List.Lattice

/-!
# Greedy matching

A pattern is a sequence of classes, each of which stands for one element or for any
number of elements. The matcher takes as many elements as it can for a repeated
class, looks no further than to the end of the pattern, and steps back only when the rest
of the pattern does not match. It is enough to look at what this one match leaves:
when the pattern matches the whole list in some way, the greedy match leaves nothing.
-/

namespace Greedy

/-- A class that stands for one element, or for any number of them. -/
inductive Piece (α : Type*)
  | one (p : α → Bool)
  | many (p : α → Bool)

variable {α : Type*}

/-- A pattern matches at the beginning of a list, and leaves a rest. -/
inductive Reaches : List (Piece α) → List α → List α → Prop
  | nil (s : List α) : Reaches [] s s
  | one {p : α → Bool} {g : List (Piece α)} {c : α} {s r : List α} :
      p c = true → Reaches g s r → Reaches (.one p :: g) (c :: s) r
  | skip {p : α → Bool} {g : List (Piece α)} {s r : List α} :
      Reaches g s r → Reaches (.many p :: g) s r
  | take {p : α → Bool} {g : List (Piece α)} {c : α} {s r : List α} :
      p c = true → Reaches (.many p :: g) s r → Reaches (.many p :: g) (c :: s) r

def Matches (g : List (Piece α)) (s : List α) : Prop := Reaches g s []

/-- What is left of a list after some elements of a class, the longest run first. -/
def runs (p : α → Bool) : List α → List (List α)
  | [] => [[]]
  | c :: s => if p c then runs p s ++ [c :: s] else [c :: s]

def match? : List (Piece α) → List α → Option (List α)
  | [], s => some s
  | .one _ :: _, [] => none
  | .one p :: g, c :: s => if p c then match? g s else none
  | .many p :: g, s => (runs p s).findSome? (match? g)

section Reaches

variable {p : α → Bool} {g : List (Piece α)} {s t r : List α}

theorem reaches_nil_iff : Reaches [] s r ↔ r = s :=
  ⟨fun h => by cases h; rfl, fun h => h ▸ .nil s⟩

theorem reaches_one_iff : Reaches (.one p :: g) s r ↔ ∃ c t, s = c :: t ∧ p c = true ∧
    Reaches g t r := by
  constructor
  · rintro (_ | ⟨hc, h⟩)
    exact ⟨_, _, rfl, hc, h⟩
  · rintro ⟨c, t, rfl, hc, h⟩
    exact .one hc h

/-- A repeated class matches the elements in front of one of the rests. -/
theorem reaches_many_iff : Reaches (.many p :: g) s r ↔
    ∃ a t, s = a ++ t ∧ (∀ c ∈ a, p c = true) ∧ Reaches g t r := by
  constructor
  · intro h
    generalize hq : Piece.many p :: g = q at h
    induction h with
    | nil => cases hq
    | one => cases hq
    | skip h =>
        cases hq
        exact ⟨[], _, rfl, fun _ hc => absurd hc List.not_mem_nil, h⟩
    | take hc _ ih =>
        cases hq
        obtain ⟨a, t, rfl, ha, h⟩ := ih rfl
        refine ⟨_ :: a, t, rfl, fun c hmem => ?_, h⟩
        rcases List.mem_cons.mp hmem with rfl | hmem
        · exact hc
        · exact ha c hmem
  · rintro ⟨a, t, rfl, ha, h⟩
    induction a with
    | nil => exact .skip h
    | cons c a ih =>
        exact .take (ha c List.mem_cons_self) (ih fun d hd => ha d (List.mem_cons_of_mem _ hd))

theorem Reaches.suffix (h : Reaches g s r) : r <:+ s := by
  induction h with
  | nil => exact List.suffix_rfl
  | one _ _ ih => exact ih.trans (List.suffix_cons _ _)
  | skip _ ih => exact ih
  | take _ _ ih => exact ih.trans (List.suffix_cons _ _)

def Piece.Has (c : α) : Piece α → Prop
  | one p => p c = true
  | many p => p c = true

/-- A change of the elements that respects the classes of a pattern respects its matches. -/
theorem Reaches.map {f : α → α} (h : Reaches g s r)
    (hf : ∀ q ∈ g, ∀ c, q.Has c → q.Has (f c)) : Reaches g (s.map f) (r.map f) := by
  induction h with
  | nil => exact .nil _
  | one hc _ ih =>
      exact .one (hf _ List.mem_cons_self _ hc) (ih fun q hq => hf q (List.mem_cons_of_mem _ hq))
  | skip _ ih => exact .skip (ih fun q hq => hf q (List.mem_cons_of_mem _ hq))
  | take hc _ ih => exact .take (hf _ List.mem_cons_self _ hc) (ih hf)

/-- Two matches that start at different places and end the other way round cross each
other in a repeated class. So when a pattern matches a list as a whole and also matches at the
beginning of a suffix of it, it matches the suffix as a whole. -/
theorem Matches.of_suffix (hs : Matches g s) (ht : Reaches g t r) (hts : t <:+ s) :
    Matches g t := by
  induction g generalizing s t with
  | nil =>
      obtain rfl := reaches_nil_iff.mp hs
      rw [List.suffix_nil.mp hts]
      exact .nil []
  | cons q g ih =>
      cases q with
      | one p =>
          obtain ⟨c, s, rfl, hc, hs⟩ := reaches_one_iff.mp hs
          obtain ⟨d, t, rfl, hd, ht⟩ := reaches_one_iff.mp ht
          refine .one hd (ih hs ht ?_)
          rcases List.suffix_cons_iff.mp hts with h | h
          · cases h
            exact List.suffix_rfl
          · exact (List.suffix_cons d t).trans h
      | many p =>
          obtain ⟨a, s, rfl, ha, hs⟩ := reaches_many_iff.mp hs
          obtain ⟨b, t, rfl, hb, ht⟩ := reaches_many_iff.mp ht
          refine reaches_many_iff.mpr ?_
          rcases List.suffix_or_suffix_of_suffix ((List.suffix_append b t).trans hts)
            (List.suffix_append a s) with h | ⟨x, rfl⟩
          · exact ⟨b, t, rfl, hb, ih hs ht h⟩
          · -- the second match is behind at the end: it takes the class up to where the first is
            refine ⟨b ++ x, s, (List.append_assoc b x s).symm, fun c hc => ha c ?_, hs⟩
            rw [← List.append_assoc] at hts
            obtain ⟨y, hy⟩ := hts
            rw [← List.append_assoc] at hy
            rw [← List.append_cancel_right hy]
            exact List.mem_append_right _ hc

end Reaches

section Match

variable {p : α → Bool} {g : List (Piece α)} {s t r : List α}

/-- The rests after a run are those behind elements of the class. -/
theorem mem_runs_iff : t ∈ runs p s ↔ ∃ a, s = a ++ t ∧ ∀ c ∈ a, p c = true := by
  induction s with
  | nil =>
      rw [runs, List.mem_singleton]
      constructor
      · rintro rfl
        exact ⟨[], rfl, fun _ hc => absurd hc List.not_mem_nil⟩
      · rintro ⟨a, h, -⟩
        exact (List.append_eq_nil_iff.mp h.symm).2
  | cons c s ih =>
      have hself : ∃ a, c :: s = a ++ c :: s ∧ ∀ d ∈ a, p d = true :=
        ⟨[], rfl, fun _ hd => absurd hd List.not_mem_nil⟩
      rw [runs]
      split
      · rename_i hc
        rw [List.mem_append, List.mem_singleton, ih]
        constructor
        · rintro (⟨a, rfl, ha⟩ | rfl)
          · exact ⟨c :: a, rfl, List.forall_mem_cons.mpr ⟨hc, ha⟩⟩
          · exact hself
        · rintro ⟨a, h, ha⟩
          cases a with
          | nil => exact .inr h.symm
          | cons d a =>
              obtain ⟨rfl, rfl⟩ := List.cons.inj h
              exact .inl ⟨a, rfl, fun e he => ha e (List.mem_cons_of_mem _ he)⟩
      · rename_i hc
        rw [List.mem_singleton]
        constructor
        · rintro rfl
          exact hself
        · rintro ⟨a, h, ha⟩
          cases a with
          | nil => exact h.symm
          | cons d a =>
              obtain ⟨rfl, rfl⟩ := List.cons.inj h
              exact absurd (ha c List.mem_cons_self) hc

theorem pairwise_runs (p : α → Bool) (s : List α) : (runs p s).Pairwise (· <:+ ·) := by
  induction s with
  | nil => exact List.pairwise_singleton _ _
  | cons c s ih =>
      rw [runs]
      split
      · refine List.pairwise_append.mpr ⟨ih, List.pairwise_singleton _ _, fun t ht u hu => ?_⟩
        obtain ⟨a, rfl, -⟩ := mem_runs_iff.mp ht
        rw [List.mem_singleton.mp hu]
        exact (List.suffix_append a t).trans (List.suffix_cons _ _)
      · exact List.pairwise_singleton _ _

theorem reaches_of_match? (h : match? g s = some r) : Reaches g s r := by
  induction g generalizing s with
  | nil =>
      obtain rfl : s = r := Option.some.inj h
      exact .nil s
  | cons q g ih =>
      cases q with
      | one p =>
          cases s with
          | nil => cases h
          | cons c s =>
              rw [match?] at h
              split at h
              · exact .one ‹_› (ih h)
              · cases h
      | many p =>
          rw [match?] at h
          obtain ⟨t, ht, hrest⟩ := List.exists_of_findSome?_eq_some h
          obtain ⟨a, rfl, ha⟩ := mem_runs_iff.mp ht
          exact reaches_many_iff.mpr ⟨a, t, rfl, ha, ih hrest⟩

theorem match?_isSome (h : Reaches g s r) : (match? g s).isSome := by
  induction g generalizing s with
  | nil => rfl
  | cons q g ih =>
      cases q with
      | one p =>
          obtain ⟨c, s, rfl, hc, h⟩ := reaches_one_iff.mp h
          rw [match?, if_pos hc]
          exact ih h
      | many p =>
          obtain ⟨a, t, rfl, ha, h⟩ := reaches_many_iff.mp h
          rw [match?, List.findSome?_isSome_iff]
          exact ⟨t, mem_runs_iff.mpr ⟨a, rfl, ha⟩, ih h⟩

/-- The greedy match leaves nothing exactly when the pattern matches the whole list. -/
theorem match?_eq_some_nil_iff : match? g s = some [] ↔ Matches g s := by
  refine ⟨reaches_of_match?, fun h => ?_⟩
  induction g generalizing s with
  | nil => rw [match?, reaches_nil_iff.mp h]
  | cons q g ih =>
      cases q with
      | one p =>
          obtain ⟨c, s, rfl, hc, h⟩ := reaches_one_iff.mp h
          rw [match?, if_pos hc]
          exact ih h
      | many p =>
          obtain ⟨a, t, rfl, ha, h⟩ := reaches_many_iff.mp h
          -- the first rest that matches is a suffix of one that matches as a whole
          obtain ⟨r, hr⟩ := Option.isSome_iff_exists.mp
            (List.findSome?_isSome_iff.mpr ⟨t, mem_runs_iff.mpr ⟨a, rfl, ha⟩, match?_isSome h⟩)
          obtain ⟨ts, u, ts', hruns, hu, hfail⟩ := List.findSome?_eq_some_iff.mp hr
          have hut : u <:+ t := by
            have hmem : t ∈ ts ++ u :: ts' := hruns ▸ mem_runs_iff.mpr ⟨a, rfl, ha⟩
            rcases List.mem_append.mp hmem with hts | hts
            · have hsome := match?_isSome h
              rw [hfail t hts] at hsome
              cases hsome
            · have hpair := (List.pairwise_append.mp (hruns ▸ pairwise_runs p (a ++ t))).2.1
              rcases List.mem_cons.mp hts with rfl | hts
              · exact List.suffix_rfl
              · exact (List.pairwise_cons.mp hpair).1 t hts
          have hfull : match? g u = some [] := ih (Matches.of_suffix h (reaches_of_match? hu) hut)
          rw [match?, hr, ← hu, hfull]

end Match

end Greedy
