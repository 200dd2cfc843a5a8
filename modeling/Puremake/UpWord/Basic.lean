import Mathlib.Data.List.Basic

/-!
# Words with letters that move up

A word is a list of letters, and each letter has a role: it moves up, it is
plain, or it is rigid. A letter that moves up cancels a plain letter standing
directly before it; a rigid letter is never cancelled. `reduce role anchored w`
is the word that is left when every cancellation has been made, read from the
left. In an anchored word a move up with nothing before it is absorbed, in a
free word it stays.

The stack of the letters that stand so far is kept with the last letter first,
so that a step of the reduction only looks at the head. A stack that the
reduction of its own letters gives back is `Stable`; every stack that is
reached is of this kind, which is what makes `reduce` idempotent.
-/

namespace UpWord

inductive Role
  | up
  | plain
  | rigid
  deriving DecidableEq, Repr

/-- One step of the reduction: the letter `x` meets the stack of the letters
that stand so far, the last one first. -/
def push {α : Type*} (role : α → Role) (anchored : Bool) (st : List α) (x : α) :
    List α :=
  match role x, st with
  | .up, [] => if anchored then [] else [x]
  | .up, y :: st' => if role y = .plain then st' else x :: y :: st'
  | _, st => x :: st

/-- The stack that the word `w` leaves on top of the stack `st`. -/
def reduceFrom {α : Type*} (role : α → Role) (anchored : Bool) (st w : List α) :
    List α :=
  w.foldl (push role anchored) st

def reduce {α : Type*} (role : α → Role) (anchored : Bool) (w : List α) : List α :=
  (reduceFrom role anchored [] w).reverse

section Push

variable {α : Type*} {role : α → Role}

theorem push_of_ne_up {anchored : Bool} {x : α} (hx : role x ≠ .up) (st : List α) :
    push role anchored st x = x :: st := by
  cases h : role x with
  | up => exact absurd h hx
  | plain => cases st <;> simp [push, h]
  | rigid => cases st <;> simp [push, h]

theorem push_up_nil {x : α} (hx : role x = .up) (anchored : Bool) :
    push role anchored [] x = if anchored then [] else [x] := by
  simp [push, hx]

theorem push_up_plain {anchored : Bool} {x y : α} (hx : role x = .up)
    (hy : role y = .plain) (st : List α) :
    push role anchored (y :: st) x = st := by
  simp [push, hx, hy]

theorem push_up_standing {anchored : Bool} {x y : α} (hx : role x = .up)
    (hy : role y ≠ .plain) (st : List α) :
    push role anchored (y :: st) x = x :: y :: st := by
  simp [push, hx, hy]

/-- What one step of the reduction can do: put the letter on the stack, cancel
the plain letter on top, or absorb a move up at the anchor. -/
theorem push_cases (role : α → Role) (anchored : Bool) (st : List α) (x : α) :
    push role anchored st x = x :: st ∨
      (role x = .up ∧ ∃ y st', st = y :: st' ∧ role y = .plain ∧
        push role anchored st x = st') ∨
      (role x = .up ∧ st = [] ∧ anchored = true ∧ push role anchored st x = []) := by
  by_cases hx : role x = .up
  · cases st with
    | nil =>
        cases anchored with
        | true => exact Or.inr (Or.inr ⟨hx, rfl, rfl, by simp [push_up_nil hx]⟩)
        | false => exact Or.inl (by simp [push_up_nil hx])
    | cons y st' =>
        by_cases hy : role y = .plain
        · exact Or.inr (Or.inl ⟨hx, y, st', rfl, hy, push_up_plain hx hy st'⟩)
        · exact Or.inl (push_up_standing hx hy st')
  · exact Or.inl (push_of_ne_up hx st)

end Push

section Reduce

variable {α : Type*} {role : α → Role} {anchored : Bool}

@[simp] theorem reduceFrom_nil (st : List α) : reduceFrom role anchored st [] = st := rfl

@[simp] theorem reduceFrom_cons (st : List α) (x : α) (w : List α) :
    reduceFrom role anchored st (x :: w) =
      reduceFrom role anchored (push role anchored st x) w := rfl

theorem reduceFrom_append (st v w : List α) :
    reduceFrom role anchored st (v ++ w) =
      reduceFrom role anchored (reduceFrom role anchored st v) w :=
  List.foldl_append

@[simp] theorem reduce_nil : reduce role anchored [] = [] := rfl

/-- A stack whose own letters, pushed again from the bottom, give it back. -/
def Stable (role : α → Role) (anchored : Bool) : List α → Prop
  | [] => True
  | x :: st => push role anchored st x = x :: st ∧ Stable role anchored st

@[simp] theorem stable_nil : Stable role anchored ([] : List α) := trivial

theorem stable_push {st : List α} (h : Stable role anchored st) (x : α) :
    Stable role anchored (push role anchored st x) := by
  rcases push_cases role anchored st x with hp | ⟨-, y, st', rfl, -, hp⟩ | ⟨-, -, -, hp⟩
  · rw [hp]
    exact ⟨hp, h⟩
  · rw [hp]
    exact h.2
  · rw [hp]
    exact stable_nil

theorem stable_reduceFrom {st : List α} (h : Stable role anchored st) (w : List α) :
    Stable role anchored (reduceFrom role anchored st w) := by
  induction w generalizing st with
  | nil => exact h
  | cons x w ih => exact ih (stable_push h x)

theorem reduceFrom_reverse_of_stable {st : List α} (h : Stable role anchored st) :
    reduceFrom role anchored [] st.reverse = st := by
  induction st with
  | nil => rfl
  | cons x st ih =>
      rw [List.reverse_cons, reduceFrom_append, ih h.2, reduceFrom_cons, h.1,
        reduceFrom_nil]

theorem reduce_reduce_append (v w : List α) :
    reduce role anchored (reduce role anchored v ++ w) = reduce role anchored (v ++ w) := by
  have hst : Stable role anchored (reduceFrom role anchored [] v) :=
    stable_reduceFrom stable_nil v
  simp only [reduce, reduceFrom_append, reduceFrom_reverse_of_stable hst]

@[simp] theorem reduce_reduce (w : List α) :
    reduce role anchored (reduce role anchored w) = reduce role anchored w := by
  have h := @reduce_reduce_append _ role anchored w []
  simpa using h

theorem reduceFrom_of_ne_up {w : List α} (hw : ∀ x ∈ w, role x ≠ .up) (st : List α) :
    reduceFrom role anchored st w = w.reverse ++ st := by
  induction w generalizing st with
  | nil => rfl
  | cons x w ih =>
      have hx : role x ≠ .up := hw x (by simp)
      rw [reduceFrom_cons, push_of_ne_up hx, ih fun y hy => hw y (by simp [hy])]
      simp

theorem reduce_eq_self {w : List α} (hw : ∀ x ∈ w, role x ≠ .up) :
    reduce role anchored w = w := by
  simp [reduce, reduceFrom_of_ne_up hw]

end Reduce

section Climb

variable {α : Type*} {role : α → Role} {anchored : Bool}

theorem reduceFrom_climb {xs st : List α} {ups : List α} (hlen : ups.length = xs.length)
    (hups : ∀ u ∈ ups, role u = .up) (hxs : ∀ x ∈ xs, role x = .plain) :
    reduceFrom role anchored (xs ++ st) ups = st := by
  induction xs generalizing ups with
  | nil =>
      have hnil : ups = [] := List.length_eq_zero_iff.mp (by simpa using hlen)
      subst hnil
      rfl
  | cons x xs ih =>
      cases ups with
      | nil => simp at hlen
      | cons u ups =>
          have hu : role u = .up := hups u (by simp)
          have hx : role x = .plain := hxs x (by simp)
          rw [List.cons_append, reduceFrom_cons, push_up_plain hu hx]
          exact ih (by simpa using hlen) (fun v hv => hups v (by simp [hv]))
            (fun y hy => hxs y (by simp [hy]))

theorem reduceFrom_climb_all {xs ups : List α} (hlen : xs.length ≤ ups.length)
    (hups : ∀ u ∈ ups, role u = .up) (hxs : ∀ x ∈ xs, role x = .plain) :
    reduceFrom role true xs ups = [] := by
  induction ups generalizing xs with
  | nil =>
      exact List.length_eq_zero_iff.mp (by simpa using hlen)
  | cons u ups ih =>
      have hu : role u = .up := hups u (by simp)
      have hrest : ∀ v ∈ ups, role v = .up := fun v hv => hups v (by simp [hv])
      cases xs with
      | nil => simpa [push_up_nil hu] using @ih [] (by simp) hrest (by simp)
      | cons x xs =>
          rw [reduceFrom_cons, push_up_plain hu (hxs x (by simp))]
          exact ih (by simpa using hlen) hrest fun y hy => hxs y (by simp [hy])

theorem exists_up_reduceFrom {st : List α} (h : ∃ x ∈ st, role x = .up) (w : List α) :
    ∃ x ∈ reduceFrom role anchored st w, role x = .up := by
  induction w generalizing st with
  | nil => exact h
  | cons z w ih =>
      obtain ⟨x, hx, hup⟩ := h
      refine ih ?_
      rcases push_cases role anchored st z with
        hp | ⟨-, y, st', rfl, hy, hp⟩ | ⟨-, rfl, -, -⟩
      · exact ⟨x, by simp [hp, hx], hup⟩
      · rw [hp]
        refine ⟨x, ?_, hup⟩
        rcases List.mem_cons.mp hx with rfl | hx
        · rw [hy] at hup
          cases hup
        · exact hx
      · exact absurd hx (by simp)

/-- Climbing into a rigid letter leaves a move up that is never cancelled. -/
theorem exists_up_of_climb_rigid {xs st ups : List α} (hlen : ups.length = xs.length)
    (hups : ∀ u ∈ ups, role u = .up) (hne : ∀ x ∈ xs, role x ≠ .up)
    (hrigid : ∃ x ∈ xs, role x = .rigid) (w : List α) :
    ∃ x ∈ reduceFrom role anchored (xs ++ st) (ups ++ w), role x = .up := by
  induction xs generalizing ups with
  | nil => simp at hrigid
  | cons x xs ih =>
      cases ups with
      | nil => simp at hlen
      | cons u ups =>
          have hu : role u = .up := hups u (by simp)
          rw [List.cons_append, List.cons_append, reduceFrom_cons]
          by_cases hx : role x = .plain
          · rw [push_up_plain hu hx]
            refine ih (by simpa using hlen) (fun v hv => hups v (by simp [hv]))
              (fun y hy => hne y (by simp [hy])) ?_
            obtain ⟨r, hr, hrr⟩ := hrigid
            rcases List.mem_cons.mp hr with rfl | hr
            · rw [hx] at hrr
              cases hrr
            · exact ⟨r, hr, hrr⟩
          · rw [push_up_standing hu hx]
            exact exists_up_reduceFrom ⟨u, by simp, hu⟩ _

/-- Pushing letters and climbing back by as many moves up leaves the stack as
it was, when none of the letters is rigid; a letter that itself moves up can
only come first, at the anchor. -/
theorem reduceFrom_back {xs st ups : List α} (hlen : ups.length = xs.length)
    (hups : ∀ u ∈ ups, role u = .up) (hrigid : ∀ x ∈ xs, role x ≠ .rigid)
    (htail : ∀ x ∈ xs.tail, role x ≠ .up)
    (hhead : st = [] ∨ ∀ x ∈ xs.head?, role x ≠ .up) :
    reduceFrom role true st (xs ++ ups) = st := by
  have hplain : ∀ x, role x ≠ .up → role x ≠ .rigid → role x = .plain := by
    intro x h₁ h₂
    cases h : role x with
    | up => exact absurd h h₁
    | plain => rfl
    | rigid => exact absurd h h₂
  cases xs with
  | nil =>
      have hnil : ups = [] := List.length_eq_zero_iff.mp (by simpa using hlen)
      subst hnil
      rfl
  | cons x xs =>
      rw [List.tail_cons] at htail
      have hxs : ∀ y ∈ xs, role y = .plain := fun y hy =>
        hplain y (htail y hy) (hrigid y (by simp [hy]))
      by_cases hx : role x = .up
      · rcases hhead with rfl | hhead
        · rw [reduceFrom_append, reduceFrom_cons, push_up_nil hx, if_pos rfl,
            reduceFrom_of_ne_up htail]
          refine reduceFrom_climb_all ?_ hups ?_
          · simp at hlen
            simp [hlen]
          · simpa using hxs
        · exact absurd hx (hhead x (by simp))
      · have hall : ∀ y ∈ x :: xs, role y ≠ .up := by
          intro y hy
          rcases List.mem_cons.mp hy with rfl | hy
          · exact hx
          · exact htail y hy
        rw [reduceFrom_append, reduceFrom_of_ne_up hall]
        refine reduceFrom_climb (by simpa using hlen) hups ?_
        intro y hy
        rw [List.mem_reverse] at hy
        exact hplain y (hall y hy) (hrigid y hy)

/-- When one of the letters is rigid, climbing back over all of them leaves a
move up for good. -/
theorem exists_up_of_back_rigid (st : List α) {xs ups : List α} (hlen : ups.length = xs.length)
    (hups : ∀ u ∈ ups, role u = .up) (hrigid : ∃ x ∈ xs, role x = .rigid)
    (htail : ∀ x ∈ xs.tail, role x ≠ .up) (w : List α) :
    ∃ x ∈ reduceFrom role true st (xs ++ (ups ++ w)), role x = .up := by
  cases xs with
  | nil => simp at hrigid
  | cons x xs =>
      rw [List.tail_cons] at htail
      by_cases hx : role x = .up
      · cases ups with
        | nil => simp at hlen
        | cons u ups =>
            have hrigid' : ∃ y ∈ xs.reverse, role y = .rigid := by
              obtain ⟨y, hy, hr⟩ := hrigid
              rcases List.mem_cons.mp hy with rfl | hy
              · rw [hx] at hr
                cases hr
              · exact ⟨y, by simpa using hy, hr⟩
            have hsplit : u :: ups = (u :: ups).dropLast ++ [(u :: ups).getLast (by simp)] :=
              (List.dropLast_append_getLast (by simp)).symm
            rw [reduceFrom_append, reduceFrom_cons, reduceFrom_of_ne_up htail, hsplit,
              List.append_assoc]
            refine exists_up_of_climb_rigid (by simpa using hlen) ?_ ?_ hrigid' _
            · intro v hv
              exact hups v (List.dropLast_subset _ hv)
            · intro y hy
              exact htail y (by simpa using hy)
      · have hall : ∀ y ∈ x :: xs, role y ≠ .up := by
          intro y hy
          rcases List.mem_cons.mp hy with rfl | hy
          · exact hx
          · exact htail y hy
        rw [reduceFrom_append, reduceFrom_of_ne_up hall]
        refine exists_up_of_climb_rigid (by simpa using hlen) hups ?_ ?_ w
        · intro y hy
          exact hall y (List.mem_reverse.mp hy)
        · obtain ⟨y, hy, hr⟩ := hrigid
          exact ⟨y, List.mem_reverse.mpr hy, hr⟩

end Climb

end UpWord
