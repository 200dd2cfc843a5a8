import Puremake.UpWord.Basic

/-!
# Cancelling without looking

`blind role w` reduces a word by a cheaper rule than `reduce`: a move up
removes whatever stands before it, another move up or a rigid letter included,
and it is kept only when nothing stands before it. The two reductions agree on
a word exactly when the honest one leaves no move up standing on another
letter. In an anchored word the blind reduction can keep one absorbed move up
at the bottom, and `absorbed role w` counts the moves up that are absorbed.
-/

namespace UpWord

def pushBlind {α : Type*} (role : α → Role) (st : List α) (x : α) : List α :=
  match role x, st with
  | .up, [] => [x]
  | .up, _ :: st' => st'
  | _, st => x :: st

/-- The stack that the blind reduction of `w` leaves on top of `st`. -/
def blindFrom {α : Type*} (role : α → Role) (st w : List α) : List α :=
  w.foldl (pushBlind role) st

def blind {α : Type*} (role : α → Role) (w : List α) : List α :=
  (blindFrom role [] w).reverse

/-- The number of moves up that the reduction of an anchored word absorbs, from
the stack `st` on. -/
def absorbedFrom {α : Type*} (role : α → Role) : List α → List α → ℕ
  | _, [] => 0
  | st, x :: w =>
      (if role x = .up ∧ st = [] then 1 else 0) + absorbedFrom role (push role true st x) w

/-- The number of moves up that the reduction of an anchored word absorbs. -/
def absorbed {α : Type*} (role : α → Role) (w : List α) : ℕ :=
  absorbedFrom role [] w

section PushBlind

variable {α : Type*} {role : α → Role}

theorem pushBlind_of_ne_up {x : α} (hx : role x ≠ .up) (st : List α) :
    pushBlind role st x = x :: st := by
  cases h : role x with
  | up => exact absurd h hx
  | plain => cases st <;> simp [pushBlind, h]
  | rigid => cases st <;> simp [pushBlind, h]

theorem pushBlind_up_nil {x : α} (hx : role x = .up) : pushBlind role [] x = [x] := by
  simp [pushBlind, hx]

theorem pushBlind_up_cons {x : α} (hx : role x = .up) (y : α) (st : List α) :
    pushBlind role (y :: st) x = st := by
  simp [pushBlind, hx]

@[simp] theorem blindFrom_nil (st : List α) : blindFrom role st [] = st := rfl

@[simp] theorem blindFrom_cons (st : List α) (x : α) (w : List α) :
    blindFrom role st (x :: w) = blindFrom role (pushBlind role st x) w := rfl

theorem blindFrom_append (st v w : List α) :
    blindFrom role st (v ++ w) = blindFrom role (blindFrom role st v) w :=
  List.foldl_append

@[simp] theorem blind_nil : blind role [] = [] := rfl

theorem blindFrom_of_ne_up {w : List α} (hw : ∀ x ∈ w, role x ≠ .up) (st : List α) :
    blindFrom role st w = w.reverse ++ st := by
  induction w generalizing st with
  | nil => rfl
  | cons x w ih =>
      have hx : role x ≠ .up := hw x (by simp)
      rw [blindFrom_cons, pushBlind_of_ne_up hx, ih fun y hy => hw y (by simp [hy])]
      simp

theorem mem_of_mem_pushBlind {st : List α} {x z : α} (h : z ∈ pushBlind role st x) :
    z = x ∨ z ∈ st := by
  by_cases hx : role x = .up
  · cases st with
    | nil => simpa [pushBlind_up_nil hx] using h
    | cons y st =>
        rw [pushBlind_up_cons hx] at h
        exact Or.inr (by simp [h])
  · rw [pushBlind_of_ne_up hx] at h
    simpa using h

theorem mem_of_mem_blindFrom {st w : List α} {z : α} (h : z ∈ blindFrom role st w) :
    z ∈ st ∨ z ∈ w := by
  induction w generalizing st with
  | nil => exact Or.inl h
  | cons x w ih =>
      rcases ih h with h | h
      · rcases mem_of_mem_pushBlind h with rfl | h
        · exact Or.inr (by simp)
        · exact Or.inl h
      · exact Or.inr (by simp [h])

theorem mem_of_mem_blind {w : List α} {z : α} (h : z ∈ blind role w) : z ∈ w := by
  rcases mem_of_mem_blindFrom (List.mem_reverse.mp h) with h | h
  · exact absurd h (by simp)
  · exact h

end PushBlind

section Clear

variable {α : Type*} {role : α → Role}

/-- No move up stands above the bottom of the stack. -/
def Clear (role : α → Role) (st : List α) : Prop :=
  ∀ x ∈ st.dropLast, role x ≠ .up

theorem clear_nil : Clear role ([] : List α) := by simp [Clear]

theorem clear_singleton (x : α) : Clear role [x] := by simp [Clear]

theorem clear_cons_cons {x y : α} {st : List α} :
    Clear role (x :: y :: st) ↔ role x ≠ .up ∧ Clear role (y :: st) := by
  simp [Clear, List.dropLast_cons_of_ne_nil]

theorem Clear.tail {x : α} {st : List α} (h : Clear role (x :: st)) : Clear role st := by
  cases st with
  | nil => exact clear_nil
  | cons y st => exact (clear_cons_cons.mp h).2

theorem Clear.cons {x : α} {st : List α} (h : Clear role st) (hx : role x ≠ .up) :
    Clear role (x :: st) := by
  cases st with
  | nil => exact clear_singleton x
  | cons y st => exact clear_cons_cons.mpr ⟨hx, h⟩

theorem Clear.of_append {st : List α} (l : List α) (h : Clear role (l ++ st)) :
    Clear role st := by
  induction l with
  | nil => exact h
  | cons x l ih => exact ih h.tail

theorem clear_pushBlind {st : List α} (h : Clear role st) (x : α) :
    Clear role (pushBlind role st x) := by
  by_cases hx : role x = .up
  · cases st with
    | nil =>
        rw [pushBlind_up_nil hx]
        exact clear_singleton x
    | cons y st =>
        rw [pushBlind_up_cons hx]
        exact h.tail
  · rw [pushBlind_of_ne_up hx]
    exact h.cons hx

theorem clear_blindFrom {st : List α} (h : Clear role st) (w : List α) :
    Clear role (blindFrom role st w) := by
  induction w generalizing st with
  | nil => exact h
  | cons x w ih => exact ih (clear_pushBlind h x)

theorem blindFrom_reverse_of_clear {st : List α} (h : Clear role st) :
    blindFrom role [] st.reverse = st := by
  induction st with
  | nil => rfl
  | cons x st ih =>
      rw [List.reverse_cons, blindFrom_append, ih h.tail, blindFrom_cons, blindFrom_nil]
      cases st with
      | nil =>
          by_cases hx : role x = .up
          · exact pushBlind_up_nil hx
          · exact pushBlind_of_ne_up hx []
      | cons y st => exact pushBlind_of_ne_up (clear_cons_cons.mp h).1 _

/-- Reducing a prefix blindly first does not change the blind reduction. -/
theorem blind_blind_append (v w : List α) :
    blind role (blind role v ++ w) = blind role (v ++ w) := by
  have hst : Clear role (blindFrom role [] v) := clear_blindFrom clear_nil v
  simp only [blind, blindFrom_append, blindFrom_reverse_of_clear hst]

@[simp] theorem blind_blind (w : List α) : blind role (blind role w) = blind role w := by
  have h := @blind_blind_append _ role w []
  simpa using h

theorem length_pushBlind_le (st : List α) (x : α) :
    (pushBlind role st x).length ≤ st.length + 1 := by
  by_cases hx : role x = .up
  · cases st with
    | nil => simp [pushBlind_up_nil hx]
    | cons y st =>
        rw [pushBlind_up_cons hx, List.length_cons]
        omega
  · exact Nat.le_of_eq (congrArg List.length (pushBlind_of_ne_up hx st))

theorem length_blind_le (w : List α) : (blind role w).length ≤ w.length := by
  have hfrom : ∀ st : List α, (blindFrom role st w).length ≤ st.length + w.length := by
    induction w with
    | nil => simp
    | cons x w ih =>
        intro st
        have h₁ := ih (pushBlind role st x)
        have h₂ : (pushBlind role st x).length ≤ _ := length_pushBlind_le st x
        rw [blindFrom_cons, List.length_cons]
        omega
  have h := hfrom []
  rw [blind, List.length_reverse]
  simpa using h

theorem length_blindFrom_mod_two (st w : List α) :
    (blindFrom role st w).length % 2 = (st.length + w.length) % 2 := by
  induction w generalizing st with
  | nil => rfl
  | cons x w ih =>
      have hpush : (pushBlind role st x).length % 2 = (st.length + 1) % 2 := by
        by_cases hx : role x = .up
        · cases st with
          | nil => rw [pushBlind_up_nil hx, List.length_singleton, List.length_nil]
          | cons y st =>
              rw [pushBlind_up_cons hx, List.length_cons]
              omega
        · rw [pushBlind_of_ne_up hx, List.length_cons]
      rw [blindFrom_cons, ih, List.length_cons]
      omega

theorem length_blind_mod_two (w : List α) : (blind role w).length % 2 = w.length % 2 := by
  rw [blind, List.length_reverse, length_blindFrom_mod_two, List.length_nil, Nat.zero_add]

theorem ne_up_of_mem_tail_blind {w : List α} {x : α} (h : x ∈ (blind role w).tail) :
    role x ≠ .up := by
  have hclear : Clear role (blindFrom role [] w) := clear_blindFrom clear_nil w
  rw [blind, List.tail_reverse, List.mem_reverse] at h
  exact hclear x h

/-- A word that is blindly reduced to the same behind a letter and without it, but for a move up
that is absorbed, is reduced to the same. -/
theorem blind_eq_of_reduce_eq {x : α} {v w : List α} (hv : blind role (x :: w) = x :: v)
    (h : reduce role true v = reduce role true (blind role w)) : blind role w = v := by
  have hup : ∀ y ∈ v, role y ≠ .up := fun y hy =>
    @ne_up_of_mem_tail_blind _ role (x :: w) y (by rw [hv]; exact hy)
  rw [reduce_eq_self hup] at h
  have hlength := @length_blind_mod_two _ role (x :: w)
  have hlength' := @length_blind_mod_two _ role w
  rw [hv, List.length_cons, List.length_cons] at hlength
  cases hb : blind role w with
  | nil =>
      rw [hb, reduce_nil] at h
      exact h.symm
  | cons y u =>
      have hu : ∀ z ∈ u, role z ≠ .up := fun z hz =>
        @ne_up_of_mem_tail_blind _ role w z (by rw [hb]; exact hz)
      rw [hb] at h
      by_cases hy : role y = .up
      · have habsorb : reduce role true (y :: u) = u := by
          rw [reduce, reduceFrom_cons, push_up_nil hy, if_pos rfl, ← reduce, reduce_eq_self hu]
        rw [habsorb] at h
        rw [hb, List.length_cons, ← h] at hlength'
        omega
      · rw [h, reduce_eq_self (List.forall_mem_cons.mpr ⟨hy, hu⟩)]

/-- A letter that does not move up and is left by the reduction of a word is left by it on any
stack. -/
theorem mem_blindFrom_blind {w : List α} {x : α} (hx : x ∈ blind role w) (hup : role x ≠ .up)
    (st : List α) : x ∈ blindFrom role st (blind role w) := by
  cases hb : blind role w with
  | nil =>
      rw [hb] at hx
      cases hx
  | cons y v =>
      rw [hb] at hx
      have hv : ∀ z ∈ v, role z ≠ .up := fun z hz =>
        ne_up_of_mem_tail_blind (w := w) (by rw [hb]; exact hz)
      rw [blindFrom_cons, blindFrom_of_ne_up hv, List.mem_append]
      rcases List.mem_cons.mp hx with rfl | hx
      · right
        rw [pushBlind_of_ne_up hup]
        exact List.mem_cons_self
      · exact .inl (List.mem_reverse.mpr hx)

end Clear

section Free

variable {α : Type*} {role : α → Role}

theorem clear_of_clear_push {st : List α} {x : α} (h : Clear role (push role false st x)) :
    Clear role st ∧ pushBlind role st x = push role false st x := by
  by_cases hx : role x = .up
  · cases st with
    | nil =>
        rw [push_up_nil hx, pushBlind_up_nil hx]
        exact ⟨clear_nil, rfl⟩
    | cons y st =>
        by_cases hy : role y = .plain
        · rw [push_up_plain hx hy] at h
          rw [push_up_plain hx hy, pushBlind_up_cons hx]
          exact ⟨h.cons (by simp [hy]), rfl⟩
        · rw [push_up_standing hx hy] at h
          exact absurd hx (clear_cons_cons.mp h).1
  · rw [push_of_ne_up hx] at h
    exact ⟨h.tail, by rw [push_of_ne_up hx, pushBlind_of_ne_up hx]⟩

theorem clear_of_clear_reduceFrom {st w : List α}
    (h : Clear role (reduceFrom role false st w)) :
    Clear role st ∧ blindFrom role st w = reduceFrom role false st w := by
  induction w generalizing st with
  | nil => exact ⟨h, rfl⟩
  | cons x w ih =>
      obtain ⟨hpush, hrest⟩ := ih h
      obtain ⟨hst, hstep⟩ := clear_of_clear_push hpush
      refine ⟨hst, ?_⟩
      rw [blindFrom_cons, hstep, hrest, reduceFrom_cons]

/-- On a free word the blind reduction is the reduction exactly when no move up
is left behind the first letter. -/
theorem blind_eq_reduce_iff (w : List α) :
    blind role w = reduce role false w ↔ ∀ x ∈ (reduce role false w).tail, role x ≠ .up := by
  constructor
  · intro h x hx
    rw [← h] at hx
    exact ne_up_of_mem_tail_blind hx
  · intro h
    have hclear : Clear role (reduceFrom role false [] w) := by
      intro x hx
      refine h x ?_
      rw [reduce, List.tail_reverse, List.mem_reverse]
      exact hx
    rw [blind, reduce, (clear_of_clear_reduceFrom hclear).2]

theorem reduce_blind (w : List α) : reduce role false (blind role w) = blind role w := by
  cases hb : blind role w with
  | nil => rfl
  | cons x v =>
      have hv : ∀ y ∈ v, role y ≠ .up := fun y hy =>
        ne_up_of_mem_tail_blind (w := w) (by rw [hb]; exact hy)
      have hx : push role false [] x = [x] := by
        rcases push_cases role false [] x with hp | ⟨-, _, _, hnil, -⟩ | ⟨-, -, hf, -⟩
        · exact hp
        · cases hnil
        · cases hf
      rw [reduce, reduceFrom_cons, hx, reduceFrom_of_ne_up hv]
      simp

end Free

section Anchored

variable {α : Type*} {role : α → Role}

/-- The moves up that the blind reduction keeps below the stack of an anchored
word: at most one, and one exactly when an odd number was absorbed. -/
def IsRemnant (role : α → Role) (n : ℕ) (f : List α) : Prop :=
  (n % 2 = 0 ∧ f = []) ∨ (n % 2 = 1 ∧ ∃ u, f = [u] ∧ role u = .up)

theorem isRemnant_zero : IsRemnant role 0 ([] : List α) := Or.inl ⟨rfl, rfl⟩

theorem IsRemnant.ups {n : ℕ} {f : List α} (h : IsRemnant role n f) :
    ∀ u ∈ f, role u = .up := by
  rcases h with ⟨-, rfl⟩ | ⟨-, u, rfl, hu⟩
  · simp
  · simpa using hu

theorem IsRemnant.length {n : ℕ} {f : List α} (h : IsRemnant role n f) :
    f.length = n % 2 := by
  rcases h with ⟨hn, rfl⟩ | ⟨hn, u, rfl, -⟩ <;> simp [hn]

theorem blindFrom_anchored {st f w : List α} {n : ℕ} (hf : IsRemnant role n f)
    (h : ∀ x ∈ reduceFrom role true st w, role x ≠ .up) :
    ∃ f', IsRemnant role (n + absorbedFrom role st w) f' ∧
      blindFrom role (st ++ f) w = reduceFrom role true st w ++ f' := by
  induction w generalizing st f n with
  | nil => exact ⟨f, by simpa [absorbedFrom] using hf, rfl⟩
  | cons x w ih =>
      by_cases hx : role x = .up
      · cases st with
        | nil =>
            have hpush : push role true ([] : List α) x = [] := by simp [push_up_nil hx]
            rw [reduceFrom_cons, hpush] at h
            have hstep : ∃ f₁, IsRemnant role (n + 1) f₁ ∧ pushBlind role f x = f₁ := by
              rcases hf with ⟨hn, rfl⟩ | ⟨hn, u, rfl, hu⟩
              · exact ⟨[x], Or.inr ⟨by omega, x, rfl, hx⟩, pushBlind_up_nil hx⟩
              · exact ⟨[], Or.inl ⟨by omega, rfl⟩, pushBlind_up_cons hx u []⟩
            obtain ⟨f₁, hf₁, hblind⟩ := hstep
            obtain ⟨f', hf', heq⟩ := @ih [] _ _ hf₁ h
            refine ⟨f', ?_, ?_⟩
            · rw [absorbedFrom, hpush, if_pos ⟨hx, rfl⟩, ← Nat.add_assoc]
              exact hf'
            · rw [reduceFrom_cons, hpush, ← heq, List.nil_append, blindFrom_cons, hblind,
                List.nil_append]
        | cons y st =>
            by_cases hy : role y = .plain
            · have hpush : push role true (y :: st) x = st := push_up_plain hx hy st
              rw [reduceFrom_cons, hpush] at h
              obtain ⟨f', hf', heq⟩ := ih hf h
              refine ⟨f', ?_, ?_⟩
              · rw [absorbedFrom, hpush, if_neg (by simp), Nat.zero_add]
                exact hf'
              · rw [reduceFrom_cons, hpush, ← heq, List.cons_append, blindFrom_cons,
                  pushBlind_up_cons hx]
            · have hup : ∃ z ∈ reduceFrom role true (y :: st) (x :: w), role z = .up := by
                rw [reduceFrom_cons, push_up_standing hx hy]
                exact exists_up_reduceFrom ⟨x, by simp, hx⟩ w
              obtain ⟨z, hz, hzup⟩ := hup
              exact absurd hzup (h z hz)
      · have hpush : push role true st x = x :: st := push_of_ne_up hx st
        rw [reduceFrom_cons, hpush] at h
        obtain ⟨f', hf', heq⟩ := ih hf h
        refine ⟨f', ?_, ?_⟩
        · rw [absorbedFrom, hpush, if_neg (by simp [hx]), Nat.zero_add]
          exact hf'
        · rw [reduceFrom_cons, hpush, ← heq, blindFrom_cons, pushBlind_of_ne_up hx,
            List.cons_append]

/-- On an anchored word whose reduction keeps no move up, the blind reduction
is the reduction behind at most one absorbed move up. -/
theorem blind_anchored {w : List α} (h : ∀ x ∈ reduce role true w, role x ≠ .up) :
    ∃ f, IsRemnant role (absorbed role w) f ∧ blind role w = f ++ reduce role true w := by
  have h' : ∀ x ∈ reduceFrom role true [] w, role x ≠ .up := fun x hx =>
    h x (List.mem_reverse.mpr hx)
  obtain ⟨f, hf, heq⟩ := blindFrom_anchored isRemnant_zero h'
  refine ⟨f, by simpa [absorbed] using hf, ?_⟩
  rw [List.nil_append] at heq
  have hrev : f.reverse = f := by
    rcases hf with ⟨-, rfl⟩ | ⟨-, u, rfl, -⟩ <;> rfl
  rw [blind, heq, List.reverse_append, hrev, reduce]

/-- The anchored reduction of what the blind reduction leaves keeps no move
up. -/
theorem ne_up_of_mem_reduce_blind {w : List α} {x : α}
    (h : x ∈ reduce role true (blind role w)) : role x ≠ .up := by
  cases hb : blind role w with
  | nil =>
      rw [hb] at h
      exact absurd h (by simp)
  | cons y v =>
      have hv : ∀ z ∈ v, role z ≠ .up := fun z hz =>
        ne_up_of_mem_tail_blind (w := w) (by rw [hb]; exact hz)
      rw [hb, reduce, List.mem_reverse, reduceFrom_cons, reduceFrom_of_ne_up hv,
        List.mem_append, List.mem_reverse] at h
      rcases h with h | h
      · exact hv x h
      · by_cases hy : role y = .up
        · rw [push_up_nil hy] at h
          exact absurd h (by simp)
        · rw [push_of_ne_up hy, List.mem_singleton] at h
          exact h ▸ hy

/-- On an anchored word the blind reduction loses nothing exactly when the
reduction keeps no move up. -/
theorem reduce_blind_eq_iff (w : List α) :
    reduce role true (blind role w) = reduce role true w ↔
      ∀ x ∈ reduce role true w, role x ≠ .up := by
  constructor
  · intro h x hx
    rw [← h] at hx
    exact ne_up_of_mem_reduce_blind hx
  · intro h
    obtain ⟨f, hf, heq⟩ := blind_anchored h
    rw [heq]
    have hnil : reduceFrom role true [] f = [] :=
      reduceFrom_climb_all (by simp) hf.ups (by simp)
    rw [reduce, reduceFrom_append, hnil]
    exact reduce_reduce w

end Anchored

section Rigid

variable {α : Type*} {role : α → Role} {anchored : Bool}

/-- A rigid letter shields what stands below it: when no move up is left, the
rest of the word only works above the letter, and the two reductions agree. -/
theorem reduceFrom_above_rigid {r : α} (hr : role r = .rigid) {xs st w : List α}
    (h : ∀ x ∈ reduceFrom role anchored (xs ++ r :: st) w, role x ≠ .up) :
    ∃ ys, ∀ bst, blindFrom role (xs ++ r :: bst) w = ys ++ r :: bst := by
  induction w generalizing xs with
  | nil => exact ⟨xs, fun bst => rfl⟩
  | cons x w ih =>
      rw [reduceFrom_cons] at h
      by_cases hx : role x = .up
      · have hstay : ∀ y st', xs ++ r :: st = y :: st' → role y = .plain := by
          intro y st' heq
          by_contra hy
          rw [heq, push_up_standing hx hy] at h
          have hhead : ∃ z ∈ x :: y :: st', role z = .up := ⟨x, by simp, hx⟩
          obtain ⟨z, hz, hup⟩ := exists_up_reduceFrom hhead w
          exact h z hz hup
        cases xs with
        | nil =>
            have := hstay r st rfl
            rw [hr] at this
            cases this
        | cons y xs =>
            rw [List.cons_append, push_up_plain hx (hstay y _ rfl)] at h
            obtain ⟨ys, hys⟩ := ih h
            exact ⟨ys, fun bst => by
              rw [List.cons_append, blindFrom_cons, pushBlind_up_cons hx, hys]⟩
      · rw [push_of_ne_up hx, ← List.cons_append] at h
        obtain ⟨ys, hys⟩ := ih h
        exact ⟨ys, fun bst => by
          rw [blindFrom_cons, pushBlind_of_ne_up hx, ← List.cons_append, hys]⟩

/-- When no move up is left, the blind reduction of a word splits before a
rigid letter. -/
theorem blind_append_rigid {r : α} (hr : role r = .rigid) {v w : List α}
    (h : ∀ x ∈ reduce role anchored (v ++ r :: w), role x ≠ .up) :
    blind role (v ++ r :: w) = blind role v ++ blind role (r :: w) ∧
      ∃ cs, blind role (r :: w) = r :: cs := by
  have hne : role r ≠ .up := by simp [hr]
  have h' : ∀ x ∈ reduceFrom role anchored ([] ++ r :: reduceFrom role anchored [] v) w,
      role x ≠ .up := by
    intro x hx
    refine h x ?_
    rw [reduce, List.mem_reverse, reduceFrom_append, reduceFrom_cons, push_of_ne_up hne]
    exact hx
  obtain ⟨ys, hys⟩ := reduceFrom_above_rigid hr h'
  have hblind : ∀ bst, blindFrom role bst (r :: w) = ys ++ r :: bst := by
    intro bst
    rw [blindFrom_cons, pushBlind_of_ne_up hne]
    exact hys bst
  refine ⟨?_, ys.reverse, ?_⟩
  · rw [blind, blindFrom_append, hblind, blind, blind, hblind]
    simp
  · rw [blind, hblind]
    simp

end Rigid

section Omit

variable {α : Type*} {role : α → Role} {anchored : Bool}

theorem countP_push_le (st : List α) (x : α) :
    st.countP (fun y => role y ≠ .plain) ≤
      (push role anchored st x).countP (fun y => role y ≠ .plain) := by
  rcases push_cases role anchored st x with hp | ⟨-, y, st', rfl, hy, hp⟩ | ⟨-, rfl, -, hp⟩
  · rw [hp]
    exact (List.sublist_cons_self x st).countP_le
  · exact Nat.le_of_eq (by rw [hp, List.countP_cons_of_neg (by simp [hy])])
  · exact Nat.le_of_eq (by rw [hp])

theorem countP_reduceFrom_le (st w : List α) :
    st.countP (fun y => role y ≠ .plain) ≤
      (reduceFrom role anchored st w).countP (fun y => role y ≠ .plain) := by
  induction w generalizing st with
  | nil => exact Nat.le_refl _
  | cons x w ih => exact Nat.le_trans (countP_push_le st x) (ih _)

/-- Below a letter that is not plain the stack is never reached again. -/
theorem reduceFrom_ne_tail {y : α} (hy : role y ≠ .plain) (st w : List α) :
    reduceFrom role anchored (y :: st) w ≠ st := by
  intro heq
  have hle := @countP_reduceFrom_le _ role anchored (y :: st) w
  rw [heq, List.countP_cons_of_pos (by simpa using hy)] at hle
  omega

/-- When the blind reduction of a free word is the reduction of a word with more letters in
front of the last one, these letters are without effect. -/
theorem reduce_omit_free {v h : List α} {n : Option α}
    (heq : blind role (v ++ n.toList) = reduce role false (v ++ h ++ n.toList)) :
    reduce role false (v ++ n.toList) = reduce role false (v ++ h ++ n.toList) := by
  have hrun : blindFrom role (blindFrom role [] v) n.toList =
      reduceFrom role false (reduceFrom role false [] v) (h ++ n.toList) := by
    rw [← reduceFrom_append, ← List.append_assoc, ← blindFrom_append]
    exact List.reverse_injective heq
  have hclear : Clear role (reduceFrom role false (reduceFrom role false [] v)
      (h ++ n.toList)) := by
    rw [← hrun, ← blindFrom_append]
    exact clear_blindFrom clear_nil _
  obtain ⟨hst, -⟩ := clear_of_clear_reduceFrom hclear
  obtain ⟨-, hblind⟩ := clear_of_clear_reduceFrom hst
  rw [hblind] at hrun
  have hkeep : Clear role (reduceFrom role false (reduceFrom role false [] v) n.toList) →
      reduce role false (v ++ n.toList) = reduce role false (v ++ h ++ n.toList) := by
    intro hn
    rw [← heq, reduce, blind, reduceFrom_append, blindFrom_append, hblind,
      (clear_of_clear_reduceFrom hn).2]
  cases n with
  | none => exact hkeep hst
  | some x =>
      refine hkeep ?_
      by_cases hx : role x = .up
      · cases hv : reduceFrom role false [] v with
        | nil =>
            rw [Option.toList_some, reduceFrom_cons, push_up_nil hx]
            exact clear_singleton x
        | cons y st =>
            rw [hv] at hst hrun
            by_cases hy : role y = .plain
            · rw [Option.toList_some, reduceFrom_cons, push_up_plain hx hy]
              exact hst.tail
            · refine absurd hrun.symm ?_
              rw [Option.toList_some, blindFrom_cons, pushBlind_up_cons hx]
              exact reduceFrom_ne_tail hy _ _
      · rw [Option.toList_some, reduceFrom_cons, push_of_ne_up hx]
        exact hst.cons hx

theorem reduce_omit_anchored {v h : List α} {n : Option α}
    (heq : reduce role true (blind role (v ++ n.toList)) =
      reduce role true (v ++ h ++ n.toList)) :
    reduce role true (v ++ n.toList) = reduce role true (v ++ h ++ n.toList) := by
  have hup : ∀ x ∈ reduceFrom role true (reduceFrom role true [] v) (h ++ n.toList),
      role x ≠ .up := by
    intro x hx
    rw [← reduceFrom_append, ← List.append_assoc, ← List.mem_reverse, ← reduce, ← heq] at hx
    exact ne_up_of_mem_reduce_blind hx
  have hst : ∀ x ∈ reduceFrom role true [] v, role x ≠ .up := by
    intro x hx hxup
    obtain ⟨y, hy, hyup⟩ := exists_up_reduceFrom ⟨x, hx, hxup⟩ (h ++ n.toList)
    exact hup y hy hyup
  have hkeep : (∀ x ∈ reduceFrom role true (reduceFrom role true [] v) n.toList,
      role x ≠ .up) →
      reduce role true (v ++ n.toList) = reduce role true (v ++ h ++ n.toList) := by
    intro hn
    rw [← heq]
    refine ((reduce_blind_eq_iff _).mpr fun x hx => hn x ?_).symm
    rw [← reduceFrom_append]
    exact List.mem_reverse.mp hx
  cases n with
  | none => exact hkeep hst
  | some x =>
      refine hkeep ?_
      by_cases hx : role x = .up
      · cases hv : reduceFrom role true [] v with
        | nil =>
            rw [Option.toList_some, reduceFrom_cons, push_up_nil hx]
            exact fun y hy => absurd hy List.not_mem_nil
        | cons y st =>
            rw [hv] at hst
            have htail : ∀ z ∈ st, role z ≠ .up := fun z hz =>
              hst z (List.mem_cons_of_mem y hz)
            by_cases hy : role y = .plain
            · rw [Option.toList_some, reduceFrom_cons, push_up_plain hx hy]
              exact htail
            · obtain ⟨f, hf, hblind⟩ := blindFrom_anchored isRemnant_zero
                (show ∀ z ∈ reduceFrom role true [] v, role z ≠ .up from hv ▸ hst)
              rw [List.nil_append, hv] at hblind
              have habsorb : reduceFrom role true [] f.reverse = [] :=
                reduceFrom_climb_all (Nat.zero_le _)
                  (fun u hu => hf.ups u (List.mem_reverse.mp hu))
                  fun z hz => absurd hz List.not_mem_nil
              have hlast : blind role (v ++ [x]) = f.reverse ++ st.reverse := by
                rw [blind, blindFrom_append, hblind, List.cons_append, blindFrom_cons,
                  pushBlind_up_cons hx, blindFrom_nil, List.reverse_append]
              have hback : reduceFrom role true (y :: st) (h ++ [x]) = st := by
                have hrev : reduce role true (blind role (v ++ [x])) = st.reverse := by
                  rw [hlast, reduce, reduceFrom_append, habsorb,
                    reduceFrom_of_ne_up fun z hz => htail z (List.mem_reverse.mp hz),
                    List.reverse_reverse, List.append_nil]
                rw [← hv, ← reduceFrom_append, ← List.append_assoc]
                exact List.reverse_injective (heq.symm.trans hrev)
              exact absurd hback (reduceFrom_ne_tail hy _ _)
      · rw [Option.toList_some, reduceFrom_cons, push_of_ne_up hx]
        exact List.forall_mem_cons.mpr ⟨hx, hst⟩

/-- When the blind reduction of a word denotes what the word with more letters in front of the
last one denotes, these letters are without effect. -/
theorem reduce_omit {v h : List α} {n : Option α}
    (heq : reduce role anchored (blind role (v ++ n.toList)) =
      reduce role anchored (v ++ h ++ n.toList)) :
    reduce role anchored (v ++ n.toList) = reduce role anchored (v ++ h ++ n.toList) := by
  cases anchored with
  | true => exact reduce_omit_anchored heq
  | false =>
      rw [reduce_blind] at heq
      exact reduce_omit_free heq

end Omit

end UpWord
