import Puremake.Fold.Basic

/-!
# What a computation that can fail comes to

`Ends E Q x` says of a computation in `Except` that its error, if it ends with one, is one of
`E`, and that its result, if it has one, has the property `Q`. With `fun _ => False` for `E` the
computation has a result. A computation in several steps is taken step by step: each of them
may only rely on what the step before it yields.
-/

namespace FoldRun

universe u

variable {ε : Type*} {α β : Type u} {E : ε → Prop}

/-- The error of a computation is one of some errors, and its result has a property. -/
def Ends (E : ε → Prop) (Q : α → Prop) : Except ε α → Prop
  | .error e => E e
  | .ok a => Q a

theorem ends_ok {Q : α → Prop} {a : α} (h : Q a) : Ends E Q (.ok a) := h

theorem ends_pure {Q : α → Prop} {a : α} (h : Q a) : Ends E Q (pure a) := h

theorem ends_of_eq_ok {Q : α → Prop} {x : Except ε α} {a : α} (hx : x = .ok a) (h : Q a) :
    Ends E Q x := by
  rw [hx]
  exact h

namespace Ends

variable {P Q : α → Prop} {R : β → Prop} {x : Except ε α}

theorem imp (h : Ends E P x) (hPQ : ∀ a, P a → Q a) : Ends E Q x := by
  cases x with
  | error e => exact h
  | ok a => exact hPQ a h

theorem weaken {E' : ε → Prop} (h : Ends E P x) (hE : ∀ e, E e → E' e) : Ends E' P x := by
  cases x with
  | error e => exact hE e h
  | ok a => exact h

theorem and_of_ok (h : Ends E P x) (hQ : ∀ a, x = .ok a → Q a) :
    Ends E (fun a => P a ∧ Q a) x := by
  cases x with
  | error e => exact h
  | ok a => exact ⟨h, hQ a rfl⟩

theorem bind {f : α → Except ε β} (h : Ends E P x) (hf : ∀ a, P a → Ends E R (f a)) :
    Ends E R (x >>= f) := by
  cases x with
  | error e => exact h
  | ok a => exact hf a h

theorem map {f : α → β} (h : Ends E P x) (hf : ∀ a, P a → R (f a)) : Ends E R (x.map f) := by
  cases x with
  | error e => exact h
  | ok a => exact hf a h

theorem of_ok (h : Ends E P x) {a : α} (hx : x = .ok a) : P a := by
  rw [hx] at h
  exact h

theorem of_error (h : Ends E P x) {e : ε} (hx : x = .error e) : E e := by
  rw [hx] at h
  exact h

theorem exists_ok (h : Ends (fun _ : ε => False) P x) : ∃ a, x = .ok a ∧ P a := by
  cases x with
  | error e => exact h.elim
  | ok a => exact ⟨a, rfl, h⟩

end Ends

theorem ends_foldlM {σ ι : Type*} {f : σ → ι → Except ε σ} {I : σ → Prop} {l : List ι} {s : σ}
    (hs : I s) (hstep : ∀ s, ∀ x ∈ l, I s → Ends E I (f s x)) :
    Ends E I (l.foldlM f s) := by
  induction l generalizing s with
  | nil => exact hs
  | cons x xs ih =>
      rw [List.foldlM_cons]
      refine (hstep s x List.mem_cons_self hs).bind fun s₁ hs₁ => ?_
      exact ih hs₁ fun t y hy => hstep t y (List.mem_cons_of_mem x hy)

theorem ends_mapM {f : α → Except ε β} {R : β → Prop} {l : List α}
    (h : ∀ a ∈ l, Ends E R (f a)) : Ends E (fun bs => ∀ b ∈ bs, R b) (l.mapM f) := by
  induction l with
  | nil => exact fun b hb => absurd hb List.not_mem_nil
  | cons a l ih =>
      rw [List.mapM_cons]
      refine (h a List.mem_cons_self).bind fun b hb => ?_
      refine (ih fun c hc => h c (List.mem_cons_of_mem a hc)).bind fun bs hbs => ?_
      refine ends_pure fun c hc => ?_
      rcases List.mem_cons.mp hc with rfl | hc
      · exact hb
      · exact hbs c hc

section ForM

variable {ι : Type*} {f : ι → Except ε PUnit.{u + 1}} {l : List ι}

theorem forM_eq_ok_iff : forM l f = .ok ⟨⟩ ↔ ∀ x ∈ l, f x = .ok ⟨⟩ := by
  induction l with
  | nil => exact iff_of_true rfl fun x hx => absurd hx List.not_mem_nil
  | cons x l ih =>
      rw [List.forM_cons, bind_eq_ok, List.forall_mem_cons, ← ih]
      constructor
      · rintro ⟨_, hx, hl⟩
        exact ⟨hx, hl⟩
      · rintro ⟨hx, hl⟩
        exact ⟨⟨⟩, hx, hl⟩

theorem ends_forM (h : ∀ x ∈ l, Ends E (fun _ => True) (f x)) :
    Ends E (fun _ => True) (forM l f) := by
  induction l with
  | nil => exact ends_pure trivial
  | cons x l ih =>
      rw [List.forM_cons]
      refine (h x List.mem_cons_self).bind fun _ _ => ?_
      exact ih fun y hy => h y (List.mem_cons_of_mem x hy)

end ForM

theorem ends_self (x : Except ε α) : Ends (fun _ => True) (fun a => x = .ok a) x := by
  cases x with
  | error e => trivial
  | ok a => rfl

theorem ends_mapError {ε' : Type*} {E' : ε' → Prop} {Q : α → Prop} {f : ε → ε'} {x : Except ε α}
    (h : Ends E Q x) (hf : ∀ e, E e → E' (f e)) : Ends E' Q (x.mapError f) := by
  cases x with
  | error e => exact hf e h
  | ok a => exact h

theorem mapError_eq_ok_iff {ε' : Type*} {f : ε → ε'} {x : Except ε α} {a : α} :
    x.mapError f = .ok a ↔ x = .ok a := by
  cases x with
  | error e => exact iff_of_false (fun h => by cases h) fun h => by cases h
  | ok b => exact ⟨fun h => congrArg Except.ok (Except.ok.inj h), fun h => by cases h; rfl⟩

end FoldRun
