import Puremake.Fold.Basic
import Mathlib.Order.Basic
import Mathlib.Tactic.Choose

/-!
# Functions that are given fuel

A function that calls itself without a measure is given fuel, and stops with an error when the
fuel is used up. It yields a value when it returns this value with any fuel from some amount on.
What a function yields is unique, and functions that follow one another, or are run over a list,
yield what they should when each of them does.
-/

namespace Fuel

universe u

variable {ε : Type*}

/-- With enough fuel, the function returns the value. -/
def Yields {α : Type*} (f : ℕ → Except ε α) (a : α) : Prop :=
  ∃ fuel₀, ∀ fuel, fuel₀ ≤ fuel → f fuel = .ok a

section Yields

variable {α β : Type u} {f : ℕ → Except ε α} {a : α}

theorem yields_ok (a : α) : Yields (fun _ => (.ok a : Except ε α)) a := ⟨0, fun _ _ => rfl⟩

theorem Yields.unique {b : α} (ha : Yields f a) (hb : Yields f b) : a = b := by
  obtain ⟨n, hn⟩ := ha
  obtain ⟨m, hm⟩ := hb
  have ha := hn (max n m) (Nat.le_max_left n m)
  have hb := hm (max n m) (Nat.le_max_right n m)
  exact Except.ok.inj (ha.symm.trans hb)

theorem yields_succ_iff {g : ℕ → Except ε α} (h : ∀ fuel, f (fuel + 1) = g fuel) :
    Yields f a ↔ Yields g a := by
  constructor
  · rintro ⟨n, hn⟩
    exact ⟨n, fun fuel hfuel => (h fuel).symm.trans (hn _ (Nat.le_succ_of_le hfuel))⟩
  · rintro ⟨n, hn⟩
    refine ⟨n + 1, fun fuel hfuel => ?_⟩
    obtain ⟨fuel, rfl⟩ := Nat.exists_eq_add_of_le' hfuel
    exact (h _).trans (hn _ (Nat.le_add_left n fuel))

theorem Yields.bind {g : ℕ → α → Except ε β} {b : β} (ha : Yields f a)
    (hb : Yields (fun fuel => g fuel a) b) : Yields (fun fuel => f fuel >>= g fuel) b := by
  obtain ⟨n, hn⟩ := ha
  obtain ⟨m, hm⟩ := hb
  refine ⟨max n m, fun fuel hfuel => ?_⟩
  have ha := hn fuel (Nat.le_trans (Nat.le_max_left n m) hfuel)
  have hb := hm fuel (Nat.le_trans (Nat.le_max_right n m) hfuel)
  exact FoldRun.bind_eq_ok.mpr ⟨a, ha, hb⟩

theorem Yields.mapM {g : ℕ → α → Except ε β} {h : α → β} {l : List α}
    (hl : ∀ x ∈ l, Yields (fun fuel => g fuel x) (h x)) :
    Yields (fun fuel => l.mapM (g fuel)) (l.map h) := by
  induction l with
  | nil => exact ⟨0, fun _ _ => rfl⟩
  | cons x l ih =>
      obtain ⟨n, hn⟩ := hl x List.mem_cons_self
      obtain ⟨m, hm⟩ := ih fun y hy => hl y (List.mem_cons_of_mem _ hy)
      refine ⟨max n m, fun fuel hfuel => ?_⟩
      have hx := hn fuel (Nat.le_trans (Nat.le_max_left n m) hfuel)
      have hl := hm fuel (Nat.le_trans (Nat.le_max_right n m) hfuel)
      show (x :: l).mapM (g fuel) = .ok ((x :: l).map h)
      rw [List.mapM_cons]
      exact FoldRun.bind_eq_ok.mpr ⟨h x, hx, FoldRun.bind_eq_ok.mpr ⟨_, hl, rfl⟩⟩

/-- The lists that a function returns for the members of a list, one behind the other. -/
theorem Yields.flatMapM {g : ℕ → α → Except ε (List β)} {h : α → List β} {l : List α}
    (hl : ∀ x ∈ l, Yields (fun fuel => g fuel x) (h x)) :
    Yields (fun fuel => do return (← l.mapM (g fuel)).flatten) (l.flatMap h) := by
  rw [List.flatMap_def]
  exact (Yields.mapM hl).bind (yields_ok _)

end Yields

end Fuel
