import Mathlib.Data.List.Basic

/-!
# Runs that put something out and may end with an error

What a run has put out by the time an error ends it counts. A loop puts out what its rounds do, up
to the first one that ends with an error.
-/

universe u v w

/-- What is put out, in this order, and the value or the error at the end. -/
structure Emit (ω : Type u) (ε : Type v) (α : Type w) where
  passed : List ω
  result : Except ε α

namespace Emit

variable {ω : Type u} {ε : Type v} {α β : Type w} {ι : Type*}

instance : Monad (Emit ω ε) where
  pure a := ⟨[], .ok a⟩
  bind x f :=
    match x.result with
    | .ok a => ⟨x.passed ++ (f a).passed, (f a).result⟩
    | .error e => ⟨x.passed, .error e⟩

/-- A value that is computed, and nothing is put out. -/
def of (y : Except ε α) : Emit ω ε α := ⟨[], y⟩

/-- A loop. -/
def each : List ι → (ι → Emit ω ε Unit) → Emit ω ε Unit
  | [], _ => pure ()
  | i :: l, f => do
    f i
    each l f

section Bind

variable {x : Emit ω ε α} {y : Except ε α} {a : α} {e : ε}

theorem bind_ok (h : x.result = .ok a) (g : α → Emit ω ε β) :
    x >>= g = ⟨x.passed ++ (g a).passed, (g a).result⟩ := by
  show (match x.result with | .ok a => _ | .error e => _) = _
  rw [h]

theorem bind_error (h : x.result = .error e) (g : α → Emit ω ε β) :
    x >>= g = ⟨x.passed, .error e⟩ := by
  show (match x.result with | .ok a => _ | .error e => _) = _
  rw [h]

theorem of_bind (h : y = .ok a) (g : α → Emit ω ε β) : of y >>= g = g a := by
  subst h
  rfl

theorem of_bind_error (h : y = .error e) (g : α → Emit ω ε β) :
    of y >>= g = ⟨[], .error e⟩ := by
  subst h
  rfl

end Bind

section Each

variable {f : ι → Emit ω ε Unit}

/-- A loop that goes on to its end. -/
theorem each_ok {l : List ι} (h : ∀ i ∈ l, (f i).result = .ok ()) :
    each l f = ⟨l.flatMap fun i => (f i).passed, .ok ()⟩ := by
  induction l with
  | nil => rfl
  | cons i l ih =>
      rw [each, bind_ok (h i List.mem_cons_self),
        ih fun j hj => h j (List.mem_cons_of_mem i hj), List.flatMap_cons]

/-- A loop that ends with an error. -/
theorem each_error {before : List ι} (after : List ι) {i : ι} {e : ε}
    (h : ∀ j ∈ before, (f j).result = .ok ()) (hi : (f i).result = .error e) :
    each (before ++ i :: after) f =
      ⟨(before.flatMap fun j => (f j).passed) ++ (f i).passed, .error e⟩ := by
  induction before with
  | nil => rw [List.nil_append, each, bind_error hi, List.flatMap_nil, List.nil_append]
  | cons j before ih =>
      rw [List.cons_append, each, bind_ok (h j List.mem_cons_self),
        ih fun k hk => h k (List.mem_cons_of_mem j hk), List.flatMap_cons, List.append_assoc]

end Each

end Emit
