import Mathlib.Data.List.Forall2

/-!
# Runs of a fold that can fail

A loop that threads a state and can fail is a `foldlM` in `Except`. `Along f P`
says that `P` holds at every step of such a run, of the state before the step
and the element that the step is about. Two rules follow the run: an invariant
that may mention the elements that are done, and a simulation between two folds
whose relation may mention the elements that are still to come.
-/

namespace FoldRun

universe u

section Except

variable {ε : Type*} {α β : Type u}

theorem bind_eq_ok {x : Except ε α} {f : α → Except ε β} {b : β} :
    (x >>= f) = .ok b ↔ ∃ a, x = .ok a ∧ f a = .ok b := by
  cases x with
  | error e =>
      constructor
      · intro h
        cases h
      · rintro ⟨a, h, -⟩
        cases h
  | ok a =>
      constructor
      · exact fun h => ⟨a, rfl, h⟩
      · rintro ⟨a', h, h'⟩
        cases h
        exact h'

theorem map_eq_ok {x : Except ε α} {f : α → β} {b : β} :
    (f <$> x) = .ok b ↔ ∃ a, x = .ok a ∧ f a = b := by
  cases x with
  | error e =>
      constructor
      · intro h
        cases h
      · rintro ⟨a, h, -⟩
        cases h
  | ok a =>
      constructor
      · intro h
        exact ⟨a, rfl, Except.ok.inj h⟩
      · rintro ⟨a', h, rfl⟩
        cases h
        rfl

theorem toOption_eq_some {x : Except ε α} {a : α} : x.toOption = some a ↔ x = .ok a := by
  cases x with
  | error e => exact ⟨nofun, nofun⟩
  | ok a' => exact ⟨fun h => congrArg Except.ok (Option.some.inj h), fun h => by rw [h]; rfl⟩

end Except

section Related

variable {α β : Type*} {R : α → β → Prop} {l : List α} {l' : List β}

/-- In lists that are related element by element, every element has a partner. -/
theorem exists_right_of_forall₂ (h : List.Forall₂ R l l') {a : α} (ha : a ∈ l) :
    ∃ b ∈ l', R a b := by
  induction h with
  | nil => cases ha
  | cons hab _ ih =>
      rcases List.mem_cons.mp ha with rfl | ha
      · exact ⟨_, List.mem_cons_self .., hab⟩
      · obtain ⟨b, hb, hR⟩ := ih ha
        exact ⟨b, List.mem_cons_of_mem _ hb, hR⟩

theorem exists_left_of_forall₂ (h : List.Forall₂ R l l') {b : β} (hb : b ∈ l') :
    ∃ a ∈ l, R a b :=
  exists_right_of_forall₂ h.flip hb

theorem forall₂_trans {γ : Type*} {S : β → γ → Prop} {T : α → γ → Prop} {l'' : List γ}
    (hT : ∀ a b c, R a b → S b c → T a c) (h : List.Forall₂ R l l')
    (h' : List.Forall₂ S l' l'') : List.Forall₂ T l l'' := by
  induction h generalizing l'' with
  | nil =>
      cases h'
      exact .nil
  | cons hab _ ih =>
      cases h' with
      | cons hbc hrest => exact .cons (hT _ _ _ hab hbc) (ih hrest)

end Related

variable {ε σ τ ι : Type*}

/-- `P` holds at every step of a run. -/
def Along (f : σ → ι → Except ε σ) (P : σ → ι → Prop) : σ → List ι → Prop
  | _, [] => True
  | s, x :: xs => P s x ∧ match f s x with
      | .ok s' => Along f P s' xs
      | .error _ => True

instance (f : σ → ι → Except ε σ) (P : σ → ι → Prop) [∀ s x, Decidable (P s x)] :
    ∀ s l, Decidable (Along f P s l)
  | _, [] => inferInstanceAs (Decidable True)
  | s, x :: xs =>
      match h : f s x with
      | .ok s' =>
          have := instDecidableAlong f P s' xs
          decidable_of_iff (P s x ∧ Along f P s' xs) (by rw [Along, h])
      | .error _ => decidable_of_iff (P s x) (by simp [Along, h])

section Run

variable {f : σ → ι → Except ε σ} {g : τ → ι → Except ε τ} {P : σ → ι → Prop}

theorem foldlM_nil_eq_ok {s s' : σ} : [].foldlM f s = .ok s' ↔ s = s' := by
  rw [List.foldlM_nil]
  exact ⟨fun h => Except.ok.inj h, fun h => congrArg Except.ok h⟩

theorem foldlM_cons_eq_ok {s s' : σ} {x : ι} {xs : List ι} :
    (x :: xs).foldlM f s = .ok s' ↔ ∃ s₁, f s x = .ok s₁ ∧ xs.foldlM f s₁ = .ok s' := by
  rw [List.foldlM_cons, bind_eq_ok]

theorem along_cons {s : σ} {x : ι} {xs : List ι} :
    Along f P s (x :: xs) ↔ P s x ∧ ∀ s', f s x = .ok s' → Along f P s' xs := by
  rw [Along]
  cases f s x <;> simp

theorem along_of_forall (h : ∀ s x, P s x) (s : σ) (l : List ι) : Along f P s l := by
  induction l generalizing s with
  | nil => trivial
  | cons x xs ih => exact along_cons.mpr ⟨h s x, fun s' _ => ih s'⟩

theorem Along.and_of_forall {Q : ι → Prop} {s : σ} {l : List ι} (h : Along f P s l)
    (hQ : ∀ x ∈ l, Q x) : Along f (fun s x => Q x ∧ P s x) s l := by
  induction l generalizing s with
  | nil => trivial
  | cons x xs ih =>
      rw [along_cons] at h ⊢
      exact ⟨⟨hQ x (by simp), h.1⟩, fun s' hs' => ih (h.2 s' hs') fun y hy => hQ y (by simp [hy])⟩

/-- What every step preserves holds at the end of the run, together with the
elements that are done. -/
theorem foldlM_invariant {I : List ι → σ → Prop}
    (hstep : ∀ done s x s', I done s → P s x → f s x = .ok s' → I (done ++ [x]) s')
    {d l : List ι} {s s' : σ} (hs : I d s) (hP : Along f P s l)
    (hrun : l.foldlM f s = .ok s') : I (d ++ l) s' := by
  induction l generalizing d s with
  | nil =>
      obtain rfl := foldlM_nil_eq_ok.mp hrun
      rwa [List.append_nil]
  | cons x xs ih =>
      obtain ⟨s₁, hx, hxs⟩ := foldlM_cons_eq_ok.mp hrun
      rw [along_cons] at hP
      have h := ih (hstep d s x s₁ hs hP.1 hx) (hP.2 s₁ hx) hxs
      rwa [List.append_assoc, List.singleton_append] at h

/-- A run goes through when every step does and keeps what the next step needs. -/
theorem foldlM_total {I : σ → Prop} {P : ι → Prop}
    (hstep : ∀ s x, I s → P x → ∃ s', f s x = .ok s' ∧ I s') {l : List ι} {s : σ} (hs : I s)
    (hP : ∀ x ∈ l, P x) : ∃ s', l.foldlM f s = .ok s' ∧ I s' := by
  induction l generalizing s with
  | nil => exact ⟨s, foldlM_nil_eq_ok.mpr rfl, hs⟩
  | cons x xs ih =>
      obtain ⟨s₁, hx, hs₁⟩ := hstep s x hs (hP x (by simp))
      obtain ⟨s', hxs, hs'⟩ := ih hs₁ fun y hy => hP y (by simp [hy])
      exact ⟨s', foldlM_cons_eq_ok.mpr ⟨s₁, hx, hxs⟩, hs'⟩

theorem mapM_eq_ok {α β : Type u} {f : α → Except ε β} {l : List α} {l' : List β} :
    l.mapM f = .ok l' ↔ List.Forall₂ (fun a b => f a = .ok b) l l' := by
  induction l generalizing l' with
  | nil =>
      rw [List.mapM_nil, List.forall₂_nil_left_iff]
      exact ⟨fun h => (Except.ok.inj h).symm, fun h => congrArg Except.ok h.symm⟩
  | cons a l ih =>
      rw [List.mapM_cons, bind_eq_ok, List.forall₂_cons_left_iff]
      refine exists_congr fun b => ?_
      rw [bind_eq_ok]
      constructor
      · rintro ⟨hb, bs, hbs, heq⟩
        exact ⟨bs, hb, ih.mp hbs, (Except.ok.inj heq).symm⟩
      · rintro ⟨bs, hb, hbs, rfl⟩
        exact ⟨hb, bs, ih.mpr hbs, rfl⟩

/-- A function that always has a result is mapped to the list of its results. -/
theorem mapM_of_forall {α β : Type u} {f : α → Except ε β} {g : α → β} {l : List α}
    (h : ∀ a ∈ l, f a = .ok (g a)) : l.mapM f = .ok (l.map g) := by
  rw [mapM_eq_ok]
  induction l with
  | nil => exact .nil
  | cons a l ih =>
      exact .cons (h a List.mem_cons_self) (ih fun b hb => h b (List.mem_cons_of_mem _ hb))

theorem mem_mapM {α β : Type u} {f : α → Except ε β} {l : List α} {l' : List β}
    (h : l.mapM f = .ok l') {b : β} : b ∈ l' ↔ ∃ a ∈ l, f a = .ok b := by
  have hall := mapM_eq_ok.mp h
  constructor
  · exact fun hb => exists_left_of_forall₂ hall hb
  · rintro ⟨a, ha, hfa⟩
    obtain ⟨b', hb', hfa'⟩ := exists_right_of_forall₂ hall ha
    obtain rfl : b' = b := Except.ok.inj (hfa'.symm.trans hfa)
    exact hb'

theorem exists_of_mem_mapM {α β : Type u} {f : α → Except ε β} {l : List α} {l' : List β}
    (h : l.mapM f = .ok l') {b : β} (hb : b ∈ l') : ∃ a ∈ l, f a = .ok b :=
  (mem_mapM h).mp hb

/-- What the results for the elements of a list have, all together. -/
theorem mem_flatten_mapM {α β : Type u} {f : α → Except ε (List β)} {l : List α}
    {ls : List (List β)} (h : l.mapM f = .ok ls) {b : β} :
    b ∈ ls.flatten ↔ ∃ a ∈ l, ∃ bs, f a = .ok bs ∧ b ∈ bs := by
  rw [List.mem_flatten]
  constructor
  · rintro ⟨bs, hbs, hb⟩
    obtain ⟨a, ha, hfa⟩ := (mem_mapM h).mp hbs
    exact ⟨a, ha, bs, hfa, hb⟩
  · rintro ⟨a, ha, bs, hfa, hb⟩
    exact ⟨bs, (mem_mapM h).mpr ⟨a, ha, hfa⟩, hb⟩

theorem mapM_eq_some {α β : Type u} {f : α → Option β} {l : List α} {l' : List β} :
    l.mapM f = some l' ↔ List.Forall₂ (fun a b => f a = some b) l l' := by
  induction l generalizing l' with
  | nil =>
      rw [List.mapM_nil, List.forall₂_nil_left_iff]
      exact ⟨fun h => (Option.some.inj h).symm, fun h => congrArg some h.symm⟩
  | cons a l ih =>
      rw [List.mapM_cons, Option.bind_eq_bind, Option.bind_eq_some_iff,
        List.forall₂_cons_left_iff]
      refine exists_congr fun b => ?_
      rw [Option.bind_eq_bind, Option.bind_eq_some_iff]
      constructor
      · rintro ⟨hb, bs, hbs, heq⟩
        exact ⟨bs, hb, ih.mp hbs, (Option.some.inj heq).symm⟩
      · rintro ⟨bs, hb, hbs, rfl⟩
        exact ⟨hb, bs, ih.mpr hbs, rfl⟩

theorem exists_mapM_eq_some {α β : Type u} {f : α → Option β} {l : List α}
    (h : ∀ a ∈ l, (f a).isSome) : ∃ l', l.mapM f = some l' := by
  induction l with
  | nil => exact ⟨[], rfl⟩
  | cons a l ih =>
      obtain ⟨b, hb⟩ := Option.isSome_iff_exists.mp (h a (by simp))
      obtain ⟨bs, hbs⟩ := ih fun x hx => h x (by simp [hx])
      refine ⟨b :: bs, mapM_eq_some.mpr (.cons hb (mapM_eq_some.mp hbs))⟩

/-- Two runs over the same elements stay related when every step relates them
again. -/
theorem foldlM_simulation {R : List ι → σ → τ → Prop}
    (hstep : ∀ s t x xs s', R (x :: xs) s t → P s x → f s x = .ok s' →
      ∃ t', g t x = .ok t' ∧ R xs s' t')
    {l : List ι} {s s' : σ} {t : τ} (hR : R l s t) (hP : Along f P s l)
    (hrun : l.foldlM f s = .ok s') : ∃ t', l.foldlM g t = .ok t' ∧ R [] s' t' := by
  induction l generalizing s t with
  | nil =>
      obtain rfl := foldlM_nil_eq_ok.mp hrun
      exact ⟨t, rfl, hR⟩
  | cons x xs ih =>
      obtain ⟨s₁, hx, hxs⟩ := foldlM_cons_eq_ok.mp hrun
      rw [along_cons] at hP
      obtain ⟨t₁, ht, hR₁⟩ := hstep s t x xs s₁ hR hP.1 hx
      obtain ⟨t', ht', hR'⟩ := ih hR₁ (hP.2 s₁ hx) hxs
      exact ⟨t', foldlM_cons_eq_ok.mpr ⟨t₁, ht, ht'⟩, hR'⟩

end Run

end FoldRun
