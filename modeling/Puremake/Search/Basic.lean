import Puremake.Fold.Basic
import Mathlib.Data.Finset.Card
import Mathlib.Order.Bounds.Basic

/-!
# Searching a graph with one list of nodes that were found

A recursive search is given the names of some nodes. It enters those that were
not found before, and then goes on from each of them in turn, where every
recursive call works on the same list of what was found. The graph is given by
`succ`, which is `none` for a node that the search does not go on from.

`Reach` is the purpose of such a search: what can be reached from the names
without passing through the nodes that were known before. Searches can follow
one another with the same list, and what they find does not depend on the order
in which they are made.
-/

namespace Search

open FoldRun

variable {α : Type*}

/-- The nodes that can be reached from the seeds along edges, where nodes that are
to be avoided do not count. -/
inductive Reach (avoid seed : α → Prop) (edge : α → α → Prop) : α → Prop
  | seed {n : α} (hn : seed n) (hnew : ¬ avoid n) : Reach avoid seed edge n
  | step {m n : α} (hm : Reach avoid seed edge m) (hmn : edge m n) (hnew : ¬ avoid n) :
      Reach avoid seed edge n

/-- A set that contains the seeds and is closed under the edges, up to the nodes
that are to be avoided. -/
def Closed (avoid seed : α → Prop) (edge : α → α → Prop) (S : Set α) : Prop :=
  ∀ n, ¬ avoid n → (seed n ∨ ∃ m ∈ S, edge m n) → n ∈ S

section Reach

variable {avoid avoid' seed seed' : α → Prop} {edge : α → α → Prop}

theorem Reach.not_avoid {n : α} (h : Reach avoid seed edge n) : ¬ avoid n := by
  cases h with
  | seed _ hnew => exact hnew
  | step _ _ hnew => exact hnew

theorem isLeast_reach :
    IsLeast {S : Set α | Closed avoid seed edge S} {n | Reach avoid seed edge n} := by
  constructor
  · rintro n hnew (hn | ⟨m, hm, hmn⟩)
    · exact Reach.seed hn hnew
    · exact Reach.step hm hmn hnew
  · intro S hS n hn
    induction hn with
    | seed hn hnew => exact hS _ hnew (Or.inl hn)
    | step _ hmn hnew ih => exact hS _ hnew (Or.inr ⟨_, ih, hmn⟩)

/-- A later search avoids more, and everything that it starts from is within the
reach of the first one. -/
theorem Reach.of_seed (havoid : ∀ n, avoid n → avoid' n)
    (hseed : ∀ n, seed' n → ¬ avoid n → Reach avoid seed edge n) {n : α}
    (h : Reach avoid' seed' edge n) : Reach avoid seed edge n := by
  induction h with
  | seed hn hnew => exact hseed _ hn fun h => hnew (havoid _ h)
  | step _ hmn hnew ih => exact .step ih hmn fun h => hnew (havoid _ h)

end Reach

def Edge (succ : α → Option (List α)) (m n : α) : Prop := ∃ ns ∈ succ m, n ∈ ns

/-- What a search leaves behind: the nodes that were known and the names are found,
everything that is new was gone on from, and nothing was found without reason. -/
structure Found (succ : α → Option (List α)) (known names found : List α) : Prop where
  known_subset : known ⊆ found
  names_subset : names ⊆ found
  expanded : ∀ m ∈ found, m ∉ known → ∀ n, Edge succ m n → n ∈ found
  reached : ∀ n ∈ found, n ∉ known → Reach (· ∈ known) (· ∈ names) (Edge succ) n

section Found

variable {succ : α → Option (List α)} {known names names' mid found : List α}

theorem Found.refl (succ : α → Option (List α)) (known : List α) : Found succ known [] known where
  known_subset := List.Subset.refl _
  names_subset := by simp
  expanded := fun _ hm hnew => absurd hm hnew
  reached := fun _ hn hnew => absurd hn hnew

/-- Two searches that follow one another are one search for the names of both. -/
theorem Found.trans (h₁ : Found succ known names mid) (h₂ : Found succ mid names' found) :
    Found succ known (names ++ names') found where
  known_subset := List.Subset.trans h₁.known_subset h₂.known_subset
  names_subset := List.append_subset.mpr
    ⟨List.Subset.trans h₁.names_subset h₂.known_subset, h₂.names_subset⟩
  expanded := by
    intro m hm hnew n hmn
    by_cases hmid : m ∈ mid
    · exact h₂.known_subset (h₁.expanded m hmid hnew n hmn)
    · exact h₂.expanded m hm hmid n hmn
  reached := by
    intro n hn hnew
    by_cases hmid : n ∈ mid
    · exact (h₁.reached n hmid hnew).of_seed (fun _ h => h)
        fun m hm hnew => .seed (by simp [hm]) hnew
    · exact (h₂.reached n hn hmid).of_seed (fun _ h => h₁.known_subset h)
        fun m hm hnew => .seed (by simp [hm]) hnew

theorem Found.mem_iff (h : Found succ known names found) {n : α} :
    n ∈ found ↔ n ∈ known ∨ Reach (· ∈ known) (· ∈ names) (Edge succ) n := by
  constructor
  · intro hn
    by_cases hknown : n ∈ known
    · exact Or.inl hknown
    · exact Or.inr (h.reached n hn hknown)
  · rintro (hn | hn)
    · exact h.known_subset hn
    · induction hn with
      | seed hn _ => exact h.names_subset hn
      | step hm hmn _ ih => exact h.expanded _ ih hm.not_avoid _ hmn

end Found

variable [DecidableEq α]

def fresh (found : List α) : List α → List α
  | [] => []
  | n :: ns => if n ∈ found then fresh found ns else n :: fresh (found ++ [n]) ns

/-- The search. It ends with the error `stop` when the fuel is used up. -/
def visit {ε : Type*} (stop : ε) (succ : α → Option (List α)) :
    ℕ → List α → List α → Except ε (List α)
  | 0, _, _ => .error stop
  | fuel + 1, found, names =>
      (fresh found names).foldlM
        (fun found n => (succ n).elim (.ok found) (visit stop succ fuel found))
        (found ++ fresh found names)

section Fresh

variable {found names : List α} {n : α}

theorem mem_fresh : n ∈ fresh found names ↔ n ∈ names ∧ n ∉ found := by
  induction names generalizing found with
  | nil => simp [fresh]
  | cons m ns ih =>
      rw [fresh]
      split
      · rename_i hm
        rw [ih, List.mem_cons]
        constructor
        · exact fun h => ⟨Or.inr h.1, h.2⟩
        · rintro ⟨rfl | h, hn⟩
          · exact absurd hm hn
          · exact ⟨h, hn⟩
      · rename_i hm
        rw [List.mem_cons, ih, List.mem_cons, List.mem_append, List.mem_singleton]
        constructor
        · rintro (rfl | ⟨h, hn⟩)
          · exact ⟨Or.inl rfl, hm⟩
          · exact ⟨Or.inr h, fun h' => hn (Or.inl h')⟩
        · rintro ⟨rfl | h, hn⟩
          · exact Or.inl rfl
          · by_cases heq : n = m
            · exact Or.inl heq
            · exact Or.inr ⟨h, by simp [hn, heq]⟩

theorem nodup_fresh : (fresh found names).Nodup := by
  induction names generalizing found with
  | nil => simp [fresh]
  | cons m ns ih =>
      rw [fresh]
      split
      · exact ih
      · refine List.nodup_cons.mpr ⟨?_, ih⟩
        simp [mem_fresh]

theorem fresh_congr {found' : List α} (h : ∀ n ∈ names, n ∈ found ↔ n ∈ found') :
    fresh found names = fresh found' names := by
  induction names generalizing found found' with
  | nil => rfl
  | cons m ns ih =>
      have htail : ∀ n ∈ ns, n ∈ found ↔ n ∈ found' := fun n hn => h n (List.mem_cons_of_mem m hn)
      rw [fresh, fresh, ih htail]
      by_cases hm : m ∈ found
      · rw [if_pos hm, if_pos ((h m List.mem_cons_self).mp hm)]
      · rw [if_neg hm, if_neg fun hm' => hm ((h m List.mem_cons_self).mpr hm')]
        refine congrArg (m :: ·) (ih fun n hn => ?_)
        rw [List.mem_append, List.mem_append, htail n hn]

theorem filter_fresh (p : α → Bool) :
    (fresh found names).filter p = fresh found (names.filter p) := by
  induction names generalizing found with
  | nil => rfl
  | cons m ns ih =>
      rw [fresh]
      by_cases hp : p m
      · rw [List.filter_cons_of_pos hp, fresh]
        split
        · exact ih
        · rw [List.filter_cons_of_pos hp, ih]
      · rw [List.filter_cons_of_neg hp]
        split
        · exact ih
        · rw [List.filter_cons_of_neg hp, ih]
          refine fresh_congr fun n hn => ?_
          have hne : n ≠ m := fun heq => hp (heq ▸ (List.mem_filter.mp hn).2)
          simp [hne]

theorem fresh_eq_filter : fresh found names = fresh [] (names.filter (· ∉ found)) := by
  rw [← filter_fresh]
  have hall : ∀ n ∈ fresh found names, decide (n ∉ found) := fun n hn =>
    decide_eq_true (mem_fresh.mp hn).2
  rw [← List.filter_eq_self.mpr hall, filter_fresh, filter_fresh]
  refine fresh_congr fun n hn => ?_
  simpa using (List.mem_filter.mp hn).2

theorem fresh_append {names' : List α} :
    fresh found (names ++ names') = fresh found names ++ fresh (found ++ names) names' := by
  induction names generalizing found with
  | nil => simp [fresh]
  | cons m ns ih =>
      rw [List.cons_append, fresh, fresh, ih]
      split
      · rename_i hm
        refine congrArg (fresh found ns ++ ·) (fresh_congr fun n _ => ?_)
        simp only [List.mem_append, List.mem_cons]
        constructor
        · tauto
        · rintro (h | rfl | h)
          · exact Or.inl h
          · exact Or.inl hm
          · exact Or.inr h
      · rw [ih, List.cons_append, List.append_assoc, List.singleton_append]

theorem fresh_map {β : Type*} [DecidableEq β] {g : α → β}
    (h : ∀ x ∈ found ++ names, ∀ y ∈ names, g x = g y → x = y) :
    fresh (found.map g) (names.map g) = (fresh found names).map g := by
  induction names generalizing found with
  | nil => rfl
  | cons m ns ih =>
      have hmem : g m ∈ found.map g ↔ m ∈ found := by
        refine ⟨fun hm => ?_, fun hm => List.mem_map_of_mem hm⟩
        obtain ⟨x, hx, heq⟩ := List.mem_map.mp hm
        exact h x (List.mem_append_left _ hx) m List.mem_cons_self heq ▸ hx
      rw [List.map_cons, fresh, fresh]
      by_cases hm : m ∈ found
      · rw [if_pos hm, if_pos (hmem.mpr hm)]
        refine ih fun x hx y hy => h x ?_ y (List.mem_cons_of_mem m hy)
        simp only [List.mem_append, List.mem_cons] at hx ⊢
        tauto
      · rw [if_neg hm, if_neg fun hm' => hm (hmem.mp hm'), List.map_cons, ← List.map_singleton,
          ← List.map_append]
        refine congrArg (g m :: ·) (ih fun x hx y hy => h x ?_ y (List.mem_cons_of_mem m hy))
        simp only [List.mem_append, List.mem_cons, List.not_mem_nil, or_false] at hx ⊢
        tauto

end Fresh

section Visit

variable {ε : Type*} {stop : ε} {succ : α → Option (List α)}

theorem visit_found {fuel : ℕ} {known names found : List α}
    (h : visit stop succ fuel known names = .ok found) : Found succ known names found := by
  induction fuel generalizing known names found with
  | zero => cases h
  | succ fuel ih =>
      rw [visit] at h
      -- the nodes of this call that are done were gone on from, the others not yet
      have hI := foldlM_invariant (d := []) (P := fun _ n => n ∈ fresh known names ∧ True)
        (I := fun done (s : List α) => known ++ fresh known names ⊆ s ∧
          (∀ m ∈ s, m ∉ known ++ fresh known names ∨ m ∈ done →
            ∀ n, Edge succ m n → n ∈ s) ∧
          ∀ n ∈ s, n ∉ known → Reach (· ∈ known) (· ∈ names) (Edge succ) n)
        ?_ ⟨List.Subset.refl _, ?_, ?_⟩
        (Along.and_of_forall (along_of_forall (fun _ _ => trivial) _ _) fun _ hn => hn) h
      · obtain ⟨hsub, hexp, hreach⟩ := hI
        rw [List.append_subset] at hsub
        refine ⟨hsub.1, ?_, ?_, hreach⟩
        · intro n hn
          by_cases hknown : n ∈ known
          · exact hsub.1 hknown
          · exact hsub.2 (mem_fresh.mpr ⟨hn, hknown⟩)
        · intro m hm hnew
          refine hexp m hm ?_
          by_cases hfresh : m ∈ fresh known names
          · exact Or.inr hfresh
          · exact Or.inl (by simp [hnew, hfresh])
      · rintro done s x s' ⟨hsub, hexp, hreach⟩ ⟨hx, -⟩ hstep
        cases hsucc : succ x with
        | none =>
            rw [hsucc] at hstep
            obtain rfl : s = s' := Except.ok.inj hstep
            refine ⟨hsub, ?_, hreach⟩
            rintro m hm hmx n hmn
            replace hmx : (m ∉ known ++ fresh known names ∨ m ∈ done) ∨ m = x := by
              simpa [or_assoc] using hmx
            rcases hmx with hmx | rfl
            · exact hexp m hm hmx n hmn
            · obtain ⟨ns, hns, -⟩ := hmn
              rw [hsucc] at hns
              cases hns
        | some ns =>
            rw [hsucc] at hstep
            have hvisit := ih hstep
            refine ⟨List.Subset.trans hsub hvisit.known_subset, ?_, ?_⟩
            · intro m hm hmx n hmn
              replace hmx : (m ∉ known ++ fresh known names ∨ m ∈ done) ∨ m = x := by
                simpa [or_assoc] using hmx
              by_cases hms : m ∈ s
              · rcases hmx with hmx | rfl
                · exact hvisit.known_subset (hexp m hms hmx n hmn)
                · obtain ⟨ns', hns', hn⟩ := hmn
                  obtain rfl := Option.some.inj (hsucc.symm.trans hns')
                  exact hvisit.names_subset hn
              · exact hvisit.expanded m hm hms n hmn
            · intro n hn hnew
              by_cases hns : n ∈ s
              · exact hreach n hns hnew
              · obtain ⟨hxn, hxk⟩ := mem_fresh.mp hx
                refine (hvisit.reached n hn hns).of_seed
                  (fun m hm => hsub (List.mem_append_left _ hm)) fun m hm hm' => ?_
                exact .step (.seed hxn hxk) ⟨ns, hsucc, hm⟩ hm'
      · intro m hm hor
        rcases hor with hor | hor
        · exact absurd hm hor
        · cases hor
      · intro n hn hnew
        rcases List.mem_append.mp hn with hn | hn
        · exact absurd hn hnew
        · exact .seed (mem_fresh.mp hn).1 hnew

/-- A search in a finite set of nodes ends: every recursive call knows more. -/
theorem visit_ends (stop : ε) {U : Finset α} (hsucc : ∀ m n, Edge succ m n → n ∈ U) {fuel : ℕ}
    {known names : List α} (hnames : ∀ n ∈ names, n ∈ U)
    (hfuel : (U \ known.toFinset).card < fuel) :
    ∃ found, visit stop succ fuel known names = .ok found := by
  induction fuel generalizing known names with
  | zero => omega
  | succ fuel ih =>
      rw [visit]
      have hstep : ∀ s x, known ++ fresh known names ⊆ s → x ∈ fresh known names →
          ∃ s', (succ x).elim (.ok s) (visit stop succ fuel s) = .ok s' ∧
            known ++ fresh known names ⊆ s' := by
        intro s x hs hx
        cases hx' : succ x with
        | none => exact ⟨s, rfl, hs⟩
        | some ns =>
            have hcard : (U \ s.toFinset).card < fuel := by
              refine lt_of_lt_of_le (Finset.card_lt_card ?_) (Nat.lt_succ_iff.mp hfuel)
              have hxU : x ∈ U := hnames x (mem_fresh.mp hx).1
              refine (Finset.ssubset_iff_of_subset ?_).mpr
                ⟨x, by simp [hxU, (mem_fresh.mp hx).2], by simp [hs (List.mem_append_right _ hx)]⟩
              refine Finset.sdiff_subset_sdiff (Finset.Subset.refl _) fun n hn => ?_
              rw [List.mem_toFinset] at hn ⊢
              exact hs (List.mem_append_left _ hn)
            obtain ⟨s', hs'⟩ := ih (fun n hn => hsucc x n ⟨ns, hx', hn⟩) hcard
            exact ⟨s', hs', List.Subset.trans hs (visit_found hs').known_subset⟩
      obtain ⟨found, hfound, -⟩ := foldlM_total hstep (List.Subset.refl _) fun _ hn => hn
      exact ⟨found, hfound⟩

end Visit

end Search
