import Puremake.Tree.Visits

/-!
# Traversals that print a tree

The generators for IDEs write something for every leaf, and something before and behind what is
below a branch. What they write depends on the depth. The tree stays as it is, so the output of
the traversal is written out along the finite tree, and the lines that are looked for in it are
those of the leaves, in order, when none of them is written for a branch.
-/

namespace Puremake

namespace Tree

variable {α β γ : Type*}

/-- What is written for a branch, before and behind what is below it, and for a leaf, at a depth;
there is no result where the writing fails. -/
structure Printer (α β : Type*) where
  branchenter : Node α → ℕ → Option (List β)
  branchexit : Node α → ℕ → Option (List β)
  leaf : Node α → ℕ → Option (List β)

def writingAt (entry : Node α → ℕ → Option (List β)) : Callback α (List β) := fun n depth s =>
  (entry (s.1.node n) depth).map fun lines => (s.1, s.2 ++ lines)

def Printer.callbacks (w : Printer α β) : Callbacks α (List β) where
  onbranchenter := writingAt w.branchenter
  onbranchexit := writingAt w.branchexit
  onleaf := writingAt w.leaf

/-- What is written for a node, with the list of its children and what is written below it. -/
def Printer.visit (w : Printer α β) (node : Node α) (depth : ℕ) (children : List ℕ)
    (under : Option (List β)) : Option (List β) :=
  if children = [] then w.leaf node depth
  else do
    let enter ← w.branchenter node depth
    let under ← under
    let exit ← w.branchexit node depth
    return enter ++ under ++ exit

def Printer.printed (w : Printer α β) (f : Forest α) : Grove ℕ → ℕ → Option (List β)
  | .nil, _ => some []
  | .cons n below next, depth => do
      let here ← w.visit (f.node n) depth below.roots (w.printed f below (depth + 1))
      let rest ← w.printed f next depth
      return here ++ rest

variable {w : Printer α β} {f : Forest α} {n p tr : ℕ} {t : Grove ℕ}

section Run

theorem donode_callbacks {loop : Callback α (List β)} {under : Option (List β)} {depth : ℕ}
    (hloop : ∀ out, loop n (depth + 1) (f, out) = under.map fun lines => (f, out ++ lines))
    (out : List β) :
    donode w.callbacks loop n depth (f, out) =
      (w.visit (f.node n) depth (f.node n).children under).map fun lines => (f, out ++ lines) := by
  by_cases hempty : (f.node n).children = []
  · simp [donode, Printer.callbacks, Printer.visit, Callback.skip, writingAt, hempty]
  · have hpos : 0 < (f.node n).children.length := List.length_pos_iff.mpr hempty
    rw [Printer.visit, if_neg hempty]
    cases henter : w.branchenter (f.node n) depth with
    | none => simp [donode, Printer.callbacks, Callback.skip, writingAt, hpos, henter]
    | some enter =>
        cases under with
        | none => simp [donode, Printer.callbacks, Callback.skip, writingAt, hpos, henter, hloop]
        | some under =>
            cases hexit : w.branchexit (f.node n) depth <;>
              simp [donode, Printer.callbacks, Callback.skip, writingAt, hpos, henter, hloop, hexit]

/-- The loop over the children writes what is written for the grove. -/
theorem childrenLoop_callbacks (w : Printer α β) (f : Forest α) (t : Grove ℕ) :
    ∃ fuel₀, ∀ fuel, fuel₀ ≤ fuel → ∀ p done depth out, Holds f p t →
      (f.node p).children = done ++ t.roots →
      childrenLoop w.callbacks fuel p done.length depth (f, out) =
        (w.printed f t depth).map fun lines => (f, out ++ lines) := by
  induction t with
  | nil =>
      refine ⟨1, fun fuel hfuel p done depth out _ hchildren => ?_⟩
      obtain ⟨fuel, rfl⟩ := Nat.exists_eq_add_of_le' hfuel
      rw [childrenLoop_end (by rw [hchildren]; simp [Grove.roots])]
      simp [Printer.printed]
  | cons n below next ihb ihn =>
      obtain ⟨fuelb, hb⟩ := ihb
      obtain ⟨fueln, hn⟩ := ihn
      refine ⟨max fuelb fueln + 1, fun fuel hfuel p done depth out hholds hchildren => ?_⟩
      obtain ⟨fuel, rfl⟩ : ∃ k, fuel = k + 1 := ⟨fuel - 1, by omega⟩
      obtain ⟨-, hroots, hbelow, hnext⟩ := hholds
      have hplace : (f.node p).children[done.length]? = some n := by
        rw [hchildren]
        simp [Grove.roots]
      have hdonode := @donode_callbacks _ _ w f n (fun n depth s =>
        childrenLoop w.callbacks fuel n 0 depth s) (w.printed f below (depth + 1)) depth
        (fun out => hb fuel (by omega) n [] (depth + 1) out hbelow hroots) out
      rw [hroots] at hdonode
      rw [Printer.printed]
      cases hhere : w.visit (f.node n) depth below.roots (w.printed f below (depth + 1)) with
      | none =>
          rw [hhere] at hdonode
          rw [childrenLoop, hplace]
          simp [hdonode]
      | some here =>
          rw [hhere] at hdonode
          have hlength : done.length + 1 = (done ++ [n]).length := by simp
          have hsplit : (f.node p).children = done ++ [n] ++ next.roots := by
            rw [hchildren]
            simp [Grove.roots]
          rw [childrenLoop_keep hplace hdonode hplace, hlength,
            hn fuel (by omega) p (done ++ [n]) depth (out ++ here) hnext hsplit]
          cases w.printed f next depth <;> simp

theorem traverse_callbacks (w : Printer α β) (h : Stands f tr t) (depth : ℕ) :
    ∃ fuel₀, ∀ fuel, fuel₀ ≤ fuel → traverse w.callbacks fuel tr false depth (f, []) =
      (w.printed f t depth).map fun lines => (f, lines) := by
  obtain ⟨fuel₀, hloop⟩ := childrenLoop_callbacks w f t
  exact ⟨fuel₀, fun fuel hfuel => hloop fuel hfuel tr [] depth [] h.holds h.children⟩

theorem traverse_callbacks_root (w : Printer α β) (h : Stands f tr t) (depth : ℕ) :
    ∃ fuel₀, ∀ fuel, fuel₀ ≤ fuel → traverse w.callbacks fuel tr true depth (f, []) =
      (w.printed f (.cons tr t .nil) depth).map fun lines => (f, lines) := by
  obtain ⟨fuel₀, hloop⟩ := childrenLoop_callbacks w f t
  refine ⟨fuel₀, fun fuel hfuel => ?_⟩
  have hdonode := @donode_callbacks _ _ w f tr (dochildren w.callbacks fuel)
    (w.printed f t (depth + 1)) depth
    (fun out => hloop fuel hfuel tr [] (depth + 1) out h.holds h.children) []
  rw [h.children] at hdonode
  rw [traverse, if_pos rfl, hdonode, Printer.printed]
  cases w.visit (f.node tr) depth t.roots (w.printed f t (depth + 1)) <;> simp [Printer.printed]

end Run

section Lines

variable {depth : ℕ} {lines : List β}

theorem visit_branch_eq_some {node : Node α} {children : List ℕ} {under : Option (List β)}
    (hne : children ≠ []) : w.visit node depth children under = some lines ↔
      ∃ enter below exit, w.branchenter node depth = some enter ∧ under = some below ∧
        w.branchexit node depth = some exit ∧ enter ++ below ++ exit = lines := by
  simp [Printer.visit, hne, Option.bind_eq_some_iff]

theorem printed_cons_eq_some {below next : Grove ℕ} :
    w.printed f (.cons n below next) depth = some lines ↔ ∃ here rest,
      w.visit (f.node n) depth below.roots (w.printed f below (depth + 1)) = some here ∧
      w.printed f next depth = some rest ∧ here ++ rest = lines := by
  simp [Printer.printed, Option.bind_eq_some_iff]

theorem filterMap_printed {g : β → Option γ} {names : Node α → List γ}
    (henter : ∀ node depth lines, w.branchenter node depth = some lines → lines.filterMap g = [])
    (hexit : ∀ node depth lines, w.branchexit node depth = some lines → lines.filterMap g = [])
    (hleaf : ∀ node depth lines, w.leaf node depth = some lines → lines.filterMap g = names node)
    (h : w.printed f t depth = some lines) :
    lines.filterMap g = t.leaves.flatMap fun n => names (f.node n) := by
  induction t generalizing depth lines with
  | nil =>
      obtain rfl := Option.some.inj h
      rfl
  | cons n below next ihb ihn =>
      obtain ⟨here, rest, hhere, hrest, rfl⟩ := printed_cons_eq_some.mp h
      rw [List.filterMap_append, ihn hrest]
      by_cases hnil : below = .nil
      · subst hnil
        rw [hleaf _ _ _ hhere, Grove.leaves, List.flatMap_cons]
      · obtain ⟨enter, under, exit, h₁, h₂, h₃, rfl⟩ :=
          (visit_branch_eq_some fun hroots => hnil (Grove.roots_eq_nil_iff.mp hroots)).mp hhere
        rw [List.filterMap_append, List.filterMap_append, henter _ _ _ h₁, ihb h₂,
          hexit _ _ _ h₃, Grove.leaves_branch hnil, List.flatMap_append, List.nil_append,
          List.append_nil]

/-- Where something is written for every leaf and every branch, something is written for the
grove. -/
theorem exists_printed
    (hbranch : ∀ n ∈ t.nodes, ∀ depth, (w.branchenter (f.node n) depth).isSome ∧
      (w.branchexit (f.node n) depth).isSome)
    (hleaf : ∀ n ∈ t.leaves, ∀ depth, (w.leaf (f.node n) depth).isSome) (depth : ℕ) :
    ∃ lines, w.printed f t depth = some lines := by
  induction t generalizing depth with
  | nil => exact ⟨[], rfl⟩
  | cons n below next ihb ihn =>
      obtain ⟨rest, hrest⟩ := ihn
        (fun m hm => hbranch m (List.mem_cons_of_mem _ (List.mem_append_right _ hm)))
        (fun m hm => hleaf m (Grove.mem_leaves_next hm n below)) depth
      obtain ⟨here, hhere⟩ : ∃ here,
          w.visit (f.node n) depth below.roots (w.printed f below (depth + 1)) = some here := by
        by_cases hnil : below = .nil
        · subst hnil
          exact Option.isSome_iff_exists.mp (hleaf n List.mem_cons_self depth)
        · rw [Grove.leaves_branch hnil] at hleaf
          obtain ⟨under, hunder⟩ := ihb
            (fun m hm => hbranch m (List.mem_cons_of_mem _ (List.mem_append_left _ hm)))
            (fun m hm => hleaf m (List.mem_append_left _ hm)) (depth + 1)
          obtain ⟨h₁, h₂⟩ := hbranch n List.mem_cons_self depth
          obtain ⟨enter, henter⟩ := Option.isSome_iff_exists.mp h₁
          obtain ⟨exit, hexit⟩ := Option.isSome_iff_exists.mp h₂
          exact ⟨_, (visit_branch_eq_some fun hroots =>
            hnil (Grove.roots_eq_nil_iff.mp hroots)).mpr ⟨_, _, _, henter, hunder, hexit, rfl⟩⟩
      exact ⟨_, printed_cons_eq_some.mpr ⟨here, rest, hhere, hrest, rfl⟩⟩

/-- Where something is written for the grove, something is written for every leaf. -/
theorem leaf_of_printed (h : w.printed f t depth = some lines) :
    ∀ n ∈ t.leaves, ∃ depth lines, w.leaf (f.node n) depth = some lines := by
  induction t generalizing depth lines with
  | nil => exact fun n hn => absurd hn List.not_mem_nil
  | cons n below next ihb ihn =>
      intro m hm
      obtain ⟨here, rest, hhere, hrest, -⟩ := printed_cons_eq_some.mp h
      by_cases hnil : below = .nil
      · subst hnil
        rcases List.mem_cons.mp hm with rfl | hm
        · exact ⟨depth, here, hhere⟩
        · exact ihn hrest m hm
      · rw [Grove.leaves_branch hnil] at hm
        obtain ⟨-, under, -, -, hunder, -⟩ :=
          (visit_branch_eq_some fun hroots => hnil (Grove.roots_eq_nil_iff.mp hroots)).mp hhere
        rcases List.mem_append.mp hm with hm | hm
        · exact ihb hunder m hm
        · exact ihn hrest m hm

end Lines

end Tree

end Puremake
