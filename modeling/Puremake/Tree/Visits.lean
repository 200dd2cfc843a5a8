import Puremake.Tree.Traverse

/-!
# Traversals that leave the tree as it is

Most callbacks only look at the nodes, or fill in their fields. The traversal is then a loop over
the nodes in the order of the tree, and it goes on whatever the callbacks keep besides.
-/

namespace Puremake

namespace Tree

variable {α σ β : Type*}

abbrev Visit (α σ : Type*) := Forest α × σ → ℕ → Option (Forest α × σ)

def Visit.skip : Visit α σ := fun s _ => some s

/-- Callbacks for nodes and for leaves that do not look at the depth. -/
def calling (node leaf : Visit α σ) : Callbacks α σ where
  onnode := fun n _ s => node s n
  onleaf := fun n _ s => leaf s n

def visiting (node leaf : Visit α σ) : Visit α σ := fun s n => do
  let s ← node s n
  if (s.1.node n).children = [] then leaf s n else some s

/-- The nodes of two heaps have the same children and parents. -/
def SameShape (f f' : Forest α) : Prop :=
  ∀ n, (f'.node n).children = (f.node n).children ∧ (f'.node n).parent = (f.node n).parent

def Visit.Stays (visit : Visit α σ) : Prop :=
  ∀ s n s', visit s n = some s' → SameShape s.1 s'.1

section Shape

variable {f f' : Forest α} {p : ℕ} {t : Grove ℕ}

theorem SameShape.refl (f : Forest α) : SameShape f f := fun _ => ⟨rfl, rfl⟩

theorem SameShape.trans {f'' : Forest α} (h : SameShape f f') (h' : SameShape f' f'') :
    SameShape f f'' := fun n => ⟨(h' n).1.trans (h n).1, (h' n).2.trans (h n).2⟩

theorem SameShape.holds (h : SameShape f f') (ht : Holds f p t) : Holds f' p t :=
  ht.congr_fields fun n _ => ⟨(h n).2, (h n).1⟩

theorem SameShape.stands (h : SameShape f f') (ht : Stands f p t) : Stands f' p t :=
  ⟨(h p).1.trans ht.children, h.holds ht.holds, ht.nodup⟩

end Shape

section Calling

variable {node leaf visit : Visit α σ} {s s' : Forest α × σ}

theorem Visit.skip_stays : (Visit.skip : Visit α σ).Stays := by
  intro s n s' h
  obtain rfl := Option.some.inj h
  exact .refl s.1

theorem stays_visiting (hnode : node.Stays) (hleaf : leaf.Stays) :
    (visiting node leaf).Stays := by
  intro s n s' hrun
  obtain ⟨s₁, hs₁, hrun⟩ := Option.bind_eq_some_iff.mp hrun
  split at hrun
  · exact (hnode s n s₁ hs₁).trans (hleaf s₁ n s' hrun)
  · exact Option.some.inj hrun ▸ hnode s n s₁ hs₁

theorem Visit.Stays.foldlM (hvisit : visit.Stays) {l : List ℕ}
    (hrun : l.foldlM visit s = some s') : SameShape s.1 s'.1 := by
  induction l generalizing s with
  | nil => exact Option.some.inj hrun ▸ .refl _
  | cons n l ih =>
      obtain ⟨s₁, hs₁, hrun⟩ := Option.bind_eq_some_iff.mp hrun
      exact (hvisit s n s₁ hs₁).trans (ih hrun)

/-- The visit of a node, when the loop goes through what is below it. -/
theorem donode_calling (hnode : node.Stays) {loop : Callback α σ} {n : ℕ} {below : Grove ℕ}
    (hroots : (s.1.node n).children = below.roots) (hholds : Holds s.1 n below)
    (hloop : ∀ s, (s.1.node n).children = below.roots → Holds s.1 n below → ∀ depth,
      loop n depth s = below.nodes.foldlM (visiting node leaf) s) (depth : ℕ) :
    donode (calling node leaf) loop n depth s =
      (n :: below.nodes).foldlM (visiting node leaf) s := by
  rw [List.foldlM_cons, visiting]
  cases hs₁ : node s n with
  | none => simp [donode, calling, hs₁]
  | some s₁ =>
      have hsame := hnode s n s₁ hs₁
      have hroots₁ := (hsame n).1.trans hroots
      by_cases hnil : below = .nil
      · subst hnil
        have hempty : (s₁.1.node n).children = [] := hroots₁
        cases hs₂ : leaf s₁ n with
        | none => simp [donode, calling, hs₁, hs₂, hempty]
        | some s₂ => simp [donode, calling, hs₁, hs₂, hempty, Grove.nodes]
      · have hne : (s₁.1.node n).children ≠ [] := by
          rw [hroots₁]
          exact fun h => hnil (Grove.roots_eq_nil_iff.mp h)
        simp [donode, calling, hs₁, hne, Callback.skip, List.length_pos_iff,
          hloop s₁ hroots₁ (hsame.holds hholds)]

/-- The loop over the children goes through the nodes in the order of the tree. -/
theorem childrenLoop_calling (hnode : node.Stays) (hleaf : leaf.Stays) (t : Grove ℕ) :
    ∃ fuel₀, ∀ fuel, fuel₀ ≤ fuel → ∀ s p done depth, Holds s.1 p t →
      (s.1.node p).children = done ++ t.roots →
      childrenLoop (calling node leaf) fuel p done.length depth s =
        t.nodes.foldlM (visiting node leaf) s := by
  have hvisit := stays_visiting hnode hleaf
  induction t with
  | nil =>
      refine ⟨1, fun fuel hfuel s p done depth _ hchildren => ?_⟩
      obtain ⟨fuel, rfl⟩ := Nat.exists_eq_add_of_le' hfuel
      refine childrenLoop_end ?_
      rw [hchildren]
      simp [Grove.roots]
  | cons n below next ihb ihn =>
      obtain ⟨fuelb, hb⟩ := ihb
      obtain ⟨fueln, hn⟩ := ihn
      refine ⟨max fuelb fueln + 1, fun fuel hfuel s p done depth hholds hchildren => ?_⟩
      obtain ⟨fuel, rfl⟩ : ∃ k, fuel = k + 1 := ⟨fuel - 1, by omega⟩
      have hplace : (s.1.node p).children[done.length]? = some n := by
        rw [hchildren]
        simp [Grove.roots]
      have hdonode := @donode_calling _ _ _ leaf s hnode (fun n depth s =>
        childrenLoop (calling node leaf) fuel n 0 depth s) n below hholds.2.1 hholds.2.2.1
        (fun s hroots hholds depth => hb fuel (by omega) s n [] depth hholds hroots) depth
      rw [Grove.nodes, ← List.cons_append, List.foldlM_append]
      cases hs₁ : (n :: below.nodes).foldlM (visiting node leaf) s with
      | none =>
          rw [childrenLoop, hplace]
          simp [hdonode, hs₁]
      | some s₁ =>
          have hsame := hvisit.foldlM hs₁
          have hchildren₁ : (s₁.1.node p).children = (done ++ [n]) ++ next.roots := by
            rw [(hsame p).1, hchildren]
            simp [Grove.roots]
          have hkeep : (s₁.1.node p).children[done.length]? = some n := by
            rw [hchildren₁]
            simp
          have hlength : (done ++ [n]).length = done.length + 1 := by simp
          rw [childrenLoop_keep hplace (hdonode.trans hs₁) hkeep, ← hlength,
            hn fuel (by omega) s₁ p (done ++ [n]) depth (hsame.holds hholds.2.2.2) hchildren₁]
          rfl

/-- A traversal whose callbacks leave the nodes where they are goes through the nodes in the order
of the tree. -/
theorem traverse_calling (hnode : node.Stays) (hleaf : leaf.Stays) {f : Forest α} {tr : ℕ}
    {t : Grove ℕ} (h : Stands f tr t) (includeroot : Bool) (depth : ℕ) :
    ∃ fuel₀, ∀ fuel, fuel₀ ≤ fuel → ∀ a,
      traverse (calling node leaf) fuel tr includeroot depth (f, a) =
        (if includeroot then tr :: t.nodes else t.nodes).foldlM (visiting node leaf) (f, a) := by
  obtain ⟨fuel₀, hloop⟩ := childrenLoop_calling hnode hleaf t
  refine ⟨fuel₀, fun fuel hfuel a => ?_⟩
  cases includeroot with
  | false => exact hloop fuel hfuel (f, a) tr [] depth h.holds h.children
  | true =>
      have hroot := fun s hroots hholds depth => hloop fuel hfuel s tr [] depth hholds hroots
      exact donode_calling hnode h.children h.holds hroot depth

/-- With every fuel, what the traversal returns is what the loop over the nodes returns. -/
theorem foldlM_of_traverse (hnode : node.Stays) (hleaf : leaf.Stays) {f : Forest α} {tr : ℕ}
    {t : Grove ℕ} (h : Stands f tr t) {fuel depth : ℕ} {includeroot : Bool} {a : σ}
    (hrun : traverse (calling node leaf) fuel tr includeroot depth (f, a) = some s') :
    (if includeroot then tr :: t.nodes else t.nodes).foldlM (visiting node leaf) (f, a) =
      some s' := by
  obtain ⟨fuel₀, hloop⟩ := traverse_calling hnode hleaf h includeroot depth
  rw [← hloop _ (Nat.le_max_left fuel₀ fuel) a]
  exact traverse_extends (.refl _) (Nat.le_max_right fuel₀ fuel) hrun

end Calling

section Writing

variable {f : Forest α} {tr p : ℕ} {t : Grove ℕ} {entry : Node α → Option (List β)}

def writing (entry : Node α → Option (List β)) : Visit α (List β) := fun s n =>
  (entry (s.1.node n)).map fun lines => (s.1, s.2 ++ lines)

def writes (entry : Node α → Option (List β)) (f : Forest α) (l : List ℕ) : List β :=
  l.flatMap fun n => (entry (f.node n)).getD []

theorem stays_writing (entry : Node α → Option (List β)) : (writing entry).Stays := by
  intro s n s' hrun
  obtain ⟨lines, -, rfl⟩ := Option.map_eq_some_iff.mp hrun
  exact .refl s.1

theorem foldlM_writing {l : List ℕ} {visit : Visit α (List β)}
    (hvisit : ∀ n ∈ l, ∀ out, visit (f, out) n = writing entry (f, out) n)
    (hentry : ∀ n ∈ l, (entry (f.node n)).isSome) (out : List β) :
    l.foldlM visit (f, out) = some (f, out ++ writes entry f l) := by
  induction l generalizing out with
  | nil => simp [writes]
  | cons n l ih =>
      obtain ⟨lines, hlines⟩ := Option.isSome_iff_exists.mp (hentry n List.mem_cons_self)
      have hn : visit (f, out) n = some (f, out ++ lines) := by
        rw [hvisit n List.mem_cons_self, writing, hlines]
        rfl
      rw [List.foldlM_cons, hn]
      exact (ih (fun m hm => hvisit m (List.mem_cons_of_mem n hm))
        (fun m hm => hentry m (List.mem_cons_of_mem n hm)) (out ++ lines)).trans
          (by simp [writes, hlines])

theorem writes_childless (l : List ℕ) :
    writes entry f (l.filter fun n => (f.node n).children = []) =
      writes (fun node => if node.children = [] then entry node else some []) f l := by
  induction l with
  | nil => rfl
  | cons n l ih =>
      by_cases hempty : (f.node n).children = []
      · rw [List.filter_cons_of_pos (by simpa using hempty), writes, List.flatMap_cons, ← writes,
          ih]
        simp [writes, hempty]
      · rw [List.filter_cons_of_neg (by simpa using hempty), ih]
        simp [writes, hempty]

theorem traverse_onnode (h : Stands f tr t) (hentry : ∀ n ∈ t.nodes, (entry (f.node n)).isSome) :
    ∃ fuel₀, ∀ fuel, fuel₀ ≤ fuel →
      traverse (calling (writing entry) .skip) fuel tr false 0 (f, []) =
        some (f, writes entry f t.nodes) := by
  obtain ⟨fuel₀, hloop⟩ := traverse_calling (stays_writing entry) Visit.skip_stays h false 0
  refine ⟨fuel₀, fun fuel hfuel => (hloop fuel hfuel []).trans ?_⟩
  refine foldlM_writing (fun n hn out => ?_) hentry []
  obtain ⟨lines, hlines⟩ := Option.isSome_iff_exists.mp (hentry n hn)
  simp [visiting, writing, Visit.skip, hlines]

theorem traverse_onleaf (h : Stands f tr t) (hentry : ∀ n ∈ t.leaves, (entry (f.node n)).isSome) :
    ∃ fuel₀, ∀ fuel, fuel₀ ≤ fuel →
      traverse (calling .skip (writing entry)) fuel tr false 0 (f, []) =
        some (f, writes entry f t.leaves) := by
  obtain ⟨fuel₀, hloop⟩ := traverse_calling Visit.skip_stays (stays_writing entry) h false 0
  rw [h.holds.leaves_eq_filter] at hentry ⊢
  rw [writes_childless, ← List.nil_append (writes _ f t.nodes)]
  refine ⟨fuel₀, fun fuel hfuel => (hloop fuel hfuel []).trans ?_⟩
  rw [if_neg Bool.false_ne_true]
  apply foldlM_writing
  · intro n _ out
    by_cases hempty : (f.node n).children = []
    · simp [visiting, writing, Visit.skip, hempty]
    · simp [visiting, writing, Visit.skip, hempty]
  · intro n hn
    by_cases hempty : (f.node n).children = []
    · simpa [hempty] using hentry n (List.mem_filter.mpr ⟨hn, by simpa using hempty⟩)
    · simp [hempty]

end Writing

end Tree

end Puremake
