import Puremake.Tree.Represents
import Puremake.Tree.Stands

/-!
# Traversals of a tree

`tree.traverse` goes through the children of a node by their place, and looks again at the
place after every visit: the callbacks may have taken the node out of the list, and then
the next one stands there. A callback that removes the nodes it is called for prunes the
tree, and the traversal goes on with what is left.
-/

namespace Puremake

namespace Tree

variable {α σ : Type*}

/-- A function that `tree.traverse` calls with a node and its depth. It can change the tree and
what the caller keeps, and it can fail. -/
abbrev Callback (α σ : Type*) := ℕ → ℕ → Forest α × σ → Option (Forest α × σ)

def Callback.skip : Callback α σ := fun _ _ s => some s

/-- The callbacks of a traversal. No code sets `isremoved`, so it is left out. -/
structure Callbacks (α σ : Type*) where
  onnode : Callback α σ := Callback.skip
  onbranchenter : Callback α σ := Callback.skip
  onbranch : Callback α σ := Callback.skip
  onleaf : Callback α σ := Callback.skip
  onbranchexit : Callback α σ := Callback.skip

variable (fn : Callbacks α σ)

/-- `donode`; the children are left to the recursion. -/
def donode (dochildren : Callback α σ) : Callback α σ := fun node depth s => do
  let s ← fn.onnode node depth s
  if (s.1.node node).children.length > 0 then
    let s ← fn.onbranchenter node depth s
    let s ← fn.onbranch node depth s
    let s ← dochildren node (depth + 1) s
    fn.onbranchexit node depth s
  else fn.onleaf node depth s

/-- The loop of `dochildren`, from a place of the list on. -/
def childrenLoop : ℕ → ℕ → ℕ → ℕ → Forest α × σ → Option (Forest α × σ)
  | 0, _, _, _, _ => none
  | fuel + 1, parent, i, depth, s =>
    match (s.1.node parent).children[i]? with
    | none => some s
    | some node => do
      let s ← donode fn (fun node depth s => childrenLoop fuel node 0 depth s) node depth s
      let i := if (s.1.node parent).children[i]? = some node then i + 1 else i
      childrenLoop fuel parent i depth s

def dochildren (fuel : ℕ) : Callback α σ := fun parent depth s =>
  childrenLoop fn fuel parent 0 depth s

def traverse (fuel : ℕ) (t : ℕ) (includeroot : Bool) (initialdepth : ℕ) (s : Forest α × σ) :
    Option (Forest α × σ) :=
  if includeroot then donode fn (dochildren fn fuel) t initialdepth s
  else dochildren fn fuel t initialdepth s

section Steps

variable {fn} {fuel p n i depth : ℕ} {s s' : Forest α × σ}

theorem childrenLoop_end (hplace : (s.1.node p).children[i]? = none) :
    childrenLoop fn (fuel + 1) p i depth s = some s := by
  rw [childrenLoop, hplace]

theorem childrenLoop_keep (hplace : (s.1.node p).children[i]? = some n)
    (hvisit : donode fn (fun node depth s => childrenLoop fn fuel node 0 depth s) n depth s =
      some s') (hkeep : (s'.1.node p).children[i]? = some n) :
    childrenLoop fn (fuel + 1) p i depth s = childrenLoop fn fuel p (i + 1) depth s' := by
  rw [childrenLoop, hplace]
  simp [hvisit, hkeep]

/-- The visit takes the node out, and another one is at its place, or none. -/
theorem childrenLoop_gone (hplace : (s.1.node p).children[i]? = some n)
    (hvisit : donode fn (fun node depth s => childrenLoop fn fuel node 0 depth s) n depth s =
      some s') (hgone : (s'.1.node p).children[i]? ≠ some n) :
    childrenLoop fn (fuel + 1) p i depth s = childrenLoop fn fuel p i depth s' := by
  rw [childrenLoop, hplace]
  simp [hvisit, hgone]

/-- A callback keeps `I`. -/
def Callback.Keeps (g : Callback α σ) (I : Forest α × σ → Prop) : Prop :=
  ∀ node depth s s', I s → g node depth s = some s' → I s'

theorem Callback.skip_keeps (I : Forest α × σ → Prop) : (Callback.skip : Callback α σ).Keeps I :=
  fun _ _ _ _ hs h => Option.some.inj h ▸ hs

/-- All callbacks of a traversal keep `I`. -/
structure Callbacks.Keep (fn : Callbacks α σ) (I : Forest α × σ → Prop) : Prop where
  onnode : fn.onnode.Keeps I
  onbranchenter : fn.onbranchenter.Keeps I
  onbranch : fn.onbranch.Keeps I
  onleaf : fn.onleaf.Keeps I
  onbranchexit : fn.onbranchexit.Keeps I

theorem donode_keeps {I : Forest α × σ → Prop} (h : fn.Keep I) {loop : Callback α σ}
    (hloop : loop.Keeps I) : (donode fn loop).Keeps I := by
  intro node depth s s' hs hrun
  obtain ⟨s₁, hnode, hrun⟩ := Option.bind_eq_some_iff.mp hrun
  have hs₁ := h.onnode node depth s s₁ hs hnode
  split at hrun
  · obtain ⟨s₂, henter, hrun⟩ := Option.bind_eq_some_iff.mp hrun
    obtain ⟨s₃, hbranch, hrun⟩ := Option.bind_eq_some_iff.mp hrun
    obtain ⟨s₄, hchildren, hexit⟩ := Option.bind_eq_some_iff.mp hrun
    have hs₃ := h.onbranch node depth s₂ s₃ (h.onbranchenter node depth s₁ s₂ hs₁ henter) hbranch
    exact h.onbranchexit node depth s₄ s' (hloop node (depth + 1) s₃ s₄ hs₃ hchildren) hexit
  · exact h.onleaf node depth s₁ s' hs₁ hrun

theorem childrenLoop_keeps {I : Forest α × σ → Prop} (h : fn.Keep I) (hs : I s)
    (hrun : childrenLoop fn fuel p i depth s = some s') : I s' := by
  induction fuel generalizing p i depth s s' with
  | zero => cases hrun
  | succ fuel ih =>
      rw [childrenLoop] at hrun
      cases hc : (s.1.node p).children[i]? with
      | none =>
          rw [hc] at hrun
          exact Option.some.inj hrun ▸ hs
      | some c =>
          rw [hc] at hrun
          obtain ⟨s₁, hvisit, hrest⟩ := Option.bind_eq_some_iff.mp hrun
          exact ih (donode_keeps h (fun _ _ _ _ hs hrun => ih hs hrun) c depth s s₁ hs hvisit)
            hrest

/-- Where `g` has a result, `g'` has the same one. -/
def Callback.Extends (g g' : Callback α σ) : Prop :=
  ∀ node depth s s', g node depth s = some s' → g' node depth s = some s'

theorem Callback.Extends.refl (g : Callback α σ) : g.Extends g := fun _ _ _ _ => id

/-- All callbacks of one traversal extend to those of another one. -/
structure Callbacks.Extend (fn fn' : Callbacks α σ) : Prop where
  onnode : fn.onnode.Extends fn'.onnode
  onbranchenter : fn.onbranchenter.Extends fn'.onbranchenter
  onbranch : fn.onbranch.Extends fn'.onbranch
  onleaf : fn.onleaf.Extends fn'.onleaf
  onbranchexit : fn.onbranchexit.Extends fn'.onbranchexit

theorem Callbacks.Extend.refl (fn : Callbacks α σ) : fn.Extend fn :=
  ⟨.refl _, .refl _, .refl _, .refl _, .refl _⟩

theorem donode_extends {fn' : Callbacks α σ} (h : fn.Extend fn') {loop loop' : Callback α σ}
    (hloop : loop.Extends loop') : (donode fn loop).Extends (donode fn' loop') := by
  intro node depth s s' hrun
  obtain ⟨s₁, hnode, hrun⟩ := Option.bind_eq_some_iff.mp hrun
  refine Option.bind_eq_some_iff.mpr ⟨s₁, h.onnode node depth s s₁ hnode, ?_⟩
  split at hrun
  · rename_i hpos
    obtain ⟨s₂, henter, hrun⟩ := Option.bind_eq_some_iff.mp hrun
    obtain ⟨s₃, hbranch, hrun⟩ := Option.bind_eq_some_iff.mp hrun
    obtain ⟨s₄, hchildren, hexit⟩ := Option.bind_eq_some_iff.mp hrun
    rw [if_pos hpos]
    exact Option.bind_eq_some_iff.mpr ⟨s₂, h.onbranchenter _ _ _ _ henter,
      Option.bind_eq_some_iff.mpr ⟨s₃, h.onbranch _ _ _ _ hbranch,
        Option.bind_eq_some_iff.mpr ⟨s₄, hloop _ _ _ _ hchildren, h.onbranchexit _ _ _ _ hexit⟩⟩⟩
  · rename_i hpos
    rw [if_neg hpos]
    exact h.onleaf _ _ _ _ hrun

theorem childrenLoop_extends {fn' : Callbacks α σ} (h : fn.Extend fn') {fuel' : ℕ}
    (hle : fuel ≤ fuel') (hrun : childrenLoop fn fuel p i depth s = some s') :
    childrenLoop fn' fuel' p i depth s = some s' := by
  induction fuel generalizing fuel' p i depth s s' with
  | zero => cases hrun
  | succ fuel ih =>
      obtain ⟨fuel', rfl⟩ : ∃ k, fuel' = k + 1 := ⟨fuel' - 1, by omega⟩
      have hfuel : fuel ≤ fuel' := by omega
      rw [childrenLoop] at hrun ⊢
      cases hc : (s.1.node p).children[i]? with
      | none =>
          rw [hc] at hrun
          exact hrun
      | some c =>
          rw [hc] at hrun
          obtain ⟨s₁, hvisit, hrest⟩ := Option.bind_eq_some_iff.mp hrun
          refine Option.bind_eq_some_iff.mpr ⟨s₁, ?_, ih hfuel hrest⟩
          exact donode_extends h (fun _ _ _ _ hloop => ih hfuel hloop) c depth s s₁ hvisit

theorem traverse_extends {fn' : Callbacks α σ} (h : fn.Extend fn') {fuel' tr : ℕ}
    (hle : fuel ≤ fuel') {includeroot : Bool}
    (hrun : traverse fn fuel tr includeroot depth s = some s') :
    traverse fn' fuel' tr includeroot depth s = some s' := by
  have hloop : (dochildren fn fuel).Extends (dochildren fn' fuel') := fun _ _ _ _ hrun =>
    childrenLoop_extends h hle hrun
  cases includeroot with
  | false => exact hloop tr depth s s' hrun
  | true => exact donode_extends h hloop tr depth s s' hrun

end Steps

abbrev Calls := List (Grove.Event ℕ)

def note (event : ℕ → ℕ → Grove.Event ℕ) : Callback α Calls := fun node depth s =>
  some (s.1, s.2 ++ [event node depth])

/-- A callback that notes that it is called and removes the node when `p` holds. -/
def noteAndRemove (event : ℕ → ℕ → Grove.Event ℕ) (p : ℕ → Bool) : Callback α Calls :=
  fun node depth s => do
    let s ← note event node depth s
    if p node then (s.1.remove node).map (·, s.2) else some s

def removing (leaf branch : ℕ → Bool) : Callbacks α Calls where
  onnode := note .node
  onbranchenter := note .enter
  onbranch := noteAndRemove .branch branch
  onleaf := noteAndRemove .leaf leaf
  onbranchexit := note .exit

section Walk

variable {leaf branch removed : ℕ → Bool}

/-- `removed` tells which nodes of a grove in the heap are removed: leaves and branches. -/
def Decides (leaf branch removed : ℕ → Bool) (f : Forest α) (t : Grove ℕ) : Prop :=
  ∀ n ∈ t.nodes, removed n = if (f.node n).children = [] then leaf n else branch n

/-- What is in the heap after a traversal of the part `t` of the children of `p`, when `t'` is
left of it. -/
structure After (f f' : Forest α) (p : ℕ) (done : List ℕ) (t t' : Grove ℕ) : Prop where
  children : (f'.node p).children = done ++ t'.roots
  holds : Holds f' p t'
  parent : (f'.node p).parent = (f.node p).parent
  frame : ∀ n, n ≠ p → n ∉ t.nodes → f'.node n = f.node n
  labels : SameLabels f f'

/-- What is in the heap after the visit of the node `n`, with `below` below it. -/
structure Visited (f f' : Forest α) (p n : ℕ) (removed : ℕ → Bool) (done rest : List ℕ)
    (below : Grove ℕ) : Prop where
  children : (f'.node p).children = done ++ (if removed n then [] else [n]) ++ rest
  kept : removed n = false → (f'.node n).parent = some p ∧
    (f'.node n).children = (below.prune removed).roots ∧ Holds f' n (below.prune removed)
  parent : (f'.node p).parent = (f.node p).parent
  frame : ∀ m, m ≠ p → m ≠ n → m ∉ below.nodes → f'.node m = f.node m
  labels : SameLabels f f'

/-- A callback that removes does so for the nodes that are to be removed. -/
theorem noteAndRemove_eq {f : Forest α} {event : ℕ → ℕ → Grove.Event ℕ} {q : ℕ → Bool} {n : ℕ}
    (depth : ℕ) (calls : Calls) :
    noteAndRemove event q n depth (f, calls) =
      (if q n then f.remove n else some f).map (·, calls ++ [event n depth]) := by
  unfold noteAndRemove note
  by_cases h : q n
  · simp [h]
  · simp [h]

theorem donode_leaf {f : Forest α} {p n : ℕ} {done rest : List ℕ} {depth : ℕ}
    (hparent : (f.node n).parent = some p) (hleaf : (f.node n).children = [])
    (hchildren : (f.node p).children = done ++ n :: rest) (hne : n ≠ p) (hdone : n ∉ done)
    (hrest : n ∉ rest) (hremoved : removed n = leaf n) :
    ∃ f', (∀ loop calls, donode (removing leaf branch) loop n depth (f, calls) =
        some (f', calls ++ (Grove.cons n .nil .nil).walk removed depth)) ∧
      Visited f f' p n removed done rest .nil := by
  have hcall : ∀ loop calls, donode (removing leaf branch) loop n depth (f, calls) =
      (if leaf n then f.remove n else some f).map
        (·, calls ++ [.node n depth] ++ [.leaf n depth]) := by
    intro loop calls
    have hzero : ¬ (f.node n).children.length > 0 := by simp [hleaf]
    rw [← noteAndRemove_eq]
    simp only [donode, removing, note, bind, Option.bind, if_neg hzero]
  cases hn : removed n with
  | true =>
      obtain ⟨f', hf', hp, -, hpar, hframe, hlabels⟩ :=
        remove_spec hparent hne hchildren hdone hrest
      refine ⟨f', fun loop calls => ?_, ?_, fun h => ?_, hpar,
        fun m hp hn _ => hframe m hp hn, hlabels⟩
      · rw [hcall, if_pos (hremoved ▸ hn), hf']
        simp [Grove.walk]
      · rw [hp, hn]
        simp
      · cases hn.symm.trans h
  | false =>
      have hleaf' : leaf n = false := hremoved ▸ hn
      refine ⟨f, fun loop calls => ?_, ?_, fun _ => ⟨hparent, hleaf, trivial⟩, rfl,
        fun m _ _ _ => rfl, .refl f⟩
      · rw [hcall, hleaf']
        simp [Grove.walk]
      · rw [hchildren, hn]
        simp

theorem donode_branch {f : Forest α} {p n : ℕ} {done rest : List ℕ} {depth : ℕ}
    {below : Grove ℕ} (hparent : (f.node n).parent = some p)
    (hbelow : (f.node n).children = below.roots) (hnil : below ≠ .nil)
    (hchildren : (f.node p).children = done ++ n :: rest) (hne : n ≠ p) (hdone : n ∉ done)
    (hrest : n ∉ rest) (hp : p ∉ below.nodes) (hremoved : removed n = branch n)
    (hloop : ∃ fuel₀ f', (∀ fuel, fuel₀ ≤ fuel → ∀ calls : Calls,
        childrenLoop (removing leaf branch) fuel n 0 (depth + 1) (f, calls) =
          some (f', calls ++ below.walk removed (depth + 1))) ∧
      After f f' n [] below (below.prune removed)) :
    ∃ fuel₀ f', (∀ fuel, fuel₀ ≤ fuel → ∀ calls,
        donode (removing leaf branch) (fun node depth s =>
          childrenLoop (removing leaf branch) fuel node 0 depth s) n depth (f, calls) =
        some (f', calls ++ (Grove.cons n below .nil).walk removed depth)) ∧
      Visited f f' p n removed done rest below := by
  have hpos : (f.node n).children.length > 0 := by
    rw [hbelow]
    exact List.length_pos_of_ne_nil fun h => hnil (Grove.roots_eq_nil_iff.mp h)
  have hcall : ∀ fuel calls, donode (removing leaf branch) (fun node depth s =>
      childrenLoop (removing leaf branch) fuel node 0 depth s) n depth (f, calls) =
      ((if branch n then f.remove n else some f).bind fun f' =>
        (childrenLoop (removing leaf branch) fuel n 0 (depth + 1)
          (f', calls ++ [.node n depth] ++ [.enter n depth] ++ [.branch n depth])).map
            fun s => (s.1, s.2 ++ [.exit n depth])) := by
    intro fuel calls
    have hbranch := @noteAndRemove_eq _ f .branch branch n depth
      (calls ++ [.node n depth] ++ [.enter n depth])
    simp only [donode, removing, note, bind, Option.bind, if_pos hpos]
    rw [hbranch]
    cases (if branch n then f.remove n else some f) with
    | none => rfl
    | some f' =>
        dsimp only [Option.map]
        cases childrenLoop _ fuel n 0 (depth + 1) _ with
        | none => rfl
        | some s => rfl
  cases hn : removed n with
  | true =>
      obtain ⟨f', hf', hp', hempty, hpar, hframe, hlabels⟩ :=
        remove_spec hparent hne hchildren hdone hrest
      refine ⟨1, f', fun fuel hfuel calls => ?_, ?_, fun h => ?_, hpar,
        fun m hp hn _ => hframe m hp hn, hlabels⟩
      · obtain ⟨fuel, rfl⟩ := Nat.exists_eq_add_of_le' hfuel
        rw [hcall, if_pos (hremoved ▸ hn), hf', Grove.walk_branch hnil, if_pos hn]
        simp [childrenLoop, hempty, Grove.walk]
      · rw [hp', hn]
        simp
      · cases hn.symm.trans h
  | false =>
      have hkeep : branch n = false := hremoved ▸ hn
      obtain ⟨fuel₀, f', hrun, hafter⟩ := hloop
      refine ⟨fuel₀, f', fun fuel hfuel calls => ?_, ?_, fun _ => ⟨?_, hafter.children,
        hafter.holds⟩, ?_, fun m hm hmn hmb => hafter.frame m hmn hmb, hafter.labels⟩
      · rw [hcall, hkeep, if_neg Bool.false_ne_true, Grove.walk_branch hnil, hn,
          if_neg Bool.false_ne_true]
        simp [hrun fuel hfuel, Grove.walk]
      · rw [hafter.frame p hne.symm hp, hchildren, hn]
        simp
      · rw [hafter.parent, hparent]
      · rw [hafter.frame p hne.symm hp]

/-- The loop goes through a part of the children as a walk goes through the grove, and leaves what
the pruning leaves. -/
theorem childrenLoop_walk (t : Grove ℕ) (f : Forest α) (p : ℕ) (done : List ℕ) (depth : ℕ)
    (hchildren : (f.node p).children = done ++ t.roots) (hholds : Holds f p t)
    (hnodup : (p :: done ++ t.nodes).Nodup) (hremoved : Decides leaf branch removed f t) :
    ∃ fuel₀ f', (∀ fuel, fuel₀ ≤ fuel → ∀ calls : Calls,
        childrenLoop (removing leaf branch) fuel p done.length depth (f, calls) =
          some (f', calls ++ t.walk removed depth)) ∧
      After f f' p done t (t.prune removed) := by
  induction t generalizing f p done depth with
  | nil =>
      refine ⟨1, f, fun fuel hfuel calls => ?_, ?_⟩
      · obtain ⟨fuel, rfl⟩ := Nat.exists_eq_add_of_le' hfuel
        rw [childrenLoop_end (by rw [hchildren]; simp [Grove.roots]), Grove.walk, List.append_nil]
      · exact ⟨hchildren, trivial, rfl, fun n _ _ => rfl, fun n => ⟨rfl, rfl, rfl⟩⟩
  | cons n below next ihb ihn =>
      obtain ⟨hparent, hbelow, hholdsb, hholdsn⟩ := hholds
      simp only [Grove.nodes, List.cons_append, List.nodup_cons, List.nodup_append,
        List.mem_append, List.mem_cons, not_or] at hnodup
      obtain ⟨⟨hpdone, hpn, hpb, hpnext⟩, hdone, ⟨⟨hnb, hnn⟩, hb, hnext, hbn⟩, hdisj⟩ := hnodup
      have hndone : n ∉ done := fun h => hdisj n h n (.inl rfl) rfl
      have hnroots : n ∉ next.roots := fun h => hnn (Grove.roots_subset_nodes next h)
      have hdecide := hremoved n List.mem_cons_self
      -- The visit of `n` and of what is below it.
      have hvisit : ∃ fuel₀ f', (∀ fuel, fuel₀ ≤ fuel → ∀ calls,
          donode (removing leaf branch) (fun node depth s =>
            childrenLoop (removing leaf branch) fuel node 0 depth s) n depth (f, calls) =
          some (f', calls ++ (Grove.cons n below .nil).walk removed depth)) ∧
          Visited f f' p n removed done next.roots below := by
        by_cases hnil : below = .nil
        · subst hnil
          have hempty : (f.node n).children = [] := hbelow
          rw [if_pos hempty] at hdecide
          obtain ⟨f', hrun, hvisited⟩ := donode_leaf hparent hempty hchildren (Ne.symm hpn)
            hndone hnroots hdecide
          exact ⟨0, f', fun fuel _ calls => hrun _ calls, hvisited⟩
        · have hnonempty : (f.node n).children ≠ [] := by
            rw [hbelow]
            exact fun h => hnil (Grove.roots_eq_nil_iff.mp h)
          rw [if_neg hnonempty] at hdecide
          refine donode_branch hparent hbelow hnil hchildren (Ne.symm hpn) hndone hnroots hpb
            hdecide (ihb f n [] (depth + 1) hbelow hholdsb ?_ fun m hm => hremoved m ?_)
          · exact List.nodup_cons.mpr ⟨hnb, hb⟩
          · exact List.mem_cons_of_mem _ (List.mem_append_left _ hm)
      obtain ⟨fuel₁, f₁, hrun₁, hvisited⟩ := hvisit
      -- The rest of the children, which the visit has left alone.
      have hframe : ∀ m ∈ next.nodes, f₁.node m = f.node m := fun m hm =>
        hvisited.frame m (fun h => hpnext (h ▸ hm)) (fun h => hnn (h ▸ hm))
          fun h => hbn m h m hm rfl
      have hdecides : Decides leaf branch removed f₁ next := fun m hm => by
        rw [hframe m hm]
        exact hremoved m (List.mem_cons_of_mem _ (List.mem_append_right _ hm))
      have hnodup' : ∀ done', (∀ m ∈ done', m ∈ done ∨ m = n) → done'.Nodup →
          (p :: done' ++ next.nodes).Nodup := by
        intro done' hsub hdone'
        rw [List.cons_append, List.nodup_cons, List.mem_append, List.nodup_append]
        refine ⟨?_, hdone', hnext, fun x hx y hy hxy => ?_⟩
        · rintro (h | h)
          · exact (hsub p h).elim hpdone hpn
          · exact hpnext h
        · rcases hsub x hx with h | rfl
          · exact hdisj x h y (.inr (.inr hy)) hxy
          · exact hnn (hxy ▸ hy)
      have houtside : ∀ m, m ∉ (Grove.cons n below next).nodes →
          m ≠ n ∧ m ∉ below.nodes ∧ m ∉ next.nodes := fun m hm =>
        ⟨fun h => hm (h ▸ List.mem_cons_self),
          fun h => hm (List.mem_cons_of_mem _ (List.mem_append_left _ h)),
          fun h => hm (List.mem_cons_of_mem _ (List.mem_append_right _ h))⟩
      have hplace : (f.node p).children[done.length]? = some n := by
        rw [hchildren]
        simp [Grove.roots]
      cases hn : removed n with
      | true =>
          have hchildren₁ : (f₁.node p).children = done ++ next.roots := by
            rw [hvisited.children, hn]
            simp
          obtain ⟨fuel₂, f', hrun₂, hafter⟩ := ihn f₁ p done depth hchildren₁
            (hholdsn.congr hframe) (hnodup' done (fun m hm => .inl hm) hdone) hdecides
          refine ⟨max fuel₁ fuel₂ + 1, f', fun fuel hfuel calls => ?_, ?_⟩
          · obtain ⟨fuel, rfl⟩ : ∃ k, fuel = k + 1 := ⟨fuel - 1, by omega⟩
            have hnext' : (f₁.node p).children[done.length]? ≠ some n := by
              rw [hchildren₁, List.getElem?_append_right (Nat.le_refl _), Nat.sub_self]
              exact fun h => hnroots (List.mem_of_getElem? h)
            rw [childrenLoop_gone hplace (hrun₁ fuel (by omega) calls) hnext',
              hrun₂ fuel (by omega), List.append_assoc, ← Grove.walk_cons]
          · rw [Grove.prune, if_pos hn]
            refine ⟨hafter.children, hafter.holds, hafter.parent.trans hvisited.parent,
              fun m hp hm => ?_, hvisited.labels.trans hafter.labels⟩
            obtain ⟨hmn, hmb, hmnext⟩ := houtside m hm
            exact (hafter.frame m hp hmnext).trans (hvisited.frame m hp hmn hmb)
      | false =>
          obtain ⟨hparent₁, hchildrenn, hholdsb₁⟩ := hvisited.kept hn
          have hchildren₁ : (f₁.node p).children = (done ++ [n]) ++ next.roots := by
            rw [hvisited.children, hn]
            simp
          obtain ⟨fuel₂, f', hrun₂, hafter⟩ := ihn f₁ p (done ++ [n]) depth hchildren₁
            (hholdsn.congr hframe) (hnodup' (done ++ [n])
              (fun m hm => (List.mem_append.mp hm).imp_right List.mem_singleton.mp)
              (List.nodup_append.mpr ⟨hdone, List.nodup_singleton n, fun x hx y hy hxy =>
                hndone (List.mem_singleton.mp hy ▸ hxy ▸ hx)⟩)) hdecides
          refine ⟨max fuel₁ fuel₂ + 1, f', fun fuel hfuel calls => ?_, ?_⟩
          · obtain ⟨fuel, rfl⟩ : ∃ k, fuel = k + 1 := ⟨fuel - 1, by omega⟩
            have hsame : (f₁.node p).children[done.length]? = some n := by
              rw [hchildren₁]
              simp
            have hlength : (done ++ [n]).length = done.length + 1 := by simp
            have hrest := hrun₂ fuel (by omega)
            rw [hlength] at hrest
            rw [childrenLoop_keep hplace (hrun₁ fuel (by omega) calls) hsame, hrest,
              List.append_assoc, ← Grove.walk_cons]
          · have hpruned : (Grove.cons n below next).prune removed =
                .cons n (below.prune removed) (next.prune removed) := by
              rw [Grove.prune, hn, if_neg Bool.false_ne_true]
            have hkept : f'.node n = f₁.node n := hafter.frame n (Ne.symm hpn) hnn
            rw [hpruned]
            refine ⟨?_, ⟨?_, ?_, hholdsb₁.congr fun m hm => ?_, hafter.holds⟩,
              hafter.parent.trans hvisited.parent, fun m hp hm => ?_,
              hvisited.labels.trans hafter.labels⟩
            · rw [hafter.children]
              simp [Grove.roots]
            · rw [hkept, hparent₁]
            · rw [hkept, hchildrenn]
            · have hmb := (Grove.nodes_prune_sublist removed below).subset hm
              exact hafter.frame m (fun h => hpb (h ▸ hmb)) fun h => hbn m hmb m h rfl
            · obtain ⟨hmn, hmb, hmnext⟩ := houtside m hm
              exact (hafter.frame m hp hmnext).trans (hvisited.frame m hp hmn hmb)

end Walk

section Survives

variable {f : Forest α} {tr : ℕ} {t : Grove ℕ}

def removedFrom (f : Forest α) (leaf branch : ℕ → Bool) (n : ℕ) : Bool :=
  if (f.node n).children = [] then leaf n else branch n

/-- What a traversal does with a tree when its callbacks remove nodes: it visits the nodes that
are not below a removed one, once each, in the order of the tree and at their depth; between the
calls that bracket a branch are the visits below it; and the nodes that are left are those that
are neither removed nor below a removed one, in the old order and below the old nodes. -/
structure Survives (f f' : Forest α) (tr : ℕ) (t : Grove ℕ) (removed : ℕ → Bool) (depth : ℕ)
    (calls : Calls) : Prop where
  visits : calls.filterMap Grove.Event.visit? =
    ((t.listing []).filter (Grove.spared removed)).map fun e => (e.1, depth + e.2.length)
  once : ((calls.filterMap Grove.Event.visit?).map Prod.fst).Nodup
  brackets : ∀ x as b, Grove.Place [] t x as b → b ≠ .nil → Grove.spared removed (x, as) →
    ∃ pre mid post, calls =
        pre ++ .enter x (depth + as.length) :: mid ++ .exit x (depth + as.length) :: post ∧
      mid.filterMap Grove.Event.visit? =
        ((b.listing (x :: as)).filter (Grove.spared removed)).map fun e =>
          (e.1, depth + e.2.length)
  left : ∃ t', Stands f' tr t' ∧
    t'.listing [] = (t.listing []).filter fun e => !removed e.1 && Grove.spared removed e
  labels : SameLabels f f'

/-- A traversal below the root goes well when its callbacks remove the nodes they are called
for. -/
theorem traverse_survives (h : Stands f tr t) (leaf branch : ℕ → Bool) (depth : ℕ) :
    ∃ fuel₀ f' calls, (∀ fuel, fuel₀ ≤ fuel →
        traverse (removing leaf branch) fuel tr false depth (f, []) = some (f', calls)) ∧
      Survives f f' tr t (removedFrom f leaf branch) depth calls := by
  obtain ⟨fuel₀, f', hrun, hafter⟩ := @childrenLoop_walk _ leaf branch (removedFrom f leaf branch)
    t f tr [] depth h.children h.holds h.nodup fun n _ => rfl
  have hvisits := @Grove.visits_walk _ [] (removedFrom f leaf branch)
    (fun b hb => absurd hb List.not_mem_nil) depth t
  refine ⟨fuel₀, f', _, fun fuel hfuel => hrun fuel hfuel [], hvisits, ?_, fun x as b hplace hb
    hspared => hplace.exists_brackets hb hspared depth, ⟨_, ⟨hafter.children, hafter.holds, ?_⟩,
    Grove.listing_prune (fun b hb => absurd hb List.not_mem_nil) t⟩, hafter.labels⟩
  · have hnodes : (t.listing []).map Prod.fst = t.nodes := Grove.map_fst_listing [] t
    rw [List.nil_append, ← Nat.add_zero depth, ← @List.length_nil ℕ, hvisits, List.map_map]
    refine List.Nodup.sublist (List.filter_sublist.map Prod.fst) ?_
    rw [hnodes]
    exact (List.nodup_cons.mp h.nodup).2
  · exact h.nodup.sublist ((Grove.nodes_prune_sublist _ t).cons_cons tr)

/-- A directory with a file `b`, beside a file `c`, as `tree.insert` builds it. -/
def sapling : Forest Unit :=
  let f := start none ()
  let f := (f.new (some "a".toList) ()).insert 0 1
  let f := (f.new (some "b".toList) ()).insert 1 2
  (f.new (some "c".toList) ()).insert 0 3

theorem stands_sapling : Stands sapling 0 (.cons 1 (.cons 2 .nil .nil) (.cons 3 .nil .nil)) := by
  refine ⟨rfl, ?_, by decide⟩
  exact ⟨rfl, rfl, ⟨rfl, rfl, trivial, trivial⟩, rfl, rfl, trivial, trivial⟩

/-- The leaf `b` is removed while the directory is visited. -/
theorem traverse_survives_sapling : ∃ fuel₀ f' calls, (∀ fuel, fuel₀ ≤ fuel →
      traverse (removing (· == 2) fun _ => false) fuel 0 false 0 (sapling, []) =
        some (f', calls)) ∧
    Survives sapling f' 0 (.cons 1 (.cons 2 .nil .nil) (.cons 3 .nil .nil))
      (removedFrom sapling (· == 2) fun _ => false) 0 calls :=
  traverse_survives stands_sapling _ _ 0

end Survives

end Tree

end Puremake
