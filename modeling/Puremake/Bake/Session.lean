import Puremake.Bake.Postprocess

/-!
# Solutions and their projects

A solution is baked by collapsing the solution itself, and then every project on
the basis of the result. Two facts are used wherever configurations of different
projects are put side by side: all projects of a solution have their
configurations under the same keys, and every configuration has all its tables.
-/

namespace Puremake

open FoldRun

/-- A project of a solution. A usage project only lends its settings to others. -/
structure Project where
  name : Str
  usage : Bool
  obj : Container

structure Solution where
  obj : Container
  projects : List Project

structure BakedProject extends Project where
  configs : BakedConfigs

/-- A solution after the second loop of `premake.bake.buildconfigs`: its own settings
collapsed, and the projects that were baked on this basis. -/
structure BakedSolution where
  obj : Container
  basis : Configs
  projects : List BakedProject

def bakeStep (env : Env) (sln : Container) (basis : Configs) (st : Heap × List BakedProject)
    (prj : Project) : Except BakeError (Heap × List BakedProject) := do
  let (heap, configs) ← bakeProject env sln prj.obj basis st.1
  return (heap, st.2 ++ [{ prj with configs }])

/-- The second loop of `premake.bake.buildconfigs`, for one solution. -/
def bakeSolution (env : Env) (sln : Solution) (heap : Heap) :
    Except BakeError (Heap × BakedSolution) := do
  let (heap, basis) ← collapse env sln.obj sln.obj [] heap
  let (heap, projects) ← sln.projects.foldlM (bakeStep env sln.obj basis) (heap, [])
  return (heap, ⟨sln.obj, basis, projects⟩)

/-- A baked project has the configurations that baking it gives. -/
def BakedFrom (env : Env) (sln : Container) (basis : Configs) (prj : Project)
    (b : BakedProject) : Prop :=
  b.toProject = prj ∧ ∃ heap heap', bakeProject env sln prj.obj basis heap = .ok (heap', b.configs)

/-- What baking a solution does: every project is baked once, on the same basis. -/
theorem bakeSolution_eq_ok {env : Env} {sln : Solution} {heap heap' : Heap}
    {baked : BakedSolution} (h : bakeSolution env sln heap = .ok (heap', baked)) :
    (∃ g, collapse env sln.obj sln.obj [] heap = .ok (g, baked.basis)) ∧ baked.obj = sln.obj ∧
      List.Forall₂ (BakedFrom env sln.obj baked.basis) sln.projects baked.projects := by
  obtain ⟨⟨g, basis⟩, hcollapse, h⟩ := bind_eq_ok.mp h
  obtain ⟨⟨_, projects⟩, hrun, heq⟩ := bind_eq_ok.mp h
  cases heq
  refine ⟨⟨g, hcollapse⟩, rfl, ?_⟩
  refine foldlM_invariant (d := []) (P := fun _ _ => True)
    (I := fun done (st : Heap × List BakedProject) =>
      List.Forall₂ (BakedFrom env sln.obj basis) done st.2) ?_ .nil
    (along_of_forall (fun _ _ => trivial) _ _) hrun
  intro done st prj st' hdone _ hstep
  obtain ⟨⟨g', configs⟩, hbake, heq⟩ := bind_eq_ok.mp hstep
  cases heq
  exact List.rel_append hdone (.cons ⟨rfl, st.1, g', hbake⟩ .nil)

section Keys

variable {env : Env} {obj : Container} {basis : Configs}

/-- The keys that the configurations of a solution are stored under. -/
def IsKey (cs ps : List Str) (k : Str) : Prop :=
  k = configKey none native ∨ ∃ c ∈ cs, ∃ p ∈ pltnames ps, k = configKey (some c) p

theorem mem_keys_collapseStep {cfgname : Option Str} {p : Str} {st st' : CollapseState}
    (h : collapseStep env obj basis cfgname st p = .ok st') (k : Str) :
    k ∈ st'.result.map Prod.fst ↔ k ∈ st.result.map Prod.fst ∨ k = configKey cfgname p := by
  obtain ⟨g, t, cfg, -, rfl⟩ := collapseStep_eq_ok.mp h
  rw [mem_keys_assign]
  exact or_comm

theorem mem_keys_collapseName {ps : List Str} {terms : Terms} {c : Str}
    {st st' : CollapseState} (h : collapseName env obj basis ps terms st c = .ok st') (k : Str) :
    k ∈ st'.result.map Prod.fst ↔
      k ∈ st.result.map Prod.fst ∨ ∃ p ∈ pltnames ps, k = configKey (some c) p := by
  refine foldlM_invariant (d := []) (s := { st with terms }) (P := fun _ _ => True)
    (I := fun done (s : CollapseState) => k ∈ s.result.map Prod.fst ↔
      k ∈ st.result.map Prod.fst ∨ ∃ p ∈ done, k = configKey (some c) p) ?_ (by simp)
    (along_of_forall (fun _ _ => trivial) _ _) h
  intro done s p s' hs _ hstep
  rw [mem_keys_collapseStep hstep, hs]
  simp only [List.mem_append, List.mem_singleton, or_and_right, exists_or, exists_eq_left, or_assoc]

/-- The keys of a collapsed object depend on the lists of the solution alone. -/
theorem mem_keys_collapse {sln : Container} {cs : List Str} {heap h : Heap} {cfgs : Configs}
    (hcs : sln.configurations = some cs)
    (hrun : collapse env sln obj basis heap = .ok (h, cfgs)) (k : Str) :
    k ∈ cfgs.map Prod.fst ↔ IsKey cs sln.platformnames k := by
  obtain ⟨cs', root, st, hcs', hroot, hst, -, rfl⟩ := collapse_eq_ok.mp hrun
  obtain rfl := Option.some.inj (hcs.symm.trans hcs')
  refine foldlM_invariant (d := []) (P := fun _ _ => True)
    (I := fun done (s : CollapseState) => k ∈ s.result.map Prod.fst ↔
      IsKey done sln.platformnames k) ?_ ?_ (along_of_forall (fun _ _ => trivial) _ _) hst
  · intro done s c s' hs _ hname
    rw [mem_keys_collapseName hname, hs, IsKey, IsKey]
    simp only [List.mem_append, List.mem_singleton, or_and_right, exists_or, exists_eq_left,
      or_assoc]
  · rw [mem_keys_collapseStep hroot]
    simp [IsKey]

theorem mem_keys_bakeProject {sln : Container} {cs : List Str} {heap h : Heap}
    {baked : BakedConfigs} (hcs : sln.configurations = some cs)
    (hbake : bakeProject env sln obj basis heap = .ok (h, baked)) (k : Str) :
    k ∈ baked.map Prod.fst ↔ IsKey cs sln.platformnames k := by
  obtain ⟨g, cfgs, hcollapse, hpost⟩ := bakeProject_eq_ok hbake
  rw [← mem_keys_collapse hcs hcollapse, keys_of_postprocessed hpost]
  exact ((env.ord.perm cfgs).map Prod.fst).mem_iff

/-- All projects of a baked solution have a configuration under the same keys. -/
theorem mem_keys_of_bakeSolution {sln : Solution} {heap h : Heap} {baked : BakedSolution}
    (hbake : bakeSolution env sln heap = .ok (h, baked)) {prj prj' : BakedProject}
    (hprj : prj ∈ baked.projects) (hprj' : prj' ∈ baked.projects) {k : Str}
    (hk : k ∈ prj.configs.map Prod.fst) : k ∈ prj'.configs.map Prod.fst := by
  obtain ⟨⟨g, hcollapse⟩, -, hbaked⟩ := bakeSolution_eq_ok hbake
  obtain ⟨cs, _, _, hcs, -⟩ := collapse_eq_ok.mp hcollapse
  have hkeys : ∀ b ∈ baked.projects,
      (k ∈ b.configs.map Prod.fst ↔ IsKey cs sln.obj.platformnames k) := by
    intro b hb
    obtain ⟨_, -, -, _, _, hproject⟩ := exists_left_of_forall₂ hbaked hb
    exact mem_keys_bakeProject hcs hproject k
  exact (hkeys prj' hprj').mpr ((hkeys prj hprj).mp hk)

end Keys

section Initialised

variable {env : Env} {obj : Container}

/-- An object that refers to a table of terms was merged from a block, and has all
its tables. -/
def Obj.Grounded (cfg : Obj) : Prop := cfg.terms.isSome → cfg.fields.Initialised

theorem grounded_configBase {basis : Option Obj} (h : ∀ b ∈ basis, b.Grounded) :
    (configBase env obj basis).Grounded := by
  intro hterms
  cases basis with
  | none => cases hterms
  | some b =>
      have hb : b.terms.isSome := by
        simpa [configBase, mergeobject, Container.obj, Obj.empty] using hterms
      refine initialised_mergefields (Or.inl (initialised_adjustpaths ?_))
      exact initialised_mergefields (Or.inr (h b rfl hb))

theorem grounded_mergeBlocks {st st' : MergeState} {blks : List Block}
    (h : st.cfg.Grounded) (hrun : blks.foldlM (mergeBlock env) st = .ok st') :
    st'.cfg.Grounded := by
  refine foldlM_invariant (d := []) (P := fun _ _ => True)
    (I := fun _ (s : MergeState) => s.cfg.Grounded) ?_ h
    (along_of_forall (fun _ _ => trivial) _ _) hrun
  intro done s blk s' hs _ hstep
  rcases mergeBlock_eq_ok.mp hstep with ⟨-, rfl⟩ | ⟨-, rfl⟩
  · rw [mergeMatching_cfg]
    exact fun _ => initialised_mergefields (Or.inr blk.initialised)
  · exact hs

theorem initialised_of_collapse {sln : Container} {basis cfgs : Configs} {heap h : Heap}
    (hbasis : ∀ e ∈ basis, e.2.fields.Initialised)
    (hrun : collapse env sln obj basis heap = .ok (h, cfgs)) :
    ∀ e ∈ cfgs, e.2.fields.Initialised := by
  refine collapse_forall (Q := fun _ cfg => cfg.fields.Initialised) ?_ hrun
  intro heap terms c p h t cfg hm
  obtain ⟨st, addr, hst, haddr, -, -, rfl⟩ := merge_eq_ok.mp hm
  refine grounded_mergeBlocks (grounded_configBase ?_) hst (by rw [haddr]; rfl)
  intro b hb
  obtain ⟨cfg, hcfg, rfl⟩ := Option.map_eq_some_iff.mp hb
  exact fun _ => hbasis (_, cfg) (mem_of_lookup hcfg)

theorem initialised_fixedFields {plt : Platform} {cfg cfg' : Fields} (h : cfg.Initialised)
    (hfixed : fixedFields plt cfg = .ok cfg') : cfg'.Initialised := by
  obtain ⟨mid, hmid, hflags⟩ := bind_eq_ok.mp hfixed
  have hlocation : (defaultLocation cfg).Initialised := by
    rw [defaultLocation]
    split
    · exact h.set _ _
    · exact h
  have hkind : (adjustKind plt (defaultLocation cfg)).Initialised := by
    rw [adjustKind]
    split
    · exact hlocation.set _ _
    · exact hlocation
  have hfiles : mid.Initialised := by
    rw [removeExcluded] at hmid
    split at hmid
    · cases hmid
    · split at hmid <;> cases hmid <;> exact hkind.set _ _
  rw [rekeyFlags] at hflags
  split at hflags
  · cases hflags
  · cases hflags
    exact hfiles.set _ _

theorem initialised_of_bakeSolution {sln : Solution} {heap h : Heap} {baked : BakedSolution}
    (hbake : bakeSolution env sln heap = .ok (h, baked)) {prj : BakedProject}
    (hprj : prj ∈ baked.projects) {e : Str × BakedConfig} (he : e ∈ prj.configs) :
    e.2.fields.Initialised := by
  obtain ⟨⟨g, hcollapse⟩, -, hbaked⟩ := bakeSolution_eq_ok hbake
  obtain ⟨_, -, -, _, _, hproject⟩ := exists_left_of_forall₂ hbaked hprj
  obtain ⟨_, cfgs, hcfgs, hpost⟩ := bakeProject_eq_ok hproject
  have hbasis := initialised_of_collapse (by simp) hcollapse
  obtain ⟨e', he', -, _, _, -, hrun⟩ := exists_left_of_forall₂ hpost he
  obtain ⟨_, _, plt, fields, _, -, -, -, hfields, -, heq⟩ := postprocess_eq_ok.mp hrun
  rw [heq]
  exact initialised_fixedFields
    (initialised_of_collapse hbasis hcfgs e' (env.ord.mem_enum.mp he')) hfields

end Initialised

end Puremake
