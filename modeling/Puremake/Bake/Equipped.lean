import Puremake.Bake.Buildconfigs
import Puremake.Bake.Names

/-!
# The configurations that a project has

Every project of a baked session has a root configuration, and a configuration for each pair of
a configuration and a platform of its solution. Copying the settings of usage projects goes
through the configurations in the order of `pairs`, and the last two steps of baking only assign
to them, so the pairs are there in the end. Of the projects themselves only those for usage are
left out.
-/

namespace Puremake

open FoldRun

/-- The configurations of a project: one of each key, the root, and one for each configuration
and platform of the solution, which has a name. -/
structure Equipped (cs ps : List Str) (configs : BakedConfigs) : Prop where
  nodup : (configs.map Prod.fst).Nodup
  root : ∃ e ∈ configs, e.1 = []
  pairs : ∀ c ∈ cs, ∀ p ∈ pltnames ps, ∃ e ∈ configs,
    e.1 = configKey (some c) p ∧ e.2.name.isSome ∧ e.2.platform ∈ pltnames ps

section Equipped

variable {cs ps : List Str} {configs configs' : BakedConfigs}

theorem Equipped.perm (h : Equipped cs ps configs) (hperm : configs'.Perm configs) :
    Equipped cs ps configs' where
  nodup := (hperm.map Prod.fst).nodup_iff.mpr h.nodup
  root := by
    obtain ⟨e, he, hkey⟩ := h.root
    exact ⟨e, hperm.mem_iff.mpr he, hkey⟩
  pairs := by
    intro c hc p hp
    obtain ⟨e, he, hpair⟩ := h.pairs c hc p hp
    exact ⟨e, hperm.mem_iff.mpr he, hpair⟩

theorem keys_of_forall₂ {α β : Type*} {l : List (Str × α)} {l' : List (Str × β)}
    (h : List.Forall₂ (fun e e' => e'.1 = e.1) l l') : l'.map Prod.fst = l.map Prod.fst := by
  induction h with
  | nil => rfl
  | cons hkey _ ih => rw [List.map_cons, List.map_cons, hkey, ih]

/-- Steps that keep the keys and the names keep the configurations. -/
theorem Equipped.forall₂ (h : Equipped cs ps configs)
    (hsame : List.Forall₂ (fun e e' => e'.1 = e.1 ∧ SameNames e.2 e'.2) configs configs') :
    Equipped cs ps configs' where
  nodup := (keys_of_forall₂ (hsame.imp fun _ _ h => h.1)).symm ▸ h.nodup
  root := by
    obtain ⟨e, he, hkey⟩ := h.root
    obtain ⟨e', he', hkey', -⟩ := exists_right_of_forall₂ hsame he
    exact ⟨e', he', hkey'.trans hkey⟩
  pairs := by
    intro c hc p hp
    obtain ⟨e, he, hkey, hname, hplatform⟩ := h.pairs c hc p hp
    obtain ⟨e', he', hkey', hnames⟩ := exists_right_of_forall₂ hsame he
    exact ⟨e', he', hkey'.trans hkey, hnames.name ▸ hname, hnames.platform ▸ hplatform⟩

/-- A configuration is found for each name, for the platforms of the solution. -/
theorem Equipped.getconfig (h : Equipped cs ps configs) {c p : Str} (hc : c ∈ cs)
    (hp : p ∈ pltnames ps) : ∃ cfg, getconfig ps configs (some c) (some p) = some cfg ∧
      cfg.name.isSome ∧ cfg.platform ∈ pltnames ps := by
  obtain ⟨⟨k, cfg⟩, he, rfl, hnames⟩ := h.pairs c hc p hp
  refine ⟨cfg, ?_, hnames⟩
  rw [getconfig_eq_lookup hp]
  exact (lookup_eq_some_iff_mem h.nodup).mpr he

end Equipped

section Baked

variable {env : Env}

/-- Every project of a baked session has all the configurations. -/
def BakedSolution.Equipped (sln : BakedSolution) : Prop :=
  ∀ prj ∈ sln.projects,
    Puremake.Equipped (sln.obj.configurations.getD []) sln.obj.platformnames prj.configs

theorem equipped_bakeProject {sln obj : Container} {basis : Configs} {cs : List Str}
    {heap h : Heap} {baked : BakedConfigs} (hcs : sln.configurations = some cs)
    (hbake : bakeProject env sln obj basis heap = .ok (h, baked)) :
    Equipped cs sln.platformnames baked := by
  obtain ⟨g, cfgs, hcollapse, hlookup⟩ := lookup_baked hcs hbake
  refine ⟨nodup_keys_bakeProject hcs hbake, ?_, ?_⟩
  · have hkey : [] ∈ baked.map Prod.fst := (mem_keys_bakeProject hcs hbake []).mpr (.inl rfl)
    obtain ⟨e, he, hroot⟩ := List.mem_map.mp hkey
    exact ⟨e, he, hroot⟩
  · intro c hc p hp
    obtain ⟨cfg, c', p', hcfg, hname, rfl, -, hp', -⟩ := (collapse_named hcs hcollapse).1 c hc p hp
    obtain ⟨b, hb, -, _, _, -, hpost⟩ := hlookup _ cfg hcfg
    obtain ⟨hname', hplatform⟩ := postprocess_names hpost
    exact ⟨_, (lookup_eq_some_iff_mem (nodup_keys_bakeProject hcs hbake)).mp hb, rfl,
      by rw [hname', hname]; rfl, hplatform ▸ hp'⟩

/-- Baking a solution equips its projects, for the lists that the solution has. -/
theorem equipped_bakeSolution {sln : Solution} {heap h : Heap} {baked : BakedSolution}
    (hbake : bakeSolution env sln heap = .ok (h, baked)) : baked.Equipped := by
  obtain ⟨⟨g, hcollapse⟩, hobj, hbaked⟩ := bakeSolution_eq_ok hbake
  obtain ⟨cs, _, _, hcs, -⟩ := collapse_eq_ok.mp hcollapse
  intro prj hprj
  obtain ⟨_, -, -, _, _, hproject⟩ := exists_left_of_forall₂ hbaked hprj
  rw [hobj, hcs]
  exact equipped_bakeProject hcs hproject

theorem equipped_copyProject {cs ps : List Str} {prjs : List BakedProject}
    {prj prj' : BakedProject} (h : Equipped cs ps prj.configs)
    (hcopy : copyProject env prjs prj = .ok prj') : Equipped cs ps prj'.configs := by
  rw [copyProject] at hcopy
  split at hcopy
  · obtain rfl := Except.ok.inj hcopy
    exact h
  · obtain ⟨configs, hmap, heq⟩ := bind_eq_ok.mp hcopy
    obtain rfl := Except.ok.inj heq
    exact (h.perm (env.ord.perm _)).forall₂
      ((mapM_eq_ok.mp hmap).imp fun _ _ hrun => sameNames_copyConfig hrun)

/-- Every project of a session that was baked has a configuration for each name, also for every
platform of its solution. -/
theorem equipped_buildconfigs {session : List Solution} {heap : Heap}
    {result : List BakedSolution} (h : buildconfigs env session heap = .ok result) :
    ∀ sln ∈ result, sln.Equipped := by
  obtain ⟨heap', baked, copied, hbaked, hcopied, hassigned⟩ := buildconfigs_eq_ok h
  intro sln hsln prj hprj
  obtain ⟨c, hc, hobj, -, hprojects⟩ := exists_left_of_forall₂ hassigned hsln
  obtain ⟨prjc, hprjc, -, hconfigs⟩ := exists_left_of_forall₂ hprojects hprj
  obtain ⟨b, hb, hcopy⟩ := exists_left_of_forall₂ hcopied hc
  obtain ⟨_, -, _, _, hbake⟩ := exists_left_of_forall₂ (bakeSession_eq_ok hbaked) hb
  obtain ⟨projects, hmap, heq⟩ := bind_eq_ok.mp hcopy
  obtain rfl := Except.ok.inj heq
  obtain ⟨prjb, hprjb, hrun⟩ :=
    exists_left_of_forall₂ (mapM_eq_ok.mp hmap) (List.mem_filter.mp hprjc).1
  have hequipped := equipped_copyProject (equipped_bakeSolution hbake prjb hprjb) hrun
  rw [hobj]
  exact hequipped.forall₂ (hconfigs.imp fun _ _ h => ⟨h.1, h.2.1⟩)

end Baked

section Kept

/-- What baking makes of a solution: its platforms are the same, and of its projects those that
are no usage projects are left, in their order. -/
structure Kept (sln : Solution) (b : BakedSolution) : Prop where
  platforms : b.obj.platformnames = sln.obj.platformnames
  projects : b.projects.map (fun prj => prj.name) =
    (sln.projects.filter fun prj => ¬ prj.usage).map fun prj => prj.name

theorem map_eq_of_forall₂ {α β γ : Type*} {R : α → β → Prop} {f : α → γ} {g : β → γ}
    {l : List α} {l' : List β} (h : List.Forall₂ R l l') (hR : ∀ a b, R a b → g b = f a) :
    l'.map g = l.map f := by
  induction h with
  | nil => rfl
  | cons hab _ ih => rw [List.map_cons, List.map_cons, hR _ _ hab, ih]

def Project.label (prj : Project) : Str × Bool := (prj.name, prj.usage)

theorem label_bakeSolution {env : Env} {sln : Solution} {heap heap' : Heap} {b : BakedSolution}
    (h : bakeSolution env (prepareSolution env sln) heap = .ok (heap', b)) :
    b.obj.platformnames = sln.obj.platformnames ∧
      b.projects.map (fun prj => prj.label) = sln.projects.map Project.label := by
  obtain ⟨-, hobj, hprojects⟩ := bakeSolution_eq_ok h
  constructor
  · rw [hobj]
    show ((defaultLocation sln.obj.fields .platforms).getD Tbl.empty).arr = _
    rw [defaultLocation_of_ne (by decide)]
    rfl
  · have hlabels : b.projects.map (fun prj => prj.label) =
        (prepareSolution env sln).projects.map Project.label :=
      map_eq_of_forall₂ hprojects fun _ _ hbaked => congrArg Project.label hbaked.1
    rw [hlabels]
    exact List.map_map

theorem toProject_copyProject {env : Env} {prjs : List BakedProject} {prj prj' : BakedProject}
    (h : copyProject env prjs prj = .ok prj') : prj'.toProject = prj.toProject := by
  rw [copyProject] at h
  split at h
  · cases h
    rfl
  · obtain ⟨_, -, heq⟩ := bind_eq_ok.mp h
    cases heq
    rfl

theorem filter_label {α : Type*} (f : α → Project) (l : List α) :
    (l.filter fun a => ¬ (f a).usage).map (fun a => (f a).name) =
      ((l.map fun a => (f a).label).filter fun e => ¬ e.2).map Prod.fst := by
  rw [List.filter_map, List.map_map]
  rfl

/-- Baking keeps all solutions, and all their projects but the usage projects. -/
theorem kept_buildconfigs {env : Env} {session : List Solution} {heap : Heap}
    {baked : List BakedSolution} (h : buildconfigs env session heap = .ok baked) :
    List.Forall₂ Kept session baked := by
  obtain ⟨_, _, _, hbaked, hcopied, hassigned⟩ := buildconfigs_eq_ok h
  have hcopy : List.Forall₂ Kept session _ :=
    forall₂_trans (fun sln b c hb hc => ?_) (bakeSession_eq_ok hbaked) hcopied
  · refine forall₂_trans (fun sln c b hc hb => ⟨?_, ?_⟩) hcopy hassigned
    · rw [hb.1]
      exact hc.platforms
    · rw [← hc.projects]
      exact map_eq_of_forall₂ hb.2.2 fun _ _ h => congrArg Project.name h.1
  · obtain ⟨_, _, hbake⟩ := hb
    obtain ⟨hplatforms, hlabels⟩ := label_bakeSolution hbake
    obtain ⟨projects, hmap, heq⟩ := bind_eq_ok.mp hc
    cases heq
    refine ⟨hplatforms, ?_⟩
    have hlabels : projects.map (fun prj => prj.label) = sln.projects.map Project.label :=
      (map_eq_of_forall₂ (mapM_eq_ok.mp hmap) fun _ _ h =>
        congrArg Project.label (toProject_copyProject h)).trans hlabels
    refine (filter_label (fun prj : BakedProject => prj.toProject) projects).trans ?_
    rw [hlabels]
    exact (filter_label id sln.projects).symm

end Kept

end Puremake
