import Puremake.Bake.Owners

/-!
# Long names after a bake

The long name of a configuration is made of the names of the pair that it was baked for. It is kept
by all that is done later, so under the key of a pair stands a configuration with the long name of
the pair that owns the key.
-/

namespace Puremake

open FoldRun

/-- `premake.getconfigname(cfgname, platform)` -/
def longname (cp : Str × Str) : Str := cp.1 ++ longSuffix cp.2

theorem getconfigname_long (c p : Str) :
    getconfigname (some c) p false = .ok (some (longname (c, p))) := rfl

/-- Under the key of every pair stands a configuration that is called like the last pair with this
key. -/
def OwnedLongnames (l : List (Str × Str)) (cfgs : BakedConfigs) : Prop :=
  ∀ k cp, owner l k = some cp → ∃ cfg, cfgs.lookup k = some cfg ∧ cfg.name = some cp.1 ∧
    cfg.platform = cp.2 ∧ cfg.longname = some (longname cp)

section Longnames

variable {env : Env} {session : List Solution} {heap : Heap} {l : List (Str × Str)}

theorem OwnedLongnames.of_lookup {cfgs cfgs' : BakedConfigs} (h : OwnedLongnames l cfgs)
    (hlookup : ∀ k cfg, cfgs.lookup k = some cfg →
      ∃ cfg', cfgs'.lookup k = some cfg' ∧ SameNames cfg cfg') : OwnedLongnames l cfgs' := by
  intro k cp hk
  obtain ⟨cfg, hcfg, hname, hplt, hlong⟩ := h k cp hk
  obtain ⟨cfg', hcfg', hsame⟩ := hlookup k cfg hcfg
  exact ⟨cfg', hcfg', hsame.name.trans hname, hsame.platform.trans hplt,
    hsame.longname.trans hlong⟩

theorem ownedLongnames_bakeProject {sln obj : Container} {basis : Configs} {cs : List Str}
    {h : Heap} {baked : BakedConfigs} (hcs : sln.configurations = some cs)
    (hbake : bakeProject env sln obj basis heap = .ok (h, baked)) :
    OwnedLongnames (pairs cs sln.platformnames) baked := by
  obtain ⟨g, cfgs, hcollapse, hbaked⟩ := lookup_baked hcs hbake
  intro k cp hk
  obtain ⟨cfg, hcfg, hname, hplt⟩ := owned_collapse hcs hcollapse k cp hk
  obtain ⟨b, hb, -, g', g'', -, hpost⟩ := hbaked k cfg hcfg
  obtain ⟨_, long, _, _, _, -, hlong, -, -, -, rfl⟩ := postprocess_eq_ok.mp hpost
  rw [hname, hplt] at hlong
  exact ⟨_, hb, hname, hplt, (Except.ok.inj hlong).symm⟩

theorem ownedLongnames_copyProject {prjs : List BakedProject} {prj prj' : BakedProject}
    (hnodup : (prj.configs.map Prod.fst).Nodup) (h : OwnedLongnames l prj.configs)
    (hcopy : copyProject env prjs prj = .ok prj') : OwnedLongnames l prj'.configs := by
  rw [copyProject] at hcopy
  split at hcopy
  · obtain rfl := Except.ok.inj hcopy
    exact h
  · obtain ⟨configs, hconfigs, heq⟩ := bind_eq_ok.mp hcopy
    cases heq
    refine h.of_lookup fun k cfg hcfg => ?_
    have hrel : List.Forall₂ (fun e e' : Str × BakedConfig => e'.1 = e.1 ∧ SameNames e.2 e'.2)
        (env.ord.enum prj.configs) configs :=
      (mapM_eq_ok.mp hconfigs).imp fun e e' he => sameNames_copyConfig he
    exact exists_lookup_of_forall₂ hrel
      ((lookup_perm (env.ord.perm prj.configs).symm hnodup k).trans hcfg)

/-- The long names that are found in the configurations of a project after a bake. -/
theorem ownedLongnames_buildconfigs {result : List BakedSolution}
    (h : buildconfigs env session heap = .ok result) {sln : BakedSolution} (hsln : sln ∈ result)
    {prj : BakedProject} (hprj : prj ∈ sln.projects) :
    ∃ cs, sln.obj.configurations = some cs ∧
      OwnedLongnames (pairs cs sln.obj.platformnames) prj.configs := by
  obtain ⟨heap', baked, copied, hbaked, hcopied, hassigned⟩ := buildconfigs_eq_ok h
  obtain ⟨sln₂, hsln₂, hobj₂, -, hprojects₂⟩ := exists_left_of_forall₂ hassigned hsln
  obtain ⟨prj₂, hprj₂, -, hconfigs₂⟩ := exists_left_of_forall₂ hprojects₂ hprj
  obtain ⟨sln₁, hsln₁, hcopy⟩ := exists_left_of_forall₂ hcopied hsln₂
  obtain ⟨sln₀, hsln₀, _, _, hbake⟩ := exists_left_of_forall₂ (bakeSession_eq_ok hbaked) hsln₁
  obtain ⟨⟨_, hcollapse⟩, hobj₁, hfrom⟩ := bakeSolution_eq_ok hbake
  obtain ⟨cs, _, _, hcs, -⟩ := collapse_eq_ok.mp hcollapse
  obtain ⟨projects, hprojects, heq⟩ := bind_eq_ok.mp hcopy
  cases heq
  obtain ⟨prj₁, hprj₁, hproject⟩ :=
    exists_left_of_forall₂ (mapM_eq_ok.mp hprojects) (List.mem_of_mem_filter hprj₂)
  obtain ⟨_, -, -, _, _, hrun⟩ := exists_left_of_forall₂ hfrom hprj₁
  have hobj : sln.obj = (prepareSolution env sln₀).obj := hobj₂.trans hobj₁
  refine ⟨cs, hobj ▸ hcs, ?_⟩
  rw [hobj]
  refine (ownedLongnames_copyProject (nodup_keys_bakeProject hcs hrun)
    (ownedLongnames_bakeProject hcs hrun) hproject).of_lookup fun k cfg hcfg => ?_
  obtain ⟨cfg', hcfg', hassigned⟩ := exists_lookup_of_forall₂ hconfigs₂ hcfg
  exact ⟨cfg', hcfg', hassigned.1⟩

end Longnames

end Puremake
