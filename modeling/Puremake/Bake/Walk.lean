import Puremake.Bake.Session

/-!
# Going through all configurations

After the configurations of a session are merged, baking goes through all of them twice
more and assigns to each of them. What the rest of the objects is stays.
-/

namespace Puremake

open FoldRun

def BakedProject.mapConfigs (f : BakedConfig → Except BakeError BakedConfig)
    (prj : BakedProject) : Except BakeError BakedProject := do
  let configs ← prj.configs.mapM fun entry => do return (entry.1, ← f entry.2)
  return { prj with configs }

def BakedSolution.mapConfigs (f : BakedProject → BakedConfig → Except BakeError BakedConfig)
    (sln : BakedSolution) : Except BakeError BakedSolution := do
  let projects ← sln.projects.mapM fun prj => prj.mapConfigs (f prj)
  return { sln with projects }

/-- The loops over the solutions, their projects and the configurations of these. -/
def mapSession (f : BakedProject → BakedConfig → Except BakeError BakedConfig)
    (session : List BakedSolution) : Except BakeError (List BakedSolution) :=
  session.mapM (BakedSolution.mapConfigs f)

/-- Two projects have the same configurations, but for what is assigned to each of them. -/
def BakedProject.Rel (R : BakedConfig → BakedConfig → Prop) (prj prj' : BakedProject) : Prop :=
  prj'.toProject = prj.toProject ∧
    List.Forall₂ (fun e e' : Str × BakedConfig => e'.1 = e.1 ∧ R e.2 e'.2) prj.configs prj'.configs

/-- Two solutions have the same projects, but for what is assigned to the
configurations. -/
def BakedSolution.Rel (R : BakedProject → BakedConfig → BakedConfig → Prop)
    (sln sln' : BakedSolution) : Prop :=
  sln'.obj = sln.obj ∧ sln'.basis = sln.basis ∧
    List.Forall₂ (fun prj prj' => prj.Rel (R prj) prj') sln.projects sln'.projects

section Walk

variable {f : BakedProject → BakedConfig → Except BakeError BakedConfig}

theorem mapConfigs_project {g : BakedConfig → Except BakeError BakedConfig}
    {prj prj' : BakedProject} (h : prj.mapConfigs g = .ok prj') :
    prj.Rel (fun cfg cfg' => g cfg = .ok cfg') prj' := by
  obtain ⟨configs, hconfigs, heq⟩ := bind_eq_ok.mp h
  cases heq
  refine ⟨rfl, (mapM_eq_ok.mp hconfigs).imp fun e e' he => ?_⟩
  obtain ⟨cfg, hcfg, heq⟩ := bind_eq_ok.mp he
  cases heq
  exact ⟨rfl, hcfg⟩

theorem mapConfigs_solution {sln sln' : BakedSolution} (h : sln.mapConfigs f = .ok sln') :
    sln.Rel (fun prj cfg cfg' => f prj cfg = .ok cfg') sln' := by
  obtain ⟨projects, hprojects, heq⟩ := bind_eq_ok.mp h
  cases heq
  exact ⟨rfl, rfl, (mapM_eq_ok.mp hprojects).imp fun prj prj' hprj => mapConfigs_project hprj⟩

theorem mapSession_eq_ok {session session' : List BakedSolution}
    (h : mapSession f session = .ok session') :
    List.Forall₂ (fun sln sln' : BakedSolution =>
      sln.Rel (fun prj cfg cfg' => f prj cfg = .ok cfg') sln') session session' :=
  (mapM_eq_ok.mp h).imp fun _ _ hsln => mapConfigs_solution hsln

end Walk

end Puremake
