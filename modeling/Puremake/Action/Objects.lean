import Puremake.Bake.Copy
import Puremake.Bake.Names

/-!
# Solutions and projects as the actions see them

After baking, an action goes through the solutions and their projects. A project is
handed to it as its root configuration, and its configurations are looked up by the
names of the solution, for a platform that `filterplatforms` has picked from those
that the action supports.
-/

namespace Puremake

structure Workspace extends BakedSolution where
  name : Str

def Workspace.location (sln : Workspace) : Str := (sln.obj.fields .location).getD []

def Workspace.configurations (sln : Workspace) : List Str := sln.obj.configurations.getD []

/-- `premake.solution.getproject`: the root configuration of a project, which baking
always makes. -/
def BakedProject.root (prj : BakedProject) : Option BakedConfig := prj.configs.lookup []

def BakedProject.language (prj : BakedProject) : Option Str :=
  prj.root.bind fun cfg => cfg.fields .language

def iscppproject (prj : BakedProject) : Bool :=
  prj.language = some "C".toList ∨ prj.language = some "C++".toList

def isdotnetproject (prj : BakedProject) : Bool := prj.language = some "C#".toList

def hascppproject (sln : Workspace) : Bool := sln.projects.any iscppproject

def hasdotnetproject (sln : Workspace) : Bool := sln.projects.any isdotnetproject

/-- `premake.eachconfig`: the configurations up to the first that is missing. -/
def eachconfig (sln : Workspace) (prj : BakedProject) (platform : Option Str) :
    List BakedConfig :=
  ((sln.configurations.map fun c =>
    getconfig sln.obj.platformnames prj.configs (some c) platform).takeWhile
      Option.isSome).filterMap id

/-- A round of the loop in `premake.filterplatforms`. -/
def filterStep {α : Type*} [DecidableEq α] (map : List (Str × α)) (st : List Str × List α)
    (p : Str) : List Str × List α :=
  match map.lookup p with
  | none => st
  | some v => if v ∈ st.2 then st else (st.1 ++ [p], st.2 ++ [v])

def filterplatforms {α : Type*} [DecidableEq α] (platforms : List Str) (map : List (Str × α))
    (default : Option Str) : List Str :=
  let result := (platforms.foldl (filterStep map) ([], [])).1
  if result = [] then default.toList else result

section Filterplatforms

variable {α : Type*} [DecidableEq α] {map : List (Str × α)} {platforms : List Str}

/-- What the loop collects: platforms of the list, with the values that the map has
for them, none of them twice. -/
theorem filterStep_spec {done : List Str} {st : List Str × List α}
    (h : (∀ p ∈ st.1, p ∈ done) ∧ (st.1.map fun p => map.lookup p) = st.2.map some ∧ st.2.Nodup)
    (p : Str) :
    (∀ q ∈ (filterStep map st p).1, q ∈ done ++ [p]) ∧
      ((filterStep map st p).1.map fun q => map.lookup q) = (filterStep map st p).2.map some ∧
      (filterStep map st p).2.Nodup := by
  obtain ⟨hmem, hmap, hnodup⟩ := h
  have hkeep : (∀ q ∈ st.1, q ∈ done ++ [p]) := fun q hq =>
    List.mem_append_left _ (hmem q hq)
  rw [filterStep]
  cases hp : map.lookup p with
  | none => exact ⟨hkeep, hmap, hnodup⟩
  | some v =>
      by_cases hv : v ∈ st.2
      · simp only [hv, if_true]
        exact ⟨hkeep, hmap, hnodup⟩
      · simp only [hv, if_false]
        refine ⟨?_, by simp [hmap, hp], ?_⟩
        · intro q hq
          rcases List.mem_append.mp hq with hq | hq
          · exact hkeep q hq
          · exact List.mem_append_right _ hq
        · rw [List.nodup_append]
          refine ⟨hnodup, by simp, fun x hx y hy => ?_⟩
          rw [List.mem_singleton.mp hy]
          exact fun heq => hv (heq ▸ hx)

variable (map platforms) in
theorem filterStep_foldl :
    (∀ p ∈ (platforms.foldl (filterStep map) ([], [])).1, p ∈ platforms) ∧
      ((platforms.foldl (filterStep map) ([], [])).1.map fun p => map.lookup p) =
        (platforms.foldl (filterStep map) ([], [])).2.map some ∧
      (platforms.foldl (filterStep map) ([], [])).2.Nodup := by
  induction platforms using List.reverseRecOn with
  | nil => simp
  | append_singleton done p ih =>
      rw [List.foldl_append, List.foldl_cons, List.foldl_nil]
      exact filterStep_spec ih p

variable (map platforms) in
/-- The platforms that are picked have different values in the map; unless the default
is picked, they are in the list. -/
theorem filterplatforms_spec (default : Str) (hdefault : (map.lookup default).isSome) :
    filterplatforms platforms map (some default) ≠ [] ∧
      (∀ p ∈ filterplatforms platforms map (some default), p ∈ platforms ∨ p = default) ∧
      (∀ p ∈ filterplatforms platforms map (some default), (map.lookup p).isSome) ∧
      ((filterplatforms platforms map (some default)).map fun p => map.lookup p).Nodup := by
  obtain ⟨hmem, hmap, hnodup⟩ := filterStep_foldl map platforms
  rw [filterplatforms]
  by_cases hnil : (platforms.foldl (filterStep map) ([], [])).1 = []
  · simp only [hnil, if_true, Option.toList_some]
    refine ⟨by simp, fun p hp => Or.inr (List.mem_singleton.mp hp), fun p hp => ?_, by simp⟩
    rw [List.mem_singleton.mp hp]
    exact hdefault
  · simp only [hnil, if_false]
    refine ⟨hnil, fun p hp => Or.inl (hmem p hp), fun p hp => ?_, ?_⟩
    · have hp' : map.lookup p ∈ (platforms.foldl (filterStep map) ([], [])).2.map some :=
        hmap ▸ List.mem_map.mpr ⟨p, hp, rfl⟩
      obtain ⟨v, -, hv⟩ := List.mem_map.mp hp'
      rw [← hv]
      rfl
    · rw [hmap]
      exact hnodup.map (Option.some_injective α)

end Filterplatforms

end Puremake
