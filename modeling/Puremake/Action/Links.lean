import Puremake.Action.Objects
import Puremake.Bake.Targets

/-!
# What a project links

The entries of `links` are names. An entry that is the name of a project of the session stands
for what this project builds, and any other one for a library of the system. `getlinks` gives
the paths, as they are seen from the location of the project, and `getdependencies` the projects.
-/

namespace Puremake

/-- The kinds of links that `premake.getlinks` is asked for. -/
inductive LinkKind
  | siblings
  | system
  | dependencies
  | all
  deriving DecidableEq, Repr

/-- `premake.findproject`: the first project with the name, and its solution. -/
def findproject (session : List Workspace) (name : Str) : Option (Workspace × BakedProject) :=
  session.findSome? fun sln =>
    (sln.projects.find? fun prj => prj.name = name).map fun prj => (sln, prj)

/-- `premake.getdependencies`. Two entries of the result are the same project when they have the
same name: each is the first project of the session with its name. -/
def getdependencies (ord : PairsOrder) (session : List Workspace) (prj : BakedProject) :
    List (Workspace × BakedProject) :=
  ((ord.enum prj.configs).flatMap fun entry => (entry.2.fields.list .links).arr).foldl
    (fun results link =>
      match findproject session link with
      | none => results
      | some dep =>
        if results.any fun result => result.2.name = dep.2.name then results
        else results ++ [dep]) []

/-- `canlink`, the local function of `premake.getlinks` -/
def canlink (source target : BakedConfig) : Bool :=
  if target.fields .kind ≠ some "SharedLib".toList ∧
      target.fields .kind ≠ some "StaticLib".toList then false
  else if source.iscpp then target.iscpp
  else source.fields .language = some "C#".toList ∧ target.fields .language = some "C#".toList

/-- The item for an entry of `cfg.links`, when `part` is `"fullpath"`. -/
def linkItem (env : Env) (session : List Workspace) (kind : LinkKind) (prj : BakedProject)
    (cfg : BakedConfig) (namestyle link : Str) : Except BakeError (Option Str) :=
  match findproject session link with
  | some (sln, prj') =>
    if kind = .system then .ok none
    else
      let cfgname := if cfg.name = some prj.name then some [] else cfg.name
      match getconfig sln.obj.platformnames prj'.configs cfgname (some cfg.platform) with
      | none => .error .indexNil
      | some prjcfg =>
        if kind = .dependencies ∨ canlink cfg prjcfg then
          match prjcfg.linktarget, prjcfg.fields .location, cfg.fields .location with
          | some linktarget, some oldbase, some newbase =>
            .ok (some (Path.rebase env.cwd linktarget.fullpath oldbase newbase))
          | _, _, _ => .error .indexNil
        else .ok none
  | none =>
    if kind = .system ∨ kind = .all then
      let item :=
        if namestyle = "windows".toList then
          if cfg.iscpp then link ++ ".lib".toList
          else if cfg.fields .language = some "C#".toList then link ++ ".dll".toList
          else link
        else link
      .ok (some (if '/' ∈ item then Path.getrelative env.cwd prj.location item else item))
    else .ok none

/-- `premake.getlinks`, when `part` is `"fullpath"`, for a configuration of a project -/
def getlinks (env : Env) (session : List Workspace) (kind : LinkKind) (prj : BakedProject)
    (cfg : BakedConfig) : Except BakeError (List Str) := do
  let namestyle ← getnamestyle env cfg
  (cfg.fields.list .links).arr.foldlM (fun result link => do
    match ← linkItem env session kind prj cfg namestyle link with
    | none => return result
    | some item =>
      let item := if getpathstyle env = "windows".toList then Path.translate item '\\' else item
      return if item ∈ result then result else result ++ [item]) []

end Puremake
