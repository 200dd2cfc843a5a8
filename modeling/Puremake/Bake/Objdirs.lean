import Puremake.Bake.Walk
import Puremake.Path.Relative

/-!
# Object directories

`builduniquedirs` has four directories to choose from for every configuration, each below
the one before it. How often a directory is a choice is counted over the whole session,
and a configuration gets the first of its choices that is counted once, or else its last.
-/

namespace Puremake

open FoldRun

/-- The choices that a configuration of a project has for its object directory. -/
def objdirs (env : Env) (prj : BakedProject) (cfg : BakedConfig) : List Str :=
  let objdir := (cfg.fields .objdir <|> prj.obj.fields .objdir).getD "obj".toList
  let d₁ := Path.getabsolute env.cwd (Path.join [cfg.fields .location, some objdir])
  let d₂ := Path.join [some d₁, some (if cfg.platform = native then [] else cfg.platform)]
  let d₃ := Path.join [some d₂, cfg.name]
  let d₄ := Path.join [some d₃, some prj.name]
  [d₁, d₂, d₃, d₄]

/-- The choices that count. Configurations other than the root do not have the first. -/
def choices (env : Env) (prj : BakedProject) (cfg : BakedConfig) : List Str :=
  if cfg.name.isSome then (objdirs env prj cfg).tail else objdirs env prj cfg

def allChoices (env : Env) (session : List BakedSolution) : List Str :=
  session.flatMap fun sln => sln.projects.flatMap fun prj =>
    prj.configs.flatMap fun entry => choices env prj entry.2

/-- The first of some directories that is counted once, or else the last. -/
def choose (hit_counts : Str → ℕ) : List Str → Str
  | [] => []
  | [d] => d
  | d :: ds => if hit_counts d = 1 then d else choose hit_counts ds

/-- What `builduniquedirs` assigns to a configuration. There is no configuration without a
location when it is called, since `postprocess` sets them all. -/
def assignObjdir (env : Env) (hit_counts : Str → ℕ) (prj : BakedProject) (cfg : BakedConfig) :
    Except BakeError BakedConfig :=
  match cfg.fields .location with
  | none => .error .indexNil
  | some location =>
      let dir := choose hit_counts (choices env prj cfg)
      .ok { cfg with objectsdir := some (Path.getrelative env.cwd location dir) }

def builduniquedirs (env : Env) (session : List BakedSolution) :
    Except BakeError (List BakedSolution) :=
  let hits := allChoices env session
  mapSession (assignObjdir env fun dir => hits.count dir) session

end Puremake
