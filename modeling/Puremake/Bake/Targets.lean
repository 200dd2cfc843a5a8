import Puremake.Bake.Walk
import Puremake.Path.Relative

/-!
# Targets

`gettarget` puts together the names and the directory of what a configuration builds, or of
what others link to, in the style of a tool and a system. `buildtargets` does this for every
configuration, in the style of the current action.
-/

namespace Puremake

open FoldRun

/-- `premake.iscppproject`, for a configuration -/
def BakedConfig.iscpp (cfg : BakedConfig) : Bool :=
  cfg.fields .language = some "C".toList ∨ cfg.fields .language = some "C++".toList

/-- The name style of a tool, where `premake` has one with this name. -/
def toolstyle (tool : Str) : Option (Option Str) :=
  [("gcc".toList, none), ("ow".toList, some "windows".toList),
    ("msc".toList, some "windows".toList), ("snc".toList, none),
    ("dotnet".toList, some "windows".toList)].lookup tool

/-- The name of the tool that `premake.gettool` gives. -/
def gettool (env : Env) (cfg : BakedConfig) : Except BakeError Str :=
  if cfg.iscpp then
    match env.options.lookup "cc".toList with
    | some cc => .ok cc
    | none =>
        match env.current.cc with
        | none => .ok "gcc".toList
        | some (cc :: _) => .ok cc
        | some [] => .error .indexNil
  else .ok "dotnet".toList

def getnamestyle (env : Env) (cfg : BakedConfig) : Except BakeError Str :=
  match platform cfg.platform with
  | none => .error .indexNil
  | some plt =>
      match plt.namestyle with
      | some style => .ok style
      | none => do
          match toolstyle (← gettool env cfg) with
          | none => .error .indexNil
          | some style => .ok (style.getD "posix".toList)

def getpathstyle (env : Env) : Str :=
  if env.current.os = some "windows".toList then "windows".toList else "posix".toList

inductive Direction
  | build
  | link
  deriving DecidableEq, Repr

def targetStyle (cfg : BakedConfig) (direction : Direction) (namestyle system : Str) :
    Option Str × Str :=
  let kind := cfg.fields .kind
  if cfg.iscpp then
    let kind :=
      if (namestyle = "windows".toList ∨ system = "windows".toList) ∧
          kind = some "SharedLib".toList ∧ direction = .link ∧
          "NoImportLib".toList ∉ ((cfg.fields .flags).getD Tbl.empty).keys
      then some "StaticLib".toList else kind
    (kind, if namestyle = "posix".toList ∧ system = "windows".toList ∧
      kind ≠ some "StaticLib".toList then "windows".toList else namestyle)
  else (kind, namestyle)

def targetAffixes (kind : Option Str) (namestyle system : Str) : Str × Str :=
  let app := kind = some "ConsoleApp".toList ∨ kind = some "WindowedApp".toList
  let shared := kind = some "SharedLib".toList
  let static := kind = some "StaticLib".toList
  if namestyle = "windows".toList then
    ([], if app then ".exe".toList else if shared then ".dll".toList
      else if static then ".lib".toList else [])
  else if namestyle = "posix".toList then
    if kind = some "WindowedApp".toList ∧ system = "macosx".toList then ([], [])
    else if shared then
      ("lib".toList, if system = "macosx".toList then ".dylib".toList else ".so".toList)
    else if static then ("lib".toList, ".a".toList)
    else ([], [])
  else if namestyle = "PS3".toList then
    if app then ([], ".elf".toList)
    else if static then ("lib".toList, ".a".toList)
    else ([], [])
  else ([], [])

/-- `premake.gettarget`, for a configuration of a project with a name -/
def gettarget (env : Env) (project : Str) (cfg : BakedConfig) (direction : Direction)
    (pathstyle namestyle system : Str) : Except BakeError Target := do
  let system := if system = "bsd".toList ∨ system = "solaris".toList then "linux".toList else system
  let (kind, namestyle) := targetStyle cfg direction namestyle system
  let implib := direction = .link ∧ cfg.fields .kind = some "SharedLib".toList
  let field (f : Option Str) : Option Str := if implib then f else none
  let name := (field (cfg.fields .implibname) <|> cfg.fields .targetname).getD project
  let dir ← match field (cfg.fields .implibdir) <|> cfg.fields .targetdir with
    | some dir => .ok dir
    | none =>
        match cfg.fields .location, cfg.fields .basedir with
        | some location, some basedir => .ok (Path.getrelative env.cwd location basedir)
        | _, _ => .error .indexNil
  let bundled := namestyle = "posix".toList ∧ kind = some "WindowedApp".toList ∧
    system = "macosx".toList
  let bundlepath := Path.join [some dir, some (name ++ ".app".toList)]
  let dir := if bundled then Path.join [some bundlepath, some "Contents/MacOS".toList] else dir
  let (pre, ext) := targetAffixes kind namestyle system
  let pre := (field (cfg.fields Field.implibprefix) <|> cfg.fields Field.targetprefix).getD pre
  let suffix := (field (cfg.fields .implibsuffix) <|> cfg.fields .targetsuffix).getD []
  let ext := (field (cfg.fields .implibextension) <|> cfg.fields .targetextension).getD ext
  let fullname := pre ++ name ++ suffix ++ ext
  let fullpath := Path.join [some dir, some fullname]
  let slashes (p : Str) : Str := if pathstyle = "windows".toList then Path.translate p '\\' else p
  return {
    basename := name ++ suffix
    name := fullname
    directory := slashes dir
    namePrefix := pre
    nameSuffix := suffix
    fullpath := slashes fullpath
    bundlepath := if bundled then bundlepath else fullpath }

/-- What `buildtargets` assigns to a configuration. -/
def assignTargets (env : Env) (prj : BakedProject) (cfg : BakedConfig) :
    Except BakeError BakedConfig := do
  let namestyle ← getnamestyle env cfg
  let buildtarget ← gettarget env prj.name cfg .build (getpathstyle env) namestyle cfg.system
  let linktarget ← gettarget env prj.name cfg .link (getpathstyle env) namestyle cfg.system
  let objectsdir := if getpathstyle env = "windows".toList
    then cfg.objectsdir.map fun dir => Path.translate dir '\\' else cfg.objectsdir
  return { cfg with buildtarget := some buildtarget, linktarget := some linktarget, objectsdir }

def buildtargets (env : Env) (session : List BakedSolution) :
    Except BakeError (List BakedSolution) :=
  mapSession (assignTargets env) session

end Puremake
