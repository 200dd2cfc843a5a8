import Puremake.Action.Objects

/-!
# Configurations of an Xcode project

The solution is asked for the platforms that Xcode knows, and a project gets one
configuration for every configuration name of the solution and every one of these. Xcode
shows the platform in the name of a configuration when there is more than one.
-/

namespace Puremake

namespace Xcode

/-- The `valid_platforms` of the actions `xcode3` and `xcode4`. -/
def valid_platforms : List (Str × Str) :=
  [("Native".toList, "Native".toList),
    ("x32".toList, "Native 32-bit".toList),
    ("x64".toList, "Native 64-bit".toList),
    ("Universal32".toList, "32-bit Universal".toList),
    ("Universal64".toList, "64-bit Universal".toList),
    ("Universal".toList, "Universal".toList)]

/-- `sln.xcode.platforms`, as `xcode.preparesolution` fills it in. -/
def platforms (sln : Workspace) : List Str :=
  filterplatforms sln.obj.platformnames valid_platforms (some "Universal".toList)

def getconfigname (sln : Workspace) (cfg : BakedConfig) : Except BakeError Str :=
  match cfg.name with
  | none => .error .indexNil
  | some name =>
      if 1 < (platforms sln).length then
        match valid_platforms.lookup cfg.platform with
        | some platform => .ok (name ++ ' ' :: platform)
        | none => .error .indexNil
      else .ok name

/-- `tr.configs`, as `xcode.buildprjtree` fills it in. -/
def configs (sln : Workspace) (prj : BakedProject) : Except BakeError (List BakedConfig) :=
  (sln.configurations.flatMap fun cfgname =>
    (platforms sln).map fun platform => (cfgname, platform)).mapM fun pair =>
      match getconfig sln.obj.platformnames prj.configs (some pair.1) (some pair.2) with
      | some cfg => .ok cfg
      | none => .error .indexNil

end Xcode

end Puremake
