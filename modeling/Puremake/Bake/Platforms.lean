import Puremake.Bake.Merge

/-!
# Platforms, and configurations looked up by name

`platforms` is the table `premake.platforms`. A configuration is looked up under
its name followed by the name of its platform, and its short name is the name
followed by the suffix of the platform, in lower case; for the native platform
there is nothing that follows.
-/

namespace Puremake

/-- An entry of `premake.platforms`. -/
structure Platform where
  cfgsuffix : Str
  iscrosscompiler : Bool
  nosharedlibs : Bool
  namestyle : Option Str
  deriving DecidableEq, Repr

def platforms : List (Str × Platform) :=
  [("Native".toList, ⟨[], false, false, none⟩),
    ("x32".toList, ⟨"32".toList, false, false, none⟩),
    ("x64".toList, ⟨"64".toList, false, false, none⟩),
    ("Universal".toList, ⟨"univ".toList, false, false, none⟩),
    ("Universal32".toList, ⟨"univ32".toList, false, false, none⟩),
    ("Universal64".toList, ⟨"univ64".toList, false, false, none⟩),
    ("PS3".toList, ⟨"ps3".toList, true, true, some "PS3".toList⟩),
    ("WiiDev".toList, ⟨"wii".toList, true, false, some "PS3".toList⟩),
    ("Xbox360".toList, ⟨"xbox360".toList, true, false, some "windows".toList⟩)]

/-- `premake.platforms[name]` -/
def platform (name : Str) : Option Platform := platforms.lookup name

/-- The part of a long name that follows the name of the configuration. -/
def longSuffix (pltname : Str) : Str := if pltname ≠ native then '|' :: pltname else []

/-- The part of a short name that follows the name of the configuration. -/
def shortSuffix (pltname : Str) : Except BakeError Str :=
  if pltname ≠ native then
    match platform pltname with
    | some plt => .ok plt.cfgsuffix
    | none => .error .indexNil
  else .ok []

def getconfigname (cfgname : Option Str) (pltname : Str) (useshortname : Bool) :
    Except BakeError (Option Str) :=
  match cfgname with
  | none => .ok none
  | some name =>
      if useshortname then (shortSuffix pltname).map fun suffix => some (Str.lower (name ++ suffix))
      else .ok (some (name ++ longSuffix pltname))

/-- `premake.getconfig`: a platform that the solution does not list stands for
the general settings. -/
def getconfig {α : Type*} (platformnames : List Str) (configs : List (Str × α))
    (cfgname : Option Str) (pltname : Option Str) : Option α :=
  let pltname := if pltname = some native ∨ ¬ ∃ p ∈ pltname, p ∈ platformnames then none
    else pltname
  configs.lookup (cfgname.getD [] ++ pltname.getD [])

section Getconfig

variable {α : Type*} {platformnames : List Str} {configs : List (Str × α)}

/-- A configuration is looked up under the key that it is stored under. -/
theorem getconfig_eq_lookup {p : Str} (hp : p ∈ pltnames platformnames) (cfgname : Option Str) :
    getconfig platformnames configs cfgname (some p) = configs.lookup (configKey cfgname p) := by
  rw [getconfig, configKey]
  by_cases hnative : p = native
  · simp [hnative]
  · have hmem : p ∈ platformnames := by
      rcases List.mem_cons.mp hp with h | h
      · exact absurd h hnative
      · exact List.mem_of_mem_filter h
    simp [hnative, hmem]

end Getconfig

end Puremake
