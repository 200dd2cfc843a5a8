import Puremake.Ide.Vcproj
import Puremake.Bake.Targets

/-!
# The flags of the compilers

The tools `gcc` and `ow` translate the flags of a configuration to options of the command line.
What is written for a platform of the configuration comes from a table, and a platform that is not
in the table of `gcc` raises an error.
-/

namespace Puremake

open Ide (hasFlag)
open Ide.Snc (translate)

/-- A tool, with what the generators ask it for. The value of a platform is a table, which stands
for itself. -/
structure Tool where
  platforms : List (Str × Str)
  getcflags : BakedConfig → Except BakeError (List Str)
  getcxxflags : BakedConfig → List Str
  getldflags : BakedConfig → Except BakeError (List Str)
  getdefines : List Str → List Str

def implode (arr : List Str) (before after : Str) (between : Option Str) : Str :=
  arr.foldl (fun result v =>
    (if result ≠ [] then result ++ between.getD [] else result) ++ before ++ v ++ after) []

namespace Gcc

def cflags : List (Str × Str) :=
  [("EnableSSE", "-msse"), ("EnableSSE2", "-msse2"), ("ExtraWarnings", "-Wall -Wextra"),
    ("FatalWarnings", "-Werror"), ("FloatFast", "-ffast-math"), ("FloatStrict", "-ffloat-store"),
    ("NoFramePointer", "-fomit-frame-pointer"), ("Optimize", "-O2"), ("OptimizeSize", "-Os"),
    ("OptimizeSpeed", "-O3"), ("Symbols", "-g")].map fun (flag, option) =>
      (flag.toList, option.toList)

def cxxflags : List (Str × Str) :=
  [("NoExceptions".toList, "-fno-exceptions".toList), ("NoRTTI".toList, "-fno-rtti".toList)]

structure PlatformFlags where
  flags : Option Str := none
  ldflags : Option Str := none

def platforms : List (Str × PlatformFlags) :=
  [("Native".toList, {}),
    ("x32".toList, ⟨some "-m32".toList, some "-L/usr/lib32".toList⟩),
    ("x64".toList, ⟨some "-m64".toList, some "-L/usr/lib64".toList⟩),
    ("Universal".toList, ⟨some "-arch i386 -arch x86_64 -arch ppc -arch ppc64".toList, none⟩),
    ("Universal32".toList, ⟨some "-arch i386 -arch ppc".toList, none⟩),
    ("Universal64".toList, ⟨some "-arch x86_64 -arch ppc64".toList, none⟩),
    ("PS3".toList, {}),
    ("WiiDev".toList, ⟨none, some "-L$(LIBOGC_LIB) $(MACHDEP)".toList⟩)]

def getcflags (cfg : BakedConfig) : Except BakeError (List Str) :=
  match platforms.lookup cfg.platform with
  | none => .error .indexNil
  | some platform => .ok (translate (cfg.fields.list .flags).arr cflags ++ platform.flags.toList ++
      if cfg.system ≠ "windows".toList ∧ cfg.fields .kind = some "SharedLib".toList then
        ["-fPIC".toList]
      else [])

def getcxxflags (cfg : BakedConfig) : List Str := translate (cfg.fields.list .flags).arr cxxflags

/-- The flags of `premake.gcc.getldflags` that do not come from the platform. -/
def ldflags (cfg : BakedConfig) : Except BakeError (List Str) := do
  let kind := cfg.fields .kind
  let strip := if hasFlag cfg "Symbols" then []
    else if cfg.system = "macosx".toList then ["-Wl,-x".toList] else ["-s".toList]
  let shared := if kind = some "SharedLib".toList then
    if cfg.system = "macosx".toList then ["-dynamiclib".toList] else ["-shared".toList] else []
  let implib ← if kind = some "SharedLib".toList ∧ cfg.system = "windows".toList ∧
      ¬ hasFlag cfg "NoImportLib" then
    match cfg.linktarget with
    | none => .error .indexNil
    | some linktarget => .ok ["-Wl,--out-implib=\"".toList ++ linktarget.fullpath ++ ['"']]
    else .ok []
  let windows := if kind = some "WindowedApp".toList ∧ cfg.system = "windows".toList then
    ["-mwindows".toList] else []
  return strip ++ shared ++ implib ++ windows

def getldflags (cfg : BakedConfig) : Except BakeError (List Str) := do
  let result ← ldflags cfg
  match platforms.lookup cfg.platform with
  | none => .error .indexNil
  | some platform => return result ++ platform.flags.toList ++ platform.ldflags.toList

def getdefines (defines : List Str) : List Str := defines.map fun define => "-D".toList ++ define

/-- `premake.gcc` -/
def tool : Tool where
  platforms := platforms.map fun platform => (platform.1, platform.1)
  getcflags := getcflags
  getcxxflags := getcxxflags
  getldflags := getldflags
  getdefines := getdefines

end Gcc

namespace Ow

def cflags : List (Str × Str) :=
  [("ExtraWarnings", "-wx"), ("FatalWarning", "-we"), ("FloatFast", "-omn"), ("FloatStrict", "-op"),
    ("Optimize", "-ox"), ("OptimizeSize", "-os"), ("OptimizeSpeed", "-ot"),
    ("Symbols", "-d2")].map fun (flag, option) => (flag.toList, option.toList)

def cxxflags : List (Str × Str) :=
  [("NoExceptions".toList, "-xd".toList), ("NoRTTI".toList, "-xr".toList)]

def getcflags (cfg : BakedConfig) : List Str :=
  translate (cfg.fields.list .flags).arr cflags ++
    if hasFlag cfg "Symbols" then ["-hw".toList] else []

def getcxxflags (cfg : BakedConfig) : List Str := translate (cfg.fields.list .flags).arr cxxflags

def getldflags (cfg : BakedConfig) : List Str :=
  if hasFlag cfg "Symbols" then ["op symf".toList] else []

def getdefines (defines : List Str) : List Str := defines.map fun define => "-D".toList ++ define

/-- `premake.ow` -/
def tool : Tool where
  platforms := [("Native".toList, "Native".toList)]
  getcflags := fun cfg => .ok (getcflags cfg)
  getcxxflags := getcxxflags
  getldflags := fun cfg => .ok (getldflags cfg)
  getdefines := getdefines

end Ow

/-- The tools for C/C++ that projects for CodeLite and Code::Blocks can be made for, by their
names in `premake`. -/
def Tool.named (cc : Str) : Option Tool :=
  [("gcc".toList, Gcc.tool), ("ow".toList, Ow.tool)].lookup cc

end Puremake
