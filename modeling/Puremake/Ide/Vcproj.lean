import Puremake.Ide.Lines

/-!
# Files in the C/C++ projects of Visual Studio 2002 to 2008

The files of the project stand in the source tree. A file has settings of its own for a
configuration when it makes the precompiled header, or when it is not in the language of the
project; for the platform PS3 the former is an option of the SNC compiler.
-/

namespace Puremake

namespace Ide

namespace Snc

def cflags : List (Str × Str) :=
  [("ExtraWarnings".toList, "-Xdiag=2".toList), ("FatalWarnings".toList, "-Xquit=2".toList)]

def cxxflags : List (Str × Str) :=
  [("NoExceptions".toList, []), ("NoRTTI".toList, "-Xc-=rtti".toList)]

/-- `table.translate` with a table. -/
def translate (arr : List Str) (translation : List (Str × Str)) : List Str :=
  arr.filterMap fun value => translation.lookup value

/-- `premake.snc.getcflags`. The only platform is PS3, which has no flags of its own. -/
def getcflags (cfg : BakedConfig) : Option (List Str) :=
  if cfg.platform = "PS3".toList then
    some (translate (cfg.fields.list .flags).arr cflags ++
      if cfg.fields .kind = some "SharedLib".toList then ["-fPIC".toList] else [])
  else none

def getcxxflags (cfg : BakedConfig) : List Str :=
  translate (cfg.fields.list .flags).arr cxxflags

end Snc

namespace Vc200x

/-- The lines for the precompiled header in the settings of a file. -/
def pchLines (depth : ℕ) (cfg : BakedConfig) : Option (List Line) :=
  if cfg.system = "PS3".toList then do
    let cflags ← Snc.getcflags cfg
    let options := cflags ++ Snc.getcxxflags cfg ++ (cfg.fields.list .buildoptions).arr
    let options := concat ' ' options ++ " --create_pch=\"$(IntDir)/$(TargetName).pch\"".toList
    return [.text depth (quoted "\t\tAdditionalOptions=" (Xml.escText options) "")]
  else return [.text depth (quoted "\t\tUsePrecompiledHeader=" "1".toList "")]

def needsCompileAs (prj : Ide.Project) (fname : Str) : Bool := Path.iscfile fname ≠ iscproject prj

/-- The settings of a file for an entry of `sln.vstudio_configs`, with the lines for the
precompiled header. -/
def settingsLines (prj : Ide.Project) (fname : Str) (depth : ℕ)
    (c : Vstudio.Config × BakedConfig) (pch : List Line) : List Line :=
  [.text depth "<FileConfiguration".toList,
    .text depth (quoted "\tName=" c.1.name ""),
    .text depth "\t>".toList,
    .text depth "\t<Tool".toList,
    .text depth (quoted "\t\tName=" (if c.2.system = "Xbox360".toList then
      "VCCLX360CompilerTool" else "VCCLCompilerTool").toList "")] ++
  (if needsCompileAs prj fname then
    [.text depth (quoted "\t\tCompileAs=" (if Path.iscfile fname then "1" else "2").toList "")]
  else []) ++ pch ++
  [.text depth "\t/>".toList, .text depth "</FileConfiguration>".toList]

/-- What is written in a file for an entry of `sln.vstudio_configs`. -/
def fileConfiguration (prj : Ide.Project) (fname : Str) (depth : ℕ)
    (c : Vstudio.Config × BakedConfig) : Option (List Line) :=
  let usePCH := ¬ hasFlag prj.root "NoPCH" ∧ prj.root.fields .pchsource = some fname
  let isSourceCode := Path.iscppfile fname
  if c.1.isreal then
    if usePCH ∨ (isSourceCode ∧ needsCompileAs prj fname) then
      (if usePCH then pchLines depth c.2 else some []).map (settingsLines prj fname depth c)
    else some []
  else some []

/-- The callbacks in `vc200x.Files`. -/
def printer (prj : Ide.Project) : Tree.Printer Project.SourceData Line where
  branchenter node depth := node.name.map fun name =>
    [.text depth "<Filter".toList, .text depth (quoted "\tName=" name ""),
      .text depth (quoted "\tFilter=" [] ""), .text depth "\t>".toList]
  branchexit _ depth := some [.text depth "</Filter>".toList]
  leaf node depth := do
    let fcfg ← node.data.cfg
    let settings ← prj.configs.mapM (fileConfiguration prj fcfg.name (depth + 1))
    return [.text depth "<File".toList,
        .file depth "\tRelativePath=".toList (Path.translate fcfg.name '\\') [],
        .text depth "\t>".toList] ++ settings.flatten ++ [.text depth "</File>".toList]

def Files (fuel : ℕ) (ord : PairsOrder) (prj : Ide.Project) : Option (List Line) := do
  let tr ← (Project.buildsourcetree ord prj.name prj.root).toOption
  (Tree.traverse (printer prj).callbacks fuel 0 false 2 (tr, [])).map Prod.snd

end Vc200x

end Ide

end Puremake
