import Puremake.Ide.Lines

/-!
# Files in the projects of Visual Studio 2010

The files stand in four sections, in the project file and again in the filters file. In the
project file those that are compiled have the precompiled header noted for every configuration
in which they are its source; only one file is for a configuration.
-/

namespace Puremake

namespace Ide

namespace Vc2010

open Vstudio (FilterProject)

def element : Vstudio.Section → Str
  | .ClCompile => "ClCompile".toList
  | .ClInclude => "ClInclude".toList
  | .None => "None".toList
  | .ResourceCompile => "ResourceCompile".toList

/-- `if_config_and_platform`, for the name of a configuration -/
def if_config_and_platform (name : Str) : Str :=
  "Condition=\"\x27$(Configuration)|$(Platform)\x27==\x27".toList ++ name ++ "\x27\"".toList

def front (group : Vstudio.Section) : Str := '<' :: element group ++ " Include=".toList

def simplefilesgroup (prj : FilterProject) (group : Vstudio.Section) :
    List Line × FilterProject :=
  let (files, prj) := Vstudio.getfilegroup prj group
  if files.length > 0 then
    (.text 1 "<ItemGroup>".toList :: files.map (fun file =>
      .file 2 (front group) (Path.translate file.fcfg.name '\\') " />".toList) ++
        [.text 1 "</ItemGroup>".toList], prj)
  else ([], prj)

/-- The source of the precompiled header in a configuration, in the form in which files are
compared with it. -/
def pchMapping (cfg : BakedConfig) : Option Str :=
  if (cfg.fields .pchheader).isSome ∧ ¬ hasFlag cfg "NoPCH" then
    (cfg.fields .pchsource).map (Path.translate · '\\')
  else none

/-- `config_mappings`: what is still to be found for the entries of `sln.vstudio_configs`. -/
abbrev Mappings := List (Vstudio.Config × Option Str)

/-- What `vc2010.compilerfilesgroup` writes for a file, and the mappings that are left. -/
def compilerFile (st : List Line × Mappings) (file : Project.SourceFile) : List Line × Mappings :=
  let translatedpath := Path.translate file.fcfg.name '\\'
  let headers := (st.2.filter fun m => m.2 = some translatedpath).map fun m =>
    Line.text 3 ("<PrecompiledHeader ".toList ++ if_config_and_platform (Xml.escText m.1.name) ++
      ">Create</PrecompiledHeader>".toList)
  (st.1 ++ .file 2 (front .ClCompile) translatedpath ">".toList :: headers ++
      [.text 2 "</ClCompile>".toList],
    st.2.map fun m => (m.1, if m.2 = some translatedpath then none else m.2))

def compilerfilesgroup (configs : List (Vstudio.Config × BakedConfig)) (prj : FilterProject) :
    List Line × FilterProject :=
  let (files, prj) := Vstudio.getfilegroup prj .ClCompile
  if files.length > 0 then
    let mappings := configs.map fun c => (c.1, pchMapping c.2)
    (.text 1 "<ItemGroup>".toList :: (files.foldl compilerFile ([], mappings)).1 ++
      [.text 1 "</ItemGroup>".toList], prj)
  else ([], prj)

def files (configs : List (Vstudio.Config × BakedConfig)) (prj : FilterProject) :
    List Line × FilterProject :=
  let (clInclude, prj) := simplefilesgroup prj .ClInclude
  let (clCompile, prj) := compilerfilesgroup configs prj
  let (others, prj) := simplefilesgroup prj .None
  let (resourceCompile, prj) := simplefilesgroup prj .ResourceCompile
  (clInclude ++ clCompile ++ others ++ resourceCompile, prj)

def filterLine : Vstudio.Line → Line
  | .itemGroup => .text 1 "<ItemGroup>".toList
  | .filterInclude path => .text 2 (quoted "<Filter Include=" path ">")
  | .uniqueIdentifier uuid => .text 3 ("<UniqueIdentifier>\x7b".toList ++ uuid ++
      "\x7d</UniqueIdentifier>".toList)
  | .filterEnd => .text 2 "</Filter>".toList
  | .file group name => .file 2 (front group) name ">".toList
  | .filter path => .text 3 ("<Filter>".toList ++ path ++ "</Filter>".toList)
  | .fileEnd group => .text 2 ("</".toList ++ element group ++ ">".toList)
  | .fileOnly group name => .file 2 (front group) name " />".toList
  | .itemGroupEnd => .text 1 "</ItemGroup>".toList

/-- The calls of `vc2010.filefiltergroup` in `vc2010.generate_filters`. -/
def filterfiles (prj : FilterProject) : List Line × FilterProject :=
  let (others, prj) := Vstudio.filefiltergroup prj .None
  let (clInclude, prj) := Vstudio.filefiltergroup prj .ClInclude
  let (clCompile, prj) := Vstudio.filefiltergroup prj .ClCompile
  let (resourceCompile, prj) := Vstudio.filefiltergroup prj .ResourceCompile
  ((others ++ clInclude ++ clCompile ++ resourceCompile).map filterLine, prj)

end Vc2010

end Ide

end Puremake
