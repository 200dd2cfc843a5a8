import Puremake.Ide.Lines

/-!
# Files in the C# projects of Visual Studio

The element of a file depends on its build action, on its extension and on which other files
the project has: a designer file or a resource is marked as depending on the file that it was
made from.
-/

namespace Puremake

namespace Ide

def getbuildaction (fcfg : FileConfig) : Str :=
  let ext := Str.lower (Path.getextension fcfg.name)
  let buildaction := fcfg.obj.fields .buildaction
  if buildaction = some "Compile".toList ∨ ext = ".cs".toList then "Compile".toList
  else if buildaction = some "Embed".toList ∨ ext = ".resx".toList then "EmbeddedResource".toList
  else if buildaction = some "Copy".toList ∨ ext = ".asax".toList ∨ ext = ".aspx".toList then
    "Content".toList
  else if buildaction = some "Page".toList ∨ ext = ".xaml".toList then
    if Path.getname fcfg.name = "App.xaml".toList then "ApplicationDefinition".toList
    else "Page".toList
  else "None".toList

def findfile (prj : Ide.Project) (extension : Str) : Option Str :=
  (prj.root.fields.list .files).arr.find? fun fname => fname.endswith extension

/-- What `getelements` finds out about a file: a name for its elements, and the file that it
depends on. -/
abbrev Elements := Str × Option Str

namespace Cs2002

/-- `getelements` of the projects for Visual Studio 2002 and 2003. -/
def getelements (prj : Ide.Project) (action fname : Str) : Elements :=
  if action = "Compile".toList ∧ fname.endswith ".cs".toList then ("SubTypeCode".toList, none)
  else if action = "EmbeddedResource".toList ∧ fname.endswith ".resx".toList then
    let basename := fname.take (fname.length - 5)
    let testname := Path.getname (basename ++ ".cs".toList)
    if (findfile prj testname).isSome then ("Dependency".toList, some testname)
    else ("None".toList, none)
  else ("None".toList, none)

def elementLines (e : Elements) : List Line :=
  (match e.2 with
    | some dependency =>
        [.text 5 (quoted "DependentUpon = " (Xml.escText (Path.translate dependency '\\')) "")]
    | none => []) ++
  (if e.1 = "SubTypeCode".toList then [.text 5 (quoted "SubType = " "Code".toList "")] else [])

/-- The callbacks in `cs2002.Files`. -/
def printer (prj : Ide.Project) : Tree.Printer Project.SourceData Line where
  branchenter _ _ := some []
  branchexit _ _ := some []
  leaf node _ := do
    let fcfg ← node.data.cfg
    let path ← node.path
    let action := getbuildaction fcfg
    let fname := Path.translate (Xml.escText fcfg.name) '\\'
    return [.text 4 "<File".toList, .file 5 "RelPath = ".toList fname [],
        .text 5 (quoted "BuildAction = " action "")] ++
      elementLines (getelements prj action path) ++ [.text 4 "/>".toList]

def Files (fuel : ℕ) (ord : PairsOrder) (prj : Ide.Project) : Option (List Line) := do
  let tr ← (Project.buildsourcetree ord prj.name prj.root).toOption
  (Tree.traverse (printer prj).callbacks fuel 0 false 0 (tr, [])).map Prod.snd

end Cs2002

namespace Cs2005

/-- The first part of `getelements`: files that are compiled. There is no result when the file is
none of these, and the other parts are looked at. -/
def compiled (prj : Ide.Project) (fname : Str) : Option Elements :=
  if fname.endswith ".Designer.cs".toList then
    let basename := fname.take (fname.length - 12)
    if (findfile prj (basename ++ ".cs".toList)).isSome then
      some ("Dependency".toList, some (basename ++ ".cs".toList))
    else if (findfile prj (basename ++ ".resx".toList)).isSome then
      some ("AutoGen".toList, some (basename ++ ".resx".toList))
    else none
  else if fname.endswith ".xaml.cs".toList then
    let testname := fname.take (fname.length - 8) ++ ".xaml".toList
    if (findfile prj testname).isSome then some ("SubTypeCode".toList, some (Path.getname testname))
    else none
  else if (findfile prj (fname.take (fname.length - 3) ++ ".Designer.cs".toList)).isSome then
    some ("SubTypeForm".toList, none)
  else none

/-- The second part of `getelements`: resources. -/
def embedded (prj : Ide.Project) (fname : Str) : Option Elements :=
  let basename := fname.take (fname.length - 5)
  let testname := Path.getname (basename ++ ".cs".toList)
  if (findfile prj testname).isSome then
    if (findfile prj (basename ++ ".Designer.cs".toList)).isSome then
      some ("DesignerType".toList, some testname)
    else some ("Dependency".toList, some testname)
  else if (findfile prj (Path.getname (basename ++ ".Designer.cs".toList))).isSome then
    some ("AutoGenerated".toList, none)
  else none

/-- `getelements` of the projects for Visual Studio 2005 and later. -/
def getelements (prj : Ide.Project) (action fname : Str) : Elements :=
  let first := if action = "Compile".toList ∧ fname.endswith ".cs".toList then compiled prj fname
    else none
  let second := if action = "EmbeddedResource".toList ∧ fname.endswith ".resx".toList then
    embedded prj fname else none
  (first <|> second).getD
    (if fname.endswith ".xaml".toList then ("XamlDesigner".toList, none)
    else if action = "Content".toList then ("CopyNewest".toList, none)
    else ("None".toList, none))

def inner (elements name : Str) : List Str :=
  if elements = "AutoGen".toList then ["<AutoGen>True</AutoGen>".toList]
  else if elements = "AutoGenerated".toList then
    ["<SubType>Designer</SubType>".toList, "<Generator>ResXFileCodeGenerator</Generator>".toList,
      "<LastGenOutput>".toList ++ Xml.escText (Path.getbasename name) ++
        ".Designer.cs</LastGenOutput>".toList]
  else if elements = "SubTypeDesigner".toList then ["<SubType>Designer</SubType>".toList]
  else if elements = "SubTypeForm".toList then ["<SubType>Form</SubType>".toList]
  else if elements = "SubTypeCode".toList then ["<SubType>Code</SubType>".toList]
  else if elements = "XamlDesigner".toList then
    ["<SubType>Designer</SubType>".toList, "<Generator>MSBuild:Compile</Generator>".toList]
  else if elements = "PreserveNewest".toList then
    ["<CopyToOutputDirectory>PreserveNewest</CopyToOutputDirectory>".toList]
  else []

def elementLines (e : Elements) (name : Str) : List Line :=
  (inner e.1 name).map (fun s => .text 0 ("      ".toList ++ s)) ++
  match e.2 with
    | some dependency => [.text 0 ("      <DependentUpon>".toList ++
        Path.translate (Xml.escText dependency) '\\' ++ "</DependentUpon>".toList)]
    | none => []

/-- The callbacks in `cs2005.files`. -/
def printer (prj : Ide.Project) : Tree.Printer Project.SourceData Line where
  branchenter _ _ := some []
  branchexit _ _ := some []
  leaf node _ := do
    let fcfg ← node.data.cfg
    let path ← node.path
    let name ← node.name
    let action := getbuildaction fcfg
    let fname := Path.translate (Xml.escText fcfg.name) '\\'
    let elements := getelements prj action path
    let front := "    <".toList ++ action ++ " Include=".toList
    return if elements.1 = "None".toList then [.file 0 front fname " />".toList]
      else .file 0 front fname ">".toList :: elementLines elements name ++
        [.text 0 ("    </".toList ++ action ++ ">".toList)]

def files (fuel : ℕ) (ord : PairsOrder) (prj : Ide.Project) : Option (List Line) := do
  let tr ← (Project.buildsourcetree ord prj.name prj.root).toOption
  (Tree.traverse (printer prj).callbacks fuel 0 false 0 (tr, [])).map Prod.snd

end Cs2005

end Ide

end Puremake
