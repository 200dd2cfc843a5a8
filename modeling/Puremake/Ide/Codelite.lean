import Puremake.Action.Queries
import Puremake.Ide.Markup
import Puremake.Ide.Names
import Puremake.Tools.Flags
import Puremake.Tree.Labels

/-!
# Projects for CodeLite

`codelite.project` writes the source tree, the settings of each configuration and the projects
that the project depends on. What a configuration is asked for comes first here, since asking for
the links can change the session; then the lines are written from the answers.

Some values are escaped and some are not. The reader of the file finds the answers in it when
those that are not escaped have no character that means something.
-/

namespace Puremake

namespace Ide

def need {α : Type*} : Option α → Except BakeError α
  | none => .error .indexNil
  | some a => .ok a

/-- The key of the configuration that `premake.getconfig` finds. -/
def getconfigKey (platformnames : List Str) (cfgname pltname : Option Str) : Str :=
  let pltname := if pltname = some native ∨ ¬ ∃ p ∈ pltname, p ∈ platformnames then none
    else pltname
  cfgname.getD [] ++ pltname.getD []

def nativePlatforms (tool : Tool) (sln : Workspace) : List Str :=
  (filterplatforms sln.obj.platformnames tool.platforms (some native)).filter fun p =>
    ¬ ((platform p).any fun plt => plt.iscrosscompiler)

/-- The keys of the configurations in `premake.eachconfig`. -/
def eachconfigKeys (sln : Workspace) (prj : BakedProject) (platform : Str) : List Str :=
  (sln.configurations.map fun c =>
    getconfigKey sln.obj.platformnames (some c) (some platform)).takeWhile fun key =>
      (prj.configs.lookup key).isSome

/-- `premake.getlinks`, for a part that is a text, and the session afterwards. -/
def queryLinks (env : Env) (id : ConfigId) (kind : LinkKind) (part : LinkPart)
    (session : List Workspace) : Except BakeError (List Str × List Workspace) :=
  let r := Links.getlinks env id kind part session
  r.1.map fun items => (items.filterMap Links.Item.text?, r.2)

/-- `s:gsub("|", "_")` -/
def unbar (s : Str) : Str := s.map fun c => if c = '|' then '_' else c

/-- A value in a table where no value has a character that means something. -/
def lookupLiteral (table : List (Str × Str)) (h : ∀ e ∈ table, Xml.Literal e.2) (key : Str) :
    Option {s : Str // Xml.Literal s} :=
  match hkey : table.lookup key with
  | none => none
  | some s => some ⟨s, h _ (mem_of_lookup hkey)⟩

namespace Codelite

def types : List (Str × Str) :=
  [("ConsoleApp".toList, "Executable".toList), ("WindowedApp".toList, "Executable".toList),
    ("StaticLib".toList, "Static Library".toList), ("SharedLib".toList, "Dynamic Library".toList)]

theorem literal_types : ∀ e ∈ types, Xml.Literal e.2 := by decide

/-- `types[cfg.kind]`, which has no character that means something. -/
def gettype (cfg : BakedConfig) : Option {type : Str // Xml.Literal type} :=
  (cfg.fields .kind).bind (lookupLiteral types literal_types)

structure Answers where
  cfg : BakedConfig
  longname : Str
  type : {type : Str // Xml.Literal type}
  buildtarget : Target
  objectsdir : Str
  flags : List Str
  ldflags : List Str
  directories : List Str
  siblings : List Str
  system : List Str

/-- What `codelite.project` asks a configuration for, and the session afterwards. -/
def ask (env : Env) (id : ConfigId) (session : List Workspace) :
    Except BakeError (Answers × List Workspace) := do
  let (_, cfg) ← need (id.get? session)
  let longname ← need cfg.longname
  let type ← need (gettype cfg)
  let buildtarget ← need cfg.buildtarget
  let objectsdir ← need cfg.objectsdir
  let flags ← Gcc.getcflags cfg
  let ldflags ← Gcc.getldflags cfg
  let (directories, session) ← queryLinks env id .all .directory session
  let (siblings, session) ← queryLinks env id .siblings .basename session
  let (system, session) ← queryLinks env id .system .name session
  return ({
    cfg, longname, type, buildtarget, objectsdir, directories, siblings, system
    flags := flags ++ Gcc.getcxxflags cfg ++ (cfg.fields.list .buildoptions).arr
    ldflags := ldflags ++ (cfg.fields.list .linkoptions).arr }, session)

def askAll (env : Env) : List ConfigId → List Workspace →
    Except BakeError (List Answers × List Workspace)
  | [], session => .ok ([], session)
  | id :: ids, session => do
      let (a, session) ← ask env id session
      let (as, session) ← askAll env ids session
      return (a :: as, session)

namespace Answers

variable (a : Answers)

def list (f : Field) : List Str := (a.cfg.fields.list f).arr

def rundir : Str := (a.cfg.fields .debugdir).getD a.buildtarget.directory

/-- `iif(cfg.language == "C", "gcc", "g++")` -/
def compiler : Str := (if a.cfg.fields .language = some "C".toList then "gcc" else "g++").toList

def pause : Str := (if a.cfg.fields .kind = some "WindowedApp".toList then "no" else "yes").toList

/-- `premake.findfile(cfg, ".rc")` -/
def hasResources : Bool := (a.list .files).any fun fname => fname.endswith ".rc".toList

def resources : Str :=
  implode (a.list .defines ++ a.list .resdefines) "-D".toList ";".toList (some []) ++
    concat ';' (a.list .resoptions)

end Answers

def eachLine (name key : String) (values : List Str) (space : Bool) : List Line :=
  values.map fun v => spaced 0 8 (single name [(key, Xml.escText v)] space)

def commandLines (name : String) (commands : List Str) : List Line :=
  if commands = [] then []
  else spaced 0 6 (opening name []) :: (commands.map (fun v => spaced 0 8
      (opening "Command" [("Enabled", "yes".toList)] ++ Xml.escText v ++ closing "Command")) ++
    [spaced 0 6 (closing name)])

def plainLine (name : String) (s : Str) : Line := spaced 0 8 (opening name [] ++ s ++ closing name)

def generalLine (a : Answers) : Line :=
  spaced 0 6 (single "General" [("OutputFile", Xml.escText a.buildtarget.fullpath),
    ("IntermediateDirectory", Xml.escText a.objectsdir),
    ("Command", "./".toList ++ a.buildtarget.name),
    ("CommandArguments", concat ' ' (a.list .debugargs)), ("WorkingDirectory", a.rundir),
    ("PauseExecWhenProcTerminates", a.pause)] false)

def compilerLines (a : Answers) : List Line :=
  spaced 0 6 (opening "Compiler" [("Required", "yes".toList),
    ("Options", concat ';' (a.flags.map Xml.escText))]) ::
  (eachLine "IncludePath" "Value" (a.list .includedirs) false ++
    eachLine "Preprocessor" "Value" (a.list .defines) false ++
  [spaced 0 6 (closing "Compiler")])

def linkerLines (a : Answers) : List Line :=
  spaced 0 6 (opening "Linker" [("Required", "yes".toList),
    ("Options", concat ';' (a.ldflags.map Xml.escText))]) ::
  (eachLine "LibraryPath" "Value" a.directories true ++
    eachLine "Library" "Value" a.siblings true ++ eachLine "Library" "Value" a.system true ++
  [spaced 0 6 (closing "Linker")])

def resourceLines (a : Answers) : List Line :=
  if a.hasResources then
    spaced 0 6 (opening "ResourceCompiler" [("Required", "yes".toList),
      ("Options", a.resources)]) ::
    (eachLine "IncludePath" "Value" (a.list .includedirs ++ a.list .resincludedirs) false ++
    [spaced 0 6 (closing "ResourceCompiler")])
  else [spaced 0 6 (single "ResourceCompiler" [("Required", "no".toList), ("Options", [])] false)]

/-- What is written in `CustomBuild` for all configurations, with the texts. -/
def customBuild : List (String × String) :=
  [("CleanCommand", ""), ("BuildCommand", ""), ("SingleFileCommand", ""),
    ("MakefileGenerationCommand", ""), ("ThirdPartyToolName", "None"), ("WorkingDirectory", "")]

/-- What is written in `AdditionalRules` for all configurations. -/
def additionalRules : List (String × String) := [("CustomPostBuild", ""), ("CustomPreBuild", "")]

def customLines : List Line :=
  spaced 0 6 (opening "CustomBuild" [("Enabled", "no".toList)]) ::
  (customBuild.map (fun e => plainLine e.1 e.2.toList) ++ [spaced 0 6 (closing "CustomBuild")]) ++
  spaced 0 6 (opening "AdditionalRules" []) ::
  (additionalRules.map (fun e => plainLine e.1 e.2.toList) ++
    [spaced 0 6 (closing "AdditionalRules")])

def configurationLines (a : Answers) : List Line :=
  spaced 0 4 (opening "Configuration" [("Name", unbar (Xml.escText a.longname)),
    ("CompilerType", "gnu ".toList ++ a.compiler), ("DebuggerType", "GNU gdb debugger".toList),
    ("Type", a.type.1)]) ::
  ([generalLine a] ++ compilerLines a ++ linkerLines a ++ resourceLines a ++
    commandLines "PreBuild" (a.list .prebuildcommands) ++
    commandLines "PostBuild" (a.list .postbuildcommands) ++ customLines ++
  [spaced 0 4 (closing "Configuration")])

def dependencyLines (deps : List Str) (a : Answers) : List Line :=
  spaced 0 2 (opening "Dependencies" [("name", unbar a.longname)]) ::
  (deps.map (fun dep => spaced 0 4 (single "Project" [("Name", dep)] false)) ++
  [spaced 0 2 (closing "Dependencies")])

def projectLines (name type : Str) (files : List Line) (as : List Answers) (deps : List Str) :
    List Line :=
  .text 0 "<?xml version=\"1.0\" encoding=\"utf-8\"?>".toList ::
  spaced 0 0 (opening "CodeLite_Project" [("Name", Xml.escText name)]) ::
  (files ++ spaced 0 2 (opening "Settings" [("Type", type)]) ::
    (as.flatMap configurationLines ++ [spaced 0 2 (closing "Settings")]) ++
    as.flatMap (dependencyLines deps) ++
  [spaced 0 0 (closing "CodeLite_Project")])

/-- The configurations that `codelite.project` goes through. -/
def configIds (tool : Tool) (s p : ℕ) (sln : Workspace) (prj : BakedProject) : List ConfigId :=
  (nativePlatforms tool sln).flatMap fun platform =>
    (eachconfigKeys sln prj platform).map fun key => ⟨s, p, key⟩

def dependencyNames (ord : PairsOrder) (session : List Workspace) (prj : BakedProject) :
    List Str := (getdependencies ord session prj).map fun dep => dep.2.name

/-- `codelite.project`, with the configurations as they answered and the session afterwards. -/
def project (env : Env) (fuel s p : ℕ) (session : List Workspace) :
    Except BakeError (List Line × List Answers × List Workspace) := do
  let sln ← need session[s]?
  let prj ← need sln.projects[p]?
  let root ← need prj.root
  let files ← need (files fuel env.ord ⟨prj.name, root, [], crosscompiled_nil⟩)
  let type ← need (gettype root)
  let cc ← need (env.options.lookup "cc".toList)
  let tool ← need (Tool.named cc)
  let (as, session) ← askAll env (configIds tool s p sln prj) session
  let deps := dependencyNames env.ord session prj
  return (projectLines prj.name type.1 files as deps, as, session)

def commands (name : String) (cmds : List Str) : List Xml.Content :=
  if cmds = [] then []
  else [element name [] (cmds.map fun v =>
    element "Command" [("Enabled", "yes".toList)] (content v))]

def general (a : Answers) : Xml.Content :=
  element "General" [("OutputFile", a.buildtarget.fullpath),
    ("IntermediateDirectory", a.objectsdir), ("Command", "./".toList ++ a.buildtarget.name),
    ("CommandArguments", concat ' ' (a.list .debugargs)), ("WorkingDirectory", a.rundir),
    ("PauseExecWhenProcTerminates", a.pause)] []

def compiler (a : Answers) : Xml.Content :=
  element "Compiler" [("Required", "yes".toList), ("Options", concat ';' a.flags)]
    (each "IncludePath" "Value" (a.list .includedirs) ++
      each "Preprocessor" "Value" (a.list .defines))

def linker (a : Answers) : Xml.Content :=
  element "Linker" [("Required", "yes".toList), ("Options", concat ';' a.ldflags)]
    (each "LibraryPath" "Value" a.directories ++ each "Library" "Value" a.siblings ++
      each "Library" "Value" a.system)

def resourceCompiler (a : Answers) : Xml.Content :=
  if a.hasResources then
    element "ResourceCompiler" [("Required", "yes".toList), ("Options", a.resources)]
      (each "IncludePath" "Value" (a.list .includedirs ++ a.list .resincludedirs))
  else element "ResourceCompiler" [("Required", "no".toList), ("Options", [])] []

def custom : List Xml.Content :=
  [element "CustomBuild" [("Enabled", "no".toList)]
      (customBuild.map fun e => element e.1 [] (content e.2.toList)),
    element "AdditionalRules" []
      (additionalRules.map fun e => element e.1 [] (content e.2.toList))]

def configElement (a : Answers) : Xml.Content :=
  element "Configuration" [("Name", unbar a.longname),
      ("CompilerType", "gnu ".toList ++ a.compiler),
      ("DebuggerType", "GNU gdb debugger".toList), ("Type", a.type.1)]
    ([general a] ++ [compiler a] ++ [linker a] ++ [resourceCompiler a] ++
      commands "PreBuild" (a.list .prebuildcommands) ++
      commands "PostBuild" (a.list .postbuildcommands) ++ custom)

def dependencies (deps : List Str) (a : Answers) : Xml.Content :=
  element "Dependencies" [("name", unbar a.longname)] (each "Project" "Name" deps)

def document (name type : Str) (files : List Xml.Content) (as : List Answers) (deps : List Str) :
    Xml.Content :=
  element "CodeLite_Project" [("Name", name)]
    (files ++ [element "Settings" [("Type", type)] (as.map configElement)] ++
      as.map (dependencies deps))

/-- The values that are not escaped have no character that means something. -/
structure Answers.Plain (a : Answers) : Prop where
  name : Xml.Literal a.buildtarget.name
  debugargs : ∀ s ∈ a.list .debugargs, Xml.Literal s
  rundir : Xml.Literal a.rundir
  resources : a.hasResources → Xml.Literal a.resources
  longname : Xml.Literal a.longname

section Reads

variable {lay : Layout} {a : Answers}

theorem unbar_escText (s : Str) : unbar (Xml.escText s) = Xml.escText (unbar s) := by
  rw [unbar, unbar, Xml.escText_eq, Xml.escText_eq]
  refine Escape.map_encode ?_ (fun c hc => ?_) s
  · simp [Xml.entities]
  · split
    · simp [Xml.entities]
    · exact hc

theorem literal_unbar {s : Str} : Xml.Literal (unbar s) ↔ Xml.Literal s := by
  rw [unbar]
  induction s with
  | nil => rfl
  | cons c s ih =>
      rw [List.map_cons, Xml.literal_cons, Xml.literal_cons, ih]
      by_cases hc : c = '|'
      · simp [hc]
      · rw [if_neg hc]

theorem attrValue_unbar_escText (s : Str) :
    Xml.attrValue (unbar (Xml.escText s)) = some (unbar s) := by
  rw [unbar_escText]
  exact Xml.attrValue_escText _

theorem reads_each {name key : String} (hname : Xml.isName name.toList)
    (hkey : Xml.isName key.toList) (values : List Str) (space : Bool) :
    Reads lay (eachLine name key values space) (each name key values) :=
  reads_map fun _ _ => reads_single hname (spells_single _ hkey (Xml.attrValue_escText _)) space

theorem reads_commands {name : String} (hname : Xml.isName name.toList) (cmds : List Str) :
    Reads lay (commandLines name cmds) (commands name cmds) := by
  refine reads_ite (fun _ => reads_nil lay) fun _ => reads_element hname spells_nil ?_
  exact reads_map fun v _ =>
    reads_text (by decide) (spells_single _ (by decide) (attrValue_literal (by decide))) v

theorem reads_plain {l : List (String × String)}
    (h : ∀ e ∈ l, Xml.isName e.1.toList ∧ Xml.escText e.2.toList = e.2.toList) :
    Reads lay (l.map fun e => plainLine e.1 e.2.toList)
      (l.map fun e => element e.1 [] (content e.2.toList)) := by
  refine reads_map fun e he => ?_
  obtain ⟨hname, hs⟩ := h e he
  have htext := @reads_text lay e.1 [] [] 0 8 hname spells_nil e.2.toList
  rwa [hs] at htext

theorem reads_custom : Reads lay customLines custom := by
  have hbuild := @reads_plain lay customBuild (by decide)
  have hrules := @reads_plain lay additionalRules (by decide)
  have henabled := spells_single "Enabled" (by decide)
    (attrValue_literal (s := "no".toList) (by decide))
  exact (reads_element (by decide) henabled hbuild).append
    (reads_element (by decide) spells_nil hrules)

theorem literal_pause (a : Answers) : Xml.Literal a.pause := by
  rw [Answers.pause]
  split <;> decide

theorem literal_compiler (a : Answers) : Xml.Literal a.compiler := by
  rw [Answers.compiler]
  split <;> decide

theorem reads_general (h : a.Plain) : Reads lay [generalLine a] [general a] := by
  have hcommand := Xml.attrValue_append (attrValue_literal (s := "./".toList) (by decide))
    (attrValue_literal h.name)
  have hargs : Xml.attrValue (concat ' ' (a.list .debugargs)) =
      some (concat ' ' (a.list .debugargs)) :=
    attrValue_concat (by decide) (List.forall₂_same.mpr fun s hs =>
      attrValue_literal (h.debugargs s hs))
  refine reads_single (by decide) ⟨?_, ?_⟩ false
  · simp only [attrs, List.map_cons, List.map_nil]
    decide
  · simp only [attrs, List.map_cons, List.map_nil, List.forall₂_cons, List.forall₂_nil_left_iff,
      true_and, and_true]
    exact ⟨Xml.attrValue_escText _, Xml.attrValue_escText _, hcommand, hargs,
      attrValue_literal h.rundir, attrValue_literal (literal_pause a)⟩

theorem spells_tool {required raw v : Str} (hrequired : Xml.Literal required)
    (hv : Xml.attrValue raw = some v) :
    Xml.Spells (attrs [("Required", required), ("Options", raw)])
      (attrs [("Required", required), ("Options", v)]) := by
  refine ⟨?_, ?_⟩
  · simp only [attrs, List.map_cons, List.map_nil]
    decide
  · simp [attrs, attrValue_literal hrequired, hv]

theorem reads_compiler (a : Answers) : Reads lay (compilerLines a) [compiler a] := by
  refine reads_element (by decide)
    (spells_tool (by decide) (attrValue_concat_escText (by decide) a.flags)) ?_
  exact (reads_each (by decide) (by decide) _ false).append
    (reads_each (by decide) (by decide) _ false)

theorem reads_linker (a : Answers) : Reads lay (linkerLines a) [linker a] := by
  refine reads_element (by decide)
    (spells_tool (by decide) (attrValue_concat_escText (by decide) a.ldflags)) ?_
  exact ((reads_each (by decide) (by decide) _ true).append
    (reads_each (by decide) (by decide) _ true)).append (reads_each (by decide) (by decide) _ true)

theorem reads_resources (h : a.Plain) : Reads lay (resourceLines a) [resourceCompiler a] := by
  rw [resourceLines, resourceCompiler]
  split
  · rename_i hres
    exact reads_element (by decide)
      (spells_tool (by decide) (attrValue_literal (h.resources hres)))
      (reads_each (by decide) (by decide) _ false)
  · exact reads_single (by decide) (spells_tool (by decide) (attrValue_literal (by decide))) false

theorem reads_configuration (h : a.Plain) :
    Reads lay (configurationLines a) [configElement a] := by
  refine reads_element (by decide) ⟨?_, ?_⟩ ?_
  · simp only [attrs, List.map_cons, List.map_nil]
    decide
  · have hcompiler := Xml.attrValue_append (attrValue_literal (s := "gnu ".toList) (by decide))
      (attrValue_literal (literal_compiler a))
    simp only [attrs, List.map_cons, List.map_nil, List.forall₂_cons, List.forall₂_nil_left_iff,
      true_and, and_true]
    exact ⟨attrValue_unbar_escText _, hcompiler, attrValue_literal (by decide),
      attrValue_literal a.type.2⟩
  · exact ((((((reads_general h).append (reads_compiler a)).append (reads_linker a)).append
      (reads_resources h)).append (reads_commands (by decide) _)).append
      (reads_commands (by decide) _)).append reads_custom

theorem reads_dependencies {deps : List Str} (hdeps : ∀ dep ∈ deps, Xml.Literal dep)
    (h : a.Plain) : Reads lay (dependencyLines deps a) [dependencies deps a] := by
  refine reads_element (by decide) (spells_single _ (by decide)
    (attrValue_literal (literal_unbar.mpr h.longname))) ?_
  exact reads_map fun dep hdep => reads_single (by decide)
    (spells_single _ (by decide) (attrValue_literal (hdeps dep hdep))) false

theorem reads_project {name type : Str} {files : List Line} {as : List Answers} {deps : List Str}
    {cs : List Xml.Content} (htype : Xml.Literal type) (hfiles : Reads lay files cs)
    (has : ∀ a ∈ as, a.Plain) (hdeps : ∀ dep ∈ deps, Xml.Literal dep) :
    Reads lay (projectLines name type files as deps) [document name type cs as deps] := by
  have hdecl : Reads lay [.text 0 "<?xml version=\"1.0\" encoding=\"utf-8\"?>".toList] [] :=
    @reads_spaced lay [] 0 0 _
      (Xml.brings_instruction (s := "xml version=\"1.0\" encoding=\"utf-8\"".toList) (by decide))
  have hconfigurations : Reads lay (as.flatMap configurationLines) (as.map configElement) := by
    rw [List.map_eq_flatMap]
    exact reads_flatMap fun a ha => reads_configuration (has a ha)
  have hdependencies : Reads lay (as.flatMap (dependencyLines deps))
      (as.map (dependencies deps)) := by
    rw [List.map_eq_flatMap]
    exact reads_flatMap fun a ha => reads_dependencies hdeps (has a ha)
  have hsettings := @reads_element lay _ _ "Settings" _ _ 0 2 0 2 (by decide)
    (spells_single "Type" (by decide) (attrValue_literal htype)) hconfigurations
  exact hdecl.append (reads_element (by decide)
    (spells_single _ (by decide) (Xml.attrValue_escText name))
    ((hfiles.append hsettings).append hdependencies))

end Reads

section SourceTree

variable {lay : Layout} {f : Tree.Forest Project.SourceData} {t : Grove ℕ}

def sourceTree (f : Tree.Forest Project.SourceData) : Grove ℕ → List Xml.Content
  | .nil => []
  | .cons n below next =>
      (if below.roots = [] then
        element "File" [("Name", ((f.node n).data.cfg.map FileConfig.name).getD [])] []
      else element "VirtualDirectory" [("Name", (f.node n).name.getD [])] (sourceTree f below)) ::
      sourceTree f next

/-- The names in a tree have no character that means something. -/
structure Labelled (f : Tree.Forest Project.SourceData) : Prop where
  name : ∀ n s, (f.node n).name = some s → Xml.Literal s
  settings : ∀ n fcfg, (f.node n).data.cfg = some fcfg → Xml.Literal fcfg.name

theorem reads_printed (h : Labelled f) {depth : ℕ} {lines : List Line}
    (hlines : printer.printed f t depth = some lines) : Reads lay lines (sourceTree f t) := by
  induction t generalizing depth lines with
  | nil =>
      obtain rfl := Option.some.inj hlines
      exact reads_nil lay
  | cons n below next ihb ihn =>
      obtain ⟨here, rest, hhere, hrest, rfl⟩ := Tree.printed_cons_eq_some.mp hlines
      rw [sourceTree, ← List.singleton_append]
      refine Reads.append ?_ (ihn hrest)
      by_cases hroots : below.roots = []
      · rw [Tree.Printer.visit, if_pos hroots] at hhere
        obtain ⟨fcfg, hfcfg, rfl⟩ := Option.map_eq_some_iff.mp hhere
        have hsingle := @reads_single lay "File" _ _ depth 0 (by decide)
          (spells_single "Name" (by decide) (attrValue_literal (h.settings n fcfg hfcfg)))
          false
        rw [if_pos hroots, hfcfg]
        have hprint : Line.print lay.indent lay.eol (.file depth "<File Name=".toList fcfg.name
            "/>".toList) = Line.print lay.indent lay.eol
              (spaced depth 0 (single "File" [("Name", fcfg.name)] false)) := by
          rw [print_spaced]
          simp [Line.print, lead, single, Xml.emptyTag, Xml.written, attrs]
        rw [Reads, Layout.print, List.flatMap_cons] at hsingle ⊢
        rw [hprint]
        exact hsingle
      · obtain ⟨enter, under, exit, h₁, h₂, h₃, rfl⟩ :=
          (Tree.visit_branch_eq_some hroots).mp hhere
        obtain ⟨name, hname, rfl⟩ := Option.map_eq_some_iff.mp h₁
        obtain rfl := Option.some.inj h₃
        have hbranch := @reads_element lay _ _ "VirtualDirectory" _ _ depth 0 depth 0 (by decide)
          (spells_single "Name" (by decide) (attrValue_literal (h.name n name hname)))
          (ihb h₂)
        have henter : spaced depth 0 (opening "VirtualDirectory" [("Name", name)]) =
            .text depth (quoted "<VirtualDirectory Name=" name ">") := by
          simp [spaced, opening, Xml.startTag, Xml.written, attrs, quoted]
        rw [if_neg hroots, hname, ← henter, List.append_assoc]
        exact hbranch

end SourceTree

section Project

variable {env : Env} {fuel s p : ℕ} {session session' : List Workspace} {lines : List Line}
  {as : List Answers} {sln : Workspace} {prj : BakedProject} {root : BakedConfig}

/-- The parts of a path have no character that means something when the path has none. -/
theorem ofParts_literal : Tree.OfParts Xml.Literal where
  getdirectory p hrel hne hp := by
    rw [Path.getdirectory]
    split
    · decide
    · rename_i d b _ hsplit
      obtain ⟨c, -, rfl, -⟩ := Path.splitLast_eq_some hsplit
      exact (literal_append.mp hp).1
    · decide
  getname p hp := by
    rw [Path.getname]
    split
    · rename_i d b hsplit
      obtain ⟨c, -, rfl, -⟩ := Path.splitLast_eq_some hsplit
      exact (Xml.literal_cons.mp (literal_append.mp hp).2).2
    · exact hp

/-- What is written as it is has no character that means something: the names of the project and of
those that it depends on, the names and virtual paths of its files, and some answers. -/
structure Plain (prj : BakedProject) (files : List Project.SourceFile) (as : List Answers)
    (deps : List Str) : Prop where
  name : Xml.Literal prj.name
  files : ∀ file ∈ files, Xml.Literal file.fcfg.name ∧ Xml.Literal file.vpath
  answers : ∀ a ∈ as, a.Plain
  deps : ∀ dep ∈ deps, Xml.Literal dep

def layout : Layout := ⟨"  ".toList, "\n".toList, by decide, by decide⟩

/-- Something is written for the source tree of a project with files whose virtual paths are apart,
and it is read as the tree. -/
theorem exists_files {lay : Layout} {ord : PairsOrder} {prj : Ide.Project}
    {files : List Project.SourceFile}
    (hfiles : Project.eachfile ord prj.root = .ok files) (hne : files ≠ [])
    (hapart : Project.Apart (files.map Project.SourceFile.vpath)) (hname : Xml.Literal prj.name)
    (hliteral : ∀ file ∈ files, Xml.Literal file.fcfg.name ∧ Xml.Literal file.vpath) :
    ∃ f t lines, Project.Complete files f ∧ Tree.SourceTree f 0 t ∧
      (∃ fuel₀, ∀ fuel, fuel₀ ≤ fuel → Codelite.files fuel ord prj = some lines) ∧
      Reads lay lines (sourceTree f (.cons 0 t .nil)) := by
  obtain ⟨files', f, hfiles', htree, hcomplete⟩ :=
    @Project.losesNoFile_of_apart ord prj.name prj.root ⟨files, hfiles, hapart⟩
  obtain rfl : files = files' := Except.ok.inj (hfiles.symm.trans hfiles')
  obtain ⟨t, ht⟩ := Project.exists_sourceTree htree
  have hentered := Project.entered_of_buildsourcetree hfiles htree
  have hleaves : ∀ n, n ∈ t.leaves ↔ Project.Leaf f n :=
    fun n => (Project.leaf_iff ht.stands).symm
  have hnil : t ≠ .nil := by
    rintro rfl
    obtain ⟨file, files', rfl⟩ := List.exists_cons_of_ne_nil hne
    obtain ⟨n, ⟨hn, -⟩, -⟩ := hcomplete.leaf_of_file file List.mem_cons_self
    cases (hleaves n).mpr hn
  have hnamed : ∀ n ∈ t.nodes, (f.node n).name.isSome := fun n hn =>
    Option.isSome_iff_exists.mpr (ht.named n hn)
  obtain ⟨lines, hlines⟩ := @NamesLeaves.exists_printed _ _ f (.cons 0 t .nil) namesLeaves_codelite
    (fun n hn => by
      rcases List.mem_cons.mp hn with rfl | hn
      · rw [hentered.root]
        rfl
      · exact hnamed n (by simpa [Grove.nodes] using hn))
    (fun n hn => by
      rw [Grove.leaves_branch hnil, Grove.leaves, List.append_nil] at hn
      have hnode := (ht.stands.holds.mem_leaves_iff.mp hn).1
      obtain ⟨file, -, hcfg⟩ := hcomplete.file_of_leaf n ((hleaves n).mp hn)
      rw [hcfg]
      exact ⟨rfl, hnamed n hnode, hentered.path n (Nat.pos_of_ne_zero ((hleaves n).mp hn).1)
        (ht.lt n (List.mem_cons_of_mem 0 hnode))⟩) 1
  obtain ⟨fuel₀, hfuel₀⟩ := printing_root_eq printer 1 htree ht.stands
  have hlabelled : Labelled f :=
    ⟨Project.namesHave_of_buildsourcetree ofParts_literal hname hfiles
      (fun file hfile => (hliteral file hfile).2) htree,
    fun n fcfg hfcfg => by
      obtain ⟨file, hfile, rfl⟩ := hentered.settings n fcfg hfcfg
      exact (hliteral file hfile).1⟩
  exact ⟨f, t, lines, hcomplete, ht, ⟨fuel₀, fun fuel hfuel => (hfuel₀ fuel hfuel).trans hlines⟩,
    reads_printed hlabelled hlines⟩

/-- A project is written when it has files whose virtual paths are apart and its configurations
answer, and what is written is read as the project, with the tree of its files, when all that is
not escaped has no character that means something. -/
theorem exists_read_project {cc : Str} {tool : Tool} {files : List Project.SourceFile}
    {type : {type : Str // Xml.Literal type}}
    (hsln : session[s]? = some sln) (hprj : sln.projects[p]? = some prj)
    (hroot : prj.root = some root) (hfiles : Project.eachfile env.ord root = .ok files)
    (hne : files ≠ []) (hapart : Project.Apart (files.map Project.SourceFile.vpath))
    (htype : gettype root = some type) (hcc : env.options.lookup "cc".toList = some cc)
    (htool : Tool.named cc = some tool)
    (hask : askAll env (configIds tool s p sln prj) session = .ok (as, session'))
    (hplain : Plain prj files as (dependencyNames env.ord session' prj)) :
    ∃ f t lines, Project.Complete files f ∧ Tree.SourceTree f 0 t ∧
      (∃ fuel₀, ∀ fuel, fuel₀ ≤ fuel →
        project env fuel s p session = .ok (lines, as, session')) ∧
      Xml.read (layout.print lines) = some (document prj.name type.1
        (sourceTree f (.cons 0 t .nil)) as (dependencyNames env.ord session' prj)) := by
  obtain ⟨f, t, lines, hcomplete, ht, ⟨fuel₀, hfuel₀⟩, hreads⟩ :=
    @exists_files layout env.ord ⟨prj.name, root, [], crosscompiled_nil⟩ files hfiles hne hapart
      hplain.name hplain.files
  refine ⟨f, t, _, hcomplete, ht, ⟨fuel₀, fun fuel hfuel => ?_⟩,
    Xml.read_of_brings (reads_project type.2 hreads hplain.answers hplain.deps)⟩
  simp only [project, hsln, hprj, hroot, hfuel₀ fuel hfuel, htype, hcc, htool, hask, need, bind,
    Except.bind]
  rfl

/-- A program with a file and a definition that is escaped, in a solution for one configuration. -/
def hello (name : Option Str) : BakedConfig where
  name := name
  platform := native
  terms := none
  fields := ((((Fields.empty.set .kind "ConsoleApp".toList).set .language "C++".toList).set
    .files ⟨["main.cpp".toList], []⟩).set .defines ⟨["A<B".toList], []⟩).set .libdirs Tbl.empty
  shortname := name
  longname := name
  system := "linux".toList
  fileconfigs := [⟨"main.cpp".toList, Obj.empty⟩]
  objectsdir := some "obj".toList
  buildtarget := some ⟨"hello".toList, "hello".toList, ".".toList, [], [], "hello".toList, []⟩

def helloProject : BakedProject where
  name := "hello".toList
  usage := false
  obj := Container.ofBlock Fields.empty (configuration 0 [])
  configs := [([], hello none), ("Debug".toList, hello (some "Debug".toList))]

def helloSession : List Workspace :=
  [{ name := "hello".toList
     obj := Container.ofBlock
       (Fields.empty.set .configurations ⟨["Debug".toList], []⟩) (configuration 0 [])
     basis := []
     projects := [helloProject] }]

/-- The surroundings of `premake codelite`. -/
def codeliteEnv : Env :=
  { Env.gmake with action := "codelite".toList, options := [("cc".toList, "gcc".toList)] }

theorem exists_read_hello : ∃ as f t lines,
    (∃ fuel₀, ∀ fuel, fuel₀ ≤ fuel →
      ∃ session', project codeliteEnv fuel 0 0 helloSession = .ok (lines, as, session')) ∧
    Xml.read (layout.print lines) = some (document "hello".toList "Executable".toList
      (sourceTree f (.cons 0 t .nil)) as []) := by
  obtain ⟨as, session', hask, hplain, hdeps⟩ : ∃ as session',
      askAll codeliteEnv [⟨0, 0, "Debug".toList⟩] helloSession = .ok (as, session') ∧
      (∀ a ∈ as, a.Plain) ∧ dependencyNames codeliteEnv.ord session' helloProject = [] := by
    refine ⟨_, _, rfl, ?_, rfl⟩
    intro a ha
    obtain rfl := List.mem_singleton.mp ha
    exact ⟨by decide, by decide, by decide, by decide, by decide⟩
  have hplain' : Plain helloProject [⟨⟨"main.cpp".toList, Obj.empty⟩, "main.cpp".toList⟩] as
      (dependencyNames codeliteEnv.ord session' helloProject) := by
    rw [hdeps]
    exact ⟨by decide, by decide, hplain, by decide⟩
  obtain ⟨f, t, lines, -, -, ⟨fuel₀, hfuel₀⟩, hread⟩ :=
    @exists_read_project codeliteEnv 0 0 helloSession session' as _ helloProject (hello none)
      "gcc".toList Gcc.tool _ ⟨"Executable".toList, by decide⟩ rfl rfl rfl rfl (by decide)
      (by decide) rfl rfl rfl hask hplain'
  rw [hdeps] at hread
  exact ⟨as, f, t, lines, ⟨fuel₀, fun fuel hfuel => ⟨session', hfuel₀ fuel hfuel⟩⟩, hread⟩

end Project

end Codelite

end Ide

end Puremake
