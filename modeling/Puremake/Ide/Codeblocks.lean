import Puremake.Ide.Fragment
import Puremake.Ide.Matrix

/-!
# Projects for Code::Blocks

`premake.codeblocks.cbp` writes a target for each configuration, the files with what is special
about them, and the environments for the debugger. Only one debugger is known: a configuration with
an environment for another one stops the generator with a message. Otherwise the file is read as
the project, when what is not escaped has no character that means something.
-/

namespace Puremake

namespace Ide

namespace Codeblocks

/-- What stops the generator: an error of the language, or a message of its own. -/
inductive Stopped
  | bake (e : BakeError)
  | failed (message : Str)
  deriving DecidableEq, Repr

/-- `types`, with the numbers as `%d` writes them. -/
def types : List (Str × Str) :=
  [("WindowedApp".toList, "0".toList), ("ConsoleApp".toList, "1".toList),
    ("StaticLib".toList, "2".toList), ("SharedLib".toList, "3".toList)]

theorem literal_types : ∀ e ∈ types, Xml.Literal e.2 := by decide

structure Answers where
  cfg : BakedConfig
  longname : Str
  buildtarget : Target
  objectsdir : Str
  type : {type : Str // Xml.Literal type}
  flags : List Str
  ldflags : List Str
  directories : List Str
  libraries : List Str

/-- What `premake.codeblocks.cbp` asks a configuration for, and the session afterwards. -/
def ask (env : Env) (cc : Tool) (id : ConfigId) (session : List Workspace) :
    Except BakeError (Answers × List Workspace) := do
  let (_, cfg) ← need (id.get? session)
  let longname ← need cfg.longname
  let buildtarget ← need cfg.buildtarget
  let objectsdir ← need cfg.objectsdir
  let type ← need ((cfg.fields .kind).bind (lookupLiteral types literal_types))
  let flags ← cc.getcflags cfg
  let ldflags ← cc.getldflags cfg
  let (directories, session) ← queryLinks env id .all .directory session
  let (libraries, session) ← queryLinks env id .all .basename session
  return ({
    cfg, longname, buildtarget, objectsdir, type, directories, libraries
    flags := flags ++ cc.getcxxflags cfg ++ cc.getdefines (cfg.fields.list .defines).arr ++
      (cfg.fields.list .buildoptions).arr
    ldflags := ldflags ++ (cfg.fields.list .linkoptions).arr }, session)

def askAll (env : Env) (cc : Tool) : List ConfigId → List Workspace →
    Except BakeError (List Answers × List Workspace)
  | [], session => .ok ([], session)
  | id :: ids, session => do
      let (a, session) ← ask env cc id session
      let (as, session) ← askAll env cc ids session
      return (a :: as, session)

def Answers.list (a : Answers) (f : Field) : List Str := (a.cfg.fields.list f).arr

/-- `premake.findfile(cfg, ".rc")` -/
def Answers.hasResources (a : Answers) : Bool :=
  (a.list .files).any fun fname => fname.endswith ".rc".toList

def option (key : String) (v : Value) : Fragment := .single "Option" [(key, v)]

def add (key : String) (v : Value) : Fragment := .single "Add" [(key, v)]

def settings (cc : Str) (a : Answers) : Fragment :=
  .single "Option" [("output", .escaped a.buildtarget.fullpath), ("prefix_auto", .fixed "0"),
    ("extension_auto", .fixed "0")] ++
  .each (a.cfg.fields .debugdir).toList (fun dir => option "working_dir" (.escaped dir)) ++
  option "object_output" (.escaped a.objectsdir) ++ option "type" (.asIs a.type) ++
  option "compiler" (.asIs cc) ++
  .guard (a.cfg.fields .kind = some "SharedLib".toList) (
    option "createDefFile" (.fixed "0") ++
    option "createStaticLib" (if hasFlag a.cfg "NoImportLib" then .fixed "0" else .fixed "1"))

def quot : Value := ⟨"&quot;".toList, ['"']⟩

def linefeed : Value := ⟨"&#x0A;".toList, ['\n']⟩

def compiler (a : Answers) : Fragment :=
  .block "Compiler" [] (
    .each a.flags (fun flag => add "option" (.escaped flag)) ++
    .each (if hasFlag a.cfg "NoPCH" then [] else (a.cfg.fields .pchheader).toList) (fun header =>
      add "option" (.fixed "-Winvalid-pch") ++
      add "option" (.fixed "-include " ++ (quot ++ (.escaped header ++ quot)))) ++
    .each (a.list .includedirs) fun v => add "directory" (.escaped v))

def linker (a : Answers) : Fragment :=
  .block "Linker" [] (
    .each a.ldflags (fun flag => add "option" (.escaped flag)) ++
    .each a.directories (fun v => add "directory" (.escaped v)) ++
    .each a.libraries fun v => add "library" (.escaped v))

def resourceCompiler (a : Answers) : Fragment :=
  .guard a.hasResources (.block "ResourceCompiler" [] (
    .each (a.list .includedirs) (fun v => add "directory" (.escaped v)) ++
    .each (a.list .resincludedirs) fun v => add "directory" (.escaped v)))

def extraCommands (a : Answers) : Fragment :=
  .guard (a.list .prebuildcommands ≠ [] ∨ a.list .postbuildcommands ≠ []) (
    .block "ExtraCommands" [] (
      .each (a.list .prebuildcommands) (fun v => add "before" (.escaped v)) ++
      .each (a.list .postbuildcommands) fun v => add "after" (.escaped v)))

def target (cc : Str) (a : Answers) : Fragment :=
  .block "Target" [("title", .escaped a.longname)]
    (settings cc a ++ compiler a ++ linker a ++ resourceCompiler a ++ extraCommands a)

/-- The message of `premake.codeblocks.debugenvs`. -/
def unsupported : Str := ("Sorry at this moment there is no support for debug environment " ++
  "variables with this debugger and codeblocks").toList

/-- What `premake.codeblocks.debugenvs` writes. -/
def debugger (a : Answers) : Fragment :=
  .block "debugger" [] (.block "remote_debugging" [("target", .escaped a.longname)]
    (.single "options" [("additional_cmds_before",
      .join linefeed ((a.list .debugenvs).map fun v => .fixed "set env " ++ .asIs v))]))

def debugenvs (env : Env) (a : Answers) : Except Stopped Fragment := do
  let cc ← (gettool env a.cfg).mapError .bake
  if cc = "gcc".toList then return debugger a else .error (.failed unsupported)

def extensions (env : Env) : List Answers → Except Stopped Fragment
  | [] => .ok .empty
  | a :: as => do
      let x ← if a.list .debugenvs = [] then .ok .empty else debugenvs env a
      let y ← extensions env as
      return x ++ y

/-- What `codeblocks.files` writes for a file, with its meaning. -/
def file (prj : Ide.Project) (pchheader : Option Str) (file : Project.SourceFile) : Fragment :=
  let fname := file.fcfg.name
  .block "Unit" [("filename", .escaped fname)] (
    .guard (fname ≠ file.vpath) (option "virtualFolder" (.asIs (Path.getdirectory file.vpath))) ++
    (if Path.isresourcefile fname then option "compilerVar" (.fixed "WINDRES")
    else .guard (Path.iscfile fname ∧ prj.root.fields .language = some "C++".toList)
      (option "compilerVar" (.fixed "CC"))) ++
    .guard (¬ hasFlag prj.root "NoPCH" ∧ some fname = pchheader) (
      option "compilerVar" (if iscproject prj then .fixed "CC" else .fixed "CPP") ++
      option "compile" (.fixed "1") ++ option "weight" (.fixed "0") ++
      add "option" (.fixed "-x c++-header")))

/-- The path of the precompiled header from the location of the project. -/
def header (cwd : Str) (prj : Ide.Project) : Option Str :=
  (prj.root.fields .pchheader).map (Path.getrelative cwd ((prj.root.fields .location).getD []))

def page (cc name : Str) (as : List Answers) (units extensions : Fragment) : Fragment :=
  .instruction "xml version=\"1.0\" encoding=\"UTF-8\" standalone=\"yes\" " ++
  .block "CodeBlocks_project_file" [] (
    .single "FileVersion" [("major", .fixed "1"), ("minor", .fixed "6")] ++
    .block "Project" [] (
      option "title" (.escaped name) ++ option "pch_mode" (.fixed "2") ++
      option "compiler" (.asIs cc) ++
      .block "Build" [] (.each as (target cc)) ++ units ++ .block "Extensions" [] extensions)) ++
  .blank

/-- `premake.codeblocks.cbp`, with the configurations as they answered and the session
afterwards. -/
def cbp (env : Env) (s p : ℕ) (session : List Workspace) :
    Except Stopped (Fragment × List Answers × List Workspace) := do
  let sln ← (need session[s]?).mapError .bake
  let prj ← (need sln.projects[p]?).mapError .bake
  let root ← (need prj.root).mapError .bake
  let cc ← (need (env.options.lookup "cc".toList)).mapError .bake
  let tool ← (gettool env root).mapError .bake
  let tool ← (need (Tool.named tool)).mapError .bake
  let (as, session) ← (askAll env tool (Codelite.configIds tool s p sln prj) session).mapError .bake
  let ideprj : Ide.Project := ⟨prj.name, root, [], crosscompiled_nil⟩
  let fcfgs ← (need (Project.eachfile env.ord root).toOption).mapError .bake
  let debuggers ← extensions env as
  return (page cc prj.name as (.each fcfgs (file ideprj (header env.cwd ideprj))) debuggers, as,
    session)

def adds (key : String) (values : List Str) : List Xml.Content := each "Add" key values

def settingsRead (cc : Str) (a : Answers) : List Xml.Content :=
  [element "Option" [("output", a.buildtarget.fullpath), ("prefix_auto", "0".toList),
    ("extension_auto", "0".toList)] []] ++
  each "Option" "working_dir" (a.cfg.fields .debugdir).toList ++
  each "Option" "object_output" [a.objectsdir] ++ each "Option" "type" [a.type.1] ++
  each "Option" "compiler" [cc] ++
  if a.cfg.fields .kind = some "SharedLib".toList then
    each "Option" "createDefFile" ["0".toList] ++ each "Option" "createStaticLib"
      [(if hasFlag a.cfg "NoImportLib" then "0" else "1").toList]
  else []

def headerOptions (a : Answers) : List Str :=
  (if hasFlag a.cfg "NoPCH" then [] else (a.cfg.fields .pchheader).toList).flatMap fun header =>
    ["-Winvalid-pch".toList, "-include \"".toList ++ header ++ ['"']]

def targetRead (cc : Str) (a : Answers) : Xml.Content :=
  element "Target" [("title", a.longname)] (settingsRead cc a ++
    [element "Compiler" [] (adds "option" (a.flags ++ headerOptions a) ++
      adds "directory" (a.list .includedirs))] ++
    [element "Linker" [] (adds "option" a.ldflags ++ adds "directory" a.directories ++
      adds "library" a.libraries)] ++
    (if a.hasResources then [element "ResourceCompiler" []
      (adds "directory" (a.list .includedirs ++ a.list .resincludedirs))] else []) ++
    if a.list .prebuildcommands ≠ [] ∨ a.list .postbuildcommands ≠ [] then
      [element "ExtraCommands" [] (adds "before" (a.list .prebuildcommands) ++
        adds "after" (a.list .postbuildcommands))] else [])

/-- The commands for an environment as they are read, one on a line. -/
def commands (envs : List Str) : Str :=
  concat '\n' (envs.map fun v => "set env ".toList ++ v)

def debuggerRead (a : Answers) : Xml.Content :=
  element "debugger" [] [element "remote_debugging" [("target", a.longname)]
    (each "options" "additional_cmds_before" [commands (a.list .debugenvs)])]

def debugged (as : List Answers) : List Answers := as.filter fun a => a.list .debugenvs ≠ []

def fileRead (prj : Ide.Project) (pchheader : Option Str) (file : Project.SourceFile) :
    Xml.Content :=
  let fname := file.fcfg.name
  element "Unit" [("filename", fname)] (
    (if fname ≠ file.vpath then each "Option" "virtualFolder" [Path.getdirectory file.vpath]
      else []) ++
    (if Path.isresourcefile fname then each "Option" "compilerVar" ["WINDRES".toList]
      else if Path.iscfile fname ∧ prj.root.fields .language = some "C++".toList then
        each "Option" "compilerVar" ["CC".toList] else []) ++
    if ¬ hasFlag prj.root "NoPCH" ∧ some fname = pchheader then
      each "Option" "compilerVar" [(if iscproject prj then "CC" else "CPP").toList] ++
      each "Option" "compile" ["1".toList] ++ each "Option" "weight" ["0".toList] ++
      adds "option" ["-x c++-header".toList]
    else [])

def document (cc name : Str) (as : List Answers) (units : List Xml.Content) : Xml.Content :=
  element "CodeBlocks_project_file" [] [
    element "FileVersion" [("major", "1".toList), ("minor", "6".toList)] [],
    element "Project" [] (each "Option" "title" [name] ++ each "Option" "pch_mode" ["2".toList] ++
      each "Option" "compiler" [cc] ++ [element "Build" [] (as.map (targetRead cc))] ++ units ++
      [element "Extensions" [] ((debugged as).map debuggerRead)])]

section Meaning

variable {cc name : Str} {a : Answers} {as : List Answers}

theorem lines_option (key : String) (v : Value) (depth : ℕ) :
    (option key v).lines depth = [spaced depth 0 (single "Option" [(key, v.raw)] true)] := rfl

theorem lines_add (key : String) (v : Value) (depth : ℕ) :
    (add key v).lines depth = [spaced depth 0 (single "Add" [(key, v.raw)] true)] := rfl

theorem contents_option (key : String) (v : Value) :
    (option key v).contents = [element "Option" [(key, v.meaning)] []] := rfl

theorem contents_add (key : String) (v : Value) :
    (add key v).contents = [element "Add" [(key, v.meaning)] []] := rfl

theorem contents_settings (cc : Str) (a : Answers) :
    (settings cc a).contents = settingsRead cc a := by
  have hlib : (if hasFlag a.cfg "NoImportLib" then Value.fixed "0" else Value.fixed "1").meaning =
      (if hasFlag a.cfg "NoImportLib" then "0" else "1").toList := by
    split <;> rfl
  simp only [settings, settingsRead, Fragment.contents_append, Fragment.contents_single,
    contents_option, Fragment.contents_each, Fragment.contents_guard, hlib, each,
    List.map_eq_flatMap]
  rfl

theorem contents_compiler (a : Answers) : (compiler a).contents =
    [element "Compiler" [] (adds "option" (a.flags ++ headerOptions a) ++
      adds "directory" (a.list .includedirs))] := by
  simp only [compiler, headerOptions, adds, Fragment.contents_append, Fragment.contents_block,
    contents_add, Fragment.contents_each, each, List.map_eq_flatMap, List.flatMap_append,
    List.flatMap_assoc]
  rfl

theorem contents_linker (a : Answers) : (linker a).contents =
    [element "Linker" [] (adds "option" a.ldflags ++ adds "directory" a.directories ++
      adds "library" a.libraries)] := by
  simp only [linker, adds, Fragment.contents_append, Fragment.contents_block, contents_add,
    Fragment.contents_each, each, List.map_eq_flatMap]
  rfl

theorem contents_target (cc : Str) (a : Answers) :
    (target cc a).contents = [targetRead cc a] := by
  simp only [target, targetRead, Fragment.contents_append, Fragment.contents_block,
    contents_settings, contents_compiler, contents_linker, resourceCompiler, extraCommands,
    Fragment.contents_guard, adds, contents_add, Fragment.contents_each, each,
    List.map_eq_flatMap, List.flatMap_append]
  rfl

theorem contents_file (prj : Ide.Project) (pchheader : Option Str) (f : Project.SourceFile) :
    (file prj pchheader f).contents = [fileRead prj pchheader f] := by
  have hvar : (if iscproject prj then Value.fixed "CC" else Value.fixed "CPP").meaning =
      (if iscproject prj then "CC" else "CPP").toList := by
    split <;> rfl
  simp only [file, fileRead, Fragment.contents_append, Fragment.contents_block, contents_option,
    contents_add, Fragment.contents_guard, apply_ite Fragment.contents, hvar, adds, each]
  rfl

theorem contents_debugger (a : Answers) : (debugger a).contents = [debuggerRead a] := by
  have hjoin : (Value.join linefeed ((a.list .debugenvs).map fun v =>
      .fixed "set env " ++ .asIs v)).meaning = commands (a.list .debugenvs) := by
    rw [Value.meaning_join rfl, List.map_map]
    rfl
  simp only [debugger, debuggerRead, Fragment.contents_block, Fragment.contents_single, each,
    ← hjoin]
  rfl

theorem print_file (lay : Layout) (prj : Ide.Project) (pchheader : Option Str)
    (f : Project.SourceFile) :
    lay.print ((file prj pchheader f).lines 2) = lay.print (unit prj pchheader f) := by
  have hunit : Line.print lay.indent lay.eol
        (.file 2 "<Unit filename=".toList (Xml.escText f.fcfg.name) ">".toList) =
      Line.print lay.indent lay.eol
        (spaced 2 0 (opening "Unit" [("filename", Xml.escText f.fcfg.name)])) := by
    rw [print_spaced]
    simp [Line.print, lead, opening, Xml.startTag, Xml.written, attrs]
  have hfolder := @spaced_single 3 "Option" "virtualFolder" "<Option virtualFolder=" (by decide)
  have hvar := @spaced_single 3 "Option" "compilerVar" "<Option compilerVar=" (by decide)
  have hcompile := @spaced_single 3 "Option" "compile" "<Option compile=" (by decide)
  have hweight := @spaced_single 3 "Option" "weight" "<Option weight=" (by decide)
  have hadd := @spaced_single 3 "Add" "option" "<Add option=" (by decide)
  have hcpp : (if iscproject prj then Value.fixed "CC" else Value.fixed "CPP").raw =
      (if iscproject prj then "CC" else "CPP").toList := by
    split <;> rfl
  rw [unit, List.cons_append, List.cons_append, List.cons_append, print_cons, hunit, ← print_cons,
    ← hfolder, ← hvar, ← hvar, ← hvar, ← hcompile, ← hweight, ← hadd, file, Fragment.lines_block,
    Fragment.lines_append, Fragment.lines_append, Fragment.lines_guard, Fragment.lines_guard,
    apply_ite (fun x => Fragment.lines x 3), Fragment.lines_guard, Fragment.lines_append,
    Fragment.lines_append, Fragment.lines_append, lines_option, lines_option, lines_option,
    lines_option, lines_option, lines_option, lines_add, hcpp, Fragment.raws, List.map_cons,
    List.map_nil, Value.raw_escaped]
  rfl

theorem print_files {cwd : Str} {ord : PairsOrder} {prj : Ide.Project} {lines : List Line}
    (lay : Layout) (h : files cwd ord prj = some lines) : ∃ fcfgs,
      Project.eachfile ord prj.root = .ok fcfgs ∧
      lay.print ((Fragment.each fcfgs (file prj (header cwd prj))).lines 2) = lay.print lines := by
  rw [files] at h
  cases hfiles : Project.eachfile ord prj.root with
  | error e =>
      rw [hfiles] at h
      cases h
  | ok fcfgs =>
      rw [hfiles] at h
      obtain rfl := Option.some.inj h
      refine ⟨fcfgs, rfl, ?_⟩
      rw [Layout.print, Layout.print, Fragment.lines_each, List.flatMap_assoc, List.flatMap_assoc]
      exact List.flatMap_congr fun f _ => print_file lay prj _ f

end Meaning

section Readable

variable {cc name : Str} {a : Answers} {as : List Answers}

theorem readable_option {key : String} {v : Value} (hkey : Xml.areKeys [key.toList])
    (hv : v.Readable) : (option key v).Readable :=
  ⟨by decide, hkey, List.forall_mem_singleton.mpr hv⟩

theorem readable_add {key : String} {v : Value} (hkey : Xml.areKeys [key.toList])
    (hv : v.Readable) : (add key v).Readable :=
  ⟨by decide, hkey, List.forall_mem_singleton.mpr hv⟩

theorem readable_adds {key : String} (hkey : Xml.areKeys [key.toList]) (values : List Str) :
    (Fragment.each values fun v => add key (.escaped v)).Readable :=
  fun v _ => readable_add hkey (Value.readable_escaped v)

theorem readable_settings (hcc : Xml.Literal cc) (a : Answers) : (settings cc a).Readable := by
  refine ⟨⟨⟨⟨⟨⟨by decide, ?_, ?_⟩, fun dir _ => ?_⟩, ?_⟩, ?_⟩, ?_⟩,
    Fragment.readable_guard fun _ => ⟨?_, ?_⟩⟩
  · simp only [List.map_cons, List.map_nil]
    decide
  · simp only [List.forall_mem_cons]
    exact ⟨Value.readable_escaped _, Value.readable_fixed (by decide),
      Value.readable_fixed (by decide), fun _ h => absurd h List.not_mem_nil⟩
  · exact readable_option (by decide) (Value.readable_escaped dir)
  · exact readable_option (by decide) (Value.readable_escaped _)
  · exact readable_option (by decide) (Value.readable_asIs.mpr a.type.2)
  · exact readable_option (by decide) (Value.readable_asIs.mpr hcc)
  · exact readable_option (by decide) (Value.readable_fixed (by decide))
  · refine readable_option (by decide) ?_
    split <;> exact Value.readable_fixed (by decide)

theorem readable_compiler (a : Answers) : (compiler a).Readable := by
  have hquot : quot.Readable := by
    rw [Value.Readable]
    decide
  refine ⟨Fragment.tagged_nil (by decide), ⟨readable_adds (by decide) _, fun header _ => ⟨?_, ?_⟩⟩,
    readable_adds (by decide) _⟩
  · exact readable_add (by decide) (Value.readable_fixed (by decide))
  · exact readable_add (by decide) ((Value.readable_fixed (by decide)).append
      (hquot.append ((Value.readable_escaped header).append hquot)))

theorem readable_linker (a : Answers) : (linker a).Readable :=
  ⟨Fragment.tagged_nil (by decide), ⟨readable_adds (by decide) _, readable_adds (by decide) _⟩,
    readable_adds (by decide) _⟩

theorem readable_target (hcc : Xml.Literal cc) (a : Answers) : (target cc a).Readable := by
  refine ⟨Fragment.tagged_single (by decide) (by decide) (Value.readable_escaped _),
    ⟨⟨⟨readable_settings hcc a, readable_compiler a⟩, readable_linker a⟩,
      Fragment.readable_guard fun _ => ?_⟩, Fragment.readable_guard fun _ => ?_⟩
  · exact ⟨Fragment.tagged_nil (by decide), readable_adds (by decide) _,
      readable_adds (by decide) _⟩
  · exact ⟨Fragment.tagged_nil (by decide), readable_adds (by decide) _,
      readable_adds (by decide) _⟩

theorem readable_file {f : Project.SourceFile} (prj : Ide.Project) (pchheader : Option Str)
    (h : f.fcfg.name ≠ f.vpath → Xml.Literal (Path.getdirectory f.vpath)) :
    (file prj pchheader f).Readable := by
  refine ⟨Fragment.tagged_single (by decide) (by decide) (Value.readable_escaped _),
    ⟨Fragment.readable_guard fun hne => ?_, ?_⟩, Fragment.readable_guard fun _ =>
      ⟨⟨⟨?_, ?_⟩, ?_⟩, ?_⟩⟩
  · exact readable_option (by decide) (Value.readable_asIs.mpr (h hne))
  · split
    · exact readable_option (by decide) (Value.readable_fixed (by decide))
    · exact Fragment.readable_guard fun _ =>
        readable_option (by decide) (Value.readable_fixed (by decide))
  · refine readable_option (by decide) ?_
    split <;> exact Value.readable_fixed (by decide)
  · exact readable_option (by decide) (Value.readable_fixed (by decide))
  · exact readable_option (by decide) (Value.readable_fixed (by decide))
  · exact readable_add (by decide) (Value.readable_fixed (by decide))

theorem readable_debugger (h : ∀ v ∈ a.list .debugenvs, Xml.Literal v) :
    (debugger a).Readable := by
  have hlinefeed : linefeed.Readable := by
    rw [Value.Readable]
    decide
  refine ⟨Fragment.tagged_nil (by decide), Fragment.tagged_single (by decide) (by decide)
    (Value.readable_escaped _), Fragment.tagged_single (by decide) (by decide)
      (Value.readable_join hlinefeed ?_)⟩
  intro w hw
  obtain ⟨v, hv, rfl⟩ := List.mem_map.mp hw
  exact (Value.readable_fixed (by decide)).append (Value.readable_asIs.mpr (h v hv))

end Readable

section Project

variable {env : Env} {cc tn : Str} {tool : Tool} {s p : ℕ} {session session' : List Workspace}
  {sln : Workspace} {prj : BakedProject} {root : BakedConfig} {as : List Answers}
  {files : List Project.SourceFile}

/-- Every configuration with an environment is compiled by the tool whose debugger is known. -/
def Debuggable (env : Env) (as : List Answers) : Prop :=
  ∀ a ∈ as, a.list .debugenvs ≠ [] → gettool env a.cfg = .ok "gcc".toList

instance (env : Env) (as : List Answers) : Decidable (Debuggable env as) :=
  List.decidableBAll _ as

/-- What is written as it is has no character that means something. -/
structure Plain (files : List Project.SourceFile) (as : List Answers) : Prop where
  folders : ∀ f ∈ files, f.fcfg.name ≠ f.vpath → Xml.Literal (Path.getdirectory f.vpath)
  envs : ∀ a ∈ as, ∀ v ∈ a.list .debugenvs, Xml.Literal v

/-- With a debugger for all of them, the environments are written. -/
theorem exists_extensions (h : Debuggable env as) : ∃ x, extensions env as = .ok x ∧
    x.contents = (debugged as).map debuggerRead ∧
    ((∀ a ∈ as, ∀ v ∈ a.list .debugenvs, Xml.Literal v) → x.Readable) := by
  induction as with
  | nil => exact ⟨.empty, rfl, rfl, fun _ => trivial⟩
  | cons a as ih =>
      obtain ⟨ha, has⟩ := List.forall_mem_cons.mp h
      obtain ⟨y, hy, hcontents, hreadable⟩ := ih has
      by_cases hnil : a.list .debugenvs = []
      · refine ⟨.empty ++ y, ?_, ?_, fun hplain => ⟨trivial, ?_⟩⟩
        · rw [extensions, if_pos hnil, hy]
          rfl
        · rw [debugged, List.filter_cons_of_neg (by simp [hnil])]
          exact hcontents
        · exact hreadable fun b hb => hplain b (List.mem_cons_of_mem a hb)
      · refine ⟨debugger a ++ y, ?_, ?_, fun hplain => ⟨?_, ?_⟩⟩
        · rw [extensions, if_neg hnil, hy, debugenvs, ha hnil]
          rfl
        · rw [Fragment.contents_append, contents_debugger, hcontents, debugged, debugged,
            List.filter_cons_of_pos (by simp [hnil])]
          rfl
        · exact readable_debugger (hplain a List.mem_cons_self)
        · exact hreadable fun b hb => hplain b (List.mem_cons_of_mem a hb)

theorem exists_gettool (hcc : env.options.lookup "cc".toList = some cc) (cfg : BakedConfig) :
    ∃ tn, gettool env cfg = .ok tn := by
  rw [gettool, hcc]
  split
  · exact ⟨cc, rfl⟩
  · exact ⟨_, rfl⟩

theorem extensions_of_not (hcc : env.options.lookup "cc".toList = some cc)
    (h : ¬ Debuggable env as) : extensions env as = .error (.failed unsupported) := by
  induction as with
  | nil => exact absurd (fun _ ha => absurd ha List.not_mem_nil) h
  | cons a as ih =>
      rw [Debuggable, List.forall_mem_cons] at h
      by_cases hnil : a.list .debugenvs = []
      · rw [extensions, if_pos hnil, ih fun has => h ⟨fun hne => absurd hnil hne, has⟩]
        rfl
      · obtain ⟨tn, htn⟩ := exists_gettool hcc a.cfg
        rw [extensions, if_neg hnil, debugenvs, htn]
        by_cases hgcc : tn = "gcc".toList
        · have has : ¬ Debuggable env as := fun has => h ⟨fun _ => hgcc ▸ htn, has⟩
          rw [ih has]
          simp only [Except.mapError, hgcc]
          rfl
        · simp only [Except.mapError, bind, Except.bind, hgcc, if_false]

/-- The chosen tool is written as it is, and has no character that means something. -/
theorem literal_cc (hcc : env.options.lookup "cc".toList = some cc)
    (htn : gettool env root = .ok tn) (htool : Tool.named tn = some tool) : Xml.Literal cc := by
  rw [gettool, hcc] at htn
  split at htn
  · obtain rfl := Except.ok.inj htn
    have hmem : (cc, tool) ∈ [("gcc".toList, Gcc.tool), ("ow".toList, Ow.tool)] :=
      mem_of_lookup htool
    simp only [List.mem_cons, Prod.mk.injEq, List.not_mem_nil, or_false] at hmem
    rcases hmem with ⟨rfl, -⟩ | ⟨rfl, -⟩ <;> decide
  · obtain rfl := Except.ok.inj htn
    cases htool

theorem contents_page (cc name : Str) (as : List Answers) (units x : Fragment) :
    (page cc name as units x).contents = [element "CodeBlocks_project_file" [] [
      element "FileVersion" [("major", "1".toList), ("minor", "6".toList)] [],
      element "Project" [] (each "Option" "title" [name] ++
        each "Option" "pch_mode" ["2".toList] ++ each "Option" "compiler" [cc] ++
        [element "Build" [] (as.map (targetRead cc))] ++ units.contents ++
        [element "Extensions" [] x.contents])]] := by
  have hbuild : (Fragment.each as (target cc)).contents = as.map (targetRead cc) := by
    rw [Fragment.contents_each, List.map_eq_flatMap]
    exact congrArg as.flatMap (funext fun a => contents_target cc a)
  simp only [page, Fragment.contents_append, Fragment.contents_block, Fragment.contents_single,
    contents_option, hbuild]
  rfl

theorem readable_page {units x : Fragment} (hcc : Xml.Literal cc) (name : Str)
    (hunits : units.Readable) (hx : x.Readable) : (page cc name as units x).Readable := by
  refine ⟨⟨?_, Fragment.tagged_nil (by decide), ⟨by decide, ?_, ?_⟩,
    Fragment.tagged_nil (by decide), ⟨⟨⟨⟨?_, ?_⟩, ?_⟩, ?_⟩, hunits⟩,
    Fragment.tagged_nil (by decide), hx⟩, trivial⟩
  · rw [Fragment.instruction]
    decide
  · simp only [List.map_cons, List.map_nil]
    decide
  · simp only [List.forall_mem_cons]
    exact ⟨Value.readable_fixed (by decide), Value.readable_fixed (by decide),
      fun _ h => absurd h List.not_mem_nil⟩
  · exact readable_option (by decide) (Value.readable_escaped name)
  · exact readable_option (by decide) (Value.readable_fixed (by decide))
  · exact readable_option (by decide) (Value.readable_asIs.mpr hcc)
  · exact ⟨Fragment.tagged_nil (by decide), fun a _ => readable_target hcc a⟩

def layout : Layout :=
  ⟨"\t".toList, Codelite.layout.eol, by decide, Codelite.layout.blank_eol⟩

/-- When its configurations answer, a project with an environment for an unknown debugger stops the
generator with the message, and every other project is written, and what is written is read as the
project when all that is not escaped has no character that means something. -/
theorem exists_read_cbp (hsln : session[s]? = some sln) (hprj : sln.projects[p]? = some prj)
    (hroot : prj.root = some root) (hcc : env.options.lookup "cc".toList = some cc)
    (htn : gettool env root = .ok tn) (htool : Tool.named tn = some tool)
    (hask : askAll env tool (Codelite.configIds tool s p sln prj) session = .ok (as, session'))
    (hfiles : Project.eachfile env.ord root = .ok files) (hplain : Plain files as) :
    (Debuggable env as → ∃ x, cbp env s p session = .ok (x, as, session') ∧
      Xml.read (layout.print (x.lines 0)) = some (document cc prj.name as
        (files.map (fileRead ⟨prj.name, root, [], crosscompiled_nil⟩
          (header env.cwd ⟨prj.name, root, [], crosscompiled_nil⟩))))) ∧
    (¬ Debuggable env as → cbp env s p session = .error (.failed unsupported)) := by
  have hliteral := literal_cc hcc htn htool
  set ideprj : Ide.Project := ⟨prj.name, root, [], crosscompiled_nil⟩
  have hunits : (Fragment.each files (file ideprj (header env.cwd ideprj))).contents =
      files.map (fileRead ideprj (header env.cwd ideprj)) := by
    rw [Fragment.contents_each, List.map_eq_flatMap]
    exact congrArg files.flatMap (funext fun f => contents_file _ _ f)
  have hreadunits : (Fragment.each files (file ideprj (header env.cwd ideprj))).Readable :=
    fun f hf => readable_file _ _ (hplain.folders f hf)
  constructor
  · intro h
    obtain ⟨x, hx, hcontents, hreadable⟩ := exists_extensions h
    have hpage := @readable_page cc as _ x hliteral prj.name hreadunits (hreadable hplain.envs)
    refine ⟨_, ?_, Fragment.read_print layout 0 ?_ hpage⟩
    · simp only [cbp, hsln, hprj, hroot, hcc, htn, htool, hask, hfiles, hx, need,
        Except.mapError, bind, Except.bind, Except.toOption]
      rfl
    · rw [contents_page, hunits, hcontents]
  · intro h
    simp only [cbp, hsln, hprj, hroot, hcc, htn, htool, hask, hfiles, extensions_of_not hcc h, need,
      Except.mapError, bind, Except.bind, Except.toOption]

/-- The surroundings of `premake codeblocks`. -/
def codeblocksEnv : Env :=
  { Env.gmake with action := "codeblocks".toList, options := [("cc".toList, "gcc".toList)] }

/-- The surroundings of `premake --cc=ow codeblocks`. -/
def watcomEnv : Env :=
  { Env.gmake with action := "codeblocks".toList, options := [("cc".toList, "ow".toList)] }

def debugProject : BakedProject :=
  { Codelite.helloProject with
    configs := Codelite.helloProject.configs.map fun e =>
      (e.1, { e.2 with fields := e.2.fields.set .debugenvs ⟨["PATH=bin".toList], []⟩ }) }

def debugSession : List Workspace :=
  Codelite.helloSession.map fun sln => { sln with projects := [debugProject] }

/-- The program is read with its environment for one tool, and the generator stops for another
one. -/
theorem exists_read_cbp_debug :
    (∃ as x files, (∃ session', cbp codeblocksEnv 0 0 debugSession = .ok (x, as, session')) ∧
      debugged as = as ∧ as ≠ [] ∧
      Xml.read (layout.print (x.lines 0)) =
        some (document "gcc".toList "hello".toList as files)) ∧
    cbp watcomEnv 0 0 debugSession = .error (.failed unsupported) := by
  have hplain : ∀ as : List Answers, (∀ a ∈ as, a.list .debugenvs = ["PATH=bin".toList]) →
      Plain [⟨⟨"main.cpp".toList, Obj.empty⟩, "main.cpp".toList⟩] as := by
    refine fun as has => ⟨?_, ?_⟩
    · intro f hf hne
      obtain rfl := List.mem_singleton.mp hf
      exact absurd rfl hne
    · intro a ha v hv
      rw [has a ha, List.mem_singleton] at hv
      subst hv
      decide
  constructor
  · obtain ⟨as, session', hask, henvs, hdebugged, hne, hdebuggable⟩ : ∃ as session',
        askAll codeblocksEnv Gcc.tool [⟨0, 0, "Debug".toList⟩] debugSession =
          .ok (as, session') ∧
        (∀ a ∈ as, a.list .debugenvs = ["PATH=bin".toList]) ∧ debugged as = as ∧ as ≠ [] ∧
        Debuggable codeblocksEnv as := by
      refine ⟨_, _, rfl, ?_, rfl, List.cons_ne_nil _ _, ?_⟩
      · exact fun a ha => List.mem_singleton.mp ha ▸ rfl
      · exact fun a ha _ => List.mem_singleton.mp ha ▸ rfl
    obtain ⟨x, hx, hread⟩ := (@exists_read_cbp codeblocksEnv "gcc".toList "gcc".toList Gcc.tool 0 0
      debugSession session' _ debugProject _ as _ rfl rfl rfl rfl rfl rfl hask rfl
      (hplain as henvs)).1 hdebuggable
    exact ⟨as, x, _, ⟨session', hx⟩, hdebugged, hne, hread⟩
  · obtain ⟨as, session', hask, henvs, hnot⟩ : ∃ as session',
        askAll watcomEnv Ow.tool [⟨0, 0, "Debug".toList⟩] debugSession = .ok (as, session') ∧
        (∀ a ∈ as, a.list .debugenvs = ["PATH=bin".toList]) ∧ ¬ Debuggable watcomEnv as := by
      refine ⟨_, _, rfl, ?_, by decide⟩
      exact fun a ha => List.mem_singleton.mp ha ▸ rfl
    exact (@exists_read_cbp watcomEnv "ow".toList "ow".toList Ow.tool 0 0
      debugSession session' _ debugProject _ as _ rfl rfl rfl rfl rfl rfl hask rfl
      (hplain as henvs)).2 hnot

end Project

end Codeblocks

end Ide

end Puremake
