import Puremake.Xcode.Configs
import Puremake.Bake.Buildconfigs
import Puremake.Shell.Basic
import Puremake.Shell.Quoted
import Mathlib.Data.List.Count

/-!
# Commands in the build phases of an Xcode project

`xcode.PBXShellScriptBuildPhase` writes one script for all configurations: the commands of
the project, and for every configuration that has more of them a test with those that are
left when as many are taken away as the project has. This is right when the commands of each
configuration begin with those of the project, and when no two tests are for the same name.
The names in the tests are not escaped, neither for the property list nor for the shell.
-/

namespace Puremake

open FoldRun Script Quoted

/-- The commands that are run before compiling, before linking and after linking. -/
inductive BuildStep
  | prebuild | prelink | postbuild
  deriving DecidableEq, Repr

namespace BuildStep

def all : List BuildStep := [.prebuild, .prelink, .postbuild]

theorem mem_all (step : BuildStep) : step ∈ all := by
  cases step <;> decide

def commands (cfg : BakedConfig) : BuildStep → List Str
  | .prebuild => (cfg.fields.list .prebuildcommands).arr
  | .prelink => (cfg.fields.list .prelinkcommands).arr
  | .postbuild => (cfg.fields.list .postbuildcommands).arr

/-- The identifier that `doblock` is called with. -/
def id : BuildStep → Str
  | .prebuild => "9607AE1010C857E500CD1376".toList
  | .prelink => "9607AE3510C85E7E00CD1376".toList
  | .postbuild => "9607AE3710C85E8F00CD1376".toList

/-- The name that `doblock` is called with. -/
def name : BuildStep → Str
  | .prebuild => "Prebuild".toList
  | .prelink => "Prelink".toList
  | .postbuild => "Postbuild".toList

end BuildStep

namespace Make

/-- The lines that `premake.gmake_cpp_config` writes for a step with these commands. -/
def commandBlock (commands : List Str) : BuildStep → List Str
  | .prebuild => block "  define PREBUILDCMDS" "\t@echo Running pre-build commands"
  | .prelink => block "  define PRELINKCMDS" "\t@echo Running pre-link commands"
  | .postbuild => block "  define POSTBUILDCMDS" "\t@echo Running post-build commands"
where
  block (define echo : String) : List Str :=
    define.toList :: ((if 0 < commands.length then
      [echo.toList, '\t' :: ['\n', '\t'].intercalate commands] else []) ++ ["  endef".toList])

end Make

namespace Xcode

/-- What `doblock` writes between `{` and `}`, as far as it is not the same for all. -/
structure ScriptPhase where
  step : BuildStep
  shellScript : Str
  deriving DecidableEq, Repr

def ScriptPhase.lines (phase : ScriptPhase) : List Str :=
  ["\t\t".toList ++ phase.step.id ++ " /* ".toList ++ phase.step.name ++ " */ = \x7b".toList,
    "\t\t\tisa = PBXShellScriptBuildPhase;".toList,
    "\t\t\tbuildActionMask = 2147483647;".toList,
    "\t\t\tfiles = (".toList,
    "\t\t\t);".toList,
    "\t\t\tinputPaths = (".toList,
    "\t\t\t);".toList,
    "\t\t\tname = ".toList ++ phase.step.name ++ ";".toList,
    "\t\t\toutputPaths = (".toList,
    "\t\t\t);".toList,
    "\t\t\trunOnlyForDeploymentPostprocessing = 0;".toList,
    "\t\t\tshellPath = /bin/sh;".toList,
    "\t\t\tshellScript = \"".toList ++ phase.shellScript ++ "\";".toList,
    "\t\t\x7d;".toList]

/-- A round of the loop in `doblock`: what is inserted into the commands. -/
def configCommands (sln : Workspace) (step : BuildStep) (prjcmds : List Str) (cfg : BakedConfig) :
    Except BakeError (List Str) :=
  if prjcmds.length < (step.commands cfg).length then do
    let name ← getconfigname sln cfg
    return ("if [ \"$\x7bCONFIGURATION\x7d\" = \"".toList ++ name ++ "\" ]; then".toList) ::
      ((step.commands cfg).drop prjcmds.length ++ ["fi".toList])
  else return []

/-- `doblock`; nothing is written when there are no commands. -/
def doblock (sln : Workspace) (project : BakedConfig) (configs : List BakedConfig)
    (step : BuildStep) : Except BakeError (Option ScriptPhase) := do
  let prjcmds := step.commands project
  let inserted ← configs.mapM (configCommands sln step prjcmds)
  let commands := prjcmds ++ inserted.flatten
  return if commands = [] then none
    else some ⟨step, escapeQuotes (['\\', 'n'].intercalate commands)⟩

/-- The script phases of a project, for the tree with these configurations. -/
def scriptPhases (sln : Workspace) (project : BakedConfig) (configs : List BakedConfig) :
    Except BakeError (List ScriptPhase) :=
  return (← BuildStep.all.mapM (doblock sln project configs)).reduceOption

def PBXShellScriptBuildPhase (phases : List ScriptPhase) : List Str :=
  if phases = [] then []
  else "/* Begin PBXShellScriptBuildPhase section */".toList :: (phases.flatMap ScriptPhase.lines ++
    ["/* End PBXShellScriptBuildPhase section */".toList])

/-- What stands between the quotes behind `shellScript`; there is nothing to run in a phase
that is not written. -/
def scriptText (phases : List ScriptPhase) (step : BuildStep) : Str :=
  ((phases.find? fun phase => phase.step = step).map ScriptPhase.shellScript).getD []

def variableName : Str := "CONFIGURATION".toList

/-- The scripts of a project run in every configuration the commands that it has, which are
those that its makefile has. -/
def RunsCommands (shell : Shell variableName) (sln : Workspace) (prj : BakedProject) : Prop :=
  ∃ project cs phases, prj.root = some project ∧ configs sln prj = .ok cs ∧
    scriptPhases sln project cs = .ok phases ∧
    ∀ cfg ∈ cs, ∀ step, ∃ name script, getconfigname sln cfg = .ok name ∧
      unquote (scriptText phases step) = some script ∧
      shell.run name script = step.commands cfg ∧
      Make.commandBlock (shell.run name script) step =
        Make.commandBlock (step.commands cfg) step

def shownName (sln : Workspace) (cfg : BakedConfig) : Str :=
  match getconfigname sln cfg with
  | .ok name => name
  | .error _ => []

/-- The configurations have names, and those that a test is written for stand for themselves
in the property list and between the double quotes of the shell. -/
def Testable (shell : Shell variableName) (sln : Workspace) (project : BakedConfig)
    (cs : List BakedConfig) : Prop :=
  ∀ cfg ∈ cs, ∃ name, getconfigname sln cfg = .ok name ∧ ∀ step : BuildStep,
    (step.commands project).length < (step.commands cfg).length →
      '\\' ∉ name ∧ shell.Literal name

/-- The commands are, as they are read back, complete commands of the shell. -/
def Runnable (shell : Shell variableName) (project : BakedConfig) (cs : List BakedConfig) : Prop :=
  ∀ step : BuildStep, ∀ cfg ∈ project :: cs, ∀ text ∈ step.commands cfg,
    ∃ t, readBack text = some t ∧ shell.Complete t

/-- The commands of a configuration begin with those of the project, as they are read back,
and if there are more of them, there is no backslash in these and no other configuration has
the same name. -/
def Continues (sln : Workspace) (project : BakedConfig) (cs : List BakedConfig)
    (step : BuildStep) (cfg : BakedConfig) : Prop :=
  (step.commands project).map asRead <+: step.commands cfg ∧
    ((step.commands project).length < (step.commands cfg).length →
      (∀ text ∈ (step.commands cfg).drop (step.commands project).length, '\\' ∉ text) ∧
        cs.countP (fun other => shownName sln other = shownName sln cfg) = 1)

instance (sln : Workspace) (project : BakedConfig) (cs : List BakedConfig) (step : BuildStep)
    (cfg : BakedConfig) : Decidable (Continues sln project cs step cfg) :=
  inferInstanceAs (Decidable (_ ∧ (_ → (∀ _ ∈ _, _) ∧ _)))

section Tails

variable {α β γ : Type*} [DecidableEq γ] {cs : List α} {items : α → List β} {key : α → γ}
  {first : List β} {f : β → β}

/-- The items that are left when the first ones are taken away, for the longer lists with a
key. -/
def leftOver (items : α → List β) (key : α → γ) (n : ℕ) (f : β → β) (k : γ) (c : α) : List β :=
  if n < (items c).length ∧ key c = k then ((items c).drop n).map f else []

theorem length_leftOver (n : ℕ) (c : α) : (leftOver items key n f (key c) c).length =
    (items c).length - n := by
  rw [leftOver]
  split
  · simp
  · rename_i h
    rw [List.length_nil]
    have hle : ¬ n < (items c).length := fun hlt => h ⟨hlt, rfl⟩
    omega

theorem flatMap_leftOver_eq_nil {n : ℕ} {k : γ} (h : ∀ c ∈ cs, n < (items c).length → key c ≠ k) :
    cs.flatMap (leftOver items key n f k) = [] := by
  rw [List.flatMap_eq_nil_iff]
  intro c hc
  rw [leftOver, if_neg]
  exact fun hcond => h c hc hcond.1 hcond.2

/-- A list that is put together in this way gets nothing from other lists with its key. -/
theorem ne_key_of_eq {as bs : List α} {c : α} (hlong : first.length < (items c).length)
    (h : ∀ d ∈ as ++ c :: bs, first.map f ++
      (as ++ c :: bs).flatMap (leftOver items key first.length f (key d)) = items d) :
    ∀ d ∈ as ++ bs, key d ≠ key c := by
  intro d hd hkey
  have hmem : d ∈ as ++ c :: bs := by
    rcases List.mem_append.mp hd with hd | hd
    · exact List.mem_append_left _ hd
    · exact List.mem_append_right _ (List.mem_cons_of_mem _ hd)
  have hc := h c (List.mem_append_right _ List.mem_cons_self)
  have heq : items d = items c := by rw [← h d hmem, hkey, hc]
  have hlength := congrArg List.length hc
  rw [List.length_append, List.length_map, List.flatMap_append, List.flatMap_cons,
    List.length_append, List.length_append, length_leftOver] at hlength
  have hnil : (as ++ bs).flatMap (leftOver items key first.length f (key c)) = [] := by
    rw [List.flatMap_append, ← List.length_eq_zero_iff, List.length_append]
    omega
  have hleft := List.flatMap_eq_nil_iff.mp hnil d hd
  have hpos : (leftOver items key first.length f (key d) d).length =
      (items d).length - first.length :=
    length_leftOver first.length d
  rw [hkey, hleft, heq, List.length_nil] at hpos
  omega

theorem countP_key {as bs : List α} {c : α} :
    (as ++ c :: bs).countP (fun d => key d = key c) = 1 ↔ ∀ d ∈ as ++ bs, key d ≠ key c := by
  rw [List.countP_append, List.countP_cons_of_pos (by simp)]
  constructor
  · intro h
    have hzero : (as ++ bs).countP (fun d => key d = key c) = 0 := by
      rw [List.countP_append]
      omega
    exact fun d hd hkey => List.countP_eq_zero.mp hzero d hd (by simpa using hkey)
  · intro h
    have hzero : (as ++ bs).countP (fun d => key d = key c) = 0 :=
      List.countP_eq_zero.mpr fun d hd => by simpa using h d hd
    rw [List.countP_append] at hzero
    omega

theorem map_eq_self_iff {l : List β} : l.map f = l ↔ ∀ x ∈ l, f x = x := by
  conv_lhs => rhs; rw [← List.map_id l]
  exact List.map_inj_left

/-- Lists are put together from first items and what is left over exactly when they begin
with the first items, and the longer ones have keys of their own. -/
theorem leftOver_iff : (∀ c ∈ cs, first.map f ++
      cs.flatMap (leftOver items key first.length f (key c)) = items c) ↔
    ∀ c ∈ cs, first.map f <+: items c ∧ (first.length < (items c).length →
      (∀ x ∈ (items c).drop first.length, f x = x) ∧ cs.countP (fun d => key d = key c) = 1) := by
  constructor
  · intro h c hc
    refine ⟨⟨_, h c hc⟩, fun hlong => ?_⟩
    obtain ⟨as, bs, rfl⟩ := List.append_of_mem hc
    have hne := ne_key_of_eq hlong h
    refine ⟨?_, countP_key.mpr hne⟩
    have hown : first.map f ++ ((items c).drop first.length).map f = items c := by
      have heq := h c hc
      rw [List.flatMap_append, List.flatMap_cons,
        flatMap_leftOver_eq_nil fun d hd _ => hne d (List.mem_append_left _ hd),
        flatMap_leftOver_eq_nil fun d hd _ => hne d (List.mem_append_right _ hd),
        List.nil_append, List.append_nil, leftOver, if_pos ⟨hlong, rfl⟩] at heq
      exact heq
    have hdrop : ((items c).drop first.length).map f = (items c).drop first.length := by
      conv_rhs => rw [← hown]
      rw [List.drop_left' (List.length_map f)]
    exact map_eq_self_iff.mp hdrop
  · intro h c hc
    obtain ⟨hinitial, hlonger⟩ := h c hc
    obtain ⟨rest, hrest⟩ := hinitial
    have hdrop : (items c).drop first.length = rest := by
      rw [← hrest, List.drop_left' (List.length_map f)]
    by_cases hlong : first.length < (items c).length
    · obtain ⟨hfix, hcount⟩ := hlonger hlong
      obtain ⟨as, bs, rfl⟩ := List.append_of_mem hc
      have hne := countP_key.mp hcount
      rw [List.flatMap_append, List.flatMap_cons,
        flatMap_leftOver_eq_nil fun d hd _ => hne d (List.mem_append_left _ hd),
        flatMap_leftOver_eq_nil fun d hd _ => hne d (List.mem_append_right _ hd),
        List.nil_append, List.append_nil, leftOver, if_pos ⟨hlong, rfl⟩,
        map_eq_self_iff.mpr hfix, hdrop, hrest]
    · have hnil : rest = [] := by
        have hlength := congrArg List.length hrest
        rw [List.length_append, List.length_map] at hlength
        exact List.length_eq_zero_iff.mp (by omega)
      rw [flatMap_leftOver_eq_nil, ← hrest, hnil]
      intro d hd hlongd hkey
      obtain ⟨as, bs, rfl⟩ := List.append_of_mem hd
      rcases List.mem_append.mp hc with hc' | hc'
      · exact countP_key.mp ((h d hd).2 hlongd).2 c (List.mem_append_left _ hc') hkey.symm
      · rcases List.mem_cons.mp hc' with rfl | hc'
        · exact hlong hlongd
        · exact countP_key.mp ((h d hd).2 hlongd).2 c (List.mem_append_right _ hc') hkey.symm

end Tails

section Items

variable {sln : Workspace} {project : BakedConfig} {cs : List BakedConfig} {step : BuildStep}
  {f : Str → Str}

/-- The parts of the script of a step, when each command is changed by a function. -/
def scriptItems (sln : Workspace) (project : BakedConfig) (cs : List BakedConfig)
    (step : BuildStep) (f : Str → Str) : List Item :=
  (step.commands project).map (fun text => Item.command (f text)) ++ cs.flatMap fun cfg =>
    if (step.commands project).length < (step.commands cfg).length then
      [.block (shownName sln cfg)
        (((step.commands cfg).drop (step.commands project).length).map f)]
    else []

def scriptLines (sln : Workspace) (project : BakedConfig) (cs : List BakedConfig)
    (step : BuildStep) (f : Str → Str) : List Str :=
  (scriptItems sln project cs step f).flatMap (Item.lines variableName)

def phaseOf (sln : Workspace) (project : BakedConfig) (cs : List BakedConfig)
    (step : BuildStep) : Option ScriptPhase :=
  if scriptLines sln project cs step id = [] then none
  else some ⟨step, escapeQuotes (['\\', 'n'].intercalate (scriptLines sln project cs step id))⟩

theorem shownName_of_ok {cfg : BakedConfig} {name : Str} (h : getconfigname sln cfg = .ok name) :
    shownName sln cfg = name := by
  rw [shownName, h]

theorem Testable.exists_name {shell : Shell variableName} (h : Testable shell sln project cs) :
    ∀ cfg ∈ cs, ∃ name, getconfigname sln cfg = .ok name := fun cfg hcfg =>
  (h cfg hcfg).imp fun _ hname => hname.1

theorem Testable.literal {shell : Shell variableName} (h : Testable shell sln project cs)
    {cfg : BakedConfig} (hcfg : cfg ∈ cs)
    (hlong : (step.commands project).length < (step.commands cfg).length) :
    '\\' ∉ shownName sln cfg ∧ shell.Literal (shownName sln cfg) := by
  obtain ⟨name, hname, hliteral⟩ := h cfg hcfg
  rw [shownName_of_ok hname]
  exact hliteral step hlong

theorem mem_scriptItems {item : Item} (h : item ∈ scriptItems sln project cs step f) :
    (∃ text ∈ step.commands project, item = .command (f text)) ∨
      ∃ cfg ∈ cs, (step.commands project).length < (step.commands cfg).length ∧
        item = .block (shownName sln cfg)
          (((step.commands cfg).drop (step.commands project).length).map f) := by
  rcases List.mem_append.mp h with h | h
  · obtain ⟨text, htext, rfl⟩ := List.mem_map.mp h
    exact .inl ⟨text, htext, rfl⟩
  · obtain ⟨cfg, hcfg, h⟩ := List.mem_flatMap.mp h
    split at h
    · rename_i hlong
      exact .inr ⟨cfg, hcfg, hlong, List.mem_singleton.mp h⟩
    · cases h

theorem ran_scriptItems (config : Str) :
    (scriptItems sln project cs step f).flatMap (Item.ran config) =
      (step.commands project).map f ++ cs.flatMap
        (leftOver step.commands (shownName sln) (step.commands project).length f config) := by
  rw [scriptItems, List.flatMap_append, List.flatMap_map, List.flatMap_assoc]
  congr 1
  · exact List.map_eq_flatMap.symm
  · apply List.flatMap_congr
    intro cfg _
    rw [leftOver]
    split <;> simp_all [Item.ran]

theorem testLine_eq (name : Str) : "if [ \"$\x7bCONFIGURATION\x7d\" = \"".toList ++ name ++
    "\" ]; then".toList = testLine variableName name := by
  have h : "if [ \"$\x7bCONFIGURATION\x7d\" = \"".toList = testStart variableName := by decide
  rw [h, List.append_assoc]
  rfl

theorem doblock_eq (hnames : ∀ cfg ∈ cs, ∃ name, getconfigname sln cfg = .ok name) :
    doblock sln project cs step = .ok (phaseOf sln project cs step) := by
  have hinserted : cs.mapM (configCommands sln step (step.commands project)) =
      .ok (cs.map fun cfg => if (step.commands project).length < (step.commands cfg).length then
        testLine variableName (shownName sln cfg) ::
          ((step.commands cfg).drop (step.commands project).length ++ [endLine]) else []) := by
    apply mapM_of_forall
    intro cfg hcfg
    obtain ⟨name, hname⟩ := hnames cfg hcfg
    rw [configCommands, shownName_of_ok hname, hname, ← testLine_eq]
    split <;> rfl
  have hlines : scriptLines sln project cs step id = step.commands project ++
      (cs.map fun cfg => if (step.commands project).length < (step.commands cfg).length then
        testLine variableName (shownName sln cfg) ::
          ((step.commands cfg).drop (step.commands project).length ++ [endLine])
            else []).flatten := by
    rw [scriptLines, scriptItems, List.flatMap_append, List.flatMap_map, List.flatMap_assoc,
      ← List.flatMap_def]
    congr 1
    · exact List.flatMap_singleton' _
    · apply List.flatMap_congr
      intro cfg _
      split <;> simp [Item.lines]
  rw [doblock, hinserted, phaseOf, hlines]
  rfl

theorem scriptPhases_eq (hnames : ∀ cfg ∈ cs, ∃ name, getconfigname sln cfg = .ok name) :
    scriptPhases sln project cs =
      .ok (BuildStep.all.filterMap (phaseOf sln project cs)) := by
  rw [scriptPhases, mapM_of_forall fun step _ => doblock_eq hnames]
  exact congrArg Except.ok (List.filterMap_map)

theorem any_phaseOf (other : BuildStep) :
    (phaseOf sln project cs other).any (fun phase => phase.step = step) = true ↔
      other = step ∧ scriptLines sln project cs other id ≠ [] := by
  rw [phaseOf]
  split
  · rename_i hnil
    simp [hnil]
  · rename_i hnil
    simp [hnil]

/-- In the place of a phase that is not written there is nothing to run. -/
theorem scriptText_eq (step : BuildStep) :
    scriptText (BuildStep.all.filterMap (phaseOf sln project cs)) step =
      escapeQuotes (['\\', 'n'].intercalate (scriptLines sln project cs step id)) := by
  rw [scriptText, List.find?_filterMap]
  by_cases hnil : scriptLines sln project cs step id = []
  · rw [List.find?_eq_none.mpr, hnil]
    · rfl
    · intro other _ hother
      obtain ⟨rfl, hne⟩ := (any_phaseOf other).mp hother
      exact hne hnil
  · have hsome : (BuildStep.all.find? fun other =>
        (phaseOf sln project cs other).any fun phase => phase.step = step).isSome := by
      rw [List.find?_isSome]
      exact ⟨step, step.mem_all, (any_phaseOf step).mpr ⟨rfl, hnil⟩⟩
    obtain ⟨other, hother⟩ := Option.isSome_iff_exists.mp hsome
    have hstep := List.find?_some hother
    obtain ⟨rfl, -⟩ := (any_phaseOf other).mp hstep
    rw [hother, Option.bind_some, phaseOf, if_neg hnil]
    rfl

theorem backslash_notMem_testLine {value : Str} (h : '\\' ∉ value) :
    '\\' ∉ testLine variableName value :=
  Shell.notMem_testLine (by decide) (by decide) h

/-- The commands are read back one by one, and the tests as they are written. -/
theorem map_asRead_scriptLines (hnames : ∀ cfg ∈ cs,
    (step.commands project).length < (step.commands cfg).length → '\\' ∉ shownName sln cfg) :
    (scriptLines sln project cs step id).map asRead = scriptLines sln project cs step asRead := by
  have hasRead : ∀ line, '\\' ∉ line → asRead line = line := fun line h =>
    asRead_of_readBack (readBack_of_notMem h)
  rw [scriptLines, scriptLines, List.map_flatMap, scriptItems, scriptItems, List.flatMap_append,
    List.flatMap_append, List.flatMap_map, List.flatMap_map, List.flatMap_assoc,
    List.flatMap_assoc]
  congr 1
  apply List.flatMap_congr
  intro cfg hcfg
  split
  · rename_i hlong
    have htest : asRead (testLine variableName (shownName sln cfg)) =
        testLine variableName (shownName sln cfg) := by
      exact hasRead _ (backslash_notMem_testLine (hnames cfg hcfg hlong))
    have hend : asRead endLine = endLine := hasRead _ (by decide)
    simp [Item.lines, htest, hend]
  · rfl

theorem unquote_scriptLines (hnames : ∀ cfg ∈ cs,
    (step.commands project).length < (step.commands cfg).length → '\\' ∉ shownName sln cfg)
    (hcommands : ∀ cfg ∈ project :: cs, ∀ text ∈ step.commands cfg, ∃ t, readBack text = some t) :
    unquote (escapeQuotes (['\\', 'n'].intercalate (scriptLines sln project cs step id))) =
      some (concat '\n' (scriptLines sln project cs step asRead)) := by
  rw [← map_asRead_scriptLines hnames]
  apply readBack_intercalate
  intro line hline
  obtain ⟨item, hitem, hline⟩ := List.mem_flatMap.mp hline
  rcases mem_scriptItems hitem with ⟨text, htext, rfl⟩ | ⟨cfg, hcfg, hlong, rfl⟩
  · rw [List.mem_singleton.mp hline]
    exact hcommands project List.mem_cons_self text htext
  · rcases List.mem_cons.mp hline with rfl | hline
    · exact ⟨_, readBack_of_notMem (backslash_notMem_testLine (hnames cfg hcfg hlong))⟩
    · rcases List.mem_append.mp hline with hline | hline
      · rw [List.map_id] at hline
        exact hcommands cfg (List.mem_cons_of_mem _ hcfg) line (List.mem_of_mem_drop hline)
      · rw [List.mem_singleton.mp hline]
        exact ⟨_, readBack_of_notMem (by decide)⟩

/-- The script of a step is run by any shell that reads its tests and commands as they are
written. -/
theorem run_scriptLines {shell : Shell variableName} (h : Testable shell sln project cs)
    (hrunnable : Runnable shell project cs) (config : Str) :
    shell.run config (concat '\n' (scriptLines sln project cs step asRead)) =
      (step.commands project).map asRead ++ cs.flatMap
        (leftOver step.commands (shownName sln) (step.commands project).length asRead config) := by
  rw [scriptLines, shell.run_script, ran_scriptItems]
  have hcomplete : ∀ cfg ∈ project :: cs, ∀ text ∈ step.commands cfg,
      shell.Complete (asRead text) := by
    intro cfg hcfg text htext
    obtain ⟨t, ht, hcomplete⟩ := hrunnable step cfg hcfg text htext
    exact asRead_of_readBack ht ▸ hcomplete
  intro item hitem
  rcases mem_scriptItems hitem with ⟨text, htext, rfl⟩ | ⟨cfg, hcfg, hlong, rfl⟩
  · refine ⟨trivial, fun t ht => ?_⟩
    rw [List.mem_singleton.mp ht]
    exact hcomplete project List.mem_cons_self text htext
  · refine ⟨⟨(h.literal hcfg hlong).2, fun hnil => ?_⟩, fun t ht => ?_⟩
    · have hlength := congrArg List.length hnil
      rw [List.length_map, List.length_drop, List.length_nil] at hlength
      omega
    · obtain ⟨text, htext, rfl⟩ := List.mem_map.mp ht
      exact hcomplete cfg (List.mem_cons_of_mem _ hcfg) text (List.mem_of_mem_drop htext)

end Items

section Result

variable {shell : Shell variableName} {sln : Workspace} {prj : BakedProject}
  {project : BakedConfig} {cs : List BakedConfig}

/-- The scripts that can be tested and run do so for the commands of every configuration
exactly when these continue those of the project. -/
theorem runsCommands_iff_of_testable (hproject : prj.root = some project)
    (hcs : configs sln prj = .ok cs) (h : Testable shell sln project cs)
    (hrunnable : Runnable shell project cs) :
    RunsCommands shell sln prj ↔ ∀ step, ∀ cfg ∈ cs, Continues sln project cs step cfg := by
  have hphases : scriptPhases sln project cs = .ok _ := scriptPhases_eq h.exists_name
  have hunquote : ∀ step, unquote (scriptText
      (BuildStep.all.filterMap (phaseOf sln project cs)) step) =
        some (concat '\n' (scriptLines sln project cs step asRead)) := by
    intro step
    rw [scriptText_eq]
    exact unquote_scriptLines (fun cfg hcfg hlong => (h.literal hcfg hlong).1)
      fun cfg hcfg text htext => (hrunnable step cfg hcfg text htext).imp fun _ ht => ht.1
  have hiff : (∀ step : BuildStep, ∀ cfg ∈ cs, shell.run (shownName sln cfg)
      (concat '\n' (scriptLines sln project cs step asRead)) = step.commands cfg) ↔
        ∀ step, ∀ cfg ∈ cs, Continues sln project cs step cfg := by
    refine forall_congr' fun step => ?_
    simp only [run_scriptLines h hrunnable]
    rw [leftOver_iff]
    refine forall₂_congr fun cfg hcfg => and_congr_right fun _ => imp_congr_right fun _ =>
      and_congr_left fun _ => ?_
    refine forall₂_congr fun text htext => ?_
    apply asRead_eq_self_iff
    exact (hrunnable step cfg (List.mem_cons_of_mem _ hcfg) text
      (List.mem_of_mem_drop htext)).imp fun _ ht => ht.1
  rw [← hiff]
  constructor
  · rintro ⟨root, cs', phases, hroot, hcs', hphases', hrun⟩ step cfg hcfg
    obtain rfl := Option.some.inj (hproject.symm.trans hroot)
    obtain rfl := Except.ok.inj (hcs.symm.trans hcs')
    obtain rfl := Except.ok.inj (hphases.symm.trans hphases')
    obtain ⟨name, script, hname, hscript, hcommands, -⟩ := hrun cfg hcfg step
    obtain rfl := Option.some.inj ((hunquote step).symm.trans hscript)
    rw [shownName_of_ok hname]
    exact hcommands
  · intro hrun
    refine ⟨project, cs, _, hproject, hcs, hphases, fun cfg hcfg step => ?_⟩
    obtain ⟨name, hname⟩ := h.exists_name cfg hcfg
    have hcommands := hrun step cfg hcfg
    rw [shownName_of_ok hname] at hcommands
    exact ⟨name, _, hname, hunquote step, hcommands, by rw [hcommands]⟩

/-- The scripts run the commands of every configuration when they can be tested and run, and
the commands of the configurations continue those of the project. Of scripts that can be
tested and run no others do. -/
theorem runsCommands_iff (hproject : prj.root = some project) (hcs : configs sln prj = .ok cs) :
    (Testable shell sln project cs ∧ Runnable shell project cs ∧
        (∀ step, ∀ cfg ∈ cs, Continues sln project cs step cfg) → RunsCommands shell sln prj) ∧
      (Testable shell sln project cs → Runnable shell project cs → RunsCommands shell sln prj →
        ∀ step, ∀ cfg ∈ cs, Continues sln project cs step cfg) :=
  ⟨fun h => (runsCommands_iff_of_testable hproject hcs h.1 h.2.1).mpr h.2.2,
    fun h hrunnable => (runsCommands_iff_of_testable hproject hcs h hrunnable).mp⟩

end Result

section Example

/-- A bake for `xcode3`. -/
def xcode3 : Env :=
  { Env.gmake with
    action := "xcode3".toList
    os := "macosx".toList
    current := ⟨some "macosx".toList, some ["gcc".toList]⟩ }

def commandBlocks (words words' : List String) (text text' : Str) : List Block :=
  [(configuration 1 words).set .prebuildcommands ⟨[text], [text]⟩,
    (configuration 2 words').set .prebuildcommands ⟨[text'], [text']⟩]

theorem nodup_commandBlocks (words words' : List String) (text text' : Str) :
    ((commandBlocks words words' text text').map Block.addr).Nodup := by
  simp [commandBlocks, configuration, Block.set]

/-- A session with a project that adds two commands, for the configurations `Debug` and
`Release`. -/
def commandSession (words words' : List String) (text text' : Str) : List Solution :=
  [{ obj := Container.ofBlock ((Fields.empty.set .configurations
       ⟨["Debug".toList, "Release".toList], []⟩).set .basedir "/home".toList) (configuration 0 [])
     projects := [{
       name := "App".toList
       usage := false
       obj := {
         fields := (Fields.empty.set .language "C++".toList).set .basedir "/home".toList
         blocks := commandBlocks words words' text text'
         distinct := nodup_commandBlocks words words' text text' } }] }]

def commandHeap (session : List Solution) : Heap :=
  initialHeap (session.flatMap fun sln => sln.obj.blocks ++ sln.projects.flatMap (·.obj.blocks))

theorem newline_notMem_variableName : '\n' ∉ variableName := by decide

/-- A command for `Debug` behind one for all configurations is run. -/
theorem runsCommands_behind : ∃ b prj,
    buildconfigs xcode3 (commandSession [] ["Debug"] "ls src".toList "cp \"a\" b".toList)
      (commandHeap (commandSession [] ["Debug"] "ls src".toList "cp \"a\" b".toList)) = .ok [b] ∧
    b.projects = [prj] ∧
    RunsCommands (Shell.lineByLine variableName newline_notMem_variableName) ⟨b, "App".toList⟩
      prj := by
  obtain ⟨b, prj, project, cs, hbake, hprj, hproject, hcs, hnames, hcommands, hcontinues⟩ :
      ∃ b prj project cs, buildconfigs xcode3
        (commandSession [] ["Debug"] "ls src".toList "cp \"a\" b".toList)
        (commandHeap (commandSession [] ["Debug"] "ls src".toList "cp \"a\" b".toList)) = .ok [b] ∧
      b.projects = [prj] ∧ prj.root = some project ∧ configs ⟨b, "App".toList⟩ prj = .ok cs ∧
      (∀ cfg ∈ cs, getconfigname ⟨b, "App".toList⟩ cfg = .ok (shownName ⟨b, "App".toList⟩ cfg) ∧
        PlainValue (shownName ⟨b, "App".toList⟩ cfg)) ∧
      (∀ step ∈ BuildStep.all, ∀ cfg ∈ project :: cs, ∀ text ∈ step.commands cfg,
        readBack text = some text ∧ Shell.IsCommandLine variableName text) ∧
      ∀ step ∈ BuildStep.all, ∀ cfg ∈ cs, Continues ⟨b, "App".toList⟩ project cs step cfg :=
    ⟨_, _, _, _, rfl, rfl, rfl, rfl, by decide +kernel, by decide +kernel, by decide +kernel⟩
  refine ⟨b, prj, hbake, hprj, (runsCommands_iff hproject hcs).1 ⟨fun cfg hcfg => ?_, ?_, ?_⟩⟩
  · obtain ⟨hname, hplain⟩ := hnames cfg hcfg
    exact ⟨_, hname, fun _ _ => ⟨fun hmem => hplain _ hmem (by decide),
      Shell.literal_of_plainValue _ _ hplain⟩⟩
  · exact fun step cfg hcfg text htext =>
      ⟨text, hcommands step (BuildStep.mem_all step) cfg hcfg text htext⟩
  · exact fun step cfg hcfg => hcontinues step (BuildStep.mem_all step) cfg hcfg

/-- A command for `Debug` in front of one for all configurations is not run. -/
theorem not_runsCommands_in_front : ∃ b prj,
    buildconfigs xcode3 (commandSession ["Debug"] [] "cp a b".toList "ls src".toList)
      (commandHeap (commandSession ["Debug"] [] "cp a b".toList "ls src".toList)) = .ok [b] ∧
    b.projects = [prj] ∧
    ¬ RunsCommands (Shell.lineByLine variableName newline_notMem_variableName) ⟨b, "App".toList⟩
      prj := by
  obtain ⟨b, prj, project, cs, phases, cfg, hbake, hprj, hproject, hcs, hphases, hcfg, hrun⟩ :
      ∃ b prj project cs phases cfg, buildconfigs xcode3
        (commandSession ["Debug"] [] "cp a b".toList "ls src".toList)
        (commandHeap (commandSession ["Debug"] [] "cp a b".toList "ls src".toList)) = .ok [b] ∧
      b.projects = [prj] ∧ prj.root = some project ∧ configs ⟨b, "App".toList⟩ prj = .ok cs ∧
      scriptPhases ⟨b, "App".toList⟩ project cs = .ok phases ∧ cs.head? = some cfg ∧
      ∃ name script, getconfigname ⟨b, "App".toList⟩ cfg = .ok name ∧
        unquote (scriptText phases .prebuild) = some script ∧
        (Shell.lineByLine variableName newline_notMem_variableName).run name script ≠
          BuildStep.prebuild.commands cfg :=
    ⟨_, _, _, _, _, _, rfl, rfl, rfl, rfl, rfl, rfl, _, _, rfl, rfl, by decide +kernel⟩
  refine ⟨b, prj, hbake, hprj, ?_⟩
  rintro ⟨project', cs', phases', hproject', hcs', hphases', h⟩
  obtain rfl := Option.some.inj (hproject.symm.trans hproject')
  obtain rfl := Except.ok.inj (hcs.symm.trans hcs')
  obtain rfl := Except.ok.inj (hphases.symm.trans hphases')
  obtain ⟨name, script, hname, hscript, hne⟩ := hrun
  obtain ⟨name', script', hname', hscript', heq, -⟩ := h cfg (List.mem_of_mem_head? hcfg) .prebuild
  obtain rfl := Except.ok.inj (hname.symm.trans hname')
  obtain rfl := Option.some.inj (hscript.symm.trans hscript')
  exact hne heq

end Example

end Xcode

end Puremake
