import Puremake.Action.Harmless
import Puremake.Bake.Longnames
import Puremake.Ide.Codelite
import Puremake.Make.Selection

/-!
# Workspaces for CodeLite

A workspace lists its projects, and a matrix says for every configuration of the workspace which
configuration of each project belongs to it. The matrix names them, and it is made without looking
at the projects: so what a name of the matrix stands for is found in the file of the project.

The names are the long names with a `_` in place of the bar. A name of the matrix stands for the
configuration that it was made for exactly when this configuration is not hidden by another one
with the same key, and no other one has the name.
-/

namespace Puremake

namespace Ide

namespace Codelite

/-- The path of a project as the workspace has it, without an extension. -/
def projectPath (cwd : Str) (sln : Workspace) (prj : BakedProject) : Str :=
  Path.join [some (Path.getrelative cwd sln.location prj.location), some prj.name]

def matrixName (cp : Str × Str) : Str := unbar (longname cp)

/-- The configurations of a workspace: for each platform, all that are listed. -/
def matrixPairs (tool : Tool) (sln : Workspace) : List (Str × Str) :=
  (nativePlatforms tool sln).flatMap fun platform => sln.configurations.map fun c => (c, platform)

def projectLine (cwd : Str) (sln : Workspace) (prj : BakedProject × ℕ) : Line :=
  spaced 0 2 (single "Project" [("Name", Xml.escText prj.1.name),
    ("Path", projectPath cwd sln prj.1 ++ ".project".toList),
    ("Active", (if prj.2 = 0 then "Yes" else "No").toList)] true)

def matrixLines (sln : Workspace) (cp : Str × Str) : List Line :=
  spaced 0 4 (opening "WorkspaceConfiguration" [("Name", matrixName cp),
    ("Selected", "yes".toList)]) ::
  (sln.projects.map (fun prj => spaced 0 6 (single "Project" [("Name", prj.name),
      ("ConfigName", matrixName cp)] false)) ++
  [spaced 0 4 (closing "WorkspaceConfiguration")])

def workspaceLines (cwd : Str) (tool : Tool) (sln : Workspace) : List Line :=
  .text 0 "<?xml version=\"1.0\" encoding=\"utf-8\"?>".toList ::
  spaced 0 0 (opening "CodeLite_Workspace" [("Name", Xml.escText sln.name),
    ("Database", "./".toList ++ Xml.escText sln.name ++ ".tags".toList)]) ::
  (sln.projects.zipIdx.map (projectLine cwd sln) ++
    spaced 0 2 (opening "BuildMatrix" []) ::
    ((matrixPairs tool sln).flatMap (matrixLines sln) ++ [spaced 0 2 (closing "BuildMatrix")]) ++
  [spaced 0 0 (closing "CodeLite_Workspace")])

def workspace (env : Env) (sln : Workspace) : Except BakeError (List Line) := do
  let cc ← need (env.options.lookup "cc".toList)
  let tool ← need (Tool.named cc)
  return workspaceLines env.cwd tool sln

def projectElement (cwd : Str) (sln : Workspace) (prj : BakedProject × ℕ) : Xml.Content :=
  element "Project" [("Name", prj.1.name),
    ("Path", projectPath cwd sln prj.1 ++ ".project".toList),
    ("Active", (if prj.2 = 0 then "Yes" else "No").toList)] []

def matrixElement (sln : Workspace) (cp : Str × Str) : Xml.Content :=
  element "WorkspaceConfiguration" [("Name", matrixName cp), ("Selected", "yes".toList)]
    (sln.projects.map fun prj =>
      element "Project" [("Name", prj.name), ("ConfigName", matrixName cp)] [])

def workspaceDocument (cwd : Str) (tool : Tool) (sln : Workspace) : Xml.Content :=
  element "CodeLite_Workspace" [("Name", sln.name),
      ("Database", "./".toList ++ sln.name ++ ".tags".toList)]
    (sln.projects.zipIdx.map (projectElement cwd sln) ++
      [element "BuildMatrix" [] ((matrixPairs tool sln).map (matrixElement sln))])

/-- What a workspace writes as it is has no character that means something. -/
structure PlainWorkspace (cwd : Str) (sln : Workspace) : Prop where
  paths : ∀ prj ∈ sln.projects, Xml.Literal (projectPath cwd sln prj)
  names : ∀ prj ∈ sln.projects, Xml.Literal prj.name
  configurations : ∀ c ∈ sln.configurations, Xml.Literal c

section Reads

variable {lay : Layout} {cwd cc : Str} {tool : Tool} {sln : Workspace} {env : Env}

theorem tool_of_named (htool : Tool.named cc = some tool) : tool = Gcc.tool ∨ tool = Ow.tool := by
  have hmem := mem_of_lookup htool
  simp only [List.mem_cons, Prod.mk.injEq, List.not_mem_nil, or_false] at hmem
  exact hmem.imp And.right And.right

theorem platformKey_of_tool (htool : Tool.named cc = some tool) :
    (tool.platforms.lookup native).isSome ∧
      ∀ p ∈ tool.platforms.map Prod.fst, p ∈ platformKeys ∧ Xml.Literal p := by
  rcases tool_of_named htool with rfl | rfl <;> exact ⟨by decide, by decide⟩

/-- The platforms that a workspace has configurations for are among those of the solution, they are
different, and none of them needs escaping. -/
theorem nativePlatforms_spec (htool : Tool.named cc = some tool) (sln : Workspace) :
    (nativePlatforms tool sln).Nodup ∧ ∀ p ∈ nativePlatforms tool sln,
      p ∈ pltnames sln.obj.platformnames ∧ p ∈ platformKeys ∧ Xml.Literal p := by
  obtain ⟨hnative, hkeys⟩ := platformKey_of_tool htool
  obtain ⟨-, hmem, hsome, hnodup⟩ :=
    filterplatforms_spec tool.platforms sln.obj.platformnames native hnative
  refine ⟨(List.Nodup.of_map _ hnodup).filter _, fun p hp => ?_⟩
  have hp := List.mem_of_mem_filter hp
  obtain ⟨v, hv⟩ := Option.isSome_iff_exists.mp (hsome p hp)
  refine ⟨?_, hkeys p (List.mem_map.mpr ⟨_, mem_of_lookup hv, rfl⟩)⟩
  rw [mem_pltnames]
  by_cases heq : p = native
  · exact .inl heq
  · exact .inr ⟨(hmem p hp).resolve_right heq, heq⟩

theorem mem_matrixPairs {cp : Str × Str} : cp ∈ matrixPairs tool sln ↔
    cp.1 ∈ sln.configurations ∧ cp.2 ∈ nativePlatforms tool sln := Make.mem_blockPairs

theorem nodup_matrixPairs (htool : Tool.named cc = some tool) (hnodup : sln.configurations.Nodup) :
    (matrixPairs tool sln).Nodup :=
  Make.nodup_blockPairs hnodup (nativePlatforms_spec htool sln).1

theorem literal_matrixName (h : PlainWorkspace cwd sln) (htool : Tool.named cc = some tool)
    {cp : Str × Str} (hcp : cp ∈ matrixPairs tool sln) : Xml.Literal (matrixName cp) := by
  obtain ⟨hc, hp⟩ := mem_matrixPairs.mp hcp
  refine literal_unbar.mpr (literal_append.mpr ⟨h.configurations _ hc, ?_⟩)
  rw [longSuffix]
  split
  · exact Xml.literal_cons.mpr ⟨by decide, ((nativePlatforms_spec htool sln).2 _ hp).2.2⟩
  · decide

theorem reads_projectLine (h : PlainWorkspace cwd sln) {prj : BakedProject × ℕ}
    (hprj : prj.1 ∈ sln.projects) :
    Reads lay [projectLine cwd sln prj] [projectElement cwd sln prj] := by
  refine reads_single (by decide) ⟨?_, ?_⟩ true
  · simp only [attrs, List.map_cons, List.map_nil]
    decide
  · have hpath := Xml.attrValue_append (attrValue_literal (h.paths prj.1 hprj))
      (attrValue_literal (s := ".project".toList) (by decide))
    have hactive : Xml.Literal (if prj.2 = 0 then "Yes" else "No").toList := by
      split <;> decide
    simp only [attrs, List.map_cons, List.map_nil, List.forall₂_cons, List.forall₂_nil_left_iff,
      true_and, and_true]
    exact ⟨Xml.attrValue_escText _, hpath, attrValue_literal hactive⟩

theorem reads_matrix (h : PlainWorkspace cwd sln) (htool : Tool.named cc = some tool)
    {cp : Str × Str} (hcp : cp ∈ matrixPairs tool sln) :
    Reads lay (matrixLines sln cp) [matrixElement sln cp] := by
  have hname := attrValue_literal (literal_matrixName h htool hcp)
  refine reads_element (by decide) ⟨?_, ?_⟩ (reads_map fun prj hprj =>
    reads_single (by decide) ⟨?_, ?_⟩ false)
  · simp only [attrs, List.map_cons, List.map_nil]
    decide
  · have hyes := attrValue_literal (s := "yes".toList) (by decide)
    simp only [attrs, List.map_cons, List.map_nil, List.forall₂_cons, List.forall₂_nil_left_iff,
      true_and, and_true]
    exact ⟨hname, hyes⟩
  · simp only [attrs, List.map_cons, List.map_nil]
    decide
  · simp [attrs, hname, attrValue_literal (h.names prj hprj)]

/-- A workspace is always written when a tool is chosen, and it is read as the workspace when what
is not escaped has no character that means something. -/
theorem exists_read_workspace (hcc : env.options.lookup "cc".toList = some cc)
    (htool : Tool.named cc = some tool) (h : PlainWorkspace env.cwd sln) :
    ∃ lines, workspace env sln = .ok lines ∧
      Xml.read (layout.print lines) = some (workspaceDocument env.cwd tool sln) := by
  have hrun : workspace env sln = .ok (workspaceLines env.cwd tool sln) := by
    simp only [workspace, hcc, htool, need, bind, Except.bind]
    rfl
  refine ⟨_, hrun, Xml.read_of_brings ?_⟩
  have hdecl : Reads layout [.text 0 "<?xml version=\"1.0\" encoding=\"utf-8\"?>".toList] [] :=
    @reads_spaced layout [] 0 0 _
      (Xml.brings_instruction (s := "xml version=\"1.0\" encoding=\"utf-8\"".toList) (by decide))
  have hprojects := @reads_map layout _ sln.projects.zipIdx (projectLine env.cwd sln)
    (projectElement env.cwd sln) fun prj hprj =>
      reads_projectLine h (List.fst_mem_of_mem_zipIdx hprj)
  have hmatrix : Reads layout ((matrixPairs tool sln).flatMap (matrixLines sln))
      ((matrixPairs tool sln).map (matrixElement sln)) := by
    rw [List.map_eq_flatMap]
    exact reads_flatMap fun cp hcp => reads_matrix h htool hcp
  have hbuild := @reads_element layout _ _ "BuildMatrix" _ _ 0 2 0 2 (by decide) spells_nil hmatrix
  refine hdecl.append (@reads_element layout _ _ "CodeLite_Workspace" _ _ 0 0 0 0 (by decide)
    ⟨?_, ?_⟩ (hprojects.append hbuild))
  · simp only [attrs, List.map_cons, List.map_nil]
    decide
  · have hdatabase := Xml.attrValue_append (Xml.attrValue_append
      (attrValue_literal (s := "./".toList) (by decide)) (Xml.attrValue_escText sln.name))
      (attrValue_literal (s := ".tags".toList) (by decide))
    simp only [attrs, List.map_cons, List.map_nil, List.forall₂_cons, List.forall₂_nil_left_iff,
      true_and, and_true]
    exact ⟨Xml.attrValue_escText _, hdatabase⟩

/-- A workspace with an ampersand in its name, two projects, two configurations and a platform. -/
def pairSession : List Workspace :=
  [{ name := "A&B".toList
     obj := Container.ofBlock ((Fields.empty.set .configurations
       ⟨["Debug".toList, "Release".toList], []⟩).set .platforms ⟨[native, "x32".toList], []⟩)
       (configuration 0 [])
     basis := []
     projects := [helloProject, { helloProject with name := "tool".toList }] }]

/-- All of it is read, with the name of the workspace as it was entered. -/
theorem exists_read_workspace_pair : ∃ sln lines, sln ∈ pairSession ∧
    workspace codeliteEnv sln = .ok lines ∧
    Xml.read (layout.print lines) = some (workspaceDocument codeliteEnv.cwd Gcc.tool sln) ∧
    sln.name = "A&B".toList ∧ sln.projects.length = 2 ∧
    (matrixPairs Gcc.tool sln).map matrixName = ["Debug".toList, "Release".toList,
      "Debug_x32".toList, "Release_x32".toList] := by
  obtain ⟨sln, hsln, hplain, hname, hprojects, hmatrix⟩ : ∃ sln ∈ pairSession,
      PlainWorkspace codeliteEnv.cwd sln ∧ sln.name = "A&B".toList ∧ sln.projects.length = 2 ∧
      (matrixPairs Gcc.tool sln).map matrixName = ["Debug".toList, "Release".toList,
        "Debug_x32".toList, "Release_x32".toList] :=
    ⟨_, List.mem_cons_self, ⟨by decide, by decide, by decide⟩, rfl, rfl, by decide⟩
  have hcc : codeliteEnv.options.lookup "cc".toList = some "gcc".toList := rfl
  obtain ⟨lines, hlines, hread⟩ := exists_read_workspace hcc rfl hplain
  exact ⟨sln, lines, hsln, hlines, hread, hname, hprojects, hmatrix⟩

end Reads

/-- The elements for configurations with a name in the file of a project. -/
def configurationsNamed (d : Xml.Content) (name : Str) : List Xml.Content :=
  ((d.named "Settings".toList).flatMap fun settings =>
    settings.named "Configuration".toList).filter fun c =>
      c.attribute "Name".toList = some name

section Elements

variable {name type : Str} {f : Tree.Forest Project.SourceData} {t : Grove ℕ} {as : List Answers}
  {deps : List Str}

theorem isNamed_element (key name : String) (l : List (String × Str)) (cs : List Xml.Content) :
    (element name l cs).isNamed key.toList = decide (name.toList = key.toList) := rfl

theorem settings_sourceTree (f : Tree.Forest Project.SourceData) (t : Grove ℕ) :
    (sourceTree f t).filter (Xml.Content.isNamed "Settings".toList) = [] := by
  induction t with
  | nil => rfl
  | cons n below next ihb ihn =>
      rw [sourceTree, List.filter_cons, ihn, if_neg]
      split <;> rw [isNamed_element] <;> decide

theorem attribute_configElement (a : Answers) :
    (configElement a).attribute "Name".toList = some (unbar a.longname) := by
  simp [configElement, element, attrs, Xml.Content.attribute]

/-- The elements for configurations in the file of a project are those of the answers. -/
theorem configurationsNamed_document (n : Str) :
    configurationsNamed (document name type (sourceTree f t) as deps) n =
      (as.filter fun a => unbar a.longname = n).map configElement := by
  have hdeps : (as.map (dependencies deps)).filter (Xml.Content.isNamed "Settings".toList) =
      [] := by
    refine List.filter_eq_nil_iff.mpr fun c hc => ?_
    obtain ⟨a, -, rfl⟩ := List.mem_map.mp hc
    rw [dependencies, isNamed_element]
    decide
  have hsettings : (document name type (sourceTree f t) as deps).named "Settings".toList =
      [element "Settings" [("Type", type)] (as.map configElement)] := by
    rw [document, element, Xml.Content.named, List.filter_append, List.filter_append,
      settings_sourceTree, hdeps, List.append_nil, List.nil_append]
    exact List.filter_cons_of_pos (by rw [isNamed_element]; decide)
  have hall : (as.map configElement).filter (Xml.Content.isNamed "Configuration".toList) =
      as.map configElement := by
    refine List.filter_eq_self.mpr fun c hc => ?_
    obtain ⟨a, -, rfl⟩ := List.mem_map.mp hc
    rw [configElement, isNamed_element]
    decide
  rw [configurationsNamed, hsettings, List.flatMap_cons, List.flatMap_nil, List.append_nil, element,
    Xml.Content.named, hall, List.filter_map]
  congr 1
  refine List.filter_congr fun a _ => ?_
  rw [Function.comp_apply, attribute_configElement]
  exact decide_eq_decide.mpr Option.some_inj

end Elements

section Keeps

variable {env : Env} {id : ConfigId} {session session' : List Workspace}

/-- The configurations of a session, but for the roots, are called as in another one. -/
def KeepsNames (session session' : List Workspace) : Prop :=
  ∀ (id : ConfigId) prj' cfg', id.key ≠ [] → id.get? session' = some (prj', cfg') →
    ∃ prj cfg, id.get? session = some (prj, cfg) ∧ SameNames cfg cfg'

theorem SameNames.refl (cfg : BakedConfig) : SameNames cfg cfg := ⟨rfl, rfl, rfl, rfl, rfl⟩

theorem KeepsNames.refl (session : List Workspace) : KeepsNames session session :=
  fun _ prj' cfg' _ h => ⟨prj', cfg', h, SameNames.refl cfg'⟩

theorem KeepsNames.trans {session₁ session₂ session₃ : List Workspace}
    (h : KeepsNames session₁ session₂) (h' : KeepsNames session₂ session₃) :
    KeepsNames session₁ session₃ := by
  intro id prj₃ cfg₃ hkey h₃
  obtain ⟨prj₂, cfg₂, h₂, hsame₂⟩ := h' id prj₃ cfg₃ hkey h₃
  obtain ⟨prj₁, cfg₁, h₁, hsame₁⟩ := h id prj₂ cfg₂ hkey h₂
  exact ⟨prj₁, cfg₁, h₁, hsame₁.trans hsame₂⟩

/-- A configuration is put in place of one that is called the same. -/
theorem keepsNames_put {prj : BakedProject} {cfg cfg₁ : BakedConfig}
    (h : id.get? session = some (prj, cfg)) (hsame : SameNames cfg cfg₁) :
    KeepsNames session (id.put cfg₁ session) := by
  intro id' prj' cfg' _ h'
  obtain ⟨sln', hsln', hprj', hcfg'⟩ := Links.get?_eq_some.mp h'
  rw [ConfigId.put, List.getElem?_modify] at hsln'
  obtain ⟨sln, hsln, rfl⟩ := Option.map_eq_some_iff.mp hsln'
  -- Away from the place, what is found is what was there.
  have hfound : ∀ prj₀, sln.projects[id'.prj]? = some prj₀ →
      prj₀.configs.lookup id'.key = some cfg' →
      ∃ prj cfg, id'.get? session = some (prj, cfg) ∧ SameNames cfg cfg' := fun prj₀ hprj₀ hcfg₀ =>
    ⟨prj₀, cfg', Links.get?_eq_some.mpr ⟨sln, hsln, hprj₀, hcfg₀⟩, SameNames.refl cfg'⟩
  split at hprj'
  · rename_i hs
    rw [List.getElem?_modify] at hprj'
    obtain ⟨prj₀, hprj₀, rfl⟩ := Option.map_eq_some_iff.mp hprj'
    split at hcfg'
    · rename_i hp
      by_cases hk : id'.key = id.key
      · have hid : id = id' := by
          cases id
          cases id'
          exact congr (congrArg₂ ConfigId.mk hs hp) hk.symm
        rw [hk, lookup_assign_self] at hcfg'
        obtain rfl := Option.some.inj hcfg'
        exact ⟨prj, cfg, hid ▸ h, hsame⟩
      · rw [lookup_assign_of_ne hk] at hcfg'
        exact hfound prj₀ hprj₀ hcfg'
    · exact hfound prj₀ hprj₀ hcfg'
  · exact hfound prj' hprj' hcfg'

theorem keepsNames_keep {prj : BakedProject} {cfg : BakedConfig}
    (h : id.get? session = some (prj, cfg)) (result : Option Links.Table) :
    KeepsNames session (Links.keep id cfg session result) := by
  cases result with
  | none => exact KeepsNames.refl session
  | some result => exact keepsNames_put h ⟨rfl, rfl, rfl, rfl, rfl⟩

theorem keepsNames_passed (links : List Str) :
    KeepsNames session (links.foldl Links.passProjects session) := by
  intro id prj' cfg' hkey h
  have hsame := Links.get?_of_passed id (F := fun cfg => cfg) (fun h => absurd h hkey)
    (Links.forall₂_foldl_passProjects links session)
  rw [h, Option.map_some, eq_comm, Option.map_eq_some_iff] at hsame
  obtain ⟨⟨prj, cfg⟩, hget, rfl⟩ := hsame
  exact ⟨prj, cfg, hget, SameNames.refl cfg⟩

theorem keepsNames_queryLinks {kind : LinkKind} {part : LinkPart} {r : List Str}
    (h : queryLinks env id kind part session = .ok (r, session')) :
    KeepsNames session session' := by
  obtain ⟨items, -, heq⟩ := FoldRun.map_eq_ok.mp h
  obtain ⟨-, rfl⟩ := Prod.mk.inj heq
  rw [Links.getlinks]
  split
  · exact KeepsNames.refl session
  · rename_i prj cfg hget
    split
    · exact KeepsNames.refl session
    · split
      · exact (keepsNames_keep hget _).trans (keepsNames_passed _)
      · exact keepsNames_passed _

theorem need_eq_ok {α : Type} {x : Option α} {a : α} : need x = .ok a ↔ x = some a := by
  cases x with
  | none =>
      constructor <;> intro h <;> cases h
  | some b =>
      rw [need, Except.ok.injEq, Option.some.injEq]

theorem ask_names {a : Answers} (h : ask env id session = .ok (a, session')) :
    (∃ prj, id.get? session = some (prj, a.cfg)) ∧ a.cfg.longname = some a.longname ∧
      KeepsNames session session' := by
  obtain ⟨⟨prj, cfg⟩, hget, h⟩ := FoldRun.bind_eq_ok.mp h
  obtain ⟨longname, hlongname, h⟩ := FoldRun.bind_eq_ok.mp h
  obtain ⟨type, -, h⟩ := FoldRun.bind_eq_ok.mp h
  obtain ⟨buildtarget, -, h⟩ := FoldRun.bind_eq_ok.mp h
  obtain ⟨objectsdir, -, h⟩ := FoldRun.bind_eq_ok.mp h
  obtain ⟨flags, -, h⟩ := FoldRun.bind_eq_ok.mp h
  obtain ⟨ldflags, -, h⟩ := FoldRun.bind_eq_ok.mp h
  obtain ⟨⟨directories, session₁⟩, h₁, h⟩ := FoldRun.bind_eq_ok.mp h
  obtain ⟨⟨siblings, session₂⟩, h₂, h⟩ := FoldRun.bind_eq_ok.mp h
  obtain ⟨⟨system, session₃⟩, h₃, h⟩ := FoldRun.bind_eq_ok.mp h
  obtain ⟨rfl, rfl⟩ := Prod.mk.inj (Except.ok.inj h)
  exact ⟨⟨prj, need_eq_ok.mp hget⟩, need_eq_ok.mp hlongname,
    ((keepsNames_queryLinks h₁).trans (keepsNames_queryLinks h₂)).trans
      (keepsNames_queryLinks h₃)⟩

theorem askAll_names {ids : List ConfigId} {as : List Answers} (hids : ∀ id ∈ ids, id.key ≠ [])
    (h : askAll env ids session = .ok (as, session')) :
    List.Forall₂ (fun (id : ConfigId) a => ∃ prj cfg, id.get? session = some (prj, cfg) ∧
      SameNames cfg a.cfg ∧ cfg.longname = some a.longname) ids as := by
  induction ids generalizing session as with
  | nil =>
      obtain ⟨rfl, -⟩ := Prod.mk.inj (Except.ok.inj h)
      exact .nil
  | cons id ids ih =>
      obtain ⟨⟨a, session₁⟩, ha, h⟩ := FoldRun.bind_eq_ok.mp h
      obtain ⟨⟨as', session₂⟩, has, h⟩ := FoldRun.bind_eq_ok.mp h
      obtain ⟨rfl, rfl⟩ := Prod.mk.inj (Except.ok.inj h)
      obtain ⟨⟨prj, hget⟩, hlongname, hkeeps⟩ := ask_names ha
      have hids' := List.forall_mem_cons.mp hids
      refine .cons ⟨prj, a.cfg, hget, SameNames.refl a.cfg, hlongname⟩
        (((List.forall₂_and_left (p := fun id => id ∈ ids) _ _).mpr
          ⟨fun _ h => h, ih hids'.2 has⟩).imp ?_)
      rintro id' a' ⟨hid', prj₁, cfg₁, hget₁, hsame₁, hlong₁⟩
      obtain ⟨prj₀, cfg₀, hget₀, hsame₀⟩ := hkeeps id' prj₁ cfg₁ (hids'.2 id' hid') hget₁
      exact ⟨prj₀, cfg₀, hget₀, hsame₀.trans hsame₁, hsame₀.longname.symm.trans hlong₁⟩

end Keeps

section Found

variable {α β : Type*}

/-- Where `o` says what is found in the place of an item, every item is found by its name alone
exactly when it is found in its own place, and no other item has the name. -/
theorem found_iff [DecidableEq β] {l : List α} {o : α → α} {name : α → β} (hl : l.Nodup)
    (ho : ∀ x ∈ l, o x ∈ l → o (o x) = o x) :
    (∀ y ∈ l, ∃ x, l.filter (fun x => name (o x) = name y) = [x] ∧ o x = y) ↔
      (∀ y ∈ l, o y = y) ∧ ∀ x ∈ l, ∀ y ∈ l, name x = name y → x = y := by
  constructor
  · intro h
    have hown : ∀ y ∈ l, o y = y := by
      intro y hy
      obtain ⟨x, hfilter, rfl⟩ := h y hy
      have hx : x ∈ l := List.mem_of_mem_filter (hfilter ▸ List.mem_singleton_self x)
      exact ho x hx hy
    refine ⟨hown, fun x hx y hy heq => ?_⟩
    obtain ⟨z, hfilter, -⟩ := h y hy
    have h₁ := Make.eq_of_filter_eq_singleton hfilter hx (by simp [hown x hx, heq])
    have h₂ := Make.eq_of_filter_eq_singleton hfilter hy (by simp [hown y hy])
    exact h₁.trans h₂.symm
  · rintro ⟨hown, hinj⟩ y hy
    refine ⟨y, Make.filter_eq_singleton hl hy fun x hx => ?_, hown y hy⟩
    rw [hown x hx, decide_eq_true_iff]
    exact ⟨hinj x hx y hy, fun h => by rw [h]⟩

theorem filter_eq_singleton_iff {R : α → β → Prop} {l : List α} {l' : List β} {p : α → Bool}
    {q : β → Bool} {P : α → Prop} {Q : β → Prop} (h : List.Forall₂ R l l')
    (hpq : ∀ a b, R a b → p a = q b) (hPQ : ∀ a b, R a b → (P a ↔ Q b)) :
    (∃ b, l'.filter q = [b] ∧ Q b) ↔ ∃ a, l.filter p = [a] ∧ P a := by
  have hfilter : List.Forall₂ R (l.filter p) (l'.filter q) :=
    List.rel_filter (fun a b hab => iff_of_eq (congrArg (· = true) (hpq a b hab))) h
  constructor
  · rintro ⟨b, hb, hQ⟩
    rw [hb] at hfilter
    obtain ⟨a, as, hab, has, heq⟩ := List.forall₂_cons_right_iff.mp hfilter
    obtain rfl := List.forall₂_nil_right_iff.mp has
    exact ⟨a, heq, (hPQ a b hab).mpr hQ⟩
  · rintro ⟨a, ha, hP⟩
    rw [ha] at hfilter
    obtain ⟨b, bs, hab, hbs, heq⟩ := List.forall₂_cons_left_iff.mp hfilter
    obtain rfl := List.forall₂_nil_left_iff.mp hbs
    exact ⟨b, heq, (hPQ a b hab).mp hP⟩

end Found

section Matrix

variable {env : Env} {session session' : List Workspace} {sln : Workspace} {prj : BakedProject}
  {as : List Answers} {cc : Str} {tool : Tool} {s p : ℕ} {ps : List Str}

theorem getconfigKey_eq {plt : Str} (hplt : plt ∈ pltnames ps) (c : Option Str) :
    getconfigKey ps c (some plt) = configKey c plt := by
  rw [getconfigKey, configKey]
  by_cases hnative : plt = native
  · simp [hnative]
  · have hmem : plt ∈ ps := by
      rcases List.mem_cons.mp hplt with h | h
      · exact absurd h hnative
      · exact List.mem_of_mem_filter h
    simp [hnative, hmem]

/-- In a project with all its configurations, those of the matrix are gone through. -/
theorem configIds_eq (htool : Tool.named cc = some tool)
    (howned : OwnedLongnames (pairs sln.configurations sln.obj.platformnames) prj.configs) :
    configIds tool s p sln prj =
      (matrixPairs tool sln).map fun cp => ⟨s, p, configKey (some cp.1) cp.2⟩ := by
  rw [configIds, matrixPairs, List.map_flatMap]
  refine List.flatMap_congr fun plt hplt => ?_
  have hplt := ((nativePlatforms_spec htool sln).2 plt hplt).1
  have hkeys : eachconfigKeys sln prj plt =
      sln.configurations.map fun c => configKey (some c) plt := by
    rw [eachconfigKeys, List.map_congr_left fun c _ => getconfigKey_eq hplt (some c)]
    refine List.takeWhile_eq_self_iff.mpr fun k hk => ?_
    obtain ⟨c, hc, rfl⟩ := List.mem_map.mp hk
    obtain ⟨cp, hcp⟩ := exists_owner (mem_pairs.mpr ⟨hc, hplt⟩)
    obtain ⟨cfg, hcfg, -⟩ := howned _ cp hcp
    rw [hcfg]
    rfl
  rw [hkeys, List.map_map, List.map_map]
  rfl

def foundPair (sln : Workspace) (cp : Str × Str) : Str × Str :=
  (owner (pairs sln.configurations sln.obj.platformnames) (configKey (some cp.1) cp.2)).getD cp

/-- No configuration of the matrix is hidden by another one with the same key, and no two of them
have the same name there. -/
def Distinguished (tool : Tool) (sln : Workspace) : Prop :=
  (∀ cp ∈ matrixPairs tool sln, foundPair sln cp = cp) ∧
    ∀ cp ∈ matrixPairs tool sln, ∀ cp' ∈ matrixPairs tool sln,
      matrixName cp = matrixName cp' → cp = cp'

instance (tool : Tool) (sln : Workspace) : Decidable (Distinguished tool sln) :=
  inferInstanceAs (Decidable ((∀ _ ∈ _, _) ∧ ∀ _ ∈ _, _))

theorem answers_of_matrix (htool : Tool.named cc = some tool)
    (hnonempty : [] ∉ sln.configurations)
    (howned : OwnedLongnames (pairs sln.configurations sln.obj.platformnames) prj.configs)
    (hsln : session[s]? = some sln) (hprj : sln.projects[p]? = some prj)
    (hask : askAll env (configIds tool s p sln prj) session = .ok (as, session')) :
    List.Forall₂ (fun cp a => a.cfg.name = some (foundPair sln cp).1 ∧
      a.cfg.platform = (foundPair sln cp).2 ∧ a.longname = longname (foundPair sln cp))
      (matrixPairs tool sln) as := by
  rw [configIds_eq htool howned] at hask
  have hkeys : ∀ id ∈ (matrixPairs tool sln).map fun cp =>
      (⟨s, p, configKey (some cp.1) cp.2⟩ : ConfigId), id.key ≠ [] := by
    intro id hid
    obtain ⟨cp, hcp, rfl⟩ := List.mem_map.mp hid
    refine List.append_ne_nil_of_left_ne_nil ?_ _
    rintro (heq : cp.1 = [])
    exact hnonempty (heq ▸ (mem_matrixPairs.mp hcp).1)
  have hall := List.forall₂_map_left_iff.mp (askAll_names hkeys hask)
  have hmem := (List.forall₂_and_left (p := fun cp => cp ∈ matrixPairs tool sln) _ _).mpr
    ⟨fun _ h => h, hall⟩
  refine hmem.imp ?_
  rintro cp a ⟨hcp, prj', cfg, hget, hsame, hlong⟩
  obtain ⟨hc, hp⟩ := mem_matrixPairs.mp hcp
  obtain ⟨sln', hsln', hprj', hcfg⟩ := Links.get?_eq_some.mp hget
  obtain rfl := Option.some.inj (hsln.symm.trans hsln')
  obtain rfl := Option.some.inj (hprj.symm.trans hprj')
  obtain ⟨cp', hcp'⟩ :=
    exists_owner (mem_pairs.mpr ⟨hc, ((nativePlatforms_spec htool sln).2 _ hp).1⟩)
  obtain ⟨cfg', hcfg', hname, hplt, hlongname⟩ := howned _ cp' hcp'
  obtain rfl := Option.some.inj (hcfg.symm.trans hcfg')
  have hfound : foundPair sln cp = cp' := by rw [foundPair, hcp', Option.getD_some]
  rw [hfound]
  exact ⟨hsame.name.trans hname, hsame.platform.trans hplt,
    Option.some.inj (hlong.symm.trans hlongname)⟩

theorem foundPair_foundPair {cp : Str × Str} (hcp : cp ∈ pairs sln.configurations
    sln.obj.platformnames) : foundPair sln (foundPair sln cp) = foundPair sln cp := by
  obtain ⟨cp', hcp'⟩ := exists_owner hcp
  have hfound : foundPair sln cp = cp' := by rw [foundPair, hcp', Option.getD_some]
  rw [hfound, foundPair, (mem_of_owner hcp').2, hcp', Option.getD_some]

/-- Every name of the matrix selects the configuration of its own pair exactly when the pairs are
distinguished. -/
theorem selects_iff_distinguished (htool : Tool.named cc = some tool)
    (hnodup : sln.configurations.Nodup)
    (hanswers : List.Forall₂ (fun cp a => a.cfg.name = some (foundPair sln cp).1 ∧
      a.cfg.platform = (foundPair sln cp).2 ∧ a.longname = longname (foundPair sln cp))
      (matrixPairs tool sln) as)
    (name type : Str) (f : Tree.Forest Project.SourceData) (t : Grove ℕ) (deps : List Str) :
    (∀ cp ∈ matrixPairs tool sln, ∃ a ∈ as,
      configurationsNamed (document name type (sourceTree f t) as deps) (matrixName cp) =
        [configElement a] ∧ a.cfg.name = some cp.1 ∧ a.cfg.platform = cp.2) ↔
      Distinguished tool sln := by
  have hplatforms := nativePlatforms_spec htool sln
  have hpairs : ∀ cp ∈ matrixPairs tool sln,
      cp ∈ pairs sln.configurations sln.obj.platformnames := fun cp hcp =>
    mem_pairs.mpr ⟨(mem_matrixPairs.mp hcp).1, (hplatforms.2 _ (mem_matrixPairs.mp hcp).2).1⟩
  rw [Distinguished, ← found_iff (nodup_matrixPairs htool hnodup)
    fun cp hcp _ => foundPair_foundPair (hpairs cp hcp)]
  refine forall₂_congr fun cp hcp => Iff.trans ?_ (filter_eq_singleton_iff hanswers
    (q := fun a => decide (unbar a.longname = matrixName cp))
    (Q := fun a => a.cfg.name = some cp.1 ∧ a.cfg.platform = cp.2)
    (fun x a h => by rw [h.2.2]; rfl) fun x a h => by
      rw [h.1, h.2.1, Option.some.injEq]
      exact Prod.ext_iff)
  simp only [configurationsNamed_document]
  constructor
  · rintro ⟨a, ha, hfilter, hnames⟩
    obtain ⟨b, hb, heq⟩ := List.map_eq_singleton_iff.mp hfilter
    have hmem : b ∈ as.filter fun a => unbar a.longname = matrixName cp :=
      hb ▸ List.mem_singleton_self b
    have hname : unbar b.longname = matrixName cp :=
      of_decide_eq_true (List.mem_filter.mp hmem).2
    -- The answer is the one that is selected, since it has the same name.
    have hsame : unbar a.longname = unbar b.longname := by
      have hattribute := congrArg (Xml.Content.attribute "Name".toList) heq
      rw [attribute_configElement, attribute_configElement] at hattribute
      exact (Option.some.inj hattribute).symm
    obtain rfl : a = b := Make.eq_of_filter_eq_singleton hb ha (by simp [hsame, hname])
    exact ⟨a, hb, hnames⟩
  · rintro ⟨a, hfilter, hnames⟩
    refine ⟨a, List.mem_of_mem_filter (hfilter ▸ List.mem_singleton_self a), ?_, hnames⟩
    rw [hfilter]
    rfl

theorem longname_of_configurationsNamed {as : List Answers} {name type : Str}
    {f : Tree.Forest Project.SourceData} {t : Grove ℕ} {deps : List Str} {n : Str} {a : Answers}
    (h : configurationsNamed (document name type (sourceTree f t) as deps) n = [configElement a]) :
    unbar a.longname = n := by
  have hmem : configElement a ∈
      configurationsNamed (document name type (sourceTree f t) as deps) n :=
    h ▸ List.mem_singleton_self _
  have hattribute := of_decide_eq_true (List.mem_filter.mp hmem).2
  rw [attribute_configElement] at hattribute
  exact Option.some.inj hattribute

def consoleSession : List Solution :=
  [{ obj := namedSolution ["Debug", "Release"] ["x32"]
     projects := [{
       name := "hello".toList
       usage := false
       obj := Container.ofBlock (((Fields.empty.set .language "C++".toList).set
         .kind "ConsoleApp".toList).set .basedir "/home".toList) (configuration 1 []) }] }]

def consoleHeap : Heap :=
  initialHeap (consoleSession.flatMap fun sln =>
    sln.obj.blocks ++ sln.projects.flatMap fun prj => prj.obj.blocks)

end Matrix

end Codelite

end Ide

end Puremake
