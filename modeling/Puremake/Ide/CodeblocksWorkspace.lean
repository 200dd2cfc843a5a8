import Puremake.Ide.Codeblocks

/-!
# Workspaces for Code::Blocks

A workspace lists its projects, the first one as the active one, and for each project those that it
depends on. They are found by following the links of all its configurations, in an order that is
not known; what is found does not depend on this order. In a session with one solution no project
depends on one that is not listed.
-/

namespace Puremake

section Dependencies

variable {session : List Workspace} {name : Str} {dep : Workspace × BakedProject}

theorem findproject_eq_some (h : findproject session name = some dep) :
    dep.1 ∈ session ∧ dep.2 ∈ dep.1.projects ∧ dep.2.name = name := by
  obtain ⟨sln, hsln, hmap⟩ := List.exists_of_findSome?_eq_some h
  obtain ⟨prj, hprj, rfl⟩ := Option.map_eq_some_iff.mp hmap
  exact ⟨hsln, List.mem_of_find?_eq_some hprj, by simpa using List.find?_some hprj⟩

/-- A round of the loop in `premake.getdependencies`. -/
def followLink (session : List Workspace) (results : List (Workspace × BakedProject))
    (link : Str) : List (Workspace × BakedProject) :=
  match findproject session link with
  | none => results
  | some dep =>
    if results.any fun result => result.2.name = dep.2.name then results else results ++ [dep]

theorem getdependencies_eq (ord : PairsOrder) (session : List Workspace) (prj : BakedProject) :
    getdependencies ord session prj = ((ord.enum prj.configs).flatMap fun entry =>
      (entry.2.fields.list .links).arr).foldl (followLink session) [] := rfl

def FoundByName (session : List Workspace) (results : List (Workspace × BakedProject)) : Prop :=
  ∀ r ∈ results, findproject session r.2.name = some r

theorem foundByName_followLink {results : List (Workspace × BakedProject)}
    (h : FoundByName session results) (link : Str) :
    FoundByName session (followLink session results link) := by
  rw [followLink]
  split
  · exact h
  · rename_i found hfind
    split
    · exact h
    · intro r hr
      rcases List.mem_append.mp hr with hr | hr
      · exact h r hr
      · obtain rfl := List.mem_singleton.mp hr
        rw [(findproject_eq_some hfind).2.2, hfind]

theorem mem_followLink {results : List (Workspace × BakedProject)} (h : FoundByName session results)
    (link : Str) : dep ∈ followLink session results link ↔
      dep ∈ results ∨ findproject session link = some dep := by
  rw [followLink]
  split
  · rename_i hfind
    simp [hfind]
  · rename_i found hfind
    rw [hfind, Option.some.injEq]
    split
    · rename_i hany
      obtain ⟨r, hr, heq⟩ := List.any_eq_true.mp hany
      -- The one with the name is the one that is found by it.
      have hfound := h r hr
      rw [of_decide_eq_true heq, (findproject_eq_some hfind).2.2, hfind, Option.some.injEq]
        at hfound
      subst hfound
      refine ⟨.inl, ?_⟩
      rintro (hdep | rfl)
      · exact hdep
      · exact hr
    · rw [List.mem_append, List.mem_singleton, eq_comm]

/-- By following links, one gets what was there before and what they lead to. -/
theorem mem_foldl_followLink {links : List Str} {results : List (Workspace × BakedProject)}
    (h : FoundByName session results) : dep ∈ links.foldl (followLink session) results ↔
      dep ∈ results ∨ ∃ link ∈ links, findproject session link = some dep := by
  induction links generalizing results with
  | nil => simp
  | cons link links ih =>
      rw [List.foldl_cons, ih (foundByName_followLink h link), mem_followLink h, or_assoc]
      simp only [List.mem_cons, exists_eq_or_imp]

/-- The projects that a project depends on are those that its links lead to. -/
theorem mem_getdependencies (ord : PairsOrder) {prj : BakedProject} :
    dep ∈ getdependencies ord session prj ↔ ∃ entry ∈ prj.configs,
      ∃ link ∈ (entry.2.fields.list .links).arr, findproject session link = some dep := by
  rw [getdependencies_eq, mem_foldl_followLink fun r hr => absurd hr List.not_mem_nil]
  simp only [List.not_mem_nil, false_or, List.mem_flatMap, PairsOrder.mem_enum]
  constructor
  · rintro ⟨link, ⟨entry, hentry, hlink⟩, hfind⟩
    exact ⟨entry, hentry, link, hlink, hfind⟩
  · rintro ⟨entry, hentry, link, hlink, hfind⟩
    exact ⟨link, ⟨entry, hentry, hlink⟩, hfind⟩

end Dependencies

namespace Ide

namespace Codeblocks

def filename (cwd : Str) (sln : Workspace) (prj : BakedProject) : Str :=
  Codelite.projectPath cwd sln prj ++ ".cbp".toList

def filenameValue (cwd : Str) (sln : Workspace) (prj : BakedProject) : Value :=
  .asIs (Codelite.projectPath cwd sln prj) ++ .fixed ".cbp"

def listed (env : Env) (session : List Workspace) (sln : Workspace) (prj : BakedProject × ℕ) :
    Fragment :=
  let fname := filenameValue env.cwd sln prj.1
  let depends := .each (getdependencies env.ord session prj.1) fun dep =>
    .single "Depends" [("filename", filenameValue env.cwd sln dep.2)]
  if prj.2 = 0 then .block "Project" [("filename", fname), ("active", .fixed "1")] depends
  else .block "Project" [("filename", fname)] depends

def workspace (env : Env) (session : List Workspace) (sln : Workspace) : Fragment :=
  .instruction "xml version=\"1.0\" encoding=\"UTF-8\" standalone=\"yes\" " ++
  .block "CodeBlocks_workspace_file" [] (.block "Workspace" [("title", .asIs sln.name)]
    (.each sln.projects.zipIdx (listed env session sln)))

def listedRead (env : Env) (session : List Workspace) (sln : Workspace) (prj : BakedProject × ℕ) :
    Xml.Content :=
  element "Project" (("filename", filename env.cwd sln prj.1) ::
      if prj.2 = 0 then [("active", "1".toList)] else [])
    (each "Depends" "filename" ((getdependencies env.ord session prj.1).map fun dep =>
      filename env.cwd sln dep.2))

def workspaceRead (env : Env) (session : List Workspace) (sln : Workspace) : Xml.Content :=
  element "CodeBlocks_workspace_file" [] [element "Workspace" [("title", sln.name)]
    (sln.projects.zipIdx.map (listedRead env session sln))]

/-- What is written as it is has no character that means something. -/
structure PlainWorkspace (env : Env) (session : List Workspace) (sln : Workspace) : Prop where
  title : Xml.Literal sln.name
  projects : ∀ prj ∈ sln.projects, Xml.Literal (Codelite.projectPath env.cwd sln prj)
  dependencies : ∀ prj ∈ sln.projects, ∀ dep ∈ getdependencies env.ord session prj,
    Xml.Literal (Codelite.projectPath env.cwd sln dep.2)

def listedIn (d : Xml.Content) : List Xml.Content :=
  (d.named "Workspace".toList).flatMap fun w => w.named "Project".toList

section Workspace

variable {env : Env} {session : List Workspace} {sln : Workspace} {prj : BakedProject × ℕ}

theorem readable_filename {prj : BakedProject}
    (h : Xml.Literal (Codelite.projectPath env.cwd sln prj)) :
    (filenameValue env.cwd sln prj).Readable :=
  (Value.readable_asIs.mpr h).append (Value.readable_fixed (by decide))

theorem meaning_filename (cwd : Str) (sln : Workspace) (prj : BakedProject) :
    (filenameValue cwd sln prj).meaning = filename cwd sln prj := by
  rw [filenameValue, Value.meaning_append, Value.meaning_asIs, Value.meaning_fixed, filename]

theorem contents_listed (env : Env) (session : List Workspace) (sln : Workspace)
    (prj : BakedProject × ℕ) :
    (listed env session sln prj).contents = [listedRead env session sln prj] := by
  have hdepends : (Fragment.each (getdependencies env.ord session prj.1) fun dep =>
      .single "Depends" [("filename", filenameValue env.cwd sln dep.2)]).contents =
      each "Depends" "filename" ((getdependencies env.ord session prj.1).map fun dep =>
        filename env.cwd sln dep.2) := by
    rw [Fragment.contents_each, each, List.map_map, List.map_eq_flatMap]
    simp only [Fragment.contents_single, Fragment.meanings, List.map_cons, List.map_nil,
      meaning_filename, Function.comp_apply]
  rw [listed, listedRead, ← hdepends]
  split
  · rw [Fragment.contents_block, Fragment.meanings, List.map_cons, List.map_cons, List.map_nil,
      meaning_filename]
    rfl
  · rw [Fragment.contents_block, Fragment.meanings, List.map_cons, List.map_nil, meaning_filename]

theorem readable_listed (h : PlainWorkspace env session sln) (hprj : prj.1 ∈ sln.projects) :
    (listed env session sln prj).Readable := by
  have hdepends : (Fragment.each (getdependencies env.ord session prj.1) fun dep =>
      .single "Depends" [("filename", filenameValue env.cwd sln dep.2)]).Readable := fun dep hdep =>
    Fragment.tagged_single (by decide) (by decide)
      (readable_filename (h.dependencies prj.1 hprj dep hdep))
  have hfilename := readable_filename (h.projects prj.1 hprj)
  rw [listed]
  split
  · refine ⟨⟨by decide, ?_, ?_⟩, hdepends⟩
    · simp only [List.map_cons, List.map_nil]
      decide
    · simp only [List.forall_mem_cons]
      exact ⟨hfilename, Value.readable_fixed (by decide), fun _ h => absurd h List.not_mem_nil⟩
  · exact ⟨Fragment.tagged_single (by decide) (by decide) hfilename, hdepends⟩

theorem listedIn_workspaceRead (env : Env) (session : List Workspace) (sln : Workspace) :
    listedIn (workspaceRead env session sln) =
      sln.projects.zipIdx.map (listedRead env session sln) := by
  have hall : (sln.projects.zipIdx.map (listedRead env session sln)).filter
      (Xml.Content.isNamed "Project".toList) =
        sln.projects.zipIdx.map (listedRead env session sln) := by
    refine List.filter_eq_self.mpr fun c hc => ?_
    obtain ⟨prj, -, rfl⟩ := List.mem_map.mp hc
    rw [listedRead, Codelite.isNamed_element]
    decide
  have hworkspace : (workspaceRead env session sln).named "Workspace".toList =
      [element "Workspace" [("title", sln.name)]
        (sln.projects.zipIdx.map (listedRead env session sln))] := by
    rw [workspaceRead, element, Xml.Content.named]
    exact List.filter_cons_of_pos (by rw [Codelite.isNamed_element]; decide)
  rw [listedIn, hworkspace, List.flatMap_cons, List.flatMap_nil, List.append_nil, element,
    Xml.Content.named, hall]

theorem attribute_listedRead (env : Env) (session : List Workspace) (sln : Workspace)
    (prj : BakedProject × ℕ) : (listedRead env session sln prj).attribute "filename".toList =
      some (filename env.cwd sln prj.1) := by
  simp [listedRead, element, attrs, Xml.Content.attribute]

theorem active_listedRead : (listedRead env session sln prj).attribute "active".toList =
    if prj.2 = 0 then some "1".toList else none := by
  rw [listedRead]
  split <;> simp [element, attrs, Xml.Content.attribute, List.lookup_cons]

theorem attribute_depends (v : Str) :
    (element "Depends" [("filename", v)] []).attribute "filename".toList = some v := by
  simp [element, attrs, Xml.Content.attribute]

theorem named_listedRead : (listedRead env session sln prj).named "Depends".toList =
    each "Depends" "filename" ((getdependencies env.ord session prj.1).map fun dep =>
      filename env.cwd sln dep.2) := by
  rw [listedRead, element, Xml.Content.named]
  refine List.filter_eq_self.mpr fun c hc => ?_
  obtain ⟨v, -, rfl⟩ := List.mem_map.mp hc
  rw [Codelite.isNamed_element]
  decide

theorem mem_named_listedRead {e : Xml.Content} :
    e ∈ (listedRead env session sln prj).named "Depends".toList ↔
      ∃ dep ∈ getdependencies env.ord session prj.1,
        element "Depends" [("filename", filename env.cwd sln dep.2)] [] = e := by
  rw [named_listedRead, each, List.map_map]
  exact List.mem_map

theorem contents_workspace (env : Env) (session : List Workspace) (sln : Workspace) :
    (workspace env session sln).contents = [workspaceRead env session sln] := by
  have hprojects : (Fragment.each sln.projects.zipIdx (listed env session sln)).contents =
      sln.projects.zipIdx.map (listedRead env session sln) := by
    rw [Fragment.contents_each, List.map_eq_flatMap]
    exact congrArg sln.projects.zipIdx.flatMap
      (funext fun prj => contents_listed env session sln prj)
  rw [workspace, workspaceRead, ← hprojects]
  rfl

theorem readable_workspace (h : PlainWorkspace env session sln) :
    (workspace env session sln).Readable := by
  refine ⟨?_, Fragment.tagged_nil (by decide),
    Fragment.tagged_single (by decide) (by decide) (Value.readable_asIs.mpr h.title),
    fun prj hprj => readable_listed h (List.fst_mem_of_mem_zipIdx hprj)⟩
  rw [Fragment.instruction]
  decide

/-- A workspace is read back with its projects in their order, only the first one active. A project
depends on the files of the projects that links of its configurations lead to, whatever the order
in which they are followed, and in a session with one solution these are all listed. -/
theorem exists_read_solution (h : PlainWorkspace env session sln) :
    ∃ d, Xml.read (layout.print ((workspace env session sln).lines 0)) = some d ∧
      List.Forall₂ (fun prj c =>
        c.attribute "filename".toList = some (filename env.cwd sln prj.1) ∧
        (c.attribute "active".toList = some "1".toList ↔ prj.2 = 0) ∧
        ∀ fname, (∃ e ∈ c.named "Depends".toList, e.attribute "filename".toList = some fname) ↔
          ∃ entry ∈ prj.1.configs, ∃ link ∈ (entry.2.fields.list .links).arr, ∃ dep,
            findproject session link = some dep ∧ filename env.cwd sln dep.2 = fname)
        sln.projects.zipIdx (listedIn d) ∧
      ((∀ sln' ∈ session, sln' = sln) → ∀ c ∈ listedIn d, ∀ e ∈ c.named "Depends".toList,
        ∃ c' ∈ listedIn d, c'.attribute "filename".toList = e.attribute "filename".toList) := by
  refine ⟨workspaceRead env session sln, Fragment.read_print layout 0
    (contents_workspace env session sln) (readable_workspace h), ?_, ?_⟩
  · rw [listedIn_workspaceRead, List.forall₂_map_right_iff, List.forall₂_same]
    intro prj _
    refine ⟨attribute_listedRead env session sln prj, ?_, fun fname => ?_⟩
    · rw [active_listedRead]
      split
      · rename_i hactive
        exact ⟨fun _ => hactive, fun _ => rfl⟩
      · rename_i hactive
        exact ⟨fun h => absurd h (by simp), fun h => absurd h hactive⟩
    · constructor
      · rintro ⟨e, he, hfname⟩
        obtain ⟨dep, hdep, rfl⟩ := mem_named_listedRead.mp he
        obtain ⟨entry, hentry, link, hlink, hfind⟩ := (mem_getdependencies env.ord).mp hdep
        rw [attribute_depends, Option.some.injEq] at hfname
        exact ⟨entry, hentry, link, hlink, dep, hfind, hfname⟩
      · rintro ⟨entry, hentry, link, hlink, dep, hfind, rfl⟩
        have hdep := (mem_getdependencies env.ord).mpr ⟨entry, hentry, link, hlink, hfind⟩
        exact ⟨_, mem_named_listedRead.mpr ⟨dep, hdep, rfl⟩, attribute_depends _⟩
  · intro hsession c hc e he
    rw [listedIn_workspaceRead] at hc ⊢
    obtain ⟨prj, -, rfl⟩ := List.mem_map.mp hc
    obtain ⟨dep, hdep, rfl⟩ := mem_named_listedRead.mp he
    obtain ⟨entry, -, link, -, hfind⟩ := (mem_getdependencies env.ord).mp hdep
    obtain ⟨hsln, hprj, -⟩ := findproject_eq_some hfind
    rw [hsession _ hsln] at hprj
    obtain ⟨i, hget⟩ := List.mem_iff_getElem?.mp hprj
    refine ⟨_, List.mem_map.mpr ⟨(dep.2, i), List.mk_mem_zipIdx_iff_getElem?.mpr hget, rfl⟩, ?_⟩
    rw [attribute_listedRead, attribute_depends]

def linkedSession : List Workspace :=
  [{ name := "hello".toList
     obj := Container.ofBlock
       (Fields.empty.set .configurations ⟨["Debug".toList], []⟩) (configuration 0 [])
     basis := []
     projects := [{ Codelite.helloProject with name := "lib".toList },
       { Codelite.helloProject with
         configs := Codelite.helloProject.configs.map fun e =>
           (e.1, { e.2 with fields := e.2.fields.set .links ⟨["lib".toList], []⟩ }) }] }]

theorem plainWorkspace_linked : ∀ sln ∈ linkedSession,
    PlainWorkspace codeblocksEnv linkedSession sln := by
  intro sln hsln
  obtain rfl := List.mem_singleton.mp hsln
  exact ⟨by decide, by decide, by decide⟩

/-- Both projects are read, and the program depends on the library. -/
theorem exists_read_solution_linked : ∃ sln d, sln ∈ linkedSession ∧
    Xml.read (layout.print ((workspace codeblocksEnv linkedSession sln).lines 0)) = some d ∧
      ∃ lib hello, listedIn d = [lib, hello] ∧
        lib.attribute "filename".toList = some "lib.cbp".toList ∧
        hello.attribute "filename".toList = some "hello.cbp".toList ∧
        ∃ e ∈ hello.named "Depends".toList,
          e.attribute "filename".toList = some "lib.cbp".toList := by
  obtain ⟨sln, hsln, lib, hello, hprojects, hlib, hhello, entry, hentry, hlink, dep, hfind,
      hdep⟩ : ∃ sln ∈ linkedSession, ∃ lib hello,
        sln.projects = [lib, hello] ∧
        filename codeblocksEnv.cwd sln lib = "lib.cbp".toList ∧
        filename codeblocksEnv.cwd sln hello = "hello.cbp".toList ∧
        ∃ entry ∈ hello.configs, "lib".toList ∈ (entry.2.fields.list .links).arr ∧ ∃ dep,
          findproject linkedSession "lib".toList = some dep ∧
          filename codeblocksEnv.cwd sln dep.2 = "lib.cbp".toList :=
    ⟨_, List.mem_cons_self, _, _, rfl, rfl, rfl, _, List.mem_cons_self, by decide, _, rfl, rfl⟩
  obtain ⟨d, hread, hlisted, -⟩ := exists_read_solution (plainWorkspace_linked sln hsln)
  rw [hprojects] at hlisted
  generalize hcs : listedIn d = cs at hlisted
  obtain _ | ⟨⟨hl, -, -⟩, _ | ⟨⟨hh, -, hdepends⟩, _ | _⟩⟩ := hlisted
  obtain ⟨e, he, hfname⟩ := (hdepends _).mpr ⟨entry, hentry, _, hlink, dep, hfind, hdep⟩
  exact ⟨sln, d, hsln, hread, _, _, hcs, hl.trans (congrArg some hlib),
    hh.trans (congrArg some hhello), e, he, hfname⟩

end Workspace

end Codeblocks

end Ide

end Puremake
