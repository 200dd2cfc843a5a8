import Puremake.Xcode.BuildIds
import Puremake.Xcode.Script

/-!
# Build files and build phases of an Xcode project

`xcode.PBXBuildFile` declares the ID of every node that has one for the build. The phases for
the sources and the resources refer to the nodes of their category, and the phase for the
frameworks to all leaves of two folders, whatever their names are. So the target of a
sibling project is referred to, but not declared, when its name has no category.
-/

namespace Puremake

namespace Xcode

open Puremake.Tree

/-- A line of the section `PBXBuildFile`. -/
structure BuildFile where
  buildid : Str
  name : Str
  category : Str
  fileRef : Str
  deriving DecidableEq, Repr

def BuildFile.line (file : BuildFile) : Str :=
  "\t\t".toList ++ file.buildid ++ " /* ".toList ++ file.name ++ " in ".toList ++ file.category ++
    " */ = \x7bisa = PBXBuildFile; fileRef = ".toList ++ file.fileRef ++ " /* ".toList ++
    file.name ++ " */; \x7d;".toList

structure PhaseFile where
  buildid : Option Str
  name : Str
  deriving DecidableEq, Repr

/-- `string.format` raises an error for an ID that is `nil`. -/
def PhaseFile.line (category : Str) (file : PhaseFile) : Option Str :=
  file.buildid.map fun buildid => "\t\t\t\t".toList ++ buildid ++ " /* ".toList ++ file.name ++
    " in ".toList ++ category ++ " */,".toList

structure BuildPhase where
  category : Str
  id : Str
  files : List PhaseFile
  deriving DecidableEq, Repr

def BuildPhase.lines (phase : BuildPhase) : Option (List Str) := do
  let files ← phase.files.mapM (PhaseFile.line phase.category)
  return ["\t\t".toList ++ phase.id ++ " /* ".toList ++ phase.category ++ " */ = \x7b".toList,
    "\t\t\tisa = PBX".toList ++ phase.category ++ "BuildPhase;".toList,
    "\t\t\tbuildActionMask = 2147483647;".toList,
    "\t\t\tfiles = (".toList] ++ files ++
    ["\t\t\t);".toList,
    "\t\t\trunOnlyForDeploymentPostprocessing = 0;".toList,
    "\t\t\x7d;".toList]

/-- What `xcode.PBXBuildFile` writes for a node. -/
def buildFile (node : Node NodeData) : Option (List BuildFile) :=
  match node.data.buildid with
  | none => some []
  | some buildid => do
    let name ← node.name
    let category ← getbuildcategory name
    let id ← node.data.id
    return [⟨buildid, name, category, id⟩]

def PBXBuildFile (fuel : ℕ) (f : PrjTree) : Option (List BuildFile) :=
  (Tree.traverse (calling (writing buildFile) .skip) fuel 0 false 0 (f, [])).map Prod.snd

def phaseFile (node : Node NodeData) : Option (List PhaseFile) :=
  node.name.map fun name => [⟨node.data.buildid, name⟩]

def categoryFile (category : Str) (node : Node NodeData) : Option (List PhaseFile) :=
  node.name.map fun name =>
    if getbuildcategory name = some category then [⟨node.data.buildid, name⟩] else []

def PBXFrameworksBuildPhase (fuel : ℕ) (f : PrjTree) (folders : Folders) : Option BuildPhase := do
  let target ← (f.node folders.products).children[0]?
  let id ← (f.node target).data.fxstageid
  let libraries ← Tree.traverse (calling .skip (writing phaseFile)) fuel folders.frameworks false 0
    (f, [])
  let projects ← Tree.traverse (calling .skip (writing phaseFile)) fuel folders.projects false 0
    (f, [])
  return ⟨"Frameworks".toList, id, libraries.2 ++ projects.2⟩

def PBXResourcesBuildPhase (fuel : ℕ) (f : PrjTree) (folders : Folders) :
    Option (List BuildPhase) :=
  (f.node folders.products).children.mapM fun target => do
    let id ← (f.node target).data.resstageid
    let files ← Tree.traverse (calling (writing (categoryFile "Resources".toList)) .skip) fuel 0
      false 0 (f, [])
    return ⟨"Resources".toList, id, files.2⟩

def PBXSourcesBuildPhase (fuel : ℕ) (f : PrjTree) (folders : Folders) :
    Option (List BuildPhase) :=
  (f.node folders.products).children.mapM fun target => do
    let id ← (f.node target).data.sourcesid
    let files ← Tree.traverse (calling .skip (writing (categoryFile "Sources".toList))) fuel 0
      false 0 (f, [])
    return ⟨"Sources".toList, id, files.2⟩

/-- The section of the build files, and the three kinds of build phases. -/
def buildsections (fuel : ℕ) (f : PrjTree) (folders : Folders) :
    Option (List BuildFile × List BuildPhase) := do
  let files ← PBXBuildFile fuel f
  let frameworks ← PBXFrameworksBuildPhase fuel f folders
  let resources ← PBXResourcesBuildPhase fuel f folders
  let sources ← PBXSourcesBuildPhase fuel f folders
  return (files, frameworks :: resources ++ sources)

/-- Every entry of the phases has an ID, and exactly one build file declares it. -/
def Declared (files : List BuildFile) (phases : List BuildPhase) : Prop :=
  ∀ phase ∈ phases, ∀ entry ∈ phase.files, ∃ buildid, entry.buildid = some buildid ∧
    (files.map BuildFile.buildid).count buildid = 1

theorem mem_writes {α β : Type*} {entry : Node α → Option (List β)} {f : Forest α} {l : List ℕ}
    {e : β} : e ∈ writes entry f l ↔ ∃ n ∈ l, ∃ es, entry (f.node n) = some es ∧ e ∈ es := by
  rw [writes, List.mem_flatMap]
  refine exists_congr fun n => and_congr_right fun _ => ?_
  cases entry (f.node n) with
  | none => simp
  | some es => simp

theorem Declared.notMem {files : List BuildFile} {phases : List BuildPhase}
    (h : Declared files phases) {phase : BuildPhase} (hphase : phase ∈ phases) (name : Str) :
    (⟨none, name⟩ : PhaseFile) ∉ phase.files := by
  intro hentry
  obtain ⟨b, hb, -⟩ := h phase hphase _ hentry
  cases hb

section Sections

variable {f : PrjTree} {folders : Folders} {deps : List Dependency} {projectnode : ProjectNode}
  {t : Grove ℕ} {P : ℕ}

theorem Marked.name_isSome (h : Marked f folders deps projectnode t P) {n : ℕ} (hn : n ∈ t.nodes) :
    (f.node n).name.isSome := by
  by_cases hnP : n = P
  · rw [hnP, h.product.2.2.1]
    rfl
  · obtain ⟨-, name, hname, -⟩ := h.ids n hn hnP
    rw [hname]
    rfl

theorem Marked.buildFile_isSome (h : Marked f folders deps projectnode t P) {n : ℕ}
    (hn : n ∈ t.nodes) : (buildFile (f.node n)).isSome := by
  rw [buildFile]
  cases hbuildid : (f.node n).data.buildid with
  | none => rfl
  | some b =>
      have hnP : n ≠ P := by
        rintro rfl
        rw [h.product.2.2.2] at hbuildid
        cases hbuildid
      obtain ⟨hid, name, hname, hiff⟩ := h.ids n hn hnP
      obtain ⟨category, hcategory⟩ := Option.isSome_iff_exists.mp (hiff.mp (by rw [hbuildid]; rfl))
      obtain ⟨id, hid⟩ := Option.isSome_iff_exists.mp hid
      simp [hname, hcategory, hid]

theorem Marked.map_buildid (h : Marked f folders deps projectnode t P) :
    (writes buildFile f t.nodes).map BuildFile.buildid =
      t.nodes.filterMap fun n => (f.node n).data.buildid := by
  have hall : ∀ n ∈ t.nodes, (buildFile (f.node n)).isSome := fun n hn => h.buildFile_isSome hn
  generalize t.nodes = l at hall
  induction l with
  | nil => rfl
  | cons n l ih =>
      have ih := ih fun m hm => hall m (List.mem_cons_of_mem n hm)
      obtain ⟨files, hfiles⟩ := Option.isSome_iff_exists.mp (hall n List.mem_cons_self)
      rw [writes, List.flatMap_cons, ← writes, List.map_append, ih, List.filterMap_cons, hfiles]
      rw [buildFile] at hfiles
      cases hbuildid : (f.node n).data.buildid with
      | none =>
          rw [hbuildid] at hfiles
          rw [← Option.some.inj hfiles]
          rfl
      | some b =>
          rw [hbuildid] at hfiles
          obtain ⟨name, -, hfiles⟩ := Option.bind_eq_some_iff.mp hfiles
          obtain ⟨category, -, hfiles⟩ := Option.bind_eq_some_iff.mp hfiles
          obtain ⟨id, -, hfiles⟩ := Option.bind_eq_some_iff.mp hfiles
          rw [← Option.some.inj hfiles]
          rfl

theorem Marked.count_eq_one (h : Marked f folders deps projectnode t P) {n : ℕ} {b : Str}
    (hn : n ∈ t.nodes) (hb : (f.node n).data.buildid = some b) :
    ((writes buildFile f t.nodes).map BuildFile.buildid).count b = 1 := by
  rw [h.map_buildid]
  refine List.count_eq_one_of_mem ?_ (List.mem_filterMap.mpr ⟨n, hn, hb⟩)
  exact (List.nodup_cons.mp h.stands.nodup).2.filterMap fun n m b hn hm => h.unique n m b hn hm

theorem Marked.exists_buildid (h : Marked f folders deps projectnode t P) {n : ℕ} {name : Str}
    (hn : n ∈ t.nodes) (hnP : n ≠ P) (hname : (f.node n).name = some name)
    (hcategory : (getbuildcategory name).isSome) : ∃ b, (f.node n).data.buildid = some b ∧
      ((writes buildFile f t.nodes).map BuildFile.buildid).count b = 1 := by
  obtain ⟨-, name', hname', hiff⟩ := h.ids n hn hnP
  obtain rfl := Option.some.inj (hname'.symm.trans hname)
  obtain ⟨b, hb⟩ := Option.isSome_iff_exists.mp (hiff.mpr hcategory)
  exact ⟨b, hb, h.count_eq_one hn hb⟩

/-- What the sections list, when `libraries` and `projects` are the trees of the two folders. -/
theorem Marked.buildsections (h : Marked f folders deps projectnode t P)
    {libraries projects : Grove ℕ} (hlibraries : Stands f folders.frameworks libraries)
    (hprojects : Stands f folders.projects projects)
    (hl : libraries.nodes ⊆ t.nodes) (hp : projects.nodes ⊆ t.nodes) :
    ∃ fuel₀ fx rez src, ∀ fuel, fuel₀ ≤ fuel → Xcode.buildsections fuel f folders =
      some (writes buildFile f t.nodes,
        [⟨"Frameworks".toList, fx, writes phaseFile f libraries.leaves ++
            writes phaseFile f projects.leaves⟩,
          ⟨"Resources".toList, rez, writes (categoryFile "Resources".toList) f t.nodes⟩,
          ⟨"Sources".toList, src, writes (categoryFile "Sources".toList) f t.leaves⟩]) := by
  obtain ⟨hrez, hsrc, hfx⟩ := h.stages
  obtain ⟨rez, hrez⟩ := Option.isSome_iff_exists.mp hrez
  obtain ⟨src, hsrc⟩ := Option.isSome_iff_exists.mp hsrc
  obtain ⟨fx, hfx⟩ := Option.isSome_iff_exists.mp hfx
  have hleaves : ∀ {s : Grove ℕ}, s.nodes ⊆ t.nodes → ∀ n ∈ s.leaves, n ∈ t.nodes :=
    fun hs n hn => hs ((Grove.leaves_sublist_nodes _).subset hn)
  have hphase : ∀ n ∈ t.nodes, (phaseFile (f.node n)).isSome := fun n hn => by
    rw [phaseFile, Option.isSome_map]
    exact h.name_isSome hn
  have hcategory : ∀ category, ∀ n ∈ t.nodes, (categoryFile category (f.node n)).isSome :=
    fun category n hn => by
      rw [categoryFile, Option.isSome_map]
      exact h.name_isSome hn
  obtain ⟨fuel₁, h₁⟩ := traverse_onnode h.stands fun n hn => h.buildFile_isSome hn
  obtain ⟨fuel₂, h₂⟩ := traverse_onleaf hlibraries fun n hn => hphase n (hleaves hl n hn)
  obtain ⟨fuel₃, h₃⟩ := traverse_onleaf hprojects fun n hn => hphase n (hleaves hp n hn)
  obtain ⟨fuel₄, h₄⟩ := traverse_onnode h.stands (hcategory "Resources".toList)
  obtain ⟨fuel₅, h₅⟩ := traverse_onleaf h.stands fun n hn =>
    hcategory "Sources".toList n (hleaves (List.Subset.refl _) n hn)
  refine ⟨max fuel₁ (max fuel₂ (max fuel₃ (max fuel₄ fuel₅))), fx, rez, src, fun fuel hfuel => ?_⟩
  simp only [max_le_iff] at hfuel
  obtain ⟨hfuel₁, hfuel₂, hfuel₃, hfuel₄, hfuel₅⟩ := hfuel
  have hfiles : PBXBuildFile fuel f = some (writes buildFile f t.nodes) := by
    rw [PBXBuildFile, h₁ fuel hfuel₁]
    rfl
  have hframeworks : PBXFrameworksBuildPhase fuel f folders = some ⟨"Frameworks".toList, fx,
      writes phaseFile f libraries.leaves ++ writes phaseFile f projects.leaves⟩ := by
    simp only [PBXFrameworksBuildPhase, h.products, List.getElem?_cons_zero, hfx, h₂ fuel hfuel₂,
      h₃ fuel hfuel₃, Option.bind_eq_bind, Option.bind_some, Option.pure_def]
  have hresources : PBXResourcesBuildPhase fuel f folders =
      some [⟨"Resources".toList, rez, writes (categoryFile "Resources".toList) f t.nodes⟩] := by
    simp only [PBXResourcesBuildPhase, h.products, List.mapM_cons, List.mapM_nil, hrez,
      h₄ fuel hfuel₄, Option.bind_eq_bind, Option.bind_some, Option.pure_def]
  have hsources : PBXSourcesBuildPhase fuel f folders =
      some [⟨"Sources".toList, src, writes (categoryFile "Sources".toList) f t.leaves⟩] := by
    simp only [PBXSourcesBuildPhase, h.products, List.mapM_cons, List.mapM_nil, hsrc,
      h₅ fuel hfuel₅, Option.bind_eq_bind, Option.bind_some, Option.pure_def]
  rw [Xcode.buildsections, hfiles, hframeworks, hresources, hsources]
  rfl

theorem mem_phaseFile {l : List ℕ} {e : PhaseFile} : e ∈ writes phaseFile f l ↔
    ∃ n ∈ l, (f.node n).name = some e.name ∧ (f.node n).data.buildid = e.buildid := by
  rw [mem_writes]
  refine exists_congr fun n => and_congr_right fun _ => ?_
  rw [phaseFile]
  cases (f.node n).name with
  | none => simp
  | some name =>
      obtain ⟨buildid, name'⟩ := e
      simp [eq_comm, and_comm]

theorem mem_categoryFile {category : Str} {l : List ℕ} {e : PhaseFile} :
    e ∈ writes (categoryFile category) f l ↔ ∃ n ∈ l, (f.node n).name = some e.name ∧
      (f.node n).data.buildid = e.buildid ∧ getbuildcategory e.name = some category := by
  rw [mem_writes]
  refine exists_congr fun n => and_congr_right fun _ => ?_
  rw [categoryFile]
  cases (f.node n).name with
  | none => simp
  | some name =>
      obtain ⟨buildid, name'⟩ := e
      rw [Option.map_some]
      split
      · rename_i hcategory
        simp only [Option.some.injEq, exists_eq_left', List.mem_singleton, PhaseFile.mk.injEq]
        constructor
        · rintro ⟨rfl, rfl⟩
          exact ⟨rfl, rfl, hcategory⟩
        · rintro ⟨rfl, rfl, -⟩
          exact ⟨rfl, rfl⟩
      · rename_i hcategory
        refine iff_of_false ?_ ?_
        · rintro ⟨es, hes, he⟩
          rw [← Option.some.inj hes] at he
          cases he
        · rintro ⟨hname, -, hcategory'⟩
          obtain rfl := Option.some.inj hname
          exact hcategory hcategory'

/-- The entries have IDs that are declared exactly when the targets of the siblings have a category,
and the product is no source and no resource. -/
theorem Marked.exists_sections (h : Marked f folders deps projectnode t P) :
    ∃ fuel₀ files phases, (∀ fuel, fuel₀ ≤ fuel →
        Xcode.buildsections fuel f folders = some (files, phases)) ∧
      (Declared files phases ↔ (∀ dep ∈ deps, (getbuildcategory dep.linktarget.name).isSome) ∧
        getbuildcategory projectnode.name ≠ some "Resources".toList ∧
        getbuildcategory projectnode.name ≠ some "Sources".toList) := by
  obtain ⟨libraries, hlibraries, hl, hframeworks⟩ := h.frameworks
  obtain ⟨projects, hprojects, hp, htargets⟩ := h.projects
  obtain ⟨fuel₀, fx, rez, src, hrun⟩ := h.buildsections hlibraries hprojects
    (fun n hn => (hl n hn).1) fun n hn => (hp n hn).1
  refine ⟨fuel₀, _, _, hrun, ?_⟩
  obtain ⟨hP, hleaf, hname, hnone⟩ := h.product
  have hproject : ∀ dep ∈ deps, ∃ n ∈ projects.leaves, (f.node n).name =
      some dep.linktarget.name := fun dep hdep => by
    have hmem : some dep.linktarget.name ∈ projects.leaves.map fun n => (f.node n).name := by
      rw [htargets]
      exact List.mem_map.mpr ⟨dep, hdep, rfl⟩
    exact List.mem_map.mp hmem
  have hdep : ∀ n ∈ projects.leaves, ∃ dep ∈ deps, (f.node n).name =
      some dep.linktarget.name := fun n hn => by
    have hmem := List.mem_map_of_mem (f := fun n => (f.node n).name) hn
    rw [htargets] at hmem
    obtain ⟨dep, hdep, heq⟩ := List.mem_map.mp hmem
    exact ⟨dep, hdep, heq.symm⟩
  constructor
  · intro hdeclared
    refine ⟨fun dep hdep => ?_, fun hresource => ?_, fun hsource => ?_⟩
    · obtain ⟨n, hn, hn'⟩ := hproject dep hdep
      obtain ⟨b, hb, -⟩ := hdeclared _ List.mem_cons_self ⟨_, dep.linktarget.name⟩
        (List.mem_append_right _ (mem_phaseFile.mpr ⟨n, hn, hn', rfl⟩))
      obtain ⟨hnt, hnP⟩ := hp n ((Grove.leaves_sublist_nodes _).subset hn)
      obtain ⟨-, name, hname', hiff⟩ := h.ids n hnt hnP
      obtain rfl := Option.some.inj (hname'.symm.trans hn')
      exact hiff.mp (Option.isSome_iff_exists.mpr ⟨b, hb⟩)
    · exact hdeclared.notMem (List.mem_cons_of_mem _ List.mem_cons_self) projectnode.name
        (mem_categoryFile.mpr ⟨P, hP, hname, hnone, hresource⟩)
    · exact hdeclared.notMem
        (List.mem_cons_of_mem _ (List.mem_cons_of_mem _ List.mem_cons_self)) projectnode.name
        (mem_categoryFile.mpr ⟨P, h.stands.holds.mem_leaves_iff.mpr ⟨hP, hleaf⟩, hname, hnone,
          hsource⟩)
  · rintro ⟨hdeps, hresource, hsource⟩ phase hphase ⟨buildid, name⟩ hentry
    simp only [List.mem_cons, List.not_mem_nil, or_false] at hphase
    -- Every entry stands for a node with a category that is not the product.
    obtain ⟨n, hn, hnP, hn', hbuildid, hcategory⟩ : ∃ n ∈ t.nodes, n ≠ P ∧
        (f.node n).name = some name ∧ (f.node n).data.buildid = buildid ∧
        (getbuildcategory name).isSome := by
      rcases hphase with rfl | rfl | rfl
      · rcases List.mem_append.mp hentry with hentry | hentry
        · obtain ⟨n, hn, hn', hbuildid⟩ := mem_phaseFile.mp hentry
          have hn := (Grove.leaves_sublist_nodes _).subset hn
          obtain ⟨name', hname', hframework⟩ := hframeworks n hn
          obtain rfl := Option.some.inj (hname'.symm.trans hn')
          exact ⟨n, (hl n hn).1, (hl n hn).2, hn', hbuildid,
            getbuildcategory_of_isframework hframework⟩
        · obtain ⟨n, hn, hn', hbuildid⟩ := mem_phaseFile.mp hentry
          obtain ⟨dep, hdep, hname'⟩ := hdep n hn
          obtain rfl := Option.some.inj (hname'.symm.trans hn')
          obtain ⟨hnt, hnP⟩ := hp n ((Grove.leaves_sublist_nodes _).subset hn)
          exact ⟨n, hnt, hnP, hn', hbuildid, hdeps dep hdep⟩
      · obtain ⟨n, hn, hn', hbuildid, hcategory⟩ := mem_categoryFile.mp hentry
        refine ⟨n, hn, ?_, hn', hbuildid, by rw [hcategory]; rfl⟩
        rintro rfl
        obtain rfl := Option.some.inj (hname.symm.trans hn')
        exact hresource hcategory
      · obtain ⟨n, hn, hn', hbuildid, hcategory⟩ := mem_categoryFile.mp hentry
        refine ⟨n, (Grove.leaves_sublist_nodes t).subset hn, ?_, hn', hbuildid,
          by rw [hcategory]; rfl⟩
        rintro rfl
        obtain rfl := Option.some.inj (hname.symm.trans hn')
        exact hsource hcategory
    obtain ⟨b, hb, hcount⟩ := h.exists_buildid hn hnP hn' hcategory
    exact ⟨b, hbuildid.symm.trans hb, hcount⟩

end Sections

/-- A sibling has a name that takes part in the build. -/
def Categorized (env : Env) (session : List Workspace) (sln : Workspace) (prj : BakedProject) :
    Prop :=
  ∀ dep ∈ getdependencies env.ord session prj, ∀ d, dependency env sln dep = some d →
    (getbuildcategory d.linktarget.name).isSome

theorem categorized_iff {env : Env} {session : List Workspace} {sln : Workspace}
    {prj : BakedProject} {deps : List Dependency}
    (hdeps : dependencies env session sln prj = some deps) : Categorized env session sln prj ↔
      ∀ dep ∈ deps, (getbuildcategory dep.linktarget.name).isSome := by
  rw [dependencies] at hdeps
  rw [Categorized]
  generalize getdependencies env.ord session prj = l at hdeps
  induction l generalizing deps with
  | nil =>
      obtain rfl := Option.some.inj hdeps
      exact iff_of_true nofun nofun
  | cons dep l ih =>
      rw [List.mapM_cons] at hdeps
      obtain ⟨d, hd, hdeps⟩ := Option.bind_eq_some_iff.mp hdeps
      obtain ⟨ds, hds, hdeps⟩ := Option.bind_eq_some_iff.mp hdeps
      obtain rfl := Option.some.inj hdeps
      rw [List.forall_mem_cons, List.forall_mem_cons, ih hds]
      refine and_congr_left fun _ => ⟨fun h => h d hd, fun h d' hd' => ?_⟩
      obtain rfl := Option.some.inj (hd.symm.trans hd')
      exact h

/-- Every entry of a build phase has an ID that is declared once, if and only if the targets of
the siblings have names of a category, and the name of the product is not that of a source or a
resource. -/
theorem declared_iff {env : Env} {session : List Workspace} {sln : Workspace} {prj : BakedProject}
    {projectnode : ProjectNode} {ids : ℕ → Str} {next last fuel : ℕ} {f : PrjTree}
    {folders : Folders} (hbuild : buildprjtree env session sln prj projectnode ids next fuel =
      some (f, folders, last))
    (hids : ∀ i j, i < last → j < last → ids i = ids j → i = j) :
    ∃ fuel₀ files phases, (∀ fuel, fuel₀ ≤ fuel →
        buildsections fuel f folders = some (files, phases)) ∧
      (Declared files phases ↔ Categorized env session sln prj ∧
        getbuildcategory projectnode.name ≠ some "Resources".toList ∧
        getbuildcategory projectnode.name ≠ some "Sources".toList) := by
  obtain ⟨deps, t, P, hdeps, hmarked⟩ := exists_marked hbuild hids
  rw [categorized_iff hdeps]
  exact hmarked.exists_sections

section Example

/-- A session with a program that links another project of some kind. -/
def linkSession (kind : String) : List Solution :=
  [{ obj := Container.ofBlock ((Fields.empty.set .configurations ⟨["Debug".toList], []⟩).set
       .basedir "/home".toList) (configuration 0 [])
     projects := [{
       name := "App".toList
       usage := false
       obj := Container.ofBlock ((Fields.empty.set .language "C++".toList).set .basedir
         "/home".toList) (((configuration 1 []).set .kind "ConsoleApp".toList).set .links
           ⟨["Tool".toList], ["Tool".toList]⟩) }, {
       name := "Tool".toList
       usage := false
       obj := Container.ofBlock ((Fields.empty.set .language "C++".toList).set .basedir
         "/home".toList) ((configuration 2 []).set .kind kind.toList) }] }]

def serial (k : ℕ) : Str := List.replicate k '0'

theorem serial_injective {i j : ℕ} (h : serial i = serial j) : i = j := by
  rw [← List.length_replicate (n := i) (a := '0'), ← List.length_replicate (n := j) (a := '0')]
  exact congrArg List.length h

/-- The solution after baking, with the program and the node of its product. -/
def linkedProgram (kind : String) : Option (Workspace × BakedProject × ProjectNode) := do
  let session := linkSession kind
  let solutions ← (buildconfigs xcode3 session (commandHeap session)).toOption
  let b ← solutions.head?
  let prj ← b.projects.head?
  let (projectnodes, _) ← preparesolution serial ⟨b, "MySolution".toList⟩
  let projectnode ← projectnodes.head?
  return (⟨b, "MySolution".toList⟩, prj, projectnode)

theorem declared_archive : ∃ sln prj projectnode f folders last,
    linkedProgram "StaticLib" = some (sln, prj, projectnode) ∧
    buildprjtree xcode3 [sln] sln prj projectnode serial 4 20 = some (f, folders, last) ∧
    ∃ fuel₀ files phases, (∀ fuel, fuel₀ ≤ fuel →
        buildsections fuel f folders = some (files, phases)) ∧ Declared files phases := by
  have hrun : ((linkedProgram "StaticLib").bind fun r =>
      (buildprjtree xcode3 [r.1] r.1 r.2.1 r.2.2 serial 4 20).bind fun _ =>
        (dependencies xcode3 [r.1] r.1 r.2.1).map fun deps =>
          (deps.all fun dep => (getbuildcategory dep.linktarget.name).isSome) &&
          getbuildcategory r.2.2.name ≠ some "Resources".toList &&
          getbuildcategory r.2.2.name ≠ some "Sources".toList) = some true := by
    decide +kernel
  obtain ⟨⟨sln, prj, projectnode⟩, hlinked, hrun⟩ := Option.bind_eq_some_iff.mp hrun
  obtain ⟨⟨f, folders, last⟩, hbuild, hrun⟩ := Option.bind_eq_some_iff.mp hrun
  obtain ⟨deps, hdeps, hrun⟩ := Option.map_eq_some_iff.mp hrun
  simp only [Bool.and_eq_true, List.all_eq_true, decide_eq_true_iff] at hrun
  obtain ⟨⟨hcategories, hresource⟩, hsource⟩ := hrun
  obtain ⟨fuel₀, files, phases, hsections, hiff⟩ :=
    declared_iff hbuild fun i j _ _ h => serial_injective h
  exact ⟨sln, prj, projectnode, f, folders, last, hlinked, hbuild, fuel₀, files, phases, hsections,
    hiff.mpr ⟨(categorized_iff hdeps).mpr hcategories, hresource, hsource⟩⟩

/-- The phase for the frameworks refers to a program without an ID. -/
theorem not_declared_program : ∃ sln prj projectnode f folders last files phases,
    linkedProgram "ConsoleApp" = some (sln, prj, projectnode) ∧
    buildprjtree xcode3 [sln] sln prj projectnode serial 4 20 = some (f, folders, last) ∧
    buildsections 20 f folders = some (files, phases) ∧ ¬ Declared files phases := by
  have hrun : ((linkedProgram "ConsoleApp").bind fun r =>
      (buildprjtree xcode3 [r.1] r.1 r.2.1 r.2.2 serial 4 20).bind fun s =>
        (buildsections 20 s.1 s.2.1).map fun t => t.2.map BuildPhase.files) =
      some [[⟨none, "Tool".toList⟩], [], []] := by
    decide +kernel
  obtain ⟨⟨sln, prj, projectnode⟩, hlinked, hrun⟩ := Option.bind_eq_some_iff.mp hrun
  obtain ⟨⟨f, folders, last⟩, hbuild, hrun⟩ := Option.bind_eq_some_iff.mp hrun
  obtain ⟨⟨files, phases⟩, hsections, hfiles⟩ := Option.map_eq_some_iff.mp hrun
  refine ⟨sln, prj, projectnode, f, folders, last, files, phases, hlinked, hbuild, hsections,
    fun h => ?_⟩
  obtain ⟨phase, hphase, hentries⟩ := List.mem_map.mp (hfiles ▸ List.mem_cons_self)
  exact h.notMem hphase "Tool".toList (hentries ▸ List.mem_cons_self)

end Example

end Xcode

end Puremake
