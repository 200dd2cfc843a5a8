import Puremake.Action.Generate
import Puremake.Action.Links
import Puremake.Tree.Visits
import Puremake.Xcode.Configs
import Puremake.Xcode.Untidy

/-!
# The tree of an Xcode project

`xcode.buildprjtree` takes the source tree, moves the localised files, and adds folders for the
frameworks, the product and the sibling projects. Then every node gets an ID, and a second one
when its name is that of a file that takes part in the build. The node of the
product comes last: it has been made for the whole solution before.
-/

namespace Puremake

namespace Xcode

open Puremake.Tree

/-- The table in `xcode.getbuildcategory`. -/
def categories : List (Str × Str) :=
  [(".a".toList, "Frameworks".toList),
    (".c".toList, "Sources".toList),
    (".cc".toList, "Sources".toList),
    (".cpp".toList, "Sources".toList),
    (".cxx".toList, "Sources".toList),
    (".dylib".toList, "Frameworks".toList),
    (".framework".toList, "Frameworks".toList),
    (".m".toList, "Sources".toList),
    (".mm".toList, "Sources".toList),
    (".strings".toList, "Resources".toList),
    (".nib".toList, "Resources".toList),
    (".xib".toList, "Resources".toList),
    (".icns".toList, "Resources".toList),
    (".bmp".toList, "Resources".toList),
    (".wav".toList, "Resources".toList)]

/-- `xcode.getbuildcategory`, for the name of a node -/
def getbuildcategory (name : Str) : Option Str := categories.lookup (Path.getextension name)

def isframework (fname : Str) : Bool := Path.getextension fname = ".framework".toList

def getxcodeprojname (env : Env) (prj : BakedProject) : Except ActionError Str :=
  getfilename env.cwd prj.writer (suffixed ".xcodeproj")

/-- The node for the product of a project, `prj.xcode.projectnode`. -/
structure ProjectNode where
  name : Str
  fullpath : Str
  id : Str
  targetid : Str
  deriving DecidableEq, Repr

/-- `xcode.preparesolution`, when `ids` are what the calls of `xcode.newid` give: the nodes for the
projects, and how many IDs have been made. -/
def preparesolution (ids : ℕ → Str) (sln : Workspace) : Option (List ProjectNode × ℕ) :=
  sln.projects.foldlM (fun s prj => do
    let cfg ← getconfig sln.obj.platformnames prj.configs sln.configurations[0]?
      (platforms sln).head?
    let buildtarget ← cfg.buildtarget
    return (s.1 ++ [⟨Path.getname buildtarget.bundlepath, buildtarget.fullpath, ids s.2,
      ids (s.2 + 1)⟩], s.2 + 2)) ([], 0)

structure Dependency where
  xcodeproj : Str
  linktarget : Target
  deriving DecidableEq, Repr

/-- What `xcode.buildprjtree` asks of a sibling project. The configurations of a project are those
of its solution. -/
def dependency (env : Env) (sln : Workspace) (dep : Workspace × BakedProject) :
    Option Dependency := do
  let xcodeproj ← (getxcodeprojname env dep.2).toOption
  let cfg ← getconfig dep.1.obj.platformnames dep.2.configs sln.configurations[0]? none
  let linktarget ← cfg.linktarget
  return ⟨xcodeproj, linktarget⟩

def dependencies (env : Env) (session : List Workspace) (sln : Workspace) (prj : BakedProject) :
    Option (List Dependency) :=
  (getdependencies env.ord session prj).mapM (dependency env sln)

structure Folders where
  frameworks : ℕ
  products : ℕ
  projects : ℕ

/-- `tree.insert(parent, tree.new(name))`, and the path of the new node, which has the address
`f.count`. -/
def insertnode (f : PrjTree) (parent : ℕ) (name path : Str) : PrjTree :=
  ((f.new (some name) .empty).insert parent f.count).modify f.count fun n =>
    { n with path := some path }

def addframework (frameworks : ℕ) (f : PrjTree) (link : Str) : PrjTree :=
  let name := Path.getname link
  if isframework name ∧ (f.node frameworks).index.lookup name = none then
    insertnode f frameworks name link
  else f

/-- The body of the loop over the dependencies. Four IDs are made besides. -/
def addproject (projects : ℕ) (f : PrjTree) (dep : Dependency) : PrjTree :=
  insertnode (insertnode f projects (Path.getname dep.xcodeproj) dep.xcodeproj) f.count
    dep.linktarget.name dep.linktarget.fullpath

/-- A special folder is only added to the tree when there is something in it. -/
def addfolder (f : PrjTree) (folder : ℕ) : PrjTree :=
  if (f.node folder).children.length > 0 then f.insert 0 folder else f

/-- The function `onnode` of the final setup. The ID that is made next is `ids s.2`. -/
def assignid (ids : ℕ → Str) : Visit NodeData ℕ := fun s n => do
  let name ← (s.1.node n).name
  let f := s.1.modify n fun node => { node with data := { node.data with id := some (ids s.2) } }
  if (getbuildcategory name).isSome then
    some (f.modify n fun node =>
      { node with data := { node.data with buildid := some (ids (s.2 + 1)) } }, s.2 + 2)
  else some (f, s.2 + 1)

def addproduct (ids : ℕ → Str) (products : ℕ) (projectnode : ProjectNode) (s : PrjTree × ℕ) :
    PrjTree × ℕ :=
  let f := (s.1.new (some projectnode.name)
    { NodeData.empty with id := some projectnode.id }).insert products s.1.count
  (f.modify s.1.count fun n =>
    { n with
      path := some projectnode.fullpath
      data := { n.data with
        kind := some "product".toList
        resstageid := some (ids (s.2 + 1))
        sourcesid := some (ids (s.2 + 2))
        fxstageid := some (ids (s.2 + 3)) } }, s.2 + 4)

def furnish (f : PrjTree) (links : List Str) (deps : List Dependency) : PrjTree × Folders :=
  let frameworks := f.count
  let f := links.foldl (addframework frameworks) (f.new (some "Frameworks".toList) .empty)
  let f := addfolder f frameworks
  let products := f.count
  let f := (f.new (some "Products".toList) .empty).insert 0 products
  let projects := f.count
  let f := deps.foldl (addproject projects) (f.new (some "Projects".toList) .empty)
  (addfolder f projects, ⟨frameworks, products, projects⟩)

/-- `xcode.buildprjtree`, when `next` IDs have been made: the tree with its root at the address 0,
the special folders, and how many IDs have been made then. -/
def buildprjtree (env : Env) (session : List Workspace) (sln : Workspace) (prj : BakedProject)
    (projectnode : ProjectNode) (ids : ℕ → Str) (next fuel : ℕ) :
    Option (PrjTree × Folders × ℕ) := do
  let root ← prj.root
  let src ← (Project.buildsourcetree env.ord prj.name root).toOption
  let configs ← (configs sln prj).toOption
  let f ← localize fuel 0 (ofSource src)
  let links ← ((eachconfig sln prj none).mapM (getlinks env session .system prj)).toOption
  let deps ← dependencies env session sln prj
  let (f, folders) := furnish f links.flatten deps
  let next := next + 2 * configs.length + 4 * deps.length
  let s ← Tree.traverse (calling (assignid ids) .skip) fuel 0 true 0 (f, next)
  let (f, next) := addproduct ids folders.products projectnode s
  return (f, folders, next)

end Xcode

end Puremake
