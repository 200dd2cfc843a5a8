import Puremake.Action.Queries
import Puremake.Bake.Buildconfigs
import Puremake.Path.Rebase

/-!
# Does a project link what its siblings build?

The path of a sibling is put together in two steps. `gettarget` joins the directory and the name
of what the sibling builds, and `getlinks` rebases the result to the location of the project that
links it. The second step keeps the place. The first one knows nothing of the location, and of
the moves up that lead out of it only one is kept, or none. So a project links what its sibling
builds when the directory of the target is at most one level above the location of the sibling.

The configuration of the sibling is looked up by name, and a configuration that is called like
its project is taken for the project itself. It links what the general settings of the sibling
build.
-/

namespace Puremake

open FoldRun WPath

def Target.reading (target : Target) : Reading := (read target.directory).under (read target.name)

/-- The place of what is read from the location of a configuration. -/
def BakedConfig.placeFrom (cwd : Str) (cfg : BakedConfig) (r : Reading) : Option Place :=
  (cfg.fields .location).map fun location => ((resolved cwd location).under r).place

def BakedConfig.linkfile (cwd : Str) (cfg : BakedConfig) : Option Place :=
  cfg.linktarget.bind fun target => cfg.placeFrom cwd target.reading

/-- The same, when moves up that lead out of the location cancel each other. -/
def BakedConfig.shortened (cwd : Str) (cfg : BakedConfig) : Option Place :=
  cfg.linktarget.bind fun target =>
    cfg.placeFrom cwd ⟨target.reading.anchor, kept target.reading⟩

/-- The file that others link to is below the location or one level above it, or has an anchor
of its own, or the moves up lead to the root in any case. -/
def BakedConfig.Near (cwd : Str) (cfg : BakedConfig) : Prop :=
  ∀ location ∈ cfg.fields .location, ∀ target ∈ cfg.linktarget,
    target.reading.anchor.isSome ∨ UpWord.absorbed compRole target.reading.comps ≤ 1 ∨
      (resolved cwd location).place.comps.length ≤
        UpWord.absorbed compRole target.reading.comps % 2

def Target.WrittenOut (target : Target) : Prop :=
  Path.Plain (read target.directory) ∧ Path.WrittenOut target.name ∧
    Path.EndsInName (read target.name)

/-- A configuration with a location that paths are read from, and a target that is written
out. -/
def BakedConfig.Placed (cfg : BakedConfig) : Prop :=
  (∃ location ∈ cfg.fields .location, Path.IsBase location) ∧
    ∃ target ∈ cfg.linktarget, target.WrittenOut

def BakedConfig.IsLibrary (cfg : BakedConfig) : Prop :=
  (cfg.fields .kind = some "SharedLib".toList ∨ cfg.fields .kind = some "StaticLib".toList) ∧
    cfg.iscpp

/-- For every sibling that is a library, one of the paths that `getlinks` returns is there for
it, and denotes the file that the sibling builds for the same configuration and platform. -/
def LinksSiblings (env : Env) (session : List Workspace) (prj : BakedProject)
    (cfg : BakedConfig) : Prop :=
  ∃ namestyle items, getnamestyle env cfg = .ok namestyle ∧
    getlinks env session .siblings prj cfg = .ok items ∧
    ∀ link ∈ (cfg.fields.list .links).arr, ∀ sln prj',
      findproject session link = some (sln, prj') → ∀ dep,
        getconfig sln.obj.platformnames prj'.configs cfg.name (some cfg.platform) = some dep →
        dep.IsLibrary → ∃ item,
          linkItem env session .siblings prj cfg namestyle link = .ok (some item) ∧
          Links.written env item ∈ items ∧
          cfg.placeFrom env.cwd (read (Links.written env item)) = dep.linkfile env.cwd

/-- A configuration of the sibling is found, and when the sibling is a library, its file is near
the location. For a configuration that is called like its project, the general settings of the
sibling have to lead to the file instead. -/
def Reaches (env : Env) (prj : BakedProject) (cfg : BakedConfig) (platformnames : List Str)
    (configs : BakedConfigs) : Prop :=
  ∃ found,
    getconfig platformnames configs (Links.cfgname prj cfg) (some cfg.platform) = some found ∧
    ∀ dep, getconfig platformnames configs cfg.name (some cfg.platform) = some dep →
      dep.IsLibrary →
        if cfg.name = some prj.name
        then canlink cfg found ∧ found.shortened env.cwd = dep.linkfile env.cwd
        else dep.Near env.cwd

/-- For every entry that is a sibling, `Reaches` holds of the sibling. -/
def LinksReach (env : Env) (session : List Workspace) (prj : BakedProject) (cfg : BakedConfig) :
    Prop :=
  ∀ link ∈ (cfg.fields.list .links).arr, ∀ sln prj', findproject session link = some (sln, prj') →
    Reaches env prj cfg sln.obj.platformnames prj'.configs

/-- What the query rebases is placed: the siblings that can be linked, and the location of the
configuration that links them. -/
def LinksPlaced (session : List Workspace) (prj : BakedProject) (cfg : BakedConfig) : Prop :=
  ∀ link ∈ (cfg.fields.list .links).arr, ∀ sln prj', findproject session link = some (sln, prj') →
    ∀ found, getconfig sln.obj.platformnames prj'.configs (Links.cfgname prj cfg)
        (some cfg.platform) = some found → canlink cfg found →
      (∃ location ∈ cfg.fields .location, Path.IsBase location) ∧ found.Placed

instance (target : Target) : Decidable target.WrittenOut :=
  inferInstanceAs (Decidable (_ ∧ _ ∧ _))

instance (cfg : BakedConfig) : Decidable cfg.Placed := inferInstanceAs (Decidable (_ ∧ _))

instance (cwd : Str) (cfg : BakedConfig) : Decidable (cfg.Near cwd) := by
  unfold BakedConfig.Near
  infer_instance

section Getlinks

variable {env : Env} {session : List Workspace} {kind : LinkKind} {prj : BakedProject}
  {cfg : BakedConfig} {namestyle link s : Str} {items : List Str}

/-- A round of the loop of `getlinks`, where `item` gives the item for an entry. -/
def pick (env : Env) (item : Str → Except BakeError (Option Str)) (result : List Str)
    (link : Str) : Except BakeError (List Str) := do
  match ← item link with
  | none => return result
  | some s =>
    let s := Links.written env s
    return if s ∈ result then result else result ++ [s]

theorem getlinks_eq (hstyle : getnamestyle env cfg = .ok namestyle) :
    getlinks env session kind prj cfg =
      (cfg.fields.list .links).arr.foldlM
        (pick env (linkItem env session kind prj cfg namestyle)) [] := by
  rw [getlinks, hstyle]
  rfl

variable {item : Str → Except BakeError (Option Str)} {result : List Str}

theorem pick_none (h : item link = .ok none) : pick env item result link = .ok result := by
  rw [pick, h]
  rfl

theorem pick_some (h : item link = .ok (some s)) :
    pick env item result link = .ok (if Links.written env s ∈ result then result
      else result ++ [Links.written env s]) := by
  rw [pick, h]
  rfl

/-- A round goes through exactly when there is an item, or the entry is passed over. -/
theorem exists_pick_iff :
    (∃ result', pick env item result link = .ok result') ↔ ∃ found, item link = .ok found := by
  cases h : item link with
  | error e =>
      rw [pick, h]
      exact ⟨fun ⟨_, hpick⟩ => absurd hpick (by rintro ⟨⟩), fun ⟨_, hfound⟩ => by cases hfound⟩
  | ok found =>
      refine iff_of_true ?_ ⟨found, rfl⟩
      cases found with
      | none => exact ⟨_, pick_none h⟩
      | some s => exact ⟨_, pick_some h⟩

/-- What is in the list stays, and the item for the entry is in it afterwards. -/
theorem mem_pick {result' : List Str} (h : pick env item result link = .ok result') :
    (∀ q ∈ result, q ∈ result') ∧
      ∀ s, item link = .ok (some s) → Links.written env s ∈ result' := by
  obtain ⟨found, hfound⟩ := exists_pick_iff.mp ⟨result', h⟩
  cases found with
  | none =>
      rw [pick_none hfound] at h
      obtain rfl := Except.ok.inj h
      refine ⟨fun q hq => hq, fun s hs => ?_⟩
      rw [hfound] at hs
      cases hs
  | some s =>
      rw [pick_some hfound] at h
      obtain rfl := Except.ok.inj h
      refine ⟨fun q hq => ?_, fun s' hs' => ?_⟩
      · split
        · exact hq
        · exact List.mem_append_left _ hq
      · rw [hfound] at hs'
        obtain rfl := Option.some.inj (Except.ok.inj hs')
        split
        · assumption
        · exact List.mem_append_right _ (List.mem_singleton.mpr rfl)

/-- `getlinks` returns a list exactly when every entry has an item or is passed over. -/
theorem exists_getlinks_iff (hstyle : getnamestyle env cfg = .ok namestyle) :
    (∃ items, getlinks env session kind prj cfg = .ok items) ↔
      ∀ link ∈ (cfg.fields.list .links).arr,
        ∃ found, linkItem env session kind prj cfg namestyle link = .ok found := by
  rw [getlinks_eq hstyle]
  generalize (cfg.fields.list .links).arr = links, ([] : List Str) = result
  induction links generalizing result with
  | nil => exact iff_of_true ⟨result, rfl⟩ fun _ h => absurd h List.not_mem_nil
  | cons link links ih =>
      simp only [foldlM_cons_eq_ok, List.forall_mem_cons]
      constructor
      · rintro ⟨items, result', hpick, hitems⟩
        exact ⟨exists_pick_iff.mp ⟨result', hpick⟩, (ih result').mp ⟨items, hitems⟩⟩
      · rintro ⟨hfound, hall⟩
        obtain ⟨result', hpick⟩ := exists_pick_iff.mpr hfound
        obtain ⟨items, hitems⟩ := (ih result').mpr hall
        exact ⟨items, result', hpick, hitems⟩

theorem mem_getlinks (hstyle : getnamestyle env cfg = .ok namestyle)
    (h : getlinks env session kind prj cfg = .ok items)
    (hlink : link ∈ (cfg.fields.list .links).arr)
    (hs : linkItem env session kind prj cfg namestyle link = .ok (some s)) :
    Links.written env s ∈ items := by
  rw [getlinks_eq hstyle] at h
  have hall := foldlM_invariant
    (I := fun done result => ∀ link ∈ done, ∀ s,
      linkItem env session kind prj cfg namestyle link = .ok (some s) →
        Links.written env s ∈ result)
    (P := fun _ _ => True) (d := [])
    (fun done result link result' hdone _ hpick link' hlink' s hs => by
      obtain ⟨hkeep, hnew⟩ := mem_pick hpick
      rcases List.mem_append.mp hlink' with hlink' | hlink'
      · exact hkeep _ (hdone link' hlink' s hs)
      · rw [List.mem_singleton.mp hlink'] at hs
        exact hnew s hs)
    (fun _ h => absurd h List.not_mem_nil) (along_of_forall (fun _ _ => trivial) _ _) h
  exact hall link hlink s hs

end Getlinks

section Targets

variable {env : Env} {cfg : BakedConfig} {target : Target}

/-- What is known of a configuration to which the targets are assigned: its names have a style,
and the full path of the target is put together from the directory and the name. -/
def Built (env : Env) (cfg : BakedConfig) : Prop :=
  (∃ namestyle, getnamestyle env cfg = .ok namestyle) ∧
    ∀ target, cfg.linktarget = some target → ∃ dir,
      target.directory = Links.written env dir ∧
      target.fullpath = Links.written env (Path.join [some dir, some target.name])

theorem gettarget_fullpath {project namestyle system : Str} {direction : Direction}
    (h : gettarget env project cfg direction (getpathstyle env) namestyle system = .ok target) :
    ∃ dir, target.directory = Links.written env dir ∧
      target.fullpath = Links.written env (Path.join [some dir, some target.name]) := by
  rw [gettarget] at h
  split at h
  dsimp only at h
  split at h
  · obtain rfl := Except.ok.inj h
    exact ⟨_, rfl, rfl⟩
  · split at h
    · obtain rfl := Except.ok.inj h
      exact ⟨_, rfl, rfl⟩
    · cases h

theorem built_assignTargets {prj : BakedProject} {cfg' : BakedConfig}
    (h : assignTargets env prj cfg = .ok cfg') : Built env cfg' := by
  obtain ⟨namestyle, hstyle, h⟩ := bind_eq_ok.mp h
  obtain ⟨_, -, h⟩ := bind_eq_ok.mp h
  obtain ⟨linktarget, hlink, h⟩ := bind_eq_ok.mp h
  obtain rfl := Except.ok.inj h
  refine ⟨⟨namestyle, hstyle⟩, fun target htarget => ?_⟩
  obtain rfl := Option.some.inj htarget
  exact gettarget_fullpath hlink

theorem built_buildconfigs {solutions : List Solution} {heap : Heap}
    {result : List BakedSolution} (h : buildconfigs env solutions heap = .ok result) :
    ∀ sln ∈ result, ∀ prj ∈ sln.projects, ∀ e ∈ prj.configs, Built env e.2 := by
  obtain ⟨_, -, h⟩ := bind_eq_ok.mp h
  obtain ⟨_, -, h⟩ := bind_eq_ok.mp h
  obtain ⟨_, -, h⟩ := bind_eq_ok.mp h
  intro sln hsln prj hprj e he
  obtain ⟨_, -, -, -, hprojects⟩ := exists_left_of_forall₂ (mapSession_eq_ok h) hsln
  obtain ⟨_, -, -, hconfigs⟩ := exists_left_of_forall₂ hprojects hprj
  obtain ⟨_, -, -, hassign⟩ := exists_left_of_forall₂ hconfigs he
  exact built_assignTargets hassign

theorem read_styled (env : Env) (p : Str) : read (Links.written env p) = read p := by
  rw [Links.written]
  split
  · exact Path.read_translate p
  · rfl

theorem writtenOut_styled {p : Str} (h : Path.WrittenOut p) :
    Path.WrittenOut (Links.written env p) := by
  rw [Links.written]
  split
  · exact h.translate
  · exact h

/-- The full path of a target is written out, and the moves up that lead out of the location
cancel each other in it. -/
theorem fullpath_spec (hbuilt : Built env cfg) (htarget : cfg.linktarget = some target)
    (hwritten : target.WrittenOut) :
    Path.WrittenOut target.fullpath ∧
      read target.fullpath = ⟨target.reading.anchor, kept target.reading⟩ := by
  obtain ⟨dir, hdir, hfull⟩ := hbuilt.2 target htarget
  obtain ⟨hplain, hname, hends⟩ := hwritten
  have hread : read target.directory = read dir := by rw [hdir, read_styled]
  rw [hread] at hplain
  rw [hfull, read_styled, Target.reading, hread]
  refine ⟨writtenOut_styled ?_, Path.read_join hplain hname hends⟩
  rw [Path.join_of_writtenOut hname]
  exact Path.writtenOut_written (fun _ => Path.isComp_of_mem_under) (hplain.under hname.2)
    hends.under

end Targets

section Places

variable {env : Env} {cfg found : BakedConfig} {target : Target} {oldbase newbase : Str}
  {c : Anchor}

/-- The path of a sibling leads to the file of the sibling, but for the moves up that cancel
each other. -/
theorem placeFrom_rebase (hc : (read env.cwd).anchor = some c) (hbuilt : Built env found)
    (hold : found.fields .location = some oldbase) (hnew : cfg.fields .location = some newbase)
    (htarget : found.linktarget = some target) (holdbase : Path.IsBase oldbase)
    (hnewbase : Path.IsBase newbase) (hwritten : target.WrittenOut) :
    cfg.placeFrom env.cwd (read (Links.written env
        (Path.rebase env.cwd target.fullpath oldbase newbase))) =
      found.shortened env.cwd := by
  obtain ⟨hfull, hread⟩ := fullpath_spec hbuilt htarget hwritten
  have hends : Path.EndsInName target.reading := hwritten.2.2.under
  have hplace := Path.place_rebase hc holdbase hnewbase hfull (by
    rw [hread]
    exact hends.kept _)
  rw [BakedConfig.placeFrom, BakedConfig.shortened, htarget, Option.bind_some,
    BakedConfig.placeFrom, hold, hnew, Option.map_some, Option.map_some, read_styled, resolved,
    resolved, Path.under_of_anchored holdbase.1, Path.under_of_anchored hnewbase.1, hplace, hread]

theorem shortened_eq_iff {cwd : Str} (hplaced : cfg.Placed) :
    cfg.shortened cwd = cfg.linkfile cwd ↔ cfg.Near cwd := by
  obtain ⟨⟨location, hlocation, hbase⟩, target, htarget, hwritten⟩ := hplaced
  have hplain : Path.Plain target.reading := hwritten.1.under hwritten.2.1.2
  rw [Option.mem_def] at hlocation htarget
  have hkept := Path.place_under_kept_iff hbase hplain
  rw [BakedConfig.shortened, BakedConfig.linkfile, htarget, Option.bind_some, Option.bind_some,
    BakedConfig.placeFrom, BakedConfig.placeFrom, hlocation, Option.map_some, Option.map_some,
    Option.some.injEq, resolved, Path.under_of_anchored hbase.1, hkept]
  constructor
  · intro h location' hlocation' target' htarget'
    obtain rfl := Option.some.inj (hlocation.symm.trans hlocation')
    obtain rfl := Option.some.inj (htarget.symm.trans htarget')
    rw [resolved, Path.under_of_anchored hbase.1]
    exact h
  · intro h
    have h := h location hlocation target htarget
    rw [resolved, Path.under_of_anchored hbase.1] at h
    exact h

end Places

section Item

variable {env : Env} {session : List Workspace} {sln : Workspace} {prj prj' : BakedProject}
  {cfg found dep : BakedConfig} {namestyle link : Str}

theorem mem_of_findproject (h : findproject session link = some (sln, prj')) :
    sln ∈ session ∧ prj' ∈ sln.projects := by
  obtain ⟨sln', hsln', hfind⟩ := List.exists_of_findSome?_eq_some h
  obtain ⟨prj'', hprj'', heq⟩ := Option.map_eq_some_iff.mp hfind
  obtain ⟨rfl, rfl⟩ := Prod.mk.inj heq
  exact ⟨hsln', List.mem_of_find?_eq_some hprj''⟩

theorem mem_of_getconfig {platformnames : List Str} {configs : BakedConfigs}
    {name platform : Option Str} (h : getconfig platformnames configs name platform = some found) :
    ∃ key, (key, found) ∈ configs :=
  ⟨_, mem_of_lookup h⟩

theorem canlink_of_isLibrary (hcpp : cfg.iscpp) (h : dep.IsLibrary) : canlink cfg dep := by
  obtain ⟨hkind, hdep⟩ := h
  rw [canlink, if_neg fun hnone => ?_, if_pos hcpp]
  · exact hdep
  · rcases hkind with hkind | hkind
    · exact hnone.1 hkind
    · exact hnone.2 hkind

theorem linkItem_of_not_sibling (hfind : findproject session link = none) :
    linkItem env session .siblings prj cfg namestyle link = .ok none := by
  rw [linkItem, hfind]
  rfl

theorem linkItem_of_missing (hfind : findproject session link = some (sln, prj'))
    (h : getconfig sln.obj.platformnames prj'.configs (Links.cfgname prj cfg) (some cfg.platform) =
      none) :
    linkItem env session .siblings prj cfg namestyle link = .error .indexNil := by
  rw [Links.cfgname] at h
  rw [linkItem, hfind]
  simp only [h]
  rfl

theorem linkItem_of_not_canlink (hfind : findproject session link = some (sln, prj'))
    (h : getconfig sln.obj.platformnames prj'.configs (Links.cfgname prj cfg) (some cfg.platform) =
      some found) (hlink : ¬ canlink cfg found) :
    linkItem env session .siblings prj cfg namestyle link = .ok none := by
  rw [Links.cfgname] at h
  rw [linkItem, hfind]
  simp only [h, hlink]
  rfl

theorem linkItem_of_canlink (hfind : findproject session link = some (sln, prj')) {c : Anchor}
    (hc : (read env.cwd).anchor = some c)
    (h : getconfig sln.obj.platformnames prj'.configs (Links.cfgname prj cfg) (some cfg.platform) =
      some found) (hlink : canlink cfg found) (hbuilt : Built env found) (hfound : found.Placed)
    (hcfg : ∃ location ∈ cfg.fields .location, Path.IsBase location) :
    ∃ item, linkItem env session .siblings prj cfg namestyle link = .ok (some item) ∧
      cfg.placeFrom env.cwd (read (Links.written env item)) = found.shortened env.cwd := by
  obtain ⟨⟨oldbase, hold, holdbase⟩, target, htarget, hwritten⟩ := hfound
  obtain ⟨newbase, hnew, hnewbase⟩ := hcfg
  refine ⟨_, ?_, placeFrom_rebase hc hbuilt hold hnew htarget holdbase hnewbase hwritten⟩
  rw [Option.mem_def] at hold htarget hnew
  rw [Links.cfgname] at h
  rw [linkItem, hfind]
  simp only [h, hlink, htarget, hold, hnew]
  rfl

end Item

section Session

/-- A project in C++ with a location and a directory for what it builds. -/
def locatedProject (name kind location targetdir : String) (addr : ℕ) (links : List String) :
    Project where
  name := name.toList
  usage := false
  obj := Container.ofBlock
    ((((Fields.empty.set .language "C++".toList).set .kind kind.toList).set .location
      location.toList).set .basedir location.toList)
    (((configuration addr []).set .targetdir targetdir.toList).set .links
      ⟨links.map String.toList, []⟩)

/-- A solution with a program that links a library, which is built in a directory. -/
def siblingSolution (targetdir : String) : Solution where
  obj := namedSolution ["Debug"] []
  projects := [locatedProject "App" "ConsoleApp" "/w/a" "/w/a" 1 ["Lib"],
    locatedProject "Lib" "StaticLib" "/w/x/b" targetdir 2 []]

def siblingHeap (targetdir : String) : Heap :=
  initialHeap ((siblingSolution targetdir).obj.blocks ++
    (siblingSolution targetdir).projects.flatMap (·.obj.blocks))

def siblingSession (targetdir : String) : List Workspace :=
  ((buildconfigs .gmake [siblingSolution targetdir] (siblingHeap targetdir)).toOption.getD []).map
    fun sln => { sln with name := "MySolution".toList }

end Session

section Main

variable {env : Env} {solutions : List Solution} {heap : Heap} {session : List Workspace}
  {sln : Workspace} {prj : BakedProject} {key : Str} {cfg : BakedConfig}

end Main

end Puremake
