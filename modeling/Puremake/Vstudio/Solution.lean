import Puremake.Action.Objects

/-!
# Configurations of a Visual Studio solution

`vstudio.buildconfigs` lists every configuration with every platform, in the names
that Visual Studio has for them. Platforms are added for .NET projects in front of
those of the solution, and since Visual Studio 2010 also between them.
`sln2005.project_platforms` maps each of the pairs into each project. For a C/C++
project the added platforms stand for the first one that it can be built for, which
is taken from a fixed place of the list.
-/

namespace Puremake

namespace Vstudio

def platforms : List (Str × Str) :=
  [("any".toList, "Any CPU".toList),
    ("mixed".toList, "Mixed Platforms".toList),
    ("Native".toList, "Win32".toList),
    ("x86".toList, "x86".toList),
    ("x32".toList, "Win32".toList),
    ("x64".toList, "x64".toList),
    ("PS3".toList, "PS3".toList),
    ("Xbox360".toList, "Xbox 360".toList)]

def actions2005 : List Str :=
  ["vs2005".toList, "vs2008".toList, "vs2010".toList, "vs2012".toList, "vs2013".toList,
    "vs2015".toList]

/-- `_ACTION > "vs2008"` -/
def after2008 (action : Str) : Bool := "vs2008".toList < action

/-- `_ACTION < "vs2010"` -/
def before2010 (action : Str) : Bool := action < "vs2010".toList

/-- An entry of `sln.vstudio_configs`. -/
structure Config where
  src_buildcfg : Str
  src_platform : Str
  buildcfg : Str
  platform : Str
  name : Str
  isreal : Bool
  deriving DecidableEq, Repr

/-- In solutions of Visual Studio 2010 and later `x86` stands beside `Win32`, or in its
place when there are .NET projects only. -/
def expand2010 (hascpp hasdotnet : Bool) (platform : Str) : List Str :=
  if platforms.lookup platform = some "Win32".toList then
    (if hascpp then [platform] else []) ++ if hasdotnet then ["x86".toList] else []
  else [platform]

/-- Solutions with C/C++ and .NET projects have `mixed` in front, and since Visual Studio
2010 all solutions with .NET projects. -/
def addMixed (action : Str) (hascpp hasdotnet : Bool) (ps : List Str) : List Str :=
  if hasdotnet ∧ (after2008 action ∨ hascpp) then "mixed".toList :: ps else ps

/-- Solutions with .NET projects have `any` in front, and since Visual Studio 2010 only
those without C/C++ projects. -/
def addAny (action : Str) (hascpp hasdotnet : Bool) (ps : List Str) : List Str :=
  if hasdotnet ∧ (before2010 action ∨ ¬ hascpp) then "any".toList :: ps else ps

/-- The platforms for `Win32` are looked at since Visual Studio 2010. -/
def addX86 (action : Str) (hascpp hasdotnet : Bool) (ps : List Str) : List Str :=
  if after2008 action then ps.flatMap (expand2010 hascpp hasdotnet) else ps

/-- The platforms that `vstudio.buildconfigs` lists, in order. -/
def buildPlatforms (action : Str) (sln : Workspace) : List Str :=
  addX86 action (hascppproject sln) (hasdotnetproject sln)
    (addAny action (hascppproject sln) (hasdotnetproject sln)
      (addMixed action (hascppproject sln) (hasdotnetproject sln)
        (filterplatforms sln.obj.platformnames platforms (some native))))

/-- The names of the configuration and the platform in an entry. Before Visual Studio
2010, `PS3` is a configuration rather than a platform. There is no name for a platform
that Visual Studio does not have. -/
def entryNames (action buildcfg platform : Str) : Option (Str × Str) :=
  if platform ≠ "PS3".toList ∨ after2008 action then
    (platforms.lookup platform).map fun plt => (buildcfg, plt)
  else some (platform ++ ' ' :: buildcfg, "Win32".toList)

def entry (action buildcfg platform : Str) : Option Config :=
  (entryNames action buildcfg platform).map fun names =>
    ⟨buildcfg, platform, names.1, names.2, names.1 ++ '|' :: names.2,
      platform ≠ "any".toList ∧ platform ≠ "mixed".toList⟩

/-- `vstudio.buildconfigs`; there is no result when a name cannot be put together. -/
def buildconfigs (action : Str) (sln : Workspace) : Option (List Config) :=
  (sln.configurations.flatMap fun buildcfg =>
    (buildPlatforms action sln).map fun platform => (buildcfg, platform)).mapM
      fun pair => entry action pair.1 pair.2

/-- What `sln2005.project_platforms` writes for a pair and a project. -/
structure Mapping where
  uuid : Str
  cfg : Config
  mapped : Str
  deriving DecidableEq, Repr

/-- `sln2005.project_platforms_sln2prj_mapping` -/
def Mapping.lines (m : Mapping) : List Str :=
  let row (what : String) : Str :=
    "\t\t\x7b".toList ++ m.uuid ++ "\x7d.".toList ++ m.cfg.name ++ what.toList ++ " = ".toList ++
      m.cfg.buildcfg ++ '|' :: m.mapped
  row ".ActiveCfg" :: if m.mapped = m.cfg.platform ∨ m.cfg.platform = "Mixed Platforms".toList
    then [row ".Build.0"] else []

/-- A platform that stands for the first one of the solution in C/C++ projects. -/
def isAdded (platform : Str) : Bool :=
  platform = "Any CPU".toList ∨ platform = "Mixed Platforms".toList

/-- The platform that a pair is mapped to in a project. There is none when the list of
pairs is too short. -/
def mapped (configs : List Config) (prj : BakedProject) (cfg : Config) : Option Str :=
  if isdotnetproject prj then some "Any CPU".toList
  else if isAdded cfg.platform then configs[2]?.map Config.platform
  else some cfg.platform

def mapping (configs : List Config) (prj : BakedProject) (cfg : Config) : Option Mapping :=
  (mapped configs prj cfg).map fun plt =>
    ⟨(prj.root.bind fun root => root.fields .uuid).getD [], cfg, plt⟩

/-- `sln2005.project_platforms`, for the pairs in `sln.vstudio_configs`. -/
def project_platforms (sln : Workspace) (configs : List Config) :
    Option (List (BakedProject × Mapping)) :=
  (sln.projects.flatMap fun prj => configs.map fun cfg => (prj, cfg)).mapM
    fun pair => (mapping configs pair.1 pair.2).map (pair.1, ·)

open FoldRun

section Mapping

variable {action : Str} {sln : Workspace}

def ownPlatforms (sln : Workspace) : List Str :=
  filterplatforms sln.obj.platformnames platforms (some native)

/-- The pairs can be listed and mapped, and in every C/C++ project the added platforms
are mapped to the first pair with a platform of the solution itself. -/
def MapsToReal (action : Str) (sln : Workspace) : Prop :=
  ∃ configs first rows, buildconfigs action sln = some configs ∧
    configs.find? (fun cfg => cfg.src_platform ∈ ownPlatforms sln) = some first ∧
    project_platforms sln configs = some rows ∧
    ∀ row ∈ rows, iscppproject row.1 → isAdded row.2.cfg.platform →
      row.2.mapped = first.platform

/-- The added platforms are not among those that a solution can list. -/
theorem added_notMem_platformKeys : ∀ p ∈ ["any".toList, "mixed".toList, "x86".toList],
    p ∉ platformKeys := by
  decide

theorem ownPlatforms_eq (hps : ∀ p ∈ sln.obj.platformnames, p ∈ platformKeys) :
    ∃ p ps, ownPlatforms sln = p :: ps ∧ (∀ q ∈ p :: ps, q ∈ platformKeys) ∧
      (∀ q ∈ p :: ps, (platforms.lookup q).isSome) ∧
      ((p :: ps).map fun q => platforms.lookup q).Nodup := by
  obtain ⟨hne, hmem, hsome, hnodup⟩ :=
    filterplatforms_spec platforms sln.obj.platformnames native (by decide)
  obtain ⟨p, ps, heq⟩ := List.exists_cons_of_ne_nil hne
  rw [heq] at hmem hsome hnodup
  refine ⟨p, ps, heq, fun q hq => ?_, hsome, hnodup⟩
  rcases hmem q hq with hq | rfl
  · exact hps q hq
  · exact native_mem_platformKeys

theorem notMem_ownPlatforms (hps : ∀ p ∈ sln.obj.platformnames, p ∈ platformKeys) {p : Str}
    (hp : p ∈ ["any".toList, "mixed".toList, "x86".toList]) : p ∉ ownPlatforms sln := by
  obtain ⟨q, qs, heq, hkeys, -⟩ := ownPlatforms_eq hps
  rw [heq]
  exact fun hmem => added_notMem_platformKeys p hp (hkeys p hmem)

theorem entry_src {c p : Str} {cfg : Config} (h : entry action c p = some cfg) :
    cfg.src_platform = p := by
  obtain ⟨names, -, rfl⟩ := Option.map_eq_some_iff.mp h
  rfl

theorem entry_platform {c p : Str} {cfg : Config} (h : entry action c p = some cfg)
    (hp : after2008 action) : platforms.lookup p = some cfg.platform := by
  obtain ⟨names, hnames, rfl⟩ := Option.map_eq_some_iff.mp h
  rw [entryNames, if_pos (Or.inr hp)] at hnames
  obtain ⟨plt, hplt, rfl⟩ := Option.map_eq_some_iff.mp hnames
  exact hplt

theorem entry_isSome {c p : Str} (hp : (platforms.lookup p).isSome) :
    (entry action c p).isSome := by
  rw [entry, Option.isSome_map, entryNames]
  split
  · simpa using hp
  · rfl

theorem buildconfigs_eq_some {configs : List Config} :
    buildconfigs action sln = some configs ↔
      List.Forall₂ (fun pair cfg => entry action pair.1 pair.2 = some cfg)
        (sln.configurations.flatMap fun c => (buildPlatforms action sln).map fun p => (c, p))
        configs :=
  mapM_eq_some

theorem exists_row {configs : List Config} {rows : List (BakedProject × Mapping)}
    (h : project_platforms sln configs = some rows) {prj : BakedProject}
    (hprj : prj ∈ sln.projects) {cfg : Config} (hcfg : cfg ∈ configs) :
    ∃ row ∈ rows, row.1 = prj ∧ row.2.cfg = cfg ∧ mapped configs prj cfg = some row.2.mapped := by
  have hpair : (prj, cfg) ∈ sln.projects.flatMap fun prj => configs.map fun cfg => (prj, cfg) :=
    List.mem_flatMap.mpr ⟨prj, hprj, List.mem_map.mpr ⟨cfg, hcfg, rfl⟩⟩
  obtain ⟨row, hrow, heq⟩ := exists_right_of_forall₂ (mapM_eq_some.mp h) hpair
  obtain ⟨m, hm, rfl⟩ := Option.map_eq_some_iff.mp heq
  obtain ⟨plt, hplt, rfl⟩ := Option.map_eq_some_iff.mp hm
  exact ⟨_, hrow, rfl, rfl, hplt⟩

theorem row_eq {configs : List Config} {rows : List (BakedProject × Mapping)}
    (h : project_platforms sln configs = some rows) {row : BakedProject × Mapping}
    (hrow : row ∈ rows) : mapped configs row.1 row.2.cfg = some row.2.mapped := by
  obtain ⟨pair, -, heq⟩ := exists_left_of_forall₂ (mapM_eq_some.mp h) hrow
  obtain ⟨m, hm, rfl⟩ := Option.map_eq_some_iff.mp heq
  obtain ⟨plt, hplt, rfl⟩ := Option.map_eq_some_iff.mp hm
  exact hplt

theorem not_dotnet_of_cpp {prj : BakedProject} (h : iscppproject prj) :
    isdotnetproject prj = false := by
  rw [iscppproject, decide_eq_true_iff] at h
  rw [isdotnetproject, decide_eq_false_iff_not]
  rcases h with h | h <;> rw [h] <;> decide

end Mapping

section Layout

variable {action : Str} {sln : Workspace}

theorem buildPlatforms_before (hold : ¬ after2008 action ∧ before2010 action)
    (hcpp : hascppproject sln) (hdotnet : hasdotnetproject sln) :
    buildPlatforms action sln = "any".toList :: "mixed".toList :: ownPlatforms sln := by
  rw [buildPlatforms, addX86, if_neg hold.1, addAny, if_pos ⟨hdotnet, Or.inl hold.2⟩, addMixed,
    if_pos ⟨hdotnet, Or.inr hcpp⟩]
  rfl

theorem buildPlatforms_since (hnew : after2008 action ∧ ¬ before2010 action)
    (hcpp : hascppproject sln) (hdotnet : hasdotnetproject sln) :
    buildPlatforms action sln =
      "mixed".toList :: (ownPlatforms sln).flatMap (expand2010 true true) := by
  have hmixed : expand2010 true true "mixed".toList = ["mixed".toList] := by decide
  have hany : ¬ (hasdotnetproject sln ∧ (before2010 action ∨ ¬ hascppproject sln)) := by
    rintro ⟨-, hlt | hnot⟩
    · exact hnew.2 hlt
    · exact hnot hcpp
  rw [buildPlatforms, addX86, if_pos hnew.1, addAny, if_neg hany, addMixed,
    if_pos ⟨hdotnet, Or.inr hcpp⟩, hcpp, hdotnet]
  rw [List.flatMap_cons, hmixed]
  rfl

/-- Before Visual Studio 2010 the third pair is the first one that is not added. -/
theorem mapsToReal_before (hold : ¬ after2008 action ∧ before2010 action)
    (hps : ∀ p ∈ sln.obj.platformnames, p ∈ platformKeys) (hcs : sln.configurations ≠ [])
    (hcpp : hascppproject sln) (hdotnet : hasdotnetproject sln) : MapsToReal action sln := by
  obtain ⟨p, ps, hown, hkeys, hsome, -⟩ := ownPlatforms_eq hps
  obtain ⟨c, cs, hc⟩ := List.exists_cons_of_ne_nil hcs
  have hplts := buildPlatforms_before hold hcpp hdotnet
  rw [hown] at hplts
  obtain ⟨configs, hconfigs⟩ : ∃ configs, buildconfigs action sln = some configs := by
    refine exists_mapM_eq_some fun pair hpair => entry_isSome ?_
    obtain ⟨c, -, hpair⟩ := List.mem_flatMap.mp hpair
    obtain ⟨q, hq, rfl⟩ := List.mem_map.mp hpair
    rw [hplts] at hq
    have hadded : ∀ q ∈ ["any".toList, "mixed".toList], (platforms.lookup q).isSome := by
      decide
    rcases List.mem_cons.mp hq with rfl | hq
    · exact hadded _ List.mem_cons_self
    · rcases List.mem_cons.mp hq with rfl | hq
      · exact hadded _ (List.mem_cons_of_mem _ List.mem_cons_self)
      · exact hsome q hq
  have hpairs := buildconfigs_eq_some.mp hconfigs
  rw [hc, hplts, List.flatMap_cons, List.map_cons, List.map_cons, List.map_cons,
    List.cons_append, List.cons_append, List.cons_append] at hpairs
  obtain ⟨any, _, hany, hmore, rfl⟩ := List.forall₂_cons_left_iff.mp hpairs
  obtain ⟨mixed, _, hmixed, hmore', rfl⟩ := List.forall₂_cons_left_iff.mp hmore
  obtain ⟨first, rest, hfirst, -, rfl⟩ := List.forall₂_cons_left_iff.mp hmore'
  have hfind : (any :: mixed :: first :: rest).find?
      (fun cfg => cfg.src_platform ∈ ownPlatforms sln) = some first := by
    have hnotany := notMem_ownPlatforms hps (p := "any".toList) List.mem_cons_self
    have hnotmixed := notMem_ownPlatforms hps (p := "mixed".toList)
      (List.mem_cons_of_mem _ List.mem_cons_self)
    have hmem : first.src_platform ∈ ownPlatforms sln := by
      rw [entry_src hfirst, hown]
      exact List.mem_cons_self
    rw [List.find?_cons_of_neg, List.find?_cons_of_neg, List.find?_cons_of_pos]
    · exact decide_eq_true hmem
    · rw [decide_eq_true_iff, entry_src hmixed]
      exact hnotmixed
    · rw [decide_eq_true_iff, entry_src hany]
      exact hnotany
  obtain ⟨rows, hrows⟩ :
      ∃ rows, project_platforms sln (any :: mixed :: first :: rest) = some rows := by
    refine exists_mapM_eq_some fun pair _ => ?_
    rw [Option.isSome_map, mapping, Option.isSome_map, mapped]
    split
    · rfl
    · split <;> rfl
  refine ⟨_, first, rows, hconfigs, hfind, hrows, fun row hrow hprj hadded => ?_⟩
  have hmapped := row_eq hrows hrow
  rw [mapped, if_neg (ne_true_of_eq_false (not_dotnet_of_cpp hprj)), if_pos hadded] at hmapped
  exact (Option.some.inj hmapped).symm

/-- The pair that follows the first one of the solution itself has another platform. -/
theorem lookup_head_ne {p : Str} {ps qs : List Str} (c : Str) (cs : List Str)
    (hp : p ∈ platformKeys) (hqs : expand2010 true true p = p :: qs)
    (hnodup : ((p :: ps).map fun q => platforms.lookup q).Nodup) :
    ∀ pair ∈ ((qs ++ ps.flatMap (expand2010 true true)).map (fun q => (c, q)) ++
        cs.flatMap fun c => ("mixed".toList ::
          p :: (qs ++ ps.flatMap (expand2010 true true))).map fun q => (c, q)).head?,
      platforms.lookup pair.2 ≠ platforms.lookup p := by
  intro pair hpair
  have hadded : ∀ q ∈ platformKeys, platforms.lookup "mixed".toList ≠ platforms.lookup q ∧
      platforms.lookup "x86".toList ≠ platforms.lookup q := by
    decide
  rw [expand2010] at hqs
  split at hqs
  · obtain rfl : ["x86".toList] = qs := (List.cons.inj hqs).2
    obtain rfl := Option.some.inj hpair
    exact (hadded p hp).2
  · obtain rfl : [] = qs := (List.cons.inj hqs).2
    cases ps with
    | cons q ps =>
        obtain ⟨rest, hrest⟩ : ∃ rest, expand2010 true true q = q :: rest := by
          rw [expand2010]
          split <;> exact ⟨_, rfl⟩
        rw [List.flatMap_cons, hrest] at hpair
        obtain rfl := Option.some.inj hpair
        rw [List.map_cons, List.map_cons, List.nodup_cons] at hnodup
        exact fun heq => hnodup.1 (heq ▸ List.mem_cons_self)
    | nil =>
        cases cs with
        | nil => cases hpair
        | cons c' cs =>
            obtain rfl := Option.some.inj hpair
            exact (hadded p hp).1

/-- Since Visual Studio 2010 the third pair is an added one, or one with another platform
than the first. -/
theorem not_mapsToReal_since (hnew : after2008 action ∧ ¬ before2010 action)
    (hps : ∀ p ∈ sln.obj.platformnames, p ∈ platformKeys) (hcs : sln.configurations ≠ [])
    (hcpp : hascppproject sln) (hdotnet : hasdotnetproject sln) : ¬ MapsToReal action sln := by
  rintro ⟨configs, first, rows, hconfigs, hfind, hrows, hall⟩
  obtain ⟨p, ps, hown, hkeys, hsome, hnodup⟩ := ownPlatforms_eq hps
  obtain ⟨c, cs, hc⟩ := List.exists_cons_of_ne_nil hcs
  obtain ⟨prj, hprj, hlang⟩ := List.any_eq_true.mp hcpp
  have hplts := buildPlatforms_since hnew hcpp hdotnet
  have hpairs := buildconfigs_eq_some.mp hconfigs
  obtain ⟨qs, hqs⟩ : ∃ qs, expand2010 true true p = p :: qs := by
    rw [expand2010]
    split <;> exact ⟨_, rfl⟩
  rw [hown, List.flatMap_cons, hqs] at hplts
  rw [hc, hplts, List.flatMap_cons, List.map_cons, List.cons_append, List.cons_append,
    List.map_cons, List.cons_append] at hpairs
  obtain ⟨mixed, _, hmixed, hmore, rfl⟩ := List.forall₂_cons_left_iff.mp hpairs
  obtain ⟨real, rest, hreal, hrest, rfl⟩ := List.forall₂_cons_left_iff.mp hmore
  have hfirst : real = first := by
    have hnotmixed := notMem_ownPlatforms hps (p := "mixed".toList)
      (List.mem_cons_of_mem _ List.mem_cons_self)
    have hmem : real.src_platform ∈ ownPlatforms sln := by
      rw [entry_src hreal, hown]
      exact List.mem_cons_self
    rw [List.find?_cons_of_neg, List.find?_cons_of_pos] at hfind
    · exact Option.some.inj hfind
    · exact decide_eq_true hmem
    · rw [decide_eq_true_iff, entry_src hmixed]
      exact hnotmixed
  subst hfirst
  have hplt : platforms.lookup p = some real.platform := entry_platform hreal hnew.1
  have hadded : mixed.platform = "Mixed Platforms".toList :=
    (Option.some.inj (entry_platform hmixed hnew.1)).symm
  have hmem : mixed ∈ mixed :: real :: rest := List.mem_cons_self
  obtain ⟨row, hrow, rfl, hcfg, hmapped⟩ := exists_row hrows hprj hmem
  have heq := hall row hrow hlang (by rw [hcfg, hadded]; decide)
  rw [mapped, if_neg (ne_true_of_eq_false (not_dotnet_of_cpp hlang)),
    if_pos (by rw [hadded]; decide), heq] at hmapped
  -- the third pair would have the platform of the first one
  obtain ⟨third, hthird, hsame⟩ := Option.map_eq_some_iff.mp hmapped
  cases rest with
  | nil => cases hthird
  | cons third' rest =>
      obtain rfl := Option.some.inj hthird
      obtain ⟨pair, pairs, hpair, -, hlist⟩ := List.forall₂_cons_right_iff.mp hrest
      refine lookup_head_ne c cs (hkeys p (by simp)) hqs hnodup pair ?_ ?_
      · rw [hlist]
        rfl
      · rw [entry_platform hpair hnew.1, hplt, hsame]

/-- The added platforms are mapped to a platform of the solution before Visual Studio
2010, and never since. -/
theorem mapsToReal_iff (haction : action ∈ actions2005)
    (hps : ∀ p ∈ sln.obj.platformnames, p ∈ platformKeys) (hcs : sln.configurations ≠ [])
    (hcpp : hascppproject sln) (hdotnet : hasdotnetproject sln) :
    MapsToReal action sln ↔ action = "vs2005".toList ∨ action = "vs2008".toList := by
  have hsplit : ∀ a ∈ actions2005,
      (a = "vs2005".toList ∨ a = "vs2008".toList) ∧
          ¬ after2008 a ∧ before2010 a ∨
        ¬ (a = "vs2005".toList ∨ a = "vs2008".toList) ∧
          after2008 a ∧ ¬ before2010 a := by
    decide
  rcases hsplit action haction with ⟨hbefore, hold⟩ | ⟨hsince, hnew⟩
  · exact iff_of_true (mapsToReal_before hold hps hcs hcpp hdotnet) hbefore
  · exact iff_of_false (not_mapsToReal_since hnew hps hcs hcpp hdotnet) hsince

end Layout

section Example

def projectIn (language : String) : BakedProject where
  name := language.toList
  usage := false
  obj := Container.ofBlock Fields.empty (configuration 0 [])
  configs := [([], {
    fields := Fields.empty.set .language language.toList
    terms := some 0
    name := none
    platform := native
    shortname := none
    longname := none
    system := "windows".toList
    fileconfigs := [] })]

def mixedSolution (configurations : List String) : Workspace where
  name := "MySolution".toList
  obj := Container.ofBlock
    (Fields.empty.set .configurations ⟨configurations.map String.toList, []⟩) (configuration 0 [])
  basis := []
  projects := [projectIn "C++", projectIn "C#"]

theorem mapsToReal_vs2008 : MapsToReal "vs2008".toList (mixedSolution ["Debug", "Release"]) :=
  (mapsToReal_iff (by decide) (by decide) (by decide) (by decide) (by decide)).mpr (by decide)

/-- In Visual Studio 2010 the third pair is the one for `x86`. -/
theorem not_mapsToReal_vs2010 :
    ¬ MapsToReal "vs2010".toList (mixedSolution ["Debug", "Release"]) :=
  not_mapsToReal_since (by decide) (by decide) (by decide) (by decide) (by decide)

example : (buildconfigs "vs2010".toList (mixedSolution ["Debug"])).map
    (List.map Config.name) = some ["Debug|Mixed Platforms".toList, "Debug|Win32".toList,
      "Debug|x86".toList] := by rfl

end Example

end Vstudio

end Puremake
