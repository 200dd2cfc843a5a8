import Puremake.Bake.Copy
import Puremake.Bake.Objdirs
import Puremake.Bake.Targets

/-!
# `buildconfigs`

The whole of baking: the paths of the projects are made relative, the configurations
of every solution are merged, the settings of usage projects copied and these projects
removed, and the object directories and targets assigned. The last two steps leave the
API fields alone, so the lists are well formed in the end when they were separate before
the settings were copied.
-/

namespace Puremake

open FoldRun

def Block.adjust (cwd location : Str) (blk : Block) : Block :=
  { blk with
    fields := adjustpaths cwd location blk.fields
    initialised := initialised_adjustpaths blk.initialised }

theorem addr_adjust (cwd location : Str) (blks : List Block) :
    (blks.map (Block.adjust cwd location)).map Block.addr = blks.map Block.addr := by
  rw [List.map_map]
  rfl

theorem distinct_adjust {cwd location : Str} {blks : List Block}
    (h : (blks.map Block.addr).Nodup) :
    ((blks.map (Block.adjust cwd location)).map Block.addr).Nodup :=
  addr_adjust cwd location blks ▸ h

/-- An assignment to the location, where there is something to assign. -/
def Fields.withLocation (c : Fields) : Option Str → Fields
  | some location => c.set .location location
  | none => c

/-- The first loop of `premake.bake.buildconfigs`, for a project. -/
def prepareProject (env : Env) (sln : Container) (prj : Project) : Project :=
  let location := prj.obj.fields .location <|> sln.fields .location <|> prj.obj.fields .basedir
  { prj with
    obj := {
      fields := adjustpaths env.cwd (location.getD []) (prj.obj.fields.withLocation location)
      blocks := prj.obj.blocks.map (Block.adjust env.cwd (location.getD []))
      distinct := distinct_adjust prj.obj.distinct } }

/-- The first loop of `premake.bake.buildconfigs`. -/
def prepareSolution (env : Env) (sln : Solution) : Solution where
  obj := { sln.obj with fields := defaultLocation sln.obj.fields }
  projects := sln.projects.map (prepareProject env sln.obj)

/-- A round of the second loop of `premake.bake.buildconfigs`. -/
def sessionStep (env : Env) (st : Heap × List BakedSolution) (sln : Solution) :
    Except BakeError (Heap × List BakedSolution) := do
  let (heap, baked) ← bakeSolution env sln st.1
  return (heap, st.2 ++ [baked])

/-- The first two loops of `premake.bake.buildconfigs`. -/
def bakeSession (env : Env) (session : List Solution) (heap : Heap) :
    Except BakeError (Heap × List BakedSolution) :=
  (session.map (prepareSolution env)).foldlM (sessionStep env) (heap, [])

def buildconfigs (env : Env) (session : List Solution) (heap : Heap) :
    Except BakeError (List BakedSolution) := do
  let (_, session) ← bakeSession env session heap
  let session ← session.mapM (copySolution env)
  let session ← builduniquedirs env session
  buildtargets env session

section Steps

variable {env : Env} {session : List Solution} {heap : Heap}

theorem bakeSession_eq_ok {heap' : Heap} {baked : List BakedSolution}
    (h : bakeSession env session heap = .ok (heap', baked)) :
    List.Forall₂ (fun sln b => ∃ h h', bakeSolution env (prepareSolution env sln) h = .ok (h', b))
      session baked := by
  have hprepared : List.Forall₂ (fun sln b => ∃ h h', bakeSolution env sln h = .ok (h', b))
      (session.map (prepareSolution env)) baked := by
    refine foldlM_invariant (d := []) (P := fun _ _ => True)
      (I := fun done (st : Heap × List BakedSolution) =>
        List.Forall₂ (fun sln b => ∃ h h', bakeSolution env sln h = .ok (h', b)) done st.2) ?_ .nil
      (along_of_forall (fun _ _ => trivial) _ _) h
    intro done st sln st' hdone _ hstep
    obtain ⟨⟨g, b⟩, hbake, heq⟩ := bind_eq_ok.mp hstep
    cases heq
    exact List.rel_append hdone (.cons ⟨st.1, g, hbake⟩ .nil)
  exact List.forall₂_map_left_iff.mp hprepared

/-- What a configuration is called, and the system it is for. -/
structure SameNames (cfg cfg' : BakedConfig) : Prop where
  name : cfg'.name = cfg.name
  platform : cfg'.platform = cfg.platform
  shortname : cfg'.shortname = cfg.shortname
  longname : cfg'.longname = cfg.longname
  system : cfg'.system = cfg.system

theorem SameNames.trans {a b c : BakedConfig} (h : SameNames a b) (h' : SameNames b c) :
    SameNames a c :=
  ⟨h'.name.trans h.name, h'.platform.trans h.platform, h'.shortname.trans h.shortname,
    h'.longname.trans h.longname, h'.system.trans h.system⟩

def Assigned (cfg cfg' : BakedConfig) : Prop :=
  SameNames cfg cfg' ∧ cfg'.fields = cfg.fields

theorem assigned_objdirs {hits : Str → ℕ} {prj : BakedProject} {cfg cfg' : BakedConfig}
    (h : assignObjdir env hits prj cfg = .ok cfg') : Assigned cfg cfg' := by
  rw [assignObjdir] at h
  split at h
  · cases h
  · cases h
    exact ⟨⟨rfl, rfl, rfl, rfl, rfl⟩, rfl⟩

theorem assigned_targets {prj : BakedProject} {cfg cfg' : BakedConfig}
    (h : assignTargets env prj cfg = .ok cfg') : Assigned cfg cfg' := by
  obtain ⟨_, -, h⟩ := bind_eq_ok.mp h
  obtain ⟨_, -, h⟩ := bind_eq_ok.mp h
  obtain ⟨_, -, h⟩ := bind_eq_ok.mp h
  cases h
  exact ⟨⟨rfl, rfl, rfl, rfl, rfl⟩, rfl⟩

theorem sameNames_copyConfig {prjs : List BakedProject} {prj : BakedProject}
    {e e' : Str × BakedConfig} (h : copyConfig env prjs prj e = .ok e') :
    e'.1 = e.1 ∧ SameNames e.2 e'.2 := by
  obtain ⟨connections, -, h⟩ := bind_eq_ok.mp h
  obtain ⟨cfg, hcfg, heq⟩ := bind_eq_ok.mp h
  cases heq
  obtain ⟨_, -, hcfg⟩ := bind_eq_ok.mp hcfg
  obtain ⟨_, -, heq⟩ := bind_eq_ok.mp hcfg
  cases heq
  exact ⟨rfl, rfl, rfl, rfl, rfl, rfl⟩

theorem buildconfigs_eq_ok {result : List BakedSolution}
    (h : buildconfigs env session heap = .ok result) :
    ∃ heap' baked copied, bakeSession env session heap = .ok (heap', baked) ∧
      List.Forall₂ (fun b c => copySolution env b = .ok c) baked copied ∧
      List.Forall₂ (fun c r : BakedSolution => c.Rel (fun _ => Assigned) r) copied result := by
  obtain ⟨⟨heap', baked⟩, hbaked, h⟩ := bind_eq_ok.mp h
  obtain ⟨copied, hcopied, h⟩ := bind_eq_ok.mp h
  obtain ⟨unique, hunique, htargets⟩ := bind_eq_ok.mp h
  refine ⟨heap', baked, copied, hbaked, mapM_eq_ok.mp hcopied, ?_⟩
  have hdirs := mapSession_eq_ok hunique
  have htargets := mapSession_eq_ok htargets
  refine forall₂_trans (fun c u r hcu hur => ?_) hdirs htargets
  obtain ⟨hobj, hbasis, hprojects⟩ := hcu
  obtain ⟨hobj', hbasis', hprojects'⟩ := hur
  refine ⟨hobj'.trans hobj, hbasis'.trans hbasis,
    forall₂_trans (fun p q r hpq hqr => ?_) hprojects hprojects'⟩
  refine ⟨hqr.1.trans hpq.1, forall₂_trans (fun a b c hab hbc => ?_) hpq.2 hqr.2⟩
  obtain ⟨hkey, hdir⟩ := hab
  obtain ⟨hkey', htarget⟩ := hbc
  have hdir := assigned_objdirs hdir
  have htarget := assigned_targets htarget
  exact ⟨hkey'.trans hkey, hdir.1.trans htarget.1, htarget.2.trans hdir.2⟩

end Steps

section WellFormed

variable {env : Env} {session : List Solution} {heap : Heap}

/-- The lists of all configurations are well formed when `buildconfigs` returns exactly when
the configurations were separate before the settings of usage projects were copied. -/
theorem wellFormed_buildconfigs_iff {result : List BakedSolution}
    (h : buildconfigs env session heap = .ok result) :
    (∀ sln ∈ result, ∀ prj ∈ sln.projects, ∀ e ∈ prj.configs, WellFormed e.2.fields) ↔
      ∃ heap' baked, bakeSession env session heap = .ok (heap', baked) ∧
        ∀ sln ∈ baked, ∀ prj ∈ sln.projects, ¬ prj.usage → ∀ e ∈ prj.configs,
          Separate env sln prj e := by
  obtain ⟨heap', baked, copied, hbaked, hcopied, hassigned⟩ := buildconfigs_eq_ok h
  have hfrom := bakeSession_eq_ok hbaked
  have hcopy : (∀ sln ∈ result, ∀ prj ∈ sln.projects, ∀ e ∈ prj.configs,
      WellFormed e.2.fields) ↔ ∀ sln ∈ copied, ∀ prj ∈ sln.projects, ∀ e ∈ prj.configs,
        WellFormed e.2.fields := by
    constructor
    · intro hwell sln hsln prj hprj e he
      obtain ⟨sln', hsln', -, -, hprojects⟩ := exists_right_of_forall₂ hassigned hsln
      obtain ⟨prj', hprj', -, hconfigs⟩ := exists_right_of_forall₂ hprojects hprj
      obtain ⟨e', he', -, -, hfields⟩ := exists_right_of_forall₂ hconfigs he
      exact hfields ▸ hwell sln' hsln' prj' hprj' e' he'
    · intro hwell sln hsln prj hprj e he
      obtain ⟨sln', hsln', -, -, hprojects⟩ := exists_left_of_forall₂ hassigned hsln
      obtain ⟨prj', hprj', -, hconfigs⟩ := exists_left_of_forall₂ hprojects hprj
      obtain ⟨e', he', -, -, hfields⟩ := exists_left_of_forall₂ hconfigs he
      exact hfields ▸ hwell sln' hsln' prj' hprj' e' he'
  rw [hcopy]
  constructor
  · intro hwell
    refine ⟨heap', baked, hbaked, fun sln hsln => ?_⟩
    obtain ⟨sln', hsln', hrun⟩ := exists_right_of_forall₂ hcopied hsln
    obtain ⟨_, -, _, _, hbake⟩ := exists_left_of_forall₂ hfrom hsln
    exact (wellFormed_copySolution_iff hbake hrun).mp (hwell sln' hsln')
  · rintro ⟨heap'', baked', hbaked', hsep⟩ sln' hsln'
    obtain rfl := congrArg Prod.snd (Except.ok.inj (hbaked.symm.trans hbaked'))
    obtain ⟨sln, hsln, hrun⟩ := exists_left_of_forall₂ hcopied hsln'
    obtain ⟨_, -, _, _, hbake⟩ := exists_left_of_forall₂ hfrom hsln
    exact (wellFormed_copySolution_iff hbake hrun).mpr (hsep sln hsln)

theorem wellFormed_iff {cfg : Fields} : WellFormed cfg ↔
    (∀ x ∈ (cfg.list .flags).arr, x ∈ (cfg.list .flags).keys) ∧
      (∀ x ∈ (cfg.list .flags).keys, x ∈ (cfg.list .flags).arr) ∧
        ∀ f ∈ Field.all, (cfg.list f).arr.Nodup :=
  ⟨fun h => ⟨fun x => (h.flags x).mp, fun x => (h.flags x).mpr, fun f _ => h.nodup f⟩,
    fun ⟨harr, hkeys, hnodup⟩ => ⟨fun x => ⟨harr x, hkeys x⟩, fun f => hnodup f f.mem_all⟩⟩

instance (cfg : Fields) : Decidable (WellFormed cfg) := decidable_of_iff _ wellFormed_iff.symm

end WellFormed

section Example

/-- A project with flags and include directories that uses other projects. -/
def flaggedProject (name : String) (usage : Bool) (addr : ℕ)
    (uses flags includedirs : List String) : Project where
  name := name.toList
  usage := usage
  obj := Container.ofBlock ((Fields.empty.set .kind staticLib).set .basedir "/home".toList)
    ((((configuration addr []).set .uses ⟨uses.map String.toList, []⟩).set .flags
      ⟨flags.map String.toList, []⟩).set .includedirs
      ⟨includedirs.map String.toList, []⟩)

/-- A session with one solution, in which a project uses another one with flags and an
include directory. -/
def flaggedSession (flags : List String) : List Solution :=
  [{ obj := namedSolution ["Debug"] []
     projects := [flaggedProject "App" false 1 ["Gui"] [] ["/home/app"],
       flaggedProject "Gui" true 2 [] flags ["/home/gui"]] }]

def flaggedHeap (flags : List String) : Heap :=
  initialHeap ((flaggedSession flags).flatMap fun sln =>
    sln.obj.blocks ++ sln.projects.flatMap (·.obj.blocks))

/-- An include directory of the usage project is copied behind the own one, and all stays well
formed. -/
theorem separate_unflagged : ∃ heap baked,
    bakeSession .gmake (flaggedSession []) (flaggedHeap []) = .ok (heap, baked) ∧
      (∀ sln ∈ baked, ∀ prj ∈ sln.projects, ¬ prj.usage → ∀ e ∈ prj.configs,
        Separate .gmake sln prj e) ∧
      ∃ result, buildconfigs .gmake (flaggedSession []) (flaggedHeap []) = .ok result ∧
        ∃ sln ∈ result, ∃ prj ∈ sln.projects, ∃ e ∈ prj.configs,
          (e.2.fields.list .includedirs).arr = ["app".toList, "gui".toList] := by
  obtain ⟨result, hresult, hwell, hcopied⟩ :
      ∃ result, buildconfigs .gmake (flaggedSession []) (flaggedHeap []) = .ok result ∧
        (∀ sln ∈ result, ∀ prj ∈ sln.projects, ∀ e ∈ prj.configs, WellFormed e.2.fields) ∧
        ∃ sln ∈ result, ∃ prj ∈ sln.projects, ∃ e ∈ prj.configs,
          (e.2.fields.list .includedirs).arr = ["app".toList, "gui".toList] :=
    ⟨_, rfl, by decide, by decide⟩
  obtain ⟨heap, baked, hbake, hseparate⟩ := (wellFormed_buildconfigs_iff hresult).mp hwell
  exact ⟨heap, baked, hbake, hseparate, result, hresult, hcopied⟩

/-- A flag of the usage project is in the array of the configuration and has no key. -/
theorem not_wellFormed_flagged : ∃ result,
    buildconfigs .gmake (flaggedSession ["Symbols"]) (flaggedHeap ["Symbols"]) = .ok result ∧
      ¬ ∀ sln ∈ result, ∀ prj ∈ sln.projects, ∀ e ∈ prj.configs, WellFormed e.2.fields :=
  ⟨_, rfl, by decide⟩

end Example

end Puremake
