import Puremake.Bake.Objdirs
import Puremake.Choice.Basic
import Puremake.Path.Leads
import Puremake.Path.Absolute

/-!
# Are object directories unique?

What `builduniquedirs` assigns to a configuration is read from the location of the configuration.
Where `path.getrelative` leads to the directories that are considered, and none of them climbs
above the root, the directories of two configurations are the same exactly when the two clash:
both have no choice that is counted once, and they have the same last choice.
-/

namespace Puremake

open FoldRun

def sessionConfigs (session : List BakedSolution) : List (BakedProject × BakedConfig) :=
  session.flatMap fun sln => sln.projects.flatMap fun prj =>
    prj.configs.map fun entry => (prj, entry.2)

def sessionChoices (env : Env) (session : List BakedSolution) : List (List Str) :=
  (sessionConfigs session).map fun x => choices env x.1 x.2

/-- `hit_counts` in `builduniquedirs` -/
def hit_counts (env : Env) (session : List BakedSolution) (dir : Str) : ℕ :=
  (sessionChoices env session).flatten.count dir

/-- The absolute directory that a configuration has for its objects: `objectsdir`, read from the
location. -/
def objectsPlace (env : Env) (cfg : BakedConfig) : Option Place :=
  match cfg.fields .location, cfg.objectsdir with
  | some location, some dir => some ((WPath.resolved env.cwd location).under (read dir)).place
  | _, _ => none

/-- No two configurations have the same directory. -/
def UniqueDirs (env : Env) (session : List BakedSolution) : Prop :=
  ((sessionConfigs session).map fun x => objectsPlace env x.2).Nodup

/-- A directory with an anchor and without `..`, which `path.getrelative` leads to. -/
def Findable (cwd location dir : Str) : Prop :=
  dir.head? ≠ some '$' ∧ (read dir).anchor.isSome ∧ dotdot ∉ (read dir).comps ∧
    Path.Leading cwd location dir

/-- All choices up to the first that is counted once can be found from the locations. -/
def PathsFindable (env : Env) (session : List BakedSolution) : Prop :=
  (read env.cwd).anchor.isSome ∧ ∀ x ∈ sessionConfigs session,
    ∀ location ∈ x.2.fields .location,
      ∀ dir ∈ Choice.considered (hit_counts env session) (choices env x.1 x.2),
        Findable env.cwd location dir

/-- No two configurations have the same last choice while none of their choices is counted
once. -/
def NoClash (env : Env) (session : List BakedSolution) : Prop :=
  (sessionChoices env session).Pairwise fun ds ds' =>
    ¬ Choice.Clash (hit_counts env session) ds ds'

instance (cwd location dir : Str) : Decidable (Findable cwd location dir) :=
  inferInstanceAs (Decidable (_ ∧ _ ∧ _ ∧ _))

instance (env : Env) (session : List BakedSolution) : Decidable (NoClash env session) :=
  inferInstanceAs (Decidable (List.Pairwise _ _))

section Choices

variable {env : Env}

theorem allChoices_eq (env : Env) (session : List BakedSolution) :
    allChoices env session = (sessionChoices env session).flatten := by
  rw [allChoices, sessionChoices, sessionConfigs, ← List.flatMap_def, List.flatMap_assoc]
  refine congrArg (session.flatMap ·) (funext fun sln => ?_)
  rw [List.flatMap_assoc]
  refine congrArg (sln.projects.flatMap ·) (funext fun prj => ?_)
  rw [List.flatMap_map]

theorem choices_ne_nil (prj : BakedProject) (cfg : BakedConfig) : choices env prj cfg ≠ [] := by
  rw [choices, objdirs]
  split
  · exact List.cons_ne_nil _ _
  · exact List.cons_ne_nil _ _

theorem taken_choose (count : Str → ℕ) {ds : List Str} (hne : ds ≠ []) :
    Choice.Taken count ds (choose count ds) := by
  induction ds with
  | nil => exact absurd rfl hne
  | cons d ds ih =>
      cases ds with
      | nil =>
          refine ⟨List.mem_singleton_self d, ?_⟩
          by_cases hd : count d = 1
          · exact .inl hd
          · exact .inr ⟨by simpa [Choice.Stuck] using hd, rfl⟩
      | cons e ds =>
          rw [choose]
          · split
            · rename_i hd
              exact ⟨List.mem_cons_self, .inl hd⟩
            · rename_i hd
              obtain ⟨hmem, hcases⟩ := ih (List.cons_ne_nil e ds)
              refine ⟨List.mem_cons_of_mem d hmem, hcases.imp_right fun ⟨hstuck, hlast⟩ => ?_⟩
              exact ⟨List.forall_mem_cons.mpr ⟨hd, hstuck⟩, by rwa [List.getLast?_cons_cons]⟩
          · exact fun h => List.cons_ne_nil e ds h

theorem choose_mem_considered (count : Str → ℕ) {ds : List Str} (hne : ds ≠ []) :
    choose count ds ∈ Choice.considered count ds := by
  induction ds with
  | nil => exact absurd rfl hne
  | cons d ds ih =>
      rw [Choice.considered]
      cases ds with
      | nil => simp [choose, Choice.considered]
      | cons e ds =>
          rw [choose]
          · split
            · exact List.mem_singleton_self d
            · exact List.mem_cons_of_mem d (ih (List.cons_ne_nil e ds))
          · exact fun h => List.cons_ne_nil e ds h

theorem normalize_of_mem_choices (hcwd : (read env.cwd).anchor.isSome) {prj : BakedProject}
    {cfg : BakedConfig} {dir : Str} (h : dir ∈ choices env prj cfg) :
    Path.normalize dir = dir := by
  obtain ⟨c, hc⟩ := Option.isSome_iff_exists.mp hcwd
  have hmem : dir ∈ objdirs env prj cfg := by
    rw [choices] at h
    split at h
    · exact List.mem_of_mem_tail h
    · exact h
  rw [objdirs] at hmem
  rcases List.mem_cons.mp hmem with heq | hmem
  · rw [heq, Path.getabsolute_eq hc]
    exact Path.normalize_join_normalPieces fun s => Path.isComp_readAbsolute
  · have hlower : ∃ aa, dir = Path.join aa := by
      simp only [List.mem_cons, List.not_mem_nil, or_false] at hmem
      rcases hmem with heq | heq | heq
      · exact ⟨_, heq⟩
      · exact ⟨_, heq⟩
      · exact ⟨_, heq⟩
    obtain ⟨aa, rfl⟩ := hlower
    exact Path.normalize_normalize _

end Choices

section Places

variable {cwd location dir dir' : Str}

theorem Findable.place (h : Findable cwd location dir) (hcwd : (read cwd).anchor.isSome) :
    ((WPath.resolved cwd location).under (read (Path.getrelative cwd location dir))).place =
      (read dir).place := by
  obtain ⟨hdollar, hanchor, -, hleading⟩ := h
  have hleads := (Path.getrelative_leads cwd location dir hcwd).1 hleading
  rw [Path.LeadsTo, if_neg hdollar] at hleads
  rw [hleads.1, WPath.resolved, Reading.under, if_pos hanchor]

/-- Directories in the normal form are different places when they are different texts. -/
theorem Findable.eq_of_place (h : Findable cwd location dir) {location' : Str}
    (h' : Findable cwd location' dir') (hnormal : Path.normalize dir = dir)
    (hnormal' : Path.normalize dir' = dir') (hplace : (read dir).place = (read dir').place) :
    dir = dir' := by
  have hcomps : ∀ {p : Str}, dotdot ∉ (read p).comps → (read p).place.comps = (read p).comps :=
    fun hp => UpWord.reduce_eq_self fun s hs hup => hp (compRole_eq_up.mp hup ▸ hs)
  have hread : read dir = read dir' := by
    ext1
    · exact congrArg Place.anchor hplace
    · rw [← hcomps h.2.2.1, ← hcomps h'.2.2.1, hplace]
  rw [← hnormal, ← hnormal', Path.normalize_eq, Path.normalize_eq, hread]

end Places

section Session

variable {env : Env} {session session' : List BakedSolution}

theorem assigned_of_builduniquedirs (h : builduniquedirs env session = .ok session') :
    List.Forall₂ (fun x x' : BakedProject × BakedConfig =>
        assignObjdir env (hit_counts env session) x.1 x.2 = .ok x'.2)
      (sessionConfigs session) (sessionConfigs session') := by
  rw [builduniquedirs, allChoices_eq] at h
  refine List.rel_flatMap (mapSession_eq_ok h) fun sln sln' hsln => ?_
  refine List.rel_flatMap hsln.2.2 fun prj prj' hprj => ?_
  rw [List.forall₂_map_left_iff, List.forall₂_map_right_iff]
  exact hprj.2.imp fun e e' he => he.2

theorem objectsPlace_of_assigned {hits : Str → ℕ} {prj : BakedProject} {cfg cfg' : BakedConfig}
    (h : assignObjdir env hits prj cfg = .ok cfg') : ∃ location,
      cfg.fields .location = some location ∧
      objectsPlace env cfg' = some ((WPath.resolved env.cwd location).under
        (read (Path.getrelative env.cwd location (choose hits (choices env prj cfg))))).place := by
  rw [assignObjdir] at h
  split at h
  · cases h
  · rename_i location hlocation
    cases h
    refine ⟨location, hlocation, ?_⟩
    rw [objectsPlace]
    simp only [hlocation]

/-- The directories are different when the choices that were made are different. -/
theorem uniqueDirs_iff_nodup (h : builduniquedirs env session = .ok session')
    (hpaths : PathsFindable env session) : UniqueDirs env session' ↔
      ((sessionConfigs session).map fun x =>
        choose (hit_counts env session) (choices env x.1 x.2)).Nodup := by
  obtain ⟨hcwd, hpaths⟩ := hpaths
  rw [UniqueDirs, List.Nodup, List.Nodup, List.pairwise_map, List.pairwise_map]
  refine (Choice.pairwise_iff_of_forall₂ (assigned_of_builduniquedirs h)
    fun x y hsub x' y' hx' hy' => not_congr ?_).symm
  have hx := hsub.subset List.mem_cons_self
  have hy := hsub.subset (List.mem_cons_of_mem x List.mem_cons_self)
  obtain ⟨location, hlocation, hplace⟩ := objectsPlace_of_assigned hx'
  obtain ⟨location', hlocation', hplace'⟩ := objectsPlace_of_assigned hy'
  have hmem := (taken_choose (hit_counts env session) (@choices_ne_nil env x.1 x.2)).mem
  have hmem' := (taken_choose (hit_counts env session) (@choices_ne_nil env y.1 y.2)).mem
  have hfind := hpaths x hx location hlocation _ (choose_mem_considered _ (choices_ne_nil _ _))
  have hfind' := hpaths y hy location' hlocation' _ (choose_mem_considered _ (choices_ne_nil _ _))
  rw [hplace, hplace', hfind.place hcwd, hfind'.place hcwd, Option.some.injEq]
  constructor
  · intro heq
    rw [heq]
  · exact hfind.eq_of_place hfind' (normalize_of_mem_choices hcwd hmem)
      (normalize_of_mem_choices hcwd hmem')

/-- Where the choices can be found, the directories of configurations are unique exactly when
no two configurations clash. -/
theorem uniqueDirs_iff_noClash (h : builduniquedirs env session = .ok session')
    (hpaths : PathsFindable env session) : UniqueDirs env session' ↔ NoClash env session := by
  have htaken : List.Forall₂ (Choice.Taken (hit_counts env session)) (sessionChoices env session)
      ((sessionConfigs session).map fun x =>
        choose (hit_counts env session) (choices env x.1 x.2)) := by
    rw [sessionChoices, List.forall₂_map_left_iff, List.forall₂_map_right_iff]
    exact List.forall₂_same.mpr fun x _ => taken_choose _ (choices_ne_nil x.1 x.2)
  exact (uniqueDirs_iff_nodup h hpaths).trans
    (@Choice.nodup_iff Str _ _ (sessionChoices env session) _ htaken)

end Session

section Example

/-- A configuration below `/home/a`, with its own `objdir` if there is one. -/
def objdirConfig (name : Option Str) (platform : Str) (objdir : Option Str) : BakedConfig where
  fields := (objdir.elim Fields.empty fun dir => Fields.empty.set .objdir dir).set .location
    "/home/a".toList
  terms := none
  name := name
  platform := platform
  shortname := none
  longname := none
  system := "linux".toList
  fileconfigs := []

/-- A session with one project, for the platforms `Native` and `x32`. -/
def objdirSession (native x32 : Option Str) : List BakedSolution :=
  [{ obj := ⟨Fields.empty, [], List.nodup_nil⟩, basis := [],
     projects := [{ name := "A".toList, usage := false, obj := ⟨Fields.empty, [], List.nodup_nil⟩,
                    configs := [([], objdirConfig none Puremake.native none),
                      ("Debug".toList, objdirConfig (some "Debug".toList) Puremake.native native),
                      ("Debugx32".toList,
                        objdirConfig (some "Debug".toList) "x32".toList x32)] }] }]

theorem isSome_objdirSession :
    (builduniquedirs Env.gmake (objdirSession none none)).toOption.isSome := by decide

theorem isSome_objdirSession_x32 :
    (builduniquedirs Env.gmake
      (objdirSession (some "obj/x32".toList) (some "obj".toList))).toOption.isSome := by decide

end Example

end Puremake
