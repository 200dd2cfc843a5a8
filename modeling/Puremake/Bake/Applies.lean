import Puremake.Bake.Buildconfigs
import Puremake.Bake.Merges

/-!
# The blocks that apply

The session is baked again here, together with the merges of its solutions and projects. So it is
known which blocks of a solution and of a project apply for the key of a configuration: those that
matched in the last merges for this key.
-/

namespace Puremake

open FoldRun

structure SolutionMerges where
  sln : Solution
  above : List Merge
  projects : List (Project × List Merge)

def recordProject (env : Env) (sln : Container) (basis : Configs)
    (st : Heap × List (Project × List Merge)) (prj : Project) :
    Except BakeError (Heap × List (Project × List Merge)) := do
  let (_, own) ← record env sln prj.obj basis st.1
  let (heap, _) ← bakeProject env sln prj.obj basis st.1
  return (heap, st.2 ++ [(prj, own)])

def recordSolution (env : Env) (sln : Solution) (heap : Heap) :
    Except BakeError (Heap × SolutionMerges) := do
  let (st, above) ← record env sln.obj sln.obj [] heap
  let (heap, projects) ← sln.projects.foldlM (recordProject env sln.obj st.result) (st.heap, [])
  return (heap, ⟨sln, above, projects⟩)

def recordSession (env : Env) (session : List Solution) (heap : Heap) :
    Except BakeError (Heap × List SolutionMerges) :=
  (session.map (prepareSolution env)).foldlM (fun st sln => do
    let (heap, merges) ← recordSolution env sln st.1
    return (heap, st.2 ++ [merges])) (heap, [])

/-- The location of a project of a session, as the first loop of `buildconfigs` assigns it. -/
def location (env : Env) (sln : Solution) (prj : Project) : Str :=
  ((prepareProject env sln.obj prj).obj.fields .location).getD []

/-- These blocks of a solution, and these of a project, match in the run for a key. -/
def Applies (env : Env) (session : List Solution) (heap : Heap) (sln : Solution) (prj : Project)
    (key : Str) (above own : List Block) : Prop :=
  ∃ run, recordSession env session heap = .ok run ∧
    ∃ m ∈ run.2, m.sln = prepareSolution env sln ∧
    ∃ p ∈ m.projects, p.1 = prepareProject env sln.obj prj ∧
      above.Sublist sln.obj.blocks ∧ own.Sublist prj.obj.blocks ∧
      (lastMerge m.above key).map Merge.blocks = some above ∧
      (lastMerge p.2 key).map Merge.blocks =
        some (own.map (Block.adjust env.cwd (location env sln prj)))

/-- The addresses of the blocks that match for a key, for each project. -/
def appliedAddrs (run : Heap × List SolutionMerges) (key : Str) :
    List (Option (List ℕ) × Option (List ℕ)) :=
  run.2.flatMap fun m => m.projects.map fun p =>
    ((lastMerge m.above key).map fun above => above.blocks.map Block.addr,
      (lastMerge p.2 key).map fun own => own.blocks.map Block.addr)

section Record

variable {env : Env}

theorem Applies.addrs {session : List Solution} {heap : Heap} {sln : Solution} {prj : Project}
    {key : Str} {above own : List Block} (h : Applies env session heap sln prj key above own) :
    ∃ addrs, (recordSession env session heap).toOption.map (appliedAddrs · key) = some addrs ∧
      (some (above.map Block.addr), some (own.map Block.addr)) ∈ addrs := by
  obtain ⟨run, hrun, m, hm, -, p, hp, -, -, -, habove, hown⟩ := h
  refine ⟨appliedAddrs run key, by rw [hrun]; rfl, List.mem_flatMap.mpr ⟨m, hm, ?_⟩⟩
  refine List.mem_map.mpr ⟨p, hp, Prod.ext ?_ ?_⟩
  · obtain ⟨ma, hma, rfl⟩ := Option.map_eq_some_iff.mp habove
    rw [hma]
    rfl
  · obtain ⟨mo, hmo, heq⟩ := Option.map_eq_some_iff.mp hown
    rw [hmo, Option.map_some, heq, addr_adjust]

def ProjectRecorded (env : Env) (basis : Configs) (b : BakedProject) (p : Project × List Merge) :
    Prop :=
  b.toProject = p.1 ∧ ∃ heap st, Recorded env p.1.obj basis heap (st, p.2) ∧
    List.Forall₂ (PostprocessedFrom env p.1.obj st.heap) (env.ord.enum st.result) b.configs

structure SolutionRecorded (env : Env) (b : BakedSolution) (m : SolutionMerges) : Prop where
  above : ∃ heap st, Recorded env m.sln.obj [] heap (st, m.above) ∧ st.result = b.basis
  projects : List.Forall₂ (ProjectRecorded env b.basis) b.projects m.projects
  mem : ∀ p ∈ m.projects, p.1 ∈ m.sln.projects
  keys : ∀ prj ∈ b.projects, ∀ e ∈ prj.configs, (b.basis.lookup e.1).isSome

/-- The configurations of a project have the keys of the solution. -/
theorem isSome_lookup_basis {sln : Solution} {heap heap' : Heap} {b : BakedSolution}
    (h : bakeSolution env sln heap = .ok (heap', b)) {prj : BakedProject} (hprj : prj ∈ b.projects)
    {e : Str × BakedConfig} (he : e ∈ prj.configs) : (b.basis.lookup e.1).isSome := by
  obtain ⟨⟨_, hcollapse⟩, -, hfrom⟩ := bakeSolution_eq_ok h
  obtain ⟨_, -, -, _, _, hbake⟩ := exists_left_of_forall₂ hfrom hprj
  obtain ⟨cs, _, _, hcs, -⟩ := collapse_eq_ok.mp hcollapse
  exact lookup_isSome_iff_mem_keys.mpr ((mem_keys_collapse hcs hcollapse e.1).mpr
    ((mem_keys_bakeProject hcs hbake e.1).mp (List.mem_map_of_mem he)))

theorem exists_recordProject {sln : Container} {basis : Configs} {heap : Heap}
    {projects : List BakedProject} {r : Heap × List (Project × List Merge)} {prj : Project}
    {st : Heap × List BakedProject} (hheap : r.1 = heap)
    (hstep : bakeStep env sln basis (heap, projects) prj = .ok st) :
    ∃ r' b p, recordProject env sln basis r prj = .ok r' ∧ r'.1 = st.1 ∧
      st.2 = projects ++ [b] ∧ r'.2 = r.2 ++ [p] ∧ p.1 = prj ∧ ProjectRecorded env basis b p := by
  subst hheap
  obtain ⟨⟨heap', configs⟩, hbake, heq⟩ := bind_eq_ok.mp hstep
  obtain rfl := Except.ok.inj heq
  obtain ⟨g, cfgs, hcollapse, hpost⟩ := bakeProject_eq_ok hbake
  obtain ⟨⟨s, own⟩, hrecord, rfl, rfl⟩ := exists_record hcollapse
  exact ⟨_, _, _, bind_eq_ok.mpr ⟨_, hrecord, bind_eq_ok.mpr ⟨_, hbake, rfl⟩⟩, rfl, rfl, rfl, rfl,
    rfl, r.1, s, recorded_record hrecord, hpost⟩

theorem exists_recordSolution {sln : Solution} {heap heap' : Heap} {b : BakedSolution}
    (h : bakeSolution env sln heap = .ok (heap', b)) :
    ∃ m, recordSolution env sln heap = .ok (heap', m) ∧ m.sln = sln ∧ SolutionRecorded env b m := by
  have hkeys := fun prj hprj e he => @isSome_lookup_basis env sln heap heap' b h prj hprj e he
  obtain ⟨⟨g, basis⟩, hcollapse, h⟩ := bind_eq_ok.mp h
  obtain ⟨⟨_, projects⟩, hrun, heq⟩ := bind_eq_ok.mp h
  cases heq
  obtain ⟨⟨st, above⟩, hrecord, rfl, rfl⟩ := exists_record hcollapse
  obtain ⟨⟨_, merged⟩, hr, -, rfl, hprojects, hmem⟩ := foldlM_simulation (P := fun _ _ => True)
    (R := fun todo (s : Heap × List BakedProject) (r : Heap × List (Project × List Merge)) =>
      (∀ prj ∈ todo, prj ∈ sln.projects) ∧ r.1 = s.1 ∧
        List.Forall₂ (ProjectRecorded env st.result) s.2 r.2 ∧ ∀ p ∈ r.2, p.1 ∈ sln.projects)
    (g := recordProject env sln.obj st.result)
    (fun s r prj todo s' hR _ hstep => by
      obtain ⟨htodo, hheap, hdone, hmem⟩ := hR
      obtain ⟨r', b, p, hr', hheap', hs', hrs, hp, hb⟩ := exists_recordProject hheap hstep
      refine ⟨r', hr', fun q hq => htodo q (List.mem_cons_of_mem _ hq), hheap', ?_, ?_⟩
      · rw [hs', hrs]
        exact List.rel_append hdone (.cons hb .nil)
      · rw [hrs]
        intro q hq
        rcases List.mem_append.mp hq with hq | hq
        · exact hmem q hq
        · rw [List.mem_singleton.mp hq, hp]
          exact htodo prj List.mem_cons_self)
    (l := sln.projects) (t := (st.heap, []))
    ⟨fun _ h => h, rfl, .nil, fun _ h => absurd h List.not_mem_nil⟩
    (along_of_forall (fun _ _ => trivial) _ _) hrun
  exact ⟨⟨sln, above, merged⟩, bind_eq_ok.mpr ⟨_, hrecord, bind_eq_ok.mpr ⟨_, hr, rfl⟩⟩, rfl,
    ⟨heap, st, recorded_record hrecord, rfl⟩, hprojects, hmem, hkeys⟩

theorem exists_recordSession {session : List Solution} {heap heap' : Heap}
    {baked : List BakedSolution} (h : bakeSession env session heap = .ok (heap', baked)) :
    ∃ run, recordSession env session heap = .ok run ∧
      ∀ b ∈ baked, ∃ m ∈ run.2, ∃ sln ∈ session, m.sln = prepareSolution env sln ∧
        SolutionRecorded env b m := by
  obtain ⟨run, hrun, -, -, hall⟩ := foldlM_simulation (P := fun _ _ => True)
    (R := fun todo (s : Heap × List BakedSolution) (r : Heap × List SolutionMerges) =>
      (∀ sln ∈ todo, sln ∈ session.map (prepareSolution env)) ∧ r.1 = s.1 ∧
        ∀ b ∈ s.2, ∃ m ∈ r.2, ∃ sln ∈ session, m.sln = prepareSolution env sln ∧
          SolutionRecorded env b m)
    (g := fun st sln => do
      let (heap, merges) ← recordSolution env sln st.1
      return (heap, st.2 ++ [merges]))
    (fun s r sln todo s' hR _ hstep => by
      obtain ⟨htodo, hheap, hdone⟩ := hR
      obtain ⟨⟨g, b⟩, hbake, heq⟩ := bind_eq_ok.mp hstep
      cases heq
      rw [← hheap] at hbake
      obtain ⟨m, hm, hsln, hb⟩ := exists_recordSolution hbake
      refine ⟨_, bind_eq_ok.mpr ⟨_, hm, rfl⟩, fun q hq => htodo q (List.mem_cons_of_mem _ hq), rfl,
        fun b' hb' => ?_⟩
      rcases List.mem_append.mp hb' with hb' | hb'
      · obtain ⟨m', hm', hrest⟩ := hdone b' hb'
        exact ⟨m', List.mem_append_left _ hm', hrest⟩
      · obtain rfl := List.mem_singleton.mp hb'
        obtain ⟨sln₀, hsln₀, heq⟩ := List.mem_map.mp (htodo sln List.mem_cons_self)
        exact ⟨m, List.mem_append_right _ (List.mem_singleton_self m), sln₀, hsln₀,
          hsln.trans heq.symm, hb⟩)
    (t := (heap, [])) ⟨fun _ h => h, rfl, fun _ h => absurd h List.not_mem_nil⟩
    (along_of_forall (fun _ _ => trivial) _ _) h
  exact ⟨run, hrun, hall⟩

theorem location_eq {sln : Solution} {prj : Project} : location env sln prj =
    (prj.obj.fields .location <|> sln.obj.fields .location <|>
      prj.obj.fields .basedir).getD [] := by
  rw [location]
  change ((prj.obj.fields.withLocation _) .location).getD [] = _
  cases hloc : (prj.obj.fields .location <|> sln.obj.fields .location <|>
      prj.obj.fields .basedir) with
  | some l => rw [Fields.withLocation, Fields.set_self]
  | none =>
      have hprj : prj.obj.fields .location = none := by
        cases h : prj.obj.fields .location with
        | none => rfl
        | some l => simp [h] at hloc
      rw [Fields.withLocation, hprj]

/-- Before anything is copied, the settings of a configuration are those of the blocks that apply,
merged on those that apply above, and post-processed. -/
theorem exists_applies {session : List Solution} {heap heap' : Heap} {baked : List BakedSolution}
    (h : bakeSession env session heap = .ok (heap', baked)) {b : BakedSolution} (hb : b ∈ baked)
    {prjb : BakedProject} (hprjb : prjb ∈ b.projects) {e : Str × BakedConfig}
    (he : e ∈ prjb.configs) :
    ∃ sln ∈ session, ∃ prj ∈ sln.projects, prjb.toProject = prepareProject env sln.obj prj ∧
      ∃ above own, Applies env session heap sln prj e.1 above own ∧ ∃ base : Obj, ∃ plt,
        base.fields = mergedFields env (prepareSolution env sln).obj none above ∧
        fixedFields plt (mergedFields env (prepareProject env sln.obj prj).obj (some base)
          (own.map (Block.adjust env.cwd (location env sln prj)))) = .ok e.2.fields := by
  obtain ⟨run, hrun, hall⟩ := exists_recordSession h
  obtain ⟨m, hm, sln, hsln, hmsln, habove, hprojects, hmem, hkeys⟩ := hall b hb
  obtain ⟨p, hp, hsame, g, st, hrecorded, hpost⟩ := exists_right_of_forall₂ hprojects hprjb
  obtain ⟨g₀, st₀, hrecorded₀, hbasis⟩ := habove
  have hpsln := hmem p hp
  rw [hmsln] at hpsln
  obtain ⟨prj, hprj, hprep⟩ := List.mem_map.mp hpsln
  obtain ⟨e', he', hkey, _, _, -, hrunpost⟩ := exists_left_of_forall₂ hpost he
  obtain ⟨mown, hlast, -, hmkey, hcfg, hon⟩ := hrecorded.exists_merge (env.ord.mem_enum.mp he')
  obtain ⟨base, hbase⟩ := Option.isSome_iff_exists.mp (hkeys prjb hprjb e he)
  obtain ⟨mabove, hlast₀, -, -, hcfg₀, hon₀⟩ :=
    hrecorded₀.exists_merge (hbasis ▸ mem_of_lookup hbase)
  have hblocks := hon.sublist
  rw [← hprep] at hblocks
  obtain ⟨own, hown, hmap⟩ := List.sublist_map_iff.mp hblocks
  rw [← location_eq] at hmap
  have habove : mabove.blocks.Sublist (prepareSolution env sln).obj.blocks := hmsln ▸ hon₀.sublist
  refine ⟨sln, hsln, prj, hprj, hsame.trans hprep.symm, mabove.blocks, own,
    ⟨run, hrun, m, hm, hmsln, p, hp, hprep.symm, habove, hown, by rw [hlast₀]; rfl,
      by rw [hkey, hlast, Option.map_some, hmap]⟩, base.toObj, ?_⟩
  obtain ⟨_, _, plt, fields, _, -, -, -, hfixed, -, heq⟩ := postprocess_eq_ok.mp hrunpost
  refine ⟨plt, ?_, ?_⟩
  · have hfields := hon₀.fields
    rw [hcfg₀, hmsln] at hfields
    exact hfields
  · have hfields := hon.fields
    rw [hcfg, hmkey, ← hkey, hbase, Option.map_some, hmap] at hfields
    rw [hprep, ← hfields, heq]
    exact hfixed

/-- The configurations of a session before anything is copied, with a list to which nothing is
copied. -/
theorem exists_baked_of_buildconfigs {f : Field}
    (hf : ∀ prjs prj entry connections, copiedTo env prjs prj entry connections f = [])
    {session : List Solution} {heap : Heap} {result : List BakedSolution}
    (h : buildconfigs env session heap = .ok result)
    {sln' : BakedSolution} (hsln : sln' ∈ result) {prj' : BakedProject}
    (hprj : prj' ∈ sln'.projects) {e : Str × BakedConfig} (he : e ∈ prj'.configs) :
    ∃ heap' baked, bakeSession env session heap = .ok (heap', baked) ∧ ∃ b ∈ baked,
      ∃ prj ∈ b.projects, prj.toProject = prj'.toProject ∧
        ∃ e' ∈ prj.configs, e'.1 = e.1 ∧
          e.2.fields.list f = e'.2.fields.list f := by
  obtain ⟨heap', baked, copied, hbaked, hcopied, hassigned⟩ := buildconfigs_eq_ok h
  obtain ⟨c, hc, -, -, hprojects⟩ := exists_left_of_forall₂ hassigned hsln
  obtain ⟨prjc, hprjc, hsame, hconfigs⟩ := exists_left_of_forall₂ hprojects hprj
  obtain ⟨ec, hec, hkey, -, hfields⟩ := exists_left_of_forall₂ hconfigs he
  obtain ⟨b, hb, hcopy⟩ := exists_left_of_forall₂ hcopied hc
  obtain ⟨projects, hmap, heq⟩ := bind_eq_ok.mp hcopy
  obtain rfl := Except.ok.inj heq
  obtain ⟨hprjc, hpure⟩ := List.mem_filter.mp hprjc
  obtain ⟨prj, hprj', hrun⟩ := exists_left_of_forall₂ (mapM_eq_ok.mp hmap) hprjc
  refine ⟨heap', baked, hbaked, b, hb, prj, hprj', ?_⟩
  rw [copyProject] at hrun
  split at hrun
  · obtain rfl := Except.ok.inj hrun
    exact ⟨hsame.symm, ec, hec, hkey.symm, congrArg (Fields.list · f) hfields⟩
  · obtain ⟨configs, hmapped, heq⟩ := bind_eq_ok.mp hrun
    obtain rfl := Except.ok.inj heq
    obtain ⟨e', he', hrun⟩ := exists_left_of_forall₂ (mapM_eq_ok.mp hmapped) hec
    obtain ⟨connections, -, hrun⟩ := bind_eq_ok.mp hrun
    obtain ⟨cfg, hcfg, heq⟩ := bind_eq_ok.mp hrun
    obtain rfl := Except.ok.inj heq
    refine ⟨hsame.symm, e', env.ord.mem_enum.mp he', hkey.symm, ?_⟩
    rw [hfields, list_copyusagedata hcfg, hf, Tbl.append_nil]

end Record

end Puremake
