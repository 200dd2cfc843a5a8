import Puremake.Bake.Names
import Puremake.Bake.Buildconfigs

/-!
# Which configuration stands under a key

The pairs of a configuration and a platform are merged one after the other, and the one that
comes last with a key stays under it. The later steps of baking change neither the keys nor
the names, so this is what is found in the end.
-/

namespace Puremake

open FoldRun

def pairs (cs ps : List Str) : List (Str × Str) :=
  cs.flatMap fun c => (pltnames ps).map fun p => (c, p)

def owner (l : List (Str × Str)) (k : Str) : Option (Str × Str) :=
  l.reverse.find? fun cp => configKey (some cp.1) cp.2 = k

section Owner

variable {l : List (Str × Str)} {k : Str} {cp : Str × Str}

theorem owner_append_singleton (l : List (Str × Str)) (cp : Str × Str) (k : Str) :
    owner (l ++ [cp]) k = if configKey (some cp.1) cp.2 = k then some cp else owner l k := by
  rw [owner, List.reverse_append, List.reverse_singleton, List.singleton_append, List.find?_cons]
  by_cases h : configKey (some cp.1) cp.2 = k
  · simp [h]
  · simp [h, owner]

theorem mem_of_owner (h : owner l k = some cp) : cp ∈ l ∧ configKey (some cp.1) cp.2 = k :=
  ⟨List.mem_reverse.mp (List.mem_of_find?_eq_some h), by simpa using List.find?_some h⟩

theorem exists_owner (h : cp ∈ l) : ∃ cp', owner l (configKey (some cp.1) cp.2) = some cp' := by
  rw [← Option.isSome_iff_exists, owner, List.find?_isSome]
  exact ⟨cp, List.mem_reverse.mpr h, by simp⟩

theorem mem_pairs {cs ps : List Str} {c p : Str} :
    (c, p) ∈ pairs cs ps ↔ c ∈ cs ∧ p ∈ pltnames ps := by
  simp only [pairs, List.mem_flatMap, List.mem_map, Prod.mk.injEq]
  constructor
  · rintro ⟨c', hc', p', hp', rfl, rfl⟩
    exact ⟨hc', hp'⟩
  · rintro ⟨hc, hp⟩
    exact ⟨c, hc, p, hp, rfl, rfl⟩

end Owner

/-- Under the key of every pair stands the configuration of the last pair with this key. -/
def Owned (l : List (Str × Str)) (cfgs : Configs) : Prop :=
  ∀ k cp, owner l k = some cp →
    ∃ cfg, cfgs.lookup k = some cfg ∧ cfg.name = some cp.1 ∧ cfg.platform = cp.2

section Collapse

variable {env : Env} {sln obj : Container} {basis : Configs} {l : List (Str × Str)}

theorem owned_collapseStep {c p : Str} {st st' : CollapseState}
    (h : collapseStep env obj basis (some c) st p = .ok st') (hst : Owned l st.result) :
    Owned (l ++ [(c, p)]) st'.result := by
  obtain ⟨g, t, cfg, hm, rfl⟩ := collapseStep_eq_ok.mp h
  obtain ⟨st, addr, -, -, -, -, rfl⟩ := merge_eq_ok.mp hm
  intro k cp hk
  rw [owner_append_singleton] at hk
  split at hk
  · rename_i hkey
    obtain rfl := Option.some.inj hk
    obtain rfl := hkey
    exact ⟨_, lookup_assign_self _ _ _, rfl, rfl⟩
  · rename_i hkey
    obtain ⟨cfg, hcfg, hname⟩ := hst k cp hk
    exact ⟨cfg, (lookup_assign_of_ne (fun h => hkey h.symm) _ _).trans hcfg, hname⟩

theorem owned_collapseName {ps : List Str} {terms : Terms} {c : Str} {st st' : CollapseState}
    (h : collapseName env obj basis ps terms st c = .ok st') (hst : Owned l st.result) :
    Owned (l ++ (pltnames ps).map fun p => (c, p)) st'.result := by
  refine foldlM_invariant (d := []) (s := { st with terms }) (P := fun _ _ => True)
    (I := fun done (s : CollapseState) => Owned (l ++ done.map fun p => (c, p)) s.result) ?_
    (by simpa using hst) (along_of_forall (fun _ _ => trivial) _ _) h
  intro done s p s' hs _ hstep
  rw [List.map_append, ← List.append_assoc]
  exact owned_collapseStep hstep hs

theorem owned_collapse {cs : List Str} {heap h : Heap} {cfgs : Configs}
    (hcs : sln.configurations = some cs)
    (hrun : collapse env sln obj basis heap = .ok (h, cfgs)) :
    Owned (pairs cs sln.platformnames) cfgs := by
  obtain ⟨cs', root, st, hcs', -, hst, -, rfl⟩ := collapse_eq_ok.mp hrun
  obtain rfl := Option.some.inj (hcs.symm.trans hcs')
  refine foldlM_invariant (d := []) (P := fun _ _ => True)
    (I := fun done (s : CollapseState) => Owned (pairs done sln.platformnames) s.result) ?_
    (fun k cp hk => by cases hk) (along_of_forall (fun _ _ => trivial) _ _) hst
  intro done s c s' hs _ hname
  rw [pairs, List.flatMap_append, List.flatMap_singleton]
  exact owned_collapseName hname hs

end Collapse

/-- Under the key of every pair stands a configuration with the names of the last pair with
this key. -/
def OwnedNames (l : List (Str × Str)) (cfgs : BakedConfigs) : Prop :=
  ∀ k cp, owner l k = some cp → ∃ cfg, cfgs.lookup k = some cfg ∧ cfg.name = some cp.1 ∧
    cfg.platform = cp.2 ∧ getconfigname (some cp.1) cp.2 true = .ok cfg.shortname

section Buildconfigs

variable {env : Env} {session : List Solution} {heap : Heap}

theorem ownedNames_bakeProject {sln obj : Container} {basis : Configs} {cs : List Str}
    {h : Heap} {baked : BakedConfigs} (hcs : sln.configurations = some cs)
    (hbake : bakeProject env sln obj basis heap = .ok (h, baked)) :
    OwnedNames (pairs cs sln.platformnames) baked := by
  obtain ⟨g, cfgs, hcollapse, hbaked⟩ := lookup_baked hcs hbake
  intro k cp hk
  obtain ⟨cfg, hcfg, hname, hplt⟩ := owned_collapse hcs hcollapse k cp hk
  obtain ⟨b, hb, -, g', g'', -, hpost⟩ := hbaked k cfg hcfg
  obtain ⟨short, _, _, _, _, hshort, -, -, -, -, rfl⟩ := postprocess_eq_ok.mp hpost
  refine ⟨_, hb, hname, hplt, ?_⟩
  rw [← hname, ← hplt]
  exact hshort

/-- In lists that are related entry by entry, entries under a key are related. -/
theorem exists_lookup_of_forall₂ {α : Type} {R : α → α → Prop} {l l' : List (Str × α)}
    (h : List.Forall₂ (fun e e' => e'.1 = e.1 ∧ R e.2 e'.2) l l') {k : Str} {a : α}
    (ha : l.lookup k = some a) : ∃ a', l'.lookup k = some a' ∧ R a a' := by
  induction h with
  | nil => cases ha
  | @cons e e' l l' he _ ih =>
      obtain ⟨k₁, a₁⟩ := e
      obtain ⟨k₂, a₂⟩ := e'
      obtain ⟨rfl, hR⟩ := he
      rw [List.lookup_cons] at ha ⊢
      split at ha
      · rename_i hk
        obtain rfl := Option.some.inj ha
        simp only [hk]
        exact ⟨a₂, rfl, hR⟩
      · rename_i hk
        simp only [hk]
        exact ih ha

theorem lookup_perm {α : Type} {l l' : List (Str × α)} (h : l.Perm l')
    (hnodup : (l.map Prod.fst).Nodup) (k : Str) : l'.lookup k = l.lookup k := by
  refine Option.ext fun a => ?_
  rw [lookup_eq_some_iff_mem hnodup,
    lookup_eq_some_iff_mem ((h.map Prod.fst).nodup_iff.mp hnodup), h.mem_iff]

theorem OwnedNames.of_lookup {l : List (Str × Str)} {cfgs cfgs' : BakedConfigs}
    (h : OwnedNames l cfgs) (hlookup : ∀ k cfg, cfgs.lookup k = some cfg →
      ∃ cfg', cfgs'.lookup k = some cfg' ∧ SameNames cfg cfg') : OwnedNames l cfgs' := by
  intro k cp hk
  obtain ⟨cfg, hcfg, hname, hplt, hshort⟩ := h k cp hk
  obtain ⟨cfg', hcfg', hsame⟩ := hlookup k cfg hcfg
  exact ⟨cfg', hcfg', hsame.name.trans hname, hsame.platform.trans hplt, hsame.shortname ▸ hshort⟩

theorem ownedNames_copyProject {prjs : List BakedProject} {prj prj' : BakedProject}
    {l : List (Str × Str)} (hnodup : (prj.configs.map Prod.fst).Nodup)
    (h : OwnedNames l prj.configs) (hcopy : copyProject env prjs prj = .ok prj') :
    OwnedNames l prj'.configs := by
  rw [copyProject] at hcopy
  split at hcopy
  · obtain rfl := Except.ok.inj hcopy
    exact h
  · obtain ⟨configs, hconfigs, heq⟩ := bind_eq_ok.mp hcopy
    cases heq
    refine h.of_lookup fun k cfg hcfg => ?_
    have hrel : List.Forall₂ (fun e e' : Str × BakedConfig => e'.1 = e.1 ∧ SameNames e.2 e'.2)
        (env.ord.enum prj.configs) configs :=
      (mapM_eq_ok.mp hconfigs).imp fun e e' he => sameNames_copyConfig he
    exact exists_lookup_of_forall₂ hrel
      ((lookup_perm (env.ord.perm prj.configs).symm hnodup k).trans hcfg)

/-- What is found in the configurations of a project when `buildconfigs` returns. -/
theorem ownedNames_buildconfigs {result : List BakedSolution}
    (h : buildconfigs env session heap = .ok result) {sln : BakedSolution} (hsln : sln ∈ result)
    {prj : BakedProject} (hprj : prj ∈ sln.projects) :
    ∃ cs, sln.obj.configurations = some cs ∧
      OwnedNames (pairs cs sln.obj.platformnames) prj.configs := by
  obtain ⟨heap', baked, copied, hbaked, hcopied, hassigned⟩ := buildconfigs_eq_ok h
  obtain ⟨sln₂, hsln₂, hobj₂, -, hprojects₂⟩ := exists_left_of_forall₂ hassigned hsln
  obtain ⟨prj₂, hprj₂, -, hconfigs₂⟩ := exists_left_of_forall₂ hprojects₂ hprj
  obtain ⟨sln₁, hsln₁, hcopy⟩ := exists_left_of_forall₂ hcopied hsln₂
  obtain ⟨sln₀, hsln₀, _, _, hbake⟩ := exists_left_of_forall₂ (bakeSession_eq_ok hbaked) hsln₁
  obtain ⟨⟨_, hcollapse⟩, hobj₁, hfrom⟩ := bakeSolution_eq_ok hbake
  obtain ⟨cs, _, _, hcs, -⟩ := collapse_eq_ok.mp hcollapse
  obtain ⟨projects, hprojects, heq⟩ := bind_eq_ok.mp hcopy
  cases heq
  obtain ⟨prj₁, hprj₁, hproject⟩ :=
    exists_left_of_forall₂ (mapM_eq_ok.mp hprojects) (List.mem_of_mem_filter hprj₂)
  obtain ⟨_, -, -, _, _, hrun⟩ := exists_left_of_forall₂ hfrom hprj₁
  have hobj : sln.obj = (prepareSolution env sln₀).obj := hobj₂.trans hobj₁
  refine ⟨cs, hobj ▸ hcs, ?_⟩
  rw [hobj]
  refine (ownedNames_copyProject (nodup_keys_bakeProject hcs hrun)
    (ownedNames_bakeProject hcs hrun) hproject).of_lookup fun k cfg hcfg => ?_
  obtain ⟨cfg', hcfg', hassigned⟩ := exists_lookup_of_forall₂ hconfigs₂ hcfg
  exact ⟨cfg', hcfg', hassigned.1⟩

end Buildconfigs

end Puremake
