import Puremake.Action.Queries

/-!
# Which queries of the links leave the session as it is

A query can change two things. When all the directories are asked for, the table `libdirs` of the
configuration gets what is inserted. And `premake.findproject` has the root configurations of the
projects that it goes over named. A query is harmless when the directories are in the table, and
the roots have their names, as they have once the projects have been checked.
-/

namespace Puremake

namespace Links

/-- An entry that ends the query: a broken one, or one with a directory when there is no table to
insert it into. -/
def Ends (env : Env) (session : List Workspace) (kind : LinkKind) (part : LinkPart)
    (prj : BakedProject) (cfg : BakedConfig) (link : Str) : Prop :=
  Broken session kind part prj cfg link ∨ (part = .directory ∧ kind = .all ∧
    cfg.fields .libdirs = none ∧ ∃ dir, StandsFor env session prj cfg link dir)

/-- The root configuration of a project has the name of the project. -/
def Named (prj : BakedProject) : Prop := ∀ cfg ∈ prj.configs.lookup [], cfg.name = some prj.name

/-- The projects up to the first one with a name, which `premake.findproject` goes over. -/
def goneOver (name : Str) : List BakedProject → List BakedProject
  | [] => []
  | prj :: prjs => prj :: if prj.name = name then [] else goneOver name prjs

/-- For the entries of the links up to one that ends the query, the projects that are gone over
have named roots, and when all the directories are asked for, those that the entry stands for are
among the `libdirs` already. -/
def Harmless (env : Env) (session : List Workspace) (id : ConfigId) (kind : LinkKind)
    (part : LinkPart) : Prop :=
  ∀ prj cfg namestyle, id.get? session = some (prj, cfg) → getnamestyle env cfg = .ok namestyle →
    ∀ pre link post, (cfg.fields.list .links).arr = pre ++ link :: post →
      (∀ l ∈ pre, ¬ Ends env session kind part prj cfg l) →
      (∀ prj' ∈ goneOver link (session.flatMap fun sln => sln.projects), Named prj') ∧
      (part = .directory → kind = .all → ∀ libdirs, cfg.fields .libdirs = some libdirs →
        ∀ dir, StandsFor env session prj cfg link dir →
          written env dir ∈ libdirs.arr ∨ written env dir ∈ libdirs.keys)

section Passed

variable {prj : BakedProject} {session session' : List Workspace} {name : Str}

theorem nameRoot_eq_self_iff : nameRoot prj = prj ↔ Named prj := by
  rw [nameRoot, Named]
  cases hroot : prj.configs.lookup [] with
  | none => exact iff_of_true rfl fun _ h => absurd h (by simp)
  | some cfg =>
      constructor
      · intro h cfg' hcfg'
        obtain rfl := Option.mem_some_iff.mp hcfg'
        have hlookup := congrArg (fun p : BakedProject => p.configs.lookup []) h
        rw [lookup_assign_self, hroot] at hlookup
        exact (congrArg (fun cfg : BakedConfig => cfg.name) (Option.some.inj hlookup)).symm
      · intro h
        have hsame : { cfg with name := some prj.name } = cfg := by rw [← h cfg rfl]
        exact congrArg (fun configs => { prj with configs := configs })
          ((congrArg (assign [] · prj.configs) hsame).trans (assign_eq_self hroot))

theorem named_nameRoot : Named (nameRoot prj) := by
  intro cfg' hcfg'
  rw [nameRoot] at hcfg' ⊢
  cases hroot : prj.configs.lookup [] with
  | none =>
      rw [hroot] at hcfg'
      exact absurd (hroot.symm.trans hcfg') (by simp)
  | some cfg =>
      rw [hroot] at hcfg'
      obtain rfl := Option.some.inj ((lookup_assign_self _ _ _).symm.trans hcfg')
      rfl

/-- A project with a root that may have been named. -/
def NamedFrom (prj prj' : BakedProject) : Prop := prj' = prj ∨ prj' = nameRoot prj

theorem NamedFrom.trans {p q r : BakedProject} (h : NamedFrom p q) (h' : NamedFrom q r) :
    NamedFrom p r := by
  rcases h with rfl | rfl
  · exact h'
  · rcases h' with rfl | rfl
    · exact .inr rfl
    · exact .inr (nameRoot_eq_self_iff.mpr named_nameRoot)

theorem NamedFrom.antisymm {p q : BakedProject} (h : NamedFrom p q) (h' : NamedFrom q p) :
    p = q := by
  rcases h with rfl | rfl
  · rfl
  · rcases h' with heq | heq
    · exact heq
    · exact heq.trans (nameRoot_eq_self_iff.mpr named_nameRoot)

/-- A solution with projects of which some roots may have been named. -/
structure PassedFrom (sln sln' : Workspace) : Prop where
  same : { sln with projects := sln'.projects } = sln'
  projects : List.Forall₂ NamedFrom sln.projects sln'.projects

theorem PassedFrom.refl (sln : Workspace) : PassedFrom sln sln :=
  ⟨rfl, List.forall₂_same.mpr fun _ _ => .inl rfl⟩

theorem PassedFrom.trans {a b c : Workspace} (h : PassedFrom a b) (h' : PassedFrom b c) :
    PassedFrom a c := by
  refine ⟨?_, FoldRun.forall₂_trans (fun _ _ _ hab hbc => hab.trans hbc) h.projects h'.projects⟩
  rw [← h'.same, ← h.same]

theorem forall₂_antisymm {α : Type*} {R : α → α → Prop} (hR : ∀ a b, R a b → R b a → a = b)
    {l l' : List α} (h : List.Forall₂ R l l') (h' : List.Forall₂ R l' l) : l = l' := by
  induction h with
  | nil => rfl
  | cons hab _ ih =>
      obtain ⟨hba, hrest⟩ := List.forall₂_cons.mp h'
      rw [hR _ _ hab hba, ih hrest]

theorem PassedFrom.antisymm {a b : Workspace} (h : PassedFrom a b) (h' : PassedFrom b a) :
    a = b := by
  rw [← h.same, ← forall₂_antisymm (fun _ _ => NamedFrom.antisymm) h.projects h'.projects]

theorem forall₂_nameRoots (prjs : List BakedProject) :
    List.Forall₂ NamedFrom prjs (nameRoots name prjs) := by
  induction prjs with
  | nil => exact .nil
  | cons prj prjs ih =>
      rw [nameRoots]
      refine .cons (.inr rfl) ?_
      split
      · exact List.forall₂_same.mpr fun _ _ => .inl rfl
      · exact ih

theorem forall₂_passProjects (name : Str) (session : List Workspace) :
    List.Forall₂ PassedFrom session (passProjects session name) := by
  induction session with
  | nil => exact .nil
  | cons sln slns ih =>
      rw [passProjects]
      refine .cons ⟨rfl, forall₂_nameRoots sln.projects⟩ ?_
      split
      · exact List.forall₂_same.mpr fun sln _ => PassedFrom.refl sln
      · exact ih

theorem forall₂_foldl_passProjects (links : List Str) (session : List Workspace) :
    List.Forall₂ PassedFrom session (links.foldl passProjects session) := by
  induction links generalizing session with
  | nil => exact List.forall₂_same.mpr fun sln _ => PassedFrom.refl sln
  | cons link links ih =>
      exact FoldRun.forall₂_trans (fun _ _ _ hab hbc => hab.trans hbc)
        (forall₂_passProjects link session) (ih (passProjects session link))

/-- Names are only added, so that the session is the same in the end only if it was all along. -/
theorem foldl_passProjects_eq_self_iff {links : List Str} :
    links.foldl passProjects session = session ↔
      ∀ link ∈ links, passProjects session link = session := by
  induction links with
  | nil => simp
  | cons link links ih =>
      rw [List.foldl_cons, List.forall_mem_cons, ← ih]
      constructor
      · intro h
        have hback := forall₂_foldl_passProjects links (passProjects session link)
        rw [h] at hback
        have heq := forall₂_antisymm (fun _ _ => PassedFrom.antisymm)
          (forall₂_passProjects link session) hback
        rw [← heq] at h
        exact ⟨heq.symm, h⟩
      · rintro ⟨hlink, hlinks⟩
        rw [hlink, hlinks]

theorem nameRoots_eq_self_iff {prjs : List BakedProject} :
    nameRoots name prjs = prjs ↔ ∀ prj ∈ goneOver name prjs, Named prj := by
  induction prjs with
  | nil => simp [nameRoots, goneOver]
  | cons prj prjs ih =>
      rw [nameRoots, goneOver, List.cons.injEq, nameRoot_eq_self_iff, List.forall_mem_cons]
      split
      · simp
      · rw [ih]

theorem goneOver_append {l l' : List BakedProject} : goneOver name (l ++ l') =
    goneOver name l ++ if l.any (·.name = name) then [] else goneOver name l' := by
  induction l with
  | nil => rfl
  | cons prj l ih =>
      rw [List.cons_append, goneOver, goneOver, ih]
      by_cases h : prj.name = name
      · simp [h]
      · simp [h]

/-- `premake.findproject` changes nothing exactly when the projects that it goes over have named
roots. -/
theorem passProjects_eq_self_iff : passProjects session name = session ↔
    ∀ prj ∈ goneOver name (session.flatMap fun sln => sln.projects), Named prj := by
  induction session with
  | nil => simp [passProjects, goneOver]
  | cons sln slns ih =>
      have hsln : ({ sln with projects := nameRoots name sln.projects } : Workspace) = sln ↔
          ∀ prj ∈ goneOver name sln.projects, Named prj := by
        rw [← nameRoots_eq_self_iff]
        exact ⟨fun h => congrArg (fun sln : Workspace => sln.projects) h, fun h => by rw [h]⟩
      rw [passProjects, List.cons.injEq, hsln, List.flatMap_cons, goneOver_append,
        List.forall_mem_append]
      refine and_congr_right fun _ => ?_
      split
      · simp
      · exact ih

/-- What is found in a place keeps all that does not look at the name of a root. -/
theorem get?_of_passed {β : Type*} (id : ConfigId) {F : BakedConfig → β}
    (hF : id.key = [] → ∀ (cfg : BakedConfig) n, F { cfg with name := n } = F cfg)
    (h : List.Forall₂ PassedFrom session session') :
    (id.get? session').map (fun r => F r.2) = (id.get? session).map fun r => F r.2 := by
  have hat : ∀ {α : Type} {R : α → α → Prop} {l l' : List α} (_ : List.Forall₂ R l l') (n : ℕ),
      (l[n]? = none ∧ l'[n]? = none) ∨ ∃ a b, l[n]? = some a ∧ l'[n]? = some b ∧ R a b := by
    intro α R l l' h n
    induction h generalizing n with
    | nil => exact .inl ⟨rfl, rfl⟩
    | cons hab _ ih =>
        cases n with
        | zero => exact .inr ⟨_, _, rfl, rfl, hab⟩
        | succ n => simpa using ih n
  simp only [ConfigId.get?, Option.bind_eq_bind]
  rcases hat h id.sln with ⟨hnone, hnone'⟩ | ⟨sln, sln', hsln, hsln', hpassed⟩
  · rw [hnone, hnone']
  · rw [hsln, hsln', Option.bind_some, Option.bind_some]
    rcases hat hpassed.projects id.prj with ⟨hnone, hnone'⟩ | ⟨prj, prj', hprj, hprj', hnamed⟩
    · rw [hnone, hnone']
    · rw [hprj, hprj', Option.bind_some, Option.bind_some]
      rcases hnamed with rfl | rfl
      · rfl
      · rw [nameRoot]
        cases hroot : prj.configs.lookup [] with
        | none => rfl
        | some root =>
            by_cases hkey : id.key = []
            · rw [hkey, lookup_assign_self, hroot]
              exact congrArg some (hF hkey root _)
            · rw [lookup_assign_of_ne hkey]
              cases prj.configs.lookup id.key <;> rfl

end Passed

section Visited

variable {item : Str → Except BakeError (Option Item)} {links : List Str} {result : Option Table}

theorem forall_visited_iff {P : Str → Prop} : (∀ link ∈ visited item result links, P link) ↔
    ∀ pre link post, links = pre ++ link :: post → (∀ l ∈ pre, goesOn item result l) →
      P link := by
  induction links with
  | nil => simp [visited]
  | cons link links ih =>
      rw [visited, List.forall_mem_cons]
      constructor
      · rintro ⟨hlink, hrest⟩ pre l post hlinks hpre
        cases pre with
        | nil =>
            obtain ⟨rfl, -⟩ := List.cons.inj hlinks
            exact hlink
        | cons p pre =>
            obtain ⟨rfl, htail⟩ := List.cons.inj hlinks
            rw [if_pos (hpre link List.mem_cons_self)] at hrest
            exact ih.mp hrest pre l post htail fun l' hl' => hpre l' (List.mem_cons_of_mem _ hl')
      · intro h
        refine ⟨h [] link links rfl (by simp), ?_⟩
        split
        · rename_i hgoes
          refine ih.mpr fun pre l post hlinks hpre =>
              h (link :: pre) l post (by rw [hlinks]; rfl) ?_
          exact List.forall_mem_cons.mpr ⟨hgoes, hpre⟩
        · simp

variable {env : Env} {session : List Workspace} {prj : BakedProject} {cfg : BakedConfig}
  {namestyle link : Str} {kind : LinkKind} {part : LinkPart}

theorem goesOn_some_iff {t : Table} : goesOn item (some t) link ↔ (item link).isOk := by
  rw [goesOn]
  cases item link with
  | error e => simp [Except.isOk, Except.toBool]
  | ok found => cases found <;> simp [Except.isOk, Except.toBool]

theorem goesOn_none_iff :
    goesOn (styledItem env session .all .directory prj cfg namestyle) none link ↔
      ¬ (Broken session .all .directory prj cfg link ∨
        ∃ dir, StandsFor env session prj cfg link dir) := by
  rw [not_or, ← @isOk_styledItem env session prj cfg namestyle, goesOn]
  cases hitem : styledItem env session .all .directory prj cfg namestyle link with
  | error e => simp [Except.isOk, Except.toBool]
  | ok found =>
      cases found with
      | none =>
          refine iff_of_true rfl ⟨rfl, ?_⟩
          rintro ⟨dir, hdir⟩
          have h := (@styledItem_directory env session prj cfg namestyle link _).mpr
            ⟨dir, hdir, rfl⟩
          rw [hitem] at h
          cases Except.ok.inj h
      | some i =>
          obtain ⟨dir, hdir, -⟩ := styledItem_directory.mp hitem
          exact iff_of_false (by simp) fun h => h.2 ⟨dir, hdir⟩

end Visited

section Main

variable (env : Env) (session : List Workspace)

def target (kind : LinkKind) (part : LinkPart) (cfg : BakedConfig) : Option Table :=
  if part = .directory ∧ kind = .all then (cfg.fields .libdirs).map Table.ofTbl else some ⟨[], []⟩

theorem goesOn_iff {prj : BakedProject} {cfg : BakedConfig} {namestyle link : Str}
    {kind : LinkKind} {part : LinkPart} :
    goesOn (styledItem env session kind part prj cfg namestyle) (target kind part cfg) link ↔
      ¬ Ends env session kind part prj cfg link := by
  rw [target, Ends]
  by_cases hall : part = .directory ∧ kind = .all
  · obtain ⟨rfl, rfl⟩ := hall
    rw [if_pos ⟨rfl, rfl⟩]
    cases hlibdirs : cfg.fields .libdirs with
    | none => simpa using goesOn_none_iff
    | some libdirs =>
        rw [Option.map_some, goesOn_some_iff, isOk_styledItem]
        simp
  · rw [if_neg hall, goesOn_some_iff, isOk_styledItem]
    exact not_congr ⟨Or.inl, fun h => h.resolve_right fun hends => hall ⟨hends.1, hends.2.1⟩⟩

/-- Going over the projects changes nothing exactly when those that are gone over have named
roots. -/
theorem visited_eq_self_iff {prj : BakedProject} {cfg : BakedConfig} {namestyle : Str}
    {kind : LinkKind} {part : LinkPart} :
    (visited (styledItem env session kind part prj cfg namestyle) (target kind part cfg)
        (cfg.fields.list .links).arr).foldl passProjects session = session ↔
      ∀ pre link post, (cfg.fields.list .links).arr = pre ++ link :: post →
        (∀ l ∈ pre, ¬ Ends env session kind part prj cfg l) →
        ∀ prj' ∈ goneOver link (session.flatMap fun sln => sln.projects), Named prj' := by
  rw [foldl_passProjects_eq_self_iff, forall_visited_iff]
  simp only [goesOn_iff, passProjects_eq_self_iff]

/-- What going over the projects adds to what is kept does not hide it. -/
theorem keep_eq_self_of_visited {id : ConfigId} {prj : BakedProject} {cfg : BakedConfig}
    {libdirs result : Tbl} {links : List Str} (hid : id.get? session = some (prj, cfg))
    (hlibdirs : cfg.fields .libdirs = some libdirs)
    (h : links.foldl passProjects
      (id.put { cfg with fields := cfg.fields.set .libdirs result } session) = session) :
    id.put { cfg with fields := cfg.fields.set .libdirs result } session = session := by
  have hpassed := forall₂_foldl_passProjects links
    (id.put { cfg with fields := cfg.fields.set .libdirs result } session)
  rw [h] at hpassed
  have hfields := get?_of_passed id (F := fun cfg : BakedConfig => cfg.fields .libdirs)
    (fun _ _ _ => rfl) hpassed
  obtain ⟨prj', hput⟩ := get?_put { cfg with fields := cfg.fields.set .libdirs result } hid
  rw [hput, hid, Option.map_some, Option.map_some, Option.some.injEq] at hfields
  refine (put_libdirs_iff hid hlibdirs).mpr (Option.some.inj ?_)
  exact (Fields.set_self cfg.fields .libdirs result).symm.trans (hfields.symm.trans hlibdirs)

/-- One query leaves the session as it is exactly when it is harmless. -/
theorem getlinks_eq_self_iff (id : ConfigId) (kind : LinkKind) (part : LinkPart) :
    (getlinks env id kind part session).2 = session ↔ Harmless env session id kind part := by
  rw [getlinks]
  split
  · rename_i hid
    refine iff_of_true rfl fun prj cfg _ h => ?_
    rw [hid] at h
    cases h
  · rename_i prj cfg hid
    split
    · rename_i e hstyle
      refine iff_of_true rfl fun prj' cfg' _ h hstyle' => ?_
      obtain ⟨rfl, rfl⟩ := Prod.mk.inj (Option.some.inj (hid.symm.trans h))
      rw [hstyle] at hstyle'
      cases hstyle'
    · rename_i namestyle hstyle
      have hharmless : Harmless env session id kind part ↔
          ∀ pre link post, (cfg.fields.list .links).arr = pre ++ link :: post →
            (∀ l ∈ pre, ¬ Ends env session kind part prj cfg l) →
            (∀ prj' ∈ goneOver link (session.flatMap fun sln => sln.projects), Named prj') ∧
            (part = .directory → kind = .all → ∀ libdirs, cfg.fields .libdirs = some libdirs →
              ∀ dir, StandsFor env session prj cfg link dir →
                written env dir ∈ libdirs.arr ∨ written env dir ∈ libdirs.keys) := by
        constructor
        · exact fun h => h prj cfg namestyle hid hstyle
        · intro h prj' cfg' _ hid' _
          obtain ⟨rfl, rfl⟩ := Prod.mk.inj (Option.some.inj (hid.symm.trans hid'))
          exact h
      have hvisited := @visited_eq_self_iff env session prj cfg namestyle kind part
      rw [hharmless]
      by_cases hall : part = .directory ∧ kind = .all
      · obtain ⟨rfl, rfl⟩ := hall
        rw [target, if_pos ⟨rfl, rfl⟩] at hvisited
        rw [if_pos ⟨rfl, rfl⟩]
        cases hlibdirs : cfg.fields .libdirs with
        | none =>
            rw [hlibdirs] at hvisited
            simp only [Option.map_none, collect_none, keep] at hvisited ⊢
            rw [hvisited]
            simp
        | some libdirs =>
            rw [hlibdirs] at hvisited
            have hkeep := @keep_eq_self_iff env session prj cfg namestyle id libdirs
              (cfg.fields.list .links).arr hid hlibdirs
            rw [held_iff] at hkeep
            have hends : ∀ l, Ends env session .all .directory prj cfg l ↔
                Broken session .all .directory prj cfg l := by
              intro l
              rw [Ends, hlibdirs]
              simp
            simp only [hends] at hvisited ⊢
            constructor
            · intro h
              obtain ⟨new, hnew, -⟩ := @collect_some
                (styledItem env session .all .directory prj cfg namestyle)
                (cfg.fields.list .links).arr (Table.ofTbl libdirs)
              have hkept : keep id cfg session (collect (styledItem env session .all .directory prj
                  cfg namestyle) (cfg.fields.list .links).arr (some (Table.ofTbl libdirs))).2 =
                  session := by
                simp only [Option.map_some, hnew, keep] at h ⊢
                exact keep_eq_self_of_visited session hid hlibdirs h
              simp only [Option.map_some, hkept] at h
              intro pre link post hlinks hpre
              refine ⟨hvisited.mp h pre link post hlinks hpre, ?_⟩
              rintro - - libdirs' hlibdirs' dir hdir
              obtain rfl := Option.some.inj hlibdirs'
              exact hkeep.mp hkept pre link post hlinks hpre dir hdir
            · intro h
              have hkept := hkeep.mpr fun pre link post hlinks hpre dir hdir =>
                (h pre link post hlinks hpre).2 trivial trivial libdirs rfl dir hdir
              simp only [Option.map_some, hkept]
              exact hvisited.mpr fun pre link post hlinks hpre => (h pre link post hlinks hpre).1
      · rw [target, if_neg hall] at hvisited
        rw [if_neg hall, hvisited]
        refine forall₃_congr fun pre link post => forall₂_congr fun _ _ => ?_
        exact (and_iff_left fun hpart hkind => absurd ⟨hpart, hkind⟩ hall).symm

end Main

structure Query where
  id : ConfigId
  kind : LinkKind
  part : LinkPart

/-- The session after some queries, of which any may end in an error. -/
def run (env : Env) (queries : List Query) (session : List Workspace) : List Workspace :=
  queries.foldl (fun session q => (getlinks env q.id q.kind q.part session).2) session

theorem run_eq_self {env : Env} {session : List Workspace} {queries : List Query}
    (h : ∀ q ∈ queries, Harmless env session q.id q.kind q.part) :
    run env queries session = session := by
  induction queries with
  | nil => rfl
  | cons q queries ih =>
      have hq := (getlinks_eq_self_iff env session q.id q.kind q.part).mpr (h q List.mem_cons_self)
      rw [run, List.foldl_cons, hq]
      exact ih fun q' hq' => h q' (List.mem_cons_of_mem q hq')

/-- A query leaves all the session as it is exactly when it is harmless, and any number of
harmless queries do. -/
theorem getlinks_pure_iff (env : Env) (session : List Workspace) :
    (∀ id kind part,
      (getlinks env id kind part session).2 = session ↔ Harmless env session id kind part) ∧
    ∀ queries : List Query, (∀ q ∈ queries, Harmless env session q.id q.kind q.part) →
      run env queries session = session :=
  ⟨getlinks_eq_self_iff env session, fun _ h => run_eq_self h⟩

/-- A configuration that links the library `m`, and has no `libdirs`. -/
def linkingConfig : BakedConfig where
  fields := ((Fields.empty.set .language "C".toList).set .links ⟨["m".toList], ["m".toList]⟩).set
    .libdirs Tbl.empty
  terms := none
  name := some "Debug".toList
  platform := native
  shortname := none
  longname := none
  system := "linux".toList
  fileconfigs := []

/-- A session with the project `App`, of this configuration. Its root has the name already. -/
def linkingSession : List Workspace :=
  [{ obj := ⟨Fields.empty, [], by simp⟩, basis := [], name := "MySolution".toList,
     projects := [{ name := "App".toList, usage := false, obj := ⟨Fields.empty, [], by simp⟩,
                    configs := [([], { linkingConfig with name := some "App".toList }),
                      ("Debug".toList, linkingConfig)] }] }]

/-- The query for the library directories, which `gcc` and the other tools make, leaves `.` in
`libdirs`. -/
theorem not_getlinks_pure : ¬ ∀ env session id kind part,
    (getlinks env id kind part session).2 = session := by
  intro h
  have hharmless := (getlinks_eq_self_iff _ _ _ _ _).mp
    (h Env.gmake linkingSession ⟨0, 0, "Debug".toList⟩ .all .directory)
  have hdot := (hharmless _ linkingConfig "posix".toList rfl (by decide) [] "m".toList [] rfl
    (by simp)).2 rfl rfl Tbl.empty rfl dot (.plain rfl (by decide))
  rcases hdot with hdot | hdot <;> exact List.not_mem_nil hdot

end Links

end Puremake
