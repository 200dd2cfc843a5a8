import Puremake.Action.Links
import Puremake.Path.Names

/-!
# What a query of the links changes

`premake.getlinks` collects its items in a table. The table is a new one, except where all the
directories are asked for: there it is the table `libdirs` of the configuration itself, and the
items go into it. And the projects that are gone over to find a sibling have their root
configuration named. The session is passed through the query here, so that it can be compared with
what the query leaves: nothing changes exactly when every directory that an entry of the links
stands for is one of the `libdirs` already, and the roots have the names of their projects already.
-/

namespace Puremake

/-- The parts of a link that `premake.getlinks` is asked for. -/
inductive LinkPart
  | name
  | basename
  | directory
  | fullpath
  | object
  deriving DecidableEq, Repr

/-- A configuration of the session: its solution, its project, and the key it is kept under. -/
structure ConfigId where
  sln : ℕ
  prj : ℕ
  key : Str
  deriving DecidableEq, Repr

namespace ConfigId

def get? (id : ConfigId) (session : List Workspace) : Option (BakedProject × BakedConfig) := do
  let sln ← session[id.sln]?
  let prj ← sln.projects[id.prj]?
  let cfg ← prj.configs.lookup id.key
  return (prj, cfg)

def put (id : ConfigId) (cfg : BakedConfig) (session : List Workspace) : List Workspace :=
  session.modify id.sln fun sln => { sln with
    projects := sln.projects.modify id.prj fun prj => { prj with
      configs := assign id.key cfg prj.configs } }

end ConfigId

namespace Links

/-- An item of the result: a text, or the configuration of a project that the query has looked
up, as a reference. Within a query it is the same for two projects of the same name. -/
inductive Item
  | text (s : Str)
  | object (prj : Str)
  deriving DecidableEq

def Item.same (a b : Item) : Bool := a = b

def Item.text? : Item → Option Str
  | .text s => some s
  | .object _ => none

/-- A table of items: its array part, and the string keys, which hold themselves as values. -/
structure Table where
  arr : List Item
  keys : List Str

/-- `table.contains`, which goes through the whole table with `pairs` -/
def Table.contains (t : Table) (item : Item) : Bool :=
  t.arr.any item.same || t.keys.any fun key => item.same (.text key)

def Table.ofTbl (t : Tbl) : Table := ⟨t.arr.map .text, t.keys⟩

def Table.toTbl (t : Table) : Tbl := ⟨t.arr.filterMap Item.text?, t.keys⟩

/-- The end of a round of the loop in `premake.getlinks`: the item is inserted unless it is in
the table. A table that is missing raises an error. -/
def insert : Option Table → Item → Except BakeError (Option Table)
  | none, _ => .error .indexNil
  | some t, item => .ok (some (if t.contains item then t else ⟨t.arr ++ [item], t.keys⟩))

def siblingItem (env : Env) (part : LinkPart) (cfg : BakedConfig) (prj : Str)
    (prjcfg : BakedConfig) : Except BakeError (Option Item) :=
  match part with
  | .directory =>
    match prjcfg.linktarget, prjcfg.fields .location, cfg.fields .location with
    | some linktarget, some oldbase, some newbase =>
      .ok (some (.text (Path.rebase env.cwd linktarget.directory oldbase newbase)))
    | _, _, _ => .error .indexNil
  | .basename =>
    match prjcfg.linktarget with
    | some linktarget => .ok (some (.text linktarget.basename))
    | none => .error .indexNil
  | .fullpath =>
    match prjcfg.linktarget, prjcfg.fields .location, cfg.fields .location with
    | some linktarget, some oldbase, some newbase =>
      .ok (some (.text (Path.rebase env.cwd linktarget.fullpath oldbase newbase)))
    | _, _, _ => .error .indexNil
  | .object => .ok (some (.object prj))
  | .name => .ok none

/-- The part of a library of the system, before it is made relative. -/
def systemItem (part : LinkPart) (cfg : BakedConfig) (namestyle link : Str) : Str :=
  match part with
  | .directory => Path.getdirectory link
  | .fullpath =>
    if namestyle = "windows".toList then
      if cfg.iscpp then link ++ ".lib".toList
      else if cfg.fields .language = some "C#".toList then link ++ ".dll".toList
      else link
    else link
  | .name => Path.getname link
  | .basename => Path.getbasename link
  | .object => link

/-- The name by which the configurations of the siblings are looked up. -/
def cfgname (prj : BakedProject) (cfg : BakedConfig) : Option Str :=
  if cfg.name = some prj.name then some [] else cfg.name

/-- The item for an entry of `cfg.links`. -/
def linkItem (env : Env) (session : List Workspace) (kind : LinkKind) (part : LinkPart)
    (prj : BakedProject) (cfg : BakedConfig) (namestyle link : Str) :
    Except BakeError (Option Item) :=
  match findproject session link with
  | some (sln, prj') =>
    if kind = .system then .ok none
    else
      match getconfig sln.obj.platformnames prj'.configs (cfgname prj cfg) (some cfg.platform) with
      | none =>
        -- `canlink` and most parts index the missing configuration
        if kind = .dependencies ∧ (part = .object ∨ part = .name) then .ok none
        else .error .indexNil
      | some prjcfg =>
        if kind = .dependencies ∨ canlink cfg prjcfg then siblingItem env part cfg prj'.name prjcfg
        else .ok none
  | none =>
    if kind = .system ∨ kind = .all then
      let item := systemItem part cfg namestyle link
      .ok (some (.text
        (if '/' ∈ item then Path.getrelative env.cwd prj.location item else item)))
    else .ok none

def styled (env : Env) (part : LinkPart) : Item → Item
  | .text s =>
    if getpathstyle env = "windows".toList ∧ part ≠ .object then .text (Path.translate s '\\')
    else .text s
  | .object prj => .object prj

/-- The item for an entry of `cfg.links`, in that path style. -/
def styledItem (env : Env) (session : List Workspace) (kind : LinkKind) (part : LinkPart)
    (prj : BakedProject) (cfg : BakedConfig) (namestyle link : Str) :
    Except BakeError (Option Item) :=
  (linkItem env session kind part prj cfg namestyle link).map (Option.map (styled env part))

/-- The loop over `cfg.links`: the error that ended it, if any, and the table at its end. -/
def collect (item : Str → Except BakeError (Option Item)) :
    List Str → Option Table → Except BakeError Unit × Option Table
  | [], result => (.ok (), result)
  | link :: links, result =>
    match item link with
    | .error e => (.error e, result)
    | .ok none => collect item links result
    | .ok (some i) =>
      match insert result i with
      | .error e => (.error e, result)
      | .ok result => collect item links result

def answer (r : Except BakeError Unit × Option Table) : Except BakeError (List Item) :=
  r.1.map fun _ => (r.2.map Table.arr).getD []

/-- The session after the loop has inserted into the table `cfg.libdirs`. -/
def keep (id : ConfigId) (cfg : BakedConfig) (session : List Workspace) :
    Option Table → List Workspace
  | none => session
  | some result => id.put { cfg with fields := cfg.fields.set .libdirs result.toTbl } session

def goesOn (item : Str → Except BakeError (Option Item)) (result : Option Table) (link : Str) :
    Bool :=
  match item link with
  | .error _ => false
  | .ok none => true
  | .ok (some _) => result.isSome

def visited (item : Str → Except BakeError (Option Item)) (result : Option Table) :
    List Str → List Str
  | [] => []
  | link :: links => link :: if goesOn item result link then visited item result links else []

/-- `premake.solution.getproject` writes the name of the project into its root configuration,
which there always is after baking. -/
def nameRoot (prj : BakedProject) : BakedProject :=
  match prj.configs.lookup [] with
  | none => prj
  | some cfg => { prj with configs := assign [] { cfg with name := some prj.name } prj.configs }

/-- `premake.findproject` gets the projects one after the other, up to the one with the name. -/
def nameRoots (name : Str) : List BakedProject → List BakedProject
  | [] => []
  | prj :: prjs => nameRoot prj :: if prj.name = name then prjs else nameRoots name prjs

/-- What `premake.findproject` changes: the names of the roots of the projects that it gets. -/
def passProjects (session : List Workspace) (name : Str) : List Workspace :=
  match session with
  | [] => []
  | sln :: slns => { sln with projects := nameRoots name sln.projects } ::
      if sln.projects.any (·.name = name) then slns else passProjects slns name

/-- `premake.getlinks`, and the session as it is afterwards. The loop does not read the names of
root configurations, so that they are written in the end here. -/
def getlinks (env : Env) (id : ConfigId) (kind : LinkKind) (part : LinkPart)
    (session : List Workspace) : Except BakeError (List Item) × List Workspace :=
  match id.get? session with
  | none => (.error .indexNil, session)
  | some (prj, cfg) =>
    match getnamestyle env cfg with
    | .error e => (.error e, session)
    | .ok namestyle =>
      let item := styledItem env session kind part prj cfg namestyle
      let links := (cfg.fields.list .links).arr
      if part = .directory ∧ kind = .all then
        -- the table of the configuration is the result, and keeps what is inserted
        let libdirs := (cfg.fields .libdirs).map Table.ofTbl
        let r := collect item links libdirs
        (answer r, (visited item libdirs links).foldl passProjects (keep id cfg session r.2))
      else
        (answer (collect item links (some ⟨[], []⟩)),
          (visited item (some ⟨[], []⟩) links).foldl passProjects session)

section Collect

variable {item : Str → Except BakeError (Option Item)} {links : List Str} {t : Table}

/-- Every item that the loop comes to is in the table already. -/
def Held (item : Str → Except BakeError (Option Item)) (t : Table) (links : List Str) : Prop :=
  ∀ pre link post, links = pre ++ link :: post → (∀ l ∈ pre, (item l).isOk) →
    ∀ i, item link = .ok (some i) → t.contains i

theorem held_nil : Held item t [] := by
  intro pre link post h
  exact absurd h (by simp)

theorem held_cons {link : Str} : Held item t (link :: links) ↔
    (∀ i, item link = .ok (some i) → t.contains i) ∧
      ((item link).isOk → Held item t links) := by
  constructor
  · intro h
    refine ⟨fun i hi => h [] link links rfl (by simp) i hi, fun hok pre l post hlinks hpre => ?_⟩
    refine h (link :: pre) l post (by rw [hlinks, List.cons_append]) fun l' hl' => ?_
    rcases List.mem_cons.mp hl' with rfl | hl'
    · exact hok
    · exact hpre l' hl'
  · rintro ⟨hhead, htail⟩ pre l post hlinks hpre i hi
    cases pre with
    | nil =>
        obtain ⟨rfl, -⟩ := List.cons.inj hlinks
        exact hhead i hi
    | cons p pre =>
        obtain ⟨rfl, hrest⟩ := List.cons.inj hlinks
        exact htail (hpre link (by simp)) pre l post hrest
          (fun l' hl' => hpre l' (List.mem_cons_of_mem _ hl')) i hi

theorem collect_none : (collect item links none).2 = none := by
  induction links with
  | nil => rfl
  | cons link links ih =>
      rw [collect]
      cases item link with
      | error e => rfl
      | ok i =>
          cases i with
          | none => exact ih
          | some i => rfl

/-- The loop appends items of the links to the table, and none exactly when it holds all that
the loop comes to. -/
theorem collect_some : ∃ new, (collect item links (some t)).2 = some ⟨t.arr ++ new, t.keys⟩ ∧
    (∀ i ∈ new, ∃ link ∈ links, item link = .ok (some i)) ∧ (new = [] ↔ Held item t links) := by
  induction links generalizing t with
  | nil => exact ⟨[], by simp [collect], by simp, by simp [held_nil]⟩
  | cons link links ih =>
      rw [held_cons, collect]
      cases hitem : item link with
      | error e => exact ⟨[], by simp, by simp, by simp [Except.isOk, Except.toBool]⟩
      | ok found =>
          cases found with
          | none =>
              obtain ⟨new, hnew, hfrom, hheld⟩ := ih (t := t)
              refine ⟨new, hnew, fun i hi => ?_, by simpa [Except.isOk, Except.toBool] using hheld⟩
              obtain ⟨l, hl, hl'⟩ := hfrom i hi
              exact ⟨l, List.mem_cons_of_mem _ hl, hl'⟩
          | some i =>
              by_cases hin : t.contains i
              · obtain ⟨new, hnew, hfrom, hheld⟩ := ih (t := t)
                refine ⟨new, by simpa [insert, hin] using hnew, fun i' hi' => ?_,
                  by simpa [hin, Except.isOk, Except.toBool] using hheld⟩
                obtain ⟨l, hl, hl'⟩ := hfrom i' hi'
                exact ⟨l, List.mem_cons_of_mem _ hl, hl'⟩
              · obtain ⟨new, hnew, hfrom, -⟩ := ih (t := ⟨t.arr ++ [i], t.keys⟩)
                refine ⟨i :: new, by simpa [insert, hin] using hnew, ?_, by simp [hin]⟩
                rintro i' hi'
                rcases List.mem_cons.mp hi' with rfl | hi'
                · exact ⟨link, List.mem_cons_self, hitem⟩
                · obtain ⟨l, hl, hl'⟩ := hfrom i' hi'
                  exact ⟨l, List.mem_cons_of_mem _ hl, hl'⟩

end Collect

section Put

variable {session : List Workspace} {id : ConfigId} {prj : BakedProject} {cfg : BakedConfig}

theorem get?_eq_some : id.get? session = some (prj, cfg) ↔
    ∃ sln, session[id.sln]? = some sln ∧ sln.projects[id.prj]? = some prj ∧
      prj.configs.lookup id.key = some cfg := by
  simp only [ConfigId.get?, Option.bind_eq_bind, Option.bind_eq_some_iff, Option.pure_def,
    Option.some.injEq, Prod.mk.injEq]
  constructor
  · rintro ⟨sln, hsln, prj', hprj, cfg', hcfg, rfl, rfl⟩
    exact ⟨sln, hsln, hprj, hcfg⟩
  · rintro ⟨sln, hsln, hprj, hcfg⟩
    exact ⟨sln, hsln, prj, hprj, cfg, hcfg, rfl, rfl⟩

theorem get?_put (cfg' : BakedConfig) (h : id.get? session = some (prj, cfg)) :
    ∃ prj', id.get? (id.put cfg' session) = some (prj', cfg') := by
  obtain ⟨sln, hsln, hprj, -⟩ := get?_eq_some.mp h
  refine ⟨{ prj with configs := assign id.key cfg' prj.configs }, get?_eq_some.mpr ⟨{ sln with
    projects := sln.projects.modify id.prj fun prj => { prj with
      configs := assign id.key cfg' prj.configs } }, ?_, ?_, lookup_assign_self id.key cfg' _⟩⟩
  · simp [ConfigId.put, hsln]
  · simp [hprj]

theorem modify_eq_self {α : Type*} {l : List α} {n : ℕ} {f : α → α}
    (h : ∀ x, l[n]? = some x → f x = x) : l.modify n f = l := by
  apply List.ext_getElem?
  intro m
  rw [List.getElem?_modify]
  by_cases hm : n = m
  · subst hm
    cases hx : l[n]? with
    | none => rfl
    | some x => simp [h x hx]
  · simp [hm]

theorem put_self (h : id.get? session = some (prj, cfg)) : id.put cfg session = session := by
  obtain ⟨sln, hsln, hprj, hcfg⟩ := get?_eq_some.mp h
  apply modify_eq_self
  intro sln' hsln'
  obtain rfl := Option.some.inj (hsln.symm.trans hsln')
  have hprojects : (sln.projects.modify id.prj fun prj => { prj with
      configs := assign id.key cfg prj.configs }) = sln.projects := by
    apply modify_eq_self
    intro prj' hprj'
    obtain rfl := Option.some.inj (hprj.symm.trans hprj')
    rw [assign_eq_self hcfg]
  rw [hprojects]

theorem put_libdirs_iff {libdirs libdirs' : Tbl} (h : id.get? session = some (prj, cfg))
    (hlibdirs : cfg.fields .libdirs = some libdirs) :
    id.put { cfg with fields := cfg.fields.set .libdirs libdirs' } session = session ↔
      libdirs' = libdirs := by
  constructor
  · intro heq
    obtain ⟨prj', hput⟩ := get?_put { cfg with fields := cfg.fields.set .libdirs libdirs' } h
    rw [heq, h] at hput
    have hcfg := congrArg (fun cfg : BakedConfig => cfg.fields .libdirs)
      (Prod.mk.inj (Option.some.inj hput)).2
    rw [hlibdirs] at hcfg
    exact (Option.some.inj (hcfg.trans (Fields.set_self cfg.fields .libdirs libdirs'))).symm
  · rintro rfl
    rw [Fields.set_eq_self hlibdirs]
    exact put_self h

end Put

/-- The directory that an entry of `cfg.links` stands for: the one that a sibling which can be
linked is built in, as it is seen from the configuration, or the directory of the name of a
library, seen from the project when it is more than one level. -/
inductive StandsFor (env : Env) (session : List Workspace) (prj : BakedProject)
    (cfg : BakedConfig) (link : Str) : Str → Prop
  | sibling {sln : Workspace} {prj' : BakedProject} {prjcfg : BakedConfig} {target : Target}
      {oldbase newbase : Str} (hfind : findproject session link = some (sln, prj'))
      (hcfg : getconfig sln.obj.platformnames prj'.configs (cfgname prj cfg) (some cfg.platform) =
        some prjcfg)
      (hlink : canlink cfg prjcfg) (htarget : prjcfg.linktarget = some target)
      (hold : prjcfg.fields .location = some oldbase)
      (hnew : cfg.fields .location = some newbase) :
      StandsFor env session prj cfg link (Path.rebase env.cwd target.directory oldbase newbase)
  | plain (hfind : findproject session link = none) (hname : '/' ∉ Path.getdirectory link) :
      StandsFor env session prj cfg link (Path.getdirectory link)
  | nested (hfind : findproject session link = none) (hname : '/' ∈ Path.getdirectory link) :
      StandsFor env session prj cfg link
        (Path.getrelative env.cwd prj.location (Path.getdirectory link))

/-- A part of a sibling that cannot be had: there is no link target, or no location. -/
def Lacks (part : LinkPart) (cfg prjcfg : BakedConfig) : Prop :=
  match part with
  | .directory | .fullpath => prjcfg.linktarget = none ∨ prjcfg.fields .location = none ∨
      cfg.fields .location = none
  | .basename => prjcfg.linktarget = none
  | .object | .name => False

/-- An entry of `cfg.links` that ends the query with an error: a sibling without the
configuration, unless the query asks for no part of it, or one that counts and lacks the part. -/
def Broken (session : List Workspace) (kind : LinkKind) (part : LinkPart) (prj : BakedProject)
    (cfg : BakedConfig) (link : Str) : Prop :=
  kind ≠ .system ∧ ∃ sln prj', findproject session link = some (sln, prj') ∧
    ((getconfig sln.obj.platformnames prj'.configs (cfgname prj cfg) (some cfg.platform) = none ∧
        ¬ (kind = .dependencies ∧ (part = .object ∨ part = .name))) ∨
      ∃ prjcfg, getconfig sln.obj.platformnames prj'.configs (cfgname prj cfg)
          (some cfg.platform) = some prjcfg ∧
        (kind = .dependencies ∨ canlink cfg prjcfg) ∧ Lacks part cfg prjcfg)

def written (env : Env) (dir : Str) : Str :=
  if getpathstyle env = "windows".toList then Path.translate dir '\\' else dir

section Directories

variable {env : Env} {session : List Workspace} {prj : BakedProject} {cfg : BakedConfig}
  {namestyle link : Str}

theorem linkItem_directory {item : Item} :
    linkItem env session .all .directory prj cfg namestyle link = .ok (some item) ↔
      ∃ dir, StandsFor env session prj cfg link dir ∧ item = .text dir := by
  rw [linkItem]
  split
  · rename_i sln prj' hfind
    rw [if_neg (by decide)]
    constructor
    · intro h
      split at h
      · cases h
      · rename_i prjcfg hcfg
        split at h
        · rename_i hlink
          rw [siblingItem] at h
          split at h
          · rename_i target oldbase newbase htarget hold hnew
            refine ⟨_, .sibling hfind hcfg (hlink.resolve_left (by decide)) htarget hold hnew, ?_⟩
            cases h
            rfl
          · cases h
        · cases h
    · rintro ⟨dir, hdir, rfl⟩
      cases hdir with
      | sibling hfind' hcfg hlink htarget hold hnew =>
          obtain ⟨rfl, rfl⟩ := Prod.mk.inj (Option.some.inj (hfind.symm.trans hfind'))
          simp only [hcfg, hlink, or_true, if_true, siblingItem, htarget, hold, hnew]
      | plain hfind' => rw [hfind] at hfind'; cases hfind'
      | nested hfind' => rw [hfind] at hfind'; cases hfind'
  · rename_i hfind
    rw [if_pos (Or.inr rfl)]
    change Except.ok (some (Item.text (if '/' ∈ Path.getdirectory link then
      Path.getrelative env.cwd prj.location (Path.getdirectory link) else
      Path.getdirectory link))) = _ ↔ _
    rw [Except.ok.injEq, Option.some.injEq]
    constructor
    · rintro rfl
      by_cases hname : '/' ∈ Path.getdirectory link
      · rw [if_pos hname]
        exact ⟨_, .nested hfind hname, rfl⟩
      · rw [if_neg hname]
        exact ⟨_, .plain hfind hname, rfl⟩
    · rintro ⟨dir, hdir, rfl⟩
      cases hdir with
      | sibling hfind' => rw [hfind] at hfind'; cases hfind'
      | plain _ hname => rw [if_neg hname]
      | nested _ hname => rw [if_pos hname]

theorem isOk_siblingItem {part : LinkPart} {prj' : Str} {prjcfg : BakedConfig} :
    (siblingItem env part cfg prj' prjcfg).isOk ↔ ¬ Lacks part cfg prjcfg := by
  cases part with
  | name => exact iff_of_true rfl id
  | object => exact iff_of_true rfl id
  | basename =>
      rw [siblingItem, Lacks]
      cases prjcfg.linktarget <;> simp [Except.isOk, Except.toBool]
  | directory =>
      rw [siblingItem, Lacks]
      cases prjcfg.linktarget <;> cases prjcfg.fields .location <;> cases cfg.fields .location <;>
        simp [Except.isOk, Except.toBool]
  | fullpath =>
      rw [siblingItem, Lacks]
      cases prjcfg.linktarget <;> cases prjcfg.fields .location <;> cases cfg.fields .location <;>
        simp [Except.isOk, Except.toBool]

theorem isOk_linkItem {kind : LinkKind} {part : LinkPart} :
    (linkItem env session kind part prj cfg namestyle link).isOk ↔
      ¬ Broken session kind part prj cfg link := by
  rw [linkItem, Broken]
  cases hfind : findproject session link with
  | none =>
      by_cases hkind : kind = .system ∨ kind = .all
      · rw [if_pos hkind]
        simp [Except.isOk, Except.toBool]
      · rw [if_neg hkind]
        simp [Except.isOk, Except.toBool]
  | some found =>
      obtain ⟨sln, prj'⟩ := found
      by_cases hkind : kind = .system
      · simp [hkind, Except.isOk, Except.toBool]
      · simp only [Option.some.injEq, Prod.mk.injEq, ne_eq, hkind, not_false_eq_true, true_and]
        cases hcfg : getconfig sln.obj.platformnames prj'.configs (cfgname prj cfg)
            (some cfg.platform) with
        | none =>
            by_cases hpart : kind = .dependencies ∧ (part = .object ∨ part = .name)
            · simp [hpart, hcfg, Except.isOk, Except.toBool]
            · simp only [if_neg hpart]
              simp [hpart, hcfg, Except.isOk, Except.toBool]
        | some prjcfg =>
            by_cases hlink : kind = .dependencies ∨ canlink cfg prjcfg
            · simp only [if_pos hlink]
              refine isOk_siblingItem.trans (not_congr ?_)
              simp [hcfg, hlink]
            · simp only [if_neg hlink]
              simp [hcfg, hlink, Except.isOk, Except.toBool]

theorem directory_ne_object : LinkPart.directory ≠ .object := by decide

theorem styled_text {part : LinkPart} (hpart : part ≠ .object) (s : Str) :
    styled env part (.text s) = .text (written env s) := by
  rw [styled, written]
  split
  · rename_i h
    rw [if_pos h.1]
  · rename_i h
    rw [if_neg fun hw => h ⟨hw, hpart⟩]

theorem contains_ofTbl {t : Tbl} {s : Str} :
    (Table.ofTbl t).contains (.text s) ↔ s ∈ t.arr ∨ s ∈ t.keys := by
  simp [Table.contains, Table.ofTbl, Item.same]

theorem filterMap_text (l : List Str) : (l.map Item.text).filterMap Item.text? = l := by
  rw [List.filterMap_map]
  exact List.filterMap_some

theorem styledItem_directory {item : Item} :
    styledItem env session .all .directory prj cfg namestyle link = .ok (some item) ↔
      ∃ dir, StandsFor env session prj cfg link dir ∧ item = .text (written env dir) := by
  rw [styledItem]
  constructor
  · intro h
    cases hitem : linkItem env session .all .directory prj cfg namestyle link with
    | error e =>
        rw [hitem] at h
        cases h
    | ok found =>
        rw [hitem] at h
        cases found with
        | none => cases h
        | some i =>
            obtain ⟨dir, hdir, rfl⟩ := linkItem_directory.mp hitem
            refine ⟨dir, hdir, ?_⟩
            rw [← styled_text directory_ne_object]
            exact (Option.some.inj (Except.ok.inj h)).symm
  · rintro ⟨dir, hdir, rfl⟩
    rw [linkItem_directory.mpr ⟨dir, hdir, rfl⟩, ← styled_text directory_ne_object]
    rfl

theorem isOk_styledItem {kind : LinkKind} {part : LinkPart} :
    (styledItem env session kind part prj cfg namestyle link).isOk ↔
      ¬ Broken session kind part prj cfg link := by
  rw [styledItem, ← @isOk_linkItem env session prj cfg namestyle]
  cases linkItem env session kind part prj cfg namestyle link <;> exact Iff.rfl

/-- The loop comes to nothing new when the directories that the links stand for are there. -/
theorem held_iff {libdirs : Tbl} {links : List Str} :
    Held (styledItem env session .all .directory prj cfg namestyle) (Table.ofTbl libdirs) links ↔
      ∀ pre link post, links = pre ++ link :: post →
        (∀ l ∈ pre, ¬ Broken session .all .directory prj cfg l) →
        ∀ dir, StandsFor env session prj cfg link dir →
          written env dir ∈ libdirs.arr ∨ written env dir ∈ libdirs.keys := by
  constructor
  · intro h pre link post hlinks hpre dir hdir
    exact contains_ofTbl.mp (h pre link post hlinks
      (fun l hl => isOk_styledItem.mpr (hpre l hl)) _
      (styledItem_directory.mpr ⟨dir, hdir, rfl⟩))
  · intro h pre link post hlinks hpre i hi
    obtain ⟨dir, hdir, rfl⟩ := styledItem_directory.mp hi
    exact contains_ofTbl.mpr (h pre link post hlinks
      (fun l hl => isOk_styledItem.mp (hpre l hl)) dir hdir)

/-- What the loop leaves in the session is what was there, when the loop inserts nothing. -/
theorem keep_eq_self_iff {id : ConfigId} {libdirs : Tbl} {links : List Str}
    (hid : id.get? session = some (prj, cfg)) (hlibdirs : cfg.fields .libdirs = some libdirs) :
    keep id cfg session (collect (styledItem env session .all .directory prj cfg namestyle) links
        (some (Table.ofTbl libdirs))).2 = session ↔
      Held (styledItem env session .all .directory prj cfg namestyle) (Table.ofTbl libdirs)
        links := by
  obtain ⟨new, hnew, hfrom, hheld⟩ := @collect_some
    (styledItem env session .all .directory prj cfg namestyle) links (Table.ofTbl libdirs)
  rw [hnew, keep, put_libdirs_iff hid hlibdirs, ← hheld]
  constructor
  · intro h
    have harr := congrArg Tbl.arr h
    rw [Table.toTbl, List.filterMap_append, Table.ofTbl, filterMap_text,
      List.append_right_eq_self] at harr
    refine List.eq_nil_iff_forall_not_mem.mpr fun i hi => ?_
    obtain ⟨link, -, hlink⟩ := hfrom i hi
    obtain ⟨dir, -, rfl⟩ := styledItem_directory.mp hlink
    have hmem : written env dir ∈ new.filterMap Item.text? := List.mem_filterMap.mpr ⟨_, hi, rfl⟩
    rw [harr] at hmem
    exact List.not_mem_nil hmem
  · rintro rfl
    rw [List.append_nil, Table.toTbl, Table.ofTbl, filterMap_text]

end Directories

section Fullpath

variable {env : Env} {session : List Workspace} {kind : LinkKind} {prj : BakedProject}
  {cfg : BakedConfig} {namestyle : Str}

theorem linkItem_fullpath (link : Str) :
    linkItem env session kind .fullpath prj cfg namestyle link =
      (Puremake.linkItem env session kind prj cfg namestyle link).map (Option.map .text) := by
  rw [linkItem, Puremake.linkItem]
  cases findproject session link with
  | none =>
      by_cases hkind : kind = .system ∨ kind = .all
      · simp only [if_pos hkind]
        rfl
      · simp only [if_neg hkind]
        rfl
  | some found =>
      obtain ⟨sln, prj'⟩ := found
      simp only [cfgname]
      generalize getconfig sln.obj.platformnames prj'.configs _ _ = prjcfg
      by_cases hkind : kind = .system
      · rw [if_pos hkind, if_pos hkind]
        rfl
      · rw [if_neg hkind, if_neg hkind]
        cases prjcfg with
        | none => simp only [reduceCtorEq, or_self, and_false, if_false]; rfl
        | some prjcfg =>
            by_cases hlink : kind = .dependencies ∨ canlink cfg prjcfg
            · simp only [if_pos hlink, siblingItem]
              cases prjcfg.linktarget with
              | none => rfl
              | some target =>
                  cases prjcfg.fields .location with
                  | none => rfl
                  | some oldbase => cases cfg.fields .location <;> rfl
            · simp only [if_neg hlink]
              rfl

theorem collect_text {item : Str → Except BakeError (Option Str)} {style : Str → Str}
    {links result : List Str} :
    answer (collect (fun link => (item link).map (Option.map fun s => .text (style s))) links
        (some ⟨result.map .text, []⟩)) =
      (links.foldlM (fun result link => do
        match ← item link with
        | none => return result
        | some s =>
          let s := style s
          return if s ∈ result then result else result ++ [s]) result).map
        (List.map Item.text) := by
  induction links generalizing result with
  | nil => rfl
  | cons link links ih =>
      rw [collect, List.foldlM_cons]
      cases item link with
      | error e => rfl
      | ok found =>
          cases found with
          | none => exact ih
          | some s =>
              have hcontains : Table.contains ⟨result.map .text, []⟩ (.text (style s)) ↔
                  style s ∈ result := by
                simp [Table.contains, Item.same]
              change answer (collect _ links (some (if Table.contains ⟨result.map .text, []⟩
                  (.text (style s)) then _ else ⟨result.map .text ++ [.text (style s)], []⟩))) =
                Except.map _ (links.foldlM _
                  (if style s ∈ result then result else result ++ [style s]))
              by_cases hs : style s ∈ result
              · rw [if_pos hs, if_pos (hcontains.mpr hs)]
                exact ih
              · rw [if_neg hs, if_neg fun h => hs (hcontains.mp h), ← List.map_singleton,
                  ← List.map_append]
                exact ih

theorem getlinks_fullpath {id : ConfigId} (h : id.get? session = some (prj, cfg)) :
    (getlinks env id kind .fullpath session).1 =
      (Puremake.getlinks env session kind prj cfg).map (List.map Item.text) := by
  rw [getlinks, h, Puremake.getlinks]
  cases hstyle : getnamestyle env cfg with
  | error e => simp only [hstyle]; rfl
  | ok namestyle =>
      have hstyled : styledItem env session kind .fullpath prj cfg namestyle =
          fun link => (Puremake.linkItem env session kind prj cfg namestyle link).map
            (Option.map fun s => .text (written env s)) := by
        funext link
        rw [styledItem, linkItem_fullpath]
        cases Puremake.linkItem env session kind prj cfg namestyle link with
        | error e => rfl
        | ok found =>
            cases found with
            | none => rfl
            | some s => exact congrArg (Except.ok ∘ some) (styled_text (by decide) s)
      simp only [hstyle, hstyled]
      exact @collect_text _ _ _ []

end Fullpath

end Links

end Puremake
