import Puremake.Bake.Lists
import Puremake.Bake.Usage

/-!
# Copying the settings of usage projects

A configuration is given the settings of the usage projects that it is connected
to. Their lists are appended item by item, without a look at what is there: the
items get no keys, and an item that was there before is there twice. What is
copied into a list is `copiedItems`, and the list is well formed afterwards when
it was before and nothing is copied that the list does not allow.
-/

namespace Puremake

open FoldRun Search

/-- `isnameofproj`, for the projects of the solution. -/
def isnameofproj (prjs : List BakedProject) (strName : Str) : Bool :=
  prjs.any fun prj => Str.lower prj.name = Str.lower strName

/-- `table.insert` of some items into the value of a field. -/
def FieldKind.insertAll : (k : FieldKind) → k.Val → List Str → Option k.Val
  | .list, t, items | .dirlist, t, items | .filelist, t, items =>
      some (items.foldl Tbl.insert t)
  | .string, _, _ | .path, _, _ | .keyvalue, _, _ | .keypath, _, _ => none

/-- `table.insert` of some items into a field. -/
def Fields.insertAll (c : Fields) (f : Field) (items : List Str) : Except BakeError Fields :=
  if items = [] then .ok c
  else
    match (c f).bind fun v => f.fieldKind.insertAll v items with
    | some v => .ok (c.set f v)
    | none => .error .indexNil

def BakedProject.location (prj : BakedProject) : Str := (prj.obj.fields .location).getD []

/-- The items that are copied from a list: paths are made relative to the project they
are copied to, and links to projects of the solution are left out. -/
def copyableItems (env : Env) (prjs : List BakedProject) (srcPrj dstPrj : BakedProject)
    (src : Fields) (f : Field) : List Str :=
  if f.fieldKind.isPaths ∧ ¬ f.keeprelative then
    (src.list f).arr.map fun p => Path.rebase env.cwd p srcPrj.location dstPrj.location
  else if f = .links then (src.list f).arr.filter fun p => ¬ isnameofproj prjs p
  else (src.list f).arr

/-- `copydependentfield`. A table with keys has no array part to copy, and a path
would be made relative to a project that is not defined. -/
def copydependentfield (env : Env) (prjs : List BakedProject) (srcPrj dstPrj : BakedProject)
    (src dst : Fields) (f : Field) : Except BakeError Fields :=
  match f.fieldKind with
  | .list | .dirlist | .filelist =>
      dst.insertAll f (copyableItems env prjs srcPrj dstPrj src f)
  | .keyvalue | .keypath => .ok dst
  | .path =>
      if f.keeprelative then .ok fun g => if g = f then src g else dst g else .error .indexNil
  | .string => .ok fun g => if g = f then src g else dst g

section Copy

variable (env : Env) (prjs : List BakedProject) (dstPrj : BakedProject) (bIsStaticLib : Bool)

/-- One round of the loop over the fields in `copyusagedata`. -/
def copyField (prjEntry : Connection) (src dst : Fields) (name : Field) :
    Except BakeError Fields :=
  if (src name).isNone then .ok dst
  else if name.usagecopy then
    if ¬ prjEntry.bLinkageOnly then
      copydependentfield env prjs prjEntry.usageProj dstPrj src dst name
    else .ok dst
  else if name.linkagecopy then
    if ¬ bIsStaticLib ∧ prjEntry.proj.isNone then
      copydependentfield env prjs prjEntry.usageProj dstPrj src dst name
    else .ok dst
  else .ok dst

/-- One round of the loop over the connections in `copyusagedata`. -/
def copyConnection (cfgname : Str) (dst : Fields) (entry : Str × Connection) :
    Except BakeError Fields :=
  match entry.2.usageProj.configs.lookup cfgname with
  | none => .error .indexNil
  | some srcCfg => do
      let dst ← (env.ord.enum Field.all).foldlM
        (copyField env prjs dstPrj bIsStaticLib entry.2 srcCfg.fields) dst
      dst.insertAll .links
        (if bIsStaticLib then [] else entry.2.proj.toList.map fun proj => proj.name)

end Copy

/-- `copyusagedata`, for a configuration of the project `dstPrj`. -/
def copyusagedata (env : Env) (prjs : List BakedProject) (dstPrj : BakedProject) (cfgname : Str)
    (linkToProjs : List (Str × Connection)) (cfg : BakedConfig) :
    Except BakeError BakedConfig := do
  let bIsStaticLib := (← getCfgKind dstPrj (some cfg)) = some staticLib
  let fields ← (env.ord.enum linkToProjs).foldlM
    (copyConnection env prjs dstPrj bIsStaticLib cfgname) cfg.fields
  return { cfg with fields }

/-- The connections of a configuration are found and their settings copied. -/
def copyConfig (env : Env) (prjs : List BakedProject) (prj : BakedProject)
    (entry : Str × BakedConfig) : Except BakeError (Str × BakedConfig) := do
  let usesPrjs ← getprojectsconnections env.ord (prjs.length + 1) prjs prj.name entry.2 entry.1
  let cfg ← copyusagedata env prjs prj entry.1 usesPrjs entry.2
  return (entry.1, cfg)

/-- The third loop of `premake.bake.buildconfigs`, for one project. Only configurations
of projects that are no usage projects are written to, and of these no list that the
copying reads, so every project is copied to from what was baked. -/
def copyProject (env : Env) (prjs : List BakedProject) (prj : BakedProject) :
    Except BakeError BakedProject :=
  if prj.usage then .ok prj
  else do
    let configs ← (env.ord.enum prj.configs).mapM (copyConfig env prjs prj)
    return { prj with configs }

/-- The third and the fourth loop of `premake.bake.buildconfigs`, for one solution:
the settings are copied, and the usage projects removed. -/
def copySolution (env : Env) (sln : BakedSolution) : Except BakeError BakedSolution := do
  let projects ← sln.projects.mapM (copyProject env sln.projects)
  return { sln with projects := projects.filter fun prj => ¬ prj.usage }

def Tbl.append (t : Tbl) (items : List Str) : Tbl := ⟨t.arr ++ items, t.keys⟩

@[simp] theorem Tbl.append_nil (t : Tbl) : t.append [] = t := by
  simp [Tbl.append]

theorem Tbl.append_append (t : Tbl) (items items' : List Str) :
    (t.append items).append items' = t.append (items ++ items') := by
  simp [Tbl.append]

theorem Tbl.foldl_insert (t : Tbl) (items : List Str) :
    items.foldl Tbl.insert t = t.append items := by
  induction items generalizing t with
  | nil => simp
  | cons item items ih => rw [List.foldl_cons, ih, Tbl.insert, Tbl.append, Tbl.append]; simp

section Copied

variable {env : Env} {prjs : List BakedProject} {dstPrj : BakedProject} {bIsStaticLib : Bool}

theorem tbl_insertAll {k : FieldKind} {v v' : k.Val} {items : List Str}
    (h : k.insertAll v items = some v') :
    (k.tbl (some v')).getD Tbl.empty = ((k.tbl (some v)).getD Tbl.empty).append items := by
  cases k with
  | list | dirlist | filelist =>
      obtain rfl := Option.some.inj h
      exact Tbl.foldl_insert v items
  | string | path | keyvalue | keypath => cases h

theorem list_insertAll {c c' : Fields} {f : Field} {items : List Str}
    (h : c.insertAll f items = .ok c') (g : Field) :
    c'.list g = (c.list g).append (if f = g then items else []) := by
  rw [Fields.insertAll] at h
  split at h
  · rename_i hnil
    obtain rfl := Except.ok.inj h
    simp [hnil]
  · split at h
    · rename_i v' hv'
      obtain rfl := Except.ok.inj h
      obtain ⟨v, hv, hinsert⟩ := Option.bind_eq_some_iff.mp hv'
      by_cases hg : f = g
      · subst hg
        rw [if_pos rfl, Fields.list, Fields.set_self, Fields.list, hv]
        exact tbl_insertAll hinsert
      · rw [if_neg hg, Tbl.append_nil, list_set_of_ne c hg]
    · cases h

def contributed (env : Env) (prjs : List BakedProject) (dstPrj : BakedProject)
    (bIsStaticLib : Bool) (prjEntry : Connection) (src : Fields) (f : Field) : List Str :=
  if f.usagecopy ∧ ¬ prjEntry.bLinkageOnly ∨
      f.linkagecopy ∧ ¬ bIsStaticLib ∧ prjEntry.proj.isNone then
    copyableItems env prjs prjEntry.usageProj dstPrj src f
  else []

theorem copyableItems_of_none {srcPrj : BakedProject} {src : Fields} {f : Field}
    (h : src f = none) : copyableItems env prjs srcPrj dstPrj src f = [] := by
  have hlist : (src.list f).arr = [] := by
    rw [Fields.list, h, tbl_none]
    rfl
  simp [copyableItems, hlist]

theorem list_copydependentfield {srcPrj : BakedProject} {src dst dst' : Fields} {f : Field}
    (hf : f.usagecopy ∨ f.linkagecopy)
    (h : copydependentfield env prjs srcPrj dstPrj src dst f = .ok dst') (g : Field) :
    dst'.list g = (dst.list g).append
      (if f = g then copyableItems env prjs srcPrj dstPrj src f else []) := by
  have hinsert : dst.insertAll f (copyableItems env prjs srcPrj dstPrj src f) = .ok dst' := by
    revert h
    cases f <;> first | exact id | simp [Field.usagecopy, Field.linkagecopy] at hf
  exact list_insertAll hinsert g

theorem list_copyField {prjEntry : Connection} {src dst dst' : Fields} {name : Field}
    (h : copyField env prjs dstPrj bIsStaticLib prjEntry src dst name = .ok dst') (g : Field) :
    dst'.list g = (dst.list g).append (if name = g then
      contributed env prjs dstPrj bIsStaticLib prjEntry src name else []) := by
  rw [copyField] at h
  rw [contributed]
  split at h
  · rename_i hnone
    obtain rfl := Except.ok.inj h
    simp [copyableItems_of_none (Option.isNone_iff_eq_none.mp hnone)]
  · split at h
    · rename_i husage
      have hlinkage : name.linkagecopy = false := by
        revert husage
        cases name <;> decide
      split at h
      · rename_i honly
        rw [list_copydependentfield (Or.inl husage) h, if_pos (Or.inl ⟨husage, honly⟩)]
      · rename_i honly
        obtain rfl := Except.ok.inj h
        simp [hlinkage, honly]
    · rename_i husage
      split at h
      · rename_i hlinkage
        split at h
        · rename_i hcond
          rw [list_copydependentfield (Or.inr hlinkage) h, if_pos (Or.inr ⟨hlinkage, hcond⟩)]
        · rename_i hcond
          obtain rfl := Except.ok.inj h
          have hnot : ¬ (name.usagecopy ∧ ¬ prjEntry.bLinkageOnly ∨
              name.linkagecopy ∧ ¬ bIsStaticLib ∧ prjEntry.proj.isNone) := by
            rintro (hcopy | hcopy)
            · exact husage hcopy.1
            · exact hcond hcopy.2
          rw [if_neg hnot]
          simp
      · rename_i hlinkage
        obtain rfl := Except.ok.inj h
        have hnot : ¬ (name.usagecopy ∧ ¬ prjEntry.bLinkageOnly ∨
            name.linkagecopy ∧ ¬ bIsStaticLib ∧ prjEntry.proj.isNone) := by
          rintro (hcopy | hcopy)
          · exact husage hcopy.1
          · exact hlinkage hcopy.1
        rw [if_neg hnot]
        simp

theorem list_copyFields {prjEntry : Connection} {src dst dst' : Fields} {names : List Field}
    (hnodup : names.Nodup)
    (h : names.foldlM (copyField env prjs dstPrj bIsStaticLib prjEntry src) dst = .ok dst')
    (g : Field) :
    dst'.list g = (dst.list g).append (if g ∈ names then
      contributed env prjs dstPrj bIsStaticLib prjEntry src g else []) := by
  induction names generalizing dst with
  | nil =>
      obtain rfl := foldlM_nil_eq_ok.mp h
      simp
  | cons name names ih =>
      rw [List.nodup_cons] at hnodup
      obtain ⟨mid, hname, hnames⟩ := foldlM_cons_eq_ok.mp h
      rw [ih hnodup.2 hnames, list_copyField hname]
      by_cases hg : name = g
      · subst hg
        simp [hnodup.1]
      · have hg' : g ≠ name := fun h => hg h.symm
        simp [hg, hg']

/-- The items of a field that a connection contributes for a key, with the name of the
project itself for its links. -/
def copiedItems (env : Env) (prjs : List BakedProject) (dstPrj : BakedProject)
    (bIsStaticLib : Bool) (cfgname : Str) (prjEntry : Connection) (f : Field) : List Str :=
  ((prjEntry.usageProj.configs.lookup cfgname).elim [] fun srcCfg =>
    contributed env prjs dstPrj bIsStaticLib prjEntry srcCfg.fields f) ++
    if f = .links ∧ ¬ bIsStaticLib then prjEntry.proj.toList.map fun proj => proj.name else []

theorem list_copyConnection {cfgname : Str} {dst dst' : Fields} {entry : Str × Connection}
    (h : copyConnection env prjs dstPrj bIsStaticLib cfgname dst entry = .ok dst') (g : Field) :
    dst'.list g = (dst.list g).append
      (copiedItems env prjs dstPrj bIsStaticLib cfgname entry.2 g) := by
  rw [copyConnection] at h
  rw [copiedItems]
  split at h
  · cases h
  · rename_i srcCfg hsrc
    obtain ⟨mid, hfields, hlinks⟩ := bind_eq_ok.mp h
    have hnodup : (env.ord.enum Field.all).Nodup :=
      (env.ord.perm Field.all).nodup_iff.mpr (by decide)
    have hmem : g ∈ env.ord.enum Field.all := env.ord.mem_enum.mpr g.mem_all
    rw [list_insertAll hlinks, list_copyFields hnodup hfields, if_pos hmem, Tbl.append_append,
      hsrc]
    by_cases hg : Field.links = g
    · subst hg
      cases bIsStaticLib <;> simp
    · have hg' : g ≠ .links := fun h => hg h.symm
      simp [hg, hg']

/-- Everything that is copied into a field, for a table of connections. -/
def copiedTo (env : Env) (prjs : List BakedProject) (prj : BakedProject)
    (entry : Str × BakedConfig) (connections : List (Str × Connection)) (f : Field) : List Str :=
  (env.ord.enum connections).flatMap fun e => copiedItems env prjs prj
    (prj.kindOf entry.2 = some staticLib) entry.1 e.2 f

theorem list_copyusagedata {k : Str} {cfg cfg' : BakedConfig}
    {connections : List (Str × Connection)}
    (h : copyusagedata env prjs dstPrj k connections cfg = .ok cfg') (g : Field) :
    cfg'.fields.list g =
      (cfg.fields.list g).append (copiedTo env prjs dstPrj (k, cfg) connections g) := by
  obtain ⟨kind, hkind, h⟩ := bind_eq_ok.mp h
  obtain ⟨fields, hfields, heq⟩ := bind_eq_ok.mp h
  cases hkind
  cases heq
  rw [copiedTo]
  refine foldlM_invariant (d := []) (P := fun _ _ => True)
    (I := fun done (c : Fields) => c.list g = (cfg.fields.list g).append
      (done.flatMap fun e => copiedItems env prjs dstPrj
        (dstPrj.kindOf cfg = some staticLib) k e.2 g)) ?_ (by simp)
    (along_of_forall (fun _ _ => trivial) _ _) hfields
  intro done c e c' hc _ hstep
  rw [list_copyConnection hstep, hc, Tbl.append_append, List.flatMap_append,
    List.flatMap_singleton]

end Copied

/-- A flag is in the array exactly when it has a key, and no list holds an item
twice. -/
structure WellFormed (cfg : Fields) : Prop where
  flags : ∀ x, x ∈ (cfg.list .flags).arr ↔ x ∈ (cfg.list .flags).keys
  nodup : ∀ f, (cfg.list f).arr.Nodup

/-- The connections of a configuration for which settings are copied. -/
def connectionsOf (env : Env) (prjs : List BakedProject) (prj : BakedProject)
    (entry : Str × BakedConfig) : Except BakeError (List (Str × Connection)) :=
  getprojectsconnections env.ord (prjs.length + 1) prjs prj.name entry.2 entry.1

/-- What a configuration of a baked solution is to be like for its lists to be well
formed in the end. Whatever blocks it was merged from, its directories and files
were entered once; and the usage projects that it is connected to have no flags for
it, and nothing for its other lists that is there already. -/
structure Separate (env : Env) (sln : BakedSolution) (prj : BakedProject)
    (entry : Str × BakedConfig) : Prop where
  merged : ∀ own plt, own.Sublist prj.obj.blocks →
    fixedFields plt (mergedFields env prj.obj ((sln.basis.lookup entry.1).map Config.toObj) own) =
      .ok entry.2.fields → ∀ f, f.fieldKind.isPaths →
        Apart (f.relative env.cwd prj.location) (keeps entry.2.fields f)
          (inheritedItems ((sln.basis.lookup entry.1).map Config.toObj) f) (ownItems prj.obj own f)
  flags : ∀ connections, connectionsOf env sln.projects prj entry = .ok connections →
    ∀ c ∈ connections, c.2.bLinkageOnly = false →
      ∀ src ∈ c.2.usageProj.configs.lookup entry.1, (src.fields.list .flags).arr = []
  copied : ∀ connections, connectionsOf env sln.projects prj entry = .ok connections → ∀ f,
    (copiedTo env sln.projects prj entry connections f).Nodup ∧
      ∀ x ∈ copiedTo env sln.projects prj entry connections f, x ∉ (entry.2.fields.list f).arr

section WellFormed

variable {env : Env} {prjs : List BakedProject} {prj : BakedProject} {entry : Str × BakedConfig}

theorem wellFormed_append_iff {cfg cfg' : Fields} {items : Field → List Str}
    (hkeys : ∀ x, x ∈ (cfg.list .flags).keys ↔ x ∈ (cfg.list .flags).arr)
    (happend : ∀ f, cfg'.list f = (cfg.list f).append (items f)) :
    WellFormed cfg' ↔ (∀ f, (cfg.list f).arr.Nodup) ∧ items .flags = [] ∧
      ∀ f, (items f).Nodup ∧ ∀ x ∈ items f, x ∉ (cfg.list f).arr := by
  have hnodup : ∀ f, (cfg'.list f).arr.Nodup ↔ (cfg.list f).arr.Nodup ∧ (items f).Nodup ∧
      ∀ x ∈ items f, x ∉ (cfg.list f).arr := by
    intro f
    rw [happend, Tbl.append, List.nodup_append', List.disjoint_right]
  constructor
  · rintro ⟨hflags, hall⟩
    refine ⟨fun f => ((hnodup f).mp (hall f)).1, ?_, fun f => ((hnodup f).mp (hall f)).2⟩
    -- an item without a key is missing in the keys, and one with a key is there twice
    refine List.eq_nil_iff_forall_not_mem.mpr fun x hx => ?_
    have hnew : x ∉ (cfg.list .flags).arr := ((hnodup .flags).mp (hall .flags)).2.2 x hx
    have harr : x ∈ (cfg'.list .flags).arr := by
      rw [happend]
      exact List.mem_append_right _ hx
    rw [hflags, happend] at harr
    exact hnew ((hkeys x).mp harr)
  · rintro ⟨hall, hflags, hitems⟩
    refine ⟨fun x => ?_, fun f => (hnodup f).mpr ⟨hall f, hitems f⟩⟩
    rw [happend, hflags, Tbl.append_nil, hkeys]

/-- Flags are copied from the connections that are not for linking only. -/
theorem copiedTo_flags_eq_nil {connections : List (Str × Connection)} :
    copiedTo env prjs prj entry connections .flags = [] ↔
      ∀ c ∈ connections, c.2.bLinkageOnly = false →
        ∀ src ∈ c.2.usageProj.configs.lookup entry.1, (src.fields.list .flags).arr = [] := by
  have hitem : ∀ c : Connection, copiedItems env prjs prj
      (prj.kindOf entry.2 = some staticLib) entry.1 c .flags = [] ↔
      (c.bLinkageOnly = false →
        ∀ src ∈ c.usageProj.configs.lookup entry.1, (src.fields.list .flags).arr = []) := by
    intro c
    rw [copiedItems]
    cases c.usageProj.configs.lookup entry.1 with
    | none => simp
    | some src =>
        cases honly : c.bLinkageOnly <;>
          simp [contributed, honly, Field.usagecopy, Field.linkagecopy, copyableItems,
            FieldKind.isPaths]
  rw [copiedTo, List.flatMap_eq_nil_iff]
  constructor
  · exact fun h c hc => (hitem c.2).mp (h c (env.ord.mem_enum.mpr hc))
  · exact fun h c hc => (hitem c.2).mpr (h c (env.ord.mem_enum.mp hc))

/-- A configuration is well formed after copying exactly when it was separate
before. -/
theorem wellFormed_copyConfig_iff {sln : BakedSolution} {entry' : Str × BakedConfig}
    (hmerged : ∃ own plt, own.Sublist prj.obj.blocks ∧ fixedFields plt
      (mergedFields env prj.obj ((sln.basis.lookup entry.1).map Config.toObj) own) =
        .ok entry.2.fields)
    (hcopy : copyConfig env sln.projects prj entry = .ok entry') :
    WellFormed entry'.2.fields ↔ Separate env sln prj entry := by
  obtain ⟨connections, hconn, hcopy⟩ := bind_eq_ok.mp hcopy
  obtain ⟨cfg, hcfg, heq⟩ := bind_eq_ok.mp hcopy
  cases heq
  obtain ⟨own, plt, hown, hfixed⟩ := hmerged
  have hconn' : ∀ cs, connectionsOf env sln.projects prj entry = .ok cs ↔ cs = connections := by
    intro cs
    rw [connectionsOf, hconn]
    exact ⟨fun h => (Except.ok.inj h).symm, fun h => congrArg Except.ok h.symm⟩
  rw [wellFormed_append_iff (mem_keys_flags_iff hfixed) (list_copyusagedata hcfg),
    copiedTo_flags_eq_nil]
  constructor
  · rintro ⟨hnodup, hflags, hcopied⟩
    refine ⟨?_, fun cs hcs => ?_, fun cs hcs => ?_⟩
    · intro own' plt' _ hfixed' f _
      exact (nodup_list_iff hfixed' f).mp (hnodup f)
    · rw [(hconn' cs).mp hcs]
      exact hflags
    · rw [(hconn' cs).mp hcs]
      exact hcopied
  · rintro ⟨hpaths, hflags, hcopied⟩
    refine ⟨fun f => ?_, hflags connections ((hconn' _).mpr rfl),
      hcopied connections ((hconn' _).mpr rfl)⟩
    rw [nodup_list_iff hfixed]
    cases hf : f.fieldKind.isPaths with
    | true => exact hpaths own plt hown hfixed f hf
    | false => exact apart_of_not_isPaths hf _ _ _ _ _

/-- The configurations of a solution are well formed after copying exactly when they
were separate before. -/
theorem wellFormed_copySolution_iff {sln : Solution} {heap h : Heap} {baked copied : BakedSolution}
    (hbake : bakeSolution env sln heap = .ok (h, baked))
    (hcopy : copySolution env baked = .ok copied) :
    (∀ prj ∈ copied.projects, ∀ e ∈ prj.configs, WellFormed e.2.fields) ↔
      ∀ prj ∈ baked.projects, ¬ prj.usage → ∀ e ∈ prj.configs, Separate env baked prj e := by
  obtain ⟨-, -, hfrom⟩ := bakeSolution_eq_ok hbake
  obtain ⟨projects, hprojects, heq⟩ := bind_eq_ok.mp hcopy
  cases heq
  rw [mapM_eq_ok] at hprojects
  have hmerged : ∀ prj ∈ baked.projects, ∀ e ∈ prj.configs, ∃ own plt,
      own.Sublist prj.obj.blocks ∧ fixedFields plt
        (mergedFields env prj.obj ((baked.basis.lookup e.1).map Config.toObj) own) =
          .ok e.2.fields := by
    intro prj hprj e he
    obtain ⟨p, -, hp, _, _, hproject⟩ := exists_left_of_forall₂ hfrom hprj
    have hobj : prj.obj = p.obj := congrArg Project.obj hp
    rw [hobj]
    exact exists_own_of_bakeProject hproject e he
  have hproject : ∀ prj ∈ baked.projects, ∀ prj', copyProject env baked.projects prj = .ok prj' →
      prj'.usage = prj.usage ∧ (¬ prj.usage →
        ((∀ e ∈ prj'.configs, WellFormed e.2.fields) ↔
          ∀ e ∈ prj.configs, Separate env baked prj e)) := by
    intro prj hprj prj' hrun
    rw [copyProject] at hrun
    split at hrun
    · rename_i husage
      obtain rfl := Except.ok.inj hrun
      exact ⟨rfl, fun h => absurd husage h⟩
    · obtain ⟨configs, hconfigs, heq⟩ := bind_eq_ok.mp hrun
      cases heq
      rw [mapM_eq_ok] at hconfigs
      refine ⟨rfl, fun _ => ⟨fun hwell e he => ?_, fun hsep e' he' => ?_⟩⟩
      · obtain ⟨e', he', hcfg⟩ :=
          exists_right_of_forall₂ hconfigs (env.ord.mem_enum.mpr he)
        exact (wellFormed_copyConfig_iff (hmerged prj hprj e he) hcfg).mp (hwell e' he')
      · obtain ⟨e, he, hcfg⟩ := exists_left_of_forall₂ hconfigs he'
        have he := env.ord.mem_enum.mp he
        exact (wellFormed_copyConfig_iff (hmerged prj hprj e he) hcfg).mpr (hsep e he)
  constructor
  · intro hwell prj hprj husage
    obtain ⟨prj', hprj', hrun⟩ := exists_right_of_forall₂ hprojects hprj
    obtain ⟨hu, hiff⟩ := hproject prj hprj prj' hrun
    refine (hiff husage).mp (hwell prj' (List.mem_filter.mpr ⟨hprj', ?_⟩))
    simpa [hu] using husage
  · intro hsep prj' hprj'
    obtain ⟨hprj', husage⟩ := List.mem_filter.mp hprj'
    obtain ⟨prj, hprj, hrun⟩ := exists_left_of_forall₂ hprojects hprj'
    obtain ⟨hu, hiff⟩ := hproject prj hprj prj' hrun
    rw [hu] at husage
    exact (hiff (by simpa using husage)).mpr (hsep prj hprj (by simpa using husage))

end WellFormed

end Puremake
