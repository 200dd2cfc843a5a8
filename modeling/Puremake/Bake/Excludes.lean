import Puremake.Bake.Applies

/-!
# Excludes at the levels of a session

The files and the excludes of a solution are absolute when a configuration inherits them, and are
made relative to the location of the project then. Those of the project were made relative
before. The lists are merged by the entered names, so that a file with an entry at both levels is
there twice, and the excludes are compared by the relative names in the end.
-/

namespace Puremake

open FoldRun Search

namespace Levels

variable {α : Type*} [DecidableEq α]

/-- The entries of two levels in the order they were first made, without what is excluded at one
of the levels, by their relative names. -/
def union (rel : α → α) (files files' excludes excludes' : List α) : List α :=
  ((fresh [] (files ++ files')).filter fun x => x ∉ excludes ++ excludes').map rel

/-- The entries of the second level are merged by their relative names into those of the first,
which keep the entered names as their keys. -/
def merged (rel : α → α) (entries entries' : List α) : List α :=
  (fresh [] entries).map rel ++ fresh (fresh [] entries) (entries'.map rel)

/-- What is left of the merged files when the merged excludes are removed. -/
def kept (rel : α → α) (files files' excludes excludes' : List α) : List α :=
  (merged rel files files').filter fun x => x ∉ merged rel excludes excludes'

/-- The names do what the entries stand for: a file of the first level has the name of an exclude
exactly when it is one; a file of the second level has the name of an exclude, or a name that was
entered for a file of the first level, exactly when it is an exclude or a file of the first
level; and the other files of the second level have different names. -/
structure Matched (rel : α → α) (files files' excludes excludes' : List α) : Prop where
  first : ∀ x ∈ files,
    rel x ∈ merged rel excludes excludes' ↔ x ∈ excludes ++ excludes'
  second : ∀ x ∈ files',
    rel x ∈ files ∨ rel x ∈ merged rel excludes excludes' ↔ x ∈ files ∨ x ∈ excludes ++ excludes'
  distinct : ∀ x ∈ files', ∀ y ∈ files', x ∉ files → x ∉ excludes ++ excludes' →
    rel x = rel y → x = y

section Lists

variable {rel : α → α} {files files' excludes excludes' : List α}

theorem filter_merged (p : α → Bool) : (merged rel files files').filter p =
    ((fresh [] files).filter fun x => p (rel x)).map rel ++
      fresh [] ((files'.filter fun x => rel x ∉ files ∧ p (rel x)).map rel) := by
  have hmem : ∀ x, x ∈ fresh [] files ↔ x ∈ files := by simp [mem_fresh]
  rw [merged, List.filter_append, List.filter_map]
  congr 1
  rw [filter_fresh, fresh_eq_filter, List.filter_filter, List.filter_map]
  congr 2
  refine List.filter_congr fun x _ => ?_
  simp [hmem]

theorem union_eq : union rel files files' excludes excludes' =
    ((fresh [] files).filter fun x => x ∉ excludes ++ excludes').map rel ++
      (fresh [] (files'.filter fun x => x ∉ files ∧ x ∉ excludes ++ excludes')).map rel := by
  rw [union, fresh_append, List.filter_append, List.map_append, List.nil_append]
  congr 2
  rw [filter_fresh, fresh_eq_filter, List.filter_filter]
  congr 1
  refine List.filter_congr fun x _ => ?_
  simp

theorem kept_eq_union (h : Matched rel files files' excludes excludes') :
    kept rel files files' excludes excludes' = union rel files files' excludes excludes' := by
  have hfirst : ((fresh [] files).filter fun x => rel x ∉ merged rel excludes excludes') =
      (fresh [] files).filter fun x => x ∉ excludes ++ excludes' := by
    refine List.filter_congr fun x hx => ?_
    rw [decide_eq_decide, h.first x (mem_fresh.mp hx).1]
  have hsecond : (files'.filter fun x =>
      rel x ∉ files ∧ decide (rel x ∉ merged rel excludes excludes')) =
      files'.filter fun x => x ∉ files ∧ x ∉ excludes ++ excludes' := by
    refine List.filter_congr fun x hx => ?_
    rw [decide_eq_decide, decide_eq_true_iff, ← not_or, ← not_or, h.second x hx]
  rw [kept, filter_merged, union_eq, hfirst, hsecond]
  refine congrArg (_ ++ ·) (@fresh_map _ _ [] _ _ _ rel ?_)
  intro x hx y hy heq
  obtain ⟨hx, hx'⟩ := List.mem_filter.mp hx
  obtain ⟨hy, -⟩ := List.mem_filter.mp hy
  obtain ⟨hxfiles, hxexcludes⟩ := of_decide_eq_true hx'
  exact h.distinct x hx y hy hxfiles hxexcludes heq

/-- Where the names tell all files apart, what is left is the union only if the names are
matched. -/
theorem matched_of_kept_eq_union
    (hrel : ∀ x ∈ files ++ files', ∀ y ∈ files ++ files', rel x = rel y → x = y)
    (h : kept rel files files' excludes excludes' = union rel files files' excludes excludes') :
    Matched rel files files' excludes excludes' := by
  have hunion : ∀ x ∈ files ++ files',
      rel x ∈ union rel files files' excludes excludes' → x ∉ excludes ++ excludes' := by
    intro x hx hmem
    obtain ⟨y, hy, heq⟩ := List.mem_map.mp hmem
    obtain ⟨hy, hy'⟩ := List.mem_filter.mp hy
    rw [hrel x hx y (mem_fresh.mp hy).1 heq.symm]
    exact of_decide_eq_true hy'
  have hkept : ∀ x ∈ files ++ files', x ∉ excludes ++ excludes' →
      rel x ∉ merged rel excludes excludes' := by
    intro x hx hnot
    have hmem : rel x ∈ union rel files files' excludes excludes' :=
      List.mem_map_of_mem (List.mem_filter.mpr ⟨mem_fresh.mpr ⟨hx, List.not_mem_nil⟩, by
        simpa using hnot⟩)
    rw [← h] at hmem
    exact of_decide_eq_true (List.mem_filter.mp hmem).2
  have hfirst : ∀ x ∈ files,
      rel x ∈ merged rel excludes excludes' ↔ x ∈ excludes ++ excludes' := by
    intro x hx
    constructor
    · intro hmem
      by_contra hnot
      exact hkept x (List.mem_append_left _ hx) hnot hmem
    · intro hex
      by_contra hnot
      refine hunion x (List.mem_append_left _ hx) (h ▸ ?_) hex
      refine List.mem_filter.mpr ⟨List.mem_append_left _ ?_, decide_eq_true hnot⟩
      exact List.mem_map_of_mem (mem_fresh.mpr ⟨hx, List.not_mem_nil⟩)
  -- the files of the first level are the same, so those of the second are
  have hrest : fresh [] ((files'.filter fun x =>
      rel x ∉ files ∧ decide (rel x ∉ merged rel excludes excludes')).map rel) =
      (fresh [] (files'.filter fun x => x ∉ files ∧ x ∉ excludes ++ excludes')).map rel := by
    have hsame : ((fresh [] files).filter fun x => rel x ∉ merged rel excludes excludes') =
        (fresh [] files).filter fun x => x ∉ excludes ++ excludes' := by
      refine List.filter_congr fun x hx => ?_
      rw [decide_eq_decide, hfirst x (mem_fresh.mp hx).1]
    rw [kept, filter_merged, union_eq, hsame] at h
    exact List.append_cancel_left h
  refine ⟨hfirst, fun x hx => ?_, fun x hx y hy _ _ heq =>
    hrel x (List.mem_append_right _ hx) y (List.mem_append_right _ hy) heq⟩
  constructor
  · intro hname
    by_contra hnot
    rw [not_or] at hnot
    have hmem : rel x ∈ (fresh [] (files'.filter fun x =>
        x ∉ files ∧ x ∉ excludes ++ excludes')).map rel :=
      List.mem_map_of_mem (mem_fresh.mpr ⟨List.mem_filter.mpr ⟨hx, by simpa using hnot⟩,
        List.not_mem_nil⟩)
    rw [← hrest] at hmem
    obtain ⟨y, hy, heq⟩ := List.mem_map.mp (mem_fresh.mp hmem).1
    obtain ⟨hyfiles, hyexcludes⟩ := of_decide_eq_true (List.mem_filter.mp hy).2
    rw [heq] at hyfiles hyexcludes
    rw [decide_eq_true_iff] at hyexcludes
    exact hname.elim hyfiles hyexcludes
  · intro hlisted
    by_contra hnot
    rw [not_or] at hnot
    have hmem : rel x ∈ fresh [] ((files'.filter fun x =>
        rel x ∉ files ∧ decide (rel x ∉ merged rel excludes excludes')).map rel) :=
      mem_fresh.mpr ⟨List.mem_map_of_mem (List.mem_filter.mpr ⟨hx, by simpa using hnot⟩),
        List.not_mem_nil⟩
    rw [hrest] at hmem
    obtain ⟨y, hy, heq⟩ := List.mem_map.mp hmem
    obtain ⟨hy, hy'⟩ := List.mem_filter.mp (mem_fresh.mp hy).1
    obtain rfl := hrel y (List.mem_append_right _ hy) x (List.mem_append_right _ hx) heq
    obtain ⟨hfiles, hexcludes⟩ := of_decide_eq_true hy'
    exact hlisted.elim hfiles hexcludes

end Lists

section Items

variable {env : Env} {sln : Solution} {prj : Project}

/-- The settings of a configuration: those of some blocks of the project, on those of some blocks
of the solution. -/
def Origin (env : Env) (sln : Solution) (prj : Project) (above own : List Block)
    (cfg : Fields) : Prop :=
  ∃ base : Obj, base.fields = mergedFields env (prepareSolution env sln).obj none above ∧
    cfg = mergedFields env (prepareProject env sln.obj prj).obj (some base)
      (own.map (Block.adjust env.cwd (location env sln prj)))

theorem list_prepareProject {f : Field} (hf : f.fieldKind.isPaths) :
    ((prepareProject env sln.obj prj).obj.fields.list f).arr =
      (prj.obj.fields.list f).arr.map (Path.getrelative env.cwd (location env sln prj)) := by
  have hrel : f.relative env.cwd (location env sln prj) =
      Path.getrelative env.cwd (location env sln prj) := by
    funext item
    rw [Field.relative, if_pos hf]
  have hne : Field.location ≠ f := by
    rintro rfl
    cases hf
  have hfields : (prepareProject env sln.obj prj).obj.fields =
      adjustpaths env.cwd (location env sln prj) (prj.obj.fields.withLocation
        (prj.obj.fields .location <|> sln.obj.fields .location <|> prj.obj.fields .basedir)) := by
    rw [location_eq]
    rfl
  rw [hfields, list_adjustpaths, hrel]
  cases prj.obj.fields .location <|> sln.obj.fields .location <|> prj.obj.fields .basedir with
  | none => rfl
  | some l =>
      rw [Fields.withLocation, list_set_of_ne _ hne]
      rfl

theorem list_prepareSolution {f : Field} (hf : f.fieldKind.isPaths) :
    (prepareSolution env sln).obj.fields.list f = sln.obj.fields.list f := by
  have hne : f ≠ Field.location := by
    rintro rfl
    cases hf
  rw [Fields.list, Fields.list]
  change (f.fieldKind.tbl (defaultLocation sln.obj.fields f)).getD Tbl.empty = _
  rw [defaultLocation_of_ne hne]

/-- The entries of the project and its blocks after the first loop. -/
theorem ownItems_adjust {f : Field} (hf : f.fieldKind.isPaths) (own : List Block) :
    ownItems (prepareProject env sln.obj prj).obj
        (own.map (Block.adjust env.cwd (location env sln prj))) f =
      (ownItems prj.obj own f).map (Path.getrelative env.cwd (location env sln prj)) := by
  have hrel : f.relative env.cwd (location env sln prj) =
      Path.getrelative env.cwd (location env sln prj) := by
    funext item
    rw [Field.relative, if_pos hf]
  rw [ownItems, ownItems, list_prepareProject hf, List.map_append, List.flatMap_map,
    List.map_flatMap]
  congr 2
  funext blk
  change ((adjustpaths env.cwd (location env sln prj) blk.fields).list f).arr = _
  rw [list_adjustpaths, hrel]
  rfl

/-- The list of a configuration: the entries of both levels are merged. -/
theorem Origin.list {above own : List Block} {cfg : Fields}
    (h : Origin env sln prj above own cfg) {f : Field} (hf : f.fieldKind.isPaths) :
    (cfg.list f).arr = merged (Path.getrelative env.cwd (location env sln prj))
      (ownItems sln.obj above f) (ownItems prj.obj own f) := by
  obtain ⟨base, hbase, rfl⟩ := h
  have hrel : f.relative env.cwd (location env sln prj) =
      Path.getrelative env.cwd (location env sln prj) := by
    funext item
    rw [Field.relative, if_pos hf]
  have hbase' : inheritedItems (some base) f = fresh [] (ownItems sln.obj above f) := by
    change (base.fields.list f).arr = _
    rw [hbase, list_mergedFields]
    change [] ++ fresh [] (ownItems (prepareSolution env sln).obj above f) = _
    rw [ownItems, ownItems, list_prepareSolution hf, List.nil_append]
  rw [list_mergedFields, hbase', fresh_of_nodup nodup_fresh (by simp),
    ownItems_adjust hf, ← location, hrel]
  rfl

end Items

section Session

variable {env : Env} {session : List Solution} {heap : Heap} {result : List BakedSolution}

theorem copiedTo_files {prjs : List BakedProject} {prj : BakedProject} {entry : Str × BakedConfig}
    {connections : List (Str × Connection)} :
    copiedTo env prjs prj entry connections .files = [] := by
  rw [copiedTo, List.flatMap_eq_nil_iff]
  intro c _
  rw [copiedItems]
  cases c.2.usageProj.configs.lookup entry.1 <;>
    simp [contributed, Field.usagecopy, Field.linkagecopy]

/-- The files of a configuration are what is kept of the entries of both levels. -/
theorem Origin.files {sln : Solution} {prj : Project} {above own : List Block} {cfg : Fields}
    (h : Origin env sln prj above own cfg) {plt : Platform} {fields : Fields}
    (hfixed : fixedFields plt cfg = .ok fields) :
    (fields.list .files).arr = kept (Path.getrelative env.cwd (location env sln prj))
      (ownItems sln.obj above .files) (ownItems prj.obj own .files)
      (ownItems sln.obj above .excludes) (ownItems prj.obj own .excludes) := by
  rw [arr_fixedFields hfixed, h.list rfl, kept]
  refine List.filter_congr fun x _ => ?_
  rw [keeps, h.list rfl]
  simp

/-- The files of a configuration are the union of those of the blocks that match, less the
excludes of these blocks, relative to the location of the project. -/
def FilesUnited (env : Env) (sln : Solution) (prj : Project) (above own : List Block)
    (fields : Fields) : Prop :=
  (fields.list .files).arr = union (Path.getrelative env.cwd (location env sln prj))
    (ownItems sln.obj above .files) (ownItems prj.obj own .files)
    (ownItems sln.obj above .excludes) (ownItems prj.obj own .excludes)

/-- The relative names of the files and the excludes do what the paths stand for. -/
def NamesMatched (env : Env) (sln : Solution) (prj : Project) (above own : List Block) : Prop :=
  Matched (Path.getrelative env.cwd (location env sln prj))
    (ownItems sln.obj above .files) (ownItems prj.obj own .files)
    (ownItems sln.obj above .excludes) (ownItems prj.obj own .excludes)

def FilesApart (env : Env) (sln : Solution) (prj : Project) (above own : List Block) : Prop :=
  ∀ x ∈ ownItems sln.obj above .files ++ ownItems prj.obj own .files,
    ∀ y ∈ ownItems sln.obj above .files ++ ownItems prj.obj own .files,
      Path.getrelative env.cwd (location env sln prj) x =
        Path.getrelative env.cwd (location env sln prj) y → x = y

/-- The files of every configuration of a session are the union of those of both levels, less the
excludes of both levels, when the relative names are matched. They are not when the names are not
matched, wherever the names tell the files apart. -/
theorem filesUnited_buildconfigs (h : buildconfigs env session heap = .ok result) :
    ∀ sln' ∈ result, ∀ prj' ∈ sln'.projects, ∀ e ∈ prj'.configs,
      ∃ sln ∈ session, ∃ prj ∈ sln.projects, prj'.toProject = prepareProject env sln.obj prj ∧
        ∃ above own, Applies env session heap sln prj e.1 above own ∧
          (NamesMatched env sln prj above own → FilesUnited env sln prj above own e.2.fields) ∧
          (FilesApart env sln prj above own → FilesUnited env sln prj above own e.2.fields →
            NamesMatched env sln prj above own) := by
  intro sln' hsln' prj' hprj' e he
  obtain ⟨heap', baked, hbaked, b, hb, prjb, hprjb, hsame, e', he', hkey, hfiles⟩ :=
    exists_baked_of_buildconfigs (fun _ _ _ _ => copiedTo_files) h hsln' hprj' he
  obtain ⟨sln, hsln, prj, hprj, hsame', above, own, happlies, base, plt, hbase, hfixed⟩ :=
    exists_applies hbaked hb hprjb he'
  refine ⟨sln, hsln, prj, hprj, hsame.symm.trans hsame', above, own, hkey ▸ happlies, ?_⟩
  have horigin : Origin env sln prj above own _ := ⟨base, hbase, rfl⟩
  rw [FilesUnited, NamesMatched, hfiles, horigin.files hfixed]
  exact ⟨kept_eq_union, fun hapart heq => matched_of_kept_eq_union hapart heq⟩

end Session

section Example

/-- A session with one solution and one project in it, with files and excludes at both levels. -/
def layeredSession (files excludes files' excludes' : List String) : List Solution :=
  [{ obj := Container.ofBlock
       ((Fields.empty.set .configurations ⟨["Debug".toList], []⟩).set .basedir "/home".toList)
       (((configuration 0 []).set .files ⟨files.map String.toList, []⟩).set .excludes
         ⟨excludes.map String.toList, []⟩)
     projects := [{
       name := "App".toList
       usage := false
       obj := Container.ofBlock
         ((Fields.empty.set .kind staticLib).set .basedir "/home/app".toList)
         (((configuration 1 []).set .files ⟨files'.map String.toList, []⟩).set .excludes
           ⟨excludes'.map String.toList, []⟩) }] }]

def sessionHeap (session : List Solution) : Heap :=
  initialHeap (session.flatMap fun sln => sln.obj.blocks ++ sln.projects.flatMap (·.obj.blocks))

def apartSession : List Solution :=
  layeredSession ["/home/a.c"] ["/home/app/c.c"] ["/home/app/b.c", "/home/app/c.c"] []

def twiceSession : List Solution := layeredSession ["/home/a.c"] [] ["/home/a.c"] []

theorem applies_layered {session : List Solution} {files excludes files' excludes' : List String}
    (hsession : session = layeredSession files excludes files' excludes')
    (haddrs : (recordSession .gmake session (sessionHeap session)).toOption.map
      (appliedAddrs · "Debug".toList) = some [(some [0], some [1])])
    {sln : Solution} (hsln : sln ∈ session) {prj : Project} (hprj : prj ∈ sln.projects)
    {above own : List Block} (h : Applies .gmake session (sessionHeap session) sln prj
      "Debug".toList above own) : above = sln.obj.blocks ∧ own = prj.obj.blocks := by
  obtain ⟨addrs, hrun, hmem⟩ := h.addrs
  obtain ⟨_, _, _, _, _, _, _, -, habove, hown, -⟩ := h
  rw [haddrs] at hrun
  obtain rfl := Option.some.inj hrun
  obtain ⟨h₀, h₁⟩ := Prod.mk.inj (List.mem_singleton.mp hmem)
  subst hsession
  obtain rfl := List.mem_singleton.mp hsln
  obtain rfl := List.mem_singleton.mp hprj
  have hlength₀ := congrArg List.length (Option.some.inj h₀)
  have hlength₁ := congrArg List.length (Option.some.inj h₁)
  rw [List.length_map] at hlength₀ hlength₁
  exact ⟨habove.eq_of_length hlength₀, hown.eq_of_length hlength₁⟩

/-- The files of the session with everything declared once: the one of the solution is kept, and
the exclude of the solution removes one of the project. -/
theorem filesUnited_apart : ∃ result,
    buildconfigs .gmake apartSession (sessionHeap apartSession) = .ok result ∧
      ∃ sln' ∈ result, ∃ prj' ∈ sln'.projects, ∃ e ∈ prj'.configs,
        ∃ sln ∈ apartSession, ∃ prj ∈ sln.projects, ∃ above own,
          Applies .gmake apartSession (sessionHeap apartSession) sln prj e.1 above own ∧
          NamesMatched .gmake sln prj above own ∧ FilesUnited .gmake sln prj above own e.2.fields ∧
          (e.2.fields.list .files).arr = ["../a.c".toList, "b.c".toList] := by
  have hfiles : ∃ result,
      buildconfigs .gmake apartSession (sessionHeap apartSession) = .ok result ∧
        ∃ sln' ∈ result, ∃ prj' ∈ sln'.projects, ∃ e ∈ prj'.configs, e.1 = "Debug".toList ∧
          (e.2.fields.list .files).arr = ["../a.c".toList, "b.c".toList] := ⟨_, rfl, by decide⟩
  obtain ⟨result, hresult, sln', hsln', prj', hprj', e, he, hkey, hfiles⟩ := hfiles
  obtain ⟨sln, hsln, prj, hprj, -, above, own, happlies, hunited, -⟩ :=
    filesUnited_buildconfigs hresult sln' hsln' prj' hprj' e he
  obtain ⟨rfl, rfl⟩ := applies_layered rfl (by decide +kernel) hsln hprj (hkey ▸ happlies)
  have hnames : NamesMatched .gmake sln prj sln.obj.blocks prj.obj.blocks := by
    obtain rfl := List.mem_singleton.mp hsln
    obtain rfl := List.mem_singleton.mp hprj
    exact ⟨by decide +kernel, by decide +kernel, by decide +kernel⟩
  exact ⟨result, hresult, sln', hsln', prj', hprj', e, he, sln, hsln, prj, hprj, _, _, happlies,
    hnames, hunited hnames, hfiles⟩

/-- A file that is declared at both levels is there twice. -/
theorem not_filesUnited_twice : ∃ result,
    buildconfigs .gmake twiceSession (sessionHeap twiceSession) = .ok result ∧
      ¬ ∀ sln' ∈ result, ∀ prj' ∈ sln'.projects, ∀ e ∈ prj'.configs,
        ∀ sln ∈ twiceSession, ∀ prj ∈ sln.projects, ∀ above own,
          Applies .gmake twiceSession (sessionHeap twiceSession) sln prj e.1 above own →
          FilesUnited .gmake sln prj above own e.2.fields := by
  have htwice : ∃ result,
      buildconfigs .gmake twiceSession (sessionHeap twiceSession) = .ok result ∧
        ∃ sln' ∈ result, ∃ prj' ∈ sln'.projects, ∃ e ∈ prj'.configs, e.1 = "Debug".toList ∧
          (e.2.fields.list .files).arr = ["../a.c".toList, "../a.c".toList] := ⟨_, rfl, by decide⟩
  obtain ⟨result, hresult, sln', hsln', prj', hprj', e, he, hkey, hfiles⟩ := htwice
  refine ⟨result, hresult, fun hall => ?_⟩
  obtain ⟨heap', baked, hbaked, b, hb, prjb, hprjb, -, e', he', hkey', -⟩ :=
    exists_baked_of_buildconfigs (fun _ _ _ _ => copiedTo_files) hresult hsln' hprj' he
  obtain ⟨sln, hsln, prj, hprj, -, above, own, happlies, -⟩ := exists_applies hbaked hb hprjb he'
  rw [hkey'] at happlies
  have hunited := hall sln' hsln' prj' hprj' e he sln hsln prj hprj above own happlies
  obtain ⟨rfl, rfl⟩ := applies_layered rfl (by decide +kernel) hsln hprj (hkey ▸ happlies)
  obtain rfl := List.mem_singleton.mp hsln
  obtain rfl := List.mem_singleton.mp hprj
  rw [FilesUnited, hfiles] at hunited
  exact absurd hunited (by decide +kernel)

end Example

end Levels

end Puremake
