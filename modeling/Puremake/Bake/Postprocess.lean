import Puremake.Bake.Platforms

/-!
# `postprocess`

After all configurations of a project are merged, each of them is fixed up: it
gets its names and its system, the kind is adjusted to the platform, excluded
files are removed, the flags are entered as keys, and the settings of each file
are merged from the blocks that match the name of the file.

The blocks are tested against the table of terms that the configuration refers
to, with the name of the file written into it. That table belongs to a block and
is shared with every configuration that ended with the same block.
-/

namespace Puremake

structure FileConfig where
  name : Str
  obj : Obj

/-- The results object of `premake.gettarget`. -/
structure Target where
  basename : Str
  name : Str
  directory : Str
  namePrefix : Str
  nameSuffix : Str
  fullpath : Str
  bundlepath : Str
  deriving DecidableEq, Repr

/-- A configuration after `postprocess`. The last three fields are assigned at the end
of `premake.bake.buildconfigs`. -/
structure BakedConfig extends Config where
  shortname : Option Str
  longname : Option Str
  system : Str
  fileconfigs : List FileConfig
  objectsdir : Option Str := none
  buildtarget : Option Target := none
  linktarget : Option Target := none

/-- `cfg.files` without the names in `cfg.excludes`. -/
def removeExcluded (cfg : Fields) : Except BakeError Fields := do
  match cfg .files with
  | none => throw .indexNil
  | some files =>
      match files.arr, cfg .excludes with
      | [], _ => return cfg.set .files Tbl.empty
      | _, none => throw .indexNil
      | fnames, some excludes =>
          return cfg.set .files ⟨fnames.filter fun fname => fname ∉ excludes.arr, []⟩

def listedFiles (cfg : Fields) : List Str :=
  ((cfg .files).getD Tbl.empty).arr.filter fun fname =>
    fname ∉ ((cfg .excludes).getD Tbl.empty).arr

def rekeyFlags (cfg : Fields) : Except BakeError Fields := do
  match cfg .flags with
  | none => throw .indexNil
  | some flags => return cfg.set .flags (flags.arr.foldl Tbl.setKey flags)

def adjustKind (plt : Platform) (cfg : Fields) : Fields :=
  if cfg .kind = some "SharedLib".toList ∧ plt.nosharedlibs then
    cfg.set .kind "StaticLib".toList
  else cfg

/-- `cfg.location = cfg.location or cfg.basedir` -/
def defaultLocation (cfg : Fields) : Fields :=
  match cfg .location, cfg .basedir with
  | none, some basedir => cfg.set .location basedir
  | _, _ => cfg

def fixedFields (plt : Platform) (cfg : Fields) : Except BakeError Fields := do
  rekeyFlags (← removeExcluded (adjustKind plt (defaultLocation cfg)))

def matchingBlocks (ord : PairsOrder) (terms : Terms) : List Block → Except BakeError (List Block)
  | [] => .ok []
  | blk :: blks => do
      let b ← iskeywordsmatch ord blk.keywords terms
      let rest ← matchingBlocks ord terms blks
      return if b then blk :: rest else rest

def mergeAll (blks : List Block) : Obj :=
  blks.foldl (fun fcfg blk => mergeobject fcfg blk.obj) Obj.empty

/-- One round of the loop over the files: the name goes into the table of terms at
`addr`, and the blocks that match it then are merged. -/
def fileStep (env : Env) (blks : List Block) (addr : ℕ) (st : Heap × List FileConfig)
    (fname : Str) : Except BakeError (Heap × List FileConfig) := do
  let heap := Function.update st.1 addr { st.1 addr with required := some (Str.lower fname) }
  let matching ← matchingBlocks env.ord (heap addr) blks
  return (heap, st.2 ++ [⟨fname, mergeAll matching⟩])

def fileconfigs (env : Env) (blks : List Block) (terms : Option ℕ) (heap : Heap)
    (files : List Str) : Except BakeError (Heap × List FileConfig) :=
  match terms with
  | some addr => files.foldlM (fileStep env blks addr) (heap, [])
  | none => if files = [] then .ok (heap, []) else .error .indexNil

def postprocess (env : Env) (prj : Container) (cfg : Config) (heap : Heap) :
    Except BakeError (Heap × BakedConfig) := do
  let shortname ← getconfigname cfg.name cfg.platform true
  let longname ← getconfigname cfg.name cfg.platform false
  match platform cfg.platform with
  | none => throw .indexNil
  | some plt =>
      let system := if plt.iscrosscompiler then cfg.platform else env.os
      let fields ← fixedFields plt cfg.fields
      let files := ((fields .files).getD Tbl.empty).arr
      let (heap, fileconfigs) ← fileconfigs env prj.blocks cfg.terms heap files
      return (heap, { cfg with fields, shortname, longname, system, fileconfigs })

abbrev BakedConfigs := List (Str × BakedConfig)

/-- A round of the loop over `prj.__configs`. -/
def postprocessStep (env : Env) (prj : Container) (st : Heap × BakedConfigs)
    (entry : Str × Config) : Except BakeError (Heap × BakedConfigs) := do
  let (heap, cfg) ← postprocess env prj entry.2 st.1
  return (heap, st.2 ++ [(entry.1, cfg)])

/-- `collapse` and `postprocess` for one project. -/
def bakeProject (env : Env) (sln prj : Container) (basis : Configs) (heap : Heap) :
    Except BakeError (Heap × BakedConfigs) := do
  let (heap, cfgs) ← collapse env sln prj basis heap
  (env.ord.enum cfgs).foldlM (postprocessStep env prj) (heap, [])

def bakeBoth (env : Env) (sln prj : Container) (heap : Heap) :
    Except BakeError (Heap × BakedConfigs) := do
  let (heap, basis) ← collapse env sln sln [] heap
  bakeProject env sln prj basis heap

open FoldRun

/-- Two heaps differ only in the file names that are written into the tables. -/
def SameButRequired (h g : Heap) : Prop :=
  ∀ a, { h a with required := none } = { g a with required := none }

section Fixed

variable {cfg cfg' : Fields}

theorem adjustKind_of_ne (plt : Platform) {f : Field} (h : f ≠ .kind) :
    adjustKind plt cfg f = cfg f := by
  rw [adjustKind]
  split
  · exact Fields.set_of_ne h.symm _ _
  · rfl

theorem defaultLocation_of_ne {f : Field} (h : f ≠ .location) :
    defaultLocation cfg f = cfg f := by
  rw [defaultLocation]
  cases cfg .location with
  | some location => rfl
  | none =>
      cases cfg .basedir with
      | none => rfl
      | some basedir => exact Fields.set_of_ne h.symm _ _

theorem rekeyFlags_of_ne (h : rekeyFlags cfg = .ok cfg') {f : Field} (hf : f ≠ .flags) :
    cfg' f = cfg f := by
  rw [rekeyFlags] at h
  cases hflags : cfg .flags with
  | none =>
      rw [hflags] at h
      cases h
  | some flags =>
      rw [hflags] at h
      cases h
      exact Fields.set_of_ne hf.symm _ _

theorem removeExcluded_of_ne (h : removeExcluded cfg = .ok cfg') {f : Field} (hf : f ≠ .files) :
    cfg' f = cfg f := by
  rw [removeExcluded] at h
  split at h
  · cases h
  · split at h
    · cases h
      exact Fields.set_of_ne hf.symm _ _
    · cases h
    · cases h
      exact Fields.set_of_ne hf.symm _ _

theorem fixedFields_of_ne {plt : Platform} (h : fixedFields plt cfg = .ok cfg') {f : Field}
    (hlocation : f ≠ .location) (hkind : f ≠ .kind) (hfiles : f ≠ .files) (hflags : f ≠ .flags) :
    cfg' f = cfg f := by
  obtain ⟨mid, hmid, h⟩ := FoldRun.bind_eq_ok.mp h
  rw [rekeyFlags_of_ne h hflags, removeExcluded_of_ne hmid hfiles, adjustKind_of_ne plt hkind,
    defaultLocation_of_ne hlocation]

theorem removeExcluded_files (h : removeExcluded cfg = .ok cfg') :
    ((cfg' .files).getD Tbl.empty).arr = listedFiles cfg := by
  rw [removeExcluded] at h
  rw [listedFiles]
  cases hfiles : cfg .files with
  | none =>
      rw [hfiles] at h
      cases h
  | some files =>
      rw [hfiles] at h
      obtain ⟨arr, keys⟩ := files
      cases arr with
      | nil =>
          cases h
          simp [Tbl.empty]
      | cons fname fnames =>
          cases hex : cfg .excludes with
          | none =>
              rw [hex] at h
              cases h
          | some excludes =>
              rw [hex] at h
              cases h
              simp

theorem fixedFields_files {plt : Platform} (h : fixedFields plt cfg = .ok cfg') :
    ((cfg' .files).getD Tbl.empty).arr = listedFiles cfg := by
  obtain ⟨mid, hmid, h⟩ := FoldRun.bind_eq_ok.mp h
  rw [rekeyFlags_of_ne h (by decide), removeExcluded_files hmid, listedFiles, listedFiles,
    adjustKind_of_ne plt (by decide), adjustKind_of_ne plt (by decide),
    defaultLocation_of_ne (by decide), defaultLocation_of_ne (by decide)]

end Fixed

section Files

variable {env : Env} {blks : List Block} {addr : ℕ}

theorem SameButRequired.refl (h : Heap) : SameButRequired h h := fun _ => rfl

theorem SameButRequired.trans {h g k : Heap} (h₁ : SameButRequired h g)
    (h₂ : SameButRequired g k) : SameButRequired h k := fun a => (h₁ a).trans (h₂ a)

/-- Writing a file name into a table hides what was there before. -/
theorem SameButRequired.withRequired {h g : Heap} (hs : SameButRequired h g) (a : ℕ)
    (fname : Option Str) :
    { h a with required := fname } = { g a with required := fname } :=
  congrArg (fun t : Terms => { t with required := fname }) (hs a)

theorem fileStep_eq_ok {st st' : Heap × List FileConfig} {fname : Str} :
    fileStep env blks addr st fname = .ok st' ↔
      ∃ matching, matchingBlocks env.ord
          { st.1 addr with required := some (Str.lower fname) } blks = .ok matching ∧
        st' = (Function.update st.1 addr { st.1 addr with required := some (Str.lower fname) },
          st.2 ++ [⟨fname, mergeAll matching⟩]) := by
  rw [fileStep, Function.update_self, bind_eq_ok]
  refine exists_congr fun matching => and_congr_right fun _ => ?_
  exact ⟨fun h => (Except.ok.inj h).symm, fun h => congrArg Except.ok h.symm⟩

theorem fileStep_sameButRequired {st st' : Heap × List FileConfig} {fname : Str}
    (h : fileStep env blks addr st fname = .ok st') : SameButRequired st.1 st'.1 := by
  obtain ⟨matching, -, rfl⟩ := fileStep_eq_ok.mp h
  intro a
  by_cases ha : a = addr
  · subst ha
    simp
  · simp [ha]

/-- The settings of the files of a configuration, and what they are made from: the
table of the configuration as it stands before, with each file name in turn. -/
theorem fileconfigs_eq_ok {heap heap' : Heap} {files : List Str} {fcfgs : List FileConfig}
    (h : fileconfigs env blks (some addr) heap files = .ok (heap', fcfgs)) :
    SameButRequired heap heap' ∧
      List.Forall₂ (fun fname fcfg => fcfg.name = fname ∧
        ∃ matching, matchingBlocks env.ord
            { heap addr with required := some (Str.lower fname) } blks = .ok matching ∧
          fcfg.obj = mergeAll matching) files fcfgs := by
  refine foldlM_invariant (d := []) (P := fun _ _ => True)
    (I := fun done (st : Heap × List FileConfig) => SameButRequired heap st.1 ∧
      List.Forall₂ (fun fname fcfg => fcfg.name = fname ∧
        ∃ matching, matchingBlocks env.ord
            { heap addr with required := some (Str.lower fname) } blks = .ok matching ∧
          fcfg.obj = mergeAll matching) done st.2) ?_ ⟨.refl _, .nil⟩
    (along_of_forall (fun _ _ => trivial) _ _) h
  rintro done st fname st' ⟨hsame, hdone⟩ - hstep
  refine ⟨hsame.trans (fileStep_sameButRequired hstep), ?_⟩
  obtain ⟨matching, hm, rfl⟩ := fileStep_eq_ok.mp hstep
  rw [← hsame.withRequired] at hm
  exact List.rel_append hdone (.cons ⟨rfl, matching, hm, rfl⟩ .nil)

end Files

section Matching

variable {ord : PairsOrder} {terms : Terms}

/-- The blocks that match are the ones whose keywords are found to match, provided
that the keywords of none of them are malformed. -/
theorem matchingBlocks_eq_ok {blks l : List Block} :
    matchingBlocks ord terms blks = .ok l ↔
      (∀ blk ∈ blks, ∃ b, iskeywordsmatch ord blk.keywords terms = .ok b) ∧
        l = blks.filter fun blk => iskeywordsmatch ord blk.keywords terms = .ok true := by
  induction blks generalizing l with
  | nil =>
      rw [matchingBlocks]
      simp [eq_comm]
  | cons blk blks ih =>
      rw [matchingBlocks, bind_eq_ok]
      constructor
      · rintro ⟨b, hb, h⟩
        obtain ⟨rest, hrest, h⟩ := bind_eq_ok.mp h
        obtain ⟨hall, rfl⟩ := ih.mp hrest
        refine ⟨?_, ?_⟩
        · intro c hc
          rcases List.mem_cons.mp hc with rfl | hc
          · exact ⟨b, hb⟩
          · exact hall c hc
        · rw [← Except.ok.inj h, List.filter_cons, hb]
          cases b <;> simp
      · rintro ⟨hall, rfl⟩
        obtain ⟨b, hb⟩ := hall blk (by simp)
        refine ⟨b, hb, bind_eq_ok.mpr ⟨_, ih.mpr ⟨fun c hc => hall c (by simp [hc]), rfl⟩, ?_⟩⟩
        rw [List.filter_cons, hb]
        cases b <;> simp [pure, Except.pure]

/-- Two tables of terms select the same blocks exactly when every block gives the
same answer for both. -/
theorem matchingBlocks_eq_iff {terms' : Terms} {blks l : List Block}
    (h : matchingBlocks ord terms blks = .ok l) :
    matchingBlocks ord terms' blks = .ok l ↔
      ∀ blk ∈ blks, iskeywordsmatch ord blk.keywords terms =
        iskeywordsmatch ord blk.keywords terms' := by
  obtain ⟨hall, rfl⟩ := matchingBlocks_eq_ok.mp h
  rw [matchingBlocks_eq_ok]
  constructor
  · rintro ⟨hall', heq⟩ blk hblk
    obtain ⟨b, hb⟩ := hall blk hblk
    obtain ⟨b', hb'⟩ := hall' blk hblk
    have hmem : blk ∈ blks.filter (fun blk => iskeywordsmatch ord blk.keywords terms = .ok true) ↔
        blk ∈ blks.filter (fun blk => iskeywordsmatch ord blk.keywords terms' = .ok true) := by
      rw [heq]
    rw [List.mem_filter, List.mem_filter, hb, hb'] at hmem
    rw [hb, hb']
    cases b <;> cases b' <;> simp_all
  · intro hsame
    refine ⟨fun blk hblk => hsame blk hblk ▸ hall blk hblk, ?_⟩
    exact List.filter_congr fun blk hblk => by rw [hsame blk hblk]

end Matching

section Postprocess

variable {env : Env} {prj : Container}

theorem postprocess_eq_ok {cfg : Config} {heap heap' : Heap} {baked : BakedConfig} :
    postprocess env prj cfg heap = .ok (heap', baked) ↔
      ∃ shortname longname plt fields fcfgs,
        getconfigname cfg.name cfg.platform true = .ok shortname ∧
        getconfigname cfg.name cfg.platform false = .ok longname ∧
        platform cfg.platform = some plt ∧ fixedFields plt cfg.fields = .ok fields ∧
        fileconfigs env prj.blocks cfg.terms heap ((fields .files).getD Tbl.empty).arr =
          .ok (heap', fcfgs) ∧
        baked = { cfg with
          fields, shortname, longname,
          system := if plt.iscrosscompiler then cfg.platform else env.os
          fileconfigs := fcfgs } := by
  constructor
  · intro h
    obtain ⟨shortname, hshort, h⟩ := bind_eq_ok.mp h
    obtain ⟨longname, hlong, h⟩ := bind_eq_ok.mp h
    cases hplt : platform cfg.platform with
    | none =>
        rw [hplt] at h
        cases h
    | some plt =>
        rw [hplt] at h
        obtain ⟨fields, hfields, h⟩ := bind_eq_ok.mp h
        obtain ⟨⟨g, fcfgs⟩, hfiles, h⟩ := bind_eq_ok.mp h
        cases h
        exact ⟨shortname, longname, plt, fields, fcfgs, hshort, hlong, rfl, hfields, hfiles, rfl⟩
  · rintro ⟨shortname, longname, plt, fields, fcfgs, hshort, hlong, hplt, hfields, hfiles, rfl⟩
    refine bind_eq_ok.mpr ⟨shortname, hshort, bind_eq_ok.mpr ⟨longname, hlong, ?_⟩⟩
    rw [hplt]
    exact bind_eq_ok.mpr ⟨fields, hfields, bind_eq_ok.mpr ⟨(heap', fcfgs), hfiles, rfl⟩⟩

theorem fileconfigs_sameButRequired {blks : List Block} {terms : Option ℕ}
    {heap heap' : Heap} {files : List Str} {fcfgs : List FileConfig}
    (h : fileconfigs env blks terms heap files = .ok (heap', fcfgs)) :
    SameButRequired heap heap' := by
  cases terms with
  | some addr => exact (fileconfigs_eq_ok h).1
  | none =>
      rw [fileconfigs] at h
      split at h
      · cases h
        exact .refl _
      · cases h

/-- A baked configuration comes from one that `collapse` stored under the same key,
by a call of `postprocess` on a heap that differs from the one `collapse` left
in file names only. -/
def PostprocessedFrom (env : Env) (prj : Container) (heap : Heap) (entry : Str × Config)
    (baked : Str × BakedConfig) : Prop :=
  baked.1 = entry.1 ∧ ∃ g g', SameButRequired heap g ∧
    postprocess env prj entry.2 g = .ok (g', baked.2)

theorem keys_of_postprocessed {g : Heap} {entries : Configs} {baked : BakedConfigs}
    (h : List.Forall₂ (PostprocessedFrom env prj g) entries baked) :
    baked.map Prod.fst = entries.map Prod.fst := by
  induction h with
  | nil => rfl
  | cons hab _ ih => rw [List.map_cons, List.map_cons, ih, hab.1]

/-- What baking a project does: every configuration is post-processed once. -/
theorem bakeProject_eq_ok {sln : Container} {basis : Configs} {heap heap' : Heap}
    {baked : BakedConfigs} (h : bakeProject env sln prj basis heap = .ok (heap', baked)) :
    ∃ g cfgs, collapse env sln prj basis heap = .ok (g, cfgs) ∧
      List.Forall₂ (PostprocessedFrom env prj g) (env.ord.enum cfgs) baked := by
  obtain ⟨⟨g, cfgs⟩, hcollapse, hrun⟩ := bind_eq_ok.mp h
  refine ⟨g, cfgs, hcollapse, ?_⟩
  have hI := foldlM_invariant (d := []) (P := fun _ _ => True)
    (I := fun done (st : Heap × BakedConfigs) => SameButRequired g st.1 ∧
      List.Forall₂ (PostprocessedFrom env prj g) done st.2)
    (fun done st entry st' hI _ hstep => by
      obtain ⟨⟨g', b⟩, hpost, heq⟩ := bind_eq_ok.mp hstep
      cases heq
      obtain ⟨_, _, _, _, _, -, -, -, -, hfiles, -⟩ := postprocess_eq_ok.mp hpost
      exact ⟨hI.1.trans (fileconfigs_sameButRequired hfiles),
        List.rel_append hI.2 (.cons ⟨rfl, st.1, g', hI.1, hpost⟩ .nil)⟩)
    ⟨.refl g, .nil⟩ (along_of_forall (fun _ _ => trivial) _ _) hrun
  exact hI.2

end Postprocess

end Puremake
