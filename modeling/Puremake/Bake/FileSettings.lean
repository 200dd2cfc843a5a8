import Puremake.Bake.Merges
import Puremake.Bake.Names

/-!
# Do the settings of a file follow the terms of their own configuration?

The blocks that are merged for a file are selected by the table of terms that the configuration
refers to. The table belongs to the block that matched last, and by the time the files are looked
at it holds what the configuration wrote that was merged last and ended with the same block. The
settings of the files are made of the right blocks when every block gives the same answer for
these terms as for the configuration's own.
-/

namespace Puremake

open FoldRun

/-- The terms of a configuration of its own, for one file: the active terms, its
name, platform and kind, and the name of the file. -/
def ownTerms (env : Env) (cfg : Config) (fname : Str) : Terms :=
  { getactiveterms env with
    config := some (Str.lower (cfg.name.getD []))
    platform := some (Str.lower cfg.platform)
    kind := cfg.kind.map Str.lower
    required := some (Str.lower fname) }

/-- The table of terms that a file of a configuration is looked up with. -/
def sharedTerms (heap : Heap) (addr : ℕ) (fname : Str) : Terms :=
  { heap addr with required := some (Str.lower fname) }

/-- The settings of each file are the merge of the blocks that match the configuration's own
terms, with the name of the file. -/
def MergedFromOwn (env : Env) (prj : Container) (cfg : Config) (fcfgs : List FileConfig) : Prop :=
  List.Forall₂ (fun fname fcfg => fcfg.name = fname ∧ ∃ matching,
    matchingBlocks env.ord (ownTerms env cfg fname) prj.blocks = .ok matching ∧
    fcfg.obj = mergeAll matching) (listedFiles cfg.fields) fcfgs

/-- The terms that the configuration merged last leaves in the table of its block, for one file:
its name and platform and the active terms, with the other words of the block and the kind that
was entered for the block. -/
def lastTerms (env : Env) (before : Terms) (kind : Option Str) (last : Config) (fname : Str) :
    Terms :=
  { writtenBy env before last with kind, required := some (Str.lower fname) }

/-- For each file, every block gives the same answer for the configuration's own terms as for
those of the configuration that was merged last of the ones that ended with the same block. -/
def LastAsOwn (env : Env) (prj : Container) (before after : Heap) (merges : List Merge)
    (cfg : Config) : Prop :=
  ∀ fname ∈ listedFiles cfg.fields, ∀ addr ∈ cfg.terms, ∀ last ∈ lastEnding merges addr,
    ∀ blk ∈ prj.blocks,
      iskeywordsmatch env.ord blk.keywords
          (lastTerms env (before addr) (after addr).kind last fname) =
        iskeywordsmatch env.ord blk.keywords (ownTerms env cfg fname)

def Telling (blks : List Block) : Prop :=
  ∀ l l' : List Block, l.Sublist blks → l'.Sublist blks → mergeAll l = mergeAll l' → l = l'

section Files

variable {env : Env} {prj : Container}

theorem sharedTerms_congr {heap g : Heap} (h : SameButRequired heap g) (addr : ℕ)
    (fname : Str) : sharedTerms g addr fname = sharedTerms heap addr fname :=
  (h.withRequired addr _).symm

/-- The settings of the files of a post-processed configuration: each one is the
merge of the blocks that match the shared table. -/
theorem fileconfigs_of_postprocessed {heap : Heap} {e : Str × Config} {b : Str × BakedConfig}
    {addr : ℕ} (haddr : e.2.terms = some addr) (h : PostprocessedFrom env prj heap e b) :
    List.Forall₂ (fun fname fcfg => fcfg.name = fname ∧
      ∃ matching, matchingBlocks env.ord (sharedTerms heap addr fname) prj.blocks = .ok matching ∧
        fcfg.obj = mergeAll matching) (listedFiles e.2.fields) b.2.fileconfigs := by
  obtain ⟨-, g, g', hsame, hpost⟩ := h
  obtain ⟨_, _, plt, fields, fcfgs, -, -, -, hfields, hfiles, hb⟩ := postprocess_eq_ok.mp hpost
  rw [haddr, fixedFields_files hfields] at hfiles
  have hforall := (fileconfigs_eq_ok hfiles).2
  rw [hb]
  refine hforall.imp fun fname fcfg hf => ?_
  rwa [← sharedTerms_congr hsame]

theorem sublist_of_matchingBlocks {terms : Terms} {blks matching : List Block}
    (h : matchingBlocks env.ord terms blks = .ok matching) : matching.Sublist blks := by
  rw [(matchingBlocks_eq_ok.mp h).2]
  exact List.filter_sublist

/-- The settings of the files of one configuration are made of its own blocks when every block
gives the same answer for the shared table, and only then when different blocks tell. -/
theorem mergedFromOwn_of_alike {heap : Heap} {e : Str × Config} {b : Str × BakedConfig} {addr : ℕ}
    (haddr : e.2.terms = some addr) (h : PostprocessedFrom env prj heap e b) :
    ((∀ fname ∈ listedFiles e.2.fields, ∀ blk ∈ prj.blocks,
        iskeywordsmatch env.ord blk.keywords (sharedTerms heap addr fname) =
          iskeywordsmatch env.ord blk.keywords (ownTerms env e.2 fname)) →
      MergedFromOwn env prj e.2 b.2.fileconfigs) ∧
    (Telling prj.blocks → MergedFromOwn env prj e.2 b.2.fileconfigs →
      ∀ fname ∈ listedFiles e.2.fields, ∀ blk ∈ prj.blocks,
        iskeywordsmatch env.ord blk.keywords (sharedTerms heap addr fname) =
          iskeywordsmatch env.ord blk.keywords (ownTerms env e.2 fname)) := by
  have hcode := fileconfigs_of_postprocessed haddr h
  constructor
  · intro halike
    refine List.forall₂_iff_get.mpr ⟨hcode.length_eq, fun i hi hi' => ?_⟩
    obtain ⟨hname, matching, hmatch, hobj⟩ := hcode.get hi hi'
    exact ⟨hname, matching,
      (matchingBlocks_eq_iff hmatch).mpr (halike _ (List.get_mem _ _)), hobj⟩
  · intro htelling hown fname hfname blk hblk
    obtain ⟨i, hi, rfl⟩ := List.getElem_of_mem hfname
    have hi' : i < b.2.fileconfigs.length := by rwa [← hown.length_eq]
    obtain ⟨-, matching, hmatch, hobj⟩ := hcode.get hi hi'
    obtain ⟨-, matching', hmatch', hobj'⟩ := hown.get hi hi'
    obtain rfl := htelling _ _ (sublist_of_matchingBlocks hmatch)
      (sublist_of_matchingBlocks hmatch') (hobj.symm.trans hobj')
    exact (matchingBlocks_eq_iff hmatch).mp hmatch' blk hblk

/-- The shared table has the terms of the configuration that was merged last. -/
theorem sharedTerms_eq {basis : Configs} {heap : Heap} {st : CollapseState × List Merge} {addr : ℕ}
    (hst : Recorded env prj basis heap st) {last : Config}
    (hlast : lastEnding st.2 addr = some last) (fname : Str) :
    sharedTerms st.1.heap addr fname =
      lastTerms env (heap addr) (st.1.heap addr).kind last fname := by
  have htable := hst.table addr
  rw [tableAfter, hlast] at htable
  have h := congrArg (fun t : Terms =>
    { t with kind := (st.1.heap addr).kind, required := some (Str.lower fname) }) htable
  exact h

/-- The shared table of a configuration gives the answers that `LastAsOwn` speaks of. -/
theorem lastAsOwn_iff {basis : Configs} {heap : Heap} {st : CollapseState × List Merge}
    (hst : Recorded env prj basis heap st) {e : Str × Config} (he : e ∈ st.1.result) {addr : ℕ}
    (haddr : e.2.terms = some addr) :
    LastAsOwn env prj heap st.1.heap st.2 e.2 ↔
      ∀ fname ∈ listedFiles e.2.fields, ∀ blk ∈ prj.blocks,
        iskeywordsmatch env.ord blk.keywords (sharedTerms st.1.heap addr fname) =
          iskeywordsmatch env.ord blk.keywords (ownTerms env e.2 fname) := by
  obtain ⟨m, -, hmem, -, hcfg, -⟩ := hst.exists_merge he
  obtain ⟨last, hlast⟩ := exists_lastEnding hmem (hcfg ▸ haddr)
  constructor
  · intro h fname hfname blk hblk
    rw [sharedTerms_eq hst hlast]
    exact h fname hfname addr haddr last hlast blk hblk
  · intro h fname hfname addr' haddr' last' hlast' blk hblk
    obtain rfl := Option.some.inj (haddr.symm.trans haddr')
    obtain rfl := Option.some.inj (hlast.symm.trans hlast')
    rw [← sharedTerms_eq hst hlast]
    exact h fname hfname blk hblk

/-- The settings of the files of every configuration are made of its own blocks. -/
def FileSettingsOwn (env : Env) (prj : Container) (cfgs : Configs) (baked : BakedConfigs) : Prop :=
  List.Forall₂ (fun e b => b.1 = e.1 ∧ MergedFromOwn env prj e.2 b.2.fileconfigs)
    (env.ord.enum cfgs) baked

/-- The files of every baked configuration get the settings of exactly the blocks that match its
own terms, when every block gives the same answer for these as for the terms of the configuration
that was merged last of those that ended with the same block. Where different blocks merge to
different settings, this is needed. -/
theorem fileSettings_iff {sln : Container} {basis : Configs} {heap h : Heap}
    {baked : BakedConfigs} (hbake : bakeProject env sln prj basis heap = .ok (h, baked)) :
    ∃ st, record env sln prj basis heap = .ok st ∧
      ((∀ e ∈ st.1.result, LastAsOwn env prj heap st.1.heap st.2 e.2) →
        FileSettingsOwn env prj st.1.result baked) ∧
      (Telling prj.blocks → FileSettingsOwn env prj st.1.result baked →
        ∀ e ∈ st.1.result, LastAsOwn env prj heap st.1.heap st.2 e.2) := by
  obtain ⟨g, cfgs, hcollapse, hpost⟩ := bakeProject_eq_ok hbake
  obtain ⟨st, hst, rfl, rfl⟩ := exists_record hcollapse
  have hrecorded := recorded_record hst
  refine ⟨st, hst, fun halike => ?_, fun htelling hown e he => ?_⟩
  · refine List.forall₂_iff_get.mpr ⟨hpost.length_eq, fun i hi hi' => ?_⟩
    have he := env.ord.mem_enum.mp (List.get_mem (env.ord.enum st.1.result) ⟨i, hi⟩)
    obtain ⟨m, -, -, -, hcfg, hm⟩ := hrecorded.exists_merge he
    obtain ⟨addr, haddr⟩ := hm.terms
    rw [hcfg] at haddr
    have hfrom := hpost.get hi hi'
    exact ⟨hfrom.1, (mergedFromOwn_of_alike haddr hfrom).1
      ((lastAsOwn_iff hrecorded he haddr).mp (halike _ he))⟩
  · obtain ⟨m, -, -, -, hcfg, hm⟩ := hrecorded.exists_merge he
    obtain ⟨addr, haddr⟩ := hm.terms
    rw [hcfg] at haddr
    obtain ⟨i, hi, rfl⟩ := List.getElem_of_mem (env.ord.mem_enum.mpr he)
    have hi' : i < baked.length := by rwa [← hpost.length_eq]
    exact (lastAsOwn_iff hrecorded he haddr).mpr
      ((mergedFromOwn_of_alike haddr (hpost.get hi hi')).2 htelling (hown.get hi hi').2)

end Files

section Example

instance (env : Env) (prj : Container) (before after : Heap) (merges : List Merge)
    (cfg : Config) : Decidable (LastAsOwn env prj before after merges cfg) := by
  unfold LastAsOwn
  infer_instance

/-- A project with one file, and a define for the files that a pattern selects. -/
def definingProject (words : List String) : Container where
  fields := Fields.empty
  blocks := [(configuration 1 []).set .files ⟨["a.c".toList], ["a.c".toList]⟩,
    (configuration 2 words).set .defines ⟨["TRACE".toList], ["TRACE".toList]⟩]
  distinct := by simp [configuration, Block.set]

def bakeDefining (words : List String) : Except BakeError (Heap × BakedConfigs) :=
  bakeProject .gmake (namedSolution ["Debug", "Release"] []) (definingProject words) []
    (initialHeap (definingProject words).blocks)

def recordDefining (words : List String) : Except BakeError (CollapseState × List Merge) :=
  record .gmake (namedSolution ["Debug", "Release"] []) (definingProject words) []
    (initialHeap (definingProject words).blocks)

/-- A condition on the name of the file alone is safe. -/
theorem fileSettings_of_pattern :
    ∃ h baked st, bakeDefining ["**.c"] = .ok (h, baked) ∧ recordDefining ["**.c"] = .ok st ∧
      FileSettingsOwn .gmake (definingProject ["**.c"]) st.1.result baked := by
  obtain ⟨h, baked, hbake⟩ : ∃ h baked, bakeDefining ["**.c"] = .ok (h, baked) := ⟨_, _, rfl⟩
  obtain ⟨st, hrecord, hown, -⟩ := fileSettings_iff hbake
  refine ⟨h, baked, st, hbake, hrecord, hown ?_⟩
  obtain rfl := Except.ok.inj hrecord
  decide

def fileDefines (baked : BakedConfigs) : List (List (Option Tbl)) :=
  baked.map fun b => b.2.fileconfigs.map fun fcfg => fcfg.obj.fields .defines

def ownDefines (env : Env) (prj : Container) (cfgs : Configs) : List (List (Option (Option Tbl))) :=
  (env.ord.enum cfgs).map fun e => (listedFiles e.2.fields).map fun fname =>
    ((matchingBlocks env.ord (ownTerms env e.2 fname) prj.blocks).toOption).map
      fun matching => (mergeAll matching).fields .defines

theorem map_eq_map_of_forall₂ {α β γ : Type*} {R : α → β → Prop} {f : α → γ} {g : β → γ}
    {l : List α} {l' : List β} (h : List.Forall₂ R l l') (hfg : ∀ a b, R a b → f a = g b) :
    l.map f = l'.map g := by
  induction h with
  | nil => rfl
  | cons hab _ ih => rw [List.map_cons, List.map_cons, ih, hfg _ _ hab]

theorem ownDefines_eq {env : Env} {prj : Container} {cfgs : Configs} {baked : BakedConfigs}
    (h : FileSettingsOwn env prj cfgs baked) :
    ownDefines env prj cfgs = (fileDefines baked).map (List.map some) := by
  rw [ownDefines, fileDefines, List.map_map]
  refine map_eq_map_of_forall₂ h fun e b hb => ?_
  rw [Function.comp_apply, List.map_map]
  refine map_eq_map_of_forall₂ hb.2 fun fname fcfg hf => ?_
  obtain ⟨-, matching, hmatch, hobj⟩ := hf
  rw [hmatch, Function.comp_apply, hobj]
  rfl

/-- A condition on the configuration is decided by the one that is merged last: the
file has no define in `Debug`. -/
theorem not_fileSettings_debug :
    ∃ h baked st, bakeDefining ["Debug", "**.c"] = .ok (h, baked) ∧
      recordDefining ["Debug", "**.c"] = .ok st ∧
      ¬ FileSettingsOwn .gmake (definingProject ["Debug", "**.c"]) st.1.result baked := by
  obtain ⟨h, baked, hbake⟩ :
      ∃ h baked, bakeDefining ["Debug", "**.c"] = .ok (h, baked) := ⟨_, _, rfl⟩
  obtain ⟨st, hrecord⟩ : ∃ st, recordDefining ["Debug", "**.c"] = .ok st := ⟨_, rfl⟩
  refine ⟨h, baked, st, hbake, hrecord, fun hown => ?_⟩
  have heq := ownDefines_eq hown
  obtain ⟨rfl, rfl⟩ := Prod.mk.inj (Except.ok.inj hbake)
  obtain rfl := Except.ok.inj hrecord
  exact absurd heq (by decide)

end Example

end Puremake
