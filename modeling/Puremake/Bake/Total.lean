import Puremake.Bake.Buildconfigs
import Puremake.Fold.Ends

/-!
# Baking comes to a result

Baking looks up many values that may be missing: the table of terms that a configuration refers
to, its lists, the directories of its project, its platform and the style of its tool. None of
them is missing when every container begins with the block that `solution` and `project` give
it, the platforms are known, and a project has a directory. Then the only errors are those that
the keywords of the blocks raise.
-/

namespace Puremake

open FoldRun

/-- The keywords of a block raise some errors only, whatever they are matched with. -/
def Block.Raises (E : BakeError → Prop) (blk : Block) : Prop :=
  ∀ ord terms, Ends E (fun _ => True) (iskeywordsmatch ord blk.keywords terms)

/-- The first block of a container is for all configurations. -/
def Container.Opened (c : Container) : Prop :=
  ∃ blk rest, c.blocks = blk :: rest ∧ blk.words = []

/-- The fields that are set in an object are set in another one. -/
def Covers (c d : Fields) : Prop := ∀ f, (c f).isSome → (d f).isSome

theorem Covers.trans {a b c : Fields} (h : Covers a b) (h' : Covers b c) : Covers a c :=
  fun f hf => h' f (h f hf)

theorem covers_mergefields_right (dest src : Fields) : Covers src (mergefields dest src) := by
  intro f hf
  obtain ⟨v, hv⟩ := Option.isSome_iff_exists.mp hf
  rw [mergefields, hv]
  rfl

theorem covers_mergefields_left (dest src : Fields) : Covers dest (mergefields dest src) := by
  intro f hf
  rw [mergefields]
  cases src f with
  | none => exact hf
  | some v => rfl

theorem covers_set (c : Fields) (f : Field) (v : f.fieldKind.Val) : Covers c (c.set f v) := by
  intro g hg
  by_cases h : f = g
  · subst h
    rw [Fields.set_self]
    rfl
  · rwa [Fields.set_of_ne h]

section Merge

variable {env : Env} {E : BakeError → Prop} {obj : Container}

theorem ends_mergeBlock {blk : Block} (hblk : blk.Raises E) (st : MergeState) :
    Ends E (fun st' => st' = st ∨ st' = mergeMatching st blk) (mergeBlock env st blk) := by
  rw [mergeBlock]
  refine (hblk env.ord st.terms).bind fun b _ => ?_
  cases b with
  | true => exact ends_pure (.inr rfl)
  | false => exact ends_pure (.inl rfl)

/-- What holds while the blocks are gone through: the filter terms name no file, and the
settings of the container itself are there. -/
structure Merging (obj : Container) (st : MergeState) : Prop where
  required : st.terms.required = none
  covers : Covers obj.fields st.cfg.fields

theorem Merging.matching {st : MergeState} (h : Merging obj st) (blk : Block) :
    Merging obj (mergeMatching st blk) where
  required := by
    rcases mergeMatching_cases st blk with ⟨kind, -, -, heq⟩ | ⟨-, heq⟩
    · rw [heq]
      exact h.required
    · rw [heq]
      exact h.required
  covers := by
    rw [mergeMatching_cfg]
    exact h.covers.trans (covers_mergefields_left _ _)

/-- An object that was merged from a block refers to the table of a block. -/
theorem isSome_terms_mergeMatching (st : MergeState) (blk : Block) :
    (mergeMatching st blk).cfg.terms.isSome := by
  rw [mergeMatching_cfg]
  rfl

/-- The first block always matches, so a merge ends with a table of terms. -/
theorem ends_mergeBlocks (hblocks : ∀ blk ∈ obj.blocks, blk.Raises E) (hopened : obj.Opened)
    {st : MergeState} (hst : Merging obj st) :
    Ends E (fun st' => Merging obj st' ∧ st'.cfg.terms.isSome)
      (obj.blocks.foldlM (mergeBlock env) st) := by
  obtain ⟨first, rest, hobj, hwords⟩ := hopened
  have hfirst : mergeBlock env st first = .ok (mergeMatching st first) := by
    refine mergeBlock_eq_ok.mpr (.inl ⟨?_, rfl⟩)
    rw [Block.keywords, hwords]
    show Except.ok (st.terms.required.isNone || false) = _
    rw [hst.required]
    rfl
  rw [hobj, List.foldlM_cons, hfirst]
  refine ends_foldlM (s := mergeMatching st first)
    ⟨hst.matching first, isSome_terms_mergeMatching st first⟩ fun s blk hblk hs => ?_
  refine (ends_mergeBlock (hblocks blk (hobj ▸ List.mem_cons_of_mem _ hblk)) s).imp ?_
  rintro s' (rfl | rfl)
  · exact hs
  · exact ⟨hs.1.matching blk, isSome_terms_mergeMatching s blk⟩

/-- A configuration that `merge` makes of a container. -/
structure Complete (obj : Container) (cfg : Config) : Prop where
  terms : cfg.terms.isSome
  covers : Covers obj.fields cfg.fields
  platform : (platform cfg.platform).isSome

theorem ends_merge (hblocks : ∀ blk ∈ obj.blocks, blk.Raises E) (hopened : obj.Opened)
    (basis : Option Obj) (heap : Heap) {terms : Terms} (hterms : terms.required = none)
    (cfgname : Option Str) {pltname : Str} (hplatform : (platform pltname).isSome) :
    Ends E (fun r => r.2.1.required = none ∧ Complete obj r.2.2)
      (merge env obj basis heap terms cfgname pltname) := by
  have hstart : Merging obj ⟨heap, startTerms terms (configBase env obj basis) cfgname pltname,
      configBase env obj basis⟩ := ⟨hterms, covers_mergefields_right _ _⟩
  rw [merge]
  refine (ends_mergeBlocks hblocks hopened hstart).bind fun st hst => ?_
  obtain ⟨hmerging, hsome⟩ := hst
  obtain ⟨addr, haddr⟩ := Option.isSome_iff_exists.mp hsome
  rw [haddr]
  exact ends_pure ⟨hmerging.required, hsome, hmerging.covers, hplatform⟩

/-- What holds between two calls of `merge`. -/
structure Collapsing (obj : Container) (st : CollapseState) : Prop where
  required : st.terms.required = none
  stored : ∀ e ∈ st.result, Complete obj e.2

theorem ends_collapseStep (hblocks : ∀ blk ∈ obj.blocks, blk.Raises E) (hopened : obj.Opened)
    (basis : Configs) (cfgname : Option Str) {st : CollapseState} (hst : Collapsing obj st)
    {pltname : Str} (hplatform : (platform pltname).isSome) :
    Ends E (Collapsing obj) (collapseStep env obj basis cfgname st pltname) := by
  rw [collapseStep]
  refine (ends_merge hblocks hopened _ st.heap hst.required cfgname hplatform).bind ?_
  rintro ⟨heap, terms, cfg⟩ ⟨hterms, hcfg⟩
  refine ends_pure ⟨hterms, fun e he => ?_⟩
  rcases mem_of_mem_assign he with rfl | he
  · exact hcfg
  · exact hst.stored e he

/-- A solution has configurations, and platforms that are known. -/
structure Container.Lists (sln : Container) : Prop where
  configurations : sln.configurations.isSome
  platforms : ∀ p ∈ sln.platformnames, (platform p).isSome

theorem Container.Lists.pltnames {sln : Container} (h : sln.Lists) {p : Str}
    (hp : p ∈ pltnames sln.platformnames) : (platform p).isSome := by
  rcases List.mem_cons.mp hp with rfl | hp
  · decide
  · exact h.platforms p (List.mem_of_mem_filter hp)

theorem ends_collapse (hblocks : ∀ blk ∈ obj.blocks, blk.Raises E) (hopened : obj.Opened)
    {sln : Container} (hlists : sln.Lists) (basis : Configs) (heap : Heap) :
    Ends E (fun r => ∀ e ∈ r.2, Complete obj e.2) (collapse env sln obj basis heap) := by
  obtain ⟨configurations, hconfigurations⟩ := Option.isSome_iff_exists.mp hlists.configurations
  have hstart : Collapsing obj ⟨heap, getactiveterms env, []⟩ :=
    ⟨rfl, fun e he => absurd he List.not_mem_nil⟩
  rw [collapse, hconfigurations]
  refine (ends_collapseStep hblocks hopened basis none hstart
    (hlists.pltnames List.mem_cons_self)).bind fun root hroot => ?_
  refine (ends_foldlM (I := Collapsing obj) hroot fun st cfgname _ hst => ?_).bind
    fun st hst => ends_pure hst.stored
  refine ends_foldlM (I := Collapsing obj) (s := { st with terms := root.terms })
    ⟨hroot.required, hst.stored⟩ ?_
  exact fun st p hp hst =>
    ends_collapseStep hblocks hopened basis (some cfgname) hst (hlists.pltnames hp)

end Merge

section Postprocess

variable {env : Env} {E : BakeError → Prop} {obj : Container}

theorem exists_getconfigname (cfgname : Option Str) {pltname : Str}
    (hplatform : (platform pltname).isSome) (useshortname : Bool) :
    ∃ name, getconfigname cfgname pltname useshortname = .ok name := by
  obtain ⟨plt, hplt⟩ := Option.isSome_iff_exists.mp hplatform
  cases cfgname with
  | none => exact ⟨none, rfl⟩
  | some name =>
      cases useshortname with
      | false => exact ⟨_, rfl⟩
      | true =>
          by_cases hnative : pltname = native
          · refine ⟨some (Str.lower (name ++ [])), ?_⟩
            simp [getconfigname, shortSuffix, hnative, Except.map]
          · refine ⟨some (Str.lower (name ++ plt.cfgsuffix)), ?_⟩
            simp [getconfigname, shortSuffix, hnative, hplt, Except.map]

theorem covers_defaultLocation (cfg : Fields) : Covers cfg (defaultLocation cfg) := by
  rw [defaultLocation]
  split
  · exact covers_set _ _ _
  · exact fun f hf => hf

theorem covers_adjustKind (plt : Platform) (cfg : Fields) : Covers cfg (adjustKind plt cfg) := by
  rw [adjustKind]
  split
  · exact covers_set _ _ _
  · exact fun f hf => hf

theorem ends_removeExcluded {cfg : Fields} (hfiles : (cfg .files).isSome)
    (hexcludes : (cfg .excludes).isSome) : Ends E (Covers cfg) (removeExcluded cfg) := by
  obtain ⟨files, hfiles⟩ := Option.isSome_iff_exists.mp hfiles
  obtain ⟨excludes, hexcludes⟩ := Option.isSome_iff_exists.mp hexcludes
  rw [removeExcluded, hfiles, hexcludes]
  obtain ⟨arr, keys⟩ := files
  cases arr with
  | nil => exact ends_pure (covers_set _ _ _)
  | cons fname fnames => exact ends_pure (covers_set _ _ _)

theorem ends_rekeyFlags {cfg : Fields} (hflags : (cfg .flags).isSome) :
    Ends E (Covers cfg) (rekeyFlags cfg) := by
  obtain ⟨flags, hflags⟩ := Option.isSome_iff_exists.mp hflags
  rw [rekeyFlags, hflags]
  exact ends_pure (covers_set _ _ _)

/-- A configuration with all its tables can be fixed up, and no field is lost. -/
theorem ends_fixedFields (plt : Platform) {cfg : Fields} (h : cfg.Initialised) :
    Ends E (Covers cfg) (fixedFields plt cfg) := by
  have hfixed : Covers cfg (adjustKind plt (defaultLocation cfg)) :=
    (covers_defaultLocation cfg).trans (covers_adjustKind plt _)
  refine (ends_removeExcluded (hfixed _ (h .files rfl))
    (hfixed _ (h .excludes rfl))).bind fun mid hmid => ?_
  exact (ends_rekeyFlags (hmid _ (hfixed _ (h .flags rfl)))).imp fun fields hfields =>
    (hfixed.trans hmid).trans hfields

theorem ends_matchingBlocks (ord : PairsOrder) (terms : Terms) {blks : List Block}
    (hblocks : ∀ blk ∈ blks, blk.Raises E) :
    Ends E (fun _ => True) (matchingBlocks ord terms blks) := by
  induction blks with
  | nil => exact ends_ok trivial
  | cons blk blks ih =>
      rw [matchingBlocks]
      refine (hblocks blk List.mem_cons_self ord terms).bind fun b _ => ?_
      exact (ih fun c hc => hblocks c (List.mem_cons_of_mem _ hc)).bind fun rest _ =>
        ends_pure trivial

theorem ends_fileconfigs {blks : List Block} (hblocks : ∀ blk ∈ blks, blk.Raises E)
    {terms : Option ℕ} (hterms : terms.isSome) (heap : Heap) (files : List Str) :
    Ends E (fun _ => True) (fileconfigs env blks terms heap files) := by
  obtain ⟨addr, rfl⟩ := Option.isSome_iff_exists.mp hterms
  refine ends_foldlM trivial fun st fname _ _ => ?_
  exact (ends_matchingBlocks env.ord _ hblocks).bind fun matching _ => ends_pure trivial

/-- A configuration that has what is looked up in it after the merging. -/
structure Finished (cfg : BakedConfig) : Prop where
  platform : (platform cfg.platform).isSome
  location : (cfg.fields .location).isSome
  basedir : (cfg.fields .basedir).isSome

/-- A container with the directories that a project has. -/
structure Container.Located (obj : Container) : Prop where
  location : (obj.fields .location).isSome
  basedir : (obj.fields .basedir).isSome

theorem ends_postprocess (hblocks : ∀ blk ∈ obj.blocks, blk.Raises E) (hlocated : obj.Located)
    {cfg : Config} (hcfg : Complete obj cfg) (hinit : cfg.fields.Initialised) (heap : Heap) :
    Ends E (fun r => Finished r.2) (postprocess env obj cfg heap) := by
  obtain ⟨shortname, hshort⟩ := exists_getconfigname cfg.name hcfg.platform true
  obtain ⟨longname, hlong⟩ := exists_getconfigname cfg.name hcfg.platform false
  obtain ⟨plt, hplt⟩ := Option.isSome_iff_exists.mp hcfg.platform
  rw [postprocess, hshort, hlong, hplt]
  refine (ends_fixedFields plt hinit).bind fun fields hfields => ?_
  refine (ends_fileconfigs hblocks hcfg.terms heap _).bind fun r _ => ?_
  have hcovers := hcfg.covers.trans hfields
  exact ends_pure ⟨hcfg.platform, hcovers _ hlocated.location, hcovers _ hlocated.basedir⟩

theorem ends_bakeProject (hblocks : ∀ blk ∈ obj.blocks, blk.Raises E) (hopened : obj.Opened)
    (hlocated : obj.Located) {sln : Container} (hlists : sln.Lists) {basis : Configs}
    (hbasis : ∀ e ∈ basis, e.2.fields.Initialised) (heap : Heap) :
    Ends E (fun r => ∀ e ∈ r.2, Finished e.2) (bakeProject env sln obj basis heap) := by
  rw [bakeProject]
  have hcollapse : Ends E (fun r => (∀ e ∈ r.2, Complete obj e.2) ∧
      ∀ e ∈ r.2, e.2.fields.Initialised) (collapse env sln obj basis heap) :=
    (ends_collapse hblocks hopened hlists basis heap).and_of_ok
      fun r hr => initialised_of_collapse hbasis hr
  refine hcollapse.bind fun r hr => ?_
  refine ends_foldlM (I := fun st : Heap × BakedConfigs => ∀ e ∈ st.2, Finished e.2)
    (fun e he => absurd he List.not_mem_nil) fun st entry hentry hst => ?_
  have hentry := env.ord.mem_enum.mp hentry
  refine (ends_postprocess hblocks hlocated (hr.1 entry hentry) (hr.2 entry hentry)
    st.1).bind fun b hb => ends_pure fun e he => ?_
  rcases List.mem_append.mp he with he | he
  · exact hst e he
  · rw [List.mem_singleton.mp he]
    exact hb

end Postprocess

section Solutions

variable {env : Env} {E : BakeError → Prop}

/-- The configurations of a baked solution are finished. -/
def BakedSolution.Finished (sln : BakedSolution) : Prop :=
  ∀ prj ∈ sln.projects, ∀ e ∈ prj.configs, Puremake.Finished e.2

structure Solution.Bakeable (E : BakeError → Prop) (sln : Solution) : Prop where
  lists : sln.obj.Lists
  opened : sln.obj.Opened
  raises : ∀ blk ∈ sln.obj.blocks, blk.Raises E
  projects : ∀ prj ∈ sln.projects, prj.obj.Opened ∧ (prj.obj.fields .basedir).isSome ∧
    ∀ blk ∈ prj.obj.blocks, blk.Raises E

theorem located_prepareProject (sln : Container) {prj : Project}
    (hbasedir : (prj.obj.fields .basedir).isSome) : (prepareProject env sln prj).obj.Located := by
  obtain ⟨basedir, hbasedir⟩ := Option.isSome_iff_exists.mp hbasedir
  have hlocation : ∃ location,
      (prj.obj.fields .location <|> sln.fields .location <|> prj.obj.fields .basedir) =
        some location := by
    rw [hbasedir]
    cases prj.obj.fields .location with
    | some location => exact ⟨location, rfl⟩
    | none =>
        cases sln.fields .location with
        | some location => exact ⟨location, rfl⟩
        | none => exact ⟨basedir, rfl⟩
  obtain ⟨location, hlocation⟩ := hlocation
  have hfields : (prepareProject env sln prj).obj.fields =
      adjustpaths env.cwd location (prj.obj.fields.set .location location) := by
    show adjustpaths env.cwd (Option.getD (_ <|> _ <|> _) []) (prj.obj.fields.withLocation _) = _
    rw [hlocation]
    rfl
  constructor
  · rw [hfields]
    show ((prj.obj.fields.set .location location) .location).isSome
    rw [Fields.set_self]
    rfl
  · rw [hfields]
    show ((prj.obj.fields.set .location location) .basedir).isSome
    rw [Fields.set_of_ne (by decide), hbasedir]
    rfl

theorem opened_adjust (cwd location : Str) {blks : List Block}
    (h : ∃ blk rest, blks = blk :: rest ∧ blk.words = []) :
    ∃ blk rest, blks.map (Block.adjust cwd location) = blk :: rest ∧ blk.words = [] := by
  obtain ⟨blk, rest, rfl, hwords⟩ := h
  exact ⟨_, _, List.map_cons, hwords⟩

variable (env) in
/-- The first loop of `buildconfigs` leaves a solution bakeable, and gives its projects their
directories. -/
theorem Solution.Bakeable.prepare {sln : Solution} (h : sln.Bakeable E) :
    (prepareSolution env sln).Bakeable E ∧
      ∀ prj ∈ (prepareSolution env sln).projects, prj.obj.Located := by
  have hset : ∀ f, f ≠ .location → defaultLocation sln.obj.fields f = sln.obj.fields f :=
    fun f hf => defaultLocation_of_ne hf
  refine ⟨⟨⟨?_, ?_⟩, h.opened, h.raises, ?_⟩, ?_⟩
  · show ((defaultLocation sln.obj.fields .configurations).map Tbl.arr).isSome
    rw [hset _ (by decide)]
    exact h.lists.configurations
  · show ∀ p ∈ ((defaultLocation sln.obj.fields .platforms).getD Tbl.empty).arr, _
    rw [hset _ (by decide)]
    exact h.lists.platforms
  · intro prj hprj
    obtain ⟨prj₀, hprj₀, rfl⟩ := List.mem_map.mp hprj
    obtain ⟨hopened, hbasedir, hraises⟩ := h.projects prj₀ hprj₀
    refine ⟨?_, (located_prepareProject sln.obj hbasedir).basedir, ?_⟩
    · exact opened_adjust env.cwd _ hopened
    · intro blk hblk
      obtain ⟨blk₀, hblk₀, rfl⟩ := List.mem_map.mp hblk
      exact hraises blk₀ hblk₀
  · intro prj hprj
    obtain ⟨prj₀, hprj₀, rfl⟩ := List.mem_map.mp hprj
    exact located_prepareProject sln.obj (h.projects prj₀ hprj₀).2.1

theorem ends_bakeSolution {sln : Solution} (h : sln.Bakeable E)
    (hlocated : ∀ prj ∈ sln.projects, prj.obj.Located) (heap : Heap) :
    Ends E (fun r => r.2.Finished) (bakeSolution env sln heap) := by
  rw [bakeSolution]
  have hcollapse : Ends E (fun r => (∀ e ∈ r.2, Complete sln.obj e.2) ∧
      ∀ e ∈ r.2, e.2.fields.Initialised) (collapse env sln.obj sln.obj [] heap) :=
    (ends_collapse h.raises h.opened h.lists [] heap).and_of_ok
      fun r hr => initialised_of_collapse (fun e he => absurd he List.not_mem_nil) hr
  refine hcollapse.bind fun r hr => ?_
  refine (ends_foldlM (I := fun st : Heap × List BakedProject =>
    ∀ prj ∈ st.2, ∀ e ∈ prj.configs, Finished e.2) (fun prj hprj => absurd hprj List.not_mem_nil)
    fun st prj hprj hst => ?_).bind fun st hst => ends_pure hst
  obtain ⟨hopened, -, hraises⟩ := h.projects prj hprj
  refine (ends_bakeProject hraises hopened (hlocated prj hprj) h.lists hr.2 st.1).bind
    fun b hb => ends_pure fun prj' hprj' => ?_
  rcases List.mem_append.mp hprj' with hprj' | hprj'
  · exact hst prj' hprj'
  · rw [List.mem_singleton.mp hprj']
    exact hb

theorem ends_bakeSession {session : List Solution} (h : ∀ sln ∈ session, sln.Bakeable E)
    (heap : Heap) :
    Ends E (fun r => ∀ sln ∈ r.2, sln.Finished) (bakeSession env session heap) := by
  refine ends_foldlM (I := fun st : Heap × List BakedSolution => ∀ sln ∈ st.2, sln.Finished)
    (fun sln hsln => absurd hsln List.not_mem_nil) fun st sln hsln hst => ?_
  obtain ⟨sln₀, hsln₀, rfl⟩ := List.mem_map.mp hsln
  obtain ⟨hbakeable, hlocated⟩ := (h sln₀ hsln₀).prepare env
  refine (ends_bakeSolution hbakeable hlocated st.1).bind fun b hb =>
    ends_pure fun sln' hsln' => ?_
  rcases List.mem_append.mp hsln' with hsln' | hsln'
  · exact hst sln' hsln'
  · rw [List.mem_singleton.mp hsln']
    exact hb

end Solutions

section Copy

variable {env : Env} {E : BakeError → Prop} {prjs : List BakedProject}

/-- The connections lead to projects of the solution. -/
def Entered (prjs : List BakedProject) (connections : List (Str × Connection)) : Prop :=
  ∀ e ∈ connections, e.2.usageProj ∈ prjs

theorem Entered.assign {connections : List (Str × Connection)} (h : Entered prjs connections)
    {n : Str} {c : Connection} (hc : c.usageProj ∈ prjs) :
    Entered prjs (assign n c connections) := by
  intro e he
  rcases mem_of_mem_assign he with rfl | he
  · exact hc
  · exact h e he

theorem Entered.enterNames (bLinkage : Bool) {s : Connections × List BakedProject}
    (h : Entered prjs s.1.dstArray) (useNames : List Str) :
    Entered prjs (useNames.foldl (enterName prjs bLinkage) s).1.dstArray := by
  induction useNames generalizing s with
  | nil => exact h
  | cons useName useNames ih =>
      refine ih ?_
      rw [enterName]
      split
      · exact h
      · split
        · rename_i theProj theUseProj heq
          have huse : usageProject prjs (Str.lower useName) = some theUseProj :=
            congrArg Prod.snd heq
          exact h.assign (usageProject_mem huse).1
        · exact h

theorem entered_getprojrec (k : Str) (f : SearchField) (bLinkage : Bool) (fuel : ℕ)
    (cfg : Option BakedConfig) {st : Connections} (h : Entered prjs st.dstArray) :
    Ends (fun _ => True) (fun st' => Entered prjs st'.dstArray)
      (getprojrec prjs k f bLinkage fuel st cfg) := by
  induction fuel generalizing cfg st with
  | zero =>
      cases cfg with
      | none => exact h
      | some cfg => trivial
  | succ fuel ih =>
      cases cfg with
      | none => exact h
      | some cfg =>
          rw [getprojrec]
          cases cfg.search f with
          | none => trivial
          | some useNames =>
              refine ends_foldlM (Entered.enterNames bLinkage (s := (st, [])) h useNames.arr)
                fun st usePrj _ hst => ?_
              have hrecurses : Ends (fun _ => True) (fun _ => True)
                  (recurses f usePrj (usePrj.configs.lookup k)) := by
                cases recurses f usePrj (usePrj.configs.lookup k) <;> trivial
              refine hrecurses.bind fun b _ => ?_
              cases b with
              | true => exact ih _ hst
              | false => exact ends_pure hst

theorem entered_getprojectsconnections (ord : PairsOrder) (fuel : ℕ) (own : Str)
    (cfg : BakedConfig) (k : Str) :
    Ends (fun _ => True) (Entered prjs) (getprojectsconnections ord fuel prjs own cfg k) := by
  have hstart : Entered prjs [] := fun e he => absurd he List.not_mem_nil
  refine (entered_getprojrec k .uses false fuel (some cfg) hstart).bind fun st hst => ?_
  refine (ends_foldlM (I := fun linked : Connections => Entered prjs linked.dstArray) hstart
    fun linked e _ hlinked => entered_getprojrec k .links true fuel _ hlinked).bind
      fun linked hlinked => ends_pure ?_
  have hall : ∀ e ∈ ord.enum linked.dstArray, e.2.usageProj ∈ prjs := fun e he =>
    hlinked e (ord.mem_enum.mp he)
  generalize ord.enum linked.dstArray = entries at hall
  have hdst := hst
  generalize st.dstArray = dstArray at hdst
  induction entries generalizing dstArray with
  | nil => exact hdst
  | cons e entries ih =>
      exact ih (fun e' he' => hall e' (List.mem_cons_of_mem _ he')) _
        (hdst.assign (hall e List.mem_cons_self))

theorem exists_insertAll {k : FieldKind} (hk : k = .list ∨ k = .dirlist) (v : k.Val)
    (items : List Str) : ∃ v', k.insertAll v items = some v' := by
  rcases hk with rfl | rfl
  · exact ⟨_, rfl⟩
  · exact ⟨_, rfl⟩

theorem ends_insertAll {c : Fields} {f : Field}
    (hf : f.fieldKind = .list ∨ f.fieldKind = .dirlist) (h : (c f).isSome) (items : List Str) :
    Ends E (Covers c) (c.insertAll f items) := by
  rw [Fields.insertAll]
  split
  · exact fun g hg => hg
  · obtain ⟨v, hv⟩ := Option.isSome_iff_exists.mp h
    obtain ⟨v', hv'⟩ := exists_insertAll hf v items
    rw [hv, Option.bind_some, hv']
    exact covers_set c f v'

theorem fieldKind_of_copied {f : Field} (hf : f.usagecopy ∨ f.linkagecopy) :
    f.fieldKind = .list ∨ f.fieldKind = .dirlist := by
  revert hf
  cases f <;> decide

theorem ends_copydependentfield {srcPrj dstPrj : BakedProject} {src dst : Fields} {f : Field}
    (hf : f.usagecopy ∨ f.linkagecopy) (h : dst.Initialised) :
    Ends E (Covers dst) (copydependentfield env prjs srcPrj dstPrj src dst f) := by
  have hkind := fieldKind_of_copied hf
  have heq : copydependentfield env prjs srcPrj dstPrj src dst f =
      dst.insertAll f (copyableItems env prjs srcPrj dstPrj src f) := by
    rw [copydependentfield]
    rcases hkind with hk | hk <;> rw [hk]
  rw [heq]
  refine ends_insertAll hkind (h f ?_) _
  rcases hkind with hk | hk <;> rw [hk] <;> rfl

theorem ends_copyField {dstPrj : BakedProject} {bIsStaticLib : Bool} {prjEntry : Connection}
    {src dst : Fields} (name : Field) (h : dst.Initialised) :
    Ends E (Covers dst) (copyField env prjs dstPrj bIsStaticLib prjEntry src dst name) := by
  rw [copyField]
  split
  · exact fun g hg => hg
  · split
    · rename_i husage
      split
      · exact ends_copydependentfield (.inl husage) h
      · exact fun g hg => hg
    · split
      · rename_i hlinkage
        split
        · exact ends_copydependentfield (.inr hlinkage) h
        · exact fun g hg => hg
      · exact fun g hg => hg

theorem Covers.initialised {c d : Fields} (h : Covers c d) (hc : c.Initialised) : d.Initialised :=
  fun f hf => h f (hc f hf)

/-- The settings of a connection are copied, and no field is lost. -/
theorem ends_copyConnection {dstPrj : BakedProject} {bIsStaticLib : Bool} {k : Str}
    (hready : Ready prjs k) {dst : Fields} (h : dst.Initialised) {entry : Str × Connection}
    (hentry : entry.2.usageProj ∈ prjs) :
    Ends E (Covers dst) (copyConnection env prjs dstPrj bIsStaticLib k dst entry) := by
  obtain ⟨srcCfg, hsrc, -⟩ := hready entry.2.usageProj hentry
  rw [copyConnection, hsrc]
  have hfields : Ends E (Covers dst) ((env.ord.enum Field.all).foldlM
      (copyField env prjs dstPrj bIsStaticLib entry.2 srcCfg.fields) dst) :=
    ends_foldlM (fun g hg => hg) fun c f _ hc =>
      (ends_copyField f (hc.initialised h)).imp fun c' hc' => hc.trans hc'
  refine hfields.bind fun c hc => ?_
  exact (ends_insertAll (.inl rfl) (hc.initialised h .links rfl) _).imp
    fun c' hc' => hc.trans hc'

theorem ends_copyConfig {sln : Solution} {heap heap' : Heap} {baked : BakedSolution}
    (hbake : bakeSolution env sln heap = .ok (heap', baked)) {prj : BakedProject}
    (hprj : prj ∈ baked.projects) {entry : Str × BakedConfig} (hentry : entry ∈ prj.configs)
    (hfinished : Finished entry.2) :
    Ends E (fun entry' => Finished entry'.2) (copyConfig env baked.projects prj entry) := by
  have hready := ready_of_bakeSolution hbake hprj (List.mem_map.mpr ⟨entry, hentry, rfl⟩)
  have hinit := initialised_of_bakeSolution hbake hprj hentry
  obtain ⟨connections, hconnections, -⟩ := getprojectsconnections_of_ready prj.name hready
    (hinit .uses rfl) env.ord (Nat.lt_succ_self baked.projects.length)
  have hentered : Entered baked.projects connections :=
    (entered_getprojectsconnections env.ord (baked.projects.length + 1) prj.name entry.2
      entry.1).of_ok hconnections
  rw [copyConfig, hconnections]
  have hcopy : Ends E (fun cfg => Finished cfg)
      (copyusagedata env baked.projects prj entry.1 connections entry.2) := by
    have hloop : Ends E (Covers entry.2.fields) ((env.ord.enum connections).foldlM
        (copyConnection env baked.projects prj (prj.kindOf entry.2 = some staticLib) entry.1)
        entry.2.fields) :=
      ends_foldlM (fun g hg => hg) fun c e he hc =>
        (ends_copyConnection hready (hc.initialised hinit)
          (hentered e (env.ord.mem_enum.mp he))).imp fun c' hc' => hc.trans hc'
    exact hloop.bind fun fields hfields => ends_pure
      ⟨hfinished.platform, hfields _ hfinished.location, hfields _ hfinished.basedir⟩
  exact hcopy.bind fun cfg hcfg => ends_pure hcfg

theorem ends_copySolution {sln : Solution} {heap heap' : Heap} {baked : BakedSolution}
    (hbake : bakeSolution env sln heap = .ok (heap', baked)) (hfinished : baked.Finished) :
    Ends E BakedSolution.Finished (copySolution env baked) := by
  have hproject : ∀ prj ∈ baked.projects,
      Ends E (fun prj' : BakedProject => ∀ e ∈ prj'.configs, Finished e.2)
        (copyProject env baked.projects prj) := by
    intro prj hprj
    rw [copyProject]
    split
    · exact hfinished prj hprj
    · refine (ends_mapM fun e he => ?_).bind fun configs hconfigs => ends_pure hconfigs
      have he := env.ord.mem_enum.mp he
      exact ends_copyConfig hbake hprj he (hfinished prj hprj e he)
  rw [copySolution]
  refine (ends_mapM hproject).bind fun projects hprojects => ends_pure fun prj hprj => ?_
  exact hprojects prj (List.mem_of_mem_filter hprj)

end Copy

section Assign

variable {env : Env} {E : BakeError → Prop}

theorem ends_mapSession {f : BakedProject → BakedConfig → Except BakeError BakedConfig}
    (hf : ∀ prj cfg, Finished cfg → Ends E Finished (f prj cfg)) {session : List BakedSolution}
    (h : ∀ sln ∈ session, sln.Finished) :
    Ends E (fun session' => ∀ sln ∈ session', sln.Finished) (mapSession f session) := by
  refine ends_mapM fun sln hsln => ?_
  refine (ends_mapM fun prj hprj => ?_).bind fun projects hprojects => ends_pure hprojects
  refine (ends_mapM fun e he => ?_).bind fun configs hconfigs => ends_pure hconfigs
  exact (hf prj e.2 (h sln hsln prj hprj e he)).bind fun cfg hcfg => ends_pure hcfg

theorem ends_assignObjdir (hits : Str → ℕ) (prj : BakedProject) {cfg : BakedConfig}
    (h : Finished cfg) : Ends E Finished (assignObjdir env hits prj cfg) := by
  obtain ⟨location, hlocation⟩ := Option.isSome_iff_exists.mp h.location
  rw [assignObjdir, hlocation]
  exact ⟨h.platform, h.location, h.basedir⟩

/-- The tool for a configuration is one that `premake` has. -/
def Env.HasTool (env : Env) : Prop :=
  ∀ cfg, ∃ tool, gettool env cfg = .ok tool ∧ (toolstyle tool).isSome

theorem ends_gettarget (project : Str) {cfg : BakedConfig} (h : Finished cfg)
    (direction : Direction) (pathstyle namestyle system : Str) :
    Ends E (fun _ => True)
      (gettarget env project cfg direction pathstyle namestyle system) := by
  obtain ⟨location, hlocation⟩ := Option.isSome_iff_exists.mp h.location
  obtain ⟨basedir, hbasedir⟩ := Option.isSome_iff_exists.mp h.basedir
  rw [gettarget, hlocation, hbasedir]
  split
  dsimp only
  split
  · exact ends_pure trivial
  · exact ends_pure trivial

theorem ends_assignTargets (htool : env.HasTool) (prj : BakedProject) {cfg : BakedConfig}
    (h : Finished cfg) : Ends E Finished (assignTargets env prj cfg) := by
  have hstyle : Ends E (fun _ => True) (getnamestyle env cfg) := by
    obtain ⟨plt, hplt⟩ := Option.isSome_iff_exists.mp h.platform
    obtain ⟨tool, htool, hknown⟩ := htool cfg
    obtain ⟨style, hstyle⟩ := Option.isSome_iff_exists.mp hknown
    obtain ⟨suffix, iscrosscompiler, nosharedlibs, namestyle⟩ := plt
    rw [getnamestyle, hplt]
    cases namestyle with
    | some style => trivial
    | none =>
        refine Ends.bind (P := (· = tool)) (ends_of_eq_ok htool rfl) fun tool' heq => ?_
        rw [heq, hstyle]
        trivial
  refine hstyle.bind fun namestyle _ => ?_
  refine (ends_gettarget prj.name h .build _ _ _).bind fun buildtarget _ => ?_
  refine (ends_gettarget prj.name h .link _ _ _).bind fun linktarget _ => ?_
  exact ends_pure ⟨h.platform, h.location, h.basedir⟩

/-- Baking raises only the errors that the keywords of the blocks raise. -/
theorem ends_buildconfigs (htool : env.HasTool) {session : List Solution}
    (h : ∀ sln ∈ session, sln.Bakeable E) (heap : Heap) :
    Ends E (fun result => ∀ sln ∈ result, sln.Finished) (buildconfigs env session heap) := by
  rw [buildconfigs]
  have hbaked : Ends E (fun r => (∀ sln ∈ r.2, sln.Finished) ∧
      List.Forall₂ (fun sln b => ∃ h h',
        bakeSolution env (prepareSolution env sln) h = .ok (h', b)) session r.2)
      (bakeSession env session heap) :=
    (ends_bakeSession h heap).and_of_ok fun r hr => bakeSession_eq_ok hr
  refine hbaked.bind fun r hr => ?_
  have hcopied : Ends E (fun copied => ∀ sln ∈ copied, sln.Finished)
      (r.2.mapM (copySolution env)) := by
    refine ends_mapM fun baked hbaked => ?_
    obtain ⟨sln, -, _, _, hbake⟩ := exists_left_of_forall₂ hr.2 hbaked
    exact ends_copySolution hbake (hr.1 baked hbaked)
  refine hcopied.bind fun copied hcopied => ?_
  refine (ends_mapSession (fun prj cfg hcfg => ends_assignObjdir _ prj hcfg)
    hcopied).bind fun unique hunique => ?_
  exact ends_mapSession (fun prj cfg hcfg => ends_assignTargets htool prj hcfg) hunique

end Assign

end Puremake
