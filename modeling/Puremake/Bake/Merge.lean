import Puremake.Bake.Fields
import Puremake.Bake.Terms
import Puremake.Fold.Basic
import Mathlib.Logic.Function.Basic

/-!
# `merge` and `collapse`

`merge` builds the object for one configuration and platform: the settings that
the solution has for the pair, the settings of the project itself, and then
each block of the project whose keywords match. `collapse` does this for the
root of the project and for every pair, and enters the results under the
concatenated names.

The terms of a block are a Lua table of its own, and an object that is being
built takes over the table of the last block that was merged into it, by
reference. The tables therefore live in a heap, and a block and an object hold
the address of one. `merge` passes the heap on, together with the table of
filter terms that it was called with and changes.
-/

namespace Puremake

abbrev Heap := ℕ → Terms

/-- A configuration block: the address of its terms, the words that it was
declared with, and its fields, where `configuration` has made all the tables. -/
structure Block where
  addr : ℕ
  words : List Str
  fields : Fields
  initialised : fields.Initialised

/-- The block that `configuration(words)` adds to a container. -/
def configuration (addr : ℕ) (words : List String) : Block where
  addr := addr
  words := words.map String.toList
  fields := fun f => f.fieldKind.initial
  initialised := fun _ hf => hf

def Block.set (blk : Block) (f : Field) (v : f.fieldKind.Val) : Block :=
  { blk with fields := blk.fields.set f v, initialised := blk.initialised.set f v }

def Block.keywords (blk : Block) : List Str := keywordsOf blk.words

/-- A solution or a project: its own fields and its blocks, each of which has a
table of terms of its own. -/
structure Container where
  fields : Fields
  blocks : List Block
  distinct : (blocks.map Block.addr).Nodup

def Container.ofBlock (fields : Fields) (blk : Block) : Container where
  fields := fields
  blocks := [blk]
  distinct := by simp

/-- An object that settings are merged into: its fields and the table of terms
that it refers to. -/
structure Obj where
  fields : Fields
  terms : Option ℕ

def Obj.empty : Obj := ⟨Fields.empty, none⟩

def Obj.kind (cfg : Obj) : Option Str := cfg.fields .kind

/-- The configuration that `merge` stores. -/
structure Config extends Obj where
  name : Option Str
  platform : Str

/-- `mergeobject`. A reference to a table of terms is copied as it is. -/
def mergeobject (dest src : Obj) : Obj :=
  ⟨mergefields dest.fields src.fields, src.terms <|> dest.terms⟩

def Block.obj (blk : Block) : Obj := ⟨blk.fields, some blk.addr⟩

def Container.obj (c : Container) : Obj := ⟨c.fields, none⟩

/-- What `merge` holds while it goes through the blocks. -/
structure MergeState where
  heap : Heap
  terms : Terms
  cfg : Obj

/-- The assignment of a kind that was found in a block to the table of the block
and to the filter terms. -/
def MergeState.setKind (st : MergeState) (addr : ℕ) (kind : Str) : MergeState where
  heap := Function.update st.heap addr
    { st.heap addr with kind := some (Str.lower kind) }
  terms := { st.terms with kind := some (Str.lower kind) }
  cfg := st.cfg

/-- A block that matches. The kind is only entered when the table of the block
has none. -/
def mergeMatching (st : MergeState) (blk : Block) : MergeState :=
  let st := { st with cfg := mergeobject st.cfg blk.obj }
  match st.cfg.kind, (st.heap blk.addr).kind with
  | some kind, none => st.setKind blk.addr kind
  | _, _ => st

def mergeBlock (env : Env) (st : MergeState) (blk : Block) : Except BakeError MergeState := do
  if ← iskeywordsmatch env.ord blk.keywords st.terms then
    return mergeMatching st blk
  else
    return st

/-- The settings that a configuration starts from: those of the solution for the
same key, made relative to the project, and those of the project itself. -/
def configBase (env : Env) (obj : Container) (basis : Option Obj) : Obj :=
  let cfg := basis.elim Obj.empty (mergeobject Obj.empty)
  mergeobject
    { cfg with fields := adjustpaths env.cwd ((obj.fields .location).getD []) cfg.fields } obj.obj

/-- The filter terms of a configuration before the blocks are gone through. -/
def startTerms (terms : Terms) (cfg : Obj) (cfgname : Option Str) (pltname : Str) : Terms :=
  { terms with
    config := some (Str.lower (cfgname.getD []))
    platform := some (Str.lower pltname)
    kind := match cfg.kind with
      | some kind => some (Str.lower kind)
      | none => terms.kind }

def native : Str := "Native".toList

def configKey (cfgname : Option Str) (pltname : Str) : Str :=
  cfgname.getD [] ++ if pltname ≠ native then pltname else []

/-- `merge`, for the basis under the key of the configuration. The last loop
writes the filter terms into the table that the configuration refers to. -/
def merge (env : Env) (obj : Container) (basis : Option Obj) (heap : Heap) (terms : Terms)
    (cfgname : Option Str) (pltname : Str) : Except BakeError (Heap × Terms × Config) := do
  let base := configBase env obj basis
  let st ← obj.blocks.foldlM (mergeBlock env)
    ⟨heap, startTerms terms base cfgname pltname, base⟩
  match st.cfg.terms with
  | none => throw .indexNil
  | some addr =>
      return (Function.update st.heap addr ((st.heap addr).overlay st.terms), st.terms,
        ⟨st.cfg, cfgname, pltname⟩)

abbrev Configs := List (Str × Config)

/-- What `collapse` holds between two calls of `merge`. -/
structure CollapseState where
  heap : Heap
  terms : Terms
  result : Configs

/-- A call of `merge` that stores its result. -/
def collapseStep (env : Env) (obj : Container) (basis : Configs) (cfgname : Option Str)
    (st : CollapseState) (pltname : Str) : Except BakeError CollapseState := do
  let key := configKey cfgname pltname
  let (heap, terms, cfg) ←
    merge env obj ((basis.lookup key).map Config.toObj) st.heap st.terms cfgname pltname
  return ⟨heap, terms, assign key cfg st.result⟩

def pltnames (platforms : List Str) : List Str :=
  native :: platforms.filter (· ≠ native)

/-- One round of the loop over the configuration names: the filter terms are
copied for the name and shared by its platforms. -/
def collapseName (env : Env) (obj : Container) (basis : Configs) (platforms : List Str)
    (terms : Terms) (st : CollapseState) (cfgname : Str) : Except BakeError CollapseState :=
  (pltnames platforms).foldlM (collapseStep env obj basis (some cfgname)) { st with terms }

/-- The names in `sln.configurations`. -/
def Container.configurations (sln : Container) : Option (List Str) :=
  (sln.fields .configurations).map Tbl.arr

/-- The names in `sln.platforms or {}`. -/
def Container.platformnames (sln : Container) : List Str :=
  ((sln.fields .platforms).getD Tbl.empty).arr

/-- `collapse`. The lists of configurations and platforms are those of the
solution `sln`. -/
def collapse (env : Env) (sln obj : Container) (basis : Configs) (heap : Heap) :
    Except BakeError (Heap × Configs) := do
  match sln.configurations with
  | none => throw .indexNil
  | some configurations =>
      let root ← collapseStep env obj basis none ⟨heap, getactiveterms env, []⟩ native
      let st ← configurations.foldlM
        (collapseName env obj basis sln.platformnames root.terms) root
      return (st.heap, st.result)

/-- The heap that the calls of `configuration` leave. -/
def initialHeap (blks : List Block) : Heap := fun addr =>
  ((blks.find? (·.addr = addr)).map fun blk => Terms.ofWords blk.words).getD (Terms.ofWords [])

/-- The two calls of `collapse` that bake a project. -/
def collapseBoth (env : Env) (sln prj : Container) (heap : Heap) :
    Except BakeError (Heap × Configs) := do
  let (heap, basis) ← collapse env sln sln [] heap
  collapse env sln prj basis heap

open FoldRun

section MergeBlock

variable {env : Env} {st st' : MergeState} {blk : Block}

/-- What a round of the loop does: a block that does not match is skipped. -/
theorem mergeBlock_eq_ok :
    mergeBlock env st blk = .ok st' ↔
      (iskeywordsmatch env.ord blk.keywords st.terms = .ok true ∧
          st' = mergeMatching st blk) ∨
        (iskeywordsmatch env.ord blk.keywords st.terms = .ok false ∧ st' = st) := by
  rw [mergeBlock, bind_eq_ok]
  constructor
  · rintro ⟨b, hb, h⟩
    cases b with
    | true => exact Or.inl ⟨hb, (Except.ok.inj h).symm⟩
    | false => exact Or.inr ⟨hb, (Except.ok.inj h).symm⟩
  · rintro (⟨hb, rfl⟩ | ⟨hb, rfl⟩)
    · exact ⟨true, hb, rfl⟩
    · exact ⟨false, hb, rfl⟩

/-- What a block that matches does: its settings are merged, and the kind is
entered when there is one and the table of the block has none. -/
theorem mergeMatching_cases (st : MergeState) (blk : Block) :
    (∃ kind, (mergeobject st.cfg blk.obj).kind = some kind ∧
        (st.heap blk.addr).kind = none ∧
        mergeMatching st blk =
          { st with cfg := mergeobject st.cfg blk.obj }.setKind blk.addr kind) ∨
      (((mergeobject st.cfg blk.obj).kind = none ∨ (st.heap blk.addr).kind ≠ none) ∧
        mergeMatching st blk = { st with cfg := mergeobject st.cfg blk.obj }) := by
  rw [mergeMatching]
  cases hk : (mergeobject st.cfg blk.obj).kind with
  | none => exact Or.inr ⟨Or.inl rfl, by simp⟩
  | some kind =>
      cases hh : (st.heap blk.addr).kind with
      | none => exact Or.inl ⟨kind, rfl, rfl, by simp⟩
      | some k => exact Or.inr ⟨Or.inr (by simp), by simp⟩

theorem setKind_heap_kind (st : MergeState) (addr : ℕ) (kind : Str) (a : ℕ) :
    ((st.setKind addr kind).heap a).kind =
      if a = addr then some (Str.lower kind) else (st.heap a).kind := by
  by_cases h : a = addr
  · subst h
    simp [MergeState.setKind]
  · simp [MergeState.setKind, h]

theorem mergeMatching_heap_of_ne (st : MergeState) (blk : Block) {a : ℕ} (h : a ≠ blk.addr) :
    (mergeMatching st blk).heap a = st.heap a := by
  rcases mergeMatching_cases st blk with ⟨kind, -, -, heq⟩ | ⟨-, heq⟩
  · rw [heq]
    exact Function.update_of_ne h _ _
  · rw [heq]

theorem mergeMatching_cfg (st : MergeState) (blk : Block) :
    (mergeMatching st blk).cfg = mergeobject st.cfg blk.obj := by
  rcases mergeMatching_cases st blk with ⟨kind, -, -, heq⟩ | ⟨-, heq⟩
  · rw [heq]
    rfl
  · rw [heq]

end MergeBlock

section Runs

variable {env : Env} {obj : Container}

/-- What a merge does: it goes through the blocks from the base, and writes the
filter terms into the table that it ends with. -/
theorem merge_eq_ok {basis : Option Obj} {heap h : Heap} {terms t : Terms}
    {cfgname : Option Str} {pltname : Str} {cfg : Config} :
    merge env obj basis heap terms cfgname pltname = .ok (h, t, cfg) ↔
      ∃ st addr, obj.blocks.foldlM (mergeBlock env)
          ⟨heap, startTerms terms (configBase env obj basis) cfgname pltname,
            configBase env obj basis⟩ = .ok st ∧
        st.cfg.terms = some addr ∧
        h = Function.update st.heap addr ((st.heap addr).overlay st.terms) ∧
        t = st.terms ∧ cfg = ⟨st.cfg, cfgname, pltname⟩ := by
  rw [merge, bind_eq_ok]
  constructor
  · rintro ⟨st, hst, h⟩
    cases ha : st.cfg.terms with
    | none =>
        rw [ha] at h
        cases h
    | some addr =>
        rw [ha] at h
        cases h
        exact ⟨st, addr, hst, ha, rfl, rfl, rfl⟩
  · rintro ⟨st, addr, hst, ha, rfl, rfl, rfl⟩
    refine ⟨st, hst, ?_⟩
    rw [ha]
    rfl

/-- What a step of `collapse` does: it merges a pair and stores the result. -/
theorem collapseStep_eq_ok {basis : Configs} {cfgname : Option Str} {pltname : Str}
    {st st' : CollapseState} :
    collapseStep env obj basis cfgname st pltname = .ok st' ↔
      ∃ h t cfg, merge env obj ((basis.lookup (configKey cfgname pltname)).map Config.toObj)
          st.heap st.terms cfgname pltname = .ok (h, t, cfg) ∧
        st' = ⟨h, t, assign (configKey cfgname pltname) cfg st.result⟩ := by
  rw [collapseStep, bind_eq_ok]
  constructor
  · rintro ⟨⟨h, t, cfg⟩, hm, heq⟩
    cases heq
    exact ⟨h, t, cfg, hm, rfl⟩
  · rintro ⟨h, t, cfg, hm, rfl⟩
    exact ⟨⟨h, t, cfg⟩, hm, rfl⟩

/-- What `collapse` does: it merges the root, and then the pairs. -/
theorem collapse_eq_ok {sln : Container} {basis : Configs} {heap h : Heap} {result : Configs} :
    collapse env sln obj basis heap = .ok (h, result) ↔
      ∃ configurations root st, sln.configurations = some configurations ∧
        collapseStep env obj basis none ⟨heap, getactiveterms env, []⟩ native = .ok root ∧
        configurations.foldlM
          (collapseName env obj basis sln.platformnames root.terms) root = .ok st ∧
        st.heap = h ∧ st.result = result := by
  rw [collapse]
  cases hc : sln.configurations with
  | none =>
      constructor
      · intro h
        cases h
      · rintro ⟨configurations, root, st, h, -⟩
        cases h
  | some configurations =>
      constructor
      · intro heq
        obtain ⟨root, hroot, heq⟩ := bind_eq_ok.mp heq
        obtain ⟨st, hst, heq⟩ := bind_eq_ok.mp heq
        cases heq
        exact ⟨configurations, root, st, rfl, hroot, hst, rfl, rfl⟩
      · rintro ⟨configurations', root, st, h, hroot, hst, rfl, rfl⟩
        obtain rfl := Option.some.inj h
        exact bind_eq_ok.mpr ⟨root, hroot, bind_eq_ok.mpr ⟨st, hst, rfl⟩⟩

/-- What holds of every result of `merge` holds of every stored configuration. -/
theorem collapse_forall {Q : Str → Config → Prop} {sln : Container} {basis : Configs}
    (hQ : ∀ heap terms c p h t cfg,
      merge env obj ((basis.lookup (configKey c p)).map Config.toObj) heap terms c p =
        .ok (h, t, cfg) → Q (configKey c p) cfg)
    {heap h : Heap} {result : Configs}
    (hrun : collapse env sln obj basis heap = .ok (h, result)) : ∀ e ∈ result, Q e.1 e.2 := by
  have hstep : ∀ (c : Option Str) (s : CollapseState) (p : Str) (s' : CollapseState),
      (∀ e ∈ s.result, Q e.1 e.2) → collapseStep env obj basis c s p = .ok s' →
      ∀ e ∈ s'.result, Q e.1 e.2 := by
    intro c s p s' hs hstep e he
    obtain ⟨g, t, cfg, hm, rfl⟩ := collapseStep_eq_ok.mp hstep
    rcases mem_of_mem_assign he with rfl | he
    · exact hQ _ _ _ _ _ _ _ hm
    · exact hs e he
  obtain ⟨cs, root, st, -, hroot, hst, -, rfl⟩ := collapse_eq_ok.mp hrun
  refine foldlM_invariant (d := []) (P := fun _ _ => True)
    (I := fun _ (s : CollapseState) => ∀ e ∈ s.result, Q e.1 e.2) ?_
    (hstep none _ native root (by simp) hroot) (along_of_forall (fun _ _ => trivial) _ _) hst
  intro done s c s' hs _ hname
  exact foldlM_invariant (d := []) (P := fun _ _ => True) (s := { s with terms := root.terms })
    (I := fun _ (s : CollapseState) => ∀ e ∈ s.result, Q e.1 e.2)
    (fun done s p s' hs _ h => hstep (some c) s p s' hs h) hs
    (along_of_forall (fun _ _ => trivial) _ _) hname

end Runs

end Puremake
