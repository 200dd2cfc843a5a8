import Puremake.Bake.Lists

/-!
# The merges of a run

`collapse` merges the blocks that match for every configuration. The run is recorded here together
with all its merges: the key, the blocks that matched, and the configuration that they gave.

A configuration refers to the table of the block that it ended with. Every merge that ends with a
block writes its filter terms into the table of this block, over what an earlier one has written.
So after `collapse` the table has the name and the platform of the configuration that was merged
last among those that ended with the block. The words of the block itself remain where the active
options do not reach, and the kind stays that was entered when the block was merged.
-/

namespace Puremake

open FoldRun

/-- The blocks that match in the loop of `merge`, from some state on. -/
def matching (env : Env) : MergeState → List Block → List Block
  | _, [] => []
  | st, blk :: blks =>
    match iskeywordsmatch env.ord blk.keywords st.terms with
    | .ok true => blk :: matching env (mergeMatching st blk) blks
    | _ => matching env st blks

/-- A merge of `collapse`: the key, the blocks that matched, and the configuration. -/
structure Merge where
  key : Str
  blocks : List Block
  cfg : Config

/-- A step of `collapse` that enters its merge in a list. -/
def recordStep (env : Env) (obj : Container) (basis : Configs) (cfgname : Option Str)
    (st : CollapseState × List Merge) (pltname : Str) :
    Except BakeError (CollapseState × List Merge) := do
  let key := configKey cfgname pltname
  let below := (basis.lookup key).map Config.toObj
  let base := configBase env obj below
  let (heap, terms, cfg) ← merge env obj below st.1.heap st.1.terms cfgname pltname
  let blocks :=
    matching env ⟨st.1.heap, startTerms st.1.terms base cfgname pltname, base⟩ obj.blocks
  return (⟨heap, terms, assign key cfg st.1.result⟩, st.2 ++ [⟨key, blocks, cfg⟩])

/-- `collapse` with the list of all its merges, in their order. -/
def record (env : Env) (sln obj : Container) (basis : Configs) (heap : Heap) :
    Except BakeError (CollapseState × List Merge) := do
  match sln.configurations with
  | none => throw .indexNil
  | some configurations =>
      let root ← recordStep env obj basis none (⟨heap, getactiveterms env, []⟩, []) native
      configurations.foldlM (fun st cfgname =>
        (pltnames sln.platformnames).foldlM (recordStep env obj basis (some cfgname))
          ({ st.1 with terms := root.1.terms }, st.2)) root

def lastMerge (merges : List Merge) (key : Str) : Option Merge :=
  merges.reverse.find? fun m => m.key = key

/-- The configuration that was merged last of those that ended with a block. -/
def lastEnding (merges : List Merge) (addr : ℕ) : Option Config :=
  (merges.reverse.find? fun m => m.cfg.terms = some addr).map Merge.cfg

/-- A table of terms into which a configuration has written its own, but for the kind. -/
def writtenBy (env : Env) (before : Terms) (cfg : Config) : Terms :=
  { before.overlay (getactiveterms env) with
    config := some (Str.lower (cfg.name.getD []))
    platform := some (Str.lower cfg.platform) }

def SameButKind (t u : Terms) : Prop := { t with kind := none } = { u with kind := none }

section Kinds

variable {env : Env} {t u v w : Terms}

theorem sameButKind_iff : SameButKind t u ↔ t.words = u.words ∧ t.action = u.action ∧
    t.os = u.os ∧ t.config = u.config ∧ t.platform = u.platform ∧ t.required = u.required := by
  simp [SameButKind]

theorem SameButKind.trans (h : SameButKind t u) (h' : SameButKind u v) : SameButKind t v :=
  Eq.trans h h'

theorem SameButKind.overlay (h : SameButKind t u) (h' : SameButKind v w) :
    SameButKind (t.overlay v) (u.overlay w) := by
  obtain ⟨hwords, haction, hos, hconfig, hplatform, hrequired⟩ := sameButKind_iff.mp h
  obtain ⟨hwords', haction', hos', hconfig', hplatform', hrequired'⟩ := sameButKind_iff.mp h'
  simp only [SameButKind, Terms.overlay, hwords, haction, hos, hconfig, hplatform, hrequired,
    hwords', haction', hos', hconfig', hplatform', hrequired']

variable {st st' : MergeState} {blk : Block}

theorem mergeBlock_sameButKind (h : mergeBlock env st blk = .ok st') :
    (∀ a, SameButKind (st'.heap a) (st.heap a)) ∧ SameButKind st'.terms st.terms := by
  rcases mergeBlock_eq_ok.mp h with ⟨-, rfl⟩ | ⟨-, rfl⟩
  · rcases mergeMatching_cases st blk with ⟨kind, -, -, heq⟩ | ⟨-, heq⟩
    · rw [heq]
      refine ⟨fun a => ?_, rfl⟩
      by_cases ha : a = blk.addr
      · subst ha
        simp [SameButKind, MergeState.setKind]
      · simp [SameButKind, MergeState.setKind, ha]
    · rw [heq]
      exact ⟨fun _ => rfl, rfl⟩
  · exact ⟨fun _ => rfl, rfl⟩

theorem mergeBlocks_sameButKind {blks : List Block}
    (h : blks.foldlM (mergeBlock env) st = .ok st') :
    (∀ a, SameButKind (st'.heap a) (st.heap a)) ∧ SameButKind st'.terms st.terms := by
  refine foldlM_invariant (d := []) (P := fun _ _ => True)
    (I := fun _ (s : MergeState) =>
      (∀ a, SameButKind (s.heap a) (st.heap a)) ∧ SameButKind s.terms st.terms)
    (fun done s blk s' hs _ hstep => ?_) ⟨fun _ => rfl, rfl⟩
    (along_of_forall (fun _ _ => trivial) _ _) h
  obtain ⟨hheap, hterms⟩ := mergeBlock_sameButKind hstep
  exact ⟨fun a => (hheap a).trans (hs.1 a), hterms.trans hs.2⟩

def Active (env : Env) (terms : Terms) : Prop :=
  ∃ config platform, SameButKind terms { getactiveterms env with config, platform }

/-- What a merge writes: the table that the configuration refers to gets its terms, and the
others keep theirs, but for the kinds. -/
theorem merge_tables {obj : Container} {basis : Option Obj} {heap h : Heap} {terms t : Terms}
    {c : Option Str} {p : Str} {cfg : Config} (hactive : Active env terms)
    (hmerge : merge env obj basis heap terms c p = .ok (h, t, cfg)) :
    Active env t ∧ ∃ addr, cfg.terms = some addr ∧
      SameButKind (h addr) (writtenBy env (heap addr) cfg) ∧
      ∀ a ≠ addr, SameButKind (h a) (heap a) := by
  obtain ⟨st, addr, hblocks, haddr, rfl, rfl, rfl⟩ := merge_eq_ok.mp hmerge
  obtain ⟨hheap, hterms⟩ := mergeBlocks_sameButKind hblocks
  obtain ⟨config, platform, hsame⟩ := hactive
  have hstart : SameButKind st.terms { getactiveterms env with
      config := some (Str.lower (c.getD [])), platform := some (Str.lower p) } := by
    refine hterms.trans ?_
    obtain ⟨hwords, haction, hos, -, -, hrequired⟩ := sameButKind_iff.mp hsame
    simp only [SameButKind, startTerms, hwords, haction, hos, hrequired]
  refine ⟨⟨_, _, hstart⟩, addr, haddr, ?_, fun a ha => ?_⟩
  · rw [Function.update_self]
    exact ((hheap addr).overlay hstart).trans rfl
  · rw [Function.update_of_ne ha]
    exact hheap a

end Kinds

section Written

variable {env : Env} {before t : Terms} {cfg cfg' : Config}

/-- What a configuration writes hides what another one has written. -/
theorem writtenBy_of_writtenBy (h : SameButKind t (writtenBy env before cfg)) :
    SameButKind (writtenBy env t cfg') (writtenBy env before cfg') := by
  obtain ⟨hwords, -, -, -, -, hrequired⟩ := sameButKind_iff.mp h
  simp only [SameButKind, writtenBy, Terms.overlay, hwords, hrequired, List.drop_left]
  simp [getactiveterms]

theorem writtenBy_congr (h : SameButKind t before) :
    SameButKind (writtenBy env t cfg) (writtenBy env before cfg) := by
  obtain ⟨hwords, -, -, -, -, hrequired⟩ := sameButKind_iff.mp h
  simp [SameButKind, writtenBy, Terms.overlay, getactiveterms, hwords, hrequired]

end Written

section Matching

variable {env : Env}

theorem fields_of_foldlM {blks : List Block} {st st' : MergeState}
    (h : blks.foldlM (mergeBlock env) st = .ok st') :
    st'.cfg.fields =
      (matching env st blks).foldl (fun cfg blk => mergefields cfg blk.fields) st.cfg.fields := by
  induction blks generalizing st with
  | nil =>
      obtain rfl := Except.ok.inj h
      rfl
  | cons blk blks ih =>
      obtain ⟨mid, hmid, hrest⟩ := foldlM_cons_eq_ok.mp h
      rcases mergeBlock_eq_ok.mp hmid with ⟨hmatch, rfl⟩ | ⟨hmatch, rfl⟩
      · rw [ih hrest, matching, hmatch, mergeMatching_cfg]
        rfl
      · rw [ih hrest, matching, hmatch]

theorem matching_sublist (st : MergeState) (blks : List Block) :
    (matching env st blks).Sublist blks := by
  induction blks generalizing st with
  | nil => exact List.Sublist.slnil
  | cons blk blks ih =>
      rw [matching]
      split
      · exact (ih _).cons_cons blk
      · exact (ih _).cons blk

end Matching

section Endings

variable {env : Env} {obj : Container} {basis : Configs} {merges : List Merge} {m : Merge}
  {addr : ℕ} {key : Str}

theorem lastEnding_append : lastEnding (merges ++ [m]) addr =
    if m.cfg.terms = some addr then some m.cfg else lastEnding merges addr := by
  rw [lastEnding, List.reverse_append, List.reverse_singleton, List.singleton_append,
    List.find?_cons]
  by_cases h : m.cfg.terms = some addr
  · simp [h]
  · simp [h, lastEnding]

theorem lastMerge_append : lastMerge (merges ++ [m]) key =
    if m.key = key then some m else lastMerge merges key := by
  rw [lastMerge, List.reverse_append, List.reverse_singleton, List.singleton_append,
    List.find?_cons]
  by_cases h : m.key = key
  · simp [h]
  · simp [h, lastMerge]

theorem mem_of_lastMerge (h : lastMerge merges key = some m) : m ∈ merges ∧ m.key = key :=
  ⟨List.mem_reverse.mp (List.mem_of_find?_eq_some h), by simpa using List.find?_some h⟩

theorem exists_lastEnding (hmem : m ∈ merges) (haddr : m.cfg.terms = some addr) :
    ∃ last, lastEnding merges addr = some last := by
  rw [← Option.isSome_iff_exists, lastEnding, Option.isSome_map, List.find?_isSome]
  exact ⟨m, List.mem_reverse.mpr hmem, by simpa using haddr⟩

def tableAfter (env : Env) (before : Terms) (merges : List Merge) (addr : ℕ) : Terms :=
  ((lastEnding merges addr).map (writtenBy env before)).getD before

/-- A merge on a basis: its settings are those of the blocks that matched. -/
structure Merge.On (env : Env) (obj : Container) (basis : Configs) (m : Merge) : Prop where
  sublist : m.blocks.Sublist obj.blocks
  fields : m.cfg.fields = mergedFields env obj ((basis.lookup m.key).map Config.toObj) m.blocks
  terms : ∃ addr, m.cfg.terms = some addr

structure Recorded (env : Env) (obj : Container) (basis : Configs) (heap : Heap)
    (st : CollapseState × List Merge) : Prop where
  active : Active env st.1.terms
  table : ∀ addr, SameButKind (st.1.heap addr) (tableAfter env (heap addr) st.2 addr)
  merges : ∀ m ∈ st.2, m.On env obj basis
  nodup : (st.1.result.map Prod.fst).Nodup
  lookup : ∀ key, st.1.result.lookup key = (lastMerge st.2 key).map Merge.cfg

theorem Recorded.step {heap : Heap} {c : Option Str} {p : Str} {st st' : CollapseState × List Merge}
    (hst : Recorded env obj basis heap st) (hstep : recordStep env obj basis c st p = .ok st') :
    Recorded env obj basis heap st' := by
  obtain ⟨⟨h, t, cfg⟩, hmerge, hst'⟩ := bind_eq_ok.mp hstep
  obtain rfl := Except.ok.inj hst'
  obtain ⟨hactive, addr, haddr, htable, hothers⟩ := merge_tables hst.active hmerge
  refine ⟨hactive, fun a => ?_, fun m hm => ?_, nodup_keys_assign hst.nodup, fun key => ?_⟩
  · rw [tableAfter, lastEnding_append]
    by_cases ha : a = addr
    · subst ha
      rw [if_pos haddr]
      refine htable.trans ?_
      have hbefore := hst.table a
      rw [tableAfter] at hbefore
      cases hlast : lastEnding st.2 a with
      | none =>
          rw [hlast] at hbefore
          exact writtenBy_congr hbefore
      | some last =>
          rw [hlast] at hbefore
          exact writtenBy_of_writtenBy hbefore
    · rw [if_neg fun h => ha (Option.some.inj (h.symm.trans haddr))]
      exact (hothers a ha).trans (hst.table a)
  · rcases List.mem_append.mp hm with hm | hm
    · exact hst.merges m hm
    · obtain rfl := List.mem_singleton.mp hm
      refine ⟨matching_sublist _ _, ?_, addr, haddr⟩
      obtain ⟨_, _, hblocks, -, -, -, rfl⟩ := merge_eq_ok.mp hmerge
      exact fields_of_foldlM hblocks
  · rw [lastMerge_append]
    by_cases hkey : configKey c p = key
    · subst hkey
      rw [if_pos rfl, lookup_assign_self]
      rfl
    · rw [if_neg hkey, lookup_assign_of_ne (Ne.symm hkey)]
      exact hst.lookup key

theorem active_getactiveterms : Active env (getactiveterms env) := ⟨_, _, rfl⟩

theorem recorded_record {sln : Container} {heap : Heap} {st : CollapseState × List Merge}
    (h : record env sln obj basis heap = .ok st) : Recorded env obj basis heap st := by
  rw [record] at h
  cases hcs : sln.configurations with
  | none =>
      rw [hcs] at h
      cases h
  | some cs =>
      rw [hcs] at h
      obtain ⟨root, hroot, hrun⟩ := bind_eq_ok.mp h
      have hnothing : Recorded env obj basis heap (⟨heap, getactiveterms env, []⟩, []) :=
        ⟨active_getactiveterms, fun _ => rfl, by simp, by simp, fun _ => rfl⟩
      have hrecorded : Recorded env obj basis heap root := hnothing.step hroot
      refine foldlM_invariant (d := []) (P := fun _ _ => True)
        (I := fun _ s => Recorded env obj basis heap s) (fun done s c s' hs _ hname => ?_) hrecorded
        (along_of_forall (fun _ _ => trivial) _ _) hrun
      exact foldlM_invariant (d := []) (P := fun _ _ => True)
        (I := fun _ s => Recorded env obj basis heap s)
        (fun done s p s' hs _ hstep => hs.step hstep)
        (s := ({ s.1 with terms := root.1.terms }, s.2))
        ⟨hrecorded.active, hs.table, hs.merges, hs.nodup, hs.lookup⟩
        (along_of_forall (fun _ _ => trivial) _ _) hname

theorem Recorded.exists_merge {heap : Heap} {st : CollapseState × List Merge}
    (h : Recorded env obj basis heap st) {e : Str × Config} (he : e ∈ st.1.result) :
    ∃ m, lastMerge st.2 e.1 = some m ∧ m ∈ st.2 ∧ m.key = e.1 ∧ m.cfg = e.2 ∧
      m.On env obj basis := by
  have hlookup := (lookup_eq_some_iff_mem h.nodup).mpr he
  rw [h.lookup] at hlookup
  obtain ⟨m, hlast, hcfg⟩ := Option.map_eq_some_iff.mp hlookup
  obtain ⟨hmem, hkey⟩ := mem_of_lastMerge hlast
  exact ⟨m, hlast, hmem, hkey, hcfg, h.merges m hmem⟩

theorem exists_record {sln : Container} {heap g : Heap} {cfgs : Configs}
    (h : collapse env sln obj basis heap = .ok (g, cfgs)) :
    ∃ st, record env sln obj basis heap = .ok st ∧ st.1.heap = g ∧ st.1.result = cfgs := by
  have hstep : ∀ (c : Option Str) (s : CollapseState) (r : CollapseState × List Merge)
      (p : Str) (s' : CollapseState), r.1 = s → collapseStep env obj basis c s p = .ok s' →
      ∃ r', recordStep env obj basis c r p = .ok r' ∧ r'.1 = s' := by
    rintro c s r p s' rfl hs'
    obtain ⟨h, t, cfg, hmerge, rfl⟩ := collapseStep_eq_ok.mp hs'
    exact ⟨_, bind_eq_ok.mpr ⟨(h, t, cfg), hmerge, rfl⟩, rfl⟩
  obtain ⟨cs, root, st, hcs, hroot, hrun, rfl, rfl⟩ := collapse_eq_ok.mp h
  obtain ⟨root', hroot', rfl⟩ := hstep none _ (_, []) native root rfl hroot
  obtain ⟨st', hst', rfl⟩ := foldlM_simulation (P := fun _ _ => True)
    (R := fun _ (s : CollapseState) (r : CollapseState × List Merge) => r.1 = s)
    (g := fun st cfgname => (pltnames sln.platformnames).foldlM
      (recordStep env obj basis (some cfgname)) ({ st.1 with terms := root'.1.terms }, st.2))
    (fun s r c xs s' hr _ hname => foldlM_simulation (P := fun _ _ => True)
      (R := fun _ (s : CollapseState) (r : CollapseState × List Merge) => r.1 = s)
      (fun s r p xs s' hr _ h => hstep (some c) s r p s' hr h) (hr ▸ rfl)
      (along_of_forall (fun _ _ => trivial) _ _) hname) rfl
    (along_of_forall (fun _ _ => trivial) _ _) hrun
  refine ⟨st', ?_, rfl, rfl⟩
  rw [record, hcs]
  exact bind_eq_ok.mpr ⟨root', hroot', hst'⟩

end Endings

end Puremake
