import Puremake.Bake.Lockstep

/-!
# Are configurations baked independently?

Two things are passed from one `merge` of a project to the next: the filter
terms, which the platforms of a configuration share, and the tables of terms of
the blocks, which keep the kind that was entered last. `reference` is the merge
of a pair from the state that the root configuration leaves, which every list
of configurations and platforms has in common.

A run is quiet when no merge meets a kind that another pair left behind in
either place and that it would not have put there itself. In a quiet run with
distinct keys every stored configuration is the one that the reference gives,
so two quiet runs store the same settings for a pair that they share. The lists
`configurations` and `platforms` are copied from the solution into every
configuration, and differ when the lists do.
-/

namespace Puremake

open FoldRun

def Terms.surroundings (t : Terms) : Terms :=
  { t with config := none, platform := none, kind := none }

/-- When the block matches and a kind is set, the table of the block holds a kind
exactly if it held one in `heap₀`, or the kind is in the filter terms already. -/
def Fresh (env : Env) (heap₀ : Heap) (st : MergeState) (blk : Block) : Prop :=
  iskeywordsmatch env.ord blk.keywords st.terms = .ok true →
    ∀ kind ∈ (mergeobject st.cfg blk.obj).kind,
      (st.heap blk.addr).kind.isSome = (heap₀ blk.addr).kind.isSome ∨
        st.terms.kind = some (Str.lower kind)

section Quiet

variable (env : Env) (obj : Container) (basis : Configs)

def pairBase (cfgname pltname : Str) : Obj :=
  configBase env obj ((basis.lookup (configKey (some cfgname) pltname)).map Config.toObj)

/-- The merge of a pair from the state that the root configuration leaves. -/
def reference (root : CollapseState) (cfgname pltname : Str) :
    Except BakeError (Heap × Terms × Config) :=
  merge env obj ((basis.lookup (configKey (some cfgname) pltname)).map Config.toObj) root.heap
    root.terms (some cfgname) pltname

/-- The merge of a pair starts from the kind that the root left in the filter
terms, or from a kind of its own, and finds no kind of another pair in the table
of a block. -/
def QuietStep (root : CollapseState) (cfgname : Str) (st : CollapseState) (pltname : Str) :
    Prop :=
  ((pairBase env obj basis cfgname pltname).kind = none → st.terms.kind = root.terms.kind) ∧
    Along (mergeBlock env) (Fresh env root.heap)
      ⟨st.heap, startTerms st.terms (pairBase env obj basis cfgname pltname) (some cfgname)
        pltname, pairBase env obj basis cfgname pltname⟩ obj.blocks

/-- Every platform of a configuration is merged quietly. -/
def QuietName (platforms : List Str) (root st : CollapseState) (cfgname : Str) : Prop :=
  Along (collapseStep env obj basis (some cfgname)) (QuietStep env obj basis root cfgname)
    { st with terms := root.terms } (pltnames platforms)

/-- Every merge of a run of `collapse` is quiet. -/
def Quiet (sln : Container) (heap : Heap) : Prop :=
  match collapseStep env obj basis none ⟨heap, getactiveterms env, []⟩ native with
  | .ok root =>
      Along (collapseName env obj basis sln.platformnames root.terms)
        (QuietName env obj basis sln.platformnames root) root (sln.configurations.getD [])
  | .error _ => True

end Quiet

/-- Both calls of `collapse` for a project are quiet. -/
def QuietBoth (env : Env) (sln prj : Container) (heap : Heap) : Prop :=
  Quiet env sln [] sln heap ∧
    match collapse env sln sln [] heap with
    | .ok (h, basis) => Quiet env prj basis sln h
    | .error _ => True

def Container.withLists (sln : Container) (configurations platforms : List Str) : Container :=
  { sln with
    fields := (sln.fields.set .configurations ⟨configurations, []⟩).set .platforms
      ⟨platforms, []⟩ }

instance (env : Env) (heap₀ : Heap) (st : MergeState) (blk : Block) :
    Decidable (Fresh env heap₀ st blk) := by
  unfold Fresh
  infer_instance

instance (env : Env) (obj : Container) (basis : Configs) (root : CollapseState) (c : Str)
    (st : CollapseState) (p : Str) : Decidable (QuietStep env obj basis root c st p) := by
  unfold QuietStep
  infer_instance

instance (env : Env) (obj : Container) (basis : Configs) (ps : List Str)
    (root st : CollapseState) (c : Str) : Decidable (QuietName env obj basis ps root st c) := by
  unfold QuietName
  infer_instance

instance (env : Env) (obj : Container) (basis : Configs) (sln : Container) (heap : Heap) :
    Decidable (Quiet env obj basis sln heap) := by
  unfold Quiet
  split <;> infer_instance

instance (env : Env) (sln prj : Container) (heap : Heap) :
    Decidable (QuietBoth env sln prj heap) := by
  unfold QuietBoth
  have : Decidable (match collapse env sln sln [] heap with
      | .ok (h, basis) => Quiet env prj basis sln h
      | .error _ => True) := by
    split <;> infer_instance
  infer_instance

/-- The keys of the root and of the pairs of a list of configurations and a list
of platforms are distinct. -/
def KeysApart (configurations platforms : List Str) : Prop :=
  ∀ c ∈ configurations, ∀ p ∈ pltnames platforms, configKey (some c) p ≠ [] ∧
    ∀ c' ∈ configurations, ∀ p' ∈ pltnames platforms,
      configKey (some c) p = configKey (some c') p' → c = c' ∧ p = p'

instance (cs ps : List Str) : Decidable (KeysApart cs ps) := by
  unfold KeysApart
  infer_instance

section Merge

variable {env : Env} {obj : Container} {basis : Option Obj}

theorem mergeMatching_surroundings (st : MergeState) (blk : Block) :
    (mergeMatching st blk).terms.surroundings = st.terms.surroundings := by
  rcases mergeMatching_cases st blk with ⟨kind, -, -, heq⟩ | ⟨-, heq⟩
  · rw [heq]
    rfl
  · rw [heq]

theorem mergeBlocks_surroundings {blks : List Block} {st st' : MergeState}
    (h : blks.foldlM (mergeBlock env) st = .ok st') :
    st'.terms.surroundings = st.terms.surroundings := by
  refine foldlM_invariant (P := fun _ _ => True) (d := [])
    (I := fun _ s => s.terms.surroundings = st.terms.surroundings) ?_ rfl
    (along_of_forall (fun _ _ => trivial) _ _) h
  intro done s blk s' hs _ hstep
  rcases mergeBlock_eq_ok.mp hstep with ⟨-, rfl⟩ | ⟨-, rfl⟩
  · rw [mergeMatching_surroundings, hs]
  · exact hs

theorem merge_surroundings {heap h : Heap} {terms t : Terms} {cfgname : Option Str}
    {pltname : Str} {cfg : Config}
    (hm : merge env obj basis heap terms cfgname pltname = .ok (h, t, cfg)) :
    t.surroundings = terms.surroundings := by
  obtain ⟨st, addr, hst, -, -, rfl, -⟩ := merge_eq_ok.mp hm
  exact mergeBlocks_surroundings hst

/-- The filter terms of a merge only depend on the surroundings and, when the
base has no kind, on the kind that was there. -/
theorem startTerms_eq {t t₀ : Terms} {cfg : Obj} (h : t.surroundings = t₀.surroundings)
    (hkind : cfg.kind = none → t.kind = t₀.kind) (cfgname : Option Str) (pltname : Str) :
    startTerms t cfg cfgname pltname = startTerms t₀ cfg cfgname pltname := by
  simp only [Terms.surroundings, Terms.mk.injEq] at h
  obtain ⟨h₁, h₂, h₃, -, -, -, h₄⟩ := h
  rw [startTerms, startTerms, h₁, h₂, h₃, h₄]
  cases hk : cfg.kind with
  | none => rw [hkind hk]
  | some kind => rfl

/-- A block that is `Fresh` does the same in the run and in the reference. -/
theorem fresh_mergeMatching {heap₀ : Heap} {st st' : MergeState} {blk : Block}
    (hcfg : st.cfg = st'.cfg) (hterms : st.terms = st'.terms)
    (hheap : (st'.heap blk.addr).kind = (heap₀ blk.addr).kind)
    (hmatch : iskeywordsmatch env.ord blk.keywords st.terms = .ok true)
    (hfresh : Fresh env heap₀ st blk) :
    (mergeMatching st blk).cfg = (mergeMatching st' blk).cfg ∧
      (mergeMatching st blk).terms = (mergeMatching st' blk).terms := by
  refine ⟨by rw [mergeMatching_cfg, mergeMatching_cfg, hcfg], ?_⟩
  have hfresh := hfresh hmatch
  rw [← hheap] at hfresh
  rcases mergeMatching_cases st blk with ⟨kind, hk, hnone, heq⟩ | ⟨hskip, heq⟩
  · rcases mergeMatching_cases st' blk with ⟨kind', hk', hnone', heq'⟩ | ⟨hskip', heq'⟩
    · rw [hcfg, hk'] at hk
      obtain rfl := Option.some.inj hk
      rw [heq, heq']
      simp [MergeState.setKind, hterms]
    · rw [← hcfg, hk] at hskip'
      rcases hfresh kind hk with hsome | hsame
      · rw [hnone] at hsome
        simp at hskip'
        cases hs : (st'.heap blk.addr).kind with
        | none => exact absurd hs hskip'
        | some k => simp [hs] at hsome
      · rw [heq, heq', ← hterms]
        exact congrArg (fun k => { st.terms with kind := k }) hsame.symm
  · rcases mergeMatching_cases st' blk with ⟨kind', hk', hnone', heq'⟩ | ⟨-, heq'⟩
    · rw [← hcfg] at hk'
      rw [hk'] at hskip
      rcases hfresh kind' hk' with hsome | hsame
      · rw [hnone'] at hsome
        simp at hskip hsome
        exact absurd hsome hskip
      · rw [heq, heq', ← hterms]
        exact congrArg (fun k => { st.terms with kind := k }) hsame
    · rw [heq, heq']
      exact hterms

/-- A quiet merge gives what the same merge gives from the reference state. -/
theorem merge_quiet {heap heap₀ h : Heap} {terms terms₀ t : Terms} {cfgname : Option Str}
    {pltname : Str} {cfg : Config} (hsur : terms.surroundings = terms₀.surroundings)
    (hkind : (configBase env obj basis).kind = none → terms.kind = terms₀.kind)
    (hfresh : Along (mergeBlock env) (Fresh env heap₀)
      ⟨heap, startTerms terms (configBase env obj basis) cfgname pltname,
        configBase env obj basis⟩ obj.blocks)
    (hm : merge env obj basis heap terms cfgname pltname = .ok (h, t, cfg)) :
    ∃ h₀, merge env obj basis heap₀ terms₀ cfgname pltname = .ok (h₀, t, cfg) := by
  obtain ⟨st, addr, hst, haddr, rfl, rfl, rfl⟩ := merge_eq_ok.mp hm
  obtain ⟨st', hst', -, hcfg, hterms, -⟩ := foldlM_simulation (g := mergeBlock env)
    (t := ⟨heap₀, startTerms terms₀ (configBase env obj basis) cfgname pltname,
      configBase env obj basis⟩)
    (R := fun blks s s' => (blks.map Block.addr).Nodup ∧ s.cfg = s'.cfg ∧ s.terms = s'.terms ∧
      ∀ blk ∈ blks, (s'.heap blk.addr).kind = (heap₀ blk.addr).kind)
    (fun s s' blk blks s₁ hR hP hs => by
      obtain ⟨hnodup, hcfg, hterms, hheap⟩ := hR
      rw [List.map_cons, List.nodup_cons] at hnodup
      rcases mergeBlock_eq_ok.mp hs with ⟨hmatch, rfl⟩ | ⟨hmatch, rfl⟩
      · obtain ⟨hcfg', hterms'⟩ :=
          fresh_mergeMatching hcfg hterms (hheap blk (by simp)) hmatch hP
        rw [hterms] at hmatch
        refine ⟨_, mergeBlock_eq_ok.mpr (Or.inl ⟨hmatch, rfl⟩), hnodup.2, hcfg', hterms', ?_⟩
        intro b hb
        have hne : b.addr ≠ blk.addr := fun h =>
          hnodup.1 (h ▸ List.mem_map_of_mem hb)
        rw [mergeMatching_heap_of_ne s' blk hne]
        exact hheap b (by simp [hb])
      · rw [hterms] at hmatch
        exact ⟨s', mergeBlock_eq_ok.mpr (Or.inr ⟨hmatch, rfl⟩), hnodup.2, hcfg, hterms,
          fun b hb => hheap b (by simp [hb])⟩)
    ⟨obj.distinct, rfl, startTerms_eq hsur hkind cfgname pltname, fun _ _ => rfl⟩ hfresh hst
  exact ⟨_, merge_eq_ok.mpr ⟨st', addr, hst', by rw [← hcfg, haddr], rfl, hterms,
    by rw [hcfg]⟩⟩

end Merge

section Run

variable {env : Env} {obj : Container} {basis : Configs} {root : CollapseState}

/-- What is stored for a pair is the result of the reference merge. -/
def Stored (env : Env) (obj : Container) (basis : Configs) (root : CollapseState)
    (result : Configs) (cfgname pltname : Str) : Prop :=
  ∃ h t cfg, reference env obj basis root cfgname pltname = .ok (h, t, cfg) ∧
    result.lookup (configKey (some cfgname) pltname) = some cfg

theorem stored_congr {result result' : Configs} {c p : Str}
    (h : result'.lookup (configKey (some c) p) = result.lookup (configKey (some c) p))
    (hs : Stored env obj basis root result c p) :
    Stored env obj basis root result' c p := by
  obtain ⟨hp, t, cfg, href, hl⟩ := hs
  exact ⟨hp, t, cfg, href, h.trans hl⟩

theorem quietStep_stored {st st' : CollapseState} {c p : Str}
    (hsur : st.terms.surroundings = root.terms.surroundings)
    (hq : QuietStep env obj basis root c st p)
    (hstep : collapseStep env obj basis (some c) st p = .ok st') :
    st'.terms.surroundings = root.terms.surroundings ∧
      Stored env obj basis root st'.result c p ∧
      ∀ k, configKey (some c) p ≠ k → st'.result.lookup k = st.result.lookup k := by
  obtain ⟨h, t, cfg, hm, rfl⟩ := collapseStep_eq_ok.mp hstep
  obtain ⟨h₀, hm₀⟩ := merge_quiet hsur hq.1 hq.2 hm
  exact ⟨(merge_surroundings hm).trans hsur, ⟨h₀, t, cfg, hm₀, lookup_assign_self _ _ _⟩,
    fun k hk => lookup_assign_of_ne hk.symm _ _⟩

theorem quietName_stored {cs ps : List Str} (hapart : KeysApart cs ps) {c : Str}
    (hc : c ∈ cs) {st st' : CollapseState} (hq : QuietName env obj basis ps root st c)
    (hrun : collapseName env obj basis ps root.terms st c = .ok st') :
    (∀ p ∈ pltnames ps, Stored env obj basis root st'.result c p) ∧
      ∀ k, (∀ p ∈ pltnames ps, configKey (some c) p ≠ k) →
        st'.result.lookup k = st.result.lookup k := by
  have h := foldlM_invariant (d := [])
    (I := fun done s => s.terms.surroundings = root.terms.surroundings ∧
      (∀ p ∈ done, p ∈ pltnames ps ∧ Stored env obj basis root s.result c p) ∧
      ∀ k, (∀ p ∈ pltnames ps, configKey (some c) p ≠ k) →
        s.result.lookup k = st.result.lookup k)
    (fun done s p s' hI hP hstep => by
      obtain ⟨hsur, hdone, hkeep⟩ := hI
      obtain ⟨hsur', hstored, hkeep'⟩ := quietStep_stored hsur hP.2 hstep
      refine ⟨hsur', ?_, fun k hk => (hkeep' k (hk p hP.1)).trans (hkeep k hk)⟩
      intro p' hp'
      rcases List.mem_append.mp hp' with hp' | hp'
      · obtain ⟨hmem, hs⟩ := hdone p' hp'
        refine ⟨hmem, ?_⟩
        by_cases heq : configKey (some c) p = configKey (some c) p'
        · obtain ⟨-, rfl⟩ := (hapart c hc p hP.1).2 c hc p' hmem heq
          exact hstored
        · exact stored_congr (hkeep' _ heq) hs
      · obtain rfl := List.mem_singleton.mp hp'
        exact ⟨hP.1, hstored⟩)
    ⟨rfl, by simp, fun _ _ => rfl⟩ (Along.and_of_forall hq fun _ hp => hp) hrun
  exact ⟨fun p hp => (h.2.1 p hp).2, h.2.2⟩

/-- A quiet run of `collapse` with distinct keys stores what the reference gives
for every pair, and keeps the root. -/
theorem quiet_stored {sln : Container} {heap h : Heap} {result : Configs} {root : CollapseState}
    {cs : List Str} (hcs : sln.configurations = some cs)
    (hroot : collapseStep env obj basis none ⟨heap, getactiveterms env, []⟩ native = .ok root)
    (hapart : KeysApart cs sln.platformnames) (hq : Quiet env obj basis sln heap)
    (hrun : collapse env sln obj basis heap = .ok (h, result)) :
    (∀ c ∈ cs, ∀ p ∈ pltnames sln.platformnames, Stored env obj basis root result c p) ∧
      result.lookup [] = root.result.lookup [] := by
  obtain ⟨cs', root', st, hcs', hroot', hst, -, rfl⟩ := collapse_eq_ok.mp hrun
  rw [hcs, Option.some_inj] at hcs'
  subst hcs'
  rw [hroot] at hroot'
  obtain rfl := Except.ok.inj hroot'
  rw [Quiet, hroot, hcs] at hq
  have h := foldlM_invariant (d := [])
    (I := fun done s =>
      (∀ c ∈ done, c ∈ cs ∧ ∀ p ∈ pltnames sln.platformnames,
        Stored env obj basis root s.result c p) ∧
      s.result.lookup [] = root.result.lookup [])
    (fun done s c s' hI hP hstep => by
      obtain ⟨hdone, hkeep⟩ := hI
      obtain ⟨hstored, hkeep'⟩ := quietName_stored hapart hP.1 hP.2 hstep
      refine ⟨?_, (hkeep' [] fun p hp => (hapart c hP.1 p hp).1).trans hkeep⟩
      intro c' hc'
      rcases List.mem_append.mp hc' with hc' | hc'
      · obtain ⟨hmem, hs⟩ := hdone c' hc'
        refine ⟨hmem, fun p' hp' => ?_⟩
        by_cases hclash : ∃ p ∈ pltnames sln.platformnames,
            configKey (some c) p = configKey (some c') p'
        · obtain ⟨p, hp, heq⟩ := hclash
          obtain ⟨rfl, rfl⟩ := (hapart c hP.1 p hp).2 c' hmem p' hp' heq
          exact hstored p hp
        · exact stored_congr (hkeep' _ fun p hp heq => hclash ⟨p, hp, heq⟩) (hs p' hp')
      · obtain rfl := List.mem_singleton.mp hc'
        exact ⟨hP.1, hstored⟩)
    ⟨by simp, rfl⟩ (Along.and_of_forall hq fun _ hc => hc) hst
  exact ⟨fun c hc => (h.1 c hc).2, h.2⟩

end Run

section Frame

variable {env : Env} {obj : Container}

/-- A merge writes only to the tables of the blocks and to the one that its base
refers to. -/
theorem merge_heap_of_ne {basis : Option Obj} {a : ℕ} (hblocks : ∀ blk ∈ obj.blocks, blk.addr ≠ a)
    (hbasis : (configBase env obj basis).terms ≠ some a) {heap h : Heap} {terms t : Terms}
    {cfgname : Option Str} {pltname : Str} {cfg : Config}
    (hm : merge env obj basis heap terms cfgname pltname = .ok (h, t, cfg)) :
    h a = heap a := by
  obtain ⟨st, addr, hst, haddr, rfl, -, -⟩ := merge_eq_ok.mp hm
  have hrun := foldlM_invariant (d := []) (P := fun _ blk => blk.addr ≠ a ∧ True)
    (I := fun _ s => s.heap a = heap a ∧ s.cfg.terms ≠ some a)
    (fun done s blk s' hI hP hstep => by
      rcases mergeBlock_eq_ok.mp hstep with ⟨-, rfl⟩ | ⟨-, rfl⟩
      · refine ⟨(mergeMatching_heap_of_ne s blk hP.1.symm).trans hI.1, ?_⟩
        rw [mergeMatching_cfg]
        simpa [mergeobject, Block.obj] using hP.1
      · exact hI)
    ⟨rfl, hbasis⟩
    (Along.and_of_forall (along_of_forall (fun _ _ => trivial) _ _) hblocks) hst
  have hne : a ≠ addr := by
    rintro rfl
    exact hrun.2 haddr
  rw [Function.update_of_ne hne]
  exact hrun.1

/-- Collapsing a solution leaves the tables of other blocks alone. -/
theorem collapse_heap_of_ne {sln : Container} {a : ℕ}
    (hblocks : ∀ blk ∈ obj.blocks, blk.addr ≠ a) {heap h : Heap} {result : Configs}
    (hrun : collapse env sln obj [] heap = .ok (h, result)) : h a = heap a := by
  have hstep : ∀ (c : Option Str) (s : CollapseState) (p : Str) (s' : CollapseState),
      collapseStep env obj [] c s p = .ok s' → s'.heap a = s.heap a := by
    intro c s p s' hs
    obtain ⟨h', t, cfg, hm, rfl⟩ := collapseStep_eq_ok.mp hs
    exact merge_heap_of_ne hblocks (by simp [configBase, mergeobject, Container.obj, Obj.empty]) hm
  obtain ⟨cs, root, st, -, hroot, hst, rfl, -⟩ := collapse_eq_ok.mp hrun
  have hnames := foldlM_invariant (d := []) (P := fun _ _ => True)
    (I := fun _ s => s.heap a = root.heap a)
    (fun done s c s' hI _ hname => by
      refine Eq.trans ?_ hI
      exact foldlM_invariant (d := []) (P := fun _ _ => True)
        (I := fun _ s' => s'.heap a = s.heap a)
        (fun done s₁ p s₂ hI₁ _ hs => (hstep _ _ _ _ hs).trans hI₁) rfl
        (along_of_forall (fun _ _ => trivial) _ _) hname)
    rfl (along_of_forall (fun _ _ => trivial) _ _) hst
  exact hnames.trans (hstep _ _ _ _ hroot)

end Frame

section TwoRuns

variable {env : Env}

/-- The keys that two runs have in common: the root and the shared pairs. -/
def SharedKey (cs₁ ps₁ cs₂ ps₂ : List Str) (k : Str) : Prop :=
  k = [] ∨ ∃ c p, k = configKey (some c) p ∧ (c ∈ cs₁ ∧ p ∈ pltnames ps₁) ∧
    c ∈ cs₂ ∧ p ∈ pltnames ps₂

/-- Two quiet runs of `collapse` over the same blocks agree on the keys that they
share. -/
theorem collapse_agree {sln₁ sln₂ obj₁ obj₂ : Container} {basis₁ basis₂ : Configs}
    {heap₁ heap₂ h₁ h₂ : Heap} {r₁ r₂ : Configs} {cs₁ cs₂ : List Str}
    (hcs₁ : sln₁.configurations = some cs₁) (hcs₂ : sln₂.configurations = some cs₂)
    (hblocks : obj₁.blocks = obj₂.blocks) (hobj : AgreeOff obj₁.fields obj₂.fields)
    (hbasis : ∀ k, SharedKey cs₁ sln₁.platformnames cs₂ sln₂.platformnames k →
      Option.Rel Same ((basis₁.lookup k).map Config.toObj) ((basis₂.lookup k).map Config.toObj))
    (hheap : ∀ blk ∈ obj₁.blocks, (heap₁ blk.addr).kind = (heap₂ blk.addr).kind)
    (hrun₁ : collapse env sln₁ obj₁ basis₁ heap₁ = .ok (h₁, r₁))
    (hrun₂ : collapse env sln₂ obj₂ basis₂ heap₂ = .ok (h₂, r₂))
    (hq₁ : Quiet env obj₁ basis₁ sln₁ heap₁) (hq₂ : Quiet env obj₂ basis₂ sln₂ heap₂)
    (hk₁ : KeysApart cs₁ sln₁.platformnames) (hk₂ : KeysApart cs₂ sln₂.platformnames)
    {k : Str} (hk : SharedKey cs₁ sln₁.platformnames cs₂ sln₂.platformnames k) :
    ∃ cfg₁ cfg₂, r₁.lookup k = some cfg₁ ∧ r₂.lookup k = some cfg₂ ∧
      Same cfg₁.toObj cfg₂.toObj := by
  have hA : ∀ blk ∈ obj₁.blocks, blk.addr ∈ obj₁.blocks.map Block.addr :=
    fun blk hblk => List.mem_map_of_mem hblk
  have hkinds : ∀ a ∈ obj₁.blocks.map Block.addr, (heap₁ a).kind = (heap₂ a).kind := by
    intro a ha
    obtain ⟨blk, hblk, rfl⟩ := List.mem_map.mp ha
    exact hheap blk hblk
  obtain ⟨_, root₁, _, hc₁, hroot₁, -⟩ := collapse_eq_ok.mp hrun₁
  obtain ⟨_, root₂, _, hc₂, hroot₂, -⟩ := collapse_eq_ok.mp hrun₂
  obtain ⟨hstored₁, hkeep₁⟩ := quiet_stored hcs₁ hroot₁ hk₁ hq₁ hrun₁
  obtain ⟨hstored₂, hkeep₂⟩ := quiet_stored hcs₂ hroot₂ hk₂ hq₂ hrun₂
  obtain ⟨hp, t, cfg, hm, rfl⟩ := collapseStep_eq_ok.mp hroot₁
  obtain ⟨hp', t', cfg', hm', rfl⟩ := collapseStep_eq_ok.mp hroot₂
  obtain ⟨hp'', cfg'', hm'', hsame, hheap'⟩ :=
    merge_alike hblocks hA hobj (hbasis [] (Or.inl rfl)) hkinds hm
  obtain ⟨rfl, rfl, rfl⟩ : hp' = hp'' ∧ t' = t ∧ cfg' = cfg'' := by
    have heq := hm'.symm.trans hm''
    simpa using heq
  rcases hk with rfl | ⟨c, p, rfl, ⟨hc₁, hp₁⟩, hc₂, hp₂⟩
  · exact ⟨cfg, cfg', hkeep₁.trans (lookup_assign_self _ _ _),
      hkeep₂.trans (lookup_assign_self _ _ _), hsame⟩
  · obtain ⟨_, t₁, cfg₁, href₁, hl₁⟩ := hstored₁ c hc₁ p hp₁
    obtain ⟨_, t₂, cfg₂, href₂, hl₂⟩ := hstored₂ c hc₂ p hp₂
    have hpair := hbasis _ (Or.inr ⟨c, p, rfl, ⟨hc₁, hp₁⟩, hc₂, hp₂⟩)
    obtain ⟨_, cfg₃, href₃, hsame₃, -⟩ := merge_alike hblocks hA hobj hpair hheap' href₁
    obtain ⟨-, -, rfl⟩ : _ ∧ _ ∧ cfg₂ = cfg₃ := by
      have heq := href₂.symm.trans href₃
      simpa using heq
    exact ⟨cfg₁, cfg₂, hl₁, hl₂, hsame₃⟩

theorem withLists_agree (sln : Container) (cs ps cs' ps' : List Str) :
    AgreeOff (sln.withLists cs ps).fields (sln.withLists cs' ps').fields := by
  intro f h₁ h₂
  simp only [Container.withLists]
  rw [Fields.set_of_ne (Ne.symm h₂), Fields.set_of_ne (Ne.symm h₁), Fields.set_of_ne (Ne.symm h₂),
    Fields.set_of_ne (Ne.symm h₁)]

theorem withLists_configurations (sln : Container) (cs ps : List Str) :
    (sln.withLists cs ps).configurations = some cs := by
  rw [Container.configurations, Container.withLists]
  simp only
  rw [Fields.set_of_ne (by decide), Fields.set_self]
  rfl

theorem withLists_platformnames (sln : Container) (cs ps : List Str) :
    (sln.withLists cs ps).platformnames = ps := by
  rw [Container.platformnames, Container.withLists]
  simp only
  rw [Fields.set_self]
  rfl

/-- Two quiet bakes of a project under two choices of the lists of configurations
and platforms store the same settings for every pair that they share, the two
lists themselves apart. -/
theorem bake_independent {sln prj : Container} {heap h₁ h₂ : Heap} {r₁ r₂ : Configs}
    {cs₁ ps₁ cs₂ ps₂ : List Str}
    (hdisj : ∀ blk ∈ sln.blocks, ∀ blk' ∈ prj.blocks, blk.addr ≠ blk'.addr)
    (hrun₁ : collapseBoth env (sln.withLists cs₁ ps₁) prj heap = .ok (h₁, r₁))
    (hrun₂ : collapseBoth env (sln.withLists cs₂ ps₂) prj heap = .ok (h₂, r₂))
    (hq₁ : QuietBoth env (sln.withLists cs₁ ps₁) prj heap)
    (hq₂ : QuietBoth env (sln.withLists cs₂ ps₂) prj heap)
    (hk₁ : KeysApart cs₁ ps₁) (hk₂ : KeysApart cs₂ ps₂) {c p : Str}
    (hpair₁ : c ∈ cs₁ ∧ p ∈ pltnames ps₁) (hpair₂ : c ∈ cs₂ ∧ p ∈ pltnames ps₂) :
    ∃ cfg₁ cfg₂, r₁.lookup (configKey (some c) p) = some cfg₁ ∧
      r₂.lookup (configKey (some c) p) = some cfg₂ ∧
      ∀ f, f ≠ .configurations → f ≠ .platforms → cfg₁.fields f = cfg₂.fields f := by
  have hcs₁ := withLists_configurations sln cs₁ ps₁
  have hcs₂ := withLists_configurations sln cs₂ ps₂
  obtain ⟨⟨m₁, b₁⟩, hsln₁, hprj₁⟩ := bind_eq_ok.mp hrun₁
  obtain ⟨⟨m₂, b₂⟩, hsln₂, hprj₂⟩ := bind_eq_ok.mp hrun₂
  rw [QuietBoth, hsln₁] at hq₁
  rw [QuietBoth, hsln₂] at hq₂
  have hshared : SharedKey cs₁ (sln.withLists cs₁ ps₁).platformnames cs₂
      (sln.withLists cs₂ ps₂).platformnames (configKey (some c) p) := by
    rw [withLists_platformnames, withLists_platformnames]
    exact Or.inr ⟨c, p, rfl, hpair₁, hpair₂⟩
  rw [← withLists_platformnames sln cs₁ ps₁] at hk₁
  rw [← withLists_platformnames sln cs₂ ps₂] at hk₂
  have hbasis : ∀ k, SharedKey cs₁ (sln.withLists cs₁ ps₁).platformnames cs₂
      (sln.withLists cs₂ ps₂).platformnames k →
      ∃ cfg₁ cfg₂, b₁.lookup k = some cfg₁ ∧ b₂.lookup k = some cfg₂ ∧
        Same cfg₁.toObj cfg₂.toObj := by
    intro k hk
    have hobj := withLists_agree sln cs₁ ps₁ cs₂ ps₂
    refine collapse_agree hcs₁ hcs₂ ?_ hobj ?_ ?_ hsln₁ hsln₂ hq₁.1 hq₂.1 hk₁ hk₂ hk
    · rfl
    · exact fun _ _ => .none
    · exact fun _ _ => rfl
  have hheap : ∀ blk ∈ prj.blocks, (m₁ blk.addr).kind = (m₂ blk.addr).kind := by
    intro blk hblk
    have hne₁ : ∀ b ∈ (sln.withLists cs₁ ps₁).blocks, b.addr ≠ blk.addr :=
      fun b hb => hdisj b hb blk hblk
    have hne₂ : ∀ b ∈ (sln.withLists cs₂ ps₂).blocks, b.addr ≠ blk.addr :=
      fun b hb => hdisj b hb blk hblk
    rw [collapse_heap_of_ne hne₁ hsln₁, collapse_heap_of_ne hne₂ hsln₂]
  have hrel : ∀ k, SharedKey cs₁ (sln.withLists cs₁ ps₁).platformnames cs₂
      (sln.withLists cs₂ ps₂).platformnames k →
      Option.Rel Same ((b₁.lookup k).map Config.toObj) ((b₂.lookup k).map Config.toObj) := by
    intro k hk
    obtain ⟨b, b', hb, hb', hsame⟩ := hbasis k hk
    rw [hb, hb']
    exact .some hsame
  obtain ⟨cfg₁, cfg₂, hl₁, hl₂, hsame⟩ := collapse_agree hcs₁ hcs₂ rfl (fun _ _ _ => rfl)
    hrel hheap hprj₁ hprj₂ hq₁.2 hq₂.2 hk₁ hk₂ hshared
  exact ⟨cfg₁, cfg₂, hl₁, hl₂, hsame.fields⟩

end TwoRuns

section Example

def exampleSolution : Container := Container.ofBlock Fields.empty (configuration 0 [])

def exampleProject : Container where
  fields := Fields.empty
  blocks := [configuration 1 [],
    (configuration 2 ["Debug or Release"]).set .kind "SharedLib".toList,
    (configuration 3 ["SharedLib"]).set .defines ⟨["DLL".toList], []⟩]
  distinct := by decide

def storedField (cs ps : List String) (key : String) (f : Field) :
    Except BakeError (Option (Option f.fieldKind.Val)) :=
  (collapseBoth Env.gmake
      (exampleSolution.withLists (cs.map String.toList) (ps.map String.toList)) exampleProject
      (initialHeap (exampleSolution.blocks ++ exampleProject.blocks))).map
    fun (_, cfgs) => (cfgs.lookup key.toList).map fun cfg => cfg.fields f

/-- A project whose kind is set without a condition is baked quietly. -/
def exampleLibrary : Container where
  fields := Fields.empty
  blocks := [(configuration 1 []).set .kind "SharedLib".toList,
    (configuration 2 ["SharedLib", "Release"]).set .defines ⟨["DLL".toList], []⟩]
  distinct := by decide

def bakeLibrary (cs ps : List String) : Except BakeError (Heap × Configs) :=
  collapseBoth Env.gmake
    (exampleSolution.withLists (cs.map String.toList) (ps.map String.toList)) exampleLibrary
    (initialHeap (exampleSolution.blocks ++ exampleLibrary.blocks))

theorem library_independent :
    ∃ h₁ r₁ h₂ r₂, bakeLibrary ["Release"] [] = .ok (h₁, r₁) ∧
      bakeLibrary ["Debug", "Release"] ["x32"] = .ok (h₂, r₂) ∧
      ∃ cfg₁ cfg₂, r₁.lookup (configKey (some "Release".toList) native) = some cfg₁ ∧
        r₂.lookup (configKey (some "Release".toList) native) = some cfg₂ ∧
        ∀ f, f ≠ .configurations → f ≠ .platforms → cfg₁.fields f = cfg₂.fields f := by
  obtain ⟨h₁, r₁, hrun₁⟩ : ∃ h r, bakeLibrary ["Release"] [] = .ok (h, r) := ⟨_, _, rfl⟩
  obtain ⟨h₂, r₂, hrun₂⟩ : ∃ h r, bakeLibrary ["Debug", "Release"] ["x32"] = .ok (h, r) :=
    ⟨_, _, rfl⟩
  refine ⟨h₁, r₁, h₂, r₂, hrun₁, hrun₂, ?_⟩
  rw [bakeLibrary] at hrun₁ hrun₂
  exact bake_independent (by decide) hrun₁ hrun₂ (by decide) (by decide) (by decide) (by decide)
    (by decide) (by decide)

/-- `Release` loses its defines when `Debug` is merged before it, and it always
carries the list of configurations along. -/
theorem release_depends_on_debug :
    ¬ (∀ f, storedField ["Release"] [] "Release" f =
        storedField ["Debug", "Release"] [] "Release" f) ∧
      storedField ["Release"] [] "Release" .defines ≠
        storedField ["Debug", "Release"] [] "Release" .defines ∧
      storedField ["Release"] [] "Release" .configurations ≠
        storedField ["Debug", "Release"] [] "Release" .configurations := by
  have hdefines : storedField ["Release"] [] "Release" .defines ≠
      storedField ["Debug", "Release"] [] "Release" .defines := by
    decide
  exact ⟨fun h => hdefines (h .defines), hdefines, by decide⟩

end Example

end Puremake
