import Puremake.Xcode.Folders

/-!
# The IDs of the nodes

The final setup goes through the whole tree and takes the IDs one after the other, so that
no two nodes get the same one. A node gets an ID for the build when its name asks for it, and
the name does not change afterwards. The node of the product is put into the tree after that.
-/

namespace Puremake

namespace Xcode

open Puremake.Tree

section Assign

variable {ids : ℕ → Str} {f : PrjTree} {s s' : PrjTree × ℕ} {done : List ℕ} {n : ℕ}

theorem assignid_eq_some (h : assignid ids s n = some s') :
    ∃ name, (s.1.node n).name = some name ∧ s'.1.count = s.1.count ∧
      (∀ m, m ≠ n → s'.1.node m = s.1.node m) ∧
      s'.1.node n = { s.1.node n with data := { (s.1.node n).data with
        id := some (ids s.2)
        buildid := if (getbuildcategory name).isSome then some (ids (s.2 + 1))
          else (s.1.node n).data.buildid } } ∧
      s'.2 = if (getbuildcategory name).isSome then s.2 + 2 else s.2 + 1 := by
  obtain ⟨name, hname, h⟩ := Option.bind_eq_some_iff.mp h
  refine ⟨name, hname, ?_⟩
  by_cases hcategory : (getbuildcategory name).isSome
  · rw [if_pos hcategory] at h
    obtain rfl := Option.some.inj h
    refine ⟨rfl, fun m hm => ?_, ?_, ?_⟩
    · simp [Forest.modify, hm]
    · simp [Forest.modify, hcategory]
    · rw [if_pos hcategory]
  · rw [if_neg hcategory] at h
    obtain rfl := Option.some.inj h
    refine ⟨rfl, fun m hm => ?_, ?_, ?_⟩
    · simp [Forest.modify, hm]
    · simp [Forest.modify, hcategory]
    · rw [if_neg hcategory]

theorem stays_assignid (ids : ℕ → Str) : (assignid ids).Stays := by
  intro s n s' h m
  obtain ⟨name, -, -, hframe, hnode, -⟩ := assignid_eq_some h
  by_cases hm : m = n
  · rw [hm, hnode]
    exact ⟨rfl, rfl⟩
  · rw [hframe m hm]
    exact ⟨rfl, rfl⟩

/-- The nodes `done` have got their IDs, and no two nodes have the same one for the build. -/
structure Assigned (ids : ℕ → Str) (f : PrjTree) (done : List ℕ) (s : PrjTree × ℕ) : Prop where
  count : s.1.count = f.count
  name : ∀ n, (s.1.node n).name = (f.node n).name
  id : ∀ n ∈ done, (s.1.node n).data.id.isSome
  buildid : ∀ n ∈ done, ∃ name, (f.node n).name = some name ∧
    ((s.1.node n).data.buildid.isSome ↔ (getbuildcategory name).isSome)
  other : ∀ n, n ∉ done → (s.1.node n).data.buildid = none
  slot : ∃ slot : ℕ → ℕ,
    (∀ n b, (s.1.node n).data.buildid = some b → b = ids (slot n) ∧ slot n < s.2) ∧
    ∀ n m, (s.1.node n).data.buildid.isSome → (s.1.node m).data.buildid.isSome →
      slot n = slot m → n = m

theorem assigned_nil (hblank : ∀ n, (f.node n).data.buildid = none) (next : ℕ) :
    Assigned ids f [] (f, next) where
  count := rfl
  name _ := rfl
  id := nofun
  buildid := nofun
  other n _ := hblank n
  slot := by
    refine ⟨fun _ => 0, fun n b hb => ?_, fun n m hn => ?_⟩
    · rw [hblank n] at hb
      cases hb
    · rw [hblank n] at hn
      cases hn

theorem Assigned.assignid (h : Assigned ids f done s) (hrun : Xcode.assignid ids s n = some s') :
    Assigned ids f (done ++ [n]) s' := by
  obtain ⟨name, hname, hcount, hframe, hnode, hnext⟩ := assignid_eq_some hrun
  have hfname : (f.node n).name = some name := (h.name n).symm.trans hname
  have hbuildid : (s'.1.node n).data.buildid.isSome ↔ (getbuildcategory name).isSome := by
    rw [hnode]
    by_cases hcategory : (getbuildcategory name).isSome
    · simp [hcategory]
    · simp only [hcategory]
      by_cases hn : n ∈ done
      · obtain ⟨name', hname', hiff⟩ := h.buildid n hn
        obtain rfl := Option.some.inj (hname'.symm.trans hfname)
        simpa [hcategory] using hiff
      · simp [h.other n hn]
  obtain ⟨slot, hslot, hinj⟩ := h.slot
  refine ⟨hcount.trans h.count, fun m => ?_, fun m hm => ?_, fun m hm => ?_, fun m hm => ?_, ?_⟩
  · by_cases hmn : m = n
    · rw [hmn, hnode]
      exact h.name n
    · rw [hframe m hmn]
      exact h.name m
  · by_cases hmn : m = n
    · rw [hmn, hnode]
      rfl
    · rw [hframe m hmn]
      exact h.id m ((List.mem_append.mp hm).resolve_right fun h => hmn (List.mem_singleton.mp h))
  · by_cases hmn : m = n
    · rw [hmn]
      exact ⟨name, hfname, hbuildid⟩
    · rw [hframe m hmn]
      exact h.buildid m
        ((List.mem_append.mp hm).resolve_right fun h => hmn (List.mem_singleton.mp h))
  · rw [List.mem_append, List.mem_singleton, not_or] at hm
    rw [hframe m hm.2]
    exact h.other m hm.1
  -- The slots before `s.2` are taken, and the node gets the one after it.
  · by_cases hcategory : (getbuildcategory name).isSome
    · rw [if_pos hcategory] at hnext
      have hold : ∀ m, m ≠ n → (s'.1.node m).data.buildid.isSome → slot m < s.2 := by
        intro m hmn hm
        rw [hframe m hmn] at hm
        obtain ⟨b, hb⟩ := Option.isSome_iff_exists.mp hm
        exact (hslot m b hb).2
      refine ⟨Function.update slot n (s.2 + 1), fun m b hb => ?_, fun m m' hm hm' heq => ?_⟩
      · by_cases hmn : m = n
        · rw [hmn, hnode] at hb
          simp only [hcategory, if_true, Option.some.injEq] at hb
          rw [hmn, Function.update_self, hnext]
          exact ⟨hb.symm, Nat.lt_succ_self _⟩
        · rw [hframe m hmn] at hb
          rw [Function.update_of_ne hmn, hnext]
          exact ⟨(hslot m b hb).1, (hslot m b hb).2.trans (by omega)⟩
      · by_cases hmn : m = n
        · by_cases hmn' : m' = n
          · rw [hmn, hmn']
          · rw [hmn, Function.update_self, Function.update_of_ne hmn'] at heq
            have := hold m' hmn' hm'
            omega
        · by_cases hmn' : m' = n
          · rw [hmn', Function.update_self, Function.update_of_ne hmn] at heq
            have := hold m hmn hm
            omega
          · rw [Function.update_of_ne hmn, Function.update_of_ne hmn'] at heq
            rw [hframe m hmn] at hm
            rw [hframe m' hmn'] at hm'
            exact hinj m m' hm hm' heq
    · rw [if_neg hcategory] at hnext
      have hsame : ∀ m, (s'.1.node m).data.buildid = (s.1.node m).data.buildid := by
        intro m
        by_cases hmn : m = n
        · rw [hmn, hnode]
          simp [hcategory]
        · rw [hframe m hmn]
      refine ⟨slot, fun m b hb => ?_, fun m m' hm hm' => ?_⟩
      · rw [hsame] at hb
        rw [hnext]
        exact ⟨(hslot m b hb).1, (hslot m b hb).2.trans (Nat.lt_succ_self _)⟩
      · rw [hsame] at hm hm'
        exact hinj m m' hm hm'

theorem Assigned.foldlM (h : Assigned ids f done s) {l : List ℕ}
    (hrun : l.foldlM (visiting (Xcode.assignid ids) .skip) s = some s') :
    Assigned ids f (done ++ l) s' := by
  induction l generalizing s done with
  | nil =>
      obtain rfl := Option.some.inj hrun
      rwa [List.append_nil]
  | cons n l ih =>
      obtain ⟨s₁, hs₁, hrun⟩ := Option.bind_eq_some_iff.mp hrun
      have hvisit : visiting (Xcode.assignid ids) .skip s n = Xcode.assignid ids s n := by
        rw [visiting]
        cases Xcode.assignid ids s n with
        | none => rfl
        | some s₂ => simp [Visit.skip]
      rw [List.append_cons]
      exact ih (h.assignid (hvisit.symm.trans hs₁)) hrun

end Assign

section Marked

variable {ids : ℕ → Str} {f f' : PrjTree} {folders : Folders} {deps : List Dependency}
  {projectnode : ProjectNode}

/-- The node `n` has an ID, and one for the build when its name asks for it. -/
def HasIds (f : PrjTree) (n : ℕ) : Prop :=
  (f.node n).data.id.isSome ∧ ∃ name, (f.node n).name = some name ∧
    ((f.node n).data.buildid.isSome ↔ (getbuildcategory name).isSome)

/-- The tree `t` that `xcode.buildprjtree` returns, with the node `P` of the product. -/
structure Marked (f : PrjTree) (folders : Folders) (deps : List Dependency)
    (projectnode : ProjectNode) (t : Grove ℕ) (P : ℕ) : Prop where
  stands : Stands f 0 t
  product : P ∈ t.nodes ∧ (f.node P).children = [] ∧ (f.node P).name = some projectnode.name ∧
    (f.node P).data.buildid = none
  stages : (f.node P).data.resstageid.isSome ∧ (f.node P).data.sourcesid.isSome ∧
    (f.node P).data.fxstageid.isSome
  products : (f.node folders.products).children = [P]
  ids : ∀ n ∈ t.nodes, n ≠ P → HasIds f n
  unique : ∀ n m b, (f.node n).data.buildid = some b → (f.node m).data.buildid = some b → n = m
  frameworks : ∃ s, Stands f folders.frameworks s ∧ (∀ n ∈ s.nodes, n ∈ t.nodes ∧ n ≠ P) ∧
    ∀ n ∈ s.nodes, ∃ name, (f.node n).name = some name ∧ isframework name
  projects : ∃ s, Stands f folders.projects s ∧ (∀ n ∈ s.nodes, n ∈ t.nodes ∧ n ≠ P) ∧
    s.leaves.map (fun n => (f.node n).name) = deps.map fun dep => some dep.linktarget.name

theorem getbuildcategory_of_isframework {name : Str} (h : isframework name) :
    (getbuildcategory name).isSome := by
  rw [getbuildcategory, of_decide_eq_true h]
  rfl

theorem Furnished.frameworks (h : Furnished f folders deps) {t : Grove ℕ} (ht : Stands f 0 t) :
    ∃ s, Stands f folders.frameworks s ∧ (∀ n ∈ s.nodes, n ∈ t.nodes ∧ n < folders.products) ∧
      ∀ n ∈ s.nodes, ∃ name, (f.node n).name = some name ∧ isframework name := by
  obtain ⟨level, hl⟩ := h.leveled
  obtain ⟨s, hs⟩ := hl.exists_stands folders.frameworks
  have hfiles := h.shelved.frameworks.files
  rw [hs.children] at hfiles
  have hnodes := (hs.holds.nodes_eq_roots fun n hn => (hfiles n hn).2.2.1).1
  refine ⟨s, hs, fun n hn => ?_, fun n hn => ?_⟩
  · rw [hnodes] at hn
    have hmem := h.shelved.inside (hs.children ▸ List.ne_nil_of_mem hn)
    rw [ht.children] at hmem
    rw [← hs.children] at hn
    exact ⟨(ht.holds.mem_of_mem_children (Grove.roots_subset_nodes t hmem) hn).1,
      (hfiles n (hs.children ▸ hn)).2.1⟩
  · exact (hfiles n (hnodes ▸ hn)).2.2.2

theorem Furnished.projects_subset (h : Furnished f folders deps) {t s : Grove ℕ}
    (ht : Stands f 0 t) (hs : Stands f folders.projects s) : s.nodes ⊆ t.nodes := by
  refine hs.holds.nodes_subset ht.holds fun n hn => ?_
  have hmem := h.inside (hs.children ▸ List.ne_nil_of_mem hn)
  rw [ht.children] at hmem
  exact (ht.holds.mem_of_mem_children (Grove.roots_subset_nodes t hmem) (hs.children ▸ hn)).1

theorem addproduct_node {s : PrjTree × ℕ} {R : ℕ} (hR : R < s.1.count) :
    (∃ data, ((addproduct ids R projectnode s).1.node s.1.count =
        ⟨some projectnode.name, some projectnode.fullpath, [], [], some R, data⟩) ∧
      data.buildid = none ∧ data.resstageid.isSome ∧ data.sourcesid.isSome ∧
      data.fxstageid.isSome) ∧
    (∃ index, (addproduct ids R projectnode s).1.node R = { s.1.node R with
      children := (s.1.node R).children ++ [s.1.count], index := index }) ∧
    ∀ m, m ≠ R → m ≠ s.1.count →
      (addproduct ids R projectnode s).1.node m = s.1.node m := by
  obtain ⟨hnew, ⟨index, hnode, -⟩, hframe⟩ := insert_new_node hR (some projectnode.name)
    { NodeData.empty with id := some projectnode.id }
  refine ⟨⟨{ NodeData.empty with
      id := some projectnode.id
      kind := some "product".toList
      resstageid := some (ids (s.2 + 1))
      sourcesid := some (ids (s.2 + 2))
      fxstageid := some (ids (s.2 + 3)) }, ?_, rfl, rfl, rfl, rfl⟩, ⟨index, ?_⟩,
    fun m hmR hmc => ?_⟩
  · simp [addproduct, Forest.modify, hnew]
  · simp [addproduct, Forest.modify, hR.ne, hnode]
  · simp [addproduct, Forest.modify, hmc, hframe m hmR hmc]

theorem addproduct_labels {s : PrjTree × ℕ} {R n : ℕ} (hR : R < s.1.count) (hn : n ≠ s.1.count) :
    ((addproduct ids R projectnode s).1.node n).name = (s.1.node n).name ∧
      ((addproduct ids R projectnode s).1.node n).data = (s.1.node n).data := by
  obtain ⟨-, ⟨index, hnode⟩, hframe⟩ := @addproduct_node ids projectnode s R hR
  by_cases hnR : n = R
  · rw [hnR, hnode]
    exact ⟨rfl, rfl⟩
  · rw [hframe n hnR hn]
    exact ⟨rfl, rfl⟩

theorem stands_addproduct {s : PrjTree × ℕ} {R tr : ℕ} {t : Grove ℕ} (hs : Stands s.1 tr t)
    (hR : R ∈ t.nodes) (hlt : ∀ n ∈ tr :: t.nodes, n < s.1.count) :
    ∃ t', Stands (addproduct ids R projectnode s).1 tr t' ∧
      t'.nodes.Perm (t.nodes ++ [s.1.count]) := by
  have hs₁ := hs.new (fun n hn => (hlt n hn).ne) (some projectnode.name)
    { NodeData.empty with id := some projectnode.id }
  have hnodup : (tr :: t.nodes ++ s.1.count :: (Grove.nil : Grove ℕ).nodes).Nodup := by
    refine List.nodup_append.mpr ⟨hs.nodup, List.nodup_singleton _, fun n hn m hm => ?_⟩
    rw [List.mem_singleton.mp hm]
    exact (hlt n hn).ne
  obtain ⟨t', ht', hperm⟩ := hs₁.insert (stands_new s.1 _ _) hnodup (List.mem_cons_of_mem tr hR)
  refine ⟨t', SameShape.stands (fun n => ?_) ht', hperm⟩
  by_cases hn : n = s.1.count
  · subst hn
    simp [addproduct, Forest.modify]
  · simp [addproduct, Forest.modify, hn]

theorem stands_beside_product {s : PrjTree × ℕ} {R q : ℕ} {g : Grove ℕ} (hR : R < s.1.count)
    (hg : Stands s.1 q g) (hne : ∀ n ∈ q :: g.nodes, n ≠ R ∧ n < s.1.count) :
    Stands (addproduct ids R projectnode s).1 q g := by
  obtain ⟨-, -, hframe⟩ := @addproduct_node ids projectnode s R hR
  have hkept : ∀ n ∈ q :: g.nodes, (addproduct ids R projectnode s).1.node n = s.1.node n :=
    fun n hn => hframe n (hne n hn).1 (hne n hn).2.ne
  exact ⟨by rw [hkept q List.mem_cons_self, hg.children],
    hg.holds.congr fun n hn => hkept n (List.mem_cons_of_mem q hn), hg.nodup⟩

/-- No two nodes have the same ID for the build, when no ID is made twice. -/
theorem Assigned.unique {s : PrjTree × ℕ} {done : List ℕ} (h : Assigned ids f done s)
    (hids : ∀ i j, i < s.2 → j < s.2 → ids i = ids j → i = j) {n m : ℕ} {b : Str}
    (hn : (s.1.node n).data.buildid = some b) (hm : (s.1.node m).data.buildid = some b) :
    n = m := by
  obtain ⟨slot, hslot, hinj⟩ := h.slot
  obtain ⟨hbn, hltn⟩ := hslot n b hn
  obtain ⟨hbm, hltm⟩ := hslot m b hm
  exact hinj n m (by rw [hn]; rfl) (by rw [hm]; rfl) (hids _ _ hltn hltm (hbn.symm.trans hbm))

theorem Furnished.marked (h : Furnished f folders deps) {next fuel : ℕ} {s : PrjTree × ℕ}
    (hrun : Tree.traverse (calling (assignid ids) .skip) fuel 0 true 0 (f, next) = some s)
    (hids : ∀ i j, i < s.2 → j < s.2 → ids i = ids j → i = j) :
    ∃ t P, Marked (addproduct ids folders.products projectnode s).1 folders deps projectnode
      t P := by
  obtain ⟨level, hl⟩ := h.leveled
  obtain ⟨t, ht⟩ := hl.exists_stands 0
  have hfold := foldlM_of_traverse (stays_assignid ids) Visit.skip_stays ht hrun
  have hshape := (stays_visiting (stays_assignid ids) Visit.skip_stays).foldlM hfold
  have hassigned := (assigned_nil h.blank next).foldlM hfold
  rw [List.nil_append, if_pos rfl] at hassigned
  have hcount := hassigned.count
  have hproducts := h.shelved.products
  have hR : folders.products < s.1.count := hcount ▸ h.shelved.lt
  obtain ⟨⟨data, hnew, hbuildid, hstages⟩, ⟨index, hnode⟩, -⟩ :=
    @addproduct_node ids projectnode s _ hR
  have hlt : ∀ n ∈ 0 :: t.nodes, n < s.1.count := fun n hn => by
    rcases List.mem_cons.mp hn with rfl | hn
    · exact Nat.zero_lt_of_lt hR
    · obtain ⟨q, -, hq⟩ := ht.holds.parent_mem hn
      exact hcount ▸ (hl.lt n q hq).1
  obtain ⟨t', ht', hperm⟩ := @stands_addproduct ids projectnode s _ _ _ (hshape.stands ht)
    (Grove.roots_subset_nodes t (ht.children ▸ hproducts.2)) hlt
  have hmem : ∀ n, n ∈ t'.nodes ↔ n ∈ t.nodes ∨ n = s.1.count := fun n =>
    hperm.mem_iff.trans (List.mem_append.trans (or_congr_right List.mem_singleton))
  have hlabels : ∀ n, n ≠ s.1.count →
      ((addproduct ids folders.products projectnode s).1.node n).name = (f.node n).name ∧
      ((addproduct ids folders.products projectnode s).1.node n).data = (s.1.node n).data :=
    fun n hn => (addproduct_labels hR hn).imp_left fun h => h.trans (hassigned.name n)
  refine ⟨t', s.1.count, ht', ⟨(hmem _).mpr (.inr rfl), ?_, ?_, ?_⟩, ?_, ?_, fun n hn hnP => ?_,
    fun n m b hn hm => ?_, ?_, ?_⟩
  · rw [hnew]
  · rw [hnew]
  · rw [hnew]
    exact hbuildid
  · rw [hnew]
    exact hstages
  · rw [hnode, (hshape folders.products).1, hproducts.1]
    rfl
  · have hn : n ∈ 0 :: t.nodes :=
      List.mem_cons_of_mem 0 (((hmem n).mp hn).resolve_right hnP)
    obtain ⟨name, hname, hiff⟩ := hassigned.buildid n hn
    rw [HasIds, (hlabels n hnP).1, (hlabels n hnP).2]
    exact ⟨hassigned.id n hn, name, hname, hiff⟩
  · have hold : ∀ n, ((addproduct ids folders.products projectnode s).1.node n).data.buildid =
        some b → (s.1.node n).data.buildid = some b := by
      intro n hn
      by_cases hnP : n = s.1.count
      · rw [hnP, hnew, hbuildid] at hn
        cases hn
      · rwa [(hlabels n hnP).2] at hn
    exact hassigned.unique hids (hold n hn) (hold m hm)
  · obtain ⟨g, hg, hsub, hnames⟩ := h.frameworks ht
    have hF := h.shelved.frameworks.lt
    refine ⟨g, stands_beside_product hR (hshape.stands hg) fun n hn => ?_,
      fun n hn => ⟨(hmem n).mpr (.inl (hsub n hn).1), ((hsub n hn).2.trans hR).ne⟩, fun n hn => ?_⟩
    · rcases List.mem_cons.mp hn with rfl | hn
      · exact ⟨hF.ne, hF.trans hR⟩
      · exact ⟨(hsub n hn).2.ne, (hsub n hn).2.trans hR⟩
    · rw [(hlabels n ((hsub n hn).2.trans hR).ne).1]
      exact hnames n hn
  · obtain ⟨g, hg, hbound, hnames⟩ := h.projects
    obtain ⟨hRQ, hQ⟩ := h.lt
    rw [← hcount] at hQ hbound
    refine ⟨g, stands_beside_product hR (hshape.stands hg) fun n hn => ?_, fun n hn =>
      ⟨(hmem n).mpr (.inl (h.projects_subset ht hg hn)), (hbound n hn).2.ne⟩, ?_⟩
    · rcases List.mem_cons.mp hn with rfl | hn
      · exact ⟨hRQ.ne', hQ⟩
      · exact ⟨(hRQ.trans (hbound n hn).1).ne', (hbound n hn).2⟩
    · rw [← hnames]
      refine List.map_congr_left fun n hn => (hlabels n ?_).1
      exact (hbound n ((Grove.leaves_sublist_nodes g).subset hn)).2.ne

theorem leveled_ofSource {src : Tree.Forest Project.SourceData} {level : ℕ → ℕ} {hole : Option ℕ}
    (h : Leveled src level hole) : Leveled (ofSource src) level hole :=
  ⟨h.listed, h.nodup, h.keyed, h.level, h.lt, h.named⟩

/-- What `xcode.buildprjtree` returns, when no two IDs are the same. -/
theorem exists_marked {env : Env} {session : List Workspace} {sln : Workspace} {prj : BakedProject}
    {next last fuel : ℕ} (hbuild : buildprjtree env session sln prj projectnode ids next fuel =
      some (f, folders, last))
    (hids : ∀ i j, i < last → j < last → ids i = ids j → i = j) :
    ∃ deps t P, dependencies env session sln prj = some deps ∧
      Marked f folders deps projectnode t P := by
  obtain ⟨root, -, hbuild⟩ := Option.bind_eq_some_iff.mp hbuild
  obtain ⟨src, hsrc, hbuild⟩ := Option.bind_eq_some_iff.mp hbuild
  obtain ⟨configs, -, hbuild⟩ := Option.bind_eq_some_iff.mp hbuild
  obtain ⟨f₁, hlocalize, hbuild⟩ := Option.bind_eq_some_iff.mp hbuild
  obtain ⟨links, -, hbuild⟩ := Option.bind_eq_some_iff.mp hbuild
  obtain ⟨deps, hdeps, hbuild⟩ := Option.bind_eq_some_iff.mp hbuild
  obtain ⟨s, hassign, hbuild⟩ := Option.bind_eq_some_iff.mp hbuild
  obtain ⟨rfl, hrest⟩ := Prod.mk.inj (Option.some.inj hbuild)
  obtain ⟨rfl, rfl⟩ := Prod.mk.inj hrest
  have hindexed := Project.indexed_of_buildsourcetree (FoldRun.toOption_eq_some.mp hsrc)
  obtain ⟨level, hl⟩ := hindexed.leveled
  obtain ⟨⟨level₁, hl₁⟩, hcarries⟩ := leveled_of_localize (leveled_ofSource hl) hlocalize
  have hfurnished := furnished_furnish hl₁ (fun n => hcarries.buildid n rfl)
    (hindexed.count_pos.trans_le hcarries.le) links.flatten deps
  obtain ⟨t, P, hmarked⟩ := hfurnished.marked hassign fun i j hi hj =>
    hids i j (Nat.lt_add_right 4 hi) (Nat.lt_add_right 4 hj)
  exact ⟨deps, t, P, hdeps, hmarked⟩

end Marked

end Xcode

end Puremake
