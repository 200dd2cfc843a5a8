import Puremake.Xcode.Projtree

/-!
# The special folders of the tree

The folders for the frameworks and for the sibling projects are filled before they are put into
the tree, and only when there is something in them. A folder that is not in the tree yet has the
level that it will have there, so the heap stays one of trees. What has been put into
a folder stays there while the next ones are filled.
-/

namespace Puremake

namespace Xcode

open Puremake.Tree

section Nodes

variable {f f' : PrjTree} {level : ℕ → ℕ} {p : ℕ}

theorem insertnode_count (f : PrjTree) (p : ℕ) (name path : Str) :
    (insertnode f p name path).count = f.count + 1 := rfl

theorem insertnode_node (hp : p < f.count) (name path : Str) :
    (insertnode f p name path).node f.count = ⟨some name, some path, [], [], some p, .empty⟩ ∧
    (∃ index, (insertnode f p name path).node p = { f.node p with
      children := (f.node p).children ++ [f.count], index := index }) ∧
    ∀ m, m ≠ p → m ≠ f.count → (insertnode f p name path).node m = f.node m := by
  obtain ⟨hnew, ⟨index, hnode, -⟩, hframe⟩ := insert_new_node hp (some name) NodeData.empty
  refine ⟨?_, ⟨index, ?_⟩, fun m hmp hmc => ?_⟩
  · simp [insertnode, Forest.modify, hnew]
  · simp [insertnode, Forest.modify, hp.ne, hnode]
  · simp [insertnode, Forest.modify, hmc, hframe m hmp hmc]

theorem leveled_insertnode (h : Leveled f level none) (hp : p < f.count) (name path : Str) :
    Leveled (insertnode f p name path) (Function.update level f.count (level p + 1)) none := by
  have hfields : ∀ n, (insertnode f p name path).node n =
      { ((f.new (some name) .empty).insert p f.count).node n with
        path := ((insertnode f p name path).node n).path } := by
    intro n
    by_cases hn : n = f.count
    · subst hn
      simp [insertnode, Forest.modify]
    · simp [insertnode, Forest.modify, hn]
  refine (h.insert_new hp name .empty).congr rfl ?_ ?_ ?_ ?_
  all_goals
    intro n
    rw [hfields n]
  exact id

theorem blank_insertnode (h : ∀ n, (f.node n).data.buildid = none) (hp : p < f.count)
    (name path : Str) (n : ℕ) : ((insertnode f p name path).node n).data.buildid = none := by
  obtain ⟨hnew, ⟨index, hnode⟩, hframe⟩ := insertnode_node hp name path
  by_cases hnc : n = f.count
  · rw [hnc, hnew]
    rfl
  by_cases hnp : n = p
  · rw [hnp, hnode]
    exact h p
  · rw [hframe n hnp hnc]
    exact h n

theorem addproject_node (hp : p < f.count) (dep : Dependency) :
    ∃ index index',
      (addproject p f dep).node f.count = ⟨some (Path.getname dep.xcodeproj), some dep.xcodeproj,
        [f.count + 1], index, some p, .empty⟩ ∧
      (addproject p f dep).node (f.count + 1) = ⟨some dep.linktarget.name,
        some dep.linktarget.fullpath, [], [], some f.count, .empty⟩ ∧
      (addproject p f dep).node p = { f.node p with
        children := (f.node p).children ++ [f.count], index := index' } ∧
      ∀ m, m ≠ p → m < f.count → (addproject p f dep).node m = f.node m := by
  obtain ⟨hnew, ⟨index, hnode⟩, hframe⟩ :=
    insertnode_node hp (Path.getname dep.xcodeproj) dep.xcodeproj
  rw [addproject]
  generalize hf₁ : insertnode f p (Path.getname dep.xcodeproj) dep.xcodeproj = f₁ at *
  have hcount : f₁.count = f.count + 1 := by
    rw [← hf₁]
    rfl
  obtain ⟨hnew', ⟨index', hnode'⟩, hframe'⟩ := insertnode_node
    (hcount ▸ Nat.lt_succ_self f.count : f.count < f₁.count) dep.linktarget.name
    dep.linktarget.fullpath
  rw [hcount] at hnew' hframe' hnode'
  refine ⟨index', index, hnode'.trans ?_, hnew', ?_, fun m hmp hm => ?_⟩
  · rw [hnew]
    rfl
  · rw [hframe' p hp.ne (by omega), hnode]
  · rw [hframe' m hm.ne (by omega), hframe m hmp hm.ne]

end Nodes

section Furnish

variable {f f' : PrjTree} {F R Q : ℕ}

/-- The folder `F` with frameworks, all of them made before `R`. -/
structure FrameworksIn (f : PrjTree) (F R : ℕ) : Prop where
  lt : F < R
  le : R ≤ f.count
  files : ∀ c ∈ (f.node F).children, F < c ∧ c < R ∧ (f.node c).children = [] ∧
    ∃ name, (f.node c).name = some name ∧ isframework name

theorem FrameworksIn.congr (h : FrameworksIn f F R) (hle : f.count ≤ f'.count)
    (hkept : ∀ n, F ≤ n → n < R → (f'.node n).children = (f.node n).children ∧
      (f'.node n).name = (f.node n).name) : FrameworksIn f' F R := by
  refine ⟨h.lt, h.le.trans hle, fun c hc => ?_⟩
  rw [(hkept F le_rfl h.lt).1] at hc
  obtain ⟨hFc, hcR, hchildren, name, hname, hframework⟩ := h.files c hc
  obtain ⟨hchildren', hname'⟩ := hkept c hFc.le hcR
  exact ⟨hFc, hcR, hchildren'.trans hchildren, name, hname'.trans hname, hframework⟩

/-- The heap while the frameworks are added: the folder `F` is not in the tree yet. -/
structure Framing (f : PrjTree) (F : ℕ) : Prop where
  leveled : ∃ level, Leveled f level none ∧ level F = level 0 + 1
  blank : ∀ n, (f.node n).data.buildid = none
  pos : 0 < F
  orphan : (f.node F).parent = none
  named : (f.node F).name.isSome
  frameworks : FrameworksIn f F f.count

theorem framing_new {level : ℕ → ℕ} (h : Leveled f level none)
    (hblank : ∀ n, (f.node n).data.buildid = none) (hpos : 0 < f.count) :
    Framing (f.new (some "Frameworks".toList) .empty) f.count where
  leveled := by
    refine ⟨_, h.new _ _ (level 0 + 1), ?_⟩
    rw [Function.update_self, Function.update_of_ne hpos.ne]
  blank n := by
    by_cases hn : n = f.count
    · simp [Forest.new, hn, NodeData.empty]
    · rw [new_node_of_ne hn]
      exact hblank n
  pos := hpos
  orphan := by simp [Forest.new]
  named := by simp [Forest.new]
  frameworks := by
    refine ⟨Nat.lt_succ_self _, Nat.le_refl _, fun c hc => ?_⟩
    simp [Forest.new] at hc

theorem Framing.addframework (h : Framing f F) (link : Str) :
    Framing (Xcode.addframework F f link) F := by
  rw [Xcode.addframework]
  split
  · rename_i hname
    obtain ⟨level, hl, hlevel⟩ := h.leveled
    have hF := h.frameworks.lt
    have h0 : 0 < f.count := h.pos.trans hF
    obtain ⟨hnew, ⟨index, hnode⟩, hframe⟩ := insertnode_node hF (Path.getname link) link
    refine ⟨⟨_, leveled_insertnode hl hF _ link, ?_⟩, blank_insertnode h.blank hF _ link, h.pos,
      ?_, ?_, hF.trans (Nat.lt_succ_self _), Nat.le_refl _, fun c hc => ?_⟩
    · rw [Function.update_of_ne hF.ne, Function.update_of_ne h0.ne, hlevel]
    · rw [hnode]
      exact h.orphan
    · rw [hnode]
      exact h.named
    · rw [hnode] at hc
      rcases List.mem_append.mp hc with hc | hc
      · obtain ⟨hFc, hc, hchildren, name, hcname, hframework⟩ := h.frameworks.files c hc
        rw [hframe c hFc.ne' hc.ne]
        exact ⟨hFc, Nat.lt_succ_of_lt hc, hchildren, name, hcname, hframework⟩
      · rw [List.mem_singleton.mp hc, hnew]
        exact ⟨hF, Nat.lt_succ_self _, rfl, _, rfl, hname.1⟩
  · exact h

theorem Framing.foldl (h : Framing f F) (links : List Str) :
    Framing (links.foldl (Xcode.addframework F) f) F := by
  induction links generalizing f with
  | nil => exact h
  | cons link links ih => exact ih (h.addframework link)

theorem addfolder_node {folder : ℕ} (hpos : folder ≠ 0) :
    (addfolder f folder).count = f.count ∧
    ((f.node folder).children ≠ [] → folder ∈ ((addfolder f folder).node 0).children) ∧
    ((f.node 0).children ⊆ ((addfolder f folder).node 0).children) ∧
    (∀ n, n ≠ 0 → ((addfolder f folder).node n).children = (f.node n).children) ∧
    (∀ n, n ≠ folder → ((addfolder f folder).node n).parent = (f.node n).parent) ∧
    ∀ n, ((addfolder f folder).node n).name = (f.node n).name ∧
      ((addfolder f folder).node n).data = (f.node n).data := by
  rw [addfolder]
  split
  · have hfields := @insert_fields _ f _ _ hpos.symm
    obtain ⟨-, -, hchildren, -⟩ := @insert_parent _ f _ _ hpos.symm
    refine ⟨rfl, fun _ => ?_, ?_, fun n => (hfields n).2.2.1, fun n => (hfields n).2.1,
      fun n => ⟨(hfields n).1, ?_⟩⟩
    · rw [hchildren]
      exact List.mem_append_right _ List.mem_cons_self
    · rw [hchildren]
      exact List.subset_append_left _ _
    · by_cases hn : n = folder
      · subst hn
        simp [Forest.insert, Forest.modify, hpos]
      · by_cases hn0 : n = 0
        · subst hn0
          simp [Forest.insert, Forest.modify, hpos.symm]
        · rw [insert_node_of_ne hn0 hn]
  · rename_i hlength
    refine ⟨rfl, fun hne => absurd (List.length_pos_iff.mpr hne) hlength,
      List.Subset.refl _, fun _ _ => rfl, fun _ _ => rfl, fun _ => ⟨rfl, rfl⟩⟩

theorem leveled_addfolder {level : ℕ → ℕ} {folder : ℕ} (h : Leveled f level none)
    (hlevel : level folder = level 0 + 1) (hlt : folder < f.count) (hpos : 0 < f.count)
    (hname : (f.node folder).name.isSome) (horphan : (f.node folder).parent = none) :
    Leveled (addfolder f folder) level none := by
  rw [addfolder]
  split
  · refine h.insert hpos hlt hlevel hname fun q hq => ?_
    rw [horphan] at hq
    cases hq
  · exact h

/-- The folders `F` and `R` of the frameworks and of the product. -/
structure Shelved (f : PrjTree) (F R : ℕ) : Prop where
  pos : 0 < F
  frameworks : FrameworksIn f F R
  inside : (f.node F).children ≠ [] → F ∈ (f.node 0).children
  products : (f.node R).children = [] ∧ R ∈ (f.node 0).children
  lt : R < f.count

theorem Shelved.congr (h : Shelved f F R) (hle : f.count ≤ f'.count)
    (hkept : ∀ n, n ≠ 0 → n ≤ R → (f'.node n).children = (f.node n).children ∧
      (f'.node n).name = (f.node n).name)
    (hroot : (f.node 0).children ⊆ (f'.node 0).children) : Shelved f' F R := by
  have hF := h.frameworks.lt
  have hR : R ≠ 0 := (h.pos.trans hF).ne'
  refine ⟨h.pos, h.frameworks.congr hle fun n hFn hnR => hkept n (h.pos.trans_le hFn).ne' hnR.le,
    fun hne => ?_, ⟨?_, hroot h.products.2⟩, h.lt.trans_le hle⟩
  · rw [(hkept F h.pos.ne' hF.le).1] at hne
    exact hroot (h.inside hne)
  · rw [(hkept R hR le_rfl).1, h.products.1]

theorem Framing.shelved (h : Framing f F) :
    ∃ f', f' = ((addfolder f F).new (some "Products".toList) .empty).insert 0 f.count ∧
      Shelved f' F f.count ∧ (∃ level, Leveled f' level none) ∧
      ∀ n, (f'.node n).data.buildid = none := by
  obtain ⟨level, hl, hlevel⟩ := h.leveled
  have hF := h.frameworks.lt
  have hpos : 0 < f.count := h.pos.trans hF
  obtain ⟨hcount, hinside, -, hchildren, -, hlabels⟩ := @addfolder_node f F h.pos.ne'
  have hl₁ := leveled_addfolder hl hlevel hF hpos h.named h.orphan
  have hframeworks : FrameworksIn (addfolder f F) F f.count := h.frameworks.congr hcount.ge
    fun n hFn _ => ⟨hchildren n (h.pos.trans_le hFn).ne', (hlabels n).1⟩
  have hblank : ∀ n, ((addfolder f F).node n).data.buildid = none := fun n => by
    rw [(hlabels n).2]
    exact h.blank n
  rw [← hchildren F h.pos.ne'] at hinside
  generalize addfolder f F = f₁ at hcount hinside hl₁ hframeworks hblank ⊢
  rw [← hcount] at hpos hframeworks ⊢
  obtain ⟨hnew, ⟨index, hnode, -⟩, hframe⟩ :=
    insert_new_node hpos (some "Products".toList) NodeData.empty
  refine ⟨_, rfl, ⟨h.pos, hframeworks.congr (Nat.le_succ _) fun n hFn hn => ?_, fun hne => ?_,
    ⟨?_, ?_⟩, Nat.lt_succ_self _⟩, ⟨_, hl₁.insert_new hpos _ _⟩, fun n => ?_⟩
  · rw [hframe n (h.pos.trans_le hFn).ne' hn.ne]
    exact ⟨rfl, rfl⟩
  · rw [hframe F h.pos.ne' hframeworks.lt.ne] at hne
    rw [hnode]
    exact List.mem_append_left _ (hinside hne)
  · rw [hnew]
  · rw [hnode]
    exact List.mem_append_right _ List.mem_cons_self
  · by_cases hn : n = f₁.count
    · rw [hn, hnew]
      rfl
    by_cases hn0 : n = 0
    · rw [hn0, hnode]
      exact hblank 0
    · rw [hframe n hn0 hn]
      exact hblank n

/-- The folder `Q` with projects, all made after it, and the targets of the projects. -/
def ProjectsIn (f : PrjTree) (Q : ℕ) (deps : List Dependency) : Prop :=
  ∃ s, Stands f Q s ∧ (∀ n ∈ s.nodes, Q < n ∧ n < f.count) ∧
    s.leaves.map (fun n => (f.node n).name) = deps.map fun dep => some dep.linktarget.name

theorem ProjectsIn.addproject {deps : List Dependency} (h : ProjectsIn f Q deps)
    (hQ : Q < f.count) (dep : Dependency) :
    ProjectsIn (Xcode.addproject Q f dep) Q (deps ++ [dep]) := by
  obtain ⟨s, hs, hlt, hnames⟩ := h
  obtain ⟨index, index', hproject, htarget, hfolder, hframe⟩ := addproject_node hQ dep
  have hcount : (Xcode.addproject Q f dep).count = f.count + 2 := rfl
  generalize Xcode.addproject Q f dep = f' at *
  have hkept : ∀ n ∈ s.nodes, f'.node n = f.node n := fun n hn =>
    hframe n (hlt n hn).1.ne' (hlt n hn).2
  have hnodes : (s.append (.cons f.count (.cons (f.count + 1) .nil .nil) .nil)).nodes =
      s.nodes ++ [f.count, f.count + 1] := Grove.nodes_append s _
  refine ⟨s.append (.cons f.count (.cons (f.count + 1) .nil .nil) .nil),
    ⟨?_, (hs.holds.congr hkept).append ⟨?_, ?_, ⟨?_, ?_, trivial, trivial⟩, trivial⟩, ?_⟩,
    fun n hn => ?_, ?_⟩
  · rw [hfolder, Grove.roots_append, hs.children]
    rfl
  · rw [hproject]
  · rw [hproject]
    rfl
  · rw [htarget]
  · rw [htarget]
    rfl
  · rw [hnodes, ← List.cons_append]
    refine List.nodup_append.mpr ⟨hs.nodup, by simp, fun n hn m hm => ?_⟩
    have hn : n < f.count := by
      rcases List.mem_cons.mp hn with rfl | hn
      · exact hQ
      · exact (hlt n hn).2
    simp only [List.mem_cons, List.not_mem_nil, or_false] at hm
    omega
  · rw [hnodes] at hn
    rcases List.mem_append.mp hn with hn | hn
    · have := hlt n hn
      omega
    · simp only [List.mem_cons, List.not_mem_nil, or_false] at hn
      omega
  · have hleaves : s.leaves.map (fun n => (f'.node n).name) =
        s.leaves.map fun n => (f.node n).name := List.map_congr_left fun n hn => by
      rw [hkept n ((Grove.leaves_sublist_nodes s).subset hn)]
    rw [Grove.leaves_append, List.map_append, hleaves, hnames, List.map_append]
    simp [Grove.leaves, htarget]

/-- The heap while the projects are added: the folder `Q` is not in the tree yet. -/
structure Siblings (f : PrjTree) (F R Q : ℕ) (deps : List Dependency) : Prop where
  leveled : ∃ level, Leveled f level none ∧ level Q = level 0 + 1
  blank : ∀ n, (f.node n).data.buildid = none
  orphan : (f.node Q).parent = none
  named : (f.node Q).name.isSome
  shelved : Shelved f F R
  lt : R < Q ∧ Q < f.count
  projects : ProjectsIn f Q deps

theorem Shelved.siblings {level : ℕ → ℕ} (h : Shelved f F R) (hl : Leveled f level none)
    (hblank : ∀ n, (f.node n).data.buildid = none) :
    Siblings (f.new (some "Projects".toList) .empty) F R f.count [] := by
  have hpos : 0 < f.count := by
    have := h.lt
    omega
  have hnew : (f.new (some "Projects".toList) .empty).node f.count =
      ⟨some "Projects".toList, none, [], [], none, .empty⟩ := by
    simp [Forest.new]
  refine ⟨⟨_, hl.new _ _ (level 0 + 1), ?_⟩, fun n => ?_, ?_, ?_, ?_, ⟨h.lt, Nat.lt_succ_self _⟩,
    .nil, stands_new f _ _, fun _ hn => absurd hn List.not_mem_nil, rfl⟩
  · rw [Function.update_self, Function.update_of_ne hpos.ne]
  · by_cases hn : n = f.count
    · rw [hn, hnew]
      rfl
    · rw [new_node_of_ne hn]
      exact hblank n
  · rw [hnew]
  · rw [hnew]
    rfl
  · refine h.congr (Nat.le_succ _) (fun n _ hn => ?_) ?_
    · rw [new_node_of_ne (hn.trans_lt h.lt).ne]
      exact ⟨rfl, rfl⟩
    · rw [new_node_of_ne hpos.ne]
      exact List.Subset.refl _

theorem Siblings.addproject {deps : List Dependency} (h : Siblings f F R Q deps)
    (dep : Dependency) : Siblings (Xcode.addproject Q f dep) F R Q (deps ++ [dep]) := by
  obtain ⟨level, hl, hlevel⟩ := h.leveled
  obtain ⟨hRQ, hQ⟩ := h.lt
  have hpos : 0 < f.count := by omega
  have hl' := leveled_insertnode (leveled_insertnode hl hQ (Path.getname dep.xcodeproj)
    dep.xcodeproj) (Nat.lt_succ_self f.count) dep.linktarget.name dep.linktarget.fullpath
  have hblank := blank_insertnode (blank_insertnode h.blank hQ (Path.getname dep.xcodeproj)
    dep.xcodeproj) (Nat.lt_succ_self f.count) dep.linktarget.name dep.linktarget.fullpath
  obtain ⟨index, index', hproject, htarget, hfolder, hframe⟩ := addproject_node hQ dep
  have hprojects := h.projects.addproject hQ dep
  have hcount : (Xcode.addproject Q f dep).count = f.count + 2 := rfl
  rw [← Xcode.addproject] at hl' hblank
  refine ⟨⟨_, hl', ?_⟩, hblank, ?_, ?_, ?_, ⟨hRQ, by omega⟩, hprojects⟩
  · rw [insertnode_count, Function.update_of_ne (by omega), Function.update_of_ne hQ.ne,
      Function.update_of_ne (by omega), Function.update_of_ne hpos.ne, hlevel]
  · rw [hfolder]
    exact h.orphan
  · rw [hfolder]
    exact h.named
  · refine h.shelved.congr (by omega) (fun n _ hn => ?_) ?_
    · rw [hframe n (by omega) (by omega)]
      exact ⟨rfl, rfl⟩
    · rw [hframe 0 (by omega) hpos]
      exact List.Subset.refl _

theorem Siblings.foldl {done : List Dependency} (h : Siblings f F R Q done)
    (deps : List Dependency) :
    Siblings (deps.foldl (Xcode.addproject Q) f) F R Q (done ++ deps) := by
  induction deps generalizing f done with
  | nil => rwa [List.append_nil]
  | cons dep deps ih =>
      rw [List.append_cons]
      exact ih (h.addproject dep)

/-- The tree before the final setup, with its special folders. -/
structure Furnished (f : PrjTree) (folders : Folders) (deps : List Dependency) : Prop where
  leveled : ∃ level, Leveled f level none
  blank : ∀ n, (f.node n).data.buildid = none
  shelved : Shelved f folders.frameworks folders.products
  lt : folders.products < folders.projects ∧ folders.projects < f.count
  projects : ProjectsIn f folders.projects deps
  inside : (f.node folders.projects).children ≠ [] → folders.projects ∈ (f.node 0).children

theorem Siblings.furnished {deps : List Dependency} (h : Siblings f F R Q deps) :
    Furnished (addfolder f Q) ⟨F, R, Q⟩ deps := by
  obtain ⟨level, hl, hlevel⟩ := h.leveled
  obtain ⟨hRQ, hQ⟩ := h.lt
  have hpos : 0 < Q := by omega
  obtain ⟨hcount, hinside, hroot, hchildren, hparent, hlabels⟩ := @addfolder_node f Q hpos.ne'
  refine ⟨⟨level, leveled_addfolder hl hlevel hQ (by omega) h.named h.orphan⟩, fun n => ?_,
    h.shelved.congr hcount.ge (fun n hn _ => ⟨hchildren n hn, (hlabels n).1⟩) hroot,
    ⟨hRQ, hcount ▸ hQ⟩, ?_, ?_⟩
  · rw [(hlabels n).2]
    exact h.blank n
  · obtain ⟨s, hs, hlt, hnames⟩ := h.projects
    refine ⟨s, ⟨(hchildren Q hpos.ne').trans hs.children, hs.holds.congr_fields fun n hn =>
      ⟨hparent n (hlt n hn).1.ne', hchildren n (hpos.trans (hlt n hn).1).ne'⟩, hs.nodup⟩,
      fun n hn => ?_, ?_⟩
    · rw [hcount]
      exact hlt n hn
    · rw [← hnames]
      exact List.map_congr_left fun n _ => (hlabels n).1
  · rw [hchildren Q hpos.ne']
    exact hinside

theorem furnished_furnish {level : ℕ → ℕ} (h : Leveled f level none)
    (hblank : ∀ n, (f.node n).data.buildid = none) (hpos : 0 < f.count) (links : List Str)
    (deps : List Dependency) :
    Furnished (furnish f links deps).1 (furnish f links deps).2 deps := by
  have hframing := (framing_new h hblank hpos).foldl links
  obtain ⟨hcount, -⟩ := @addfolder_node (links.foldl (addframework f.count)
    (f.new (some "Frameworks".toList) .empty)) f.count hpos.ne'
  obtain ⟨f', hf', hshelved, ⟨level', hl'⟩, hblank'⟩ := hframing.shelved
  rw [← hcount] at hf' hshelved
  rw [furnish]
  dsimp only
  rw [← hf']
  exact ((hshelved.siblings hl' hblank').foldl deps).furnished

end Furnish

end Xcode

end Puremake
