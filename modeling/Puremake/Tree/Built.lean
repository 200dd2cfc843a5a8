import Puremake.Tree.Levels
import Puremake.Tree.Source

/-!
# Source trees

The tree that `buildsourcetree` returns is a finite tree in which every node below the root
has a name, and an index leads to the child with the name: `tree.add` hangs every new node
below one that is there, the settings of a file are no part of the tree, and `tree.sort`
puts the children of every node in another order.
-/

namespace Puremake

namespace Tree

variable {α : Type*}

/-- A tree in which every node below the root has a name, and what is in the index of a node is
one of its children, with this name. -/
structure SourceTree (f : Forest α) (tr : ℕ) (t : Grove ℕ) : Prop where
  stands : Stands f tr t
  lt : ∀ n ∈ tr :: t.nodes, n < f.count
  named : ∀ n ∈ t.nodes, ∃ name, (f.node n).name = some name
  keyed : ∀ n ∈ tr :: t.nodes, ∀ k c, (f.node n).index.lookup k = some c →
    c ∈ (f.node n).children ∧ (f.node c).name = some k

theorem SourceTree.of_index {f : Forest α} {tr : ℕ} {t : Grove ℕ} (hstands : Stands f tr t)
    (hlt : ∀ n ∈ tr :: t.nodes, n < f.count) (hnamed : ∀ n ∈ t.nodes, (f.node n).name.isSome)
    (hindex : ∀ n ∈ tr :: t.nodes, ∀ e ∈ (f.node n).index,
      e.2 ∈ (f.node n).children ∧ (f.node e.2).name = some e.1) : SourceTree f tr t :=
  ⟨hstands, hlt, fun n hn => Option.isSome_iff_exists.mp (hnamed n hn),
    fun n hn _ _ hk => hindex n hn _ (mem_of_lookup hk)⟩

/-- A heap of trees whose indices lead to the children with the names. -/
structure Indexed (f : Forest α) : Prop where
  leveled : ∃ level, Leveled f level none
  count_pos : 0 < f.count
  keyed : ∀ n k c, (f.node n).index.lookup k = some c →
    c ∈ (f.node n).children ∧ (f.node c).name = some k

section Indexed

variable {f f' : Forest α} {level : ℕ → ℕ}

theorem Indexed.exists_sourceTree (h : Indexed f) {tr : ℕ} (htr : tr < f.count) :
    ∃ t, SourceTree f tr t := by
  obtain ⟨level, hl⟩ := h.leveled
  obtain ⟨t, ht⟩ := hl.exists_stands tr
  have hparent : ∀ n ∈ t.nodes, ∃ q, (f.node n).parent = some q := fun n hn =>
    (ht.holds.parent_mem hn).imp fun q hq => hq.2
  refine ⟨t, ht, fun n hn => ?_, fun n hn => ?_, fun n _ => h.keyed n⟩
  · rcases List.mem_cons.mp hn with rfl | hn
    · exact htr
    · obtain ⟨q, hq⟩ := hparent n hn
      exact (hl.lt n q hq).1
  · obtain ⟨q, hq⟩ := hparent n hn
    exact hl.named n q hq

theorem indexed_start (name : Option Str) (d : α) : Indexed (start name d) where
  leveled := ⟨_, leveled_start name d⟩
  count_pos := Nat.one_pos
  keyed n k c hk := by
    rw [start_node] at hk
    cases hk

theorem Indexed.insertNew (h : Indexed f) {i : ℕ} (hi : i < f.count) (d : α) (p : Str) :
    Indexed (f.insertNew d i p) := by
  obtain ⟨level, hl⟩ := h.leveled
  refine ⟨⟨_, hl.insertNew hi d p⟩, Nat.succ_pos _, fun n k c hk => ?_⟩
  by_cases hnc : n = f.count
  · rw [hnc, insertNew_node_new d hi p] at hk
    cases hk
  rw [insertNew_lookup d hi p hnc] at hk
  rw [mem_insertNew_children d hi p hnc]
  split at hk
  · rename_i hik
    obtain rfl := Option.some.inj hk
    rw [insertNew_node_new d hi p]
    exact ⟨.inr ⟨hik.1, rfl⟩, congrArg some hik.2.symm⟩
  · obtain ⟨hc, hname⟩ := h.keyed n k c hk
    rw [(insertNew_path d hi p (hl.lt c n (hl.listed n nofun c hc)).1.ne).2.1]
    exact ⟨.inl hc, hname⟩

theorem Indexed.lt_of_lookup (h : Indexed f) {i c : ℕ} {k : Str}
    (hk : (f.node i).index.lookup k = some c) : c < f.count := by
  obtain ⟨level, hl⟩ := h.leveled
  exact (hl.lt c i (hl.keyed i (Option.some_ne_none i).symm k c hk)).1

theorem Indexed.add (h : Indexed f) {d : α} {tr c : ℕ} {p : Str} (htr : tr < f.count)
    (hadd : f.add d tr p = some (f', c)) : Indexed f' :=
  (add_invariant (fun _ _ _ _ hf hk => hf.lt_of_lookup hk)
    (fun _ _ p hf hi => hf.insertNew hi d p) h htr hadd).1

/-- The order of the children, the paths and the data do not matter. -/
theorem Indexed.congr (h : Indexed f) (hcount : f'.count = f.count)
    (hchildren : ∀ n, (f'.node n).children.Perm (f.node n).children)
    (hparent : ∀ n, (f'.node n).parent = (f.node n).parent)
    (hname : ∀ n, (f'.node n).name = (f.node n).name)
    (hindex : ∀ n, (f'.node n).index = (f.node n).index) : Indexed f' where
  leveled := h.leveled.imp fun _ hl => hl.congr hcount hchildren hparent
    (fun n hn => by rwa [hname]) hindex
  count_pos := by
    rw [hcount]
    exact h.count_pos
  keyed n k c hk := by
    rw [hindex] at hk
    rw [(hchildren n).mem_iff, hname]
    exact h.keyed n k c hk

end Indexed

end Tree

namespace Project

open Puremake.Tree

variable {ord : PairsOrder} {name : Str} {cfg : BakedConfig} {f f' : Tree.Forest SourceData}
  {files : List SourceFile}

theorem indexed_addFile {file : SourceFile} (h : Indexed f) (hadd : addFile f file = .ok f') :
    Indexed f' := by
  rw [addFile] at hadd
  split at hadd
  · cases hadd
  · rename_i f₁ node hnode
    obtain rfl := Except.ok.inj hadd
    exact (h.add h.count_pos hnode).congr rfl
      (fun n => .of_eq (enter_node f₁ node file.fcfg n).2.2)
      (fun n => (enter_name f₁ node file.fcfg n).2) (fun n => (enter_name f₁ node file.fcfg n).1)
      fun n => (enter_node f₁ node file.fcfg n).2.1

theorem indexed_of_buildsourcetree (h : buildsourcetree ord name cfg = .ok f) : Indexed f := by
  obtain ⟨files, f₁, -, hrun, rfl⟩ := buildsourcetree_eq_ok.mp h
  have hf₁ : Indexed f₁ :=
    @FoldRun.foldlM_invariant _ _ _ addFile (fun _ _ => True) (fun _ f => Indexed f)
      (fun _ _ _ _ hs _ hadd => indexed_addFile hs hadd) [] files _ _
      (indexed_start (some name) _) (FoldRun.along_of_forall (fun _ _ => trivial) _ _) hrun
  exact hf₁.congr rfl (fun n => List.mergeSort_perm _ _) (fun _ => rfl) (fun _ => rfl)
    fun _ => rfl

theorem exists_sourceTree (h : buildsourcetree ord name cfg = .ok f) :
    ∃ t, SourceTree f 0 t :=
  (indexed_of_buildsourcetree h).exists_sourceTree (indexed_of_buildsourcetree h).count_pos

theorem leaf_iff {t : Grove ℕ} (h : Stands f 0 t) {n : ℕ} : Leaf f n ↔ n ∈ t.leaves := by
  rw [h.holds.mem_leaves_iff, h.mem_nodes_iff, and_assoc]
  rfl

/-- A tree to which some files have been added: the root has the name of the project, every other
node has a path, and settings are those of a file. -/
structure Entered (name : Str) (files : List SourceFile) (f : Tree.Forest SourceData) : Prop where
  indexed : Indexed f
  root : (f.node 0).name = some name
  path : ∀ n, 0 < n → n < f.count → (f.node n).path.isSome
  settings : ∀ n fcfg, (f.node n).data.cfg = some fcfg → ∃ file ∈ files, file.fcfg = fcfg

theorem entered_start (name : Str) : Entered name [] (Tree.start (some name) ⟨false, none⟩) where
  indexed := indexed_start (some name) _
  root := by
    rw [start_node]
    rfl
  path n hpos hlt := absurd hpos (Nat.not_lt.mpr (Nat.lt_succ_iff.mp hlt))
  settings n fcfg h := by
    rw [start_node] at h
    cases h

theorem Entered.insertNew (h : Entered name files f) {i : ℕ} (hi : i < f.count) (isvpath : Bool)
    (p : Str) : Entered name files (f.insertNew ⟨isvpath, none⟩ i p) where
  indexed := h.indexed.insertNew hi _ p
  root := by
    rw [(insertNew_path _ hi p h.indexed.count_pos.ne).2.1]
    exact h.root
  path n hpos hlt := by
    by_cases hn : n = f.count
    · rw [hn, insertNew_node_new _ hi p]
      rfl
    · rw [(insertNew_path _ hi p hn).1]
      exact h.path n hpos (lt_of_le_of_ne (Nat.lt_succ_iff.mp hlt) hn)
  settings n fcfg hcfg := by
    by_cases hn : n = f.count
    · rw [hn, insertNew_node_new _ hi p] at hcfg
      cases hcfg
    · rw [(insertNew_path _ hi p hn).2.2.2] at hcfg
      exact h.settings n fcfg hcfg

theorem Entered.addFile {file : SourceFile} (h : Entered name files f)
    (hadd : addFile f file = .ok f') : Entered name (files ++ [file]) f' := by
  have hindexed := indexed_addFile h.indexed hadd
  rw [Project.addFile] at hadd
  split at hadd
  · cases hadd
  · rename_i f₁ c hnode
    obtain rfl : enter f₁ c file.fcfg = f' := Except.ok.inj hadd
    have h₁ : Entered name files f₁ :=
      (add_invariant (fun _ _ _ _ hf hk => hf.indexed.lt_of_lookup hk)
        (fun _ _ p hf hi => hf.insertNew hi _ p) h h.indexed.count_pos hnode).1
    refine ⟨hindexed, ?_, fun n hpos hlt => ?_, fun n fcfg hcfg => ?_⟩
    · rw [(enter_name f₁ c file.fcfg 0).1]
      exact h₁.root
    · rw [(enter_node f₁ c file.fcfg n).1]
      exact h₁.path n hpos hlt
    · by_cases hn : n = c
      · rw [hn, enter_cfg_self] at hcfg
        exact ⟨file, List.mem_append_right _ (List.mem_singleton_self file), Option.some.inj hcfg⟩
      · rw [enter_cfg_of_ne f₁ c file.fcfg hn] at hcfg
        obtain ⟨file', hfile', heq⟩ := h₁.settings n fcfg hcfg
        exact ⟨file', List.mem_append_left _ hfile', heq⟩

theorem entered_of_buildsourcetree (hfiles : eachfile ord cfg = .ok files)
    (h : buildsourcetree ord name cfg = .ok f) : Entered name files f := by
  have hindexed := indexed_of_buildsourcetree h
  obtain ⟨files', f₁, hfiles', hrun, rfl⟩ := buildsourcetree_eq_ok.mp h
  obtain rfl : files = files' := Except.ok.inj (hfiles.symm.trans hfiles')
  have h₁ : Entered name files f₁ :=
    @FoldRun.foldlM_invariant _ _ _ Project.addFile (fun _ _ => True)
      (fun done f => Entered name done f) (fun _ _ _ _ hs _ hadd => hs.addFile hadd) [] files _ _
      (entered_start name) (FoldRun.along_of_forall (fun _ _ => trivial) _ _) hrun
  exact ⟨hindexed, h₁.root, h₁.path, h₁.settings⟩

end Project

end Puremake
