import Puremake.Ide.Csproj
import Puremake.Ide.Others
import Puremake.Ide.Vcproj

/-!
# What is named by the generators that print the source tree

Four generators traverse the source tree and name the file of every leaf. Nothing else that they
write names a file, and they always write something for a leaf with settings.
-/

namespace Puremake

namespace Ide

open Puremake.Project (SourceData)

/-- A printer of source trees names the file of every leaf, with a value for its name, and no
other one. -/
structure NamesLeaves (w : Tree.Printer SourceData Line) (value : Str → Str) : Prop where
  enter : ∀ node depth lines, w.branchenter node depth = some lines → named lines = []
  exit : ∀ node depth lines, w.branchexit node depth = some lines → named lines = []
  leaf : ∀ node depth lines, w.leaf node depth = some lines →
    ∃ fcfg, node.data.cfg = some fcfg ∧ named lines = [Xml.attrValue (value fcfg.name)]
  branch_isSome : ∀ node depth, node.name.isSome →
    (w.branchenter node depth).isSome ∧ (w.branchexit node depth).isSome
  leaf_isSome : ∀ node depth, node.data.cfg.isSome → node.name.isSome → node.path.isSome →
    (w.leaf node depth).isSome

section Tree

variable {w : Tree.Printer SourceData Line} {value : Str → Str} {f : Tree.Forest SourceData}
  {t : Grove ℕ} {depth : ℕ} {lines : List Line}

theorem NamesLeaves.mem_named (hw : NamesLeaves w value) (h : w.printed f t depth = some lines)
    (v : Option Str) : v ∈ named lines ↔ ∃ n ∈ t.leaves, ∃ fcfg,
      (f.node n).data.cfg = some fcfg ∧ v = Xml.attrValue (value fcfg.name) := by
  have hlines : named lines = t.leaves.flatMap fun n =>
      ((f.node n).data.cfg.map fun fcfg => Xml.attrValue (value fcfg.name)).toList := by
    refine @Tree.filterMap_printed _ _ _ _ _ _ _ _ _
      (fun node => (node.data.cfg.map fun fcfg => Xml.attrValue (value fcfg.name)).toList)
      hw.enter hw.exit (fun node depth lines hleaf => ?_) h
    obtain ⟨fcfg, hfcfg, hnamed⟩ := hw.leaf node depth lines hleaf
    rw [hfcfg]
    exact hnamed
  simp only [hlines, List.mem_flatMap, Option.mem_toList, Option.map_eq_some_iff,
    eq_comm (b := v)]

theorem NamesLeaves.settings (hw : NamesLeaves w value) (h : w.printed f t depth = some lines)
    {n : ℕ} (hn : n ∈ t.leaves) : ∃ fcfg, (f.node n).data.cfg = some fcfg := by
  obtain ⟨depth, lines, hleaf⟩ := Tree.leaf_of_printed h n hn
  obtain ⟨fcfg, hfcfg, -⟩ := hw.leaf _ depth lines hleaf
  exact ⟨fcfg, hfcfg⟩

/-- Something is written for a tree with names and paths, when the leaves have settings. -/
theorem NamesLeaves.exists_printed (hw : NamesLeaves w value)
    (hname : ∀ n ∈ t.nodes, (f.node n).name.isSome)
    (hleaf : ∀ n ∈ t.leaves, (f.node n).data.cfg.isSome ∧ (f.node n).name.isSome ∧
      (f.node n).path.isSome) (depth : ℕ) : ∃ lines, w.printed f t depth = some lines := by
  refine Tree.exists_printed (fun n hn depth => hw.branch_isSome _ depth (hname n hn))
    (fun n hn depth => ?_) depth
  obtain ⟨hcfg, hname, hpath⟩ := hleaf n hn
  exact hw.leaf_isSome _ depth hcfg hname hpath

end Tree

section Codelite

theorem namesLeaves_codelite : NamesLeaves Codelite.printer id where
  enter node depth lines h := by
    obtain ⟨name, -, rfl⟩ := Option.map_eq_some_iff.mp h
    rfl
  exit node depth lines h := by
    obtain rfl := Option.some.inj h
    rfl
  leaf node depth lines h := by
    obtain ⟨fcfg, hfcfg, rfl⟩ := Option.map_eq_some_iff.mp h
    exact ⟨fcfg, hfcfg, rfl⟩
  branch_isSome node depth hname := by
    refine ⟨?_, rfl⟩
    rw [Codelite.printer, Option.isSome_map]
    exact hname
  leaf_isSome node depth hcfg _ _ := by
    rw [Codelite.printer, Option.isSome_map]
    exact hcfg

end Codelite

section Vc200x

variable {prj : Ide.Project} {depth : ℕ} {lines : List Line}

theorem named_pchLines {cfg : BakedConfig} (h : Vc200x.pchLines depth cfg = some lines) :
    named lines = [] := by
  rw [Vc200x.pchLines] at h
  split at h
  · obtain ⟨cflags, -, heq⟩ := Option.bind_eq_some_iff.mp h
    obtain rfl := Option.some.inj heq
    rfl
  · obtain rfl := Option.some.inj h
    rfl

theorem named_settingsLines (fname : Str) (depth : ℕ) (c : Vstudio.Config × BakedConfig)
    (pch : List Line) : named (Vc200x.settingsLines prj fname depth c pch) = named pch := by
  rw [Vc200x.settingsLines, named_append, named_append, named_append]
  by_cases h : Vc200x.needsCompileAs prj fname
  · rw [if_pos h]
    exact List.append_nil _
  · rw [if_neg h]
    exact List.append_nil _

theorem named_fileConfiguration {fname : Str} {c : Vstudio.Config × BakedConfig}
    (h : Vc200x.fileConfiguration prj fname depth c = some lines) : named lines = [] := by
  rw [Vc200x.fileConfiguration] at h
  split at h
  · split at h
    · obtain ⟨pch, hpch, rfl⟩ := Option.map_eq_some_iff.mp h
      rw [named_settingsLines]
      split at hpch
      · exact named_pchLines hpch
      · obtain rfl := Option.some.inj hpch
        rfl
    · obtain rfl := Option.some.inj h
      rfl
  · obtain rfl := Option.some.inj h
    rfl

theorem isSome_pchLines {cfg : BakedConfig}
    (h : cfg.system = "PS3".toList → cfg.platform = "PS3".toList) :
    (Vc200x.pchLines depth cfg).isSome := by
  rw [Vc200x.pchLines]
  split
  · rename_i hsystem
    rw [Snc.getcflags, if_pos (h hsystem)]
    rfl
  · rfl

theorem isSome_fileConfiguration {c : Vstudio.Config × BakedConfig} (hc : c ∈ prj.configs)
    (fname : Str) (depth : ℕ) : (Vc200x.fileConfiguration prj fname depth c).isSome := by
  rw [Vc200x.fileConfiguration]
  split
  · split
    · split
      · obtain ⟨pch, hpch⟩ := Option.isSome_iff_exists.mp
          (@isSome_pchLines depth c.2 (prj.crosscompiled c hc))
        rw [hpch]
        rfl
      · rfl
    · rfl
  · rfl

theorem namesLeaves_vc200x (prj : Ide.Project) :
    NamesLeaves (Vc200x.printer prj) (Path.translate · '\\') where
  enter node depth lines h := by
    obtain ⟨name, -, rfl⟩ := Option.map_eq_some_iff.mp h
    rfl
  exit node depth lines h := by
    obtain rfl := Option.some.inj h
    rfl
  leaf node depth lines h := by
    obtain ⟨fcfg, hfcfg, h⟩ := Option.bind_eq_some_iff.mp h
    obtain ⟨settings, hsettings, heq⟩ := Option.bind_eq_some_iff.mp h
    obtain rfl := Option.some.inj heq
    have hnil : named settings.flatten = [] := by
      rw [named, List.filterMap_flatten, List.flatten_eq_nil_iff]
      intro l hl
      obtain ⟨ls, hls, rfl⟩ := List.mem_map.mp hl
      obtain ⟨c, -, hc⟩ := FoldRun.exists_left_of_forall₂ (FoldRun.mapM_eq_some.mp hsettings) hls
      exact named_fileConfiguration hc
    refine ⟨fcfg, hfcfg, ?_⟩
    rw [named_append, named_append, hnil]
    rfl
  branch_isSome node depth hname := by
    refine ⟨?_, rfl⟩
    rw [Vc200x.printer, Option.isSome_map]
    exact hname
  leaf_isSome node depth hcfg _ _ := by
    obtain ⟨fcfg, hfcfg⟩ := Option.isSome_iff_exists.mp hcfg
    obtain ⟨settings, hsettings⟩ := FoldRun.exists_mapM_eq_some fun c hc =>
      @isSome_fileConfiguration prj c hc fcfg.name (depth + 1)
    rw [Vc200x.printer]
    dsimp only
    rw [hfcfg, Option.bind_eq_bind, Option.bind_some, hsettings]
    rfl

end Vc200x

section Csproj

theorem named_elementLines_cs2002 (e : Elements) : named (Cs2002.elementLines e) = [] := by
  rw [Cs2002.elementLines, named_append]
  split
  · split <;> rfl
  · split <;> rfl

theorem namesLeaves_cs2002 (prj : Ide.Project) :
    NamesLeaves (Cs2002.printer prj) fun name => Path.translate (Xml.escText name) '\\' where
  enter node depth lines h := by
    obtain rfl := Option.some.inj h
    rfl
  exit node depth lines h := by
    obtain rfl := Option.some.inj h
    rfl
  leaf node depth lines h := by
    obtain ⟨fcfg, hfcfg, h⟩ := Option.bind_eq_some_iff.mp h
    obtain ⟨path, -, h⟩ := Option.bind_eq_some_iff.mp h
    obtain rfl := Option.some.inj h
    refine ⟨fcfg, hfcfg, ?_⟩
    rw [named_append, named_append, named_elementLines_cs2002]
    rfl
  branch_isSome _ _ _ := ⟨rfl, rfl⟩
  leaf_isSome node depth hcfg _ hpath := by
    obtain ⟨fcfg, hfcfg⟩ := Option.isSome_iff_exists.mp hcfg
    obtain ⟨path, hpath⟩ := Option.isSome_iff_exists.mp hpath
    rw [Cs2002.printer]
    dsimp only
    rw [hfcfg, hpath]
    rfl

theorem named_elementLines_cs2005 (e : Elements) (name : Str) :
    named (Cs2005.elementLines e name) = [] := by
  rw [Cs2005.elementLines, named_append, named_texts]
  split <;> rfl

theorem namesLeaves_cs2005 (prj : Ide.Project) :
    NamesLeaves (Cs2005.printer prj) fun name => Path.translate (Xml.escText name) '\\' where
  enter node depth lines h := by
    obtain rfl := Option.some.inj h
    rfl
  exit node depth lines h := by
    obtain rfl := Option.some.inj h
    rfl
  leaf node depth lines h := by
    obtain ⟨fcfg, hfcfg, h⟩ := Option.bind_eq_some_iff.mp h
    obtain ⟨path, -, h⟩ := Option.bind_eq_some_iff.mp h
    obtain ⟨name, -, h⟩ := Option.bind_eq_some_iff.mp h
    obtain rfl := Option.some.inj h
    refine ⟨fcfg, hfcfg, ?_⟩
    split
    · rfl
    · rw [List.cons_append, named_file, named_append, named_elementLines_cs2005]
      rfl
  branch_isSome _ _ _ := ⟨rfl, rfl⟩
  leaf_isSome node depth hcfg hname hpath := by
    obtain ⟨fcfg, hfcfg⟩ := Option.isSome_iff_exists.mp hcfg
    obtain ⟨path, hpath⟩ := Option.isSome_iff_exists.mp hpath
    obtain ⟨name, hname⟩ := Option.isSome_iff_exists.mp hname
    rw [Cs2005.printer]
    dsimp only
    rw [hfcfg, hpath, hname]
    rfl

end Csproj

end Ide

end Puremake
