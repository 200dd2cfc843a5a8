import Puremake.Ide.Leaves
import Puremake.Ide.Vcxproj

/-!
# What is named in the projects of Visual Studio 2010

The project file and the filters file have four sections each, and a file stands in one of them.
What is named in all of them together are the files of the project.
-/

namespace Puremake

namespace Ide

open Puremake.Project (SourceFile)
open Vstudio (FilterProject sectionOf getfilegroup)

/-- What is read for the name of a file when it is written without escaping. -/
def readPath (file : SourceFile) : Option Str := Xml.attrValue (Path.translate file.fcfg.name '\\')

/-- What is named in a section, of the project file or of the filters file, are the files that are
sorted into it. -/
def NamesSection (write : FilterProject → List Line × FilterProject) (group : Vstudio.Section) :
    Prop :=
  ∀ prj, named (write prj).1 = (getfilegroup prj group).1.map readPath ∧
    (write prj).2.files = prj.files

section Sections

variable {prj : FilterProject} {group : Vstudio.Section}

theorem files_getfilegroup (prj : FilterProject) (group : Vstudio.Section) :
    (getfilegroup prj group).2.files = prj.files := by
  rw [getfilegroup]
  split
  · rfl
  · rfl

/-- A section is written between two lines when it has files, and not at all otherwise. -/
theorem namesSection_of_named (body : List SourceFile → List Line) (first last : Line)
    (hbody : ∀ files, named (first :: body files ++ [last]) = files.map readPath)
    {write : FilterProject → List Line × FilterProject} {group : Vstudio.Section}
    (hwrite : ∀ prj, write prj =
      if (getfilegroup prj group).1.length > 0
      then (first :: body (getfilegroup prj group).1 ++ [last], (getfilegroup prj group).2)
      else ([], (getfilegroup prj group).2)) : NamesSection write group := by
  intro prj
  rw [hwrite]
  split
  · exact ⟨hbody _, files_getfilegroup prj group⟩
  · rename_i hlen
    refine ⟨?_, files_getfilegroup prj group⟩
    rw [List.eq_nil_of_length_eq_zero (Nat.eq_zero_of_not_pos hlen)]
    rfl

theorem namesSection_simplefilesgroup (group : Vstudio.Section) :
    NamesSection (Vc2010.simplefilesgroup · group) group := by
  refine namesSection_of_named (fun files => files.map fun file =>
    .file 2 (Vc2010.front group) (Path.translate file.fcfg.name '\\') " />".toList)
    (.text 1 "<ItemGroup>".toList) (.text 1 "</ItemGroup>".toList) (fun files => ?_) fun prj => rfl
  rw [named_append, named_text]
  refine (List.append_nil _).trans ?_
  induction files with
  | nil => rfl
  | cons file files ih => exact congrArg (readPath file :: ·) ih

theorem named_compilerFile (st : List Line × Vc2010.Mappings) (file : SourceFile) :
    named (Vc2010.compilerFile st file).1 = named st.1 ++ [readPath file] := by
  rw [Vc2010.compilerFile, named_append, named_append, named_file, named_texts]
  exact List.append_nil _

theorem namesSection_compilerfilesgroup (configs : List (Vstudio.Config × BakedConfig)) :
    NamesSection (Vc2010.compilerfilesgroup configs) .ClCompile := by
  have hbody : ∀ (files : List SourceFile) (st : List Line × Vc2010.Mappings),
      named (files.foldl Vc2010.compilerFile st).1 = named st.1 ++ files.map readPath := by
    intro files
    induction files with
    | nil => exact fun st => (List.append_nil _).symm
    | cons file files ih =>
        intro st
        rw [List.foldl_cons, ih, named_compilerFile, List.append_assoc]
        rfl
  refine namesSection_of_named (fun files => (files.foldl Vc2010.compilerFile
    ([], configs.map fun c => (c.1, Vc2010.pchMapping c.2))).1) (.text 1 "<ItemGroup>".toList)
    (.text 1 "</ItemGroup>".toList) (fun files => ?_) fun prj => rfl
  rw [named_append, named_text, hbody]
  exact List.append_nil _

theorem named_fileLines (group : Vstudio.Section) (file : SourceFile) :
    named ((Vstudio.fileLines group file).map Vc2010.filterLine) = [readPath file] := by
  have hlines : ∀ filter, named ((if filter ≠ dot then
      [Vstudio.Line.file group (Path.translate file.fcfg.name '\\'),
        .filter (Path.translate filter '\\'), .fileEnd group]
      else [.fileOnly group (Path.translate file.fcfg.name '\\')]).map Vc2010.filterLine) =
        [readPath file] := by
    intro filter
    split
    · rfl
    · rfl
  exact hlines _

theorem namesSection_filefiltergroup (group : Vstudio.Section) :
    NamesSection (fun prj => ((Vstudio.filefiltergroup prj group).1.map Vc2010.filterLine,
      (Vstudio.filefiltergroup prj group).2)) group := by
  refine namesSection_of_named
    (fun files => (files.flatMap (Vstudio.fileLines group)).map Vc2010.filterLine)
    (Vc2010.filterLine .itemGroup) (Vc2010.filterLine .itemGroupEnd) (fun files => ?_) fun prj => ?_
  · rw [Vc2010.filterLine, Vc2010.filterLine, named_append, named_text, List.map_flatMap,
      named_flatMap]
    refine (List.append_nil _).trans ?_
    induction files with
    | nil => rfl
    | cons file files ih =>
        rw [List.flatMap_cons, named_fileLines, ih]
        rfl
  · rw [Vstudio.filefiltergroup]
    dsimp only
    split
    · rw [List.map_append]
      rfl
    · rfl

theorem mem_named_sections {files : List SourceFile} {sections : List (List Line)}
    {groups : List Vstudio.Section} (hgroups : ∀ group, group ∈ groups)
    (h : List.Forall₂ (fun lines group => named lines =
      (files.filter fun file => sectionOf file = group).map readPath) sections groups)
    (v : Option Str) : v ∈ named sections.flatten ↔ ∃ file ∈ files, v = readPath file := by
  rw [named, List.filterMap_flatten, List.mem_flatten]
  constructor
  · rintro ⟨names, hnames, hv⟩
    obtain ⟨lines, hlines, rfl⟩ := List.mem_map.mp hnames
    obtain ⟨group, -, hgroup⟩ := FoldRun.exists_right_of_forall₂ h hlines
    rw [← named, hgroup] at hv
    obtain ⟨file, hfile, rfl⟩ := List.mem_map.mp hv
    exact ⟨file, (List.mem_filter.mp hfile).1, rfl⟩
  · rintro ⟨file, hfile, rfl⟩
    obtain ⟨lines, hlines, hgroup⟩ := FoldRun.exists_left_of_forall₂ h (hgroups (sectionOf file))
    refine ⟨named lines, List.mem_map_of_mem hlines, ?_⟩
    rw [hgroup]
    exact List.mem_map_of_mem (List.mem_filter.mpr ⟨hfile, decide_eq_true rfl⟩)

theorem NamesSection.eq {write : FilterProject → List Line × FilterProject}
    (h : NamesSection write group) {files : List SourceFile} (hfiles : prj.files = files) :
    named (write prj).1 = (files.filter fun file => sectionOf file = group).map readPath ∧
      (write prj).2.files = files := by
  obtain ⟨hnamed, hkept⟩ := h prj
  rw [hnamed, hkept, Vstudio.getfilegroup_eq, hfiles]
  exact ⟨rfl, rfl⟩

theorem mem_named_files (configs : List (Vstudio.Config × BakedConfig)) (prj : FilterProject)
    (v : Option Str) :
    v ∈ named (Vc2010.files configs prj).1 ↔ ∃ file ∈ prj.files, v = readPath file := by
  obtain ⟨h₁, hp₁⟩ := @NamesSection.eq prj _ _ (namesSection_simplefilesgroup .ClInclude) _ rfl
  obtain ⟨h₂, hp₂⟩ := (namesSection_compilerfilesgroup configs).eq hp₁
  obtain ⟨h₃, hp₃⟩ := (namesSection_simplefilesgroup .None).eq hp₂
  obtain ⟨h₄, -⟩ := (namesSection_simplefilesgroup .ResourceCompile).eq hp₃
  refine Iff.trans ?_ (mem_named_sections (fun group => ?_)
    (.cons h₁ (.cons h₂ (.cons h₃ (.cons h₄ .nil)))) v)
  · rw [Vc2010.files]
    simp only [List.flatten_cons, List.flatten_nil, List.append_nil, List.append_assoc]
  · cases group <;> simp

theorem mem_named_filterfiles (prj : FilterProject) (v : Option Str) :
    v ∈ named (Vc2010.filterfiles prj).1 ↔ ∃ file ∈ prj.files, v = readPath file := by
  obtain ⟨h₁, hp₁⟩ := @NamesSection.eq prj _ _ (namesSection_filefiltergroup .None) _ rfl
  obtain ⟨h₂, hp₂⟩ := (namesSection_filefiltergroup .ClInclude).eq hp₁
  obtain ⟨h₃, hp₃⟩ := (namesSection_filefiltergroup .ClCompile).eq hp₂
  obtain ⟨h₄, -⟩ := (namesSection_filefiltergroup .ResourceCompile).eq hp₃
  refine Iff.trans ?_ (mem_named_sections (fun group => ?_)
    (.cons h₁ (.cons h₂ (.cons h₃ (.cons h₄ .nil)))) v)
  · rw [Vc2010.filterfiles]
    simp only [List.flatten_cons, List.flatten_nil, List.append_nil, List.append_assoc,
      List.map_append]
  · cases group <;> simp

end Sections

end Ide

end Puremake
