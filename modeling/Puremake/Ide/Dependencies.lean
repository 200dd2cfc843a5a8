import Puremake.Ide.Csproj
import Puremake.Path.Decompose

/-!
# Dependent files in C# projects

A designer file, the code of a page or a resource is marked as depending on another file of the
project. The name of that file is made by cutting off the end of the virtual path, and a file is
taken to be in the project when the name of some file ends like it, so that a file elsewhere, or
one with a longer name, can be the one that is found.
-/

namespace Puremake

namespace Ide

open Puremake.Project (SourceFile eachfile)

def beside (fname name : Str) : Str :=
  fname.take (fname.length - (Path.getname fname).length) ++ name

def Project.files (prj : Ide.Project) : List Str := (prj.root.fields.list .files).arr

/-- The file that another one depends on is a file of the project in the same directory. -/
def PointsAt (prj : Ide.Project) (fname : Str) (dependency : Option Str) : Prop :=
  ∀ dep ∈ dependency, beside fname (Path.getname dep) ∈ prj.files

/-- The dependencies that both functions `getelements` return for the files of a project. The
path of the node of a file is its virtual path. -/
def DependsOnFiles (ord : PairsOrder) (prj : Ide.Project) : Prop :=
  ∀ files, eachfile ord prj.root = .ok files → ∀ file ∈ files,
    PointsAt prj file.fcfg.name
        (Cs2005.getelements prj (getbuildaction file.fcfg) file.vpath).2 ∧
      PointsAt prj file.fcfg.name
        (Cs2002.getelements prj (getbuildaction file.fcfg) file.vpath).2

def Found (prj : Ide.Project) (ending : Str) : Prop := ∃ g ∈ prj.files, ending <:+ g

/-- Where a file of the project ends like the source of a designer file (in C#, or else a
resource), like the page of a code file, or has a name that ends like the code of a resource,
there is one of this name beside the file. -/
structure Accompanied (prj : Ide.Project) (action vpath fname : Str) : Prop where
  code : ∀ base, action = "Compile".toList → vpath = base ++ ".Designer.cs".toList →
    Found prj (base ++ ".cs".toList) →
    beside fname (Path.getname (base ++ ".cs".toList)) ∈ prj.files
  resource : ∀ base, action = "Compile".toList → vpath = base ++ ".Designer.cs".toList →
    ¬ Found prj (base ++ ".cs".toList) → Found prj (base ++ ".resx".toList) →
    beside fname (Path.getname (base ++ ".resx".toList)) ∈ prj.files
  page : ∀ base, action = "Compile".toList → vpath = base ++ ".xaml.cs".toList →
    Found prj (base ++ ".xaml".toList) →
    beside fname (Path.getname (base ++ ".xaml".toList)) ∈ prj.files
  form : ∀ base, action = "EmbeddedResource".toList → vpath = base ++ ".resx".toList →
    Found prj (Path.getname (base ++ ".cs".toList)) →
    beside fname (Path.getname (base ++ ".cs".toList)) ∈ prj.files

section Elements

variable {prj : Ide.Project} {action vpath fname base ending : Str}

theorem findfile_isSome : (findfile prj ending).isSome ↔ Found prj ending := by
  rw [findfile, List.find?_isSome]
  simp [Found, Project.files, Str.endswith]

theorem endswith_iff : vpath.endswith ending = true ↔ ∃ base, vpath = base ++ ending := by
  rw [Str.endswith, List.isSuffixOf_iff_suffix]
  exact exists_congr fun base => eq_comm

theorem take_append_sub (base ending : Str) :
    (base ++ ending).take ((base ++ ending).length - ending.length) = base := by
  simp

theorem getname_getname (p : Str) : Path.getname (Path.getname p) = Path.getname p := by
  rw [Path.getname_eq, Path.getname_eq, Path.lastPiece, Path.pieces_lastPiece]
  rfl

theorem compiled_designer (base : Str) :
    Cs2005.compiled prj (base ++ ".Designer.cs".toList) =
      if (findfile prj (base ++ ".cs".toList)).isSome then
        some ("Dependency".toList, some (base ++ ".cs".toList))
      else if (findfile prj (base ++ ".resx".toList)).isSome then
        some ("AutoGen".toList, some (base ++ ".resx".toList))
      else none := by
  have hbase := take_append_sub base ".Designer.cs".toList
  rw [Cs2005.compiled, if_pos (endswith_iff.mpr ⟨base, rfl⟩)]
  dsimp only
  rw [show (12 : ℕ) = (".Designer.cs".toList : Str).length from rfl, hbase]

theorem compiled_page (base : Str) :
    Cs2005.compiled prj (base ++ ".xaml.cs".toList) =
      if (findfile prj (base ++ ".xaml".toList)).isSome then
        some ("SubTypeCode".toList, some (Path.getname (base ++ ".xaml".toList)))
      else none := by
  have hbase := take_append_sub base ".xaml.cs".toList
  have hnot : ¬ (base ++ ".xaml.cs".toList).endswith ".Designer.cs".toList := by
    rw [Str.endswith, List.isSuffixOf_iff_suffix]
    intro h
    have hsuffix := List.suffix_of_suffix_length_le (List.suffix_append base ".xaml.cs".toList) h
      (by decide)
    exact absurd hsuffix (by decide)
  rw [Cs2005.compiled, if_neg hnot, if_pos (endswith_iff.mpr ⟨base, rfl⟩)]
  dsimp only
  rw [show (8 : ℕ) = (".xaml.cs".toList : Str).length from rfl, hbase]

theorem pointsAt_none : PointsAt prj fname none := fun dep hdep =>
  absurd hdep (Option.not_mem_none dep)

theorem pointsAt_some {dep : Str} :
    PointsAt prj fname (some dep) ↔ beside fname (Path.getname dep) ∈ prj.files := by
  simp [PointsAt]

theorem pointsAt_compiled : PointsAt prj fname ((Cs2005.compiled prj vpath).bind Prod.snd) ↔
    (∀ base, vpath = base ++ ".Designer.cs".toList → Found prj (base ++ ".cs".toList) →
      beside fname (Path.getname (base ++ ".cs".toList)) ∈ prj.files) ∧
    (∀ base, vpath = base ++ ".Designer.cs".toList → ¬ Found prj (base ++ ".cs".toList) →
      Found prj (base ++ ".resx".toList) →
      beside fname (Path.getname (base ++ ".resx".toList)) ∈ prj.files) ∧
    (∀ base, vpath = base ++ ".xaml.cs".toList → Found prj (base ++ ".xaml".toList) →
      beside fname (Path.getname (base ++ ".xaml".toList)) ∈ prj.files) := by
  constructor
  · intro h
    refine ⟨?_, ?_, ?_⟩
    · rintro base rfl hfound
      rw [compiled_designer, if_pos (findfile_isSome.mpr hfound)] at h
      exact pointsAt_some.mp h
    · rintro base rfl hcode hfound
      rw [compiled_designer, if_neg (mt findfile_isSome.mp hcode),
        if_pos (findfile_isSome.mpr hfound)] at h
      exact pointsAt_some.mp h
    · rintro base rfl hfound
      rw [compiled_page, if_pos (findfile_isSome.mpr hfound)] at h
      have hbeside := pointsAt_some.mp h
      rwa [getname_getname] at hbeside
  · rintro ⟨hcode, hresource, hpage⟩
    by_cases hdesigner : vpath.endswith ".Designer.cs".toList
    · obtain ⟨base, rfl⟩ := endswith_iff.mp hdesigner
      rw [compiled_designer]
      split
      · rename_i hfound
        exact pointsAt_some.mpr (hcode base rfl (findfile_isSome.mp hfound))
      · rename_i hfound
        split
        · rename_i hres
          exact pointsAt_some.mpr (hresource base rfl (mt findfile_isSome.mpr hfound)
            (findfile_isSome.mp hres))
        · exact pointsAt_none
    · by_cases hxaml : vpath.endswith ".xaml.cs".toList
      · obtain ⟨base, rfl⟩ := endswith_iff.mp hxaml
        rw [compiled_page]
        split
        · rename_i hfound
          refine pointsAt_some.mpr ?_
          rw [getname_getname]
          exact hpage base rfl (findfile_isSome.mp hfound)
        · exact pointsAt_none
      · rw [Cs2005.compiled, if_neg hdesigner, if_neg hxaml]
        split
        · exact pointsAt_none
        · exact pointsAt_none

theorem pointsAt_embedded (base : Str) :
    PointsAt prj fname ((Cs2005.embedded prj (base ++ ".resx".toList)).bind Prod.snd) ↔
      (Found prj (Path.getname (base ++ ".cs".toList)) →
        beside fname (Path.getname (base ++ ".cs".toList)) ∈ prj.files) := by
  have hbase := take_append_sub base ".resx".toList
  rw [Cs2005.embedded, show (5 : ℕ) = (".resx".toList : Str).length from rfl, hbase,
    ← findfile_isSome]
  cases (findfile prj (Path.getname (base ++ ".cs".toList))).isSome with
  | true =>
      rw [if_pos rfl, forall_prop_of_true rfl]
      split
      · rw [Option.bind_some, pointsAt_some, getname_getname]
      · rw [Option.bind_some, pointsAt_some, getname_getname]
  | false =>
      rw [if_neg Bool.false_ne_true]
      refine iff_of_true ?_ fun h => absurd h Bool.false_ne_true
      split
      · exact pointsAt_none
      · exact pointsAt_none

/-- What `getelements` of the projects for Visual Studio 2005 and later returns. -/
theorem getelements_snd : (Cs2005.getelements prj action vpath).2 =
    if action = "Compile".toList ∧ vpath.endswith ".cs".toList then
      (Cs2005.compiled prj vpath).bind Prod.snd
    else if action = "EmbeddedResource".toList ∧ vpath.endswith ".resx".toList then
      (Cs2005.embedded prj vpath).bind Prod.snd
    else none := by
  rw [Cs2005.getelements]
  have hdflt : (if vpath.endswith ".xaml".toList then ("XamlDesigner".toList, none)
      else if action = "Content".toList then ("CopyNewest".toList, none)
      else ("None".toList, none) : Elements).2 = none := by
    split
    · rfl
    · split <;> rfl
  by_cases hcompile : action = "Compile".toList ∧ vpath.endswith ".cs".toList
  · have hembed : ¬ (action = "EmbeddedResource".toList ∧ vpath.endswith ".resx".toList) := by
      rw [hcompile.1]
      exact fun h => absurd h.1 (by decide)
    rw [if_pos hcompile, if_pos hcompile, if_neg hembed]
    cases Cs2005.compiled prj vpath with
    | none => exact hdflt
    | some e => rfl
  · rw [if_neg hcompile, if_neg hcompile]
    by_cases hembed : action = "EmbeddedResource".toList ∧ vpath.endswith ".resx".toList
    · rw [if_pos hembed, if_pos hembed]
      cases Cs2005.embedded prj vpath with
      | none => exact hdflt
      | some e => rfl
    · rw [if_neg hembed, if_neg hembed]
      exact hdflt

theorem pointsAt_2002 : PointsAt prj fname (Cs2002.getelements prj action vpath).2 ↔
    ∀ base, action = "EmbeddedResource".toList → vpath = base ++ ".resx".toList →
      Found prj (Path.getname (base ++ ".cs".toList)) →
      beside fname (Path.getname (base ++ ".cs".toList)) ∈ prj.files := by
  rw [Cs2002.getelements]
  by_cases hembed : action = "EmbeddedResource".toList ∧ vpath.endswith ".resx".toList
  · obtain ⟨base, rfl⟩ := endswith_iff.mp hembed.2
    have hbase := take_append_sub base ".resx".toList
    have hcompile : ¬ (action = "Compile".toList ∧
        (base ++ ".resx".toList).endswith ".cs".toList) := by
      rw [hembed.1]
      exact fun h => absurd h.1 (by decide)
    have hall : (∀ base', action = "EmbeddedResource".toList →
        base ++ ".resx".toList = base' ++ ".resx".toList →
        Found prj (Path.getname (base' ++ ".cs".toList)) →
        beside fname (Path.getname (base' ++ ".cs".toList)) ∈ prj.files) ↔
        (Found prj (Path.getname (base ++ ".cs".toList)) →
          beside fname (Path.getname (base ++ ".cs".toList)) ∈ prj.files) := by
      refine ⟨fun h => h base hembed.1 rfl, ?_⟩
      rintro h base' - heq
      rwa [← List.append_cancel_right heq]
    rw [if_neg hcompile, if_pos hembed, hall,
      show (5 : ℕ) = (".resx".toList : Str).length from rfl, hbase, ← findfile_isSome]
    dsimp only
    cases (findfile prj (Path.getname (base ++ ".cs".toList))).isSome with
    | true =>
        rw [if_pos rfl, forall_prop_of_true rfl, pointsAt_some, getname_getname]
    | false =>
        rw [if_neg Bool.false_ne_true]
        exact iff_of_true pointsAt_none fun h => absurd h Bool.false_ne_true
  · refine iff_of_true ?_ ?_
    · rw [if_neg hembed]
      split
      · exact pointsAt_none
      · exact pointsAt_none
    · rintro base haction rfl
      exact absurd ⟨haction, endswith_iff.mpr ⟨base, rfl⟩⟩ hembed

/-- Both functions return dependencies that are files of the project exactly when the files that
end like them are accompanied. -/
theorem pointsAt_iff :
    (PointsAt prj fname (Cs2005.getelements prj action vpath).2 ∧
      PointsAt prj fname (Cs2002.getelements prj action vpath).2) ↔
      Accompanied prj action vpath fname := by
  have hcs : ∀ base front : Str, (base ++ (front ++ ".cs".toList)).endswith ".cs".toList := by
    intro base front
    exact endswith_iff.mpr ⟨base ++ front, (List.append_assoc _ _ _).symm⟩
  rw [pointsAt_2002, getelements_snd]
  constructor
  · rintro ⟨h, hform⟩
    have hcompiled : action = "Compile".toList → vpath.endswith ".cs".toList →
        PointsAt prj fname ((Cs2005.compiled prj vpath).bind Prod.snd) := by
      intro haction hend
      rwa [if_pos ⟨haction, hend⟩] at h
    refine ⟨?_, ?_, ?_, hform⟩
    · rintro base haction rfl
      exact (pointsAt_compiled.mp (hcompiled haction (hcs base ".Designer".toList))).1 base rfl
    · rintro base haction rfl
      exact (pointsAt_compiled.mp (hcompiled haction (hcs base ".Designer".toList))).2.1 base rfl
    · rintro base haction rfl
      exact (pointsAt_compiled.mp (hcompiled haction (hcs base ".xaml".toList))).2.2 base rfl
  · intro h
    refine ⟨?_, h.form⟩
    split
    · rename_i hcompile
      exact pointsAt_compiled.mpr ⟨fun base => h.code base hcompile.1,
        fun base => h.resource base hcompile.1, fun base => h.page base hcompile.1⟩
    · split
      · rename_i hembed
        obtain ⟨base, rfl⟩ := endswith_iff.mp hembed.2
        exact (pointsAt_embedded base).mpr (h.form base hembed.1 rfl)
      · exact pointsAt_none

end Elements

/-- The dependencies of the files of a project are files of the project beside them, exactly
when every file is accompanied. -/
theorem dependsOnFiles_iff (ord : PairsOrder) (prj : Ide.Project) :
    DependsOnFiles ord prj ↔ ∀ files, eachfile ord prj.root = .ok files → ∀ file ∈ files,
      Accompanied prj (getbuildaction file.fcfg) file.vpath file.fcfg.name := by
  refine forall₄_congr fun _ _ _ _ => ?_
  exact pointsAt_iff

/-- A project with a designer file, and a source whose name ends like the one that belongs to
it. -/
def lonelyDesigner : Ide.Project where
  name := "A".toList
  root := {
    name := none
    platform := native
    terms := none
    fields := (Fields.empty.set .files
      ⟨["Foo.Designer.cs".toList, "MyFoo.cs".toList],
        ["Foo.Designer.cs".toList, "MyFoo.cs".toList]⟩)
    shortname := none
    longname := none
    system := "windows".toList
    fileconfigs := [⟨"Foo.Designer.cs".toList, Obj.empty⟩, ⟨"MyFoo.cs".toList, Obj.empty⟩] }
  configs := []
  crosscompiled := crosscompiled_nil

/-- The designer file depends on `Foo.cs`, which the project has not got. -/
theorem not_dependsOnFiles_lonely : ¬ DependsOnFiles .insertion lonelyDesigner := by
  intro h
  have hfiles : eachfile .insertion lonelyDesigner.root =
      .ok [⟨⟨"Foo.Designer.cs".toList, Obj.empty⟩, "Foo.Designer.cs".toList⟩,
        ⟨⟨"MyFoo.cs".toList, Obj.empty⟩, "MyFoo.cs".toList⟩] := rfl
  have hpoints := (h _ hfiles _ List.mem_cons_self).1
  have hdep : (Cs2005.getelements lonelyDesigner
      (getbuildaction ⟨"Foo.Designer.cs".toList, Obj.empty⟩) "Foo.Designer.cs".toList).2 =
        some "Foo.cs".toList := rfl
  rw [hdep, pointsAt_some] at hpoints
  exact absurd hpoints (by decide)

end Ide

end Puremake
