import Puremake.Ide.Sections

/-!
# File names in the project files of IDEs

Each generator writes the name of a file into the value of an attribute, and some of them do not
escape it. What is read there is the name when it has no character that means something in XML,
and what is read for all the files of a project is the set of their names in no other case: a
value is never longer than its text.

The generators that print the source tree name what its leaves carry. One of them takes the root
of an empty tree for a file.
-/

namespace Puremake

namespace Ide

open Puremake.Project (SourceData SourceFile Leaf Entered eachfile buildsourcetree)
open Vstudio (FilterProject)

/-- With enough fuel, a generator writes something, and what is read there for the names of files
are the names of these files in the convention of the generator. -/
def Names (run : ℕ → Option (List Line)) (convention : Str → Str) (files : List SourceFile) :
    Prop :=
  ∃ lines, (∃ fuel₀, ∀ fuel, fuel₀ ≤ fuel → run fuel = some lines) ∧
    ∀ v, v ∈ named lines ↔ ∃ file ∈ files, v = some (convention file.fcfg.name)

structure NamesFiles (cwd : Str) (ord : PairsOrder) (prj : Ide.Project) (files : List SourceFile) :
    Prop where
  vc200x : Names (Vc200x.Files · ord prj) (Path.translate · '\\') files
  vcxproj : ∀ fp : FilterProject, fp.files = files →
    Names (fun _ => some (Vc2010.files prj.configs fp).1) (Path.translate · '\\') files
  vcxfilters : ∀ fp : FilterProject, fp.files = files →
    Names (fun _ => some (Vc2010.filterfiles fp).1) (Path.translate · '\\') files
  cs2002 : Names (Cs2002.Files · ord prj) (Path.translate · '\\') files
  cs2005 : Names (Cs2005.files · ord prj) (Path.translate · '\\') files
  codelite : Names (Codelite.files · ord prj) id files
  codeblocks : Names (fun _ => Codeblocks.files cwd ord prj) id files

/-- The names of the files of a project survive into all project files. -/
def NamesSurvive (cwd : Str) (ord : PairsOrder) (prj : Ide.Project) : Prop :=
  ∃ files, eachfile ord prj.root = .ok files ∧ NamesFiles cwd ord prj files

/-- The leaves of a tree carry the files, and nothing else. -/
structure Carried (files : List SourceFile) (f : Tree.Forest SourceData) : Prop where
  leaf_of_file : ∀ file ∈ files, ∃ n, Leaf f n ∧ (f.node n).data.cfg = some file.fcfg
  file_of_leaf : ∀ n, Leaf f n → ∃ file ∈ files, (f.node n).data.cfg = some file.fcfg

/-- The project has files, the source tree carries them, and their names have no characters that
mean something in XML. -/
def Legible (ord : PairsOrder) (prj : Ide.Project) : Prop :=
  ∃ files f, eachfile ord prj.root = .ok files ∧
    buildsourcetree ord prj.name prj.root = .ok f ∧ files ≠ [] ∧ Carried files f ∧
    ∀ file ∈ files, Xml.Literal file.fcfg.name

section Runs

variable {run : ℕ → Option (List Line)} {out : Option (List Line)} {convention : Str → Str}
  {files : List SourceFile}

theorem names_iff (hrun : ∃ fuel₀, ∀ fuel, fuel₀ ≤ fuel → run fuel = out) :
    Names run convention files ↔ ∃ lines, out = some lines ∧
      ∀ v, v ∈ named lines ↔ ∃ file ∈ files, v = some (convention file.fcfg.name) := by
  obtain ⟨fuel₀, hfuel₀⟩ := hrun
  refine exists_congr fun lines => and_congr_left' ?_
  constructor
  · rintro ⟨fuel₁, hfuel₁⟩
    exact (hfuel₀ (max fuel₀ fuel₁) (le_max_left _ _)).symm.trans
      (hfuel₁ (max fuel₀ fuel₁) (le_max_right _ _))
  · rintro rfl
    exact ⟨fuel₀, hfuel₀⟩

def printing (w : Tree.Printer SourceData Line) (includeroot : Bool) (depth : ℕ)
    (ord : PairsOrder) (prj : Ide.Project) (fuel : ℕ) : Option (List Line) := do
  let tr ← (buildsourcetree ord prj.name prj.root).toOption
  (Tree.traverse w.callbacks fuel 0 includeroot depth (tr, [])).map Prod.snd

variable {ord : PairsOrder} {prj : Ide.Project} {f : Tree.Forest SourceData} {t : Grove ℕ}

theorem printing_eq (w : Tree.Printer SourceData Line) (depth : ℕ)
    (htree : buildsourcetree ord prj.name prj.root = .ok f) (ht : Tree.Stands f 0 t) :
    ∃ fuel₀, ∀ fuel, fuel₀ ≤ fuel → printing w false depth ord prj fuel = w.printed f t depth := by
  obtain ⟨fuel₀, hfuel₀⟩ := Tree.traverse_callbacks w ht depth
  refine ⟨fuel₀, fun fuel hfuel => ?_⟩
  have hrun := congrArg (Option.map Prod.snd) (hfuel₀ fuel hfuel)
  rw [Option.map_map] at hrun
  rw [printing, htree]
  exact hrun.trans Option.map_id'

theorem printing_root_eq (w : Tree.Printer SourceData Line) (depth : ℕ)
    (htree : buildsourcetree ord prj.name prj.root = .ok f) (ht : Tree.Stands f 0 t) :
    ∃ fuel₀, ∀ fuel, fuel₀ ≤ fuel →
      printing w true depth ord prj fuel = w.printed f (.cons 0 t .nil) depth := by
  obtain ⟨fuel₀, hfuel₀⟩ := Tree.traverse_callbacks_root w ht depth
  refine ⟨fuel₀, fun fuel hfuel => ?_⟩
  have hrun := congrArg (Option.map Prod.snd) (hfuel₀ fuel hfuel)
  rw [Option.map_map] at hrun
  rw [printing, htree]
  exact hrun.trans Option.map_id'

/-- A printer names the files when the leaves carry them and what it writes for them is read as
their names. -/
theorem NamesLeaves.names {w : Tree.Printer SourceData Line} {value : Str → Str} {s : Grove ℕ}
    {depth : ℕ} (hw : NamesLeaves w value)
    (hrun : ∃ fuel₀, ∀ fuel, fuel₀ ≤ fuel → run fuel = w.printed f s depth)
    (hleaves : ∀ n, n ∈ s.leaves ↔ Leaf f n)
    (hname : ∀ n ∈ s.nodes, (f.node n).name.isSome)
    (hlabel : ∀ n, Leaf f n → (f.node n).name.isSome ∧ (f.node n).path.isSome)
    (hcarried : Carried files f)
    (hread : ∀ file ∈ files,
      Xml.attrValue (value file.fcfg.name) = some (convention file.fcfg.name)) :
    Names run convention files := by
  refine (names_iff hrun).mpr ?_
  obtain ⟨lines, hlines⟩ := hw.exists_printed hname (fun n hn => by
    obtain ⟨file, -, hcfg⟩ := hcarried.file_of_leaf n ((hleaves n).mp hn)
    rw [hcfg]
    exact ⟨rfl, hlabel n ((hleaves n).mp hn)⟩) depth
  refine ⟨lines, hlines, fun v => (hw.mem_named hlines v).trans ?_⟩
  constructor
  · rintro ⟨n, hn, fcfg, hcfg, rfl⟩
    obtain ⟨file, hfile, hcfg'⟩ := hcarried.file_of_leaf n ((hleaves n).mp hn)
    obtain rfl := Option.some.inj (hcfg.symm.trans hcfg')
    exact ⟨file, hfile, hread file hfile⟩
  · rintro ⟨file, hfile, rfl⟩
    obtain ⟨n, hn, hcfg⟩ := hcarried.leaf_of_file file hfile
    exact ⟨n, (hleaves n).mpr hn, file.fcfg, hcfg, (hread file hfile).symm⟩

end Runs

section Files

variable {ord : PairsOrder} {cfg : BakedConfig} {files : List SourceFile}

theorem fcfg_eq_of_name (h : eachfile ord cfg = .ok files) {file file' : SourceFile}
    (hfile : file ∈ files) (hfile' : file' ∈ files) (hname : file.fcfg.name = file'.fcfg.name) :
    file.fcfg = file'.fcfg := by
  have hfind : ∀ file ∈ files,
      cfg.fileconfigs.find? (fun fcfg => fcfg.name = file.fcfg.name) = some file.fcfg := by
    intro file hfile
    obtain ⟨fname, -, hfname⟩ := FoldRun.exists_of_mem_mapM h hfile
    rw [Puremake.Project.sourceFile] at hfname
    split at hfname
    · cases hfname
    · rename_i fcfg hfcfg
      obtain ⟨v, -, hfile⟩ := FoldRun.bind_eq_ok.mp hfname
      obtain rfl := Except.ok.inj hfile
      obtain rfl : fcfg.name = fname := by simpa using List.find?_some hfcfg
      exact hfcfg
  have h₁ := hfind file hfile
  rw [hname, hfind file' hfile'] at h₁
  exact (Option.some.inj h₁).symm

end Files

section Survive

variable {cwd : Str} {ord : PairsOrder} {prj : Ide.Project}

theorem named_unit (prj : Ide.Project) (pchheader : Option Str) (file : SourceFile) :
    named (Codeblocks.unit prj pchheader file) = [some file.fcfg.name] := by
  rw [Codeblocks.unit, named_append, named_append, named_append, named_file, named_ite rfl rfl,
    named_ite rfl (named_ite rfl rfl), named_ite rfl rfl, Xml.attrValue_escText]
  rfl

theorem names_codeblocks (cwd : Str) {files : List SourceFile}
    (h : eachfile ord prj.root = .ok files) :
    Names (fun _ => Codeblocks.files cwd ord prj) id files := by
  have hrun : Codeblocks.files cwd ord prj = some (files.flatMap (Codeblocks.unit prj
      ((prj.root.fields .pchheader).map
        (Path.getrelative cwd ((prj.root.fields .location).getD []))))) := by
    rw [Codeblocks.files, h]
    rfl
  refine ⟨_, ⟨0, fun _ _ => hrun⟩, fun v => ?_⟩
  simp only [named_flatMap, named_unit, List.mem_flatMap, List.mem_singleton, id_eq]

theorem survive_of_legible (h : Legible ord prj) : NamesSurvive cwd ord prj := by
  obtain ⟨files, f, hfiles, htree, hne, hcarried, hliteral⟩ := h
  obtain ⟨t, ht⟩ := Puremake.Project.exists_sourceTree htree
  have hentered := Puremake.Project.entered_of_buildsourcetree hfiles htree
  have hleaves : ∀ n, n ∈ t.leaves ↔ Leaf f n :=
    fun n => (Puremake.Project.leaf_iff ht.stands).symm
  have hname : ∀ n ∈ t.nodes, (f.node n).name.isSome := fun n hn =>
    Option.isSome_iff_exists.mpr (ht.named n hn)
  have hlabel : ∀ n, Leaf f n → (f.node n).name.isSome ∧ (f.node n).path.isSome := by
    intro n hn
    have hnode := (ht.stands.holds.mem_leaves_iff.mp ((hleaves n).mpr hn)).1
    exact ⟨hname n hnode, hentered.path n (Nat.pos_of_ne_zero hn.1)
      (ht.lt n (List.mem_cons_of_mem 0 hnode))⟩
  have hplain : ∀ file ∈ files, Xml.attrValue (Path.translate file.fcfg.name '\\') =
      some (Path.translate file.fcfg.name '\\') := fun file hfile =>
    Xml.attrValue_eq_self_iff.mpr (literal_translate.mpr (hliteral file hfile))
  have hescaped : ∀ file ∈ files,
      Xml.attrValue (Path.translate (Xml.escText file.fcfg.name) '\\') =
        some (Path.translate file.fcfg.name '\\') :=
    fun file _ => attrValue_translate_escText file.fcfg.name
  -- The root of the tree is a branch, so it is not taken for a file.
  have hnil : t ≠ .nil := by
    rintro rfl
    obtain ⟨file, files', rfl⟩ := List.exists_cons_of_ne_nil hne
    obtain ⟨n, hn, -⟩ := hcarried.leaf_of_file file List.mem_cons_self
    cases (hleaves n).mpr hn
  refine ⟨files, hfiles, ?_, ?_, ?_, ?_, ?_, ?_, names_codeblocks cwd hfiles⟩
  · exact (namesLeaves_vc200x prj).names (printing_eq _ 2 htree ht.stands) hleaves hname hlabel
      hcarried hplain
  · intro fp hfp
    refine ⟨_, ⟨0, fun _ _ => rfl⟩, fun v => ?_⟩
    rw [mem_named_files, hfp]
    exact exists_congr fun file => and_congr_right fun hfile => by rw [readPath, hplain file hfile]
  · intro fp hfp
    refine ⟨_, ⟨0, fun _ _ => rfl⟩, fun v => ?_⟩
    rw [mem_named_filterfiles, hfp]
    exact exists_congr fun file => and_congr_right fun hfile => by rw [readPath, hplain file hfile]
  · exact (namesLeaves_cs2002 prj).names (printing_eq _ 0 htree ht.stands) hleaves hname hlabel
      hcarried hescaped
  · exact (namesLeaves_cs2005 prj).names (printing_eq _ 0 htree ht.stands) hleaves hname hlabel
      hcarried hescaped
  · refine namesLeaves_codelite.names (printing_root_eq _ 1 htree ht.stands) (fun n => ?_)
      (fun n hn => ?_) hlabel hcarried
      fun file hfile => Xml.attrValue_eq_self_iff.mpr (hliteral file hfile)
    · rw [Grove.leaves_branch hnil, ← hleaves]
      simp [Grove.leaves]
    · rcases List.mem_cons.mp hn with rfl | hn
      · rw [hentered.root]
        rfl
      · exact hname n (by simpa [Grove.nodes] using hn)

theorem legible_of_apart {files : List SourceFile} (hfiles : eachfile ord prj.root = .ok files)
    (hne : files ≠ []) (hapart : Puremake.Project.Apart (files.map SourceFile.vpath))
    (hliteral : ∀ file ∈ files, Xml.Literal file.fcfg.name) : Legible ord prj := by
  obtain ⟨files', f, hfiles', htree, hcomplete⟩ :=
    @Puremake.Project.losesNoFile_of_apart ord prj.name prj.root ⟨files, hfiles, hapart⟩
  obtain rfl : files = files' := Except.ok.inj (hfiles.symm.trans hfiles')
  exact ⟨files, f, hfiles, htree, hne,
    ⟨fun file hfile => (hcomplete.leaf_of_file file hfile).exists, hcomplete.file_of_leaf⟩,
    hliteral⟩

theorem legible_of_survive (h : NamesSurvive cwd ord prj) : Legible ord prj := by
  obtain ⟨files, hfiles, hnames⟩ := h
  -- What the sections of a project for Visual Studio 2010 name decides about the characters.
  have hliteral : ∀ file ∈ files, Xml.Literal file.fcfg.name := by
    obtain ⟨lines, ⟨fuel₀, hfuel₀⟩, hnamed⟩ :=
      hnames.vcxproj ⟨files, none, Vstudio.sorted_none files⟩ rfl
    obtain rfl := Option.some.inj (hfuel₀ fuel₀ le_rfl)
    have hall := @Xml.literal_of_values
      (files.map fun file => Path.translate file.fcfg.name '\\') fun v => by
        refine Iff.trans ?_ (((mem_named_files prj.configs _ v).symm.trans (hnamed v)).trans ?_)
        · simp only [List.mem_map, exists_exists_and_eq_and, readPath]
        · simp only [List.mem_map, exists_exists_and_eq_and]
    exact fun file hfile => literal_translate.mp (hall _ (List.mem_map_of_mem hfile))
  obtain ⟨f, htree⟩ : ∃ f, buildsourcetree ord prj.name prj.root = .ok f := by
    obtain ⟨lines, ⟨fuel₀, hfuel₀⟩, -⟩ := hnames.codelite
    obtain ⟨f, hf, -⟩ := Option.bind_eq_some_iff.mp (hfuel₀ fuel₀ le_rfl)
    exact ⟨f, FoldRun.toOption_eq_some.mp hf⟩
  obtain ⟨t, ht⟩ := Puremake.Project.exists_sourceTree htree
  have hentered := Puremake.Project.entered_of_buildsourcetree hfiles htree
  obtain ⟨lines, hlines, hnamed⟩ :=
    (names_iff (printing_root_eq _ 1 htree ht.stands)).mp hnames.codelite
  have hnil : t ≠ .nil := by
    rintro rfl
    -- The root is written as a file, but below it there is none.
    obtain ⟨fcfg, hfcfg⟩ := namesLeaves_codelite.settings hlines (List.mem_singleton_self 0)
    obtain ⟨file, hfile, -⟩ := hentered.settings 0 fcfg hfcfg
    obtain ⟨lines', hlines', hnamed'⟩ :=
      (names_iff (printing_eq _ 2 htree ht.stands)).mp hnames.vc200x
    obtain ⟨n, hn, -⟩ := ((namesLeaves_vc200x prj).mem_named hlines' _).mp
      ((hnamed' _).mpr ⟨file, hfile, rfl⟩)
    cases hn
  have hleaves : ∀ n, n ∈ (Grove.cons 0 t .nil).leaves ↔ Leaf f n := by
    intro n
    rw [Grove.leaves_branch hnil, Puremake.Project.leaf_iff ht.stands]
    simp [Grove.leaves]
  have hfile : ∀ n, Leaf f n → ∃ file ∈ files, (f.node n).data.cfg = some file.fcfg := by
    intro n hn
    obtain ⟨fcfg, hfcfg⟩ := namesLeaves_codelite.settings hlines ((hleaves n).mpr hn)
    obtain ⟨file, hfile, rfl⟩ := hentered.settings n fcfg hfcfg
    exact ⟨file, hfile, hfcfg⟩
  have hleaf : ∀ file ∈ files, ∃ n, Leaf f n ∧ (f.node n).data.cfg = some file.fcfg := by
    intro file hmem
    obtain ⟨n, hn, fcfg, hfcfg, hread⟩ := (namesLeaves_codelite.mem_named hlines _).mp
      ((hnamed (some file.fcfg.name)).mpr ⟨file, hmem, rfl⟩)
    obtain ⟨file', hmem', hfcfg'⟩ := hfile n ((hleaves n).mp hn)
    obtain rfl := Option.some.inj (hfcfg.symm.trans hfcfg')
    have hname := Option.some.inj
      (hread.trans (Xml.attrValue_eq_self_iff.mpr (hliteral file' hmem')))
    exact ⟨n, (hleaves n).mp hn,
      hfcfg.trans (congrArg some (fcfg_eq_of_name hfiles hmem hmem' hname).symm)⟩
  refine ⟨files, f, hfiles, htree, ?_, ⟨hleaf, hfile⟩, hliteral⟩
  rintro rfl
  obtain ⟨n, hn⟩ := List.exists_mem_of_ne_nil _ fun h => hnil (Grove.leaves_eq_nil_iff.mp h)
  obtain ⟨file, hmem, -⟩ := hfile n ((Puremake.Project.leaf_iff ht.stands).mpr hn)
  cases hmem

/-- For every project, its files are named by all generators exactly when it has files, the leaves
of the source tree carry them, and no name has an ampersand, a `<` or a double quote. -/
theorem namesSurvive_iff (cwd : Str) (ord : PairsOrder) (prj : Ide.Project) :
    NamesSurvive cwd ord prj ↔ Legible ord prj :=
  ⟨legible_of_survive, survive_of_legible⟩

def research : Ide.Project where
  name := "A".toList
  root := {
    name := none
    platform := native
    terms := none
    fields := (Fields.empty.set .files ⟨["R&D.c".toList], ["R&D.c".toList]⟩)
    shortname := none
    longname := none
    system := "linux".toList
    fileconfigs := [⟨"R&D.c".toList, Obj.empty⟩] }
  configs := []
  crosscompiled := crosscompiled_nil

theorem not_namesSurvive_research :
    ¬ NamesSurvive "/src".toList .insertion research := by
  rintro ⟨files, hfiles, hnames⟩
  have hfiles' : eachfile .insertion research.root =
      .ok [⟨⟨"R&D.c".toList, Obj.empty⟩, "R&D.c".toList⟩] := rfl
  obtain rfl := Except.ok.inj (hfiles'.symm.trans hfiles)
  obtain ⟨lines, ⟨fuel₀, hfuel₀⟩, hnamed⟩ := hnames.vcxproj ⟨_, none, Vstudio.sorted_none _⟩ rfl
  obtain rfl := Option.some.inj (hfuel₀ fuel₀ le_rfl)
  obtain ⟨file, hfile, hread⟩ := (mem_named_files [] _ _).mp ((hnamed _).mpr
    ⟨_, List.mem_singleton_self _, rfl⟩)
  obtain rfl := List.mem_singleton.mp hfile
  cases hread

end Survive

end Ide

end Puremake
