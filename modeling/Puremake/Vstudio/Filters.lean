import Puremake.Path.Extensions
import Puremake.Path.Relative
import Puremake.Tree.Source

/-!
# Filters of a Visual Studio project

The filters file of a Visual Studio 2010 project declares a filter for every directory that
the virtual path of a file goes through, and names the filter of every file. The declarations
come from the pieces of the path, one directory after the other, with the filters that have
been seen in a table; the references come from a cut at the last slash. The files stand in
four sections, by their extension, and the sorted files are kept with the project.
-/

namespace Puremake

namespace Vstudio

open Project (SourceFile)

/-- `string.explode(s, sep, true)` for a character. -/
def explode (s : Str) (sep : Char) : List Str := pieces (fun c => c = sep) s

inductive Section
  | ClCompile
  | ClInclude
  | None
  | ResourceCompile
  deriving DecidableEq, Repr

inductive Line
  | itemGroup
  | filterInclude (path : Str)
  | uniqueIdentifier (uuid : Str)
  | filterEnd
  | file (group : Section) (name : Str)
  | filter (path : Str)
  | fileEnd (group : Section)
  | fileOnly (group : Section) (name : Str)
  | itemGroupEnd
  deriving DecidableEq, Repr

/-- What `vc2010.filteridgroup` knows while it goes through the files: the keys of the table
of filters, and what it has written. -/
structure Ids where
  filters : List Str
  filterfound : Bool
  lines : List Line

/-- What is written for a path in the loop of `vc2010.filteridgroup`; `uuid` gives the results
of `os.uuid`, one after the other. -/
def Ids.declare (uuid : ℕ → Str) (ids : Ids) (path : Str) : Ids :=
  let group := if ids.filterfound then [] else [Line.itemGroup]
  if path ∈ ids.filters then ⟨ids.filters, true, ids.lines ++ group⟩
  else ⟨path :: ids.filters, true, ids.lines ++ group ++
    [.filterInclude path, .uniqueIdentifier (uuid ids.filters.length), .filterEnd]⟩

/-- A round of the inner loop of `vc2010.filteridgroup`. -/
def folderStep (uuid : ℕ → Str) (s : Ids × Str) (folder : Str) : Ids × Str :=
  let path := s.2 ++ folder
  (s.1.declare uuid path, path ++ ['\\'])

/-- A round of the outer loop of `vc2010.filteridgroup`. -/
def fileStep (uuid : ℕ → Str) (ids : Ids) (file : SourceFile) : Ids :=
  ((explode file.vpath '/').dropLast.foldl (folderStep uuid) (ids, [])).1

def filteridgroup (uuid : ℕ → Str) (files : List SourceFile) : List Line :=
  let ids := files.foldl (fileStep uuid) ⟨[], false, []⟩
  ids.lines ++ if ids.filterfound then [.itemGroupEnd] else []

structure SortedFiles where
  ClCompile : List SourceFile
  ClInclude : List SourceFile
  None : List SourceFile
  ResourceCompile : List SourceFile

/-- `sortedfiles[group]` -/
def SortedFiles.get (sortedfiles : SortedFiles) : Section → List SourceFile
  | .ClCompile => sortedfiles.ClCompile
  | .ClInclude => sortedfiles.ClInclude
  | .None => sortedfiles.None
  | .ResourceCompile => sortedfiles.ResourceCompile

/-- A round of the loop in `vc2010.getfilegroup`. -/
def SortedFiles.insert (s : SortedFiles) (file : SourceFile) : SortedFiles :=
  if Path.iscppfile file.fcfg.name then { s with ClCompile := s.ClCompile ++ [file] }
  else if Path.iscppheader file.fcfg.name then { s with ClInclude := s.ClInclude ++ [file] }
  else if Path.isresourcefile file.fcfg.name then
    { s with ResourceCompile := s.ResourceCompile ++ [file] }
  else { s with None := s.None ++ [file] }

/-- The loop in `vc2010.getfilegroup`. -/
def sortfiles (files : List SourceFile) : SortedFiles :=
  files.foldl SortedFiles.insert ⟨[], [], [], []⟩

/-- A project with its files and, once it has been asked for, the sorted files. -/
structure FilterProject where
  files : List SourceFile
  vc2010sortedfiles : Option SortedFiles
  sorted : ∀ s, vc2010sortedfiles = some s → s = sortfiles files

theorem sorted_sortfiles (files : List SourceFile) (s : SortedFiles)
    (h : some (sortfiles files) = some s) : s = sortfiles files :=
  (Option.some.inj h).symm

def getfilegroup (prj : FilterProject) (group : Section) : List SourceFile × FilterProject :=
  match prj.vc2010sortedfiles with
  | some sortedfiles => (sortedfiles.get group, prj)
  | none => ((sortfiles prj.files).get group,
      ⟨prj.files, some (sortfiles prj.files), sorted_sortfiles prj.files⟩)

/-- What `vc2010.filefiltergroup` writes for a file. -/
def fileLines (group : Section) (file : SourceFile) : List Line :=
  let filter := if file.fcfg.name ≠ file.vpath then Path.getdirectory file.vpath
    else Path.getdirectory file.fcfg.name
  if filter ≠ dot then
    [.file group (Path.translate file.fcfg.name '\\'), .filter (Path.translate filter '\\'),
      .fileEnd group]
  else [.fileOnly group (Path.translate file.fcfg.name '\\')]

def filefiltergroup (prj : FilterProject) (group : Section) : List Line × FilterProject :=
  let (files, prj) := getfilegroup prj group
  if files.length > 0 then
    (.itemGroup :: files.flatMap (fileLines group) ++ [.itemGroupEnd], prj)
  else ([], prj)

def directories (vpath : Str) : List Str := (explode vpath '/').dropLast

/-- A virtual path that is relative, without a backslash and without an empty component. -/
def Plain (vpath : Str) : Prop :=
  Path.Relative vpath ∧ '\\' ∉ vpath ∧ [] ∉ explode vpath '/'

instance (vpath : Str) : Decidable (Plain vpath) := inferInstanceAs (Decidable (_ ∧ _))

/-- A directory that the virtual path of a file goes through, from the root. -/
def Through (files : List SourceFile) (ds : List Str) : Prop :=
  ds ≠ [] ∧ ∃ file ∈ files, ds <+: directories file.vpath

/-- The filters of a project are declared once each, there are no others, the filters of the
files are among them, and a file stands in one section. -/
structure Closed (uuid : ℕ → Str) (prj : FilterProject) : Prop where
  once : ∀ ds, Through prj.files ds →
    (filteridgroup uuid prj.files).count (.filterInclude (concat '\\' ds)) = 1
  apart : ∀ ds ds', Through prj.files ds → Through prj.files ds' →
    concat '\\' ds = concat '\\' ds' → ds = ds'
  only : ∀ path, .filterInclude path ∈ filteridgroup uuid prj.files →
    ∃ ds, Through prj.files ds ∧ path = concat '\\' ds
  declared : ∀ group path, .filter path ∈ (filefiltergroup prj group).1 →
    .filterInclude path ∈ filteridgroup uuid prj.files
  oneSection : ∀ file ∈ prj.files, ∃! group, file ∈ (getfilegroup prj group).1

section Declared

variable {uuid : ℕ → Str} {ids : Ids} {path p : Str}

/-- The table of filters holds what has been declared, and nothing has been declared twice. -/
def Ids.Once (ids : Ids) : Prop :=
  ∀ path, ids.lines.count (.filterInclude path) = if path ∈ ids.filters then 1 else 0

theorem mem_declare : path ∈ (ids.declare uuid p).filters ↔ path = p ∨ path ∈ ids.filters := by
  rw [Ids.declare]
  split
  · rename_i hp
    constructor
    · exact .inr
    · rintro (rfl | hpath)
      · exact hp
      · exact hpath
  · exact List.mem_cons

theorem Ids.Once.declare (h : ids.Once) (p : Str) : (ids.declare uuid p).Once := by
  intro path
  have hgroup : (if ids.filterfound then [] else [Line.itemGroup]).count
      (.filterInclude path) = 0 := by
    split
    · rfl
    · rfl
  rw [Ids.declare]
  split
  · rw [List.count_append, hgroup, h path, Nat.add_zero]
  · rename_i hp
    rw [List.count_append, List.count_append, hgroup, h path, Nat.add_zero]
    by_cases hpath : path = p
    · subst hpath
      simp [hp]
    · have hne : Line.filterInclude p ≠ .filterInclude path := fun heq =>
        hpath (Line.filterInclude.inj heq).symm
      simp [hpath, hne]

/-- The filters that a path needs, behind a text that stands in front of the first one. -/
def filtersOf (front : Str) : List Str → List Str
  | [] => []
  | d :: ds => (front ++ d) :: filtersOf (front ++ d ++ ['\\']) ds

theorem mem_filtersOf {front : Str} {ds : List Str} :
    path ∈ filtersOf front ds ↔ ∃ es, es ≠ [] ∧ es <+: ds ∧ path = front ++ concat '\\' es := by
  induction ds generalizing front with
  | nil =>
      constructor
      · intro h
        cases h
      · rintro ⟨es, hne, hes, -⟩
        exact absurd (List.prefix_nil.mp hes) hne
  | cons d ds ih =>
      rw [filtersOf, List.mem_cons, ih]
      constructor
      · rintro (rfl | ⟨es, hne, hes, rfl⟩)
        · exact ⟨[d], List.cons_ne_nil _ _, ⟨ds, rfl⟩, by rw [concat_singleton]⟩
        · refine ⟨d :: es, List.cons_ne_nil _ _, (List.prefix_cons_inj d).mpr hes, ?_⟩
          rw [concat_cons hne]
          simp
      · rintro ⟨es, hne, hes, rfl⟩
        obtain ⟨e, es, rfl⟩ := List.exists_cons_of_ne_nil hne
        obtain ⟨rfl, hrest⟩ := List.cons_prefix_cons.mp hes
        by_cases hnil : es = []
        · subst hnil
          exact .inl (by rw [concat_singleton])
        · refine .inr ⟨es, hnil, hrest, ?_⟩
          rw [concat_cons hnil]
          simp

theorem foldl_folderStep (front : Str) (ds : List Str) :
    (ds.foldl (folderStep uuid) (ids, front)).1 = (filtersOf front ds).foldl
      (Ids.declare uuid) ids := by
  induction ds generalizing ids front with
  | nil => rfl
  | cons d ds ih =>
      rw [List.foldl_cons, filtersOf, List.foldl_cons]
      exact ih _

theorem foldl_declare (h : ids.Once) (paths : List Str) :
    (paths.foldl (Ids.declare uuid) ids).Once ∧
      ∀ path, path ∈ (paths.foldl (Ids.declare uuid) ids).filters ↔
        path ∈ paths ∨ path ∈ ids.filters := by
  induction paths generalizing ids with
  | nil => exact ⟨h, fun path => (or_iff_right List.not_mem_nil).symm⟩
  | cons p paths ih =>
      obtain ⟨honce, hmem⟩ := ih (h.declare p)
      refine ⟨honce, fun path => (hmem path).trans ?_⟩
      rw [mem_declare, List.mem_cons]
      constructor
      · rintro (hpath | rfl | hpath)
        · exact .inl (.inr hpath)
        · exact .inl (.inl rfl)
        · exact .inr hpath
      · rintro ((rfl | hpath) | hpath)
        · exact .inr (.inl rfl)
        · exact .inl hpath
        · exact .inr (.inr hpath)

theorem foldl_fileStep (h : ids.Once) (files : List SourceFile) :
    (files.foldl (fileStep uuid) ids).Once ∧
      ∀ path, path ∈ (files.foldl (fileStep uuid) ids).filters ↔
        (∃ file ∈ files, path ∈ filtersOf [] (directories file.vpath)) ∨
          path ∈ ids.filters := by
  induction files generalizing ids with
  | nil => exact ⟨h, fun path => by simp⟩
  | cons file files ih =>
      have hstep : fileStep uuid ids file =
          (filtersOf [] (directories file.vpath)).foldl (Ids.declare uuid) ids :=
        foldl_folderStep [] _
      obtain ⟨honce, hmem⟩ := @foldl_declare uuid _ h (filtersOf [] (directories file.vpath))
      rw [← hstep] at honce hmem
      obtain ⟨honce', hmem'⟩ := ih honce
      refine ⟨honce', fun path => (hmem' path).trans ?_⟩
      rw [hmem, List.exists_mem_cons_iff, or_assoc, ← or_assoc, ← or_assoc, or_comm (a := ∃ _, _)]

theorem count_filteridgroup (uuid : ℕ → Str) (files : List SourceFile) (path : Str) :
    ((∃ ds, Through files ds ∧ path = concat '\\' ds) ∧
      (filteridgroup uuid files).count (.filterInclude path) = 1) ∨
    ((¬ ∃ ds, Through files ds ∧ path = concat '\\' ds) ∧
      (filteridgroup uuid files).count (.filterInclude path) = 0) := by
  have hempty : (⟨[], false, []⟩ : Ids).Once := fun path => rfl
  obtain ⟨honce, hmem⟩ := @foldl_fileStep uuid _ hempty files
  have hiff : path ∈ (files.foldl (fileStep uuid) ⟨[], false, []⟩).filters ↔
      ∃ ds, Through files ds ∧ path = concat '\\' ds := by
    rw [hmem path]
    constructor
    · rintro (⟨file, hfile, hpath⟩ | hpath)
      · obtain ⟨ds, hne, hds, rfl⟩ := mem_filtersOf.mp hpath
        exact ⟨ds, ⟨hne, file, hfile, hds⟩, rfl⟩
      · cases hpath
    · rintro ⟨ds, ⟨hne, file, hfile, hds⟩, rfl⟩
      exact .inl ⟨file, hfile, mem_filtersOf.mpr ⟨ds, hne, hds, rfl⟩⟩
  have hcount : (filteridgroup uuid files).count (.filterInclude path) =
      if path ∈ (files.foldl (fileStep uuid) ⟨[], false, []⟩).filters then 1 else 0 := by
    rw [filteridgroup, List.count_append, honce path]
    have hend : (if (files.foldl (fileStep uuid) ⟨[], false, []⟩).filterfound
        then [Line.itemGroupEnd] else []).count (.filterInclude path) = 0 := by
      split
      · rfl
      · rfl
    rw [hend, Nat.add_zero]
  by_cases hpath : path ∈ (files.foldl (fileStep uuid) ⟨[], false, []⟩).filters
  · exact .inl ⟨hiff.mp hpath, by rw [hcount, if_pos hpath]⟩
  · exact .inr ⟨fun h => hpath (hiff.mpr h), by rw [hcount, if_neg hpath]⟩

end Declared

section Directory

variable {vpath : Str}

theorem vpath_eq (vpath : Str) : ∃ n, '/' ∉ n ∧
    vpath = concat '/' (directories vpath ++ [n]) := by
  have hne : explode vpath '/' ≠ [] := pieces_ne_nil vpath
  refine ⟨(explode vpath '/').getLast hne, fun hc => ?_, ?_⟩
  · exact absurd (isSep_of_mem_pieces (List.getLast_mem hne) '/' hc) (by decide)
  · rw [directories, List.dropLast_concat_getLast]
    exact (concat_pieces vpath).symm

theorem not_mem_of_mem_directories {d : Str} (hd : d ∈ directories vpath) :
    '/' ∉ d ∧ ('\\' ∉ vpath → '\\' ∉ d) ∧ ([] ∉ explode vpath '/' → d ≠ []) := by
  have hmem : d ∈ explode vpath '/' := List.mem_of_mem_dropLast hd
  refine ⟨fun hc => ?_, fun h hc => h ?_, fun h hnil => h (hnil ▸ hmem)⟩
  · exact absurd (isSep_of_mem_pieces hmem '/' hc) (by decide)
  · have hconcat := @mem_concat_of_mem '/' _ _ _ hmem hc
    rwa [explode, concat_pieces] at hconcat

/-- What `path.getdirectory` makes of a path without empty components. -/
theorem getdirectory_eq (hne : [] ∉ explode vpath '/') :
    (directories vpath = [] ∧ Path.getdirectory vpath = dot) ∨
      (directories vpath ≠ [] ∧ Path.getdirectory vpath = concat '/' (directories vpath)) := by
  obtain ⟨n, hn, hvpath⟩ := vpath_eq vpath
  have hn' : ∀ c ∈ n, decide (c = '/') = false := fun c hc =>
    decide_eq_false fun h => hn (h ▸ hc)
  by_cases hnil : directories vpath = []
  · refine .inl ⟨hnil, ?_⟩
    rw [hnil, List.nil_append, concat_singleton] at hvpath
    rw [Path.getdirectory, hvpath, Path.splitLast_of_forall_not_sep hn']
  · refine .inr ⟨hnil, ?_⟩
    rw [concat_append hnil (by simp), concat_singleton] at hvpath
    have hsplit := @Path.splitLast_append (fun c => c = '/') '/' (by decide) n hn'
      (concat '/' (directories vpath))
    rw [← hvpath] at hsplit
    rw [Path.getdirectory, hsplit]
    obtain ⟨d, ds, hds⟩ := List.exists_cons_of_ne_nil hnil
    have hd : d ≠ [] := (not_mem_of_mem_directories (hds ▸ List.mem_cons_self)).2.2 hne
    cases hc : concat '/' (directories vpath) with
    | nil =>
        rw [hds] at hc
        exfalso
        by_cases hds' : ds = []
        · rw [hds', concat_singleton] at hc
          exact hd hc
        · rw [concat_cons hds'] at hc
          exact hd (List.append_eq_nil_iff.mp hc).1
    | cons c s => rfl

theorem translate_concat {ps : List Str} (hps : ∀ p ∈ ps, '/' ∉ p) :
    Path.translate (concat '/' ps) '\\' = concat '\\' ps := by
  have hmap : ∀ p : Str, '/' ∉ p → p.map (fun c => if c = '/' then '\\' else c) = p := by
    intro p hp
    refine (List.map_congr_left fun c hc => ?_).trans (List.map_id p)
    exact if_neg fun h : c = '/' => hp (h ▸ hc)
  rw [Path.translate, if_pos rfl]
  induction ps with
  | nil => rfl
  | cons p ps ih =>
      have hp := hmap p (hps p List.mem_cons_self)
      by_cases hnil : ps = []
      · subst hnil
        rw [concat_singleton, concat_singleton, hp]
      · rw [concat_cons hnil, concat_cons hnil, List.map_append, List.map_cons, hp,
          ih fun q hq => hps q (List.mem_cons_of_mem p hq)]
        rfl

end Directory

section Sections

/-- The section that `vc2010.getfilegroup` sorts a file into. -/
def sectionOf (file : SourceFile) : Section :=
  if Path.iscppfile file.fcfg.name then .ClCompile
  else if Path.iscppheader file.fcfg.name then .ClInclude
  else if Path.isresourcefile file.fcfg.name then .ResourceCompile
  else .None

theorem get_insert (s : SortedFiles) (file : SourceFile) (group : Section) :
    (s.insert file).get group = s.get group ++ if sectionOf file = group then [file] else [] := by
  unfold SortedFiles.insert sectionOf
  split
  · cases group <;> simp [SortedFiles.get]
  · split
    · cases group <;> simp [SortedFiles.get]
    · split
      · cases group <;> simp [SortedFiles.get]
      · cases group <;> simp [SortedFiles.get]

theorem get_sortfiles (files : List SourceFile) (group : Section) :
    (sortfiles files).get group = files.filter fun file => sectionOf file = group := by
  have hfold : ∀ (files : List SourceFile) (s : SortedFiles),
      (files.foldl SortedFiles.insert s).get group =
        s.get group ++ files.filter fun file => sectionOf file = group := by
    intro files
    induction files with
    | nil => exact fun s => (List.append_nil _).symm
    | cons file files ih =>
        intro s
        rw [List.foldl_cons, ih, get_insert, List.append_assoc, List.filter_cons]
        by_cases h : sectionOf file = group
        · simp [h]
        · simp [h]
  rw [sortfiles, hfold]
  cases group <;> rfl

/-- A section has the files of the project that are sorted into it, whether they have been
sorted before or not. -/
theorem getfilegroup_eq (prj : FilterProject) (group : Section) :
    (getfilegroup prj group).1 = prj.files.filter fun file => sectionOf file = group := by
  rw [getfilegroup, ← get_sortfiles]
  split
  · rename_i s hs
    rw [prj.sorted s hs]
  · rfl

theorem exists_unique_section (prj : FilterProject) {file : SourceFile}
    (h : file ∈ prj.files) : ∃! group, file ∈ (getfilegroup prj group).1 := by
  refine ⟨sectionOf file, ?_, fun group hgroup => ?_⟩
  · dsimp only
    rw [getfilegroup_eq]
    exact List.mem_filter.mpr ⟨h, decide_eq_true rfl⟩
  · dsimp only at hgroup
    rw [getfilegroup_eq] at hgroup
    exact (of_decide_eq_true (List.mem_filter.mp hgroup).2).symm

/-- The filters that are written in a section are the directories of its files. -/
theorem mem_filefiltergroup {prj : FilterProject} {group : Section} {path : Str}
    (h : .filter path ∈ (filefiltergroup prj group).1) : ∃ file ∈ prj.files,
      Path.getdirectory file.vpath ≠ dot ∧
      path = Path.translate (Path.getdirectory file.vpath) '\\' := by
  have hlines : .filter path ∈ (getfilegroup prj group).1.flatMap (fileLines group) := by
    rw [filefiltergroup] at h
    dsimp only at h
    split at h
    · rcases List.mem_append.mp h with h | h
      · rcases List.mem_cons.mp h with h | h
        · cases h
        · exact h
      · cases List.mem_singleton.mp h
    · cases h
  obtain ⟨file, hfile, hline⟩ := List.mem_flatMap.mp hlines
  rw [getfilegroup_eq] at hfile
  have hfilter : (if file.fcfg.name ≠ file.vpath then Path.getdirectory file.vpath
      else Path.getdirectory file.fcfg.name) = Path.getdirectory file.vpath := by
    split
    · rfl
    · rename_i hname
      rw [not_not.mp hname]
  rw [fileLines, hfilter] at hline
  split at hline
  · rename_i hdot
    refine ⟨file, (List.mem_filter.mp hfile).1, hdot, ?_⟩
    simpa using hline
  · simp at hline

end Sections

section Closed

/-- The filters file of a project is closed. -/
theorem closed_filters (uuid : ℕ → Str) (prj : FilterProject)
    (h : ∀ file ∈ prj.files, Plain file.vpath) : Closed uuid prj where
  once ds hds := by
    rcases count_filteridgroup uuid prj.files (concat '\\' ds) with ⟨-, hcount⟩ | ⟨hno, -⟩
    · exact hcount
    · exact absurd ⟨ds, hds, rfl⟩ hno
  apart ds ds' := by
    rintro ⟨hne, file, hfile, hds⟩ ⟨hne', file', hfile', hds'⟩ heq
    have hback : ∀ {file ds}, file ∈ prj.files → ds <+: directories file.vpath →
        ∀ d ∈ ds, ∀ c ∈ d, decide (c = '\\') = false := fun hfile hds d hd c hc =>
      decide_eq_false fun hc' => (not_mem_of_mem_directories (hds.subset hd)).2.1
        (h _ hfile).2.1 (hc' ▸ hc)
    rw [← @pieces_concat (fun c => c = '\\') '\\' (by decide) ds hne (hback hfile hds), heq,
      pieces_concat (by decide) hne' (hback hfile' hds')]
  only path hpath := by
    rcases count_filteridgroup uuid prj.files path with ⟨hex, -⟩ | ⟨-, hcount⟩
    · exact hex
    · exact absurd hpath (List.count_eq_zero.mp hcount)
  declared group path hpath := by
    obtain ⟨file, hfile, hdot, rfl⟩ := mem_filefiltergroup hpath
    rcases getdirectory_eq (h file hfile).2.2 with ⟨-, heq⟩ | ⟨hne, heq⟩
    · exact absurd heq hdot
    · rw [heq, translate_concat fun d hd => (not_mem_of_mem_directories hd).1]
      rcases count_filteridgroup uuid prj.files (concat '\\' (directories file.vpath)) with
        ⟨-, hcount⟩ | ⟨hno, -⟩
      · exact List.count_pos_iff.mp (by rw [hcount]; exact Nat.one_pos)
      · exact absurd ⟨_, ⟨hne, file, hfile, List.prefix_rfl⟩, rfl⟩ hno
  oneSection _ hfile := exists_unique_section prj hfile

def srcFiles : List SourceFile :=
  [⟨⟨"src/hello.c".toList, Obj.empty⟩, "Source Files/hello.c".toList⟩,
    ⟨⟨"src/core/hello.h".toList, Obj.empty⟩, "Source Files/core/hello.h".toList⟩]

theorem sorted_none (files : List SourceFile) (s : SortedFiles) (h : none = some s) :
    s = sortfiles files := by
  cases h

theorem plain_srcFiles : ∀ file ∈ srcFiles, Plain file.vpath := by
  intro file hfile
  rcases List.mem_pair.mp hfile with rfl | rfl
  · decide
  · decide

theorem closed_filters_src :
    Closed (fun _ => "00112233".toList) ⟨srcFiles, none, sorted_none srcFiles⟩ :=
  closed_filters _ _ plain_srcFiles

end Closed

end Vstudio

end Puremake
