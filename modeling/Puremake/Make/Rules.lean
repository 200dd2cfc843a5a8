import Puremake.Make.Escape
import Puremake.Path.Extensions

/-!
# Objects and rules of a C/C++ makefile

A makefile lists the objects of the project and has a rule for each of them. The lists and
the rules are made by two loops over the files: the list of resources takes every file with
the extension `.rc` in some spelling, and the rules only those with this very extension. Both
name an object by the base name of its file.
-/

namespace Puremake

namespace Make

def objdir : Str := "$(OBJDIR)/".toList

def target (extension : Str) (file : Str) : Str :=
  objdir ++ (esc (Path.getbasename file) ++ extension)

def objectExtension : Str := ".o".toList

def resourceExtension : Str := ".res".toList

def rcExtension : Str := ".rc".toList

/-- The files that `premake.make_cpp` lists behind `OBJECTS`. -/
def objects (files : List Str) : List Str :=
  (files.filter fun file => Path.iscppfile file).map (target objectExtension)

/-- The files that `premake.make_cpp` lists behind `RESOURCES`. -/
def resources (files : List Str) : List Str :=
  (files.filter fun file => Path.isresourcefile file).map (target resourceExtension)

/-- A build rule: what it makes, the file that it is for, and the lines below. -/
structure Rule where
  target : Str
  file : Str
  commands : List Str
  deriving DecidableEq, Repr

def buildcommand (iscfile : Bool) (objext : String) : Str :=
  "\t$(SILENT) ".toList ++
    (if iscfile then "$(CC) $(ALL_CFLAGS)" else "$(CXX) $(ALL_CXXFLAGS)").toList ++
    " $(FORCE_INCLUDE) -o \"$@\" -MF \"$(@:%.".toList ++ objext.toList ++
    "=%.d)\" -c \"$<\"".toList

/-- A round of the loop in `cpp.fileRules`. -/
def fileRule (file : Str) : Option Rule :=
  if Path.iscppfile file then
    some ⟨target objectExtension file, file,
      ["\t@echo $(notdir $<)".toList, buildcommand (Path.iscfile file) "o"]⟩
  else if Path.getextension file = rcExtension then
    some ⟨target resourceExtension file, file, ["\t@echo $(notdir $<)".toList,
      "\t$(SILENT) $(RESCOMP) $< -O coff -o \"$@\" $(ALL_RESFLAGS)".toList]⟩
  else none

def fileRules (files : List Str) : List Rule := files.filterMap fileRule

/-- The objects that are listed are those that there are rules for, in the same order, and
none of them is there twice: every file that is compiled has one rule. -/
structure Agree (files : List Str) : Prop where
  objects : objects files =
    ((fileRules files).map Rule.target).filter fun t => objectExtension.isSuffixOf t
  resources : resources files =
    ((fileRules files).map Rule.target).filter fun t => resourceExtension.isSuffixOf t
  nodup : (Make.objects files ++ Make.resources files).Nodup
  rule : ∀ file ∈ files, Path.iscppfile file ∨ Path.isresourcefile file →
    ∃ rule, (fileRules files).filter (fun rule => rule.file = file) = [rule]

/-- No resource file has its extension in another spelling, and the base names of the source
files are different, as are those of the resource files. -/
def NamesApart (files : List Str) : Prop :=
  (∀ file ∈ files, Path.isresourcefile file → Path.getextension file = rcExtension) ∧
    ((files.filter fun file => Path.iscppfile file).map Path.getbasename).Nodup ∧
    ((files.filter fun file => Path.isresourcefile file).map Path.getbasename).Nodup

instance (files : List Str) : Decidable (NamesApart files) :=
  inferInstanceAs (Decidable ((∀ _ ∈ _, _) ∧ _ ∧ _))

section Rules

variable {files : List Str} {file : Str}

theorem isSuffixOf_target (extension file : Str) :
    extension.isSuffixOf (target extension file) = true := by
  rw [List.isSuffixOf_iff_suffix]
  exact (List.suffix_append _ _).trans (List.suffix_append _ _)

theorem not_isSuffixOf_target {extension other : Str} {c d : Char}
    (hc : extension.getLast? = some c) (hd : other.getLast? = some d) (hne : c ≠ d) (file : Str) :
    other.isSuffixOf (target extension file) = false := by
  rw [Bool.eq_false_iff]
  intro hsuffix
  obtain ⟨s, hs⟩ := List.isSuffixOf_iff_suffix.mp hsuffix
  have hlast := congrArg List.getLast? hs
  rw [target, List.getLast?_append, List.getLast?_append, List.getLast?_append, hc, hd] at hlast
  exact hne (Option.some.inj hlast).symm

/-- A file gets a rule for an object, or one for a resource, or none. -/
theorem fileRule_cases (file : Str) :
    Path.iscppfile file = true ∧ Path.getextension file ≠ rcExtension ∧
        (fileRule file).map Rule.target = some (target objectExtension file) ∨
      Path.iscppfile file = false ∧ Path.getextension file = rcExtension ∧
        (fileRule file).map Rule.target = some (target resourceExtension file) ∨
      Path.iscppfile file = false ∧ Path.getextension file ≠ rcExtension ∧
        (fileRule file).map Rule.target = none := by
  by_cases hcpp : Path.iscppfile file = true
  · refine .inl ⟨hcpp, fun hrc => ?_, by rw [fileRule, if_pos hcpp]; rfl⟩
    have hresource := Path.isresourcefile_iff.mpr (show Str.lower _ = _ by rw [hrc]; decide)
    rw [Path.not_isresourcefile_of_iscppfile hcpp] at hresource
    cases hresource
  · rw [Bool.not_eq_true] at hcpp
    by_cases hrc : Path.getextension file = rcExtension
    · refine .inr (.inl ⟨hcpp, hrc, ?_⟩)
      rw [fileRule, if_neg (by simp [hcpp]), if_pos hrc]
      rfl
    · refine .inr (.inr ⟨hcpp, hrc, ?_⟩)
      rw [fileRule, if_neg (by simp [hcpp]), if_neg hrc]
      rfl

theorem isSuffixOf_object (file : Str) :
    objectExtension.isSuffixOf (target objectExtension file) = true ∧
      resourceExtension.isSuffixOf (target objectExtension file) = false :=
  ⟨isSuffixOf_target _ _, not_isSuffixOf_target rfl rfl (by decide) _⟩

theorem isSuffixOf_resource (file : Str) :
    resourceExtension.isSuffixOf (target resourceExtension file) = true ∧
      objectExtension.isSuffixOf (target resourceExtension file) = false :=
  ⟨isSuffixOf_target _ _, not_isSuffixOf_target rfl rfl (by decide) _⟩

theorem map_target_cons (file : Str) (files : List Str) :
    (fileRules (file :: files)).map Rule.target =
      ((fileRule file).map Rule.target).toList ++ (fileRules files).map Rule.target := by
  rw [fileRules, List.filterMap_cons]
  cases fileRule file <;> rfl

/-- The rules for source files are those for the objects that are listed, and the rules for
resources are those for the files with the extension `.rc`. -/
theorem targets_eq (files : List Str) :
    ((fileRules files).map Rule.target).filter (fun t => objectExtension.isSuffixOf t) =
        objects files ∧
      ((fileRules files).map Rule.target).filter (fun t => resourceExtension.isSuffixOf t) =
        (files.filter fun file => Path.getextension file = rcExtension).map
          (target resourceExtension) ∧
      ∀ t ∈ (fileRules files).map Rule.target,
        resourceExtension.isSuffixOf t = !objectExtension.isSuffixOf t := by
  induction files with
  | nil => exact ⟨rfl, rfl, fun t ht => absurd ht List.not_mem_nil⟩
  | cons file files ih =>
      obtain ⟨hobjects, hresources, hall⟩ := ih
      rw [objects] at hobjects ⊢
      rw [map_target_cons, List.filter_append, List.filter_append, hobjects, hresources,
        List.filter_cons, List.filter_cons]
      rcases fileRule_cases file with ⟨hcpp, hrc, ht⟩ | ⟨hcpp, hrc, ht⟩ | ⟨hcpp, hrc, ht⟩
      · obtain ⟨hobject, hresource⟩ := isSuffixOf_object file
        refine ⟨by simp [ht, hcpp, hobject], by simp [ht, hrc, hresource], fun t hmem => ?_⟩
        rcases List.mem_append.mp hmem with hmem | hmem
        · rw [ht] at hmem
          rw [List.mem_singleton.mp hmem, hobject, hresource]
          rfl
        · exact hall t hmem
      · obtain ⟨hresource, hobject⟩ := isSuffixOf_resource file
        refine ⟨by simp [ht, hcpp, hobject], by simp [ht, hrc, hresource], fun t hmem => ?_⟩
        rcases List.mem_append.mp hmem with hmem | hmem
        · rw [ht] at hmem
          rw [List.mem_singleton.mp hmem, hobject, hresource]
          rfl
        · exact hall t hmem
      · refine ⟨by simp [ht, hcpp], by simp [ht, hrc], fun t hmem => ?_⟩
        rw [ht] at hmem
        exact hall t hmem

theorem nodup_map_target (extension : Str) (l : List Str) :
    (l.map (target extension)).Nodup ↔ (l.map Path.getbasename).Nodup := by
  have hinjective : Function.Injective fun n : Str => objdir ++ (esc n ++ extension) :=
    fun n n' h => esc_injective (List.append_cancel_right (List.append_cancel_left h))
  have hmap : l.map (target extension) =
      (l.map Path.getbasename).map fun n => objdir ++ (esc n ++ extension) := by
    rw [List.map_map]
    rfl
  rw [hmap, List.nodup_map_iff hinjective]

/-- Every file that is kept by the stronger of two tests is kept by the weaker one, and no
other is when as many are kept. -/
theorem of_length_filter_eq {α : Type*} {p q : α → Bool} {l : List α} (hpq : ∀ x, p x → q x)
    (h : (l.filter p).length = (l.filter q).length) : ∀ x ∈ l, q x → p x := by
  have heq := (List.monotone_filter_right l hpq).eq_of_length h
  intro x hx hqx
  have hmem : x ∈ l.filter p := heq ▸ List.mem_filter.mpr ⟨hx, hqx⟩
  exact (List.mem_filter.mp hmem).2

theorem isresourcefile_of_rc (h : Path.getextension file = rcExtension) :
    Path.isresourcefile file = true :=
  Path.isresourcefile_iff.mpr (by rw [h]; decide)

theorem resources_eq_iff : resources files =
      ((fileRules files).map Rule.target).filter (fun t => resourceExtension.isSuffixOf t) ↔
    ∀ file ∈ files, Path.isresourcefile file → Path.getextension file = rcExtension := by
  rw [(targets_eq files).2.1, resources]
  constructor
  · intro h file hfile hresource
    have hlength := congrArg List.length h
    rw [List.length_map, List.length_map] at hlength
    have hrc := of_length_filter_eq (fun f hf => isresourcefile_of_rc (of_decide_eq_true hf))
      hlength.symm file hfile hresource
    exact of_decide_eq_true hrc
  · intro h
    congr 1
    apply List.filter_congr
    intro file hfile
    rw [Bool.eq_iff_iff, decide_eq_true_eq]
    exact ⟨h file hfile, isresourcefile_of_rc⟩

theorem nodup_append_iff : (objects files ++ resources files).Nodup ↔
    ((files.filter fun file => Path.iscppfile file).map Path.getbasename).Nodup ∧
      ((files.filter fun file => Path.isresourcefile file).map Path.getbasename).Nodup := by
  rw [List.nodup_append, objects, resources, nodup_map_target, nodup_map_target]
  refine ⟨fun h => ⟨h.1, h.2.1⟩, fun h => ⟨h.1, h.2, fun t ht u hu heq => ?_⟩⟩
  obtain ⟨file, -, rfl⟩ := List.mem_map.mp ht
  obtain ⟨file', -, rfl⟩ := List.mem_map.mp hu
  have hobject := (isSuffixOf_object file).1
  rw [heq, (isSuffixOf_resource file').2] at hobject
  cases hobject

theorem nodup_targets (h : Make.resources files =
      ((fileRules files).map Rule.target).filter fun t => resourceExtension.isSuffixOf t)
    (hnodup : (objects files ++ resources files).Nodup) :
    ((fileRules files).map Rule.target).Nodup := by
  obtain ⟨hobjects, -, hall⟩ := targets_eq files
  have hperm := List.filter_append_perm (fun t => objectExtension.isSuffixOf t)
    ((fileRules files).map Rule.target)
  rw [hobjects, ← List.filter_congr hall, ← h] at hperm
  exact hperm.nodup_iff.mp hnodup

theorem file_of_fileRule {rule : Rule} (h : fileRule file = some rule) : rule.file = file := by
  rw [fileRule] at h
  split at h
  · exact congrArg Rule.file (Option.some.inj h).symm
  · split at h
    · exact congrArg Rule.file (Option.some.inj h).symm
    · cases h

theorem exists_rule (hrc : ∀ file ∈ files, Path.isresourcefile file →
      Path.getextension file = rcExtension)
    (hnodup : ((fileRules files).map Rule.target).Nodup) (hfile : file ∈ files)
    (hsource : Path.iscppfile file ∨ Path.isresourcefile file) :
    ∃ rule, (fileRules files).filter (fun rule => rule.file = file) = [rule] := by
  obtain ⟨rule, hrule⟩ : ∃ rule, fileRule file = some rule := by
    rw [← Option.isSome_iff_exists, fileRule]
    rcases hsource with hcpp | hresource
    · rw [if_pos hcpp]
      rfl
    · rw [if_pos (hrc file hfile hresource)]
      split <;> rfl
  refine ⟨rule, filter_eq_singleton (List.Nodup.of_map _ hnodup)
    (List.mem_filterMap.mpr ⟨file, hfile, hrule⟩) fun other hother => ?_⟩
  rw [decide_eq_true_eq]
  constructor
  · intro hfile'
    obtain ⟨file', -, hrule'⟩ := List.mem_filterMap.mp hother
    obtain rfl : file' = file := (file_of_fileRule hrule').symm.trans hfile'
    exact Option.some.inj (hrule'.symm.trans hrule)
  · rintro rfl
    exact file_of_fileRule hrule

/-- The lists of objects and the rules agree exactly when no spelling of `.rc` is different
and no base name is used twice. -/
theorem agree_iff (files : List Str) : Agree files ↔ NamesApart files := by
  constructor
  · intro h
    exact ⟨resources_eq_iff.mp h.resources, nodup_append_iff.mp h.nodup⟩
  · rintro ⟨hrc, hnodup⟩
    have hresources := resources_eq_iff.mpr hrc
    have hnodup' := nodup_append_iff.mpr hnodup
    exact ⟨(targets_eq files).1.symm, hresources, hnodup', fun file hfile hsource =>
      exists_rule hrc (nodup_targets hresources hnodup') hfile hsource⟩

/-- The list has an object for a resource file in upper case, and there is no rule for it. Two
source files in different directories have the same object. -/
theorem not_agree : ¬ Agree ["res/app.RC".toList] ∧
    ¬ Agree ["a/x.c".toList, "b/x.cpp".toList] :=
  ⟨fun h => absurd h.resources (by decide), fun h => absurd h.nodup (by decide)⟩

end Rules

end Make

end Puremake
