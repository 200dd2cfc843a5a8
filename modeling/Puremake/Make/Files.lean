import Puremake.Action.Objects
import Mathlib.Algebra.GroupWithZero.Nat

/-!
# Where the makefiles go

A solution or a project that has a directory to itself writes `Makefile` there, and
any other writes a file with its own name. Solutions count only solutions and projects
count both, so the files of a solution and of a project can meet when several
solutions share a directory, and in no other case.
-/

namespace Puremake

namespace Make

def count (session : List Workspace) (location : Str) (searchprjs : Bool) : ℕ :=
  (session.map fun sln =>
    (if sln.location = location then 1 else 0) +
      if searchprjs then sln.projects.countP fun prj => prj.location = location else 0).sum

/-- A solution or a project, as far as the name of its makefile goes. -/
structure Writer where
  isProject : Bool
  name : Str
  location : Str
  deriving DecidableEq, Repr

def getmakefilename (session : List Workspace) (this : Writer) (searchprjs : Bool) : Str :=
  if count session this.location searchprjs = 1 then "Makefile".toList
  else this.name ++ ".make".toList

/-- The solutions and the projects of a session. A root configuration has the location
of its project. -/
def writers (session : List Workspace) : List Writer :=
  (session.map fun sln => ⟨false, sln.name, sln.location⟩) ++
    session.flatMap fun sln => sln.projects.map fun prj => ⟨true, prj.name, prj.location⟩

/-- The makefile that the `gmake` action writes for a solution or a project. -/
def makefile (session : List Workspace) (this : Writer) : Str × Str :=
  (this.location, getmakefilename session this this.isProject)

/-- A solution shares its location and its name with a project only if no other
solution is there. -/
def Apart (session : List Workspace) : Prop :=
  ∀ sln ∈ session, ∀ owner ∈ session, ∀ prj ∈ owner.projects,
    prj.location = sln.location → prj.name = sln.name →
      ∀ other ∈ session, other.location = sln.location → other.name = sln.name

section Count

variable {session : List Workspace} {location : Str}

theorem count_true :
    count session location true = (writers session).countP fun w => w.location = location := by
  rw [writers, List.countP_append, List.countP_map, List.countP_flatMap, count]
  induction session with
  | nil => rfl
  | cons sln session ih =>
      simp only [List.map_cons, List.sum_cons, List.countP_cons, if_true] at ih ⊢
      rw [ih]
      simp only [Function.comp_def, List.countP_map]
      by_cases h : sln.location = location
      · simp [h]
        omega
      · simp [h]
        omega

theorem count_false :
    count session location false =
      (writers session).countP fun w => w.isProject = false ∧ w.location = location := by
  have hnone : ∀ sln : Workspace, (sln.projects.map fun prj =>
      (⟨true, prj.name, prj.location⟩ : Writer)).countP
        (fun w => w.isProject = false ∧ w.location = location) = 0 := by
    intro sln
    rw [List.countP_map, List.countP_eq_zero]
    simp
  rw [writers, List.countP_append, List.countP_map, List.countP_flatMap, count]
  induction session with
  | nil => rfl
  | cons sln session ih =>
      simp only [List.map_cons, List.sum_cons, List.countP_cons] at ih ⊢
      rw [ih]
      simp only [Function.comp_def, hnone]
      by_cases h : sln.location = location
      · simp [h]
        omega
      · simp [h]

theorem eq_of_countP_eq_one {α : Type*} {p : α → Bool} {l : List α} (h : l.countP p = 1)
    {x y : α} (hx : x ∈ l) (hy : y ∈ l) (hpx : p x) (hpy : p y) : x = y := by
  rw [List.countP_eq_length_filter, List.length_eq_one_iff] at h
  obtain ⟨a, ha⟩ := h
  have hx' : x ∈ [a] := ha ▸ List.mem_filter.mpr ⟨hx, hpx⟩
  have hy' : y ∈ [a] := ha ▸ List.mem_filter.mpr ⟨hy, hpy⟩
  rw [List.mem_singleton.mp hx', List.mem_singleton.mp hy']

theorem countP_eq_one {α : Type*} {p : α → Bool} {l : List α} (hl : l.Nodup) {x : α}
    (hx : x ∈ l) (hpx : p x) (h : ∀ y ∈ l, p y → y = x) : l.countP p = 1 := by
  rw [List.countP_eq_length_filter, List.length_eq_one_iff]
  refine ⟨x, List.perm_singleton.mp ?_⟩
  refine (List.perm_ext_iff_of_nodup (hl.filter p) (List.nodup_singleton x)).mpr fun y => ?_
  rw [List.mem_filter, List.mem_singleton]
  constructor
  · exact fun hy => h y hy.1 hy.2
  · rintro rfl
    exact ⟨hx, hpx⟩

end Count

section Apart

variable {session : List Workspace}

theorem mem_writers {w : Writer} : w ∈ writers session ↔
    (∃ sln ∈ session, (⟨false, sln.name, sln.location⟩ : Writer) = w) ∨
      ∃ sln ∈ session, ∃ prj ∈ sln.projects, (⟨true, prj.name, prj.location⟩ : Writer) = w := by
  simp [writers]

/-- Names are unique among the solutions, and among the projects. -/
theorem eq_of_name (hslns : (session.map Workspace.name).Nodup)
    (hprjs : (session.flatMap fun sln => sln.projects.map fun prj => prj.name).Nodup)
    {w w' : Writer} (hw : w ∈ writers session) (hw' : w' ∈ writers session)
    (hsort : w.isProject = w'.isProject)
    (hname : w.name = w'.name) : w = w' := by
  rcases mem_writers.mp hw with ⟨sln, hsln, rfl⟩ | ⟨sln, hsln, prj, hprj, rfl⟩
  · rcases mem_writers.mp hw' with ⟨sln', hsln', rfl⟩ | ⟨sln', hsln', prj', hprj', rfl⟩
    · rw [List.inj_on_of_nodup_map hslns hsln hsln' hname]
    · cases hsort
  · rcases mem_writers.mp hw' with ⟨sln', hsln', rfl⟩ | ⟨sln', hsln', prj', hprj', rfl⟩
    · cases hsort
    · have hprjs' : ((session.flatMap fun sln => sln.projects).map fun prj => prj.name).Nodup := by
        rwa [List.map_flatMap]
      rw [List.inj_on_of_nodup_map hprjs' (List.mem_flatMap.mpr ⟨sln, hsln, hprj⟩)
        (List.mem_flatMap.mpr ⟨sln', hsln', hprj'⟩) hname]

theorem nodup_writers (hslns : (session.map Workspace.name).Nodup)
    (hprjs : (session.flatMap fun sln => sln.projects.map fun prj => prj.name).Nodup) :
    (writers session).Nodup := by
  rw [writers, List.nodup_append]
  refine ⟨?_, ?_, ?_⟩
  · refine List.Nodup.of_map Writer.name ?_
    simpa [Function.comp_def] using hslns
  · refine List.Nodup.of_map Writer.name ?_
    simpa [List.map_flatMap, Function.comp_def] using hprjs
  · intro w hw w' hw' heq
    obtain ⟨sln, -, rfl⟩ := List.mem_map.mp hw
    obtain ⟨owner, -, hw'⟩ := List.mem_flatMap.mp hw'
    obtain ⟨prj, -, rfl⟩ := List.mem_map.mp hw'
    cases heq

theorem makefile_ne (name : Str) : "Makefile".toList ≠ name ++ ".make".toList := by
  intro h
  have hlast := congrArg (fun s : Str => s.drop (s.length - 5)) h
  simp at hlast

theorem eq_of_makefile_eq (hslns : (session.map Workspace.name).Nodup)
    (hprjs : (session.flatMap fun sln => sln.projects.map fun prj => prj.name).Nodup)
    {w w' : Writer} (hw : w ∈ writers session) (hw' : w' ∈ writers session)
    (hsort : w.isProject = w'.isProject)
    (h : makefile session w = makefile session w') : w = w' := by
  obtain ⟨hlocation, hfile⟩ := Prod.mk.inj h
  rw [getmakefilename, getmakefilename, ← hlocation, ← hsort] at hfile
  by_cases hcount : count session w.location w.isProject = 1
  · cases hproject : w.isProject with
    | true =>
        rw [hproject, count_true] at hcount
        exact eq_of_countP_eq_one hcount hw hw' (by simp) (by simp [hlocation])
    | false =>
        rw [hproject, count_false] at hcount
        exact eq_of_countP_eq_one hcount hw hw' (by simp [hproject])
          (by simp [hlocation, ← hsort, hproject])
  · rw [if_neg hcount, if_neg hcount] at hfile
    exact eq_of_name hslns hprjs hw hw' hsort (List.append_cancel_right hfile)

/-- A solution and a project write the same file when they share their location and
their name, and another solution has this location, too. -/
theorem makefile_eq_iff {sln owner : Workspace} (hsln : sln ∈ session) (howner : owner ∈ session)
    {prj : BakedProject} (hprj : prj ∈ owner.projects)
    (hslns : (session.map Workspace.name).Nodup)
    (hprjs : (session.flatMap fun sln => sln.projects.map fun prj => prj.name).Nodup) :
    makefile session ⟨false, sln.name, sln.location⟩ =
        makefile session ⟨true, prj.name, prj.location⟩ ↔
      prj.location = sln.location ∧ prj.name = sln.name ∧
        ∃ other ∈ session, other.location = sln.location ∧ other.name ≠ sln.name := by
  have hw : (⟨false, sln.name, sln.location⟩ : Writer) ∈ writers session :=
    mem_writers.mpr (Or.inl ⟨sln, hsln, rfl⟩)
  have hw' : (⟨true, prj.name, prj.location⟩ : Writer) ∈ writers session :=
    mem_writers.mpr (Or.inr ⟨owner, howner, prj, hprj, rfl⟩)
  have hboth : prj.location = sln.location → count session sln.location true ≠ 1 := by
    intro hlocation hcount
    rw [count_true] at hcount
    have heq := eq_of_countP_eq_one hcount hw hw' (by simp) (by simp [hlocation])
    cases heq
  constructor
  · intro h
    obtain ⟨hlocation, hfile⟩ := Prod.mk.inj h
    have hlocation : prj.location = sln.location := hlocation.symm
    simp only [getmakefilename] at hfile
    rw [hlocation, if_neg (hboth hlocation)] at hfile
    by_cases hcount : count session sln.location false = 1
    · rw [if_pos hcount] at hfile
      exact absurd hfile (makefile_ne prj.name)
    · rw [if_neg hcount] at hfile
      refine ⟨hlocation, (List.append_cancel_right hfile).symm, ?_⟩
      by_contra hnone
      refine hcount ?_
      rw [count_false]
      refine countP_eq_one (nodup_writers hslns hprjs) hw (by simp) fun y hy hpy => ?_
      rcases mem_writers.mp hy with ⟨other, hother, rfl⟩ | ⟨owner, -, prj, -, rfl⟩
      · have hsame : other.location = sln.location := by simpa using hpy
        have hname : other.name = sln.name := by
          by_contra hne
          exact hnone ⟨other, hother, hsame, hne⟩
        rw [hname, hsame]
      · simp at hpy
  · rintro ⟨hlocation, hname, other, hother, hsame, hne⟩
    have hcount : count session sln.location false ≠ 1 := by
      rw [count_false]
      intro hone
      have hother' : (⟨false, other.name, other.location⟩ : Writer) ∈ writers session :=
        mem_writers.mpr (Or.inl ⟨other, hother, rfl⟩)
      have heq := eq_of_countP_eq_one hone hother' hw (by simp [hsame]) (by simp)
      exact hne (Writer.mk.inj heq).2.1
    simp only [makefile, getmakefilename, hlocation, hname]
    rw [if_neg hcount, if_neg (hboth hlocation)]

/-- No two makefiles are the same exactly when the solutions and projects are apart. -/
theorem nodup_makefiles_iff (hslns : (session.map Workspace.name).Nodup)
    (hprjs : (session.flatMap fun sln => sln.projects.map fun prj => prj.name).Nodup) :
    ((writers session).map (makefile session)).Nodup ↔ Apart session := by
  rw [List.nodup_map_iff_inj_on (nodup_writers hslns hprjs)]
  constructor
  · intro hinj sln hsln owner howner prj hprj hlocation hname other hother hsame
    by_contra hne
    have heq := (makefile_eq_iff hsln howner hprj hslns hprjs).mpr
      ⟨hlocation, hname, other, hother, hsame, hne⟩
    have hwriter := hinj _ (mem_writers.mpr (Or.inl ⟨sln, hsln, rfl⟩)) _
      (mem_writers.mpr (Or.inr ⟨owner, howner, prj, hprj, rfl⟩)) heq
    cases hwriter
  · intro hapart
    have hmixed : ∀ sln ∈ session, ∀ owner ∈ session, ∀ prj ∈ owner.projects,
        makefile session ⟨false, sln.name, sln.location⟩ ≠
          makefile session ⟨true, prj.name, prj.location⟩ := by
      intro sln hsln owner howner prj hprj heq
      obtain ⟨hlocation, hname, other, hother, hsame, hne⟩ :=
        (makefile_eq_iff hsln howner hprj hslns hprjs).mp heq
      exact hne (hapart sln hsln owner howner prj hprj hlocation hname other hother hsame)
    intro w hw w' hw' heq
    by_cases hsort : w.isProject = w'.isProject
    · exact eq_of_makefile_eq hslns hprjs hw hw' hsort heq
    · rcases mem_writers.mp hw with ⟨sln, hsln, rfl⟩ | ⟨owner, howner, prj, hprj, rfl⟩
      · rcases mem_writers.mp hw' with ⟨sln', hsln', rfl⟩ | ⟨owner, howner, prj, hprj, rfl⟩
        · exact absurd rfl hsort
        · exact absurd heq (hmixed sln hsln owner howner prj hprj)
      · rcases mem_writers.mp hw' with ⟨sln', hsln', rfl⟩ | ⟨owner', howner', prj', hprj', rfl⟩
        · exact absurd heq.symm (hmixed sln' hsln' owner howner prj hprj)
        · exact absurd rfl hsort

end Apart

section Example

def solutionAt (name location : String) (projects : List (String × String)) : Workspace where
  name := name.toList
  obj := Container.ofBlock (Fields.empty.set .location location.toList) (configuration 0 [])
  basis := []
  projects := projects.map fun prj =>
    { name := prj.1.toList
      usage := false
      obj := Container.ofBlock (Fields.empty.set .location prj.2.toList) (configuration 0 [])
      configs := [] }

theorem nodup_makefiles_alone :
    ((writers [solutionAt "A" "/src" [("A", "/src")]]).map
      (makefile [solutionAt "A" "/src" [("A", "/src")]])).Nodup :=
  (nodup_makefiles_iff (by decide) (by decide)).mpr (by
    intro sln hsln owner howner prj hprj _ _ other hother _
    rw [List.mem_singleton.mp hother, List.mem_singleton.mp hsln])

/-- Two solutions and a project in one directory: the solution and the project with the
same name write the same file. -/
theorem not_nodup_makefiles_shared :
    ¬ ((writers [solutionAt "A" "/src" [("A", "/src")], solutionAt "B" "/src" []]).map
      (makefile [solutionAt "A" "/src" [("A", "/src")], solutionAt "B" "/src" []])).Nodup := by
  decide

end Example

end Make

end Puremake
