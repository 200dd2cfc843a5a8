import Puremake.Action.Generate
import Puremake.Bake.Buildconfigs
import Puremake.Emit.Basic
import Puremake.Os.Rmdir

/-!
# Does `clean` remove what the actions generate?

The `clean` action runs the cleaning callbacks of all actions on every solution and project,
and then removes what the configurations build. Files are passed to `os.remove`, but `os.rmdir`
raises an error for every directory, since there is no function for an empty one. So the action
ends at the first directory: the `.xcodeproj` of the first project that it comes to. What has been
passed by then are the files of the solutions up to the one of this project, and the files of the
project itself. Everything else that the actions generate is only removed when it lies in this
directory, or has one of these names.

The Visual Studio actions clean a project by appending the extensions to the path from the
current directory, which is not the path of a file when it leads to the current directory or above
it.
-/

namespace Puremake

open FoldRun

/-- What is passed to `os.remove` or to `os.rmdir`. -/
inductive Removal
  | file (path : Str)
  | directory (path : Str)
  deriving DecidableEq, Repr

/-- A file is removed when it is named, or with a directory that it lies in. -/
def Removal.Removes (cwd f : Str) : Removal → Prop
  | .file path => path = f
  | .directory path => Path.LiesIn cwd f path

instance (cwd f : Str) : (r : Removal) → Decidable (r.Removes cwd f)
  | .file path => inferInstanceAs (Decidable (path = f))
  | .directory path => inferInstanceAs (Decidable (Path.LiesIn cwd f path))

/-- A part of the run of `clean`: what it passes, and its value or the error that ends the run. -/
abbrev Cleaning := Emit Removal ActionError

namespace Clean

open Emit

/-- `os.remove` -/
def remove (path : Str) : Cleaning Unit := ⟨[.file path], .ok ()⟩

/-- `os.rmdir`, at the end of which `builtin_rmdir` is called. What it removes itself before lies in
the directory, unless there is a star in the path, which is read as a mask then. -/
def rmdir (path : Str) : Cleaning Unit :=
  ⟨[.directory path], if Os.builtin_rmdir.isSome then .ok () else .error .rmdir⟩

theorem rmdir_eq (path : Str) : rmdir path = ⟨[.directory path], .error .rmdir⟩ := by
  rw [rmdir, Os.builtin_rmdir_eq_none]
  rfl

def file (cwd : Str) (this : Make.Writer) (pattern : Str) : Cleaning Unit := do
  let fname ← of (getfilename cwd this pattern)
  remove fname

def directory (cwd : Str) (this : Make.Writer) (pattern : Str) : Cleaning Unit := do
  let fname ← of (getfilename cwd this pattern)
  rmdir fname

/-- The patterns of the files that `oncleansolution` of an action removes. -/
def solutionPatterns (session : List Workspace) (sln : Workspace) : Trigger → List Str
  | .codeblocks => [suffixed ".workspace"]
  | .codelite => [suffixed ".workspace", suffixed "_wsp.mk", suffixed ".tags"]
  | .gmake => [Make.getmakefilename session sln.writer false]
  | .vs2002 | .vs2003 | .vs2005 | .vs2008 | .vs2010 | .vs2012 | .vs2013 | .vs2015 =>
      [".sln", ".suo", ".ncb", ".userprefs", ".usertasks"].map suffixed
  | .xcode3 | .xcode4 => []

/-- `oncleansolution` of an action -/
def oncleansolution (cwd : Str) (session : List Workspace) (sln : Workspace)
    (action : Trigger) : Cleaning Unit :=
  each (solutionPatterns session sln action) (file cwd sln.writer)

/-- The extensions that `vstudio.cleanproject` appends. -/
def vstudioExtensions : List String :=
  [".vcproj", ".vcproj.user", ".vcxproj", ".vcxproj.user", ".vcxproj.filters", ".csproj",
    ".csproj.user", ".pidb", ".sdf"]

/-- `vstudio.cleanproject` -/
def vstudioProject (cwd : Str) (prj : BakedProject) : Cleaning Unit := do
  let fname ← of (getfilename cwd prj.writer (suffixed ""))
  each vstudioExtensions fun e => remove (fname ++ e.toList)

/-- The patterns of the files that `oncleanproject` of an action removes, other than the Visual
Studio actions. -/
def projectPatterns (session : List Workspace) (prj : BakedProject) : Trigger → List Str
  | .codeblocks => [".cbp", ".depend", ".layout"].map suffixed
  | .codelite => [".project", ".mk", ".list", ".out"].map suffixed
  | .gmake => [Make.getmakefilename session prj.writer true]
  | _ => []

/-- `oncleanproject` of an action -/
def oncleanproject (cwd : Str) (session : List Workspace) (prj : BakedProject)
    (action : Trigger) : Cleaning Unit :=
  match action with
  | .codeblocks | .codelite | .gmake =>
      each (projectPatterns session prj action) (file cwd prj.writer)
  | .vs2002 | .vs2003 | .vs2005 | .vs2008 | .vs2010 | .vs2012 | .vs2013 | .vs2015 =>
      vstudioProject cwd prj
  | .xcode3 => directory cwd prj.writer (suffixed ".xcodeproj")
  | .xcode4 => each ([".xcodeproj", ".xcworkspace"].map suffixed) (directory cwd prj.writer)

/-- `oncleantarget` of an action -/
def oncleantarget (target : Str) : Trigger → Cleaning Unit
  | .vs2002 | .vs2003 | .vs2005 | .vs2008 | .vs2010 | .vs2012 | .vs2013 | .vs2015 =>
      each [".pdb", ".idb", ".ilk", ".vshost.exe", ".exe.manifest"] fun e =>
        remove (target ++ e.toList)
  | .codeblocks | .codelite | .gmake | .xcode3 | .xcode4 => pure ()

def fullpath (env : Env) (prj : BakedProject) (cfg : BakedConfig) (direction : Direction)
    (pathstyle namestyle system : String) : Cleaning Str :=
  match gettarget env prj.name cfg direction pathstyle.toList namestyle.toList system.toList with
  | .ok target => of (.ok target.fullpath)
  | .error e => of (.error (.bake e))

/-- What `clean` removes for a configuration of a project. -/
def builds (env : Env) (prj : BakedProject) (cfg : BakedConfig) : Cleaning Unit := do
  match cfg.objectsdir, cfg.buildtarget with
  | some objectsdir, some buildtarget =>
      directory env.cwd prj.writer objectsdir
      -- remove all permutations of the target binary
      file env.cwd prj.writer (← fullpath env prj cfg .build "posix" "windows" "windows")
      file env.cwd prj.writer (← fullpath env prj cfg .build "posix" "posix" "linux")
      file env.cwd prj.writer (← fullpath env prj cfg .build "posix" "posix" "macosx")
      file env.cwd prj.writer (← fullpath env prj cfg .build "posix" "PS3" "windows")
      if cfg.fields .kind = some "WindowedApp".toList then
        let linux ← fullpath env prj cfg .build "posix" "posix" "linux"
        directory env.cwd prj.writer (linux ++ ".app".toList)
      -- if there is an import library, remove that too
      file env.cwd prj.writer (← fullpath env prj cfg .link "windows" "windows" "windows")
      file env.cwd prj.writer (← fullpath env prj cfg .link "posix" "posix" "linux")
      let dir ← of (getfilename env.cwd prj.writer buildtarget.directory)
      each Trigger.all (oncleantarget (Path.join [some dir, some buildtarget.basename]))
  | _, _ => of (.error (.bake .indexNil))

def platforms (sln : Workspace) : List Str :=
  if native ∈ sln.obj.platformnames then sln.obj.platformnames
  else sln.obj.platformnames ++ [native]

/-- What `clean` removes of what a project builds. -/
def products (env : Env) (sln : Workspace) (prj : BakedProject) : Cleaning Unit := do
  match prj.root with
  | none => of (.error (.bake .indexNil))
  | some root =>
      each root.objectsdir.toList (directory env.cwd prj.writer)
      each (platforms sln) fun platform =>
        each (eachconfig sln prj (some platform)) (builds env prj)

/-- `onproject` of `clean` -/
def cleanProject (env : Env) (session : List Workspace) (sln : Workspace)
    (prj : BakedProject) : Cleaning Unit := do
  each Trigger.all (oncleanproject env.cwd session prj)
  products env sln prj

/-- `onsolution` and `onproject` of `clean`, for a solution and its projects. -/
def cleanSolution (env : Env) (session : List Workspace) (sln : Workspace) : Cleaning Unit := do
  each Trigger.all (oncleansolution env.cwd session sln)
  each sln.projects (cleanProject env session sln)

/-- The `clean` action. -/
def clean (env : Env) (session : List Workspace) : Cleaning Unit :=
  each session (cleanSolution env session)

/-- Everything that the callbacks of the actions generate is removed. -/
def CleansUp (env : Env) (session : List Workspace) : Prop :=
  ∀ action, ∀ f ∈ generated env.cwd session action,
    ∃ r ∈ (clean env session).passed, r.Removes env.cwd f

def Insertable (name : Str) : Prop := (replacement name).isOk

instance (name : Str) : Decidable (Insertable name) := inferInstanceAs (Decidable (_ = true))

/-- Where `clean` ends in a session: the solutions that it has cleaned, the project at which it
ends, and the projects and solutions that it does not come to. -/
structure Stop where
  cleaned : List Workspace
  project : Option BakedProject
  projects : List BakedProject
  solutions : List Workspace

/-- The end at the first project. A name that cannot be inserted ends the run before anything of
its object is removed. -/
def stop : List Workspace → Stop
  | [] => ⟨[], none, [], []⟩
  | sln :: slns =>
    if Insertable sln.name then
      match sln.projects with
      | [] => { stop slns with cleaned := sln :: (stop slns).cleaned }
      | prj :: prjs =>
        if Insertable prj.name then ⟨[sln], some prj, prjs, slns⟩
        else ⟨[sln], none, prj :: prjs, slns⟩
    else ⟨[], none, [], sln :: slns⟩

/-- A file in the directory at which `clean` ends. -/
def Swallowed (cwd : Str) (session : List Workspace) (f : Str) : Prop :=
  ∃ prj ∈ (stop session).project,
    ∃ path ∈ (getfilename cwd prj.writer (suffixed ".xcodeproj")).toOption, Path.LiesIn cwd f path

instance (cwd : Str) (session : List Workspace) (f : Str) :
    Decidable (Swallowed cwd session f) := inferInstanceAs (Decidable (∃ _ ∈ _, _))

def vstudioNames (cwd : Str) (prj : BakedProject) : List Str :=
  match getfilename cwd prj.writer (suffixed "") with
  | .ok fname => vstudioExtensions.map fun e => fname ++ e.toList
  | .error _ => []

/-- A file that is removed under its name before `clean` ends. -/
def Named (cwd : Str) (session : List Workspace) (f : Str) : Prop :=
  (∃ sln ∈ (stop session).cleaned, ∃ action ∈ Trigger.all,
    ∃ pattern ∈ solutionPatterns session sln action, getfilename cwd sln.writer pattern = .ok f) ∨
  ∃ prj ∈ (stop session).project, f ∈ vstudioNames cwd prj ∨ ∃ action ∈ Trigger.all,
    ∃ pattern ∈ projectPatterns session prj action, getfilename cwd prj.writer pattern = .ok f

instance (cwd : Str) (session : List Workspace) (f : Str) : Decidable (Named cwd session f) :=
  inferInstanceAs (Decidable ((∃ _ ∈ _, _) ∨ ∃ _ ∈ _, _))

def EndsInName (n : Str) : Prop := ∀ q ∈ (pieces isSeparator n).getLast?, Path.IsTail q

instance (n : Str) : Decidable (EndsInName n) := inferInstanceAs (Decidable (∀ _ ∈ _, _))

/-- The current directory is not reached through the path that the files of a project have
without their extensions. -/
def Aside (cwd : Str) (prj : BakedProject) (n : Str) : Prop :=
  EndsInName n ∧ ¬ Path.AtOrAbove cwd (Path.join [some prj.location, some n])

instance (cwd : Str) (prj : BakedProject) (n : Str) : Decidable (Aside cwd prj n) :=
  inferInstanceAs (Decidable (_ ∧ _))

/-- The sessions that `clean` cleans up after. The files of the Xcode actions lie in the directory
at which it ends, and so do the other files of the solutions and projects that it does not come to,
unless they are removed under the names of others. At the project at which it ends, the current
directory is not at or below the path of the project, unless the Visual Studio files lie in this
directory, too, or are named after all for a project whose name can be no file name. -/
structure Tidy (env : Env) (session : List Workspace) : Prop where
  xcode : ∀ action ∈ [Trigger.xcode3, Trigger.xcode4], ∀ f ∈ generated env.cwd session action,
    Swallowed env.cwd session f
  solutions : ∀ sln ∈ (stop session).solutions, ∀ action ∈ Trigger.all,
    ∀ pattern ∈ onsolution session sln action, ∀ f ∈ generate env.cwd sln.writer pattern,
      Swallowed env.cwd session f ∨ Named env.cwd session f
  projects : ∀ prj ∈ (stop session).projects ++
      (stop session).solutions.flatMap (fun sln => sln.projects), ∀ action ∈ Trigger.all,
    ∀ pattern ∈ onproject session prj action, ∀ f ∈ generate env.cwd prj.writer pattern,
      Swallowed env.cwd session f ∨ Named env.cwd session f
  visual : ∀ prj ∈ (stop session).project, ∀ n ∈ (replacement prj.name).toOption,
    Aside env.cwd prj n ∨ ∀ e ∈ vs200xExtensions prj ++ vs2010Extensions prj,
      ∀ f ∈ generate env.cwd prj.writer (suffixed e), Swallowed env.cwd session f ∨
        ¬ EndsInName n ∧ f ∈ vstudioNames env.cwd prj

section Names

variable {cwd f : Str} {this : Make.Writer} {c : Anchor}

/-- An ending of a file name that survives in the path of the file. -/
def IsEnding (e : String) : Prop :=
  3 ≤ e.toList.length ∧ '%' ∉ e.toList ∧ ∀ c ∈ e.toList, isSeparator c = false

instance (e : String) : Decidable (IsEnding e) :=
  have : Decidable (∀ c ∈ e.toList, isSeparator c = false) := List.decidableBAll _ _
  inferInstanceAs (Decidable (_ ∧ _ ∧ _))

theorem getfilename_eq_ok {pattern : Str} : getfilename cwd this pattern = .ok f ↔
    ∃ n, getbasename this.name pattern = .ok n ∧
      Path.here cwd (Path.normalize (Path.joined this.location n)) = f := by
  rw [getfilename, bind_eq_ok]
  refine exists_congr fun n => and_congr_right fun _ => ?_
  rw [Path.join_eq]
  exact ⟨fun h => Except.ok.inj h, fun h => congrArg Except.ok h⟩

theorem generate_eq_some {pattern : Str} : generate cwd this pattern = some f ↔
    getfilename cwd this pattern = .ok f ∧ Path.IsFile f := by
  rw [generate, Option.filter_eq_some_iff]
  cases getfilename cwd this pattern <;> simp [Except.toOption]

theorem suffix_of_getfilename (hc : (read cwd).anchor = some c) {pattern : Str} {e : String}
    (he : IsEnding e) (hpattern : e.toList <:+ pattern)
    (h : getfilename cwd this pattern = .ok f) (hfile : Path.IsFile f) : e.toList <:+ f := by
  obtain ⟨hlen, hpercent, hsep⟩ := he
  obtain ⟨n, hn, rfl⟩ := getfilename_eq_ok.mp h
  obtain ⟨start, rfl⟩ := hpattern
  have hend : e.toList <:+ n := by
    cases hlist : e.toList with
    | nil => exact List.nil_suffix
    | cons d t =>
        rw [hlist] at hn hpercent
        rw [List.mem_cons, not_or] at hpercent
        exact suffix_of_getbasename (Ne.symm hpercent.1) hpercent.2 hn
  obtain ⟨n, rfl⟩ := hend
  obtain ⟨ns, l, hl⟩ := Path.exists_pieces_tail n
  have hpieces := Path.pieces_append_tail hl hsep
  have hjoined := Path.pieces_joined this.location (n ++ e.toList)
  rw [hpieces, ← List.append_assoc] at hjoined
  rw [(Path.pieces_here hc hjoined (Path.isTail_append hl hsep hlen) hfile).1]
  exact (List.suffix_append l e.toList).trans (Path.suffix_concat _ _)

theorem getfilename_suffixed {suffix : String} (hs : '%' ∉ suffix.toList) :
    getfilename cwd this (suffixed suffix) = .ok f ↔ ∃ n, replacement this.name = .ok n ∧
      Path.here cwd (Path.normalize (Path.joined this.location (n ++ suffix.toList))) = f := by
  rw [getfilename_eq_ok, getbasename_suffixed hs]
  constructor
  · rintro ⟨m, hm, hf⟩
    obtain ⟨n, hn, rfl⟩ := map_eq_ok.mp hm
    exact ⟨n, hn, hf⟩
  · rintro ⟨n, hn, hf⟩
    exact ⟨_, map_eq_ok.mpr ⟨n, hn, rfl⟩, hf⟩

def Unlike (e e' : String) : Prop := ¬ e.toList <:+ e'.toList ∧ ¬ e'.toList <:+ e.toList

instance (e e' : String) : Decidable (Unlike e e') := inferInstanceAs (Decidable (_ ∧ _))

theorem Unlike.false {e e' : String} (h : Unlike e e') (he : e.toList <:+ f)
    (he' : e'.toList <:+ f) : False := by
  rcases List.suffix_or_suffix_of_suffix he he' with hsub | hsub
  · exact h.1 hsub
  · exact h.2 hsub

end Names

section Parts

variable {cwd f : Str} {session : List Workspace} {sln : Workspace} {prj : BakedProject}
  {action : Trigger} {c : Anchor}

/-- How the patterns of the files end that `oncleansolution` of an action removes. -/
def solutionEndings : List String :=
  [".workspace", "_wsp.mk", ".tags", ".make", "Makefile", ".sln", ".suo", ".ncb", ".userprefs",
    ".usertasks"]

/-- How the patterns of the files end that `oncleanproject` of an action removes. -/
def projectEndings : List String :=
  [".cbp", ".depend", ".layout", ".project", ".mk", ".list", ".out", ".make", "Makefile"]

def generatedEndings : List String :=
  ["contents.xcworkspacedata", "project.pbxproj", ".vcproj", ".vcproj.user", ".vcxproj",
    ".vcxproj.user", ".vcxproj.filters", ".csproj", ".csproj.user"]

theorem isEnding_of_mem : ∀ e ∈ solutionEndings ++ projectEndings ++ generatedEndings,
    IsEnding e := by
  decide

theorem unlike_of_mem : ∀ e ∈ generatedEndings, ∀ e' ∈ solutionEndings ++ projectEndings,
    Unlike e e' := by
  decide

theorem mem_generatedEndings : ∀ e ∈ vs200xExtensions prj ++ vs2010Extensions prj,
    e ∈ generatedEndings ∧ e ∈ vstudioExtensions := by
  intro e he
  rw [vs200xExtensions, vs2010Extensions] at he
  split at he
  · revert e
    decide
  · revert e
    decide

theorem suffix_suffixed (suffix : String) : suffix.toList <:+ suffixed suffix :=
  ⟨"%%".toList, rfl⟩

theorem exists_ending_makefile (this : Make.Writer) (searchprjs : Bool) :
    ∃ e ∈ [".make", "Makefile"],
      e.toList <:+ Make.getmakefilename session this searchprjs := by
  rw [Make.getmakefilename]
  split
  · exact ⟨"Makefile", by simp, List.suffix_rfl⟩
  · exact ⟨".make", by simp, List.suffix_append _ _⟩

theorem exists_ending_map {endings es : List String} (hes : ∀ e ∈ es, e ∈ endings) {pattern : Str}
    (h : pattern ∈ es.map suffixed) : ∃ e ∈ endings, e.toList <:+ pattern := by
  obtain ⟨e, he, rfl⟩ := List.mem_map.mp h
  exact ⟨e, hes e he, suffix_suffixed e⟩

theorem exists_ending_solution {pattern : Str}
    (h : pattern ∈ solutionPatterns session sln action) :
    ∃ e ∈ solutionEndings, e.toList <:+ pattern := by
  have hmake : solutionPatterns session sln .gmake =
      [Make.getmakefilename session sln.writer false] := rfl
  cases action with
  | gmake =>
      rw [hmake, List.mem_singleton] at h
      have hsub : ∀ e ∈ [".make", "Makefile"], e ∈ solutionEndings := by decide
      obtain ⟨e, he, hsuffix⟩ := @exists_ending_makefile session sln.writer false
      exact ⟨e, hsub e he, h ▸ hsuffix⟩
  | codeblocks => exact @exists_ending_map solutionEndings [".workspace"] (by decide) _ h
  | codelite =>
      exact @exists_ending_map solutionEndings [".workspace", "_wsp.mk", ".tags"] (by decide) _ h
  | xcode3 => cases h
  | xcode4 => cases h
  | _ =>
      exact @exists_ending_map solutionEndings
        [".sln", ".suo", ".ncb", ".userprefs", ".usertasks"] (by decide) _ h

theorem exists_ending_project {pattern : Str}
    (h : pattern ∈ projectPatterns session prj action) :
    ∃ e ∈ projectEndings, e.toList <:+ pattern := by
  have hmake : projectPatterns session prj .gmake =
      [Make.getmakefilename session prj.writer true] := rfl
  cases action with
  | gmake =>
      rw [hmake, List.mem_singleton] at h
      have hsub : ∀ e ∈ [".make", "Makefile"], e ∈ projectEndings := by decide
      obtain ⟨e, he, hsuffix⟩ := @exists_ending_makefile session prj.writer true
      exact ⟨e, hsub e he, h ▸ hsuffix⟩
  | codeblocks =>
      exact @exists_ending_map projectEndings [".cbp", ".depend", ".layout"] (by decide) _ h
  | codelite =>
      exact @exists_ending_map projectEndings [".project", ".mk", ".list", ".out"] (by decide) _ h
  | _ => cases h

end Parts

section Callbacks

variable {cwd : Str} {this : Make.Writer} {session : List Workspace} {sln : Workspace}
  {prj : BakedProject} {r : Removal}

theorem exists_getfilename (h : Insertable this.name) (pattern : Str) :
    ∃ f, getfilename cwd this pattern = .ok f := by
  rw [Insertable] at h
  cases hn : replacement this.name with
  | error e =>
      rw [hn] at h
      cases h
  | ok n =>
      obtain ⟨s, hs⟩ := exists_getbasename hn pattern
      exact ⟨_, getfilename_eq_ok.mpr ⟨s, hs, rfl⟩⟩

theorem getfilename_error (h : ¬ Insertable this.name) {suffix : String}
    (hs : '%' ∉ suffix.toList) : ∃ e, getfilename cwd this (suffixed suffix) = .error e := by
  cases hf : getfilename cwd this (suffixed suffix) with
  | error e => exact ⟨e, rfl⟩
  | ok f =>
      obtain ⟨n, hn, -⟩ := (getfilename_suffixed hs).mp hf
      refine absurd ?_ h
      rw [Insertable, hn]
      rfl

theorem file_ok {pattern f : Str} (h : getfilename cwd this pattern = .ok f) :
    file cwd this pattern = ⟨[.file f], .ok ()⟩ :=
  of_bind h _

theorem file_error {pattern : Str} {e : ActionError} (h : getfilename cwd this pattern = .error e) :
    file cwd this pattern = ⟨[], .error e⟩ :=
  of_bind_error h _

theorem each_file (h : Insertable this.name) (patterns : List Str) :
    (each patterns (file cwd this)).result = .ok () ∧
      (r ∈ (each patterns (file cwd this)).passed ↔
        ∃ pattern ∈ patterns, ∃ f, getfilename cwd this pattern = .ok f ∧ r = .file f) := by
  rw [each_ok fun pattern _ => ?_]
  · refine ⟨rfl, List.mem_flatMap.trans (exists_congr fun pattern => and_congr_right fun _ => ?_)⟩
    obtain ⟨f, hf⟩ := @exists_getfilename cwd this h pattern
    rw [file_ok hf, hf, List.mem_singleton]
    exact ⟨fun hr => ⟨f, rfl, hr⟩, fun ⟨_, hg, hr⟩ => (Except.ok.inj hg) ▸ hr⟩
  · obtain ⟨f, hf⟩ := @exists_getfilename cwd this h pattern
    rw [file_ok hf]

theorem each_oncleansolution (h : Insertable sln.name) :
    (each Trigger.all (oncleansolution cwd session sln)).result = .ok () ∧
      (r ∈ (each Trigger.all (oncleansolution cwd session sln)).passed ↔
        ∃ action ∈ Trigger.all, ∃ pattern ∈ solutionPatterns session sln action,
          ∃ f, getfilename cwd sln.writer pattern = .ok f ∧ r = .file f) := by
  have hok : ∀ action ∈ Trigger.all, (oncleansolution cwd session sln action).result = .ok () :=
    fun _ _ => (@each_file cwd sln.writer (.file []) h _).1
  rw [each_ok hok]
  refine ⟨rfl, List.mem_flatMap.trans (exists_congr fun action => and_congr_right fun _ => ?_)⟩
  exact (each_file h _).2

theorem each_oncleansolution_error (h : ¬ Insertable sln.name) :
    ∃ e, each Trigger.all (oncleansolution cwd session sln) = ⟨[], .error e⟩ := by
  obtain ⟨e, he⟩ := @getfilename_error cwd sln.writer h ".workspace" (by decide)
  have hfirst : oncleansolution cwd session sln .codeblocks = ⟨[], .error e⟩ := by
    show (do file cwd sln.writer (suffixed ".workspace"); each [] _) = _
    rw [bind_error (by rw [file_error he]), file_error he]
  exact ⟨e, bind_error (by rw [hfirst]) _ |>.trans (by rw [hfirst])⟩

def before : List Trigger :=
  [.codeblocks, .codelite, .gmake, .vs2002, .vs2003, .vs2005, .vs2008, .vs2010, .vs2012, .vs2013,
    .vs2015]

theorem vstudioProject_ok (h : Insertable prj.name) :
    vstudioProject cwd prj = ⟨(vstudioNames cwd prj).map .file, .ok ()⟩ := by
  obtain ⟨f, hf⟩ := @exists_getfilename cwd prj.writer h (suffixed "")
  rw [vstudioProject, of_bind hf, each_ok fun _ _ => rfl, vstudioNames, hf, List.map_map,
    List.map_eq_flatMap]
  rfl

/-- The callbacks for a project whose name can be inserted, before the first directory. -/
theorem oncleanproject_before (h : Insertable prj.name) {action : Trigger} (ha : action ∈ before) :
    (oncleanproject cwd session prj action).result = .ok () ∧
      (r ∈ (oncleanproject cwd session prj action).passed ↔
        (∃ pattern ∈ projectPatterns session prj action,
          ∃ f, getfilename cwd prj.writer pattern = .ok f ∧ r = .file f) ∨
        action ∉ [Trigger.codeblocks, .codelite, .gmake] ∧
          ∃ f ∈ vstudioNames cwd prj, r = .file f) := by
  have hvs := @vstudioProject_ok cwd prj h
  have hfiles := fun patterns => @each_file cwd prj.writer r h patterns
  cases action with
  | codeblocks | codelite | gmake =>
      rw [oncleanproject]
      exact ⟨(hfiles _).1, (hfiles _).2.trans (by simp)⟩
  | xcode3 | xcode4 => exact absurd ha (by decide)
  | _ =>
      rw [oncleanproject, hvs]
      refine ⟨rfl, ?_⟩
      simp [projectPatterns, eq_comm]

theorem cleanProject_stop (env : Env) (h : Insertable prj.name) :
    (cleanProject env session sln prj).result = .error .rmdir ∧
      (r ∈ (cleanProject env session sln prj).passed ↔
        (∃ f, (f ∈ vstudioNames env.cwd prj ∨ ∃ action ∈ Trigger.all,
          ∃ pattern ∈ projectPatterns session prj action,
            getfilename env.cwd prj.writer pattern = .ok f) ∧ r = .file f) ∨
        ∃ path, getfilename env.cwd prj.writer (suffixed ".xcodeproj") = .ok path ∧
          r = .directory path) := by
  obtain ⟨path, hpath⟩ := @exists_getfilename env.cwd prj.writer h (suffixed ".xcodeproj")
  have hdir : oncleanproject env.cwd session prj .xcode3 =
      ⟨[.directory path], .error .rmdir⟩ := by
    rw [oncleanproject, directory, of_bind hpath, rmdir_eq]
  have hall : each Trigger.all (oncleanproject env.cwd session prj) =
      ⟨(before.flatMap fun action => (oncleanproject env.cwd session prj action).passed) ++
        [.directory path], .error .rmdir⟩ := by
    have herror : (oncleanproject env.cwd session prj .xcode3).result = .error .rmdir := by
      rw [hdir]
    have h := each_error [Trigger.xcode4]
      (fun action ha => (@oncleanproject_before env.cwd session prj (.file []) h action ha).1)
      herror
    rw [hdir] at h
    exact h
  rw [cleanProject, bind_error (by rw [hall]), hall]
  refine ⟨rfl, ?_⟩
  rw [List.mem_append, List.mem_singleton, List.mem_flatMap]
  refine or_congr ?_ ?_
  · constructor
    · rintro ⟨action, ha, hr⟩
      rcases (oncleanproject_before h ha).2.mp hr with
        ⟨pattern, hpattern, f, hf, rfl⟩ | ⟨-, f, hf, rfl⟩
      · exact ⟨f, .inr ⟨action, action.mem_all, pattern, hpattern, hf⟩, rfl⟩
      · exact ⟨f, .inl hf, rfl⟩
    · rintro ⟨f, hf | ⟨action, -, pattern, hpattern, hf⟩, rfl⟩
      · exact ⟨.vs2002, by decide, (oncleanproject_before h (by decide)).2.mpr
          (.inr ⟨by decide, f, hf, rfl⟩)⟩
      · have ha : action ∈ before := by
          cases action <;> first | decide | cases hpattern
        exact ⟨action, ha, (oncleanproject_before h ha).2.mpr
          (.inl ⟨pattern, hpattern, f, hf, rfl⟩)⟩
  · rw [hpath]
    exact ⟨fun hr => ⟨path, rfl, hr⟩, fun ⟨_, hg, hr⟩ => (Except.ok.inj hg) ▸ hr⟩

theorem cleanProject_error (env : Env) (h : ¬ Insertable prj.name) :
    ∃ e, cleanProject env session sln prj = ⟨[], .error e⟩ := by
  obtain ⟨e, he⟩ := @getfilename_error env.cwd prj.writer h ".cbp" (by decide)
  have hfirst : oncleanproject env.cwd session prj .codeblocks = ⟨[], .error e⟩ := by
    show (do file env.cwd prj.writer (suffixed ".cbp"); each _ _) = _
    rw [bind_error (by rw [file_error he]), file_error he]
  have hall : each Trigger.all (oncleanproject env.cwd session prj) = ⟨[], .error e⟩ :=
    bind_error (by rw [hfirst]) _ |>.trans (by rw [hfirst])
  refine ⟨e, ?_⟩
  rw [cleanProject, bind_error (by rw [hall]), hall]

end Callbacks

section Run

variable {env : Env} {session slns : List Workspace} {sln : Workspace} {prj : BakedProject}
  {f : Str} {r : Removal} {c : Anchor}

theorem stop_cons_of_nil (h : Insertable sln.name) (hprj : sln.projects = []) :
    stop (sln :: slns) = { stop slns with cleaned := sln :: (stop slns).cleaned } := by
  rw [stop, if_pos h, hprj]

theorem stop_cons_of_cons (h : Insertable sln.name) {prjs : List BakedProject}
    (hprj : sln.projects = prj :: prjs) : stop (sln :: slns) =
      if Insertable prj.name then ⟨[sln], some prj, prjs, slns⟩
      else ⟨[sln], none, prj :: prjs, slns⟩ := by
  rw [stop, if_pos h, hprj]

/-- Every solution and project of a session is one that is cleaned, or one that is not come to. -/
structure Parted (slns : List Workspace) (s : Stop) : Prop where
  cleaned : ∀ sln ∈ s.cleaned, sln ∈ slns ∧ Insertable sln.name
  project : ∀ prj ∈ s.project, (∃ sln ∈ slns, prj ∈ sln.projects) ∧ Insertable prj.name
  solutions : ∀ sln ∈ s.solutions, sln ∈ slns
  projects : ∀ prj ∈ s.projects, ∃ sln ∈ slns, prj ∈ sln.projects
  solution : ∀ sln ∈ slns, sln ∈ s.cleaned ∨ sln ∈ s.solutions
  below : ∀ sln ∈ slns, ∀ prj ∈ sln.projects, prj ∈ s.project ∨
    prj ∈ s.projects ++ s.solutions.flatMap fun sln => sln.projects

/-- A solution without projects is cleaned, and the run goes on. -/
theorem Parted.cons {s : Stop} (h : Parted slns s) (hname : Insertable sln.name)
    (hprj : sln.projects = []) :
    Parted (sln :: slns) { s with cleaned := sln :: s.cleaned } where
  cleaned := by
    intro sln' hsln'
    rcases List.mem_cons.mp hsln' with rfl | hsln'
    · exact ⟨List.mem_cons_self, hname⟩
    · exact (h.cleaned sln' hsln').imp_left (List.mem_cons_of_mem sln)
  project := by
    intro prj hp
    obtain ⟨⟨sln', hsln', hmem⟩, hname⟩ := h.project prj hp
    exact ⟨⟨sln', List.mem_cons_of_mem sln hsln', hmem⟩, hname⟩
  solutions := fun sln' hsln' => List.mem_cons_of_mem sln (h.solutions sln' hsln')
  projects := by
    intro prj hp
    obtain ⟨sln', hsln', hmem⟩ := h.projects prj hp
    exact ⟨sln', List.mem_cons_of_mem sln hsln', hmem⟩
  solution := by
    intro sln' hsln'
    rcases List.mem_cons.mp hsln' with rfl | hsln'
    · exact .inl List.mem_cons_self
    · exact (h.solution sln' hsln').imp_left (List.mem_cons_of_mem sln)
  below := by
    intro sln' hsln' prj hp
    rcases List.mem_cons.mp hsln' with rfl | hsln'
    · rw [hprj] at hp
      cases hp
    · exact h.below sln' hsln' prj hp

/-- The run ends at the first project, or before it when its name cannot be inserted. -/
theorem parted_of_project {prjs : List BakedProject} (hname : Insertable sln.name)
    (hprj : sln.projects = prj :: prjs) : Parted (sln :: slns)
      (if Insertable prj.name then ⟨[sln], some prj, prjs, slns⟩
        else ⟨[sln], none, prj :: prjs, slns⟩) := by
  have hall : ∀ s ∈ sln :: slns, ∀ p ∈ s.projects,
      p = prj ∨ p ∈ prjs ++ slns.flatMap fun sln => sln.projects := by
    intro s hs p hp
    rcases List.mem_cons.mp hs with rfl | hs
    · rw [hprj] at hp
      exact (List.mem_cons.mp hp).imp_right (List.mem_append_left _)
    · exact .inr (List.mem_append_right _ (List.mem_flatMap.mpr ⟨s, hs, hp⟩))
  have hmem : ∀ p ∈ prj :: prjs, ∃ s ∈ sln :: slns, p ∈ s.projects := fun p hp =>
    ⟨sln, List.mem_cons_self, hprj ▸ hp⟩
  have hcleaned : ∀ s ∈ [sln], s ∈ sln :: slns ∧ Insertable s.name := fun s hs => by
    obtain rfl := List.mem_singleton.mp hs
    exact ⟨List.mem_cons_self, hname⟩
  have hsolution : ∀ s ∈ sln :: slns, s ∈ [sln] ∨ s ∈ slns := fun s hs =>
    (List.mem_cons.mp hs).imp_left List.mem_singleton.mpr
  split
  · rename_i hinsert
    refine ⟨hcleaned, fun p hp => ?_, fun s hs => List.mem_cons_of_mem sln hs,
      fun p hp => hmem p (List.mem_cons_of_mem prj hp), hsolution, ?_⟩
    · obtain rfl := Option.some.inj hp
      exact ⟨hmem prj List.mem_cons_self, hinsert⟩
    · exact fun s hs p hp => (hall s hs p hp).imp_left fun heq => congrArg some heq.symm
  · refine ⟨hcleaned, by simp, fun s hs => List.mem_cons_of_mem sln hs, hmem, hsolution, ?_⟩
    exact fun s hs p hp => .inr (by simpa using hall s hs p hp)

theorem parted_stop (slns : List Workspace) : Parted slns (stop slns) := by
  induction slns with
  | nil => constructor <;> simp [stop]
  | cons sln slns ih =>
      by_cases hname : Insertable sln.name
      · cases hprj : sln.projects with
        | nil =>
            rw [stop_cons_of_nil hname hprj]
            exact ih.cons hname hprj
        | cons prj prjs =>
            rw [stop_cons_of_cons hname hprj]
            exact parted_of_project hname hprj
      · rw [stop, if_neg hname]
        refine ⟨by simp, by simp, fun _ hs => hs, by simp, fun _ hs => .inr hs, ?_⟩
        exact fun s hs p hp => .inr (List.mem_flatMap.mpr ⟨s, hs, hp⟩)

theorem cleanSolution_of_nil (h : Insertable sln.name) (hprj : sln.projects = []) :
    cleanSolution env session sln =
      ⟨(each Trigger.all (oncleansolution env.cwd session sln)).passed, .ok ()⟩ := by
  rw [cleanSolution, bind_ok (@each_oncleansolution env.cwd session sln (.file []) h).1, hprj]
  simp [each, pure]

/-- No project lets the run go on. -/
theorem cleanSolution_of_cons (h : Insertable sln.name) {prjs : List BakedProject}
    (hprj : sln.projects = prj :: prjs) {e : ActionError}
    (he : (cleanProject env session sln prj).result = .error e) :
    cleanSolution env session sln =
      ⟨(each Trigger.all (oncleansolution env.cwd session sln)).passed ++
        (cleanProject env session sln prj).passed, .error e⟩ := by
  rw [cleanSolution, bind_ok (@each_oncleansolution env.cwd session sln (.file []) h).1, hprj,
    each, bind_error he]

theorem cleanSolution_error (h : ¬ Insertable sln.name) :
    ∃ e, cleanSolution env session sln = ⟨[], .error e⟩ := by
  obtain ⟨e, he⟩ := @each_oncleansolution_error env.cwd session sln h
  exact ⟨e, by rw [cleanSolution, bind_error (by rw [he]), he]⟩

/-- What the run passes: the files of the solutions that are cleaned, and those of the project at
which it ends, with its directory. -/
theorem mem_each_cleanSolution : r ∈ (each slns (cleanSolution env session)).passed ↔
    (∃ sln ∈ (stop slns).cleaned, ∃ action ∈ Trigger.all,
      ∃ pattern ∈ solutionPatterns session sln action,
        ∃ f, getfilename env.cwd sln.writer pattern = .ok f ∧ r = .file f) ∨
    ∃ prj ∈ (stop slns).project,
      (∃ f, (f ∈ vstudioNames env.cwd prj ∨ ∃ action ∈ Trigger.all,
        ∃ pattern ∈ projectPatterns session prj action,
          getfilename env.cwd prj.writer pattern = .ok f) ∧ r = .file f) ∨
      ∃ path, getfilename env.cwd prj.writer (suffixed ".xcodeproj") = .ok path ∧
        r = .directory path := by
  induction slns with
  | nil => simp [each, stop, pure]
  | cons sln slns ih =>
      rw [each]
      by_cases h : Insertable sln.name
      · have hmem := (@each_oncleansolution env.cwd session sln r h).2
        cases hprj : sln.projects with
        | nil =>
            have hsln := @cleanSolution_of_nil env session sln h hprj
            rw [bind_ok (by rw [hsln]), hsln, stop_cons_of_nil h hprj, List.mem_append, ih, hmem]
            simp only [List.mem_cons, exists_eq_or_imp, or_assoc]
        | cons prj prjs =>
            by_cases hname : Insertable prj.name
            · obtain ⟨herror, hproject⟩ := @cleanProject_stop session sln prj r env hname
              have hsln := cleanSolution_of_cons h hprj herror
              rw [bind_error (by rw [hsln]), hsln, stop_cons_of_cons h hprj, if_pos hname,
                List.mem_append, hmem, hproject]
              simp only [List.mem_singleton, exists_eq_left, Option.mem_some_iff, exists_eq_left']
            · obtain ⟨e, he⟩ := @cleanProject_error session sln prj env hname
              have hsln := cleanSolution_of_cons h hprj (congrArg Emit.result he)
              rw [he, List.append_nil] at hsln
              rw [bind_error (by rw [hsln]), hsln, stop_cons_of_cons h hprj, if_neg hname, hmem]
              simp
      · obtain ⟨e, hsln⟩ := @cleanSolution_error env session sln h
        rw [bind_error (by rw [hsln]), hsln, stop, if_neg h]
        simp

/-- A file is removed when it is named before the run ends, or lies in the directory at which it
ends. -/
theorem exists_removal_iff : (∃ r ∈ (clean env session).passed, r.Removes env.cwd f) ↔
    Named env.cwd session f ∨ Swallowed env.cwd session f := by
  rw [clean]
  simp only [mem_each_cleanSolution]
  constructor
  · rintro ⟨r, ⟨sln, hsln, action, ha, pattern, hpattern, f', hf', rfl⟩ |
      ⟨prj, hprj, ⟨f', hf', rfl⟩ | ⟨path, hpath, rfl⟩⟩, hremoves⟩
    · obtain rfl : f' = f := hremoves
      exact .inl (.inl ⟨sln, hsln, action, ha, pattern, hpattern, hf'⟩)
    · obtain rfl : f' = f := hremoves
      exact .inl (.inr ⟨prj, hprj, hf'⟩)
    · exact .inr ⟨prj, hprj, path, by rw [hpath]; rfl, hremoves⟩
  · rintro ((⟨sln, hsln, action, ha, pattern, hpattern, hf⟩ | ⟨prj, hprj, hf⟩) |
      ⟨prj, hprj, path, hpath, hin⟩)
    · exact ⟨.file f, .inl ⟨sln, hsln, action, ha, pattern, hpattern, f, hf, rfl⟩, rfl⟩
    · exact ⟨.file f, .inr ⟨prj, hprj, .inl ⟨f, hf, rfl⟩⟩, rfl⟩
    · exact ⟨.directory path, .inr ⟨prj, hprj, .inr ⟨path, toOption_eq_some.mp hpath, rfl⟩⟩, hin⟩

theorem named_of_ending (hc : (read env.cwd).anchor = some c) (hfile : Path.IsFile f) {e : String}
    (he : e ∈ generatedEndings) (hend : e.toList <:+ f) (h : Named env.cwd session f) :
    ∃ prj ∈ (stop session).project, f ∈ vstudioNames env.cwd prj := by
  have hpattern : ∀ (this : Make.Writer), ∀ e' ∈ solutionEndings ++ projectEndings,
      ∀ pattern, e'.toList <:+ pattern → getfilename env.cwd this pattern ≠ .ok f := by
    intro this e' he' pattern hsuffix hok
    refine (unlike_of_mem e he e' he').false hend ?_
    exact suffix_of_getfilename hc (isEnding_of_mem e' (List.mem_append_left _ he')) hsuffix hok
      hfile
  rcases h with ⟨sln, -, action, -, pattern, hmem, hok⟩ |
    ⟨prj, hprj, hvs | ⟨action, -, pattern, hmem, hok⟩⟩
  · obtain ⟨e', he', hsuffix⟩ := exists_ending_solution hmem
    exact absurd hok (hpattern _ e' (List.mem_append_left _ he') pattern hsuffix)
  · exact ⟨prj, hprj, hvs⟩
  · obtain ⟨e', he', hsuffix⟩ := exists_ending_project hmem
    exact absurd hok (hpattern _ e' (List.mem_append_right _ he') pattern hsuffix)

end Run

section Visual

variable {cwd f n : Str} {session : List Workspace} {prj : BakedProject} {e : String} {c : Anchor}

theorem extension_of_mem : ∀ e ∈ vstudioExtensions,
    IsEnding e ∧ e.toList.head? = some '.' ∧ e.toList[1]? ≠ some ':' := by
  decide

theorem unlike_extension : ∀ e ∈ generatedEndings, ∀ e' ∈ vstudioExtensions,
    e ≠ e' → Unlike e e' := by
  decide

/-- The pieces of the path of a project, and of its path with an extension. -/
theorem pieces_project (he : e ∈ vstudioExtensions) (hn : EndsInName n) (dir : Str) :
    ∃ ps q, pieces isSeparator (Path.joined dir n) = ps ++ [q] ∧ Path.IsTail q ∧
      pieces isSeparator (Path.joined dir (n ++ e.toList)) = ps ++ [q ++ e.toList] ∧
      Path.IsTail (q ++ e.toList) := by
  obtain ⟨⟨hlen, -, hsep⟩, hdot, hcolon⟩ := extension_of_mem e he
  obtain ⟨ns, l, hl⟩ := Path.exists_pieces_tail n
  refine ⟨Path.before dir (Path.isabsolute n) ++ ns, l, ?_, ?_, ?_, ?_⟩
  · rw [Path.pieces_joined, hl, List.append_assoc]
  · refine hn l ?_
    rw [hl, List.getLast?_concat]
    rfl
  · rw [Path.pieces_joined, Path.isabsolute_extension hdot hcolon,
      Path.pieces_append_tail hl hsep, List.append_assoc]
  · exact Path.isTail_append hl hsep hlen

theorem generate_extension (he : e ∈ vstudioExtensions) (hn : replacement prj.name = .ok n)
    (hf : f ∈ generate cwd prj.writer (suffixed e)) :
    f = Path.here cwd (Path.normalize (Path.joined prj.location (n ++ e.toList))) ∧
      Path.IsFile f := by
  obtain ⟨hname, hfile⟩ := generate_eq_some.mp hf
  obtain ⟨n', hn', rfl⟩ := (getfilename_suffixed (extension_of_mem e he).1.2.1).mp hname
  obtain rfl := Except.ok.inj (hn.symm.trans hn')
  exact ⟨rfl, hfile⟩

theorem mem_vstudioNames : f ∈ vstudioNames cwd prj ↔
    ∃ n, replacement prj.name = .ok n ∧ ∃ e ∈ vstudioExtensions,
      f = Path.here cwd (Path.normalize (Path.joined prj.location n)) ++ e.toList := by
  have hempty : '%' ∉ "".toList := by decide
  rw [vstudioNames]
  constructor
  · intro h
    cases hg : getfilename cwd prj.writer (suffixed "") with
    | error err =>
        rw [hg] at h
        cases h
    | ok fname =>
        rw [hg] at h
        obtain ⟨n, hn, rfl⟩ := (getfilename_suffixed hempty).mp hg
        obtain ⟨e, he, rfl⟩ := List.mem_map.mp h
        exact ⟨n, hn, e, he, by rw [String.toList_empty, List.append_nil]; rfl⟩
  · rintro ⟨n, hn, e, he, rfl⟩
    have hg := (@getfilename_suffixed cwd _ prj.writer "" hempty).mpr ⟨n, hn, rfl⟩
    rw [String.toList_empty, List.append_nil] at hg
    rw [hg]
    exact List.mem_map.mpr ⟨e, he, rfl⟩

/-- Aside from the current directory, the Visual Studio actions remove what they generate. -/
theorem mem_vstudioNames_of_aside (hc : (read cwd).anchor = some c) (he : e ∈ vstudioExtensions)
    (hn : replacement prj.name = .ok n) (haside : Aside cwd prj n)
    (hf : f ∈ generate cwd prj.writer (suffixed e)) : f ∈ vstudioNames cwd prj := by
  obtain ⟨hname, habove⟩ := haside
  obtain ⟨rfl, hfile⟩ := generate_extension he hn hf
  obtain ⟨ps, q, hp, hq, hp', hq'⟩ := pieces_project he hname prj.location
  rw [Path.join_eq] at habove
  exact mem_vstudioNames.mpr ⟨n, hn, e, he, Path.here_append hc hp hq hp' hq' habove hfile⟩

theorem not_mem_vstudioNames (hc : (read cwd).anchor = some c) (he : e ∈ generatedEndings)
    (hvs : e ∈ vstudioExtensions) (hn : replacement prj.name = .ok n) (hname : EndsInName n)
    (habove : Path.AtOrAbove cwd (Path.join [some prj.location, some n]))
    (hf : f ∈ generate cwd prj.writer (suffixed e)) (other : BakedProject) :
    f ∉ vstudioNames cwd other := by
  intro hmem
  obtain ⟨n', -, e', he', hvalue⟩ := mem_vstudioNames.mp hmem
  obtain ⟨hf', hfile⟩ := generate_extension hvs hn hf
  have hend : e.toList <:+ f := by
    refine suffix_of_getfilename hc (extension_of_mem e hvs).1 (suffix_suffixed e)
      (generate_eq_some.mp hf).1 hfile
  have heq : e = e' := by
    by_contra hne
    exact (unlike_extension e he e' he' hne).false hend (hvalue ▸ List.suffix_append _ _)
  subst heq
  obtain ⟨ps, q, hp, hq, hp', hq'⟩ := pieces_project hvs hname prj.location
  rw [Path.join_eq] at habove
  rw [hf'] at hvalue hfile
  exact Path.here_ne_of_atOrAbove hc hp hq habove hp' hq' hfile _ hvalue

/-- From the directory of a project, the files of the project are in the directory above it. -/
example : getfilename "/home/app".toList ⟨true, "app".toList, "/home".toList⟩
      (suffixed ".vcxproj") = .ok "../app.vcxproj".toList ∧
    getfilename "/home/app".toList ⟨true, "app".toList, "/home".toList⟩ (suffixed "") =
      .ok ".".toList := by
  decide

end Visual

section Tidy

variable {env : Env} {session : List Workspace} {c : Anchor}

theorem mem_generated {cwd f : Str} {action : Trigger} : f ∈ generated cwd session action ↔
    ∃ sln ∈ session,
      (∃ pattern ∈ onsolution session sln action, f ∈ generate cwd sln.writer pattern) ∨
        ∃ prj ∈ sln.projects, ∃ pattern ∈ onproject session prj action,
          f ∈ generate cwd prj.writer pattern := by
  simp [generated]

/-- Every action but one removes what it generates for a solution. -/
theorem onsolution_subset {sln : Workspace} {action : Trigger} (haction : action ≠ .xcode4) :
    onsolution session sln action ⊆ solutionPatterns session sln action := by
  cases action <;> simp_all [onsolution, solutionPatterns]

/-- What an action generates for a project is what the Xcode actions generate, what the Visual
Studio actions generate, or what it removes by the same pattern. -/
theorem onproject_cases {prj : BakedProject} {action : Trigger} {pattern : Str}
    (h : pattern ∈ onproject session prj action) :
    action ∈ [Trigger.xcode3, .xcode4] ∨
      (∃ e ∈ vs200xExtensions prj ++ vs2010Extensions prj, pattern = suffixed e) ∨
        pattern ∈ projectPatterns session prj action := by
  have hfirst : ∀ {p : Str} {l : List Str}, pattern ∈ [p] → pattern ∈ p :: l := fun h =>
    List.mem_singleton.mp h ▸ List.mem_cons_self
  cases action with
  | codeblocks | codelite => exact .inr (.inr (hfirst h))
  | gmake => exact .inr (.inr h)
  | xcode3 | xcode4 => exact .inl (by simp)
  | vs2002 | vs2003 | vs2005 | vs2008 =>
      obtain ⟨e, he, rfl⟩ := List.mem_map.mp h
      exact .inr (.inl ⟨e, List.mem_append_left _ he, rfl⟩)
  | vs2010 | vs2012 | vs2013 | vs2015 =>
      obtain ⟨e, he, rfl⟩ := List.mem_map.mp h
      exact .inr (.inl ⟨e, List.mem_append_right _ he, rfl⟩)

/-- The files of the Xcode actions end otherwise than all that is removed under its name. -/
theorem ending_of_xcode (hc : (read env.cwd).anchor = some c) {action : Trigger}
    (ha : action ∈ [Trigger.xcode3, .xcode4]) {f : Str}
    (hf : f ∈ generated env.cwd session action) : Path.IsFile f ∧
      ∃ e ∈ ["contents.xcworkspacedata", "project.pbxproj"], e.toList <:+ f := by
  have hfile : ∀ {this : Make.Writer} {pattern : Str} {e : String},
      e ∈ ["contents.xcworkspacedata", "project.pbxproj"] → e.toList <:+ pattern →
      f ∈ generate env.cwd this pattern → Path.IsFile f ∧
        ∃ e ∈ ["contents.xcworkspacedata", "project.pbxproj"], e.toList <:+ f := by
    intro this pattern e he hsuffix hgen
    have hsub : ∀ e ∈ ["contents.xcworkspacedata", "project.pbxproj"], IsEnding e := by decide
    obtain ⟨hname, hfile⟩ := generate_eq_some.mp hgen
    exact ⟨hfile, e, he, suffix_of_getfilename hc (hsub e he) hsuffix hname hfile⟩
  have hworkspace : "contents.xcworkspacedata".toList <:+
      suffixed ".xcworkspace/contents.xcworkspacedata" := by decide
  have hproject : "project.pbxproj".toList <:+ suffixed ".xcodeproj/project.pbxproj" := by decide
  obtain ⟨sln, -, ⟨pattern, hpattern, hgen⟩ | ⟨prj, -, pattern, hpattern, hgen⟩⟩ :=
    mem_generated.mp hf
  · rcases List.mem_pair.mp ha with rfl | rfl
    · cases hpattern
    · rw [List.mem_singleton.mp hpattern] at hgen
      exact hfile (by simp) hworkspace hgen
  · rcases List.mem_pair.mp ha with rfl | rfl
    all_goals
      rw [List.mem_singleton.mp hpattern] at hgen
      exact hfile (by simp) hproject hgen

/-- `clean` removes everything that the actions generate for the tidy sessions, and for
no others. -/
theorem cleansUp_iff (hcwd : (read env.cwd).anchor.isSome) :
    CleansUp env session ↔ Tidy env session := by
  obtain ⟨c, hc⟩ := Option.isSome_iff_exists.mp hcwd
  have hparted := parted_stop session
  simp only [CleansUp, exists_removal_iff]
  constructor
  · intro h
    have hprojects : ∀ sln ∈ session, ∀ prj ∈ sln.projects, ∀ action,
        ∀ pattern ∈ onproject session prj action, ∀ f ∈ generate env.cwd prj.writer pattern,
          Named env.cwd session f ∨ Swallowed env.cwd session f :=
      fun sln hsln prj hprj action pattern hpattern f hf =>
        h action f (mem_generated.mpr ⟨sln, hsln, .inr ⟨prj, hprj, pattern, hpattern, hf⟩⟩)
    refine ⟨?_, ?_, ?_, ?_⟩
    · intro action ha f hf
      refine (h action f hf).resolve_left fun hnamed => ?_
      obtain ⟨hfile, e, he, hend⟩ := ending_of_xcode hc ha hf
      have hsub : ∀ e ∈ ["contents.xcworkspacedata", "project.pbxproj"],
          e ∈ generatedEndings ∧ ∀ e' ∈ vstudioExtensions, Unlike e e' := by decide
      obtain ⟨prj, -, hmem⟩ := named_of_ending hc hfile (hsub e he).1 hend hnamed
      obtain ⟨n, -, e', he', rfl⟩ := mem_vstudioNames.mp hmem
      exact ((hsub e he).2 e' he').false hend (List.suffix_append _ _)
    · intro sln hsln action _ pattern hpattern f hf
      exact (h action f (mem_generated.mpr
        ⟨sln, hparted.solutions sln hsln, .inl ⟨pattern, hpattern, hf⟩⟩)).symm
    · intro prj hprj action _ pattern hpattern f hf
      obtain ⟨sln, hsln, hmem⟩ : ∃ sln ∈ session, prj ∈ sln.projects := by
        rcases List.mem_append.mp hprj with hprj | hprj
        · exact hparted.projects prj hprj
        · obtain ⟨sln, hsln, hmem⟩ := List.mem_flatMap.mp hprj
          exact ⟨sln, hparted.solutions sln hsln, hmem⟩
      exact (hprojects sln hsln prj hmem action pattern hpattern f hf).symm
    · intro prj hprj n hn
      replace hn := toOption_eq_some.mp hn
      by_cases haside : Aside env.cwd prj n
      · exact .inl haside
      · refine .inr fun e he f hf => ?_
        obtain ⟨hgen, hvs⟩ := mem_generatedEndings e he
        obtain ⟨action, haction⟩ : ∃ action, suffixed e ∈ onproject session prj action := by
          rcases List.mem_append.mp he with he | he
          · exact ⟨.vs2002, List.mem_map_of_mem he⟩
          · exact ⟨.vs2010, List.mem_map_of_mem he⟩
        obtain ⟨⟨sln, hsln, hmem⟩, -⟩ := hparted.project prj hprj
        refine (hprojects sln hsln prj hmem action _ haction f hf).symm.imp_right fun hnamed => ?_
        obtain ⟨hname, hfile⟩ := generate_eq_some.mp hf
        have hend := suffix_of_getfilename hc (extension_of_mem e hvs).1 (suffix_suffixed e) hname
          hfile
        obtain ⟨other, hother, hnames⟩ := named_of_ending hc hfile hgen hend hnamed
        obtain rfl : other = prj := Option.some.inj (hother.symm.trans hprj)
        refine ⟨fun hends => ?_, hnames⟩
        have habove := not_not.mp fun hnot => haside ⟨hends, hnot⟩
        exact not_mem_vstudioNames hc hgen hvs hn hends habove hf other hnames
  · intro htidy action f hf
    by_cases hxcode : action ∈ [Trigger.xcode3, .xcode4]
    · exact .inr (htidy.xcode action hxcode f hf)
    · obtain ⟨sln, hsln, ⟨pattern, hpattern, hgen⟩ | ⟨prj, hprj, pattern, hpattern, hgen⟩⟩ :=
        mem_generated.mp hf
      · rcases hparted.solution sln hsln with hcleaned | hleft
        · have hmem := onsolution_subset (fun heq => hxcode (heq ▸ by simp)) hpattern
          exact .inl (.inl ⟨sln, hcleaned, action, action.mem_all, pattern, hmem,
            (generate_eq_some.mp hgen).1⟩)
        · exact (htidy.solutions sln hleft action action.mem_all pattern hpattern f hgen).symm
      · rcases hparted.below sln hsln prj hprj with hproject | hleft
        · rcases onproject_cases hpattern with hx | ⟨e, he, rfl⟩ | hmem
          · exact absurd hx hxcode
          · have hvs := (mem_generatedEndings e he).2
            obtain ⟨n, hn, -⟩ := (getfilename_suffixed (extension_of_mem e hvs).1.2.1).mp
              (generate_eq_some.mp hgen).1
            rcases htidy.visual prj hproject n (toOption_eq_some.mpr hn) with haside | hfiles
            · exact .inl (.inr ⟨prj, hproject,
                .inl (mem_vstudioNames_of_aside hc hvs hn haside hgen)⟩)
            · exact (hfiles e he f hgen).symm.imp_left fun hmem => .inr ⟨prj, hproject, .inl hmem.2⟩
          · exact .inl (.inr ⟨prj, hproject, .inr ⟨action, action.mem_all, pattern, hmem,
              (generate_eq_some.mp hgen).1⟩⟩)
        · exact (htidy.projects prj hleft action action.mem_all pattern hpattern f hgen).symm

end Tidy

section Example

/-- A session with one solution and one project, in which the solution has a location of its
own. -/
def appSession (location : String) : List Solution :=
  [{ obj := Container.ofBlock (((Fields.empty.set .configurations ⟨["Debug".toList], []⟩).set
       .basedir "/home".toList).set .location location.toList) (configuration 0 [])
     projects := [{
       name := "App".toList
       usage := false
       obj := Container.ofBlock (((Fields.empty.set .language "C++".toList).set .basedir
         "/home".toList).set .location "/home".toList) (configuration 1 []) }] }]

def appHeap (location : String) : Heap :=
  initialHeap ((appSession location).flatMap fun sln =>
    sln.obj.blocks ++ sln.projects.flatMap fun prj => prj.obj.blocks)

/-- All files of a solution are removed that are generated in the directory at which `clean`
ends. -/
theorem cleansUp_app : ∃ b, buildconfigs .gmake (appSession "/home/App.xcodeproj")
      (appHeap "/home/App.xcodeproj") = .ok [b] ∧
    CleansUp .gmake [⟨b, "All".toList⟩] ∧
    generated Env.gmake.cwd [⟨b, "All".toList⟩] .xcode4 =
      ["App.xcodeproj/All.xcworkspace/contents.xcworkspacedata".toList,
        "App.xcodeproj/project.pbxproj".toList] := by
  obtain ⟨b, hbake, htidy, hgenerated⟩ : ∃ b, buildconfigs .gmake
        (appSession "/home/App.xcodeproj") (appHeap "/home/App.xcodeproj") = .ok [b] ∧
      Tidy .gmake [⟨b, "All".toList⟩] ∧
      generated Env.gmake.cwd [⟨b, "All".toList⟩] .xcode4 =
        ["App.xcodeproj/All.xcworkspace/contents.xcworkspacedata".toList,
          "App.xcodeproj/project.pbxproj".toList] :=
    ⟨_, rfl, ⟨by decide +kernel, by decide +kernel, by decide +kernel, by decide +kernel⟩,
      by decide +kernel⟩
  exact ⟨b, hbake, (cleansUp_iff (by decide)).mpr htidy, hgenerated⟩

/-- The workspace that `xcode4` generates for a solution is not removed. -/
theorem not_cleansUp_all : ∃ b, buildconfigs .gmake (appSession "/home") (appHeap "/home") =
      .ok [b] ∧ ¬ CleansUp .gmake [⟨b, "All".toList⟩] := by
  obtain ⟨b, hbake, hgenerated, hkept⟩ :
      ∃ b, buildconfigs .gmake (appSession "/home") (appHeap "/home") = .ok [b] ∧
        "All.xcworkspace/contents.xcworkspacedata".toList ∈
          generated Env.gmake.cwd [⟨b, "All".toList⟩] .xcode4 ∧
        ∀ r ∈ (clean .gmake [⟨b, "All".toList⟩]).passed,
          ¬ r.Removes Env.gmake.cwd "All.xcworkspace/contents.xcworkspacedata".toList :=
    ⟨_, rfl, by decide +kernel, by decide +kernel⟩
  refine ⟨b, hbake, fun h => ?_⟩
  obtain ⟨r, hr, hremoves⟩ := h .xcode4 _ hgenerated
  exact hkept r hr hremoves

end Example

end Clean

end Puremake
