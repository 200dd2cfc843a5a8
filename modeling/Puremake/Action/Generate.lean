import Puremake.Make.Files
import Puremake.Path.Here

/-!
# The files that the actions generate

`premake.generate` writes the file of a solution or a project. Its name comes from a pattern
in which `%%` stands for the name of the solution or project, and it is put below the
location. The name is inserted by `string.gsub`, which takes it for a replacement text: a
`%` in it escapes what follows.
-/

namespace Puremake

inductive ActionError
  | capture
  | rmdir
  | bake (e : BakeError)
  deriving DecidableEq, Repr

/-- The messages that Lua raises, for a replacement text and for the missing function of
`os.rmdir`. -/
def ActionError.message : ActionError → Option Str
  | .capture => some "invalid capture index".toList
  | .rmdir => some "attempt to call upvalue 'builtin_rmdir' (a nil value)".toList
  | .bake _ => none

/-- What a replacement text stands for when `%%` is replaced. A digit stands for the capture
with this number, and the whole match is the only one. -/
def replacement : Str → Except ActionError Str
  | [] => .ok []
  | ['%'] => .ok ['\x00']
  | '%' :: c :: s =>
      if c = '0' ∨ c = '1' then (replacement s).map ("%%".toList ++ ·)
      else if c.isDigit then .error .capture
      else (replacement s).map (c :: ·)
  | c :: s => (replacement s).map (c :: ·)

def getbasename (prjname : Str) : Str → Except ActionError Str
  | [] => .ok []
  | '%' :: '%' :: pattern => do
      let name ← replacement prjname
      let rest ← getbasename prjname pattern
      return name ++ rest
  | c :: pattern => (getbasename prjname pattern).map (c :: ·)

def Workspace.writer (sln : Workspace) : Make.Writer := ⟨false, sln.name, sln.location⟩

def BakedProject.writer (prj : BakedProject) : Make.Writer := ⟨true, prj.name, prj.location⟩

def getfilename (cwd : Str) (this : Make.Writer) (pattern : Str) : Except ActionError Str := do
  let fname ← getbasename this.name pattern
  return Path.here cwd (Path.join [some this.location, some fname])

/-- The file that `premake.generate` opens for writing. This fails for a path that can only
be a directory. -/
def generate (cwd : Str) (this : Make.Writer) (pattern : Str) : Option Str :=
  (getfilename cwd this pattern).toOption.filter fun f => Path.IsFile f

/-- The actions that are registered, other than `clean`. -/
inductive Trigger
  | codeblocks
  | codelite
  | gmake
  | vs2002
  | vs2003
  | vs2005
  | vs2008
  | vs2010
  | vs2012
  | vs2013
  | vs2015
  | xcode3
  | xcode4
  deriving DecidableEq, Repr

/-- The actions in the order of `premake.action.each`. -/
def Trigger.all : List Trigger :=
  [.codeblocks, .codelite, .gmake, .vs2002, .vs2003, .vs2005, .vs2008, .vs2010, .vs2012, .vs2013,
    .vs2015, .xcode3, .xcode4]

theorem Trigger.mem_all (action : Trigger) : action ∈ Trigger.all := by
  cases action <;> decide

def suffixed (suffix : String) : Str := '%' :: '%' :: suffix.toList

/-- The patterns of the files that `onsolution` of an action generates. -/
def onsolution (session : List Workspace) (sln : Workspace) : Trigger → List Str
  | .codeblocks => [suffixed ".workspace"]
  | .codelite => [suffixed ".workspace"]
  | .gmake => [Make.getmakefilename session sln.writer false]
  | .vs2002 | .vs2003 | .vs2005 | .vs2008 | .vs2010 | .vs2012 | .vs2013 | .vs2015 =>
      [suffixed ".sln"]
  | .xcode3 => []
  | .xcode4 => [suffixed ".xcworkspace/contents.xcworkspacedata"]

/-- The extensions of the files that a Visual Studio action before 2010 generates for a
project. -/
def vs200xExtensions (prj : BakedProject) : List String :=
  if isdotnetproject prj then [".csproj", ".csproj.user"] else [".vcproj", ".vcproj.user"]

/-- The extensions of the files that a Visual Studio action from 2010 on generates for a
project. -/
def vs2010Extensions (prj : BakedProject) : List String :=
  if isdotnetproject prj then [".csproj", ".csproj.user"]
  else [".vcxproj", ".vcxproj.user", ".vcxproj.filters"]

/-- The patterns of the files that `onproject` of an action generates. -/
def onproject (session : List Workspace) (prj : BakedProject) : Trigger → List Str
  | .codeblocks => [suffixed ".cbp"]
  | .codelite => [suffixed ".project"]
  | .gmake => [Make.getmakefilename session prj.writer true]
  | .vs2002 | .vs2003 | .vs2005 | .vs2008 => (vs200xExtensions prj).map suffixed
  | .vs2010 | .vs2012 | .vs2013 | .vs2015 => (vs2010Extensions prj).map suffixed
  | .xcode3 | .xcode4 => [suffixed ".xcodeproj/project.pbxproj"]

/-- The files that the callbacks of an action generate for the solutions and projects. -/
def generated (cwd : Str) (session : List Workspace) (action : Trigger) : List Str :=
  session.flatMap fun sln =>
    (onsolution session sln action).filterMap (generate cwd sln.writer) ++
      sln.projects.flatMap fun prj =>
        (onproject session prj action).filterMap (generate cwd prj.writer)

section Getbasename

variable {name : Str}

theorem map_eq_ok {α β ε : Type*} {x : Except ε α} {f : α → β} {b : β} :
    x.map f = .ok b ↔ ∃ a, x = .ok a ∧ f a = b := by
  cases x <;> simp [Except.map]

theorem getbasename_cons {c : Char} {s : Str} (h : ∀ t, c :: s ≠ '%' :: '%' :: t) :
    getbasename name (c :: s) = (getbasename name s).map (c :: ·) := by
  rw [getbasename]
  rintro t rfl rfl
  exact h t rfl

theorem getbasename_of_not_mem {s : Str} (hs : '%' ∉ s) : getbasename name s = .ok s := by
  induction s with
  | nil => rfl
  | cons c s ih =>
      rw [List.mem_cons, not_or] at hs
      rw [getbasename_cons fun t h => hs.1 (List.cons.inj h).1.symm, ih hs.2]
      rfl

/-- A name that can be inserted can be inserted into every pattern. -/
theorem exists_getbasename {n : Str} (hn : replacement name = .ok n) (pattern : Str) :
    ∃ s, getbasename name pattern = .ok s := by
  fun_induction getbasename name pattern with
  | case1 => exact ⟨[], rfl⟩
  | case2 pattern ih =>
      obtain ⟨s, hs⟩ := ih
      rw [hn, hs]
      exact ⟨n ++ s, rfl⟩
  | case3 c pattern _ ih =>
      obtain ⟨s, hs⟩ := ih
      rw [hs]
      exact ⟨c :: s, rfl⟩

theorem getbasename_suffixed {suffix : String} (hs : '%' ∉ suffix.toList) :
    getbasename name (suffixed suffix) = (replacement name).map (· ++ suffix.toList) := by
  rw [suffixed, getbasename, getbasename_of_not_mem hs]
  cases replacement name <;> rfl

theorem suffix_of_getbasename {c : Char} {s : Str} (hc : c ≠ '%') (hs : '%' ∉ s) {pattern n : Str}
    (h : getbasename name (pattern ++ c :: s) = .ok n) : c :: s <:+ n := by
  have hend : getbasename name (c :: s) = .ok (c :: s) :=
    getbasename_of_not_mem (by simpa [Ne.symm hc] using hs)
  induction pattern using getbasename.induct generalizing n with
  | case1 =>
      rw [List.nil_append, hend] at h
      exact (Except.ok.inj h) ▸ List.suffix_rfl
  | case2 pattern ih =>
      rw [List.cons_append, List.cons_append, getbasename, FoldRun.bind_eq_ok] at h
      obtain ⟨m, -, h⟩ := h
      rw [FoldRun.bind_eq_ok] at h
      obtain ⟨rest, hrest, h⟩ := h
      obtain rfl : m ++ rest = n := Except.ok.inj h
      exact (ih hrest).trans (List.suffix_append m rest)
  | case3 d pattern hd ih =>
      have hcons : ∀ t, d :: (pattern ++ c :: s) ≠ '%' :: '%' :: t := by
        intro t heq
        obtain ⟨rfl, htail⟩ := List.cons.inj heq
        cases pattern with
        | nil => exact hc (List.cons.inj htail).1
        | cons e pattern =>
            obtain ⟨rfl, -⟩ := List.cons.inj htail
            exact hd pattern rfl rfl
      rw [List.cons_append, getbasename_cons hcons, map_eq_ok] at h
      obtain ⟨rest, hrest, rfl⟩ := h
      exact (ih hrest).trans (List.suffix_cons d rest)

end Getbasename

end Puremake
