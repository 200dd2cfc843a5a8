import Puremake.Scoped.Basic
import Puremake.Host.Originals
import Puremake.Os.Disk
import Puremake.Path.Names

/-!
# Running a script from a script

`dofile` remembers the working directory and `_SCRIPT`, switches to the directory of the script,
runs it, and goes back. It goes back when the script returns. An error in the script leaves
`dofile` without that, and a script that catches the error goes on in the directory of
the one that raised it.
-/

namespace Puremake

namespace Host

open Os (Disk currentdir)
open Scoped (Call Use Run)

/-- The globals that `dofile` saves: the working directory, which is a directory, and
`_SCRIPT`. -/
@[ext] structure Globals (disk : Disk) where
  cwd : List Str
  directory : disk.kind? cwd = some .directory
  script : Option Str
  deriving DecidableEq

inductive Callee
  | dofile (fname : Str)
  | includes (fname : Str)

/-- `include(fname)` is `dofile(fname .. "/premake4.lua")`. -/
def Callee.fname : Callee → Str
  | .dofile fname => fname
  | .includes fname => fname ++ "/premake4.lua".toList

/-- A command of a script: a call of another script, an error, a protected block, or the use of
a relative path. -/
abbrev Command := Scoped.Command Callee Str

/-- The scripts on a disk, where `none` is a file that cannot be compiled, and the strings that
name the directories to search for them, with the border of their list. -/
structure Scripts where
  chunk : List Str → Option (List Command)
  scripts : Option Str
  premakePath : Option Str
  border : ℕ

variable {disk : Disk} (env : Scripts)

def isfile (g : Globals disk) (p : Str) : Bool := disk.mode g.cwd p = some .file

/-- `os.chdir`: nothing happens when there is no such directory. -/
def chdir (g : Globals disk) (p : Str) : Globals disk :=
  match disk.resolve g.cwd p with
  | some d => if h : disk.kind? d = some .directory then ⟨d, h, g.script⟩ else g
  | none => g

/-- The file that a script is looked for in: when there is none of this name, the search path is
checked. -/
def searched (g : Globals disk) (fname : Str) : Str :=
  if isfile g fname then fname
  else match Os.pathsearch env.border (isfile g) fname [env.scripts, env.premakePath] with
    | some path => path ++ '/' :: fname
    | none => fname

/-- The first part of `dofile`: `_SCRIPT` and the working directory are set. -/
def enter (g : Globals disk) (c : Callee) : Globals disk :=
  let script := Path.getabsolute (currentdir g.cwd) (searched env g c.fname)
  { chdir g (Path.getdirectory script) with script := some script }

/-- The file that `builtin_dofile(_SCRIPT)` opens. -/
def opened (g : Globals disk) : Option (List Str) :=
  (g.script.bind (disk.resolve g.cwd)).filter fun file => disk.kind? file = some .file

/-- The last part of `dofile`: `_SCRIPT` and the working directory are what they were. -/
def leave (old g : Globals disk) : Globals disk :=
  { chdir g (currentdir old.cwd) with script := old.script }

/-- `dofile` as a system of calls. -/
def scripting (disk : Disk) : Scoped.System (Globals disk) Callee Str where
  enter := enter env
  chunk := fun g => (opened g).bind env.chunk
  leave := leave

def dofile (fuel : ℕ) (g : Globals disk) (c : Callee) : Option (Run (Globals disk) Callee Str) :=
  Scoped.invoke (scripting env disk) (Scoped.exec (scripting env disk) fuel) g c

/-- The path that a script gives to a function, as the function reads it. -/
def resolved (u : Use (Globals disk) Str) : Str :=
  Path.getabsolute (currentdir u.state.cwd) u.used

/-- After each call, returned or caught, the globals are what they were before it, and each
path that a script uses is read in the directory of the script. -/
def Restores (r : Run (Globals disk) Callee Str) : Prop :=
  (∀ c ∈ r.calls, c.Restored) ∧ ∀ u ∈ r.uses, ∀ file, opened u.home = some file →
    resolved u = Path.getabsolute (currentdir file.dropLast) u.used

/-- Each call whose error is caught names the script that makes it, and the paths that scripts
are opened with start at the root. -/
def Undisturbed (r : Run (Globals disk) Callee Str) : Prop :=
  (∀ c ∈ r.calls, c.Calm) ∧ ∀ u ∈ r.uses, ∀ p ∈ u.home.script, p.head? = some '/'

section Switch

theorem chdir_eq {g : Globals disk} {p : Str} {d : List Str}
    (h : disk.resolve g.cwd p = some d) (hd : disk.kind? d = some .directory) :
    chdir g p = ⟨d, hd, g.script⟩ := by
  rw [chdir, h]
  exact dif_pos hd

theorem leave_eq (g g' : Globals disk) : leave g g' = g := by
  rw [leave, chdir_eq (Os.resolve_currentdir g.directory _) g.directory]

theorem resolve_rooted {p : Str} (hp : p.head? = some '/') (cwd : List Str) :
    disk.resolve cwd p = disk.walk [] (pieces (fun c => c = '/') p) := by
  rw [Disk.resolve, if_pos hp]

theorem walk_file {d file : List Str} {n : Str} (h : disk.walk d [n] = some file)
    (hfile : disk.kind? file = some .file) :
    disk.kind? d = some .directory ∧ file = d ++ [n] := by
  rw [Disk.walk] at h
  split at h
  · cases h
  · rename_i hd
    replace hd := not_not.mp hd
    refine ⟨hd, ?_⟩
    split at h
    · obtain rfl := Option.some.inj h
      rw [hd] at hfile
      cases hfile
    · split at h
      · obtain rfl := Option.some.inj h
        rcases List.eq_nil_or_concat d with rfl | ⟨e, m, rfl⟩
        · rw [List.dropLast_nil, hd] at hfile
          cases hfile
        · rw [List.concat_eq_append, List.dropLast_concat,
            Disk.kind?_parent (by simpa using hd)] at hfile
          cases hfile
      · exact (Option.some.inj h).symm

/-- A script that is opened with a path from the root runs in its own directory. -/
theorem dropLast_opened {g : Globals disk} {p : Str} (hp : p.head? = some '/') {file : List Str}
    (hopen : opened { chdir g (Path.getdirectory p) with script := some p } = some file) :
    file.dropLast = (chdir g (Path.getdirectory p)).cwd := by
  obtain ⟨hresolve, hfile⟩ := Option.filter_eq_some_iff.mp hopen
  replace hfile : disk.kind? file = some .file := of_decide_eq_true hfile
  rw [Option.bind_some, resolve_rooted hp] at hresolve
  cases h : Path.splitLast (fun c => c = '/') p with
  | none =>
      have hno := Path.splitLast_eq_none h '/' (List.mem_of_mem_head? hp)
      simp at hno
  | some ab =>
      obtain ⟨a, n⟩ := ab
      obtain ⟨c, hc, rfl, hn⟩ := Path.splitLast_eq_some h
      obtain rfl : c = '/' := of_decide_eq_true hc
      rw [pieces_append_pieces a (decide_eq_true rfl), pieces_of_forall_not_sep hn,
        Disk.walk_append] at hresolve
      obtain ⟨d, hd, hwalk⟩ := Option.bind_eq_some_iff.mp hresolve
      obtain ⟨hdir, rfl⟩ := walk_file hwalk hfile
      have hbase : disk.resolve g.cwd (Path.getdirectory (a ++ '/' :: n)) = some d := by
        rw [Path.getdirectory, h]
        cases a with
        | nil =>
            rw [resolve_rooted rfl]
            exact (Disk.walk_root [[]]).trans hd
        | cons x a =>
            rw [resolve_rooted (by simpa using hp)]
            exact hd
      rw [List.dropLast_concat, chdir_eq hbase hdir]

end Switch

section Home

def AtHome (g : Globals disk) : Prop :=
  ∀ p, g.script = some p → p.head? = some '/' → ∀ file, opened g = some file →
    file.dropLast = g.cwd

theorem atHome_enter (g : Globals disk) (c : Callee) : AtHome (enter env g c) := by
  rintro p hp hhead file hopen
  obtain rfl := Option.some.inj hp
  exact dropLast_opened hhead hopen

end Home

variable {env}

/-- In every run in which each call whose error is caught names the script that makes it, all
calls restore the globals, and paths are read in the directory of the script; and a run in
which all calls restore the globals is of this kind. -/
theorem restores_of_undisturbed {fuel : ℕ} {g : Globals disk} {c : Callee}
    {r : Run (Globals disk) Callee Str} (h : dofile env fuel g c = some r) :
    (Undisturbed r → Restores r) ∧ (Restores r → ∀ c ∈ r.calls, c.Calm) := by
  have hkeeps := Scoped.keeps_of_invoke leave_eq h
  have hhome : ∀ u ∈ r.uses, AtHome u.home :=
    Scoped.home_invoke (fun s n _ => atHome_enter env s n)
      (Scoped.home_exec (fun s n _ => atHome_enter env s n) fuel) h
  refine ⟨fun ⟨hcalm, hrooted⟩ => ⟨hkeeps.calls.mp hcalm, fun u hu file hfile => ?_⟩,
    fun hrestores => hkeeps.calls.mpr hrestores.1⟩
  have hscript : ∃ p, u.home.script = some p := by
    cases hp : u.home.script with
    | none =>
        rw [opened, hp] at hfile
        cases hfile
    | some p => exact ⟨p, rfl⟩
  obtain ⟨p, hp⟩ := hscript
  rw [resolved, hhome u hu p hp (hrooted u hu p (Option.mem_def.mpr hp)) file hfile,
    hkeeps.uses hcalm rfl u hu]

section Example

def nestedNodes : List (List Str × Os.Kind) :=
  [([], .directory), (["premake4.lua".toList], .file), (["b".toList], .directory),
    (["b".toList, "premake4.lua".toList], .file)]

theorem nodup_nestedNodes : (nestedNodes.map Prod.fst).Nodup := by decide

theorem root_mem_nestedNodes : ([], Os.Kind.directory) ∈ nestedNodes := by decide

theorem closed_nestedNodes :
    ∀ e ∈ nestedNodes, e.1 ≠ [] → (e.1.dropLast, Os.Kind.directory) ∈ nestedNodes := by decide

theorem names_nestedNodes : ∀ e ∈ nestedNodes, ∀ n ∈ e.1, Os.EntryName n := by decide

def nested : Disk :=
  ⟨nestedNodes, nodup_nestedNodes, root_mem_nestedNodes, closed_nestedNodes, names_nestedNodes⟩

/-- The outer script includes the inner one, in a protected block, and uses a path; the inner
script does what `inner` says. -/
def nestedScripts (inner : List Command) : Scripts where
  chunk := fun file =>
    if file = ["premake4.lua".toList] then
      some [.attempt [.call (.includes "b".toList)], .use "main.c".toList]
    else some inner
  scripts := none
  premakePath := none
  border := 0

def start : Globals nested := ⟨[], Disk.kind?_root, none⟩

def nestedRun (inner : List Command) : Option (Run (Globals nested) Callee Str) :=
  dofile (nestedScripts inner) 3 start (.dofile "premake4.lua".toList)

theorem isSome_use : (nestedRun [.use "x.c".toList]).isSome := by decide

theorem isSome_raise : (nestedRun [.raise]).isSome := by decide

/-- When nothing is raised, the outer script reads its path where it is. -/
theorem restores_use : ∃ r, nestedRun [.use "x.c".toList] = some r ∧ Restores r := by
  have hcalm : ∀ c ∈ ((nestedRun [.use "x.c".toList]).get isSome_use).calls, c.Calm := by decide
  have hrooted : ∀ u ∈ ((nestedRun [.use "x.c".toList]).get isSome_use).uses,
      ∀ p ∈ u.home.script, p.head? = some '/' := by decide
  have hrun := (Option.some_get isSome_use).symm
  exact ⟨_, hrun, (restores_of_undisturbed hrun).1 ⟨hcalm, hrooted⟩⟩

/-- When the inner script raises an error, the outer one catches it and goes on in the directory
of the inner one. -/
theorem not_restores_raise : ∃ r, nestedRun [.raise] = some r ∧ ¬ Restores r ∧
    r.uses.map resolved = ["/b/main.c".toList] := by
  have hmoved : ¬ ∀ c ∈ ((nestedRun [.raise]).get isSome_raise).calls, c.Restored := by decide
  exact ⟨_, (Option.some_get isSome_raise).symm, fun h => hmoved h.1, by decide⟩

end Example

end Host

end Puremake
