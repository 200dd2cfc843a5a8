import Puremake.Os.Match

/-!
# Removing a directory

`os.rmdir` removes the directories in a directory, then the files, and leaves the directory
itself to the function of that name that the library had before. The module has no such
function of its own when it asks for it, and its prototype, the library of the language,
has none either.
-/

namespace Puremake

namespace Os

/-- The functions that the module has when `os.rmdir` is defined. -/
def pmosFunctions : List Str :=
  ["mkdir", "chdir", "isdir", "pathsearch", "matchstart", "matchdone", "matchnext", "matchname",
    "matchisfile", "uuid", "getcwd", "isfile", "locate", "executef", "findlib", "get", "is",
    "is64bit", "matchdirs", "matchfiles", "outputof"].map String.toList

/-- The functions of the library `os` of the language. -/
def osFunctions : List Str :=
  ["clock", "date", "difftime", "execute", "exit", "getenv", "remove", "rename", "setlocale",
    "time", "tmpname"].map String.toList

namespace Disk

variable {disk : Disk} {q : List Str}

theorem nodup_erase (disk : Disk) (q : List Str) :
    ((disk.nodes.filter fun e => e.1 ≠ q).map Prod.fst).Nodup :=
  disk.nodup.sublist (List.filter_sublist.map Prod.fst)

theorem root_mem_erase (hq : q ≠ []) :
    ([], Kind.directory) ∈ disk.nodes.filter fun e => e.1 ≠ q :=
  List.mem_filter.mpr ⟨disk.root, decide_eq_true fun h => hq h.symm⟩

theorem closed_erase (hempty : disk.entries q = []) :
    ∀ e ∈ disk.nodes.filter fun e => e.1 ≠ q, e.1 ≠ [] →
      (e.1.dropLast, Kind.directory) ∈ disk.nodes.filter fun e => e.1 ≠ q := by
  intro e he hne
  have hmem := (List.mem_filter.mp he).1
  refine List.mem_filter.mpr ⟨disk.closed e hmem hne, decide_eq_true fun hq => ?_⟩
  have hentry : e.1.getLast hne ∈ disk.entries q := by
    refine mem_entries_iff.mpr ⟨e.2, kind?_eq_some_iff.mpr ?_⟩
    rw [← hq, List.dropLast_concat_getLast]
    exact hmem
  rw [hempty] at hentry
  exact absurd hentry List.not_mem_nil

theorem names_erase (disk : Disk) (q : List Str) :
    ∀ e ∈ disk.nodes.filter fun e => e.1 ≠ q, ∀ n ∈ e.1, EntryName n :=
  fun e he => disk.names e (List.mem_filter.mp he).1

def erase (disk : Disk) (q : List Str) (hq : q ≠ []) (hempty : disk.entries q = []) : Disk :=
  ⟨disk.nodes.filter fun e => e.1 ≠ q, nodup_erase disk q, root_mem_erase hq,
    closed_erase hempty, names_erase disk q⟩

/-- `os.remove`: a directory with entries stays. -/
def remove (disk : Disk) (cwd : List Str) (p : Str) : Disk :=
  match disk.resolve cwd p with
  | none => disk
  | some q => if h : q ≠ [] ∧ disk.entries q = [] then disk.erase q h.1 h.2 else disk

end Disk

/-- What can go wrong when a directory is removed: a search fails, the function of the library
is missing, or the recursion does not come to an end. -/
inductive RmdirError
  | search (e : MatchError)
  | callNil
  | outOfFuel
  deriving DecidableEq, Repr

def matchdirs (disk : Disk) (cwd : List Str) (fuel : ℕ) (masks : List Str) :
    Except MatchError (List Str) := do
  return (← masks.mapM fun mask => domatch disk cwd fuel mask false).flatten

/-- `local builtin_rmdir = pmos.rmdir`, which would remove an empty directory. -/
def builtin_rmdir : Option (Disk → List Str → Str → Disk) :=
  if "rmdir".toList ∈ pmosFunctions ++ osFunctions then some Disk.remove else none

def contents (p : Str) : Str := p ++ "/*".toList

/-- `os.rmdir`: what is left on the disk. -/
def rmdir (cwd : List Str) : ℕ → Disk → Str → Except RmdirError Disk
  | 0, _, _ => .error .outOfFuel
  | fuel + 1, disk, p => do
    let dirs ← (matchdirs disk cwd fuel [contents p]).mapError .search
    let disk ← dirs.foldlM (rmdir cwd fuel) disk
    let files ← (matchfiles disk cwd fuel [contents p]).mapError .search
    let disk := files.foldl (fun disk fname => disk.remove cwd fname) disk
    match builtin_rmdir with
    | none => .error .callNil
    | some builtin => return builtin disk cwd p

/-- The directory `d` that the path leads to is removed with everything below it, and nothing
else is. -/
def RemovesTree (disk : Disk) (cwd : List Str) (p : Str) : Prop :=
  ∃ fuel₀, ∀ fuel, fuel₀ ≤ fuel → ∃ disk' : Disk, rmdir cwd fuel disk p = .ok disk' ∧
    ∃ d, disk.resolve cwd p = some d ∧
      ∀ q, disk'.kind? q = if d <+: q then none else disk.kind? q

section Rmdir

variable (disk : Disk) (cwd : List Str) (p : Str)

theorem builtin_rmdir_eq_none : builtin_rmdir = none := if_neg (by decide)

theorem rmdir_ne_ok (fuel : ℕ) (disk' : Disk) : rmdir cwd fuel disk p ≠ .ok disk' := by
  cases fuel with
  | zero =>
      intro h
      cases h
  | succ fuel =>
      intro h
      rw [rmdir, builtin_rmdir_eq_none] at h
      cases hdirs : (matchdirs disk cwd fuel [contents p]).mapError RmdirError.search with
      | error e =>
          rw [hdirs] at h
          cases h
      | ok dirs =>
          cases hbelow : dirs.foldlM (rmdir cwd fuel) disk with
          | error e => simp [hdirs, hbelow, bind, Except.bind] at h
          | ok below =>
              cases hfiles : (matchfiles below cwd fuel [contents p]).mapError
                  RmdirError.search with
              | error e => simp [hdirs, hbelow, hfiles, bind, Except.bind] at h
              | ok files => simp [hdirs, hbelow, hfiles, bind, Except.bind] at h

/-- `os.rmdir` removes no directory tree. -/
theorem not_removesTree : ¬ RemovesTree disk cwd p := by
  rintro ⟨fuel₀, h⟩
  obtain ⟨disk', hdisk', -⟩ := h fuel₀ le_rfl
  exact rmdir_ne_ok disk cwd p fuel₀ disk' hdisk'

end Rmdir

section Example

/-- The file in the directory `a` is removed; then the function of the library is missing. -/
theorem not_removesTree_a : ¬ RemovesTree oneBelow ["home".toList] "a".toList := by
  rintro ⟨fuel₀, h⟩
  obtain ⟨disk', hdisk', -⟩ := h fuel₀ le_rfl
  exact rmdir_ne_ok _ _ _ fuel₀ disk' hdisk'

end Example

end Os

end Puremake
