import Puremake.Api.Uuid
import Puremake.Api.Filelists
import Puremake.Bake.Platforms

/-!
# What the fields accept

The metadata in `premake.fields` says on which object a field is set and which values it takes.
`premake.checkvalue` looks a value up without regard to case, or calls a function, and what is
stored is the spelling that it returns. All the functions but the one of `links` return a value
that they would return again, so that a later test can compare strings.
-/

namespace Puremake

/-- `premake.fields[name].scope` -/
inductive Scope
  | config
  | container
  | solution
  deriving DecidableEq, Repr

def Field.scope : Field → Scope
  | .basedir | .framework | .language | .location | .uuid | .vpaths => .container
  | .configurations | .platforms => .solution
  | _ => .config

/-- The errors of the accessors: a message, an error of the pattern matcher, or one of the
search for files. -/
inductive AccessError
  | message (text : Str)
  | pattern (e : Lua.PatternError)
  | search (e : Os.MatchError)
  deriving DecidableEq, Repr

/-- `premake.fields[name].allowed`: a list of values, or a function that returns a value or
`nil` and a message. -/
inductive Allowed
  | values (vs : List Str)
  | function (check : Str → Except Lua.PatternError (Option Str × Option Str))

/-- The keys of `allowed_flags`. -/
def allowedFlags : List Str :=
  ["ATL".toList, "DebugEnvsDontMerge".toList, "DebugEnvsInherit".toList, "EnableSSE".toList,
    "EnableSSE2".toList, "ExtraWarnings".toList, "FatalWarnings".toList, "FloatFast".toList,
    "FloatStrict".toList, "Managed".toList, "MFC".toList, "NativeWChar".toList,
    "No64BitChecks".toList, "NoEditAndContinue".toList, "NoExceptions".toList,
    "NoFramePointer".toList, "NoImportLib".toList, "NoIncrementalLink".toList,
    "NoManifest".toList, "NoMinimalRebuild".toList, "NoNativeWChar".toList, "NoPCH".toList,
    "NoRTTI".toList, "Optimize".toList, "OptimizeSize".toList, "OptimizeSpeed".toList,
    "SEH".toList, "StaticATL".toList, "StaticRuntime".toList, "Symbols".toList,
    "Unicode".toList, "Unsafe".toList, "WinMain".toList]

def englishToAmericanSpelling : List (Str × Str) :=
  [("optimise".toList, "optimize".toList), ("optimisesize".toList, "optimizesize".toList),
    ("optimisespeed".toList, "optimizespeed".toList)]

/-- `premake.fields.flags.allowed` -/
def allowedFlag (ord : PairsOrder) (value : Str) :
    Except Lua.PatternError (Option Str × Option Str) :=
  let lowervalue := Str.lower value
  let lowervalue := (englishToAmericanSpelling.lookup lowervalue).getD lowervalue
  match (ord.enum allowedFlags).find? fun v => Str.lower v = lowervalue with
  | some v => .ok (some v, none)
  | none => .ok (none, some "invalid flag".toList)

/-- `premake.fields.links.allowed` -/
def allowedLink (cwd value : Str) : Except Lua.PatternError (Option Str × Option Str) :=
  .ok (some (if '/' ∈ value then Path.getabsolute cwd value else value), none)

def Field.allowed (ord : PairsOrder) (cwd : Str) : Field → Option Allowed
  | .buildaction => some (.values ["Compile".toList, "Copy".toList, "Embed".toList, "None".toList])
  | .flags => some (.function (allowedFlag ord))
  | .framework => some (.values ["1.0".toList, "1.1".toList, "2.0".toList, "3.0".toList,
      "3.5".toList, "4.0".toList, "4.5".toList])
  | .kind => some (.values ["ConsoleApp".toList, "WindowedApp".toList, "StaticLib".toList,
      "SharedLib".toList])
  | .language => some (.values ["C".toList, "C++".toList, "C#".toList])
  | .links => some (.function (allowedLink cwd))
  | .platforms => some (.values (ord.enum (Puremake.platforms.map Prod.fst)))
  | .uuid => some (.function Uuid.allowed)
  | _ => none

/-- `premake.checkvalue`, and the error that its callers raise for `nil`. -/
def checkvalue (value : Str) : Option Allowed → Except AccessError Str
  | none => .ok value
  | some (.values vs) =>
      match vs.find? fun v => Str.lower value = Str.lower v with
      | some v => .ok v
      | none => .error (.message ("invalid value '".toList ++ value ++ "'".toList))
  | some (.function check) =>
      match check value with
      | .ok (some v, _) => .ok v
      | .ok (none, err) => .error (.message (err.getD []))
      | .error e => .error (.pattern e)

/-- A string that `path.getabsolute` or `os.getcwd` returns somewhere. -/
def IsPlaced (v : Str) : Prop :=
  ∃ dir : List Str, v = Os.currentdir dir ∨ ∃ p, v = Path.getabsolute (Os.currentdir dir) p

/-- What a field holds once it is checked: a value that passes its own check and is left as it
is, or a path that was made absolute. A link is a path when it has a slash in it. -/
def Field.Settled (f : Field) (v : Str) : Prop :=
  if f = .links then '/' ∈ v → IsPlaced v
  else match f.fieldKind with
    | .path | .dirlist | .filelist => IsPlaced v
    | _ => ∀ ord cwd, checkvalue v (f.allowed ord cwd) = .ok v

section Canonical

/-- A list in which no two values are the same but for their case finds every value of its own. -/
theorem find?_lower_self {vs : List Str} (h : (vs.map Str.lower).Nodup) {v : Str} (hv : v ∈ vs) :
    vs.find? (fun w => Str.lower v = Str.lower w) = some v := by
  induction vs with
  | nil => cases hv
  | cons w vs ih =>
      rw [List.map_cons, List.nodup_cons] at h
      rcases List.mem_cons.mp hv with rfl | hv
      · exact List.find?_cons_of_pos (decide_eq_true rfl)
      · rw [List.find?_cons_of_neg, ih h.2 hv]
        rw [decide_eq_true_eq]
        intro heq
        exact h.1 (heq ▸ List.mem_map_of_mem hv)

theorem mem_of_checkvalue {vs : List Str} {x v : Str}
    (h : checkvalue x (some (.values vs)) = .ok v) : v ∈ vs := by
  rw [checkvalue] at h
  cases hfind : vs.find? (fun w => Str.lower x = Str.lower w) with
  | none =>
      rw [hfind] at h
      cases h
  | some w =>
      rw [hfind] at h
      cases h
      exact List.mem_of_find?_eq_some hfind

theorem checkvalue_values {vs : List Str} (h : (vs.map Str.lower).Nodup) {v : Str}
    (hv : v ∈ vs) : checkvalue v (some (.values vs)) = .ok v := by
  rw [checkvalue, find?_lower_self h hv]

theorem nodup_lower_platforms : ((Puremake.platforms.map Prod.fst).map Str.lower).Nodup := by
  decide

theorem nodup_lower_allowedFlags : (allowedFlags.map Str.lower).Nodup := by
  decide +kernel

theorem lookup_american {v : Str} (hv : v ∈ allowedFlags) :
    englishToAmericanSpelling.lookup (Str.lower v) = none := by
  revert v
  decide +kernel

theorem mem_of_allowedFlag {ord : PairsOrder} {x v : Str} {msg : Option Str}
    (h : allowedFlag ord x = .ok (some v, msg)) : v ∈ allowedFlags := by
  rw [allowedFlag] at h
  split at h
  · rename_i w hfind
    cases h
    exact ord.mem_enum.mp (List.mem_of_find?_eq_some hfind)
  · cases h

/-- The order in which the flags are looked at makes no difference, and a flag is its own
spelling. -/
theorem allowedFlag_self (ord : PairsOrder) {v : Str} (hv : v ∈ allowedFlags) :
    allowedFlag ord v = .ok (some v, none) := by
  have hnodup : ((ord.enum allowedFlags).map Str.lower).Nodup :=
    ((ord.perm allowedFlags).map Str.lower).nodup_iff.mpr nodup_lower_allowedFlags
  have hfind : (ord.enum allowedFlags).find? (fun w => Str.lower w = Str.lower v) = some v := by
    rw [← find?_lower_self hnodup (ord.mem_enum.mpr hv)]
    congr 1
    funext w
    exact decide_eq_decide.mpr eq_comm
  rw [allowedFlag, lookup_american hv, Option.getD_none, hfind]

theorem checkvalue_function {check : Str → Except Lua.PatternError (Option Str × Option Str)}
    {x v : Str} :
    checkvalue x (some (.function check)) = .ok v ↔ ∃ msg, check x = .ok (some v, msg) := by
  rw [checkvalue]
  cases check x with
  | error e =>
      constructor
      · intro h
        cases h
      · rintro ⟨_, h⟩
        cases h
  | ok r =>
      obtain ⟨o, msg⟩ := r
      cases o with
      | none =>
          constructor
          · intro h
            cases h
          · rintro ⟨_, h⟩
            cases h
      | some w =>
          constructor
          · intro h
            cases h
            exact ⟨msg, rfl⟩
          · rintro ⟨_, h⟩
            cases h
            rfl

theorem checkvalue_again {f : Field} (hf : f ≠ .links) {ord : PairsOrder} {cwd x v : Str}
    (h : checkvalue x (f.allowed ord cwd) = .ok v) (ord' : PairsOrder) (cwd' : Str) :
    checkvalue v (f.allowed ord' cwd') = .ok v := by
  cases f with
  | buildaction => exact checkvalue_values (by decide) (mem_of_checkvalue h)
  | framework => exact checkvalue_values (by decide) (mem_of_checkvalue h)
  | kind => exact checkvalue_values (by decide) (mem_of_checkvalue h)
  | language => exact checkvalue_values (by decide) (mem_of_checkvalue h)
  | platforms =>
      refine checkvalue_values ?_ (ord'.mem_enum.mpr (ord.mem_enum.mp (mem_of_checkvalue h)))
      exact ((ord'.perm _).map Str.lower).nodup_iff.mpr nodup_lower_platforms
  | flags =>
      obtain ⟨msg, h⟩ := checkvalue_function.mp h
      exact checkvalue_function.mpr ⟨none, allowedFlag_self ord' (mem_of_allowedFlag h)⟩
  | uuid =>
      obtain ⟨msg, h⟩ := checkvalue_function.mp h
      rw [Uuid.allowed_eq] at h
      split at h
      · rename_i hshape
        cases h
        refine checkvalue_function.mpr ⟨none, ?_⟩
        rw [Uuid.allowed_eq, if_pos (Uuid.hasShape_upper hshape), Uuid.upper_upper hshape]
      · cases h
  | links => exact absurd rfl hf
  | _ => rfl

theorem settled_of_checkvalue {f : Field} {ord : PairsOrder} {dir : List Str} {x v : Str}
    (hpath : f.fieldKind = .string ∨ f.fieldKind = .list)
    (h : checkvalue x (f.allowed ord (Os.currentdir dir)) = .ok v) : f.Settled v := by
  rw [Field.Settled]
  split
  · rename_i hlinks
    subst hlinks
    obtain ⟨msg, h⟩ := checkvalue_function.mp h
    rw [allowedLink] at h
    split at h
    · cases h
      exact fun _ => ⟨dir, Or.inr ⟨x, rfl⟩⟩
    · rename_i hslash
      cases h
      exact fun hmem => absurd hmem hslash
  · rename_i hlinks
    rcases hpath with hkind | hkind
    · rw [hkind]
      exact checkvalue_again hlinks h
    · rw [hkind]
      exact checkvalue_again hlinks h

end Canonical

/-- The digits of `%X`. -/
def upperDigit (n : ℕ) : Char := (Nat.digitChar (n % 16)).toUpper

/-- `%04X`, for a number of 16 bits. -/
def hex4 (n : Fin 0x10000) : Str :=
  [upperDigit (n / 0x1000), upperDigit (n / 0x100), upperDigit (n / 0x10), upperDigit n]

/-- `os.uuid`, for the eight numbers that `math.random(0,0xffff)` gives. -/
def Os.uuid (r : Fin 8 → Fin 0x10000) : Str :=
  hex4 (r 0) ++ hex4 (r 1) ++ '-' :: (hex4 (r 2) ++ '-' :: (hex4 (r 3) ++
    '-' :: (hex4 (r 4) ++ '-' :: (hex4 (r 5) ++ hex4 (r 6) ++ hex4 (r 7)))))

theorem upperDigit_mod (n : ℕ) : upperDigit n = upperDigit (n % 16) := by
  simp only [upperDigit, Nat.mod_mod]

theorem upperDigit_mem (n : ℕ) :
    upperDigit n ∈ Uuid.hexDigits ∧ (upperDigit n).toUpper = upperDigit n := by
  have hmem : ∀ d < 16, upperDigit d ∈ Uuid.hexDigits ∧
      (upperDigit d).toUpper = upperDigit d := by decide +kernel
  rw [upperDigit_mod]
  exact hmem (n % 16) (Nat.mod_lt n (by decide))

/-- A project gets an identifier that passes the check of its field. -/
theorem settled_uuid (r : Fin 8 → Fin 0x10000) : Field.uuid.Settled (Os.uuid r) := by
  have hshape : Uuid.HasShape (Os.uuid r) := by
    refine ⟨rfl, ?_, ?_⟩
    · simp [Os.uuid, hex4, (upperDigit_mem _).1]
    · simp [Os.uuid, hex4]
  have hupper : (Os.uuid r).upper = Os.uuid r := by
    simp [Os.uuid, hex4, Str.upper, (upperDigit_mem _).2]
  intro ord cwd
  refine checkvalue_function.mpr ⟨none, ?_⟩
  rw [Uuid.allowed_eq, if_pos hshape, hupper]

end Puremake
